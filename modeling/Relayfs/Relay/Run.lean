/-
  File:      Relayfs/Relay/Run.lean
  Subject:   RUNS OF THE RELAY: the tasks of its connections, in any interleaving.

  Each connection has one task (`handle_connection`): it waits for a hello, registers the peer,
  then reads frames and performs the sends a frame leads to before it reads the next one. The
  registry's locks are held for one step each; between two steps of a task any other may run.

  * `RelayState`, `RelayEvent`, `RelayStep` -- the system;
  * `registered`, `joined` -- what a history says: the agents, and the peers of a kind, that
    registered under a token, in order;
  * `TaskStep`, `taskStep_of_step` -- what one step does;
  * `PeersInv`, `RelayInv` -- the peers of a kind and token are the registered ones whose
    connection is still read, in registration order.
-/
import Relayfs.Lib.Run
import Relayfs.Relay.Relay

namespace Relayfs

open Lib

/-! ## 1. The system -/

/-- What a task does before it reads the next frame: a send, `forward_to_bridges` of a
    notification of the relay, or the hello_ack. -/
inductive Job where
  | send (s : Send)
  | broadcast (token : String) (frame : Frame)
  | ack (token : String) (peer : RelayPeer)

/-- The task of a connection: the token and peer it registered, whether it still reads its
    socket, and what it has to do before. -/
structure ConnTask where
  registered : Option (String × RelayPeer)
  reading : Bool
  jobs : List Job

structure RelayState where
  app : AppState
  tasks : Table Nat ConnTask

inductive RelayEvent where
  /-- A WebSocket is upgraded. -/
  | accept (conn : Nat)
  /-- The first frame: a `Hello`, or `none` for anything else. -/
  | hello (conn : Nat) (hello : Option Hello) (d : Draws)
  /-- A further frame. -/
  | frame (conn : Nat) (frame : Frame)
  /-- The task performs its next job; a send may fail with an error. -/
  | job (conn : Nat) (error : Option String)
  /-- `read_frame` ends the read loop. -/
  | close (conn : Nat)

/-- The notification `register_agent` sends to the bridges. -/
def agentConnected (peer : RelayPeer) : Frame :=
  .notification "agent_connected"
    (.obj [("agent_id", .str peer.hello.id), ("name", .str peer.hello.name)])

/-- `notify_bridges_agent_gone`. -/
def agentDisconnected (peer : RelayPeer) : Frame :=
  .notification "agent_disconnected" (.obj [("agent_id", .str peer.hello.id)])

/-- The hello_ack: a bridge is told the agent that registered last. -/
def helloAck (st : AppState) (token : String) (peer : RelayPeer) : Frame :=
  let agentId : Option String :=
    match peer.hello.kind with
    | .bridge => (row st.agents token).getLast?.map fun p : RelayPeer => p.hello.id
    | .agent => some peer.hello.id
  .notification "hello_ack" (.obj ([("session", .str peer.session)]
    ++ (agentId.map fun i => ("agent_id", Json.str i)).toList))

/-- The jobs after the next one was performed. -/
def nextJobs (st : AppState) (error : Option String) : List Job → List Job
  | [] => []
  | .send s :: rest =>
      match error, s.orElse with
      | some e, some f => .send ⟨(f e).1, (f e).2, none⟩ :: rest
      | _, _ => rest
  | .broadcast token frame :: rest => (forwardToBridges st token frame).map .send ++ rest
  | .ack token peer :: rest => .send ⟨peer.conn, helloAck st token peer, none⟩ :: rest

/-- The registration of a peer whose hello was accepted, with the jobs that follow it. -/
def register (st : AppState) (token : String) (hello : Hello) (conn : Nat) (d : Draws) :
    AppState × RelayPeer × List Job :=
  match hello.kind with
  | .agent =>
      let peer := agentPeer st hello conn d
      (registerAgent st token hello conn d, peer,
        [.broadcast token (agentConnected peer), .ack token peer])
  | .bridge =>
      let peer := bridgePeer hello conn d
      (registerBridge st token peer, peer, [.ack token peer])

/-- The cleanup of a peer, with the jobs that follow it. -/
def unregister (st : AppState) (token : String) (peer : RelayPeer) : AppState × List Job :=
  match peer.hello.kind with
  | .agent =>
      (cleanupAgent st token peer,
        if (row st.agents token).any fun p => p.conn = peer.conn then
          [.broadcast token (agentDisconnected peer)]
        else [])
  | .bridge => (cleanupBridge st token peer, [])

/-- When an event can happen. -/
def RelayState.permits (st : RelayState) : RelayEvent → Prop
  | .accept conn => st.tasks.lookup conn = none
  | .hello conn _ _ => ∃ t ∈ st.tasks.lookup conn, t.registered = none ∧ t.reading = true
  | .frame conn _ | .close conn =>
      ∃ t ∈ st.tasks.lookup conn, t.registered.isSome ∧ t.reading = true ∧ t.jobs.isEmpty
  | .job conn _ => ∃ t ∈ st.tasks.lookup conn, t.jobs.isEmpty = false

instance RelayState.decPermits (st : RelayState) : ∀ e, Decidable (st.permits e)
  | .accept conn => decidable_of_iff ((st.tasks.lookup conn).isNone) Option.isNone_iff_eq_none
  | .hello conn _ _ =>
      inferInstanceAs (Decidable (∃ t ∈ st.tasks.lookup conn, _))
  | .frame conn _ => inferInstanceAs (Decidable (∃ t ∈ st.tasks.lookup conn, _))
  | .close conn => inferInstanceAs (Decidable (∃ t ∈ st.tasks.lookup conn, _))
  | .job conn _ => inferInstanceAs (Decidable (∃ t ∈ st.tasks.lookup conn, _))

/-- What an event does. -/
def RelayState.next (st : RelayState) : RelayEvent → RelayState
  | .accept conn => { st with tasks := st.tasks.insert conn ⟨none, true, []⟩ }
  | .hello conn hello d =>
      match hello.bind fun h => (st.app.validToken h).map fun t => (h, t) with
      | none => { st with tasks := st.tasks.insert conn ⟨none, false, []⟩ }
      | some (h, token) =>
          let r := register st.app token h conn d
          ⟨r.1, st.tasks.insert conn ⟨some (token, r.2.1), true, r.2.2⟩⟩
  | .frame conn frame =>
      match st.tasks.lookup conn with
      | some ⟨some (token, peer), reading, jobs⟩ =>
          let sends := handleFrame st.app token peer frame
          { st with
            tasks := st.tasks.insert conn
              ⟨some (token, peer), reading, jobs ++ sends.map .send⟩ }
      | _ => st
  | .job conn error =>
      match st.tasks.lookup conn with
      | some t =>
          { st with tasks := st.tasks.insert conn { t with jobs := nextJobs st.app error t.jobs } }
      | none => st
  | .close conn =>
      match st.tasks.lookup conn with
      | some ⟨some (token, peer), _, jobs⟩ =>
          let r := unregister st.app token peer
          ⟨r.1, st.tasks.insert conn ⟨some (token, peer), false, jobs ++ r.2⟩⟩
      | _ => st

abbrev RelayStep : RelayState → RelayEvent → RelayState → Prop :=
  Moves RelayState.permits RelayState.next

/-- A relay that has just started. -/
def RelayInit (st : RelayState) : Prop := ∃ requiredToken, st = ⟨.new requiredToken, ∅⟩

abbrev RelayRun (hist : List (RelayState × RelayEvent)) (st : RelayState) : Prop :=
  Run RelayInit RelayStep hist st

/-! ## 2. Registrations -/

/-- The agents that registered under a token in a history, oldest first. -/
def registered (token : String) : List (RelayState × RelayEvent) → List RelayPeer
  | [] => []
  | (st, .hello conn (some h) d) :: hist =>
      if h.kind = .agent ∧ st.app.validToken h = some token then
        registered token hist ++ [agentPeer st.app h conn d]
      else registered token hist
  | _ :: hist => registered token hist

/-- The task of a connection still reads its socket. -/
def RelayState.IsOpen (st : RelayState) (conn : Nat) : Prop :=
  ∃ t ∈ st.tasks.lookup conn, t.reading = true

instance (st : RelayState) (conn : Nat) : Decidable (st.IsOpen conn) :=
  inferInstanceAs (Decidable (∃ t ∈ st.tasks.lookup conn, _))

/-- The registered peers of a kind. -/
def AppState.peers (app : AppState) : PeerKind → Table String (List RelayPeer)
  | .agent => app.agents
  | .bridge => app.bridges

/-- The peer that registers with a hello. -/
def newcomer (app : AppState) (hello : Hello) (conn : Nat) (d : Draws) : RelayPeer :=
  match hello.kind with
  | .agent => agentPeer app hello conn d
  | .bridge => bridgePeer hello conn d

/-- The peers of a kind that registered under a token in a history, oldest first. -/
def joined (kind : PeerKind) (token : String) : List (RelayState × RelayEvent) → List RelayPeer
  | [] => []
  | (st, .hello conn (some h) d) :: hist =>
      if h.kind = kind ∧ st.app.validToken h = some token then
        joined kind token hist ++ [newcomer st.app h conn d]
      else joined kind token hist
  | _ :: hist => joined kind token hist

section Registry

variable (app : AppState) (token : String) (hello : Hello) (conn : Nat) (d : Draws)

theorem newcomer_conn : (newcomer app hello conn d).conn = conn := by
  unfold newcomer
  split <;> rfl

theorem newcomer_kind : (newcomer app hello conn d).hello.kind = hello.kind := by
  unfold newcomer
  split <;> rfl

theorem newcomer_token : (newcomer app hello conn d).hello.token = hello.token := by
  unfold newcomer
  split <;> rfl

theorem register_peer : (register app token hello conn d).2.1 = newcomer app hello conn d := by
  unfold register newcomer
  split <;> rfl

/-- A registration adds the newcomer behind the peers of its kind and token. -/
theorem row_register (kind : PeerKind) (tok : String) :
    row ((register app token hello conn d).1.peers kind) tok
      = if hello.kind = kind ∧ tok = token then
          row (app.peers kind) tok ++ [newcomer app hello conn d]
        else row (app.peers kind) tok := by
  unfold register newcomer
  by_cases htok : tok = token
  · subst htok
    cases hk : hello.kind <;> cases kind
    · rw [if_pos ⟨rfl, rfl⟩]
      exact row_insert_self _ _ _
    · rw [if_neg fun hc => by cases hc.1]
      rfl
    · rw [if_neg fun hc => by cases hc.1]
      rfl
    · rw [if_pos ⟨rfl, rfl⟩]
      exact row_insert_self _ _ _
  · rw [if_neg fun hc => htok hc.2]
    cases hk : hello.kind <;> cases kind
    · exact row_insert_ne htok _ _
    · rfl
    · rfl
    · exact row_insert_ne htok _ _

theorem unregister_fst (peer : RelayPeer) : (unregister app token peer).1
    = match peer.hello.kind with
      | .agent => cleanupAgent app token peer
      | .bridge => cleanupBridge app token peer := by
  unfold unregister
  split <;> rfl

/-- A cleanup takes the peer out of the peers of its kind and token. -/
theorem row_unregister (peer : RelayPeer) (kind : PeerKind) (tok : String) :
    row ((unregister app token peer).1.peers kind) tok
      = if peer.hello.kind = kind ∧ tok = token then
          (row (app.peers kind) tok).filter (·.conn ≠ peer.conn)
        else row (app.peers kind) tok := by
  rw [unregister_fst]
  by_cases htok : tok = token
  · subst htok
    cases hk : peer.hello.kind <;> cases kind
    · rw [if_pos ⟨rfl, rfl⟩]
      exact row_cleanupBridge_self _ _ _
    · rw [if_neg fun hc => by cases hc.1]
      exact congrArg (row · tok) (cleanupBridge_agents _ _ _)
    · rw [if_neg fun hc => by cases hc.1]
      exact congrArg (row · tok) (cleanupAgent_bridges _ _ _)
    · rw [if_pos ⟨rfl, rfl⟩]
      exact row_cleanupAgent_self _ _ _
  · rw [if_neg fun hc => htok hc.2]
    cases hk : peer.hello.kind <;> cases kind
    · exact row_cleanupBridge_ne _ _ _ htok
    · exact congrArg (row · tok) (cleanupBridge_agents _ _ _)
    · exact congrArg (row · tok) (cleanupAgent_bridges _ _ _)
    · exact row_cleanupAgent_ne _ _ _ htok

variable {app token hello conn d} {job : Job} {kind : PeerKind} {tok : String} {p : RelayPeer}

theorem mem_row_register (h : p ∈ row ((register app token hello conn d).1.peers kind) tok) :
    p ∈ row (app.peers kind) tok ∨ hello.kind = kind ∧ p = newcomer app hello conn d := by
  rw [row_register] at h
  split at h
  · rename_i hc
    exact (List.mem_append.mp h).imp_right fun h => ⟨hc.1, List.mem_singleton.mp h⟩
  · left
    exact h

theorem mem_row_unregister {peer : RelayPeer}
    (h : p ∈ row ((unregister app token peer).1.peers kind) tok) :
    p ∈ row (app.peers kind) tok := by
  rw [row_unregister] at h
  split at h
  · exact List.mem_of_mem_filter h
  · exact h

/-- The jobs of a registration: the notification of an agent, and the acknowledgement. -/
theorem mem_register_jobs (h : job ∈ (register app token hello conn d).2.2) :
    job = .broadcast token (agentConnected (newcomer app hello conn d)) ∨
      job = .ack token (newcomer app hello conn d) := by
  unfold register newcomer at *
  split at h
  · exact (List.mem_cons.mp h).imp_right List.mem_singleton.mp
  · right
    exact List.mem_singleton.mp h

theorem mem_unregister_jobs {peer : RelayPeer} (h : job ∈ (unregister app token peer).2) :
    job = .broadcast token (agentDisconnected peer) := by
  unfold unregister at h
  split at h
  · dsimp only at h
    split at h
    · exact List.mem_singleton.mp h
    · exact absurd h List.not_mem_nil
  · exact absurd h List.not_mem_nil

end Registry

/-- The agents that joined are those that registered. -/
theorem joined_agent (token : String) : ∀ hist : List (RelayState × RelayEvent),
    joined .agent token hist = registered token hist
  | [] => rfl
  | (st, e) :: hist => by
      have ih := joined_agent token hist
      cases e with
      | hello conn hello d =>
        cases hello with
        | none => exact ih
        | some h =>
          rw [joined, registered, ih]
          by_cases hc : h.kind = .agent ∧ st.app.validToken h = some token
          · rw [if_pos hc, if_pos hc, newcomer, hc.1]
          · rw [if_neg hc, if_neg hc]
      | _ => exact ih

/-! ## 3. The invariant -/

/-- **The invariant for the peers of a kind**, against the history. -/
structure PeersInv (kind : PeerKind) (hist : List (RelayState × RelayEvent)) (st : RelayState) :
    Prop where
  peers : ∀ token, row (st.app.peers kind) token
    = (joined kind token hist).filter fun p => st.IsOpen p.conn
  task : ∀ token, ∀ p ∈ joined kind token hist, p.hello.kind = kind ∧
    ∃ t ∈ st.tasks.lookup p.conn, t.registered = some (token, p)
  conn : ∀ conn, ∀ t ∈ st.tasks.lookup conn, ∀ token p, t.registered = some (token, p) →
    p.conn = conn
  nodup : ∀ token, ((joined kind token hist).map (·.conn)).Nodup

theorem peersInv_init {kind : PeerKind} {st : RelayState} (h : RelayInit st) :
    PeersInv kind [] st := by
  obtain ⟨requiredToken, rfl⟩ := h
  exact
    { peers := fun token => by cases kind <;> simp [joined, AppState.new, AppState.peers]
      task := fun token p hp => by simp [joined] at hp
      conn := fun conn t ht => by simp at ht
      nodup := fun token => List.nodup_nil }

section Insert

variable {kind : PeerKind} {st : RelayState} {app : AppState} {conn : Nat} {t t' : ConnTask}

theorem isOpen_insert_self :
    (RelayState.mk app (st.tasks.insert conn t)).IsOpen conn ↔ t.reading = true := by
  simp [RelayState.IsOpen, AList.lookup_insert]

theorem isOpen_insert_ne {c : Nat} (h : c ≠ conn) :
    (RelayState.mk app (st.tasks.insert conn t)).IsOpen c ↔ st.IsOpen c := by
  simp [RelayState.IsOpen, AList.lookup_insert_ne h]

/-- A step that leaves a task's registration and its reading as they are keeps the
    invariant. -/
theorem PeersInv.same {hist hist' : List (RelayState × RelayEvent)} (h : PeersInv kind hist st)
    (hjoin : ∀ token, joined kind token hist' = joined kind token hist)
    (ht : st.tasks.lookup conn = some t) (hr : t'.registered = t.registered)
    (hd : t'.reading = t.reading) : PeersInv kind hist' ⟨st.app, st.tasks.insert conn t'⟩ := by
  have hopen : ∀ c, (RelayState.mk st.app (st.tasks.insert conn t')).IsOpen c ↔ st.IsOpen c := by
    intro c
    by_cases hc : c = conn
    · subst hc
      rw [isOpen_insert_self, hd]
      simp [RelayState.IsOpen, ht]
    · exact isOpen_insert_ne hc
  have htask : ∀ c, ∀ u ∈ (st.tasks.insert conn t').lookup c,
      ∃ v ∈ st.tasks.lookup c, v.registered = u.registered := by
    intro c u hu
    by_cases hc : c = conn
    · subst hc
      rw [AList.lookup_insert, Option.mem_some_iff] at hu
      subst hu
      exact ⟨t, ht, hr.symm⟩
    · rw [AList.lookup_insert_ne hc] at hu
      exact ⟨u, hu, rfl⟩
  exact
    { peers := fun token => by
        simp only [hjoin, hopen]
        exact h.peers token
      task := fun token p hp => by
        rw [hjoin] at hp
        obtain ⟨hk, u, hu, hup⟩ := h.task token p hp
        refine ⟨hk, ?_⟩
        by_cases hc : p.conn = conn
        · rw [hc] at hu
          rw [ht] at hu
          cases hu
          exact ⟨t', by rw [hc, AList.lookup_insert]; rfl, hr.trans hup⟩
        · exact ⟨u, by rwa [AList.lookup_insert_ne hc], hup⟩
      conn := fun c u hu token p hup => by
        obtain ⟨v, hv, hvu⟩ := htask c u hu
        exact h.conn c v hv token p (hvu.trans hup)
      nodup := fun token => by
        rw [hjoin]
        exact h.nodup token }

/-- A step on a connection that has registered nothing, and registers nothing, keeps the
    invariant. -/
theorem PeersInv.foreign {hist hist' : List (RelayState × RelayEvent)}
    (h : PeersInv kind hist st)
    (hjoin : ∀ token, joined kind token hist' = joined kind token hist)
    (hfree : ∀ token, ∀ p ∈ joined kind token hist, p.conn ≠ conn)
    (hnone : t'.registered = none) : PeersInv kind hist' ⟨st.app, st.tasks.insert conn t'⟩ where
  peers token := by
    rw [hjoin, h.peers token]
    refine List.filter_congr fun p hp => ?_
    rw [decide_eq_decide, isOpen_insert_ne (hfree token p hp)]
  task token p hp := by
    rw [hjoin] at hp
    obtain ⟨hk, u, hu, hup⟩ := h.task token p hp
    refine ⟨hk, u, ?_, hup⟩
    dsimp only
    rwa [AList.lookup_insert_ne (hfree token p hp)]
  conn c u hu token p hup := by
    by_cases hc : c = conn
    · subst hc
      rw [AList.lookup_insert, Option.mem_some_iff] at hu
      subst hu
      rw [hnone] at hup
      cases hup
    · rw [AList.lookup_insert_ne hc] at hu
      exact h.conn c u hu token p hup
  nodup token := by
    rw [hjoin]
    exact h.nodup token

end Insert

section Peer

variable {kind : PeerKind} {hist : List (RelayState × RelayEvent)} {st : RelayState} {conn : Nat}
  {token : String}

/-- The connection of a registered peer has a task that says so. -/
theorem PeersInv.free (h : PeersInv kind hist st)
    (hn : ∀ t ∈ st.tasks.lookup conn, t.registered = none) :
    ∀ token, ∀ p ∈ joined kind token hist, p.conn ≠ conn := by
  intro token p hp hc
  obtain ⟨_, t, ht, hr⟩ := h.task token p hp
  rw [hc] at ht
  rw [hn t ht] at hr
  cases hr

/-- A peer registers. -/
theorem PeersInv.join (h : PeersInv kind hist st)
    (hfree : ∀ token, ∀ p ∈ joined kind token hist, p.conn ≠ conn) {hello : Hello} {d : Draws}
    (hv : st.app.validToken hello = some token) {jobs : List Job} :
    PeersInv kind ((st, .hello conn (some hello) d) :: hist)
      ⟨(register st.app token hello conn d).1,
        st.tasks.insert conn ⟨some (token, newcomer st.app hello conn d), true, jobs⟩⟩ := by
  have hjoin : ∀ tok, joined kind tok ((st, .hello conn (some hello) d) :: hist)
      = if hello.kind = kind ∧ tok = token then
          joined kind tok hist ++ [newcomer st.app hello conn d]
        else joined kind tok hist := by
    intro tok
    have hc : st.app.validToken hello = some tok ↔ tok = token := by
      rw [hv, Option.some.injEq]
      exact eq_comm
    simp only [joined, hc]
  have hold : ∀ tok, (joined kind tok hist).filter (fun p => (RelayState.mk
        (register st.app token hello conn d).1
        (st.tasks.insert conn ⟨some (token, newcomer st.app hello conn d), true, jobs⟩)).IsOpen
          p.conn)
      = row (st.app.peers kind) tok := by
    intro tok
    rw [h.peers tok]
    refine List.filter_congr fun p hp => ?_
    rw [decide_eq_decide, isOpen_insert_ne (hfree tok p hp)]
  exact
    { peers := fun tok => by
        rw [row_register, hjoin]
        by_cases hc : hello.kind = kind ∧ tok = token
        · rw [if_pos hc, if_pos hc, List.filter_append, hold, List.filter_cons_of_pos,
            List.filter_nil]
          refine decide_eq_true ?_
          rw [newcomer_conn]
          exact isOpen_insert_self.mpr rfl
        · rw [if_neg hc, if_neg hc, hold]
      task := fun tok p hp => by
        by_cases hnew : p ∈ joined kind tok hist
        · obtain ⟨hkp, t, ht, hr⟩ := h.task tok p hnew
          refine ⟨hkp, t, ?_, hr⟩
          dsimp only
          rwa [AList.lookup_insert_ne (hfree tok p hnew)]
        · rw [hjoin] at hp
          by_cases hc : hello.kind = kind ∧ tok = token
          · obtain ⟨hk, rfl⟩ := hc
            rw [if_pos ⟨hk, rfl⟩, List.mem_append, List.mem_singleton] at hp
            obtain rfl := hp.resolve_left hnew
            refine ⟨(newcomer_kind _ _ _ _).trans hk,
              ⟨some (tok, newcomer st.app hello conn d), true, jobs⟩, ?_, rfl⟩
            rw [newcomer_conn]
            exact AList.lookup_insert _
          · rw [if_neg hc] at hp
            exact absurd hp hnew
      conn := fun c u hu tok p hup => by
        by_cases hc : c = conn
        · subst hc
          rw [AList.lookup_insert, Option.mem_some_iff] at hu
          subst hu
          cases hup
          exact newcomer_conn _ _ _ _
        · rw [AList.lookup_insert_ne hc] at hu
          exact h.conn c u hu tok p hup
      nodup := fun tok => by
        rw [hjoin]
        split
        · rw [List.map_append, List.nodup_append]
          refine ⟨h.nodup tok, List.nodup_singleton _, fun a ha b hb => ?_⟩
          obtain ⟨p, hp, rfl⟩ := List.mem_map.mp ha
          obtain rfl := List.mem_singleton.mp hb
          dsimp only
          rw [newcomer_conn]
          exact hfree tok p hp
        · exact h.nodup tok }

/-- A registered peer's connection ends. -/
theorem PeersInv.leave (h : PeersInv kind hist st) {peer : RelayPeer} {t : ConnTask}
    (ht : st.tasks.lookup conn = some t) (hr : t.registered = some (token, peer))
    {jobs : List Job} :
    PeersInv kind ((st, .close conn) :: hist)
      ⟨(unregister st.app token peer).1,
        st.tasks.insert conn ⟨some (token, peer), false, jobs⟩⟩ := by
  have hc : peer.conn = conn := h.conn conn t ht token peer hr
  have hown : ∀ tok, ∀ p ∈ joined kind tok hist, p.conn = conn →
      peer.hello.kind = kind ∧ tok = token := by
    intro tok p hp hpc
    obtain ⟨hk, u, hu, hup⟩ := h.task tok p hp
    rw [hpc] at hu
    rw [ht] at hu
    cases hu
    have heq : (tok, p) = (token, peer) := Option.some.inj (hup.symm.trans hr)
    cases heq
    exact ⟨hk, rfl⟩
  have hopen : ∀ p : RelayPeer, (RelayState.mk (unregister st.app token peer).1
        (st.tasks.insert conn ⟨some (token, peer), false, jobs⟩)).IsOpen p.conn
      ↔ p.conn ≠ conn ∧ st.IsOpen p.conn := by
    intro p
    by_cases hpc : p.conn = conn
    · rw [hpc, isOpen_insert_self]
      simp
    · rw [isOpen_insert_ne hpc]
      simp [hpc]
  exact
    { peers := fun tok => by
        simp only [joined, hopen]
        rw [row_unregister, h.peers tok]
        by_cases htok : peer.hello.kind = kind ∧ tok = token
        · rw [if_pos htok, List.filter_filter, hc]
          refine List.filter_congr fun p _ => ?_
          simp
        · rw [if_neg htok]
          refine List.filter_congr fun p hp => ?_
          have hne : p.conn ≠ conn := fun e => htok (hown tok p hp e)
          simp [hne]
      task := fun tok p hp => by
        obtain ⟨hk, u, hu, hup⟩ := h.task tok p hp
        refine ⟨hk, ?_⟩
        by_cases hpc : p.conn = conn
        · rw [hpc] at hu
          rw [ht] at hu
          cases hu
          exact ⟨_, by rw [hpc]; exact AList.lookup_insert _, hr.symm.trans hup⟩
        · refine ⟨u, ?_, hup⟩
          dsimp only
          rwa [AList.lookup_insert_ne hpc]
      conn := fun c u hu tok p hup => by
        by_cases hcc : c = conn
        · subst hcc
          rw [AList.lookup_insert, Option.mem_some_iff] at hu
          subst hu
          exact h.conn c t ht tok p (hr.trans hup)
        · rw [AList.lookup_insert_ne hcc] at hu
          exact h.conn c u hu tok p hup
      nodup := h.nodup }

end Peer

/-- What a hello that is accepted does. -/
theorem next_hello {st : RelayState} {conn : Nat} {hello : Hello} {d : Draws} {token : String}
    (hv : st.app.validToken hello = some token) :
    st.next (.hello conn (some hello) d)
      = ⟨(register st.app token hello conn d).1, st.tasks.insert conn
          ⟨some (token, newcomer st.app hello conn d), true,
            (register st.app token hello conn d).2.2⟩⟩ := by
  simp only [RelayState.next, Option.bind_some, hv, Option.map_some, register_peer]

/-- A hello that is not accepted ends its task. -/
theorem next_hello_none {st : RelayState} {conn : Nat} {hello : Option Hello} {d : Draws}
    (hv : ∀ h ∈ hello, st.app.validToken h = none) :
    st.next (.hello conn hello d)
      = { st with tasks := st.tasks.insert conn ⟨none, false, []⟩ } := by
  cases hello with
  | none => rfl
  | some h => simp only [RelayState.next, Option.bind_some, hv h rfl, Option.map_none]

/-- The connection of an event. -/
def RelayEvent.conn : RelayEvent → Nat
  | .accept conn | .hello conn _ _ | .frame conn _ | .job conn _ | .close conn => conn

/-- **What a step does**: the registry after it, and the task of its connection. -/
inductive TaskStep (st : RelayState) : RelayEvent → AppState → ConnTask → Prop where
  | accept {conn : Nat} (hfree : st.tasks.lookup conn = none) :
      TaskStep st (.accept conn) st.app ⟨none, true, []⟩
  | rejected {conn : Nat} {hello : Option Hello} {d : Draws} {t : ConnTask}
      (ht : st.tasks.lookup conn = some t) (hnone : t.registered = none)
      (hv : ∀ h ∈ hello, st.app.validToken h = none) :
      TaskStep st (.hello conn hello d) st.app ⟨none, false, []⟩
  | joined {conn : Nat} {hello : Hello} {d : Draws} {t : ConnTask} {token : String}
      (ht : st.tasks.lookup conn = some t) (hnone : t.registered = none)
      (hv : st.app.validToken hello = some token) :
      TaskStep st (.hello conn (some hello) d) (register st.app token hello conn d).1
        ⟨some (token, newcomer st.app hello conn d), true,
          (register st.app token hello conn d).2.2⟩
  | frame {conn : Nat} {f : Frame} {token : String} {peer : RelayPeer}
      (ht : st.tasks.lookup conn = some ⟨some (token, peer), true, []⟩) :
      TaskStep st (.frame conn f) st.app
        ⟨some (token, peer), true, (handleFrame st.app token peer f).map .send⟩
  | job {conn : Nat} {error : Option String} {t : ConnTask} (ht : st.tasks.lookup conn = some t)
      (hne : t.jobs.isEmpty = false) :
      TaskStep st (.job conn error) st.app { t with jobs := nextJobs st.app error t.jobs }
  | close {conn : Nat} {token : String} {peer : RelayPeer}
      (ht : st.tasks.lookup conn = some ⟨some (token, peer), true, []⟩) :
      TaskStep st (.close conn) (unregister st.app token peer).1
        ⟨some (token, peer), false, (unregister st.app token peer).2⟩

/-- Every step is one of these, and changes no other task. -/
theorem taskStep_of_step {st st' : RelayState} {e : RelayEvent} (hs : RelayStep st e st') :
    ∃ app t, TaskStep st e app t ∧ st' = ⟨app, st.tasks.insert e.conn t⟩ := by
  obtain ⟨hok, rfl⟩ := hs
  cases e with
  | accept conn => exact ⟨_, _, .accept hok, rfl⟩
  | hello conn hello d =>
    obtain ⟨t, ht, hnone, -⟩ := hok
    by_cases hv : ∀ h ∈ hello, st.app.validToken h = none
    · exact ⟨_, _, .rejected ht hnone hv, next_hello_none hv⟩
    · push Not at hv
      obtain ⟨h', hh', hv⟩ := hv
      obtain rfl : hello = some h' := hh'
      obtain ⟨token, hv⟩ := Option.ne_none_iff_exists'.mp hv
      exact ⟨_, _, .joined ht hnone hv, next_hello hv⟩
  | frame conn f =>
    obtain ⟨⟨reg, reading, jobs⟩, ht, hsome, hread, hempty⟩ := hok
    obtain ⟨⟨token, peer⟩, rfl⟩ := Option.isSome_iff_exists.mp hsome
    obtain rfl : reading = true := hread
    obtain rfl : jobs = [] := List.isEmpty_iff.mp hempty
    refine ⟨_, _, .frame ht, ?_⟩
    simp only [RelayState.next, Option.mem_def.mp ht, List.nil_append, RelayEvent.conn]
  | job conn error =>
    obtain ⟨t, ht, hne⟩ := hok
    refine ⟨_, _, .job ht hne, ?_⟩
    simp only [RelayState.next, Option.mem_def.mp ht, RelayEvent.conn]
  | close conn =>
    obtain ⟨⟨reg, reading, jobs⟩, ht, hsome, hread, hempty⟩ := hok
    obtain ⟨⟨token, peer⟩, rfl⟩ := Option.isSome_iff_exists.mp hsome
    obtain rfl : reading = true := hread
    obtain rfl : jobs = [] := List.isEmpty_iff.mp hempty
    refine ⟨_, _, .close ht, ?_⟩
    simp only [RelayState.next, Option.mem_def.mp ht, List.nil_append, RelayEvent.conn]

/-- A connection that has registered a peer keeps it. -/
theorem TaskStep.keeps {st : RelayState} {e : RelayEvent} {app : AppState} {t u : ConnTask}
    (h : TaskStep st e app t) (hu : st.tasks.lookup e.conn = some u)
    {r : String × RelayPeer} (hr : u.registered = some r) : t.registered = some r := by
  cases h with
  | accept hfree => cases hfree.symm.trans hu
  | rejected ht hnone _ | joined ht hnone _ =>
    cases ht.symm.trans hu
    cases hnone.symm.trans hr
  | frame ht | job ht _ | close ht =>
    cases ht.symm.trans hu
    exact hr

/-- **Every step keeps the invariant.** -/
theorem PeersInv.step {kind : PeerKind} {hist : List (RelayState × RelayEvent)}
    {st st' : RelayState} {e : RelayEvent} (h : PeersInv kind hist st) (hs : RelayStep st e st') :
    PeersInv kind ((st, e) :: hist) st' := by
  obtain ⟨app, t', htask, rfl⟩ := taskStep_of_step hs
  cases htask with
  | accept hfree =>
    refine h.foreign (fun _ => rfl) (h.free fun t ht => ?_) rfl
    cases hfree.symm.trans (Option.mem_def.mp ht)
  | @rejected conn hello d t ht hnone hv =>
    refine h.foreign (fun token => ?_) (h.free fun u hu => ?_) rfl
    · cases hello with
      | none => rfl
      | some h' => rw [joined, if_neg fun hc => by rw [hv h' rfl] at hc; cases hc.2]
    · cases Option.mem_unique ht hu
      exact hnone
  | joined ht hnone hv =>
    refine h.join (h.free fun u hu => ?_) hv
    cases Option.mem_unique ht hu
    exact hnone
  | frame ht => exact h.same (fun _ => rfl) ht rfl rfl
  | job ht _ => exact h.same (fun _ => rfl) ht rfl rfl
  | close ht => exact h.leave ht rfl

theorem RelayRun.peers {hist : List (RelayState × RelayEvent)} {st : RelayState}
    (h : RelayRun hist st) (kind : PeerKind) : PeersInv kind hist st :=
  h.history_invariant (fun _ h0 => peersInv_init h0) fun _ _ _ _ hi hs => hi.step hs

/-- **The relay's invariant**, against the history. -/
structure RelayInv (hist : List (RelayState × RelayEvent)) (st : RelayState) : Prop where
  agents : ∀ token, row st.app.agents token
    = (registered token hist).filter fun p => st.IsOpen p.conn
  task : ∀ token, ∀ p ∈ registered token hist, p.hello.kind = .agent ∧
    ∃ t ∈ st.tasks.lookup p.conn, t.registered = some (token, p)
  conn : ∀ conn, ∀ t ∈ st.tasks.lookup conn, ∀ token p, t.registered = some (token, p) →
    p.conn = conn
  nodup : ∀ token, ((registered token hist).map (·.conn)).Nodup

theorem RelayRun.inv {hist : List (RelayState × RelayEvent)} {st : RelayState}
    (h : RelayRun hist st) : RelayInv hist st := by
  have hp := h.peers .agent
  have hreg : ∀ token, joined .agent token hist = registered token hist :=
    fun token => joined_agent token hist
  exact
    { agents := fun token => by
        rw [← hreg]
        exact hp.peers token
      task := fun token => by
        rw [← hreg]
        exact hp.task token
      conn := hp.conn
      nodup := fun token => by
        rw [← hreg]
        exact hp.nodup token }

end Relayfs

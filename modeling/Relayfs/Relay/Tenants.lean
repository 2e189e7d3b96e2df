/-
  File:      Relayfs/Relay/Tenants.lean
  Subject:   WHAT THE PEERS OF ONE TOKEN SEE OF THE OTHERS: two runs of a relay that agree on the
             events of a token and differ in those of the other tokens.

  Peers and agents are kept under their token, and almost everything looks them up there. Two
  things scan the agents of all tokens: `list_targets` lists them, and `register_agent` compares
  the id of a newcomer with theirs.

  * `tenantEvents`, `tenantSent` -- the events of a token's peers, and the frames sent to them;
  * `idScans`, `tenantView` -- the events, with what the scans of `register_agent` find;
  * `JobsOwned` -- a task sends to peers of its own token only;
  * `TenantAgree` -- what agrees in two runs (`TenantAgree.silent`, `TenantAgree.shown`);
  * `tenant_isolation` -- two runs with the same view of a token send its peers the same frames,
    but for the other tokens' agents in an answer to `list_targets`;
  * `tenants_seen` -- both scans show what the peers of another token do.
-/
import Relayfs.Relay.Addresses
import Relayfs.Relay.Delivery

namespace Relayfs

open Lib

/-! ## 1. Events and frames of a token -/

/-- The token under which a connection registered. -/
def RelayState.tokenOf (st : RelayState) (conn : Nat) : Option String :=
  (st.peerOf conn).map (·.1)

/-- The event is one of a peer of the token. -/
def RelayState.Concerns (st : RelayState) (token : String) : RelayEvent → Prop
  | .accept _ => False
  | .hello _ hello _ => hello.bind st.app.validToken = some token
  | .frame conn _ | .job conn _ | .close conn => st.tokenOf conn = some token

instance RelayState.decConcerns (st : RelayState) (token : String) :
    ∀ e, Decidable (st.Concerns token e)
  | .accept _ => isFalse not_false
  | .hello _ hello _ => inferInstanceAs (Decidable (hello.bind st.app.validToken = some token))
  | .frame conn _ => inferInstanceAs (Decidable (st.tokenOf conn = some token))
  | .job conn _ => inferInstanceAs (Decidable (st.tokenOf conn = some token))
  | .close conn => inferInstanceAs (Decidable (st.tokenOf conn = some token))

/-- An agent of another token has the id. -/
def AppState.OthersHave (st : AppState) (token id : String) : Prop :=
  ∃ e ∈ st.agents.entries, e.1 ≠ token ∧ ∃ p ∈ e.2, p.hello.id = id

instance AppState.decOthersHave (st : AppState) (token id : String) :
    Decidable (st.OthersHave token id) :=
  inferInstanceAs (Decidable (∃ e ∈ st.agents.entries, _))

/-- What the scans of `register_agent` find among the agents of the other tokens: the id of the
    hello, and where that is taken the id with the clock. -/
def idScans (st : AppState) (token : String) : RelayEvent → Bool × Bool
  | .hello _ (some hello) d =>
      if hello.kind = .agent then
        (decide (st.OthersHave token hello.id),
          decide (st.HasId hello.id ∧ st.OthersHave token (hello.id ++ "-" ++ toString d.clock)))
      else (false, false)
  | _ => (false, false)

/-- The view of a step: an event of the token, with what its scans find. -/
def tenantStep (token : String) (x : RelayState × RelayEvent) :
    Option (RelayEvent × Bool × Bool) :=
  if x.1.Concerns token x.2 then some (x.2, idScans x.1.app token x.2) else none

/-- **The view of a token** in a history, newest first. -/
def tenantView (token : String) (hist : List (RelayState × RelayEvent)) :
    List (RelayEvent × Bool × Bool) := hist.filterMap (tenantStep token)

/-- The events of the token's peers, newest first. -/
def tenantEvents (token : String) (hist : List (RelayState × RelayEvent)) : List RelayEvent :=
  (tenantView token hist).map (·.1)

/-- **The frames sent to the peers of the token**, oldest first. -/
def tenantSent (token : String) : List (RelayState × RelayEvent) → List (Nat × Json)
  | [] => []
  | (st, e) :: hist => tenantSent token hist
      ++ (sends st e.conn e).filter fun out => st.tokenOf out.1 = some token

theorem tenantStep_eq_none {token : String} {st : RelayState} {e : RelayEvent} :
    tenantStep token (st, e) = none ↔ ¬ st.Concerns token e := by
  simp [tenantStep]

theorem tenantStep_eq_some {token : String} {st : RelayState} {e : RelayEvent}
    {v : RelayEvent × Bool × Bool} :
    tenantStep token (st, e) = some v ↔
      st.Concerns token e ∧ v = (e, idScans st.app token e) := by
  by_cases h : st.Concerns token e
  · simp [tenantStep, h, eq_comm]
  · simp [tenantStep, h]

/-- The scan of `register_agent` for an id. -/
theorem AppState.hasId_iff {st : AppState} (token : String) {id : String} :
    st.HasId id ↔ st.OthersHave token id ∨ ∃ p ∈ row st.agents token, p.hello.id = id := by
  constructor
  · intro h
    obtain ⟨p, hp, hid⟩ := h
    obtain ⟨e, he, hpe⟩ := List.mem_flatMap.mp hp
    by_cases htok : e.1 = token
    · subst htok
      right
      exact ⟨p, by rwa [row_of_lookup (AList.mem_lookup_iff.mpr he)], hid⟩
    · exact .inl ⟨e, he, htok, p, hpe, hid⟩
  · intro h
    rcases h with ⟨e, he, -, p, hp, hid⟩ | ⟨p, hp, hid⟩
    · exact ⟨p, List.mem_flatMap.mpr ⟨e, he, hp⟩, hid⟩
    · exact ⟨p, AppState.mem_allAgents.mpr ⟨token, hp⟩, hid⟩

/-- **An id is assigned alike** where the token's own agents are the same and the scans find the
    same. -/
theorem assignedId_congr {st st' : AppState} {token : String} {hello : Hello} {d : Draws}
    {conn : Nat} (hrow : row st.agents token = row st'.agents token)
    (hkind : hello.kind = .agent)
    (hscans : idScans st token (.hello conn (some hello) d)
      = idScans st' token (.hello conn (some hello) d)) :
    assignedId st hello d = assignedId st' hello d := by
  simp only [idScans, if_pos hkind, Prod.mk.injEq, decide_eq_decide] at hscans
  have hid : st.HasId hello.id ↔ st'.HasId hello.id := by
    rw [AppState.hasId_iff token, AppState.hasId_iff token, hscans.1, hrow]
  rw [assignedId_eq, assignedId_eq]
  by_cases hown : st.HasId hello.id
  · have hclock : st.HasId (hello.id ++ "-" ++ toString d.clock) ↔
        st'.HasId (hello.id ++ "-" ++ toString d.clock) := by
      have hothers := hscans.2
      rw [and_iff_right hown, and_iff_right (hid.mp hown)] at hothers
      rw [AppState.hasId_iff token, AppState.hasId_iff token, hothers, hrow]
    rw [if_pos hown, if_pos (hid.mp hown)]
    simp only [hclock]
  · rw [if_neg hown, if_neg fun h => hown (hid.mpr h)]

/-! ## 2. Tasks of a token -/

/-- The task of a connection that registered under the token. -/
def RelayState.tenantTask (st : RelayState) (token : String) (conn : Nat) : Option ConnTask :=
  (st.tasks.lookup conn).filter fun t => t.registered.map (·.1) = some token

section Tasks

variable {st : RelayState} {app : AppState} {token : String} {conn c : Nat} {t : ConnTask}

theorem tenantTask_eq_some : st.tenantTask token conn = some t ↔
    st.tasks.lookup conn = some t ∧ t.registered.map (·.1) = some token := by
  rw [RelayState.tenantTask, Option.filter_eq_some_iff, decide_eq_true_eq]

theorem tokenOf_of_lookup (h : st.tasks.lookup conn = some t) :
    st.tokenOf conn = t.registered.map (·.1) := by
  rw [RelayState.tokenOf, RelayState.peerOf, h]
  rfl

theorem tokenOf_insert_self :
    (RelayState.mk app (st.tasks.insert conn t)).tokenOf conn = t.registered.map (·.1) :=
  tokenOf_of_lookup (AList.lookup_insert _)

theorem tokenOf_insert_ne (h : c ≠ conn) :
    (RelayState.mk app (st.tasks.insert conn t)).tokenOf c = st.tokenOf c := by
  rw [RelayState.tokenOf, RelayState.peerOf, AList.lookup_insert_ne h]
  rfl

theorem tenantTask_insert_self (h : t.registered.map (·.1) = some token) :
    (RelayState.mk app (st.tasks.insert conn t)).tenantTask token conn = some t :=
  tenantTask_eq_some.mpr ⟨AList.lookup_insert _, h⟩

theorem tenantTask_insert_ne (h : c ≠ conn) :
    (RelayState.mk app (st.tasks.insert conn t)).tenantTask token c = st.tenantTask token c := by
  rw [RelayState.tenantTask, AList.lookup_insert_ne h]
  rfl

theorem tenantTask_eq_none (h : st.tokenOf conn ≠ some token) :
    st.tenantTask token conn = none := by
  cases ht : st.tenantTask token conn with
  | none => rfl
  | some t =>
    obtain ⟨hlookup, hreg⟩ := tenantTask_eq_some.mp ht
    exact absurd ((tokenOf_of_lookup hlookup).trans hreg) h

end Tasks

/-! ## 3. What a task sends -/

/-- A job of a task of the token sends to peers of the token. -/
def Job.Owned (st : RelayState) (token : String) : Job → Prop
  | .send s => st.tokenOf s.dest = some token ∧
      ∀ f ∈ s.orElse, ∀ e, st.tokenOf (f e).1 = some token
  | .broadcast t _ => t = token
  | .ack t peer => t = token ∧ st.tokenOf peer.conn = some token

/-- **A task sends to peers of its own token only.** -/
def JobsOwned (st : RelayState) : Prop :=
  ∀ conn t, st.tasks.lookup conn = some t → ∀ job ∈ t.jobs,
    ∃ token, t.registered.map (·.1) = some token ∧ job.Owned st token

section Owned

variable {st : RelayState} {token : String}

theorem Job.Owned.mono {st' : RelayState}
    (h : ∀ c tok, st.tokenOf c = some tok → st'.tokenOf c = some tok) {job : Job}
    (hjob : job.Owned st token) : job.Owned st' token := by
  cases job with
  | send s => exact ⟨h _ _ hjob.1, fun f hf e => h _ _ (hjob.2 f hf e)⟩
  | broadcast t frame => exact hjob
  | ack t peer => exact ⟨hjob.1, h _ _ hjob.2⟩

/-- The peers of a token. -/
theorem RelayRun.tokenOf_mem {hist : List (RelayState × RelayEvent)} (h : RelayRun hist st)
    (kind : PeerKind) {p : RelayPeer} (hp : p ∈ row (st.app.peers kind) token) :
    st.tokenOf p.conn = some token := by
  rw [(h.peers kind).peers] at hp
  obtain ⟨-, t, ht, hreg⟩ := (h.peers kind).task token p (List.mem_of_mem_filter hp)
  rw [tokenOf_of_lookup ht, hreg]
  rfl

theorem forwardToBridges_owned {hist : List (RelayState × RelayEvent)} (h : RelayRun hist st)
    (frame : Frame) : ∀ s ∈ forwardToBridges st.app token frame, (Job.send s).Owned st token := by
  intro s hs
  obtain ⟨b, hb, rfl⟩ := List.mem_map.mp hs
  exact ⟨h.tokenOf_mem .bridge hb, fun f hf => by cases hf⟩

theorem handleFrame_owned {hist : List (RelayState × RelayEvent)} (h : RelayRun hist st)
    {peer : RelayPeer} (hpeer : st.tokenOf peer.conn = some token) (frame : Frame) :
    ∀ s ∈ handleFrame st.app token peer frame, (Job.send s).Owned st token := by
  intro s hs
  unfold handleFrame at hs
  split at hs
  · unfold handleAgentFrame at hs
    split at hs
    · exact forwardToBridges_owned h frame s hs
    · exact absurd hs List.not_mem_nil
  · unfold handleBridgeFrame at hs
    split at hs
    · exact absurd hs List.not_mem_nil
    · split at hs
      · obtain ⟨a, ha, rfl⟩ := List.mem_map.mp hs
        exact ⟨h.tokenOf_mem .agent (List.mem_of_mem_filter ha), fun f hf => by cases hf⟩
      · split at hs
        · rw [List.mem_singleton.mp hs]
          exact ⟨hpeer, fun f hf => by cases hf⟩
        · split at hs
          · rename_i agent hroute
            rw [List.mem_singleton.mp hs]
            refine ⟨h.tokenOf_mem .agent (mem_pickAgent hroute), fun f hf e => ?_⟩
            cases hf
            exact hpeer
          · rw [List.mem_singleton.mp hs]
            exact ⟨hpeer, fun f hf => by cases hf⟩

theorem nextJobs_owned {hist : List (RelayState × RelayEvent)} (h : RelayRun hist st)
    (error : Option String) {jobs : List Job} (hjobs : ∀ job ∈ jobs, job.Owned st token) :
    ∀ job ∈ nextJobs st.app error jobs, job.Owned st token := by
  cases jobs with
  | nil => exact fun job hjob => absurd hjob List.not_mem_nil
  | cons first rest =>
    rw [List.forall_mem_cons] at hjobs
    obtain ⟨hfirst, hrest⟩ := hjobs
    cases first with
    | send s =>
      cases error with
      | none => exact hrest
      | some e =>
        cases hf : s.orElse with
        | none =>
          simp only [nextJobs, hf]
          exact hrest
        | some f =>
          simp only [nextJobs, hf]
          exact List.forall_mem_cons.mpr ⟨⟨hfirst.2 f hf e, fun g hg => by cases hg⟩, hrest⟩
    | broadcast t frame =>
      obtain rfl : t = token := hfirst
      intro job hjob
      rcases List.mem_append.mp hjob with hjob | hjob
      · obtain ⟨s, hs, rfl⟩ := List.mem_map.mp hjob
        exact forwardToBridges_owned h frame s hs
      · exact hrest job hjob
    | ack t peer =>
      exact List.forall_mem_cons.mpr ⟨⟨hfirst.2, fun g hg => by cases hg⟩, hrest⟩

end Owned

/-! ## 4. What a step does to tokens -/

section Step

variable {st : RelayState} {e : RelayEvent} {app : AppState} {t : ConnTask} {token : String}

/-- A connection keeps its token. -/
theorem TaskStep.keeps_token (h : TaskStep st e app t) {tok : String}
    (htok : st.tokenOf e.conn = some tok) : t.registered.map (·.1) = some tok := by
  obtain ⟨r, hr, rfl⟩ := Option.map_eq_some_iff.mp htok
  obtain ⟨u, hu, hreg⟩ := Option.bind_eq_some_iff.mp hr
  rw [h.keeps hu hreg]
  rfl

theorem TaskStep.tokenOf_mono (h : TaskStep st e app t) (c : Nat) (tok : String)
    (htok : st.tokenOf c = some tok) :
    (RelayState.mk app (st.tasks.insert e.conn t)).tokenOf c = some tok := by
  by_cases hc : c = e.conn
  · subst hc
    exact tokenOf_insert_self.trans (h.keeps_token htok)
  · exact (tokenOf_insert_ne hc).trans htok

/-- A step that is none of the token leaves its peers as they are. -/
theorem TaskStep.row_foreign (h : TaskStep st e app t) (hn : ¬ st.Concerns token e)
    (kind : PeerKind) : row (app.peers kind) token = row (st.app.peers kind) token := by
  cases h with
  | joined _ _ hv =>
    rw [row_register, if_neg]
    intro hc
    exact hn (hc.2 ▸ hv)
  | close ht =>
    rw [row_unregister, if_neg]
    intro hc
    refine hn ?_
    show st.tokenOf _ = some token
    rw [tokenOf_of_lookup ht, hc.2]
    rfl
  | _ => rfl

/-- Its connection is none of the token, before and after it. -/
theorem TaskStep.foreign (h : TaskStep st e app t) (hn : ¬ st.Concerns token e) :
    st.tokenOf e.conn ≠ some token ∧ t.registered.map (·.1) ≠ some token := by
  cases h with
  | accept hfree =>
    refine ⟨fun htok => ?_, fun hreg => by cases hreg⟩
    rw [RelayEvent.conn, RelayState.tokenOf, RelayState.peerOf, hfree] at htok
    cases htok
  | rejected ht hnone _ =>
    refine ⟨fun htok => ?_, fun hreg => by cases hreg⟩
    rw [RelayEvent.conn, tokenOf_of_lookup ht, hnone] at htok
    cases htok
  | joined ht hnone hv =>
    refine ⟨fun htok => ?_, fun htok => hn ?_⟩
    · rw [RelayEvent.conn, tokenOf_of_lookup ht, hnone] at htok
      cases htok
    · cases htok
      exact hv
  | frame ht | job ht _ | close ht =>
    exact ⟨hn, fun htok => hn ((tokenOf_of_lookup ht).trans htok)⟩

/-- **Every step keeps the jobs with their tokens.** -/
theorem JobsOwned.step {st' : RelayState} {hist : List (RelayState × RelayEvent)}
    (hr : RelayRun hist st) (h : JobsOwned st) (hs : RelayStep st e st') : JobsOwned st' := by
  obtain ⟨app, t, htask, rfl⟩ := taskStep_of_step hs
  have hmono := htask.tokenOf_mono
  have hnew : ∀ job ∈ t.jobs, ∃ token, t.registered.map (·.1) = some token ∧
      job.Owned ⟨app, st.tasks.insert e.conn t⟩ token := by
    cases htask with
    | accept | rejected => exact fun job hjob => absurd hjob List.not_mem_nil
    | @joined conn hello d _ token ht hnone hv =>
      refine fun job hjob => ⟨token, rfl, ?_⟩
      have hack : (RelayState.mk (register st.app token hello conn d).1 (st.tasks.insert conn
          ⟨some (token, newcomer st.app hello conn d), true,
            (register st.app token hello conn d).2.2⟩)).tokenOf
          (newcomer st.app hello conn d).conn = some token := by
        rw [newcomer_conn]
        exact tokenOf_insert_self
      rcases mem_register_jobs hjob with rfl | rfl
      · rfl
      · exact ⟨rfl, hack⟩
    | @frame conn f token peer ht =>
      refine fun job hjob => ⟨token, rfl, ?_⟩
      obtain ⟨s, hsend, rfl⟩ := List.mem_map.mp hjob
      have hpeer : st.tokenOf peer.conn = some token := by
        rw [hr.inv.conn conn _ ht token peer rfl, tokenOf_of_lookup ht]
        rfl
      exact (handleFrame_owned hr hpeer f s hsend).mono hmono
    | @job conn error t ht _ =>
      intro job hjob
      cases hreg : t.registered.map (·.1) with
      | none =>
        -- a task without a peer has nothing to do
        have hjobs : t.jobs = [] := by
          cases hlist : t.jobs with
          | nil => rfl
          | cons first rest =>
            obtain ⟨token, htoken, -⟩ := h conn t ht first (hlist ▸ List.mem_cons_self)
            rw [hreg] at htoken
            cases htoken
        rw [hjobs] at hjob
        exact absurd hjob List.not_mem_nil
      | some token =>
        refine ⟨token, rfl, Job.Owned.mono hmono ?_⟩
        refine nextJobs_owned hr error (fun job hjob => ?_) job hjob
        obtain ⟨token', htoken, howned⟩ := h conn t ht job hjob
        cases hreg.symm.trans htoken
        exact howned
    | @close conn token peer ht =>
      refine fun job hjob => ⟨token, rfl, ?_⟩
      rw [mem_unregister_jobs hjob]
      rfl
  intro conn u hu
  by_cases hc : conn = e.conn
  · subst hc
    cases (AList.lookup_insert _).symm.trans hu
    exact hnew
  · intro job hjob
    have hold : st.tasks.lookup conn = some u := (AList.lookup_insert_ne hc).symm.trans hu
    obtain ⟨token, htoken, howned⟩ := h conn u hold job hjob
    exact ⟨token, htoken, howned.mono hmono⟩

theorem RelayRun.jobsOwned {hist : List (RelayState × RelayEvent)} (h : RelayRun hist st) :
    JobsOwned st := by
  induction h with
  | start h0 =>
    obtain ⟨required, rfl⟩ := h0
    intro conn t ht
    cases ht
  | step hr hs ih => exact ih.step hr hs

/-- What a step sends, it sends to peers of the token of its connection. -/
theorem JobsOwned.tokenOf_sends (h : JobsOwned st) (e : RelayEvent) :
    ∀ out ∈ sends st e.conn e, st.tokenOf out.1 = st.tokenOf e.conn := by
  cases e with
  | job conn error =>
    intro out hout
    rw [RelayEvent.conn, sends, if_pos rfl, RelayState.jobsOf] at hout
    cases ht : st.tasks.lookup conn with
    | none =>
      rw [ht] at hout
      exact absurd hout List.not_mem_nil
    | some t =>
      rw [ht] at hout
      cases hjobs : t.jobs with
      | nil =>
        rw [Option.map_some, Option.getD_some, hjobs] at hout
        exact absurd hout List.not_mem_nil
      | cons job rest =>
        rw [Option.map_some, Option.getD_some, hjobs] at hout
        obtain ⟨token, htoken, howned⟩ := h conn t ht job (hjobs ▸ List.mem_cons_self)
        cases job with
        | send s =>
          rw [List.mem_singleton.mp hout, RelayEvent.conn, tokenOf_of_lookup ht, htoken]
          exact howned.1
        | broadcast | ack => exact absurd hout List.not_mem_nil
  | _ => exact fun out hout => absurd hout List.not_mem_nil

/-- What a step sends to the peers of a token: all it sends, or nothing. -/
theorem JobsOwned.filter_sends (h : JobsOwned st) (token : String) (e : RelayEvent) :
    ((sends st e.conn e).filter fun out => st.tokenOf out.1 = some token)
      = if st.tokenOf e.conn = some token then sends st e.conn e else [] := by
  split
  · rename_i hc
    exact List.filter_eq_self.mpr fun out hout => decide_eq_true ((h.tokenOf_sends e out hout).trans hc)
  · rename_i hc
    exact List.filter_eq_nil_iff.mpr fun out hout htok =>
      hc ((h.tokenOf_sends e out hout).symm.trans (of_decide_eq_true htok))

end Step

/-! ## 5. What agrees in two runs -/

/-- The answer to a `list_targets`. -/
def targetsAnswer (st : AppState) (frame : Frame) : Json :=
  responseValue (requestId frame.value) (some (listTargetsResult st)) none

/-- The two runs' answers to one `list_targets` of the token, when the agents of the token were the
    same. -/
def TargetsAgree (token : String) (h g : List (RelayState × RelayEvent)) (a b : Json) : Prop :=
  ∃ conn frame s t, (s, RelayEvent.frame conn frame) ∈ h ∧ (t, RelayEvent.frame conn frame) ∈ g ∧
    row s.app.agents token = row t.app.agents token ∧
    a = targetsAnswer s.app frame ∧ b = targetsAnswer t.app frame

/-- **One frame in two runs**, with its destination: the same, but for the agents of other tokens
    in an answer to `list_targets`. -/
def SameFor (token : String) (h g : List (RelayState × RelayEvent)) (a b : Nat × Json) : Prop :=
  a = b ∨ a.1 = b.1 ∧ TargetsAgree token h g a.2 b.2

/-- A job in two runs. -/
inductive JobAgree (token : String) (h g : List (RelayState × RelayEvent)) : Job → Job → Prop where
  | same (job : Job) : JobAgree token h g job job
  | targets {dest : Nat} {f f' : Frame} (hf : TargetsAgree token h g f.value f'.value) :
      JobAgree token h g (.send ⟨dest, f, none⟩) (.send ⟨dest, f', none⟩)

/-- A task in two runs. -/
structure TaskAgree (token : String) (h g : List (RelayState × RelayEvent)) (u v : ConnTask) :
    Prop where
  registered : u.registered = v.registered
  jobs : List.Forall₂ (JobAgree token h g) u.jobs v.jobs

/-- **What agrees for a token in two runs**: its peers, the tasks of its connections, and the
    frames sent to its peers. -/
structure TenantAgree (token : String) (h : List (RelayState × RelayEvent)) (s : RelayState)
    (g : List (RelayState × RelayEvent)) (t : RelayState) : Prop where
  peers : ∀ kind, row (s.app.peers kind) token = row (t.app.peers kind) token
  tasks : ∀ conn, Option.Rel (TaskAgree token h g) (s.tenantTask token conn)
    (t.tenantTask token conn)
  sent : List.Forall₂ (SameFor token h g) (tenantSent token h) (tenantSent token g)

/-- A relation of options that implies another one. -/
theorem optionRel_imp {α : Type} {R R' : α → α → Prop} (himp : ∀ u v, R u v → R' u v) :
    ∀ {x y : Option α}, Option.Rel R x y → Option.Rel R' x y
  | _, _, .none => .none
  | _, _, .some huv => .some (himp _ _ huv)

theorem optionRel_flip {α : Type} {R R' : α → α → Prop} (himp : ∀ u v, R u v → R' v u) :
    ∀ {x y : Option α}, Option.Rel R x y → Option.Rel R' y x
  | _, _, .none => .none
  | _, _, .some huv => .some (himp _ _ huv)

section Agree

variable {token : String} {h h' g g' : List (RelayState × RelayEvent)} {s t : RelayState}

theorem TargetsAgree.mono (hh : h ⊆ h') (hg : g ⊆ g') {a b : Json}
    (hab : TargetsAgree token h g a b) : TargetsAgree token h' g' a b := by
  obtain ⟨conn, frame, s, t, hs, ht, hrow, ha, hb⟩ := hab
  exact ⟨conn, frame, s, t, hh hs, hg ht, hrow, ha, hb⟩

theorem TargetsAgree.symm {a b : Json} (hab : TargetsAgree token h g a b) :
    TargetsAgree token g h b a := by
  obtain ⟨conn, frame, s, t, hs, ht, hrow, ha, hb⟩ := hab
  exact ⟨conn, frame, t, s, ht, hs, hrow.symm, hb, ha⟩

theorem SameFor.mono (hh : h ⊆ h') (hg : g ⊆ g') {a b : Nat × Json}
    (hab : SameFor token h g a b) : SameFor token h' g' a b :=
  hab.imp_right fun hab => ⟨hab.1, hab.2.mono hh hg⟩

theorem SameFor.symm {a b : Nat × Json} (hab : SameFor token h g a b) : SameFor token g h b a :=
  hab.imp Eq.symm fun hab => ⟨hab.1.symm, hab.2.symm⟩

theorem JobAgree.mono (hh : h ⊆ h') (hg : g ⊆ g') {a b : Job} (hab : JobAgree token h g a b) :
    JobAgree token h' g' a b := by
  cases hab with
  | same => exact .same a
  | targets hf => exact .targets (hf.mono hh hg)

theorem JobAgree.symm {a b : Job} (hab : JobAgree token h g a b) : JobAgree token g h b a := by
  cases hab with
  | same => exact .same a
  | targets hf => exact .targets hf.symm

theorem TaskAgree.mono (hh : h ⊆ h') (hg : g ⊆ g') {u v : ConnTask}
    (huv : TaskAgree token h g u v) : TaskAgree token h' g' u v :=
  ⟨huv.registered, huv.jobs.imp fun _ _ hab => hab.mono hh hg⟩

theorem TaskAgree.symm {u v : ConnTask} (huv : TaskAgree token h g u v) :
    TaskAgree token g h v u :=
  ⟨huv.registered.symm, (huv.jobs.imp fun _ _ hab => hab.symm).flip⟩

theorem TenantAgree.symm (ha : TenantAgree token h s g t) : TenantAgree token g t h s where
  peers kind := (ha.peers kind).symm
  tasks conn := optionRel_flip (fun _ _ huv => huv.symm) (ha.tasks conn)
  sent := (ha.sent.imp fun _ _ hab => hab.symm).flip

/-- The tasks of a connection of the token. -/
theorem TenantAgree.task (ha : TenantAgree token h s g t) {conn : Nat} {u v : ConnTask}
    (hu : s.tasks.lookup conn = some u) (hv : t.tasks.lookup conn = some v)
    (htok : s.tokenOf conn = some token) : TaskAgree token h g u v ∧
      u.registered.map (·.1) = some token := by
  have hreg : u.registered.map (·.1) = some token := (tokenOf_of_lookup hu).symm.trans htok
  have hrel := ha.tasks conn
  rw [tenantTask_eq_some.mpr ⟨hu, hreg⟩] at hrel
  cases hother : t.tenantTask token conn with
  | none =>
    rw [hother] at hrel
    cases hrel
  | some v' =>
    rw [hother] at hrel
    cases Option.some.inj ((tenantTask_eq_some.mp hother).1.symm.trans hv)
    cases hrel with
    | some huv => exact ⟨huv, hreg⟩

end Agree

/-! ## 6. A step that is not shown -/

/-- **A step of another token** keeps the agreement. -/
theorem TenantAgree.silent {token : String} {h g : List (RelayState × RelayEvent)}
    {s s' t : RelayState} {e : RelayEvent} (hr : RelayRun h s) (ha : TenantAgree token h s g t)
    (hs : RelayStep s e s') (hn : ¬ s.Concerns token e) :
    TenantAgree token ((s, e) :: h) s' g t := by
  obtain ⟨app, u, htask, rfl⟩ := taskStep_of_step hs
  have hgrow : h ⊆ (s, e) :: h := List.subset_cons_self _ _
  obtain ⟨hbefore, hafter⟩ := htask.foreign hn
  exact
    { peers := fun kind => (htask.row_foreign hn kind).trans (ha.peers kind)
      tasks := fun conn => by
        have hsame : (RelayState.mk app (s.tasks.insert e.conn u)).tenantTask token conn
            = s.tenantTask token conn := by
          by_cases hc : conn = e.conn
          · subst hc
            rw [tenantTask_eq_none hbefore]
            exact tenantTask_eq_none (tokenOf_insert_self.trans_ne hafter)
          · exact tenantTask_insert_ne hc
        rw [hsame]
        exact optionRel_imp (fun _ _ huv => huv.mono hgrow (List.Subset.refl g)) (ha.tasks conn)
      sent := by
        rw [tenantSent, hr.jobsOwned.filter_sends, if_neg hbefore, List.append_nil]
        exact ha.sent.imp fun _ _ hab => hab.mono hgrow (List.Subset.refl g) }

/-! ## 7. A step of the token -/

section Shown

variable {a b : AppState} {token : String}

theorem forwardToBridges_congr (hp : ∀ kind, row (a.peers kind) token = row (b.peers kind) token)
    (frame : Frame) : forwardToBridges a token frame = forwardToBridges b token frame := by
  have hrow : row a.bridges token = row b.bridges token := hp .bridge
  rw [forwardToBridges, forwardToBridges, hrow]

theorem helloAck_congr (hp : ∀ kind, row (a.peers kind) token = row (b.peers kind) token)
    (peer : RelayPeer) : helloAck a token peer = helloAck b token peer := by
  have hrow : row a.agents token = row b.agents token := hp .agent
  rw [helloAck, helloAck, hrow]

/-- The same peer registers, with the same jobs. -/
theorem newcomer_congr (hp : ∀ kind, row (a.peers kind) token = row (b.peers kind) token)
    {hello : Hello} {conn : Nat} {d : Draws}
    (hscans : idScans a token (.hello conn (some hello) d)
      = idScans b token (.hello conn (some hello) d)) :
    newcomer a hello conn d = newcomer b hello conn d ∧
      (register a token hello conn d).2.2 = (register b token hello conn d).2.2 := by
  unfold newcomer register
  cases hkind : hello.kind with
  | bridge => exact ⟨rfl, rfl⟩
  | agent =>
    have hpeer : agentPeer a hello conn d = agentPeer b hello conn d := by
      rw [agentPeer, agentPeer, assignedId_congr (hp .agent) hkind hscans]
    dsimp only
    rw [hpeer]
    exact ⟨rfl, rfl⟩

theorem unregister_congr (hp : ∀ kind, row (a.peers kind) token = row (b.peers kind) token)
    (peer : RelayPeer) : (unregister a token peer).2 = (unregister b token peer).2 := by
  have hrow : row a.agents token = row b.agents token := hp .agent
  unfold unregister
  cases peer.hello.kind with
  | bridge => rfl
  | agent =>
    dsimp only
    rw [hrow]

variable {h g : List (RelayState × RelayEvent)} {s t : RelayState}

/-- **A frame leads to the same sends**, but for an answer to `list_targets`. -/
theorem handleFrame_agree
    (hp : ∀ kind, row (s.app.peers kind) token = row (t.app.peers kind) token) {conn : Nat}
    {frame : Frame} (hs : (s, RelayEvent.frame conn frame) ∈ h)
    (ht : (t, RelayEvent.frame conn frame) ∈ g) (peer : RelayPeer) :
    List.Forall₂ (JobAgree token h g) ((handleFrame s.app token peer frame).map .send)
      ((handleFrame t.app token peer frame).map .send) := by
  have hrow : row s.app.agents token = row t.app.agents token := hp .agent
  have hsame : ∀ jobs, List.Forall₂ (JobAgree token h g) jobs jobs :=
    fun jobs => List.forall₂_same.mpr fun job _ => .same job
  unfold handleFrame
  cases peer.hello.kind with
  | agent =>
    dsimp only
    rw [handleAgentFrame, handleAgentFrame, forwardToBridges_congr hp]
    exact hsame _
  | bridge =>
    dsimp only
    unfold handleBridgeFrame
    split
    · exact .nil
    · split
      · rw [forwardToAgent, forwardToAgent, hrow]
        exact hsame _
      · split
        · exact .cons (.targets ⟨conn, frame, s, t, hs, ht, hrow, rfl, rfl⟩) .nil
        · rw [AppState.route, AppState.route, hrow]
          exact hsame _

/-- **The next job leads to the same jobs.** -/
theorem nextJobs_agree
    (hp : ∀ kind, row (s.app.peers kind) token = row (t.app.peers kind) token)
    (error : Option String) {jobs jobs' : List Job}
    (howned : ∀ job ∈ jobs, job.Owned s token)
    (hjobs : List.Forall₂ (JobAgree token h g) jobs jobs') :
    List.Forall₂ (JobAgree token h g) (nextJobs s.app error jobs)
      (nextJobs t.app error jobs') := by
  have hsame : ∀ jobs, List.Forall₂ (JobAgree token h g) jobs jobs :=
    fun jobs => List.forall₂_same.mpr fun job _ => .same job
  cases hjobs with
  | nil => exact .nil
  | @cons first _ rest rest' hfirst hrest =>
    cases hfirst with
    | targets hf =>
      cases error with
      | none => exact hrest
      | some e => exact hrest
    | same =>
      have hown : first.Owned s token := howned _ List.mem_cons_self
      cases first with
      | send sd =>
        cases error with
        | none => exact hrest
        | some e =>
          cases horElse : sd.orElse with
          | none =>
            simp only [nextJobs, horElse]
            exact hrest
          | some f =>
            simp only [nextJobs, horElse]
            exact .cons (.same _) hrest
      | broadcast tok frame =>
        obtain rfl : tok = token := hown
        rw [nextJobs, nextJobs, forwardToBridges_congr hp]
        exact List.rel_append (hsame _) hrest
      | ack tok peer =>
        obtain rfl : tok = token := hown.1
        rw [nextJobs, nextJobs, helloAck_congr hp]
        exact .cons (.same _) hrest

/-- The next job sends the same. -/
theorem sends_agree {jobs jobs' : List Job}
    (hjobs : List.Forall₂ (JobAgree token h g) jobs jobs') :
    List.Forall₂ (SameFor token h g) ((jobs.head?.map Job.sends).getD [])
      ((jobs'.head?.map Job.sends).getD []) := by
  cases hjobs with
  | nil => exact .nil
  | cons hfirst hrest =>
    cases hfirst with
    | same => exact List.forall₂_same.mpr fun out _ => .inl rfl
    | targets hf => exact .cons (.inr ⟨rfl, hf⟩) .nil

end Shown

/-- The agreement after a step of the token, by what the step does to its connection's task. -/
theorem TenantAgree.extend {token : String} {h g : List (RelayState × RelayEvent)}
    {s t : RelayState} {e : RelayEvent} {app app' : AppState} {u v : ConnTask}
    (ha : TenantAgree token h s g t)
    (hpeers : ∀ kind, row (app.peers kind) token = row (app'.peers kind) token)
    (hreg : u.registered = v.registered) (htok : u.registered.map (·.1) = some token)
    (hjobs : List.Forall₂ (JobAgree token ((s, e) :: h) ((t, e) :: g)) u.jobs v.jobs)
    (hsends : List.Forall₂ (SameFor token h g)
      ((sends s e.conn e).filter fun out => s.tokenOf out.1 = some token)
      ((sends t e.conn e).filter fun out => t.tokenOf out.1 = some token)) :
    TenantAgree token ((s, e) :: h) ⟨app, s.tasks.insert e.conn u⟩ ((t, e) :: g)
      ⟨app', t.tasks.insert e.conn v⟩ := by
  have hh : h ⊆ (s, e) :: h := List.subset_cons_self _ _
  have hg : g ⊆ (t, e) :: g := List.subset_cons_self _ _
  exact
    { peers := hpeers
      tasks := fun conn => by
        by_cases hc : conn = e.conn
        · subst hc
          rw [tenantTask_insert_self htok, tenantTask_insert_self (hreg ▸ htok)]
          exact .some ⟨hreg, hjobs⟩
        · rw [tenantTask_insert_ne hc, tenantTask_insert_ne hc]
          exact optionRel_imp (fun _ _ huv => huv.mono hh hg) (ha.tasks conn)
      sent := List.rel_append (ha.sent.imp fun _ _ hab => hab.mono hh hg)
        (hsends.imp fun _ _ hab => hab.mono hh hg) }

/-- **A step of the token**, taken in both runs, keeps the agreement. -/
theorem TenantAgree.shown {token : String} {h g : List (RelayState × RelayEvent)}
    {s s' t t' : RelayState} {e : RelayEvent} (hr : RelayRun h s) (hq : RelayRun g t)
    (ha : TenantAgree token h s g t) (hs : RelayStep s e s') (ht : RelayStep t e t')
    (hcs : s.Concerns token e) (hct : t.Concerns token e)
    (hscans : idScans s.app token e = idScans t.app token e) :
    TenantAgree token ((s, e) :: h) s' ((t, e) :: g) t' := by
  obtain ⟨app, u, hus, rfl⟩ := taskStep_of_step hs
  obtain ⟨app', v, hvt, rfl⟩ := taskStep_of_step ht
  have hh : h ⊆ (s, e) :: h := List.subset_cons_self _ _
  have hg : g ⊆ (t, e) :: g := List.subset_cons_self _ _
  cases hus with
  | accept => exact absurd hcs not_false
  | @rejected conn hello d u _ _ hv =>
    obtain ⟨hello', rfl, hv'⟩ := Option.bind_eq_some_iff.mp hcs
    rw [hv hello' rfl] at hv'
    cases hv'
  | @joined conn hello d u tok hu hnone hv =>
    obtain rfl : tok = token := Option.some.inj (hv.symm.trans hcs)
    cases hvt with
    | rejected _ _ hv' => cases (hv' hello rfl).symm.trans hct
    | joined hu' hnone' hv' =>
      cases hv'.symm.trans hct
      obtain ⟨hpeer, hjobs⟩ := newcomer_congr ha.peers hscans
      refine ha.extend (fun kind => ?_) ?_ rfl ?_ .nil
      · rw [row_register, row_register, hpeer, ha.peers]
      · rw [hpeer]
      · dsimp only
        rw [hjobs]
        exact List.forall₂_same.mpr fun job _ => .same job
  | @frame conn f tok peer hu =>
    cases hvt with
    | frame hv =>
      obtain ⟨huv, htok⟩ := ha.task hu hv hcs
      cases huv.registered
      cases htok
      exact ha.extend ha.peers rfl rfl
        (handleFrame_agree ha.peers List.mem_cons_self List.mem_cons_self peer) .nil
  | @job conn error u hu _ =>
    cases hvt with
    | @job _ _ v hv _ =>
      obtain ⟨huv, htok⟩ := ha.task hu hv hcs
      refine ha.extend ha.peers huv.registered htok ?_ ?_
      · refine nextJobs_agree ha.peers error (fun job hjob => ?_)
          (huv.jobs.imp fun _ _ hab => hab.mono hh hg)
        obtain ⟨tok, htok', howned⟩ := hr.jobsOwned conn u hu job hjob
        cases htok.symm.trans htok'
        exact howned
      · have hown : s.tokenOf conn = some token := hcs
        have hown' : t.tokenOf conn = some token := hct
        rw [hr.jobsOwned.filter_sends, hq.jobsOwned.filter_sends, RelayEvent.conn, if_pos hown,
          if_pos hown']
        have hsends := sends_agree huv.jobs
        simpa [sends, RelayEvent.conn, RelayState.jobsOf, hu, hv] using hsends
  | @close conn tok peer hu =>
    cases hvt with
    | close hv =>
      obtain ⟨huv, htok⟩ := ha.task hu hv hcs
      cases huv.registered
      cases htok
      refine ha.extend (fun kind => ?_) rfl rfl ?_ .nil
      · rw [row_unregister, row_unregister, ha.peers]
      · rw [unregister_congr ha.peers]
        exact List.forall₂_same.mpr fun job _ => .same job

/-! ## 8. Two runs -/

/-- **Tenant isolation.** Two runs that agree on the events of a token's peers, with their random
    numbers and clocks, and on what `register_agent` finds of their agents' ids among the agents of
    other tokens, have the same peers of the token and send them the same frames, in the same
    order; an answer to `list_targets` was made when the token had the same agents, and may list
    other agents of other tokens. -/
theorem tenant_isolation {token : String} {h g : List (RelayState × RelayEvent)}
    {s t : RelayState} (hs : RelayRun h s) (ht : RelayRun g t)
    (hview : tenantView token h = tenantView token g) :
    (∀ kind, row (s.app.peers kind) token = row (t.app.peers kind) token) ∧
      List.Forall₂ (SameFor token h g) (tenantSent token h) (tenantSent token g) := by
  have hagree : TenantAgree token h s g t := by
    refine Run.unwind ?_ ?_ ?_ ?_ hs ht hview
    · intro s t hs ht
      obtain ⟨required, rfl⟩ := hs
      obtain ⟨required', rfl⟩ := ht
      exact
        { peers := fun kind => by cases kind <;> rfl
          tasks := fun conn => .none
          sent := .nil }
    · exact fun h s g t ha => ha.symm
    · exact fun h s e s' g t hr ha hstep hsilent =>
        ha.silent hr hstep (tenantStep_eq_none.mp hsilent)
    · intro h s e s' g t f t' v hr hq ha hstep hstep' hv hw
      obtain ⟨hcs, rfl⟩ := tenantStep_eq_some.mp hv
      obtain ⟨hct, heq⟩ := tenantStep_eq_some.mp hw
      obtain ⟨rfl, hscans⟩ := Prod.mk.inj heq
      exact ha.shown hr hq hstep hstep' hcs hct hscans
  exact ⟨hagree.peers, hagree.sent⟩

/-- The history of a relay without a required token. -/
def openHist (events : List RelayEvent) : List (RelayState × RelayEvent) :=
  (replay RelayState.next ⟨.new none, ∅⟩ events).1

/-- Its last state. -/
def openState (events : List RelayEvent) : RelayState :=
  (replay RelayState.next ⟨.new none, ∅⟩ events).2

theorem openHist_run {events : List RelayEvent}
    (h : Permitted RelayState.permits RelayState.next ⟨.new none, ∅⟩ events) :
    RelayRun (openHist events) (openState events) := Run.of_replay ⟨none, rfl⟩ h

/-- A bridge of `t` asks for the targets. Newest first. -/
def listing : List RelayEvent :=
  [.job 1 none, .frame 1 ⟨BridgeRequest.listTargets.frame 1, none, none⟩,
    .job 1 none, .job 1 none,
    .hello 1 (some ⟨.bridge, "laptop", "laptop", some "t"⟩) ⟨0, 0, 8⟩, .accept 1]

/-- An agent of `t` with the id `box` registers. -/
def joining : List RelayEvent :=
  [.job 1 none, .job 1 none, .job 1 none,
    .hello 1 (some ⟨.agent, "box", "box", some "t"⟩) ⟨5, 0, 8⟩, .accept 1]

/-- Before that, an agent of `u` with the id `box` does. -/
def otherTenant : List RelayEvent :=
  [.hello 2 (some ⟨.agent, "box", "box", some "u"⟩) ⟨0, 0, 7⟩, .accept 2]

theorem tenant_isolation_listing :
    tenantView "t" (openHist listing) = tenantView "t" (openHist (listing ++ otherTenant)) ∧
      List.Forall₂ (SameFor "t" (openHist listing) (openHist (listing ++ otherTenant)))
        (tenantSent "t" (openHist listing))
        (tenantSent "t" (openHist (listing ++ otherTenant))) := by
  have hview : tenantView "t" (openHist listing)
      = tenantView "t" (openHist (listing ++ otherTenant)) := rfl
  exact ⟨hview, (tenant_isolation (openHist_run (by decide)) (openHist_run (by decide)) hview).2⟩

/-- Two runs of a relay without a required token that agree on the events of a token, and send its
    peers different frames. -/
structure ShowsOthers (token : String) (events events' : List RelayEvent) : Prop where
  run : RelayRun (openHist events) (openState events)
  run' : RelayRun (openHist events') (openState events')
  agree : tenantEvents token (openHist events) = tenantEvents token (openHist events')
  sent : tenantSent token (openHist events) ≠ tenantSent token (openHist events')

/-- The number of targets the last of some frames lists. -/
def targetsListed (frames : List (Nat × Json)) : Nat :=
  match (frames.getLast?.bind (·.2.get "result")).bind (·.get "targets") with
  | some (.arr items) => items.length
  | _ => 0

/-- The agent id the last of some frames tells. -/
def agentIdTold (frames : List (Nat × Json)) : Option String :=
  ((frames.getLast?.bind (·.2.get "params")).bind (·.get "agent_id")).bind Json.asStr

/-- **Both scans show another token's agent**: a bridge of `t` is listed an agent of `u`, and an
    agent of `t` that asks for the id `box` is registered as `box-5`, because an agent of `u` has
    it. -/
theorem tenants_seen : ShowsOthers "t" listing (listing ++ otherTenant) ∧
    ShowsOthers "t" joining (joining ++ otherTenant) := by
  constructor
  · have hlisted : targetsListed (tenantSent "t" (openHist listing))
        ≠ targetsListed (tenantSent "t" (openHist (listing ++ otherTenant))) := by decide
    exact ⟨openHist_run (by decide), openHist_run (by decide), rfl,
      fun h => hlisted (congrArg targetsListed h)⟩
  · have halone : tenantEvents "t" (openHist joining) = joining.take 4 := rfl
    have hcrowded : tenantEvents "t" (openHist (joining ++ otherTenant)) = joining.take 4 := rfl
    have htold : agentIdTold (tenantSent "t" (openHist joining))
        ≠ agentIdTold (tenantSent "t" (openHist (joining ++ otherTenant))) := by decide
    exact ⟨openHist_run (by decide), openHist_run (by decide), halone.trans hcrowded.symm,
      fun h => htold (congrArg agentIdTold h)⟩

end Relayfs

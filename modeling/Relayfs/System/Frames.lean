/-
  File:      Relayfs/System/Frames.lean
  Subject:   WHICH FRAMES ARE WHERE: notifications anywhere, requests on their way from a bridge to
             an agent, answers on their way from an agent or the relay to the bridges.

  * `IsNote`, `AsksFor`, `AnswersTo` -- a frame belongs to no call, is the request of a call, or
    was made to answer one; the last two carry the id of that call;
  * `DownOk`, `UpOk`, `JobOk` -- the frames that may be on a connection, and in a task's jobs;
  * `RelayFrames` -- the relay's part, kept by each of its steps (`RelayFrames.step`);
  * `SysInv` -- the whole system, kept by each step (`SysInv.step`).
-/
import Relayfs.System.System

namespace Relayfs

open Lib

/-! ## 1. Frames -/

/-- A frame that belongs to no call: it has a method and no id. -/
structure IsNote (f : Frame) : Prop where
  id : f.value.get "id" = none
  method : (f.value.get "method").isSome
  asks : f.asks = none
  answers : f.answers = none

/-- **The request of call `o`**, where `begun` bounds the calls of each bridge. -/
structure AsksFor (begun : Nat → Nat) (f : Frame) (o : CallRef) : Prop where
  asks : f.asks = some o
  answers : f.answers = none
  id : f.value.get "id" = some (.nat (wireId o.call))
  method : (f.value.get "method").isSome
  begun : o.call < begun o.bridge

/-- **An answer to call `o`.** -/
structure AnswersTo (begun : Nat → Nat) (f : Frame) (o : CallRef) : Prop where
  asks : f.asks = none
  answers : f.answers = some o
  id : f.value.get "id" = some (.nat (wireId o.call))
  method : f.value.get "method" = none
  begun : o.call < begun o.bridge

/-- A frame from the relay to a peer. -/
def DownOk (begun : Nat → Nat) (kind : Option PeerKind) (f : Frame) : Prop :=
  IsNote f ∨ (kind = some .bridge ∧ ∃ o, AnswersTo begun f o) ∨
    (kind = some .agent ∧ ∃ o, AsksFor begun f o)

/-- A frame from a peer to the relay. -/
def UpOk (begun : Nat → Nat) (kind : Option PeerKind) (f : Frame) : Prop :=
  (kind = some .bridge ∧ ∃ o, AsksFor begun f o) ∨
    (kind = some .agent ∧ (IsNote f ∨ ∃ o, AnswersTo begun f o))

/-- A job of the relay. -/
def JobOk (begun : Nat → Nat) (kind : Nat → Option PeerKind) : Job → Prop
  | .send s => DownOk begun (kind s.dest) s.frame ∧
      ∀ g ∈ s.orElse, ∀ e, DownOk begun (kind (g e).1) (g e).2
  | .broadcast _ f => IsNote f
  | .ack _ _ => True

theorem isNote_notification (method : String) (params : Json) :
    IsNote (.notification method params) := ⟨rfl, rfl, rfl, rfl⟩

section Mono

variable {begun begun' : Nat → Nat} (hb : ∀ b, begun b ≤ begun' b) {f : Frame} {o : CallRef}
include hb

theorem AsksFor.mono (h : AsksFor begun f o) : AsksFor begun' f o :=
  { h with begun := lt_of_lt_of_le h.begun (hb _) }

theorem AnswersTo.mono (h : AnswersTo begun f o) : AnswersTo begun' f o :=
  { h with begun := lt_of_lt_of_le h.begun (hb _) }

theorem DownOk.mono {kind kind' : Option PeerKind} (hk : ∀ k, kind = some k → kind' = some k)
    (h : DownOk begun kind f) : DownOk begun' kind' f := by
  rcases h with h | ⟨h, o, ho⟩ | ⟨h, o, ho⟩
  · left
    exact h
  · right; left
    exact ⟨hk _ h, o, ho.mono hb⟩
  · right; right
    exact ⟨hk _ h, o, ho.mono hb⟩

theorem UpOk.mono {kind kind' : Option PeerKind} (hk : ∀ k, kind = some k → kind' = some k)
    (h : UpOk begun kind f) : UpOk begun' kind' f := by
  rcases h with ⟨h, o, ho⟩ | ⟨h, ho⟩
  · left
    exact ⟨hk _ h, o, ho.mono hb⟩
  · right
    refine ⟨hk _ h, ?_⟩
    rcases ho with ho | ⟨o, ho⟩
    · left
      exact ho
    · right
      exact ⟨o, ho.mono hb⟩

theorem JobOk.mono {kind kind' : Nat → Option PeerKind}
    (hk : ∀ c k, kind c = some k → kind' c = some k) {job : Job} (h : JobOk begun kind job) :
    JobOk begun' kind' job := by
  cases job with
  | send s => exact ⟨h.1.mono hb (hk _), fun g hg e => (h.2 g hg e).mono hb (hk _)⟩
  | broadcast token f => exact h
  | ack token peer => trivial

end Mono

/-! ## 2. The relay -/

/-- **The relay's frames**: what each list of the registry and each job refers to. -/
structure RelayFrames (begun : Nat → Nat) (st : RelayState) : Prop where
  conn : ∀ conn, ∀ t ∈ st.tasks.lookup conn, ∀ token p, t.registered = some (token, p) →
    p.conn = conn
  agents : ∀ token, ∀ p ∈ row st.app.agents token, st.kindOf p.conn = some .agent
  bridges : ∀ token, ∀ p ∈ row st.app.bridges token, st.kindOf p.conn = some .bridge
  jobs : ∀ conn, ∀ t ∈ st.tasks.lookup conn, ∀ job ∈ t.jobs, JobOk begun st.kindOf job

theorem kindOf_eq {st : RelayState} {conn : Nat} {t : ConnTask} {token : String} {p : RelayPeer}
    (ht : st.tasks.lookup conn = some t) (hr : t.registered = some (token, p)) :
    st.kindOf conn = some p.hello.kind := by
  simp [RelayState.kindOf, ht, hr]

theorem kindOf_insert_self (app : AppState) (tasks : Table Nat ConnTask) (conn : Nat)
    (t : ConnTask) : (RelayState.mk app (tasks.insert conn t)).kindOf conn
      = t.registered.map fun r => r.2.hello.kind := by
  simp [RelayState.kindOf]

theorem kindOf_insert_ne (app app' : AppState) (tasks : Table Nat ConnTask) {conn c : Nat}
    (t : ConnTask) (h : c ≠ conn) : (RelayState.mk app (tasks.insert conn t)).kindOf c
      = (RelayState.mk app' tasks).kindOf c := by
  simp [RelayState.kindOf, AList.lookup_insert_ne h]

section Relay

variable {begun : Nat → Nat} {st : RelayState}

/-- A step that changes the task of one connection, and forgets no registration, keeps the kinds
    of all connections. -/
theorem kindOf_touch (app : AppState) {conn : Nat} {t : ConnTask}
    (hk : ∀ k, st.kindOf conn = some k → t.registered.map (fun r => r.2.hello.kind) = some k) :
    ∀ c k, st.kindOf c = some k →
      (RelayState.mk app (st.tasks.insert conn t)).kindOf c = some k := by
  intro c k hc
  by_cases hcc : c = conn
  · subst hcc
    rw [kindOf_insert_self]
    exact hk k hc
  · rw [kindOf_insert_ne app st.app st.tasks t hcc]
    exact hc

/-- Such a step keeps `RelayFrames` when it does for what it changes. -/
theorem RelayFrames.touch (h : RelayFrames begun st) {app : AppState} {conn : Nat} {t : ConnTask}
    (hk : ∀ k, st.kindOf conn = some k → t.registered.map (fun r => r.2.hello.kind) = some k)
    (hconn : ∀ token p, t.registered = some (token, p) → p.conn = conn)
    (hpeers : ∀ kind token, ∀ p ∈ row (app.peers kind) token,
      p ∈ row (st.app.peers kind) token ∨
        (RelayState.mk app (st.tasks.insert conn t)).kindOf p.conn = some kind)
    (hjobs : ∀ job ∈ t.jobs, JobOk begun st.kindOf job) :
    RelayFrames begun ⟨app, st.tasks.insert conn t⟩ := by
  have hkind := kindOf_touch app hk
  exact
    { conn := fun c u hu token p hp => by
        by_cases hc : c = conn
        · subst hc
          rw [AList.lookup_insert, Option.mem_some_iff] at hu
          subst hu
          exact hconn token p hp
        · rw [AList.lookup_insert_ne hc] at hu
          exact h.conn c u hu token p hp
      agents := fun token p hp => by
        rcases hpeers .agent token p hp with hp | hp
        · exact hkind _ _ (h.agents token p hp)
        · exact hp
      bridges := fun token p hp => by
        rcases hpeers .bridge token p hp with hp | hp
        · exact hkind _ _ (h.bridges token p hp)
        · exact hp
      jobs := fun c u hu job hjob => by
        by_cases hc : c = conn
        · subst hc
          rw [AList.lookup_insert, Option.mem_some_iff] at hu
          subst hu
          exact (hjobs job hjob).mono (fun _ => le_rfl) hkind
        · rw [AList.lookup_insert_ne hc] at hu
          exact (h.jobs c u hu job hjob).mono (fun _ => le_rfl) hkind }

/-- The relay's answer to a request answers its call. -/
theorem answersTo_respond {peer : RelayPeer} {f : Frame} {o : CallRef} (h : AsksFor begun f o)
    (result : Option Json) (error : Option RpcError) :
    AnswersTo begun (respond peer f result error).2 o := by
  have hid : requestId f.value = wireId o.call := by simp [requestId, h.id]
  exact
    { asks := rfl
      answers := h.asks
      id := by simp [respond, hid]
      method := by simp [respond]
      begun := h.begun }

theorem forwardToBridges_ok (h : RelayFrames begun st) {f : Frame}
    (hf : IsNote f ∨ ∃ o, AnswersTo begun f o) (token : String) :
    ∀ s ∈ forwardToBridges st.app token f, JobOk begun st.kindOf (.send s) := by
  intro s hs
  obtain ⟨b, hb, rfl⟩ := List.mem_map.mp hs
  refine ⟨?_, fun g hg => by cases hg⟩
  rcases hf with hf | hf
  · left
    exact hf
  · right; left
    exact ⟨h.bridges token b hb, hf⟩

/-- **The sends a frame leads to are in order.** -/
theorem handleFrame_ok (h : RelayFrames begun st) {conn : Nat} {t : ConnTask} {token : String}
    {peer : RelayPeer} (ht : st.tasks.lookup conn = some t)
    (hr : t.registered = some (token, peer)) {f : Frame} (hf : UpOk begun (st.kindOf conn) f) :
    ∀ s ∈ handleFrame st.app token peer f, JobOk begun st.kindOf (.send s) := by
  have hkind := kindOf_eq ht hr
  have hpc := h.conn conn t ht token peer hr
  rw [hkind] at hf
  intro s hs
  rw [handleFrame] at hs
  rcases hf with ⟨hk, o, ho⟩ | ⟨hk, hf⟩
  · -- a bridge's frame is a request
    have hk : peer.hello.kind = .bridge := Option.some.inj hk
    rw [hk] at hs
    have hbridge : st.kindOf peer.conn = some .bridge := by rw [hpc, hkind, hk]
    have hanswer : ∀ result error, DownOk begun (st.kindOf peer.conn)
        (respond peer f result error).2 := by
      intro result error
      right; left
      exact ⟨hbridge, o, answersTo_respond ho result error⟩
    have hresp : isResponse f.value = false := by
      rw [isResponse, Option.isNone_eq_false_iff.mpr ho.method, Bool.and_false]
    have hnote : isNotification f.value = false := by
      simp [isNotification, ho.id]
    simp only [handleBridgeFrame, hresp, hnote, Bool.false_eq_true, if_false] at hs
    split at hs
    · rw [List.mem_singleton] at hs
      subst hs
      exact ⟨hanswer _ _, fun g hg => by cases hg⟩
    · split at hs
      · rename_i agent hagent
        rw [List.mem_singleton] at hs
        subst hs
        refine ⟨?_, fun g hg e => ?_⟩
        · right; right
          exact ⟨h.agents token agent (mem_pickAgent hagent), o, ho⟩
        · cases hg
          exact hanswer _ _
      · rw [List.mem_singleton] at hs
        subst hs
        exact ⟨hanswer _ _, fun g hg => by cases hg⟩
  · have hk : peer.hello.kind = .agent := Option.some.inj hk
    rw [hk] at hs
    simp only [handleAgentFrame] at hs
    split at hs
    · exact forwardToBridges_ok h hf token s hs
    · cases hs

/-- The jobs left after one was performed are in order. -/
theorem nextJobs_ok (h : RelayFrames begun st) {jobs : List Job}
    (hj : ∀ job ∈ jobs, JobOk begun st.kindOf job) (error : Option String) :
    ∀ job ∈ nextJobs st.app error jobs, JobOk begun st.kindOf job := by
  cases jobs with
  | nil => exact hj
  | cons job rest =>
    rw [List.forall_mem_cons] at hj
    obtain ⟨hjob, hrest⟩ := hj
    cases job with
    | send s =>
      cases error with
      | none => exact hrest
      | some e =>
        cases hg : s.orElse with
        | none =>
          simp only [nextJobs, hg]
          exact hrest
        | some g =>
          simp only [nextJobs, hg]
          exact List.forall_mem_cons.mpr ⟨⟨hjob.2 g hg e, fun _ hn => by cases hn⟩, hrest⟩
    | broadcast token f =>
      simp only [nextJobs]
      intro job hmem
      rcases List.mem_append.mp hmem with hmem | hmem
      · obtain ⟨s, hs, rfl⟩ := List.mem_map.mp hmem
        exact forwardToBridges_ok h (.inl hjob) token s hs
      · exact hrest job hmem
    | ack token peer =>
      simp only [nextJobs]
      refine List.forall_mem_cons.mpr ⟨⟨.inl (isNote_notification _ _), fun _ hn => ?_⟩, hrest⟩
      cases hn

end Relay

/-- **Every step of the relay keeps its frames in order**, and forgets no registration. -/
theorem RelayFrames.step {begun : Nat → Nat} {st : RelayState} {e : RelayEvent}
    (h : RelayFrames begun st) (hok : st.permits e)
    (hf : ∀ conn f, e = .frame conn f → UpOk begun (st.kindOf conn) f) :
    RelayFrames begun (st.next e) ∧
      ∀ c k, st.kindOf c = some k → (st.next e).kindOf c = some k := by
  have hs : RelayStep st e (st.next e) := ⟨hok, rfl⟩
  obtain ⟨app, t', htask, hnext⟩ := taskStep_of_step hs
  rw [hnext]
  have hk : ∀ k, st.kindOf e.conn = some k →
      t'.registered.map (fun r => r.2.hello.kind) = some k := by
    intro k hk
    obtain ⟨r, hr, rfl⟩ := Option.map_eq_some_iff.mp hk
    obtain ⟨u, hu, hreg⟩ := Option.bind_eq_some_iff.mp hr
    rw [htask.keeps hu hreg]
    rfl
  refine ⟨?_, kindOf_touch app hk⟩
  cases htask with
  | accept =>
    exact h.touch hk (fun _ _ hr => by cases hr) (fun _ _ _ hp => .inl hp)
      fun job hjob => absurd hjob List.not_mem_nil
  | rejected =>
    exact h.touch hk (fun _ _ hr => by cases hr) (fun _ _ _ hp => .inl hp)
      fun job hjob => absurd hjob List.not_mem_nil
  | joined _ _ hv =>
    refine h.touch hk (fun _ _ hr => ?_) (fun kind token p hp => ?_) fun job hjob => ?_
    · cases hr
      exact newcomer_conn _ _ _ _
    · refine (mem_row_register hp).imp_right fun hp => ?_
      rw [hp.2, newcomer_conn, ← hp.1, ← newcomer_kind]
      exact kindOf_insert_self _ _ _ _
    · rcases mem_register_jobs hjob with rfl | rfl
      · exact isNote_notification _ _
      · trivial
  | @frame conn f token peer ht =>
    have hconn := h.conn conn _ ht
    refine h.touch hk hconn (fun _ _ _ hp => .inl hp) fun job hjob => ?_
    obtain ⟨s, hs, rfl⟩ := List.mem_map.mp hjob
    exact handleFrame_ok h ht rfl (hf conn f rfl) s hs
  | @job conn error t ht =>
    exact h.touch hk (h.conn conn t ht) (fun _ _ _ hp => .inl hp)
      (nextJobs_ok h (h.jobs conn t ht) error)
  | @close conn token peer ht =>
    have hconn := h.conn conn _ ht
    refine h.touch hk hconn (fun _ _ _ hp => .inl (mem_row_unregister hp))
      fun job hjob => ?_
    rw [mem_unregister_jobs hjob]
    exact isNote_notification _ _

/-! ## 3. The system -/

/-- The calls each bridge has begun. -/
def System.begun (s : System) (b : Nat) : Nat := (s.clients b).nextId

/-- **The system's invariant.** -/
structure SysInv (s : System) : Prop where
  clients : ∀ b, ClientInv (s.clients b)
  relay : RelayFrames s.begun s.relay
  up : ∀ conn, ∀ f ∈ s.up conn, UpOk s.begun (s.relay.kindOf conn) f
  down : ∀ conn, ∀ f ∈ s.down conn, DownOk s.begun (s.relay.kindOf conn) f
  dialed : ∀ b conn, (s.clients b).link.dialed = some conn → s.relay.kindOf conn = some .bridge
  sink : ∀ b conn, (s.clients b).link.sink = some conn → s.relay.kindOf conn = some .bridge
  agents : ∀ conn, ∀ f ∈ s.agents conn, IsNote f ∨ ∃ o, AsksFor s.begun f o

theorem sysInv_init {s : System} (h : SystemInit s) : SysInv s := by
  obtain ⟨requiredToken, rfl⟩ := h
  exact
    { clients := fun b => clientInv_new
      relay :=
        { conn := fun conn t ht => by simp [System.start] at ht
          agents := fun token p hp => by simp [System.start, AppState.new] at hp
          bridges := fun token p hp => by simp [System.start, AppState.new] at hp
          jobs := fun conn t ht => by simp [System.start] at ht }
      up := fun conn f hf => by cases hf
      down := fun conn f hf => by cases hf
      dialed := fun b conn hl => by cases hl
      sink := fun b conn hl => by cases hl
      agents := fun conn f hf => by cases hf }

section System

variable {s : System}

/-- A step of the relay. -/
theorem SysInv.withRelay (h : SysInv s) {e : RelayEvent} (hok : s.relay.permits e)
    (hf : ∀ conn f, e = .frame conn f → UpOk s.begun (s.relay.kindOf conn) f) :
    SysInv { s with relay := s.relay.next e } := by
  obtain ⟨hr, hkind⟩ := h.relay.step hok hf
  exact
    { h with
      relay := hr
      up := fun conn f hm => (h.up conn f hm).mono (fun _ => le_rfl) (hkind conn)
      down := fun conn f hm => (h.down conn f hm).mono (fun _ => le_rfl) (hkind conn)
      dialed := fun b conn hl => hkind conn _ (h.dialed b conn hl)
      sink := fun b conn hl => hkind conn _ (h.sink b conn hl) }

/-- A step of one client, that takes back no call. -/
theorem SysInv.withClient (h : SysInv s) {b : Nat} {c : AgentClient} (hc : ClientInv c)
    (hn : (s.clients b).nextId ≤ c.nextId)
    (hdialed : ∀ conn, c.link.dialed = some conn → s.relay.kindOf conn = some .bridge)
    (hsink : ∀ conn, c.link.sink = some conn → s.relay.kindOf conn = some .bridge) :
    SysInv { s with clients := setAt s.clients b c } := by
  have hb : ∀ i, s.begun i ≤ (System.begun { s with clients := setAt s.clients b c }) i := by
    intro i
    by_cases hi : i = b
    · subst hi
      simpa [System.begun] using hn
    · simp [System.begun, setAt_ne _ _ hi]
  have hclient : ∀ P : AgentClient → Prop, P c → (∀ i, P (s.clients i)) →
      ∀ i, P (setAt s.clients b c i) := by
    intro P hP hall i
    by_cases hi : i = b
    · subst hi
      rwa [setAt_self]
    · rw [setAt_ne _ _ hi]
      exact hall i
  exact
    { clients := hclient _ hc h.clients
      relay :=
        { h.relay with
          jobs := fun conn t ht job hj =>
            (h.relay.jobs conn t ht job hj).mono hb fun _ _ hk => hk }
      up := fun conn f hm => (h.up conn f hm).mono hb fun _ hk => hk
      down := fun conn f hm => (h.down conn f hm).mono hb fun _ hk => hk
      dialed := hclient
        (fun c => ∀ conn, c.link.dialed = some conn → s.relay.kindOf conn = some .bridge)
        hdialed h.dialed
      sink := hclient
        (fun c => ∀ conn, c.link.sink = some conn → s.relay.kindOf conn = some .bridge)
        hsink h.sink
      agents := fun conn f hm => (h.agents conn f hm).imp_right fun ⟨o, ho⟩ => ⟨o, ho.mono hb⟩ }

/-- A step of one client that keeps its calls' numbers and its link. -/
theorem SysInv.withCalls (h : SysInv s) {b : Nat} {c : AgentClient} (hc : ClientInv c)
    (hn : c.nextId = (s.clients b).nextId) (hl : c.link = (s.clients b).link) :
    SysInv { s with clients := setAt s.clients b c } := by
  refine h.withClient hc hn.ge (fun conn hd => h.dialed b conn ?_) fun conn hd => h.sink b conn ?_
  · rwa [hl] at hd
  · rwa [hl] at hd

/-- A step of one client's link, that dials nothing or keeps to a bridge's connection. -/
theorem SysInv.withLink (h : SysInv s) {b : Nat} {l : Link}
    (hdialed : ∀ conn, l.dialed = some conn → s.relay.kindOf conn = some .bridge)
    (hsink : ∀ conn, l.sink = some conn → s.relay.kindOf conn = some .bridge) :
    SysInv { s with clients := setAt s.clients b { s.clients b with link := l } } :=
  h.withClient ((h.clients b).shrink rfl (fun _ _ hp => hp) fun _ hx => hx) le_rfl hdialed hsink

theorem SysInv.popDown (h : SysInv s) (conn : Nat) :
    SysInv { s with down := popAt s.down conn } :=
  { h with down := fun i f hm => h.down i f (mem_of_mem_popAt hm) }

/-- A task of an agent takes its request. -/
theorem SysInv.eraseAgent (h : SysInv s) (conn i : Nat) :
    SysInv { s with agents := setAt s.agents conn ((s.agents conn).eraseIdx i) } where
  __ := h
  agents c f hm := by
    dsimp only at hm
    by_cases hc : c = conn
    · subst hc
      rw [setAt_self] at hm
      exact h.agents c f (List.mem_of_mem_eraseIdx hm)
    · rw [setAt_ne _ _ hc] at hm
      exact h.agents c f hm

theorem SysInv.pushUp (h : SysInv s) {conn : Nat} {f : Frame}
    (hf : UpOk s.begun (s.relay.kindOf conn) f) : SysInv { s with up := pushAt s.up conn f } where
  __ := h
  up i g hm := by
    rcases mem_pushAt.mp hm with hm | ⟨rfl, rfl⟩
    · exact h.up i g hm
    · exact hf

/-- What an agent answers is an answer to the request, or nothing. -/
theorem answersTo_dispatch {begun : Nat → Nat} {f : Frame}
    (hf : IsNote f ∨ ∃ o, AsksFor begun f o) {outcome : HandlerOutcome} {answer : Json}
    (ha : dispatch f.value outcome = some answer) :
    ∃ o, AnswersTo begun ⟨answer, none, f.asks⟩ o := by
  obtain ⟨id, hid, hanswer, hmethod⟩ := dispatch_eq_some ha
  rcases hf with hf | ⟨o, ho⟩
  · rw [hf.id] at hid
    cases hid
  · refine ⟨o, ?_⟩
    rw [ho.id] at hid
    have hid : wireId o.call = id := by simpa using hid
    exact
      { asks := rfl
        answers := ho.asks
        id := by rw [hid]; exact hanswer
        method := hmethod
        begun := ho.begun }

/-- The frame a relay's task puts on the wire is one of its jobs. -/
theorem emitted_ok (h : SysInv s) {conn dest : Nat} {error : Option String} {f : Frame}
    (he : s.relay.emitted conn error = some (dest, f)) :
    DownOk s.begun (s.relay.kindOf dest) f := by
  unfold RelayState.emitted at he
  split at he
  · rename_i reg reading sd rest ht
    cases he
    exact (h.relay.jobs conn _ ht (.send sd) List.mem_cons_self).1
  · cases he

/-- **Every step keeps the system's invariant.** -/
theorem SysInv.step {s' : System} {e : SystemEvent} (h : SysInv s) (hs : SystemStep s e s') :
    SysInv s' := by
  obtain ⟨hok, rfl⟩ := hs
  cases e with
  | relay e =>
    obtain ⟨hnf, hok⟩ := hok
    have h' := h.withRelay hok fun conn f he => by rw [he] at hnf; cases hnf
    cases e with
    | job conn error =>
      simp only [System.next]
      cases he : s.relay.emitted conn error with
      | none => exact h'
      | some x =>
        obtain ⟨dest, f⟩ := x
        refine { h' with down := fun i g hm => ?_ }
        rcases mem_pushAt.mp hm with hm | ⟨rfl, rfl⟩
        · exact h'.down i g hm
        · obtain ⟨-, hkind⟩ := h.relay.step hok fun conn f he => by cases he
          exact (emitted_ok h he).mono (fun _ => le_rfl) (hkind i)
    | _ => exact h'
  | relayRead conn =>
    obtain ⟨f, hf, hok⟩ := hok
    simp only [System.next, Option.mem_def.mp hf]
    have hmem : f ∈ s.up conn := List.mem_of_head? hf
    have h' := h.withRelay hok fun c g he => by
      cases he
      exact h.up conn f hmem
    exact { h' with up := fun i g hm => h'.up i g (mem_of_mem_popAt hm) }
  | dial b conn =>
    obtain ⟨-, -, hk⟩ := hok
    have h' := h.withLink (b := b) (l := .dialing conn) (fun c hc => by cases hc; exact hk)
      fun c hc => by cases hc
    exact { h' with }
  | handshake b =>
    obtain ⟨⟨conn, f⟩, hf⟩ := Option.isSome_iff_exists.mp hok
    simp only [System.next, hf]
    have hconn : (s.clients b).link.dialed = some conn := by
      obtain ⟨c, hc, hf⟩ := Option.bind_eq_some_iff.mp hf
      obtain ⟨g, -, hg⟩ := Option.map_eq_some_iff.mp hf
      cases hg
      exact hc
    have hk := h.dialed b conn hconn
    refine (h.withLink (fun c hc => ?_) fun c hc => ?_).popDown conn
    · split at hc <;> cases hc
      exact hk
    · split at hc <;> cases hc
      exact hk
  | hangup b => exact h.withLink (fun c hc => by cases hc) fun c hc => by cases hc
  | begin b req =>
    exact h.withClient ((h.clients b).beginCall req) (Nat.le_succ _) (h.dialed b) (h.sink b)
  | send b n req error =>
    have hn : n < s.begun b := (h.clients b).unsent (n, req) hok
    have h' := h.withCalls ((h.clients b).sendFrame n req error) (sendFrame_nextId _ _ _ _)
      (sendFrame_link _ _ _ _)
    simp only [System.next]
    cases hr : ((s.clients b).sendFrame n req error).2 with
    | failed e => exact h'
    | sent conn value =>
      obtain ⟨hconn, rfl⟩ := sendFrame_sent hr
      refine h'.pushUp (.inl ⟨h.sink b conn hconn, ⟨b, n⟩, ?_⟩)
      exact
        { asks := rfl
          answers := rfl
          id := requestValue_id _ _ _
          method := by simp [BridgeRequest.frame]
          begun := by
            simp only [System.begun, setAt_self, sendFrame_nextId]
            exact hn }
  | timeout b n => exact h.withCalls ((h.clients b).timeout n) rfl rfl
  | read b =>
    obtain ⟨⟨conn, f⟩, hf⟩ := Option.isSome_iff_exists.mp hok
    simp only [System.next, hf]
    exact (h.withCalls ((h.clients b).receive f.value) (receive_nextId _ _)
      (receive_link _ _)).popDown conn
  | lost b =>
    exact h.withClient (h.clients b).connectionLost le_rfl (fun c hc => by cases hc)
      fun c hc => by cases hc
  | agentRead conn =>
    obtain ⟨hk, hne⟩ := hok
    simp only [System.next]
    cases hd : (s.down conn).head? with
    | none => exact h
    | some f =>
      have h' := h.popDown conn
      dsimp only
      split
      · refine { h' with agents := fun i g hm => ?_ }
        rcases mem_pushAt.mp hm with hm | ⟨rfl, rfl⟩
        · exact h.agents i g hm
        · -- what the relay sends to an agent is a notification or a request
          rcases h.down i g (List.mem_of_head? hd) with hg | ⟨hb, -⟩ | ⟨-, hg⟩
          · left
            exact hg
          · rw [hk] at hb
            cases hb
          · right
            exact hg
      · exact { h' with }
  | agentNotify conn method params =>
    exact h.pushUp (.inr ⟨hok, .inl (isNote_notification method params)⟩)
  | agentAnswer conn i outcome =>
    obtain ⟨hk, hi⟩ := hok
    simp only [System.next, List.getElem?_eq_getElem hi]
    have h' := h.eraseAgent conn i
    cases hd : dispatch (s.agents conn)[i].value outcome with
    | none => exact h'
    | some answer =>
      exact h'.pushUp (.inr ⟨hk, .inr
        (answersTo_dispatch (h.agents conn _ (List.getElem_mem hi)) hd)⟩)

end System

theorem SystemRun.inv {hist : List (System × SystemEvent)} {s : System} (h : SystemRun hist s) :
    SysInv s :=
  h.invariant (fun _ h0 => sysInv_init h0) fun _ _ _ hi hs => hi.step hs

end Relayfs

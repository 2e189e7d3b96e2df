/-
  File:      Relayfs/Relay/Delivery.lean
  Subject:   WHAT THE RELAY DELIVERS, over whole runs.

  * `Chosen`, `pickAgent_eq_some` -- the agent that a request names, in terms of the list alone;
  * `RoutesRequest` -- a request goes to that agent, or the bridge is told that there is none;
  * `asked`, `sent` -- what the frames and jobs of a connection ask its task to send, and what
    the task has sent;
  * `Delivery` -- the two differ by the sends that are still to be made;
  * `relay_delivers` -- registry, tokens, routes and sends of every run.
-/
import Relayfs.Relay.Routing
import Relayfs.Relay.Run

namespace Relayfs

open Lib

/-! ## 1. Routes -/

/-- The first element of a list with a property. -/
def First {α : Type} (P : α → Prop) (l : List α) (a : α) : Prop :=
  ∃ before after, l = before ++ a :: after ∧ P a ∧ ∀ b ∈ before, ¬ P b

/-- **The agent a request is for**: the first that its target names, or else the first with its
    session, or else the one that registered last. -/
def Chosen (agents : List RelayPeer) (value : Json) (a : RelayPeer) : Prop :=
  match targetHint value, sessionHint value with
  | some target, _ => First (·.Named target) agents a
  | none, some session => First (·.session = session) agents a
  | none, none => agents.getLast? = some a

theorem find?_eq_some_iff_first {α : Type} {P : α → Prop} [DecidablePred P] {l : List α} {a : α} :
    l.find? (P ·) = some a ↔ First P l a := by
  rw [List.find?_eq_some_iff_append]
  constructor
  · intro h
    obtain ⟨ha, before, after, hl, hb⟩ := h
    refine ⟨before, after, hl, of_decide_eq_true ha, fun b hm => ?_⟩
    have hn := hb b hm
    rwa [Bool.not_eq_true', decide_eq_false_iff_not] at hn
  · intro h
    obtain ⟨before, after, hl, ha, hb⟩ := h
    refine ⟨decide_eq_true ha, before, after, hl, fun b hm => ?_⟩
    rw [Bool.not_eq_true', decide_eq_false_iff_not]
    exact hb b hm

/-- `pick_agent` picks the agent the request is for. -/
theorem pickAgent_eq_some {agents : List RelayPeer} {value : Json} {a : RelayPeer} :
    pickAgent agents (targetHint value) (sessionHint value) = some a ↔ Chosen agents value a := by
  unfold pickAgent Chosen
  cases targetHint value with
  | some target => exact find?_eq_some_iff_first
  | none =>
    cases sessionHint value with
    | some session => exact find?_eq_some_iff_first
    | none => exact Iff.rfl

/-- **What becomes of a request**: it is forwarded, as it is, to the agent it is for and to no
    other, or where there is none the bridge alone is told so, under the id of the request. -/
def RoutesRequest (agents : List RelayPeer) (bridge : RelayPeer) (value : Json) (id : Nat)
    (out : List (Nat × Json)) : Prop :=
  (∃ a, Chosen agents value a ∧ out = [(a.conn, value)]) ∨
    ((∀ a, ¬ Chosen agents value a) ∧
      out = [(bridge.conn, responseValue id none (some agentOffline))])

/-- The destination and the value of a send. -/
def Send.out (s : Send) : Nat × Json := (s.dest, s.frame.value)

theorem handleBridgeFrame_routes {st : AppState} {token : String} {peer : RelayPeer}
    {frame : Frame} (h : IsRequest frame.value) {id : Nat}
    (hid : (frame.value.get "id").bind Json.asU64 = some id) :
    RoutesRequest (row st.agents token) peer frame.value id
      ((handleBridgeFrame st token peer frame).map Send.out) := by
  rw [handleBridgeFrame_request h]
  have hreq : requestId frame.value = id := by rw [requestId, hid, Option.getD_some]
  cases hroute : st.route token frame.value with
  | some a => exact .inl ⟨a, pickAgent_eq_some.mp hroute, rfl⟩
  | none =>
    right
    refine ⟨fun a ha => ?_, ?_⟩
    · have hsome : st.route token frame.value = some a := pickAgent_eq_some.mpr ha
      rw [hroute] at hsome
      cases hsome
    · show [(peer.conn, responseValue (requestId frame.value) none (some agentOffline))] = _
      rw [hreq]

theorem handleAgentFrame_forwards {st : AppState} {token : String} {frame : Frame}
    (h : isResponse frame.value = true ∨ isNotification frame.value = true) :
    (handleAgentFrame st token frame).map Send.out
      = (row st.bridges token).map fun b => (b.conn, frame.value) := by
  have hor : (isResponse frame.value || isNotification frame.value) = true := by
    rwa [Bool.or_eq_true]
  rw [handleAgentFrame, if_pos hor, forwardToBridges, List.map_map]
  rfl

/-! ## 2. What a task sends -/

/-- The jobs of a connection's task. -/
def RelayState.jobsOf (st : RelayState) (conn : Nat) : List Job :=
  ((st.tasks.lookup conn).map (·.jobs)).getD []

/-- The token and the peer that a connection registered. -/
def RelayState.peerOf (st : RelayState) (conn : Nat) : Option (String × RelayPeer) :=
  (st.tasks.lookup conn).bind (·.registered)

/-- What a job asks to send when its turn comes. A send asks for nothing more. -/
def Job.asks (app : AppState) : Job → List (Nat × Json)
  | .send _ => []
  | .broadcast token frame => (forwardToBridges app token frame).map Send.out
  | .ack token peer => [(peer.conn, (helloAck app token peer).value)]

/-- What a job sends. -/
def Job.sends : Job → List (Nat × Json)
  | .send s => [s.out]
  | _ => []

/-- What an event asks the task of a connection to send. -/
def asks (st : RelayState) (conn : Nat) : RelayEvent → List (Nat × Json)
  | .frame c frame =>
      if c = conn then
        ((st.peerOf c).map fun r => (handleFrame st.app r.1 r.2 frame).map Send.out).getD []
      else []
  | .job c _ => if c = conn then ((st.jobsOf c).head?.map (Job.asks st.app)).getD [] else []
  | _ => []

/-- What the task of a connection sends in an event. -/
def sends (st : RelayState) (conn : Nat) : RelayEvent → List (Nat × Json)
  | .job c _ => if c = conn then ((st.jobsOf c).head?.map Job.sends).getD [] else []
  | _ => []

/-- All that the task of a connection was asked to send, oldest first. -/
def asked (conn : Nat) : List (RelayState × RelayEvent) → List (Nat × Json)
  | [] => []
  | (st, e) :: hist => asked conn hist ++ asks st conn e

/-- All that it has sent, oldest first. -/
def sent (conn : Nat) : List (RelayState × RelayEvent) → List (Nat × Json)
  | [] => []
  | (st, e) :: hist => sent conn hist ++ sends st conn e

/-- **Deliveries of a connection.** What was asked for is what was sent and, in this order, what
    waits; sends wait before everything else. -/
structure Delivery (conn : Nat) (hist : List (RelayState × RelayEvent)) (st : RelayState) :
    Prop where
  order : ∃ (waiting : List Send) (rest : List Job),
    st.jobsOf conn = waiting.map Job.send ++ rest ∧ (∀ job ∈ rest, job.sends = []) ∧
    asked conn hist = sent conn hist ++ waiting.map Send.out
  fresh : ∀ t ∈ st.tasks.lookup conn, t.registered = none → t.jobs = []

section Delivery

variable {conn : Nat} {hist : List (RelayState × RelayEvent)} {st : RelayState} {app : AppState}

/-- Nothing waits in a task without jobs. -/
theorem Delivery.idle (h : Delivery conn hist st) (hjobs : st.jobsOf conn = []) :
    asked conn hist = sent conn hist := by
  obtain ⟨waiting, rest, heq, -, hasked⟩ := h.order
  rw [hjobs] at heq
  have hnil : waiting = [] := by
    rw [eq_comm, List.append_eq_nil_iff, List.map_eq_nil_iff] at heq
    exact heq.1
  rw [hasked, hnil, List.map_nil, List.append_nil]

theorem jobsOf_insert_self {t : ConnTask} :
    (RelayState.mk app (st.tasks.insert conn t)).jobsOf conn = t.jobs := by
  simp [RelayState.jobsOf]

theorem jobsOf_insert_ne {t : ConnTask} {c : Nat} (h : conn ≠ c) :
    (RelayState.mk app (st.tasks.insert c t)).jobsOf conn = st.jobsOf conn := by
  simp [RelayState.jobsOf, AList.lookup_insert_ne h]

/-- A step of another connection. -/
theorem Delivery.other (h : Delivery conn hist st) {c : Nat} (hc : conn ≠ c) {t : ConnTask}
    {e : RelayEvent} (hasks : asks st conn e = []) (hsends : sends st conn e = []) :
    Delivery conn ((st, e) :: hist) ⟨app, st.tasks.insert c t⟩ where
  order := by
    obtain ⟨waiting, rest, heq, hrest, hasked⟩ := h.order
    refine ⟨waiting, rest, ?_, hrest, ?_⟩
    · rw [jobsOf_insert_ne hc, heq]
    · rw [asked, sent, hasks, hsends, List.append_nil, List.append_nil, hasked]
  fresh u hu := by
    rw [AList.lookup_insert_ne hc] at hu
    exact h.fresh u hu

/-- A step of the connection itself, from which its task has the sends `waiting` before it. -/
theorem Delivery.own {t : ConnTask} {e : RelayEvent} (waiting : List Send) (rest : List Job)
    (ht : t.jobs = waiting.map Job.send ++ rest)
    (hrest : ∀ job ∈ rest, job.sends = [])
    (hfresh : t.registered = none → t.jobs = [])
    (hout : asked conn hist ++ asks st conn e
      = sent conn hist ++ sends st conn e ++ waiting.map Send.out) :
    Delivery conn ((st, e) :: hist) ⟨app, st.tasks.insert conn t⟩ where
  order := ⟨waiting, rest, jobsOf_insert_self.trans ht, hrest, hout⟩
  fresh u hu := by
    rw [AList.lookup_insert, Option.mem_some_iff] at hu
    subst hu
    exact hfresh

/-- A job is performed, and its send succeeds. -/
theorem Delivery.job (h : Delivery conn hist st) {t : ConnTask}
    (ht : st.tasks.lookup conn = some t) (hne : t.jobs.isEmpty = false) :
    Delivery conn ((st, .job conn none) :: hist)
      ⟨app, st.tasks.insert conn { t with jobs := nextJobs st.app none t.jobs }⟩ := by
  have hjobs : st.jobsOf conn = t.jobs := by rw [RelayState.jobsOf, ht]; rfl
  have hfresh : t.registered = none → nextJobs st.app none t.jobs = [] := by
    intro hr
    rw [h.fresh t ht hr] at hne
    cases hne
  obtain ⟨waiting, rest, heq, hrest, hasked⟩ := h.order
  rw [hjobs] at heq
  cases waiting with
  | cons s waiting =>
    -- the oldest send goes out
    have hhead : t.jobs = .send s :: (waiting.map Job.send ++ rest) := heq
    refine Delivery.own waiting rest ?_ hrest hfresh ?_
    · dsimp only
      rw [hhead]
      rfl
    · simp only [asks, sends, if_true, hjobs, hhead, List.head?_cons, Option.map_some,
        Option.getD_some, Job.asks, Job.sends, List.append_nil]
      rw [hasked, List.map_cons, List.append_assoc, List.singleton_append]
  | nil =>
    cases rest with
    | nil =>
      rw [heq] at hne
      cases hne
    | cons job rest =>
      have hhead : t.jobs = job :: rest := heq
      have hrest' : ∀ j ∈ rest, j.sends = [] := fun j hj => hrest j (List.mem_cons_of_mem _ hj)
      rw [List.map_nil, List.append_nil] at hasked
      cases job with
      | send s => exact absurd (hrest _ List.mem_cons_self) (by simp [Job.sends])
      | broadcast token frame =>
        refine Delivery.own (forwardToBridges st.app token frame) rest ?_ hrest' hfresh ?_
        · dsimp only
          rw [hhead]
          rfl
        · simp only [asks, sends, if_true, hjobs, hhead, List.head?_cons, Option.map_some,
            Option.getD_some, Job.asks, Job.sends, List.append_nil, hasked]
      | ack token peer =>
        refine Delivery.own [⟨peer.conn, helloAck st.app token peer, none⟩] rest ?_ hrest'
          hfresh ?_
        · dsimp only
          rw [hhead]
          rfl
        · simp only [asks, sends, if_true, hjobs, hhead, List.head?_cons, Option.map_some,
            Option.getD_some, Job.asks, Job.sends, List.append_nil, hasked]
          rfl

/-- An event asks and sends nothing for other connections. -/
theorem asks_other {e : RelayEvent} (hc : conn ≠ e.conn) : asks st conn e = [] := by
  cases e with
  | frame c f => exact if_neg fun h => hc h.symm
  | job c error => exact if_neg fun h => hc h.symm
  | _ => rfl

theorem sends_other {e : RelayEvent} (hc : conn ≠ e.conn) : sends st conn e = [] := by
  cases e with
  | job c error => exact if_neg fun h => hc h.symm
  | _ => rfl

/-- **Every step whose sends succeed keeps the deliveries** of every connection. -/
theorem Delivery.step (h : Delivery conn hist st) {e : RelayEvent} {st' : RelayState}
    (hok : ∀ c err, e ≠ .job c (some err)) (hs : RelayStep st e st') :
    Delivery conn ((st, e) :: hist) st' := by
  obtain ⟨app, t', htask, rfl⟩ := taskStep_of_step hs
  by_cases hc : conn = e.conn
  · subst hc
    cases htask with
    | @accept c hfree =>
      have hidle : asked c hist = sent c hist :=
        h.idle (by rw [RelayEvent.conn, RelayState.jobsOf, hfree]; rfl)
      exact Delivery.own [] [] rfl (fun _ hj => absurd hj List.not_mem_nil) (fun _ => rfl)
        (by simp [asks, sends, RelayEvent.conn, hidle])
    | @rejected c hello d u hu hnone hv =>
      have hidle : asked c hist = sent c hist :=
        h.idle (by rw [RelayEvent.conn, RelayState.jobsOf, hu]; exact h.fresh u hu hnone)
      exact Delivery.own [] [] rfl (fun _ hj => absurd hj List.not_mem_nil) (fun _ => rfl)
        (by simp [asks, sends, RelayEvent.conn, hidle])
    | @joined c hello d u token hu hnone hv =>
      have hidle : asked c hist = sent c hist :=
        h.idle (by rw [RelayEvent.conn, RelayState.jobsOf, hu]; exact h.fresh u hu hnone)
      -- a broadcast and an acknowledgement send nothing themselves
      refine Delivery.own [] _ rfl (fun job hj => ?_) (fun hn => by cases hn)
        (by simp [asks, sends, RelayEvent.conn, hidle])
      rcases mem_register_jobs hj with rfl | rfl
      · rfl
      · rfl
    | @frame c f token peer ht =>
      have hidle : asked c hist = sent c hist :=
        h.idle (by rw [RelayEvent.conn, RelayState.jobsOf, ht]; rfl)
      refine Delivery.own (handleFrame st.app token peer f) [] (List.append_nil _).symm
        (fun _ hj => absurd hj List.not_mem_nil) (fun hn => by cases hn) ?_
      simp [asks, sends, RelayEvent.conn, RelayState.peerOf, ht, hidle]
    | @job c error t ht hne =>
      cases error with
      | some err => exact absurd rfl (hok c err)
      | none => exact h.job ht hne
    | @close c token peer ht =>
      have hidle : asked c hist = sent c hist :=
        h.idle (by rw [RelayEvent.conn, RelayState.jobsOf, ht]; rfl)
      refine Delivery.own [] _ rfl (fun job hj => ?_) (fun hn => by cases hn)
        (by simp [asks, sends, RelayEvent.conn, hidle])
      rw [mem_unregister_jobs hj]
      rfl
  · exact h.other hc (asks_other hc) (sends_other hc)

end Delivery

/-- Every send of the history succeeded. -/
def SendsSucceed (hist : List (RelayState × RelayEvent)) : Prop :=
  ∀ x ∈ hist, ∀ c err, x.2 ≠ .job c (some err)

theorem RelayRun.delivery {hist : List (RelayState × RelayEvent)} {st : RelayState}
    (h : RelayRun hist st) (hok : SendsSucceed hist) (conn : Nat) : Delivery conn hist st := by
  induction h with
  | start h0 =>
    obtain ⟨requiredToken, rfl⟩ := h0
    exact
      { order := ⟨[], [], rfl, fun _ hj => absurd hj List.not_mem_nil, rfl⟩
        fresh := fun t ht => by simp at ht }
  | step hr hs ih =>
    rw [SendsSucceed, List.forall_mem_cons] at hok
    exact (ih hok.2).step hok.1 hs

/-! ## 3. Tokens -/

/-- The token validation passes a token that the peer presented, and where one is required, that
    one. -/
theorem validToken_eq_some {app : AppState} {hello : Hello} {token : String}
    (h : app.validToken hello = some token) :
    hello.token = some token ∧ ∀ required ∈ app.requiredToken, token = required := by
  unfold AppState.validToken at h
  split at h
  · cases h
  · rename_i t ht
    split at h
    · cases h
    · split at h
      · rename_i hr
        cases h
        exact ⟨ht, fun r hm => by rw [hr] at hm; cases hm⟩
      · rename_i required hr
        split at h
        · rename_i heq
          cases h
          refine ⟨ht, fun r hm => ?_⟩
          rw [hr] at hm
          cases hm
          exact heq
        · cases h

/-- **Every peer that joined presented its token**, and where one is required, that one. -/
structure TokensInv (kind : PeerKind) (hist : List (RelayState × RelayEvent)) (st : RelayState) :
    Prop where
  presented : ∀ token, ∀ p ∈ joined kind token hist, p.hello.token = some token
  required : ∀ token, joined kind token hist ≠ [] → ∀ r ∈ st.app.requiredToken, token = r

theorem requiredToken_next {st : RelayState} {e : RelayEvent} :
    (st.next e).app.requiredToken = st.app.requiredToken := by
  cases e with
  | accept c => rfl
  | hello c hello d =>
    unfold RelayState.next
    dsimp only
    split
    · rfl
    · unfold register
      split <;> rfl
  | frame c frame =>
    unfold RelayState.next
    dsimp only
    split <;> rfl
  | job c error =>
    unfold RelayState.next
    dsimp only
    split <;> rfl
  | close c =>
    unfold RelayState.next
    dsimp only
    split
    · rw [unregister_fst]
      split
      · unfold cleanupAgent
        split <;> rfl
      · unfold cleanupBridge
        split <;> rfl
    · rfl

theorem TokensInv.step {kind : PeerKind} {hist : List (RelayState × RelayEvent)}
    {st st' : RelayState} {e : RelayEvent} (h : TokensInv kind hist st)
    (hs : RelayStep st e st') : TokensInv kind ((st, e) :: hist) st' := by
  obtain ⟨-, rfl⟩ := hs
  have hsame : (∀ token, joined kind token ((st, e) :: hist) = joined kind token hist) →
      TokensInv kind ((st, e) :: hist) (st.next e) := by
    intro hjoin
    refine ⟨fun token p hp => ?_, fun token hne r hr => ?_⟩
    · rw [hjoin] at hp
      exact h.presented token p hp
    · rw [hjoin] at hne
      rw [requiredToken_next] at hr
      exact h.required token hne r hr
  cases e with
  | hello c hello d =>
    cases hello with
    | none => exact hsame fun _ => rfl
    | some h' =>
      refine ⟨fun token p hp => ?_, fun token hne r hr => ?_⟩
      · rw [joined] at hp
        split at hp
        · rename_i hv
          rcases List.mem_append.mp hp with hp | hp
          · exact h.presented token p hp
          · rw [List.mem_singleton.mp hp, newcomer_token]
            exact (validToken_eq_some hv.2).1
        · exact h.presented token p hp
      · rw [requiredToken_next] at hr
        rw [joined] at hne
        split at hne
        · rename_i hv
          exact (validToken_eq_some hv.2).2 r hr
        · exact h.required token hne r hr
  | _ => exact hsame fun _ => rfl

theorem RelayRun.tokens {hist : List (RelayState × RelayEvent)} {st : RelayState}
    (h : RelayRun hist st) (kind : PeerKind) : TokensInv kind hist st :=
  h.history_invariant
    (fun _ _ => ⟨fun _ _ hp => absurd hp List.not_mem_nil, fun _ hne => absurd rfl hne⟩)
    fun _ _ _ _ hi hs => hi.step hs

/-! ## 4. Runs -/

/-- **What a frame leads to**: its connection has a registered peer; a request of a bridge is
    routed among the agents of the bridge's token, a response or notification of an agent goes to
    the bridges of the agent's token. -/
def FrameServed (st : RelayState) (conn : Nat) (frame : Frame) : Prop :=
  ∃ token peer, st.peerOf conn = some (token, peer) ∧ peer.conn = conn ∧
    (peer.hello.kind = .bridge → IsRequest frame.value →
      ∀ id, (frame.value.get "id").bind Json.asU64 = some id →
        RoutesRequest (row st.app.agents token) peer frame.value id
          (asks st conn (.frame conn frame))) ∧
    (peer.hello.kind = .agent →
      (isResponse frame.value = true ∨ isNotification frame.value = true) →
      asks st conn (.frame conn frame)
        = (row st.app.bridges token).map fun b => (b.conn, frame.value))

theorem frame_served {hist : List (RelayState × RelayEvent)} {st : RelayState}
    (h : RelayRun hist st) {conn : Nat} {frame : Frame} (hok : st.permits (.frame conn frame)) :
    FrameServed st conn frame := by
  obtain ⟨⟨reg, reading, jobs⟩, ht, hsome, -, -⟩ := hok
  obtain ⟨⟨token, peer⟩, rfl⟩ := Option.isSome_iff_exists.mp hsome
  have hpeer : st.peerOf conn = some (token, peer) := by
    rw [RelayState.peerOf, Option.mem_def.mp ht]
    rfl
  have hasks : asks st conn (.frame conn frame)
      = (handleFrame st.app token peer frame).map Send.out := by
    simp only [asks, if_true, hpeer, Option.map_some, Option.getD_some]
  refine ⟨token, peer, hpeer, h.inv.conn conn _ ht token peer rfl, fun hk hreq id hid => ?_,
    fun hk hback => ?_⟩
  · rw [hasks, handleFrame, hk]
    exact handleBridgeFrame_routes hreq hid
  · rw [hasks, handleFrame, hk]
    exact handleAgentFrame_forwards hback

/-- **In every run** the peers of each kind and token are those that joined and whose connection
    has not been cleaned up, in the order they joined; each of them presented the token, and the
    required one where one is set; every frame is served; and where sends succeed, what a task is
    asked to send it sends, once and in this order, as far as it has got. -/
theorem relay_delivers {hist : List (RelayState × RelayEvent)} {st : RelayState}
    (h : RelayRun hist st) :
    (∀ kind token, row (st.app.peers kind) token
      = (joined kind token hist).filter fun p => st.IsOpen p.conn) ∧
    (∀ kind token, ∀ p ∈ joined kind token hist, p.hello.kind = kind ∧
      p.hello.token = some token ∧ ∀ required ∈ st.app.requiredToken, token = required) ∧
    (∀ s conn frame, (s, RelayEvent.frame conn frame) ∈ hist → FrameServed s conn frame) ∧
    (SendsSucceed hist → ∀ conn, ∃ (waiting : List Send) (rest : List Job),
      st.jobsOf conn = waiting.map Job.send ++ rest ∧
      asked conn hist = sent conn hist ++ waiting.map Send.out) := by
  refine ⟨fun kind => (h.peers kind).peers, fun kind token p hp => ?_, fun s conn frame hm => ?_,
    fun hok conn => ?_⟩
  · have htokens : TokensInv kind hist st := h.tokens kind
    exact ⟨((h.peers kind).task token p hp).1, htokens.presented token p hp,
      htokens.required token (List.ne_nil_of_mem hp)⟩
  · obtain ⟨later, earlier, rfl⟩ := List.append_of_mem hm
    obtain ⟨hrun, s', hs, -⟩ := h.split
    exact frame_served hrun hs.1
  · obtain ⟨waiting, rest, hjobs, -, hasked⟩ := (h.delivery hok conn).order
    exact ⟨waiting, rest, hjobs, hasked⟩

/-- A bridge of the required token asks before any agent is there, an agent connects, and the
    bridge asks again. Newest first. -/
def pairing : List RelayEvent :=
  [.job 2 none,
    .frame 2 ⟨(BridgeRequest.stat "/f").frame 2, none, none⟩,
    .job 1 none, .job 1 none, .job 1 none,
    .hello 1 (some ⟨.agent, "box", "box", some "t"⟩) ⟨0, 0, 7⟩, .accept 1,
    .job 2 none,
    .frame 2 ⟨(BridgeRequest.stat "/f").frame 1, none, none⟩,
    .job 2 none, .job 2 none,
    .hello 2 (some ⟨.bridge, "laptop", "laptop", some "t"⟩) ⟨0, 0, 8⟩, .accept 2]

theorem relay_delivers_pairing :
    (asked 2 (replay RelayState.next ⟨.new (some "t"), ∅⟩ pairing).1).map (·.1) = [2, 2, 1] ∧
      (replay RelayState.next ⟨.new (some "t"), ∅⟩ pairing).2.jobsOf 2 = [] ∧
      (sent 2 (replay RelayState.next ⟨.new (some "t"), ∅⟩ pairing).1).map (·.1) = [2, 2, 1] := by
  have hasked : (asked 2 (replay RelayState.next ⟨.new (some "t"), ∅⟩ pairing).1).map (·.1)
      = [2, 2, 1] := by decide
  have hjobs : (replay RelayState.next ⟨.new (some "t"), ∅⟩ pairing).2.jobsOf 2 = [] := by rfl
  refine ⟨hasked, hjobs, ?_⟩
  have hrun : RelayRun _ (replay RelayState.next ⟨.new (some "t"), ∅⟩ pairing).2 :=
    Run.of_replay ⟨some "t", rfl⟩ (by decide)
  have hsucceed : SendsSucceed (replay RelayState.next ⟨.new (some "t"), ∅⟩ pairing).1 := by
    intro x hx c err he
    have hall : ((replay RelayState.next ⟨.new (some "t"), ∅⟩ pairing).1.map Prod.snd) = pairing :=
      rfl
    have hmem : RelayEvent.job c (some err) ∈ pairing := by
      rw [← hall, ← he]
      exact List.mem_map_of_mem hx
    simp [pairing] at hmem
  obtain ⟨waiting, rest, heq, hsent⟩ := (relay_delivers hrun).2.2.2 hsucceed 2
  rw [hjobs, eq_comm, List.append_eq_nil_iff, List.map_eq_nil_iff] at heq
  rw [heq.1, List.map_nil, List.append_nil] at hsent
  rw [← hsent]
  exact hasked

end Relayfs

/-
  File:      Relayfs/Relay/Addresses.lean
  Subject:   THE ADDRESSES OF THE AGENTS: a bridge names an agent by its id or by its session.

  `register_agent` compares the id of a newcomer with the ids of the registered agents, and a
  suffixed id with them again; the id with a random suffix it takes unseen, and the sessions it
  compares with nothing.

  * `Unambiguous` -- no agent has the id of another, or its session as its id;
  * `Addressable` -- a request for the id of an agent is forwarded to this agent;
  * `ClearStep` -- what a registration has to meet, in terms of the hello, the clock and the random
    numbers;
  * `addresses_clear_iff` -- a run keeps all addresses clear exactly when its registrations do;
  * `session_as_id` -- an agent that takes the session of another as its id gets nothing.
-/
import Relayfs.Relay.Routing
import Relayfs.Relay.Run

namespace Relayfs

open Lib

/-! ## 1. Addresses -/

/-- The registered agents of all tokens. -/
def AppState.allAgents (st : AppState) : List RelayPeer := st.agents.entries.flatMap fun e => e.2

theorem AppState.mem_allAgents {st : AppState} {p : RelayPeer} :
    p ∈ st.allAgents ↔ ∃ token, p ∈ row st.agents token := mem_rows

/-- **No two agents have an address in common** by which one of them is found: their ids differ,
    and the id of the one is not the session of the other. -/
def Unambiguous (st : AppState) : Prop :=
  ∀ p ∈ st.allAgents, ∀ q ∈ st.allAgents, p.conn ≠ q.conn →
    p.hello.id ≠ q.hello.id ∧ p.hello.id ≠ q.session

instance Unambiguous.decidable (st : AppState) : Decidable (Unambiguous st) :=
  inferInstanceAs (Decidable (∀ p ∈ st.allAgents, ∀ q ∈ st.allAgents, _))

/-- **A request for an agent's id is forwarded to this agent**, and sent nowhere else. -/
def Addressable (st : AppState) : Prop :=
  ∀ token, ∀ p ∈ row st.agents token, ∀ peer frame, IsRequest frame.value →
    targetHint frame.value = some p.hello.id →
      handleBridgeFrame st token peer frame = forwarded peer p frame

/-- With unambiguous addresses the first agent a target names is the one that has it as id. -/
theorem Unambiguous.route {st : AppState} (h : Unambiguous st) {token : String} {p : RelayPeer}
    (hp : p ∈ row st.agents token) {value : Json} (hv : targetHint value = some p.hello.id) :
    ∃ q, st.route token value = some q ∧ q.conn = p.conn := by
  have hfind : st.route token value
      = (row st.agents token).find? fun q : RelayPeer => q.Named p.hello.id := by
    rw [AppState.route, hv]
    rfl
  cases hq : st.route token value with
  | none =>
    rw [hfind, List.find?_eq_none] at hq
    exact absurd (decide_eq_true (show p.Named p.hello.id from .inl rfl)) (hq p hp)
  | some q =>
    refine ⟨q, rfl, Classical.byContradiction fun hne => ?_⟩
    rw [hfind] at hq
    have hnamed : q.Named p.hello.id := by simpa using List.find?_some hq
    have hmem : ∀ a ∈ row st.agents token, a ∈ st.allAgents :=
      fun a ha => AppState.mem_allAgents.mpr ⟨token, ha⟩
    obtain ⟨hid, hsession⟩ :=
      h p (hmem p hp) q (hmem q (List.mem_of_find?_eq_some hq)) fun e => hne e.symm
    rcases hnamed with hn | hn
    · exact hid hn.symm
    · exact hsession hn.symm

theorem Unambiguous.addressable {st : AppState} (h : Unambiguous st) : Addressable st := by
  intro token p hp peer frame hreq hv
  obtain ⟨q, hroute, hconn⟩ := h.route hp hv
  rw [handleBridgeFrame_request hreq, hroute]
  exact forwarded_inj.mpr hconn

/-! ## 2. Registrations -/

/-- A registered agent has the id. -/
def AppState.HasId (st : AppState) (id : String) : Prop := ∃ p ∈ st.allAgents, p.hello.id = id

instance AppState.decHasId (st : AppState) (id : String) : Decidable (st.HasId id) :=
  inferInstanceAs (Decidable (∃ p ∈ st.allAgents, _))

/-- No registered agent is found under the id, or has the id that is to be a session. -/
def AppState.Clear (st : AppState) (id session : String) : Prop :=
  ∀ p ∈ st.allAgents, p.hello.id ≠ id ∧ p.session ≠ id ∧ p.hello.id ≠ session

instance AppState.decClear (st : AppState) (id session : String) :
    Decidable (st.Clear id session) :=
  inferInstanceAs (Decidable (∀ p ∈ st.allAgents, _))

/-- **The registration of an agent is clear**: its own id, where no agent has it, and else the
    first of its two suffixed ids that no agent has, or the second; each together with the session
    made from it. -/
structure ClearHello (st : AppState) (hello : Hello) (d : Draws) : Prop where
  own : ¬ st.HasId hello.id → st.Clear hello.id (hello.id ++ "-" ++ toString d.rnd32)
  suffixed : st.HasId hello.id → ¬ st.HasId (hello.id ++ "-" ++ toString d.clock) →
    st.Clear (hello.id ++ "-" ++ toString d.clock)
      (hello.id ++ "-" ++ toString d.clock ++ "-" ++ toString d.rnd32)
  random : st.HasId hello.id → st.HasId (hello.id ++ "-" ++ toString d.clock) →
    st.Clear (hello.id ++ "-" ++ toString d.clock ++ "-" ++ hex4 d.rnd16)
      (hello.id ++ "-" ++ toString d.clock ++ "-" ++ hex4 d.rnd16 ++ "-" ++ toString d.rnd32)

/-- The hello is that of an agent, and the relay accepts it. -/
def AppState.AcceptsAgent (st : AppState) (hello : Hello) : Prop :=
  hello.kind = .agent ∧ (st.validToken hello).isSome

instance AppState.decAcceptsAgent (st : AppState) (hello : Hello) :
    Decidable (st.AcceptsAgent hello) := inferInstanceAs (Decidable (_ ∧ _))

/-- A step registers no agent, or it does so clearly. -/
def ClearStep (st : RelayState) : RelayEvent → Prop
  | .hello _ (some hello) d => st.app.AcceptsAgent hello → ClearHello st.app hello d
  | _ => True

/-- The test of `register_agent`. -/
theorem AppState.any_id_eq_true {st : AppState} {id : String} :
    (st.agents.entries.any fun e => e.2.any fun p => p.hello.id = id) = true ↔ st.HasId id := by
  simp only [List.any_eq_true, decide_eq_true_eq, HasId, allAgents, List.mem_flatMap]
  constructor
  · intro h
    obtain ⟨e, he, p, hp, hid⟩ := h
    exact ⟨p, ⟨e, he, hp⟩, hid⟩
  · intro h
    obtain ⟨p, ⟨e, he, hp⟩, hid⟩ := h
    exact ⟨e, he, p, hp, hid⟩

theorem assignedId_eq (st : AppState) (hello : Hello) (d : Draws) : assignedId st hello d
    = if st.HasId hello.id then
        if st.HasId (hello.id ++ "-" ++ toString d.clock) then
          hello.id ++ "-" ++ toString d.clock ++ "-" ++ hex4 d.rnd16
        else hello.id ++ "-" ++ toString d.clock
      else hello.id := by
  unfold assignedId
  simp only [AppState.any_id_eq_true]

theorem clearHello_iff {st : AppState} {hello : Hello} {d : Draws} :
    ClearHello st hello d ↔
      st.Clear (assignedId st hello d) (assignedId st hello d ++ "-" ++ toString d.rnd32) := by
  rw [assignedId_eq]
  by_cases hown : st.HasId hello.id
  · rw [if_pos hown]
    by_cases hsuffix : st.HasId (hello.id ++ "-" ++ toString d.clock)
    · rw [if_pos hsuffix]
      exact ⟨fun h => h.random hown hsuffix, fun h =>
        ⟨fun hn => absurd hown hn, fun _ hn => absurd hsuffix hn, fun _ _ => h⟩⟩
    · rw [if_neg hsuffix]
      exact ⟨fun h => h.suffixed hown hsuffix, fun h =>
        ⟨fun hn => absurd hown hn, fun _ _ => h, fun _ hn => absurd hn hsuffix⟩⟩
  · rw [if_neg hown]
    exact ⟨fun h => h.own hown, fun h =>
      ⟨fun _ => h, fun hn => absurd hn hown, fun hn => absurd hn hown⟩⟩

instance ClearHello.decidable (st : AppState) (hello : Hello) (d : Draws) :
    Decidable (ClearHello st hello d) := decidable_of_iff _ clearHello_iff.symm

instance ClearStep.decidable (st : RelayState) : ∀ e, Decidable (ClearStep st e)
  | .hello _ (some hello) d =>
      inferInstanceAs (Decidable (st.app.AcceptsAgent hello → ClearHello st.app hello d))
  | .hello _ none _ | .accept _ | .frame _ _ | .job _ _ | .close _ => isTrue trivial

/-- The agents after a registration. -/
theorem mem_allAgents_registerAgent {st : AppState} {token : String} {hello : Hello}
    {conn : Nat} {d : Draws} {p : RelayPeer} :
    p ∈ (registerAgent st token hello conn d).allAgents ↔
      p ∈ st.allAgents ∨ p = agentPeer st hello conn d := by
  simp only [AppState.mem_allAgents]
  constructor
  · intro h
    obtain ⟨tok, hp⟩ := h
    by_cases htok : tok = token
    · subst htok
      rw [row_registerAgent_self, List.mem_append, List.mem_singleton] at hp
      exact hp.imp_left fun hp => ⟨tok, hp⟩
    · rw [row_registerAgent_ne st token hello conn d htok] at hp
      exact .inl ⟨tok, hp⟩
  · intro h
    obtain ⟨tok, hp⟩ | rfl := h
    · refine ⟨tok, ?_⟩
      by_cases htok : tok = token
      · subst htok
        rw [row_registerAgent_self]
        exact List.mem_append_left _ hp
      · rwa [row_registerAgent_ne st token hello conn d htok]
    · exact ⟨token, by rw [row_registerAgent_self]; exact List.mem_append_right _ (.head _)⟩

/-- **A registration keeps the addresses unambiguous exactly when it is clear.** -/
theorem Unambiguous.registerAgent_iff {st : AppState} (h : Unambiguous st) {hello : Hello}
    {conn : Nat} (hfree : ∀ p ∈ st.allAgents, p.conn ≠ conn) (token : String) (d : Draws) :
    Unambiguous (registerAgent st token hello conn d) ↔ ClearHello st hello d := by
  rw [clearHello_iff]
  have hnew : agentPeer st hello conn d ∈ (registerAgent st token hello conn d).allAgents :=
    mem_allAgents_registerAgent.mpr (.inr rfl)
  constructor
  · intro hu p hp
    have hp' : p ∈ (registerAgent st token hello conn d).allAgents :=
      mem_allAgents_registerAgent.mpr (.inl hp)
    obtain ⟨hid, hsession⟩ := hu _ hnew p hp' fun e => hfree p hp e.symm
    have hown := (hu p hp' _ hnew (hfree p hp)).2
    exact ⟨fun e => hid e.symm, fun e => hsession e.symm, hown⟩
  · intro hc p hp q hq hne
    rcases mem_allAgents_registerAgent.mp hp with hp | rfl
    · rcases mem_allAgents_registerAgent.mp hq with hq | rfl
      · exact h p hp q hq hne
      · exact ⟨(hc p hp).1, (hc p hp).2.2⟩
    · rcases mem_allAgents_registerAgent.mp hq with hq | rfl
      · exact ⟨fun e => (hc q hq).1 e.symm, fun e => (hc q hq).2.1 e.symm⟩
      · exact absurd rfl hne

/-! ## 3. Runs -/

/-- A registered agent has a task that says so. -/
theorem RelayRun.agent_task {hist : List (RelayState × RelayEvent)} {st : RelayState}
    (h : RelayRun hist st) {p : RelayPeer} (hp : p ∈ st.app.allAgents) :
    ∃ t ∈ st.tasks.lookup p.conn, t.registered.isSome := by
  obtain ⟨token, hp⟩ := AppState.mem_allAgents.mp hp
  rw [h.inv.agents] at hp
  obtain ⟨_, t, ht, hr⟩ := h.inv.task token p (List.mem_of_mem_filter hp)
  exact ⟨t, ht, by rw [hr]; rfl⟩

/-- What a step does to the registered agents: an accepted hello of an agent adds it, no other
    step adds any. -/
theorem agents_of_step {st st' : RelayState} {e : RelayEvent} (hs : RelayStep st e st') :
    (∃ conn hello d token, e = .hello conn (some hello) d ∧ st.app.AcceptsAgent hello ∧
      st'.app = registerAgent st.app token hello conn d) ∨
    (∀ p ∈ st'.app.allAgents, p ∈ st.app.allAgents) ∧
      ∀ conn hello d, e = .hello conn (some hello) d → ¬ st.app.AcceptsAgent hello := by
  obtain ⟨app, t', htask, rfl⟩ := taskStep_of_step hs
  cases htask with
  | accept => exact .inr ⟨fun p hp => hp, fun c h' d' he => by cases he⟩
  | rejected _ _ hv =>
    refine .inr ⟨fun p hp => hp, fun c h' d' he hacc => ?_⟩
    cases he
    rw [AppState.AcceptsAgent, hv h' rfl] at hacc
    cases hacc.2
  | @joined conn h' d t token _ _ hv =>
    cases hk : h'.kind with
    | agent =>
      refine .inl ⟨conn, h', d, token, rfl, ⟨hk, by rw [hv]; rfl⟩, ?_⟩
      unfold register
      rw [hk]
    | bridge =>
      refine .inr ⟨?_, fun c h'' d' he hacc => ?_⟩
      · unfold register
        rw [hk]
        exact fun p hp => hp
      · cases he
        rw [AppState.AcceptsAgent, hk] at hacc
        cases hacc.1
  | frame => exact .inr ⟨fun p hp => hp, fun c h' d' he => by cases he⟩
  | job => exact .inr ⟨fun p hp => hp, fun c h' d' he => by cases he⟩
  | close =>
    -- a cleanup only takes agents out
    refine .inr ⟨fun p hp => ?_, fun c h' d' he => by cases he⟩
    obtain ⟨tok, hp⟩ := AppState.mem_allAgents.mp hp
    have hrow : p ∈ row ((unregister _ _ _).1.peers .agent) tok := hp
    exact AppState.mem_allAgents.mpr ⟨tok, mem_row_unregister hrow⟩

/-- **One step**: from unambiguous addresses to unambiguous addresses exactly when it is
    clear. -/
theorem RelayRun.unambiguous_step {hist : List (RelayState × RelayEvent)} {st st' : RelayState}
    {e : RelayEvent} (h : RelayRun hist st) (hu : Unambiguous st.app)
    (hs : RelayStep st e st') : Unambiguous st'.app ↔ ClearStep st e := by
  rcases agents_of_step hs with ⟨conn, hello, d, token, rfl, hacc, happ⟩ | ⟨hsub, hno⟩
  · have hfree : ∀ p ∈ st.app.allAgents, p.conn ≠ conn := by
      intro p hp hc
      obtain ⟨t, ht, hr⟩ := h.agent_task hp
      obtain ⟨u, hu, hnone, _⟩ := hs.1
      rw [hc] at ht
      cases Option.mem_unique ht hu
      rw [hnone] at hr
      cases hr
    rw [happ, hu.registerAgent_iff hfree token d]
    exact ⟨fun hc _ => hc, fun hc => hc hacc⟩
  · have hkeep : Unambiguous st'.app :=
      fun p hp q hq hne => hu p (hsub p hp) q (hsub q hq) hne
    refine ⟨fun _ => ?_, fun _ => hkeep⟩
    cases e with
    | hello conn hello d =>
      cases hello with
      | none => trivial
      | some hello => exact fun hacc => absurd hacc (hno conn hello d rfl)
    | _ => trivial

/-- **When addresses are clear.** In a run of the relay all addresses are unambiguous at all
    times, and every request for the id of an agent is forwarded to it, exactly when every
    registration was clear at its time. -/
theorem addresses_clear_iff {hist : List (RelayState × RelayEvent)} {st : RelayState}
    (h : RelayRun hist st) :
    (∀ s ∈ visited hist st, Unambiguous s.app ∧ Addressable s.app) ↔
      ∀ x ∈ hist, ClearStep x.1 x.2 := by
  have hiff : (∀ s ∈ visited hist st, Unambiguous s.app) ↔ ∀ x ∈ hist, ClearStep x.1 x.2 := by
    have hreach0 : ∀ s, RelayInit s → ∃ earlier, RelayRun earlier s := fun s h0 => ⟨[], .start h0⟩
    have hreach : ∀ s e s', (∃ earlier, RelayRun earlier s) → RelayStep s e s' →
        ∃ earlier, RelayRun earlier s' :=
      fun s e s' ⟨earlier, hr⟩ hs => ⟨(s, e) :: earlier, .step hr hs⟩
    refine Run.all_states_iff hreach0 hreach ?_ ?_ h
    · intro s h' p hp
      obtain ⟨required, rfl⟩ := h'
      exact absurd hp List.not_mem_nil
    · exact fun s e s' ⟨earlier, hr⟩ hu hs => hr.unambiguous_step hu hs
  rw [← hiff]
  exact ⟨fun hall s hs => (hall s hs).1, fun hall s hs => ⟨hall s hs, (hall s hs).addressable⟩⟩

/-! ## 4. Two registrations -/

/-- An agent `box` and another one whose hello names the id `id`, newest first. -/
def secondAgent (id : String) : List RelayEvent :=
  [.hello 2 (some ⟨.agent, id, "second", some "t"⟩) ⟨1700000000, 5, 8⟩, .accept 2,
    .hello 1 (some ⟨.agent, "box", "first", some "t"⟩) ⟨1700000000, 5, 7⟩, .accept 1]

/-- The history of `secondAgent`. -/
def secondAgentHist (id : String) : List (RelayState × RelayEvent) :=
  (replay RelayState.next ⟨.new none, ∅⟩ (secondAgent id)).1

/-- The relay after `secondAgent`. -/
def secondAgentEnd (id : String) : RelayState :=
  (replay RelayState.next ⟨.new none, ∅⟩ (secondAgent id)).2

/-- **Two agents with one id** are told apart by the suffix. -/
theorem addresses_clear_suffixed :
    Unambiguous (secondAgentEnd "box").app ∧ Addressable (secondAgentEnd "box").app := by
  have hrun : RelayRun (secondAgentHist "box") (secondAgentEnd "box") :=
    Run.of_replay ⟨none, rfl⟩ (by decide)
  have hclear : ∀ x ∈ secondAgentHist "box", ClearStep x.1 x.2 := by decide
  exact (addresses_clear_iff hrun).mpr hclear _ List.mem_cons_self

/-- A command for the agent with the id `box-7`. -/
def forSecond : BridgeRequest := .runCommand "ls" none none none none (some "box-7")

/-- **An agent that names the session of another as its id** gets it, and no request for it: the
    other agent is found first. -/
theorem session_as_id :
    RelayRun (secondAgentHist "box-7") (secondAgentEnd "box-7") ∧
      ¬ Unambiguous (secondAgentEnd "box-7").app ∧
      ¬ Addressable (secondAgentEnd "box-7").app := by
  refine ⟨Run.of_replay ⟨none, rfl⟩ (by decide), by decide, fun h => ?_⟩
  have hmem : ∃ p ∈ row (secondAgentEnd "box-7").app.agents "t",
      p.hello.id = "box-7" ∧ p.conn = 2 := by decide
  obtain ⟨p, hp, hid, hconn⟩ := hmem
  have hfirst : ((secondAgentEnd "box-7").app.route "t" (forSecond.frame 1)).map (·.conn)
      = some 1 := by decide
  obtain ⟨q, hroute, hq⟩ := Option.map_eq_some_iff.mp hfirst
  have hreq : IsRequest (forSecond.frame 1) := BridgeRequest.isRequest (by simp [forSecond]) 1
  have htarget : targetHint (forSecond.frame 1) = some p.hello.id := by
    rw [hid]
    decide
  have hsent := h "t" p hp oneBridge ⟨forSecond.frame 1, none, none⟩ hreq htarget
  rw [handleBridgeFrame_request hreq, hroute] at hsent
  have hsame : q.conn = p.conn := forwarded_inj.mp hsent
  rw [hq, hconn] at hsame
  cases hsame

end Relayfs

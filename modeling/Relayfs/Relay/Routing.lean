/-
  File:      Relayfs/Relay/Routing.lean
  Subject:   WHERE THE RELAY SENDS A BRIDGE'S REQUEST.

  * `handleBridgeFrame_request` -- a request that is not `list_targets` is forwarded to the agent
    `route` picks, or answered with AGENT_OFFLINE;
  * `route_request` -- what `route` makes of the requests of the bridge: the `target` of the
    params is read as an agent's name;
  * `Untargeted`, `route_untargeted` -- a request without hints goes to the agent of the token
    that registered last;
  * `unaddressed_served_iff` -- an unaddressed request is forwarded to that agent exactly when
    it is not a symlink whose target names another agent or none;
  * `symlink_answered_offline` -- a symlink to `notes.txt` with an agent connected.
-/
import Relayfs.Relay.Relay

namespace Relayfs

open Lib

/-! ## 1. Requests -/

/-- The forward of a request to an agent; a failed send is answered with INTERNAL_ERROR. -/
def forwarded (peer agent : RelayPeer) (frame : Frame) : List Send :=
  [⟨agent.conn, frame, some fun e => respond peer frame none (some (forwardFailed e))⟩]

/-- The answer to a request for which there is no agent. -/
def answeredOffline (peer : RelayPeer) (frame : Frame) : List Send :=
  [⟨peer.conn, (respond peer frame none (some agentOffline)).2, none⟩]

/-- What the relay does with a request once it has looked for its agent. -/
def sendTo (peer : RelayPeer) (frame : Frame) : Option RelayPeer → List Send
  | some agent => forwarded peer agent frame
  | none => answeredOffline peer frame

/-- A frame the relay forwards as a request: it has a `method`, an `id`, and is not
    `list_targets`. -/
structure IsRequest (value : Json) : Prop where
  id : (value.get "id").isSome
  method : (value.get "method").isSome
  forwarded : (value.get "method").bind Json.asStr ≠ some Method.listTargets

/-- **A request is forwarded to the agent `route` picks**, or answered with AGENT_OFFLINE. -/
theorem handleBridgeFrame_request {st : AppState} {token : String} {peer : RelayPeer}
    {frame : Frame} (h : IsRequest frame.value) :
    handleBridgeFrame st token peer frame
      = sendTo peer frame (st.route token frame.value) := by
  obtain ⟨hid, hmethod, hlist⟩ := h
  have hr : isResponse frame.value = false := by
    rw [isResponse, Option.isNone_eq_false_iff.mpr hmethod, Bool.and_false]
  have hn : isNotification frame.value = false := by
    rw [isNotification, Option.isNone_eq_false_iff.mpr hid, Bool.and_false]
  unfold handleBridgeFrame
  rw [hr, hn, if_neg Bool.false_ne_true, if_neg Bool.false_ne_true, if_neg hlist]
  cases st.route token frame.value <;> rfl

theorem BridgeRequest.isRequest {r : BridgeRequest} (h : r ≠ .listTargets) (id : Nat) :
    IsRequest (r.frame id) where
  id := by simp [BridgeRequest.frame]
  method := by simp [BridgeRequest.frame]
  forwarded := by
    simp only [BridgeRequest.frame, requestValue_method, Option.bind_some, Json.asStr_str, ne_eq,
      Option.some.injEq]
    exact fun e => h (BridgeRequest.method_eq_listTargets.mp e)

/-! ## 2. Routes -/

/-- A frame without a routing hint. -/
def Untargeted (value : Json) : Prop := targetHint value = none ∧ sessionHint value = none

/-- **Without a hint the agent that registered last is picked.** -/
theorem route_untargeted {st : AppState} {token : String} {value : Json} (h : Untargeted value) :
    st.route token value = (row st.agents token).getLast? := by
  rw [AppState.route, h.1, h.2]
  rfl

/-- The hint a request of the bridge carries is the `target` of its params. -/
theorem targetHint_frame (r : BridgeRequest) (id : Nat) :
    targetHint (r.frame id) = (r.params.get "target").bind Json.asStr := by
  simp [targetHint, BridgeRequest.frame]

theorem sessionHint_frame (r : BridgeRequest) (id : Nat) : sessionHint (r.frame id) = none := by
  simp [sessionHint, BridgeRequest.frame, r.params_session]

/-- An unaddressed request that is not a symlink carries no hint. -/
theorem untargeted_frame {r : BridgeRequest} (h : r.Unaddressed)
    (hs : ∀ link target, r ≠ .symlink link target) (id : Nat) : Untargeted (r.frame id) := by
  refine ⟨?_, sessionHint_frame r id⟩
  rw [targetHint_frame, r.params_target]
  cases r with
  | symlink link target => exact absurd rfl (hs link target)
  | runCommand command cwd timeoutSecs input wait target =>
    have ht : target = none := h
    simp [ht]
  | _ => rfl

/-- A symlink's target is taken for the name of an agent. -/
theorem route_symlink (st : AppState) (token link target : String) (id : Nat) :
    st.route token ((BridgeRequest.symlink link target).frame id)
      = (row st.agents token).find? (·.Named target) := by
  rw [AppState.route, targetHint_frame, BridgeRequest.params_target]
  rfl

/-! ## 3. Unaddressed requests -/

theorem route_empty_params (st : AppState) (token method : String) (id : Nat) :
    st.route token (requestValue id method (.obj [])) = (row st.agents token).getLast? :=
  route_untargeted ⟨by simp [targetHint], by simp [sessionHint]⟩

/-- The relay treats a request as one without hints: it is forwarded, and not answered with
    AGENT_OFFLINE, and the agent is the one of the token that the same request without params
    goes to. -/
def ServedByDefault (st : AppState) (token : String) (peer : RelayPeer) (r : BridgeRequest)
    (id : Nat) (asks : Option CallRef) : Prop :=
  ∃ agent ∈ row st.agents token,
    st.route token (requestValue id r.method (.obj [])) = some agent ∧
    handleBridgeFrame st token peer ⟨r.frame id, asks, none⟩
      = forwarded peer agent ⟨r.frame id, asks, none⟩

theorem forwarded_inj {peer a b : RelayPeer} {frame : Frame} :
    forwarded peer a frame = forwarded peer b frame ↔ a.conn = b.conn := by
  simp [forwarded]

theorem forwarded_ne_answeredOffline (peer agent : RelayPeer) (frame : Frame) :
    answeredOffline peer frame ≠ forwarded peer agent frame := by
  simp [forwarded, answeredOffline]

/-- With an agent registered, a request is served by default exactly when its route is the
    default one. -/
theorem servedByDefault_iff {st : AppState} {token : String} {peer : RelayPeer}
    {r : BridgeRequest} {id : Nat} {asks : Option CallRef} (hr : r ≠ .listTargets)
    (hne : row st.agents token ≠ []) :
    ServedByDefault st token peer r id asks ↔
      (st.route token (r.frame id)).map (·.conn)
        = (row st.agents token).getLast?.map (·.conn) := by
  obtain ⟨agent, hlast⟩ := Option.ne_none_iff_exists'.mp
    (fun hn => hne (List.getLast?_eq_none_iff.mp hn))
  have hserved : ServedByDefault st token peer r id asks ↔
      handleBridgeFrame st token peer ⟨r.frame id, asks, none⟩
        = forwarded peer agent ⟨r.frame id, asks, none⟩ := by
    simp only [ServedByDefault, route_empty_params, hlast, Option.some.injEq]
    constructor
    · intro h
      obtain ⟨a, _, rfl, hs⟩ := h
      exact hs
    · intro hs
      exact ⟨agent, List.mem_of_getLast? hlast, rfl, hs⟩
  rw [hserved, hlast, handleBridgeFrame_request (r.isRequest hr id)]
  cases hroute : st.route token (r.frame id) with
  | none => simpa [sendTo] using forwarded_ne_answeredOffline peer agent _
  | some a => simpa [sendTo] using forwarded_inj

/-- **When params act as a hint.** With an agent registered under the token, an unaddressed
    request of the bridge is served by default exactly when it is not a symlink, or the first
    agent that its target names is the agent that registered last. -/
theorem unaddressed_served_iff {st : AppState} {token : String} {peer : RelayPeer}
    {r : BridgeRequest} {id : Nat} {asks : Option CallRef} (hr : r.Unaddressed)
    (hne : row st.agents token ≠ []) :
    ServedByDefault st token peer r id asks ↔
      ∀ link target, r = .symlink link target →
        ((row st.agents token).find? (·.Named target)).map (·.conn)
          = (row st.agents token).getLast?.map (·.conn) := by
  have hlist : r ≠ .listTargets := fun e => by
    subst e
    exact hr
  rw [servedByDefault_iff hlist hne]
  by_cases hs : ∃ link target, r = .symlink link target
  · obtain ⟨link, target, rfl⟩ := hs
    rw [route_symlink]
    constructor
    · intro h _ _ e
      cases e
      exact h
    · exact fun h => h link target rfl
  · have hs' : ∀ link target, r ≠ .symlink link target := fun l t e => hs ⟨l, t, e⟩
    rw [route_untargeted (untargeted_frame hr hs' id)]
    simp [hs']

/-- A relay with one agent, `box`, under the token `t`. -/
def oneAgent : AppState :=
  registerAgent (.new none) "t" ⟨.agent, "box", "box", some "t"⟩ 1 ⟨0, 0, 7⟩

/-- A bridge of the same token. -/
def oneBridge : RelayPeer := bridgePeer ⟨.bridge, "laptop", "laptop", some "t"⟩ 2 ⟨0, 0, 8⟩

theorem stat_served : ServedByDefault oneAgent "t" oneBridge (.stat "/srv") 1 none :=
  (unaddressed_served_iff (show (BridgeRequest.stat "/srv").Unaddressed from trivial)
    (by decide)).mpr fun _ _ e => by cases e

/-- **A symlink to `notes.txt` is answered with AGENT_OFFLINE**, though an agent is registered. -/
theorem symlink_answered_offline :
    (BridgeRequest.symlink "/srv/link" "notes.txt").Unaddressed ∧
    row oneAgent.agents "t" ≠ [] ∧
    handleBridgeFrame oneAgent "t" oneBridge
        ⟨(BridgeRequest.symlink "/srv/link" "notes.txt").frame 1, none, none⟩
      = answeredOffline oneBridge
        ⟨(BridgeRequest.symlink "/srv/link" "notes.txt").frame 1, none, none⟩ := by
  refine ⟨trivial, by decide, ?_⟩
  have hroute : oneAgent.route "t" ((BridgeRequest.symlink "/srv/link" "notes.txt").frame 1)
      = none := by decide
  rw [handleBridgeFrame_request (BridgeRequest.isRequest (by simp) 1)]
  exact congrArg (sendTo oneBridge _) hroute

end Relayfs

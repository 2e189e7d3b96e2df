/-
  File:      Relayfs/Relay/Relay.lean
  Subject:   THE RELAY (relay/src/lib.rs): the registry of peers and what a connection's task does
             with each frame.

  * `AppState` -- agents and bridges under their token, in the order they registered;
  * `registerAgent`, `registerBridge`, `cleanup` -- a peer enters and leaves the registry;
  * `pickAgent` -- the agent a request goes to;
  * `handleAgentFrame`, `handleBridgeFrame` -- the body of the read loop: the sends it makes.

  A send that fails may be answered by another send (`Send.orElse`); the tasks that perform the
  sends are in Run.lean.
-/
import Relayfs.Lib.Table
import Relayfs.Wire.Requests

namespace Relayfs

open Lib

/-! ## 1. The registry -/

/-- `PeerKind`. -/
inductive PeerKind where
  | bridge
  | agent
  deriving DecidableEq, Repr

/-- `Hello`, the first frame of a peer. -/
structure Hello where
  kind : PeerKind
  id : String
  name : String
  token : Option String
  deriving DecidableEq, Repr

/-- `RelayPeer`. `conn` is the connection whose sink the peer holds; it also stands for the
    identity of the `Arc`. -/
structure RelayPeer where
  conn : Nat
  hello : Hello
  session : String
  deriving DecidableEq, Repr

/-- `AppState`. -/
structure AppState where
  agents : Table String (List RelayPeer)
  bridges : Table String (List RelayPeer)
  requiredToken : Option String

/-- `AppState::new`. -/
def AppState.new (requiredToken : Option String) : AppState := ⟨∅, ∅, requiredToken⟩

/-- The token validation of `handle_connection`: the token the peer is registered under. -/
def AppState.validToken (st : AppState) (hello : Hello) : Option String :=
  match hello.token with
  | none => none
  | some t =>
      if t = "" then none
      else match st.requiredToken with
        | none => some t
        | some required => if t = required then some t else none

/-- What a registration draws from outside: the clock in seconds and the random numbers. -/
structure Draws where
  clock : Nat
  rnd16 : Nat
  rnd32 : Nat
  deriving DecidableEq, Repr

/-- `{:04x}`. -/
def hex4 (n : Nat) : String :=
  let digits := String.ofList (Nat.toDigits 16 n)
  "".pushn '0' (4 - digits.length) ++ digits

/-- The id an agent is registered with: its own, or a suffixed one where a registered agent of
    any token has it already. -/
def assignedId (st : AppState) (hello : Hello) (d : Draws) : String :=
  let taken (id : String) : Bool := st.agents.entries.any fun e => e.2.any fun p => p.hello.id = id
  if taken hello.id then
    let suffixed := hello.id ++ "-" ++ toString d.clock
    if taken suffixed then hello.id ++ "-" ++ toString d.clock ++ "-" ++ hex4 d.rnd16
    else suffixed
  else hello.id

/-- The peer `register_agent` makes. -/
def agentPeer (st : AppState) (hello : Hello) (conn : Nat) (d : Draws) : RelayPeer :=
  let id := assignedId st hello d
  ⟨conn, { hello with id := id }, id ++ "-" ++ toString d.rnd32⟩

/-- `register_agent`, under the lock: the new agent goes last. -/
def registerAgent (st : AppState) (token : String) (hello : Hello) (conn : Nat) (d : Draws) :
    AppState :=
  { st with
    agents := st.agents.insert token (row st.agents token ++ [agentPeer st hello conn d]) }

/-- The peer `handle_connection` makes for a bridge. -/
def bridgePeer (hello : Hello) (conn : Nat) (d : Draws) : RelayPeer :=
  ⟨conn, hello, hello.id ++ "-" ++ toString d.rnd32⟩

/-- `register_bridge`. -/
def registerBridge (st : AppState) (token : String) (peer : RelayPeer) : AppState :=
  { st with bridges := st.bridges.insert token (row st.bridges token ++ [peer]) }

/-- The cleanup of an agent's connection. -/
def cleanupAgent (st : AppState) (token : String) (peer : RelayPeer) : AppState :=
  match st.agents.lookup token with
  | none => st
  | some list =>
      let list := list.filter (·.conn ≠ peer.conn)
      { st with
        agents := if list = [] then st.agents.erase token else st.agents.insert token list }

/-- The cleanup of a bridge's connection. -/
def cleanupBridge (st : AppState) (token : String) (peer : RelayPeer) : AppState :=
  match st.bridges.lookup token with
  | none => st
  | some list =>
      { st with bridges := st.bridges.insert token (list.filter (·.conn ≠ peer.conn)) }

section Registry

variable (st : AppState) (token : String) (hello : Hello) (conn : Nat) (d : Draws)
  (peer : RelayPeer)

@[simp] theorem row_registerAgent_self :
    row (registerAgent st token hello conn d).agents token
      = row st.agents token ++ [agentPeer st hello conn d] :=
  row_insert_self _ _ _

theorem row_registerAgent_ne {t : String} (h : t ≠ token) :
    row (registerAgent st token hello conn d).agents t = row st.agents t :=
  row_insert_ne h _ _

@[simp] theorem row_cleanupAgent_self :
    row (cleanupAgent st token peer).agents token
      = (row st.agents token).filter (·.conn ≠ peer.conn) := by
  unfold cleanupAgent
  cases h : st.agents.lookup token with
  | none => simp [row, h]
  | some list =>
    dsimp only
    rw [row_of_lookup h]
    split
    · rename_i hn
      rw [row_erase_self, hn]
    · exact row_insert_self _ _ _

theorem row_cleanupAgent_ne {t : String} (h : t ≠ token) :
    row (cleanupAgent st token peer).agents t = row st.agents t := by
  unfold cleanupAgent
  split
  · rfl
  · dsimp only
    split
    · exact row_erase_ne h _
    · exact row_insert_ne h _ _

@[simp] theorem registerBridge_agents : (registerBridge st token peer).agents = st.agents := rfl

@[simp] theorem cleanupBridge_agents : (cleanupBridge st token peer).agents = st.agents := by
  unfold cleanupBridge
  split <;> rfl

@[simp] theorem cleanupAgent_bridges : (cleanupAgent st token peer).bridges = st.bridges := by
  unfold cleanupAgent
  split <;> rfl

@[simp] theorem row_cleanupBridge_self :
    row (cleanupBridge st token peer).bridges token
      = (row st.bridges token).filter (·.conn ≠ peer.conn) := by
  unfold cleanupBridge
  cases h : st.bridges.lookup token with
  | none => simp [row, h]
  | some list =>
    dsimp only
    rw [row_of_lookup h]
    exact row_insert_self _ _ _

theorem row_cleanupBridge_ne {t : String} (h : t ≠ token) :
    row (cleanupBridge st token peer).bridges t = row st.bridges t := by
  unfold cleanupBridge
  split
  · rfl
  · exact row_insert_ne h _ _

end Registry

/-! ## 2. Sends -/

/-- A frame to send on a connection, and what to send where instead if that fails, given the
    text of the error. -/
structure Send where
  dest : Nat
  frame : Frame
  orElse : Option (String → Nat × Frame)

/-- `forward_to_bridges`, for the bridges the snapshot holds. -/
def forwardToBridges (st : AppState) (token : String) (frame : Frame) : List Send :=
  (row st.bridges token).map fun b => ⟨b.conn, frame, none⟩

/-- The target a frame names: its own `target` key, or else that of its `params`. -/
def targetHint (value : Json) : Option String :=
  ((value.get "target").or ((value.get "params").bind (·.get "target"))).bind Json.asStr

/-- The session a frame names. -/
def sessionHint (value : Json) : Option String :=
  ((value.get "session").or ((value.get "params").bind (·.get "session"))).bind Json.asStr

/-- An agent answers to its id and to its session. -/
def RelayPeer.Named (p : RelayPeer) (target : String) : Prop :=
  p.hello.id = target ∨ p.session = target

instance (p : RelayPeer) (target : String) : Decidable (p.Named target) :=
  inferInstanceAs (Decidable (_ ∨ _))

/-- `forward_to_agent`: a bridge's notification goes to every agent, or to those it names. -/
def forwardToAgent (st : AppState) (token : String) (frame : Frame) : List Send :=
  ((row st.agents token).filter fun a =>
    match targetHint frame.value with
    | some target => a.Named target
    | none => true).map fun a => ⟨a.conn, frame, none⟩

/-- The agent a request goes to: the first that the target names, or else the first with the
    session, or else the one that registered last. -/
def pickAgent (list : List RelayPeer) (target session : Option String) : Option RelayPeer :=
  match target with
  | some t => list.find? (·.Named t)
  | none =>
      match session with
      | some s => list.find? (·.session = s)
      | none => list.getLast?

theorem mem_pickAgent {list : List RelayPeer} {target session : Option String} {p : RelayPeer}
    (h : pickAgent list target session = some p) : p ∈ list := by
  unfold pickAgent at h
  split at h
  · exact List.mem_of_find?_eq_some h
  · split at h
    · exact List.mem_of_find?_eq_some h
    · exact List.mem_of_getLast? h

/-- The agent of `token` a request is forwarded to. -/
def AppState.route (st : AppState) (token : String) (value : Json) : Option RelayPeer :=
  pickAgent (row st.agents token) (targetHint value) (sessionHint value)

/-- The `id` of a request, `0` where it has none. -/
def requestId (value : Json) : Nat := ((value.get "id").bind Json.asU64).getD 0

/-- `RelayPeer::respond`: the relay's own answer to a bridge's request. -/
def respond (peer : RelayPeer) (request : Frame) (result : Option Json)
    (error : Option RpcError) : Nat × Frame :=
  (peer.conn, ⟨responseValue (requestId request.value) result error, none, request.asks⟩)

/-- What the relay answers when it has no agent for a request. -/
def agentOffline : RpcError := ⟨Code.agentOffline, "agent is not connected"⟩

/-- What it answers when the send to the agent fails. -/
def forwardFailed (e : String) : RpcError := ⟨Code.internalError, "agent forward failed: " ++ e⟩

/-- `ListTargetsResult` as JSON. -/
def listTargetsResult (st : AppState) : Json :=
  .obj [("targets", .arr ((st.agents.entries.flatMap fun e => e.2).map fun p =>
    .obj [("id", .str p.hello.id), ("name", .str p.hello.name), ("session", .str p.session)]))]

def isResponse (value : Json) : Bool := (value.get "id").isSome && (value.get "method").isNone

def isNotification (value : Json) : Bool := (value.get "method").isSome && (value.get "id").isNone

/-- The read loop's body for a frame of an agent. -/
def handleAgentFrame (st : AppState) (token : String) (frame : Frame) : List Send :=
  if isResponse frame.value || isNotification frame.value then forwardToBridges st token frame
  else []

/-- The read loop's body for a frame of a bridge. -/
def handleBridgeFrame (st : AppState) (token : String) (peer : RelayPeer) (frame : Frame) :
    List Send :=
  if isResponse frame.value then []
  else if isNotification frame.value then forwardToAgent st token frame
  else if (frame.value.get "method").bind Json.asStr = some Method.listTargets then
    let r := respond peer frame (some (listTargetsResult st)) none
    [⟨r.1, r.2, none⟩]
  else
    match st.route token frame.value with
    | some agent =>
        [⟨agent.conn, frame, some fun e => respond peer frame none (some (forwardFailed e))⟩]
    | none =>
        let r := respond peer frame none (some agentOffline)
        [⟨r.1, r.2, none⟩]

/-- `handle_connection`: the read loop's body for a frame of any peer. -/
def handleFrame (st : AppState) (token : String) (peer : RelayPeer) (frame : Frame) : List Send :=
  match peer.hello.kind with
  | .agent => handleAgentFrame st token frame
  | .bridge => handleBridgeFrame st token peer frame

end Relayfs

/-
  File:      Relayfs/System/System.lean
  Subject:   BRIDGES, RELAY AND AGENTS TOGETHER, over connections that lose nothing and keep the
             order of their frames.

  Every connection is two queues, `up` to the relay and `down` from it. The relay's part is the
  system of Relay/Run.lean. A bridge is an `AgentClient`; it dials a connection that the relay has
  registered as a bridge's, drops what comes before the hello_ack, and is online from then on. An
  agent takes each frame off its connection into a task of its own, and a task finishes with any
  outcome at any time.

  One step of the system is one step of one party (`SystemStep`).
-/
import Relayfs.Bridge.Client
import Relayfs.Agent.Dispatch
import Relayfs.Relay.Run

namespace Relayfs

open Lib

/-! ## 1. The state -/

/-- The kind of the peer that registered on a connection. -/
def RelayState.kindOf (st : RelayState) (conn : Nat) : Option PeerKind :=
  ((st.tasks.lookup conn).bind (·.registered)).map fun r => r.2.hello.kind

/-- The frame a `job` event puts on the wire: the next job is a send and does not fail. -/
def RelayState.emitted (st : RelayState) (conn : Nat) (error : Option String) :
    Option (Nat × Frame) :=
  match st.tasks.lookup conn, error with
  | some ⟨_, _, .send s :: _⟩, none => some (s.dest, s.frame)
  | _, _ => none

/-- **The system.** `owner` is the bridge that dialed a connection, `agents` holds the frames
    whose dispatch tasks run at the agent of a connection, `ready` says that the agent has read
    its hello_ack. -/
structure System where
  relay : RelayState
  clients : Nat → AgentClient
  owner : Nat → Option Nat
  agents : Nat → List Frame
  ready : Nat → Bool
  up : Nat → List Frame
  down : Nat → List Frame

/-- `f` with the value at `k` replaced. -/
def setAt {α : Type} (f : Nat → α) (k : Nat) (v : α) : Nat → α := fun i => if i = k then v else f i

@[simp] theorem setAt_self {α : Type} (f : Nat → α) (k : Nat) (v : α) : setAt f k v k = v :=
  if_pos rfl

theorem setAt_ne {α : Type} (f : Nat → α) {k i : Nat} (v : α) (h : i ≠ k) :
    setAt f k v i = f i := if_neg h

/-- A frame joins the end of a queue. -/
def pushAt (f : Nat → List Frame) (k : Nat) (frame : Frame) : Nat → List Frame :=
  setAt f k (f k ++ [frame])

theorem mem_pushAt {f : Nat → List Frame} {k i : Nat} {frame x : Frame} :
    x ∈ pushAt f k frame i ↔ x ∈ f i ∨ (i = k ∧ x = frame) := by
  by_cases h : i = k
  · subst h
    simp [pushAt]
  · simp [pushAt, setAt_ne _ _ h, h]

/-- A frame leaves the front of a queue. -/
def popAt (f : Nat → List Frame) (k : Nat) : Nat → List Frame := setAt f k (f k).tail

theorem mem_of_mem_popAt {f : Nat → List Frame} {k i : Nat} {x : Frame} (h : x ∈ popAt f k i) :
    x ∈ f i := by
  by_cases hi : i = k
  · subst hi
    rw [popAt, setAt_self] at h
    exact List.mem_of_mem_tail h
  · rwa [popAt, setAt_ne _ _ hi] at h

/-! ## 2. Steps -/

inductive SystemEvent where
  /-- The relay accepts, registers, performs a job or ends a connection. -/
  | relay (e : RelayEvent)
  /-- The relay reads the next frame of a connection. -/
  | relayRead (conn : Nat)
  /-- A bridge dials, reads a frame of its handshake, or gives the handshake up. -/
  | dial (b conn : Nat)
  | handshake (b : Nat)
  | hangup (b : Nat)
  /-- A call begins, sends its frame, or times out. -/
  | begin (b : Nat) (req : BridgeRequest)
  | send (b n : Nat) (req : BridgeRequest) (error : Option String)
  | timeout (b n : Nat)
  /-- `read_loop` reads a frame, or ends. -/
  | read (b : Nat)
  | lost (b : Nat)
  /-- An agent reads a frame, sends a notification, or finishes a task. -/
  | agentRead (conn : Nat)
  | agentNotify (conn : Nat) (method : String) (params : Json)
  | agentAnswer (conn i : Nat) (outcome : HandlerOutcome)

/-- A frame is the hello_ack. -/
def isHelloAck (frame : Frame) : Bool :=
  (frame.value.get "method").bind Json.asStr = some "hello_ack"

/-- The relay's steps that read no frame. -/
def RelayEvent.isFrame : RelayEvent → Bool
  | .frame _ _ => true
  | _ => false

/-- The frame a bridge reads next in its handshake, with the connection it comes from. -/
def System.handshakeFrame (s : System) (b : Nat) : Option (Nat × Frame) :=
  (s.clients b).link.dialed.bind fun conn => (s.down conn).head?.map fun f => (conn, f)

/-- The frame a bridge's `read_loop` reads next, with the connection it comes from. -/
def System.nextFrame (s : System) (b : Nat) : Option (Nat × Frame) :=
  (s.clients b).link.sink.bind fun conn => (s.down conn).head?.map fun f => (conn, f)

/-- When an event can happen. -/
def System.permits (s : System) : SystemEvent → Prop
  | .relay e => e.isFrame = false ∧ s.relay.permits e
  | .relayRead conn => ∃ f ∈ (s.up conn).head?, s.relay.permits (.frame conn f)
  | .dial b conn =>
      (s.clients b).link = .offline ∧ s.owner conn = none ∧ s.relay.kindOf conn = some .bridge
  | .handshake b => (s.handshakeFrame b).isSome
  | .hangup b => (s.clients b).link.dialed.isSome
  | .begin _ _ => True
  | .send b n req _ => (n, req) ∈ (s.clients b).unsent
  | .timeout b n => n ∈ (s.clients b).waiting
  | .read b => (s.nextFrame b).isSome
  | .lost b => (s.clients b).link.sink.isSome
  | .agentRead conn => s.relay.kindOf conn = some .agent ∧ (s.down conn).isEmpty = false
  | .agentNotify conn _ _ => s.relay.kindOf conn = some .agent
  | .agentAnswer conn i _ => s.relay.kindOf conn = some .agent ∧ i < (s.agents conn).length

instance System.decPermits (s : System) : ∀ e, Decidable (s.permits e)
  | .relay e => inferInstanceAs (Decidable (e.isFrame = false ∧ s.relay.permits e))
  | .relayRead conn => inferInstanceAs (Decidable (∃ f ∈ (s.up conn).head?, _))
  | .dial b conn =>
      inferInstanceAs (Decidable ((s.clients b).link = .offline ∧ s.owner conn = none ∧ _))
  | .handshake b => inferInstanceAs (Decidable ((s.handshakeFrame b).isSome))
  | .hangup b => inferInstanceAs (Decidable ((s.clients b).link.dialed.isSome))
  | .begin _ _ => isTrue trivial
  | .send b n req _ => inferInstanceAs (Decidable ((n, req) ∈ (s.clients b).unsent))
  | .timeout b n => inferInstanceAs (Decidable (n ∈ (s.clients b).waiting))
  | .read b => inferInstanceAs (Decidable ((s.nextFrame b).isSome))
  | .lost b => inferInstanceAs (Decidable ((s.clients b).link.sink.isSome))
  | .agentRead conn => inferInstanceAs (Decidable (s.relay.kindOf conn = some .agent ∧ _))
  | .agentNotify conn _ _ => inferInstanceAs (Decidable (s.relay.kindOf conn = some .agent))
  | .agentAnswer conn i _ =>
      inferInstanceAs (Decidable (s.relay.kindOf conn = some .agent ∧ i < (s.agents conn).length))

/-- What an event does. -/
def System.next (s : System) : SystemEvent → System
  | .relay e =>
      let s' := { s with relay := s.relay.next e }
      match e with
      | .job conn error =>
          match s.relay.emitted conn error with
          | some (dest, frame) => { s' with down := pushAt s.down dest frame }
          | none => s'
      | _ => s'
  | .relayRead conn =>
      match (s.up conn).head? with
      | some f =>
          { s with relay := s.relay.next (.frame conn f), up := popAt s.up conn }
      | none => s
  | .dial b conn =>
      { s with
        owner := setAt s.owner conn (some b)
        clients := setAt s.clients b { s.clients b with link := .dialing conn } }
  | .handshake b =>
      match s.handshakeFrame b with
      | some (conn, f) =>
          { s with
            down := popAt s.down conn
            clients := setAt s.clients b
              { s.clients b with link := if isHelloAck f then .online conn else .dialing conn } }
      | none => s
  | .hangup b => { s with clients := setAt s.clients b { s.clients b with link := .offline } }
  | .begin b req => { s with clients := setAt s.clients b ((s.clients b).beginCall req) }
  | .send b n req error =>
      let r := (s.clients b).sendFrame n req error
      let s' := { s with clients := setAt s.clients b r.1 }
      match r.2 with
      | .sent conn value => { s' with up := pushAt s.up conn ⟨value, some ⟨b, n⟩, none⟩ }
      | .failed _ => s'
  | .timeout b n => { s with clients := setAt s.clients b ((s.clients b).timeout n).1 }
  | .read b =>
      match s.nextFrame b with
      | some (conn, f) =>
          { s with
            down := popAt s.down conn
            clients := setAt s.clients b ((s.clients b).receive f.value).1 }
      | none => s
  | .lost b => { s with clients := setAt s.clients b (s.clients b).connectionLost }
  | .agentRead conn =>
      match (s.down conn).head? with
      | some f =>
          let s' := { s with down := popAt s.down conn }
          if s.ready conn then { s' with agents := pushAt s.agents conn f }
          else { s' with ready := setAt s.ready conn (isHelloAck f) }
      | none => s
  | .agentNotify conn method params =>
      { s with up := pushAt s.up conn (.notification method params) }
  | .agentAnswer conn i outcome =>
      match (s.agents conn)[i]? with
      | some f =>
          let s' := { s with agents := setAt s.agents conn ((s.agents conn).eraseIdx i) }
          match dispatch f.value outcome with
          | some answer => { s' with up := pushAt s.up conn ⟨answer, none, f.asks⟩ }
          | none => s'
      | none => s

abbrev SystemStep : System → SystemEvent → System → Prop := Moves System.permits System.next

/-- A relay that has just started; every bridge is a client that has just been created. -/
def System.start (requiredToken : Option String) : System :=
  ⟨⟨.new requiredToken, ∅⟩, fun _ => .new, fun _ => none, fun _ => [], fun _ => false,
    fun _ => [], fun _ => []⟩

def SystemInit (s : System) : Prop := ∃ requiredToken, s = .start requiredToken

abbrev SystemRun (hist : List (System × SystemEvent)) (s : System) : Prop :=
  Run SystemInit SystemStep hist s

end Relayfs

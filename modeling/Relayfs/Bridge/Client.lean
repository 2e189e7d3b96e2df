/-
  File:      Relayfs/Bridge/Client.lean
  Subject:   THE BRIDGE'S RPC CLIENT (bridge/src/client.rs, `AgentClient`): the pending map and the
             connection, with the steps of `call`, `call_timeout`, `read_loop` and the supervisor.

  A call takes the next number, registers itself in the pending map, sends its frame and waits.
  The number is a `u64` on the wire; the model counts calls without end and `wireId` is what the
  counter yields.

  * `beginCall`, `sendFrame`, `timeout` -- the three steps of a call;
  * `receive` -- one turn of `read_loop`;
  * `connectionLost` -- the end of `read_loop` and the supervisor's clearing of the sink;
  * `ClientInv` -- a pending entry is the LATEST call with its id.
-/
import Relayfs.Lib.Table
import Relayfs.Wire.Requests

namespace Relayfs

open Lib

/-! ## 1. The client -/

/-- The id the `n`-th call carries: `fetch_add` on an `AtomicU64`. -/
def wireId (n : Nat) : Nat := n % 2 ^ 64

/-- The connection of a client: none, one whose hello_ack has not come yet, or one whose sink is
    installed. -/
inductive Link where
  | offline
  | dialing (conn : Nat)
  | online (conn : Nat)
  deriving DecidableEq, Repr

/-- The connection whose handshake goes on. -/
def Link.dialed : Link → Option Nat
  | dialing conn => some conn
  | _ => none

/-- The connection whose sink is installed. -/
def Link.sink : Link → Option Nat
  | online conn => some conn
  | _ => none

/-- `AgentClient`, with the calls it has under way: those that have registered and not sent yet,
    and those that await their answer. `pending` maps an id to the call whose sender waits. -/
structure AgentClient where
  nextId : Nat
  pending : Table Nat Nat
  unsent : List (Nat × BridgeRequest)
  waiting : List Nat
  link : Link

/-- A client that has just been created. -/
def AgentClient.new : AgentClient := ⟨1, ∅, [], [], .offline⟩

/-- What a call returns. -/
inductive CallResult where
  | ok (value : Json)
  | err (e : RpcError)

/-- `serde_json::from_value` of an `RpcError`. -/
def RpcError.ofJson (v : Json) : Option RpcError :=
  match v.get "code", v.get "message" with
  | some (.num (.negInt code)), some (.str message) => some ⟨code, message⟩
  | some (.num (.posInt code)), some (.str message) =>
      if code < 2 ^ 63 then some ⟨code, message⟩ else none
  | _, _ => none

/-- The result `read_loop` hands to the call a response is for. -/
def responseResult (value : Json) : CallResult :=
  match value.get "error" with
  | some e =>
      .err ((RpcError.ofJson e).getD ⟨Code.internalError, "malformed error response"⟩)
  | none => .ok ((value.get "result").getD .null)

namespace AgentClient

/-- A call takes its number and registers itself. -/
def beginCall (c : AgentClient) (req : BridgeRequest) : AgentClient :=
  { c with
    nextId := c.nextId + 1
    pending := c.pending.insert (wireId c.nextId) c.nextId
    unsent := (c.nextId, req) :: c.unsent }

/-- What the send of a call comes to. -/
inductive SendResult where
  | sent (conn : Nat) (value : Json)
  | failed (e : RpcError)

/-- A call sends its frame; `error` is what the sink reports. A call that cannot send
    unregisters. -/
def sendFrame (c : AgentClient) (n : Nat) (req : BridgeRequest) (error : Option String) :
    AgentClient × SendResult :=
  let c := { c with unsent := c.unsent.erase (n, req) }
  match c.link.sink, error with
  | some conn, none =>
      ({ c with waiting := n :: c.waiting }, .sent conn (req.frame (wireId n)))
  | some _, some e =>
      ({ c with pending := c.pending.erase (wireId n) },
        .failed ⟨Code.internalError, "send failed: " ++ e⟩)
  | none, _ =>
      ({ c with pending := c.pending.erase (wireId n) },
        .failed ⟨Code.agentOffline, "relay connection offline (reconnecting)"⟩)

/-- The timer of `call_timeout` fires. -/
def timeout (c : AgentClient) (n : Nat) : AgentClient × CallResult :=
  ({ c with pending := c.pending.erase (wireId n), waiting := c.waiting.erase n },
    .err ⟨Code.cancelled, "request timed out"⟩)

/-- One turn of `read_loop`: a frame with an id goes to the call that is registered under it;
    every other frame changes no call. Returns that call and its result. -/
def receive (c : AgentClient) (value : Json) : AgentClient × Option (Nat × CallResult) :=
  match (value.get "id").bind Json.asU64 with
  | none => (c, none)
  | some id =>
      match c.pending.lookup id with
      | none => (c, none)
      | some n =>
          ({ c with pending := c.pending.erase id, waiting := c.waiting.erase n },
            some (n, responseResult value))

/-- `read_loop` ends: every registered call fails with this, and the sink is cleared. -/
def connectionLost (c : AgentClient) : AgentClient :=
  { c with pending := ∅, waiting := [], link := .offline }

/-- What the calls still registered at the end of `read_loop` return. -/
def lostResult : CallResult := .err ⟨Code.agentOffline, "connection to agent lost"⟩

end AgentClient

/-! ## 2. The pending map -/

/-- **The client's invariant**: an entry of the pending map is a call begun under its id, and no
    call begun under that id is later; an unsent call has begun. -/
structure ClientInv (c : AgentClient) : Prop where
  begun : ∀ id n, c.pending.lookup id = some n → wireId n = id ∧ n < c.nextId
  latest : ∀ id n, c.pending.lookup id = some n → ∀ m < c.nextId, wireId m = id → m ≤ n
  unsent : ∀ x ∈ c.unsent, x.1 < c.nextId

theorem clientInv_new : ClientInv .new where
  begun id n h := by simp [AgentClient.new] at h
  latest id n h := by simp [AgentClient.new] at h
  unsent x h := by simp [AgentClient.new] at h

theorem ClientInv.beginCall {c : AgentClient} (h : ClientInv c) (req : BridgeRequest) :
    ClientInv (c.beginCall req) where
  begun id n hn := by
    simp only [AgentClient.beginCall] at hn ⊢
    by_cases hid : id = wireId c.nextId
    · rw [hid, AList.lookup_insert] at hn
      cases hn
      exact ⟨hid.symm, Nat.lt_succ_self _⟩
    · rw [AList.lookup_insert_ne hid] at hn
      obtain ⟨hw, hlt⟩ := h.begun id n hn
      exact ⟨hw, Nat.lt_succ_of_lt hlt⟩
  latest id n hn m hm hw := by
    simp only [AgentClient.beginCall] at hn hm
    by_cases hid : id = wireId c.nextId
    · rw [hid, AList.lookup_insert] at hn
      cases hn
      exact Nat.le_of_lt_succ hm
    · rw [AList.lookup_insert_ne hid] at hn
      -- the new call has another id
      have hne : m ≠ c.nextId := by
        intro e
        exact hid (by rw [← hw, e])
      exact h.latest id n hn m (by omega) hw
  unsent x hx := by
    simp only [AgentClient.beginCall] at hx ⊢
    rcases List.mem_cons.mp hx with hx | hx
    · rw [hx]
      exact Nat.lt_succ_self _
    · exact Nat.lt_succ_of_lt (h.unsent x hx)

/-- A step that begins no call, and only takes entries and unsent calls away, keeps the
    invariant. -/
theorem ClientInv.shrink {c c' : AgentClient} (h : ClientInv c) (hnext : c'.nextId = c.nextId)
    (hpending : ∀ id n, c'.pending.lookup id = some n → c.pending.lookup id = some n)
    (hunsent : ∀ x ∈ c'.unsent, x ∈ c.unsent) : ClientInv c' where
  begun id n hn := by
    rw [hnext]
    exact h.begun id n (hpending id n hn)
  latest id n hn := by
    rw [hnext]
    exact h.latest id n (hpending id n hn)
  unsent x hx := by
    rw [hnext]
    exact h.unsent x (hunsent x hx)

theorem sendFrame_nextId (c : AgentClient) (n : Nat) (req : BridgeRequest)
    (error : Option String) : (c.sendFrame n req error).1.nextId = c.nextId := by
  unfold AgentClient.sendFrame
  dsimp only
  split <;> rfl

theorem sendFrame_link (c : AgentClient) (n : Nat) (req : BridgeRequest)
    (error : Option String) : (c.sendFrame n req error).1.link = c.link := by
  unfold AgentClient.sendFrame
  dsimp only
  split <;> rfl

theorem ClientInv.sendFrame {c : AgentClient} (h : ClientInv c) (n : Nat) (req : BridgeRequest)
    (error : Option String) : ClientInv (c.sendFrame n req error).1 := by
  refine h.shrink (sendFrame_nextId c n req error) (fun id m hm => ?_) fun x hx => ?_
  · unfold AgentClient.sendFrame at hm
    dsimp only at hm
    split at hm
    · exact hm
    · exact lookup_of_erase hm
    · exact lookup_of_erase hm
  · unfold AgentClient.sendFrame at hx
    dsimp only at hx
    split at hx <;> exact List.mem_of_mem_erase hx

/-- The frame a call sends is its request, and goes on the client's own connection. -/
theorem sendFrame_sent {c : AgentClient} {n : Nat} {req : BridgeRequest} {error : Option String}
    {conn : Nat} {value : Json} (h : (c.sendFrame n req error).2 = .sent conn value) :
    c.link.sink = some conn ∧ value = req.frame (wireId n) := by
  unfold AgentClient.sendFrame at h
  dsimp only at h
  split at h
  · rename_i conn' hlink
    cases h
    exact ⟨hlink, rfl⟩
  · cases h
  · cases h

theorem ClientInv.timeout {c : AgentClient} (h : ClientInv c) (n : Nat) :
    ClientInv (c.timeout n).1 :=
  h.shrink rfl (fun _ _ hm => lookup_of_erase hm) fun _ hx => hx

theorem receive_nextId (c : AgentClient) (value : Json) :
    (c.receive value).1.nextId = c.nextId := by
  unfold AgentClient.receive
  split
  · rfl
  · split <;> rfl

theorem receive_link (c : AgentClient) (value : Json) : (c.receive value).1.link = c.link := by
  unfold AgentClient.receive
  split
  · rfl
  · split <;> rfl

theorem ClientInv.receive {c : AgentClient} (h : ClientInv c) (value : Json) :
    ClientInv (c.receive value).1 := by
  refine h.shrink (receive_nextId c value) (fun id m hm => ?_) fun x hx => ?_
  · unfold AgentClient.receive at hm
    split at hm
    · exact hm
    · split at hm
      · exact hm
      · exact lookup_of_erase hm
  · unfold AgentClient.receive at hx
    split at hx
    · exact hx
    · split at hx <;> exact hx

/-- A frame completes the call that is registered under the frame's id. -/
theorem receive_eq_some {c : AgentClient} {value : Json} {n : Nat} {r : CallResult} :
    (c.receive value).2 = some (n, r) ↔
      (∃ id, (value.get "id").bind Json.asU64 = some id ∧ c.pending.lookup id = some n) ∧
        r = responseResult value := by
  unfold AgentClient.receive
  cases hid : (value.get "id").bind Json.asU64 with
  | none => simp
  | some id =>
    cases hp : c.pending.lookup id with
    | none => simp [hp]
    | some m =>
      simp only [Option.some.injEq, Prod.mk.injEq, exists_eq_left', hp]
      exact and_congr_right fun _ => eq_comm

theorem ClientInv.connectionLost {c : AgentClient} (h : ClientInv c) :
    ClientInv c.connectionLost :=
  h.shrink rfl (fun _ _ hm => by simp [AgentClient.connectionLost] at hm) fun _ hx => hx

end Relayfs

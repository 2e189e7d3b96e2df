/-
  File:      Relayfs/Wire/Json.lean
  Subject:   JSON VALUES AND JSON-RPC FRAMES (crate `rpc`, and what the code uses of
             `serde_json::Value`).

  Peers send `value.to_string()` and read it back with `from_str`; a frame on the wire is the
  value itself here.

  * `Json`, `get`, `asU64`, `asStr` -- values and the accessors the relay, the client and the
    agent read them with;
  * `requestValue`, `notificationValue`, `responseValue` -- the three frame builders;
  * `Frame` -- a value on a connection, with the call it asks or answers as a GHOST: no function
    of the code reads it, the theorems about answers do.
-/
import Mathlib.Data.List.Basic

namespace Relayfs

/-! ## 1. Values -/

/-- `serde_json::Number`; a float is its bits. -/
inductive Number where
  | posInt (n : Nat)
  | negInt (n : Int)
  | float (bits : UInt64)
  deriving DecidableEq, Repr

/-- `serde_json::Value`. -/
inductive Json where
  | null
  | bool (b : Bool)
  | num (n : Number)
  | str (s : String)
  | arr (items : List Json)
  | obj (fields : List (String × Json))
  deriving Repr

namespace Json

/-- `Value::get` with a string key. -/
def get : Json → String → Option Json
  | obj fields, key => (fields.find? fun f => f.1 = key).map Prod.snd
  | _, _ => none

/-- `Value::as_u64`. -/
def asU64 : Json → Option Nat
  | num (.posInt n) => some n
  | _ => none

/-- `Value::as_str`. -/
def asStr : Json → Option String
  | str s => some s
  | _ => none

/-- `json!` of an unsigned integer. -/
def nat (n : Nat) : Json := num (.posInt n)

/-- `json!` of an `Option`. -/
def opt {α : Type} (f : α → Json) : Option α → Json
  | none => null
  | some a => f a

@[simp] theorem asU64_nat (n : Nat) : (nat n).asU64 = some n := rfl

@[simp] theorem asStr_str (s : String) : (str s).asStr = some s := rfl

@[simp] theorem get_obj_nil (key : String) : (obj []).get key = none := rfl

end Json

/-! ## 2. Frames -/

/-- `RpcError` without its `data`, which no request handler of the relay or the client sets. -/
structure RpcError where
  code : Int
  message : String
  deriving DecidableEq, Repr

namespace Code

def methodNotFound : Int := -32601
def internalError : Int := -32603
def agentOffline : Int := -32000
def cancelled : Int := -32001

end Code

/-- `serde_json::to_value` of an `RpcError`. -/
def RpcError.toJson (e : RpcError) : Json :=
  .obj [("code", .num (.negInt e.code)), ("message", .str e.message)]

/-- `request_value`. -/
def requestValue (id : Nat) (method : String) (params : Json) : Json :=
  .obj [("jsonrpc", .str "2.0"), ("id", .nat id), ("method", .str method), ("params", params)]

/-- `notification_value`, and the notifications the relay builds in place. -/
def notificationValue (method : String) (params : Json) : Json :=
  .obj [("jsonrpc", .str "2.0"), ("method", .str method), ("params", params)]

/-- `response_value` of the agent and `RelayPeer::respond` of the relay. -/
def responseValue (id : Nat) (result : Option Json) (error : Option RpcError) : Json :=
  .obj ([("jsonrpc", .str "2.0"), ("id", .nat id)]
    ++ (result.map fun r => ("result", r)).toList
    ++ (error.map fun e => ("error", e.toJson)).toList)

section Get

variable (id : Nat) (method : String) (params : Json) (result : Option Json)
  (error : Option RpcError)

@[simp] theorem requestValue_id : (requestValue id method params).get "id" = some (.nat id) := rfl

@[simp] theorem requestValue_method :
    (requestValue id method params).get "method" = some (.str method) := rfl

@[simp] theorem requestValue_params :
    (requestValue id method params).get "params" = some params := rfl

@[simp] theorem requestValue_target : (requestValue id method params).get "target" = none := rfl

@[simp] theorem requestValue_session :
    (requestValue id method params).get "session" = none := rfl

@[simp] theorem notificationValue_id : (notificationValue method params).get "id" = none := rfl

@[simp] theorem notificationValue_method :
    (notificationValue method params).get "method" = some (.str method) := rfl

@[simp] theorem responseValue_id :
    (responseValue id result error).get "id" = some (.nat id) := rfl

@[simp] theorem responseValue_method : (responseValue id result error).get "method" = none := by
  cases result <;> cases error <;> rfl

end Get

/-- **A call of a bridge**: the `n`-th call its client ever began, counted from 1. -/
structure CallRef where
  bridge : Nat
  call : Nat
  deriving DecidableEq, Repr

/-- **A frame on a connection.** The two call references are ghosts: `asks` is the call whose
    request this frame is, `answers` the call it was made to answer. -/
structure Frame where
  value : Json
  asks : Option CallRef
  answers : Option CallRef

/-- A notification: it belongs to no call. -/
def Frame.notification (method : String) (params : Json) : Frame :=
  ⟨notificationValue method params, none, none⟩

end Relayfs

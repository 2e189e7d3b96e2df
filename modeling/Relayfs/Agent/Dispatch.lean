/-
  File:      Relayfs/Agent/Dispatch.lean
  Subject:   THE AGENT'S DISPATCH (agent/src/conn.rs, `dispatch` and `send_response`): which frame
             answers a request.

  Each text frame runs in a task of its own. The handlers are not part of this file: what a
  handler returns is an argument.
-/
import Relayfs.Wire.Requests

namespace Relayfs

/-- The methods `dispatch` has a handler for. -/
def agentMethods : List String :=
  [Method.runCommand, Method.readFile, Method.writeFile, Method.listDir, Method.stat,
    Method.mkdir, Method.remove, Method.rename, Method.copy, Method.writeAt, Method.truncate,
    Method.symlink, Method.chmod, "stream_file", Method.getCommandResult, Method.ping]

/-- What a handler returns: a result, or the text of its error. -/
inductive HandlerOutcome where
  | ok (result : Json)
  | err (text : String)

/-- The method `dispatch` reads from a frame. -/
def requestMethod (value : Json) : String := ((value.get "method").bind Json.asStr).getD ""

/-- `dispatch`: the frame that answers `value`, given what the handler of its method returns. A
    frame without an unsigned id is not answered. -/
def dispatch (value : Json) (outcome : HandlerOutcome) : Option Json :=
  ((value.get "id").bind Json.asU64).map fun id =>
    if requestMethod value ∈ agentMethods then
      match outcome with
      | .ok result => responseValue id (some result) none
      | .err text => responseValue id none (some ⟨Code.internalError, text⟩)
    else
      responseValue id none
        (some ⟨Code.methodNotFound, "unknown method: " ++ requestMethod value⟩)

/-- An answer is a response with the id of its request. -/
theorem dispatch_eq_some {value answer : Json} {outcome : HandlerOutcome}
    (h : dispatch value outcome = some answer) :
    ∃ id, (value.get "id").bind Json.asU64 = some id ∧ answer.get "id" = some (.nat id) ∧
      answer.get "method" = none := by
  obtain ⟨id, hid, rfl⟩ := Option.map_eq_some_iff.mp h
  refine ⟨id, hid, ?_⟩
  split
  · cases outcome <;> exact ⟨responseValue_id _ _ _, responseValue_method _ _ _⟩
  · exact ⟨responseValue_id _ _ _, responseValue_method _ _ _⟩

end Relayfs

/-
  File:      Relayfs/Wire/Requests.lean
  Subject:   EVERY REQUEST THE BRIDGE BUILDS: the methods of `relayfs_protocol::method` with the
             `params` object that the FUSE handlers, the flusher and the MCP tools send.

  One constructor of `BridgeRequest` is one shape of `params`. Where FUSE and MCP build the same
  method they differ in which fields are `null` (an MCP option that was left out), so those
  fields are options here.
-/
import Relayfs.Wire.Json

namespace Relayfs

namespace Method

def runCommand := "run_command"
def readFile := "read_file"
def writeFile := "write_file"
def listDir := "list_dir"
def stat := "stat"
def mkdir := "mkdir"
def remove := "remove"
def rename := "rename"
def copy := "copy"
def writeAt := "write_at"
def truncate := "truncate"
def symlink := "symlink"
def chmod := "chmod"
def ping := "ping"
def listTargets := "list_targets"
def getCommandResult := "get_command_result"

end Method

/-- `TRANSFER_CHUNK_BYTES`: the file bytes that one request of a transfer carries or asks for. -/
def transferChunkBytes : Nat := 1024 * 1024

/-- **A request of the bridge.** Paths are the text of `to_string_lossy`, `data` is base64. -/
inductive BridgeRequest where
  | runCommand (command : String) (cwd : Option String) (timeoutSecs : Option Nat)
      (input : Option String) (wait : Option Bool) (target : Option String)
  | readFile (path : String) (offset limit : Option Nat)
  | writeFile (path data : String) (createDirs : Option Bool)
  | listDir (path : String)
  | stat (path : String)
  | mkdir (path : String) (mode : Option Nat)
  | remove (path : String) (recursive : Option Bool)
  | rename (source dest : String)
  | copy (source dest : String) (recursive : Option Bool)
  | writeAt (path : String) (offset : Nat) (data : String)
  | truncate (path : String) (size : Nat)
  | symlink (link target : String)
  | chmod (path : String) (mode : Nat)
  | ping
  | listTargets
  | getCommandResult (executionId : Nat) (head tail : Option Nat)
  deriving DecidableEq, Repr

namespace BridgeRequest

/-- The `method` of the frame. -/
def method : BridgeRequest → String
  | runCommand .. => Method.runCommand
  | readFile .. => Method.readFile
  | writeFile .. => Method.writeFile
  | listDir .. => Method.listDir
  | stat .. => Method.stat
  | mkdir .. => Method.mkdir
  | remove .. => Method.remove
  | rename .. => Method.rename
  | copy .. => Method.copy
  | writeAt .. => Method.writeAt
  | truncate .. => Method.truncate
  | symlink .. => Method.symlink
  | chmod .. => Method.chmod
  | ping => Method.ping
  | listTargets => Method.listTargets
  | getCommandResult .. => Method.getCommandResult

/-- The `params` of the frame. `run_command` adds `target` only where one was chosen. -/
def params : BridgeRequest → Json
  | runCommand command cwd timeoutSecs input wait target =>
      .obj ([("command", .str command), ("cwd", .opt .str cwd),
        ("timeout_secs", .opt .nat timeoutSecs), ("input", .opt .str input),
        ("wait", .opt .bool wait)]
        ++ (target.map fun t => ("target", Json.str t)).toList)
  | readFile path offset limit =>
      .obj [("path", .str path), ("offset", .opt .nat offset), ("limit", .opt .nat limit)]
  | writeFile path data createDirs =>
      .obj [("path", .str path), ("data", .str data), ("create_dirs", .opt .bool createDirs)]
  | listDir path => .obj [("path", .str path)]
  | stat path => .obj [("path", .str path)]
  | mkdir path mode => .obj [("path", .str path), ("mode", .opt .nat mode)]
  | remove path recursive => .obj [("path", .str path), ("recursive", .opt .bool recursive)]
  | rename source dest => .obj [("from", .str source), ("to", .str dest)]
  | copy source dest recursive =>
      .obj [("from", .str source), ("to", .str dest), ("recursive", .opt .bool recursive)]
  | writeAt path offset data =>
      .obj [("path", .str path), ("offset", .nat offset), ("data", .str data)]
  | truncate path size => .obj [("path", .str path), ("size", .nat size)]
  | symlink link target => .obj [("link", .str link), ("target", .str target)]
  | chmod path mode => .obj [("path", .str path), ("mode", .nat mode)]
  | ping => .obj []
  | listTargets => .obj []
  | getCommandResult executionId head tail =>
      .obj [("execution_id", .nat executionId), ("head", .opt .nat head), ("tail", .opt .nat tail)]

/-- The request leaves the choice of the agent to the relay: it is forwarded, and it is no
    `run_command` with a `target` argument. -/
def Unaddressed : BridgeRequest → Prop
  | runCommand _ _ _ _ _ target => target = none
  | listTargets => False
  | _ => True

/-- What the `params` say under the key the relay reads as a target: a symlink's own target, or
    the agent a `run_command` was addressed to. -/
theorem params_target (r : BridgeRequest) :
    r.params.get "target" =
      match r with
      | symlink _ target => some (.str target)
      | runCommand _ _ _ _ _ target => target.map Json.str
      | _ => none := by
  cases r with
  | runCommand command cwd timeoutSecs input wait target => cases target <;> rfl
  | _ => rfl

/-- No `params` of the bridge has a `session` key. -/
theorem params_session (r : BridgeRequest) : r.params.get "session" = none := by
  cases r with
  | runCommand command cwd timeoutSecs input wait target => cases target <;> rfl
  | _ => rfl

/-- Only `list_targets` is answered by the relay itself. -/
theorem method_eq_listTargets {r : BridgeRequest} :
    r.method = Method.listTargets ↔ r = listTargets := by
  cases r <;> simp [method, Method.listTargets, Method.runCommand, Method.readFile,
    Method.writeFile, Method.listDir, Method.stat, Method.mkdir, Method.remove, Method.rename,
    Method.copy, Method.writeAt, Method.truncate, Method.symlink, Method.chmod, Method.ping,
    Method.getCommandResult]

/-- The frame `call` and `call_timeout` send. -/
def frame (r : BridgeRequest) (id : Nat) : Json := requestValue id r.method r.params

end BridgeRequest

end Relayfs

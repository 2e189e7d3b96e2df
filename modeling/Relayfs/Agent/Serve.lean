/-
  File:      Relayfs/Agent/Serve.lean
  Subject:   THE AGENT AS THE TARGET OF A MOUNT: a request frame in, a response frame out, and the
             regular files in between (agent/src/conn.rs `dispatch`, files.rs `stat`, `chmod`,
             `read_file`, `write_at`, `truncate`).

  The disk is healthy: no call fails that could succeed, and one read of a file returns what tokio's
  buffer holds, if the file has that much.

  * `Lstat`, `Agent.stat`, `Agent.chmod` -- the two handlers that no other module has;
  * `AgentDisk`, `Handles` -- the regular files, and what a handler makes of them;
  * `AgentServes` -- a frame, the frame that answers it, and the files then;
  * `result_of_serves` -- what the client reads in the answer to a frame of the bridge.
-/
import Relayfs.Agent.Params
import Relayfs.Agent.ReadFile
import Relayfs.Bridge.Client

namespace Relayfs

open Lib

/-! ## 1. `stat` and `chmod` -/

/-- What the operating system says of a path: `symlink_metadata`, and `read_link` where it is a
    link. `modified` is in seconds; there is none before the epoch. -/
structure Lstat where
  kind : FileKind
  len : Nat
  modified : Option Nat
  mode : Nat
  uid : Nat
  gid : Nat
  link : Option String

/-- `to_value` of a `StatResult`. -/
def StatResult.toJson (r : StatResult) : Json :=
  .obj ([("kind", .str r.kind.text), ("size", .nat r.size), ("modified", .nat r.modified),
    ("mode", .nat r.mode), ("uid", .nat r.uid), ("gid", .nat r.gid)]
    ++ (r.linkTarget.map fun t => ("link_target", Json.str t)).toList)

/-- The numbers fit their types. -/
structure StatResult.Fits (r : StatResult) : Prop where
  size : r.size < 2 ^ 64
  modified : r.modified < 2 ^ 64
  mode : r.mode < 2 ^ 32
  uid : r.uid < 2 ^ 32
  gid : r.gid < 2 ^ 32

theorem StatResult.ofJson_toJson {r : StatResult} (h : r.Fits) : ofJson r.toJson = some r := by
  have hkind : (r.toJson.text "kind").bind FileKind.ofText = some r.kind := r.kind.ofText_text
  have hsize : r.toJson.unsigned "size" (2 ^ 64) = some r.size :=
    Option.filter_some_pos (decide_eq_true h.size)
  have hmodified : r.toJson.unsigned "modified" (2 ^ 64) = some r.modified :=
    Option.filter_some_pos (decide_eq_true h.modified)
  have hmode : r.toJson.unsigned "mode" (2 ^ 32) = some r.mode :=
    Option.filter_some_pos (decide_eq_true h.mode)
  have huid : r.toJson.unsigned "uid" (2 ^ 32) = some r.uid :=
    Option.filter_some_pos (decide_eq_true h.uid)
  have hgid : r.toJson.unsigned "gid" (2 ^ 32) = some r.gid :=
    Option.filter_some_pos (decide_eq_true h.gid)
  have hlink : r.toJson.optText "link_target" = some r.linkTarget := by
    obtain ⟨kind, size, modified, mode, uid, gid, linkTarget⟩ := r
    cases linkTarget <;> rfl
  rw [ofJson, hkind, hsize, hmodified, hmode, huid, hgid, hlink]
  rfl

/-- The result of `stat`. -/
def Lstat.result (l : Lstat) : StatResult where
  kind := l.kind
  size := l.len
  modified := l.modified.getD 0
  mode := l.mode
  uid := l.uid
  gid := l.gid
  linkTarget := if l.kind = .symlink then l.link else none

/-- `stat`; `unreadable` is the error of `from_value`. -/
def Agent.stat (unreadable : String) (params : Json) (os : Except String Lstat) :
    Except String Json :=
  match StatParams.ofJson params with
  | none => .error unreadable
  | some p =>
      match os with
      | .error e => .error ("stat " ++ p.path ++ ": " ++ e)
      | .ok l => .ok l.result.toJson

/-- `chmod`; `fault` is an error of the system. -/
def Agent.chmod (unreadable : String) (params : Json) (fault : Option String) :
    Except String Json :=
  match ChmodParams.ofJson params with
  | none => .error unreadable
  | some p =>
      match fault with
      | some e => .error ("chmod " ++ p.path ++ ": " ++ e)
      | none => .ok .null

/-! ## 2. The disk -/

/-- **The agent's disk**: the content of each regular file, whose length is an `off_t`. -/
structure AgentDisk where
  files : Files
  small : ∀ p content, files p = some content → content.length < 2 ^ 63

/-- What tokio reads of a file at once. -/
def tokioBufferBytes : Nat := 2 * 1024 * 1024

/-- One read of a healthy disk: it returns as many bytes as the buffer takes, or all there are; in a
    buffer larger than tokio's own it may return less. -/
def LongRead (content : List UInt8) (offset limit n : Nat) : Prop :=
  ∃ room, min limit tokioBufferBytes ≤ room ∧ room ≤ limit ∧ n = min room (content.length - offset)

/-- What a handler returns to `dispatch`. -/
def HandlerOutcome.ofExcept : Except String Json → HandlerOutcome
  | .ok value => .ok value
  | .error text => .err text

/-- What opening a path comes to: its file, or an error where there is none. -/
def AgentDisk.Opens (d : AgentDisk) (path : String) (opened : Except String FileContent) : Prop :=
  match d.files path with
  | some content => ∃ c : FileContent, opened = .ok c ∧ c.bytes = content
  | none => ∃ e, opened = .error e

/-- What the system says of a path: of a regular file its length. -/
def AgentDisk.Says (d : AgentDisk) (path : String) (os : Except String Lstat) : Prop :=
  (∀ content, d.files path = some content →
    ∃ l, os = .ok l ∧ l.kind = .file ∧ l.len = content.length) ∧
  ∀ l, os = .ok l → l.len < 2 ^ 63 ∧ l.result.Fits

/-- **What the handlers of an open file do**, with the parameters `params`. -/
inductive Handles (d : AgentDisk) (params : Json) :
    AgentCall → Except String Json → AgentDisk → Prop where
  | readFile {p : ReadFileParams} {opened : Except String FileContent} {n : Nat}
      (hopen : d.Opens p.path opened)
      (hread : ∀ c, opened = .ok c →
        LongRead c.bytes (p.offset.getD 0) (p.limit.getD (1024 * 1024)) n) :
      Handles d params (.readFile p) (Agent.readFile "" params ⟨opened, none, .ok n⟩) d
  | stat {p : StatParams} {os : Except String Lstat} (hos : d.Says p.path os) :
      Handles d params (.stat p) (Agent.stat "" params os) d
  | chmod {p : ChmodParams} (fault : Option String) :
      Handles d params (.chmod p) (Agent.chmod "" params fault) d
  | writeAt {p : WriteAtParams} {d' : AgentDisk}
      (hd : d'.files = (Agent.writeAt d.files p.path p.offset p.data none).1) :
      Handles d params (.writeAt p) (Agent.writeAt d.files p.path p.offset p.data none).2 d'
  | truncate {p : TruncateParams} {d' : AgentDisk}
      (hd : d'.files = (Agent.truncate d.files p.path p.size none).1) :
      Handles d params (.truncate p) (Agent.truncate d.files p.path p.size none).2 d'

/-- **The agent serves a frame**: it dispatches it, the handler runs, and the answer is sent. -/
def AgentServes (d : AgentDisk) (value answer : Json) (d' : AgentDisk) : Prop :=
  ∃ id c result, dispatched value = .call id c ∧ Handles d (requestParams value) c result d' ∧
    dispatch value (.ofExcept result) = some answer

/-- The two forms of a result. -/
def CallResult.toExcept : CallResult → Except RpcError Json
  | .ok value => .ok value
  | .err e => .error e

/-! ## 3. What the bridge reads in an answer -/

/-- What the client makes of the answer to a request: the handler's result, or its error text. -/
theorem result_of_serves {d d' : AgentDisk} {r : BridgeRequest} {c : AgentCall} {id : Nat}
    {answer : Json} (h : AgentServes d (r.frame id) answer d') (hr : r.InRange)
    (hc : r.agentCall = some c) :
    ∃ result : Except String Json, Handles d r.params c result d' ∧
      (responseResult answer).toExcept =
        result.mapError fun text => ⟨Code.internalError, text⟩ := by
  obtain ⟨i, c', result, hcall, hhandles, hanswer⟩ := h
  rw [dispatched_frame hr hc] at hcall
  cases hcall
  have hmethod : requestMethod (r.frame id) ∈ agentMethods := by
    obtain ⟨read, hread, -⟩ := handler_reads hr hc
    rw [← handlers_methods]
    exact List.mem_map_of_mem (mem_of_lookup hread)
  have hid : ((r.frame id).get "id").bind Json.asU64 = some id := rfl
  rw [dispatch, hid, Option.map_some, if_pos hmethod] at hanswer
  refine ⟨result, hhandles, ?_⟩
  cases result with
  | ok value =>
    cases hanswer
    rfl
  | error text =>
    cases hanswer
    rfl

end Relayfs

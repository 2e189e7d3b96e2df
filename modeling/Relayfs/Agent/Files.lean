/-
  File:      Relayfs/Agent/Files.lean
  Subject:   THE AGENT'S FILE HANDLERS that a transfer uses (agent/src/files.rs): `write_file`,
             `write_at`, `truncate`, `rename`, `remove`.

  The target's regular files are a map from paths to contents; directories and links are not in
  it. A call to the operating system may fail at any point: a `Fault` says where, and the text the
  system gives for it.

  * `execute` -- what a request does to the files, and the agent's answer;
  * `OnlyTouches`, `execute_frame` -- a request that names one file changes no other.
-/
import Mathlib.Algebra.Group.Nat.Defs
import Relayfs.Lib.Base64
import Relayfs.Lib.Bytes
import Relayfs.Wire.Requests

namespace Relayfs

open Lib

/-! ## 1. Files and faults -/

/-- The content of each regular file. -/
abbrev Files := String → Option (List UInt8)

/-- A call to the operating system fails: before the file is open, or in a write that has taken
    some bytes already. -/
inductive Fault where
  | opening (text : String)
  | writing (taken : Nat) (text : String)
  deriving DecidableEq, Repr

/-- The text of a fault. -/
def Fault.text : Fault → String
  | opening text | writing _ text => text

/-- `MAX_DIRECT_FILE_BYTES` of the agent. -/
def maxDirectFileBytes : Nat := 8 * 1024 * 1024

/-- `MAX_DIRECT_FILE_BASE64_BYTES`. -/
def maxDirectFileBase64Bytes : Nat := (maxDirectFileBytes + 2) / 3 * 4

/-- What is wrong with a payload (without the position a decoder would name), or its bytes. -/
def payload (data : String) : Except String (List UInt8) :=
  let tooLarge := "file data exceeds the " ++ toString maxDirectFileBytes ++ " byte maximum"
  if maxDirectFileBase64Bytes < data.utf8ByteSize then .error tooLarge
  else match Base64.decode data with
    | none => .error "invalid base64"
    | some bytes => if maxDirectFileBytes < bytes.length then .error tooLarge else .ok bytes

theorem payload_eq_ok {data : String} {bytes : List UInt8} (h : payload data = .ok bytes) :
    Base64.decode data = some bytes := by
  unfold payload at h
  dsimp only at h
  split at h
  · cases h
  · split at h
    · cases h
    · rename_i b hb
      split at h
      · cases h
      · cases h
        exact hb

/-- Data of at most `maxDirectFileBytes` passes both size checks. -/
theorem payload_encode {bytes : List UInt8} (h : bytes.length ≤ maxDirectFileBytes) :
    payload (Base64.encode bytes) = .ok bytes := by
  have htext : ¬ maxDirectFileBase64Bytes < (Base64.encode bytes).utf8ByteSize := by
    rw [Base64.utf8ByteSize_encode, maxDirectFileBase64Bytes]
    omega
  unfold payload
  dsimp only
  rw [if_neg htext, Base64.decode_encode]
  dsimp only
  rw [if_neg (Nat.not_lt.mpr h)]

/-! ## 2. Handlers -/

/-- What the operating system says of a file that is not there. -/
def notFound : String := "No such file or directory (os error 2)"

/-- The result of the two writing handlers. -/
def bytesWritten (n : Nat) : Json := .obj [("bytes_written", .nat n)]

namespace Agent

/-- `write_file`: the file is created, or emptied, and written. -/
def writeFile (files : Files) (path data : String) (fault : Option Fault) :
    Files × Except String Json :=
  match payload data with
  | .error text => (files, .error text)
  | .ok bytes =>
      match fault with
      | none => (Function.update files path (some bytes), .ok (bytesWritten bytes.length))
      | some (.opening text) => (files, .error ("create " ++ path ++ ": " ++ text))
      | some (.writing taken text) =>
          (Function.update files path (some (bytes.take taken)), .error text)

/-- `write_at`: a seek takes offsets below `2 ^ 63` only. -/
def writeAt (files : Files) (path : String) (offset : Nat) (data : String)
    (fault : Option Fault) : Files × Except String Json :=
  match payload data with
  | .error text => (files, .error text)
  | .ok bytes =>
      match files path, fault with
      | none, _ => (files, .error ("open " ++ path ++ ": " ++ notFound))
      | some _, some (.opening text) => (files, .error ("open " ++ path ++ ": " ++ text))
      | some content, fault =>
          if 2 ^ 63 ≤ offset then (files, .error "Invalid argument (os error 22)")
          else match fault with
            | none =>
                (Function.update files path (some (Lib.writeAt content offset bytes)),
                  .ok (bytesWritten bytes.length))
            | some fault =>
                let taken := match fault with
                  | .writing taken _ => taken
                  | .opening _ => 0
                (Function.update files path (some (Lib.writeAt content offset (bytes.take taken))),
                  .error fault.text)

/-- `truncate`. -/
def truncate (files : Files) (path : String) (size : Nat) (fault : Option Fault) :
    Files × Except String Json :=
  match files path, fault with
  | none, _ => (files, .error ("open " ++ path ++ ": " ++ notFound))
  | some _, some (.opening text) => (files, .error ("open " ++ path ++ ": " ++ text))
  | some _, some (.writing _ text) => (files, .error ("truncate " ++ path ++ ": " ++ text))
  | some content, none => (Function.update files path (some (resize content size)), .ok .null)

/-- `rename`. -/
def rename (files : Files) (source dest : String) (fault : Option Fault) :
    Files × Except String Json :=
  let failed (text : String) := "rename " ++ source ++ " -> " ++ dest ++ ": " ++ text
  match files source, fault with
  | none, _ => (files, .error (failed notFound))
  | some _, some fault => (files, .error (failed fault.text))
  | some content, none =>
      (Function.update (Function.update files source none) dest (some content), .ok .null)

/-- `remove`: a file is no directory to remove with all below it. -/
def remove (files : Files) (path : String) (recursive : Option Bool) (fault : Option Fault) :
    Files × Except String Json :=
  let failed (text : String) := "remove " ++ path ++ ": " ++ text
  match files path, fault with
  | none, _ => (files, .error (failed notFound))
  | some _, some fault => (files, .error (failed fault.text))
  | some _, none =>
      if recursive.getD false then (files, .error (failed "Not a directory (os error 20)"))
      else (Function.update files path none, .ok .null)

end Agent

/-- What `dispatch` makes of a handler's result. -/
def wireAnswer (r : Files × Except String Json) : Files × Except RpcError Json :=
  (r.1, r.2.mapError fun text => ⟨Code.internalError, text⟩)

/-- What the agent does with a request, and its answer; `none` for the requests that have no
    handler in this file. -/
def execute (files : Files) (req : BridgeRequest) (fault : Option Fault) :
    Option (Files × Except RpcError Json) :=
  match req with
  | .writeFile path data _ => some (wireAnswer (Agent.writeFile files path data fault))
  | .writeAt path offset data => some (wireAnswer (Agent.writeAt files path offset data fault))
  | .truncate path size => some (wireAnswer (Agent.truncate files path size fault))
  | .rename source dest => some (wireAnswer (Agent.rename files source dest fault))
  | .remove path recursive => some (wireAnswer (Agent.remove files path recursive fault))
  | _ => none

/-! ## 3. What a request touches -/

/-- The request names one file. -/
def OnlyTouches (path : String) : BridgeRequest → Prop
  | .writeFile p _ _ | .writeAt p _ _ | .truncate p _ | .remove p _ => p = path
  | _ => False

section Frame

variable {files : Files} {path q : String} {fault : Option Fault}

theorem Agent.writeFile_frame (data : String) (h : q ≠ path) :
    (Agent.writeFile files path data fault).1 q = files q := by
  unfold Agent.writeFile
  split
  · rfl
  · split
    · exact Function.update_of_ne h _ _
    · rfl
    · exact Function.update_of_ne h _ _

theorem Agent.writeAt_frame (offset : Nat) (data : String) (h : q ≠ path) :
    (Agent.writeAt files path offset data fault).1 q = files q := by
  unfold Agent.writeAt
  split
  · rfl
  · split
    · rfl
    · rfl
    · split
      · rfl
      · split
        · exact Function.update_of_ne h _ _
        · exact Function.update_of_ne h _ _

theorem Agent.truncate_frame (size : Nat) (h : q ≠ path) :
    (Agent.truncate files path size fault).1 q = files q := by
  unfold Agent.truncate
  split
  · rfl
  · rfl
  · rfl
  · exact Function.update_of_ne h _ _

theorem Agent.remove_frame (recursive : Option Bool) (h : q ≠ path) :
    (Agent.remove files path recursive fault).1 q = files q := by
  unfold Agent.remove
  dsimp only
  split
  · rfl
  · rfl
  · split
    · rfl
    · exact Function.update_of_ne h _ _

/-- **A request that names one file changes no other.** -/
theorem execute_frame {req : BridgeRequest} {r : Files × Except RpcError Json}
    (hreq : OnlyTouches path req) (h : execute files req fault = some r) (hq : q ≠ path) :
    r.1 q = files q := by
  cases req with
  | writeFile p data createDirs =>
    obtain rfl : p = path := hreq
    cases h
    exact Agent.writeFile_frame data hq
  | writeAt p offset data =>
    obtain rfl : p = path := hreq
    cases h
    exact Agent.writeAt_frame offset data hq
  | truncate p size =>
    obtain rfl : p = path := hreq
    cases h
    exact Agent.truncate_frame size hq
  | remove p recursive =>
    obtain rfl : p = path := hreq
    cases h
    exact Agent.remove_frame recursive hq
  | _ => exact absurd hreq id

/-- What REMOVE leaves of its file: nothing, or what was there. -/
theorem execute_remove_self {recursive : Option Bool} {r : Files × Except RpcError Json}
    (h : execute files (.remove path recursive) fault = some r) :
    r.1 path = none ∨ r.1 path = files path := by
  obtain rfl := Option.some.inj h
  show (Agent.remove files path recursive fault).1 path = none ∨
    (Agent.remove files path recursive fault).1 path = files path
  unfold Agent.remove
  dsimp only
  split
  · exact .inr rfl
  · exact .inr rfl
  · split
    · exact .inr rfl
    · exact .inl (Function.update_self _ _ _)

end Frame

/-! ## 4. What a positive answer says -/

section Answered

variable {files files' : Files} {fault : Option Fault} {v : Json} {path data : String}

theorem wireAnswer_eq_ok {r : Files × Except String Json}
    (h : wireAnswer r = (files', .ok v)) : r = (files', .ok v) := by
  obtain ⟨fs, answer⟩ := r
  cases answer with
  | error text => cases h
  | ok value =>
    cases h
    rfl

/-- WRITE_FILE that is answered well: the file holds the data. -/
theorem execute_writeFile_ok {createDirs : Option Bool}
    (h : execute files (.writeFile path data createDirs) fault = some (files', .ok v)) :
    ∃ bytes, Base64.decode data = some bytes ∧ files' = Function.update files path (some bytes) := by
  have h := wireAnswer_eq_ok (Option.some.inj h)
  unfold Agent.writeFile at h
  split at h
  · cases h
  · rename_i bytes hb
    split at h
    · cases h
      exact ⟨bytes, payload_eq_ok hb, rfl⟩
    · cases h
    · cases h

/-- WRITE_AT that is answered well: the data is in the file. -/
theorem execute_writeAt_ok {offset : Nat}
    (h : execute files (.writeAt path offset data) fault = some (files', .ok v)) :
    ∃ bytes content, Base64.decode data = some bytes ∧ files path = some content ∧
      offset < 2 ^ 63 ∧
      files' = Function.update files path (some (Lib.writeAt content offset bytes)) := by
  have h := wireAnswer_eq_ok (Option.some.inj h)
  unfold Agent.writeAt at h
  split at h
  · cases h
  · rename_i bytes hb
    split at h
    · cases h
    · cases h
    · rename_i content hc _ _
      split at h
      · cases h
      · rename_i hlt
        split at h
        · cases h
          exact ⟨bytes, content, payload_eq_ok hb, hc, Nat.not_le.mp hlt, rfl⟩
        · cases h

/-- TRUNCATE that is answered well: the file has the length. -/
theorem execute_truncate_ok {size : Nat}
    (h : execute files (.truncate path size) fault = some (files', .ok v)) :
    ∃ content, files path = some content ∧
      files' = Function.update files path (some (resize content size)) := by
  have h := wireAnswer_eq_ok (Option.some.inj h)
  unfold Agent.truncate at h
  split at h
  · cases h
  · cases h
  · cases h
  · rename_i content hc _
    cases h
    exact ⟨content, hc, rfl⟩

/-- RENAME: the file is moved and the answer is positive, or nothing is changed and it is an
    error. -/
theorem execute_rename {source dest : String} {r : Files × Except RpcError Json}
    (h : execute files (.rename source dest) fault = some r) :
    (∃ content, files source = some content ∧ (∃ v, r.2 = .ok v) ∧
      r.1 = Function.update (Function.update files source none) dest (some content)) ∨
    (r.1 = files ∧ ∃ e, r.2 = .error e) := by
  obtain rfl := Option.some.inj h
  unfold Agent.rename
  dsimp only
  split
  · exact .inr ⟨rfl, _, rfl⟩
  · exact .inr ⟨rfl, _, rfl⟩
  · rename_i content hc
    exact .inl ⟨content, hc, ⟨_, rfl⟩, rfl⟩

end Answered

end Relayfs

/-
  File:      Relayfs/Wire/Results.lean
  Subject:   WHAT THE TARGET ANSWERS: the result structures of the `protocol` crate that the mount
             reads, with `serde_json::from_value` of each.

  A structure is read from an object; fields it does not know are ignored, and a field of another
  type makes the whole value unreadable. The agent's own `to_value` is beside each reader, with
  the round trip.
-/
import Mathlib.Algebra.Group.Nat.Defs
import Relayfs.Wire.Json

namespace Relayfs

/-! ## 1. Readers of fields -/

namespace Json

/-- An unsigned field below `bound`. -/
def unsigned (v : Json) (key : String) (bound : Nat) : Option Nat :=
  ((v.get key).bind asU64).filter (· < bound)

/-- A text field. -/
def text (v : Json) (key : String) : Option String := (v.get key).bind asStr

/-- A flag. -/
def flag (v : Json) (key : String) : Option Bool :=
  match v.get key with
  | some (bool b) => some b
  | _ => none

/-- A text field that may be absent or `null`; the outer `none` is a value of another type. -/
def optText (v : Json) (key : String) : Option (Option String) :=
  match v.get key with
  | none | some null => some none
  | some (str s) => some (some s)
  | _ => none

end Json

/-! ## 2. Kinds -/

/-- `FileKind`. -/
inductive FileKind where
  | file
  | dir
  | symlink
  | other
  deriving DecidableEq, Repr

/-- The name of a kind on the wire. -/
def FileKind.text : FileKind → String
  | file => "file"
  | dir => "dir"
  | symlink => "symlink"
  | other => "other"

/-- The kind with a name. -/
def FileKind.ofText (s : String) : Option FileKind :=
  [file, dir, symlink, other].find? fun k => k.text = s

theorem FileKind.ofText_text (k : FileKind) : ofText k.text = some k := by
  cases k <;> decide

/-! ## 3. `stat` -/

/-- `StatResult`. -/
structure StatResult where
  kind : FileKind
  size : Nat
  modified : Nat
  mode : Nat
  uid : Nat
  gid : Nat
  linkTarget : Option String
  deriving DecidableEq, Repr

/-- `from_value` of a `StatResult`. -/
def StatResult.ofJson (v : Json) : Option StatResult := do
  let kind ← (v.text "kind").bind FileKind.ofText
  let size ← v.unsigned "size" (2 ^ 64)
  let modified ← v.unsigned "modified" (2 ^ 64)
  let mode ← v.unsigned "mode" (2 ^ 32)
  let uid ← v.unsigned "uid" (2 ^ 32)
  let gid ← v.unsigned "gid" (2 ^ 32)
  let linkTarget ← v.optText "link_target"
  return ⟨kind, size, modified, mode, uid, gid, linkTarget⟩

/-! ## 4. `read_file` -/

/-- `ReadFileResult`; `data` is base64. -/
structure ReadFileResult where
  data : String
  eof : Bool
  deriving DecidableEq, Repr

/-- `from_value` of a `ReadFileResult`. -/
def ReadFileResult.ofJson (v : Json) : Option ReadFileResult := do
  let data ← v.text "data"
  let eof ← v.flag "eof"
  return ⟨data, eof⟩

/-- `to_value` of a `ReadFileResult`. -/
def ReadFileResult.toJson (r : ReadFileResult) : Json :=
  .obj [("data", .str r.data), ("eof", .bool r.eof)]

@[simp] theorem ReadFileResult.ofJson_toJson (r : ReadFileResult) :
    ofJson r.toJson = some r := rfl

/-! ## 5. `list_dir` -/

/-- `DirEntry`. -/
structure DirEntry where
  name : String
  kind : FileKind
  size : Nat
  modified : Nat
  deriving DecidableEq, Repr

/-- `from_value` of a `DirEntry`. -/
def DirEntry.ofJson (v : Json) : Option DirEntry := do
  let name ← v.text "name"
  let kind ← (v.text "kind").bind FileKind.ofText
  let size ← v.unsigned "size" (2 ^ 64)
  let modified ← v.unsigned "modified" (2 ^ 64)
  return ⟨name, kind, size, modified⟩

/-- `to_value` of a `DirEntry`. -/
def DirEntry.toJson (e : DirEntry) : Json :=
  .obj [("name", .str e.name), ("kind", .str e.kind.text), ("size", .nat e.size),
    ("modified", .nat e.modified)]

/-- Both numbers are `u64`. -/
def DirEntry.Fits (e : DirEntry) : Prop := e.size < 2 ^ 64 ∧ e.modified < 2 ^ 64

theorem DirEntry.ofJson_toJson {e : DirEntry} (h : e.Fits) : ofJson e.toJson = some e := by
  have hkind : (e.toJson.text "kind").bind FileKind.ofText = some e.kind := e.kind.ofText_text
  have hsize : e.toJson.unsigned "size" (2 ^ 64) = some e.size :=
    Option.filter_some_pos (decide_eq_true h.1)
  have hmodified : e.toJson.unsigned "modified" (2 ^ 64) = some e.modified :=
    Option.filter_some_pos (decide_eq_true h.2)
  rw [ofJson, hkind, hsize, hmodified]
  rfl

/-- `from_value` of a `ListDirResult`, its entries. -/
def listDirEntries (v : Json) : Option (List DirEntry) :=
  match v.get "entries" with
  | some (.arr items) => items.mapM DirEntry.ofJson
  | _ => none

/-- `to_value` of a `ListDirResult`. -/
def listDirJson (entries : List DirEntry) : Json :=
  .obj [("entries", .arr (entries.map DirEntry.toJson))]

theorem listDirEntries_listDirJson {entries : List DirEntry} (h : ∀ e ∈ entries, e.Fits) :
    listDirEntries (listDirJson entries) = some entries := by
  have hall : (entries.map DirEntry.toJson).mapM DirEntry.ofJson = some entries := by
    induction entries with
    | nil => rfl
    | cons e entries ih =>
      rw [List.forall_mem_cons] at h
      rw [List.map_cons, List.mapM_cons, DirEntry.ofJson_toJson h.1, ih h.2]
      rfl
  exact hall

end Relayfs

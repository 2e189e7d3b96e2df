/-
  File:      Relayfs/Fuse/Path.lean
  Subject:   PATHS (what the mount uses of `std::path`), and the two translations from a remote
             path to its cache file.

  A path is its components: repeated slashes, a trailing slash and `.` are gone, `..` stays, as in
  `Path::components`, by which paths are compared and hashed.
-/
import Mathlib.Data.List.Infix

namespace Relayfs

/-! ## 1. Paths -/

/-- `PathBuf`. -/
structure PathBuf where
  absolute : Bool
  parts : List String
  deriving DecidableEq, Repr

/-- The texts between the slashes of a text. `word` is the text since the last slash,
    reversed. -/
def splitSlash : List Char → List Char → List String
  | word, [] => [String.ofList word.reverse]
  | word, c :: rest =>
      if c = '/' then String.ofList word.reverse :: splitSlash [] rest
      else splitSlash (c :: word) rest

namespace PathBuf

/-- `PathBuf::from`. -/
def ofText (s : String) : PathBuf where
  absolute := s.toList.head? = some '/'
  parts := (splitSlash [] s.toList).filter fun part => part ≠ "" ∧ part ≠ "."

/-- `to_string_lossy`. -/
def text (p : PathBuf) : String :=
  (if p.absolute then "/" else "") ++ "/".intercalate p.parts

/-- `join`: an absolute path replaces the base. -/
def join (base p : PathBuf) : PathBuf :=
  if p.absolute then p else ⟨base.absolute, base.parts ++ p.parts⟩

/-- `join` with a name. -/
def child (base : PathBuf) (name : String) : PathBuf := base.join (ofText name)

/-- `strip_prefix`. -/
def stripPrefix (p base : PathBuf) : Option PathBuf :=
  if p.absolute = base.absolute ∧ base.parts <+: p.parts then
    some ⟨false, p.parts.drop base.parts.length⟩
  else none

/-- What is left of a path below a base leads back to it. -/
theorem join_of_stripPrefix {p base rel : PathBuf} (h : p.stripPrefix base = some rel) :
    base.join rel = p := by
  unfold stripPrefix at h
  split at h
  · rename_i hp
    obtain ⟨habs, rest, hrest⟩ := hp
    cases h
    rw [join, if_neg Bool.false_ne_true, ← habs, ← hrest, List.drop_left, hrest]
  · cases h

/-- Two bases with one path below both are one. -/
theorem base_eq_of_join {p base base' rel : PathBuf} (h : p.stripPrefix base = some rel)
    (heq : base'.join rel = base.join rel) : base' = base := by
  have hrel : rel.absolute = false := by
    unfold stripPrefix at h
    split at h
    · cases h
      rfl
    · cases h
  rw [join, join, if_neg (by rw [hrel]; exact Bool.false_ne_true),
    if_neg (by rw [hrel]; exact Bool.false_ne_true)] at heq
  obtain ⟨habs, hparts⟩ := PathBuf.mk.inj heq
  cases base
  cases base'
  exact PathBuf.mk.injEq .. ▸ ⟨habs, List.append_cancel_right hparts⟩

/-- `file_name`: the last component, if it is a name. -/
def fileName (p : PathBuf) : Option String := p.parts.getLast?.filter (· ≠ "..")

/-- `parent`. -/
def parent (p : PathBuf) : Option PathBuf :=
  if p.parts = [] then none else some ⟨p.absolute, p.parts.dropLast⟩

/-- A path and the directories on the way to it. -/
def ancestors (p : PathBuf) : List PathBuf :=
  (List.range (p.parts.length + 1)).map fun n => ⟨p.absolute, p.parts.take n⟩

end PathBuf

/-! ## 2. Cache files -/

/-- What `RemoteFs` and its background tasks know of their mount. -/
structure MountCfg where
  readOnly : Bool
  remoteDir : PathBuf
  cacheDir : PathBuf
  deriving DecidableEq, Repr

/-- `RemoteFs::cache_path`. -/
def MountCfg.cachePath (cfg : MountCfg) (remote : PathBuf) : PathBuf :=
  match remote.stripPrefix cfg.remoteDir with
  | some rel => cfg.cacheDir.join rel
  | none => cfg.cacheDir.child (remote.fileName.getD "")

/-- The cache file `flusher_loop` opens for a path. -/
def MountCfg.flushPath (cfg : MountCfg) (remote : PathBuf) : PathBuf :=
  match remote.stripPrefix cfg.remoteDir with
  | some rel => cfg.cacheDir.join rel
  | none => cfg.cacheDir.join remote

/-- Below the mounted directory the two are one file. -/
theorem flushPath_eq {cfg : MountCfg} {remote : PathBuf}
    (h : (remote.stripPrefix cfg.remoteDir).isSome) :
    cfg.flushPath remote = cfg.cachePath remote := by
  obtain ⟨rel, hrel⟩ := Option.isSome_iff_exists.mp h
  simp only [MountCfg.flushPath, MountCfg.cachePath, hrel]

end Relayfs

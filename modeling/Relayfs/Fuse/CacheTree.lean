/-
  File:      Relayfs/Fuse/CacheTree.lean
  Subject:   THE CACHE DIRECTORY OF A WRITABLE MOUNT, as a tree of entries: is every queued range
             in the cache file that the flusher will open for it?

  Of a file the tree keeps its size. The target answers anything.

  * `CacheTree`, `treeSem` -- the tree, and what the effects do to it;
  * `TreeStep` -- requests, each to its end, prefetches and steps of the flusher;
  * `Queued` -- the invariant: every pending byte lies in the cache file of its path;
  * `LeavesQueued` -- the steps that keep it: nothing is pending for a file that is created, nor
    below a directory that is renamed;
  * `queued_ranges_readable` -- runs of such steps; `create_strands_range` -- a step that is none.
-/
import Relayfs.Fuse.Inodes
import Relayfs.Fuse.Reading

namespace Relayfs

open Lib Background

/-! ## 1. The tree -/

inductive CacheNode where
  | file (size : Nat)
  | dir
  | link (target : String)
  deriving DecidableEq, Repr

/-- The entry of each path of the cache directory's file system. -/
structure CacheTree where
  node : PathBuf → Option CacheNode

/-- A path lies below another one, or is it. -/
def PathBuf.Below (p base : PathBuf) : Prop := (p.stripPrefix base).isSome

instance PathBuf.below_decidable (p base : PathBuf) : Decidable (p.Below base) :=
  inferInstanceAs (Decidable (_ = true))

namespace CacheTree

variable (s : CacheTree)

/-- Set one entry. -/
def put (p : PathBuf) (n : Option CacheNode) : CacheTree := ⟨Function.update s.node p n⟩

/-- There is a file. -/
def isFile (p : PathBuf) : Bool :=
  match s.node p with
  | some (.file _) => true
  | _ => false

/-- A new entry can be made: there is none, and its directory is there. -/
def free (p : PathBuf) : Bool := s.node p = none && (p.parent.bind s.node) = some .dir

/-- The size of a file; 0 where there is none. -/
def size (p : PathBuf) : Nat :=
  match s.node p with
  | some (.file size) => size
  | _ => 0

/-- `create_dir_all`: nothing happens where something else than a directory is on the way. -/
def makeDirs (p : PathBuf) : CacheTree :=
  if p.ancestors.all fun q => s.node q = none ∨ s.node q = some .dir then
    ⟨fun q => if q ∈ p.ancestors then some .dir else s.node q⟩
  else s

/-- A write to a file of one path; the open makes the file. -/
def write (p : PathBuf) (offset len : Nat) : CacheTree :=
  s.put p (some (.file (if len = 0 then s.size p else max (s.size p) (offset + len))))

/-- Nothing is below a path. -/
def Bare (p : PathBuf) : Prop := ∀ q, q ≠ p → q.Below p → s.node q = none

/-- Move a directory with all that is below it. -/
def moveDir (source dest : PathBuf) : CacheTree :=
  ⟨fun q => match q.stripPrefix dest with
    | some rel => s.node (source.join rel)
    | none => if q.Below source then none else s.node q⟩

/-- Whether `rename` moves a file or a link: what is at the new path is no directory. -/
def RenamesFile (source dest : PathBuf) : Prop :=
  source ≠ dest ∧ s.node source ≠ none ∧ s.node source ≠ some .dir ∧
    (s.free dest = true ∨ (s.node dest ≠ none ∧ s.node dest ≠ some .dir))

/-- Whether `rename` moves a directory: not into itself, and only onto an empty one. -/
def RenamesDir (source dest : PathBuf) : Prop :=
  source ≠ dest ∧ s.node source = some .dir ∧ ¬ dest.Below source ∧
    (s.free dest = true ∨ s.node dest = some .dir) ∧ s.Bare dest

end CacheTree

/-! ## 2. What the effects do -/

/-- **The meaning of the effects for the cache tree**, where no operation on it fails for another
    reason than its entries. Effects that no handler here performs have no meaning. -/
def treeSem : EnvSem CacheTree
  | .call _, s, _, t | .setPermissions _ _, s, _, t | .readDir _, s, _, t
  | .addRow _, s, _, t => t = s
  | .createDirAll p, s, _, t => t = s.makeDirs p
  | .symlinkMetadata p, s, a, t => t = s ∧ (Option.isSome a ↔ s.node p ≠ none)
  | .fileLen p, s, a, t =>
      t = s ∧ (s.node p = none → a = none) ∧ ∀ size, s.node p = some (.file size) → a = some size
  | .readAt p offset len, s, a, t =>
      t = s ∧ (Option.isSome a ↔ s.isFile p) ∧
        ∀ bytes, a = some bytes → List.length bytes = min len (s.size p - offset)
  | .readLink p, s, a, t => t = s ∧ ∀ target, a = some target ↔ s.node p = some (.link target)
  | .writeAt p offset data, s, a, t =>
      a = (s.isFile p || s.free p) ∧
        t = if s.isFile p || s.free p then s.write p offset data.length else s
  | .setLen p size, s, _, t => t = if s.isFile p then s.put p (some (.file size)) else s
  | .createFile p, s, _, t =>
      t = if s.isFile p || s.free p then s.put p (some (.file 0)) else s
  | .removeFile p, s, _, t => t = if s.node p = some .dir then s else s.put p none
  | .removeDir p, s, _, t =>
      (s.node p = some .dir ∧ s.Bare p → t = s.put p none) ∧
        (¬ (s.node p = some .dir ∧ s.Bare p) → t = s)
  | .symlinkFile target p, s, _, t => t = if s.free p then s.put p (some (.link target)) else s
  | .renameFile source dest, s, _, t =>
      (s.RenamesFile source dest → t = (s.put dest (s.node source)).put source none) ∧
        (s.RenamesDir source dest → t = s.moveDir source dest) ∧
        (¬ s.RenamesFile source dest → ¬ s.RenamesDir source dest → t = s)
  | _, _, _, _ => False

/-! ## 3. Runs -/

/-- The path of a directory's child. -/
def InodeMap.childOf (m : InodeMap) (parent : Nat) (name : String) : List PathBuf :=
  (m.childPath parent name).2.toList

/-- The paths that a request is about. -/
def KernelRequest.paths (m : InodeMap) : KernelRequest → List PathBuf
  | .lookup parent name | .mknod parent name _ | .mkdir parent name _ | .unlink parent name
  | .rmdir parent name | .symlink parent name _ | .create parent name _ => m.childOf parent name
  | .rename parent name newparent newname =>
      m.childOf parent name ++ (m.childPath parent name).1.childOf newparent newname
  | .getattr ino | .setattr ino _ _ | .readlink ino | .read ino _ _ | .write ino _ _ | .flush ino
  | .release ino | .fsync ino | .readdir ino _ => (m.path ino).toList
  | _ => []

/-- The request opens a file of the cache. -/
def KernelRequest.opens : KernelRequest → Bool
  | .setattr .. | .mknod .. | .read .. | .write .. | .create .. => true
  | _ => false

/-- **The kernel names a file by its own path**: below the mounted directory, without `..`, and
    through no symbolic link. It follows links itself, so that none is opened. -/
structure Named (cfg : MountCfg) (tree : CacheTree) (opens : Bool) (p : PathBuf) : Prop where
  below : p.Below cfg.remoteDir
  plain : ".." ∉ p.parts.drop cfg.remoteDir.parts.length
  direct : ∀ q ∈ (cfg.cachePath p).ancestors, q ≠ cfg.cachePath p ∨ opens = true →
    ∀ target, tree.node q ≠ some (.link target)

/-- The events of a mount whose mirror is not running. -/
def FromKernel (cfg : MountCfg) (s : Mount CacheTree) : MountEvent → Prop
  | .request r => ∀ p ∈ r.paths s.inodes, Named cfg s.env r.opens p
  | .prefetch _ | .flush => True
  | .sync => False

/-- **One step.** -/
def TreeStep (cfg : MountCfg) (s : Mount CacheTree) (e : MountEvent) (t : Mount CacheTree) : Prop :=
  FromKernel cfg s e ∧ MountStep cfg treeSem s e t

abbrev TreeRun (cfg : MountCfg) (hist : List (Mount CacheTree × MountEvent))
    (s : Mount CacheTree) : Prop :=
  Run (MountInit cfg) (TreeStep cfg) hist s

/-- **Every queued range is there to be sent**: the cache file that the flusher opens for its path
    exists and reaches to its end, so that the flusher reads all of it. -/
def QueuedReadable (cfg : MountCfg) (s : Mount CacheTree) : Prop :=
  ∀ p, ∀ r ∈ row s.uploads.st.dirty p ++ row s.uploads.st.inflight p,
    (∃ size, s.env.node (cfg.flushPath p) = some (.file size) ∧ r.2 ≤ size) ∧
    ∀ a t, treeSem (.readAt (cfg.flushPath p) r.1 (r.2 - r.1)) s.env a t →
      ∃ bytes, a = some bytes ∧ List.length bytes = r.2 - r.1

/-- **The condition.** Nothing is pending for a file that `mknod` or `create` empties, nor below a
    path that is renamed. -/
def LeavesQueued (s : Mount CacheTree) : MountEvent → Prop
  | .request (.mknod parent name _) | .request (.create parent name _) =>
      ∀ p ∈ s.inodes.childOf parent name, ∀ x, ¬ s.uploads.Pending p x
  | .request (.rename parent name _ _) =>
      ∀ source ∈ s.inodes.childOf parent name, ∀ p x, p ≠ source → p.Below source →
        ¬ s.uploads.Pending p x
  | _ => True

/-! ## 4. The invariant -/

/-- A byte of a file. -/
def CacheTree.Holds (s : CacheTree) (p : PathBuf) (x : Nat) : Prop :=
  ∃ size, s.node p = some (.file size) ∧ x < size

/-- **The invariant**: every pending byte lies in the cache file of its path. -/
structure Queued (cfg : MountCfg) (s : Mount CacheTree) : Prop where
  queue : CfgInv s.uploads
  below : ∀ p x, s.uploads.Pending p x → p.Below cfg.remoteDir
  held : ∀ p x, s.uploads.Pending p x → s.env.Holds (cfg.cachePath p) x

/-! Cache files of paths below the mounted directory. -/

section Paths

variable {cfg : MountCfg} {p q : PathBuf}

theorem PathBuf.below_iff {base : PathBuf} :
    p.Below base ↔ p.absolute = base.absolute ∧ base.parts <+: p.parts := by
  unfold PathBuf.Below PathBuf.stripPrefix
  split
  · rename_i h
    exact iff_of_true rfl h
  · rename_i h
    exact iff_of_false Bool.false_ne_true h

/-- The path of a cache file is that of its file, with another base. -/
theorem cachePath_below (hp : p.Below cfg.remoteDir) : ∃ rest,
    p = ⟨cfg.remoteDir.absolute, cfg.remoteDir.parts ++ rest⟩ ∧
      cfg.cachePath p = ⟨cfg.cacheDir.absolute, cfg.cacheDir.parts ++ rest⟩ := by
  obtain ⟨habs, rest, hrest⟩ := PathBuf.below_iff.mp hp
  have hstrip : p.stripPrefix cfg.remoteDir = some ⟨false, rest⟩ := by
    rw [PathBuf.stripPrefix, if_pos ⟨habs, rest, hrest⟩, ← hrest, List.drop_left]
  refine ⟨rest, ?_, ?_⟩
  · rw [← habs, hrest]
  · rw [MountCfg.cachePath, hstrip]
    rfl

/-- Two files have two cache files. -/
theorem cachePath_inj (hp : p.Below cfg.remoteDir) (hq : q.Below cfg.remoteDir)
    (h : cfg.cachePath p = cfg.cachePath q) : p = q := by
  obtain ⟨rest, rfl, hcp⟩ := cachePath_below hp
  obtain ⟨rest', rfl, hcq⟩ := cachePath_below hq
  rw [hcp, hcq, PathBuf.mk.injEq] at h
  rw [List.append_cancel_left h.2]

/-- Files below each other have cache files below each other. -/
theorem below_of_cachePath (hp : p.Below cfg.remoteDir) (hq : q.Below cfg.remoteDir)
    (h : (cfg.cachePath p).Below (cfg.cachePath q)) : p.Below q := by
  obtain ⟨rest, rfl, hcp⟩ := cachePath_below hp
  obtain ⟨rest', rfl, hcq⟩ := cachePath_below hq
  rw [hcp, hcq, PathBuf.below_iff] at h
  have hrest : rest' <+: rest := (List.prefix_append_right_inj _).mp h.2
  exact PathBuf.below_iff.mpr ⟨rfl, (List.prefix_append_right_inj _).mpr hrest⟩

end Paths

/-! What the effects do to files. -/

namespace CacheTree

variable {s t : CacheTree} {p q : PathBuf} {x : Nat}

/-- The files of one tree are in another one, with all their bytes. -/
def Keeps (s t : CacheTree) : Prop := ∀ q x, s.Holds q x → t.Holds q x

theorem Keeps.refl (s : CacheTree) : s.Keeps s := fun _ _ h => h

theorem holds_put_of_ne {n : Option CacheNode} (h : q ≠ p) :
    (s.put p n).Holds q x ↔ s.Holds q x := by
  show (∃ size, Function.update s.node p n q = _ ∧ _) ↔ _
  rw [Function.update_of_ne h]
  rfl

/-- An entry that is no file can be replaced. -/
theorem keeps_put {n : Option CacheNode} (h : s.isFile p = false) : s.Keeps (s.put p n) := by
  intro q x hq
  by_cases hqp : q = p
  · subst hqp
    obtain ⟨size, hnode, -⟩ := hq
    rw [isFile, hnode] at h
    cases h
  · exact (holds_put_of_ne hqp).mpr hq

theorem isFile_of_free (h : s.free p = true) : s.isFile p = false := by
  rw [free, Bool.and_eq_true, decide_eq_true_eq] at h
  rw [isFile, h.1]

theorem keeps_makeDirs : s.Keeps (s.makeDirs p) := by
  intro q x hq
  unfold makeDirs
  split
  · rename_i hall
    obtain ⟨size, hnode, hx⟩ := hq
    refine ⟨size, ?_, hx⟩
    dsimp only
    split
    · -- what is on the way is no file
      rename_i hmem
      have hdir := List.all_eq_true.mp hall q hmem
      rw [hnode, decide_eq_true_eq] at hdir
      rcases hdir with hdir | hdir <;> cases hdir
    · exact hnode
  · exact hq

/-- A write only makes files larger. -/
theorem keeps_write (offset len : Nat) : s.Keeps (s.write p offset len) := by
  intro q x hq
  by_cases hqp : q = p
  · subst hqp
    obtain ⟨size, hnode, hx⟩ := hq
    refine ⟨_, Function.update_self .., ?_⟩
    rw [CacheTree.size, hnode]
    split
    · exact hx
    · exact lt_of_lt_of_le hx (le_max_left _ _)
  · exact (holds_put_of_ne hqp).mpr hq

/-- What was written is there. -/
theorem holds_write {offset len : Nat} (h : offset ≤ x) (hx : x < offset + len) :
    (s.write p offset len).Holds p x := by
  have hlen : len ≠ 0 := by omega
  refine ⟨_, Function.update_self .., ?_⟩
  rw [if_neg hlen]
  exact lt_of_lt_of_le hx (le_max_right _ _)

end CacheTree

/-- The effects that make, move and remove no file. -/
def Gentle : Effect → Prop
  | .enqueue _ _ _ | .finish _ _ _ | .setLen _ _ | .createFile _ | .removeFile _
  | .renameFile _ _ => False
  | _ => True

theorem reading_gentle (e : Effect) (h : Reading e) : Gentle e := by
  cases e with
  | enqueue | finish | setLen | createFile | removeFile | renameFile => exact absurd h id
  | _ => trivial

/-- **A gentle effect keeps the files.** -/
theorem gentle_keeps {e : Effect} {a : Answer e} {s t : CacheTree} (he : Gentle e)
    (h : treeSem e s a t) : s.Keeps t := by
  cases e with
  | call | setPermissions | readDir | addRow =>
    obtain rfl : t = s := h
    exact .refl t
  | symlinkMetadata | fileLen | readAt | readLink =>
    obtain rfl : t = s := h.1
    exact .refl t
  | createDirAll p =>
    obtain rfl : t = _ := h
    exact CacheTree.keeps_makeDirs
  | writeAt p offset data =>
    obtain ⟨-, rfl⟩ := h
    split
    · exact CacheTree.keeps_write _ _
    · exact .refl s
  | removeDir p =>
    by_cases hbare : s.node p = some .dir ∧ s.Bare p
    · obtain rfl := h.1 hbare
      refine CacheTree.keeps_put ?_
      rw [CacheTree.isFile, hbare.1]
    · obtain rfl := h.2 hbare
      exact .refl t
  | symlinkFile target p =>
    obtain rfl : t = _ := h
    split
    · rename_i hfree
      exact CacheTree.keeps_put (CacheTree.isFile_of_free hfree)
    · exact .refl s
  | setLen | createFile | removeFile | renameFile => exact absurd he id
  | _ => exact absurd h id

/-! ## 5. The flusher -/

section Steps

variable {cfg : MountCfg} {s t u : Mount CacheTree}

/-- A state of the same mount with the invariant, and with no more pending than before. -/
structure Flushed (cfg : MountCfg) (s t : Mount CacheTree) : Prop where
  queued : Queued cfg t
  pending : ∀ p x, t.uploads.Pending p x → s.uploads.Pending p x

theorem Flushed.refl (h : Queued cfg s) : Flushed cfg s s := ⟨h, fun _ _ hx => hx⟩

theorem Flushed.trans (h : Flushed cfg s t) (h' : Flushed cfg t u) : Flushed cfg s u :=
  ⟨h'.queued, fun p x hx => h.pending p x (h'.pending p x hx)⟩

/-- The tree changes. -/
theorem Queued.withEnv (h : Queued cfg s) {env : CacheTree} (sent : List BridgeRequest)
    (hkeep : ∀ p x, s.uploads.Pending p x → s.env.Holds (cfg.cachePath p) x →
      env.Holds (cfg.cachePath p) x) :
    Flushed cfg s { s with sent := sent, env := env } where
  queued := { h with held := fun p x hx => hkeep p x hx (h.held p x hx) }
  pending _ _ hx := hx

/-- The queue takes a step that enqueues nothing. -/
theorem Queued.withQueue (h : Queued cfg s) {op : QueueOp PathBuf} (hok : s.uploads.permits op)
    (hop : ∀ p start stop, op ≠ .enqueue p start stop) :
    Flushed cfg s { s with uploads := s.uploads.next op } := by
  have hpending : ∀ p x, (s.uploads.next op).Pending p x → s.uploads.Pending p x := by
    intro p x hx
    rcases h.queue.pending_of_step ⟨hok, rfl⟩ hx with hx | ⟨start, stop, heq, -⟩
    · exact hx
    · exact absurd heq (hop p start stop)
  exact
    { queued :=
        { queue := h.queue.step ⟨hok, rfl⟩
          below := fun p x hx => h.below p x (hpending p x hx)
          held := fun p x hx => h.held p x (hpending p x hx) }
      pending := hpending }

/-- A range is enqueued that is in its file. -/
theorem Queued.enqueue (h : Queued cfg s) {path : PathBuf} {start stop : Nat}
    (hok : s.uploads.permits (.enqueue path start stop)) (hpath : path.Below cfg.remoteDir)
    (hheld : ∀ x, start ≤ x → x < stop → s.env.Holds (cfg.cachePath path) x) :
    Queued cfg { s with uploads := s.uploads.next (.enqueue path start stop) } := by
  have hcases : ∀ p x, (s.uploads.next (.enqueue path start stop)).Pending p x →
      s.uploads.Pending p x ∨ (p = path ∧ start ≤ x ∧ x < stop) := by
    intro p x hx
    rcases h.queue.pending_of_step ⟨hok, rfl⟩ hx with hx | ⟨start', stop', heq, hin⟩
    · exact .inl hx
    · cases heq
      exact .inr ⟨rfl, hin⟩
  refine ⟨h.queue.step ⟨hok, rfl⟩, fun p x hx => ?_, fun p x hx => ?_⟩
  · rcases hcases p x hx with hx | ⟨rfl, -⟩
    · exact h.below p x hx
    · exact hpath
  · rcases hcases p x hx with hx | ⟨rfl, hstart, hstop⟩
    · exact h.held p x hx
    · exact hheld x hstart hstop

/-- A send task only looks at the tree. -/
theorem Queued.send (h : Queued cfg s) {path : PathBuf} {range : Range}
    (hx : Prog.Exec (stepSem treeSem) (sendPiece cfg path range) s () t) : Flushed cfg s t := by
  have hfinish : ∀ {v : Mount CacheTree} {outcome : SendOutcome}, Flushed cfg s v →
      Prog.Exec (stepSem treeSem) (FsProg.finish path range outcome) v () t →
      Flushed cfg s t := by
    intro v outcome hv hx
    obtain ⟨hok, now, rfl⟩ := Prog.exec_perform.mp hx
    exact hv.trans (hv.queued.withQueue hok nofun)
  obtain ⟨bytes, v, hread, hx⟩ := Prog.exec_bind.mp hx
  obtain ⟨env', ⟨rfl, -⟩, rfl⟩ := Prog.exec_perform.mp hread
  cases hfull : Option.filter (fun b => decide (List.length b = range.2 - range.1)) bytes with
  | none =>
    simp only [hfull] at hx
    exact hfinish (.refl h) hx
  | some data =>
    simp only [hfull] at hx
    obtain ⟨answer, w, hcall, hx⟩ := Prog.exec_bind.mp hx
    obtain ⟨env', hsame, rfl⟩ := Prog.exec_perform.mp hcall
    obtain rfl : env' = s.env := hsame
    exact hfinish (h.withEnv _ fun _ _ _ hb => hb) hx

theorem Queued.flusher (h : Queued cfg s) (hs : FlusherStep cfg treeSem s t) :
    Flushed cfg s t := by
  cases hs with
  | claim _ now paths hok => exact h.withQueue hok nofun
  | send _ _ hx => exact h.send hx

theorem Queued.flushes (h : Queued cfg s) (hs : Flushes cfg treeSem s t) : Flushed cfg s t := by
  induction hs with
  | refl => exact .refl h
  | step _ hs ih => exact ih.trans (ih.queued.flusher hs)

/-! ## 6. Handlers -/

/-- **What a gentle effect does to the mount.** -/
theorem Queued.gentle (h : Queued cfg s) {e : Effect} {a : Answer e} (he : Gentle e)
    (hx : mountSem cfg treeSem e s a t) : Flushed cfg s t := by
  cases e with
  | waitBelow cap => exact h.flushes hx.1
  | waitDrain paths => exact h.flushes hx.1
  | enqueue | finish => exact absurd he id
  | kickPrefetch p =>
    obtain rfl : t = _ := hx
    split
    · exact .refl h
    · exact ⟨{ h with }, fun _ _ hx => hx⟩
  | prefetchDone p =>
    obtain rfl : t = _ := hx
    exact ⟨{ h with }, fun _ _ hx => hx⟩
  | pathFor ino =>
    obtain ⟨-, rfl⟩ := hx
    exact .refl h
  | childPath parent name =>
    obtain ⟨-, rfl⟩ := hx
    exact ⟨{ h with }, fun _ _ hx => hx⟩
  | inoForPath p =>
    obtain ⟨-, rfl⟩ := hx
    exact ⟨{ h with }, fun _ _ hx => hx⟩
  | call req =>
    obtain ⟨env', hsame, rfl⟩ := hx
    obtain rfl : env' = s.env := hsame
    exact h.withEnv _ fun _ _ _ hb => hb
  | _ =>
    obtain ⟨env', henv, rfl⟩ := hx
    exact h.withEnv _ fun p x _ hb => gentle_keeps he henv _ _ hb

theorem Queued.gentleExec (h : Queued cfg s) {α : Type} {p : FsProg α} {a : α}
    (hp : p.Only Gentle) (hx : p.Exec (mountSem cfg treeSem) s a t) : Flushed cfg s t := by
  refine Prog.wp_iff_exec.mp (Prog.wp_of_only (I := fun v => Flushed cfg s v) ?_ hp (.refl h)) a t
    hx
  intro e u b v he hI hu
  exact hI.trans (hI.queued.gentle he hu)

/-- The entry of a file changes for which nothing is pending. -/
theorem Queued.put (h : Queued cfg s) {path : PathBuf} (hpath : path.Below cfg.remoteDir)
    (hidle : ∀ x, ¬ s.uploads.Pending path x) (n : Option CacheNode) :
    Flushed cfg s { s with env := s.env.put (cfg.cachePath path) n } := by
  refine h.withEnv _ fun p x hx hb => ?_
  have hne : cfg.cachePath p ≠ cfg.cachePath path := by
    intro heq
    obtain rfl := cachePath_inj (h.below p x hx) hpath heq
    exact hidle x hx
  exact (CacheTree.holds_put_of_ne hne).mpr hb

open RemoteFs Prog

theorem gentle_rpc (req : BridgeRequest) : Only Gentle (rpc req) := only_rpc trivial

theorem gentle_replyAttr (cfg : MountCfg) (path : PathBuf) (reply : FileAttr → Reply) :
    Only Gentle (replyAttr cfg path reply) := (reading_replyAttr cfg path reply).mono reading_gentle

/-- A drain that ends well leaves nothing of its paths. -/
theorem Queued.drain (h : Queued cfg s) {paths : List PathBuf} {a : Except Errno Unit}
    (hx : Exec (mountSem cfg treeSem) (drainUploads paths) s a t) :
    Flushed cfg s t ∧ (a = .ok () → Idle t.uploads paths) := by
  refine ⟨h.gentleExec (only_drainUploads trivial) hx, ?_⟩
  intro heq'
  subst heq'
  unfold drainUploads at hx
  split at hx
  · rename_i hnil
    rw [hnil]
    exact fun p hp => absurd hp List.not_mem_nil
  · obtain ⟨-, ⟨-, hidle⟩ | ⟨heq, -⟩⟩ := exec_perform.mp hx
    · exact hidle
    · cases heq

/-- **`setattr` with a size**: the queue is drained before the cache file takes the size. -/
theorem Queued.setSize (h : Queued cfg s) {path : PathBuf} (hpath : path.Below cfg.remoteDir)
    {size : Option Nat} {a : Except Errno Unit}
    (hx : Exec (mountSem cfg treeSem) (setSize cfg path size) s a t) : Queued cfg t := by
  cases size with
  | none =>
    obtain ⟨-, rfl⟩ := exec_pure.mp hx
    exact h
  | some size =>
    obtain ⟨drained, u, hdrain, hx⟩ := exec_bind.mp hx
    obtain ⟨hu, hidle⟩ := h.drain hdrain
    cases drained with
    | error e =>
      obtain ⟨-, rfl⟩ := exec_pure.mp hx
      exact hu.queued
    | ok _ =>
      have hnone := (hidle rfl).not_pending List.mem_cons_self
      obtain ⟨v, w, hrpc, hx⟩ := exec_bind.mp hx
      have hw := hu.queued.gentleExec (gentle_rpc _) hrpc
      obtain ⟨_, z, hlen, hx⟩ := exec_bind.mp hx
      obtain ⟨-, rfl⟩ := exec_pure.mp hx
      obtain ⟨env', rfl, rfl⟩ := exec_perform.mp hlen
      split
      · exact (hw.queued.put hpath (fun x hp => hnone x (hw.pending path x hp)) _).queued
      · exact hw.queued

theorem Queued.setattr (h : Queued cfg s) {ino : Nat} {mode size : Option Nat} {reply : Reply}
    (hpath : ∀ p, s.inodes.path ino = some p → p.Below cfg.remoteDir)
    (hx : Exec (mountSem cfg treeSem) (setattr cfg ino mode size) s reply t) : Queued cfg t := by
  obtain ⟨path, u, hino, hx⟩ := exec_bind.mp hx
  obtain ⟨rfl, rfl⟩ := exec_perform.mp hino
  cases hp : u.inodes.path ino with
  | none =>
    rw [hp] at hx
    obtain ⟨-, rfl⟩ := exec_pure.mp hx
    exact h
  | some path =>
    rw [hp] at hx
    obtain ⟨sized, v, hsize, hx⟩ := exec_bind.mp hx
    have hv := h.setSize (hpath path hp) hsize
    have hmode : Only Gentle (setMode cfg path mode) := by
      cases mode with
      | none => exact only_pure _
      | some mode => exact (gentle_rpc _).bind fun _ => only_perform.mpr trivial
    cases sized with
    | error e =>
      obtain ⟨-, rfl⟩ := exec_pure.mp hx
      exact hv
    | ok _ =>
      exact (hv.gentleExec (hmode.bind fun _ => gentle_replyAttr cfg path .attr) hx).queued

/-- A handler about a child goes on with its path. -/
theorem Queued.child (h : Queued cfg s) {parent : Nat} {name : String}
    {f : Option PathBuf → FsProg Reply} {reply : Reply}
    (hx : Exec (mountSem cfg treeSem) (FsProg.childPath parent name >>= f) s reply t)
    (hnone : f none = pure (.error .enoent))
    (hsome : ∀ u, Queued cfg u → u.uploads = s.uploads → ∀ path ∈ s.inodes.childOf parent name,
      Exec (mountSem cfg treeSem) (f (some path)) u reply t → Queued cfg t) : Queued cfg t := by
  obtain ⟨path, u, hchild, hx⟩ := exec_bind.mp hx
  obtain ⟨hpath, rfl⟩ := exec_perform.mp hchild
  have hu : Queued cfg { s with inodes := (s.inodes.childPath parent name).1 } := { h with }
  cases path with
  | none =>
    rw [hnone] at hx
    obtain ⟨-, rfl⟩ := exec_pure.mp hx
    exact hu
  | some path => exact hsome _ hu rfl path (Option.mem_toList.mpr hpath.symm) hx

/-- **`unlink`**: the queue is drained before the cache file is removed. -/
theorem Queued.unlink (h : Queued cfg s) {parent : Nat} {name : String} {reply : Reply}
    (hpath : ∀ p ∈ s.inodes.childOf parent name, p.Below cfg.remoteDir)
    (hx : Exec (mountSem cfg treeSem) (unlink cfg parent name) s reply t) : Queued cfg t := by
  refine h.child hx rfl fun u hu _ path hp hx => ?_
  dsimp only at hx
  split at hx
  · obtain ⟨-, rfl⟩ := exec_pure.mp hx
    exact hu
  · obtain ⟨drained, v, hdrain, hx⟩ := exec_bind.mp hx
    obtain ⟨hv, hidle⟩ := hu.drain hdrain
    cases drained with
    | error e =>
      obtain ⟨-, rfl⟩ := exec_pure.mp hx
      exact hv.queued
    | ok _ =>
      obtain ⟨_, w, hremove, hx⟩ := exec_bind.mp hx
      obtain ⟨env', rfl, rfl⟩ := exec_perform.mp hremove
      refine (Queued.gentleExec ?_ ((gentle_rpc _).bind fun _ => only_pure _) hx).queued
      split
      · exact hv.queued
      · exact (hv.queued.put (hpath path hp) ((hidle rfl).not_pending List.mem_cons_self) _).queued

/-- **The rename in the cache**, with both paths idle and nothing pending below the old one. -/
theorem Queued.renameFile (h : Queued cfg s) {source dest : PathBuf} {env : CacheTree}
    (hsource : source.Below cfg.remoteDir) (hdest : dest.Below cfg.remoteDir)
    (hnone₁ : ∀ x, ¬ s.uploads.Pending source x) (hnone₂ : ∀ x, ¬ s.uploads.Pending dest x)
    (hbelow : ∀ p x, p ≠ source → p.Below source → ¬ s.uploads.Pending p x)
    (hx : treeSem (.renameFile (cfg.cachePath source) (cfg.cachePath dest)) s.env () env) :
    Queued cfg { s with env := env } := by
  obtain ⟨hfile, hdir, hsame⟩ := hx
  by_cases hf : s.env.RenamesFile (cfg.cachePath source) (cfg.cachePath dest)
  · obtain rfl := hfile hf
    have hmid := h.put hdest hnone₂ (s.env.node (cfg.cachePath source))
    exact (hmid.queued.put hsource hnone₁ none).queued
  · by_cases hd : s.env.RenamesDir (cfg.cachePath source) (cfg.cachePath dest)
    · obtain rfl := hdir hd
      obtain ⟨-, -, -, -, hbare⟩ := hd
      refine (h.withEnv s.sent fun p x hp hb => ?_).queued
      have hpb := h.below p x hp
      obtain ⟨size, hnode, hsize⟩ := hb
      refine ⟨size, ?_, hsize⟩
      -- the file is neither below the new path nor below the old one
      have hnew : (cfg.cachePath p).stripPrefix (cfg.cachePath dest) = none := by
        rw [← Option.not_isSome_iff_eq_none]
        intro hin
        have hne : cfg.cachePath p ≠ cfg.cachePath dest := by
          intro heq
          obtain rfl := cachePath_inj hpb hdest heq
          exact hnone₂ x hp
        rw [hbare _ hne hin] at hnode
        cases hnode
      have hold : ¬ (cfg.cachePath p).Below (cfg.cachePath source) := by
        intro hin
        by_cases heq : p = source
        · subst heq
          exact hnone₁ x hp
        · exact hbelow p x heq (below_of_cachePath hpb hsource hin) hp
      rw [CacheTree.moveDir]
      dsimp only
      rw [hnew]
      dsimp only
      rw [if_neg hold]
      exact hnode
    · obtain rfl := hsame hf hd
      exact h

/-- **`rename`** where nothing is pending below the old path. -/
theorem Queued.renamePaths (h : Queued cfg s) {source dest : PathBuf} {reply : Reply}
    (hsource : source.Below cfg.remoteDir) (hdest : dest.Below cfg.remoteDir)
    (hbelow : ∀ p x, p ≠ source → p.Below source → ¬ s.uploads.Pending p x)
    (hx : Exec (mountSem cfg treeSem) (renamePaths cfg source dest) s reply t) :
    Queued cfg t := by
  obtain ⟨drained, u, hdrain, hx⟩ := exec_bind.mp hx
  obtain ⟨hu, hidle⟩ := h.drain hdrain
  cases drained with
  | error e =>
    obtain ⟨-, rfl⟩ := exec_pure.mp hx
    exact hu.queued
  | ok _ =>
    obtain ⟨_, v, hparent, hx⟩ := exec_bind.mp hx
    have hv := hu.queued.gentleExec (only_createParent (fun _ => trivial) _) hparent
    have hidle := hidle rfl
    have hnone₁ := hidle.not_pending List.mem_cons_self
    have hnone₂ := hidle.not_pending (List.mem_cons_of_mem _ List.mem_cons_self)
    obtain ⟨_, w, hrename, hx⟩ := exec_bind.mp hx
    obtain ⟨env', hmove, rfl⟩ := exec_perform.mp hrename
    have hw := hv.queued.renameFile hsource hdest (fun x hp => hnone₁ x (hv.pending _ x hp))
      (fun x hp => hnone₂ x (hv.pending _ x hp))
      (fun p x hne hb hp => hbelow p x hne hb (hu.pending p x (hv.pending p x hp))) hmove
    exact (hw.gentleExec ((gentle_rpc _).bind fun _ => only_pure _) hx).queued

theorem Queued.rename (h : Queued cfg s) {parent newparent : Nat} {name newname : String}
    {reply : Reply}
    (hpath : ∀ p ∈ (KernelRequest.rename parent name newparent newname).paths s.inodes,
      p.Below cfg.remoteDir)
    (hbelow : ∀ source ∈ s.inodes.childOf parent name, ∀ p x, p ≠ source → p.Below source →
      ¬ s.uploads.Pending p x)
    (hx : Exec (mountSem cfg treeSem) (rename cfg parent name newparent newname) s reply t) :
    Queued cfg t := by
  obtain ⟨source, u, hchild, hx⟩ := exec_bind.mp hx
  obtain ⟨hsource, rfl⟩ := exec_perform.mp hchild
  obtain ⟨dest, v, hchild', hx⟩ := exec_bind.mp hx
  obtain ⟨hdest, rfl⟩ := exec_perform.mp hchild'
  have hv : Queued cfg { s with inodes :=
      ((s.inodes.childPath parent name).1.childPath newparent newname).1 } := { h with }
  cases source with
  | none =>
    obtain ⟨-, rfl⟩ := exec_pure.mp hx
    exact hv
  | some source =>
    cases dest with
    | none =>
      obtain ⟨-, rfl⟩ := exec_pure.mp hx
      exact hv
    | some dest =>
      dsimp only at hx
      split at hx
      · obtain ⟨-, rfl⟩ := exec_pure.mp hx
        exact hv
      · have hs : source ∈ s.inodes.childOf parent name := Option.mem_toList.mpr hsource.symm
        have hd : dest ∈ (s.inodes.childPath parent name).1.childOf newparent newname :=
          Option.mem_toList.mpr hdest.symm
        exact hv.renamePaths (hpath source (List.mem_append_left _ hs))
          (hpath dest (List.mem_append_right _ hd)) (hbelow source hs) hx

/-- **An empty cache file** for a path with nothing pending. -/
theorem Queued.makeEmpty (h : Queued cfg s) {path : PathBuf} {mode : Nat}
    {a : Except Errno Unit} (hpath : path.Below cfg.remoteDir)
    (hnone : ∀ x, ¬ s.uploads.Pending path x)
    (hx : Exec (mountSem cfg treeSem) (makeEmpty cfg path mode) s a t) : Queued cfg t := by
  obtain ⟨_, u, hparent, hx⟩ := exec_bind.mp hx
  have hu := h.gentleExec (only_createParent (fun _ => trivial) _) hparent
  obtain ⟨_, v, hcreate, hx⟩ := exec_bind.mp hx
  obtain ⟨env', rfl, rfl⟩ := exec_perform.mp hcreate
  have hrest : Only Gentle (FsProg.setPermissions (cfg.cachePath path) mode >>= fun _ =>
      drainUploads [path]) :=
    Only.bind (only_perform.mpr trivial) fun _ => only_drainUploads trivial
  refine (Queued.gentleExec ?_ hrest hx).queued
  split
  · exact (hu.queued.put hpath (fun x hp => hnone x (hu.pending path x hp)) _).queued
  · exact hu.queued

/-- `mknod` and `create`. -/
theorem Queued.make (h : Queued cfg s) {path : PathBuf} {mode : Nat} {reply : Reply}
    (hpath : path.Below cfg.remoteDir) (hnone : ∀ x, ¬ s.uploads.Pending path x)
    {f : Except Errno Unit → FsProg Reply} (hf : ∀ a, Only Gentle (f a))
    (hx : Exec (mountSem cfg treeSem) (RemoteFs.makeEmpty cfg path mode >>= f) s reply t) :
    Queued cfg t := by
  obtain ⟨a, u, hmake, hx⟩ := exec_bind.mp hx
  exact ((h.makeEmpty hpath hnone hmake).gentleExec (hf a) hx).queued

theorem Queued.mknod (h : Queued cfg s) {parent : Nat} {name : String} {mode : Nat}
    {reply : Reply} (hpath : ∀ p ∈ s.inodes.childOf parent name, p.Below cfg.remoteDir)
    (hnone : ∀ p ∈ s.inodes.childOf parent name, ∀ x, ¬ s.uploads.Pending p x)
    (hx : Exec (mountSem cfg treeSem) (mknod cfg parent name mode) s reply t) : Queued cfg t := by
  refine h.child hx rfl fun u hu hup path hp hx => ?_
  dsimp only at hx
  split at hx
  · obtain ⟨-, rfl⟩ := exec_pure.mp hx
    exact hu
  · refine hu.make (hpath path hp) (fun x => by rw [hup]; exact hnone path hp x) (fun a => ?_) hx
    cases a with
    | error e => exact only_pure _
    | ok _ => exact (gentle_rpc _).bind fun _ => gentle_replyAttr cfg path .entry

theorem Queued.create (h : Queued cfg s) {parent : Nat} {name : String} {mode : Nat}
    {reply : Reply} (hpath : ∀ p ∈ s.inodes.childOf parent name, p.Below cfg.remoteDir)
    (hnone : ∀ p ∈ s.inodes.childOf parent name, ∀ x, ¬ s.uploads.Pending p x)
    (hx : Exec (mountSem cfg treeSem) (create cfg parent name mode) s reply t) : Queued cfg t := by
  refine h.child hx rfl fun u hu hup path hp hx => ?_
  dsimp only at hx
  split at hx
  · obtain ⟨-, rfl⟩ := exec_pure.mp hx
    exact hu
  · refine hu.make (hpath path hp) (fun x => by rw [hup]; exact hnone path hp x) (fun a => ?_) hx
    cases a with
    | error e => exact only_pure _
    | ok _ =>
      exact (gentle_rpc _).bind fun _ => (gentle_rpc _).bind fun _ =>
        gentle_replyAttr cfg path .created

/-- **`write`**: the bytes are in the cache file before their range is enqueued. -/
theorem Queued.writePath (h : Queued cfg s) {path : PathBuf} {offset : Nat} {data : List UInt8}
    {reply : Reply} (hpath : path.Below cfg.remoteDir)
    (hx : Exec (mountSem cfg treeSem) (writePath cfg path offset data) s reply t) :
    Queued cfg t := by
  obtain ⟨_, u, hparent, hx⟩ := exec_bind.mp hx
  have hu := (h.gentleExec (only_createParent (fun _ => trivial) _) hparent).queued
  obtain ⟨stored, v, hwrite, hx⟩ := exec_bind.mp hx
  have hv := (hu.gentle (e := .writeAt _ offset data) trivial (exec_perform.mp hwrite)).queued
  obtain ⟨env', ⟨hstored, rfl⟩, rfl⟩ := exec_perform.mp hwrite
  cases stored with
  | false => exact (hv.gentleExec ((gentle_rpc _).bind fun _ => only_pure _) hx).queued
  | true =>
    rw [← hstored, if_pos rfl] at hx hv
    obtain ⟨_, w, henqueue, hx⟩ := exec_bind.mp hx
    obtain ⟨-, rfl⟩ := exec_pure.mp hx
    unfold enqueueUpload at henqueue
    split at henqueue
    · obtain ⟨-, rfl⟩ := exec_pure.mp henqueue
      exact hv
    · obtain ⟨_, z, hqueue, hwait⟩ := exec_bind.mp henqueue
      obtain ⟨hok, rfl⟩ := exec_perform.mp hqueue
      have hz := hv.enqueue hok hpath fun x hstart hstop => CacheTree.holds_write hstart hstop
      exact (hz.gentleExec (only_perform.mpr (by exact trivial)) hwait).queued

theorem Queued.write (h : Queued cfg s) {ino offset : Nat} {data : List UInt8} {reply : Reply}
    (hpath : ∀ p, s.inodes.path ino = some p → p.Below cfg.remoteDir)
    (hx : Exec (mountSem cfg treeSem) (write cfg ino offset data) s reply t) : Queued cfg t := by
  obtain ⟨path, u, hino, hx⟩ := exec_bind.mp hx
  obtain ⟨rfl, rfl⟩ := exec_perform.mp hino
  cases hp : u.inodes.path ino with
  | none =>
    rw [hp] at hx
    obtain ⟨-, rfl⟩ := exec_pure.mp hx
    exact h
  | some path =>
    rw [hp] at hx
    dsimp only at hx
    split at hx
    · obtain ⟨-, rfl⟩ := exec_pure.mp hx
      exact h
    · exact h.writePath (hpath path hp) hx

/-! `mkdir`, `rmdir` and `symlink` touch no file. -/

theorem gentle_mkdir (cfg : MountCfg) (parent : Nat) (name : String) (mode : Nat) :
    Only Gentle (mkdir cfg parent name mode) := by
  refine only_guarded trivial rfl (fun _ => rfl) fun path => ?_
  refine Only.bind (only_perform.mpr (by exact trivial)) fun _ => ?_
  exact (gentle_rpc _).bind fun _ => gentle_replyAttr cfg path .entry

theorem gentle_rmdir (cfg : MountCfg) (parent : Nat) (name : String) :
    Only Gentle (rmdir cfg parent name) := by
  refine only_guarded trivial rfl (fun _ => rfl) fun path => ?_
  refine (only_drainUploads trivial).bind fun a => ?_
  cases a with
  | error e => exact only_pure _
  | ok _ =>
    exact Only.bind (only_perform.mpr trivial) fun _ => (gentle_rpc _).bind fun _ => only_pure _

theorem gentle_symlink (cfg : MountCfg) (parent : Nat) (linkName target : String) :
    Only Gentle (symlink cfg parent linkName target) := by
  refine only_guarded trivial rfl (fun _ => rfl) fun path => ?_
  refine Only.bind (only_perform.mpr trivial) fun _ => (only_drainUploads trivial).bind fun a => ?_
  cases a with
  | error e => exact only_pure _
  | ok _ => exact (gentle_rpc _).bind fun _ => gentle_replyAttr cfg path .entry

/-! ## 7. Runs -/

/-- **One step** that leaves the queued ranges in their files. -/
theorem Queued.step (h : Queued cfg s) {e : MountEvent} (hC : LeavesQueued s e)
    (hs : TreeStep cfg s e t) : Queued cfg t := by
  obtain ⟨hnamed, hs⟩ := hs
  cases hs with
  | @request _ r reply hx =>
    have hpath : ∀ p ∈ r.paths s.inodes, p.Below cfg.remoteDir := fun p hp => (hnamed p hp).below
    have hino : ∀ {ino : Nat}, (∀ p ∈ (s.inodes.path ino).toList, p.Below cfg.remoteDir) →
        ∀ p, s.inodes.path ino = some p → p.Below cfg.remoteDir :=
      fun hall p hp => hall p (Option.mem_toList.mpr hp)
    cases r with
    | setattr ino mode size => exact h.setattr (hino hpath) hx
    | write ino offset data => exact h.write (hino hpath) hx
    | mknod parent name mode => exact h.mknod hpath hC hx
    | create parent name mode => exact h.create hpath hC hx
    | unlink parent name => exact h.unlink hpath hx
    | rename parent name newparent newname => exact h.rename hpath hC hx
    | mkdir parent name mode => exact (h.gentleExec (gentle_mkdir cfg parent name mode) hx).queued
    | rmdir parent name => exact (h.gentleExec (gentle_rmdir cfg parent name) hx).queued
    | symlink parent linkName target =>
      exact (h.gentleExec (gentle_symlink cfg parent linkName target) hx).queued
    | _ =>
      exact (h.gentleExec (Only.mono reading_gentle (handle_reading cfg (by exact trivial)))
        hx).queued
  | @prefetch _ path hk hx =>
    have hkick : Queued cfg { s with kicked := s.kicked.erase path } := { h with }
    exact (hkick.gentleExec ((reading_prefetchTask cfg _).mono reading_gentle) hx).queued
  | flush hs => exact (h.flusher hs).queued
  | sync => exact absurd hnamed id

theorem queued_init (h : MountInit cfg s) : Queued cfg s := by
  obtain ⟨now, env, rfl⟩ := h
  have hnone : ∀ p x, ¬ (⟨.new now, []⟩ : QueueCfg PathBuf).Pending p x :=
    QueueInit.not_pending ⟨now, rfl⟩
  exact ⟨cfgInv_init ⟨now, rfl⟩, fun p x hx => absurd hx (hnone p x),
    fun p x hx => absurd hx (hnone p x)⟩

/-- **The invariant says that the flusher can read every queued range.** -/
theorem Queued.readable (h : Queued cfg s) : QueuedReadable cfg s := by
  intro p r hr
  have hpos : r.1 < r.2 := by
    rcases List.mem_append.mp hr with hr | hr
    · exact (h.queue.queue.tidy p).nonempty r hr
    · exact h.queue.queue.pos p r hr
  have hlast : s.uploads.Pending p (r.2 - 1) := by
    have hin : Inside (r.2 - 1) r := ⟨by omega, by omega⟩
    rcases List.mem_append.mp hr with hr | hr
    · exact .inl (Covers.of_mem hr hin)
    · exact .inr (Covers.of_mem hr hin)
  obtain ⟨size, hnode, hsize⟩ := h.held p _ hlast
  rw [flushPath_eq (h.below p _ hlast)]
  refine ⟨⟨size, hnode, by omega⟩, fun a t hread => ?_⟩
  obtain ⟨-, hfile, hlen⟩ := hread
  have hsome : Option.isSome a = true := hfile.mpr (by rw [CacheTree.isFile, hnode])
  obtain ⟨bytes, rfl⟩ := Option.isSome_iff_exists.mp hsome
  refine ⟨bytes, rfl, ?_⟩
  rw [hlen bytes rfl, CacheTree.size, hnode]
  dsimp only
  omega

end Steps

/-- **Every queued range stays readable** in every state of a run whose steps create no file with
    pending bytes, and rename no directory with pending bytes below it. -/
theorem queued_ranges_readable {cfg : MountCfg} {hist : List (Mount CacheTree × MountEvent)}
    {s : Mount CacheTree} (h : TreeRun cfg hist s) (hC : ∀ x ∈ hist, LeavesQueued x.1 x.2) :
    ∀ u ∈ visited hist s, QueuedReadable cfg u := by
  intro u hu
  have hqueued := h.invariant_of_steps (C := LeavesQueued) (fun _ h0 => queued_init h0)
    (fun _ _ _ hi hc hs => hi.step hc hs) hC u hu
  exact hqueued.readable

/-! ## 8. A file that is written, and created again -/

/-- The empty cache directory of the mount of `/srv`. -/
def cacheNew : CacheTree := CacheTree.makeDirs ⟨fun _ => none⟩ shareMount.cacheDir

/-- The mount with the tree, the queue and the inode map, after some requests. -/
def cacheState (env : CacheTree) (uploads : QueueCfg PathBuf) (inodes : InodeMap)
    (sent : List BridgeRequest) : Mount CacheTree :=
  ⟨inodes, uploads, [], [], [⟨shareMount.remoteDir.text, shareMount.cacheDir⟩], sent, env⟩

def cacheQueue : QueueCfg PathBuf := ⟨.new 0, []⟩

/-- The first state, after the lookup of `a`, and after a write of one byte to it. -/
def cacheStart : Mount CacheTree :=
  cacheState cacheNew cacheQueue (.new shareMount.remoteDir) [.stat shareMount.remoteDir.text]

def cacheLooked : Mount CacheTree :=
  cacheState cacheNew cacheQueue shareLooked [.stat shareA.text, .stat shareMount.remoteDir.text]

def cacheWritten : Mount CacheTree :=
  cacheState ((cacheNew.makeDirs shareMount.cacheDir).write (shareMount.cachePath shareA) 0 1)
    (cacheQueue.next (.enqueue shareA 0 1)) shareLooked
    [.stat shareA.text, .stat shareMount.remoteDir.text]

theorem cacheStart_init : MountInit shareMount cacheStart := ⟨0, cacheNew, rfl⟩

/-- A path of a tree without links. -/
theorem named_of_noLinks {tree : CacheTree} {opens : Bool} {p : PathBuf}
    (hlinks : ∀ q target, tree.node q ≠ some (.link target)) (hbelow : p.Below shareMount.remoteDir)
    (hplain : ".." ∉ p.parts.drop shareMount.remoteDir.parts.length) :
    Named shareMount tree opens p := ⟨hbelow, hplain, fun q _ _ => hlinks q⟩

theorem makeDirs_noLinks {tree : CacheTree} (p : PathBuf)
    (hlinks : ∀ q target, tree.node q ≠ some (.link target)) (q : PathBuf) (target : String) :
    (tree.makeDirs p).node q ≠ some (.link target) := by
  unfold CacheTree.makeDirs
  split
  · dsimp only
    split
    · nofun
    · exact hlinks q target
  · exact hlinks q target

theorem cacheNew_noLinks (q : PathBuf) (target : String) : cacheNew.node q ≠ some (.link target) :=
  makeDirs_noLinks _ (fun _ _ h => by cases h) q target

theorem cacheWritten_noLinks (q : PathBuf) (target : String) :
    cacheWritten.env.node q ≠ some (.link target) := by
  show Function.update _ _ _ q ≠ _
  by_cases hq : q = shareMount.cachePath shareA
  · rw [hq, Function.update_self]
    nofun
  · rw [Function.update_of_ne hq]
    exact makeDirs_noLinks _ cacheNew_noLinks q target

theorem cache_lookup :
    TreeStep shareMount cacheStart (.request (.lookup 1 "a")) cacheLooked := by
  have hpaths : (KernelRequest.lookup 1 "a").paths cacheStart.inodes = [shareA] := by decide
  have hx : Prog.Exec (mountSem shareMount treeSem)
      (RemoteFs.handle shareMount (.lookup 1 "a")) cacheStart
      (.entry (attrFromStat plainStat 2)) cacheLooked := by
    refine .ask (a := some shareA) ⟨share_childPath.symm, rfl⟩ ?_
    refine .ask (a := .ok plainStatJson) ⟨cacheNew, rfl, rfl⟩ ?_
    refine .ask (t := cacheLooked) (a := (2 : Nat)) ⟨?_, ?_⟩ ?_
    · exact (congrArg Prod.snd shareLooked_inoFor).symm
    · exact congrArg (fun m => cacheState cacheNew cacheQueue m _)
        (congrArg Prod.fst shareLooked_inoFor).symm
    · exact .done _ _
  refine ⟨fun p hp => ?_, .request hx⟩
  rw [hpaths, List.mem_singleton] at hp
  subst hp
  exact named_of_noLinks cacheNew_noLinks (by decide) (by decide)

theorem cache_write :
    TreeStep shareMount cacheLooked (.request (.write 2 0 [7])) cacheWritten := by
  have hpaths : (KernelRequest.write 2 0 [7]).paths cacheLooked.inodes = [shareA] := by decide
  have hfree : ((cacheNew.makeDirs shareMount.cacheDir).isFile (shareMount.cachePath shareA) ||
      (cacheNew.makeDirs shareMount.cacheDir).free (shareMount.cachePath shareA)) = true := by
    decide
  have hknown : shareLooked.path 2 = some shareA := by decide
  have hx : Prog.Exec (mountSem shareMount treeSem)
      (RemoteFs.handle shareMount (.write 2 0 [7])) cacheLooked
      (.written 1) cacheWritten := by
    refine .ask (a := some shareA) ⟨hknown.symm, rfl⟩ ?_
    refine .ask (a := ()) ⟨cacheNew.makeDirs shareMount.cacheDir, rfl, rfl⟩ ?_
    refine .ask (a := true) ⟨_, ⟨hfree.symm, (if_pos hfree).symm⟩, rfl⟩ ?_
    refine .ask (a := ()) ⟨(by decide : (0 : Nat) + 1 < 2 ^ 64), rfl⟩ ?_
    refine .ask (a := ()) ⟨.refl _, by decide⟩ ?_
    exact .done _ _
  refine ⟨fun p hp => ?_, .request hx⟩
  rw [hpaths, List.mem_singleton] at hp
  subst hp
  exact named_of_noLinks cacheNew_noLinks (by decide) (by decide)

/-- The byte that was written can be sent. -/
theorem queued_ranges_readable_write :
    ∃ size, cacheWritten.env.node (shareMount.flushPath shareA) = some (.file size) ∧ 1 ≤ size := by
  have hrun : TreeRun shareMount _ cacheWritten :=
    .step (.step (.start cacheStart_init) cache_lookup) cache_write
  have hleaves : ∀ x ∈ [(cacheLooked, MountEvent.request (.write 2 0 [7])),
      (cacheStart, .request (.lookup 1 "a"))], LeavesQueued x.1 x.2 := by
    rw [List.forall_mem_cons, List.forall_mem_singleton]
    exact ⟨trivial, trivial⟩
  exact (queued_ranges_readable hrun hleaves _ List.mem_cons_self shareA (0, 1) (by decide)).1

/-- **A file with a queued write is created again**: its cache file is empty before the drain, so
    the flusher never gets the byte. -/
theorem create_strands_range : ∃ s, TreeRun shareMount
      [(cacheWritten, .request (.create 1 "a" 0o644)), (cacheLooked, .request (.write 2 0 [7])),
        (cacheStart, .request (.lookup 1 "a"))] s ∧
    (0, 1) ∈ row s.uploads.st.dirty shareA ∧
    s.env.node (shareMount.flushPath shareA) = some (.file 0) ∧ ¬ QueuedReadable shareMount s := by
  let file := shareMount.cachePath shareA
  let emptied : CacheTree :=
    (cacheWritten.env.makeDirs shareMount.cacheDir).put file (some (.file 0))
  let t : Mount CacheTree := { cacheWritten with env := emptied }
  have hdirty : (0, 1) ∈ row t.uploads.st.dirty shareA := by decide
  have hempty : t.env.node (shareMount.flushPath shareA) = some (.file 0) := by decide
  have hstep : TreeStep shareMount cacheWritten (.request (.create 1 "a" 0o644)) t := by
    have hpaths : (KernelRequest.create 1 "a" 0o644).paths cacheWritten.inodes = [shareA] := by
      decide
    have hfile : ((cacheWritten.env.makeDirs shareMount.cacheDir).isFile file ||
        (cacheWritten.env.makeDirs shareMount.cacheDir).free file) = true := by decide
    have hx : Prog.Exec (mountSem shareMount treeSem)
        (RemoteFs.handle shareMount (.create 1 "a" 0o644)) cacheWritten (.error .eio) t := by
      refine .ask (t := cacheWritten) (a := some shareA) ⟨?_, ?_⟩ ?_
      · exact (congrArg Prod.snd shareLooked_childPath_a).symm
      · exact congrArg (fun m => cacheState _ _ m _) (congrArg Prod.fst shareLooked_childPath_a).symm
      refine .ask (a := ()) ⟨cacheWritten.env.makeDirs shareMount.cacheDir, rfl, rfl⟩ ?_
      refine .ask (a := ()) ⟨emptied, (if_pos hfile).symm, rfl⟩ ?_
      refine .ask (a := ()) ⟨emptied, rfl, rfl⟩ ?_
      -- the flusher takes no step, and the drain gives up
      refine .ask (a := .error .eio) ⟨.refl _, .inr ⟨rfl, fun hidle => ?_⟩⟩ ?_
      · have hrow : row t.uploads.st.dirty shareA = [] := (hidle shareA List.mem_cons_self).1
        rw [hrow] at hdirty
        cases hdirty
      · exact .done _ _
    refine ⟨fun p hp => ?_, .request hx⟩
    rw [hpaths, List.mem_singleton] at hp
    subst hp
    exact named_of_noLinks cacheWritten_noLinks (by decide) (by decide)
  refine ⟨t, .step (.step (.step (.start cacheStart_init) cache_lookup) cache_write) hstep, hdirty,
    hempty, fun h => ?_⟩
  obtain ⟨⟨size, hnode, hsize⟩, -⟩ := h shareA (0, 1) (List.mem_append_left _ hdirty)
  rw [hempty] at hnode
  cases hnode
  exact absurd hsize (by decide)

end Relayfs

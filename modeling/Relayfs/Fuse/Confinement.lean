/-
  File:      Relayfs/Fuse/Confinement.lean
  Subject:   A MOUNT STAYS WHERE IT WAS TOLD TO (bridge/src/fuse_fs.rs): which remote paths do its
             requests name, and which local files do its handlers and background tasks touch?

  Names come from the kernel, and from listings: of the target, and of the cache directory where the
  target cannot be asked. A name as a file system has it is one component.

  * `ofText_text`, `childRemote_eq` -- the text of a path leads back to it, and the mirror's own
    texts are texts of paths;
  * `Effect.Stays` -- what an effect names lies below the mounted directory, what it touches below
    the cache directory;
  * `PlainListings`, `KernelRequest.Plain` -- names of a file system;
  * `Anchored` -- the invariant: inode map, queue, prefetches and mirror hold such paths alone;
  * `mount_stays` -- in every run of a mount every effect that is ever performed stays.
-/
import Relayfs.Fuse.CachePaths
import Relayfs.Fuse.Mount

namespace Relayfs

open Lib Background RemoteFs Prog

/-! ## 1. Paths and their texts -/

/-- A component of a path: no slash is in it, and it is not dropped. -/
def IsPart (part : String) : Prop := part ≠ "" ∧ part ≠ "." ∧ '/' ∉ part.toList

/-- An absolute path as `PathBuf::from` makes it. -/
structure PathBuf.Proper (p : PathBuf) : Prop where
  absolute : p.absolute = true
  parts : ∀ part ∈ p.parts, IsPart part

/-- The text up to the first slash. -/
theorem splitSlash_part {cs : List Char} (h : '/' ∉ cs) (word rest : List Char) :
    splitSlash word (cs ++ '/' :: rest) =
      String.ofList (word.reverse ++ cs) :: splitSlash [] rest := by
  induction cs generalizing word with
  | nil => rw [List.nil_append, splitSlash, if_pos rfl, List.append_nil]
  | cons c cs ih =>
    rw [List.mem_cons, not_or] at h
    rw [List.cons_append, splitSlash, if_neg (Ne.symm h.1), ih h.2, List.reverse_cons,
      List.append_assoc]
    rfl

theorem splitSlash_last {cs : List Char} (h : '/' ∉ cs) (word : List Char) :
    splitSlash word cs = [String.ofList (word.reverse ++ cs)] := by
  induction cs generalizing word with
  | nil => rw [splitSlash, List.append_nil]
  | cons c cs ih =>
    rw [List.mem_cons, not_or] at h
    rw [splitSlash, if_neg (Ne.symm h.1), ih h.2, List.reverse_cons, List.append_assoc]
    rfl

/-- No slash is in a text between slashes. -/
theorem slash_notMem_splitSlash {cs word : List Char} (h : '/' ∉ word) :
    ∀ part ∈ splitSlash word cs, '/' ∉ part.toList := by
  induction cs generalizing word with
  | nil =>
    intro part hpart
    rw [splitSlash, List.mem_singleton] at hpart
    rw [hpart, String.toList_ofList, List.mem_reverse]
    exact h
  | cons c cs ih =>
    rw [splitSlash]
    split
    · rw [List.forall_mem_cons]
      refine ⟨?_, ih List.not_mem_nil⟩
      rw [String.toList_ofList, List.mem_reverse]
      exact h
    · rename_i hc
      refine ih fun hmem => ?_
      rcases List.mem_cons.mp hmem with heq | hmem
      · exact hc heq.symm
      · exact h hmem

/-- The components between single slashes. -/
theorem splitSlash_intercalate : ∀ {parts : List String}, parts ≠ [] →
    (∀ part ∈ parts, '/' ∉ part.toList) → splitSlash [] ("/".intercalate parts).toList = parts
  | [], hne, _ => absurd rfl hne
  | [part], _, h => by
      rw [List.forall_mem_singleton] at h
      rw [String.intercalate_singleton, splitSlash_last h, List.reverse_nil, List.nil_append,
        String.ofList_toList]
  | part :: other :: rest, _, h => by
      rw [List.forall_mem_cons] at h
      have hrest := splitSlash_intercalate (List.cons_ne_nil other rest) h.2
      rw [String.intercalate_cons_cons, String.toList_append, String.toList_append,
        List.append_assoc]
      show splitSlash [] (part.toList ++ '/' :: ("/".intercalate (other :: rest)).toList) = _
      rw [splitSlash_part h.1, hrest, List.reverse_nil, List.nil_append, String.ofList_toList]

/-- **The text of a path leads back to it.** -/
theorem PathBuf.ofText_text {p : PathBuf} (h : p.Proper) : ofText p.text = p := by
  obtain ⟨absolute, parts⟩ := p
  obtain ⟨rfl, hparts⟩ : absolute = true ∧ _ := ⟨h.absolute, h.parts⟩
  have htext : (PathBuf.text ⟨true, parts⟩).toList = '/' :: ("/".intercalate parts).toList := by
    rw [text, if_pos rfl, String.toList_append]
    rfl
  have hkeep : parts.filter (fun part => part ≠ "" ∧ part ≠ ".") = parts :=
    List.filter_eq_self.mpr fun part hpart =>
      decide_eq_true ⟨(hparts part hpart).1, (hparts part hpart).2.1⟩
  have hsplit : (splitSlash [] (PathBuf.text ⟨true, parts⟩).toList).filter
      (fun part => part ≠ "" ∧ part ≠ ".") = parts := by
    rw [htext, splitSlash, if_pos rfl]
    by_cases hne : parts = []
    · subst hne
      rfl
    · rw [splitSlash_intercalate hne fun part hpart => (hparts part hpart).2.2]
      rw [List.filter_cons_of_neg (by simp)]
      exact hkeep
  rw [ofText, hsplit, htext]
  rfl

/-- A name of a file system is a component. -/
theorem PlainName.isPart {name : String} (h : PlainName name) : IsPart name := by
  have hparts : (splitSlash [] name.toList).filter (fun part => part ≠ "" ∧ part ≠ ".") = [name] :=
    (PathBuf.mk.inj h.1).2
  have hmem : name ∈ (splitSlash [] name.toList).filter (fun part => part ≠ "" ∧ part ≠ ".") := by
    rw [hparts]
    exact List.mem_singleton.mpr rfl
  obtain ⟨hsplit, hkeep⟩ := List.mem_filter.mp hmem
  obtain ⟨hempty, hdot⟩ := of_decide_eq_true hkeep
  exact ⟨hempty, hdot, slash_notMem_splitSlash List.not_mem_nil name hsplit⟩

/-- A joined text ends in its last component. -/
theorem intercalate_concat (init : List String) (last : String) :
    ∃ front, "/".intercalate (init ++ [last]) = front ++ last := by
  by_cases hinit : init = []
  · refine ⟨"", ?_⟩
    rw [hinit, List.nil_append, String.intercalate_singleton, String.empty_append]
  · refine ⟨"/".intercalate init ++ "/", ?_⟩
    rw [String.intercalate_append_of_ne_nil hinit (List.cons_ne_nil last []),
      String.intercalate_singleton]

/-- A text with nothing to trim. -/
theorem trimSlashes_of_last {s : String} {cs : List Char} {c : Char} (h : s.toList = cs ++ [c])
    (hc : c ≠ '/') : trimSlashes s = s := by
  have hkeep : (c :: cs.reverse).dropWhile (fun d => decide (d = '/')) = c :: cs.reverse :=
    List.dropWhile_cons_of_neg (by simpa using hc)
  rw [trimSlashes, h, List.reverse_append, List.reverse_singleton, List.singleton_append, hkeep,
    List.reverse_cons, List.reverse_reverse, ← h, String.ofList_toList]

/-- The text of a path ends in a slash only at the root. -/
theorem trimSlashes_text {p : PathBuf} (h : p.Proper) :
    trimSlashes p.text = if p.parts = [] then "" else p.text := by
  obtain ⟨absolute, parts⟩ := p
  obtain ⟨rfl, hparts⟩ : absolute = true ∧ _ := ⟨h.absolute, h.parts⟩
  rcases List.eq_nil_or_concat parts with rfl | ⟨init, last, rfl⟩
  · rfl
  · rw [List.concat_eq_append] at hparts ⊢
    rw [if_neg (List.concat_ne_nil last init)]
    obtain ⟨hne, -, hslash⟩ := hparts last (List.mem_append_right _ List.mem_cons_self)
    rcases List.eq_nil_or_concat last.toList with hnil | ⟨cs, c, hcs⟩
    · exact absurd (String.toList_eq_nil_iff.mp hnil) hne
    · rw [List.concat_eq_append] at hcs
      obtain ⟨front, hfront⟩ := intercalate_concat init last
      refine @trimSlashes_of_last _ ('/' :: front.toList ++ cs) c ?_ fun hc => ?_
      · rw [PathBuf.text, if_pos rfl, hfront, String.toList_append, String.toList_append, hcs,
          ← List.append_assoc, ← List.append_assoc]
        rfl
      · rw [hcs, hc] at hslash
        exact hslash (List.mem_append_right _ List.mem_cons_self)

/-- **The mirror's own texts**: the remote path of an entry is the text of the path of that name. -/
theorem childRemote_eq {p : PathBuf} {name : String} (h : p.Proper) (hname : PlainName name)
    (cache : PathBuf) : SyncDir.childRemote ⟨p.text, cache⟩ name = (p.child name).text := by
  have hchild : p.child name = ⟨p.absolute, p.parts ++ [name]⟩ := by
    rw [PathBuf.child, hname.1]
    rfl
  rw [SyncDir.childRemote, trimSlashes_text h, hchild, PathBuf.text, PathBuf.text, h.absolute]
  by_cases hroot : p.parts = []
  · rw [if_pos hroot, hroot, List.nil_append, String.intercalate_singleton]
    rfl
  · rw [if_neg hroot, String.intercalate_append_of_ne_nil hroot (List.cons_ne_nil name []),
      String.intercalate_singleton, String.append_assoc, String.append_assoc, String.append_assoc]

/-! ## 2. Paths below a directory -/

/-- A path that goes down from a directory by names of a file system. -/
def Beneath (dir p : PathBuf) : Prop :=
  ∃ rest, p = ⟨dir.absolute, dir.parts ++ rest⟩ ∧ ∀ part ∈ rest, IsPart part ∧ part ≠ ".."

namespace Beneath

variable {dir p : PathBuf} {cfg : MountCfg}

theorem self (dir : PathBuf) : Beneath dir dir :=
  ⟨[], by rw [List.append_nil], List.forall_mem_nil _⟩

theorem child {name : String} (h : Beneath dir p) (hname : PlainName name) :
    Beneath dir (p.child name) := by
  obtain ⟨rest, rfl, hrest⟩ := h
  refine ⟨rest ++ [name], ?_, fun part hpart => ?_⟩
  · rw [PathBuf.child, hname.1, ← List.append_assoc]
    rfl
  · rcases List.mem_append.mp hpart with hpart | hpart
    · exact hrest part hpart
    · rw [List.mem_singleton.mp hpart]
      exact ⟨PlainName.isPart hname, hname.2⟩

theorem under (h : Beneath dir p) : Under dir p := by
  obtain ⟨rest, rfl, hrest⟩ := h
  exact ⟨rest, rfl, fun hmem => (hrest _ hmem).2 rfl⟩

theorem proper (h : Beneath dir p) (hdir : dir.Proper) : p.Proper := by
  obtain ⟨rest, rfl, hrest⟩ := h
  refine ⟨hdir.absolute, fun part hpart => ?_⟩
  rcases List.mem_append.mp hpart with hpart | hpart
  · exact hdir.parts part hpart
  · exact (hrest part hpart).1

/-- **What the target makes of its text** is the path. -/
theorem ofText (h : Beneath dir p) (hdir : dir.Proper) : Under dir (.ofText p.text) := by
  rw [PathBuf.ofText_text (h.proper hdir)]
  exact h.under

/-- The cache file. -/
theorem cachePath (h : Beneath cfg.remoteDir p) : Beneath cfg.cacheDir (cfg.cachePath p) := by
  obtain ⟨rest, rfl, hrest⟩ := h
  refine ⟨rest, ?_, hrest⟩
  rw [MountCfg.cachePath, PathBuf.stripPrefix, if_pos ⟨rfl, List.prefix_append _ _⟩]
  dsimp only
  rw [List.drop_left, PathBuf.join, if_neg Bool.false_ne_true]

theorem flushPath (h : Beneath cfg.remoteDir p) : Beneath cfg.cacheDir (cfg.flushPath p) := by
  have hbelow : (p.stripPrefix cfg.remoteDir).isSome := by
    obtain ⟨rest, rfl, -⟩ := h
    rw [PathBuf.stripPrefix, if_pos ⟨rfl, List.prefix_append _ _⟩]
    rfl
  rw [flushPath_eq hbelow]
  exact h.cachePath

/-- The directory that a path is in is below the directory too, or on the way to it. -/
theorem parent {parent : PathBuf} (h : Beneath dir p) (hparent : p.parent = some parent) :
    Under dir parent ∨ parent ∈ dir.ancestors := by
  obtain ⟨rest, rfl, hrest⟩ := h
  unfold PathBuf.parent at hparent
  split at hparent
  · cases hparent
  · cases hparent
    rcases List.eq_nil_or_concat rest with rfl | ⟨init, last, rfl⟩
    · refine .inr (List.mem_map.mpr ⟨dir.parts.length - 1, List.mem_range.mpr (by omega), ?_⟩)
      rw [List.append_nil, List.dropLast_eq_take]
    · rw [List.concat_eq_append] at hrest ⊢
      refine .inl ⟨init, ?_, fun hmem => (hrest _ (List.mem_append_left _ hmem)).2 rfl⟩
      rw [← List.append_assoc, List.dropLast_concat]

/-- The temporary file of a download to an entry. -/
theorem temp {name : String} (h : Beneath dir p) (hname : PlainName name) (tag : Nat) :
    Under dir (TempFile.path ⟨p.child name, tag⟩) := by
  obtain ⟨rest, rfl, hrest⟩ := h
  have hlast : PathBuf.fileName ⟨dir.absolute, dir.parts ++ rest ++ [name]⟩ = some name := by
    rw [PathBuf.fileName, List.getLast?_concat, Option.filter_some,
      if_pos (decide_eq_true hname.2)]
  have hchild : PathBuf.child ⟨dir.absolute, dir.parts ++ rest⟩ name =
      ⟨dir.absolute, dir.parts ++ rest ++ [name]⟩ := by
    rw [PathBuf.child, hname.1]
    rfl
  refine ⟨rest ++ [fileStem name ++ "." ++ ("tmp-" ++ hex8 tag)], ?_, fun hmem => ?_⟩
  · rw [TempFile.path, hchild, PathBuf.withExtension, hlast]
    dsimp only
    rw [List.dropLast_concat, List.append_assoc]
  · rcases List.mem_append.mp hmem with hmem | hmem
    · exact (hrest _ hmem).2 rfl
    · exact tempName_ne _ _ (List.mem_singleton.mp hmem).symm

end Beneath

/-! ## 3. What stays -/

/-- A request about files names them by paths that the target finds below the directory. No other
    request is made. -/
def BridgeRequest.Stays (dir : PathBuf) : BridgeRequest → Prop
  | .readFile p _ _ | .writeFile p _ _ | .listDir p | .stat p | .mkdir p _ | .remove p _
  | .writeAt p _ _ | .truncate p _ | .symlink p _ | .chmod p _ => Under dir (.ofText p)
  | .rename source dest => Under dir (.ofText source) ∧ Under dir (.ofText dest)
  | _ => False

/-- **An effect that stays**: a request below the mounted directory, a local file below the cache
    directory; the directories on the way to the cache directory may be made. -/
def Effect.Stays (cfg : MountCfg) : Effect → Prop
  | .childPath _ name => PlainName name
  | .inoForPath p | .enqueue p _ _ | .finish p _ _ | .kickPrefetch p | .prefetchDone p =>
      Beneath cfg.remoteDir p
  | .call req => req.Stays cfg.remoteDir
  | .createDirAll p => Under cfg.cacheDir p ∨ p ∈ cfg.cacheDir.ancestors
  | .symlinkMetadata p | .fileLen p | .readAt p _ _ | .writeAt p _ _ | .setLen p _ | .createFile p
  | .setPermissions p _ | .removeFile p | .removeDir p | .symlinkFile _ p | .readLink p
  | .readDir p => Under cfg.cacheDir p
  | .renameFile source dest => Under cfg.cacheDir source ∧ Under cfg.cacheDir dest
  | .createTemp t | .writeTemp t _ _ | .removeTemp t | .installTemp t =>
      Under cfg.cacheDir t.path ∧ Under cfg.cacheDir t.target
  | _ => True

/-- The names that the kernel gives a request are names of a file system. -/
def KernelRequest.Plain : KernelRequest → Prop
  | .lookup _ name | .mknod _ name _ | .mkdir _ name _ | .unlink _ name | .rmdir _ name
  | .symlink _ name _ | .create _ name _ => PlainName name
  | .rename _ name _ newname => PlainName name ∧ PlainName newname
  | _ => True

/-- The names in an event, if it is a request. -/
def MountEvent.Plain : MountEvent → Prop
  | .request r => r.Plain
  | _ => True

/-- Answers whose paths and names are as they should be. -/
def GivesNames (cfg : MountCfg) : (e : Effect) → Answer e → Prop
  | .pathFor _, p => ∀ path, p = some path → Beneath cfg.remoteDir path
  | .childPath _ _, p => ∀ path, p = some path → Beneath cfg.remoteDir path
  | .call (.listDir _), a =>
      ∀ value entries, a = .ok value → listDirEntries value = some entries →
        ∀ e ∈ entries, PlainName e.name
  | .readDir _, a => ∀ entries, a = some entries → ∀ e ∈ entries, PlainName e.2
  | _, _ => True

/-- **The environment's listings** have names of a file system: those of the target, and those of
    the cache directory. -/
structure PlainListings {ε : Type} (cfg : MountCfg) (env : EnvSem ε) : Prop where
  target : ∀ p u a v, env (.call (.listDir p)) u a v → GivesNames cfg (.call (.listDir p)) a
  cache : ∀ p u a v, env (.readDir p) u a v → GivesNames cfg (.readDir p) a

/-- The environment, where nothing that does not stay is ever done. -/
def staying {ε : Type} (cfg : MountCfg) (env : EnvSem ε) : EnvSem ε :=
  fun e u a v => e.Stays cfg ∧ env e u a v

/-- A folder of the mirror. -/
def Background.SyncDir.Stays (cfg : MountCfg) (d : SyncDir) : Prop :=
  (∃ p, Beneath cfg.remoteDir p ∧ d.remote = p.text) ∧ Beneath cfg.cacheDir d.cache

/-- **The invariant.** -/
structure Anchored {ε : Type} (cfg : MountCfg) (s : Mount ε) : Prop where
  queue : CfgInv s.uploads
  inodes : ∀ ino p, s.inodes.path ino = some p → Beneath cfg.remoteDir p
  pending : ∀ p x, s.uploads.Pending p x → Beneath cfg.remoteDir p
  kicked : ∀ p ∈ s.kicked, Beneath cfg.remoteDir p
  sync : ∀ d ∈ s.sync, d.Stays cfg
  sent : ∀ req ∈ s.sent, req.Stays cfg.remoteDir

/-! ## 4. The handlers -/

section Handlers

variable {cfg : MountCfg} {path : PathBuf}

/-- The directory that a cache file is in may be made. -/
theorem stays_createParent {file : PathBuf} (h : Beneath cfg.cacheDir file) :
    Only (Effect.Stays cfg) (createParent file) := by
  unfold createParent
  split
  · rename_i dir hdir
    exact only_perform.mpr (h.parent hdir)
  · exact only_pure _

theorem stays_drainUploads (paths : List PathBuf) :
    Only (Effect.Stays cfg) (drainUploads paths) := only_drainUploads trivial

/-- A handler that begins with the path of an entry. -/
theorem stays_childPath {parent : Nat} {name : String} (hname : PlainName name)
    {f : Option PathBuf → FsProg Reply} (hnone : Only (Effect.Stays cfg) (f none))
    (hf : ∀ path, Beneath cfg.remoteDir path → Within (GivesNames cfg) (Effect.Stays cfg)
      (f (some path))) :
    Within (GivesNames cfg) (Effect.Stays cfg) (FsProg.childPath parent name >>= f) := by
  refine within_bind.mpr ⟨within_perform.mpr hname, fun p hp => ?_⟩
  have hp := returns_perform.mp hp
  cases p with
  | none => exact hnone.within
  | some path => exact hf path (hp path rfl)

/-- A handler that begins with the path of an inode. -/
theorem stays_pathFor {ino : Nat} {f : Option PathBuf → FsProg Reply}
    (hnone : Only (Effect.Stays cfg) (f none))
    (hf : ∀ path, Beneath cfg.remoteDir path → Within (GivesNames cfg) (Effect.Stays cfg)
      (f (some path))) :
    Within (GivesNames cfg) (Effect.Stays cfg) (FsProg.pathFor ino >>= f) := by
  refine within_bind.mpr ⟨within_perform.mpr trivial, fun p hp => ?_⟩
  have hp := returns_perform.mp hp
  cases p with
  | none => exact hnone.within
  | some path => exact hf path (hp path rfl)

theorem stays_makeEmpty (h : Beneath cfg.remoteDir path) (mode : Nat) :
    Only (Effect.Stays cfg) (makeEmpty cfg path mode) := by
  refine (stays_createParent h.cachePath).bind fun _ => ?_
  refine Only.bind (only_perform.mpr h.cachePath.under) fun _ => ?_
  exact Only.bind (only_perform.mpr h.cachePath.under) fun _ => stays_drainUploads [path]

variable (hdir : cfg.remoteDir.Proper) (h : Beneath cfg.remoteDir path)

include hdir h

theorem stays_replyAttr (reply : FileAttr → Reply) :
    Only (Effect.Stays cfg) (replyAttr cfg path reply) := by
  have hremote : Only (Effect.Stays cfg) (remoteAttr path) := by
    refine Only.bind (only_rpc (h.ofText hdir)) fun a => ?_
    cases a with
    | error e => exact only_pure _
    | ok value =>
      dsimp only
      split
      · exact only_pure _
      · exact Only.bind (only_perform.mpr h) fun ino => only_pure _
  refine Only.bind (hremote.bind fun a => ?_) fun a => ?_
  · cases a with
    | ok attr =>
      dsimp only
      split
      · exact Only.bind (only_perform.mpr (.inl h.cachePath.under)) fun _ => only_pure _
      · exact only_pure _
    | error e =>
      refine Only.bind (only_perform.mpr h.cachePath.under) fun m => ?_
      cases m with
      | some m => exact Only.bind (only_perform.mpr h) fun ino => only_pure _
      | none => exact only_pure _
  · cases a <;> exact only_pure _

theorem stays_setSize (size : Option Nat) :
    Only (Effect.Stays cfg) (setSize cfg path size) := by
  cases size with
  | none => exact only_pure _
  | some size =>
    refine (stays_drainUploads [path]).bind fun a => ?_
    cases a with
    | error e => exact only_pure _
    | ok u =>
      have hask : Effect.Stays cfg (.call (.truncate path.text size)) := h.ofText hdir
      exact (only_rpc hask).bind fun _ =>
        Only.bind (only_perform.mpr h.cachePath.under) fun _ => only_pure _

theorem stays_setMode (mode : Option Nat) :
    Only (Effect.Stays cfg) (setMode cfg path mode) := by
  cases mode with
  | none => exact only_pure _
  | some mode =>
    have hask : Effect.Stays cfg (.call (.chmod path.text mode)) := h.ofText hdir
    exact (only_rpc hask).bind fun _ => only_perform.mpr h.cachePath.under

theorem stays_renamePaths {dest : PathBuf} (hdest : Beneath cfg.remoteDir dest) :
    Only (Effect.Stays cfg) (renamePaths cfg path dest) := by
  refine (stays_drainUploads [path, dest]).bind fun a => ?_
  cases a with
  | error e => exact only_pure _
  | ok u =>
    have hask : Effect.Stays cfg (.call (.rename path.text dest.text)) :=
      ⟨h.ofText hdir, hdest.ofText hdir⟩
    refine (stays_createParent hdest.cachePath).bind fun _ => ?_
    refine Only.bind (only_perform.mpr ⟨h.cachePath.under, hdest.cachePath.under⟩) fun _ => ?_
    exact (only_rpc hask).bind fun _ => only_pure _

/-- `unlink` and `rmdir`, once the path is known. -/
theorem stays_remove {onDisk : FsProg Unit} (hlocal : Only (Effect.Stays cfg) onDisk) :
    Only (Effect.Stays cfg) (do
      let .ok () ← drainUploads [path] | return Reply.error .eio
      onDisk
      let _ ← rpc (.remove path.text (some false))
      return .ok) := by
  refine (stays_drainUploads [path]).bind fun a => ?_
  cases a with
  | error e => exact only_pure _
  | ok u =>
    have hask : Effect.Stays cfg (.call (.remove path.text (some false))) := h.ofText hdir
    exact hlocal.bind fun _ => (only_rpc hask).bind fun _ => only_pure _

theorem stays_readRemote (offset size : Nat) :
    Only (Effect.Stays cfg) (readRemote cfg path offset size) := by
  have hfile := h.cachePath.under
  have hfill : ∀ bytes, Only (Effect.Stays cfg) (fillCache cfg path offset bytes) := by
    intro bytes
    refine (stays_createParent h.cachePath).bind fun _ => ?_
    refine Only.bind (only_perform.mpr hfile) fun len => ?_
    dsimp only
    split
    · refine Only.bind (only_perform.mpr hfile) fun stored => ?_
      cases stored with
      | true => exact only_perform.mpr h
      | false => exact only_pure _
    · exact only_pure _
  have hask : Effect.Stays cfg
      (.call (.readFile path.text (some offset) (some (max size (1024 * 1024))))) := h.ofText hdir
  refine (only_rpc hask).bind fun a => ?_
  cases a with
  | ok value =>
    dsimp only
    split
    · exact only_pure _
    · exact (hfill _).bind fun _ => only_pure _
  | error e =>
    refine Only.bind (only_perform.mpr hfile) fun bytes => ?_
    cases bytes <;> exact only_pure _

theorem stays_writePath (offset : Nat) (data : List UInt8) :
    Only (Effect.Stays cfg) (writePath cfg path offset data) := by
  refine (stays_createParent h.cachePath).bind fun _ => ?_
  refine Only.bind (only_perform.mpr h.cachePath.under) fun stored => ?_
  cases stored with
  | true => exact (only_enqueueUpload h trivial).bind fun _ => only_pure _
  | false =>
    have hask : Effect.Stays cfg (.call (.writeAt path.text offset (Base64.encode data))) :=
      h.ofText hdir
    exact (only_rpc hask).bind fun _ => only_pure _

/-- **The entries of `readdir`** have names of a file system. -/
theorem stays_listEntries : Ensures (GivesNames cfg) (Effect.Stays cfg)
    (fun listed => ∀ entries, listed = .ok entries → ∀ e ∈ entries, PlainName e.2)
    (listEntries path (cfg.cachePath path)) := by
  have hask : Effect.Stays cfg (.call (.listDir path.text)) := h.ofText hdir
  have hrpc : Ensures (GivesNames cfg) (Effect.Stays cfg)
      (fun a => ∀ value entries, a = .ok value → listDirEntries value = some entries →
        ∀ e ∈ entries, PlainName e.name) (rpc (.listDir path.text)) := by
    refine Ensures.bind (ensures_perform hask fun a ha => ha) fun a ha => ?_
    cases a with
    | error e => exact ensures_pure fun value entries hv => by cases hv
    | ok value =>
      refine ensures_pure fun v entries hv hentries => ?_
      cases hv
      exact ha _ _ rfl hentries
  refine hrpc.bind fun a ha => ?_
  cases a with
  | error e =>
    refine Ensures.bind (ensures_perform h.cachePath.under fun a ha => ha) fun rows hrows => ?_
    cases rows with
    | none => exact ensures_pure fun entries he => by cases he
    | some rows =>
      refine ensures_pure fun entries he => ?_
      cases he
      exact hrows rows rfl
  | ok value =>
    dsimp only
    split
    · rename_i entries hentries
      have hnames := ha value entries rfl hentries
      have hone : ∀ e ∈ entries, Ensures (GivesNames cfg) (Effect.Stays cfg)
          (fun row : FileType × String => PlainName row.2)
          (if e.kind.fileType = .directory then do
              FsProg.createDirAll ((cfg.cachePath path).child e.name)
              return (e.kind.fileType, e.name)
            else return (e.kind.fileType, e.name)) := by
        intro e he
        split
        · exact Ensures.bind (Only.ensures (only_perform.mpr
            (.inl (h.cachePath.child (hnames e he)).under))) fun _ _ => ensures_pure (hnames e he)
        · exact ensures_pure (hnames e he)
      refine (Ensures.mapM hone).bind fun rows hrows => ensures_pure fun entries' he => ?_
      cases he
      exact hrows
    · exact ensures_pure fun entries he => by cases he

end Handlers

theorem stays_addRows (cfg : MountCfg) (offset : Nat) : ∀ i rows,
    Only (Effect.Stays cfg) (addRows offset i rows)
  | _, [] => only_pure _
  | i, (ino, kind, name) :: rest => by
      unfold addRows
      split
      · exact stays_addRows cfg offset (i + 1) rest
      · refine Only.bind (only_perform.mpr trivial) fun full => ?_
        split
        · exact only_pure _
        · exact stays_addRows cfg offset (i + 1) rest

/-- **Every handler** asks for what stays. -/
theorem stays_handle {cfg : MountCfg} (hdir : cfg.remoteDir.Proper) {r : KernelRequest}
    (hr : r.Plain) : Within (GivesNames cfg) (Effect.Stays cfg) (RemoteFs.handle cfg r) := by
  cases r with
  | lookup parent name =>
    exact stays_childPath hr (only_pure _) fun path h => (stays_replyAttr hdir h _).within
  | getattr ino =>
    exact stays_pathFor (only_pure _) fun path h => (stays_replyAttr hdir h _).within
  | setattr ino mode size =>
    refine stays_pathFor (only_pure _) fun path h => Only.within ?_
    refine (stays_setSize hdir h size).bind fun a => ?_
    cases a with
    | error e => exact only_pure _
    | ok u => exact (stays_setMode hdir h mode).bind fun _ => stays_replyAttr hdir h _
  | readlink ino =>
    refine stays_pathFor (only_pure _) fun path h => Only.within ?_
    refine Only.bind (only_perform.mpr h.cachePath.under) fun target => ?_
    cases target with
    | some target => exact only_pure _
    | none =>
      have hask : Effect.Stays cfg (.call (.stat path.text)) := h.ofText hdir
      refine (only_rpc hask).bind fun a => ?_
      cases a with
      | error e => exact only_pure _
      | ok value =>
        dsimp only
        split
        · exact only_pure _
        · split <;> exact only_pure _
  | mknod parent name mode =>
    refine stays_childPath hr (only_pure _) fun path h => Only.within ?_
    dsimp only
    split
    · exact only_pure _
    · refine (stays_makeEmpty h mode).bind fun a => ?_
      cases a with
      | error e => exact only_pure _
      | ok u =>
        have hask : Effect.Stays cfg (.call (.writeFile path.text "" (some false))) :=
          h.ofText hdir
        exact (only_rpc hask).bind fun _ => stays_replyAttr hdir h _
  | mkdir parent name mode =>
    refine stays_childPath hr (only_pure _) fun path h => Only.within ?_
    dsimp only
    split
    · exact only_pure _
    · have hask : Effect.Stays cfg (.call (.mkdir path.text (some mode))) := h.ofText hdir
      refine Only.bind (only_perform.mpr (.inl h.cachePath.under)) fun _ => ?_
      exact (only_rpc hask).bind fun _ => stays_replyAttr hdir h _
  | unlink parent name =>
    refine stays_childPath hr (only_pure _) fun path h => Only.within ?_
    dsimp only
    split
    · exact only_pure _
    · exact stays_remove hdir h (only_perform.mpr h.cachePath.under)
  | rmdir parent name =>
    refine stays_childPath hr (only_pure _) fun path h => Only.within ?_
    dsimp only
    split
    · exact only_pure _
    · exact stays_remove hdir h (only_perform.mpr h.cachePath.under)
  | symlink parent linkName target =>
    refine stays_childPath hr (only_pure _) fun path h => Only.within ?_
    dsimp only
    split
    · exact only_pure _
    · refine Only.bind (only_perform.mpr h.cachePath.under) fun _ => ?_
      refine (stays_drainUploads [path]).bind fun a => ?_
      cases a with
      | error e => exact only_pure _
      | ok u =>
        have hask : Effect.Stays cfg (.call (.symlink path.text target)) := h.ofText hdir
        exact (only_rpc hask).bind fun _ => stays_replyAttr hdir h _
  | rename parent name newparent newname =>
    refine stays_childPath hr.1 ?_ fun source hsource => ?_
    · -- the second name is looked up all the same
      refine Only.bind (only_perform.mpr hr.2) fun dest => ?_
      cases dest <;> exact only_pure _
    · refine stays_childPath hr.2 (only_pure _) fun dest hdest => Only.within ?_
      dsimp only
      split
      · exact only_pure _
      · exact stays_renamePaths hdir hsource hdest
  | read ino offset size =>
    refine stays_pathFor (only_pure _) fun path h => Only.within ?_
    refine Only.bind (Only.bind (only_perform.mpr h.cachePath.under) fun len => ?_) fun bytes => ?_
    · cases len with
      | none => exact only_pure _
      | some len =>
        dsimp only
        split
        · exact only_perform.mpr h.cachePath.under
        · split <;> exact only_pure _
    · cases bytes with
      | some bytes => exact only_pure _
      | none => exact stays_readRemote hdir h offset size
  | write ino offset data =>
    refine stays_pathFor (only_pure _) fun path h => Only.within ?_
    dsimp only
    split
    · exact only_pure _
    · exact stays_writePath hdir h offset data
  | flush ino | fsync ino =>
    refine stays_pathFor (only_pure _) fun path h => Only.within ?_
    refine (stays_drainUploads [path]).bind fun a => ?_
    cases a <;> exact only_pure _
  | release ino =>
    refine stays_pathFor (only_pure _) fun path h => Only.within ?_
    exact (stays_drainUploads [path]).bind fun _ => only_pure _
  | readdir ino offset =>
    refine stays_pathFor (only_pure _) fun path h => ?_
    refine within_bind.mpr ⟨within_perform.mpr (.inl h.cachePath.under), fun _ _ => ?_⟩
    have hlist := stays_listEntries hdir h
    refine within_bind.mpr ⟨hlist.1, fun listed hlisted => ?_⟩
    cases listed with
    | error e => exact within_pure _
    | ok entries =>
      have hnames := hlist.2 _ hlisted entries rfl
      refine Only.within (Only.bind (Only.mapM fun e he => ?_) fun rows =>
        (stays_addRows cfg offset 0 _).bind fun _ => only_pure _)
      exact Only.bind (only_perform.mpr (h.child (hnames e he))) fun _ => only_pure _
  | create parent name mode =>
    refine stays_childPath hr (only_pure _) fun path h => Only.within ?_
    dsimp only
    split
    · exact only_pure _
    · refine (stays_makeEmpty h mode).bind fun a => ?_
      cases a with
      | error e => exact only_pure _
      | ok u =>
        have hwrite : Effect.Stays cfg (.call (.writeFile path.text "" (some false))) :=
          h.ofText hdir
        have hchmod : Effect.Stays cfg (.call (.chmod path.text mode)) := h.ofText hdir
        exact (only_rpc hwrite).bind fun _ => (only_rpc hchmod).bind fun _ =>
          stays_replyAttr hdir h _
  | link | openFile | opendir | releasedir | fsyncdir | statfs | setxattr | getxattr
  | listxattr size | removexattr | access => exact within_pure _

/-! ## 5. The background tasks -/

section Tasks

variable {cfg : MountCfg}

theorem stays_fetchChunk {path : String} (h : Under cfg.remoteDir (.ofText path))
    (start limit : Nat) : Only (Effect.Stays cfg) (fetchChunk path start limit) := by
  have hask : Effect.Stays cfg (.call (.readFile path (some start) (some limit))) := h
  refine Only.bind (only_perform.mpr hask) fun answer => ?_
  cases answer <;> exact only_pure _

theorem stays_prefetchChunks {path : String} (h : Under cfg.remoteDir (.ofText path))
    {file : PathBuf} (hfile : Under cfg.cacheDir file) (size : Nat) : ∀ offsets : List Nat,
      Only (Effect.Stays cfg) (prefetchChunks path file size offsets)
  | [] => only_pure _
  | start :: rest => by
      refine (stays_fetchChunk h start _).bind fun bytes => ?_
      cases bytes with
      | none => exact only_pure _
      | some bytes =>
        refine Only.bind (only_perform.mpr hfile) fun wrote => ?_
        split
        · exact stays_prefetchChunks h hfile size rest
        · exact only_pure _

theorem stays_downloadChunks {path : String} (h : Under cfg.remoteDir (.ofText path))
    {t : TempFile} (ht : Under cfg.cacheDir t.path ∧ Under cfg.cacheDir t.target) (size : Nat) :
    ∀ offsets : List Nat, Only (Effect.Stays cfg) (downloadChunks path t size offsets)
  | [] => only_pure _
  | start :: rest => by
      refine (stays_fetchChunk h start _).bind fun bytes => ?_
      cases bytes with
      | none => exact only_pure _
      | some bytes =>
        refine Only.bind (only_perform.mpr ht) fun wrote => ?_
        split
        · exact stays_downloadChunks h ht size rest
        · exact only_pure _

/-- A download to an entry of a folder of the cache. -/
theorem stays_downloadToCache {path : String} (h : Under cfg.remoteDir (.ofText path))
    {folder : PathBuf} (hfolder : Beneath cfg.cacheDir folder) {name : String}
    (hname : PlainName name) (size : Nat) :
    Only (Effect.Stays cfg) (downloadToCache path (folder.child name) size) := by
  have hfile := hfolder.child hname
  unfold downloadToCache
  split
  · exact only_perform.mpr hfile.under
  · refine (stays_createParent hfile).bind fun _ => ?_
    refine Only.bind (only_perform.mpr trivial) fun tag => ?_
    have htemp : Under cfg.cacheDir (TempFile.path ⟨folder.child name, tag⟩) ∧
        Under cfg.cacheDir (folder.child name) := ⟨hfolder.temp hname tag, hfile.under⟩
    refine Only.bind (only_perform.mpr htemp) fun _ => ?_
    refine (stays_downloadChunks h htemp size _).bind fun all => ?_
    split
    · exact Only.bind (only_perform.mpr htemp) fun _ => only_pure _
    · exact only_perform.mpr htemp

variable (hdir : cfg.remoteDir.Proper)

include hdir

/-- **A send task.** -/
theorem stays_sendPiece {path : PathBuf} (h : Beneath cfg.remoteDir path) (range : Range) :
    Only (Effect.Stays cfg) (sendPiece cfg path range) := by
  have hfinish : ∀ outcome, Only (Effect.Stays cfg) (FsProg.finish path range outcome) :=
    fun _ => only_perform.mpr h
  refine Only.bind (only_perform.mpr h.flushPath.under) fun read => ?_
  split
  · exact hfinish .retry
  · rename_i bytes _
    have hask : Effect.Stays cfg (.call (.writeAt path.text range.1 (Base64.encode bytes))) :=
      h.ofText hdir
    exact Only.bind (only_perform.mpr hask) fun answer => hfinish _

/-- **A prefetch.** -/
theorem stays_prefetchTask {path : PathBuf} (h : Beneath cfg.remoteDir path) :
    Only (Effect.Stays cfg) (prefetchTask cfg path) := by
  have hask : Effect.Stays cfg (.call (.stat path.text)) := h.ofText hdir
  have htail : Only (Effect.Stays cfg) (prefetchTail path.text (cfg.cachePath path)) := by
    refine Only.bind (only_perform.mpr hask) fun answer => ?_
    cases answer with
    | error e => exact only_pure _
    | ok value =>
      refine Only.bind (only_perform.mpr h.cachePath.under) fun len => ?_
      dsimp only
      split
      · exact only_pure _
      · exact stays_prefetchChunks (h.ofText hdir) h.cachePath.under _ _
  exact htail.bind fun _ => only_perform.mpr h

/-- The files of a listing; the folders it pushes are folders of the mirror. -/
theorem stays_syncEntries {d : SyncDir} (hd : d.Stays cfg) : ∀ entries : List DirEntry,
    (∀ e ∈ entries, PlainName e.name) → Ensures (GivesNames cfg) (Effect.Stays cfg)
      (fun dirs => ∀ child ∈ dirs, SyncDir.Stays cfg child) (syncEntries d entries)
  | [], _ => ensures_pure (List.forall_mem_nil _)
  | e :: rest, h => by
      rw [List.forall_mem_cons] at h
      have ih := stays_syncEntries hd rest h.2
      obtain ⟨remote, cache⟩ := d
      obtain ⟨⟨p, hp, rfl⟩, hcache⟩ := hd
      have hremote := childRemote_eq (hp.proper hdir) h.1 cache
      rw [syncEntries]
      cases e.kind with
      | dir =>
        refine ih.bind fun more hmore => ensures_pure (List.forall_mem_cons.mpr ⟨?_, hmore⟩)
        exact ⟨⟨p.child e.name, hp.child h.1, hremote⟩, hcache.child h.1⟩
      | file =>
        have hfile : Only (Effect.Stays cfg) (syncFile ⟨p.text, cache⟩ e) := by
          refine Only.bind (only_perform.mpr (hcache.child h.1).under) fun len => ?_
          split
          · exact only_pure _
          · rw [hremote]
            exact stays_downloadToCache ((hp.child h.1).ofText hdir) hcache h.1 _
        exact hfile.ensures.bind fun _ _ => ih
      | symlink => exact ih
      | other => exact ih

/-- **A turn of the mirror.** -/
theorem stays_syncTurn {d : SyncDir} (hd : d.Stays cfg) :
    Ensures (GivesNames cfg) (Effect.Stays cfg)
      (fun pushed => ∀ dirs, pushed = some dirs → ∀ child ∈ dirs, SyncDir.Stays cfg child)
      (syncTurn d) := by
  have hask : Effect.Stays cfg (.call (.listDir d.remote)) := by
    obtain ⟨⟨p, hp, htext⟩, -⟩ := hd
    rw [htext]
    exact hp.ofText hdir
  have hmkdir : Only (Effect.Stays cfg) (FsProg.createDirAll d.cache) :=
    only_perform.mpr (.inl hd.2.under)
  refine hmkdir.ensures.bind fun _ _ => ?_
  refine Ensures.bind (ensures_perform hask fun a ha => ha) fun answer hanswer => ?_
  cases answer with
  | error e => exact ensures_pure fun dirs hdirs => by cases hdirs
  | ok value =>
    dsimp only
    split
    · refine ensures_pure fun dirs hdirs => ?_
      cases hdirs
      exact List.forall_mem_nil _
    · rename_i entries hentries
      refine (stays_syncEntries hdir hd entries (hanswer value entries rfl hentries)).bind
        fun pushed hpushed => ensures_pure fun dirs hdirs => ?_
      cases hdirs
      exact hpushed

end Tasks

/-! ## 6. Steps -/

section Steps

variable {ε : Type} {cfg : MountCfg} {env : EnvSem ε} {s t : Mount ε}

/-- A call of the queue. -/
theorem Anchored.withQueue (h : Anchored cfg s) {op : QueueOp PathBuf}
    (hok : s.uploads.permits op)
    (hop : ∀ p start stop, op = .enqueue p start stop → Beneath cfg.remoteDir p) :
    Anchored cfg { s with uploads := s.uploads.next op } :=
  { h with
    queue := h.queue.step ⟨hok, rfl⟩
    pending := by
      intro p x hx
      rcases h.queue.pending_of_step ⟨hok, rfl⟩ hx with hx | ⟨start, stop, heq, -⟩
      · exact h.pending p x hx
      · exact hop p start stop heq }

/-- A number for a path. -/
theorem Anchored.inoFor (h : Anchored cfg s) {p : PathBuf} (hp : Beneath cfg.remoteDir p) :
    Anchored cfg { s with inodes := (s.inodes.inoFor p).1 } :=
  { h with
    inodes := by
      intro ino q hq
      unfold InodeMap.inoFor at hq
      split at hq
      · exact h.inodes ino q hq
      · by_cases hino : ino = s.inodes.next
        · rw [hino, InodeMap.path, AList.lookup_insert] at hq
          cases hq
          exact hp
        · rw [InodeMap.path, AList.lookup_insert_ne hino] at hq
          exact h.inodes ino q hq }

/-- **One effect that waits for nothing**: it is one that stays. -/
theorem stepSem_stays (hplain : PlainListings cfg env) {e : Effect} {a : Answer e}
    (he : e.Stays cfg) (h : Anchored cfg s) (hx : stepSem env e s a t) :
    stepSem (staying cfg env) e s a t ∧ Anchored cfg t ∧ GivesNames cfg e a := by
  cases e with
  | pathFor ino =>
    obtain ⟨rfl, rfl⟩ := hx
    exact ⟨⟨rfl, rfl⟩, h, fun p hp => h.inodes ino p hp⟩
  | childPath parent name =>
    obtain ⟨rfl, rfl⟩ := hx
    cases hparent : s.inodes.path parent with
    | none =>
      have hchild : s.inodes.childPath parent name = (s.inodes, none) := by
        rw [InodeMap.childPath, hparent]
      exact ⟨⟨rfl, rfl⟩, by rw [hchild]; exact { h with }, by rw [hchild]; exact nofun⟩
    | some dir =>
      have hchild : s.inodes.childPath parent name =
          ((s.inodes.inoFor (dir.child name)).1, some (dir.child name)) := by
        rw [InodeMap.childPath, hparent]
      have hbelow := (h.inodes parent dir hparent).child he
      refine ⟨⟨rfl, rfl⟩, ?_, ?_⟩
      · rw [hchild]
        exact h.inoFor hbelow
      · rw [hchild]
        intro p hp
        cases hp
        exact hbelow
  | inoForPath p =>
    obtain ⟨rfl, rfl⟩ := hx
    exact ⟨⟨rfl, rfl⟩, h.inoFor he, trivial⟩
  | enqueue p start stop =>
    obtain ⟨hok, rfl⟩ := hx
    refine ⟨⟨hok, rfl⟩, h.withQueue hok fun q b e heq => ?_, trivial⟩
    cases heq
    exact he
  | finish p range outcome =>
    obtain ⟨hok, now, rfl⟩ := hx
    exact ⟨⟨hok, now, rfl⟩, h.withQueue hok fun q b e heq => (by cases heq), trivial⟩
  | kickPrefetch p =>
    obtain rfl : t = _ := hx
    refine ⟨rfl, ?_, trivial⟩
    split
    · exact h
    · exact { h with kicked := List.forall_mem_cons.mpr ⟨he, h.kicked⟩ }
  | prefetchDone p =>
    obtain rfl : t = _ := hx
    exact ⟨rfl, { h with }, trivial⟩
  | call req =>
    obtain ⟨env', hcall, rfl⟩ := hx
    refine ⟨⟨env', ⟨he, hcall⟩, rfl⟩,
      { h with sent := List.forall_mem_cons.mpr ⟨he, h.sent⟩ }, ?_⟩
    cases req with
    | listDir p => exact hplain.target p _ _ _ hcall
    | _ => trivial
  | readDir p =>
    obtain ⟨env', henv, rfl⟩ := hx
    exact ⟨⟨env', ⟨he, henv⟩, rfl⟩, { h with }, hplain.cache p _ _ _ henv⟩
  | waitBelow cap => exact hx.elim
  | waitDrain paths => exact hx.elim
  | _ =>
    obtain ⟨env', henv, rfl⟩ := hx
    exact ⟨⟨env', ⟨he, henv⟩, rfl⟩, { h with }, trivial⟩

variable (hdir : cfg.remoteDir.Proper) (hplain : PlainListings cfg env)

include hdir hplain

/-- The flusher. -/
theorem flusherStep_stays (h : Anchored cfg s) (hs : FlusherStep cfg env s t) :
    FlusherStep cfg (staying cfg env) s t ∧ Anchored cfg t := by
  cases hs with
  | claim hw now paths hok =>
    exact ⟨.claim hw now paths hok, h.withQueue hok fun p start stop heq => (by cases heq)⟩
  | @send _ hw p range ht hx =>
    have hpos := h.queue.task_pos ht
    have hbelow := h.pending p range.1 (h.queue.pending_of_task ht ⟨Nat.le_refl _, hpos⟩)
    have hsem : ∀ e (u : Mount ε) a v, e.Stays cfg → Anchored cfg u → stepSem env e u a v →
        stepSem (staying cfg env) e u a v ∧ Anchored cfg v ∧ GivesNames cfg e a :=
      fun _ _ _ _ he hI hu => stepSem_stays hplain he hI hu
    obtain ⟨hstay, hI, -⟩ := hx.simulates (f := fun s => s) hsem
      (stays_sendPiece hdir hbelow range).within h
    exact ⟨.send hw ht hstay, hI⟩

theorem flushes_stays (h : Anchored cfg s) (hs : Flushes cfg env s t) :
    Flushes cfg (staying cfg env) s t ∧ Anchored cfg t := by
  induction hs with
  | refl => exact ⟨.refl _, h⟩
  | step _ hs ih =>
    obtain ⟨hflush, hI⟩ := ih
    obtain ⟨hstep, hI⟩ := flusherStep_stays hdir hplain hI hs
    exact ⟨.step hflush hstep, hI⟩

/-- One effect. -/
theorem mountSem_stays {e : Effect} {a : Answer e} (he : e.Stays cfg) (h : Anchored cfg s)
    (hx : mountSem cfg env e s a t) :
    mountSem cfg (staying cfg env) e s a t ∧ Anchored cfg t ∧ GivesNames cfg e a := by
  cases e with
  | waitBelow cap =>
    obtain ⟨hflush, hbelow⟩ := hx
    obtain ⟨hstay, hI⟩ := flushes_stays hdir hplain h hflush
    exact ⟨⟨hstay, hbelow⟩, hI, trivial⟩
  | waitDrain paths =>
    obtain ⟨hflush, hend⟩ := hx
    obtain ⟨hstay, hI⟩ := flushes_stays hdir hplain h hflush
    exact ⟨⟨hstay, hend⟩, hI, trivial⟩
  | _ => exact @stepSem_stays _ cfg env s t hplain _ a he h hx

/-- A handler or a task. -/
theorem exec_stays {α : Type} {p : FsProg α} (hp : Within (GivesNames cfg) (Effect.Stays cfg) p)
    {a : α} (h : Anchored cfg s) (hx : Exec (mountSem cfg env) p s a t) :
    Exec (mountSem cfg (staying cfg env)) p s a t ∧ Anchored cfg t ∧
      Prog.Returns (GivesNames cfg) p a := by
  have hsem : ∀ e (u : Mount ε) a v, e.Stays cfg → Anchored cfg u → mountSem cfg env e u a v →
      mountSem cfg (staying cfg env) e u a v ∧ Anchored cfg v ∧ GivesNames cfg e a :=
    fun _ _ _ _ he hI hu => mountSem_stays hdir hplain he hI hu
  exact hx.simulates (f := fun s => s) hsem hp h

/-- **The step lemma.** -/
theorem mountStep_stays (h : Anchored cfg s) {e : MountEvent} (he : e.Plain)
    (hs : MountStep cfg env s e t) :
    MountStep cfg (staying cfg env) s e t ∧ Anchored cfg t := by
  cases hs with
  | request hx =>
    obtain ⟨hstay, hI, -⟩ := exec_stays hdir hplain (stays_handle hdir he) h hx
    exact ⟨.request hstay, hI⟩
  | @prefetch _ p hk hx =>
    have hkept : Anchored cfg { s with kicked := s.kicked.erase p } :=
      { h with kicked := fun q hq => h.kicked q (List.mem_of_mem_erase hq) }
    obtain ⟨hstay, hI, -⟩ := exec_stays hdir hplain
      (stays_prefetchTask hdir (h.kicked p hk)).within hkept hx
    exact ⟨.prefetch hk hstay, hI⟩
  | flush hs =>
    obtain ⟨hstay, hI⟩ := flusherStep_stays hdir hplain h hs
    exact ⟨.flush hstay, hI⟩
  | @sync u d rest pushed hd hx =>
    have hqueue := h.sync
    rw [hd, List.forall_mem_append, List.forall_mem_singleton] at hqueue
    have hempty : Anchored cfg { s with sync := [] } :=
      { h with sync := List.forall_mem_nil _ }
    have hturn := stays_syncTurn hdir hqueue.2
    obtain ⟨hstay, hI, hret⟩ := exec_stays hdir hplain hturn.1 hempty hx
    refine ⟨.sync hd hstay, { hI with sync := ?_ }⟩
    cases pushed with
    | none => exact List.forall_mem_nil _
    | some dirs => exact List.forall_mem_append.mpr ⟨hqueue.1, hturn.2 _ hret dirs rfl⟩

end Steps

/-! ## 7. Runs -/

section Runs

variable {ε : Type} {cfg : MountCfg} {env : EnvSem ε}

/-- A new mount knows the mounted directory alone. -/
theorem anchored_init (hdir : cfg.remoteDir.Proper) {s : Mount ε} (h : MountInit cfg s) :
    Anchored cfg s := by
  obtain ⟨now, env, rfl⟩ := h
  have hinit : QueueInit (⟨.new now, []⟩ : QueueCfg PathBuf) := ⟨now, rfl⟩
  refine ⟨cfgInv_init hinit, fun ino p hp => ?_, fun p x hx => absurd hx (hinit.not_pending p x),
    List.forall_mem_nil _, ?_, ?_⟩
  · by_cases hino : ino = 1
    · rw [hino, InodeMap.path, InodeMap.new, AList.lookup_insert] at hp
      cases hp
      exact .self _
    · rw [InodeMap.path, InodeMap.new, AList.lookup_insert_ne hino, AList.lookup_empty] at hp
      cases hp
  · exact List.forall_mem_singleton.mpr ⟨⟨cfg.remoteDir, .self _, rfl⟩, .self _⟩
  · exact List.forall_mem_singleton.mpr ((Beneath.self cfg.remoteDir).ofText hdir)

/-- **A mount stays where it was told to.** In every run of a mount, with names of a file system in
    the kernel's requests and in the listings, each request names paths that the target finds below
    the mounted directory, and each file touched on the host lies below the cache directory: the
    run is one in an environment where nothing else is ever done. -/
theorem mount_stays (hdir : cfg.remoteDir.Proper) (hplain : PlainListings cfg env)
    {hist : List (Mount ε × MountEvent)} {s : Mount ε} (h : MountRun cfg env hist s)
    (hnames : ∀ x ∈ hist, x.2.Plain) :
    MountRun cfg (staying cfg env) hist s ∧ ∀ req ∈ s.sent, req.Stays cfg.remoteDir := by
  suffices hall : MountRun cfg (staying cfg env) hist s ∧ Anchored cfg s from
    ⟨hall.1, hall.2.sent⟩
  induction h with
  | start h0 => exact ⟨.start h0, anchored_init hdir h0⟩
  | step _ hs ih =>
    rw [List.forall_mem_cons] at hnames
    obtain ⟨hrun, hI⟩ := ih hnames.2
    obtain ⟨hstep, hI⟩ := mountStep_stays hdir hplain hI hnames.1 hs
    exact ⟨.step hrun hstep, hI⟩

end Runs

/-- The target's listing: one folder. -/
def docsListing : Json := listDirJson [⟨"docs", .dir, 0, 0⟩]

/-- A target with that folder, and a cache directory that cannot be listed. -/
def docsEnv : EnvSem Unit
  | .call (.listDir _), _, a, _ => a = .ok docsListing
  | .readDir _, _, a, _ => a = none
  | _, _, _, _ => True

theorem docs_plain : PlainListings strayMount docsEnv where
  target p u a v ha value entries hvalue hentries := by
    rw [show a = .ok docsListing from ha] at hvalue
    cases hvalue
    have hlisted : listDirEntries docsListing = some [⟨"docs", .dir, 0, 0⟩] := by
      refine listDirEntries_listDirJson fun e he => ?_
      rw [List.mem_singleton.mp he]
      exact ⟨by decide, by decide⟩
    rw [hlisted] at hentries
    cases hentries
    exact List.forall_mem_singleton.mpr ⟨by decide, by decide⟩
  cache p u a v ha entries hentries := by
    rw [show a = none from ha] at hentries
    cases hentries

theorem strayMount_proper : strayMount.remoteDir.Proper := by
  refine ⟨rfl, fun part hpart => ?_⟩
  rw [List.mem_singleton.mp hpart]
  exact PlainName.isPart ⟨by decide, by decide⟩

/-- A mount whose mirror has these folders left. -/
def docsState (sync : List SyncDir) (sent : List BridgeRequest) : Mount Unit :=
  ⟨.new strayMount.remoteDir, ⟨.new 0, []⟩, [], [], sync, sent, ()⟩

/-- The mirror lists the mounted directory, and goes down into its folder. -/
theorem mount_stays_docs :
    let s := docsState [⟨strayMount.remoteDir.text, strayMount.cacheDir⟩]
      [.stat strayMount.remoteDir.text]
    let t := docsState [⟨"/srv/docs", ⟨true, ["cache", "mount", "docs"]⟩⟩]
      [.listDir strayMount.remoteDir.text, .stat strayMount.remoteDir.text]
    MountRun strayMount (staying strayMount docsEnv) [(s, .sync)] t ∧
      ∀ req ∈ t.sent, req.Stays strayMount.remoteDir := by
  have hturn : Exec (mountSem strayMount docsEnv)
      (syncTurn ⟨strayMount.remoteDir.text, strayMount.cacheDir⟩)
      (docsState [] [.stat strayMount.remoteDir.text])
      (some [⟨"/srv/docs", ⟨true, ["cache", "mount", "docs"]⟩⟩])
      (docsState [] [.listDir strayMount.remoteDir.text, .stat strayMount.remoteDir.text]) := by
    refine .ask (a := ()) ⟨(), trivial, rfl⟩ ?_
    have hlist : docsEnv (.call (.listDir strayMount.remoteDir.text)) () (.ok docsListing) () := rfl
    refine .ask (a := .ok docsListing) ⟨(), hlist, rfl⟩ ?_
    exact .done _ _
  have hstep : MountStep strayMount docsEnv
      (docsState [⟨strayMount.remoteDir.text, strayMount.cacheDir⟩]
        [.stat strayMount.remoteDir.text]) .sync
      (docsState [⟨"/srv/docs", ⟨true, ["cache", "mount", "docs"]⟩⟩]
        [.listDir strayMount.remoteDir.text, .stat strayMount.remoteDir.text]) :=
    @MountStep.sync _ strayMount docsEnv _ (docsState [] [.listDir strayMount.remoteDir.text,
      .stat strayMount.remoteDir.text]) _ []
      (some [⟨"/srv/docs", ⟨true, ["cache", "mount", "docs"]⟩⟩]) rfl hturn
  refine mount_stays strayMount_proper docs_plain (.step (.start ⟨0, (), rfl⟩) hstep) ?_
  exact List.forall_mem_singleton.mpr trivial

end Relayfs

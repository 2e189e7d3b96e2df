/-
  File:      Relayfs/Fuse/CachePaths.lean
  Subject:   WHERE THE NAMES OF A LISTING LEAD (bridge/src/fuse_fs.rs: `readdir`,
             `background_sync_folder`, `download_to_cache`): which local paths are created, written
             or renamed, when the target chooses the names?

  Paths lead where their components say: a name goes down, `..` goes up, and an absolute name
  replaces what it is joined to. Links of the cache directory are not followed.

  * `PathBuf.resolve`, `Inside` -- where a path leads, and what lies in a directory;
  * `TempFile.path` -- the temporary file of a download (`temps_inside_iff`);
  * `Effect.Kept` -- what an effect creates, writes or renames lies in the cache directory;
  * `NamesKept` -- the names that lead nowhere else;
  * `local_paths_kept_iff` -- everything stays in the cache directory exactly for those names;
    `plain_names_kept` -- for the names that a file system has, it does.
-/
import Mathlib.Data.Nat.Digits.Defs
import Relayfs.Fuse.Background

namespace Relayfs

open Lib

/-! ## 1. Where a path leads -/

namespace PathBuf

/-- One component further. `..` goes up; at the root it stays, and above the current directory it
    is kept. -/
def go (loc : PathBuf) (part : String) : PathBuf :=
  if part ≠ ".." then ⟨loc.absolute, loc.parts ++ [part]⟩
  else
    match loc.parts.getLast? with
    | none => ⟨loc.absolute, if loc.absolute then [] else [".."]⟩
    | some last =>
        ⟨loc.absolute, if last = ".." then loc.parts ++ [".."] else loc.parts.dropLast⟩

/-- Where a path leads. -/
def resolve (p : PathBuf) : PathBuf := p.parts.foldl go ⟨p.absolute, []⟩

/-- A location is a directory, or lies in it. -/
def Inside (dir loc : PathBuf) : Prop :=
  loc.absolute = dir.resolve.absolute ∧ dir.resolve.parts <+: loc.parts ∧
    ".." ∉ loc.parts.drop dir.resolve.parts.length

instance inside_decidable (dir loc : PathBuf) : Decidable (Inside dir loc) :=
  inferInstanceAs (Decidable (_ ∧ _ ∧ _))

/-- A directory that is there when the mount starts: the root or the current directory, and those
    the path of the cache directory goes through, which `mount` creates. -/
def Stands (dir q : PathBuf) : Prop := q.parts = [] ∨ q.resolve ∈ dir.ancestors.map resolve

instance stands_decidable (dir q : PathBuf) : Decidable (Stands dir q) :=
  inferInstanceAs (Decidable (_ ∨ _))

/-- Every directory that `create_dir_all` may have to create for a path lies in `dir`. -/
def MayCreate (dir p : PathBuf) : Prop :=
  ∀ q ∈ p.ancestors, Stands dir q ∨ Inside dir q.resolve

instance mayCreate_decidable (dir p : PathBuf) : Decidable (MayCreate dir p) :=
  inferInstanceAs (Decidable (∀ q ∈ p.ancestors, _))

@[simp] theorem go_absolute (loc : PathBuf) (part : String) :
    (loc.go part).absolute = loc.absolute := by
  unfold go
  split
  · rfl
  · split <;> rfl

theorem go_name {part : String} (h : part ≠ "..") (loc : PathBuf) :
    loc.go part = ⟨loc.absolute, loc.parts ++ [part]⟩ := if_pos h

theorem resolve_append (a : Bool) (parts : List String) (part : String) :
    resolve ⟨a, parts ++ [part]⟩ = (resolve ⟨a, parts⟩).go part :=
  List.foldl_append

variable {dir loc : PathBuf}

/-- A location in a directory, by the components that are left. -/
theorem inside_iff : Inside dir loc ↔ loc.absolute = dir.resolve.absolute ∧
    ∃ rest, loc.parts = dir.resolve.parts ++ rest ∧ ".." ∉ rest := by
  unfold Inside
  constructor
  · intro h
    obtain ⟨habs, ⟨rest, hrest⟩, hdots⟩ := h
    rw [← hrest, List.drop_left] at hdots
    exact ⟨habs, rest, hrest.symm, hdots⟩
  · intro h
    obtain ⟨habs, rest, hrest, hdots⟩ := h
    refine ⟨habs, ⟨rest, hrest.symm⟩, ?_⟩
    rw [hrest, List.drop_left]
    exact hdots

/-- A name below a location in the directory. -/
theorem Inside.go_name {part : String} (h : Inside dir loc) (hpart : part ≠ "..") :
    Inside dir (loc.go part) := by
  rw [inside_iff] at h ⊢
  obtain ⟨habs, rest, hrest, hdots⟩ := h
  refine ⟨(go_absolute _ _).trans habs, rest ++ [part], ?_, ?_⟩
  · rw [PathBuf.go_name hpart, hrest, List.append_assoc]
  · intro hmem
    rcases List.mem_append.mp hmem with hd | hd
    · exact hdots hd
    · exact hpart (List.mem_singleton.mp hd).symm

/-- Where two names below a location lie in the directory, the location does: one of them is not
    the directory itself. -/
theorem inside_of_go_names {x y : String} (hx : x ≠ "..") (hy : y ≠ "..") (hxy : x ≠ y)
    (h1 : Inside dir (loc.go x)) (h2 : Inside dir (loc.go y)) : Inside dir loc := by
  rw [PathBuf.go_name hx, inside_iff] at h1
  rw [PathBuf.go_name hy, inside_iff] at h2
  obtain ⟨habs, rest, hrest, hdots⟩ := h1
  obtain ⟨-, rest', hrest', hdots'⟩ := h2
  refine inside_iff.mpr ⟨habs, ?_⟩
  rcases List.eq_nil_or_concat rest with rfl | ⟨init, last, rfl⟩
  · rcases List.eq_nil_or_concat rest' with rfl | ⟨init, last, rfl⟩
    · -- both names are the last component of the directory
      have heq : loc.parts ++ [x] = loc.parts ++ [y] := hrest.trans hrest'.symm
      exact absurd (List.singleton_injective (List.append_cancel_left heq)) hxy
    · rw [List.concat_eq_append, ← List.append_assoc] at hrest'
      rw [List.concat_eq_append] at hdots'
      exact ⟨init, (List.append_inj_left' hrest' rfl),
        fun h => hdots' (List.mem_append_left _ h)⟩
  · rw [List.concat_eq_append, ← List.append_assoc] at hrest
    rw [List.concat_eq_append] at hdots
    exact ⟨init, (List.append_inj_left' hrest rfl), fun h => hdots (List.mem_append_left _ h)⟩

end PathBuf

/-! ## 2. The temporary file of a download -/

/-- `file_stem` of a name: what stands before its last dot, unless that is nothing. -/
def fileStem (name : String) : String :=
  match name.toList.reverse.dropWhile (· ≠ '.') with
  | _ :: c :: rest => String.ofList (c :: rest).reverse
  | _ => name

/-- `with_extension`. -/
def PathBuf.withExtension (p : PathBuf) (ext : String) : PathBuf :=
  match p.fileName with
  | some name => ⟨p.absolute, p.parts.dropLast ++ [fileStem name ++ "." ++ ext]⟩
  | none => p

/-- `{:08x}` of a `u32`. -/
def hex8 (n : Nat) : String :=
  String.ofList ((List.range 8).reverse.map fun i => Nat.digitChar (n / 16 ^ i % 16))

/-- The path of a temporary file. -/
def TempFile.path (t : TempFile) : PathBuf := t.target.withExtension ("tmp-" ++ hex8 t.tag)

/-- The directory a temporary file for a path lies in; the path itself where it ends in no
    name. -/
def PathBuf.holder (p : PathBuf) : PathBuf :=
  match p.fileName with
  | some _ => ⟨p.absolute, p.parts.dropLast⟩
  | none => p

section Temp

variable {dir p : PathBuf}

/-- A path that ends in a name. -/
theorem PathBuf.parts_of_fileName {name : String} (h : p.fileName = some name) :
    p.parts = p.parts.dropLast ++ [name] ∧ name ≠ ".." := by
  obtain ⟨hlast, hname⟩ := Option.filter_eq_some_iff.mp h
  exact ⟨(List.dropLast_append_getLast? name hlast).symm, of_decide_eq_true hname⟩

/-- The temporary name is no `..`. -/
theorem tempName_ne (stem : String) (tag : Nat) : stem ++ "." ++ ("tmp-" ++ hex8 tag) ≠ ".." := by
  intro h
  have hmem : 't' ∈ (stem ++ "." ++ ("tmp-" ++ hex8 tag)).toList := by simp
  rw [h] at hmem
  exact absurd hmem (by decide)

/-- The temporary file lies in the directory of its target. -/
theorem resolve_temp {name : String} (h : p.fileName = some name) (tag : Nat) :
    (TempFile.path ⟨p, tag⟩).resolve =
      p.holder.resolve.go (fileStem name ++ "." ++ ("tmp-" ++ hex8 tag)) := by
  simp only [TempFile.path, PathBuf.withExtension, PathBuf.holder, h]
  exact PathBuf.resolve_append _ _ _

theorem resolve_target {name : String} (h : p.fileName = some name) :
    p.resolve = p.holder.resolve.go name := by
  simp only [PathBuf.holder, h]
  rw [← PathBuf.resolve_append, ← (PathBuf.parts_of_fileName h).1]

/-- A file lies in the directory where its temporary files do. -/
theorem PathBuf.Inside.of_holder (h : Inside dir p.holder.resolve) : Inside dir p.resolve := by
  cases hname : p.fileName with
  | none =>
    simp only [holder, hname] at h
    exact h
  | some name =>
    rw [resolve_target hname]
    exact h.go_name (parts_of_fileName hname).2

/-- **The temporary files of a path**, whatever their random numbers, lie in the directory exactly
    where their holder does. -/
theorem temps_inside_iff :
    (∀ tag, tag < 2 ^ 32 → PathBuf.Inside dir (TempFile.path ⟨p, tag⟩).resolve) ↔
      PathBuf.Inside dir p.holder.resolve := by
  cases hname : p.fileName with
  | none =>
    have hpath : ∀ tag, TempFile.path ⟨p, tag⟩ = p := fun tag => by
      simp only [TempFile.path, PathBuf.withExtension, hname]
    simp only [PathBuf.holder, hname, hpath]
    exact ⟨fun h => h 0 (by omega), fun h _ _ => h⟩
  | some name =>
    constructor
    · intro h
      have h0 := h 0 (by omega)
      have h1 := h 1 (by omega)
      rw [resolve_temp hname] at h0 h1
      refine PathBuf.inside_of_go_names (tempName_ne _ _) (tempName_ne _ _) (fun heq => ?_) h0 h1
      have hlist := congrArg String.toList heq
      simp only [String.toList_append, List.append_cancel_left_eq] at hlist
      exact absurd hlist (by decide)
    · intro h tag _
      rw [resolve_temp hname]
      exact h.go_name (tempName_ne _ _)

end Temp

/-! ## 3. What the effects touch -/

/-- The files an effect creates, writes or renames. -/
def Effect.files : Effect → List PathBuf
  | .writeAt p _ _ | .setLen p _ | .createFile p | .symlinkFile _ p => [p]
  | .renameFile source dest => [source, dest]
  | .createTemp t | .writeTemp t _ _ => [t.path]
  | .installTemp t => [t.path, t.target]
  | _ => []

/-- What an effect creates, writes or renames lies in the directory. -/
def Effect.Kept (dir : PathBuf) : Effect → Prop
  | .createDirAll p => PathBuf.MayCreate dir p
  | e => ∀ p ∈ e.files, PathBuf.Inside dir p.resolve

/-- **What a target may answer.** `T path value`: it may answer a LIST_DIR of `path` with `value`;
    an answer that is no listing, or an error, may always come. `inodes` are the paths of the
    inode map. -/
def Allowed (T : String → Json → Prop) (inodes : Nat → Option PathBuf) :
    (e : Effect) → Answer e → Prop
  | .call (.listDir path), answer =>
      ∀ value, answer = .ok value → T path value ∨ listDirEntries value = none
  | .pathFor ino, path => path = inodes ino
  | .randomTag, tag => Nat.lt tag (2 ^ 32)
  | _, _ => True

/-- The target may list a folder with these entries. -/
def Listed (T : String → Json → Prop) (path : String) (entries : List DirEntry) : Prop :=
  ∃ value, T path value ∧ listDirEntries value = some entries

/-- The paths of a file entry: an empty file is only created; for another one its directory is
    created, and the temporary file beside it. -/
def FileOk (dir p : PathBuf) (size : Nat) : Prop :=
  if size = 0 then PathBuf.Inside dir p.resolve
  else (∀ parent, p.parent = some parent → PathBuf.MayCreate dir parent) ∧
    PathBuf.Inside dir p.holder.resolve

instance fileOk_decidable (dir p : PathBuf) (size : Nat) : Decidable (FileOk dir p size) :=
  inferInstanceAs (Decidable (ite _ _ _))

/-! ## 4. A download -/

namespace Background

open FsProg

section Programs

variable {T : String → Json → Prop} {inodes : Nat → Option PathBuf} {dir : PathBuf}

theorem fetchChunk_kept (path : String) (start limit : Nat) :
    (fetchChunk path start limit).Only (Effect.Kept dir) := by
  have hcall : (FsProg.call (.readFile path (some start) (some limit))).Only (Effect.Kept dir) :=
    Prog.only_perform.mpr nofun
  refine hcall.bind fun answer => ?_
  cases answer with
  | ok value => exact Prog.only_pure _
  | error e => exact Prog.only_pure _

theorem downloadChunks_kept {t : TempFile} (h : PathBuf.Inside dir t.path.resolve) (path : String)
    (size : Nat) : ∀ starts, (downloadChunks path t size starts).Only (Effect.Kept dir)
  | [] => Prog.only_pure _
  | start :: rest => by
      have hwrite : ∀ bytes, (FsProg.writeTemp t start bytes).Only (Effect.Kept dir) :=
        fun bytes => Prog.only_perform.mpr fun p hp => List.mem_singleton.mp hp ▸ h
      refine (fetchChunk_kept path start _).bind fun chunk => ?_
      cases chunk with
      | none => exact Prog.only_pure _
      | some bytes =>
        refine (hwrite bytes).bind fun written => ?_
        split
        · exact downloadChunks_kept h path size rest
        · exact Prog.only_pure _

theorem within_createParent {ok : (e : Effect) → Answer e → Prop} (p : PathBuf) :
    (RemoteFs.createParent p).Within ok (Effect.Kept dir) ↔
      ∀ parent, p.parent = some parent → PathBuf.MayCreate dir parent := by
  unfold RemoteFs.createParent
  cases p.parent with
  | none => exact ⟨fun _ _ h => (by cases h), fun _ => trivial⟩
  | some parent =>
    refine Prog.within_perform.trans ⟨fun h q hq => ?_, fun h => h parent rfl⟩
    cases hq
    exact h

theorem returns_createParent (p : PathBuf) :
    (RemoteFs.createParent p).Returns (Allowed T inodes) () := by
  unfold RemoteFs.createParent
  split
  · exact Prog.returns_perform.mpr trivial
  · rfl

/-- **A download** stays in the directory exactly if the paths of its file do. -/
theorem within_downloadToCache (path : String) (p : PathBuf) (size : Nat) :
    (downloadToCache path p size).Within (Allowed T inodes) (Effect.Kept dir) ↔
      FileOk dir p size := by
  unfold downloadToCache FileOk
  split
  · exact Prog.within_perform.trans List.forall_mem_singleton
  · rw [← temps_inside_iff, Prog.within_bind, within_createParent]
    refine and_congr_right fun _ => ?_
    constructor
    · intro h tag htag
      have hrest := h () (returns_createParent p)
      rw [Prog.within_bind] at hrest
      have htemp := hrest.2 tag (Prog.returns_perform.mpr htag)
      rw [Prog.within_bind] at htemp
      exact Prog.within_perform.mp htemp.1 _ (List.mem_singleton_self _)
    · intro h _ _
      have hholder := temps_inside_iff.mp h
      refine Prog.within_bind.mpr ⟨Prog.within_perform.mpr nofun,
        fun tag htag => ?_⟩
      have htemp := h tag (Prog.returns_perform.mp htag)
      have hcreate : (FsProg.createTemp ⟨p, tag⟩).Only (Effect.Kept dir) :=
        Prog.only_perform.mpr fun q hq => List.mem_singleton.mp hq ▸ htemp
      refine Prog.Only.within (hcreate.bind fun _ =>
        (downloadChunks_kept htemp path size _).bind fun all => ?_)
      split
      · refine Prog.Only.bind (Prog.only_perform.mpr fun q hq => ?_) fun _ => Prog.only_pure _
        rcases List.mem_cons.mp hq with rfl | hq
        · exact htemp
        · exact List.mem_singleton.mp hq ▸ PathBuf.Inside.of_holder hholder
      · exact Prog.only_perform.mpr nofun

/-! ## 5. The mirror -/

theorem within_syncFile (d : SyncDir) (e : DirEntry) :
    (syncFile d e).Within (Allowed T inodes) (Effect.Kept dir) ↔
      FileOk dir (d.cache.child e.name) e.size := by
  unfold syncFile
  rw [Prog.within_bind]
  constructor
  · intro h
    -- the cache has no such file yet
    have habsent := h.2 none (Prog.returns_perform.mpr trivial)
    exact (within_downloadToCache _ _ _).mp habsent
  · intro h
    refine ⟨Prog.within_perform.mpr nofun, fun len _ => ?_⟩
    split
    · exact Prog.within_pure _
    · exact (within_downloadToCache _ _ _).mpr h

theorem returns_syncFile (d : SyncDir) (e : DirEntry) :
    (syncFile d e).Returns (Allowed T inodes) () := by
  refine Prog.returns_bind.mpr ⟨some e.size, Prog.returns_perform.mpr trivial, ?_⟩
  rw [if_pos rfl]
  rfl

/-- The folders a turn pushes for a listing. -/
def SyncDir.folders (d : SyncDir) (entries : List DirEntry) : List SyncDir :=
  (entries.filter (·.kind = .dir)).map fun e => ⟨d.childRemote e.name, d.cache.child e.name⟩

theorem within_syncEntries (d : SyncDir) : ∀ entries,
    (syncEntries d entries).Within (Allowed T inodes) (Effect.Kept dir) ↔
      ∀ e ∈ entries, e.kind = .file → FileOk dir (d.cache.child e.name) e.size
  | [] => ⟨fun _ e he => absurd he List.not_mem_nil, fun _ => trivial⟩
  | e :: rest => by
      have ih := within_syncEntries d rest
      rw [List.forall_mem_cons, ← ih, syncEntries]
      cases hkind : e.kind with
      | dir =>
        refine Prog.within_bind.trans ⟨fun h => ⟨nofun, h.1⟩, fun h => ⟨h.2, ?_⟩⟩
        exact fun more _ => Prog.within_pure _
      | file =>
        refine Prog.within_bind.trans ⟨fun h => ?_, fun h => ?_⟩
        · exact ⟨fun _ => (within_syncFile d e).mp h.1, h.2 () (returns_syncFile d e)⟩
        · exact ⟨(within_syncFile d e).mpr (h.1 rfl), fun _ _ => h.2⟩
      | symlink => exact ⟨fun h => ⟨nofun, h⟩, fun h => h.2⟩
      | other => exact ⟨fun h => ⟨nofun, h⟩, fun h => h.2⟩

theorem returns_syncEntries (d : SyncDir) : ∀ entries dirs,
    (syncEntries d entries).Returns (Allowed T inodes) dirs ↔ dirs = d.folders entries
  | [], dirs => Iff.rfl
  | e :: rest, dirs => by
      have ih := returns_syncEntries d rest
      rw [syncEntries, SyncDir.folders]
      cases hkind : e.kind with
      | dir =>
        rw [List.filter_cons_of_pos (by rw [hkind]; decide), List.map_cons, Prog.returns_bind]
        constructor
        · intro h
          obtain ⟨more, hmore, hdirs⟩ := h
          rw [(ih more).mp hmore] at hdirs
          exact hdirs
        · exact fun h => ⟨_, (ih _).mpr rfl, h⟩
      | file =>
        rw [List.filter_cons_of_neg (by rw [hkind]; decide), Prog.returns_bind]
        constructor
        · intro h
          obtain ⟨-, -, hdirs⟩ := h
          exact (ih dirs).mp hdirs
        · exact fun h => ⟨(), returns_syncFile d e, (ih dirs).mpr h⟩
      | symlink =>
        rw [List.filter_cons_of_neg (by rw [hkind]; decide)]
        exact ih dirs
      | other =>
        rw [List.filter_cons_of_neg (by rw [hkind]; decide)]
        exact ih dirs

/-- A turn asks for the listing of its folder. -/
theorem within_syncTurn (d : SyncDir) :
    (syncTurn d).Within (Allowed T inodes) (Effect.Kept dir) ↔ PathBuf.MayCreate dir d.cache ∧
      ∀ entries, Listed T d.remote entries → ∀ e ∈ entries, e.kind = .file →
        FileOk dir (d.cache.child e.name) e.size := by
  unfold syncTurn
  rw [Prog.within_bind]
  refine and_congr Prog.within_perform ⟨fun h entries hlisted => ?_, fun h _ _ => ?_⟩
  · obtain ⟨value, hT, hentries⟩ := hlisted
    have hrest := h () (Prog.returns_perform.mpr trivial)
    rw [Prog.within_bind] at hrest
    have hturn := hrest.2 (.ok value) (Prog.returns_perform.mpr fun v hv => by
      cases hv
      exact .inl hT)
    simp only [hentries] at hturn
    exact (within_syncEntries d entries).mp (Prog.within_bind.mp hturn).1
  · refine Prog.within_bind.mpr ⟨Prog.within_perform.mpr nofun,
      fun answer hanswer => ?_⟩
    cases answer with
    | error e => exact Prog.within_pure _
    | ok value =>
      dsimp only
      split
      · exact Prog.within_pure _
      · rename_i entries hentries
        refine Prog.within_bind.mpr ⟨(within_syncEntries d entries).mpr ?_, fun _ _ => trivial⟩
        rcases Prog.returns_perform.mp hanswer value rfl with hT | hnone
        · exact h entries ⟨value, hT, hentries⟩
        · rw [hnone] at hentries
          cases hentries

/-- A turn may push the folders of a listing, and may push nothing. -/
theorem returns_syncTurn (d : SyncDir) (dirs : List SyncDir) :
    (syncTurn d).Returns (Allowed T inodes) (some dirs) ↔
      dirs = [] ∨ ∃ entries, Listed T d.remote entries ∧ dirs = d.folders entries := by
  unfold syncTurn
  rw [Prog.returns_bind]
  constructor
  · intro h
    obtain ⟨-, -, hrest⟩ := h
    obtain ⟨answer, hanswer, hturn⟩ := Prog.returns_bind.mp hrest
    cases answer with
    | error e => cases hturn
    | ok value =>
      dsimp only at hturn
      split at hturn
      · cases hturn
        exact .inl rfl
      · rename_i entries hentries
        obtain ⟨pushed, hpushed, hdirs⟩ := Prog.returns_bind.mp hturn
        cases hdirs
        rcases Prog.returns_perform.mp hanswer value rfl with hT | hnone
        · exact .inr ⟨entries, ⟨value, hT, hentries⟩, (returns_syncEntries d _ _).mp hpushed⟩
        · rw [hnone] at hentries
          cases hentries
  · intro h
    refine ⟨(), Prog.returns_perform.mpr trivial, Prog.returns_bind.mpr ?_⟩
    rcases h with rfl | ⟨entries, ⟨value, hT, hentries⟩, rfl⟩
    · exact ⟨.ok .null, Prog.returns_perform.mpr fun v hv => by cases hv; exact .inr rfl, rfl⟩
    · refine ⟨.ok value, Prog.returns_perform.mpr fun v hv => by cases hv; exact .inl hT, ?_⟩
      simp only [hentries]
      exact Prog.returns_bind.mpr ⟨_, (returns_syncEntries d _ _).mpr rfl, rfl⟩

/-- The folders the mirror may come to, from one on. -/
inductive Visits (T : String → Json → Prop) (root : SyncDir) : SyncDir → Prop where
  | root : Visits T root root
  | sub {d d' : SyncDir} {entries : List DirEntry} (h : Visits T root d)
      (hlisted : Listed T d.remote entries) (hd : d' ∈ d.folders entries) : Visits T root d'

/-- The mirror of a queue of folders, however many turns it makes, does only what is kept. -/
def MirrorKept (T : String → Json → Prop) (inodes : Nat → Option PathBuf) (dir : PathBuf)
    (queue : List SyncDir) : Prop :=
  ∀ turns, (backgroundSync turns queue).Within (Allowed T inodes) (Effect.Kept dir)

/-- Its first turn, and what it does after it. -/
theorem MirrorKept.turn {d : SyncDir} {queue : List SyncDir}
    (h : MirrorKept T inodes dir (d :: queue)) :
    (syncTurn d).Within (Allowed T inodes) (Effect.Kept dir) ∧
      ∀ dirs, (syncTurn d).Returns (Allowed T inodes) (some dirs) →
        MirrorKept T inodes dir (dirs.reverse ++ queue) := by
  constructor
  · exact (Prog.within_bind.mp (h 1)).1
  · intro dirs hdirs turns
    exact (Prog.within_bind.mp (h (turns + 1))).2 (some dirs) hdirs

/-- Every folder of the queue may come first: the turns before it may push nothing. -/
theorem MirrorKept.of_mem {d : SyncDir} : ∀ {queue : List SyncDir},
    MirrorKept T inodes dir queue → d ∈ queue → ∃ rest, MirrorKept T inodes dir (d :: rest)
  | first :: queue, h, hd => by
      rcases List.mem_cons.mp hd with rfl | hd
      · exact ⟨queue, h⟩
      · exact MirrorKept.of_mem (h.turn.2 [] ((returns_syncTurn first []).mpr (.inl rfl))) hd

/-- Every folder the mirror may come to may come first. -/
theorem MirrorKept.visits {root d : SyncDir} (h : MirrorKept T inodes dir [root])
    (hd : Visits T root d) : ∃ rest, MirrorKept T inodes dir (d :: rest) := by
  induction hd with
  | root => exact ⟨[], h⟩
  | sub _ hlisted hd ih =>
    obtain ⟨rest, hrest⟩ := ih
    refine (hrest.turn.2 _ ((returns_syncTurn _ _).mpr (.inr ⟨_, hlisted, rfl⟩))).of_mem ?_
    exact List.mem_append_left _ (List.mem_reverse.mpr hd)

/-- **The mirror**, by the turns it may make. -/
theorem mirrorKept_iff (root : SyncDir) :
    MirrorKept T inodes dir [root] ↔ ∀ d, Visits T root d →
      (syncTurn d).Within (Allowed T inodes) (Effect.Kept dir) := by
  constructor
  · intro h d hd
    obtain ⟨rest, hrest⟩ := h.visits hd
    exact hrest.turn.1
  · intro h turns
    have hqueue : ∀ turns queue, (∀ d ∈ queue, Visits T root d) →
        (backgroundSync turns queue).Within (Allowed T inodes) (Effect.Kept dir) := by
      intro turns
      induction turns with
      | zero => exact fun queue _ => trivial
      | succ turns ih =>
        intro queue hvisits
        cases queue with
        | nil => trivial
        | cons d queue =>
          rw [List.forall_mem_cons] at hvisits
          refine Prog.within_bind.mpr ⟨h d hvisits.1, fun pushed hpushed => ?_⟩
          cases pushed with
          | none => exact Prog.within_pure _
          | some dirs =>
            refine ih _ fun d' hd' => ?_
            rcases List.mem_append.mp hd' with hd' | hd'
            · rcases (returns_syncTurn d dirs).mp hpushed with rfl | ⟨entries, hlisted, rfl⟩
              · exact absurd hd' List.not_mem_nil
              · exact .sub hvisits.1 hlisted (List.mem_reverse.mp hd')
            · exact hvisits.2 d' hd'
    exact hqueue turns [root] fun d hd => List.mem_singleton.mp hd ▸ .root

/-! ## 6. `readdir` -/

theorem within_rpc (req : BridgeRequest) :
    (RemoteFs.rpc req).Within (Allowed T inodes) (Effect.Kept dir) :=
  (RemoteFs.only_rpc nofun).within

/-- What `rpc` makes of the listings the target may send. -/
theorem returns_rpc_listDir (path : String) (value : Json) :
    (RemoteFs.rpc (.listDir path)).Returns (Allowed T inodes) (.ok value) ↔
      T path value ∨ listDirEntries value = none := by
  unfold RemoteFs.rpc
  rw [Prog.returns_bind]
  constructor
  · intro h
    obtain ⟨answer, hanswer, hvalue⟩ := h
    cases answer with
    | error e => cases hvalue
    | ok v =>
      cases hvalue
      exact Prog.returns_perform.mp hanswer value rfl
  · exact fun h => ⟨.ok value, Prog.returns_perform.mpr fun v hv => by cases hv; exact h, rfl⟩

theorem within_remoteEntries (folder : PathBuf) (entries : List DirEntry) :
    (RemoteFs.remoteEntries folder entries).Within (Allowed T inodes) (Effect.Kept dir) ↔
      ∀ e ∈ entries, e.kind = .dir → PathBuf.MayCreate dir (folder.child e.name) := by
  refine (Prog.within_mapM fun e => ⟨(e.kind.fileType, e.name), ?_⟩).trans
    (forall₂_congr fun e _ => ?_)
  · split
    · exact Prog.returns_bind.mpr ⟨(), Prog.returns_perform.mpr trivial, rfl⟩
    · rfl
  · cases e.kind with
    | dir =>
      refine (Prog.within_bind.trans (and_iff_left fun _ _ => Prog.within_pure _)).trans ?_
      exact Prog.within_perform.trans ⟨fun h _ => h, fun h => h rfl⟩
    | file => exact ⟨fun _ => nofun, fun _ => trivial⟩
    | symlink => exact ⟨fun _ => nofun, fun _ => trivial⟩
    | other => exact ⟨fun _ => nofun, fun _ => trivial⟩

theorem within_listEntries (path folder : PathBuf) :
    (RemoteFs.listEntries path folder).Within (Allowed T inodes) (Effect.Kept dir) ↔
      ∀ entries, Listed T path.text entries → ∀ e ∈ entries, e.kind = .dir →
        PathBuf.MayCreate dir (folder.child e.name) := by
  unfold RemoteFs.listEntries
  rw [Prog.within_bind]
  constructor
  · intro h entries hlisted
    obtain ⟨value, hT, hentries⟩ := hlisted
    have hread := h.2 (.ok value) ((returns_rpc_listDir _ _).mpr (.inl hT))
    simp only [hentries] at hread
    exact (within_remoteEntries folder entries).mp (Prog.within_bind.mp hread).1
  · intro h
    refine ⟨within_rpc _, fun answer hanswer => ?_⟩
    cases answer with
    | error e =>
      refine Prog.Only.within (Prog.Only.bind
        (Prog.only_perform.mpr nofun) fun rows => ?_)
      cases rows with
      | none => exact Prog.only_pure _
      | some rows => exact Prog.only_pure _
    | ok value =>
      dsimp only
      split
      · rename_i entries hentries
        refine Prog.within_bind.mpr ⟨(within_remoteEntries folder entries).mpr ?_,
          fun _ _ => trivial⟩
        rcases (returns_rpc_listDir _ _).mp hanswer with hT | hnone
        · exact h entries ⟨value, hT, hentries⟩
        · rw [hnone] at hentries
          cases hentries
      · exact Prog.within_pure _

theorem addRows_kept (offset : Nat) : ∀ i rows,
    (RemoteFs.addRows offset i rows).Only (Effect.Kept dir)
  | _, [] => Prog.only_pure _
  | i, (ino, kind, name) :: rest => by
      unfold RemoteFs.addRows
      split
      · exact addRows_kept offset (i + 1) rest
      · refine Prog.Only.bind (Prog.only_perform.mpr nofun)
          fun full => ?_
        split
        · exact Prog.only_pure _
        · exact addRows_kept offset (i + 1) rest

/-- **A `readdir`**, by the path of its inode and the listings of that path. -/
theorem within_readdir (cfg : MountCfg) (ino offset : Nat) :
    (RemoteFs.readdir cfg ino offset).Within (Allowed T inodes) (Effect.Kept dir) ↔
      ∀ path, inodes ino = some path → PathBuf.MayCreate dir (cfg.cachePath path) ∧
        ∀ entries, Listed T path.text entries → ∀ e ∈ entries, e.kind = .dir →
          PathBuf.MayCreate dir ((cfg.cachePath path).child e.name) := by
  unfold RemoteFs.readdir
  rw [Prog.within_bind]
  constructor
  · intro h path hpath
    have hread := h.2 (some path) (Prog.returns_perform.mpr hpath.symm)
    rw [Prog.within_bind] at hread
    have hlist := hread.2 () (Prog.returns_perform.mpr trivial)
    rw [Prog.within_bind] at hlist
    have hmake : Effect.Kept dir (.createDirAll (cfg.cachePath path)) :=
      Prog.within_perform.mp hread.1
    exact ⟨hmake, (within_listEntries _ _).mp hlist.1⟩
  · intro h
    refine ⟨Prog.within_perform.mpr nofun, fun found hfound => ?_⟩
    have hino : found = inodes ino := Prog.returns_perform.mp hfound
    cases found with
    | none => exact Prog.within_pure _
    | some path =>
      have hpath := h path hino.symm
      refine Prog.within_bind.mpr ⟨Prog.within_perform.mpr hpath.1, fun _ _ => ?_⟩
      refine Prog.within_bind.mpr ⟨(within_listEntries _ _).mpr hpath.2, fun listed _ => ?_⟩
      cases listed with
      | error e => exact Prog.within_pure _
      | ok entries =>
        refine Prog.Only.within (Prog.Only.bind (Prog.Only.mapM fun e _ => ?_) fun rows =>
          (addRows_kept offset 0 _).bind fun _ => Prog.only_pure _)
        exact Prog.Only.bind (Prog.only_perform.mpr nofun)
          fun _ => Prog.only_pure _

end Programs

/-! ## 7. The names that lead nowhere else -/

/-- **The names that lead nowhere else**: the folders the mirror comes to by the listings, and the
    files it finds in them; the paths of the inode map, and the folders listed below them. Each
    name is joined to the local path of its folder and followed component by component. -/
structure NamesKept (cfg : MountCfg) (remote : String) (inodes : Nat → Option PathBuf)
    (T : String → Json → Prop) : Prop where
  folder : ∀ d, Visits T ⟨remote, cfg.cacheDir⟩ d → PathBuf.MayCreate cfg.cacheDir d.cache
  file : ∀ d, Visits T ⟨remote, cfg.cacheDir⟩ d → ∀ entries, Listed T d.remote entries →
    ∀ e ∈ entries, e.kind = .file → FileOk cfg.cacheDir (d.cache.child e.name) e.size
  opened : ∀ ino path, inodes ino = some path → PathBuf.MayCreate cfg.cacheDir (cfg.cachePath path)
  listed : ∀ ino path, inodes ino = some path → ∀ entries, Listed T path.text entries →
    ∀ e ∈ entries, e.kind = .dir →
      PathBuf.MayCreate cfg.cacheDir ((cfg.cachePath path).child e.name)

/-- **The local paths stay in the cache directory exactly for those names**, whatever else the
    target, the cache and the kernel do: those the mirror with its downloads creates, writes or
    renames, in any number of turns, and those a `readdir` does. -/
theorem local_paths_kept_iff (cfg : MountCfg) (remote : String) (inodes : Nat → Option PathBuf)
    (T : String → Json → Prop) :
    ((∀ turns, (backgroundSync turns [⟨remote, cfg.cacheDir⟩]).Within (Allowed T inodes)
        (Effect.Kept cfg.cacheDir)) ∧
      ∀ ino offset, (RemoteFs.readdir cfg ino offset).Within (Allowed T inodes)
        (Effect.Kept cfg.cacheDir)) ↔ NamesKept cfg remote inodes T := by
  have hmirror : MirrorKept T inodes cfg.cacheDir [⟨remote, cfg.cacheDir⟩] ↔ _ :=
    mirrorKept_iff _
  constructor
  · intro h
    have hturn := fun d hd => (within_syncTurn d).mp (hmirror.mp h.1 d hd)
    have hread := fun ino => (within_readdir cfg ino 0).mp (h.2 ino 0)
    exact
      { folder := fun d hd => (hturn d hd).1
        file := fun d hd => (hturn d hd).2
        opened := fun ino path hpath => (hread ino path hpath).1
        listed := fun ino path hpath => (hread ino path hpath).2 }
  · intro h
    constructor
    · exact hmirror.mpr fun d hd => (within_syncTurn d).mpr ⟨h.folder d hd, h.file d hd⟩
    · exact fun ino offset => (within_readdir cfg ino offset).mpr fun path hpath =>
        ⟨h.opened ino path hpath, h.listed ino path hpath⟩

/-! ## 8. Names of a file system -/

/-- A name as a file system has it: one component, and no `..`. -/
def PlainName (name : String) : Prop := PathBuf.ofText name = ⟨false, [name]⟩ ∧ name ≠ ".."

/-- A path goes down from a directory. -/
def Under (dir p : PathBuf) : Prop :=
  ∃ rest, p = ⟨dir.absolute, dir.parts ++ rest⟩ ∧ ".." ∉ rest

namespace Under

variable {dir p : PathBuf}

theorem self (dir : PathBuf) : Under dir dir := ⟨[], by rw [List.append_nil], List.not_mem_nil⟩

theorem child {name : String} (h : Under dir p) (hname : PlainName name) :
    p.child name = ⟨p.absolute, p.parts ++ [name]⟩ ∧ Under dir (p.child name) := by
  obtain ⟨rest, rfl, hdots⟩ := h
  have hchild : PathBuf.child ⟨dir.absolute, dir.parts ++ rest⟩ name =
      ⟨dir.absolute, dir.parts ++ rest ++ [name]⟩ := by
    rw [PathBuf.child, hname.1]
    rfl
  refine ⟨hchild, rest ++ [name], ?_, fun hmem => ?_⟩
  · rw [hchild, List.append_assoc]
  · rcases List.mem_append.mp hmem with hmem | hmem
    · exact hdots hmem
    · exact hname.2 (List.mem_singleton.mp hmem).symm

theorem inside (h : Under dir p) : PathBuf.Inside dir p.resolve := by
  obtain ⟨rest, rfl, hdots⟩ := h
  induction rest using List.reverseRecOn with
  | nil =>
    rw [List.append_nil]
    exact PathBuf.inside_iff.mpr ⟨rfl, [], (List.append_nil _).symm, List.not_mem_nil⟩
  | append_singleton rest part ih =>
    rw [← List.append_assoc, PathBuf.resolve_append]
    refine (ih fun h => hdots (List.mem_append_left _ h)).go_name fun hpart => ?_
    exact hdots (List.mem_append_right _ (List.mem_singleton.mpr hpart.symm))

theorem mayCreate (h : Under dir p) : PathBuf.MayCreate dir p := by
  obtain ⟨rest, rfl, hdots⟩ := h
  intro q hq
  obtain ⟨n, -, rfl⟩ := List.mem_map.mp hq
  rcases Nat.le_total n dir.parts.length with hn | hn
  · -- a directory on the way to the cache directory
    refine .inl (.inr (List.mem_map_of_mem (List.mem_map.mpr ⟨n, ?_, ?_⟩)))
    · exact List.mem_range.mpr (Nat.lt_succ_of_le hn)
    · rw [List.take_append_of_le_length hn]
  · refine .inr (Under.inside ⟨rest.take (n - dir.parts.length), ?_, fun hmem => ?_⟩)
    · rw [List.take_append, List.take_of_length_le hn]
    · exact hdots (List.mem_of_mem_take hmem)

theorem fileOk {name : String} (h : Under dir p) (hname : PlainName name) (size : Nat) :
    FileOk dir (p.child name) size := by
  obtain ⟨hchild, hunder⟩ := h.child hname
  unfold FileOk
  split
  · exact hunder.inside
  · rw [hchild]
    constructor
    · intro parent hparent
      rw [PathBuf.parent, if_neg (List.concat_ne_nil name p.parts), List.dropLast_concat] at hparent
      cases hparent
      exact h.mayCreate
    · have hlast : PathBuf.fileName ⟨p.absolute, p.parts ++ [name]⟩ = some name := by
        simp [PathBuf.fileName, hname.2]
      rw [PathBuf.holder, hlast]
      simp only [List.dropLast_concat]
      exact h.inside

end Under

/-- **Listings with the names of a file system** keep everything in the cache directory, when the
    paths of the inode map go down from the mounted directory. -/
theorem plain_names_kept {cfg : MountCfg} {remote : String} {inodes : Nat → Option PathBuf}
    {T : String → Json → Prop}
    (hnames : ∀ path entries, Listed T path entries → ∀ e ∈ entries, PlainName e.name)
    (hpaths : ∀ ino path, inodes ino = some path →
      ∃ rel, path.stripPrefix cfg.remoteDir = some rel ∧ ".." ∉ rel.parts) :
    NamesKept cfg remote inodes T := by
  have hvisits : ∀ d, Visits T ⟨remote, cfg.cacheDir⟩ d → Under cfg.cacheDir d.cache := by
    intro d hd
    induction hd with
    | root => exact .self _
    | sub _ hlisted hmem ih =>
      obtain ⟨e, he, rfl⟩ := List.mem_map.mp hmem
      exact (ih.child (hnames _ _ hlisted e (List.mem_filter.mp he).1)).2
  have hcache : ∀ ino path, inodes ino = some path → Under cfg.cacheDir (cfg.cachePath path) := by
    intro ino path hpath
    obtain ⟨rel, hrel, hdots⟩ := hpaths ino path hpath
    have habs : rel.absolute = false := by
      unfold PathBuf.stripPrefix at hrel
      split at hrel
      · cases hrel
        rfl
      · cases hrel
    refine ⟨rel.parts, ?_, hdots⟩
    rw [MountCfg.cachePath, hrel]
    exact if_neg (by rw [habs]; exact Bool.false_ne_true)
  exact
    { folder := fun d hd => (hvisits d hd).mayCreate
      file := fun d hd entries hlisted e he _ =>
        (hvisits d hd).fileOk (hnames _ _ hlisted e he) e.size
      opened := fun ino path hpath => (hcache ino path hpath).mayCreate
      listed := fun ino path hpath entries hlisted e he _ =>
        ((hcache ino path hpath).child (hnames _ _ hlisted e he)).2.mayCreate }

/-! ## 9. A name that leads out -/

/-- A listing with one empty file, whose name leads to another mount's cache. -/
def strayListing : Json :=
  .obj [("entries", .arr [.obj [("name", .str "../other/notes"), ("kind", .str "file"),
    ("size", .num (.posInt 0)), ("modified", .num (.posInt 0))]])]

/-- The mount of the listing. -/
def strayMount : MountCfg := ⟨false, ⟨true, ["srv"]⟩, ⟨true, ["cache", "mount"]⟩⟩

/-- **The mirror empties a file of another mount**, `/cache/other/notes`. -/
theorem stray_name_leaves_cache :
    ¬ ∀ (cfg : MountCfg) (remote : String) (inodes : Nat → Option PathBuf)
      (T : String → Json → Prop),
      (∀ turns, (backgroundSync turns [⟨remote, cfg.cacheDir⟩]).Within (Allowed T inodes)
        (Effect.Kept cfg.cacheDir)) ∧
      ∀ ino offset, (RemoteFs.readdir cfg ino offset).Within (Allowed T inodes)
        (Effect.Kept cfg.cacheDir) := by
  intro h
  have hmirror : MirrorKept _ _ strayMount.cacheDir [⟨"/srv", strayMount.cacheDir⟩] :=
    (h strayMount "/srv" (fun _ => none) fun _ value => value = strayListing).1
  have hlisted : Listed (fun _ value => value = strayListing) "/srv"
      [⟨"../other/notes", .file, 0, 0⟩] := ⟨strayListing, rfl, rfl⟩
  have hfile := ((within_syncTurn _).mp hmirror.turn.1).2 _ hlisted _
    (List.mem_singleton_self _) rfl
  exact absurd hfile (by decide)

end Background

end Relayfs

/-
  File:      Relayfs/Fuse/Mirror.lean
  Subject:   WHAT THE MIRROR LEAVES IN THE CACHE (bridge/src/fuse_fs.rs: `background_sync_folder`,
             `download_to_cache`), where the remote tree stands still, the target answers and the
             host's disk takes everything.

  * `MirrorDisk`, `mirrorSem` -- the cache directory, and what the mirror's effects do;
  * `Mirrorable` -- the remote tree has names of a file system, and the cache holds nothing in its
    way;
  * `mirrored` -- what is to become of a place: a file stays where its length is that of the remote
    one;
  * `mirror_downloadToCache`, `mirror_syncEntries`, `MirrorInv.turn` -- a file, a listing, a turn;
  * `mirror_exact` -- after a turn for each remote directory every place is as it should be.
-/
import Relayfs.Agent.FileTree
import Relayfs.Fuse.Confinement
import Relayfs.Fuse.Fillers
import Relayfs.Fuse.ReadExact
import Relayfs.Fuse.Reading
import Relayfs.Fuse.Scan
import Relayfs.Lib.Worklist

namespace Relayfs

open Lib Background RemoteFs Prog

/-! ## 1. Places below a directory -/

namespace PathBuf

/-- The path of a place below a directory. -/
def descend (dir : PathBuf) (q : Place) : PathBuf := ⟨dir.absolute, dir.parts ++ q⟩

/-- The place below a directory that a path leads to. -/
def placeIn (p dir : PathBuf) : Option Place := (p.stripPrefix dir).map parts

@[simp] theorem placeIn_descend (dir : PathBuf) (q : Place) :
    (dir.descend q).placeIn dir = some q := by
  have hpre : (dir.descend q).absolute = dir.absolute ∧ dir.parts <+: (dir.descend q).parts :=
    ⟨rfl, List.prefix_append _ _⟩
  rw [placeIn, stripPrefix, if_pos hpre, Option.map_some]
  exact congrArg some List.drop_left

@[simp] theorem descend_nil (dir : PathBuf) : dir.descend [] = dir := by
  rw [descend, List.append_nil]

theorem child_descend {name : String} (h : PlainName name) (dir : PathBuf) (q : Place) :
    (dir.descend q).child name = dir.descend (q ++ [name]) := by
  rw [child, h.1, descend, descend, ← List.append_assoc]
  rfl

end PathBuf

/-- The name of the temporary file of a download to a name. -/
def tempName (name : String) (tag : Nat) : String := fileStem name ++ "." ++ ("tmp-" ++ hex8 tag)

theorem temp_descend {name : String} (h : name ≠ "..") (dir : PathBuf) (q : Place) (tag : Nat) :
    TempFile.path ⟨dir.descend (q ++ [name]), tag⟩ = dir.descend (q ++ [tempName name tag]) := by
  have hlast : (dir.descend (q ++ [name])).fileName = some name := by
    rw [PathBuf.fileName, PathBuf.descend, ← List.append_assoc, List.getLast?_concat,
      Option.filter_some, if_pos (decide_eq_true h)]
  rw [TempFile.path, PathBuf.withExtension, hlast, PathBuf.descend, PathBuf.descend]
  dsimp only
  rw [← List.append_assoc, List.dropLast_concat, ← List.append_assoc]
  rfl

/-! ## 2. The cache directory -/

/-- What is at each place of the cache directory. -/
structure MirrorDisk where
  node : Place → Option Node

namespace MirrorDisk

variable (s : MirrorDisk)

/-- Set one entry. -/
def set (q : Place) (n : Option Node) : MirrorDisk := ⟨Function.update s.node q n⟩

/-- The content of a file that an open finds or makes; `none` where the open fails. -/
def opened (q : Place) : Option (List UInt8) :=
  match s.node q with
  | some (.file content) => some content
  | none => if s.node q.dropLast = some .dir then some [] else none
  | _ => none

/-- `File::create`. -/
def create (q : Place) : MirrorDisk := if (s.opened q).isSome then s.set q (some (.file [])) else s

/-- `create_dir_all`: nothing happens where something else than a directory is on the way. -/
def makeDirs (q : Place) : MirrorDisk :=
  if ∀ p ∈ q.inits, s.node p = none ∨ s.node p = some .dir then
    ⟨fun p => if p <+: q then some .dir else s.node p⟩
  else s

/-- `rename` of a file, onto a file or to where nothing is. -/
def rename (p q : Place) : Option MirrorDisk :=
  match s.node p with
  | some (.file content) =>
      if (s.opened q).isSome then some ((s.set p none).set q (some (.file content))) else none
  | _ => none

/-- What an operation at a path does, where the path leads to a place of the cache directory. -/
def atPath (cfg : MountCfg) (p : PathBuf) (f : Place → MirrorDisk) : MirrorDisk :=
  match p.placeIn cfg.cacheDir with
  | some q => f q
  | none => s

end MirrorDisk

/-- An entry tells what is there. -/
def DirEntry.Tells (e : DirEntry) : Node → Prop
  | .dir => e.kind = .dir
  | .file content => e.kind = .file ∧ e.size = content.length
  | .other => e.kind = .symlink ∨ e.kind = .other

/-- A directory of the tree, as the agent reads it. -/
structure RemoteDir.Depicts (d : RemoteDir) (remote : FileTree) (q : Place) : Prop where
  tells : ∀ e ∈ d.entries, ∃ n, remote.node (q ++ [e.name]) = some n ∧ e.Tells n
  all : ∀ name, (remote.node (q ++ [name])).isSome → ∃ e ∈ d.entries, e.name = name

/-- The answer to LIST_DIR. -/
def ListsExactly (remote : FileTree) (q : Place) (a : Except RpcError Json) : Prop :=
  if remote.node q = some .dir then
    ∃ d : RemoteDir, d.Depicts remote q ∧ a = .ok (listDirJson (Agent.listDir d))
  else ∃ e, a = .error e

/-- **The meaning of the mirror's effects.** The other effects have none. -/
def mirrorSem (cfg : MountCfg) (remote : FileTree) : EnvSem MirrorDisk
  | .call (.listDir path), s, a, t =>
      t = s ∧ ∀ q, (PathBuf.ofText path).placeIn cfg.remoteDir = some q → ListsExactly remote q a
  | .call (.readFile path offset limit), s, a, t =>
      t = s ∧ ∀ q content, (PathBuf.ofText path).placeIn cfg.remoteDir = some q →
        remote.node q = some (.file content) →
        ReadsExactly content (offset.getD 0) (limit.getD (1024 * 1024)) a
  | .call _, s, _, t => t = s
  | .createDirAll p, s, _, t => t = s.atPath cfg p s.makeDirs
  | .fileLen p, s, a, t =>
      t = s ∧ ∀ q, p.placeIn cfg.cacheDir = some q →
        (s.node q = none → a = none) ∧
          ∀ content, s.node q = some (.file content) → a = some content.length
  | .createFile p, s, _, t => t = s.atPath cfg p s.create
  | .randomTag, s, _, t => t = s
  | .createTemp tmp, s, _, t => t = s.atPath cfg tmp.path s.create
  | .writeTemp tmp offset data, s, a, t =>
      match (tmp.path.placeIn cfg.cacheDir).bind s.opened with
      | some content =>
          a = true ∧
            t = s.atPath cfg tmp.path fun q => s.set q (some (.file (writeAt content offset data)))
      | none => a = false ∧ t = s
  | .removeTemp tmp, s, _, t =>
      t = s.atPath cfg tmp.path fun q => if s.node q = some .dir then s else s.set q none
  | .installTemp tmp, s, a, t =>
      let moved := (tmp.path.placeIn cfg.cacheDir).bind fun p =>
        (tmp.target.placeIn cfg.cacheDir).bind fun q => s.rename p q
      a = moved.isSome ∧ t = moved.getD s
  | _, _, _, _ => False

/-! ## 3. What is to become of the cache -/

/-- What the mirror makes of a place, by what the remote tree and the cache have there. -/
def mirrored : Option Node → Option Node → Option Node
  | some .dir, _ => some .dir
  | some (.file content), some (.file old) =>
      if old.length = content.length then some (.file old) else some (.file content)
  | some (.file content), _ => some (.file content)
  | _, old => old

/-- **Nothing is in the way**: the names of the remote tree are names of a file system, the lengths
    of its files are `u64`, a place of the cache holds nothing or what has the kind of the remote
    entry, and no name is that of a temporary file. -/
structure Mirrorable (remote : FileTree) (old : Place → Option Node) : Prop where
  names : ∀ q name, (remote.node (q ++ [name])).isSome → PlainName name
  sizes : ∀ q content, remote.node q = some (.file content) → content.length < 2 ^ 64
  folder : ∀ q, remote.node q = some .dir → old q = none ∨ old q = some .dir
  file : ∀ q content, remote.node q = some (.file content) →
    old q = none ∨ ∃ content', old q = some (.file content')
  temps : ∀ q name tag,
    remote.node (q ++ [tempName name tag]) = none ∧ old (q ++ [tempName name tag]) = none

section Mirrorable

variable {remote : FileTree} {old : Place → Option Node}

/-- The names on the way to a place of the tree. -/
theorem Mirrorable.plain (h : Mirrorable remote old) {q : Place} (hq : (remote.node q).isSome) :
    ∀ part ∈ q, PlainName part := by
  induction q using List.reverseRecOn with
  | nil => exact List.forall_mem_nil _
  | append_singleton q name ih =>
    obtain ⟨n, hn⟩ := Option.isSome_iff_exists.mp hq
    have hdir := remote.below q name n hn
    rw [List.forall_mem_append, List.forall_mem_singleton]
    exact ⟨ih (by rw [FileTree.node, hdir]; rfl), h.names q name hq⟩

/-- **The target finds a place** by the text of its path. -/
theorem Mirrorable.placeIn (h : Mirrorable remote old) {dir : PathBuf} (hdir : dir.Proper)
    {q : Place} (hq : (remote.node q).isSome) :
    (PathBuf.ofText (dir.descend q).text).placeIn dir = some q := by
  have hproper : (dir.descend q).Proper := by
    refine ⟨hdir.absolute, fun part hpart => ?_⟩
    rcases List.mem_append.mp hpart with hpart | hpart
    · exact hdir.parts part hpart
    · exact PlainName.isPart (h.plain hq part hpart)
  rw [PathBuf.ofText_text hproper, PathBuf.placeIn_descend]

/-- No entry has the name of a temporary file. -/
theorem Mirrorable.ne_temp (h : Mirrorable remote old) {q : Place} {name : String}
    (hq : (remote.node (q ++ [name])).isSome) (other : String) (tag : Nat) :
    q ++ [name] ≠ q ++ [tempName other tag] := by
  intro heq
  rw [heq, (h.temps q other tag).1] at hq
  cases hq

end Mirrorable

/-! ## 4. A download -/

section Disk

variable {s : MirrorDisk} {p q : Place} {n : Option Node}

@[simp] theorem node_set_self : (s.set q n).node q = n := Function.update_self _ _ _

theorem node_set_of_ne (h : p ≠ q) : (s.set q n).node p = s.node p := Function.update_of_ne h _ _

@[simp] theorem set_set (m : Option Node) : (s.set q m).set q n = s.set q n :=
  congrArg MirrorDisk.mk (Function.update_idem _ _ _)

theorem set_eq_self (h : s.node q = n) : s.set q n = s := by
  rw [MirrorDisk.set, ← h, Function.update_eq_self]

@[simp] theorem atPath_descend (cfg : MountCfg) (f : Place → MirrorDisk) :
    s.atPath cfg (cfg.cacheDir.descend q) f = f q := by
  rw [MirrorDisk.atPath, PathBuf.placeIn_descend]

/-- Where all directories on the way are there, `create_dir_all` makes none. -/
theorem makeDirs_eq_self (h : ∀ p, p <+: q → s.node p = some .dir) : s.makeDirs q = s := by
  unfold MirrorDisk.makeDirs
  rw [if_pos fun p hp => .inr (h p ((List.mem_inits p q).mp hp))]
  obtain ⟨node⟩ := s
  refine congrArg MirrorDisk.mk (funext fun p => ?_)
  dsimp only
  split
  · rename_i hp
    exact (h p hp).symm
  · rfl

end Disk

section Download

variable {cfg : MountCfg} {remote : FileTree} {s t : MirrorDisk} {path : String} {q : Place}
  {content : List UInt8}

/-- A chunk comes whole. -/
theorem ReadsExactly.chunkReply {offset limit : Nat} {a : Except RpcError Json}
    (h : ReadsExactly content offset limit a) (hlimit : limit ≤ maxDirectFileBytes)
    (hne : (content.drop offset).take limit ≠ []) :
    chunkReply a = some ((content.drop offset).take limit) := by
  rw [ReadsExactly, if_neg (Nat.not_lt.mpr hlimit)] at h
  rw [h, Relayfs.chunkReply, ReadFileResult.ofJson_toJson, Option.bind_some, Base64.decode_encode,
    Option.filter_some, if_pos (decide_eq_true hne)]

theorem mirror_fetchChunk (hplace : (PathBuf.ofText path).placeIn cfg.remoteDir = some q)
    (hfile : remote.node q = some (.file content)) {start limit : Nat}
    (hlimit : limit ≤ maxDirectFileBytes) (hne : (content.drop start).take limit ≠ [])
    {a : Option (List UInt8)}
    (hx : Exec (mirrorSem cfg remote) (fetchChunk path start limit) s a t) :
    a = some ((content.drop start).take limit) ∧ t = s := by
  rw [fetchChunk_eq] at hx
  obtain ⟨answer, u, hcall, hrest⟩ := exec_bind.mp hx
  obtain ⟨hu, hread⟩ := exec_perform.mp hcall
  obtain ⟨rfl, rfl⟩ := exec_pure.mp hrest
  obtain rfl : t = s := hu
  exact ⟨(hread q content hplace hfile).chunkReply hlimit hne, rfl⟩

/-- The bytes up to the end of a chunk. -/
theorem take_append_chunk (content : List UInt8) (i : Nat) :
    content.take (i * fetchChunkBytes) ++
        (content.drop (i * fetchChunkBytes)).take
          (min (content.length - i * fetchChunkBytes) fetchChunkBytes) =
      content.take ((i + 1) * fetchChunkBytes) := by
  have hlimit : (content.drop (i * fetchChunkBytes)).take
      (min (content.length - i * fetchChunkBytes) fetchChunkBytes) =
        (content.drop (i * fetchChunkBytes)).take fetchChunkBytes := by
    rw [List.take_eq_take_iff, List.length_drop]
    omega
  rw [hlimit, Nat.succ_mul, List.take_add]

/-- One more chunk behind what is there. -/
theorem writeAt_chunk (content : List UInt8) {i : Nat} (h : i * fetchChunkBytes ≤ content.length) :
    writeAt (content.take (i * fetchChunkBytes)) (i * fetchChunkBytes)
        ((content.drop (i * fetchChunkBytes)).take
          (min (content.length - i * fetchChunkBytes) fetchChunkBytes)) =
      content.take ((i + 1) * fetchChunkBytes) := by
  have hlen : (content.take (i * fetchChunkBytes)).length = i * fetchChunkBytes := by
    rw [List.length_take, Nat.min_eq_left h]
  have happend := writeAt_end (content.take (i * fetchChunkBytes))
    ((content.drop (i * fetchChunkBytes)).take
      (min (content.length - i * fetchChunkBytes) fetchChunkBytes))
  rwa [hlen, take_append_chunk] at happend

/-- A write to the temporary file. -/
theorem mirror_writeTemp {tmp : TempFile} {p : Place} (htmp : tmp.path = cfg.cacheDir.descend p)
    {old : List UInt8} (hnode : s.node p = some (.file old)) {offset : Nat} {data : List UInt8}
    {ok : Bool} (hx : Exec (mirrorSem cfg remote) (FsProg.writeTemp tmp offset data) s ok t) :
    ok = true ∧ t = s.set p (some (.file (writeAt old offset data))) := by
  have hopened : (tmp.path.placeIn cfg.cacheDir).bind s.opened = some old := by
    rw [htmp, PathBuf.placeIn_descend, Option.bind_some, MirrorDisk.opened, hnode]
  have hstep : match (tmp.path.placeIn cfg.cacheDir).bind s.opened with
      | some content => ok = true ∧ t = s.atPath cfg tmp.path fun q =>
          s.set q (some (.file (writeAt content offset data)))
      | none => ok = false ∧ t = s := exec_perform.mp hx
  rw [hopened] at hstep
  obtain ⟨hok, ht⟩ := hstep
  rw [htmp, atPath_descend] at ht
  exact ⟨hok, ht⟩

/-- **The chunks of a download**, from the one with number `i` on: the temporary file has what comes
    before it. -/
theorem mirror_downloadChunks (hplace : (PathBuf.ofText path).placeIn cfg.remoteDir = some q)
    (hfile : remote.node q = some (.file content)) {tmp : TempFile} {p : Place}
    (htmp : tmp.path = cfg.cacheDir.descend p) {m i : Nat} {ok : Bool}
    (hi : i + m = (content.length + fetchChunkBytes - 1) / fetchChunkBytes)
    (hnode : s.node p = some (.file (content.take (i * fetchChunkBytes))))
    (hx : Exec (mirrorSem cfg remote) (downloadChunks path tmp content.length
      ((List.range' i m).map fun j => 0 + j * fetchChunkBytes)) s ok t) :
    ok = true ∧ t = s.set p (some (.file content)) := by
  have hchunk : fetchChunkBytes = 1024 * 1024 := rfl
  have hmax : maxDirectFileBytes = 8 * 1024 * 1024 := rfl
  induction m generalizing i s with
  | zero =>
    obtain ⟨rfl, rfl⟩ := exec_pure.mp hx
    have hend : content.length ≤ i * fetchChunkBytes := by
      rw [hchunk] at hi ⊢
      omega
    rw [List.take_of_length_le hend] at hnode
    exact ⟨rfl, (set_eq_self hnode).symm⟩
  | succ m ih =>
    have hstart : i * fetchChunkBytes < content.length := by
      rw [hchunk] at hi ⊢
      omega
    have hne : (content.drop (i * fetchChunkBytes)).take
        (min (content.length - i * fetchChunkBytes) fetchChunkBytes) ≠ [] := by
      rw [← List.length_pos_iff, List.length_take, List.length_drop]
      omega
    rw [List.range'_succ, List.map_cons, Nat.zero_add] at hx
    obtain ⟨bytes, u, hfetch, hx⟩ := exec_bind.mp hx
    obtain ⟨rfl, hu⟩ := mirror_fetchChunk hplace hfile (by omega) hne hfetch
    obtain ⟨wrote, v, hwrite, hx⟩ := exec_bind.mp hx
    obtain rfl : u = s := hu
    obtain ⟨rfl, rfl⟩ := mirror_writeTemp htmp hnode hwrite
    rw [writeAt_chunk content hstart.le] at hx
    obtain ⟨hok, ht⟩ := ih (by omega) node_set_self hx
    exact ⟨hok, by rw [ht, set_set]⟩

/-- The directory of a place whose directories are all there. -/
theorem mirror_createParent {d : Place} {name : String}
    (hdirs : ∀ p, p <+: d → s.node p = some .dir)
    (hx : Exec (mirrorSem cfg remote) (createParent (cfg.cacheDir.descend (d ++ [name]))) s () t) :
    t = s := by
  have hparent : (cfg.cacheDir.descend (d ++ [name])).parent = some (cfg.cacheDir.descend d) := by
    rw [PathBuf.descend, PathBuf.parent, ← List.append_assoc, if_neg (List.concat_ne_nil _ _),
      List.dropLast_concat]
    rfl
  rw [createParent, hparent] at hx
  have ht : t = s.atPath cfg (cfg.cacheDir.descend d) s.makeDirs := exec_perform.mp hx
  rwa [atPath_descend, makeDirs_eq_self hdirs] at ht

/-- The temporary file is moved to a place that can be opened. -/
theorem rename_temp {p : Place} (hne : q ≠ p) (hfree : s.node p = none)
    (hopen : (s.opened q).isSome) :
    (s.set p (some (.file content))).rename p q = some (s.set q (some (.file content))) := by
  have hopened : ((s.set p (some (.file content))).opened q).isSome := by
    unfold MirrorDisk.opened at hopen ⊢
    rw [node_set_of_ne hne]
    split
    · rfl
    · rename_i hq
      rw [hq] at hopen
      have hparent : s.node q.dropLast = some .dir := by
        by_contra hno
        simp [hno] at hopen
      by_cases hp : q.dropLast = p
      · rw [hp, hfree] at hparent
        cases hparent
      · rw [node_set_of_ne hp, if_pos hparent]
        rfl
    · rename_i hfile hnone
      split at hopen
      · rename_i content' hq
        exact absurd hq (hfile content')
      · exact absurd (by assumption) hnone
      · cases hopen
  rw [MirrorDisk.rename, node_set_self]
  dsimp only
  rw [if_pos hopened, set_set, set_eq_self hfree]

/-- **A download** makes the file what the remote one is. -/
theorem mirror_downloadToCache {d : Place} {name : String} (hname : name ≠ "..")
    (hplace : (PathBuf.ofText path).placeIn cfg.remoteDir = some (d ++ [name]))
    (hfile : remote.node (d ++ [name]) = some (.file content))
    (hdirs : ∀ p, p <+: d → s.node p = some .dir)
    (hopen : (s.opened (d ++ [name])).isSome)
    (htemps : ∀ tag, d ++ [name] ≠ d ++ [tempName name tag] ∧
      s.node (d ++ [tempName name tag]) = none)
    (hx : Exec (mirrorSem cfg remote)
      (downloadToCache path (cfg.cacheDir.descend (d ++ [name])) content.length) s () t) :
    t = s.set (d ++ [name]) (some (.file content)) := by
  unfold downloadToCache at hx
  split at hx
  · rename_i hempty
    have ht : t = s.atPath cfg (cfg.cacheDir.descend (d ++ [name])) s.create := exec_perform.mp hx
    rw [atPath_descend, MirrorDisk.create, if_pos hopen] at ht
    rwa [List.eq_nil_of_length_eq_zero hempty]
  · obtain ⟨_, u, hparent, hafter⟩ := exec_bind.mp hx
    obtain ⟨tag, v, htag, hrest⟩ := exec_bind.mp hafter
    obtain rfl : u = s := mirror_createParent hdirs hparent
    have hv : mirrorSem cfg remote .randomTag u tag v := exec_perform.mp htag
    obtain rfl : v = u := hv
    clear hx hafter
    obtain ⟨hne, hfree⟩ := htemps tag
    have htmp : TempFile.path ⟨cfg.cacheDir.descend (d ++ [name]), tag⟩ =
        cfg.cacheDir.descend (d ++ [tempName name tag]) := temp_descend hname _ _ _
    -- the temporary file is made
    obtain ⟨_, w, hcreate, hfetch⟩ := exec_bind.mp hrest
    have hw : mirrorSem cfg remote (.createTemp ⟨cfg.cacheDir.descend (d ++ [name]), tag⟩) v () w :=
      exec_perform.mp hcreate
    have hopened : v.opened (d ++ [tempName name tag]) = some [] := by
      have hparent : v.node (d ++ [tempName name tag]).dropLast = some .dir := by
        rw [List.dropLast_concat]
        exact hdirs d List.prefix_rfl
      rw [MirrorDisk.opened, hfree]
      exact if_pos hparent
    replace hw : w = v.atPath cfg (TempFile.path ⟨cfg.cacheDir.descend (d ++ [name]), tag⟩)
        v.create := hw
    rw [htmp, atPath_descend, MirrorDisk.create, if_pos (by rw [hopened]; rfl)] at hw
    clear hrest
    subst hw
    -- all chunks arrive
    obtain ⟨ok, w, hchunks, hend⟩ := exec_bind.mp hfetch
    rw [chunkOffsets, List.range_eq_range'] at hchunks
    obtain ⟨rfl, hw⟩ := mirror_downloadChunks hplace hfile htmp
      (by rw [Nat.zero_add, Nat.sub_zero]) (by rw [node_set_self, Nat.zero_mul, List.take_zero])
      hchunks
    rw [set_set] at hw
    rw [if_pos rfl] at hend
    -- and it is renamed
    obtain ⟨installed, u, hinstall, hdone⟩ := exec_bind.mp hend
    obtain ⟨-, rfl⟩ := exec_pure.mp hdone
    rw [hw] at hinstall
    have hstep : mirrorSem cfg remote (.installTemp ⟨cfg.cacheDir.descend (d ++ [name]), tag⟩)
        (v.set (d ++ [tempName name tag]) (some (.file content))) installed t :=
      exec_perform.mp hinstall
    obtain ⟨-, ht⟩ := hstep
    rw [htmp, PathBuf.placeIn_descend, PathBuf.placeIn_descend, Option.bind_some, Option.bind_some,
      rename_temp hne hfree hopen] at ht
    exact ht

end Download

/-! ## 5. A listing -/

/-- The folder of the mirror for a place. -/
def syncDirAt (cfg : MountCfg) (q : Place) : SyncDir :=
  ⟨(cfg.remoteDir.descend q).text, cfg.cacheDir.descend q⟩

section Listing

variable {cfg : MountCfg} {remote : FileTree} {old : Place → Option Node} {s t : MirrorDisk}
  {d : Place}

/-- The remote path of an entry. -/
theorem childRemote_syncDirAt (hdir : cfg.remoteDir.Proper) (h : Mirrorable remote old)
    (hd : remote.node d = some .dir) {name : String} (hname : PlainName name) :
    (syncDirAt cfg d).childRemote name = (cfg.remoteDir.descend (d ++ [name])).text := by
  have hproper : (cfg.remoteDir.descend d).Proper := by
    refine ⟨hdir.absolute, fun part hpart => ?_⟩
    rcases List.mem_append.mp hpart with hpart | hpart
    · exact hdir.parts part hpart
    · exact PlainName.isPart (h.plain (by rw [hd]; rfl) part hpart)
  rw [syncDirAt, childRemote_eq hproper hname, PathBuf.child_descend hname]

/-- **A file of a listing.** -/
theorem mirror_syncFile (hdir : cfg.remoteDir.Proper) (h : Mirrorable remote old)
    (hd : remote.node d = some .dir) {e : DirEntry} {content : List UInt8}
    (hfile : remote.node (d ++ [e.name]) = some (.file content)) (hsize : e.size = content.length)
    (hdirs : ∀ p, p <+: d → s.node p = some .dir)
    (hold : s.node (d ++ [e.name]) = old (d ++ [e.name]))
    (htemps : ∀ name tag, s.node (d ++ [tempName name tag]) = none)
    (hx : Exec (mirrorSem cfg remote) (syncFile (syncDirAt cfg d) e) s () t) :
    t = s.set (d ++ [e.name])
      (mirrored (remote.node (d ++ [e.name])) (old (d ++ [e.name]))) := by
  have hthere : (remote.node (d ++ [e.name])).isSome := by
    rw [hfile]
    rfl
  have hname := h.names d e.name hthere
  have hlocal : (syncDirAt cfg d).cache.child e.name = cfg.cacheDir.descend (d ++ [e.name]) :=
    PathBuf.child_descend hname _ _
  rw [syncFile, hlocal, childRemote_syncDirAt hdir h hd hname] at hx
  obtain ⟨len, u, hask, hrest⟩ := exec_bind.mp hx
  have hstep : mirrorSem cfg remote (.fileLen (cfg.cacheDir.descend (d ++ [e.name]))) s len u :=
    exec_perform.mp hask
  obtain ⟨hu, hsays⟩ := hstep
  obtain ⟨hnone, hsome⟩ := hsays _ (PathBuf.placeIn_descend _ _)
  clear hx
  subst hu
  rw [hfile]
  have hdownload : (u.opened (d ++ [e.name])).isSome →
      Exec (mirrorSem cfg remote) (downloadToCache (cfg.remoteDir.descend (d ++ [e.name])).text
        (cfg.cacheDir.descend (d ++ [e.name])) e.size) u () t →
      t = u.set (d ++ [e.name]) (some (.file content)) := by
    intro hopen hx
    rw [hsize] at hx
    exact mirror_downloadToCache hname.2 (h.placeIn hdir hthere) hfile hdirs hopen
      (fun tag => ⟨h.ne_temp hthere _ _, htemps _ _⟩) hx
  rcases h.file _ _ hfile with hempty | ⟨content', hfull⟩
  · rw [hempty] at hold ⊢
    rw [hnone hold, if_neg nofun] at hrest
    refine hdownload ?_ hrest
    have hparent : u.node (d ++ [e.name]).dropLast = some .dir := by
      rw [List.dropLast_concat]
      exact hdirs d List.prefix_rfl
    rw [MirrorDisk.opened, hold]
    dsimp only
    rw [if_pos hparent]
    rfl
  · rw [hfull] at hold ⊢
    rw [hsome content' hold, hsize] at hrest
    rw [mirrored]
    by_cases hlen : content'.length = content.length
    · rw [if_pos (congrArg some hlen)] at hrest
      obtain ⟨-, rfl⟩ := exec_pure.mp hrest
      rw [if_pos hlen, set_eq_self hold]
    · rw [if_neg fun heq => hlen (Option.some.inj heq)] at hrest
      rw [if_neg hlen]
      refine hdownload ?_ (by rw [hsize]; exact hrest)
      rw [MirrorDisk.opened, hold]
      rfl

/-- The names of the directories among the entries. -/
def folderNames (entries : List DirEntry) : List String :=
  (entries.filter (·.kind = .dir)).map DirEntry.name

theorem folderNames_cons (e : DirEntry) (rest : List DirEntry) :
    folderNames (e :: rest) =
      if e.kind = .dir then e.name :: folderNames rest else folderNames rest := by
  by_cases h : e.kind = .dir <;> simp [folderNames, h]

/-- A file of the entries. -/
def FileOf (d : Place) (entries : List DirEntry) (q : Place) : Prop :=
  ∃ e ∈ entries, e.kind = .file ∧ q = d ++ [e.name]

/-- **The entries of a listing**: their files are as they should be, nothing else has changed, and
    their directories are pushed. -/
theorem mirror_syncEntries (hdir : cfg.remoteDir.Proper) (h : Mirrorable remote old)
    (hd : remote.node d = some .dir) {entries : List DirEntry}
    (hnodup : (entries.map DirEntry.name).Nodup)
    (htells : ∀ e ∈ entries, ∃ n, remote.node (d ++ [e.name]) = some n ∧ e.Tells n)
    (hdirs : ∀ p, p <+: d → s.node p = some .dir)
    (hold : ∀ e ∈ entries, s.node (d ++ [e.name]) = old (d ++ [e.name]))
    (htemps : ∀ name tag, s.node (d ++ [tempName name tag]) = none) {dirs : List SyncDir}
    (hx : Exec (mirrorSem cfg remote) (syncEntries (syncDirAt cfg d) entries) s dirs t) :
    dirs = (folderNames entries).map (fun name => syncDirAt cfg (d ++ [name])) ∧
      (∀ q, FileOf d entries q → t.node q = mirrored (remote.node q) (old q)) ∧
      ∀ q, ¬ FileOf d entries q → t.node q = s.node q := by
  induction entries generalizing s t dirs with
  | nil =>
    obtain ⟨rfl, rfl⟩ := exec_pure.mp hx
    refine ⟨rfl, fun q hq => ?_, fun _ _ => rfl⟩
    obtain ⟨e, he, -⟩ := hq
    cases he
  | cons e rest ih =>
    rw [List.map_cons, List.nodup_cons] at hnodup
    rw [List.forall_mem_cons] at htells hold
    obtain ⟨⟨n, hn, hkind⟩, htells⟩ := htells
    have hthere : (remote.node (d ++ [e.name])).isSome := by
      rw [hn]
      rfl
    have hfileOf : ∀ q, FileOf d (e :: rest) q ↔
        (e.kind = .file ∧ q = d ++ [e.name]) ∨ FileOf d rest q := fun q => by
      simp [FileOf, or_and_right, exists_or]
    rw [syncEntries] at hx
    cases n with
    | dir =>
      have hkind : e.kind = .dir := hkind
      rw [hkind] at hx
      obtain ⟨more, u, hrest, hdone⟩ := exec_bind.mp hx
      obtain ⟨hpushed, hfiles, hothers⟩ := ih hnodup.2 htells hdirs hold.2 htemps hrest
      obtain ⟨rfl, rfl⟩ := exec_pure.mp hdone
      refine ⟨?_, fun q hq => hfiles q ?_, fun q hq => hothers q fun hof => hq ?_⟩
      · have hname := h.names d e.name hthere
        rw [hpushed, folderNames_cons, if_pos hkind, List.map_cons,
          childRemote_syncDirAt hdir h hd hname]
        exact congrArg (· :: _) (congrArg (SyncDir.mk _) (PathBuf.child_descend hname _ _))
      · rcases (hfileOf q).mp hq with ⟨hfile, -⟩ | hof
        · rw [hkind] at hfile
          cases hfile
        · exact hof
      · exact (hfileOf q).mpr (.inr hof)
    | file content =>
      obtain ⟨hkind, hsize⟩ : e.kind = .file ∧ e.size = content.length := hkind
      rw [hkind] at hx
      obtain ⟨_, u, hfile, hrest⟩ := exec_bind.mp hx
      have hu := mirror_syncFile hdir h hd hn hsize hdirs hold.1 htemps hfile
      have hkeep : ∀ q, q ≠ d ++ [e.name] → u.node q = s.node q := fun q hq => by
        rw [hu, node_set_of_ne hq]
      have hdirs' : ∀ p, p <+: d → u.node p = some .dir := fun p hp => by
        refine (hkeep p fun heq => ?_).trans (hdirs p hp)
        have hlen := (heq ▸ hp).length_le
        rw [List.length_append, List.length_singleton] at hlen
        omega
      have hold' : ∀ e' ∈ rest, u.node (d ++ [e'.name]) = old (d ++ [e'.name]) := fun e' he' => by
        refine (hkeep _ fun heq => ?_).trans (hold.2 e' he')
        have hname : e'.name = e.name := by simpa using heq
        exact hnodup.1 (hname ▸ List.mem_map_of_mem he')
      have htemps' : ∀ name tag, u.node (d ++ [tempName name tag]) = none := fun name tag =>
        (hkeep _ (h.ne_temp hthere name tag).symm).trans (htemps name tag)
      obtain ⟨hpushed, hfiles, hothers⟩ := ih hnodup.2 htells hdirs' hold' htemps' hrest
      refine ⟨?_, fun q hq => ?_, fun q hq => ?_⟩
      · rw [hpushed, folderNames_cons, if_neg (by simp [hkind])]
      · by_cases hof : FileOf d rest q
        · exact hfiles q hof
        · obtain ⟨-, rfl⟩ := ((hfileOf q).mp hq).resolve_right hof
          rw [hothers _ hof, hu, node_set_self]
      · rw [hfileOf, not_or] at hq
        rw [hothers q hq.2]
        exact hkeep q fun heq => hq.1 ⟨hkind, heq⟩
    | other =>
      have hkind : e.kind = .symlink ∨ e.kind = .other := hkind
      have hskip : Exec (mirrorSem cfg remote) (syncEntries (syncDirAt cfg d) rest) s dirs t := by
        rcases hkind with hkind | hkind
        · rwa [hkind] at hx
        · rwa [hkind] at hx
      obtain ⟨hpushed, hfiles, hothers⟩ := ih hnodup.2 htells hdirs hold.2 htemps hskip
      refine ⟨?_, fun q hq => hfiles q ?_, fun q hq => hothers q fun hof => hq ?_⟩
      · rw [hpushed, folderNames_cons, if_neg]
        rcases hkind with hkind | hkind <;> simp [hkind]
      · rcases (hfileOf q).mp hq with ⟨hfile, -⟩ | hof
        · rcases hkind with hkind | hkind <;> rw [hkind] at hfile <;> cases hfile
        · exact hof
      · exact (hfileOf q).mpr (.inr hof)

end Listing

/-! ## 6. A turn -/

/-- The directories of a tree. -/
def FileTree.folders (t : FileTree) : Finset Place :=
  t.nodes.keys.toFinset.filter fun p => t.node p = some .dir

@[simp] theorem FileTree.mem_folders {t : FileTree} {p : Place} :
    p ∈ t.folders ↔ t.node p = some .dir := by
  rw [folders, Finset.mem_filter, List.mem_toFinset]
  refine and_iff_right_of_imp fun h => ?_
  rw [← AList.mem_keys, ← AList.lookup_isSome]
  exact Option.isSome_of_eq_some h

/-- What is on the way to a directory is one. -/
theorem FileTree.dir_of_prefix {t : FileTree} {p q : Place} (h : p <+: q)
    (hq : t.node q = some .dir) : t.node p = some .dir := by
  obtain ⟨w, rfl⟩ := h
  by_cases hw : w = []
  · rwa [hw, List.append_nil] at hq
  · exact FileTree.dir_of_node_append hq hw

/-- **The invariant**, with the places that are in the queue: at and below them nothing has been
    done, and everything else is done. -/
structure MirrorInv (remote : FileTree) (old : Place → Option Node) (queue : List Place)
    (s : MirrorDisk) : Prop where
  folders : ∀ d ∈ queue, remote.node d = some .dir
  apart : Apart queue
  ahead : ∀ q, ToVisit queue q → s.node q = old q
  visited : ∀ q, ¬ ToVisit queue q → s.node q = mirrored (remote.node q) (old q)

theorem mirrored_of_neither {n old : Option Node} (hdir : n ≠ some .dir)
    (hfile : ∀ content, n ≠ some (.file content)) : mirrored n old = old := by
  cases n with
  | none => rfl
  | some n =>
    cases n with
    | dir => exact absurd rfl hdir
    | file content => exact absurd rfl (hfile content)
    | other => rfl

section Turn

variable {cfg : MountCfg} {remote : FileTree} {old : Place → Option Node} {s t : MirrorDisk}
  {d : Place} {rest : List Place}

/-- The directories on the way to the place of a turn are there. -/
theorem MirrorInv.makeDirs (h : MirrorInv remote old (d :: rest) s) (hm : Mirrorable remote old)
    (q : Place) : (s.makeDirs d).node q = if q <+: d then some .dir else s.node q := by
  have hd := h.folders d List.mem_cons_self
  unfold MirrorDisk.makeDirs
  rw [if_pos]
  intro p hp
  have hpre := (List.mem_inits p d).mp hp
  by_cases hne : p = d
  · rw [hne, h.ahead d (toVisit_of_mem List.mem_cons_self List.prefix_rfl)]
    exact hm.folder d hd
  · rw [h.visited p (h.apart.not_toVisit_of_prefix hpre hne), FileTree.dir_of_prefix hpre hd]
    exact .inr rfl

/-- What the tree has at an entry, by the kind of the entry. -/
theorem RemoteDir.Depicts.kind_iff {D : RemoteDir} (h : D.Depicts remote d) {e : DirEntry}
    (he : e ∈ D.entries) :
    (e.kind = .dir ↔ remote.node (d ++ [e.name]) = some .dir) ∧
      (e.kind = .file ↔ ∃ content, remote.node (d ++ [e.name]) = some (.file content)) := by
  obtain ⟨n, hn, htells⟩ := h.tells e he
  rw [hn]
  cases n with
  | dir =>
    have hkind : e.kind = .dir := htells
    simp [hkind]
  | file content =>
    have hkind : e.kind = .file := htells.1
    simp [hkind]
  | other =>
    have hkind : e.kind = .symlink ∨ e.kind = .other := htells
    rcases hkind with hkind | hkind <;> simp [hkind]

/-- The names pushed are those of the directories one below. -/
theorem RemoteDir.Depicts.mem_folderNames {D : RemoteDir} (h : D.Depicts remote d) {name : String} :
    name ∈ folderNames (Agent.listDir D) ↔ remote.node (d ++ [name]) = some .dir := by
  have hmem : ∀ e, e ∈ Agent.listDir D ↔ e ∈ D.entries := fun e =>
    (List.perm_insertionSort _ _).mem_iff
  rw [folderNames, List.mem_map]
  constructor
  · intro hname
    obtain ⟨e, he, rfl⟩ := hname
    obtain ⟨he, hkind⟩ := List.mem_filter.mp he
    exact (h.kind_iff ((hmem e).mp he)).1.mp (of_decide_eq_true hkind)
  · intro hdir
    obtain ⟨e, he, rfl⟩ := h.all name (by rw [hdir]; rfl)
    refine ⟨e, List.mem_filter.mpr ⟨(hmem e).mpr he, decide_eq_true ?_⟩, rfl⟩
    exact (h.kind_iff he).1.mpr hdir

/-- **A place that a turn leaves behind** and that is no file of its directory: nothing is to become
    of it, unless it is the directory. -/
theorem RemoteDir.Depicts.passed {D : RemoteDir} (h : D.Depicts remote d) {q : Place}
    (hpass : Passed d (folderNames (Agent.listDir D)) q) (hfile : ¬ FileOf d (Agent.listDir D) q)
    (hne : q ≠ d) :
    remote.node q ≠ some .dir ∧ ∀ content, remote.node q ≠ some (.file content) := by
  obtain ⟨⟨w, rfl⟩, hnames⟩ := hpass
  cases w with
  | nil => exact absurd (List.append_nil d) hne
  | cons name w =>
    have hsplit : d ++ name :: w = d ++ [name] ++ w := by rw [List.append_assoc]; rfl
    have hnot : remote.node (d ++ [name]) ≠ some .dir := fun hdir =>
      hnames name (h.mem_folderNames.mpr hdir) (hsplit ▸ List.prefix_append _ _)
    have hdeep : w ≠ [] → ∀ n, remote.node (d ++ name :: w) ≠ some n := fun hw n hn => by
      rw [hsplit] at hn
      exact hnot (FileTree.dir_of_node_append hn hw)
    by_cases hw : w = []
    · subst hw
      refine ⟨hnot, fun content hcontent => hfile ?_⟩
      obtain ⟨e, he, rfl⟩ := h.all name (by rw [hcontent]; rfl)
      exact ⟨e, (List.perm_insertionSort _ _).mem_iff.mpr he,
        (h.kind_iff he).2.mpr ⟨content, hcontent⟩, rfl⟩
    · exact ⟨hdeep hw _, fun content => hdeep hw _⟩

/-- **A turn keeps the invariant.** -/
theorem MirrorInv.turn (hdir : cfg.remoteDir.Proper) (hm : Mirrorable remote old)
    (h : MirrorInv remote old (d :: rest) s) {pushed : Option (List SyncDir)}
    (hx : Exec (mirrorSem cfg remote) (syncTurn (syncDirAt cfg d)) s pushed t) :
    ∃ names, pushed = some (names.map fun name => syncDirAt cfg (d ++ [name])) ∧
      (∀ a, a ∈ names ↔ d ++ [a] ∈ remote.folders) ∧
      MirrorInv remote old (expand d names rest) t := by
  have hd := h.folders d List.mem_cons_self
  have hbelow : ∀ {q}, d <+: q → s.node q = old q := fun hq =>
    h.ahead _ (toVisit_of_mem List.mem_cons_self hq)
  have hdeep : ∀ {name}, ¬ d ++ [name] <+: d := fun hpre => by
    have hlen := hpre.length_le
    rw [List.length_append, List.length_singleton] at hlen
    omega
  obtain ⟨_, u, hmake, hlist⟩ := exec_bind.mp hx
  have hu : mirrorSem cfg remote (.createDirAll (cfg.cacheDir.descend d)) s () u :=
    exec_perform.mp hmake
  replace hu : u = s.atPath cfg (cfg.cacheDir.descend d) s.makeDirs := hu
  rw [atPath_descend] at hu
  have hnode : ∀ q, u.node q = if q <+: d then some .dir else s.node q := fun q => by
    rw [hu, h.makeDirs hm]
  obtain ⟨answer, v, hcall, hrest⟩ := exec_bind.mp hlist
  have hanswer : mirrorSem cfg remote (.call (.listDir (cfg.remoteDir.descend d).text)) u
      answer v := exec_perform.mp hcall
  obtain ⟨rfl, hlists⟩ := hanswer
  have hexact := hlists d (hm.placeIn hdir (by rw [hd]; rfl))
  rw [ListsExactly, if_pos hd] at hexact
  obtain ⟨D, hD, rfl⟩ := hexact
  simp only [D.listed] at hrest
  obtain ⟨dirs, w, hentries, hdone⟩ := exec_bind.mp hrest
  obtain ⟨rfl, rfl⟩ := exec_pure.mp hdone
  have hperm : (Agent.listDir D).Perm D.entries := List.perm_insertionSort _ _
  have hnodup : ((Agent.listDir D).map DirEntry.name).Nodup :=
    (hperm.map _).nodup_iff.mpr D.nodup
  obtain ⟨rfl, hfiles, hothers⟩ := mirror_syncEntries hdir hm hd hnodup
    (fun e he => hD.tells e (hperm.mem_iff.mp he))
    (fun p hp => by rw [hnode, if_pos hp])
    (fun e _ => by rw [hnode, if_neg hdeep, hbelow (List.prefix_append _ _)])
    (fun name tag => by
      rw [hnode, if_neg hdeep, hbelow (List.prefix_append _ _), (hm.temps d name tag).2])
    hentries
  have hnames : (folderNames (Agent.listDir D)).Nodup := hnodup.sublist (List.filter_sublist.map _)
  refine ⟨_, rfl, fun a => ?_, fun p hp => ?_, h.apart.expand hnames, fun q hq => ?_,
    fun q hq => ?_⟩
  · rw [FileTree.mem_folders]
    exact hD.mem_folderNames
  · rcases mem_expand.mp hp with ⟨a, ha, rfl⟩ | hp
    · exact hD.mem_folderNames.mp ha
    · exact h.folders p (List.mem_cons_of_mem _ hp)
  · obtain ⟨hvisit, hpass⟩ := (toVisit_expand h.apart).mp hq
    rw [hothers q, hnode, if_neg, h.ahead q hvisit]
    · intro hpre
      by_cases hne : q = d
      · exact hpass (hne ▸ passed_self d _)
      · exact h.apart.not_toVisit_of_prefix hpre hne hvisit
    · intro hof
      obtain ⟨e, he, hkind, rfl⟩ := hof
      obtain ⟨content, hcontent⟩ := (hD.kind_iff (hperm.mem_iff.mp he)).2.mp hkind
      refine hpass ⟨List.prefix_append _ _, fun a ha hpre => ?_⟩
      have heq := hpre.eq_of_length (by simp)
      rw [← heq, hD.mem_folderNames.mp ha] at hcontent
      cases hcontent
  · by_cases hof : FileOf d (Agent.listDir D) q
    · exact hfiles q hof
    rw [hothers q hof, hnode]
    by_cases hvisit : ToVisit (d :: rest) q
    · -- the turn has left it behind
      have hpass : Passed d (folderNames (Agent.listDir D)) q := by
        by_contra hno
        exact hq ((toVisit_expand h.apart).mpr ⟨hvisit, hno⟩)
      by_cases hne : q = d
      · rw [if_pos (hne ▸ List.prefix_rfl), hne, hd]
        rfl
      · obtain ⟨hnodir, hnofile⟩ := hD.passed hpass hof hne
        rw [mirrored_of_neither hnodir hnofile, if_neg, hbelow hpass.1]
        exact fun hpre => hne (hpre.eq_of_length (Nat.le_antisymm hpre.length_le hpass.1.length_le))
    · split
      · rename_i hpre
        rw [FileTree.dir_of_prefix hpre hd]
        rfl
      · exact h.visited q hvisit

end Turn

/-! ## 7. All turns -/

section Answers

variable {cfg : MountCfg} {remote : FileTree} {old : Place → Option Node}

/-- What the agent makes of a name in a directory. -/
def entryOf (name : String) : Option Node → DirEntry
  | some (.file content) => ⟨name, .file, content.length, 0⟩
  | some .other => ⟨name, .symlink, 0, 0⟩
  | _ => ⟨name, .dir, 0, 0⟩

theorem entryOf_name (name : String) (n : Option Node) : (entryOf name n).name = name := by
  unfold entryOf
  split <;> rfl

theorem FileTree.nodup_names (t : FileTree) (p : Place) : (t.names p).Nodup := by
  refine List.Nodup.filterMap (fun q q' name hq hq' => ?_) t.nodes.nodupKeys
  have hsplit : ∀ {r : Place}, name ∈ (if r.dropLast = p then r.getLast? else none) →
      r = p ++ [name] := by
    intro r hr
    split at hr
    · rename_i hp
      rw [← hp]
      exact (List.dropLast_append_getLast? name hr).symm
    · cases hr
  rw [hsplit hq, hsplit hq']

/-- **Every directory can be listed.** -/
theorem Mirrorable.depicted (h : Mirrorable remote old) (q : Place) :
    ∃ D : RemoteDir, D.Depicts remote q := by
  have hthere : ∀ name ∈ remote.names q, (remote.node (q ++ [name])).isSome := fun _ hname =>
    FileTree.mem_names.mp hname
  refine ⟨⟨(remote.names q).map fun name => entryOf name (remote.node (q ++ [name])), ?_, ?_, ?_⟩,
    ?_, ?_⟩
  · rw [List.map_map]
    refine (List.nodup_map_iff_inj_on (remote.nodup_names q)).mpr fun a _ b _ hab => ?_
    rwa [Function.comp_apply, Function.comp_apply, entryOf_name, entryOf_name] at hab
  · intro e he
    obtain ⟨name, hname, rfl⟩ := List.mem_map.mp he
    have hplain := h.names q name (hthere name hname)
    rw [entryOf_name]
    exact ⟨(PlainName.isPart hplain).2.1, hplain.2⟩
  · intro e he
    obtain ⟨name, -, rfl⟩ := List.mem_map.mp he
    unfold entryOf
    split
    · rename_i content hcontent
      exact ⟨h.sizes _ content hcontent, Nat.two_pow_pos 64⟩
    · exact ⟨Nat.two_pow_pos 64, Nat.two_pow_pos 64⟩
    · exact ⟨Nat.two_pow_pos 64, Nat.two_pow_pos 64⟩
  · intro e he
    obtain ⟨name, hname, rfl⟩ := List.mem_map.mp he
    obtain ⟨n, hn⟩ := Option.isSome_iff_exists.mp (hthere name hname)
    rw [entryOf_name, hn]
    refine ⟨n, rfl, ?_⟩
    cases n with
    | dir => rfl
    | file content => exact ⟨rfl, rfl⟩
    | other => exact .inl rfl
  · intro name hname
    exact ⟨_, List.mem_map_of_mem (FileTree.mem_names.mpr hname), entryOf_name _ _⟩

/-- **Every effect of the mirror is answered.** -/
theorem mirrorSem_answers (h : Mirrorable remote old) (e : Effect) (s : MirrorDisk)
    (he : Mirroring e) : ∃ a t, mirrorSem cfg remote e s a t := by
  cases e with
  | call req =>
    cases req with
    | listDir path =>
      cases hplace : (PathBuf.ofText path).placeIn cfg.remoteDir with
      | none =>
        refine ⟨.error ⟨Code.internalError, ""⟩, s, rfl, fun q hq => ?_⟩
        rw [hplace] at hq
        cases hq
      | some q =>
        have hanswer : ∃ a, ListsExactly remote q a := by
          unfold ListsExactly
          split
          · obtain ⟨D, hD⟩ := h.depicted q
            exact ⟨_, D, hD, rfl⟩
          · exact ⟨.error ⟨Code.internalError, ""⟩, _, rfl⟩
        obtain ⟨a, ha⟩ := hanswer
        refine ⟨a, s, rfl, fun q' hq' => ?_⟩
        rw [hplace] at hq'
        cases hq'
        exact ha
    | readFile path offset limit =>
      cases hplace : (PathBuf.ofText path).placeIn cfg.remoteDir with
      | none =>
        refine ⟨.error ⟨Code.internalError, ""⟩, s, rfl, fun q content hq => ?_⟩
        rw [hplace] at hq
        cases hq
      | some q =>
        obtain ⟨a, ha⟩ := exists_readsExactly (((remote.node q).bind fun
          | .file content => some content
          | _ => none).getD []) (offset.getD 0) (limit.getD (1024 * 1024))
        refine ⟨a, s, rfl, fun q' content hq' hcontent => ?_⟩
        rw [hplace] at hq'
        cases hq'
        rw [hcontent] at ha
        exact ha
    | _ => exact ⟨.error ⟨Code.internalError, ""⟩, s, rfl⟩
  | createDirAll p => exact ⟨(), _, rfl⟩
  | fileLen p =>
    have hlen : ∃ len : Option Nat, ∀ q, p.placeIn cfg.cacheDir = some q →
        (s.node q = none → len = none) ∧
          ∀ content, s.node q = some (.file content) → len = some content.length := by
      cases hplace : p.placeIn cfg.cacheDir with
      | none => exact ⟨none, fun q hq => by cases hq⟩
      | some q =>
        refine ⟨(s.node q).bind fun
          | .file content => some content.length
          | _ => none, fun q' hq' => ?_⟩
        cases hq'
        exact ⟨fun hnone => by rw [hnone]; rfl, fun content hcontent => by rw [hcontent]; rfl⟩
    obtain ⟨len, hlen⟩ := hlen
    exact ⟨len, s, rfl, hlen⟩
  | createFile p => exact ⟨(), _, rfl⟩
  | randomTag => exact ⟨(0 : Nat), s, rfl⟩
  | createTemp tmp => exact ⟨(), _, rfl⟩
  | writeTemp tmp offset data =>
    simp only [mirrorSem]
    cases (tmp.path.placeIn cfg.cacheDir).bind s.opened with
    | none => exact ⟨false, s, rfl, rfl⟩
    | some content => exact ⟨true, _, rfl, rfl⟩
  | removeTemp tmp => exact ⟨(), _, rfl⟩
  | installTemp tmp => exact ⟨_, _, rfl, rfl⟩
  | _ => exact absurd he id

/-- The mirror's effects. -/
theorem mirroring_backgroundSync : ∀ (turns : Nat) (queue : List SyncDir),
    Only Mirroring (backgroundSync turns queue)
  | 0, _ => only_pure _
  | turns + 1, [] => only_pure _
  | turns + 1, d :: queue => by
      refine (mirroring_syncTurn d).bind fun pushed => ?_
      cases pushed with
      | none => exact only_pure _
      | some dirs => exact mirroring_backgroundSync turns _

end Answers

section Runs

variable {cfg : MountCfg} {remote : FileTree} {old : Place → Option Node} {s t : MirrorDisk}

open Classical in
/-- **The turns that are left**: as many as there are directories at and below the places of the
    queue are enough. -/
theorem MirrorInv.run (hdir : cfg.remoteDir.Proper) (hm : Mirrorable remote old) {turns : Nat}
    {queue : List Place} (h : MirrorInv remote old queue s)
    (hturns : (remote.folders.filter (ToVisit queue)).card ≤ turns)
    (hx : Exec (mirrorSem cfg remote) (backgroundSync turns (queue.map (syncDirAt cfg))) s () t)
    (q : Place) : t.node q = mirrored (remote.node q) (old q) := by
  induction turns generalizing queue s with
  | zero =>
    cases queue with
    | nil =>
      obtain ⟨-, rfl⟩ := exec_pure.mp hx
      exact h.visited q (not_toVisit_nil q)
    | cons d rest =>
      have hd : d ∈ remote.folders.filter (ToVisit (d :: rest)) :=
        Finset.mem_filter.mpr ⟨FileTree.mem_folders.mpr (h.folders d List.mem_cons_self),
          toVisit_of_mem List.mem_cons_self List.prefix_rfl⟩
      exact absurd (Finset.card_pos.mpr ⟨d, hd⟩) (Nat.not_lt.mpr hturns)
  | succ turns ih =>
    cases queue with
    | nil =>
      obtain ⟨-, rfl⟩ := exec_pure.mp hx
      exact h.visited q (not_toVisit_nil q)
    | cons d rest =>
      obtain ⟨pushed, u, hturn, hrest⟩ := exec_bind.mp hx
      obtain ⟨names, rfl, hnames, hinv⟩ := h.turn hdir hm hturn
      have hclosed : ∀ p q, p <+: q → q ∈ remote.folders → p ∈ remote.folders := by
        simp only [FileTree.mem_folders]
        exact fun p q hpq hq => FileTree.dir_of_prefix hpq hq
      have hcard := card_expand h.apart (FileTree.mem_folders.mpr (h.folders d List.mem_cons_self))
        hnames hclosed
      refine ih hinv (by omega) ?_
      have hqueue : (expand d names rest).map (syncDirAt cfg) =
          (names.map fun name => syncDirAt cfg (d ++ [name])).reverse ++
            rest.map (syncDirAt cfg) := by
        rw [expand, List.map_append, List.map_reverse, List.map_map]
        rfl
      rw [hqueue]
      exact hrest

/-- **The mirror is exact.** With a turn for each directory of a remote tree that stands still the
    mirror comes to its end, and however it comes there: every remote directory is a directory of
    the cache, every remote file is in the cache as it is, unless the cache had a file of its length
    there, and nothing else has changed. -/
theorem mirror_exact (hdir : cfg.remoteDir.Proper) (hm : Mirrorable remote s.node) {turns : Nat}
    (hturns : remote.folders.card ≤ turns) :
    (∃ t, Exec (mirrorSem cfg remote)
      (backgroundSync turns [⟨cfg.remoteDir.text, cfg.cacheDir⟩]) s () t) ∧
    ∀ t, Exec (mirrorSem cfg remote)
        (backgroundSync turns [⟨cfg.remoteDir.text, cfg.cacheDir⟩]) s () t →
      ∀ q, t.node q = mirrored (remote.node q) (s.node q) := by
  refine ⟨?_, fun t hx => ?_⟩
  · have hanswers : ∀ e u, Mirroring e → ∃ a v, mirrorSem cfg remote e u a v :=
      fun e u he => mirrorSem_answers hm e u he
    obtain ⟨_, t, hx⟩ := exec_of_only hanswers
      (mirroring_backgroundSync turns [⟨cfg.remoteDir.text, cfg.cacheDir⟩]) s
    exact ⟨t, hx⟩
  · have hstart : MirrorInv remote s.node [[]] s :=
      { folders := List.forall_mem_singleton.mpr remote.root
        apart := List.pairwise_singleton _ _
        ahead := fun _ _ => rfl
        visited := fun q hq => absurd (toVisit_singleton.mpr List.nil_prefix) hq }
    classical
    have hcard : (remote.folders.filter (ToVisit [[]])).card ≤ turns :=
      (Finset.card_filter_le _ _).trans hturns
    refine hstart.run hdir hm hcard ?_
    rw [List.map_singleton, syncDirAt, PathBuf.descend_nil, PathBuf.descend_nil]
    exact hx

end Runs

/-- A remote directory with one file. -/
def docsTree : FileTree :=
  (rootTree.put ["docs"] .dir (by decide) (by decide)).put ["docs", "a"] (.file [1, 2])
    (by decide) (by decide)

theorem docsTree_node (p : Place) : docsTree.node p =
    if p = ["docs", "a"] then some (.file [1, 2])
    else if p = ["docs"] then some .dir else if p = [] then some .dir else none := by
  split_ifs with hfile hdir hroot
  · rw [hfile]
    exact FileTree.node_put
  · rw [hdir]
    exact (FileTree.node_put_of_ne (by decide)).trans FileTree.node_put
  · rw [hroot]
    exact docsTree.root
  · refine (FileTree.node_put_of_ne hfile).trans ((FileTree.node_put_of_ne hdir).trans ?_)
    exact (AList.lookup_insert_ne hroot).trans rfl

/-- A new cache directory. -/
def newCache : MirrorDisk := ⟨fun q => if q = [] then some .dir else none⟩

/-- The name of a temporary file has a dash. -/
theorem tempName_dash (name : String) (tag : Nat) : '-' ∈ (tempName name tag).toList := by
  simp [tempName]

theorem docs_mirrorable : Mirrorable docsTree newCache.node where
  names q name h := by
    rw [docsTree_node] at h
    split_ifs at h with hfile hdir hroot
    · obtain rfl : name = "a" := by
        have hlast := congrArg List.getLast? hfile
        simpa using hlast
      exact ⟨by decide, by decide⟩
    · obtain rfl : name = "docs" := by
        have hlast := congrArg List.getLast? hdir
        simpa using hlast
      exact ⟨by decide, by decide⟩
    · exact absurd hroot (List.concat_ne_nil name q)
    · cases h
  sizes q content h := by
    rw [docsTree_node] at h
    split_ifs at h
    · cases h
      decide
    all_goals cases h
  folder q h := by
    by_cases hq : q = []
    · exact .inr (if_pos hq)
    · exact .inl (if_neg hq)
  file q content h := by
    refine .inl (if_neg fun hq => ?_)
    rw [hq, docsTree_node] at h
    cases h
  temps q name tag := by
    have hdash := tempName_dash name tag
    have hne : ∀ (p : Place) (part : String), '-' ∉ part.toList →
        q ++ [tempName name tag] ≠ p ++ [part] := by
      intro p part hpart heq
      have hname : tempName name tag = part := by
        have hlast := congrArg List.getLast? heq
        simpa using hlast
      exact hpart (hname ▸ hdash)
    have hroot : q ++ [tempName name tag] ≠ [] := List.concat_ne_nil _ _
    refine ⟨?_, if_neg hroot⟩
    have hfile : q ++ [tempName name tag] ≠ ["docs", "a"] := hne ["docs"] "a" (by simp)
    have hdocs : q ++ [tempName name tag] ≠ ["docs"] := hne [] "docs" (by simp)
    rw [docsTree_node, if_neg hfile, if_neg hdocs, if_neg hroot]

/-- Two turns bring the directory and its file. -/
theorem mirror_exact_docs :
    (∃ t, Exec (mirrorSem strayMount docsTree)
      (backgroundSync 2 [⟨strayMount.remoteDir.text, strayMount.cacheDir⟩]) newCache () t) ∧
    ∀ t, Exec (mirrorSem strayMount docsTree)
        (backgroundSync 2 [⟨strayMount.remoteDir.text, strayMount.cacheDir⟩]) newCache () t →
      t.node ["docs"] = some .dir ∧ t.node ["docs", "a"] = some (.file [1, 2]) := by
  have hfolders : docsTree.folders.card ≤ 2 := by
    refine (Finset.card_le_card (t := {[], ["docs"]}) fun p hp => ?_).trans Finset.card_le_two
    rw [FileTree.mem_folders, docsTree_node] at hp
    split_ifs at hp with hfile hdocs hroot
    · cases hp
    · exact Finset.mem_insert_of_mem (Finset.mem_singleton.mpr hdocs)
    · exact Finset.mem_insert.mpr (.inl hroot)
  obtain ⟨hends, hexact⟩ := mirror_exact strayMount_proper docs_mirrorable hfolders
  exact ⟨hends, fun t hx => ⟨hexact t hx ["docs"], hexact t hx ["docs", "a"]⟩⟩

end Relayfs

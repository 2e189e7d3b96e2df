/-
  File:      Relayfs/Fuse/Reading.lean
  Subject:   THE REQUESTS THAT ONLY READ, and the prefetches they cause: what their handlers may
             perform, whatever is answered.

  * `Reading` -- the effects: RPCs that change nothing on the target; in the cache directory only
    looks, new directories, and writes that fill a file; no enqueue;
  * `KernelRequest.Reads`, `handle_reading` -- the requests whose handlers perform no others;
  * `Asking`, `handle_asking` -- what no handler at all performs: only the flusher finishes a piece;
  * `Mirroring`, `mirroring_syncTurn` -- the effects of the mirror.
-/
import Relayfs.Fuse.Background

namespace Relayfs

open Lib

/-- The effects of the handlers that only read. -/
def Reading : Effect → Prop
  | .call (.stat _) | .call (.readFile _ _ _) | .call (.listDir _) => True
  | .pathFor _ | .childPath _ _ | .inoForPath _ | .waitDrain _ | .kickPrefetch _ | .prefetchDone _
  | .createDirAll _ | .symlinkMetadata _ | .fileLen _ | .readAt _ _ _ | .writeAt _ _ _
  | .readLink _ | .readDir _ | .addRow _ => True
  | _ => False

/-- The requests that only read; some are answered at once. -/
def KernelRequest.Reads : KernelRequest → Prop
  | .setattr .. | .mknod .. | .mkdir .. | .unlink .. | .rmdir .. | .symlink .. | .rename ..
  | .write .. | .create .. => False
  | _ => True

/-! ## 1. Handlers -/

namespace RemoteFs

open FsProg Prog

theorem reading_rpc {req : BridgeRequest} (h : Reading (.call req)) : Only Reading (rpc req) :=
  only_rpc h

theorem reading_drainUploads (paths : List PathBuf) : Only Reading (drainUploads paths) :=
  only_drainUploads trivial

theorem reading_createParent (file : PathBuf) : Only Reading (createParent file) :=
  only_createParent (fun _ => trivial) file

theorem reading_remoteAttr (path : PathBuf) : Only Reading (remoteAttr path) := by
  refine (reading_rpc (by exact trivial)).bind fun a => ?_
  cases a with
  | error e => exact only_pure _
  | ok value =>
    dsimp only
    split
    · exact only_pure _
    · exact Only.bind (only_perform.mpr trivial) fun ino => only_pure _

theorem reading_replyAttr (cfg : MountCfg) (path : PathBuf) (reply : FileAttr → Reply) :
    Only Reading (replyAttr cfg path reply) := by
  refine Only.bind ((reading_remoteAttr path).bind fun a => ?_) fun a => ?_
  · cases a with
    | ok attr =>
      dsimp only
      split
      · exact Only.bind (only_perform.mpr trivial) fun _ => only_pure _
      · exact only_pure _
    | error e =>
      refine Only.bind (only_perform.mpr trivial) fun m => ?_
      cases m with
      | some m => exact Only.bind (only_perform.mpr trivial) fun ino => only_pure _
      | none => exact only_pure _
  · cases a <;> exact only_pure _

/-- A handler that begins with its path reads where it does for every path. -/
theorem reading_withPath {p : FsProg (Option PathBuf)} {f : Option PathBuf → FsProg Reply}
    (hp : Only Reading p) (hnone : Only Reading (f none))
    (hsome : ∀ path, Only Reading (f (some path))) : Only Reading (p >>= f) := by
  refine hp.bind fun o => ?_
  cases o with
  | none => exact hnone
  | some path => exact hsome path

variable (cfg : MountCfg)

theorem reading_readlink (ino : Nat) : Only Reading (readlink cfg ino) := by
  refine reading_withPath (only_perform.mpr trivial) (only_pure _) fun path => ?_
  refine Only.bind (only_perform.mpr trivial) fun target => ?_
  cases target with
  | some target => exact only_pure _
  | none =>
    refine (reading_rpc (by exact trivial)).bind fun a => ?_
    cases a with
    | error e => exact only_pure _
    | ok value =>
      dsimp only
      split
      · exact only_pure _
      · split <;> exact only_pure _

theorem reading_readCached (file : PathBuf) (offset size : Nat) :
    Only Reading (readCached file offset size) := by
  refine Only.bind (only_perform.mpr trivial) fun len => ?_
  cases len with
  | none => exact only_pure _
  | some len =>
    dsimp only
    split
    · exact only_perform.mpr trivial
    · split <;> exact only_pure _

theorem reading_fillCache (path : PathBuf) (offset : Nat) (bytes : List UInt8) :
    Only Reading (fillCache cfg path offset bytes) := by
  refine (reading_createParent _).bind fun _ => Only.bind (only_perform.mpr trivial) fun len => ?_
  dsimp only
  split
  · refine Only.bind (only_perform.mpr trivial) fun wrote => ?_
    split
    · exact only_perform.mpr trivial
    · exact only_pure _
  · exact only_pure _

theorem reading_readRemote (path : PathBuf) (offset size : Nat) :
    Only Reading (readRemote cfg path offset size) := by
  refine (reading_rpc (by exact trivial)).bind fun a => ?_
  cases a with
  | ok value =>
    dsimp only
    split
    · exact only_pure _
    · exact (reading_fillCache cfg path offset _).bind fun _ => only_pure _
  | error e =>
    refine Only.bind (only_perform.mpr trivial) fun bytes => ?_
    cases bytes <;> exact only_pure _

theorem reading_read (ino offset size : Nat) : Only Reading (read cfg ino offset size) := by
  refine reading_withPath (only_perform.mpr trivial) (only_pure _) fun path => ?_
  refine (reading_readCached _ offset size).bind fun bytes => ?_
  cases bytes with
  | some bytes => exact only_pure _
  | none => exact reading_readRemote cfg path offset size

theorem reading_flush (ino : Nat) : Only Reading (flush ino) := by
  refine reading_withPath (only_perform.mpr trivial) (only_pure _) fun path => ?_
  refine (reading_drainUploads _).bind fun a => ?_
  cases a <;> exact only_pure _

theorem reading_release (ino : Nat) : Only Reading (release ino) := by
  refine reading_withPath (only_perform.mpr trivial) (only_pure _) fun path => ?_
  exact (reading_drainUploads _).bind fun a => only_pure _

theorem reading_listEntries (path dir : PathBuf) : Only Reading (listEntries path dir) := by
  refine (reading_rpc (by exact trivial)).bind fun a => ?_
  cases a with
  | ok value =>
    dsimp only
    split
    · refine Only.bind (Only.mapM fun e _ => ?_) fun entries => only_pure _
      split
      · exact Only.bind (only_perform.mpr trivial) fun _ => only_pure _
      · exact only_pure _
    · exact only_pure _
  | error e =>
    refine Only.bind (only_perform.mpr trivial) fun entries => ?_
    cases entries <;> exact only_pure _

theorem reading_addRows (offset : Nat) : ∀ (i : Nat) (rows : List (Nat × FileType × String)),
    Only Reading (addRows offset i rows)
  | _, [] => only_pure _
  | i, (ino, kind, name) :: rest => by
      rw [addRows]
      split
      · exact reading_addRows offset (i + 1) rest
      · refine Only.bind (only_perform.mpr trivial) fun full => ?_
        split
        · exact only_pure _
        · exact reading_addRows offset (i + 1) rest

theorem reading_readdir (ino offset : Nat) : Only Reading (readdir cfg ino offset) := by
  refine reading_withPath (only_perform.mpr trivial) (only_pure _) fun path => ?_
  refine Only.bind (only_perform.mpr trivial) fun _ => (reading_listEntries path _).bind fun a => ?_
  cases a with
  | error e => exact only_pure _
  | ok entries =>
    refine Only.bind (Only.mapM fun e _ => ?_) fun rows => ?_
    · exact Only.bind (only_perform.mpr trivial) fun _ => only_pure _
    · exact (reading_addRows offset 0 _).bind fun _ => only_pure _

/-- **The handlers of reading requests only read.** -/
theorem handle_reading {r : KernelRequest} (hr : r.Reads) : Only Reading (handle cfg r) := by
  cases r with
  | lookup parent name =>
    exact reading_withPath (only_perform.mpr trivial) (only_pure _) fun path =>
      reading_replyAttr cfg path .entry
  | getattr ino =>
    exact reading_withPath (only_perform.mpr trivial) (only_pure _) fun path =>
      reading_replyAttr cfg path .attr
  | readlink ino => exact reading_readlink cfg ino
  | read ino offset size => exact reading_read cfg ino offset size
  | flush ino => exact reading_flush ino
  | fsync ino => exact reading_flush ino
  | release ino => exact reading_release ino
  | readdir ino offset => exact reading_readdir cfg ino offset
  | setattr | mknod | mkdir | unlink | rmdir | symlink | rename | write | create =>
    exact absurd hr id
  | _ => exact only_pure _

end RemoteFs

/-! ## 2. The prefetch -/

namespace Background

open FsProg Prog

theorem reading_fetchChunk (path : String) (start limit : Nat) :
    Only Reading (fetchChunk path start limit) := by
  refine Only.bind (only_perform.mpr trivial) fun a => ?_
  cases a <;> exact only_pure _

theorem reading_prefetchChunks (path : String) (file : PathBuf) (size : Nat) : ∀ offsets : List Nat,
    Only Reading (prefetchChunks path file size offsets)
  | [] => only_pure _
  | start :: rest => by
      refine (reading_fetchChunk path start _).bind fun bytes => ?_
      cases bytes with
      | none => exact only_pure _
      | some bytes =>
        refine Only.bind (only_perform.mpr trivial) fun wrote => ?_
        split
        · exact reading_prefetchChunks path file size rest
        · exact only_pure _

theorem reading_prefetchTask (cfg : MountCfg) (path : PathBuf) :
    Only Reading (prefetchTask cfg path) := by
  refine Only.bind ?_ fun _ => only_perform.mpr trivial
  refine Only.bind (only_perform.mpr trivial) fun a => ?_
  cases a with
  | error e => exact only_pure _
  | ok value =>
    refine Only.bind (only_perform.mpr trivial) fun len => ?_
    dsimp only
    split
    · exact only_pure _
    · exact reading_prefetchChunks _ _ _ _

end Background

/-! ## 3. What no handler performs -/

/-- Every effect but the end of a send task. -/
def Asking : Effect → Prop
  | .finish _ _ _ => False
  | _ => True

theorem reading_asking : ∀ e, Reading e → Asking e := by
  intro e he
  cases e with
  | finish => exact he
  | _ => trivial

namespace RemoteFs

open FsProg Prog

theorem asking_rpc (req : BridgeRequest) : Only Asking (rpc req) := only_rpc trivial

theorem asking_replyAttr (cfg : MountCfg) (path : PathBuf) (reply : FileAttr → Reply) :
    Only Asking (replyAttr cfg path reply) :=
  (reading_replyAttr cfg path reply).mono reading_asking

/-- A handler for a child that a read-only mount refuses. -/
theorem only_guarded {P : Effect → Prop} {cfg : MountCfg} {parent : Nat} {name : String}
    {f : Option PathBuf → FsProg Reply} {g : PathBuf → FsProg Reply}
    (hchild : P (.childPath parent name)) (hnone : f none = pure (.error .enoent))
    (hsome : ∀ path, f (some path) = if cfg.readOnly then pure (.error .erofs) else g path)
    (hg : ∀ path, Only P (g path)) : Only P (FsProg.childPath parent name >>= f) := by
  refine Only.bind (only_perform.mpr hchild) fun o => ?_
  cases o with
  | none =>
    rw [hnone]
    exact only_pure _
  | some path =>
    rw [hsome]
    split
    · exact only_pure _
    · exact hg path

/-- A handler that drains first ends where the drain fails. -/
theorem asking_drained {paths : List PathBuf} {f : Except Errno Unit → FsProg Reply}
    (herr : ∀ e, ∃ reply, f (.error e) = pure reply) (hok : Only Asking (f (.ok ()))) :
    Only Asking (drainUploads paths >>= f) := by
  refine (only_drainUploads trivial).bind fun a => ?_
  cases a with
  | ok _ => exact hok
  | error e =>
    obtain ⟨reply, hreply⟩ := herr e
    rw [hreply]
    exact only_pure _

theorem asking_makeEmpty (cfg : MountCfg) (path : PathBuf) (mode : Nat) :
    Only Asking (makeEmpty cfg path mode) := by
  refine (only_createParent (fun _ => trivial) _).bind fun _ => ?_
  refine Only.bind (only_perform.mpr trivial) fun _ => ?_
  refine Only.bind (only_perform.mpr trivial) fun _ => ?_
  exact only_drainUploads trivial

variable (cfg : MountCfg)

theorem asking_setattr (ino : Nat) (mode size : Option Nat) :
    Only Asking (setattr cfg ino mode size) := by
  refine Only.bind (only_perform.mpr trivial) fun o => ?_
  cases o with
  | none => exact only_pure _
  | some path =>
    have hsize : Only Asking (setSize cfg path size) := by
      cases size with
      | none => exact only_pure _
      | some size =>
        refine (only_drainUploads trivial).bind fun a => ?_
        cases a with
        | error e => exact only_pure _
        | ok _ =>
          refine (asking_rpc _).bind fun _ => ?_
          exact Only.bind (only_perform.mpr trivial) fun _ => only_pure _
    have hmode : Only Asking (setMode cfg path mode) := by
      cases mode with
      | none => exact only_pure _
      | some mode => exact (asking_rpc _).bind fun _ => only_perform.mpr trivial
    refine hsize.bind fun a => ?_
    cases a with
    | error e => exact only_pure _
    | ok _ => exact hmode.bind fun _ => asking_replyAttr cfg path .attr

theorem asking_writePath (path : PathBuf) (offset : Nat) (data : List UInt8) :
    Only Asking (writePath cfg path offset data) := by
  refine (only_createParent (fun _ => trivial) _).bind fun _ => ?_
  refine Only.bind (only_perform.mpr trivial) fun stored => ?_
  split
  · exact (only_enqueueUpload trivial trivial).bind fun _ => only_pure _
  · exact (asking_rpc _).bind fun _ => only_pure _

theorem asking_renamePaths (source dest : PathBuf) :
    Only Asking (renamePaths cfg source dest) := by
  refine asking_drained (fun _ => ⟨_, rfl⟩) ?_
  refine (only_createParent (fun _ => trivial) _).bind fun _ => ?_
  exact Only.bind (only_perform.mpr trivial) fun _ => (asking_rpc _).bind fun _ => only_pure _

/-- **No handler finishes a piece.** -/
theorem handle_asking (r : KernelRequest) : Only Asking (handle cfg r) := by
  cases r with
  | setattr ino mode size => exact asking_setattr cfg ino mode size
  | mknod parent name mode =>
    refine only_guarded trivial rfl (fun _ => rfl) fun path => ?_
    refine (asking_makeEmpty cfg path mode).bind fun a => ?_
    cases a with
    | error e => exact only_pure _
    | ok _ => exact (asking_rpc _).bind fun _ => asking_replyAttr cfg path .entry
  | create parent name mode =>
    refine only_guarded trivial rfl (fun _ => rfl) fun path => ?_
    refine (asking_makeEmpty cfg path mode).bind fun a => ?_
    cases a with
    | error e => exact only_pure _
    | ok _ =>
      exact (asking_rpc _).bind fun _ => (asking_rpc _).bind fun _ =>
        asking_replyAttr cfg path .created
  | mkdir parent name mode =>
    refine only_guarded trivial rfl (fun _ => rfl) fun path => ?_
    refine Only.bind (only_perform.mpr trivial) fun _ => ?_
    exact (asking_rpc _).bind fun _ => asking_replyAttr cfg path .entry
  | unlink parent name =>
    refine only_guarded trivial rfl (fun _ => rfl) fun path => asking_drained (fun _ => ⟨_, rfl⟩) ?_
    exact Only.bind (only_perform.mpr trivial) fun _ => (asking_rpc _).bind fun _ => only_pure _
  | rmdir parent name =>
    refine only_guarded trivial rfl (fun _ => rfl) fun path => asking_drained (fun _ => ⟨_, rfl⟩) ?_
    exact Only.bind (only_perform.mpr trivial) fun _ => (asking_rpc _).bind fun _ => only_pure _
  | symlink parent linkName target =>
    refine only_guarded trivial rfl (fun _ => rfl) fun path => ?_
    refine Only.bind (only_perform.mpr trivial) fun _ => asking_drained (fun _ => ⟨_, rfl⟩) ?_
    exact (asking_rpc _).bind fun _ => asking_replyAttr cfg path .entry
  | rename parent name newparent newname =>
    refine Only.bind (only_perform.mpr trivial) fun source => ?_
    refine Only.bind (only_perform.mpr trivial) fun dest => ?_
    cases source with
    | none => exact only_pure _
    | some source =>
      cases dest with
      | none => exact only_pure _
      | some dest =>
        dsimp only
        split
        · exact only_pure _
        · exact asking_renamePaths cfg source dest
  | write ino offset data =>
    refine Only.bind (only_perform.mpr trivial) fun o => ?_
    cases o with
    | none => exact only_pure _
    | some path =>
      dsimp only
      split
      · exact only_pure _
      · exact asking_writePath cfg path offset data
  | _ => exact (handle_reading cfg (by exact trivial)).mono reading_asking

end RemoteFs

namespace Background

open FsProg Prog

/-- The effects of the mirror. -/
def Mirroring : Effect → Prop
  | .call _ | .createDirAll _ | .fileLen _ | .createFile _ | .randomTag | .createTemp _
  | .writeTemp _ _ _ | .removeTemp _ | .installTemp _ => True
  | _ => False

theorem mirroring_fetchChunk (path : String) (start limit : Nat) :
    Only Mirroring (fetchChunk path start limit) := by
  refine Only.bind (only_perform.mpr trivial) fun a => ?_
  cases a <;> exact only_pure _

theorem mirroring_downloadToCache (path : String) (file : PathBuf) (size : Nat) :
    Only Mirroring (downloadToCache path file size) := by
  have hchunks : ∀ (t : TempFile) (offsets : List Nat),
      Only Mirroring (downloadChunks path t size offsets) := by
    intro t offsets
    induction offsets with
    | nil => exact only_pure _
    | cons start rest ih =>
      refine (mirroring_fetchChunk path start _).bind fun bytes => ?_
      cases bytes with
      | none => exact only_pure _
      | some bytes =>
        refine Only.bind (only_perform.mpr trivial) fun wrote => ?_
        split
        · exact ih
        · exact only_pure _
  unfold downloadToCache
  split
  · exact only_perform.mpr trivial
  · refine (RemoteFs.only_createParent (fun _ => trivial) _).bind fun _ => ?_
    refine Only.bind (only_perform.mpr trivial) fun tag => ?_
    refine Only.bind (only_perform.mpr trivial) fun _ => (hchunks _ _).bind fun arrived => ?_
    split
    · exact Only.bind (only_perform.mpr trivial) fun _ => only_pure _
    · exact only_perform.mpr trivial

theorem mirroring_syncEntries (d : SyncDir) : ∀ entries : List DirEntry,
    Only Mirroring (syncEntries d entries)
  | [] => only_pure _
  | e :: rest => by
      have ih := mirroring_syncEntries d rest
      unfold syncEntries
      split
      · exact ih.bind fun _ => only_pure _
      · refine Only.bind (Only.bind (only_perform.mpr trivial) fun len => ?_) fun _ => ih
        split
        · exact only_pure _
        · exact mirroring_downloadToCache _ _ _
      · exact ih

theorem mirroring_syncTurn (d : SyncDir) : Only Mirroring (syncTurn d) := by
  refine Only.bind (only_perform.mpr trivial) fun _ => ?_
  refine Only.bind (only_perform.mpr trivial) fun a => ?_
  cases a with
  | error e => exact only_pure _
  | ok value =>
    dsimp only
    split
    · exact only_pure _
    · exact (mirroring_syncEntries d _).bind fun _ => only_pure _

theorem mirroring_asking : ∀ e, Mirroring e → Asking e := by
  intro e he
  cases e with
  | finish => exact he
  | _ => trivial

end Background

end Relayfs

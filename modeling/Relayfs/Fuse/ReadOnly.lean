/-
  File:      Relayfs/Fuse/ReadOnly.lean
  Subject:   READ-ONLY MOUNTS: which requests make `RemoteFs` send a mutating RPC.

  The kernel mount is not read-only, so every handler has to ask the flag. All do but `setattr`.

  * `Mutating`, `Silent` -- the RPCs that change the remote tree, and a mount that has sent none;
  * `Calm` -- the effects that keep a read-only mount silent, with its queue empty;
  * `handle_calm` -- all handlers but `setattr` perform only such effects;
  * `readOnly_silent_iff` -- so a run is silent exactly when no `setattr` with a size or a mode
    reaches a known inode.
-/
import Relayfs.Fuse.Mount
import Relayfs.Fuse.Reading

namespace Relayfs

open Lib Background

/-! ## 1. Mutating RPCs -/

/-- The RPCs that change the remote tree. -/
def BridgeRequest.Mutating : BridgeRequest → Prop
  | .writeFile .. | .writeAt .. | .truncate .. | .chmod .. | .mkdir .. | .remove .. | .rename ..
  | .symlink .. => True
  | _ => False

section Mounts

variable {ε : Type}

/-- The mount has sent no mutating RPC. -/
def Silent (s : Mount ε) : Prop := ∀ r ∈ s.sent, ¬ r.Mutating

/-- **The condition**: a `setattr` with a size or a mode is not about a known inode. -/
def SetsNothing (s : Mount ε) : MountEvent → Prop
  | .request (.setattr ino mode size) =>
      s.inodes.path ino = none ∨ (mode = none ∧ size = none)
  | _ => True

/-- Nothing was ever enqueued. -/
def QueueEmpty (q : QueueCfg PathBuf) : Prop :=
  ∀ p, row q.st.dirty p = [] ∧ row q.st.inflight p = []

/-! ## 2. Calm effects -/

/-- The effects that keep a read-only mount silent: no mutating call, and nothing for the
    queue. -/
def Calm : Effect → Prop
  | .call req => ¬ req.Mutating
  | .enqueue _ _ _ | .finish _ _ _ => False
  | _ => True

variable {cfg : MountCfg} {env : EnvSem ε} {s t : Mount ε}

/-- A read-only mount has no flusher. -/
theorem flushes_readOnly (hro : cfg.readOnly = true) (h : Flushes cfg env s t) : t = s := by
  induction h with
  | refl => rfl
  | step _ hs _ =>
    cases hs with
    | claim hw => rw [hro] at hw; cases hw
    | send hw => rw [hro] at hw; cases hw

/-- **What a calm effect does**: nothing to the queue, and it sends no mutating RPC. -/
theorem calm_step (hro : cfg.readOnly = true) {e : Effect} {a : Answer e} (he : Calm e)
    (h : mountSem cfg env e s a t) : t.uploads = s.uploads ∧ (Silent t ↔ Silent s) := by
  cases e with
  | call req =>
    obtain ⟨env', -, rfl⟩ := h
    exact ⟨rfl, List.forall_mem_cons.trans (and_iff_right he)⟩
  | waitBelow cap =>
    rw [flushes_readOnly hro h.1]
    exact ⟨rfl, Iff.rfl⟩
  | waitDrain paths =>
    rw [flushes_readOnly hro h.1]
    exact ⟨rfl, Iff.rfl⟩
  | enqueue path start stop => exact absurd he id
  | finish path range outcome => exact absurd he id
  | kickPrefetch path =>
    obtain rfl : t = _ := h
    split <;> exact ⟨rfl, Iff.rfl⟩
  | prefetchDone path =>
    obtain rfl : t = _ := h
    exact ⟨rfl, Iff.rfl⟩
  | pathFor ino =>
    obtain ⟨-, rfl⟩ := h
    exact ⟨rfl, Iff.rfl⟩
  | childPath parent name =>
    obtain ⟨-, rfl⟩ := h
    exact ⟨rfl, Iff.rfl⟩
  | inoForPath path =>
    obtain ⟨-, rfl⟩ := h
    exact ⟨rfl, Iff.rfl⟩
  | _ =>
    obtain ⟨env', -, rfl⟩ := h
    exact ⟨rfl, Iff.rfl⟩

/-- A run of a calm program leaves the queue as it is, and the mount as silent as it was. -/
theorem calm_exec (hro : cfg.readOnly = true) {α : Type} {p : FsProg α} {a : α}
    (hp : p.Only Calm) (h : p.Exec (mountSem cfg env) s a t) :
    t.uploads = s.uploads ∧ (Silent t ↔ Silent s) := by
  refine Prog.wp_iff_exec.mp (Prog.wp_of_only
    (I := fun u : Mount ε => u.uploads = s.uploads ∧ (Silent u ↔ Silent s)) ?_ hp
    ⟨rfl, Iff.rfl⟩) a t h
  intro e u a v he hI hu
  obtain ⟨hq, hs⟩ := calm_step hro he hu
  exact ⟨hq.trans hI.1, hs.trans hI.2⟩

/-! ## 3. Calm programs -/

namespace RemoteFs

open FsProg Prog

/-- What only reads is calm. -/
theorem reading_calm (e : Effect) (h : Reading e) : Calm e := by
  cases e with
  | call req =>
    cases req with
    | stat | readFile | listDir => exact id
    | _ => exact absurd h id
  | enqueue | finish => exact absurd h id
  | _ => trivial

/-- A handler that asks the flag first is calm on a read-only mount. -/
theorem calm_guarded {cfg : MountCfg} (hro : cfg.readOnly = true) {p : FsProg (Option PathBuf)}
    {f : Option PathBuf → FsProg Reply} {g : PathBuf → FsProg Reply} (hp : Only Calm p)
    (hnone : f none = pure (.error .enoent))
    (hsome : ∀ path, f (some path) = if cfg.readOnly then pure (.error .erofs) else g path) :
    Only Calm (p >>= f) := by
  refine hp.bind fun o => ?_
  cases o with
  | none =>
    rw [hnone]
    exact only_pure _
  | some path =>
    rw [hsome, if_pos hro]
    exact only_pure _

/-- **All handlers but `setattr` are calm on a read-only mount.** -/
theorem handle_calm {cfg : MountCfg} (hro : cfg.readOnly = true) {r : KernelRequest}
    (hr : ∀ ino mode size, r ≠ .setattr ino mode size) : Only Calm (handle cfg r) := by
  cases r with
  | setattr ino mode size => exact absurd rfl (hr ino mode size)
  | mknod parent name mode =>
    exact calm_guarded hro (only_perform.mpr trivial) rfl fun _ => rfl
  | mkdir parent name mode =>
    exact calm_guarded hro (only_perform.mpr trivial) rfl fun _ => rfl
  | unlink parent name => exact calm_guarded hro (only_perform.mpr trivial) rfl fun _ => rfl
  | rmdir parent name => exact calm_guarded hro (only_perform.mpr trivial) rfl fun _ => rfl
  | symlink parent linkName target =>
    exact calm_guarded hro (only_perform.mpr trivial) rfl fun _ => rfl
  | create parent name mode =>
    exact calm_guarded hro (only_perform.mpr trivial) rfl fun _ => rfl
  | write ino offset data => exact calm_guarded hro (only_perform.mpr trivial) rfl fun _ => rfl
  | rename parent name newparent newname =>
    refine Only.bind (only_perform.mpr trivial) fun source =>
      Only.bind (only_perform.mpr trivial) fun dest => ?_
    cases source <;> cases dest
    case some.some source dest =>
      dsimp only
      rw [if_pos hro]
      exact only_pure _
    all_goals exact only_pure _
  | _ => exact Only.mono reading_calm (handle_reading cfg (by exact trivial))

end RemoteFs

namespace Background

open FsProg Prog

theorem calm_downloadChunks (path : String) (t : TempFile) (size : Nat) : ∀ offsets : List Nat,
    Only Calm (downloadChunks path t size offsets)
  | [] => only_pure _
  | start :: rest => by
      refine ((reading_fetchChunk path start _).mono RemoteFs.reading_calm).bind fun bytes => ?_
      cases bytes with
      | none => exact only_pure _
      | some bytes =>
        refine Only.bind (only_perform.mpr trivial) fun wrote => ?_
        split
        · exact calm_downloadChunks path t size rest
        · exact only_pure _

theorem calm_syncFile (d : SyncDir) (e : DirEntry) : Only Calm (syncFile d e) := by
  refine Only.bind (only_perform.mpr trivial) fun len => ?_
  split
  · exact only_pure _
  · unfold downloadToCache
    split
    · exact only_perform.mpr trivial
    · refine (RemoteFs.only_createParent (fun _ => trivial) _).bind fun _ =>
        Only.bind (only_perform.mpr trivial) fun tag =>
        Only.bind (only_perform.mpr trivial) fun _ =>
        (calm_downloadChunks _ _ _ _).bind fun ok => ?_
      split
      · exact Only.bind (only_perform.mpr trivial) fun _ => only_pure _
      · exact only_perform.mpr trivial

theorem calm_syncEntries (d : SyncDir) : ∀ entries : List DirEntry,
    Only Calm (syncEntries d entries)
  | [] => only_pure _
  | e :: rest => by
      rw [syncEntries]
      split
      · exact (calm_syncEntries d rest).bind fun _ => only_pure _
      · exact (calm_syncFile d e).bind fun _ => calm_syncEntries d rest
      · exact calm_syncEntries d rest

theorem calm_syncTurn (d : SyncDir) : Only Calm (syncTurn d) := by
  refine Only.bind (only_perform.mpr trivial) fun _ => Only.bind (only_perform.mpr id) fun a => ?_
  cases a with
  | error e => exact only_pure _
  | ok value =>
    dsimp only
    split
    · exact only_pure _
    · exact (calm_syncEntries d _).bind fun _ => only_pure _

end Background

/-! ## 4. `setattr` -/

namespace RemoteFs

open FsProg Prog

/-- What an RPC does to a mount of an empty queue. -/
theorem exec_rpc {req : BridgeRequest} {a : Except Errno Json}
    (h : Exec (mountSem cfg env) (rpc req) s a t) :
    t.uploads = s.uploads ∧ t.sent = req :: s.sent := by
  obtain ⟨_, _, -, -, rfl⟩ := exec_rpcCall h
  exact ⟨rfl, rfl⟩

/-- An RPC leaves a mount silent exactly when it is not mutating. -/
theorem silent_rpc {req : BridgeRequest} {a : Except Errno Json}
    (h : Exec (mountSem cfg env) (rpc req) s a t) : Silent t ↔ ¬ req.Mutating ∧ Silent s := by
  rw [Silent, (exec_rpc h).2]
  exact List.forall_mem_cons

/-- `setattr` with a size: nothing is pending, so the drain ends at once with `Ok`, and the
    target is asked to truncate. -/
theorem exec_setSize (hro : cfg.readOnly = true) (hq : QueueEmpty s.uploads) {path : PathBuf}
    {size : Option Nat} {a : Except Errno Unit}
    (h : Exec (mountSem cfg env) (setSize cfg path size) s a t) :
    a = .ok () ∧ t.uploads = s.uploads ∧ (Silent t ↔ size = none ∧ Silent s) := by
  cases size with
  | none =>
    obtain ⟨rfl, rfl⟩ := exec_pure.mp h
    exact ⟨rfl, rfl, (and_iff_right rfl).symm⟩
  | some size =>
    obtain ⟨drained, u, hdrain, h⟩ := exec_bind.mp h
    obtain ⟨hflush, hanswer⟩ := exec_perform.mp hdrain
    rw [flushes_readOnly hro hflush] at h hanswer
    rcases hanswer with ⟨rfl, -⟩ | ⟨-, hpending⟩
    · obtain ⟨v, w, htruncate, h⟩ := exec_bind.mp h
      obtain ⟨x, y, hlen, h⟩ := exec_bind.mp h
      obtain ⟨rfl, rfl⟩ := exec_pure.mp h
      obtain ⟨hup, hsilent⟩ := calm_step (e := .setLen _ size) hro trivial (exec_perform.mp hlen)
      refine ⟨rfl, hup.trans (exec_rpc htruncate).1, ?_⟩
      rw [hsilent, silent_rpc htruncate]
      exact ⟨fun hs => absurd trivial hs.1, fun hs => by cases hs.1⟩
    · exact absurd (fun p _ => hq p) hpending

/-- `setattr` with a mode: the target is asked to change it. -/
theorem exec_setMode (hro : cfg.readOnly = true) {path : PathBuf} {mode : Option Nat} {a : Unit}
    (h : Exec (mountSem cfg env) (setMode cfg path mode) s a t) :
    t.uploads = s.uploads ∧ (Silent t ↔ mode = none ∧ Silent s) := by
  cases mode with
  | none =>
    obtain ⟨-, rfl⟩ := exec_pure.mp h
    exact ⟨rfl, (and_iff_right rfl).symm⟩
  | some mode =>
    obtain ⟨v, w, hchmod, h⟩ := exec_bind.mp h
    obtain ⟨hup, hsilent⟩ := calm_step (e := .setPermissions _ mode) hro trivial (exec_perform.mp h)
    refine ⟨hup.trans (exec_rpc hchmod).1, ?_⟩
    rw [hsilent, silent_rpc hchmod]
    exact ⟨fun hs => absurd trivial hs.1, fun hs => by cases hs.1⟩

/-- **`setattr` on a read-only mount**: it stays silent exactly when the inode is unknown or
    neither size nor mode is set. -/
theorem exec_setattr (hro : cfg.readOnly = true) (hq : QueueEmpty s.uploads) {ino : Nat}
    {mode size : Option Nat} {reply : Reply}
    (h : Exec (mountSem cfg env) (setattr cfg ino mode size) s reply t) :
    t.uploads = s.uploads ∧
      (Silent t ↔ (s.inodes.path ino = none ∨ (mode = none ∧ size = none)) ∧ Silent s) := by
  obtain ⟨path, u, hpath, h⟩ := exec_bind.mp h
  obtain ⟨hino, rfl⟩ := exec_perform.mp hpath
  rw [← hino]
  cases path with
  | none =>
    obtain ⟨-, rfl⟩ := exec_pure.mp h
    exact ⟨rfl, (and_iff_right (.inl rfl)).symm⟩
  | some path =>
    obtain ⟨sized, v, hsize, h⟩ := exec_bind.mp h
    obtain ⟨rfl, hup₁, hsilent₁⟩ := exec_setSize hro hq hsize
    obtain ⟨x, w, hmode, h⟩ := exec_bind.mp h
    obtain ⟨hup₂, hsilent₂⟩ := exec_setMode hro hmode
    obtain ⟨hup₃, hsilent₃⟩ := calm_exec hro ((reading_replyAttr cfg path .attr).mono reading_calm) h
    refine ⟨hup₃.trans (hup₂.trans hup₁), ?_⟩
    rw [hsilent₃, hsilent₂, hsilent₁]
    simp [and_assoc]

end RemoteFs

/-! ## 5. Runs -/

/-- **One step of a read-only mount.** -/
theorem step_silent_iff (hro : cfg.readOnly = true) (hq : QueueEmpty s.uploads) {e : MountEvent}
    (h : MountStep cfg env s e t) :
    QueueEmpty t.uploads ∧ (Silent t ↔ SetsNothing s e ∧ Silent s) := by
  cases h with
  | @request _ r reply hx =>
    by_cases hr : ∃ ino mode size, r = .setattr ino mode size
    · obtain ⟨ino, mode, size, rfl⟩ := hr
      obtain ⟨hup, hsilent⟩ := RemoteFs.exec_setattr hro hq hx
      exact ⟨hup ▸ hq, hsilent⟩
    · have hr : ∀ ino mode size, r ≠ .setattr ino mode size :=
        fun ino mode size he => hr ⟨ino, mode, size, he⟩
      obtain ⟨hup, hsilent⟩ := calm_exec hro (RemoteFs.handle_calm hro hr) hx
      refine ⟨hup ▸ hq, hsilent.trans (and_iff_right ?_).symm⟩
      cases r with
      | setattr ino mode size => exact absurd rfl (hr ino mode size)
      | _ => trivial
  | prefetch hk hx =>
    obtain ⟨hup, hsilent⟩ := calm_exec hro ((reading_prefetchTask cfg _).mono RemoteFs.reading_calm) hx
    exact ⟨hup ▸ hq, hsilent.trans (and_iff_right trivial).symm⟩
  | flush hs =>
    obtain rfl := flushes_readOnly hro (.step (.refl _) hs)
    exact ⟨hq, (and_iff_right trivial).symm⟩
  | sync hd hx =>
    obtain ⟨hup, hsilent⟩ := calm_exec hro (calm_syncTurn _) hx
    exact ⟨hup ▸ hq, hsilent.trans (and_iff_right trivial).symm⟩

/-- **Read-only mounts.** Whatever the target and the cache do: a run of a read-only mount sends no
    mutating RPC exactly when none of its `setattr` requests sets a size or a mode of a known
    inode. -/
theorem readOnly_silent_iff (hro : cfg.readOnly = true) {hist : List (Mount ε × MountEvent)}
    (h : MountRun cfg env hist s) :
    (∀ t ∈ visited hist s, Silent t) ↔ ∀ x ∈ hist, SetsNothing x.1 x.2 := by
  have hstart : ∀ s : Mount ε, MountInit cfg s → QueueEmpty s.uploads := by
    intro s h0
    obtain ⟨now, env', rfl⟩ := h0
    exact fun p => ⟨rfl, rfl⟩
  refine h.all_states_iff hstart (fun s e t hq hs => (step_silent_iff hro hq hs).1) ?_ ?_
  · intro s h0 r hr
    obtain ⟨now, env', rfl⟩ := h0
    rw [List.mem_singleton.mp hr]
    exact id
  · intro s e t hq hs hst
    exact (step_silent_iff hro hq hst).2.trans (and_iff_left hs)

end Mounts

/-! ## 6. A `chmod` on a read-only mount -/

/-- The target's answer about the mounted directory. -/
def rootStat : Json :=
  .obj [("kind", .str "dir"), ("size", .nat 4096), ("modified", .nat 0), ("mode", .nat 0o40755),
    ("uid", .nat 0), ("gid", .nat 0)]

/-- A target that has one directory and does what it is asked; a cache without files. -/
def dirAnswer : (e : Effect) → Answer e
  | .call (.stat _) => .ok rootStat
  | .call _ => .ok .null
  | .pathFor _ | .childPath _ _ | .symlinkMetadata _ | .fileLen _ | .readAt _ _ _ | .readLink _
  | .readDir _ => none
  | .inoForPath _ | .randomTag => (0 : Nat)
  | .waitDrain _ => .ok ()
  | .writeAt _ _ _ | .writeTemp _ _ _ | .installTemp _ | .addRow _ => false
  | .enqueue _ _ _ | .waitBelow _ | .finish _ _ _ | .kickPrefetch _ | .prefetchDone _
  | .createDirAll _ | .setLen _ _ | .createFile _ | .setPermissions _ _ | .removeFile _
  | .removeDir _ | .symlinkFile _ _ | .renameFile _ _ | .createTemp _ | .removeTemp _ => ()

abbrev dirEnv : EnvSem Unit := fun e _ a _ => a = dirAnswer e

/-- A read-only mount of `/srv`. -/
def srvMount : MountCfg := ⟨true, ⟨true, ["srv"]⟩, ⟨true, ["cache"]⟩⟩

def srvStart : Mount Unit :=
  ⟨.new srvMount.remoteDir, ⟨.new 0, []⟩, [], [],
    [⟨srvMount.remoteDir.text, srvMount.cacheDir⟩], [.stat srvMount.remoteDir.text], ()⟩

theorem srvStart_init : MountInit srvMount srvStart := ⟨0, (), rfl⟩

/-- The attributes of the root. -/
def rootAttr : FileAttr := attrFromStat ⟨.dir, 4096, 0, 0o40755, 0, 0, none⟩ 1

/-- The kernel asks for the attributes of the root. -/
theorem getattr_root : Prog.Exec (mountSem srvMount dirEnv)
    (RemoteFs.handle srvMount (.getattr 1)) srvStart (.attr rootAttr)
    { srvStart with sent := .stat srvMount.remoteDir.text :: srvStart.sent } := by
  refine .ask (a := some srvMount.remoteDir) ⟨rfl, rfl⟩ ?_
  refine .ask (a := .ok rootStat) ⟨(), rfl, rfl⟩ ?_
  refine .ask (a := (1 : Nat)) ⟨rfl, rfl⟩ ?_
  refine .ask (a := ()) ⟨(), rfl, rfl⟩ ?_
  exact .done _ _

theorem readOnly_silent_getattr :
    Silent { srvStart with sent := .stat srvMount.remoteDir.text :: srvStart.sent } :=
  (readOnly_silent_iff rfl (.step (.start srvStart_init) (.request getattr_root))).mpr
    (by simp [SetsNothing]) _ List.mem_cons_self

/-- The kernel changes the mode of the root: `chmod 700` on the mount point. -/
theorem chmod_root : Prog.Exec (mountSem srvMount dirEnv)
    (RemoteFs.handle srvMount (.setattr 1 (some 0o700) none)) srvStart (.attr rootAttr)
    { srvStart with
      sent := .stat srvMount.remoteDir.text :: .chmod srvMount.remoteDir.text 0o700
        :: srvStart.sent } := by
  refine .ask (a := some srvMount.remoteDir) ⟨rfl, rfl⟩ ?_
  refine .ask (a := .ok .null) ⟨(), rfl, rfl⟩ ?_
  refine .ask (a := ()) ⟨(), rfl, rfl⟩ ?_
  refine .ask (a := .ok rootStat) ⟨(), rfl, rfl⟩ ?_
  refine .ask (a := (1 : Nat)) ⟨rfl, rfl⟩ ?_
  refine .ask (a := ()) ⟨(), rfl, rfl⟩ ?_
  exact .done _ _

/-- **A read-only mount sends CHMOD.** -/
theorem setattr_sends_chmod : srvMount.readOnly = true ∧ ∃ s : Mount Unit,
    MountRun srvMount dirEnv [(srvStart, .request (.setattr 1 (some 0o700) none))] s ∧
      .chmod srvMount.remoteDir.text 0o700 ∈ s.sent ∧ ¬ Silent s := by
  refine ⟨rfl, _, .step (.start srvStart_init) (.request chmod_root), ?_, fun h => ?_⟩
  · exact List.mem_cons_of_mem _ List.mem_cons_self
  · exact h _ (List.mem_cons_of_mem _ List.mem_cons_self) trivial

end Relayfs

/-
  File:      Relayfs/Fuse/Mount.lean
  Subject:   A MOUNT: the state its handlers share, what the effects do to it, and its runs.

  The target and the cache directory are an ENVIRONMENT of any kind (`EnvSem`). The kernel's
  requests are handled one at a time, each to its end; between them, and while a handler waits for
  the queue, the background tasks run.

  * `InodeMap` -- inode numbers and paths;
  * `Mount`, `mountSem` -- the state and the meaning of the effects;
  * `MountEvent`, `MountStep`, `MountRun` -- requests and background tasks.
-/
import Relayfs.Fuse.Background
import Relayfs.Queue.Run

namespace Relayfs

open Lib Background

/-! ## 1. Inodes -/

/-- `InodeMap`. -/
structure InodeMap where
  next : Nat
  byIno : Table Nat PathBuf
  byPath : Table PathBuf Nat

namespace InodeMap

/-- `InodeMap::new`. -/
def new (root : PathBuf) : InodeMap :=
  ⟨2, (∅ : Table Nat PathBuf).insert 1 root, (∅ : Table PathBuf Nat).insert root 1⟩

/-- `path`. -/
def path (m : InodeMap) (ino : Nat) : Option PathBuf := m.byIno.lookup ino

/-- `ino_for`. -/
def inoFor (m : InodeMap) (p : PathBuf) : InodeMap × Nat :=
  match m.byPath.lookup p with
  | some ino => (m, ino)
  | none => (⟨m.next + 1, m.byIno.insert m.next p, m.byPath.insert p m.next⟩, m.next)

/-- `child_path`. -/
def childPath (m : InodeMap) (parent : Nat) (name : String) : InodeMap × Option PathBuf :=
  match m.path parent with
  | some dir => ((m.inoFor (dir.child name)).1, some (dir.child name))
  | none => (m, none)

end InodeMap

/-! ## 2. The state and the effects -/

/-- **The state of a mount** with an environment `ε`. `kicked` are the prefetches that have been
    spawned and not run, `sync` the queue of `background_sync_folder`. `sent` is a ghost: the
    requests handed to the client, newest first. -/
structure Mount (ε : Type) where
  inodes : InodeMap
  uploads : QueueCfg PathBuf
  prefetching : List PathBuf
  kicked : List PathBuf
  sync : List SyncDir
  sent : List BridgeRequest
  env : ε

/-- What the target and the cache directory do with an effect. -/
abbrev EnvSem (ε : Type) := Prog.Sem Effect Answer ε

section Effects

variable {ε : Type}

/-- Nothing of the paths is dirty or in flight. -/
def Idle (q : QueueCfg PathBuf) (paths : List PathBuf) : Prop :=
  ∀ p ∈ paths, row q.st.dirty p = [] ∧ row q.st.inflight p = []

/-- Nothing of an idle path is pending. -/
theorem Idle.not_pending {q : QueueCfg PathBuf} {paths : List PathBuf} (h : Idle q paths)
    {p : PathBuf} (hp : p ∈ paths) (x : Nat) : ¬ q.Pending p x := by
  obtain ⟨hdirty, hflight⟩ := h p hp
  intro h'
  obtain hx | hx := h'
  · rw [hdirty] at hx
    exact covers_nil x hx
  · rw [hflight] at hx
    exact covers_nil x hx

/-- The effects that wait for nothing. -/
def stepSem (env : EnvSem ε) : Prog.Sem Effect Answer (Mount ε)
  | .pathFor ino, s, a, t => a = s.inodes.path ino ∧ t = s
  | .childPath parent name, s, a, t =>
      a = (s.inodes.childPath parent name).2 ∧
        t = { s with inodes := (s.inodes.childPath parent name).1 }
  | .inoForPath path, s, a, t =>
      a = (s.inodes.inoFor path).2 ∧ t = { s with inodes := (s.inodes.inoFor path).1 }
  | .enqueue path start stop, s, _, t =>
      s.uploads.permits (.enqueue path start stop) ∧
        t = { s with uploads := s.uploads.next (.enqueue path start stop) }
  | .finish path range outcome, s, _, t =>
      s.uploads.permits (.finish path range outcome 0) ∧
        ∃ now, t = { s with uploads := s.uploads.next (.finish path range outcome now) }
  | .kickPrefetch path, s, _, t =>
      t = if path ∈ s.prefetching then s
        else { s with prefetching := path :: s.prefetching, kicked := path :: s.kicked }
  | .prefetchDone path, s, _, t => t = { s with prefetching := s.prefetching.erase path }
  | .call req, s, a, t =>
      ∃ env', env (.call req) s.env a env' ∧ t = { s with sent := req :: s.sent, env := env' }
  | .waitBelow _, _, _, _ | .waitDrain _, _, _, _ => False
  | e, s, a, t => ∃ env', env e s.env a env' ∧ t = { s with env := env' }

/-- One step of the flusher: it claims a batch, or a send task runs. A read-only mount has no
    flusher. -/
inductive FlusherStep (cfg : MountCfg) (env : EnvSem ε) : Mount ε → Mount ε → Prop where
  | claim {s : Mount ε} (hw : cfg.readOnly = false) (now : Nat) (paths : List PathBuf)
      (hok : s.uploads.permits (.takeBatch now paths)) :
      FlusherStep cfg env s { s with uploads := s.uploads.next (.takeBatch now paths) }
  | send {s t : Mount ε} (hw : cfg.readOnly = false) {path : PathBuf} {range : Range}
      (ht : (path, range) ∈ s.uploads.tasks)
      (hx : Prog.Exec (stepSem env) (sendPiece cfg path range) s () t) : FlusherStep cfg env s t

/-- The flusher runs while a handler waits. -/
inductive Flushes (cfg : MountCfg) (env : EnvSem ε) : Mount ε → Mount ε → Prop where
  | refl (s : Mount ε) : Flushes cfg env s s
  | step {s t u : Mount ε} (h : Flushes cfg env s t) (hs : FlusherStep cfg env t u) :
      Flushes cfg env s u

/-- **The meaning of the effects.** A wait ends when the queue is as wanted; a drain may also end
    with an error while something is pending. -/
def mountSem (cfg : MountCfg) (env : EnvSem ε) : Prog.Sem Effect Answer (Mount ε)
  | .waitBelow cap, s, _, t => Flushes cfg env s t ∧ waitBelow t.uploads.st cap = true
  | .waitDrain paths, s, a, t =>
      Flushes cfg env s t ∧
        ((a = Except.ok () ∧ Idle t.uploads paths) ∨
          (a = Except.error Errno.eio ∧ ¬ Idle t.uploads paths))
  | e, s, a, t => stepSem env e s a t

/-- An RPC is one call. -/
theorem exec_rpcCall {cfg : MountCfg} {env : EnvSem ε} {s t : Mount ε} {req : BridgeRequest}
    {a : Except Errno Json} (hx : Prog.Exec (mountSem cfg env) (RemoteFs.rpc req) s a t) :
    ∃ answer env', env (.call req) s.env answer env' ∧ a = answer.mapError errnoFor ∧
      t = { s with sent := req :: s.sent, env := env' } := by
  obtain ⟨answer, u, hcall, hx⟩ := Prog.exec_bind.mp hx
  obtain ⟨env', htarget, rfl⟩ := Prog.exec_perform.mp hcall
  refine ⟨answer, env', htarget, ?_⟩
  cases answer <;> exact Prog.exec_pure.mp hx

/-! ## 3. Runs -/

inductive MountEvent where
  | request (r : KernelRequest)
  | prefetch (path : PathBuf)
  | flush
  | sync
  deriving DecidableEq, Repr

/-- **One step of a mount.** -/
inductive MountStep (cfg : MountCfg) (env : EnvSem ε) :
    Mount ε → MountEvent → Mount ε → Prop where
  | request {s t : Mount ε} {r : KernelRequest} {reply : Reply}
      (hx : Prog.Exec (mountSem cfg env) (RemoteFs.handle cfg r) s reply t) :
      MountStep cfg env s (.request r) t
  | prefetch {s t : Mount ε} {path : PathBuf} (hk : path ∈ s.kicked)
      (hx : Prog.Exec (mountSem cfg env) (prefetchTask cfg path)
        { s with kicked := s.kicked.erase path } () t) :
      MountStep cfg env s (.prefetch path) t
  | flush {s t : Mount ε} (hs : FlusherStep cfg env s t) : MountStep cfg env s .flush t
  | sync {s t : Mount ε} {d : SyncDir} {rest : List SyncDir} {pushed : Option (List SyncDir)}
      (hd : s.sync = rest ++ [d])
      (hx : Prog.Exec (mountSem cfg env) (syncTurn d) { s with sync := [] } pushed t) :
      MountStep cfg env s .sync { t with sync := (pushed.map fun l => rest ++ l).getD [] }

/-- `MountManager::mount` has checked that the remote directory exists; the mirror begins at its
    root. -/
def MountInit (cfg : MountCfg) (s : Mount ε) : Prop :=
  ∃ now env, s = ⟨.new cfg.remoteDir, ⟨.new now, []⟩, [], [],
    [⟨cfg.remoteDir.text, cfg.cacheDir⟩], [.stat cfg.remoteDir.text], env⟩

abbrev MountRun (cfg : MountCfg) (env : EnvSem ε) (hist : List (Mount ε × MountEvent))
    (s : Mount ε) : Prop :=
  Run (MountInit cfg) (MountStep cfg env) hist s

end Effects

end Relayfs

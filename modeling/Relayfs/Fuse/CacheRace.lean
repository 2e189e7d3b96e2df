/-
  File:      Relayfs/Fuse/CacheRace.lean
  Subject:   THE WRITERS OF THE CACHE FILES, effect by effect: writes of the kernel, which are
             queued for upload, and reads, prefetches and the mirror, which fill the files with
             what the target has.

  The kernel's requests run on several threads, so every writer is a thread of its own here, and
  takes one effect at a time. The target answers anything. Which thread runs is left open.

  * `SharedCache`, `sharedSem` -- the cache files and the queue, and what the effects do to them;
  * `CacheStep` -- one effect of one thread, or one step of the flusher;
  * `Unsent` -- a byte that was written and has not reached the target;
  * `CacheInv` -- every unsent byte is in its file, as it was last written, and a thread that has
    looked at a file fills it past the bytes that were unsent then;
  * `SparesUnsent` -- the condition on a step, and `fills_keep_unsent` -- runs of such steps;
  * `prefetch_overwrites_write` -- a write between the fetch of a chunk and its arrival.
-/
import Relayfs.Lib.Bytes
import Relayfs.Fuse.CacheTree
import Relayfs.Fuse.Inodes

namespace Relayfs

open Lib Background

/-! ## 1. The cache files -/

/-- **What the threads share.** `fused` is a ghost: the byte that the kernel last wrote at an
    offset of a cache file. -/
structure SharedCache where
  inodes : InodeMap
  uploads : QueueCfg PathBuf
  files : PathBuf → Option (List UInt8)
  fused : PathBuf → Nat → UInt8

namespace SharedCache

/-- A write to a file, by the kernel or not; the open makes the file. -/
def put (s : SharedCache) (fuse : Bool) (file : PathBuf) (offset : Nat) (data : List UInt8) :
    SharedCache :=
  { s with
    files := Function.update s.files file
      (some (writeAt ((s.files file).getD []) offset data))
    fused := if fuse then
        Function.update s.fused file fun x =>
          if offset ≤ x ∧ x < offset + data.length then byteAt data (x - offset)
          else s.fused file x
      else s.fused }

/-- Another file in the place of a file. -/
def install (s : SharedCache) (file : PathBuf) (bytes : List UInt8) : SharedCache :=
  { s with files := Function.update s.files file (some bytes) }

/-- The byte of a file at an offset, if it has one. -/
def byte (s : SharedCache) (file : PathBuf) (x : Nat) : Option UInt8 :=
  (s.files file).bind fun c => if x < c.length then some (byteAt c x) else none

end SharedCache

/-- **What an effect of a thread does.** A write may stop before its end; what a download has
    fetched is anything. Effects that these threads do not perform have no meaning. -/
def sharedSem (fuse : Bool) : Prog.Sem Effect Answer SharedCache
  | .pathFor ino, s, a, t => a = s.inodes.path ino ∧ t = s
  | .enqueue path start stop, s, _, t =>
      s.uploads.permits (.enqueue path start stop) ∧
        t = { s with uploads := s.uploads.next (.enqueue path start stop) }
  | .waitBelow cap, s, _, t => waitBelow s.uploads.st cap = true ∧ t = s
  | .fileLen p, s, a, t => t = s ∧ a = (s.files p).map List.length
  | .readAt p offset len, s, a, t => t = s ∧ a = (s.files p).map fun c => (c.drop offset).take len
  | .writeAt p offset data, s, a, t =>
      (a = false ∧ t = s) ∨ ∃ k ≤ data.length, (a = true → k = data.length) ∧
        t = s.put fuse p offset (data.take k)
  | .createFile p, s, _, t => t = s ∨ t = s.install p []
  | .installTemp file, s, a, t =>
      (a = false ∧ t = s) ∨ ∃ bytes, t = s.install file.target bytes
  | .call _, s, _, t | .kickPrefetch _, s, _, t | .prefetchDone _, s, _, t
  | .createDirAll _, s, _, t | .randomTag, s, _, t | .createTemp _, s, _, t
  | .writeTemp _ _ _, s, _, t | .removeTemp _, s, _, t => t = s
  | _, _, _, _ => False

/-! ## 2. Threads -/

/-- What a thread does: a request of the kernel, a prefetch, a turn of the mirror. -/
inductive CacheJob where
  | write (ino offset : Nat) (data : List UInt8)
  | read (ino offset size : Nat)
  | prefetch (path : PathBuf)
  | mirror (d : SyncDir)
  deriving DecidableEq, Repr

namespace CacheJob

/-- The program of a thread; nobody waits for its result. -/
def prog (cfg : MountCfg) : CacheJob → FsProg Unit
  | write ino offset data => do let _ ← RemoteFs.handle cfg (.write ino offset data)
  | read ino offset size => do let _ ← RemoteFs.handle cfg (.read ino offset size)
  | prefetch path => prefetchTask cfg path
  | mirror d => do let _ ← syncTurn d

/-- The thread writes what the kernel has; others fill the cache. -/
def fuse : CacheJob → Bool
  | write .. => true
  | _ => false

end CacheJob

/-- The range of a cache file that an effect has written to its end. -/
def landed : Prog.Answered Effect Answer → Option (PathBuf × Range)
  | ⟨.writeAt file offset data, a⟩ =>
      if (show Bool from a) then some (file, offset, offset + data.length) else none
  | _ => none

/-- **A thread** under way: what is left of its program, the answers it has got, newest first, and
    a ghost: what the kernel has written since its first effect. -/
structure CacheThread where
  job : CacheJob
  prog : FsProg Unit
  log : List (Prog.Answered Effect Answer)
  since : List (PathBuf × Range)

namespace CacheThread

/-- The range that a write has put into its cache file and not queued yet. -/
def owes (t : CacheThread) : Option (PathBuf × Range) :=
  if t.job.fuse then t.log.head?.bind landed else none

/-- A byte was written by the kernel since the thread began. -/
def Since (t : CacheThread) (file : PathBuf) (x : Nat) : Prop :=
  ∃ r, (file, r) ∈ t.since ∧ Inside x r

end CacheThread

structure CacheWorld where
  shared : SharedCache
  threads : Nat → CacheThread

/-- The threads after an effect of one of them: those that have begun see what the kernel has
    written. -/
def CacheWorld.after (w : CacheWorld) (i : Nat) (shared : SharedCache) (p : FsProg Unit)
    (x : Prog.Answered Effect Answer) : CacheWorld where
  shared := shared
  threads j :=
    if j = i then { w.threads i with prog := p, log := x :: (w.threads i).log }
    else if (w.threads j).log = [] then w.threads j
    else if (w.threads i).job.fuse then
      { w.threads j with since := (landed x).toList ++ (w.threads j).since }
    else w.threads j

inductive CacheEvent where
  | thread (i : Nat)
  | flusher (op : QueueOp PathBuf)

/-- **One step**: an effect of a thread, or the flusher claims a batch, or finishes a piece. -/
inductive CacheStep : CacheWorld → CacheEvent → CacheWorld → Prop where
  | thread {w : CacheWorld} {i : Nat} {e : Effect} {k : Answer e → FsProg Unit} {a : Answer e}
      {shared : SharedCache} (hprog : (w.threads i).prog = .ask e k)
      (hx : sharedSem (w.threads i).job.fuse e w.shared a shared) :
      CacheStep w (.thread i) (w.after i shared (k a) ⟨e, a⟩)
  | flusher {w : CacheWorld} {op : QueueOp PathBuf}
      (hop : ∀ path start stop, op ≠ .enqueue path start stop) (hok : w.shared.uploads.permits op) :
      CacheStep w (.flusher op)
        { w with shared := { w.shared with uploads := w.shared.uploads.next op } }

/-- An inode map that lookups and listings have made: a name of the kernel never starts at the
    root. -/
inductive InodeMap.Made (root : PathBuf) : InodeMap → Prop where
  | new : Made root (.new root)
  | child {m : InodeMap} (h : Made root m) (parent : Nat) {name : String}
      (hname : (PathBuf.ofText name).absolute = false) : Made root (m.childPath parent name).1

/-- Nothing is queued, and no thread has begun. -/
structure CacheInit (cfg : MountCfg) (w : CacheWorld) : Prop where
  queue : QueueInit w.shared.uploads
  inodes : w.shared.inodes.Made cfg.remoteDir
  threads : ∀ i, ∃ job : CacheJob, w.threads i = ⟨job, job.prog cfg, [], []⟩

abbrev CacheRun (cfg : MountCfg) (hist : List (CacheWorld × CacheEvent)) (w : CacheWorld) : Prop :=
  Run (CacheInit cfg) CacheStep hist w

/-! ## 3. Unsent bytes -/

/-- **A byte of a cache file that was written and has not reached the target**: it is dirty or in
    flight, or about to be queued. -/
def CacheWorld.Unsent (cfg : MountCfg) (w : CacheWorld) (file : PathBuf) (x : Nat) : Prop :=
  (∃ p, cfg.flushPath p = file ∧ w.shared.uploads.Pending p x) ∨
    ∃ i r, (w.threads i).owes = some (file, r) ∧ Inside x r

/-- An effect puts another file in the place of a cache file. -/
def Effect.Installs (file : PathBuf) : Effect → Prop
  | .createFile p => p = file
  | .installTemp t => t.target = file
  | _ => False

/-- **The condition.** A fill does not reach a byte that the kernel wrote since the thread began
    and that is unsent; a file is emptied or replaced only while none of its bytes is. -/
structure Spares (cfg : MountCfg) (w : CacheWorld) (t : CacheThread) (e : Effect) : Prop where
  fill : t.job.fuse = false → ∀ file offset data, e = .writeAt file offset data → ∀ x,
    offset ≤ x → x < offset + data.length → t.Since file x → ¬ w.Unsent cfg file x
  whole : ∀ file, e.Installs file → ∀ x, ¬ w.Unsent cfg file x

def SparesUnsent (cfg : MountCfg) (w : CacheWorld) : CacheEvent → Prop
  | .thread i => ∀ e k, (w.threads i).prog = .ask e k → Spares cfg w (w.threads i) e
  | .flusher _ => True

/-- **What the flusher reads** at a byte that is dirty or in flight is what the kernel wrote. -/
def ReadsWritten (cfg : MountCfg) (w : CacheWorld) : Prop :=
  ∀ p x, w.shared.uploads.Pending p x →
    w.shared.byte (cfg.flushPath p) x = some (w.shared.fused (cfg.flushPath p) x)

/-- **A fill changes no byte that is dirty or in flight.** -/
def FillKeeps (cfg : MountCfg) (w : CacheWorld) (e : CacheEvent) (w' : CacheWorld) : Prop :=
  ∀ i, e = .thread i → (w.threads i).job.fuse = false →
    ∀ p x, w.shared.uploads.Pending p x →
      w'.shared.byte (cfg.flushPath p) x = w.shared.byte (cfg.flushPath p) x

/-! ## 4. What the threads ask for -/

/-- No read of a file failed after its length was known. -/
def Sane : List (Prog.Answered Effect Answer) → Prop
  | [] => True
  | ⟨.readAt file _ _, a⟩ :: rest =>
      ((a : Option (List UInt8)) = none → ∀ l : Nat, ⟨.fileLen file, some l⟩ ∉ rest) ∧ Sane rest
  | _ :: rest => Sane rest

/-- The thread has seen the file end at or before an offset. -/
def Looked (file : PathBuf) (offset : Nat) (log : List (Prog.Answered Effect Answer)) : Prop :=
  Sane log → ∃ a : Option Nat, ⟨.fileLen file, a⟩ ∈ log ∧ a.getD 0 ≤ offset

/-- What a thread asks for after some answers: a fill begins where the file was seen to end, and a
    write queues what it has just put into the cache file of its path. -/
def Asks (cfg : MountCfg) (fuse : Bool) (log : List (Prog.Answered Effect Answer)) : Effect → Prop
  | .writeAt file offset _ => fuse = false → Looked file offset log
  | .enqueue path start stop => fuse = true ∧ ∃ data rest ino,
      log = ⟨.writeAt (cfg.cachePath path) start data, true⟩ :: rest ∧
        stop = start + data.length ∧ ⟨.pathFor ino, some path⟩ ∈ rest
  | _ => True

section Asks

open RemoteFs Prog

variable {cfg : MountCfg} {file : PathBuf} {offset : Nat}
  {log : List (Answered Effect Answer)}

theorem Sane.of_append : ∀ {new : List (Answered Effect Answer)}, Sane (new ++ log) → Sane log
  | [], h => h
  | ⟨e, a⟩ :: new, h => by
      have hrest : Sane (new ++ log) := by
        cases e with
        | readAt => exact h.2
        | _ => exact h
      exact Sane.of_append hrest

theorem Looked.append (h : Looked file offset log) (new : List (Answered Effect Answer)) :
    Looked file offset (new ++ log) := by
  intro hsane
  obtain ⟨a, ha, hle⟩ := h hsane.of_append
  exact ⟨a, List.mem_append_right _ ha, hle⟩

/-- The effects that a thread may ask for at any time. -/
def Free : Effect → Prop
  | .writeAt _ _ _ | .enqueue _ _ _ => False
  | _ => True

theorem asks_of_free {fuse : Bool} (log : List (Answered Effect Answer)) (e : Effect)
    (he : Free e) : Asks cfg fuse log e := by
  cases e with
  | writeAt | enqueue => exact absurd he id
  | _ => trivial

theorem always_of_free {α : Type} {fuse : Bool} {p : FsProg α} (hp : Only Free p) :
    Always (Asks cfg fuse) p log := hp.always asks_of_free

theorem always_rpc {fuse : Bool} (req : BridgeRequest) : Always (Asks cfg fuse) (rpc req) log :=
  always_of_free (only_rpc trivial)

theorem always_createParent {fuse : Bool} (file : PathBuf) :
    Always (Asks cfg fuse) (createParent file) log :=
  always_of_free (only_createParent (fun _ => trivial) file)

/-- The bytes that a read has fetched go where the file was seen to end. -/
theorem always_fillCache {path : PathBuf} (h : Looked (cfg.cachePath path) offset log)
    (bytes : List UInt8) : Always (Asks cfg false) (fillCache cfg path offset bytes) log := by
  refine (always_createParent _).bind fun _ new => ?_
  refine Always.perform_bind trivial fun len => ?_
  dsimp only
  split
  · refine Always.perform_bind (fun _ => ?_) fun wrote => ?_
    · exact (h.append new).append [_]
    · split
      · exact ⟨trivial, fun _ => trivial⟩
      · exact always_pure _
  · exact always_pure _

theorem always_readRemote {path : PathBuf} (h : Looked (cfg.cachePath path) offset log)
    (size : Nat) : Always (Asks cfg false) (readRemote cfg path offset size) log := by
  refine (always_rpc _).bind fun a new => ?_
  cases a with
  | ok value =>
    dsimp only
    split
    · exact always_pure _
    · exact (always_fillCache (h.append new) _).bind fun _ _ => always_pure _
  | error e =>
    refine Always.perform_bind trivial fun bytes => ?_
    cases bytes <;> exact always_pure _

/-- **A read** looks at the cache file before it asks the target. -/
theorem always_read (ino offset size : Nat) :
    Always (Asks cfg false) (RemoteFs.read cfg ino offset size) log := by
  refine Always.perform_bind trivial fun o => ?_
  cases o with
  | none => exact always_pure _
  | some path =>
    dsimp only
    unfold readCached
    rw [bind_assoc]
    refine Always.perform_bind trivial fun len => ?_
    cases len with
    | none =>
      exact always_readRemote (fun _ => ⟨none, List.mem_cons_self, Nat.zero_le _⟩) size
    | some len =>
      have hlook : len ≤ offset → Looked (cfg.cachePath path) offset
          (⟨.fileLen (cfg.cachePath path), (some len : Option Nat)⟩ ::
            ⟨.pathFor ino, some path⟩ :: log) :=
        fun hle _ => ⟨some len, List.mem_cons_self, hle⟩
      dsimp only
      split
      · refine Always.perform_bind trivial fun bytes => ?_
        cases bytes with
        | some bytes => exact always_pure _
        | none =>
          refine always_readRemote (fun hsane => ?_) size
          exact absurd List.mem_cons_self (hsane.1 rfl len)
      · split
        · rw [pure_bind]
          exact always_pure _
        · rw [pure_bind]
          exact always_readRemote (hlook (by omega)) size

theorem always_prefetchChunks (path : String) (size : Nat) : ∀ {offsets : List Nat}
    {log : List (Answered Effect Answer)}, (∀ o ∈ offsets, Looked file o log) →
    Always (Asks cfg false) (prefetchChunks path file size offsets) log
  | [], _, _ => always_pure _
  | start :: rest, log, h => by
      have hfetch : Only Free (fetchChunk path start (min (size - start) fetchChunkBytes)) := by
        refine Only.bind (only_perform.mpr trivial) fun a => ?_
        cases a <;> exact only_pure _
      refine (always_of_free hfetch).bind fun bytes new => ?_
      cases bytes with
      | none => exact always_pure _
      | some bytes =>
        refine Always.perform_bind (fun _ => ?_) fun wrote => ?_
        · exact (h start List.mem_cons_self).append new
        · split
          · refine always_prefetchChunks path size fun o ho => ?_
            exact ((h o (List.mem_cons_of_mem _ ho)).append new).append [_]
          · exact always_pure _

/-- **A prefetch** begins where it has seen the file end. -/
theorem always_prefetchTask (path : PathBuf) :
    Always (Asks cfg false) (prefetchTask cfg path) log := by
  refine Always.bind ?_ fun _ new => ⟨trivial, fun _ => trivial⟩
  refine Always.perform_bind trivial fun a => ?_
  cases a with
  | error e => exact always_pure _
  | ok value =>
    refine Always.perform_bind trivial fun len => ?_
    dsimp only
    split
    · exact always_pure _
    · refine always_prefetchChunks _ _ fun o ho _ => ⟨len, List.mem_cons_self, ?_⟩
      obtain ⟨i, -, rfl⟩ := List.mem_map.mp ho
      exact Nat.le_add_right _ _

/-- **A write** queues what it has put into the cache file. -/
theorem always_write (ino offset : Nat) (data : List UInt8) :
    Always (Asks cfg true) (RemoteFs.write cfg ino offset data) log := by
  refine Always.perform_bind trivial fun o => ?_
  cases o with
  | none => exact always_pure _
  | some path =>
    dsimp only
    split
    · exact always_pure _
    · refine (always_createParent _).bind fun _ new => ?_
      refine Always.perform_bind (fun h => absurd h (by decide)) fun stored => ?_
      cases stored with
      | false => exact (always_rpc _).bind fun _ _ => always_pure _
      | true =>
        refine Always.bind ?_ fun _ _ => always_pure _
        unfold enqueueUpload
        split
        · exact always_pure _
        · refine Always.perform_bind ?_ fun _ => ⟨trivial, fun _ => trivial⟩
          refine ⟨rfl, data, _, ino, rfl, rfl, ?_⟩
          exact List.mem_append_right _ List.mem_cons_self

theorem always_mirror (d : SyncDir) : Always (Asks cfg false) (syncTurn d) log := by
  refine always_of_free ((mirroring_syncTurn d).mono fun e he => ?_)
  cases e with
  | writeAt | enqueue => exact he
  | _ => trivial

/-- **Every thread asks for what it may.** -/
theorem always_job (job : CacheJob) : Always (Asks cfg job.fuse) (job.prog cfg) [] := by
  cases job with
  | write ino offset data => exact (always_write ino offset data).bind fun _ _ => always_pure _
  | read ino offset size => exact (always_read ino offset size).bind fun _ _ => always_pure _
  | prefetch path => exact always_prefetchTask path
  | mirror d => exact (always_mirror d).bind fun _ _ => always_pure _

end Asks

/-! ## 5. The invariant -/

/-- **What is known of a thread.** A fill thread that has looked at a file fills it past every byte
    that was unsent then: those that lie there now were written since. -/
structure ThreadOk (cfg : MountCfg) (w : CacheWorld) (t : CacheThread) : Prop where
  reaches : (t.job.prog cfg).Reaches t.log t.prog
  paths : ∀ ino p, ⟨.pathFor ino, some p⟩ ∈ t.log → p.Below cfg.remoteDir
  exists_file : ∀ file (l : Nat), ⟨.fileLen file, some l⟩ ∈ t.log → w.shared.files file ≠ none
  looks : t.job.fuse = false → ∀ file (a : Option Nat), ⟨.fileLen file, a⟩ ∈ t.log →
    ∀ x, w.Unsent cfg file x → x < a.getD 0 ∨ t.Since file x
  sane : Sane t.log

/-- A thread under way asks for what it may. -/
theorem ThreadOk.asks {cfg : MountCfg} {w : CacheWorld} {t : CacheThread} (h : ThreadOk cfg w t) :
    Prog.Always (Asks cfg t.job.fuse) t.prog t.log := h.reaches.always (always_job t.job)

/-- **The invariant**: every unsent byte is in its cache file, as the kernel wrote it. -/
structure CacheInv (cfg : MountCfg) (w : CacheWorld) : Prop where
  queue : CfgInv w.shared.uploads
  below : ∀ ino p, w.shared.inodes.path ino = some p → p.Below cfg.remoteDir
  bytes : ∀ file x, w.Unsent cfg file x → w.shared.byte file x = some (w.shared.fused file x)
  thread : ∀ i, ThreadOk cfg w (w.threads i)

section Effects

variable {fuse : Bool} {s t : SharedCache} {file f : PathBuf} {offset x : Nat} {data : List UInt8}

/-- **What one effect does**: nothing, or an enqueue, or a write, or another file in the place of
    one. -/
theorem sharedSem_cases {e : Effect} {a : Answer e} (h : sharedSem fuse e s a t) :
    (landed ⟨e, a⟩ = none ∧ t = s) ∨
    (∃ path start stop, e = .enqueue path start stop ∧ landed ⟨e, a⟩ = none ∧
      s.uploads.permits (.enqueue path start stop) ∧
      t = { s with uploads := s.uploads.next (.enqueue path start stop) }) ∨
    (∃ file offset data k, e = .writeAt file offset data ∧ k ≤ data.length ∧
      (∀ f r, landed ⟨e, a⟩ = some (f, r) → f = file ∧ r = (offset, offset + k)) ∧
      t = s.put fuse file offset (data.take k)) ∨
    (∃ file bytes, e.Installs file ∧ landed ⟨e, a⟩ = none ∧ t = s.install file bytes) := by
  cases e with
  | enqueue path start stop => exact .inr (.inl ⟨path, start, stop, rfl, rfl, h⟩)
  | writeAt file offset data =>
    rcases h with ⟨rfl, rfl⟩ | ⟨k, hk, hfull, rfl⟩
    · exact .inl ⟨rfl, rfl⟩
    · refine .inr (.inr (.inl ⟨file, offset, data, k, rfl, hk, fun f r hl => ?_, rfl⟩))
      cases a with
      | false => cases hl
      | true =>
        cases hl
        rw [hfull rfl]
        exact ⟨rfl, rfl⟩
  | createFile p =>
    rcases h with rfl | rfl
    · exact .inl ⟨rfl, rfl⟩
    · exact .inr (.inr (.inr ⟨p, [], rfl, rfl, rfl⟩))
  | installTemp temp =>
    rcases h with ⟨-, rfl⟩ | ⟨bytes, rfl⟩
    · exact .inl ⟨rfl, rfl⟩
    · exact .inr (.inr (.inr ⟨temp.target, bytes, rfl, rfl, rfl⟩))
  | pathFor => exact .inl ⟨rfl, h.2⟩
  | waitBelow => exact .inl ⟨rfl, h.2⟩
  | fileLen => exact .inl ⟨rfl, h.1⟩
  | readAt => exact .inl ⟨rfl, h.1⟩
  | call | kickPrefetch | prefetchDone | createDirAll | randomTag | createTemp | writeTemp
  | removeTemp => exact .inl ⟨rfl, h⟩
  | _ => exact absurd h id

theorem sharedSem_inodes {e : Effect} {a : Answer e} (h : sharedSem fuse e s a t) :
    t.inodes = s.inodes := by
  rcases sharedSem_cases h with ⟨-, rfl⟩ | ⟨_, _, _, -, -, -, rfl⟩ | ⟨_, _, _, _, -, -, -, rfl⟩ |
    ⟨_, _, -, -, rfl⟩ <;> rfl

/-- The queue changes by an enqueue alone. -/
theorem sharedSem_uploads {e : Effect} {a : Answer e} (h : sharedSem fuse e s a t) :
    t.uploads = s.uploads ∨ ∃ path start stop, e = .enqueue path start stop ∧
      QueueStep s.uploads (.enqueue path start stop) t.uploads := by
  rcases sharedSem_cases h with ⟨-, rfl⟩ | ⟨path, start, stop, he, -, hok, rfl⟩ |
    ⟨_, _, _, _, -, -, -, rfl⟩ | ⟨_, _, -, -, rfl⟩
  · exact .inl rfl
  · exact .inr ⟨path, start, stop, he, hok, rfl⟩
  · exact .inl rfl
  · exact .inl rfl

/-- A written byte. -/
theorem byte_put (hstart : offset ≤ x) (hstop : x < offset + data.length) :
    (s.put fuse file offset data).byte file x = some (byteAt data (x - offset)) := by
  have hne : data ≠ [] := by
    intro heq
    subst heq
    rw [List.length_nil] at hstop
    omega
  have hlen := length_writeAt ((s.files file).getD []) offset hne
  show (Function.update s.files file _ file).bind _ = _
  rw [Function.update_self, Option.bind_some, if_pos (by omega), byteAt_writeAt,
    if_pos ⟨hstart, hstop⟩]

/-- Other bytes stay. -/
theorem byte_put_of_not (hx : ¬ (f = file ∧ offset ≤ x ∧ x < offset + data.length)) {b : UInt8}
    (hb : s.byte f x = some b) : (s.put fuse file offset data).byte f x = some b := by
  show (Function.update s.files file _ f).bind _ = _
  by_cases hf : f = file
  · subst hf
    obtain ⟨c, hc, hbyte⟩ := Option.bind_eq_some_iff.mp hb
    split at hbyte
    · rename_i hlen
      have hle := le_length_writeAt c offset data
      rw [Function.update_self, hc, Option.bind_some, Option.getD_some, if_pos (by omega),
        byteAt_writeAt, if_neg fun h => hx ⟨rfl, h⟩]
      exact hbyte
    · cases hbyte
  · rw [Function.update_of_ne hf]
    exact hb

theorem byte_install_of_ne {bytes : List UInt8} (hf : f ≠ file) :
    (s.install file bytes).byte f x = s.byte f x := by
  show (Function.update s.files file _ f).bind _ = _
  rw [Function.update_of_ne hf]
  rfl

/-- No effect takes a file away. -/
theorem files_ne_none {e : Effect} {a : Answer e} (h : sharedSem fuse e s a t)
    (hf : s.files f ≠ none) : t.files f ≠ none := by
  have hupdate : ∀ (file : PathBuf) (c : List UInt8),
      Function.update s.files file (some c) f ≠ none := by
    intro file c
    by_cases hff : f = file
    · rw [hff, Function.update_self]
      exact Option.some_ne_none _
    · rwa [Function.update_of_ne hff]
  rcases sharedSem_cases h with ⟨-, rfl⟩ | ⟨path, start, stop, -, -, -, rfl⟩ |
    ⟨file, offset, data, k, -, -, -, rfl⟩ | ⟨file, bytes, -, -, rfl⟩
  · exact hf
  · exact hf
  · exact hupdate _ _
  · exact hupdate _ _

end Effects

section Steps

variable {cfg : MountCfg} {w w' : CacheWorld} {i : Nat}

/-- A byte that can be read. -/
theorem byte_lt {s : SharedCache} {file : PathBuf} {x : Nat} {b : UInt8}
    (h : s.byte file x = some b) : ∃ c, s.files file = some c ∧ x < c.length := by
  obtain ⟨c, hc, hbyte⟩ := Option.bind_eq_some_iff.mp h
  split at hbyte
  · rename_i hlen
    exact ⟨c, hc, hlen⟩
  · cases hbyte

/-- **Only a write of the kernel makes a byte unsent.** -/
theorem CacheInv.unsent_after (h : CacheInv cfg w) {e : Effect} {k : Answer e → FsProg Unit}
    {a : Answer e} {shared : SharedCache} (hprog : (w.threads i).prog = .ask e k)
    (hx : sharedSem (w.threads i).job.fuse e w.shared a shared) {file : PathBuf} {x : Nat}
    (hun : (w.after i shared (k a) ⟨e, a⟩).Unsent cfg file x) :
    w.Unsent cfg file x ∨ (w.threads i).job.fuse = true ∧
      ∃ r, landed ⟨e, a⟩ = some (file, r) ∧ Inside x r := by
  rcases hun with ⟨p, hp, hpend⟩ | ⟨j, r, howes, hin⟩
  · refine .inl ?_
    rcases sharedSem_uploads hx with heq | ⟨path, start, stop, rfl, hs⟩
    · refine .inl ⟨p, hp, ?_⟩
      rw [← heq]
      exact hpend
    · rcases h.queue.pending_of_step hs hpend with hpend | ⟨start', stop', heq, hin⟩
      · exact .inl ⟨p, hp, hpend⟩
      · -- the range is what the thread owes
        cases heq
        have hasks := (h.thread i).asks
        rw [hprog] at hasks
        obtain ⟨hfuse, data, rest, ino, hlog, rfl, hino⟩ := hasks.1
        have hbelow : p.Below cfg.remoteDir :=
          (h.thread i).paths ino p (by rw [hlog]; exact List.mem_cons_of_mem _ hino)
        refine .inr ⟨i, (start, start + data.length), ?_, hin⟩
        rw [CacheThread.owes, if_pos hfuse, hlog, ← hp, flushPath_eq hbelow]
        rfl
  · by_cases hj : j = i
    · subst hj
      have hthread : (w.after j shared (k a) ⟨e, a⟩).threads j =
          { w.threads j with prog := k a, log := ⟨e, a⟩ :: (w.threads j).log } := if_pos rfl
      rw [hthread, CacheThread.owes] at howes
      dsimp only at howes
      split at howes
      · rename_i hfuse
        exact .inr ⟨hfuse, r, howes, hin⟩
      · cases howes
    · refine .inl (.inr ⟨j, r, ?_, hin⟩)
      rw [← howes]
      show _ = CacheThread.owes (if j = i then _ else _)
      rw [if_neg hj]
      split
      · rfl
      · split <;> rfl

/-- **A fill reaches no unsent byte**, if it spares those that are newer than its thread. -/
theorem CacheInv.fill_misses (h : CacheInv cfg w) {file : PathBuf} {offset : Nat}
    {data : List UInt8} {k : Answer (.writeAt file offset data) → FsProg Unit}
    (hprog : (w.threads i).prog = .ask (.writeAt file offset data) k)
    (hfill : (w.threads i).job.fuse = false)
    (hspares : Spares cfg w (w.threads i) (.writeAt file offset data)) {x : Nat}
    (hun : w.Unsent cfg file x) : ¬ (offset ≤ x ∧ x < offset + data.length) := by
  intro h'
  obtain ⟨hstart, hstop⟩ := h'
  have hasks := (h.thread i).asks
  rw [hprog] at hasks
  obtain ⟨a, hlook, hle⟩ := hasks.1 hfill (h.thread i).sane
  rcases (h.thread i).looks hfill file a hlook x hun with hlt | hsince
  · omega
  · exact hspares.fill hfill file offset data rfl x hstart hstop hsince hun

/-- **Unsent bytes stay as they are**, but for those that the effect writes for the kernel. -/
theorem CacheInv.bytes_after (h : CacheInv cfg w) {e : Effect} {k : Answer e → FsProg Unit}
    {a : Answer e} {shared : SharedCache} (hprog : (w.threads i).prog = .ask e k)
    (hx : sharedSem (w.threads i).job.fuse e w.shared a shared)
    (hspares : Spares cfg w (w.threads i) e) {file : PathBuf} {x : Nat}
    (hun : w.Unsent cfg file x) :
    shared.byte file x = some (shared.fused file x) ∧
      ((w.threads i).job.fuse = false → shared.byte file x = w.shared.byte file x) := by
  have hbyte := h.bytes file x hun
  rcases sharedSem_cases hx with ⟨-, rfl⟩ | ⟨path, start, stop, -, -, -, rfl⟩ |
    ⟨file', offset, data, n, rfl, hn, -, rfl⟩ | ⟨file', bytes, hin, -, rfl⟩
  · exact ⟨hbyte, fun _ => rfl⟩
  · exact ⟨hbyte, fun _ => rfl⟩
  · have hlen : (data.take n).length ≤ data.length := by
      rw [List.length_take]
      exact Nat.min_le_right _ _
    cases hfuse : (w.threads i).job.fuse with
    | false =>
      have hmiss : ¬ (file = file' ∧ offset ≤ x ∧ x < offset + (data.take n).length) := by
        intro h'
        obtain ⟨rfl, hstart, hstop⟩ := h'
        exact h.fill_misses hprog hfuse hspares hun ⟨hstart, by omega⟩
      have hkept : (w.shared.put false file' offset (data.take n)).byte file x =
          some (w.shared.fused file x) := byte_put_of_not hmiss hbyte
      exact ⟨hkept, fun _ => hkept.trans hbyte.symm⟩
    | true =>
      refine ⟨?_, fun hfalse => by cases hfalse⟩
      by_cases hmiss : file = file' ∧ offset ≤ x ∧ x < offset + (data.take n).length
      · obtain ⟨rfl, hstart, hstop⟩ := hmiss
        rw [byte_put hstart hstop]
        show _ = some (Function.update w.shared.fused file _ file x)
        rw [Function.update_self, if_pos ⟨hstart, hstop⟩]
      · rw [byte_put_of_not hmiss hbyte]
        show _ = some (Function.update w.shared.fused file' _ file x)
        by_cases hf : file = file'
        · subst hf
          rw [Function.update_self, if_neg fun hc => hmiss ⟨rfl, hc⟩]
        · rw [Function.update_of_ne hf]
  · have hne : file ≠ file' := by
      intro heq
      subst heq
      exact hspares.whole file hin x hun
    rw [byte_install_of_ne hne]
    exact ⟨hbyte, fun _ => rfl⟩

/-- The thread that takes a step. -/
theorem CacheWorld.after_self (shared : SharedCache) (p : FsProg Unit)
    (x : Prog.Answered Effect Answer) : (w.after i shared p x).threads i =
      { w.threads i with prog := p, log := x :: (w.threads i).log } := if_pos rfl

/-- **Another thread keeps its program and its answers**, and learns what the kernel writes. -/
theorem CacheWorld.after_of_ne {j : Nat} (hj : j ≠ i) (shared : SharedCache) (p : FsProg Unit)
    (x : Prog.Answered Effect Answer) :
    ∃ new, (w.after i shared p x).threads j =
        { w.threads j with since := new ++ (w.threads j).since } ∧
      ((w.threads j).log ≠ [] → (w.threads i).job.fuse = true → new = (landed x).toList) := by
  show ∃ new, (if j = i then _ else _) = _ ∧ _
  rw [if_neg hj]
  split
  · rename_i hlog
    exact ⟨[], rfl, fun h => absurd hlog h⟩
  · split
    · exact ⟨(landed x).toList, rfl, fun _ _ => rfl⟩
    · rename_i hfuse
      exact ⟨[], rfl, fun _ h => absurd h hfuse⟩

/-- What is known of a thread that waits. -/
theorem ThreadOk.later {t : CacheThread} (h : ThreadOk cfg w t) (new : List (PathBuf × Range))
    (hfiles : ∀ f, w.shared.files f ≠ none → w'.shared.files f ≠ none)
    (hun : t.log ≠ [] → ∀ file x, w'.Unsent cfg file x →
      w.Unsent cfg file x ∨ ∃ r, (file, r) ∈ new ∧ Inside x r) :
    ThreadOk cfg w' { t with since := new ++ t.since } := by
  refine
    { reaches := h.reaches
      paths := h.paths
      exists_file := fun file l hl => hfiles file (h.exists_file file l hl)
      looks := fun hfuse file a ha x hx => ?_
      sane := h.sane }
  rcases hun (List.ne_nil_of_mem ha) file x hx with hold | ⟨r, hr, hin⟩
  · rcases h.looks hfuse file a ha x hold with hlt | ⟨r, hr, hin⟩
    · exact .inl hlt
    · exact .inr ⟨r, List.mem_append_right _ hr, hin⟩
  · exact .inr ⟨r, List.mem_append_left _ hr, hin⟩

/-- What is known of the thread that takes a step. -/
theorem CacheInv.own (h : CacheInv cfg w) {e : Effect} {k : Answer e → FsProg Unit}
    {a : Answer e} {shared : SharedCache} (hprog : (w.threads i).prog = .ask e k)
    (hx : sharedSem (w.threads i).job.fuse e w.shared a shared) :
    ThreadOk cfg (w.after i shared (k a) ⟨e, a⟩)
      { w.threads i with prog := k a, log := ⟨e, a⟩ :: (w.threads i).log } := by
  have hi := h.thread i
  have hreaches := hi.reaches
  rw [hprog] at hreaches
  refine
    { reaches := hreaches.step a
      paths := fun ino p hp => ?_
      exists_file := fun file l hl => ?_
      looks := fun hfuse file len hlen x hun => ?_
      sane := ?_ }
  · rcases List.mem_cons.mp hp with hnew | hold
    · cases hnew
      exact h.below ino p hx.1.symm
    · exact hi.paths ino p hold
  · rcases List.mem_cons.mp hl with hnew | hold
    · cases hnew
      obtain ⟨rfl, hlen⟩ := hx
      intro hnone
      have hgone : (some l : Option Nat) = (w.shared.files file).map List.length := hlen
      rw [show w.shared.files file = none from hnone] at hgone
      cases hgone
    · exact files_ne_none hx (hi.exists_file file l hold)
  · have hbefore : w.Unsent cfg file x := by
      rcases h.unsent_after hprog hx hun with hold | ⟨hw, -⟩
      · exact hold
      · exact absurd (hfuse.symm.trans hw) (by decide)
    rcases List.mem_cons.mp hlen with hnew | hold
    · -- it looks at the file now, and every unsent byte lies in it
      cases hnew
      obtain ⟨c, hc, hlt⟩ := byte_lt (h.bytes file x hbefore)
      have hlen : (len : Option Nat) = (w.shared.files file).map List.length := hx.2
      rw [hc, Option.map_some] at hlen
      rw [hlen]
      exact .inl hlt
    · exact hi.looks hfuse file len hold x hbefore
  · cases e with
    | readAt file offset len =>
      refine ⟨fun hnone l hl => hi.exists_file file l hl ?_, hi.sane⟩
      subst hnone
      exact Option.map_eq_none_iff.mp hx.2.symm
    | _ => exact hi.sane

/-- What the kernel has just written is in the file. -/
theorem byte_landed {s shared : SharedCache} {e : Effect} {a : Answer e}
    (hx : sharedSem true e s a shared) {file : PathBuf} {r : Range} {x : Nat}
    (hl : landed ⟨e, a⟩ = some (file, r)) (hin : Inside x r) :
    shared.byte file x = some (shared.fused file x) := by
  rcases sharedSem_cases hx with ⟨hnone, -⟩ | ⟨_, _, _, -, hnone, -⟩ |
    ⟨file', offset, data, n, -, hn, hland, rfl⟩ | ⟨_, _, -, hnone, -⟩
  · rw [hnone] at hl
    cases hl
  · rw [hnone] at hl
    cases hl
  · obtain ⟨rfl, rfl⟩ := hland file r hl
    have hlen : (data.take n).length = n := by
      rw [List.length_take, Nat.min_eq_left hn]
    obtain ⟨hstart, hstop⟩ := hin
    dsimp only at hstart hstop
    rw [byte_put hstart (by omega)]
    show _ = some (Function.update s.fused file _ file x)
    rw [Function.update_self, if_pos ⟨hstart, by omega⟩]
  · rw [hnone] at hl
    cases hl

/-- **An effect of a thread.** -/
theorem CacheInv.thread_step (h : CacheInv cfg w) {e : Effect} {k : Answer e → FsProg Unit}
    {a : Answer e} {shared : SharedCache} (hprog : (w.threads i).prog = .ask e k)
    (hx : sharedSem (w.threads i).job.fuse e w.shared a shared)
    (hspares : Spares cfg w (w.threads i) e) :
    CacheInv cfg (w.after i shared (k a) ⟨e, a⟩) := by
  refine
    { queue := ?_
      below := ?_
      bytes := fun file x hun => ?_
      thread := fun j => ?_ }
  · show CfgInv shared.uploads
    rcases sharedSem_uploads hx with heq | ⟨path, start, stop, -, hs⟩
    · rw [heq]
      exact h.queue
    · exact h.queue.step hs
  · show ∀ ino p, shared.inodes.path ino = some p → p.Below cfg.remoteDir
    rw [sharedSem_inodes hx]
    exact h.below
  · rcases h.unsent_after hprog hx hun with hold | ⟨hfuse, r, hl, hin⟩
    · exact (h.bytes_after hprog hx hspares hold).1
    · rw [hfuse] at hx
      exact byte_landed hx hl hin
  · by_cases hj : j = i
    · subst hj
      rw [CacheWorld.after_self]
      exact h.own hprog hx
    · obtain ⟨new, hthread, hnew⟩ :=
        CacheWorld.after_of_ne (w := w) hj shared (k a) ⟨e, a⟩
      rw [hthread]
      refine (h.thread j).later new (fun f hf => files_ne_none hx hf) fun hlog file x hun => ?_
      rcases h.unsent_after hprog hx hun with hold | ⟨hfuse, r, hl, hin⟩
      · exact .inl hold
      · refine .inr ⟨r, ?_, hin⟩
        rw [hnew hlog hfuse, hl]
        exact List.mem_cons_self

/-- **The flusher** makes nothing unsent, and touches no file. -/
theorem CacheInv.flusher_step (h : CacheInv cfg w) {op : QueueOp PathBuf}
    (hop : ∀ path start stop, op ≠ .enqueue path start stop)
    (hok : w.shared.uploads.permits op) :
    CacheInv cfg { w with shared := { w.shared with uploads := w.shared.uploads.next op } } := by
  have hun : ∀ file x, CacheWorld.Unsent cfg
      { w with shared := { w.shared with uploads := w.shared.uploads.next op } } file x →
      w.Unsent cfg file x := by
    intro file x hx
    rcases hx with ⟨p, hp, hpend⟩ | howes
    · rcases h.queue.pending_of_step ⟨hok, rfl⟩ hpend with hpend | ⟨start, stop, heq, -⟩
      · exact .inl ⟨p, hp, hpend⟩
      · exact absurd heq (hop p start stop)
    · exact .inr howes
  exact
    { queue := h.queue.step ⟨hok, rfl⟩
      below := h.below
      bytes := fun file x hx => h.bytes file x (hun file x hx)
      thread := fun i => (h.thread i).later [] (fun _ hf => hf)
        fun _ file x hx => .inl (hun file x hx) }

/-- The mount knows paths below its directory. -/
theorem InodeMap.Made.path_below {root : PathBuf} {m : InodeMap} (h : m.Made root) {ino : Nat}
    {p : PathBuf} (hp : m.path ino = some p) : p.Below root := by
  induction h generalizing ino p with
  | new =>
    by_cases hino : ino = 1
    · subst hino
      obtain rfl : root = p := Option.some.inj ((AList.lookup_insert _).symm.trans hp)
      exact PathBuf.below_iff.mpr ⟨rfl, List.prefix_refl _⟩
    · have hnone : (InodeMap.new root).path ino = none :=
        (AList.lookup_insert_ne hino).trans (AList.lookup_empty ino)
      rw [hnone] at hp
      cases hp
  | @child m _ parent name hname ih =>
    unfold childPath at hp
    cases hdir : m.path parent with
    | none =>
      rw [hdir] at hp
      exact ih hp
    | some dir =>
      rw [hdir] at hp
      dsimp only at hp
      unfold inoFor at hp
      cases hfound : m.byPath.lookup (dir.child name) with
      | some known =>
        rw [hfound] at hp
        exact ih hp
      | none =>
        rw [hfound] at hp
        dsimp only [path] at hp
        by_cases hino : ino = m.next
        · rw [hino, AList.lookup_insert, Option.some.injEq] at hp
          subst hp
          obtain ⟨habs, hprefix⟩ := PathBuf.below_iff.mp (ih hdir)
          rw [PathBuf.child, PathBuf.join, if_neg (by rw [hname]; exact Bool.false_ne_true)]
          exact PathBuf.below_iff.mpr ⟨habs, hprefix.trans (List.prefix_append _ _)⟩
        · rw [AList.lookup_insert_ne hino] at hp
          exact ih hp

theorem cacheInv_init (h : CacheInit cfg w) : CacheInv cfg w := by
  have hun : ∀ file x, ¬ w.Unsent cfg file x := by
    intro file x hx
    rcases hx with ⟨p, -, hpend⟩ | ⟨i, r, howes, -⟩
    · exact QueueInit.not_pending h.queue p x hpend
    · obtain ⟨job, hi⟩ := h.threads i
      rw [hi, CacheThread.owes] at howes
      dsimp only at howes
      split at howes <;> cases howes
  refine
    { queue := cfgInv_init h.queue
      below := fun _ _ hp => h.inodes.path_below hp
      bytes := fun file x hx => absurd hx (hun file x)
      thread := fun i => ?_ }
  obtain ⟨job, hi⟩ := h.threads i
  rw [hi]
  exact
    { reaches := .start
      paths := fun ino p hp => absurd hp List.not_mem_nil
      exists_file := fun file l hl => absurd hl List.not_mem_nil
      looks := fun _ file a ha => absurd ha List.not_mem_nil
      sane := trivial }

/-- **One step** that spares what is unsent. -/
theorem CacheInv.step {ev : CacheEvent} (h : CacheInv cfg w) (hspares : SparesUnsent cfg w ev)
    (hs : CacheStep w ev w') : CacheInv cfg w' := by
  cases hs with
  | thread hprog hx => exact h.thread_step hprog hx (hspares _ _ hprog)
  | flusher hop hok => exact h.flusher_step hop hok

/-- **The flusher reads what the kernel has written.** In a run whose steps all spare what is
    unsent, a byte that is dirty or in flight is in its cache file as the kernel last wrote it, and
    no fill changes it. -/
theorem fills_keep_unsent {hist : List (CacheWorld × CacheEvent)} (h : CacheRun cfg hist w)
    (hspares : ∀ x ∈ hist, SparesUnsent cfg x.1 x.2) :
    (∀ u ∈ visited hist w, ReadsWritten cfg u) ∧
      ∀ x ∈ hist, ∀ u, CacheStep x.1 x.2 u → FillKeeps cfg x.1 x.2 u := by
  have hinv : ∀ u ∈ visited hist w, CacheInv cfg u :=
    Run.invariant_of_steps (fun _ h0 => cacheInv_init h0)
      (fun _ _ _ hi hc hs => hi.step hc hs) h hspares
  refine ⟨fun u hu p x hpend => (hinv u hu).bytes _ x (.inl ⟨p, rfl, hpend⟩), ?_⟩
  intro x hx u hs i hi hfill p b hpend
  have hmem : x.1 ∈ visited hist w := List.mem_cons_of_mem _ (List.mem_map_of_mem hx)
  have hcond := hspares x hx
  obtain ⟨v, ev⟩ := x
  dsimp only at hs hi hcond hfill hpend hmem ⊢
  cases hs with
  | thread hprog heff =>
    cases hi
    exact ((hinv v hmem).bytes_after hprog heff (hcond _ _ hprog) (.inl ⟨p, rfl, hpend⟩)).2 hfill
  | flusher => rfl

end Steps

/-! ## 6. A prefetch and a write -/

section Race

/-- A run so far, whose steps have all spared what is unsent. -/
def SparingRun (hist : List (CacheWorld × CacheEvent)) (w : CacheWorld) : Prop :=
  CacheRun shareMount hist w ∧ ∀ x ∈ hist, SparesUnsent shareMount x.1 x.2

variable {hist : List (CacheWorld × CacheEvent)} {w : CacheWorld}

theorem CacheRun.thread (h : CacheRun shareMount hist w) (i : Nat) {e : Effect}
    {k : Answer e → FsProg Unit} (hprog : (w.threads i).prog = .ask e k) (a : Answer e)
    {shared : SharedCache} (hx : sharedSem (w.threads i).job.fuse e w.shared a shared) :
    CacheRun shareMount ((w, .thread i) :: hist) (w.after i shared (k a) ⟨e, a⟩) :=
  .step h (.thread hprog hx)

/-- A thread that writes for the kernel spares what is unsent, and a fill that has missed no write
    does. -/
theorem SparingRun.thread (h : SparingRun hist w) (i : Nat) {e : Effect}
    {k : Answer e → FsProg Unit} (hprog : (w.threads i).prog = .ask e k)
    (hinstalls : ∀ file, ¬ e.Installs file)
    (hsince : (w.threads i).job.fuse = false → (w.threads i).since = []) (a : Answer e)
    {shared : SharedCache} (hx : sharedSem (w.threads i).job.fuse e w.shared a shared) :
    SparingRun ((w, .thread i) :: hist) (w.after i shared (k a) ⟨e, a⟩) := by
  refine ⟨h.1.thread i hprog a hx, List.forall_mem_cons.mpr ⟨fun e' k' hprog' => ?_, h.2⟩⟩
  cases hprog.symm.trans hprog'
  refine ⟨fun hfill file offset data _ x _ _ hnew => ?_, fun file hin => ?_⟩
  · obtain ⟨r, hr, -⟩ := hnew
    rw [hsince hfill] at hr
    exact absurd hr List.not_mem_nil
  · exact absurd hin (hinstalls file)

/-- A prefetch of `/srv/a`, and writes of one byte at its start. -/
def raceJob : Nat → CacheJob
  | 0 => .prefetch shareA
  | _ => .write 2 0 [7]

def raceNew : CacheWorld where
  shared := ⟨shareLooked, ⟨.new 0, []⟩, fun _ => none, fun _ _ => 0⟩
  threads i := ⟨raceJob i, (raceJob i).prog shareMount, [], []⟩

theorem race_init : CacheInit shareMount raceNew where
  queue := ⟨0, rfl⟩
  inodes := .child .new 1 (by decide)
  threads i := ⟨raceJob i, rfl⟩

theorem race_path : some shareA = shareLooked.path 2 := by decide

/-- What the target answers a READ_FILE. -/
def raceChunk (bytes : List UInt8) : Json := ReadFileResult.toJson ⟨Base64.encode bytes, true⟩

/-- The write comes before the prefetch, which fills the rest of the file. -/
theorem fills_keep_unsent_tail : ∃ hist w, CacheRun shareMount hist w ∧
    w.shared.uploads.Pending shareA 0 ∧
    w.shared.files (shareMount.cachePath shareA) = some [7, 2, 3] ∧
    (∀ u ∈ visited hist w, ReadsWritten shareMount u) ∧
      ∀ x ∈ hist, ∀ u, CacheStep x.1 x.2 u → FillKeeps shareMount x.1 x.2 u := by
  have h0 : SparingRun [] raceNew := ⟨.start race_init, fun _ hx => absurd hx List.not_mem_nil⟩
  have h1 := h0.thread 1 rfl (fun _ => id) (fun hf => by cases hf) (some shareA) ⟨race_path, rfl⟩
  have h2 := h1.thread 1 rfl (fun _ => id) (fun hf => by cases hf) () rfl
  have h3 := h2.thread 1 rfl (fun _ => id) (fun hf => by cases hf) true
    (.inr ⟨1, by decide, fun _ => rfl, rfl⟩)
  have h4 := h3.thread 1 rfl (fun _ => id) (fun hf => by cases hf) () ⟨by decide, rfl⟩
  have h5 := h4.thread 0 rfl (fun _ => id) (fun _ => rfl) (.ok plainStatJson) rfl
  have h6 := h5.thread 0 rfl (fun _ => id) (fun _ => rfl) (some 1) ⟨rfl, rfl⟩
  have h7 := h6.thread 0 rfl (fun _ => id) (fun _ => rfl) (.ok (raceChunk [2, 3])) rfl
  have h8 := h7.thread 0 rfl (fun _ => id) (fun _ => rfl) true
    (.inr ⟨2, by decide, fun _ => rfl, rfl⟩)
  refine ⟨_, _, h8.1, .inl ⟨(0, 1), ?_, by decide⟩, ?_, fills_keep_unsent h8.1 h8.2⟩
  · decide
  · rfl

/-- **The lost write.** The prefetch has fetched the file before the kernel writes its first byte,
    and stores what it has fetched after that: the byte is dirty, and it is no longer what the
    kernel wrote. -/
theorem prefetch_overwrites_write : ∃ hist w, CacheRun shareMount hist w ∧
    (¬ ∀ x ∈ hist, ∀ u, CacheStep x.1 x.2 u → FillKeeps shareMount x.1 x.2 u) ∧
    ¬ ReadsWritten shareMount w := by
  have h0 : CacheRun shareMount [] raceNew := .start race_init
  have h1 := h0.thread 0 rfl (.ok plainStatJson) rfl
  have h2 := h1.thread 0 rfl none ⟨rfl, rfl⟩
  have h3 := h2.thread 0 rfl (.ok (raceChunk [1, 2, 3])) rfl
  have h4 := h3.thread 1 rfl (some shareA) ⟨race_path, rfl⟩
  have h5 := h4.thread 1 rfl () rfl
  have h6 := h5.thread 1 rfl true (.inr ⟨1, by decide, fun _ => rfl, rfl⟩)
  have h7 := h6.thread 1 rfl () ⟨by decide, rfl⟩
  have h8 := h7.thread 0 rfl true (.inr ⟨3, by decide, fun _ => rfl, rfl⟩)
  refine ⟨_, _, h8, fun hkeeps => ?_, fun hreads => ?_⟩
  · cases h8 with
    | step _ hs =>
      have hkept := hkeeps _ List.mem_cons_self _ hs 0 rfl rfl shareA 0
      have hbyte := hkept (.inl ⟨(0, 1), by decide, by decide⟩)
      cases hbyte
  · have hbyte := hreads shareA 0 (.inl ⟨(0, 1), by decide, by decide⟩)
    cases hbyte

end Race

end Relayfs

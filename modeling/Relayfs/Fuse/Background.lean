/-
  File:      Relayfs/Fuse/Background.lean
  Subject:   THE BACKGROUND TASKS OF THE MOUNT (bridge/src/fuse_fs.rs): the flusher's send tasks,
             the prefetch after a read, and the mirror of the remote folder.

  The source keeps a window of chunk fetches under way (4 in `prefetch_tail`, 8 in
  `download_to_cache`). `prefetch_tail` takes their results in offset order and a download writes
  each at its own offset of a file nobody reads yet, so the programs fetch one chunk after the
  other; how long before its use an answer was made is left to the environment.

  * `sendPiece` -- one task of `flusher_loop`;
  * `prefetchTail`, `prefetchTask` -- `prefetch_tail`, and the task `kick_prefetch` spawns;
  * `syncTurn`, `backgroundSync`, `downloadToCache` -- `background_sync_folder` and a turn of it;
  * `inflight_fits` -- the pieces in flight fit the window of the queue, and each of them the
    size checks of the target's `write_at`.
-/
import Relayfs.Agent.Files
import Relayfs.Fuse.RemoteFs
import Relayfs.Queue.Run

namespace Relayfs

open Lib

/-! ## 1. The flusher -/

/-- `send_fatal`. -/
def sendFatal (e : RpcError) : Bool :=
  let msg := e.message.toLower
  e.code = Code.methodNotFound || hasInfix "no such file" msg || hasInfix "not found" msg
    || hasInfix "permission" msg || hasInfix "denied" msg

/-- The outcome of a WRITE_AT. -/
def sendOutcome : Except RpcError Json → SendOutcome
  | .ok _ => .sent
  | .error e => if sendFatal e then .drop else .retry

namespace Background

open FsProg

/-- The task `flusher_loop` spawns for a piece: read it from the cache, send it, finish it. A
    short read is retried. -/
def sendPiece (cfg : MountCfg) (path : PathBuf) (range : Range) : FsProg Unit := do
  let len := range.2 - range.1
  match (← readAt (cfg.flushPath path) range.1 len).filter (·.length = len) with
  | none => FsProg.finish path range .retry
  | some bytes =>
      let answer ← call (.writeAt path.text range.1 (Base64.encode bytes))
      FsProg.finish path range (sendOutcome answer)

/-! ## 2. The prefetch -/

/-- `PREFETCH_CHUNK`, and the chunk of a download. -/
def fetchChunkBytes : Nat := 1024 * 1024

/-- The offsets of the chunks of `start .. size`. -/
def chunkOffsets (start size : Nat) : List Nat :=
  (List.range ((size - start + fetchChunkBytes - 1) / fetchChunkBytes)).map
    fun i => start + i * fetchChunkBytes

/-- Fetch a chunk; `none` where the call fails, its answer cannot be read, or holds no byte. -/
def fetchChunk (path : String) (start limit : Nat) : FsProg (Option (List UInt8)) := do
  match ← call (.readFile path (some start) (some limit)) with
  | .error _ => return none
  | .ok value =>
      return ((ReadFileResult.ofJson value).bind fun r => Base64.decode r.data).filter (· ≠ [])

/-- The loop of `prefetch_tail`. -/
def prefetchChunks (path : String) (file : PathBuf) (size : Nat) : List Nat → FsProg Unit
  | [] => return ()
  | start :: rest => do
      match ← fetchChunk path start (min (size - start) fetchChunkBytes) with
      | none => return ()
      | some bytes =>
          if ← writeAt file start bytes then prefetchChunks path file size rest else return ()

/-- `prefetch_tail`. -/
def prefetchTail (path : String) (file : PathBuf) : FsProg Unit := do
  match ← call (.stat path) with
  | .error _ => return ()
  | .ok value =>
      let size := ((StatResult.ofJson value).map (·.size)).getD 0
      let start := (← fileLen file).getD 0
      if size ≤ start then return ()
      else prefetchChunks path file size (chunkOffsets start size)

/-- The task `kick_prefetch` spawns. -/
def prefetchTask (cfg : MountCfg) (path : PathBuf) : FsProg Unit := do
  prefetchTail path.text (cfg.cachePath path)
  prefetchDone path

/-! ## 3. The mirror of the remote folder -/

/-- A folder of the queue of `background_sync_folder`. -/
structure SyncDir where
  remote : String
  cache : PathBuf
  deriving DecidableEq, Repr

/-- `trim_end_matches('/')`. -/
def trimSlashes (s : String) : String :=
  String.ofList ((s.toList.reverse.dropWhile (· = '/')).reverse)

/-- The remote path of an entry of a folder. -/
def SyncDir.childRemote (d : SyncDir) (name : String) : String :=
  trimSlashes d.remote ++ "/" ++ name

/-- The chunks of `download_to_cache`: whether all of them arrived. -/
def downloadChunks (path : String) (t : TempFile) (size : Nat) : List Nat → FsProg Bool
  | [] => return true
  | start :: rest => do
      match ← fetchChunk path start (min (size - start) fetchChunkBytes) with
      | none => return false
      | some bytes =>
          if ← writeTemp t start bytes then downloadChunks path t size rest else return false

/-- `download_to_cache`. An empty remote file empties the cache file. -/
def downloadToCache (path : String) (file : PathBuf) (size : Nat) : FsProg Unit :=
  if size = 0 then createFile file
  else do
    RemoteFs.createParent file
    let t : TempFile := ⟨file, ← randomTag⟩
    createTemp t
    if ← downloadChunks path t size (chunkOffsets 0 size) then
      let _ ← installTemp t
    else removeTemp t

/-- A file of the listing: nothing to do where the cache file has its size. -/
def syncFile (d : SyncDir) (e : DirEntry) : FsProg Unit := do
  let file := d.cache.child e.name
  if (← fileLen file) = some e.size then return ()
  else downloadToCache (d.childRemote e.name) file e.size

/-- The entries of a listing: its files one after the other. Returns the folders it pushes. -/
def syncEntries (d : SyncDir) : List DirEntry → FsProg (List SyncDir)
  | [] => return []
  | e :: rest =>
      match e.kind with
      | .dir => do
          let more ← syncEntries d rest
          return ⟨d.childRemote e.name, d.cache.child e.name⟩ :: more
      | .file => do
          syncFile d e
          syncEntries d rest
      | _ => syncEntries d rest

/-- One turn of `background_sync_folder`: the folders it pushes, or `none` where it ends. -/
def syncTurn (d : SyncDir) : FsProg (Option (List SyncDir)) := do
  createDirAll d.cache
  match ← call (.listDir d.remote) with
  | .error _ => return none
  | .ok value =>
      match listDirEntries value with
      | none => return some []
      | some entries => return some (← syncEntries d entries)

/-- `background_sync_folder`, at most `turns` turns of it: the folder pushed last comes first. -/
def backgroundSync : Nat → List SyncDir → FsProg Unit
  | turns + 1, d :: queue => do
      match ← syncTurn d with
      | some dirs => backgroundSync turns (dirs.reverse ++ queue)
      | none => return ()
  | _, _ => return ()

/-! ## 4. What the flusher sends -/

/-- Every request of an effect is the WRITE_AT of a piece, with a payload of the length of the
    piece that the target takes. -/
def SendsFitting (path : PathBuf) (range : Range) (e : Effect) : Prop :=
  ∀ req, e = .call req → ∃ bytes : List UInt8, bytes.length = range.2 - range.1 ∧
    req = .writeAt path.text range.1 (Base64.encode bytes) ∧
    payload (Base64.encode bytes) = .ok bytes

/-- The send task of a piece no longer than a chunk sends what the target takes. -/
theorem sendPiece_fits (cfg : MountCfg) (path : PathBuf) {range : Range}
    (h : range.2 - range.1 ≤ chunkMax) :
    (sendPiece cfg path range).Only (SendsFitting path range) := by
  have hchunk : chunkMax ≤ maxDirectFileBytes := by decide
  have hread : (FsProg.readAt (cfg.flushPath path) range.1 (range.2 - range.1)).Only
      (SendsFitting path range) :=
    Prog.only_perform.mpr fun req hreq => by cases hreq
  have hfinish : ∀ outcome, (FsProg.finish path range outcome).Only (SendsFitting path range) :=
    fun outcome => Prog.only_perform.mpr fun req hreq => by cases hreq
  refine hread.bind fun read => ?_
  split
  · exact hfinish .retry
  · rename_i bytes hbytes
    have hlen : bytes.length = range.2 - range.1 :=
      of_decide_eq_true (Option.filter_eq_some_iff.mp hbytes).2
    have hcall : (FsProg.call (.writeAt path.text range.1 (Base64.encode bytes))).Only
        (SendsFitting path range) :=
      Prog.only_perform.mpr fun req hreq => by
        cases hreq
        exact ⟨bytes, hlen, rfl, payload_encode (hlen ▸ le_trans h hchunk)⟩
    exact hcall.bind fun answer => hfinish (sendOutcome answer)

/-- **The window of the queue.** In every run `inflight_bytes` is the length of all pieces in
    flight together and at most the window, and each piece is a chunk whose WRITE_AT the target
    does not refuse for its size. -/
theorem inflight_fits {hist : List (QueueCfg PathBuf × QueueOp PathBuf)} {c : QueueCfg PathBuf}
    (h : QueueRun hist c) (cfg : MountCfg) :
    c.st.inflightBytes = weigh total c.st.inflight ∧ c.st.inflightBytes ≤ writeWindow ∧
      ∀ path, ∀ range ∈ row c.st.inflight path,
        1 ≤ range.2 - range.1 ∧ range.2 - range.1 ≤ chunkMax ∧
          (sendPiece cfg path range).Only (SendsFitting path range) := by
  have hq := h.inv.queue
  refine ⟨hq.flightSum, hq.window, fun path range hr => ?_⟩
  have hpos := hq.pos path range hr
  have hchunk := hq.chunk path range hr
  exact ⟨Nat.sub_pos_of_lt hpos, hchunk, sendPiece_fits cfg path hchunk⟩

/-- A file of a mount. -/
def draft : PathBuf := ⟨true, ["srv", "draft"]⟩

/-- A write of five bytes to it, and the batch that claims them. -/
def draftBatch : List (QueueOp PathBuf) := [.takeBatch 0 [draft], .enqueue draft 0 5]

theorem inflight_fits_draft :
    (sendPiece ⟨false, ⟨true, ["srv"]⟩, ⟨true, ["cache"]⟩⟩ draft (0, 5)).Only
      (SendsFitting draft (0, 5)) := by
  have hrun : QueueRun _ (replay QueueCfg.next (⟨.new 0, []⟩ : QueueCfg PathBuf) draftBatch).2 :=
    Run.of_replay ⟨0, rfl⟩ (by decide)
  exact ((inflight_fits hrun _).2.2 draft (0, 5) (by decide)).2.2

end Background

end Relayfs

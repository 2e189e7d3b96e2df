/-
  File:      Relayfs/Fuse/Fillers.lean
  Subject:   THE TWO FILLERS OF THE CACHE (bridge/src/fuse_fs.rs, `prefetch_tail` and
             `download_to_cache`), with their chunks under way at the same time: is every byte they
             leave in the cache file one that was received for its offset?

  The offsets are chosen before any reply. `prefetch_tail` takes the replies in the order of the
  offsets (`buffered`), a download as they come; neither asks whether a reply carried all of its
  chunk.

  * `chunkReply` -- what a reply carries; `agent_chunkReply` -- the agent's: what one read returned;
  * `PrefetchStep` -- `prefetch_tail` after its STAT; `CacheDownloadStep` -- `download_to_cache`;
  * `prefetch_filled_iff`, `download_whole_iff` -- no gap, exactly if no reply is short;
  * `fillers_exact_iff` -- both; `short_reply_leaves_hole` -- a short reply to each of them.
-/
import Relayfs.Agent.ReadFile
import Relayfs.Fuse.Background
import Relayfs.Lib.Chunks
import Relayfs.Lib.Run

namespace Relayfs

open Lib Background

/-! ## 1. Replies -/

/-- The bytes of a reply to READ_FILE; `none` where the call failed, its answer cannot be read, or
    holds no byte. -/
def chunkReply : Except RpcError Json → Option (List UInt8)
  | .error _ => none
  | .ok value => ((ReadFileResult.ofJson value).bind fun r => Base64.decode r.data).filter (· ≠ [])

/-- What is fetched of a chunk. -/
theorem fetchChunk_eq (path : String) (o limit : Nat) :
    fetchChunk path o limit = do
      let answer ← FsProg.call (.readFile path (some o) (some limit))
      return chunkReply answer := by
  unfold fetchChunk
  refine congrArg (Bind.bind (FsProg.call (.readFile path (some o) (some limit)))) ?_
  funext answer
  cases answer <;> rfl

/-- The agent replies with what one read returned. -/
theorem agent_chunkReply {unreadable path : String} {content : FileContent} {o limit n : Nat}
    (ho : o < 2 ^ 63) (hlimit : limit ≤ maxDirectFileBytes)
    (hn : Returns content.bytes o limit n) {bytes : List UInt8}
    (h : chunkReply (readAnswer unreadable (.readFile path (some o) (some limit))
      ⟨.ok content, none, .ok n⟩) = some bytes) :
    bytes = (content.bytes.drop o).take n ∧ bytes ≠ [] ∧ bytes.length = n ∧ n ≤ limit := by
  rw [readFile_answer ho hlimit, chunkReply, ReadFileResult.ofJson_toJson, Option.bind_some,
    Base64.decode_encode, Option.filter_eq_some_iff] at h
  obtain ⟨heq, hne⟩ := h
  obtain rfl := Option.some.inj heq
  exact ⟨rfl, of_decide_eq_true hne, hn.length, hn.fits⟩

/-- What becomes of a chunk with a reply. -/
def received (answer : Except RpcError Json) : ChunkPhase :=
  match chunkReply answer with
  | none => .failed
  | some bytes => .fetched bytes

theorem received_bytes (answer : Except RpcError Json) :
    (received answer).bytes = chunkReply answer := by
  unfold received
  cases chunkReply answer <;> rfl

theorem received_ne_written (answer : Except RpcError Json) (b : List UInt8) (k : Nat) (ok : Bool) :
    received answer ≠ .written b k ok := by
  unfold received
  cases chunkReply answer <;> exact fun h => by cases h

theorem received_ne_waiting (answer : Except RpcError Json) : received answer ≠ .waiting := by
  unfold received
  cases chunkReply answer <;> exact fun h => by cases h

theorem nonempty_of_chunkReply {answer : Except RpcError Json} {bytes : List UInt8}
    (h : chunkReply answer = some bytes) : bytes ≠ [] := by
  cases answer with
  | error e => cases h
  | ok value => exact of_decide_eq_true (Option.filter_eq_some_iff.mp h).2

/-- A reply carries no more than was asked for. -/
def FitsChunk (size o : Nat) (answer : Except RpcError Json) : Prop :=
  ∀ bytes, chunkReply answer = some bytes → bytes.length ≤ limitAt fetchChunkBytes size o

theorem fetchChunkBytes_pos : 0 < fetchChunkBytes := by decide

/-- The offsets that the fillers push are those of the grid. -/
theorem mem_chunkOffsets {start size o : Nat} :
    o ∈ chunkOffsets start size ↔ ∃ n, o = start + n * fetchChunkBytes ∧ o < size :=
  mem_grid fetchChunkBytes_pos

/-- A reply comes. -/
theorem Lib.Fills.receive {start size o : Nat} {phase : Nat → ChunkPhase} {file : List UInt8}
    (h : Fills fetchChunkBytes start size phase file) (hasked : phase o = .asked)
    {answer : Except RpcError Json} (hfits : FitsChunk size o answer) :
    Fills fetchChunkBytes start size (Function.update phase o (received answer)) file := by
  refine h.move (h.grid o ?_) ?_ (received_ne_written answer) fun b hb => ?_
  · intro hw
    rw [hasked] at hw
    cases hw
  · intro b k ok hw
    rw [hasked] at hw
    cases hw
  · rw [received_bytes] at hb
    exact ⟨nonempty_of_chunkReply hb, hfits b hb⟩

/-! ## 2. `prefetch_tail` -/

/-- `PREFETCH_INFLIGHT`. -/
def prefetchInflight : Nat := 4

/-- **`prefetch_tail`** after its STAT, with the cache file; an absent file has no bytes. `stopped`
    says that the loop was left. -/
structure Prefetch where
  phase : Nat → ChunkPhase
  file : List UInt8
  stopped : Bool

inductive PrefetchEvent where
  | ask (o : Nat)
  | answer (o : Nat) (a : Except RpcError Json)
  | apply (o stored : Nat) (ok : Bool)
  | stop (o : Nat)

/-- **One step**, for a cache file of `start` bytes and a remote file of `size`: a chunk comes into
    the window, or gets its reply; or the first of the window is written, or ends the loop. A
    write that fails may have stored a part. -/
inductive PrefetchStep (start size : Nat) : Prefetch → PrefetchEvent → Prefetch → Prop where
  | ask {s : Prefetch} {o : Nat} (hlive : s.stopped = false)
      (ho : o ∈ grid fetchChunkBytes start size) (hwaiting : s.phase o = .waiting)
      (hnext : ∀ q ∈ grid fetchChunkBytes start size, q < o → s.phase q ≠ .waiting)
      (hroom : ((grid fetchChunkBytes start size).countP fun q => (s.phase q).underWay)
        < prefetchInflight) :
      PrefetchStep start size s (.ask o) { s with phase := Function.update s.phase o .asked }
  | answer {s : Prefetch} {o : Nat} {a : Except RpcError Json} (hlive : s.stopped = false)
      (hasked : s.phase o = .asked) (hfits : FitsChunk size o a) :
      PrefetchStep start size s (.answer o a)
        { s with phase := Function.update s.phase o (received a) }
  | apply {s : Prefetch} {o k : Nat} {b : List UInt8} {ok : Bool} (hlive : s.stopped = false)
      (hfetched : s.phase o = .fetched b)
      (hfirst : ∀ q ∈ grid fetchChunkBytes start size, q < o → (s.phase q).Taken)
      (hk : k ≤ b.length) (hok : ok = true → k = b.length) :
      PrefetchStep start size s (.apply o k ok)
        ⟨Function.update s.phase o (.written b k ok), writeAt s.file o (b.take k), !ok⟩
  | stop {s : Prefetch} {o : Nat} (hlive : s.stopped = false) (hfailed : s.phase o = .failed)
      (hfirst : ∀ q ∈ grid fetchChunkBytes start size, q < o → (s.phase q).Taken) :
      PrefetchStep start size s (.stop o) { s with stopped := true }

def PrefetchInit (start : Nat) (s : Prefetch) : Prop :=
  s.phase = (fun _ => .waiting) ∧ s.file.length = start ∧ s.stopped = false

abbrev PrefetchRun (start size : Nat) (hist : List (Prefetch × PrefetchEvent)) (s : Prefetch) :
    Prop :=
  Run (PrefetchInit start) (PrefetchStep start size) hist s

/-- **The invariant**: the chunks are written one after the other, each to its end while the loop
    goes on. -/
structure PrefetchInv (start size : Nat) (s : Prefetch) : Prop where
  fills : Fills fetchChunkBytes start size s.phase s.file
  order : ∀ q, (s.phase q).Taken → ∀ o ∈ grid fetchChunkBytes start size, o < q →
    ∃ b k, s.phase o = .written b k true
  live : s.stopped = false → ∀ o b k ok, s.phase o = .written b k ok → ok = true

section Prefetch

variable {start size : Nat} {s t : Prefetch} {e : PrefetchEvent}

/-- What a chunk does that is not written leaves the written ones. -/
theorem PrefetchInv.move (h : PrefetchInv start size s) {o : Nat} {p : ChunkPhase}
    (hfills : Fills fetchChunkBytes start size (Function.update s.phase o p) s.file)
    (hold : ∀ b k ok, s.phase o ≠ .written b k ok) (hnew : ∀ b k ok, p ≠ .written b k ok) :
    PrefetchInv start size { s with phase := Function.update s.phase o p } where
  fills := hfills
  order q hq r hr hlt := by
    obtain ⟨b, k, ok, hw⟩ := hq
    obtain ⟨b', k', hw'⟩ := h.order q ⟨b, k, ok, written_of_update hnew hw⟩ r hr hlt
    exact ⟨b', k', update_of_written hold hw'⟩
  live hlive r b k ok hw := h.live hlive r b k ok (written_of_update hnew hw)

theorem PrefetchInv.step (h : PrefetchInv start size s) (hs : PrefetchStep start size s e t) :
    PrefetchInv start size t := by
  cases hs with
  | @ask o hlive ho hwaiting hnext hroom =>
    refine h.move (h.fills.ask ho hwaiting) ?_ fun b k ok hw => by cases hw
    intro b k ok hw
    rw [hwaiting] at hw
    cases hw
  | @answer o a hlive hasked hfits =>
    refine h.move (h.fills.receive hasked hfits) ?_ (received_ne_written a)
    intro b k ok hw
    rw [hasked] at hw
    cases hw
  | @apply o k b ok hlive hfetched hfirst hk hok =>
    have hold : ∀ b' k' ok', s.phase o ≠ .written b' k' ok' := by
      intro b' k' ok' hw
      rw [hfetched] at hw
      cases hw
    refine ⟨h.fills.write fetchChunkBytes_pos hfetched hk hok, fun q hq r hr hlt => ?_,
      fun hlive' r b' k' ok' hw => ?_⟩
    · -- the chunks before the new one were written while the loop went on
      suffices hbefore : ∃ b' k', s.phase r = .written b' k' true by
        obtain ⟨b', k', hw⟩ := hbefore
        exact ⟨b', k', update_of_written hold hw⟩
      by_cases hqo : q = o
      · subst hqo
        obtain ⟨b', k', ok', hw⟩ := hfirst r hr hlt
        obtain rfl := h.live hlive r b' k' ok' hw
        exact ⟨b', k', hw⟩
      · dsimp only at hq
        rw [Function.update_of_ne hqo] at hq
        exact h.order q hq r hr hlt
    · dsimp only at hw hlive'
      by_cases hro : r = o
      · subst hro
        rw [Function.update_self] at hw
        cases hw
        simpa using hlive'
      · rw [Function.update_of_ne hro] at hw
        exact h.live hlive r b' k' ok' hw
  | stop hlive hfailed hfirst => exact ⟨h.fills, h.order, fun hlive' => by cases hlive'⟩

theorem PrefetchInit.inv (h : PrefetchInit start s) : PrefetchInv start size s := by
  obtain ⟨hphase, rfl, -⟩ := h
  have hnone : ∀ o b k ok, s.phase o ≠ .written b k ok := by
    intro o b k ok hw
    rw [hphase] at hw
    cases hw
  refine ⟨?_, ?_, fun _ o b k ok hw => absurd hw (hnone o b k ok)⟩
  · rw [hphase]
    exact fills_start size s.file
  · intro q h'
    obtain ⟨b, k, ok, hw⟩ := h'
    exact absurd hw (hnone q b k ok)

/-- **The prefetched bytes** were all received for their offsets exactly if no reply before a stored
    chunk is short. -/
theorem prefetch_filled_iff (h : PrefetchInv start size s) :
    FilledFrom start s.phase s.file ↔ FullBefore fetchChunkBytes size s.phase := by
  refine h.fills.filled_iff fetchChunkBytes_pos fun q b k ok hw _ o ho hlt => ?_
  obtain ⟨b', k', hw'⟩ := h.order q ⟨b, k, ok, hw⟩ o ho hlt
  obtain rfl := (h.fills.stored o b' k' true hw').2.1 rfl
  exact ⟨b', true, hw'⟩

end Prefetch

/-! ## 3. `download_to_cache` -/

/-- `SYNC_INFLIGHT`. -/
def syncInflight : Nat := 8

/-- Where `download_to_cache` is: it spawns the tasks, or joins those that are left, or has returned
    `Ok` or an error. -/
inductive CacheDownloadStage where
  | spawning
  | joining
  | returned (ok : Bool)
  deriving DecidableEq, Repr

/-- **`download_to_cache`**, with its temporary file and the cache file. `next` is the offset of the
    next chunk. `made` is a ghost: the file of an empty remote file could be created. -/
structure CacheDownload where
  stage : CacheDownloadStage
  next : Nat
  phase : Nat → ChunkPhase
  joined : Nat → Bool
  failed : Bool
  temp : List UInt8
  file : Option (List UInt8)
  made : Bool

/-- `tasks.len()`: the tasks that were spawned and not joined. -/
def CacheDownload.tasks (size : Nat) (s : CacheDownload) : Nat :=
  (grid fetchChunkBytes 0 size).countP fun o => s.phase o != .waiting && !s.joined o

inductive CacheDownloadEvent where
  | empty (made : Bool)
  | spawn
  | answer (o : Nat) (a : Except RpcError Json)
  | write (o stored : Nat) (ok : Bool)
  | join (o : Nat)
  | spawned
  | finish (renamed : Bool)

/-- `join_next` is awaited: for room in the window, or for the tasks that are left. -/
def CacheDownload.Awaits (size : Nat) (s : CacheDownload) : Prop :=
  (s.stage = .spawning ∧ s.next < size ∧ syncInflight ≤ s.tasks size) ∨ s.stage = .joining

/-- **One step**, for `total_size = size`. Tasks end in any order; a task that fails stops the
    spawning when it is joined. -/
inductive CacheDownloadStep (size : Nat) :
    CacheDownload → CacheDownloadEvent → CacheDownload → Prop where
  | empty {s : CacheDownload} (hstage : s.stage = .spawning) (hsize : size = 0) (made : Bool) :
      CacheDownloadStep size s (.empty made)
        { s with
          stage := .returned true
          file := if made then some [] else s.file
          made := made }
  | spawn {s : CacheDownload} (hstage : s.stage = .spawning) (hnext : s.next < size)
      (hroom : s.tasks size < syncInflight) :
      CacheDownloadStep size s .spawn
        { s with
          next := s.next + limitAt fetchChunkBytes size s.next
          phase := Function.update s.phase s.next .asked }
  | answer {s : CacheDownload} {o : Nat} {a : Except RpcError Json} (hasked : s.phase o = .asked)
      (hfits : FitsChunk size o a) :
      CacheDownloadStep size s (.answer o a)
        { s with phase := Function.update s.phase o (received a) }
  | write {s : CacheDownload} {o k : Nat} {b : List UInt8} {ok : Bool}
      (hfetched : s.phase o = .fetched b) (hk : k ≤ b.length) (hok : ok = true → k = b.length) :
      CacheDownloadStep size s (.write o k ok)
        { s with
          phase := Function.update s.phase o (.written b k ok)
          temp := writeAt s.temp o (b.take k) }
  | join {s : CacheDownload} {o : Nat} {ok : Bool} (hawaits : s.Awaits size)
      (hended : (s.phase o).result = some ok) (hnew : s.joined o = false) :
      CacheDownloadStep size s (.join o)
        { s with
          stage := if ok then s.stage else .joining
          joined := Function.update s.joined o true
          failed := s.failed || !ok }
  | spawned {s : CacheDownload} (hstage : s.stage = .spawning) (hsize : 0 < size)
      (hnext : size ≤ s.next) :
      CacheDownloadStep size s .spawned { s with stage := .joining }
  | finish {s : CacheDownload} (hstage : s.stage = .joining)
      (hall : ∀ o, s.phase o ≠ .waiting → s.joined o = true) (renamed : Bool) :
      CacheDownloadStep size s (.finish renamed)
        { s with
          stage := .returned (!s.failed && renamed)
          file := if !s.failed && renamed then some s.temp else s.file }

/-- Nothing is under way; the cache file is as it was `before`. -/
def downloadStart (before : Option (List UInt8)) : CacheDownload :=
  ⟨.spawning, 0, fun _ => .waiting, fun _ => false, false, [], before, false⟩

abbrev CacheDownloadRun (size : Nat) (before : Option (List UInt8))
    (hist : List (CacheDownload × CacheDownloadEvent)) (s : CacheDownload) : Prop :=
  Run (· = downloadStart before) (CacheDownloadStep size) hist s

/-- The chunk was stored to its end. -/
def ChunkDone (phase : Nat → ChunkPhase) (o : Nat) : Prop := ∃ b k, phase o = .written b k true

/-- **The invariant.** -/
structure CacheDownloadInv (size : Nat) (before : Option (List UInt8)) (s : CacheDownload) :
    Prop where
  fills : Fills fetchChunkBytes 0 size s.phase s.temp
  next : s.next < size → s.next ∈ grid fetchChunkBytes 0 size
  spawned : ∀ o ∈ grid fetchChunkBytes 0 size, s.phase o = .waiting ↔ s.next ≤ o
  joined : s.failed = false → ∀ o, s.joined o = true → ChunkDone s.phase o
  all : s.stage = .joining → 0 < size ∧ (s.failed = false → size ≤ s.next)
  kept : s.stage ≠ .returned true → s.file = before
  ended : s.stage = .returned true →
    (size = 0 ∧ s.file = if s.made then some [] else before) ∨
    (0 < size ∧ s.file = some s.temp ∧
      ∀ o ∈ grid fetchChunkBytes 0 size, ChunkDone s.phase o)

/-- **The file is whole**: it has the size, and every byte was received for its offset. -/
def CacheDownload.Whole (size : Nat) (s : CacheDownload) : Prop :=
  ∃ f, s.file = some f ∧ f.length = size ∧ FilledFrom 0 s.phase f

/-- **No short reply.** -/
def FullReplies (size : Nat) (phase : Nat → ChunkPhase) : Prop :=
  ∀ o b, (phase o).bytes = some b → b.length = limitAt fetchChunkBytes size o

section Download

variable {size : Nat} {before : Option (List UInt8)} {s t : CacheDownload} {e : CacheDownloadEvent}

theorem downloadStart_inv (size : Nat) (before : Option (List UInt8)) :
    CacheDownloadInv size before (downloadStart before) where
  fills := fills_start size []
  next hlt := (mem_grid fetchChunkBytes_pos).mpr ⟨0, by rw [Nat.zero_mul]; rfl, hlt⟩
  spawned o _ := iff_of_true rfl (Nat.zero_le o)
  joined _ o ho := by cases ho
  all hstage := by cases hstage
  kept _ := rfl
  ended hstage := by cases hstage

theorem ChunkDone.update {phase : Nat → ChunkPhase} {o q : Nat} {p : ChunkPhase}
    (h : ChunkDone phase q) (hold : ∀ b k ok, phase o ≠ .written b k ok) :
    ChunkDone (Function.update phase o p) q := by
  obtain ⟨b, k, hw⟩ := h
  exact ⟨b, k, update_of_written hold hw⟩

/-- A task that succeeded has stored its chunk. -/
theorem ChunkDone.of_result {phase : Nat → ChunkPhase} {o : Nat}
    (h : (phase o).result = some true) : ChunkDone phase o := by
  cases hphase : phase o with
  | written b k ok =>
    rw [hphase] at h
    cases h
    exact ⟨b, k, hphase⟩
  | _ =>
    rw [hphase] at h
    cases h

/-- While a task is under way nothing has been returned. -/
theorem CacheDownloadInv.not_returned (h : CacheDownloadInv size before s) {o : Nat}
    (hspawned : s.phase o ≠ .waiting) (hold : ∀ b k ok, s.phase o ≠ .written b k ok) :
    s.stage ≠ .returned true := by
  intro hstage
  have ho := h.fills.grid o hspawned
  rcases h.ended hstage with ⟨rfl, -⟩ | ⟨-, -, hall⟩
  · exact absurd (lt_of_mem_grid fetchChunkBytes_pos ho) (Nat.not_lt_zero o)
  · obtain ⟨b, k, hw⟩ := hall o ho
    exact hold b k true hw

/-- A task goes on. -/
theorem CacheDownloadInv.move (h : CacheDownloadInv size before s) {o : Nat} {p : ChunkPhase}
    {temp : List UInt8} (hspawned : s.phase o ≠ .waiting) (hp : p ≠ .waiting)
    (hold : ∀ b k ok, s.phase o ≠ .written b k ok)
    (hfills : Fills fetchChunkBytes 0 size (Function.update s.phase o p) temp) :
    CacheDownloadInv size before
      { s with phase := Function.update s.phase o p, temp := temp } where
  fills := hfills
  next := h.next
  spawned q hq := by
    by_cases hqo : q = o
    · subst hqo
      dsimp only
      rw [Function.update_self]
      exact iff_of_false hp fun hle => hspawned ((h.spawned q hq).mpr hle)
    · dsimp only
      rw [Function.update_of_ne hqo]
      exact h.spawned q hq
  joined hfailed q hq := (h.joined hfailed q hq).update hold
  all := h.all
  kept := h.kept
  ended hstage := absurd hstage (h.not_returned hspawned hold)

/-- A task is spawned for the next chunk. -/
theorem CacheDownloadInv.spawn (h : CacheDownloadInv size before s) (hstage : s.stage = .spawning)
    (hnext : s.next < size) :
    CacheDownloadInv size before
      { s with
        next := s.next + limitAt fetchChunkBytes size s.next
        phase := Function.update s.phase s.next .asked } := by
  have hin := h.next hnext
  have hwaiting := (h.spawned _ hin).mpr le_rfl
  have hold : ∀ b k ok, s.phase s.next ≠ .written b k ok := by
    intro b k ok hw
    rw [hwaiting] at hw
    cases hw
  refine ⟨h.fills.ask hin hwaiting, fun hlt => ?_, fun o ho => ?_, fun hfailed o ho => ?_,
    fun hj => ?_, h.kept, fun hr => ?_⟩
  · -- the chunk had the full length
    have hfull : limitAt fetchChunkBytes size s.next = fetchChunkBytes := by
      dsimp only at hlt
      unfold limitAt at hlt ⊢
      omega
    obtain ⟨n, hn, -⟩ := (mem_grid fetchChunkBytes_pos).mp hin
    refine (mem_grid fetchChunkBytes_pos).mpr ⟨n + 1, ?_, hlt⟩
    dsimp only
    rw [hfull, Nat.succ_mul]
    omega
  · dsimp only
    by_cases hon : o = s.next
    · subst hon
      have hpos := limitAt_pos fetchChunkBytes_pos hnext
      rw [Function.update_self]
      exact iff_of_false (fun hw => by cases hw) (by omega)
    · rw [Function.update_of_ne hon, h.spawned o ho]
      constructor
      · intro hle
        have hadd := add_chunk_le fetchChunkBytes_pos hin ho (lt_of_le_of_ne hle (Ne.symm hon))
        have hlimit := limitAt_le fetchChunkBytes size s.next
        omega
      · intro hle
        omega
  · exact (h.joined hfailed o ho).update hold
  · rw [hstage] at hj
    cases hj
  · rw [hstage] at hr
    cases hr

/-- A task is joined: it has stored its chunk, or the download has failed. -/
theorem CacheDownloadInv.join (h : CacheDownloadInv size before s) {o : Nat} {ok : Bool}
    (hawaits : s.Awaits size) (hended : (s.phase o).result = some ok) :
    CacheDownloadInv size before
      { s with
        stage := if ok then s.stage else .joining
        joined := Function.update s.joined o true
        failed := s.failed || !ok } := by
  have hstage : s.stage ≠ .returned true := by
    intro hr
    rcases hawaits with ⟨hs, -, -⟩ | hs <;> rw [hr] at hs <;> cases hs
  have hpos : 0 < size := by
    rcases hawaits with ⟨-, hnext, -⟩ | hs
    · exact Nat.zero_lt_of_lt hnext
    · exact (h.all hs).1
  refine ⟨h.fills, h.next, h.spawned, fun hfailed q hq => ?_, fun hj => ⟨hpos, fun hfailed => ?_⟩,
    fun _ => h.kept hstage, fun hr => ?_⟩
  · dsimp only at hfailed hq
    rw [Bool.or_eq_false_iff] at hfailed
    by_cases hqo : q = o
    · subst hqo
      obtain rfl : ok = true := by simpa using hfailed.2
      exact .of_result hended
    · rw [Function.update_of_ne hqo] at hq
      exact h.joined hfailed.1 q hq
  · obtain ⟨hbefore, hok⟩ := Bool.or_eq_false_iff.mp hfailed
    obtain rfl : ok = true := by simpa using hok
    exact (h.all hj).2 hbefore
  · cases ok with
    | true => exact absurd hr hstage
    | false => cases hr

/-- The last task has been joined: every chunk is stored, or nothing is installed. -/
theorem CacheDownloadInv.finish (h : CacheDownloadInv size before s) (hstage : s.stage = .joining)
    (hall : ∀ o, s.phase o ≠ .waiting → s.joined o = true) (renamed : Bool) :
    CacheDownloadInv size before
      { s with
        stage := .returned (!s.failed && renamed)
        file := if !s.failed && renamed then some s.temp else s.file } := by
  have hkept : s.file = before := h.kept (by rw [hstage]; decide)
  obtain ⟨hpos, hnext⟩ := h.all hstage
  refine ⟨h.fills, h.next, h.spawned, h.joined, ?_, fun hr => ?_, fun hr => ?_⟩
  · intro hj
    cases hj
  · have hnot : (!s.failed && renamed) = false := by
      cases hok : !s.failed && renamed with
      | false => rfl
      | true => exact absurd (by rw [hok]) hr
    dsimp only
    rw [hnot, if_neg Bool.false_ne_true, hkept]
  · have hok : (!s.failed && renamed) = true := CacheDownloadStage.returned.inj hr
    obtain ⟨hfailed, -⟩ := Bool.and_eq_true_iff.mp hok
    have hfailed : s.failed = false := by simpa using hfailed
    refine .inr ⟨hpos, ?_, fun o ho => h.joined hfailed o (hall o fun hw => ?_)⟩
    · dsimp only
      rw [hok, if_pos rfl]
    · have hle := (h.spawned o ho).mp hw
      have hlt := lt_of_mem_grid fetchChunkBytes_pos ho
      have hend := hnext hfailed
      omega

/-- **Every step keeps the invariant.** -/
theorem CacheDownloadInv.step (h : CacheDownloadInv size before s)
    (hs : CacheDownloadStep size s e t) : CacheDownloadInv size before t := by
  cases hs with
  | empty hstage hsize made =>
    refine ⟨h.fills, h.next, h.spawned, h.joined, ?_, fun hr => absurd rfl hr,
      fun _ => .inl ⟨hsize, ?_⟩⟩
    · intro hj
      cases hj
    · have hkept : s.file = before := h.kept (by rw [hstage]; decide)
      rw [hkept]
  | spawn hstage hnext hroom => exact h.spawn hstage hnext
  | @answer o a hasked hfits =>
    refine h.move ?_ (received_ne_waiting a) ?_ (h.fills.receive hasked hfits)
    · intro hw
      rw [hasked] at hw
      cases hw
    · intro b k ok hw
      rw [hasked] at hw
      cases hw
  | @write o k b ok hfetched hk hok =>
    refine h.move ?_ (fun hw => by cases hw) ?_
      (h.fills.write fetchChunkBytes_pos hfetched hk hok)
    · intro hw
      rw [hfetched] at hw
      cases hw
    · intro b' k' ok' hw
      rw [hfetched] at hw
      cases hw
  | join hawaits hended hnew => exact h.join hawaits hended
  | spawned hstage hsize hnext =>
    refine ⟨h.fills, h.next, h.spawned, h.joined, fun _ => ⟨hsize, fun _ => hnext⟩, fun _ => ?_,
      fun hr => by cases hr⟩
    exact h.kept (by rw [hstage]; decide)
  | finish hstage hall renamed => exact h.finish hstage hall renamed

/-- A download of an empty file. -/
theorem empty_whole_iff (hfile : s.file = if s.made then some [] else before) :
    s.Whole 0 ↔ s.made = true ∨ before = some [] := by
  have hnil : ∀ f : List UInt8, s.file = some f → f.length = 0 → s.file = some [] := by
    intro f hf hlen
    rw [hf, List.length_eq_zero_iff.mp hlen]
  have hwhole : s.file = some [] → s.Whole 0 := fun hf =>
    ⟨[], hf, rfl, fun i _ hi => absurd hi (Nat.not_lt_zero i)⟩
  cases hmade : s.made with
  | true =>
    rw [hmade, if_pos rfl] at hfile
    exact iff_of_true (hwhole hfile) (.inl rfl)
  | false =>
    rw [hmade, if_neg Bool.false_ne_true] at hfile
    constructor
    · intro h
      obtain ⟨f, hf, hlen, -⟩ := h
      rw [← hfile]
      exact .inr (hnil f hf hlen)
    · intro h
      obtain hfalse | hbefore := h
      · cases hfalse
      · exact hwhole (hfile.trans hbefore)

/-- **The downloaded file** is whole exactly if no reply was short, and the empty file could be
    created. -/
theorem download_whole_iff (h : CacheDownloadInv size before s) (hok : s.stage = .returned true) :
    s.Whole size ↔
      FullReplies size s.phase ∧ (size = 0 → s.made = true ∨ before = some []) := by
  rcases h.ended hok with ⟨rfl, hfile⟩ | ⟨hpos, hfile, hall⟩
  · rw [empty_whole_iff hfile]
    constructor
    · refine fun hmade => ⟨fun o b hb => ?_, fun _ => hmade⟩
      have hlt := lt_of_mem_grid fetchChunkBytes_pos (h.fills.mem_of_bytes hb)
      exact absurd hlt (Nat.not_lt_zero o)
    · exact fun hfull => hfull.2 rfl
  · constructor
    · intro h'
      obtain ⟨f, hf, hlen, hfilled⟩ := h'
      obtain rfl := Option.some.inj (hfile.symm.trans hf)
      refine ⟨fun o b hb => ?_, fun hzero => by omega⟩
      refine Nat.le_antisymm (h.fills.fits o b hb).2 (Nat.le_of_not_lt fun hshort => ?_)
      have hends := h.fills.ends_of_short fetchChunkBytes_pos hfilled hb hshort
      have hlt := lt_of_mem_grid fetchChunkBytes_pos (h.fills.mem_of_bytes hb)
      have hlimit := add_limitAt_le fetchChunkBytes (Nat.le_of_lt hlt)
      omega
    · intro h'
      obtain ⟨hfull, -⟩ := h'
      have hwhole : ∀ o ∈ grid fetchChunkBytes 0 size,
          ∃ b, s.phase o = .written b b.length true := by
        intro o ho
        obtain ⟨b, k, hw⟩ := hall o ho
        obtain rfl := (h.fills.stored o b k true hw).2.1 rfl
        exact ⟨b, hw⟩
      refine ⟨s.temp, hfile, ?_, ?_⟩
      · refine Nat.le_antisymm (h.fills.length_file fetchChunkBytes_pos (Nat.zero_le size)) ?_
        -- the last chunk reaches the end
        obtain ⟨o, ho, hle, hlt⟩ := exists_chunk fetchChunkBytes_pos (Nat.zero_le (size - 1))
          (Nat.sub_lt hpos Nat.one_pos)
        obtain ⟨b, hw⟩ := hwhole o ho
        have hlen := hfull o b (by rw [hw]; rfl)
        have hend := (h.fills.stored o b _ true hw).2.2.1 (by omega)
        omega
      · refine (h.fills.filled_iff fetchChunkBytes_pos fun q b k ok _ _ o ho _ => ?_).mpr
          fun q b k ok _ _ o b' hb' _ => hfull o b' hb'
        obtain ⟨b', hw⟩ := hwhole o ho
        exact ⟨b', true, hw⟩

end Download

/-! ## 4. Both fillers -/

/-- **No byte of the cache was received for no offset.** After every step of a prefetch: exactly if
    no reply before a stored chunk was short. After a download that returned `Ok`, which also
    leaves the size it was given: exactly if no reply was short, and the file of an empty remote
    file was created or is empty already. -/
theorem fillers_exact_iff (start size : Nat) (before : Option (List UInt8)) :
    (∀ hist s, PrefetchRun start size hist s → ∀ t ∈ visited hist s,
      (FilledFrom start t.phase t.file ↔ FullBefore fetchChunkBytes size t.phase)) ∧
    ∀ hist s, CacheDownloadRun size before hist s → ∀ t ∈ visited hist s,
      t.stage = .returned true →
        (t.Whole size ↔
          FullReplies size t.phase ∧ (size = 0 → t.made = true ∨ before = some [])) := by
  constructor
  · intro hist s h t ht
    obtain ⟨earlier, ht⟩ := h.of_visited ht
    exact prefetch_filled_iff (ht.invariant (fun _ h0 => PrefetchInit.inv h0)
      fun _ _ _ hi hs => hi.step hs)
  · intro hist s h t ht hok
    obtain ⟨earlier, ht⟩ := h.of_visited ht
    refine download_whole_iff (ht.invariant (fun u h0 => ?_) fun _ _ _ hi hs => hi.step hs) hok
    rw [h0]
    exact downloadStart_inv size before

/-- A reply with some bytes. -/
def replyOf (bytes : List UInt8) : Except RpcError Json :=
  .ok (ReadFileResult.toJson ⟨Base64.encode bytes, true⟩)

theorem chunkReply_replyOf {bytes : List UInt8} (h : bytes ≠ []) :
    chunkReply (replyOf bytes) = some bytes := by
  rw [replyOf, chunkReply, ReadFileResult.ofJson_toJson, Option.bind_some, Base64.decode_encode,
    Option.filter_some, if_pos (decide_eq_true h)]

theorem received_replyOf {bytes : List UInt8} (h : bytes ≠ []) :
    received (replyOf bytes) = .fetched bytes := by
  rw [received, chunkReply_replyOf h]

theorem fits_replyOf {bytes : List UInt8} (h : bytes ≠ []) {size o : Nat}
    (hlen : bytes.length ≤ limitAt fetchChunkBytes size o) : FitsChunk size o (replyOf bytes) := by
  intro b hb
  rw [chunkReply_replyOf h] at hb
  rwa [← Option.some.inj hb]

/-- The first chunk is under way. -/
def firstChunk (p : ChunkPhase) : Nat → ChunkPhase := Function.update (fun _ => .waiting) 0 p

@[simp] theorem firstChunk_zero (p : ChunkPhase) : firstChunk p 0 = p := Function.update_self ..

theorem firstChunk_of_ne (p : ChunkPhase) {o : Nat} (h : o ≠ 0) : firstChunk p o = .waiting :=
  Function.update_of_ne h ..

@[simp] theorem update_firstChunk (p q : ChunkPhase) :
    Function.update (firstChunk p) 0 q = firstChunk q := Function.update_idem ..

/-- The phases of the first chunk, as a run of either filler goes through them. -/
def firstWritten (bytes : List UInt8) : Nat → ChunkPhase :=
  firstChunk (.written bytes bytes.length true)

section FirstChunk

variable {bytes : List UInt8}

/-- A prefetch of an absent file, up to the write of its first chunk. -/
theorem prefetch_first {size : Nat} (hsize : 0 < size) (hne : bytes ≠ [])
    (hlen : bytes.length ≤ limitAt fetchChunkBytes size 0) :
    ∃ hist, PrefetchRun 0 size hist ⟨firstWritten bytes, bytes, false⟩ := by
  have hstart : PrefetchInit 0 ⟨fun _ => .waiting, [], false⟩ := ⟨rfl, rfl, rfl⟩
  have hask : PrefetchStep 0 size ⟨fun _ => .waiting, [], false⟩ (.ask 0)
      ⟨firstChunk .asked, [], false⟩ := by
    refine .ask rfl ((mem_grid fetchChunkBytes_pos).mpr ⟨0, by omega, hsize⟩) rfl
      (fun q _ hlt => absurd hlt (Nat.not_lt_zero q)) ?_
    simp [ChunkPhase.underWay, prefetchInflight]
  have hanswer : PrefetchStep 0 size ⟨firstChunk .asked, [], false⟩ (.answer 0 (replyOf bytes))
      ⟨firstChunk (.fetched bytes), [], false⟩ := by
    have hs := @PrefetchStep.answer 0 size ⟨firstChunk .asked, [], false⟩ 0 _ rfl
      (firstChunk_zero .asked) (fits_replyOf hne hlen)
    rwa [received_replyOf hne, update_firstChunk] at hs
  have happly : PrefetchStep 0 size ⟨firstChunk (.fetched bytes), [], false⟩
      (.apply 0 bytes.length true) ⟨firstWritten bytes, bytes, false⟩ := by
    have hs := @PrefetchStep.apply 0 size ⟨firstChunk (.fetched bytes), [], false⟩ 0 bytes.length
      bytes true rfl (firstChunk_zero _) (fun q _ hlt => absurd hlt (Nat.not_lt_zero q)) le_rfl
      fun _ => rfl
    rwa [update_firstChunk, List.take_length, show writeAt [] 0 bytes = bytes from
      writeAt_end [] bytes] at hs
  exact ⟨_, .step (.step (.step (.start hstart) hask) hanswer) happly⟩

/-- A download of two bytes, with a reply that carries them, or one of them. -/
theorem download_first (hne : bytes ≠ []) (hlen : bytes.length ≤ 2) :
    ∃ hist s, CacheDownloadRun 2 none hist s ∧ s.stage = .returned true ∧ s.file = some bytes ∧
      s.phase = firstWritten bytes := by
  have hspawn : CacheDownloadStep 2 (downloadStart none) .spawn
      ⟨.spawning, 2, firstChunk .asked, fun _ => false, false, [], none, false⟩ :=
    .spawn rfl (by decide) (by decide)
  have hanswer : CacheDownloadStep 2
      ⟨.spawning, 2, firstChunk .asked, fun _ => false, false, [], none, false⟩
      (.answer 0 (replyOf bytes))
      ⟨.spawning, 2, firstChunk (.fetched bytes), fun _ => false, false, [], none, false⟩ := by
    have hs := @CacheDownloadStep.answer 2
      ⟨.spawning, 2, firstChunk .asked, fun _ => false, false, [], none, false⟩ 0 _
      (firstChunk_zero .asked) (fits_replyOf hne (hlen.trans (by decide)))
    rwa [received_replyOf hne, update_firstChunk] at hs
  have hwrite : CacheDownloadStep 2
      ⟨.spawning, 2, firstChunk (.fetched bytes), fun _ => false, false, [], none, false⟩
      (.write 0 bytes.length true)
      ⟨.spawning, 2, firstWritten bytes, fun _ => false, false, bytes, none, false⟩ := by
    have hs := @CacheDownloadStep.write 2
      ⟨.spawning, 2, firstChunk (.fetched bytes), fun _ => false, false, [], none, false⟩ 0
      bytes.length bytes true (firstChunk_zero _) le_rfl fun _ => rfl
    rwa [update_firstChunk, List.take_length, show writeAt [] 0 bytes = bytes from
      writeAt_end [] bytes] at hs
  have hspawned : CacheDownloadStep 2
      ⟨.spawning, 2, firstWritten bytes, fun _ => false, false, bytes, none, false⟩ .spawned
      ⟨.joining, 2, firstWritten bytes, fun _ => false, false, bytes, none, false⟩ :=
    .spawned rfl (by decide) le_rfl
  have hjoin : CacheDownloadStep 2
      ⟨.joining, 2, firstWritten bytes, fun _ => false, false, bytes, none, false⟩ (.join 0)
      ⟨.joining, 2, firstWritten bytes, Function.update (fun _ => false) 0 true, false, bytes,
        none, false⟩ :=
    @CacheDownloadStep.join 2
      ⟨.joining, 2, firstWritten bytes, fun _ => false, false, bytes, none, false⟩ 0 true
      (.inr rfl) (congrArg ChunkPhase.result (firstChunk_zero _)) rfl
  have hfinish : CacheDownloadStep 2
      ⟨.joining, 2, firstWritten bytes, Function.update (fun _ => false) 0 true, false, bytes,
        none, false⟩ (.finish true)
      ⟨.returned true, 2, firstWritten bytes, Function.update (fun _ => false) 0 true, false,
        bytes, some bytes, false⟩ := by
    refine .finish rfl (fun o ho => ?_) true
    by_cases hzero : o = 0
    · show Function.update (fun _ => false) 0 true o = true
      rw [hzero, Function.update_self]
    · exact absurd (firstChunk_of_ne _ hzero) ho
  exact ⟨_, _, .step (.step (.step (.step (.step (.step (.start rfl) hspawn) hanswer) hwrite)
    hspawned) hjoin) hfinish, rfl, rfl, rfl⟩

end FirstChunk

/-- Both fillers, with replies that carry all of two bytes. -/
theorem fillers_exact_two :
    (∃ hist s, PrefetchRun 0 2 hist s ∧ s.file = [1, 2] ∧ FilledFrom 0 s.phase s.file) ∧
    ∃ hist s, CacheDownloadRun 2 none hist s ∧ s.stage = .returned true ∧ s.Whole 2 := by
  have honly : ∀ o b, (firstWritten [1, 2] o).bytes = some b → o = 0 ∧ b = [1, 2] := by
    intro o b hb
    by_cases hzero : o = 0
    · subst hzero
      rw [firstWritten, firstChunk_zero] at hb
      exact ⟨rfl, (Option.some.inj hb).symm⟩
    · rw [firstWritten, firstChunk_of_ne _ hzero] at hb
      cases hb
  have hfull : FullReplies 2 (firstWritten [1, 2]) := by
    intro o b hb
    obtain ⟨rfl, rfl⟩ := honly o b hb
    decide
  constructor
  · obtain ⟨hist, hrun⟩ : ∃ hist, PrefetchRun 0 2 hist ⟨firstWritten [1, 2], [1, 2], false⟩ :=
      prefetch_first (by decide) (by decide) (by decide)
    refine ⟨hist, _, hrun, rfl,
      ((fillers_exact_iff 0 2 none).1 _ _ hrun _ List.mem_cons_self).mpr ?_⟩
    exact fun q b k ok _ _ o b' hb' _ => hfull o b' hb'
  · obtain ⟨hist, s, hrun, hok, -, hphase⟩ : ∃ hist s, CacheDownloadRun 2 none hist s ∧
        s.stage = .returned true ∧ s.file = some [1, 2] ∧ s.phase = firstWritten [1, 2] :=
      download_first (by decide) (by decide)
    refine ⟨hist, s, hrun, hok,
      ((fillers_exact_iff 0 2 none).2 _ _ hrun _ List.mem_cons_self hok).mpr ⟨?_, ?_⟩⟩
    · rw [hphase]
      exact hfull
    · intro hzero
      cases hzero

/-- The second chunk is under way, after a first of one byte. -/
def secondChunk (p : ChunkPhase) : Nat → ChunkPhase :=
  Function.update (firstWritten [7]) fetchChunkBytes p

theorem secondChunk_self (p : ChunkPhase) : secondChunk p fetchChunkBytes = p :=
  Function.update_self ..

theorem update_secondChunk (p q : ChunkPhase) :
    Function.update (secondChunk p) fetchChunkBytes q = secondChunk q := Function.update_idem ..

/-- The first chunk is the only one before the second. -/
theorem secondChunk_before (p : ChunkPhase) {q : Nat}
    (hq : q ∈ grid fetchChunkBytes 0 (2 * fetchChunkBytes)) (hlt : q < fetchChunkBytes) :
    firstWritten [7] q = .written [7] 1 true ∧ secondChunk p q = .written [7] 1 true := by
  have hzero : 0 ∈ grid fetchChunkBytes 0 (2 * fetchChunkBytes) :=
    (mem_grid fetchChunkBytes_pos).mpr ⟨0, by omega, by decide⟩
  obtain rfl := grid_unique fetchChunkBytes_pos hzero hq (Nat.zero_le q) (by omega) le_rfl
    (Nat.lt_add_of_pos_right fetchChunkBytes_pos)
  refine ⟨firstChunk_zero _, ?_⟩
  rw [secondChunk, Function.update_of_ne (by decide), firstWritten, firstChunk_zero]
  rfl

/-- **A short reply.** Of two chunks the prefetch gets one byte each: the second goes behind a gap
    of zeros, which reads serve. The download of two bytes gets one of them, and returns `Ok`. -/
theorem short_reply_leaves_hole :
    (∃ hist s, PrefetchRun 0 (2 * fetchChunkBytes) hist s ∧
      s.file = writeAt [7] fetchChunkBytes [9] ∧ ¬ FilledFrom 0 s.phase s.file) ∧
    ∃ hist s, CacheDownloadRun 2 none hist s ∧ s.stage = .returned true ∧ s.file = some [7] := by
  constructor
  · obtain ⟨hist, hfirst⟩ :
        ∃ hist, PrefetchRun 0 (2 * fetchChunkBytes) hist ⟨firstWritten [7], [7], false⟩ :=
      prefetch_first (by decide) (by decide) (by decide)
    have hsecond : fetchChunkBytes ∈ grid fetchChunkBytes 0 (2 * fetchChunkBytes) :=
      (mem_grid fetchChunkBytes_pos).mpr ⟨1, by omega, by decide⟩
    have hask : PrefetchStep 0 (2 * fetchChunkBytes) ⟨firstWritten [7], [7], false⟩
        (.ask fetchChunkBytes) ⟨secondChunk .asked, [7], false⟩ := by
      have hwaiting : firstWritten [7] fetchChunkBytes = .waiting := firstChunk_of_ne _ (by decide)
      refine .ask rfl hsecond hwaiting (fun q hq hlt hw => ?_) ?_
      · have hfirst := (secondChunk_before .asked hq hlt).1.symm.trans hw
        cases hfirst
      · refine lt_of_le_of_lt List.countP_le_length ?_
        decide
    have hanswer : PrefetchStep 0 (2 * fetchChunkBytes) ⟨secondChunk .asked, [7], false⟩
        (.answer fetchChunkBytes (replyOf [9])) ⟨secondChunk (.fetched [9]), [7], false⟩ := by
      have hfits : FitsChunk (2 * fetchChunkBytes) fetchChunkBytes (replyOf [9]) :=
        fits_replyOf (by decide) (by decide)
      have hs := @PrefetchStep.answer 0 (2 * fetchChunkBytes) ⟨secondChunk .asked, [7], false⟩
        fetchChunkBytes _ rfl (secondChunk_self .asked) hfits
      rwa [received_replyOf (by decide), update_secondChunk] at hs
    have happly : PrefetchStep 0 (2 * fetchChunkBytes) ⟨secondChunk (.fetched [9]), [7], false⟩
        (.apply fetchChunkBytes 1 true)
        ⟨secondChunk (.written [9] 1 true), writeAt [7] fetchChunkBytes [9], false⟩ := by
      have hs := @PrefetchStep.apply 0 (2 * fetchChunkBytes)
        ⟨secondChunk (.fetched [9]), [7], false⟩ fetchChunkBytes 1 [9] true rfl
        (secondChunk_self _) (fun q hq hlt => ⟨[7], 1, true, (secondChunk_before _ hq hlt).2⟩)
        le_rfl fun _ => rfl
      rwa [update_secondChunk] at hs
    have hrun := Run.step (.step (.step hfirst hask) hanswer) happly
    refine ⟨_, _, hrun, rfl, fun hfilled => ?_⟩
    have hinv := hrun.invariant (fun _ h0 => PrefetchInit.inv h0) fun _ _ _ hi hs => hi.step hs
    have hbytes : (secondChunk (.written [9] 1 true) 0).bytes = some [7] := by decide
    have hshort : ([7] : List UInt8).length < limitAt fetchChunkBytes (2 * fetchChunkBytes) 0 := by
      decide
    have hends : (writeAt [7] fetchChunkBytes [9]).length ≤ 0 + ([7] : List UInt8).length :=
      Fills.ends_of_short fetchChunkBytes_pos hinv.fills hfilled hbytes hshort
    rw [length_writeAt _ _ (by decide)] at hends
    exact absurd hends (by decide)
  · obtain ⟨hist, s, hrun, hok, hfile, -⟩ : ∃ hist s, CacheDownloadRun 2 none hist s ∧
        s.stage = .returned true ∧ s.file = some [7] ∧ s.phase = firstWritten [7] :=
      download_first (by decide) (by decide)
    exact ⟨hist, s, hrun, hok, hfile⟩

end Relayfs

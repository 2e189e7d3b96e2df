/-
  File:      Relayfs/Lib/Chunks.lean
  Subject:   A FILE FILLED FROM CHUNKS: what it lacks is cut into chunks at offsets that are chosen
             beforehand; they are fetched at the same time and written each at its offset.

  A reply may carry fewer bytes than its chunk has; then the next chunk begins behind a gap.

  * `grid`, `limitAt` -- the offsets, and the lengths;
  * `ChunkPhase` -- how far a chunk is;
  * `Fills` -- the invariant: the file has the bytes that were written, and ends with them. It is
    kept by what one chunk does, whatever the others do (`Fills.move`, `Fills.write`);
  * `FilledFrom` -- every new byte of the file was received for its offset;
  * `Fills.filled_iff` -- where every chunk before a stored one is stored: exactly if they are full.
-/
import Mathlib.Logic.Function.Basic
import Relayfs.Lib.Bytes

namespace Relayfs.Lib

/-! ## 1. The grid -/

/-- The offsets of the chunks of `start .. size`. -/
def grid (chunk start size : Nat) : List Nat :=
  (List.range ((size - start + chunk - 1) / chunk)).map fun i => start + i * chunk

/-- The length of the chunk at an offset. -/
def limitAt (chunk size o : Nat) : Nat := min (size - o) chunk

section Grid

variable {chunk start size o q i : Nat}

theorem mem_grid (hpos : 0 < chunk) :
    o ∈ grid chunk start size ↔ ∃ n, o = start + n * chunk ∧ o < size := by
  have hdiv : ∀ n, n < (size - start + chunk - 1) / chunk ↔ start + n * chunk < size := by
    intro n
    rw [← Nat.succ_le_iff, Nat.le_div_iff_mul_le hpos, Nat.succ_mul]
    omega
  unfold grid
  rw [List.mem_map]
  constructor
  · intro h
    obtain ⟨n, hn, rfl⟩ := h
    exact ⟨n, rfl, (hdiv n).mp (List.mem_range.mp hn)⟩
  · intro h
    obtain ⟨n, rfl, hlt⟩ := h
    exact ⟨n, List.mem_range.mpr ((hdiv n).mpr hlt), rfl⟩

theorem lt_of_mem_grid (hpos : 0 < chunk) (h : o ∈ grid chunk start size) : o < size := by
  obtain ⟨-, -, hlt⟩ := (mem_grid hpos).mp h
  exact hlt

theorem le_of_mem_grid (hpos : 0 < chunk) (h : o ∈ grid chunk start size) : start ≤ o := by
  obtain ⟨n, rfl, -⟩ := (mem_grid hpos).mp h
  exact Nat.le_add_right _ _

theorem limitAt_le (chunk size o : Nat) : limitAt chunk size o ≤ chunk := Nat.min_le_right _ _

theorem add_limitAt_le (chunk : Nat) (h : o ≤ size) : o + limitAt chunk size o ≤ size := by
  unfold limitAt
  omega

theorem limitAt_pos (hpos : 0 < chunk) (h : o < size) : 0 < limitAt chunk size o := by
  unfold limitAt
  omega

/-- Of two chunks the one begins behind the other. -/
theorem add_chunk_le (hpos : 0 < chunk) (ho : o ∈ grid chunk start size)
    (hq : q ∈ grid chunk start size) (h : o < q) : o + chunk ≤ q := by
  obtain ⟨n, rfl, -⟩ := (mem_grid hpos).mp ho
  obtain ⟨m, rfl, -⟩ := (mem_grid hpos).mp hq
  have hnm : n < m := Nat.lt_of_mul_lt_mul_right (Nat.lt_of_add_lt_add_left h)
  have hmul : (n + 1) * chunk ≤ m * chunk := Nat.mul_le_mul_right chunk hnm
  rw [Nat.succ_mul] at hmul
  omega

/-- **An offset lies in one chunk** only. -/
theorem grid_unique (hpos : 0 < chunk) (ho : o ∈ grid chunk start size)
    (hq : q ∈ grid chunk start size) (hoi : o ≤ i) (hio : i < o + chunk) (hqi : q ≤ i)
    (hiq : i < q + chunk) : o = q := by
  rcases Nat.lt_trichotomy o q with hlt | heq | hgt
  · have hend := add_chunk_le hpos ho hq hlt
    omega
  · exact heq
  · have hend := add_chunk_le hpos hq ho hgt
    omega

/-- Every offset lies in a chunk. -/
theorem exists_chunk (hpos : 0 < chunk) (hstart : start ≤ i) (hi : i < size) :
    ∃ o ∈ grid chunk start size, o ≤ i ∧ i < o + limitAt chunk size o := by
  have hle := Nat.div_mul_le_self (i - start) chunk
  have hlt := Nat.lt_mul_div_succ (i - start) hpos
  rw [Nat.mul_succ, Nat.mul_comm] at hlt
  refine ⟨start + (i - start) / chunk * chunk, (mem_grid hpos).mpr ⟨_, rfl, ?_⟩, ?_, ?_⟩
  · omega
  · omega
  · unfold limitAt
    omega

end Grid

/-! ## 2. Chunks -/

/-- **How far a chunk is**: not asked for; asked for; ended without a byte; received; and written,
    as much of it as was stored, with the result of the write. -/
inductive ChunkPhase where
  | waiting
  | asked
  | failed
  | fetched (bytes : List UInt8)
  | written (bytes : List UInt8) (stored : Nat) (ok : Bool)
  deriving DecidableEq, Repr

/-- The bytes that were received. -/
def ChunkPhase.bytes : ChunkPhase → Option (List UInt8)
  | fetched bytes | written bytes _ _ => some bytes
  | _ => none

namespace ChunkPhase

/-- The chunk was asked for, and has not been written. -/
def underWay : ChunkPhase → Bool
  | asked | failed | fetched _ => true
  | _ => false

/-- The chunk was written. -/
def Taken (p : ChunkPhase) : Prop := ∃ b k ok, p = written b k ok

/-- How the chunk ended: with a write that succeeded, or not. -/
def result : ChunkPhase → Option Bool
  | failed => some false
  | written _ _ ok => some ok
  | _ => none

end ChunkPhase

/-- **The invariant.** -/
structure Fills (chunk start size : Nat) (phase : Nat → ChunkPhase) (file : List UInt8) :
    Prop where
  grid : ∀ o, phase o ≠ .waiting → o ∈ grid chunk start size
  fits : ∀ o b, (phase o).bytes = some b → b ≠ [] ∧ b.length ≤ limitAt chunk size o
  stored : ∀ o b k ok, phase o = .written b k ok → k ≤ b.length ∧ (ok = true → k = b.length) ∧
    (0 < k → o + k ≤ file.length) ∧ ∀ j < k, byteAt file (o + j) = byteAt b j
  ends : file.length = start ∨
    ∃ o b k ok, phase o = .written b k ok ∧ 0 < k ∧ file.length = o + k

/-- **Every byte from `start` on was received** in a reply for its offset. -/
def FilledFrom (start : Nat) (phase : Nat → ChunkPhase) (file : List UInt8) : Prop :=
  ∀ i, start ≤ i → i < file.length → ∃ o b, (phase o).bytes = some b ∧ o ≤ i ∧
    i < o + b.length ∧ byteAt file i = byteAt b (i - o)

/-- **No short reply before a stored chunk.** -/
def FullBefore (chunk size : Nat) (phase : Nat → ChunkPhase) : Prop :=
  ∀ q b k ok, phase q = .written b k ok → 0 < k → ∀ o b', (phase o).bytes = some b' → o < q →
    b'.length = limitAt chunk size o

section Update

variable {phase : Nat → ChunkPhase} {o q k : Nat} {p : ChunkPhase} {b : List UInt8} {ok : Bool}

/-- What was written stays so when another chunk goes on. -/
theorem update_of_written (hold : ∀ b k ok, phase o ≠ .written b k ok)
    (hw : phase q = .written b k ok) : Function.update phase o p q = .written b k ok := by
  rw [Function.update_of_ne, hw]
  intro heq
  subst heq
  exact hold b k ok hw

/-- Without a write nothing more is written. -/
theorem written_of_update (hnew : ∀ b k ok, p ≠ .written b k ok)
    (hw : Function.update phase o p q = .written b k ok) : phase q = .written b k ok := by
  by_cases hqo : q = o
  · rw [hqo, Function.update_self] at hw
    exact absurd hw (hnew b k ok)
  · rwa [Function.update_of_ne hqo] at hw

end Update

theorem fills_start {chunk : Nat} (size : Nat) (file : List UInt8) :
    Fills chunk file.length size (fun _ => .waiting) file where
  grid o ho := absurd rfl ho
  fits o b hb := by cases hb
  stored o b k ok hw := by cases hw
  ends := .inl rfl

namespace Fills

variable {chunk start size o : Nat} {phase : Nat → ChunkPhase} {file : List UInt8}

/-- A chunk of which bytes were received is one of the grid. -/
theorem mem_of_bytes (h : Fills chunk start size phase file) {b : List UInt8}
    (hb : (phase o).bytes = some b) : o ∈ Lib.grid chunk start size := by
  refine h.grid o fun hw => ?_
  rw [hw] at hb
  cases hb

theorem mem_of_written (h : Fills chunk start size phase file) {b : List UInt8} {k : Nat}
    {ok : Bool} (hw : phase o = .written b k ok) : o ∈ Lib.grid chunk start size :=
  h.mem_of_bytes (b := b) (by rw [hw]; rfl)

/-- The bytes of a chunk lie within its length. -/
theorem length_le (h : Fills chunk start size phase file) {b : List UInt8} {k : Nat} {ok : Bool}
    (hw : phase o = .written b k ok) : k ≤ b.length ∧ b.length ≤ limitAt chunk size o := by
  refine ⟨(h.stored o b k ok hw).1, (h.fits o b ?_).2⟩
  rw [hw]
  rfl

/-- The file does not end behind the last chunk. -/
theorem length_file (hpos : 0 < chunk) (h : Fills chunk start size phase file)
    (hstart : start ≤ size) : file.length ≤ size := by
  rcases h.ends with heq | ⟨o, b, k, ok, hw, -, heq⟩
  · omega
  · have hlt := lt_of_mem_grid hpos (h.mem_of_written hw)
    have hend := add_limitAt_le chunk (Nat.le_of_lt hlt)
    have hlen := h.length_le hw
    omega

/-- **A chunk goes on** without a write. -/
theorem move (h : Fills chunk start size phase file) {p : ChunkPhase}
    (hin : o ∈ Lib.grid chunk start size) (hold : ∀ b k ok, phase o ≠ .written b k ok)
    (hnew : ∀ b k ok, p ≠ .written b k ok)
    (hfits : ∀ b, p.bytes = some b → b ≠ [] ∧ b.length ≤ limitAt chunk size o) :
    Fills chunk start size (Function.update phase o p) file where
  grid q hq := by
    by_cases hqo : q = o
    · rwa [hqo]
    · rw [Function.update_of_ne hqo] at hq
      exact h.grid q hq
  fits q b hb := by
    by_cases hqo : q = o
    · subst hqo
      rw [Function.update_self] at hb
      exact hfits b hb
    · rw [Function.update_of_ne hqo] at hb
      exact h.fits q b hb
  stored q b k ok hw := h.stored q b k ok (written_of_update hnew hw)
  ends := h.ends.imp_right fun ⟨q, b, k, ok, hw, hk, hend⟩ =>
    ⟨q, b, k, ok, update_of_written hold hw, hk, hend⟩

/-- A chunk is asked for. -/
theorem ask (h : Fills chunk start size phase file) (ho : o ∈ Lib.grid chunk start size)
    (hwaiting : phase o = .waiting) :
    Fills chunk start size (Function.update phase o .asked) file := by
  refine h.move ho ?_ (fun b k ok hw => by cases hw) fun b hb => by cases hb
  intro b k ok hw
  rw [hwaiting] at hw
  cases hw

/-- **A write** stores the first `k` bytes of a reply at their offset; other chunks keep theirs. -/
theorem write (hpos : 0 < chunk) (h : Fills chunk start size phase file) {b : List UInt8}
    {k : Nat} {ok : Bool} (hf : phase o = .fetched b) (hk : k ≤ b.length)
    (hok : ok = true → k = b.length) :
    Fills chunk start size (Function.update phase o (.written b k ok))
      (writeAt file o (b.take k)) := by
  have hb : (phase o).bytes = some b := by rw [hf]; rfl
  have hin := h.mem_of_bytes hb
  have hold : ∀ b' k' ok', phase o ≠ .written b' k' ok' := by
    intro b' k' ok' hw
    rw [hf] at hw
    cases hw
  have hlen : (b.take k).length = k := by rw [List.length_take, Nat.min_eq_left hk]
  have hne : 0 < k → b.take k ≠ [] := by
    intro hk hnil
    rw [hnil, List.length_nil] at hlen
    omega
  constructor
  · intro q hq
    by_cases hqo : q = o
    · rwa [hqo]
    · rw [Function.update_of_ne hqo] at hq
      exact h.grid q hq
  · intro q b' hb'
    by_cases hqo : q = o
    · subst hqo
      rw [Function.update_self] at hb'
      cases hb'
      exact h.fits q b hb
    · rw [Function.update_of_ne hqo] at hb'
      exact h.fits q b' hb'
  · intro q b' k' ok' hw
    by_cases hqo : q = o
    · subst hqo
      rw [Function.update_self] at hw
      cases hw
      refine ⟨hk, hok, fun hpos => ?_, fun j hj => ?_⟩
      · rw [length_writeAt _ _ (hne hpos), hlen]
        exact Nat.le_max_right _ _
      · rw [byteAt_writeAt, hlen, if_pos ⟨Nat.le_add_right _ _, by omega⟩, Nat.add_sub_cancel_left,
          byteAt_take, if_pos hj]
    · rw [Function.update_of_ne hqo] at hw
      obtain ⟨hk', hok', hend, hbytes⟩ := h.stored q b' k' ok' hw
      have hlen' := Nat.le_trans (h.length_le hw).2 (limitAt_le _ _ _)
      have hfit := Nat.le_trans (h.fits o b hb).2 (limitAt_le _ _ _)
      refine ⟨hk', hok', fun hpos => Nat.le_trans (hend hpos) (le_length_writeAt _ _ _),
        fun j hj => ?_⟩
      -- the two chunks have no offset in common
      rw [byteAt_writeAt, hlen, if_neg, hbytes j hj]
      intro hc
      exact hqo (grid_unique hpos (h.mem_of_written hw) hin (Nat.le_add_right q j)
        (by omega) hc.1 (by omega))
  · rcases Nat.eq_zero_or_pos k with rfl | hkpos
    · rw [List.take_zero, writeAt_nil]
      exact h.ends.imp_right fun ⟨q, b', k', ok', hw, hk', hend⟩ =>
        ⟨q, b', k', ok', update_of_written hold hw, hk', hend⟩
    · rw [length_writeAt _ _ (hne hkpos), hlen]
      rcases Nat.le_total file.length (o + k) with hle | hge
      · refine .inr ⟨o, b, k, ok, Function.update_self .., hkpos, Nat.max_eq_right hle⟩
      · rw [Nat.max_eq_left hge]
        exact h.ends.imp_right fun ⟨q, b', k', ok', hw, hk', hend⟩ =>
          ⟨q, b', k', ok', update_of_written hold hw, hk', hend⟩

/-- **A short reply.** Where every new byte was received for its offset, the file ends behind a
    short reply. -/
theorem ends_of_short (hpos : 0 < chunk) (h : Fills chunk start size phase file)
    (hfilled : FilledFrom start phase file) {b : List UInt8} (hb : (phase o).bytes = some b)
    (hshort : b.length < limitAt chunk size o) : file.length ≤ o + b.length := by
  refine Nat.le_of_not_lt fun hlt => ?_
  have ho := h.mem_of_bytes hb
  have hstart := le_of_mem_grid hpos ho
  have hlimit := limitAt_le chunk size o
  -- the byte behind the reply was received in none
  obtain ⟨r, b', hb', hle, hin, -⟩ := hfilled (o + b.length) (by omega) hlt
  have hfit := Nat.le_trans (h.fits r b' hb').2 (limitAt_le _ _ _)
  obtain rfl := grid_unique hpos ho (h.mem_of_bytes hb') (Nat.le_add_right o b.length)
    (by omega) hle (by omega)
  rw [hb] at hb'
  cases hb'
  exact Nat.lt_irrefl _ hin

/-- **No gap.** Where every chunk before a stored one is stored whole, every new byte was received
    for its offset exactly if no reply before a stored chunk is short. -/
theorem filled_iff (hpos : 0 < chunk) (h : Fills chunk start size phase file)
    (hwhole : ∀ q b k ok, phase q = .written b k ok → 0 < k → ∀ o ∈ Lib.grid chunk start size,
      o < q → ∃ b ok, phase o = .written b b.length ok) :
    FilledFrom start phase file ↔ FullBefore chunk size phase := by
  constructor
  · intro hfilled q b k ok hw hk o b' hb' hlt
    refine Nat.le_antisymm (h.fits o b' hb').2 (Nat.le_of_not_lt fun hshort => ?_)
    have hends := h.ends_of_short hpos hfilled hb' hshort
    have hnext := add_chunk_le hpos (h.mem_of_bytes hb') (h.mem_of_written hw) hlt
    have hlimit := limitAt_le chunk size o
    have hend := (h.stored q b k ok hw).2.2.1 hk
    omega
  · intro hfull i hstart hi
    rcases h.ends with heq | ⟨q, b, k, ok, hw, hk, heq⟩
    · omega
    · have hq := h.mem_of_written hw
      have hlen := h.length_le hw
      have hlt := lt_of_mem_grid hpos hq
      have hsize := add_limitAt_le chunk (Nat.le_of_lt hlt)
      obtain ⟨o, ho, hoi, hio⟩ := exists_chunk hpos hstart (show i < size by omega)
      have hlimit := limitAt_le chunk size q
      rcases Nat.lt_trichotomy o q with hlt | rfl | hgt
      · obtain ⟨b', ok', hw'⟩ := hwhole q b k ok hw hk o ho hlt
        have hb' : (phase o).bytes = some b' := by rw [hw']; rfl
        have hfull := hfull q b k ok hw hk o b' hb' hlt
        refine ⟨o, b', hb', hoi, by omega, ?_⟩
        have hbyte := (h.stored o b' _ ok' hw').2.2.2 (i - o) (by omega)
        rwa [Nat.add_sub_cancel' hoi] at hbyte
      · refine ⟨o, b, by rw [hw]; rfl, hoi, by omega, ?_⟩
        have hbyte := (h.stored o b k ok hw).2.2.2 (i - o) (by omega)
        rwa [Nat.add_sub_cancel' hoi] at hbyte
      · have hnext := add_chunk_le hpos hq ho hgt
        omega

end Fills

end Relayfs.Lib

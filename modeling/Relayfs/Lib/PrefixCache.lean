/-
  File:      Relayfs/Lib/PrefixCache.lean
  Subject:   A WRITE-BACK PREFIX CACHE OF A FILE: the cache holds the content up to its length, the
             remote copy the content from there on.

  * `Agrees` -- content, cache and remote copy agree;
  * `Agrees.store`, `Agrees.spill` -- a write that the cache takes, or takes in part;
  * `Agrees.push`, `Agrees.fill` -- cached bytes go to the remote copy, remote bytes to the cache;
  * `Agrees.resizeBoth`, `Agrees.resizeRemote` -- a new length for both copies, or for one.
-/
import Relayfs.Lib.Bytes

namespace Relayfs.Lib

/-- **The cache is a prefix of the content**, and what it does not hold the remote copy does. -/
structure Agrees (content cache remote : List UInt8) : Prop where
  cached : ∀ i < cache.length, byteAt cache i = byteAt content i
  uncached : ∀ i, cache.length ≤ i → byteAt remote i = byteAt content i

namespace Agrees

variable {content cache remote : List UInt8}

/-- A prefix of the remote copy, before any write. -/
theorem start (remote : List UInt8) (n : Nat) : Agrees remote (remote.take n) remote where
  cached i hi := by
    rw [List.length_take] at hi
    rw [byteAt_take, if_pos (by omega)]
  uncached _ _ := rfl

/-- **A write of which the cache takes the first `k` bytes**, before the rest is anywhere. It must
    not leave a hole in front of them, and where the cache ends behind them it must hold the rest
    already. -/
theorem spill (h : Agrees content cache remote) {offset : Nat} {data : List UInt8} {k : Nat}
    (hk : k ≤ data.length)
    (hhole : 0 < k → ∀ i, cache.length ≤ i → i < offset → byteAt content i = 0)
    (hrest : ∀ i, offset + k ≤ i → i < offset + data.length → i < cache.length →
      byteAt data (i - offset) = byteAt content i) :
    Agrees (writeAt content offset data) (writeAt cache offset (data.take k))
      (writeAt remote offset data) where
  cached i hi := by
    have hlen : (data.take k).length = k := by rw [List.length_take, Nat.min_eq_left hk]
    rw [byteAt_writeAt, byteAt_writeAt, hlen, byteAt_take]
    by_cases hold : i < cache.length
    · -- an old byte of the cache: overwritten, or the write says what it is already
      by_cases hin : offset ≤ i ∧ i < offset + data.length
      · rw [if_pos hin]
        by_cases hput : i < offset + k
        · rw [if_pos ⟨hin.1, hput⟩, if_pos (by omega)]
        · rw [if_neg fun hc => hput hc.2, h.cached i hold]
          exact (hrest i (by omega) hin.2 hold).symm
      · rw [if_neg hin, if_neg fun hc => hin ⟨hc.1, by omega⟩, h.cached i hold]
    · -- a new byte: part of the write, or of the hole in front of it
      have hpos : 0 < k := by
        rcases Nat.eq_zero_or_pos k with rfl | hpos
        · rw [List.take_zero, writeAt_nil] at hi
          exact absurd hi hold
        · exact hpos
      have hne : data.take k ≠ [] := fun hc => by
        rw [hc, List.length_nil] at hlen
        omega
      rw [length_writeAt _ _ hne, hlen] at hi
      by_cases hput : offset ≤ i
      · rw [if_pos ⟨hput, by omega⟩, if_pos (by omega), if_pos ⟨hput, by omega⟩]
      · rw [if_neg fun hc => hput hc.1, if_neg fun hc => hput hc.1,
          byteAt_of_le (Nat.not_lt.mp hold)]
        exact (hhole hpos i (Nat.not_lt.mp hold) (by omega)).symm
  uncached i hi := by
    have hlen := le_length_writeAt cache offset (data.take k)
    rw [byteAt_writeAt, byteAt_writeAt, h.uncached i (by omega)]

/-- **A write that the cache takes.** It must not leave a hole. -/
theorem store (h : Agrees content cache remote) {offset : Nat} {data : List UInt8}
    (hhole : 0 < data.length → ∀ i, cache.length ≤ i → i < offset → byteAt content i = 0) :
    Agrees (writeAt content offset data) (writeAt cache offset data) remote where
  cached := by
    have hall := (h.spill (Nat.le_refl _) hhole fun i _ _ _ => by omega).cached
    rwa [List.take_length] at hall
  uncached i hi := by
    by_cases hd : data = []
    · subst hd
      rw [writeAt_nil] at hi
      rw [writeAt_nil, h.uncached i hi]
    · rw [length_writeAt _ _ hd] at hi
      rw [byteAt_writeAt, if_neg fun hc => by omega, h.uncached i (by omega)]

/-- Bytes of the cache go to the remote copy. -/
theorem push (h : Agrees content cache remote) {offset : Nat} {data : List UInt8}
    (hend : ∀ i, offset ≤ i → i < offset + data.length → i < cache.length) :
    Agrees content cache (writeAt remote offset data) where
  cached := h.cached
  uncached i hi := by
    have hout : ¬ (offset ≤ i ∧ i < offset + data.length) := by
      intro hin
      exact absurd (hend i hin.1 hin.2) (Nat.not_lt.mpr hi)
    rw [byteAt_writeAt, if_neg hout, h.uncached i hi]

/-- **Bytes of the remote copy go to the end of the cache.** -/
theorem fill (h : Agrees content cache remote) (n : Nat) :
    Agrees content (Lib.writeAt cache cache.length ((remote.drop cache.length).take n))
      remote where
  cached i hi := by
    by_cases hd : (remote.drop cache.length).take n = []
    · rw [hd, writeAt_nil] at hi ⊢
      exact h.cached i hi
    · rw [length_writeAt _ _ hd] at hi
      rw [byteAt_writeAt]
      split
      · rename_i hin
        rw [List.length_take] at hi hin
        rw [byteAt_take, if_pos (by omega), byteAt_drop, ← h.uncached i hin.1]
        congr 1
        omega
      · rename_i hout
        exact h.cached i (by omega)
  uncached i hi := by
    have hlen := le_length_writeAt cache cache.length ((remote.drop cache.length).take n)
    exact h.uncached i (by omega)

/-- **Both copies get a new length.** Where that extends the cache, the content must be zero
    there. -/
theorem resizeBoth (h : Agrees content cache remote) {n : Nat}
    (hzero : ∀ i, cache.length ≤ i → i < n → byteAt content i = 0) :
    Agrees (resize content n) (resize cache n) (resize remote n) where
  cached i hi := by
    rw [length_resize] at hi
    rw [byteAt_resize, byteAt_resize, if_pos hi, if_pos hi]
    by_cases hold : i < cache.length
    · exact h.cached i hold
    · rw [byteAt_of_le (Nat.not_lt.mp hold), hzero i (Nat.not_lt.mp hold) hi]
  uncached i hi := by
    rw [length_resize] at hi
    rw [byteAt_resize, byteAt_resize, if_neg (by omega), if_neg (by omega)]

/-- The remote copy gets a new length, and the cache keeps its own. What it holds past the new
    length must be zero. -/
theorem resizeRemote (h : Agrees content cache remote) {n : Nat}
    (hzero : ∀ i, n ≤ i → i < cache.length → byteAt content i = 0) :
    Agrees (resize content n) cache (resize remote n) where
  cached i hi := by
    rw [byteAt_resize, h.cached i hi]
    split
    · rfl
    · exact hzero i (by omega) hi
  uncached i hi := by
    rw [byteAt_resize, byteAt_resize, h.uncached i hi]

end Agrees

end Relayfs.Lib

/-
  File:      Relayfs/Lib/WriteBack.lean
  Subject:   A WRITE-BACK COPY OF A FILE: what is written goes to a local copy at once and to the
             remote one later. The bytes that have yet to go are PENDING.

  * `Behind` -- the remote copy lacks at most what is pending, and the local copy has that;
  * `Behind.settled` -- with nothing pending the remote copy is the content;
  * `Behind.write`, `Behind.spill` -- a write to the local copy, or to the remote one where the
    local one takes it in part;
  * `Behind.push`, `Behind.extend`, `Behind.resize` -- pending bytes go out, the local copy grows,
    the length is set while nothing is pending.
-/
import Relayfs.Lib.Bytes

namespace Relayfs.Lib

/-- **The remote copy is behind by the pending bytes.** A pending byte is in the local copy as in
    the content; any other is in the remote copy. Where the remote copy is too short, the last byte
    of the content is pending. -/
structure Behind (content cache remote : List UInt8) (pending : Nat → Prop) : Prop where
  held : ∀ i, pending i → i < cache.length ∧ byteAt cache i = byteAt content i
  within : ∀ i, pending i → i < content.length
  sent : ∀ i, ¬ pending i → byteAt remote i = byteAt content i
  shorter : remote.length ≤ content.length
  last : remote.length < content.length → pending (content.length - 1)

namespace Behind

variable {content cache remote : List UInt8} {pending pending' : Nat → Prop}

/-- Nothing was written. -/
theorem start (remote cache : List UInt8) (hn : ∀ i, ¬ pending i) :
    Behind remote cache remote pending where
  held i hi := absurd hi (hn i)
  within i hi := absurd hi (hn i)
  sent _ _ := rfl
  shorter := Nat.le_refl _
  last h := absurd h (Nat.lt_irrefl _)

/-- **With nothing pending the remote copy is the content.** -/
theorem settled (h : Behind content cache remote pending) (hn : ∀ i, ¬ pending i) :
    remote = content := by
  have hlen : remote.length = content.length := by
    refine Nat.le_antisymm h.shorter (Nat.not_lt.mp fun hlt => ?_)
    exact hn _ (h.last hlt)
  exact eq_of_byteAt hlen fun i _ => h.sent i (hn i)

/-- **A write to the local copy.** Its bytes are pending from then on. -/
theorem write (h : Behind content cache remote pending) {offset : Nat} {data : List UInt8}
    (hp : ∀ i, pending' i ↔ pending i ∨ (offset ≤ i ∧ i < offset + data.length)) :
    Behind (writeAt content offset data) (writeAt cache offset data) remote pending' where
  held i hi := by
    rw [byteAt_writeAt, byteAt_writeAt]
    by_cases hin : offset ≤ i ∧ i < offset + data.length
    · have hne : data ≠ [] := fun hnil => by
        rw [hnil, List.length_nil] at hin
        omega
      rw [if_pos hin, if_pos hin, length_writeAt _ _ hne]
      exact ⟨by omega, rfl⟩
    · obtain ⟨hlen, hbyte⟩ := h.held i (((hp i).mp hi).resolve_right hin)
      rw [if_neg hin, if_neg hin]
      exact ⟨Nat.lt_of_lt_of_le hlen (le_length_writeAt _ _ _), hbyte⟩
  within i hi := by
    rcases (hp i).mp hi with hold | hin
    · exact Nat.lt_of_lt_of_le (h.within i hold) (le_length_writeAt _ _ _)
    · have hne : data ≠ [] := fun hnil => by
        rw [hnil, List.length_nil] at hin
        omega
      rw [length_writeAt _ _ hne]
      omega
  sent i hi := by
    rw [hp i, not_or] at hi
    rw [byteAt_writeAt, if_neg hi.2]
    exact h.sent i hi.1
  shorter := Nat.le_trans h.shorter (le_length_writeAt _ _ _)
  last hlt := by
    rw [hp]
    by_cases hne : data = []
    · rw [hne, writeAt_nil] at hlt ⊢
      exact .inl (h.last hlt)
    · have hpos : 0 < data.length := List.length_pos_iff.mpr hne
      rw [length_writeAt _ _ hne] at hlt ⊢
      rcases Nat.lt_or_ge (offset + data.length) content.length with hin | hout
      · rw [Nat.max_eq_left (Nat.le_of_lt hin)] at hlt ⊢
        exact .inl (h.last hlt)
      · rw [Nat.max_eq_right hout]
        exact .inr (by omega)

/-- **A write to the remote copy**, of which the local one takes the first `k` bytes. The rest must
    not change a pending byte. -/
theorem spill (h : Behind content cache remote pending) {offset : Nat} {data : List UInt8} {k : Nat}
    (hk : k ≤ data.length)
    (hrest : ∀ i, pending i → offset + k ≤ i → i < offset + data.length →
      byteAt data (i - offset) = byteAt content i) :
    Behind (writeAt content offset data) (writeAt cache offset (data.take k))
      (writeAt remote offset data) pending where
  held i hi := by
    obtain ⟨hlen, hbyte⟩ := h.held i hi
    refine ⟨Nat.lt_of_lt_of_le hlen (le_length_writeAt _ _ _), ?_⟩
    have htake : (data.take k).length = k := by rw [List.length_take, Nat.min_eq_left hk]
    rw [byteAt_writeAt, byteAt_writeAt, htake, byteAt_take]
    by_cases hin : offset ≤ i ∧ i < offset + data.length
    · rw [if_pos hin]
      by_cases hput : i < offset + k
      · rw [if_pos ⟨hin.1, hput⟩, if_pos (by omega)]
      · rw [if_neg fun hc => hput hc.2, hbyte]
        exact (hrest i hi (by omega) hin.2).symm
    · rw [if_neg hin, if_neg fun hc => hin ⟨hc.1, by omega⟩, hbyte]
  within i hi := Nat.lt_of_lt_of_le (h.within i hi) (le_length_writeAt _ _ _)
  sent i hi := by rw [byteAt_writeAt, byteAt_writeAt, h.sent i hi]
  shorter := by
    have hle := h.shorter
    by_cases hne : data = []
    · rw [hne, writeAt_nil, writeAt_nil]
      exact hle
    · rw [length_writeAt _ _ hne, length_writeAt _ _ hne]
      omega
  last hlt := by
    by_cases hne : data = []
    · rw [hne, writeAt_nil] at hlt ⊢
      rw [writeAt_nil] at hlt
      exact h.last hlt
    · rw [length_writeAt _ _ hne, length_writeAt _ _ hne] at hlt
      have hmax : max content.length (offset + data.length) = content.length := by omega
      rw [length_writeAt _ _ hne, hmax]
      exact h.last (by omega)

/-- **A pending range goes out**, as the local copy has it. What else is pending stays so. -/
theorem push (h : Behind content cache remote pending) {start stop : Nat} {data : List UInt8}
    (hall : ∀ i, start ≤ i → i < stop → pending i)
    (hdata : data = (cache.drop start).take (stop - start)) (hlen : data.length = stop - start)
    (hsub : ∀ i, pending' i → pending i)
    (hkeep : ∀ i, pending i → pending' i ∨ (start ≤ i ∧ i < stop)) :
    Behind content cache (writeAt remote start data) pending' := by
  have hend : start < stop → stop ≤ content.length := by
    intro hlt
    have hlast := h.within (stop - 1) (hall _ (by omega) (by omega))
    omega
  have hgrow := le_length_writeAt remote start data
  exact
    { held := fun i hi => h.held i (hsub i hi)
      within := fun i hi => h.within i (hsub i hi)
      sent := fun i hi => by
        rw [byteAt_writeAt]
        split
        · rename_i hin
          have hpend : pending i := hall i hin.1 (by omega)
          rw [← (h.held i hpend).2, hdata, byteAt_take, if_pos (by omega), byteAt_drop]
          congr 1
          omega
        · rename_i hout
          refine h.sent i fun hpend => ?_
          rcases hkeep i hpend with hpend | hin
          · exact hi hpend
          · exact hout ⟨hin.1, by omega⟩
      shorter := by
        by_cases hne : data = []
        · rw [hne, writeAt_nil]
          exact h.shorter
        · have hpos : 0 < data.length := List.length_pos_iff.mpr hne
          have hle := h.shorter
          rw [length_writeAt _ _ hne]
          omega
      last := fun hlt => by
        refine (hkeep _ (h.last (Nat.lt_of_le_of_lt hgrow hlt))).resolve_right fun hin => ?_
        -- the last byte has gone out, so the remote copy is long enough
        have hne : data ≠ [] := fun hnil => by
          rw [hnil, List.length_nil] at hlen
          omega
        rw [length_writeAt _ _ hne] at hlt
        omega }

/-- The local copy gets more bytes behind its end. -/
theorem extend (h : Behind content cache remote pending) {cache' : List UInt8}
    (hlen : cache.length ≤ cache'.length)
    (hsame : ∀ i < cache.length, byteAt cache' i = byteAt cache i) :
    Behind content cache' remote pending :=
  { h with
    held := fun i hi => by
      obtain ⟨hin, hbyte⟩ := h.held i hi
      exact ⟨Nat.lt_of_lt_of_le hin hlen, (hsame i hin).trans hbyte⟩ }

/-- **A new length**, while nothing is pending; the local copy may become anything. -/
theorem resize (h : Behind content cache remote pending) (hn : ∀ i, ¬ pending i)
    (cache' : List UInt8) (n : Nat) :
    Behind (Lib.resize content n) cache' (Lib.resize remote n) pending := by
  rw [h.settled hn]
  exact start _ _ hn

/-- Another account of the same pending bytes. -/
theorem congr (h : Behind content cache remote pending) (hp : ∀ i, pending' i ↔ pending i) :
    Behind content cache remote pending' := by
  obtain rfl : pending' = pending := funext fun i => propext (hp i)
  exact h

end Behind

end Relayfs.Lib

/-
  File:      Relayfs/Queue/MergeRange.lean
  Subject:   `merge_range` of the write-behind queue (fuse_fs.rs): insert a range into a
             sorted, disjoint, non-adjacent range list.

  * `mergeLoop` -- the `while` loop and the final `insert`: the new list and the range that
    was inserted;
  * `covers_mergeRange`, `tidy_mergeRange` -- the list is right: same bytes plus `[start, stop)`,
    and tidy again;
  * `total_mergeRange` -- how many bytes the list gains;
  * `mergeRange_snd` -- the value REPORTED: it exceeds the gain by what the inserted range
    reaches beyond `[start, stop)` (the ranges merged in whole, `mergeExcess`);
  * `mergeExcess_eq_zero_iff` -- so it is the gain exactly when every range that overlaps or
    touches `[start, stop)` lies inside it;
  * `mergeWhile`, `mergeRange_fst` -- the loop on the list itself, with its index, makes the same
    list;
  * `merge_keeps_tidy` -- what a merge leaves of a tidy list.
-/
import Relayfs.Lib.Ranges

namespace Relayfs

open Lib

/-- Half-open byte range [start, end) of pending data for one file. -/
abbrev Range := Nat × Nat

/-- `a + b` on `u64`: the release build wraps. -/
def addU64 (a b : Nat) : Nat := (a + b) % 2 ^ 64

theorem addU64_of_lt {a b : Nat} (h : a + b < 2 ^ 64) : addU64 a b = a + b :=
  Nat.mod_eq_of_lt h

/-! ## 1. The function -/

/-- The `while` loop with the `insert` after it. A range that ends before the new one stays in
    front of it, a range that starts after it stops the loop, every other range is merged in.
    Returns the list and the range inserted. -/
def mergeLoop (newStart newEnd : Nat) : List Range → List Range × Range
  | [] => ([(newStart, newEnd)], (newStart, newEnd))
  | (s, e) :: rest =>
      if e < newStart then
        let r := mergeLoop newStart newEnd rest
        ((s, e) :: r.1, r.2)
      else if newEnd < s then
        ((newStart, newEnd) :: (s, e) :: rest, (newStart, newEnd))
      else
        mergeLoop (min newStart s) (max newEnd e) rest

theorem mergeLoop_nil (ns ne : Nat) : mergeLoop ns ne [] = ([(ns, ne)], (ns, ne)) := rfl

theorem mergeLoop_cons (ns ne s e : Nat) (rest : List Range) :
    mergeLoop ns ne ((s, e) :: rest) =
      if e < ns then ((s, e) :: (mergeLoop ns ne rest).1, (mergeLoop ns ne rest).2)
      else if ne < s then ((ns, ne) :: (s, e) :: rest, (ns, ne))
      else mergeLoop (min ns s) (max ne e) rest := rfl

/-- `covered`: the length of `[start, stop)` the list covers before the merge. -/
def coveredBytes (ranges : List Range) (start stop : Nat) : Nat :=
  ((ranges.filter fun r => r.1 < stop ∧ start < r.2).map
    fun r => min r.2 stop - max r.1 start).sum

/-- `merge_range`: the list after the merge, and the number it returns. -/
def mergeRange (ranges : List Range) (start stop : Nat) : List Range × Nat :=
  if stop ≤ start then (ranges, 0)
  else
    let covered := coveredBytes ranges start stop
    let r := mergeLoop start stop ranges
    (r.1, (r.2.2 - r.2.1) - covered)

/-- A range outside `[start, stop)` has no part in it: the filter of `covered` only skips
    zeros. -/
theorem coveredBytes_eq (ranges : List Range) (start stop : Nat) :
    coveredBytes ranges start stop = common ranges start stop := by
  induction ranges with
  | nil => rfl
  | cons r ranges ih =>
    simp only [coveredBytes, common_cons, List.filter_cons] at ih ⊢
    split
    · rw [List.map_cons, List.sum_cons, ih]
    · rename_i h
      simp only [decide_eq_true_eq, not_and, not_lt] at h
      rw [ih]
      omega

/-! ## 2. The list -/

theorem covers_mergeLoop (ns ne : Nat) (l : List Range) (x : Nat) :
    Covers (mergeLoop ns ne l).1 x ↔ Inside x (ns, ne) ∨ Covers l x := by
  induction l generalizing ns ne with
  | nil => simp [mergeLoop_nil]
  | cons r l ih =>
    obtain ⟨s, e⟩ := r
    rw [mergeLoop_cons]
    split
    · simp only [covers_cons, ih]
      tauto
    · split
      · simp only [covers_cons]
      · -- the two ranges touch, so their hull has no byte of its own
        have hull : Inside x (min ns s, max ne e) ↔ Inside x (ns, ne) ∨ Inside x (s, e) := by
          simp only [Inside]
          omega
        rw [ih, covers_cons, hull, or_assoc]

/-- A bound below the new range and below every range of the list is below the result. -/
theorem mergeLoop_lower {c ns ne : Nat} {l : List Range} (hns : c < ns)
    (hl : ∀ r ∈ l, c < r.1) : ∀ r ∈ (mergeLoop ns ne l).1, c < r.1 := by
  induction l generalizing ns ne with
  | nil => simpa [mergeLoop_nil] using hns
  | cons r l ih =>
    obtain ⟨s, e⟩ := r
    rw [List.forall_mem_cons] at hl
    rw [mergeLoop_cons]
    split
    · exact List.forall_mem_cons.mpr ⟨hl.1, ih hns hl.2⟩
    · split
      · exact List.forall_mem_cons.mpr ⟨hns, List.forall_mem_cons.mpr hl⟩
      · exact ih (lt_min hns hl.1) hl.2

theorem tidy_mergeLoop {ns ne : Nat} {l : List Range} (hne : ns < ne) (hl : Tidy l) :
    Tidy (mergeLoop ns ne l).1 := by
  induction l generalizing ns ne with
  | nil => simpa [mergeLoop_nil] using hne
  | cons r l ih =>
    obtain ⟨s, e⟩ := r
    obtain ⟨hse, hgap, hl'⟩ := (tidy_cons _ _).mp hl
    rw [mergeLoop_cons]
    split
    · rename_i h
      exact (tidy_cons _ _).mpr ⟨hse, mergeLoop_lower h hgap, ih hne hl'⟩
    · split
      · rename_i h
        refine (tidy_cons _ _).mpr ⟨hne, List.forall_mem_cons.mpr ⟨h, fun q hq => ?_⟩, hl⟩
        have := hgap q hq
        dsimp only at hse this ⊢
        omega
      · exact ih (lt_of_le_of_lt (min_le_left _ _) (lt_of_lt_of_le hne (le_max_left _ _))) hl'

/-- Merging into a range keeps an upper bound of all ends. -/
theorem mergeLoop_upper {c ns ne : Nat} {l : List Range} (hne : ne ≤ c)
    (hl : ∀ r ∈ l, r.2 ≤ c) : ∀ r ∈ (mergeLoop ns ne l).1, r.2 ≤ c := by
  induction l generalizing ns ne with
  | nil => simpa [mergeLoop_nil] using hne
  | cons r l ih =>
    obtain ⟨s, e⟩ := r
    rw [List.forall_mem_cons] at hl
    rw [mergeLoop_cons]
    split
    · exact List.forall_mem_cons.mpr ⟨hl.1, ih hne hl.2⟩
    · split
      · exact List.forall_mem_cons.mpr ⟨hne, List.forall_mem_cons.mpr hl⟩
      · exact ih (max_le hne hl.1) hl.2

theorem mergeLoop_ne_nil (ns ne : Nat) (l : List Range) : (mergeLoop ns ne l).1 ≠ [] := by
  induction l generalizing ns ne with
  | nil => simp [mergeLoop_nil]
  | cons r l ih =>
    rw [mergeLoop_cons]
    split
    · simp
    · split
      · simp
      · exact ih _ _

/-! ## 3. The length, and the value reported -/

/-- The inserted range starts at or below the new one and ends at or above it. -/
theorem within_mergeLoop (ns ne : Nat) (l : List Range) :
    Within (ns, ne) (mergeLoop ns ne l).2 := by
  induction l generalizing ns ne with
  | nil => exact ⟨le_rfl, le_rfl⟩
  | cons r l ih =>
    rw [mergeLoop_cons]
    split
    · exact ih ns ne
    · split
      · exact ⟨le_rfl, le_rfl⟩
      · exact ⟨le_trans (ih _ _).1 (min_le_left _ _), le_trans (le_max_left _ _) (ih _ _).2⟩

/-- The inserted range ends where the new range or a merged one ends. -/
theorem mergeLoop_snd_upper (ns : Nat) {c ne : Nat} {l : List Range} (hne : ne ≤ c)
    (hl : ∀ r ∈ l, r.2 ≤ c) : (mergeLoop ns ne l).2.2 ≤ c := by
  induction l generalizing ns ne with
  | nil => exact hne
  | cons r l ih =>
    rw [List.forall_mem_cons] at hl
    rw [mergeLoop_cons]
    split
    · exact ih ns hne hl.2
    · split
      · exact hne
      · exact ih _ (max_le hne hl.1) hl.2

/-- The hull of two ranges that overlap or touch, and what both have. -/
theorem hull_add_overlap {s e ns ne : Nat} (hse : s ≤ e) (hne : ns ≤ ne) (h₁ : ns ≤ e)
    (h₂ : s ≤ ne) : (max ne e - min ns s) + (min e ne - max s ns) = (e - s) + (ne - ns) := by
  rcases le_total s ns with hs | hs <;> rcases le_total e ne with he | he <;>
    simp only [hs, he, max_eq_left, max_eq_right, min_eq_left, min_eq_right] <;> omega

/-- What the list gains, plus what it covered before, is the length of the new range. -/
theorem total_mergeLoop {ns ne : Nat} {l : List Range} (hne : ns < ne) (hl : Tidy l) :
    total (mergeLoop ns ne l).1 + common l ns ne = total l + (ne - ns) := by
  induction l generalizing ns ne with
  | nil => simp [mergeLoop_nil]
  | cons r l ih =>
    obtain ⟨s, e⟩ := r
    obtain ⟨hse, hgap, hl'⟩ := (tidy_cons _ _).mp hl
    dsimp only at hse hgap
    rw [mergeLoop_cons, common_cons, total_cons]
    by_cases hskip : e < ns
    · -- the range and the new one have nothing in common
      have hpart : min e ne ≤ max s ns :=
        (min_le_left _ _).trans (hskip.le.trans (le_max_right _ _))
      rw [if_pos hskip, total_cons, Nat.sub_eq_zero_of_le hpart, Nat.zero_add, Nat.add_assoc,
        ih hne hl', Nat.add_assoc]
    · rw [if_neg hskip]
      by_cases hstop : ne < s
      · have hpart : min e ne ≤ max s ns :=
          (min_le_right _ _).trans (hstop.le.trans (le_max_left _ _))
        have h0 : common l ns ne = 0 :=
          common_eq_zero fun q hq => hstop.le.trans (hse.le.trans (hgap q hq).le)
        rw [if_pos hstop, total_cons, total_cons, Nat.sub_eq_zero_of_le hpart, h0, Nat.add_zero,
          Nat.add_comm]
      · rw [if_neg hstop]
        -- ranges past `e` see the hull as they see `[ns, ne)`
        have hc : common l (min ns s) (max ne e) = common l ns ne := by
          rcases le_total e ne with he | he
          · have hpast : ∀ q ∈ l, ns ≤ q.1 := fun q hq => (not_lt.mp hskip).trans (hgap q hq).le
            rw [max_eq_left he]
            exact common_lower (fun q hq => (min_le_left _ _).trans (hpast q hq)) hpast
          · rw [max_eq_right he, common_eq_zero fun q hq => (hgap q hq).le,
              common_eq_zero fun q hq => le_trans he (hgap q hq).le]
        have h := ih (lt_of_le_of_lt (min_le_left ns s) (lt_of_lt_of_le hne (le_max_left ne e))) hl'
        have hull := hull_add_overlap hse.le hne.le (not_lt.mp hskip) (not_lt.mp hstop)
        rw [hc] at h
        rw [Nat.add_left_comm, h, Nat.add_left_comm, Nat.add_comm (min e ne - max s ns), hull,
          Nat.add_left_comm, Nat.add_assoc]

/-- The bytes the inserted range has beyond `[start, stop)`. -/
def mergeExcess (ranges : List Range) (start stop : Nat) : Nat :=
  let r := (mergeLoop start stop ranges).2
  (r.2 - r.1) - (stop - start)

theorem common_le {l : List Range} (a b : Nat) (hl : Tidy l) : common l a b ≤ b - a := by
  induction l generalizing a with
  | nil => simp
  | cons r l ih =>
    obtain ⟨hr, hgap, hl'⟩ := (tidy_cons _ _).mp hl
    rw [common_cons]
    -- the part after `r` starts past `r.2`
    have h : common l a b = common l (max a r.2) b := by
      rcases le_total a r.2 with h | h
      · rw [max_eq_right h]
        exact common_lower (fun q hq => by have := hgap q hq; omega)
          (fun q hq => (hgap q hq).le)
      · rw [max_eq_left h]
    rw [h]
    have h' := ih (max a r.2) hl'
    omega

theorem mergeLoop_snd_ends (ns ne : Nat) (l : List Range) (hl : Tidy l) :
    ((mergeLoop ns ne l).2 = (ns, ne)) ↔ ∀ r ∈ l, Touches r (ns, ne) → Within r (ns, ne) := by
  induction l generalizing ns ne with
  | nil => simp [mergeLoop_nil]
  | cons r l ih =>
    obtain ⟨s, e⟩ := r
    obtain ⟨hse, hgap, hl'⟩ := (tidy_cons _ _).mp hl
    rw [List.forall_mem_cons]
    rw [mergeLoop_cons]
    split
    · rename_i h
      rw [ih ns ne hl']
      refine ⟨fun hr => ⟨fun ht => ?_, hr⟩, fun hr => hr.2⟩
      exact absurd ht.2 (not_le.mpr h)
    · split
      · rename_i h
        refine ⟨fun _ => ⟨fun ht => absurd ht.1 (not_le.mpr h), fun q hq ht => ?_⟩, fun _ => rfl⟩
        have hq' := hgap q hq
        exact absurd ht.1 (not_le.mpr (lt_trans h (lt_trans hse hq')))
      · rename_i h₁ h₂
        have ht : Touches (s, e) (ns, ne) := ⟨not_lt.mp h₂, not_lt.mp h₁⟩
        constructor
        · intro hr
          have hw := within_mergeLoop (min ns s) (max ne e) l
          rw [hr] at hw
          have hw' : Within (s, e) (ns, ne) :=
            ⟨le_trans hw.1 (min_le_right _ _), le_trans (le_max_right _ _) hw.2⟩
          rw [min_eq_left hw'.1, max_eq_left hw'.2] at hr
          exact ⟨fun _ => hw', (ih ns ne hl').mp hr⟩
        · intro h'
          obtain ⟨hr, hl''⟩ := h'
          have hw := hr ht
          rw [min_eq_left hw.1, max_eq_left hw.2]
          exact (ih ns ne hl').mpr hl''

/-- **The reported value is the gain exactly when every range that overlaps or touches
    `[start, stop)` lies inside it.** -/
theorem mergeExcess_eq_zero_iff {ranges : List Range} {start stop : Nat} (hlt : start < stop)
    (hl : Tidy ranges) :
    mergeExcess ranges start stop = 0 ↔
      ∀ r ∈ ranges, Touches r (start, stop) → Within r (start, stop) := by
  rw [← mergeLoop_snd_ends start stop ranges hl]
  have hw := within_mergeLoop start stop ranges
  unfold mergeExcess
  generalize (mergeLoop start stop ranges).2 = r at hw ⊢
  obtain ⟨a, b⟩ := r
  obtain ⟨h₁, h₂⟩ := hw
  dsimp only at h₁ h₂ ⊢
  rw [Prod.mk.injEq]
  omega

section Spec

variable {ranges : List Range} {start stop : Nat}

/-- An empty range leaves the list as it is. -/
theorem mergeRange_of_le (h : stop ≤ start) : mergeRange ranges start stop = (ranges, 0) := if_pos h

theorem mergeRange_of_lt (h : start < stop) :
    mergeRange ranges start stop = ((mergeLoop start stop ranges).1,
      ((mergeLoop start stop ranges).2.2 - (mergeLoop start stop ranges).2.1)
        - common ranges start stop) := by
  rw [← coveredBytes_eq]
  exact if_neg (not_le.mpr h)

/-- The same bytes, and `[start, stop)`. -/
theorem covers_mergeRange (x : Nat) :
    Covers (mergeRange ranges start stop).1 x ↔ Inside x (start, stop) ∨ Covers ranges x := by
  rcases le_or_gt stop start with h | h
  · have hnot : ¬ Inside x (start, stop) := fun hx => absurd (hx.1.trans_lt hx.2) (not_lt.mpr h)
    rw [mergeRange_of_le h, or_iff_right hnot]
  · rw [mergeRange_of_lt h]
    exact covers_mergeLoop _ _ _ _

theorem tidy_mergeRange (hl : Tidy ranges) : Tidy (mergeRange ranges start stop).1 := by
  rcases le_or_gt stop start with h | h
  · rwa [mergeRange_of_le h]
  · rw [mergeRange_of_lt h]
    exact tidy_mergeLoop h hl

theorem mergeRange_upper {c : Nat} (hstop : stop ≤ c) (hl : ∀ r ∈ ranges, r.2 ≤ c) :
    ∀ r ∈ (mergeRange ranges start stop).1, r.2 ≤ c := by
  rcases le_or_gt stop start with h | h
  · rwa [mergeRange_of_le h]
  · rw [mergeRange_of_lt h]
    exact mergeLoop_upper hstop hl

theorem mergeRange_ne_nil (hlt : start < stop) : (mergeRange ranges start stop).1 ≠ [] := by
  rw [mergeRange_of_lt hlt]
  exact mergeLoop_ne_nil _ _ _

/-- The gain in length. -/
theorem total_mergeRange (hlt : start < stop) (hl : Tidy ranges) :
    total (mergeRange ranges start stop).1
      = total ranges + ((stop - start) - common ranges start stop) := by
  have h := total_mergeLoop hlt hl
  have h' := common_le start stop hl
  rw [mergeRange_of_lt hlt]
  dsimp only
  omega

/-- **The value reported is the gain plus the excess.** -/
theorem mergeRange_snd (hlt : start < stop) (hl : Tidy ranges) :
    (mergeRange ranges start stop).2
      = ((stop - start) - common ranges start stop) + mergeExcess ranges start stop := by
  have hw := within_mergeLoop start stop ranges
  have h' := common_le start stop hl
  rw [mergeRange_of_lt hlt]
  unfold mergeExcess
  obtain ⟨h₁, h₂⟩ := hw
  dsimp only at h₁ h₂ ⊢
  omega

end Spec

/-! ## 4. The loop in place -/

/-- The `while` loop with the `insert` after it, on the list itself: `i` is the index of the range
    that is looked at, and a range that is merged in is removed there. -/
def mergeWhile (ranges : List Range) (i newStart newEnd : Nat) : List Range :=
  if h : i < ranges.length then
    let r := ranges[i]
    if r.2 < newStart then mergeWhile ranges (i + 1) newStart newEnd
    else if newEnd < r.1 then ranges.insertIdx i (newStart, newEnd)
    else mergeWhile (ranges.eraseIdx i) i (min newStart r.1) (max newEnd r.2)
  else ranges.insertIdx i (newStart, newEnd)
termination_by ranges.length - i
decreasing_by
  · omega
  · rw [List.length_eraseIdx_of_lt h]
    omega

theorem insertIdx_append {α : Type} (front back : List α) (x : α) :
    (front ++ back).insertIdx front.length x = front ++ x :: back := by
  induction front with
  | nil => exact List.insertIdx_zero
  | cons a front ih => exact congrArg (List.cons a) ih

/-- Behind the ranges that stay in front, the loop in place makes what `mergeLoop` makes. -/
theorem mergeWhile_append (front back : List Range) (ns ne : Nat) :
    mergeWhile (front ++ back) front.length ns ne = front ++ (mergeLoop ns ne back).1 := by
  induction back generalizing front ns ne with
  | nil =>
    rw [mergeWhile, dif_neg (by simp), insertIdx_append, mergeLoop_nil]
  | cons r back ih =>
    obtain ⟨s, e⟩ := r
    have hlt : front.length < (front ++ (s, e) :: back).length := by simp
    have hget : (front ++ (s, e) :: back)[front.length] = (s, e) := by simp
    rw [mergeWhile, dif_pos hlt]
    dsimp only
    rw [hget, mergeLoop_cons]
    by_cases hskip : e < ns
    · -- the range joins those in front
      have hfront : front ++ (s, e) :: back = (front ++ [(s, e)]) ++ back := by simp
      have hlen : front.length + 1 = (front ++ [(s, e)]).length := by simp
      rw [if_pos hskip, if_pos hskip, hfront, hlen, ih]
      simp
    · rw [if_neg hskip, if_neg hskip]
      by_cases hstop : ne < s
      · rw [if_pos hstop, if_pos hstop, insertIdx_append]
      · rw [if_neg hstop, if_neg hstop, List.eraseIdx_append_of_length_le le_rfl, Nat.sub_self,
          List.eraseIdx_cons_zero, ih]

/-- **The loop in place makes the list of `mergeRange`.** -/
theorem mergeRange_fst {ranges : List Range} {start stop : Nat} (hlt : start < stop) :
    (mergeRange ranges start stop).1 = mergeWhile ranges 0 start stop := by
  rw [mergeRange_of_lt hlt]
  exact (mergeWhile_append [] ranges start stop).symm

/-- **A merge into a tidy list leaves a tidy list**, which covers what was covered and
    `[start, stop)`, and nothing else. -/
theorem merge_keeps_tidy {ranges : List Range} {start stop : Nat} (hl : Tidy ranges)
    (hlt : start < stop) :
    Tidy (mergeWhile ranges 0 start stop) ∧
      ∀ x, Covers (mergeWhile ranges 0 start stop) x ↔ Covers ranges x ∨ Inside x (start, stop) := by
  rw [← mergeRange_fst hlt]
  exact ⟨tidy_mergeRange hl, fun x => (covers_mergeRange x).trans or_comm⟩

/-- The new range touches the first and the last of three ranges, and takes all of them in. -/
theorem merge_keeps_tidy_three :
    Tidy (mergeWhile [(0, 10), (20, 30), (40, 50)] 0 10 40) ∧
      ∀ x, Covers (mergeWhile [(0, 10), (20, 30), (40, 50)] 0 10 40) x ↔
        Covers [(0, 10), (20, 30), (40, 50)] x ∨ Inside x (10, 40) :=
  merge_keeps_tidy (by simp) (by decide)

/-- Two adjacent ranges: the second merge reports 20 bytes where 10 are new. -/
example : mergeRange [(0, 10)] 10 20 = ([(0, 20)], 20) := by decide

end Relayfs

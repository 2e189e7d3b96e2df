/-
  File:      Relayfs/Lib/Ranges.lean
  Subject:   LISTS OF HALF-OPEN RANGES over a linear order, and their lengths over `Nat`.

  A range is a pair `(start, stop)` and stands for `start ≤ x < stop`.

  * `Inside`, `Covers` -- one element against a range and against a list of ranges;
  * `Meets` -- two ranges share an element (`meets_iff`); `Touches` -- they meet or are
    adjacent;
  * `Tidy` -- nonempty ranges in ascending order with a gap between neighbours, the shape a
    coalescing set of ranges keeps;
  * `total`, `common` -- the length of a list, and the part of it inside one range.
-/
import Mathlib.Order.Lattice
import Mathlib.Order.MinMax
import Mathlib.Algebra.BigOperators.Group.List.Basic
import Mathlib.Algebra.Order.Ring.Nat
import Mathlib.Data.List.Pairwise

namespace Relayfs.Lib

/-! ## 1. Elements and ranges -/

section Order

variable {α : Type*} [LinearOrder α]

/-- `x` lies in the half-open range `r`. -/
def Inside (x : α) (r : α × α) : Prop := r.1 ≤ x ∧ x < r.2

instance (x : α) (r : α × α) : Decidable (Inside x r) := inferInstanceAs (Decidable (_ ∧ _))

/-- What holds of all numbers of a range can be decided. -/
instance decForallInside (r : Nat × Nat) (P : Nat → Prop) [DecidablePred P] :
    Decidable (∀ x, Inside x r → P x) :=
  decidable_of_iff (∀ x < r.2, r.1 ≤ x → P x)
    ⟨fun h x hx => h x hx.2 hx.1, fun h x hlt hle => h x ⟨hle, hlt⟩⟩

/-- `x` lies in some range of the list. -/
def Covers (l : List (α × α)) (x : α) : Prop := ∃ r ∈ l, Inside x r

instance (l : List (α × α)) (x : α) : Decidable (Covers l x) :=
  inferInstanceAs (Decidable (∃ r ∈ l, _))

@[simp] theorem covers_nil (x : α) : ¬ Covers [] x := by
  intro h
  obtain ⟨r, hr, _⟩ := h
  exact List.not_mem_nil hr

@[simp] theorem covers_cons (r : α × α) (l : List (α × α)) (x : α) :
    Covers (r :: l) x ↔ Inside x r ∨ Covers l x := by
  simp [Covers]

@[simp] theorem covers_append (l l' : List (α × α)) (x : α) :
    Covers (l ++ l') x ↔ Covers l x ∨ Covers l' x := by
  simp only [Covers, List.mem_append, or_and_right, exists_or]

theorem Covers.of_mem {l : List (α × α)} {r : α × α} {x : α} (hr : r ∈ l) (hx : Inside x r) :
    Covers l x := ⟨r, hr, hx⟩

/-- Two ranges share an element. -/
def Meets (a b : α × α) : Prop := a.1 < b.2 ∧ b.1 < a.2

instance (a b : α × α) : Decidable (Meets a b) := inferInstanceAs (Decidable (_ ∧ _))

theorem Meets.symm {a b : α × α} (h : Meets a b) : Meets b a := ⟨h.2, h.1⟩

theorem Meets.of_inside {a b : α × α} {x : α} (ha : Inside x a) (hb : Inside x b) : Meets a b :=
  ⟨lt_of_le_of_lt ha.1 hb.2, lt_of_le_of_lt hb.1 ha.2⟩

/-- For nonempty ranges, to meet is to have a common element. -/
theorem meets_iff {a b : α × α} (ha : a.1 < a.2) (hb : b.1 < b.2) :
    Meets a b ↔ ∃ x, Inside x a ∧ Inside x b := by
  constructor
  · intro h
    obtain ⟨h₁, h₂⟩ := h
    exact ⟨max a.1 b.1, ⟨le_max_left _ _, max_lt ha h₂⟩, ⟨le_max_right _ _, max_lt h₁ hb⟩⟩
  · intro h
    obtain ⟨x, hxa, hxb⟩ := h
    exact Meets.of_inside hxa hxb

/-- Nonempty ranges that pairwise do not meet are distinct. -/
theorem nodup_of_apart {l : List (α × α)} (hpos : ∀ r ∈ l, r.1 < r.2)
    (h : l.Pairwise fun a b => ¬ Meets a b) : l.Nodup := by
  refine List.Pairwise.imp_of_mem (fun {a b} ha _ hab => ?_) h
  intro heq
  subst heq
  exact hab ⟨hpos a ha, hpos a ha⟩

/-- Two ranges meet or are adjacent. -/
def Touches (a b : α × α) : Prop := a.1 ≤ b.2 ∧ b.1 ≤ a.2

instance (a b : α × α) : Decidable (Touches a b) := inferInstanceAs (Decidable (_ ∧ _))

/-- `a` lies wholly inside `b`. -/
def Within (a b : α × α) : Prop := b.1 ≤ a.1 ∧ a.2 ≤ b.2

instance (a b : α × α) : Decidable (Within a b) := inferInstanceAs (Decidable (_ ∧ _))

theorem Inside.within {a b : α × α} {x : α} (hx : Inside x a) (h : Within a b) : Inside x b :=
  ⟨le_trans h.1 hx.1, lt_of_lt_of_le hx.2 h.2⟩

/-! ## 2. Tidy lists -/

/-- **A tidy list**: nonempty ranges, ascending, with a gap between neighbours (so neither
    overlapping nor adjacent). -/
structure Tidy (l : List (α × α)) : Prop where
  nonempty : ∀ r ∈ l, r.1 < r.2
  gap : l.Pairwise fun a b => a.2 < b.1

@[simp] theorem tidy_nil : Tidy ([] : List (α × α)) := ⟨by simp, List.Pairwise.nil⟩

@[simp] theorem tidy_cons (r : α × α) (l : List (α × α)) :
    Tidy (r :: l) ↔ r.1 < r.2 ∧ (∀ q ∈ l, r.2 < q.1) ∧ Tidy l := by
  constructor
  · intro h
    obtain ⟨hg, hl⟩ := List.pairwise_cons.mp h.gap
    exact ⟨h.nonempty r List.mem_cons_self, hg,
      fun q hq => h.nonempty q (List.mem_cons_of_mem _ hq), hl⟩
  · intro h'
    obtain ⟨hr, hg, hl⟩ := h'
    exact ⟨List.forall_mem_cons.mpr ⟨hr, hl.nonempty⟩, List.pairwise_cons.mpr ⟨hg, hl.gap⟩⟩

/-- Two ranges of a tidy list that share an element are the same range. -/
theorem Tidy.eq_of_inside {l : List (α × α)} (h : Tidy l) {a b : α × α} (ha : a ∈ l)
    (hb : b ∈ l) {x : α} (hxa : Inside x a) (hxb : Inside x b) : a = b := by
  by_contra hne
  have hd : l.Pairwise fun a b => ¬ Meets a b ∧ ¬ Meets b a :=
    h.gap.imp fun {p q} hpq =>
      ⟨fun hm => (lt_trans hm.2 hpq).false, fun hm => (lt_trans hm.1 hpq).false⟩
  have hsymm : Std.Symm fun a b : α × α => ¬ Meets a b ∧ ¬ Meets b a := ⟨fun _ _ h => h.symm⟩
  exact (hd.forall ha hb hne).1 (Meets.of_inside hxa hxb)

end Order

/-! ## 3. Lengths -/

/-- The summed lengths of the ranges. -/
def total (l : List (Nat × Nat)) : Nat := (l.map fun r => r.2 - r.1).sum

/-- The summed lengths of the parts of the ranges that lie in `[a, b)`. -/
def common (l : List (Nat × Nat)) (a b : Nat) : Nat :=
  (l.map fun r => min r.2 b - max r.1 a).sum

@[simp] theorem total_nil : total [] = 0 := rfl

@[simp] theorem total_cons (r : Nat × Nat) (l : List (Nat × Nat)) :
    total (r :: l) = (r.2 - r.1) + total l := by
  simp [total]

@[simp] theorem total_append (l l' : List (Nat × Nat)) : total (l ++ l') = total l + total l' := by
  simp [total]

/-- Taking one range out of a duplicate-free list takes its length out of the sum. -/
theorem total_filter_ne {l : List (Nat × Nat)} (hn : l.Nodup) {r : Nat × Nat} (hr : r ∈ l) :
    total (l.filter (· ≠ r)) + (r.2 - r.1) = total l := by
  induction l with
  | nil => exact absurd hr List.not_mem_nil
  | cons q l ih =>
    obtain ⟨hq, hl⟩ := List.nodup_cons.mp hn
    rcases List.mem_cons.mp hr with rfl | hr
    · have hf : l.filter (· ≠ r) = l :=
        List.filter_eq_self.mpr fun a ha => decide_eq_true fun h => hq (h ▸ ha)
      rw [List.filter_cons_of_neg (by simp), hf, total_cons, Nat.add_comm]
    · have hne : q ≠ r := fun h => hq (h ▸ hr)
      rw [List.filter_cons_of_pos (by simpa using hne), total_cons, total_cons, Nat.add_assoc,
        ih hl hr]

@[simp] theorem common_nil (a b : Nat) : common [] a b = 0 := rfl

@[simp] theorem common_cons (r : Nat × Nat) (l : List (Nat × Nat)) (a b : Nat) :
    common (r :: l) a b = (min r.2 b - max r.1 a) + common l a b := by
  simp [common]

/-- Ranges past `b` have nothing in `[a, b)`. -/
theorem common_eq_zero {l : List (Nat × Nat)} {a b : Nat} (h : ∀ r ∈ l, b ≤ r.1) :
    common l a b = 0 := by
  induction l with
  | nil => rfl
  | cons r l ih =>
    rw [List.forall_mem_cons] at h
    have hpart : min r.2 b ≤ max r.1 a := (min_le_right _ _).trans (h.1.trans (le_max_left _ _))
    rw [common_cons, ih h.2, Nat.sub_eq_zero_of_le hpart]

/-- The lower bound does not count for ranges that start past it. -/
theorem common_lower {l : List (Nat × Nat)} {a a' b : Nat} (ha : ∀ r ∈ l, a ≤ r.1)
    (ha' : ∀ r ∈ l, a' ≤ r.1) : common l a b = common l a' b := by
  induction l with
  | nil => rfl
  | cons r l ih =>
    rw [List.forall_mem_cons] at ha ha'
    rw [common_cons, common_cons, ih ha.2 ha'.2, max_eq_left ha.1, max_eq_left ha'.1]

end Relayfs.Lib

/-
  File:      Relayfs/Lib/Worklist.lean
  Subject:   A WORKLIST THROUGH A TREE of places, each a list of names: a place is taken off, and
             some places one name below it are put on.

  * `ToVisit` -- at or below a place of the list;
  * `Apart` -- no place of the list is at or below another one; a turn keeps it (`Apart.expand`);
  * `Passed` -- what a turn leaves behind: the place taken off, and what is below it by a name that
    was not put on (`toVisit_expand`);
  * `card_expand` -- of the branches of a tree that are still to visit, a turn takes one.
-/
import Mathlib.Data.Finset.Card
import Mathlib.Data.Finset.Filter
import Mathlib.Data.List.Infix

namespace Relayfs.Lib

variable {α : Type}

/-- At or below a place of the list. -/
def ToVisit (list : List (List α)) (q : List α) : Prop := ∃ d ∈ list, d <+: q

/-- No place of the list is at or below another one. -/
def Apart (list : List (List α)) : Prop := list.Pairwise fun d e => ¬ d <+: e ∧ ¬ e <+: d

/-- What a turn at `d` leaves behind, where the `names` are put on. -/
def Passed (d : List α) (names : List α) (q : List α) : Prop :=
  d <+: q ∧ ∀ a ∈ names, ¬ d ++ [a] <+: q

/-- The list after a turn at `d`: what was put on last comes first. -/
def expand (d : List α) (names : List α) (rest : List (List α)) : List (List α) :=
  (names.map fun a => d ++ [a]).reverse ++ rest

section Turn

variable {d q : List α} {names : List α} {rest : List (List α)}

theorem mem_expand {p : List α} :
    p ∈ expand d names rest ↔ (∃ a ∈ names, p = d ++ [a]) ∨ p ∈ rest := by
  simp [expand, eq_comm]

theorem not_toVisit_nil (q : List α) : ¬ ToVisit [] q := by
  simp [ToVisit]

theorem toVisit_singleton : ToVisit [d] q ↔ d <+: q := by
  simp [ToVisit]

theorem toVisit_of_mem {p : List α} {list : List (List α)} (h : p ∈ list) (hq : p <+: q) :
    ToVisit list q := ⟨p, h, hq⟩

/-- What is at or below a name below `d` is below `d`. -/
theorem prefix_of_child {a : α} (h : d ++ [a] <+: q) : d <+: q :=
  (List.prefix_append d [a]).trans h

/-- The place taken off is left behind. -/
theorem passed_self (d names : List α) : Passed d names d := by
  refine ⟨List.prefix_rfl, fun a _ hpre => ?_⟩
  have hlen := hpre.length_le
  rw [List.length_append, List.length_singleton] at hlen
  omega

/-- Nothing below the place taken off is below another place of the list. -/
theorem Apart.not_toVisit (h : Apart (d :: rest)) (hq : d <+: q) : ¬ ToVisit rest q := by
  intro hvisit
  obtain ⟨e, he, heq⟩ := hvisit
  obtain ⟨hde, hed⟩ := (List.pairwise_cons.mp h).1 e he
  rcases List.prefix_or_prefix_of_prefix hq heq with hpre | hpre
  · exact hde hpre
  · exact hed hpre

/-- On the way to a place of the list there is none. -/
theorem Apart.not_toVisit_of_prefix (h : Apart (d :: rest)) {p : List α} (hp : p <+: d)
    (hne : p ≠ d) : ¬ ToVisit (d :: rest) p := by
  intro hvisit
  obtain ⟨e, he, hep⟩ := hvisit
  rcases List.mem_cons.mp he with rfl | he
  · exact hne (hp.eq_of_length (Nat.le_antisymm hp.length_le hep.length_le))
  · exact ((List.pairwise_cons.mp h).1 e he).2 (hep.trans hp)

/-- **A turn** leaves behind what it passes, and nothing else. -/
theorem toVisit_expand (h : Apart (d :: rest)) :
    ToVisit (expand d names rest) q ↔ ToVisit (d :: rest) q ∧ ¬ Passed d names q := by
  constructor
  · intro hvisit
    obtain ⟨p, hp, hpq⟩ := hvisit
    rcases mem_expand.mp hp with ⟨a, ha, rfl⟩ | hp
    · exact ⟨toVisit_of_mem List.mem_cons_self (prefix_of_child hpq), fun hpass => hpass.2 a ha hpq⟩
    · refine ⟨toVisit_of_mem (List.mem_cons_of_mem _ hp) hpq, fun hpass => ?_⟩
      exact h.not_toVisit hpass.1 (toVisit_of_mem hp hpq)
  · intro hboth
    obtain ⟨⟨p, hp, hpq⟩, hpass⟩ := hboth
    rcases List.mem_cons.mp hp with rfl | hp
    · by_contra hnone
      refine hpass ⟨hpq, fun a ha hchild => hnone ?_⟩
      exact toVisit_of_mem (mem_expand.mpr (.inl ⟨a, ha, rfl⟩)) hchild
    · exact toVisit_of_mem (mem_expand.mpr (.inr hp)) hpq

/-- **A turn keeps the places apart.** -/
theorem Apart.expand (h : Apart (d :: rest)) (hnames : names.Nodup) :
    Apart (expand d names rest) := by
  unfold Lib.expand
  refine List.pairwise_append.mpr ⟨?_, (List.pairwise_cons.mp h).2, fun p hp e he => ?_⟩
  · rw [List.pairwise_reverse, List.pairwise_map]
    refine hnames.imp fun {a b} hab => ?_
    have hapart : ∀ {x y : α}, x ≠ y → ¬ d ++ [x] <+: d ++ [y] := by
      intro x y hxy hpre
      exact hxy (by simpa using hpre)
    exact ⟨hapart (Ne.symm hab), hapart hab⟩
  · obtain ⟨a, -, rfl⟩ := List.mem_map.mp (List.mem_reverse.mp hp)
    obtain ⟨hde, hed⟩ := (List.pairwise_cons.mp h).1 e he
    refine ⟨fun hpre => hde (prefix_of_child hpre), fun hpre => ?_⟩
    rcases List.prefix_concat_iff.mp hpre with heq | hpre
    · exact hde (heq ▸ List.prefix_append d [a])
    · exact hed hpre

end Turn

open Classical in
/-- **The branches still to visit**: where the names put on are those of the branches one below, a
    turn takes the branch it is at. -/
theorem card_expand {branches : Finset (List α)} {d : List α} {names : List α}
    {rest : List (List α)} (h : Apart (d :: rest)) (hd : d ∈ branches)
    (hnames : ∀ a, a ∈ names ↔ d ++ [a] ∈ branches)
    (hclosed : ∀ p q, p <+: q → q ∈ branches → p ∈ branches) :
    (branches.filter (ToVisit (expand d names rest))).card + 1 =
      (branches.filter (ToVisit (d :: rest))).card := by
  have hpassed : ∀ q ∈ branches, Passed d names q → q = d := by
    intro q hq hpass
    obtain ⟨⟨w, rfl⟩, hnone⟩ := hpass
    cases w with
    | nil => exact List.append_nil d
    | cons a w =>
      have hsplit : d ++ [a] <+: d ++ a :: w := ⟨w, by rw [List.append_assoc]; rfl⟩
      exact absurd hsplit (hnone a ((hnames a).mpr (hclosed _ _ hsplit hq)))
  have hmem : d ∈ branches.filter (ToVisit (d :: rest)) :=
    Finset.mem_filter.mpr ⟨hd, toVisit_of_mem List.mem_cons_self List.prefix_rfl⟩
  have herase : branches.filter (ToVisit (expand d names rest)) =
      (branches.filter (ToVisit (d :: rest))).erase d := by
    ext q
    rw [Finset.mem_erase, Finset.mem_filter, Finset.mem_filter, toVisit_expand h]
    constructor
    · intro hq
      exact ⟨fun heq => hq.2.2 (heq ▸ passed_self d names), hq.1, hq.2.1⟩
    · exact fun hq => ⟨hq.2.1, hq.2.2, fun hpass => hq.1 (hpassed q hq.2.1 hpass)⟩
  rw [herase, Finset.card_erase_add_one hmem]

end Relayfs.Lib

/-
  File:      Relayfs/Lib/Table.lean
  Subject:   FINITE TABLES (`AList` with one value type): rows of a table of lists, and sums
             over a table.

  * `row` -- the list stored under a key, `[]` where the key is absent;
  * `retain` -- the entries that pass a test;
  * `weighBy`, `weigh` -- a sum over all entries, or over their values, with what `insert` and
    `erase` do to it.
-/
import Mathlib.Data.List.AList
import Mathlib.Algebra.BigOperators.Group.List.Basic
import Mathlib.Algebra.Order.Ring.Nat

namespace Relayfs.Lib

/-- A finite table from `κ` to `ν`. -/
abbrev Table (κ ν : Type*) := AList (fun _ : κ => ν)

variable {κ ν : Type*} [DecidableEq κ]

/-! ## 1. Rows -/

/-- The list stored under `k` (`[]` where `k` is absent). -/
def row (t : Table κ (List ν)) (k : κ) : List ν := (t.lookup k).getD []

@[simp] theorem row_empty (k : κ) : row (∅ : Table κ (List ν)) k = [] := by simp [row]

@[simp] theorem row_insert_self (t : Table κ (List ν)) (k : κ) (l : List ν) :
    row (t.insert k l) k = l := by simp [row]

theorem row_insert_ne {k k' : κ} (h : k' ≠ k) (t : Table κ (List ν)) (l : List ν) :
    row (t.insert k l) k' = row t k' := by simp [row, AList.lookup_insert_ne h]

@[simp] theorem row_erase_self (t : Table κ (List ν)) (k : κ) : row (t.erase k) k = [] := by
  simp [row]

theorem row_erase_ne {k k' : κ} (h : k' ≠ k) (t : Table κ (List ν)) :
    row (t.erase k) k' = row t k' := by simp [row, AList.lookup_erase_ne h]

theorem row_of_lookup {t : Table κ (List ν)} {k : κ} {l : List ν} (h : t.lookup k = some l) :
    row t k = l := by simp [row, h]

/-- Erasing an absent key changes nothing. -/
theorem erase_of_lookup_eq_none {t : Table κ ν} {k : κ} (h : t.lookup k = none) :
    t.erase k = t :=
  AList.ext (List.kerase_of_notMem_keys (AList.lookup_eq_none.mp h))

/-- What is found after an erasure was there before. -/
theorem lookup_of_erase {t : Table κ ν} {k k' : κ} {v : ν}
    (h : (t.erase k).lookup k' = some v) : t.lookup k' = some v := by
  by_cases hk : k' = k
  · rw [hk, AList.lookup_erase] at h
    cases h
  · rwa [AList.lookup_erase_ne hk] at h

/-- `retain`: the entries that pass. -/
def retain (p : κ → ν → Bool) (t : Table κ ν) : Table κ ν where
  entries := t.entries.filter fun e => p e.1 e.2
  nodupKeys := t.nodupKeys.sublist List.filter_sublist

/-- What is found after `retain` was there before. -/
theorem lookup_of_retain {p : κ → ν → Bool} {t : Table κ ν} {k : κ} {v : ν}
    (h : (retain p t).lookup k = some v) : t.lookup k = some v := by
  rw [← Option.mem_def, AList.mem_lookup_iff] at h ⊢
  exact List.mem_of_mem_filter h

/-- All rows of a table, one after the other. -/
theorem mem_rows {t : Table κ (List ν)} {x : ν} :
    x ∈ (t.entries.flatMap fun e => e.2) ↔ ∃ k, x ∈ row t k := by
  rw [List.mem_flatMap]
  constructor
  · intro h
    obtain ⟨⟨k, l⟩, he, hx⟩ := h
    exact ⟨k, by rwa [row_of_lookup (AList.mem_lookup_iff.mpr he)]⟩
  · intro h
    obtain ⟨k, hx⟩ := h
    cases hl : t.lookup k with
    | none =>
      rw [row, hl] at hx
      exact absurd hx List.not_mem_nil
    | some l =>
      rw [row_of_lookup hl] at hx
      exact ⟨⟨k, l⟩, AList.mem_lookup_iff.mp hl, hx⟩

/-! ## 2. Sums over a table -/

/-- The sum of `f` over the entries of the table. -/
def weighBy (f : κ → ν → Nat) (t : Table κ ν) : Nat := (t.entries.map fun e => f e.1 e.2).sum

/-- The sum of `f` over the values of the table. -/
def weigh (f : ν → Nat) (t : Table κ ν) : Nat := (t.entries.map fun e => f e.2).sum

omit [DecidableEq κ] in
@[simp] theorem weigh_empty (f : ν → Nat) : weigh f (∅ : Table κ ν) = 0 := rfl

/-- What one key contributes to the sum. -/
theorem sum_kerase (f : κ → ν → Nat) (k : κ) : ∀ l : List (Sigma fun _ : κ => ν),
    ((l.kerase k).map fun e => f e.1 e.2).sum + ((l.dlookup k).elim 0 (f k))
      = (l.map fun e => f e.1 e.2).sum
  | [] => rfl
  | ⟨k', v⟩ :: l => by
      by_cases h : k = k'
      · subst h
        simp [List.kerase_cons_eq, List.dlookup_cons_eq, Nat.add_comm]
      · rw [List.kerase_cons_ne h, List.dlookup_cons_ne l ⟨k', v⟩ h]
        simp only [List.map_cons, List.sum_cons]
        have ih := sum_kerase f k l
        omega

theorem weighBy_erase (f : κ → ν → Nat) (t : Table κ ν) (k : κ) :
    weighBy f (t.erase k) + ((t.lookup k).elim 0 (f k)) = weighBy f t :=
  sum_kerase f k t.entries

theorem weighBy_insert (f : κ → ν → Nat) (t : Table κ ν) (k : κ) (v : ν) :
    weighBy f (t.insert k v) + ((t.lookup k).elim 0 (f k)) = weighBy f t + f k v := by
  have h : weighBy f (t.insert k v) = f k v + weighBy f (t.erase k) := by
    rw [weighBy, AList.entries_insert, List.map_cons, List.sum_cons]
    rfl
  have h' := weighBy_erase f t k
  omega

/-- An entry weighs no more than its table. -/
theorem le_weighBy (f : κ → ν → Nat) {t : Table κ ν} {k : κ} {v : ν} (h : t.lookup k = some v) :
    f k v ≤ weighBy f t := by
  have herase := weighBy_erase f t k
  rw [h, Option.elim_some] at herase
  omega

/-- A table of entries that weigh nothing weighs nothing. -/
theorem weighBy_eq_zero {f : κ → ν → Nat} {t : Table κ ν}
    (h : ∀ k v, t.lookup k = some v → f k v = 0) : weighBy f t = 0 := by
  refine List.sum_eq_zero fun n hn => ?_
  obtain ⟨e, he, rfl⟩ := List.mem_map.mp hn
  exact h e.1 e.2 (AList.mem_lookup_iff.mpr he)

theorem weigh_erase (f : ν → Nat) (t : Table κ ν) (k : κ) :
    weigh f (t.erase k) + ((t.lookup k).elim 0 f) = weigh f t :=
  weighBy_erase (fun _ => f) t k

theorem weigh_insert (f : ν → Nat) (t : Table κ ν) (k : κ) (v : ν) :
    weigh f (t.insert k v) + ((t.lookup k).elim 0 f) = weigh f t + f v :=
  weighBy_insert (fun _ => f) t k v

/-- Where `f` gives the empty list nothing, a row contributes what it weighs. -/
theorem lookup_elim_row {f : List ν → Nat} (h0 : f [] = 0) (t : Table κ (List ν)) (k : κ) :
    ((t.lookup k).elim 0 f) = f (row t k) := by
  cases h : t.lookup k with
  | none => simp [row, h, h0]
  | some l => simp [row, h]

end Relayfs.Lib

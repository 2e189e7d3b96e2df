/-
  File:      Relayfs/Lib/Paging.lean
  Subject:   A LIST READ PAGE BY PAGE, each page from the position at which the last one ended, while
             the list changes between the pages.

  Pages are kept newest first.

  * `Page`, `Chained` -- a page, and pages that follow each other;
  * `skips`, `comesBack` -- how often an element that is to come falls behind the position between
    two pages, and how often one that was passed is before it again;
  * `Chained.balance` -- delivered and skipped, against come back and passed;
  * `delivered_once_iff_balanced` -- at the end of the list.
-/
import Mathlib.Data.List.Nodup
import Mathlib.Algebra.BigOperators.Group.List.Basic
import Mathlib.Algebra.Order.Ring.Nat
import Mathlib.Data.List.Count

namespace Relayfs.Lib

variable {α : Type} [DecidableEq α]

/-! ## 1. Pages -/

/-- **A page**: the list at that time, where the page begins, and how many elements it has. -/
structure Page (α : Type) where
  list : List α
  start : Nat
  count : Nat

namespace Page

/-- Where it ends. -/
def stop (p : Page α) : Nat := p.start + p.count

def items (p : Page α) : List α := (p.list.drop p.start).take p.count

/-- The position of an element. -/
def position (p : Page α) (a : α) : Nat := p.list.idxOf a

/-- An element of the page's list that is there once. -/
structure Has (p : Page α) (a : α) : Prop where
  nodup : p.list.Nodup
  mem : a ∈ p.list

/-- It is on the page exactly if its position is. -/
theorem Has.count_items {p : Page α} {a : α} (h : p.Has a) :
    p.items.count a = if p.start ≤ p.position a ∧ p.position a < p.stop then 1 else 0 := by
  have hlt : p.list.idxOf a < p.list.length := List.idxOf_lt_length_of_mem h.mem
  have hget : p.list[p.list.idxOf a] = a := List.getElem_idxOf hlt
  have hnodup : p.items.Nodup :=
    (h.nodup.sublist (List.drop_sublist _ _)).sublist (List.take_sublist _ _)
  rw [hnodup.count]
  refine if_congr ?_ rfl rfl
  rw [items, List.mem_take_iff_getElem]
  constructor
  · intro h'
    obtain ⟨i, hi, heq⟩ := h'
    rw [List.length_drop] at hi
    rw [List.getElem_drop] at heq
    have hidx : p.list.idxOf a = p.start + i := by
      rw [← heq]
      exact h.nodup.idxOf_getElem _ _
    rw [position, hidx, stop]
    omega
  · intro h'
    obtain ⟨hstart, hstop⟩ := h'
    rw [position] at hstart hstop
    rw [stop] at hstop
    refine ⟨p.list.idxOf a - p.start, ?_, ?_⟩
    · rw [List.length_drop]
      omega
    · rw [List.getElem_drop]
      have hsum : p.start + (p.list.idxOf a - p.start) = p.list.idxOf a := by omega
      simp only [hsum]
      exact hget

end Page

/-! ## 2. Pages that follow each other -/

/-- Each page begins where the last one ended, the first one at 0. -/
def Chained : List (Page α) → Prop
  | [] => True
  | [p] => p.start = 0
  | q :: p :: older => q.start = p.stop ∧ Chained (p :: older)

/-- How often an element falls behind the position between two pages. -/
def skips (a : α) : List (Page α) → Nat
  | q :: p :: older =>
      (if p.stop ≤ p.position a ∧ q.position a < q.start then 1 else 0) + skips a (p :: older)
  | _ => 0

/-- How often one that was passed is before the position again. -/
def comesBack (a : α) : List (Page α) → Nat
  | q :: p :: older =>
      (if p.position a < p.stop ∧ q.start ≤ q.position a then 1 else 0) + comesBack a (p :: older)
  | _ => 0

/-- How often it is delivered. -/
def delivered (a : α) (pages : List (Page α)) : Nat := (pages.map fun p => p.items.count a).sum

/-- **The balance**: an element is passed by the last page, or has come back, as often as it was
    delivered or skipped. -/
theorem Chained.balance {a : α} {q : Page α} {older : List (Page α)} (h : Chained (q :: older))
    (ha : ∀ p ∈ q :: older, p.Has a) :
    delivered a (q :: older) + skips a (q :: older)
      = comesBack a (q :: older) + if q.position a < q.stop then 1 else 0 := by
  induction older generalizing q with
  | nil =>
    have hstart : q.start = 0 := h
    have hone := (ha q List.mem_cons_self).count_items
    simp only [delivered, List.map_cons, List.map_nil, List.sum_cons, List.sum_nil, hone, skips,
      comesBack, hstart]
    simp
  | cons p older ih =>
    obtain ⟨hstart, hrest⟩ := h
    rw [List.forall_mem_cons] at ha
    have hbalance := ih hrest ha.2
    have hone := ha.1.count_items
    have hstop : q.stop = q.start + q.count := rfl
    simp only [delivered, List.map_cons, List.sum_cons, hone, skips, comesBack] at hbalance ⊢
    split_ifs at hbalance ⊢ <;> omega

/-- **An element is delivered exactly once, by the end of the list, exactly when it has fallen
    behind as often as it has come back.** -/
theorem delivered_once_iff_balanced {a : α} {q : Page α} {older : List (Page α)}
    (h : Chained (q :: older)) (ha : ∀ p ∈ q :: older, p.Has a) (hend : q.list.length ≤ q.start) :
    delivered a (q :: older) = 1 ↔ skips a (q :: older) = comesBack a (q :: older) := by
  have hbalance := h.balance ha
  have hlt : q.position a < q.list.length :=
    List.idxOf_lt_length_of_mem (ha q List.mem_cons_self).mem
  have hstop : q.stop = q.start + q.count := rfl
  rw [if_pos (by omega)] at hbalance
  omega

end Relayfs.Lib

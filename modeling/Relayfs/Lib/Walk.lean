/-
  File:      Relayfs/Lib/Walk.lean
  Subject:   A WALK THROUGH A TREE of places, each a list of names: a stack of open places, each with
             the names that have been taken there. The tree may grow under the walk.

  * `Visit`, `WalkMove` -- an open place, and the moves of a walk;
  * `Todo` -- the places still ahead: below an open place, by a name not taken there;
  * `Nested` -- each open place is a taken name of the next one;
  * `WalkMove.todo`, `WalkMove.done` -- nothing comes back, and what was taken is no longer ahead;
  * `todo_enter`, `todo_pass`, `todo_leave` -- what else is no longer ahead;
  * `acc_of_moves` -- a walk that takes from finitely many places ends;
  * `not_acc_of_follows` -- one that can always go on to a state of a kind does not;
  * `Repeats` -- the fronts of a list repeated for ever.
-/
import Mathlib.Data.Finset.Card
import Mathlib.Data.Finset.Filter
import Mathlib.Order.WellFounded

namespace Relayfs.Lib

variable {α : Type}

/-! ## 1. The stack -/

/-- **An open place**, and the names that have been taken there. -/
structure Visit (α : Type) where
  place : List α
  taken : List α

namespace Visit

/-- The place of a name. -/
def child (v : Visit α) (a : α) : List α := v.place ++ [a]

def take (v : Visit α) (a : α) : Visit α := ⟨v.place, a :: v.taken⟩

/-- A place just opened. -/
def fresh (p : List α) : Visit α := ⟨p, []⟩

/-- Ahead of an open place: below it, by a name not taken. -/
def Ahead (v : Visit α) (q : List α) : Prop := ∃ a w, q = v.place ++ a :: w ∧ a ∉ v.taken

theorem Ahead.of_take {v : Visit α} {a : α} {q : List α} (h : (v.take a).Ahead q) : v.Ahead q := by
  obtain ⟨b, w, hq, hb⟩ := h
  exact ⟨b, w, hq, fun hmem => hb (List.mem_cons_of_mem _ hmem)⟩

/-- What a name takes is what is at or below it. -/
theorem Ahead.take_or {v : Visit α} {a : α} {q : List α} (h : v.Ahead q) :
    v.child a <+: q ∨ (v.take a).Ahead q := by
  obtain ⟨b, w, hq, hb⟩ := h
  by_cases hab : b = a
  · subst hab
    exact .inl ⟨w, by rw [hq, child, List.append_assoc, List.singleton_append]⟩
  · refine .inr ⟨b, w, hq, fun hmem => ?_⟩
    exact (List.mem_cons.mp hmem).elim hab hb

/-- Nothing below a taken name is ahead. -/
theorem not_ahead {v : Visit α} {a : α} {q : List α} (ha : a ∈ v.taken) (hq : v.child a <+: q) :
    ¬ v.Ahead q := by
  intro hahead
  obtain ⟨w, rfl⟩ := hq
  obtain ⟨b, w', heq, hb⟩ := hahead
  rw [child, List.append_assoc] at heq
  obtain ⟨rfl, -⟩ := List.cons.inj (List.append_cancel_left heq)
  exact hb ha

/-- What is ahead of a name just opened was ahead. -/
theorem Ahead.of_fresh {v : Visit α} {a : α} {q : List α} (ha : a ∉ v.taken)
    (h : (fresh (v.child a)).Ahead q) : v.Ahead q := by
  obtain ⟨b, w, hq, -⟩ := h
  exact ⟨a, b :: w, by rw [hq, fresh, child, List.append_assoc, List.singleton_append], ha⟩

theorem ahead_child {v : Visit α} {a : α} (ha : a ∉ v.taken) : v.Ahead (v.child a) :=
  ⟨a, [], rfl, ha⟩

/-- A place opened has everything below it ahead. -/
theorem ahead_fresh {p q : List α} (h : p <+: q) (hne : q ≠ p) : (fresh p).Ahead q := by
  obtain ⟨w, rfl⟩ := h
  cases w with
  | nil => exact absurd (List.append_nil p) hne
  | cons a w => exact ⟨a, w, rfl, List.not_mem_nil⟩

theorem not_ahead_self (v : Visit α) : ¬ v.Ahead v.place := by
  intro h
  obtain ⟨a, w, hq, -⟩ := h
  have hlen := congrArg List.length hq
  rw [List.length_append, List.length_cons] at hlen
  omega

end Visit

/-- The places still ahead. -/
def Todo (stack : List (Visit α)) (q : List α) : Prop := ∃ v ∈ stack, v.Ahead q

/-- Each open place is a taken name of the next one. -/
def Nested : List (Visit α) → Prop
  | v :: u :: rest => (∃ a ∈ u.taken, v.place = u.child a) ∧ Nested (u :: rest)
  | _ => True

theorem Nested.tail {v : Visit α} {rest : List (Visit α)} (h : Nested (v :: rest)) :
    Nested rest := by
  cases rest with
  | nil => trivial
  | cons u rest => exact h.2

theorem Nested.take {v : Visit α} {rest : List (Visit α)} (h : Nested (v :: rest)) (a : α) :
    Nested (v.take a :: rest) := by
  cases rest with
  | nil => trivial
  | cons u rest => exact h

/-- Nothing at or below the place on top is ahead of the others. -/
theorem Nested.not_todo {v : Visit α} {rest : List (Visit α)} (h : Nested (v :: rest))
    {q : List α} (hq : v.place <+: q) : ¬ Todo rest q := by
  induction rest generalizing v with
  | nil =>
    intro htodo
    obtain ⟨u, hu, -⟩ := htodo
    cases hu
  | cons u rest ih =>
    obtain ⟨⟨a, ha, hplace⟩, hrest⟩ := h
    rw [hplace] at hq
    intro htodo
    obtain ⟨x, hx, hahead⟩ := htodo
    rcases List.mem_cons.mp hx with rfl | hx
    · exact Visit.not_ahead ha hq hahead
    · exact ih hrest ((List.prefix_append _ _).trans hq) ⟨x, hx, hahead⟩

/-! ## 2. WalkMove -/

/-- **A move**: a name is taken in the place on top, and opened or not; the place on top is left;
    or the walk is given up. `took` is the place taken. -/
inductive WalkMove (took : Option (List α)) : List (Visit α) → List (Visit α) → Prop where
  | enter {v : Visit α} {rest : List (Visit α)} {a : α} (ha : a ∉ v.taken)
      (htook : took = some (v.child a)) :
      WalkMove took (v :: rest) (.fresh (v.child a) :: v.take a :: rest)
  | pass {v : Visit α} {rest : List (Visit α)} {a : α} (ha : a ∉ v.taken)
      (htook : took = some (v.child a)) : WalkMove took (v :: rest) (v.take a :: rest)
  | leave {v : Visit α} {rest : List (Visit α)} (htook : took = none) : WalkMove took (v :: rest) rest
  | stop {v : Visit α} {rest : List (Visit α)} (htook : took = none) : WalkMove took (v :: rest) []

section WalkMove

variable {took : Option (List α)} {stack stack' : List (Visit α)} {q : List α}

theorem WalkMove.nested (h : WalkMove took stack stack') (hn : Nested stack) : Nested stack' := by
  cases h with
  | enter => exact ⟨⟨_, List.mem_cons_self, rfl⟩, hn.take _⟩
  | pass => exact hn.take _
  | leave => exact hn.tail
  | stop => trivial

/-- **Nothing comes back.** -/
theorem WalkMove.todo (h : WalkMove took stack stack') (hq : Todo stack' q) : Todo stack q := by
  obtain ⟨u, hu, hahead⟩ := hq
  cases h with
  | enter ha =>
    rcases List.mem_cons.mp hu with rfl | hu
    · exact ⟨_, List.mem_cons_self, hahead.of_fresh ha⟩
    rcases List.mem_cons.mp hu with rfl | hu
    · exact ⟨_, List.mem_cons_self, hahead.of_take⟩
    · exact ⟨u, List.mem_cons_of_mem _ hu, hahead⟩
  | pass =>
    rcases List.mem_cons.mp hu with rfl | hu
    · exact ⟨_, List.mem_cons_self, hahead.of_take⟩
    · exact ⟨u, List.mem_cons_of_mem _ hu, hahead⟩
  | leave => exact ⟨u, List.mem_cons_of_mem _ hu, hahead⟩
  | stop => cases hu

/-- **What is taken was ahead, and is no longer.** -/
theorem WalkMove.done (h : WalkMove (some q) stack stack') (hn : Nested stack) :
    Todo stack q ∧ ¬ Todo stack' q := by
  have hkeep : ∀ {v : Visit α} {rest : List (Visit α)} {a : α}, Nested (v :: rest) →
      ¬ Todo (v.take a :: rest) (v.child a) := by
    intro v rest a hn htodo
    obtain ⟨u, hu, hahead⟩ := htodo
    rcases List.mem_cons.mp hu with rfl | hu
    · exact Visit.not_ahead List.mem_cons_self (List.prefix_refl _) hahead
    · exact hn.not_todo (List.prefix_append _ _) ⟨u, hu, hahead⟩
  cases h with
  | enter ha htook =>
    obtain rfl := Option.some.inj htook
    refine ⟨⟨_, List.mem_cons_self, Visit.ahead_child ha⟩, fun htodo => ?_⟩
    obtain ⟨u, hu, hahead⟩ := htodo
    rcases List.mem_cons.mp hu with rfl | hu
    · exact Visit.not_ahead_self _ hahead
    · exact hkeep hn ⟨u, hu, hahead⟩
  | pass ha htook =>
    obtain rfl := Option.some.inj htook
    exact ⟨⟨_, List.mem_cons_self, Visit.ahead_child ha⟩, hkeep hn⟩
  | leave htook => cases htook
  | stop htook => cases htook

/-! What a move takes away. -/

theorem todo_enter {v : Visit α} {rest : List (Visit α)} {a : α} (h : Todo (v :: rest) q) :
    q = v.child a ∨ Todo (.fresh (v.child a) :: v.take a :: rest) q := by
  obtain ⟨u, hu, hahead⟩ := h
  rcases List.mem_cons.mp hu with rfl | hu
  · by_cases hq : q = u.child a
    · exact .inl hq
    rcases hahead.take_or (a := a) with hbelow | hrest
    · exact .inr ⟨_, List.mem_cons_self, Visit.ahead_fresh hbelow hq⟩
    · exact .inr ⟨_, List.mem_cons_of_mem _ List.mem_cons_self, hrest⟩
  · exact .inr ⟨u, List.mem_cons_of_mem _ (List.mem_cons_of_mem _ hu), hahead⟩

theorem todo_pass {v : Visit α} {rest : List (Visit α)} {a : α} (h : Todo (v :: rest) q) :
    v.child a <+: q ∨ Todo (v.take a :: rest) q := by
  obtain ⟨u, hu, hahead⟩ := h
  rcases List.mem_cons.mp hu with rfl | hu
  · exact hahead.take_or.imp id fun hrest => ⟨_, List.mem_cons_self, hrest⟩
  · exact .inr ⟨u, List.mem_cons_of_mem _ hu, hahead⟩

theorem todo_leave {v : Visit α} {rest : List (Visit α)} (h : Todo (v :: rest) q) :
    v.Ahead q ∨ Todo rest q := by
  obtain ⟨u, hu, hahead⟩ := h
  rcases List.mem_cons.mp hu with rfl | hu
  · exact .inl hahead
  · exact .inr ⟨u, hu, hahead⟩

end WalkMove

/-! ## 3. Walks that end, and walks that do not -/

section Ends

variable {σ : Type} {Step : σ → σ → Prop}

open Classical in
/-- How much a walk has ahead in a set of places. -/
noncomputable def ahead (U : Finset (List α)) (stack : List (Visit α)) : Nat :=
  2 * (U.filter fun q => Todo stack q).card + stack.length

/-- **A move has less ahead.** -/
theorem WalkMove.ahead_lt {took : Option (List α)} {before after : List (Visit α)}
    (h : WalkMove took before after) (hn : Nested before) {U : Finset (List α)}
    (hU : ∀ q, took = some q → q ∈ U) : ahead U after < ahead U before := by
  classical
  have hsub : (U.filter fun q => Todo after q) ⊆ U.filter fun q => Todo before q :=
    Finset.monotone_filter_right _ fun q _ hq => h.todo hq
  have hle := Finset.card_le_card hsub
  have hlt : ∀ q, took = some q →
      (U.filter fun q => Todo after q).card < (U.filter fun q => Todo before q).card := by
    intro q htook
    subst htook
    obtain ⟨htodo, hdone⟩ := h.done hn
    refine Finset.card_lt_card (Finset.ssubset_iff_of_subset hsub |>.mpr ⟨q, ?_, ?_⟩)
    · exact Finset.mem_filter.mpr ⟨hU q rfl, htodo⟩
    · exact fun hmem => hdone (Finset.mem_filter.mp hmem).2
  unfold ahead
  cases h with
  | enter ha htook =>
    have hcard := hlt _ htook
    simp only [List.length_cons]
    omega
  | pass ha htook =>
    have hcard := hlt _ htook
    simp only [List.length_cons]
    omega
  | leave =>
    simp only [List.length_cons]
    omega
  | stop =>
    simp only [List.length_cons, List.length_nil]
    omega

/-- **A walk that takes places of a finite set only ends**, however the states go on in which the
    invariant holds. -/
theorem acc_of_moves (stack : σ → List (Visit α)) (Inv : σ → Prop) (U : Finset (List α))
    (hstep : ∀ s t, Inv s → Step s t → Inv t ∧
      ∃ took, WalkMove took (stack s) (stack t) ∧ Nested (stack s) ∧ ∀ q, took = some q → q ∈ U)
    {s : σ} (hs : Inv s) : Acc (fun t s => Step s t) s := by
  induction hn : ahead U (stack s) using Nat.strong_induction_on generalizing s with
  | _ n ih =>
    subst hn
    refine ⟨s, fun t ht => ?_⟩
    obtain ⟨hinv, took, hmoves, hnested, hU⟩ := hstep s t hs ht
    exact ih _ (hmoves.ahead_lt hnested hU) hinv rfl

/-- **A state of a kind that always has a next one of the kind** is no state that ends. -/
theorem not_acc_of_follows {Kind : σ → Prop} (hstep : ∀ s, Kind s → ∃ t, Step s t ∧ Kind t)
    {s : σ} (hs : Kind s) : ¬ Acc (fun t s => Step s t) s := by
  intro hacc
  induction hacc with
  | intro s _ ih =>
    obtain ⟨t, ht, hkind⟩ := hstep s hs
    exact ih t ht hkind

end Ends

/-! ## 4. A list repeated -/

/-- A front of `k` repeated. -/
def Repeats (k w : List α) : Prop := ∃ n, w <+: (List.replicate n k).flatten

section Repeats

variable {k w v : List α}

theorem repeats_nil (k : List α) : Repeats k [] := ⟨0, List.nil_prefix⟩

theorem Repeats.of_front (h : Repeats k w) (hv : v <+: w) : Repeats k v := by
  obtain ⟨n, hw⟩ := h
  exact ⟨n, hv.trans hw⟩

theorem Repeats.append (h : Repeats k w) : Repeats k (k ++ w) := by
  obtain ⟨n, hw⟩ := h
  refine ⟨n + 1, ?_⟩
  rw [List.replicate_succ, List.flatten_cons]
  exact (List.prefix_append_right_inj k).mpr hw

theorem flatten_replicate_front (k : List α) {m n : Nat} (h : m ≤ n) :
    (List.replicate m k).flatten <+: (List.replicate n k).flatten := by
  obtain ⟨d, rfl⟩ := Nat.exists_eq_add_of_le h
  rw [List.replicate_add, List.flatten_append]
  exact List.prefix_append _ _

theorem le_length_flatten_replicate (hk : k ≠ []) (n : Nat) :
    n ≤ (List.replicate n k).flatten.length := by
  induction n with
  | zero => exact Nat.zero_le _
  | succ n ih =>
    have hpos : 0 < k.length := List.length_pos_of_ne_nil hk
    rw [List.replicate_succ, List.flatten_cons, List.length_append]
    omega

/-- It is a front of as many copies as are long enough. -/
theorem Repeats.prefix_flatten (h : Repeats k w) {n : Nat}
    (hn : w.length ≤ (List.replicate n k).flatten.length) :
    w <+: (List.replicate n k).flatten := by
  obtain ⟨m, hw⟩ := h
  rcases Nat.le_total m n with hmn | hnm
  · exact hw.trans (flatten_replicate_front k hmn)
  · exact List.prefix_of_prefix_length_le hw (flatten_replicate_front k hnm) hn

/-- **It goes on by one of its own names.** -/
theorem Repeats.next (h : Repeats k w) (hk : k ≠ []) : ∃ a, w ++ [a] <+: k ++ w := by
  have hpre : w <+: k ++ w := by
    obtain ⟨n, hw⟩ := h
    have hlen : w.length ≤ (k ++ w).length := by
      rw [List.length_append]
      omega
    refine List.prefix_of_prefix_length_le ?_
      ((List.prefix_append_right_inj k).mpr hw) hlen
    rw [← List.flatten_cons, ← List.replicate_succ]
    exact hw.trans (flatten_replicate_front k (Nat.le_succ n))
  obtain ⟨z, hz⟩ := hpre
  cases z with
  | nil =>
    have hlen := congrArg List.length hz
    rw [List.append_nil, List.length_append] at hlen
    exact absurd (List.length_eq_zero_iff.mp (by omega)) hk
  | cons a z => exact ⟨a, z, by rw [List.append_assoc, List.singleton_append, hz]⟩

end Repeats

end Relayfs.Lib

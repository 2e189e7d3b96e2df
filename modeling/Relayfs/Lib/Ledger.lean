/-
  File:      Relayfs/Lib/Ledger.lean
  Subject:   THE LEDGER OF ONE ITEM in a work queue whose pieces are claimed and finished.

  A queue hands out pieces of work: items are enqueued, a piece is claimed, and a claimed piece
  finishes with an outcome that either gives it back (`again`) or settles it. `ledger` says what
  a log of such events means for ONE item, chosen by `has` (the pieces that contain it):

      clean -> dirty -> flying p -> done o           (settled)
                 ^          |  \
                 |          |   -> dirty             (given back)
                 +----------+- reflying p -> dirty   (enqueued again in flight)

  A log is `Lawful` when a piece is claimed only while the item is dirty and not in flight,
  and finished only while the item is in flight in that piece. On lawful logs:

  * `ledger_settled`, `settled_of_ledger` -- the item is done with `o` exactly when, since it
    was last enqueued, a piece that contains it was claimed and finished with `o`;
  * `claimed_again` -- between two claims the item was enqueued again or given back.
-/
import Mathlib.Data.List.Basic

namespace Relayfs.Lib

/-- What a queue's log records of a piece of work. -/
inductive WorkEvent (π ω : Type) where
  | enqueued (p : π)
  | claimed (p : π)
  | finished (p : π) (o : ω)
  deriving DecidableEq

/-- What the log means for one item. `reflying` is in flight and dirty again. -/
inductive ItemState (π ω : Type) where
  | clean
  | dirty
  | flying (p : π)
  | reflying (p : π)
  | done (o : ω)
  deriving DecidableEq

namespace ItemState

variable {π ω : Type}

/-- The item waits to be claimed. -/
def isDirty : ItemState π ω → Bool
  | dirty | reflying _ => true
  | _ => false

/-- The piece the item is in flight in. -/
def piece : ItemState π ω → Option π
  | flying p | reflying p => some p
  | _ => none

/-- The item after it is enqueued. -/
def renewed : ItemState π ω → ItemState π ω
  | flying p | reflying p => reflying p
  | _ => dirty

/-- The item after its piece finishes with `o`. -/
def landed (again : ω → Prop) [DecidablePred again] (o : ω) : ItemState π ω → ItemState π ω
  | flying _ => if again o then dirty else done o
  | reflying _ => dirty
  | s => s

theorem renewed_isDirty (s : ItemState π ω) : s.renewed.isDirty = true := by
  cases s <;> rfl

theorem renewed_piece (s : ItemState π ω) : s.renewed.piece = s.piece := by
  cases s <;> rfl

@[simp] theorem renewed_ne_clean (s : ItemState π ω) : s.renewed ≠ clean := by
  cases s <;> exact nofun

@[simp] theorem renewed_ne_flying (s : ItemState π ω) (p : π) : s.renewed ≠ flying p := by
  cases s <;> exact nofun

@[simp] theorem renewed_ne_done (s : ItemState π ω) (o : ω) : s.renewed ≠ done o := by
  cases s <;> exact nofun

section Landed

variable {again : ω → Prop} [DecidablePred again]

@[simp] theorem landed_flying (p : π) (o : ω) :
    (flying p).landed again o = if again o then dirty else done o := rfl

@[simp] theorem landed_reflying (p : π) (o : ω) : (reflying p).landed again o = dirty := rfl

@[simp] theorem landed_ne_flying (s : ItemState π ω) (o : ω) (p : π) :
    s.landed again o ≠ flying p := by
  cases s with
  | flying q =>
    rw [landed_flying]
    split <;> exact nofun
  | _ => exact nofun

@[simp] theorem landed_ne_reflying (s : ItemState π ω) (o : ω) (p : π) :
    s.landed again o ≠ reflying p := by
  cases s with
  | flying q =>
    rw [landed_flying]
    split <;> exact nofun
  | _ => exact nofun

theorem landed_eq_clean {s : ItemState π ω} {o : ω} (h : s.landed again o = clean) :
    s = clean := by
  cases s with
  | flying q =>
    rw [landed_flying] at h
    split at h <;> cases h
  | clean => rfl
  | _ => cases h

/-- An item is done after a finish because it was before, or because the piece it flew in
    finished with that outcome. -/
theorem landed_eq_done {s : ItemState π ω} {o o' : ω} (h : s.landed again o = done o') :
    s = done o' ∨ ((∃ p, s = flying p) ∧ ¬ again o ∧ o = o') := by
  cases s with
  | flying q =>
    rw [landed_flying] at h
    split at h
    · cases h
    · rename_i ho
      exact .inr ⟨⟨q, rfl⟩, ho, done.inj h⟩
  | done o'' => exact .inl h
  | _ => cases h

end Landed

end ItemState

section Ledger

variable {π ω : Type} (has : π → Prop) [DecidablePred has] (again : ω → Prop)
  [DecidablePred again]

/-- What one event does to the item. -/
def nextItem : WorkEvent π ω → ItemState π ω → ItemState π ω
  | .enqueued p, s => if has p then s.renewed else s
  | .claimed p, s => if has p then .flying p else s
  | .finished p o, s => if has p then s.landed again o else s

/-- The state of the item after a log (newest event first). -/
def ledger : List (WorkEvent π ω) → ItemState π ω
  | [] => .clean
  | ev :: log => nextItem has again ev (ledger log)

/-- The event enqueues the item. -/
def Enqueues : WorkEvent π ω → Prop
  | .enqueued p => has p
  | _ => False

instance (ev : WorkEvent π ω) : Decidable (Enqueues has ev) :=
  match ev with
  | .enqueued p => inferInstanceAs (Decidable (has p))
  | .claimed _ => inferInstanceAs (Decidable False)
  | .finished _ _ => inferInstanceAs (Decidable False)

/-- The event gives the item back: it is enqueued, or a piece that contains it finishes with an
    outcome that gives it back. -/
def Renews : WorkEvent π ω → Prop
  | .enqueued p => has p
  | .finished p o => has p ∧ again o
  | .claimed _ => False

/-- The part of a log since the item was last enqueued. -/
def sinceEnqueue (log : List (WorkEvent π ω)) : List (WorkEvent π ω) :=
  log.takeWhile fun ev => ¬ Enqueues has ev

/-- Since the item was last enqueued, a piece that contains it was claimed and then finished
    with `o`. -/
def SettledBy (o : ω) (log : List (WorkEvent π ω)) : Prop :=
  ∃ p, has p ∧ List.Sublist [.finished p o, .claimed p] (sinceEnqueue has log)

/-- **A lawful log**: claims only of pieces whose items are dirty and not in flight, finishes
    only of the piece in flight. -/
def Lawful : List (WorkEvent π ω) → Prop
  | [] => True
  | ev :: log =>
      (match ev with
        | .enqueued _ => True
        | .claimed p => has p → ledger has again log = .dirty
        | .finished p _ => has p → (ledger has again log).piece = some p) ∧ Lawful log

variable {has again}

@[simp] theorem ledger_cons (ev : WorkEvent π ω) (log : List (WorkEvent π ω)) :
    ledger has again (ev :: log) = nextItem has again ev (ledger has again log) := rfl

theorem nextItem_enqueued (p : π) (s : ItemState π ω) :
    nextItem has again (.enqueued p) s = if has p then s.renewed else s := rfl

theorem nextItem_claimed (p : π) (s : ItemState π ω) :
    nextItem has again (.claimed p) s = if has p then .flying p else s := rfl

theorem nextItem_finished (p : π) (o : ω) (s : ItemState π ω) :
    nextItem has again (.finished p o) s = if has p then s.landed again o else s := rfl

omit [DecidablePred has] in
@[simp] theorem enqueues_enqueued (p : π) :
    Enqueues (ω := ω) has (.enqueued p) ↔ has p := Iff.rfl

omit [DecidablePred has] in
@[simp] theorem not_enqueues_claimed (p : π) : ¬ Enqueues (ω := ω) has (.claimed p) := id

omit [DecidablePred has] in
@[simp] theorem not_enqueues_finished (p : π) (o : ω) : ¬ Enqueues has (.finished p o) := id

theorem sinceEnqueue_cons_of {ev : WorkEvent π ω} (h : ¬ Enqueues has ev)
    (log : List (WorkEvent π ω)) : sinceEnqueue has (ev :: log) = ev :: sinceEnqueue has log := by
  simp [sinceEnqueue, h]

theorem sinceEnqueue_cons_enqueues {ev : WorkEvent π ω} (h : Enqueues has ev)
    (log : List (WorkEvent π ω)) : sinceEnqueue has (ev :: log) = [] := by
  simp [sinceEnqueue, h]

theorem SettledBy.cons {ev : WorkEvent π ω} {log : List (WorkEvent π ω)} {o : ω}
    (h : SettledBy has o log) (hev : ¬ Enqueues has ev) : SettledBy has o (ev :: log) := by
  obtain ⟨p, hp, hs⟩ := h
  refine ⟨p, hp, ?_⟩
  rw [sinceEnqueue_cons_of hev]
  exact hs.cons _

/-- An item settled by `o` has a finish with `o` in the log. -/
theorem SettledBy.finished_mem {log : List (WorkEvent π ω)} {o : ω} (h : SettledBy has o log) :
    ∃ p, .finished p o ∈ log := by
  obtain ⟨p, _, hs⟩ := h
  exact ⟨p, (List.takeWhile_sublist _).subset (hs.subset List.mem_cons_self)⟩

/-! ## 1. What the state says about the log -/

/-- An item in flight, and not enqueued since, was claimed since it was last enqueued. -/
theorem claimed_of_flying : ∀ {log : List (WorkEvent π ω)} {p : π},
    ledger has again log = .flying p → .claimed p ∈ sinceEnqueue has log ∧ has p
  | [], _, h => nomatch h
  | ev :: log, p, h => by
      have ih := @claimed_of_flying log p
      rw [ledger_cons] at h
      cases ev with
      | enqueued q =>
        by_cases hq : has q
        · rw [nextItem_enqueued, if_pos hq] at h
          exact absurd h (ItemState.renewed_ne_flying _ _)
        · rw [nextItem_enqueued, if_neg hq] at h
          rw [sinceEnqueue_cons_of (mt (enqueues_enqueued _).mp hq)]
          exact ⟨List.mem_cons_of_mem _ (ih h).1, (ih h).2⟩
      | claimed q =>
        rw [sinceEnqueue_cons_of (not_enqueues_claimed _)]
        by_cases hq : has q
        · rw [nextItem_claimed, if_pos hq] at h
          cases h
          exact ⟨List.mem_cons_self, hq⟩
        · rw [nextItem_claimed, if_neg hq] at h
          exact ⟨List.mem_cons_of_mem _ (ih h).1, (ih h).2⟩
      | finished q o =>
        rw [sinceEnqueue_cons_of (not_enqueues_finished _ _)]
        by_cases hq : has q
        · rw [nextItem_finished, if_pos hq] at h
          exact absurd h (ItemState.landed_ne_flying _ _ _)
        · rw [nextItem_finished, if_neg hq] at h
          exact ⟨List.mem_cons_of_mem _ (ih h).1, (ih h).2⟩

/-- An item enqueued while in flight has not been claimed since. -/
theorem not_claimed_of_reflying : ∀ {log : List (WorkEvent π ω)} {p q : π},
    ledger has again log = .reflying p → has q → .claimed q ∉ sinceEnqueue has log
  | [], _, _, h, _ => nomatch h
  | ev :: log, p, q, h, hq => by
      have ih := @not_claimed_of_reflying log p q
      rw [ledger_cons] at h
      cases ev with
      | enqueued r =>
        by_cases hr : has r
        · rw [sinceEnqueue_cons_enqueues ((enqueues_enqueued _).mpr hr)]
          exact List.not_mem_nil
        · rw [nextItem_enqueued, if_neg hr] at h
          rw [sinceEnqueue_cons_of (mt (enqueues_enqueued _).mp hr)]
          simpa using ih h hq
      | claimed r =>
        rw [sinceEnqueue_cons_of (not_enqueues_claimed _)]
        by_cases hr : has r
        · rw [nextItem_claimed, if_pos hr] at h
          cases h
        · rw [nextItem_claimed, if_neg hr] at h
          have hne : q ≠ r := fun e => hr (e ▸ hq)
          simpa [hne] using ih h hq
      | finished r o =>
        rw [sinceEnqueue_cons_of (not_enqueues_finished _ _)]
        by_cases hr : has r
        · rw [nextItem_finished, if_pos hr] at h
          exact absurd h (ItemState.landed_ne_reflying _ _ _)
        · rw [nextItem_finished, if_neg hr] at h
          simpa using ih h hq

/-- An item that is clean was never enqueued. -/
theorem not_enqueued_of_clean : ∀ {log : List (WorkEvent π ω)},
    ledger has again log = .clean → ∀ ev ∈ log, ¬ Enqueues has ev
  | [], _ => by simp
  | ev :: log, h => by
      rw [ledger_cons] at h
      cases ev with
      | enqueued q =>
        by_cases hq : has q
        · rw [nextItem_enqueued, if_pos hq] at h
          exact absurd h (ItemState.renewed_ne_clean _)
        · rw [nextItem_enqueued, if_neg hq] at h
          exact List.forall_mem_cons.mpr ⟨hq, not_enqueued_of_clean h⟩
      | claimed q =>
        by_cases hq : has q
        · rw [nextItem_claimed, if_pos hq] at h
          cases h
        · rw [nextItem_claimed, if_neg hq] at h
          exact List.forall_mem_cons.mpr ⟨not_enqueues_claimed _, not_enqueued_of_clean h⟩
      | finished q o =>
        by_cases hq : has q
        · rw [nextItem_finished, if_pos hq] at h
          exact List.forall_mem_cons.mpr
            ⟨not_enqueues_finished _ _, not_enqueued_of_clean (ItemState.landed_eq_clean h)⟩
        · rw [nextItem_finished, if_neg hq] at h
          exact List.forall_mem_cons.mpr ⟨not_enqueues_finished _ _, not_enqueued_of_clean h⟩

/-- **A done item was settled since it was last enqueued**, by an outcome that does not give it
    back. -/
theorem settled_of_ledger : ∀ {log : List (WorkEvent π ω)} {o : ω}, Lawful has again log →
    ledger has again log = .done o → ¬ again o ∧ SettledBy has o log
  | [], _, _, h => nomatch h
  | ev :: log, o, ⟨hev, hl⟩, h => by
      have ih := @settled_of_ledger log o hl
      rw [ledger_cons] at h
      cases ev with
      | enqueued q =>
        by_cases hq : has q
        · rw [nextItem_enqueued, if_pos hq] at h
          exact absurd h (ItemState.renewed_ne_done _ _)
        · rw [nextItem_enqueued, if_neg hq] at h
          exact ⟨(ih h).1, (ih h).2.cons hq⟩
      | claimed q =>
        by_cases hq : has q
        · rw [nextItem_claimed, if_pos hq] at h
          cases h
        · rw [nextItem_claimed, if_neg hq] at h
          exact ⟨(ih h).1, (ih h).2.cons (not_enqueues_claimed _)⟩
      | finished q o' =>
        by_cases hq : has q
        · have hpiece := hev hq
          rw [nextItem_finished, if_pos hq] at h
          rcases ItemState.landed_eq_done h with h | ⟨⟨r, hr⟩, ha, rfl⟩
          · exact ⟨(ih h).1, (ih h).2.cons (not_enqueues_finished _ _)⟩
          · -- the piece that finishes is the one claimed since the last enqueue
            rw [hr] at hpiece
            cases hpiece
            refine ⟨ha, q, hq, ?_⟩
            rw [sinceEnqueue_cons_of (not_enqueues_finished _ _)]
            exact (List.singleton_sublist.mpr (claimed_of_flying hr).1).cons_cons _
        · rw [nextItem_finished, if_neg hq] at h
          exact ⟨(ih h).1, (ih h).2.cons (not_enqueues_finished _ _)⟩

/-! ## 2. What the log says about the state -/

/-- **An item settled since it was last enqueued is done**, and with that outcome. -/
theorem ledger_settled : ∀ {log : List (WorkEvent π ω)} {o : ω}, Lawful has again log →
    ¬ again o → SettledBy has o log → ledger has again log = .done o
  | [], _, _, _, ⟨_, _, hs⟩ => by simp [sinceEnqueue] at hs
  | ev :: log, o, ⟨hev, hl⟩, ho, ⟨p, hp, hs⟩ => by
      have ih := @ledger_settled log o hl ho
      by_cases he : Enqueues has ev
      · rw [sinceEnqueue_cons_enqueues he] at hs
        simp at hs
      rw [sinceEnqueue_cons_of he] at hs
      rw [ledger_cons]
      -- either the settling lies further back, or this event is its finish
      rcases List.sublist_cons_iff.mp hs with hs | ⟨r, hr, hs⟩
      · have hd := ih ⟨p, hp, hs⟩
        cases ev with
        | enqueued q => rw [nextItem_enqueued, if_neg (mt (enqueues_enqueued _).mpr he), hd]
        | claimed q =>
          by_cases hq : has q
          · have := hev hq
            rw [hd] at this
            cases this
          · rw [nextItem_claimed, if_neg hq, hd]
        | finished q o' =>
          by_cases hq : has q
          · have := hev hq
            rw [hd] at this
            cases this
          · rw [nextItem_finished, if_neg hq, hd]
      · cases hr
        have hpiece := hev hp
        rw [nextItem_finished, if_pos hp]
        cases hst : ledger has again log with
        | flying q => rw [ItemState.landed_flying, if_neg ho]
        | reflying q =>
          exact absurd (List.singleton_sublist.mp hs) (not_claimed_of_reflying hst hp)
        | clean => rw [hst] at hpiece; cases hpiece
        | dirty => rw [hst] at hpiece; cases hpiece
        | done o' => rw [hst] at hpiece; cases hpiece

/-- An item is settled by one outcome only. -/
theorem settledBy_unique {log : List (WorkEvent π ω)} {o o' : ω} (hl : Lawful has again log)
    (ho : ¬ again o) (ho' : ¬ again o') (h : SettledBy has o log) (h' : SettledBy has o' log) :
    o = o' := by
  have e := (ledger_settled hl ho h).symm.trans (ledger_settled hl ho' h')
  exact ItemState.done.inj e

/-- After a claim, and as long as nothing renews the item, it is in flight or done. -/
theorem not_dirty_after_claim : ∀ {l l' : List (WorkEvent π ω)} {p : π},
    Lawful has again (l ++ .claimed p :: l') → has p → (∀ ev ∈ l, ¬ Renews has again ev) →
    (∃ q, ledger has again (l ++ .claimed p :: l') = .flying q) ∨
      ∃ o, ledger has again (l ++ .claimed p :: l') = .done o
  | [], l', p, _, hp, _ => by
      left
      exact ⟨p, by rw [List.nil_append, ledger_cons, nextItem_claimed, if_pos hp]⟩
  | ev :: l, l', p, ⟨hev, hl⟩, hp, hr => by
      rw [List.forall_mem_cons] at hr
      have ih := not_dirty_after_claim hl hp hr.2
      rw [List.cons_append, ledger_cons]
      cases ev with
      | enqueued q =>
        rw [nextItem_enqueued, if_neg (show ¬ has q from hr.1)]
        exact ih
      | claimed q =>
        by_cases hq : has q
        · left
          exact ⟨q, by rw [nextItem_claimed, if_pos hq]⟩
        · rw [nextItem_claimed, if_neg hq]
          exact ih
      | finished q o =>
        by_cases hq : has q
        · have ho : ¬ again o := fun h => hr.1 ⟨hq, h⟩
          rw [nextItem_finished, if_pos hq]
          rcases ih with ⟨r, h⟩ | ⟨o', h⟩
          · right
            exact ⟨o, by rw [h, ItemState.landed_flying, if_neg ho]⟩
          · right
            exact ⟨o', by rw [h]; rfl⟩
        · rw [nextItem_finished, if_neg hq]
          exact ih

/-- **Between two claims of an item it was renewed**: enqueued again, or given back. -/
theorem claimed_again {l₁ l₂ l₃ : List (WorkEvent π ω)} {p q : π}
    (hl : Lawful has again (l₁ ++ .claimed p :: (l₂ ++ .claimed q :: l₃)))
    (hp : has p) (hq : has q) : ∃ ev ∈ l₂, Renews has again ev := by
  by_contra hn
  have hsuffix : ∀ {a b : List (WorkEvent π ω)},
      Lawful has again (a ++ b) → Lawful has again b := by
    intro a b h
    induction a with
    | nil => exact h
    | cons ev a ih => exact ih h.2
  obtain ⟨hc, hl'⟩ := hsuffix hl
  have hd := hc hp
  rcases not_dirty_after_claim hl' hq (fun ev he hr => hn ⟨ev, he, hr⟩) with ⟨r, h⟩ | ⟨o, h⟩
  · rw [hd] at h
    cases h
  · rw [hd] at h
    cases h

end Ledger

end Relayfs.Lib

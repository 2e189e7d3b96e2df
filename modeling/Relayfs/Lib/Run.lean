/-
  File:      Relayfs/Lib/Run.lean
  Subject:   RUNS OF A LABELLED TRANSITION SYSTEM, with their history.

  A run keeps every step it took, newest first, each with the state it started from. The
  rules of this file turn one-step facts into facts about whole runs:

  * `Run.invariant` -- holds at the start, kept by every step: holds at the end;
  * `Run.history_invariant` -- the same for a relation between history and state;
  * `Run.invariant_of_steps` -- the same for steps that meet a condition;
  * `Run.split`, `Run.of_visited` -- a run passes through every state its history names, and
    reaches each of them;
  * `Run.all_states_iff` -- where one step keeps a property EXACTLY when a condition on the
    step holds, a whole run keeps it exactly when all its steps meet the condition;
  * `Run.unwind` -- the unwinding rule for two runs that show an observer the same;
  * `Moves`, `replay`, `Run.of_replay` -- a system that answers each permitted event in one
    way, run on a list of events.
-/
import Mathlib.Data.List.Basic

namespace Relayfs.Lib

universe u v w

variable {σ : Type u} {ε : Type v}

/-- **A run** from a state that `Init` admits. The history holds the steps taken, newest
    first, each as the state it started from and the event it took. -/
inductive Run (Init : σ → Prop) (Step : σ → ε → σ → Prop) : List (σ × ε) → σ → Prop where
  | start {s : σ} (h : Init s) : Run Init Step [] s
  | step {hist : List (σ × ε)} {s s' : σ} {e : ε} (h : Run Init Step hist s)
      (hs : Step s e s') : Run Init Step ((s, e) :: hist) s'

/-- The states a run passes through, newest first. -/
def visited (hist : List (σ × ε)) (s : σ) : List σ := s :: hist.map Prod.fst

@[simp] theorem visited_nil (s : σ) : visited ([] : List (σ × ε)) s = [s] := rfl

@[simp] theorem visited_cons (hist : List (σ × ε)) (s s' : σ) (e : ε) :
    visited ((s, e) :: hist) s' = s' :: visited hist s := rfl

section Rules

variable {Init : σ → Prop} {Step : σ → ε → σ → Prop}

/-- **The invariant rule.** -/
theorem Run.invariant {Inv : σ → Prop} (h0 : ∀ s, Init s → Inv s)
    (hstep : ∀ s e s', Inv s → Step s e s' → Inv s') {hist : List (σ × ε)} {s : σ}
    (h : Run Init Step hist s) : Inv s := by
  induction h with
  | start h => exact h0 _ h
  | step _ hs ih => exact hstep _ _ _ ih hs

/-- **The invariant rule with history**: a relation between history and state that holds at
    the start and that every step keeps. -/
theorem Run.history_invariant {Inv : List (σ × ε) → σ → Prop} (h0 : ∀ s, Init s → Inv [] s)
    (hstep : ∀ hist s e s', Inv hist s → Step s e s' → Inv ((s, e) :: hist) s')
    {hist : List (σ × ε)} {s : σ} (h : Run Init Step hist s) : Inv hist s := by
  induction h with
  | start h => exact h0 _ h
  | step _ hs ih => exact hstep _ _ _ _ ih hs

/-- A run passes through every state its history names, and takes the named step there. -/
theorem Run.split {h₁ h₂ : List (σ × ε)} {s t : σ} {e : ε}
    (h : Run Init Step (h₁ ++ (s, e) :: h₂) t) :
    Run Init Step h₂ s ∧ ∃ s', Step s e s' ∧ s' ∈ visited h₁ t := by
  induction h₁ generalizing t with
  | nil =>
    cases h with
    | step hr hs => exact ⟨hr, t, hs, by simp⟩
  | cons x h₁ ih =>
    cases h with
    | step hr hs =>
      obtain ⟨hr', s', hs', hm⟩ := ih hr
      exact ⟨hr', s', hs', List.mem_cons_of_mem _ hm⟩

/-- A run takes every step of its history from a state it has reached. -/
theorem Run.of_mem {hist : List (σ × ε)} {s : σ} (h : Run Init Step hist s) {x : σ × ε}
    (hx : x ∈ hist) : ∃ earlier, Run Init Step earlier x.1 := by
  obtain ⟨later, earlier, rfl⟩ := List.append_of_mem hx
  exact ⟨earlier, h.split.1⟩

/-- Every state a run passes through is reached by a run. -/
theorem Run.of_visited {hist : List (σ × ε)} {s t : σ} (h : Run Init Step hist s)
    (ht : t ∈ visited hist s) : ∃ earlier, Run Init Step earlier t := by
  rcases List.mem_cons.mp ht with rfl | ht
  · exact ⟨hist, h⟩
  · obtain ⟨x, hx, rfl⟩ := List.mem_map.mp ht
    exact h.of_mem hx

/-- **The invariant rule under a condition on the steps**: where steps that meet `C` keep `Inv`, a
    run of such steps has `Inv` in all its states. -/
theorem Run.invariant_of_steps {Inv : σ → Prop} {C : σ → ε → Prop} (h0 : ∀ s, Init s → Inv s)
    (hstep : ∀ s e s', Inv s → C s e → Step s e s' → Inv s') {hist : List (σ × ε)} {s : σ}
    (h : Run Init Step hist s) (hC : ∀ x ∈ hist, C x.1 x.2) : ∀ t ∈ visited hist s, Inv t := by
  induction h with
  | start h =>
    rw [visited_nil, List.forall_mem_singleton]
    exact h0 _ h
  | @step hist s s' e _ hs ih =>
    rw [List.forall_mem_cons] at hC
    have hall := ih hC.2
    rw [visited_cons, List.forall_mem_cons]
    exact ⟨hstep _ _ _ (hall s List.mem_cons_self) hC.1 hs, hall⟩

/-- **From steps to runs, exactly.** Under an invariant `Inv`, let the property `P` hold at
    the start and let a step from a state with `P` lead to a state with `P` exactly when the
    step meets `C`. Then a run has `P` in all its states exactly when all its steps meet
    `C`. -/
theorem Run.all_states_iff {Inv P : σ → Prop} {C : σ → ε → Prop}
    (hinv0 : ∀ s, Init s → Inv s) (hinv : ∀ s e s', Inv s → Step s e s' → Inv s')
    (h0 : ∀ s, Init s → P s)
    (hstep : ∀ s e s', Inv s → P s → Step s e s' → (P s' ↔ C s e))
    {hist : List (σ × ε)} {s : σ} (h : Run Init Step hist s) :
    (∀ t ∈ visited hist s, P t) ↔ ∀ x ∈ hist, C x.1 x.2 := by
  induction h with
  | start h => simpa using h0 _ h
  | @step hist s s' e hr hs ih =>
    have hI : Inv s := hr.invariant hinv0 hinv
    rw [visited_cons, List.forall_mem_cons, List.forall_mem_cons, ih]
    constructor
    · intro h'
      obtain ⟨hP', hC⟩ := h'
      have hP : P s := ih.mpr hC s List.mem_cons_self
      exact ⟨(hstep _ _ _ hI hP hs).mp hP', hC⟩
    · intro h'
      obtain ⟨hCe, hC⟩ := h'
      have hP : P s := ih.mpr hC s List.mem_cons_self
      exact ⟨(hstep _ _ _ hI hP hs).mpr hCe, hC⟩

end Rules

/-! ## Two runs -/

section Unwind

variable {ν : Type w} {Init : σ → Prop} {Step : σ → ε → σ → Prop} {view : σ × ε → Option ν}

/-- **The unwinding rule.** An observer is shown some steps, as `view` says. A symmetric relation
    of two runs holds of any two that show the same, if it holds at the start, if a step that is
    not shown keeps it, and if two steps that look the same keep it together. -/
theorem Run.unwind {R : List (σ × ε) → σ → List (σ × ε) → σ → Prop}
    (h0 : ∀ s t, Init s → Init t → R [] s [] t)
    (hsymm : ∀ h s g t, R h s g t → R g t h s)
    (hsilent : ∀ h s e s' g t, Run Init Step h s → R h s g t → Step s e s' →
      view (s, e) = none → R ((s, e) :: h) s' g t)
    (hshown : ∀ h s e s' g t f t' v, Run Init Step h s → Run Init Step g t → R h s g t →
      Step s e s' → Step t f t' → view (s, e) = some v → view (t, f) = some v →
        R ((s, e) :: h) s' ((t, f) :: g) t')
    {h : List (σ × ε)} {s : σ} (hs : Run Init Step h s) : ∀ {g : List (σ × ε)} {t : σ},
    Run Init Step g t → h.filterMap view = g.filterMap view → R h s g t := by
  induction hs with
  | start hs =>
    intro g t ht hview
    induction ht with
    | start ht => exact h0 _ _ hs ht
    | @step g t t' f hg hstep ih =>
      cases hv : view (t, f) with
      | none =>
        rw [List.filterMap_cons_none hv] at hview
        exact hsymm _ _ _ _ (hsilent _ _ _ _ _ _ hg (hsymm _ _ _ _ (ih hview)) hstep hv)
      | some v =>
        rw [List.filterMap_cons_some hv] at hview
        cases hview
  | @step h s s' e hh hstep ih =>
    intro g t ht hview
    cases hv : view (s, e) with
    | none =>
      rw [List.filterMap_cons_none hv] at hview
      exact hsilent _ _ _ _ _ _ hh (ih ht hview) hstep hv
    | some v =>
      -- the other run was shown the same step last, and silent steps after it
      rw [List.filterMap_cons_some hv] at hview
      induction ht with
      | start ht => cases hview
      | @step g t t' f hg hstep' ih' =>
        cases hw : view (t, f) with
        | none =>
          rw [List.filterMap_cons_none hw] at hview
          exact hsymm _ _ _ _ (hsilent _ _ _ _ _ _ hg (hsymm _ _ _ _ (ih' hview)) hstep' hw)
        | some w =>
          rw [List.filterMap_cons_some hw] at hview
          obtain ⟨rfl, hrest⟩ := List.cons.inj hview
          exact hshown _ _ _ _ _ _ _ _ _ hh hg (ih hg hrest) hstep hstep' hv hw

end Unwind

/-! ## Systems that answer each event in one way -/

section Moves

variable (ok : σ → ε → Prop) (next : σ → ε → σ)

/-- The step relation of a system that permits some events and answers each in one way. -/
def Moves (s : σ) (e : ε) (s' : σ) : Prop := ok s e ∧ s' = next s e

/-- The history and the last state of the system on a list of events, newest first. -/
def replay (s : σ) : List ε → List (σ × ε) × σ
  | [] => ([], s)
  | e :: es =>
      let r := replay s es
      ((r.2, e) :: r.1, next r.2 e)

/-- The system permits every event of the list. -/
def Permitted (s : σ) : List ε → Prop
  | [] => True
  | e :: es => Permitted s es ∧ ok (replay next s es).2 e

instance Permitted.decidable [∀ s e, Decidable (ok s e)] (s : σ) :
    ∀ es, Decidable (Permitted ok next s es)
  | [] => isTrue trivial
  | _ :: es =>
      have := Permitted.decidable s es
      inferInstanceAs (Decidable (_ ∧ _))

variable {ok next}

theorem Run.of_replay {Init : σ → Prop} {s : σ} (h0 : Init s) : ∀ {es : List ε},
    Permitted ok next s es →
    Run Init (Moves ok next) (replay next s es).1 (replay next s es).2
  | [], _ => .start h0
  | _ :: _, h => .step (Run.of_replay h0 h.1) ⟨h.2, rfl⟩

end Moves

end Relayfs.Lib

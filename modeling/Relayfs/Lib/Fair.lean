/-
  File:      Relayfs/Lib/Fair.lean
  Subject:   INFINITE BEHAVIOURS of a labelled transition system, and what fairness gives.

  A behaviour takes an event or stands still at each moment. Some events belong to an actor; a
  behaviour is fair when an actor that can act again and again does act again and again.

  * `Behaviour.run` -- up to each moment a behaviour is a run, so that invariants of runs hold
    throughout;
  * `Behaviour.eventually` -- the rank rule: a rank that no step raises and that every step of a
    fair actor lowers leads to the goal;
  * `Behaviour.ofReplay` -- the behaviour that takes some events and then stands still.
-/
import Mathlib.Order.Basic
import Relayfs.Lib.Run

namespace Relayfs.Lib

universe u v w

variable {σ : Type u} {ε : Type v} {κ : Type w}

/-- **A behaviour**: the state at each moment, and the event that leads to the next one, if any. -/
structure Behaviour (Init : σ → Prop) (Step : σ → ε → σ → Prop) where
  state : Nat → σ
  event : Nat → Option ε
  starts : Init (state 0)
  steps : ∀ n e, event n = some e → Step (state n) e (state (n + 1))
  stands : ∀ n, event n = none → state (n + 1) = state n

namespace Behaviour

variable {Init : σ → Prop} {Step : σ → ε → σ → Prop} (b : Behaviour Init Step)

/-- Every step of the behaviour meets a condition. -/
def Meets (C : σ → ε → Prop) : Prop := ∀ n e, b.event n = some e → C (b.state n) e

/-- **A behaviour is a run up to each moment**, by steps that meet what its steps meet. -/
theorem run {C : σ → ε → Prop} (hC : b.Meets C) (n : Nat) :
    ∃ hist, Run Init Step hist (b.state n) ∧ ∀ x ∈ hist, C x.1 x.2 := by
  induction n with
  | zero => exact ⟨[], .start b.starts, by simp⟩
  | succ n ih =>
    obtain ⟨hist, hrun, hall⟩ := ih
    cases he : b.event n with
    | none =>
      rw [b.stands n he]
      exact ⟨hist, hrun, hall⟩
    | some e =>
      refine ⟨(b.state n, e) :: hist, hrun.step (b.steps n e he), ?_⟩
      rw [List.forall_mem_cons]
      exact ⟨hC n e he, hall⟩

/-- An invariant holds at each moment. -/
theorem invariant {I : σ → Prop} {C : σ → ε → Prop} (hC : b.Meets C) (h0 : ∀ s, Init s → I s)
    (hstep : ∀ s e s', I s → C s e → Step s e s' → I s') (n : Nat) : I (b.state n) := by
  obtain ⟨hist, hrun, hall⟩ := b.run hC n
  exact hrun.invariant_of_steps h0 hstep hall _ List.mem_cons_self

/-! ## Fairness -/

section Fairness

variable (actor : ε → Option κ)

/-- An actor can take a step of its own. -/
def Enabled (Step : σ → ε → σ → Prop) (k : κ) (s : σ) : Prop :=
  ∃ e s', actor e = some k ∧ Step s e s'

/-- **Fairness**: an actor that can act infinitely often acts infinitely often. -/
def Fair : Prop :=
  ∀ k, (∀ n, ∃ m, n ≤ m ∧ Enabled actor Step k (b.state m)) →
    ∀ n, ∃ m, n ≤ m ∧ ∃ e, b.event m = some e ∧ actor e = some k

variable {b actor}

/-- While the goal is not reached, what holds at `n` with a rank holds later with no larger one. -/
theorem stays_or {P G : Nat → Prop} {r : Nat → Nat}
    (hkeep : ∀ n, P n → G (n + 1) ∨ (P (n + 1) ∧ r (n + 1) ≤ r n)) {n m : Nat}
    (hnm : n ≤ m) (hP : P n) : (∃ i, n ≤ i ∧ G i) ∨ (P m ∧ r m ≤ r n) := by
  induction hnm with
  | refl => exact .inr ⟨hP, Nat.le_refl _⟩
  | @step m hnm ih =>
    rcases ih with hgoal | ⟨hPm, hle⟩
    · exact .inl hgoal
    · rcases hkeep m hPm with hgoal | ⟨hP', hle'⟩
      · exact .inl ⟨m + 1, Nat.le_succ_of_le hnm, hgoal⟩
      · exact .inr ⟨hP', Nat.le_trans hle' hle⟩

/-- **The rank rule.** From `P` on, every step reaches the goal `G` or keeps `P` without raising
    the rank; a step of the actor `k` lowers it; and as long as `P` holds, `k` can act at some later
    moment. Then a fair behaviour reaches `G`. -/
theorem eventually (hfair : b.Fair actor) (k : κ) {P G : Nat → Prop} {r : Nat → Nat}
    (hkeep : ∀ n, P n → G (n + 1) ∨ (P (n + 1) ∧ r (n + 1) ≤ r n))
    (hlower : ∀ n e, b.event n = some e → actor e = some k → P n →
      G (n + 1) ∨ r (n + 1) < r n)
    (hable : ∀ n, P n → ∃ m, n ≤ m ∧ (G m ∨ Enabled actor Step k (b.state m)))
    {n : Nat} (hP : P n) : ∃ m, n ≤ m ∧ G m := by
  by_contra hnever
  -- without the goal `k` can act again and again, and each of its steps lowers the rank
  have hnone : ∀ m, n ≤ m → ¬ G m := fun m hm hG => hnever ⟨m, hm, hG⟩
  have hheld : ∀ m, n ≤ m → P m := fun m hm => by
    rcases stays_or hkeep hm hP with ⟨i, hi, hG⟩ | ⟨hPm, -⟩
    · exact absurd hG (hnone i hi)
    · exact hPm
  have hoften : ∀ i, ∃ m, i ≤ m ∧ Enabled actor Step k (b.state m) := fun i => by
    have hle : n ≤ max n i := Nat.le_max_left _ _
    obtain ⟨m, hm, hG | hen⟩ := hable _ (hheld _ hle)
    · exact absurd hG (hnone m (Nat.le_trans hle hm))
    · exact ⟨m, Nat.le_trans (Nat.le_max_right _ _) hm, hen⟩
  have hacts := hfair k hoften
  have hfall : ∀ v i, n ≤ i → r i = v → False := fun v => by
    induction v using Nat.strongRecOn with
    | ind v ih =>
      intro i hi hv
      obtain ⟨m, hm, e, he, hk⟩ := hacts i
      have hnm : n ≤ m := Nat.le_trans hi hm
      have hle : r m ≤ v := by
        rcases stays_or hkeep hm (hheld i hi) with ⟨j, hj, hG⟩ | ⟨-, hle⟩
        · exact absurd hG (hnone j (Nat.le_trans hi hj))
        · exact Nat.le_trans hle (Nat.le_of_eq hv)
      rcases hlower m e he hk (hheld m hnm) with hG | hlt
      · exact hnone _ (Nat.le_succ_of_le hnm) hG
      · exact ih _ (Nat.lt_of_lt_of_le hlt hle) (m + 1) (Nat.le_succ_of_le hnm) rfl
  exact hfall _ n (Nat.le_refl n) rfl

end Fairness

/-! ## The behaviour of a list of events -/

section OfReplay

variable {ok : σ → ε → Prop} {next : σ → ε → σ}

/-- The system permits the events, oldest first. -/
def Admits (ok : σ → ε → Prop) (next : σ → ε → σ) (s : σ) : List ε → Prop
  | [] => True
  | e :: es => ok s e ∧ Admits ok next (next s e) es

instance Admits.decidable [∀ s e, Decidable (ok s e)] :
    ∀ (s : σ) (es : List ε), Decidable (Admits ok next s es)
  | _, [] => isTrue trivial
  | s, e :: es =>
      have := Admits.decidable (next s e) es
      inferInstanceAs (Decidable (_ ∧ _))

theorem Admits.step {s : σ} {es : List ε} (h : Admits ok next s es) {n : Nat} {e : ε}
    (he : es[n]? = some e) : ok ((es.take n).foldl next s) e := by
  induction es generalizing s n with
  | nil => cases he
  | cons e' es ih =>
    cases n with
    | zero =>
      obtain rfl : e' = e := Option.some.inj he
      exact h.1
    | succ n => exact ih h.2 he

/-- **The behaviour that takes some events and then stands still.** -/
def ofReplay {s : σ} (h0 : Init s) {es : List ε} (h : Admits ok next s es) :
    Behaviour Init (Moves ok next) where
  state n := (es.take n).foldl next s
  event n := es[n]?
  starts := h0
  steps n e he := by
    refine ⟨h.step he, ?_⟩
    rw [List.take_add_one, he, Option.toList_some, List.foldl_append]
    rfl
  stands n he := by
    rw [List.take_add_one, he, Option.toList_none, List.append_nil]

theorem ofReplay_meets {s : σ} (h0 : Init s) {es : List ε} (h : Admits ok next s es)
    {C : σ → ε → Prop} (hC : Admits C next s es) : (ofReplay h0 h).Meets C :=
  fun _ _ he => hC.step he

theorem ofReplay_last {s : σ} (h0 : Init s) {es : List ε} (h : Admits ok next s es) {m : Nat}
    (hm : es.length ≤ m) : (ofReplay h0 h).state m = es.foldl next s := by
  show (es.take m).foldl next s = es.foldl next s
  rw [List.take_of_length_le hm]

/-- It is fair where no actor can act in its last state. -/
theorem ofReplay_fair {actor : ε → Option κ} {s : σ} (h0 : Init s) {es : List ε}
    (h : Admits ok next s es)
    (hlast : ∀ k, ¬ Enabled actor (Moves ok next) k (es.foldl next s)) :
    (ofReplay h0 h).Fair actor := by
  intro k hoften
  obtain ⟨m, hm, hen⟩ := hoften es.length
  rw [ofReplay_last h0 h hm] at hen
  exact absurd hen (hlast k)

end OfReplay

end Behaviour

end Relayfs.Lib

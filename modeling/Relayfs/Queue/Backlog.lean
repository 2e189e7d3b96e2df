/-
  File:      Relayfs/Queue/Backlog.lean
  Subject:   THE BACKLOG COUNTER `dirty_bytes` AGAINST THE REAL BACKLOG, over whole runs.

  `merge_range` returns the length of the range it builds, less what was covered of the range it
  was given. Where the new range touches a dirty range that sticks out of it, the part that
  sticks out is counted a second time.

  * `Claimable.backlog`, `Claims.exact` -- claiming keeps an exact counter exact;
  * `Counted` -- the merge of one step counts what it adds: every dirty range the new range
    touches lies inside it, and the sum fits 64 bits;
  * `backlog_exact_iff` -- the counter is exact in every state of a run exactly when every merge
    of the run is `Counted`;
  * `backlog_overcounted` -- seven sequential writes of 4 MiB are counted as 112 MiB, and
    `wait_below` holds the writer at a backlog of 28 MiB.
-/
import Relayfs.Queue.Run

namespace Relayfs

open Lib

variable {Path : Type} [DecidableEq Path]

/-! ## 1. What a step does to the real backlog -/

/-- The bytes a range adds to dirty ranges. -/
def gain (ranges : List Range) (range : Range) : Nat :=
  (range.2 - range.1) - common ranges range.1 range.2

theorem Claimable.backlog {st : QueueState Path} {path : Path} {piece : Range}
    (hc : Claimable st path piece) :
    (claim st path piece).backlog + (piece.2 - piece.1) = st.backlog := by
  have hrow := hc.total_row
  have hins := weigh_insert total st.dirty path (dropFront piece.2 (row st.dirty path))
  have hera := weigh_erase total st.dirty path
  rw [lookup_elim_row rfl] at hins hera
  unfold QueueState.backlog claim
  dsimp only
  split
  · rename_i hn
    rw [hn, total_nil] at hrow
    omega
  · omega

/-- Claims keep an exact counter exact. -/
theorem Claims.exact {st st' : QueueState Path} {out : List (Path × Range)}
    (h : Claims st out st') (he : st.dirtyBytes = st.backlog) : st'.dirtyBytes = st'.backlog := by
  induction h with
  | done => exact he
  | claim hc _ ih =>
    apply ih
    have hb := hc.backlog
    rw [claim_dirtyBytes]
    omega

/-! ## 2. The counter over a run -/

/-- The range a call merges into the dirty ranges of a path, if it does. -/
def QueueOp.merged : QueueOp Path → Option (Path × Range)
  | .enqueue path start stop => some (path, start, stop)
  | .finish path range .retry _ => some (path, range)
  | _ => none

/-- The merge of a nonempty range is counted exactly: each dirty range it touches lies inside
    it, and the sum fits the counter. -/
def Counted (st : QueueState Path) (path : Path) (range : Range) : Prop :=
  (∀ r ∈ row st.dirty path, Touches r range → Within r range) ∧
    st.backlog + gain (row st.dirty path) range < 2 ^ 64

instance (st : QueueState Path) (path : Path) (range : Range) :
    Decidable (Counted st path range) :=
  inferInstanceAs (Decidable ((∀ r ∈ row st.dirty path, Touches r range → Within r range) ∧ _))

/-- Every merge a call makes is counted exactly. -/
def MergesCounted (c : QueueCfg Path) (op : QueueOp Path) : Prop :=
  ∀ m ∈ op.merged, m.2.1 < m.2.2 → Counted c.st m.1 m.2

instance (c : QueueCfg Path) (op : QueueOp Path) : Decidable (MergesCounted c op) :=
  inferInstanceAs (Decidable (∀ m ∈ op.merged, m.2.1 < m.2.2 → Counted c.st m.1 m.2))

theorem mergeExcess_lt (start : Nat) {ranges : List Range} {stop : Nat} (hstop : stop < 2 ^ 64)
    (hl : ∀ r ∈ ranges, r.2 ≤ 2 ^ 64 - 1) : mergeExcess ranges start stop < 2 ^ 64 := by
  have h := mergeLoop_snd_upper start (show stop ≤ 2 ^ 64 - 1 by omega) hl
  unfold mergeExcess
  dsimp only
  omega

/-- **One merge**: where a step merges a range into the dirty ranges of a path and adds what
    `merge_range` returns to an exact counter, the counter stays exact exactly when the merge is
    counted. -/
theorem counted_iff {st st' : QueueState Path} {path : Path} {start stop : Nat}
    (hd : st'.dirty = st.dirty.insert path (mergeRange (row st.dirty path) start stop).1)
    (hb : st'.dirtyBytes
      = addU64 st.dirtyBytes (mergeRange (row st.dirty path) start stop).2)
    (he : st.dirtyBytes = st.backlog) (hlt : start < stop) (hstop : stop < 2 ^ 64)
    (hl : Tidy (row st.dirty path)) (hends : ∀ r ∈ row st.dirty path, r.2 ≤ 2 ^ 64 - 1) :
    st'.dirtyBytes = st'.backlog ↔ Counted st path (start, stop) := by
  have hback : st'.backlog = st.backlog + gain (row st.dirty path) (start, stop) := by
    have hw := weigh_insert total st.dirty path (mergeRange (row st.dirty path) start stop).1
    rw [lookup_elim_row rfl, total_mergeRange hlt hl, ← hd] at hw
    unfold QueueState.backlog gain
    dsimp only
    omega
  have hx := mergeExcess_lt start hstop hends
  rw [hb, hback, mergeRange_snd hlt hl, he, Counted, ← mergeExcess_eq_zero_iff hlt hl]
  unfold addU64 gain
  dsimp only
  omega

/-- The counter is exact, so `wait_below` passes every writer whose backlog fits the cap. -/
def Exact (c : QueueCfg Path) : Prop :=
  c.st.dirtyBytes = c.st.backlog ∧
    ∀ cap, c.st.backlog ≤ cap → waitBelow c.st cap = true

theorem exact_iff {c : QueueCfg Path} : Exact c ↔ c.st.dirtyBytes = c.st.backlog := by
  refine ⟨And.left, fun h => ⟨h, fun cap hc => ?_⟩⟩
  rw [waitBelow, h]
  exact decide_eq_true hc

/-- **One step**: an exact counter stays exact exactly when the merges of the step are
    counted. -/
theorem exact_step {c c' : QueueCfg Path} {op : QueueOp Path} (hi : CfgInv c)
    (he : c.st.dirtyBytes = c.st.backlog) (hs : QueueStep c op c') :
    c'.st.dirtyBytes = c'.st.backlog ↔ MergesCounted c op := by
  obtain ⟨hok, rfl⟩ := hs
  cases op with
  | enqueue path start stop =>
    have hm : MergesCounted c (.enqueue path start stop) ↔
        (start < stop → Counted c.st path (start, stop)) := by
      simp [MergesCounted, QueueOp.merged]
    rw [hm]
    by_cases hlt : start < stop
    · rw [forall_prop_of_true hlt]
      exact counted_iff (enqueue_dirty _ _ hlt) (enqueue_dirtyBytes _ _ hlt) he hlt hok
        (hi.queue.tidy path) (hi.queue.ends path)
    · -- an empty range is not merged
      have hst : enqueue c.st path start stop = c.st := if_pos (Nat.not_lt.mp hlt)
      rw [forall_prop_of_false hlt, QueueCfg.next, hst]
      exact iff_true_intro he
  | takeBatch now paths =>
    have hm : MergesCounted c (.takeBatch now paths) := by
      simp [MergesCounted, QueueOp.merged]
    exact iff_of_true ((hi.queue.takeBatch_claims now paths).exact he) hm
  | finish path range outcome now =>
    have hr := (hi.flying _ _).mp hok
    have hpos := hi.queue.pos path range hr
    have hend := hi.queue.flightEnds path range hr
    by_cases ho : outcome = .retry
    · subst ho
      have hm : MergesCounted c (.finish path range .retry now) ↔
          Counted c.st path range := by
        simp [MergesCounted, QueueOp.merged, hpos]
      rw [hm]
      refine counted_iff ?_ ?_ he hpos (by omega) (hi.queue.tidy path) (hi.queue.ends path)
      · exact (finish_dirty _ _ _ _ _).trans (if_pos rfl)
      · exact (finish_dirtyBytes _ _ _ _ _).trans (if_pos rfl)
    · have hm : MergesCounted c (.finish path range outcome now) := by
        cases outcome <;> simp_all [MergesCounted, QueueOp.merged]
      refine iff_of_true ?_ hm
      simp only [QueueCfg.next, QueueState.backlog, finish_dirtyBytes, finish_dirty, if_neg ho]
      exact he

/-- **The counter over a run.** `dirty_bytes` is the real backlog, and `wait_below` passes every
    writer whose real backlog fits the cap, in every state of a run exactly when every merge of
    the run is counted. -/
theorem backlog_exact_iff {hist : List (QueueCfg Path × QueueOp Path)} {c : QueueCfg Path}
    (h : QueueRun hist c) :
    (∀ d ∈ visited hist c, Exact d) ↔ ∀ x ∈ hist, MergesCounted x.1 x.2 := by
  simp only [exact_iff]
  refine @Run.all_states_iff _ _ QueueInit QueueStep CfgInv
    (fun c => c.st.dirtyBytes = c.st.backlog) MergesCounted
    (fun _ h0 => cfgInv_init h0) (fun _ _ _ hi hs => hi.step hs) (fun c h0 => ?_)
    (fun _ _ _ hi he hs => exact_step hi he hs) _ _ h
  obtain ⟨now, rfl⟩ := h0
  rfl

/-- A writer that rewrites the bytes it wrote and more: the new range covers the dirty one. -/
def rewriteOnce : List (QueueOp Nat) := [.enqueue 0 0 9, .enqueue 0 0 5]

theorem backlog_exact_rewriteOnce :
    Exact (replay QueueCfg.next ⟨.new 0, []⟩ rewriteOnce).2 :=
  (backlog_exact_iff (Run.of_replay ⟨0, rfl⟩ (by decide))).mpr (by decide) _ List.mem_cons_self

/-- Seven sequential writes of 4 MiB while the flusher is in backoff. -/
def sequentialWrites : List (QueueOp Nat) :=
  (List.range 7).reverse.map fun i => .enqueue 0 (chunkMax * i) (chunkMax * (i + 1))

/-- **Counted twice**: the seven writes are a backlog of 28 MiB and are counted as 112 MiB, more
    than the 96 MiB at which `wait_below` holds writers. -/
theorem backlog_overcounted :
    QueueRun (replay QueueCfg.next ⟨.new 0, []⟩ sequentialWrites).1
      (replay QueueCfg.next ⟨.new 0, []⟩ sequentialWrites).2 ∧
    (replay QueueCfg.next ⟨.new 0, []⟩ sequentialWrites).2.st.backlog = 28 * 1024 * 1024 ∧
    (replay QueueCfg.next ⟨.new 0, []⟩ sequentialWrites).2.st.dirtyBytes = 112 * 1024 * 1024 ∧
    waitBelow (replay QueueCfg.next ⟨.new 0, []⟩ sequentialWrites).2.st queueCap = false :=
  ⟨Run.of_replay ⟨0, rfl⟩ (by decide), by decide, by decide, by decide⟩

end Relayfs

/-
  File:      Relayfs/Queue/Progress.lean
  Subject:   THE UPLOAD QUEUE DRAINS: the flusher and the send tasks alone come to an end, and
             nothing is left then.

  A `wait_drain` waits for that while its FUSE request is under way, so that no writer enqueues.

  * `Working` -- a step that makes progress: a batch that claims something, or a finish;
  * `QueueState.load` -- what is left to do: a dirty byte has two steps to go, one in flight has
    one;
  * `CfgInv.load_step` -- progress lowers it, and only a retry raises it again, by one chunk at
    most;
  * `CfgInv.idle_or_works` -- what is left can be worked on;
  * `queue_drains` -- so a `wait_drain` sees the end, unless a send fails.
-/
import Relayfs.Queue.TakeBatch
import Relayfs.Queue.Backlog

namespace Relayfs

open Lib

variable {Path : Type} [DecidableEq Path]

/-! ## 1. Steps that make progress -/

/-- A batch that claims a piece, or the finish of one. -/
def QueueCfg.works (c : QueueCfg Path) : QueueOp Path → Prop
  | .enqueue _ _ _ => False
  | .takeBatch now paths => (takeBatch c.st now paths).2 ≠ []
  | .finish _ _ _ _ => True

/-- **One step of the flusher or of a send task.** -/
def Working (c : QueueCfg Path) (op : QueueOp Path) (c' : QueueCfg Path) : Prop :=
  QueueStep c op c' ∧ c.works op

/-- The step is a send that failed and is tried again. -/
def QueueOp.isRetry : QueueOp Path → Bool
  | .finish _ _ .retry _ => true
  | _ => false

/-- The step is a send that failed. -/
def QueueOp.fails : QueueOp Path → Bool
  | .finish _ _ .retry _ | .finish _ _ .drop _ => true
  | _ => false

/-- How many sends of a history are tried again. -/
def retries (hist : List (QueueCfg Path × QueueOp Path)) : Nat := hist.countP fun x => x.2.isRetry

/-! ## 2. What is left to do -/

/-- **What is left to do**: a dirty byte is to be claimed and to be sent, a byte in flight is to be
    sent. -/
def QueueState.load (st : QueueState Path) : Nat := 2 * st.backlog + st.inflightBytes

/-- Claims take off the backlog what they put in flight. -/
theorem Claims.backlog {st st' : QueueState Path} {out : List (Path × Range)}
    (h : Claims st out st') : st'.backlog + batchBytes out = st.backlog := by
  induction h with
  | done => rfl
  | @claim st st' path piece out hc _ ih =>
    have hback := hc.backlog
    rw [batchBytes_cons]
    omega

/-- A batch of pieces has bytes. -/
theorem Claims.batchBytes_pos {st st' : QueueState Path} {out : List (Path × Range)}
    (h : Claims st out st') (hne : out ≠ []) : 0 < batchBytes out := by
  cases h with
  | done => exact absurd rfl hne
  | claim hc _ =>
    have hpos := hc.pos
    rw [batchBytes_cons]
    omega

/-- Putting a nonempty range back among the dirty ones adds at most its length. -/
theorem QueueInv.backlog_merge {st : QueueState Path} (h : QueueInv st) {path : Path}
    {range : Range} (hpos : range.1 < range.2) :
    weigh total (st.dirty.insert path (mergeRange (row st.dirty path) range.1 range.2).1)
      ≤ st.backlog + (range.2 - range.1) := by
  have hw := weigh_insert total st.dirty path
    (mergeRange (row st.dirty path) range.1 range.2).1
  rw [lookup_elim_row rfl, total_mergeRange hpos (h.tidy path)] at hw
  unfold QueueState.backlog
  omega

/-- **Progress lowers what is left**; a retry raises it by less than it took off before. -/
theorem CfgInv.load_step {c c' : QueueCfg Path} {op : QueueOp Path} (h : CfgInv c)
    (hs : Working c op c') :
    1 + c'.st.load ≤ c.st.load + if op.isRetry then chunkMax + 1 else 0 := by
  obtain ⟨⟨hok, rfl⟩, hwork⟩ := hs
  cases op with
  | enqueue path start stop => exact absurd hwork id
  | takeBatch now paths =>
    have hclaims := h.queue.takeBatch_claims now paths
    have hpos := hclaims.batchBytes_pos hwork
    have hback := hclaims.backlog
    have hflight := hclaims.account.1
    simp only [QueueCfg.next, QueueState.load, QueueOp.isRetry]
    omega
  | finish path range outcome now =>
    have hr : range ∈ row c.st.inflight path := (h.flying path range).mp hok
    have hpos := h.queue.pos path range hr
    have hchunk := h.queue.chunk path range hr
    have hland := h.queue.weigh_land hr
    have hsum := h.queue.flightSum
    have hmerge := @QueueInv.backlog_merge _ _ _ h.queue path range hpos
    have hflight : (finish c.st path range outcome now).inflightBytes + (range.2 - range.1)
        = c.st.inflightBytes := by
      rw [finish_inflightBytes]
      omega
    have hback : (finish c.st path range outcome now).backlog
        = weigh total (finish c.st path range outcome now).dirty := rfl
    rw [finish_dirty] at hback
    simp only [QueueCfg.next, QueueState.load]
    cases outcome with
    | retry =>
      rw [if_pos rfl] at hback
      simp only [QueueOp.isRetry, if_true]
      omega
    | sent =>
      rw [if_neg (by decide)] at hback
      have hsame : weigh total c.st.dirty = c.st.backlog := rfl
      simp only [QueueOp.isRetry, Bool.false_eq_true, if_false]
      omega
    | drop =>
      rw [if_neg (by decide)] at hback
      have hsame : weigh total c.st.dirty = c.st.backlog := rfl
      simp only [QueueOp.isRetry, Bool.false_eq_true, if_false]
      omega

/-! ## 3. What is left can be worked on -/

/-- With nothing in flight no byte is. -/
theorem QueueInv.inflightBytes_zero {st : QueueState Path} (h : QueueInv st)
    (hnone : ∀ p, row st.inflight p = []) : st.inflightBytes = 0 := by
  rw [h.flightSum]
  show weighBy (fun _ => total) st.inflight = 0
  refine weighBy_eq_zero fun q l hl => ?_
  have hnil := hnone q
  rw [row_of_lookup hl] at hnil
  rw [hnil, total_nil]

/-- **Nothing dirty and nothing in flight, or a step that makes progress**: the finish of a piece
    in flight, or else a batch past the backoff. -/
theorem CfgInv.idle_or_works {c : QueueCfg Path} (h : CfgInv c) (hend : BelowEnd c.st) :
    (∀ p, row c.st.dirty p = [] ∧ row c.st.inflight p = []) ∨ ∃ op c', Working c op c' := by
  by_cases hflying : ∃ x, x ∈ c.tasks
  · obtain ⟨⟨path, range⟩, hx⟩ := hflying
    exact .inr ⟨.finish path range .sent 0, _, ⟨hx, rfl⟩, trivial⟩
  · have hnone : ∀ p, row c.st.inflight p = [] := by
      intro p
      refine List.eq_nil_iff_forall_not_mem.mpr fun r hr => ?_
      exact hflying ⟨(p, r), (h.flying p r).mpr hr⟩
    by_cases hdirty : ∃ p, row c.st.dirty p ≠ []
    · obtain ⟨p, hp⟩ := hdirty
      -- no path is blocked, and the whole window is free
      have hfree : p ∉ c.st.blocked := fun hb => h.queue.held p hb (hnone p)
      have hopen := QueueState.openBacklog_pos hfree (h.queue.total_pos hp)
      have hbytes := takeBatch_bytes h.queue hend (List.Perm.refl c.st.dirty.keys)
        (le_refl c.st.retryAfter)
      have hwindow : 0 < writeWindow := by decide
      rw [h.queue.inflightBytes_zero hnone] at hbytes
      refine .inr ⟨.takeBatch c.st.retryAfter c.st.dirty.keys, _, ⟨List.Perm.refl _, rfl⟩, ?_⟩
      intro hnil
      rw [hnil, batchBytes_nil] at hbytes
      omega
    · left
      intro p
      refine ⟨?_, hnone p⟩
      by_contra hp
      exact hdirty ⟨p, hp⟩

/-! ## 4. Runs of such steps -/

/-- A step that makes progress brings no new byte. -/
theorem BelowEnd.working {c c' : QueueCfg Path} {op : QueueOp Path} (hend : BelowEnd c.st)
    (h : CfgInv c) (hs : Working c op c') : BelowEnd c'.st := by
  intro p x hx
  rcases h.pending_of_step hs.1 hx with hx | ⟨start, stop, rfl, -⟩
  · exact hend p x hx
  · exact absurd hs.2 id

/-- Claims are no errors. -/
theorem Claims.errors {st st' : QueueState Path} {out : List (Path × Range)}
    (h : Claims st out st') : st'.errors = st.errors := by
  induction h with
  | done => rfl
  | claim _ _ ih => exact ih

/-- Only a send that fails is counted as an error. -/
theorem CfgInv.errors_step {c c' : QueueCfg Path} {op : QueueOp Path} (h : CfgInv c)
    (hs : Working c op c') (hgood : op.fails = false) : c'.st.errors = c.st.errors := by
  obtain ⟨⟨-, rfl⟩, hwork⟩ := hs
  cases op with
  | enqueue path start stop => exact absurd hwork id
  | takeBatch now paths => exact (h.queue.takeBatch_claims now paths).errors
  | finish path range outcome now =>
    cases outcome with
    | sent => rfl
    | retry => cases hgood
    | drop => cases hgood

/-- A run of such steps from a state. -/
abbrev WorkRun (c : QueueCfg Path) (work : List (QueueCfg Path × QueueOp Path))
    (c' : QueueCfg Path) : Prop :=
  Run (fun d => d = c) Working work c'

section Runs

variable {c c' : QueueCfg Path} {work : List (QueueCfg Path × QueueOp Path)}

/-- Where a run from `c` stands: its steps and what is left to do are paid for by what there was
    to do in `c` and what its retries brought back. -/
def Paid (c : QueueCfg Path) (work : List (QueueCfg Path × QueueOp Path)) (d : QueueCfg Path) :
    Prop :=
  CfgInv d ∧ BelowEnd d.st ∧
    work.length + d.st.load ≤ c.st.load + (chunkMax + 1) * retries work

/-- **The account of a run**: as many steps as it took, less what retries brought back. -/
theorem work_account (h : CfgInv c) (hend : BelowEnd c.st)
    (hw : WorkRun c work c') : Paid c work c' := by
  refine hw.history_invariant ?_ ?_
  · intro d hd
    subst hd
    exact ⟨h, hend, by simp [retries]⟩
  · intro hist d op d' hI hs
    obtain ⟨hd, hdend, hle⟩ := hI
    have hstep := hd.load_step hs
    refine ⟨hd.step hs.1, hdend.working hd hs, ?_⟩
    have hcount : retries ((d, op) :: hist) = retries hist + if op.isRetry then 1 else 0 := by
      rw [retries, List.countP_cons]
      rfl
    rw [hcount, List.length_cons, Nat.mul_add]
    cases hretry : op.isRetry with
    | true =>
      simp only [hretry, if_true] at hstep ⊢
      omega
    | false =>
      simp only [hretry, Bool.false_eq_true, if_false] at hstep ⊢
      omega

/-- While no send fails the error counter stands still. -/
theorem work_errors (h : CfgInv c) (hw : WorkRun c work c')
    (hgood : ∀ x ∈ work, x.2.fails = false) :
    ∀ d ∈ visited work c', d.st.errors = c.st.errors := by
  have hall : ∀ d ∈ visited work c', CfgInv d ∧ d.st.errors = c.st.errors := by
    refine hw.invariant_of_steps (C := fun _ op => op.fails = false) (fun d hd => ?_)
      (fun d op d' hi hop hs => ?_) hgood
    · subst hd
      exact ⟨h, rfl⟩
    · exact ⟨hi.1.step hs.1, (hi.1.errors_step hs hop).trans hi.2⟩
  exact fun d hd => (hall d hd).2

end Runs

/-- A `wait_drain` that has seen no error since its snapshot does not fail. -/
theorem drainLook_ne_eio {st : QueueState Path} {paths : List Path} {startErrors : Nat}
    (h : st.errors = startErrors) : drainLook st paths startErrors ≠ .eio := by
  rw [drainLook, h]
  split
  · exact DrainLook.noConfusion
  · rw [if_neg (Nat.lt_irrefl _)]
    exact DrainLook.noConfusion

/-- **The queue drains.** From any state of any run of the queue the flusher and the send tasks take
    at most two steps a dirty byte, one a byte in flight, and one a byte of a chunk for each retry;
    where none of them can go on, a look of `wait_drain` finds nothing pending, whatever its paths;
    and as long as no send failed, no look of a `wait_drain` that began there fails. -/
theorem queue_drains {hist work : List (QueueCfg Path × QueueOp Path)} {c c' : QueueCfg Path}
    (h : QueueRun hist c) (hfile : ∀ x ∈ hist, x.2.OfFile)
    (hw : WorkRun c work c') :
    work.length ≤ 2 * c.st.backlog + c.st.inflightBytes + (chunkMax + 1) * retries work ∧
    ((∀ op d, ¬ Working c' op d) → ∀ paths errors, drainLook c'.st paths errors = .ok) ∧
    ((∀ x ∈ work, x.2.fails = false) →
      ∀ d ∈ visited work c', ∀ paths, drainLook d.st paths c.st.errors ≠ .eio) := by
  obtain ⟨hc', hend', hle⟩ := work_account h.inv (h.belowEnd hfile) hw
  refine ⟨?_, fun hstuck paths errors => ?_, fun hgood d hd paths => ?_⟩
  · unfold QueueState.load at hle
    omega
  · rcases hc'.idle_or_works hend' with hidle | ⟨op, d, hwork⟩
    · exact drainLook_eq_ok.mpr fun p _ => hidle p
    · exact absurd hwork (hstuck op d)
  · exact drainLook_ne_eio (work_errors h.inv hw hgood d hd)

/-- A write of five bytes, and the batch that claims them. -/
def fiveQueued : QueueCfg Nat := QueueCfg.next ⟨.new 0, []⟩ (.enqueue 0 0 5)

def fiveClaimed : QueueCfg Nat := fiveQueued.next (.takeBatch 0 [0])

/-- They are sent, and nothing is left. -/
theorem queue_drains_five : drainLook (oneWriteEnd .sent).st [0] 0 = .ok := by
  have hrun : QueueRun [(⟨.new 0, []⟩, .enqueue 0 0 5)] fiveQueued :=
    .step (.start ⟨0, rfl⟩) ⟨by decide, rfl⟩
  have hclaim : Working fiveQueued (.takeBatch 0 [0]) fiveClaimed := by
    refine ⟨⟨by decide, rfl⟩, ?_⟩
    show (takeBatch fiveQueued.st 0 [0]).2 ≠ []
    decide
  have hsend : Working fiveClaimed (.finish 0 (0, 5) .sent 0) (oneWriteEnd .sent) :=
    ⟨⟨by decide, rfl⟩, trivial⟩
  have hwork : WorkRun fiveQueued _ (oneWriteEnd .sent) := .step (.step (.start rfl) hclaim) hsend
  refine (queue_drains hrun (by decide) hwork).2.1 (fun op d hs => ?_) [0] 0
  obtain ⟨⟨hok, -⟩, hop⟩ := hs
  cases op with
  | enqueue path start stop => exact hop
  | takeBatch now paths =>
    -- nothing is dirty, so nothing is claimed
    have hnone : (oneWriteEnd .sent).st.dirty.entries = [] := by decide
    refine hop ?_
    rw [takeBatch, if_pos (.inl hnone)]
  | finish path range outcome now =>
    have hnone : (oneWriteEnd .sent).tasks = [] := by decide
    rw [QueueCfg.permits, hnone] at hok
    exact absurd hok List.not_mem_nil

end Relayfs

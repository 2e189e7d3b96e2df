/-
  File:      Relayfs/Queue/Run.lean
  Subject:   RUNS OF THE UPLOAD QUEUE: any interleaving of writers, the flusher and the send
             tasks, and what such a run says about ONE byte of ONE path.

  In one step of the queue (`QueueStep`) a writer enqueues, the flusher takes a batch and spawns
  a send task for each piece, or a send task finishes its piece (once, with any outcome).

  * `CfgInv` -- `QueueInv`, and the running send tasks are exactly the in-flight pieces;
  * `CfgInv.pending_of_step` -- only an enqueue makes bytes dirty or in flight;
  * `Tracks` -- the queue and the ledger of a byte agree: the byte is dirty, and in flight in a
    piece, exactly when its ledger says so;
  * `QueueRun.tracks` -- they agree after every run, and the log of a run is lawful;
  * `no_loss_no_duplication` -- what the ledger's rules then say about the queue;
  * `ranges_consistent` -- how the dirty ranges and the pieces in flight of a path lie.
-/
import Relayfs.Lib.Run
import Relayfs.Lib.Ledger
import Relayfs.Queue.Invariant

namespace Relayfs

open Lib

/-- A call of the queue's API with its arguments. -/
inductive QueueOp (Path : Type) where
  | enqueue (path : Path) (start stop : Nat)
  | takeBatch (now : Nat) (paths : List Path)
  | finish (path : Path) (range : Range) (outcome : SendOutcome) (now : Nat)

variable {Path : Type} [DecidableEq Path]

/-- The queue and the send tasks the flusher has spawned and that still run. -/
structure QueueCfg (Path : Type) [DecidableEq Path] where
  st : QueueState Path
  tasks : List (Path × Range)

/-! ## 1. Steps and runs -/

/-- What a caller of the queue keeps to. Offsets are `u64`; `take_batch` visits the keys of the
    `dirty` map in some order; `finish` is called by a send task that has not finished yet. -/
def QueueCfg.permits (c : QueueCfg Path) : QueueOp Path → Prop
  | .enqueue _ _ stop => stop < 2 ^ 64
  | .takeBatch _ paths => paths.Perm c.st.dirty.keys
  | .finish path range _ _ => (path, range) ∈ c.tasks

instance QueueCfg.decPermits (c : QueueCfg Path) : ∀ op, Decidable (c.permits op)
  | .enqueue _ _ stop => inferInstanceAs (Decidable (stop < 2 ^ 64))
  | .takeBatch _ paths => inferInstanceAs (Decidable (paths.Perm c.st.dirty.keys))
  | .finish path range _ _ => inferInstanceAs (Decidable ((path, range) ∈ c.tasks))

/-- What a call does. -/
def QueueCfg.next (c : QueueCfg Path) : QueueOp Path → QueueCfg Path
  | .enqueue path start stop => ⟨enqueue c.st path start stop, c.tasks⟩
  | .takeBatch now paths =>
      ⟨(takeBatch c.st now paths).1, c.tasks ++ (takeBatch c.st now paths).2⟩
  | .finish path range outcome now =>
      ⟨finish c.st path range outcome now, c.tasks.erase (path, range)⟩

/-- **One step of the queue.** -/
abbrev QueueStep : QueueCfg Path → QueueOp Path → QueueCfg Path → Prop :=
  Moves QueueCfg.permits QueueCfg.next

/-- `UploadQueue::new` before any send task was spawned. -/
def QueueInit (c : QueueCfg Path) : Prop := ∃ now, c = ⟨.new now, []⟩

/-- A run of the queue from `UploadQueue::new`. -/
abbrev QueueRun (hist : List (QueueCfg Path × QueueOp Path)) (c : QueueCfg Path) : Prop :=
  Run QueueInit QueueStep hist c

/-- What the log records of one step, newest event first. -/
def opEvents (c : QueueCfg Path) : QueueOp Path → List (WorkEvent (Path × Range) SendOutcome)
  | .enqueue path start stop => [.enqueued (path, start, stop)]
  | .takeBatch now paths => ((takeBatch c.st now paths).2.map .claimed).reverse
  | .finish path range outcome _ => [.finished (path, range) outcome]

/-- The log of a run, newest event first. -/
def events (hist : List (QueueCfg Path × QueueOp Path)) :
    List (WorkEvent (Path × Range) SendOutcome) :=
  hist.flatMap fun x => opEvents x.1 x.2

@[simp] theorem events_nil : events ([] : List (QueueCfg Path × QueueOp Path)) = [] := rfl

@[simp] theorem events_cons (c : QueueCfg Path) (op : QueueOp Path)
    (hist : List (QueueCfg Path × QueueOp Path)) :
    events ((c, op) :: hist) = opEvents c op ++ events hist := rfl

/-! ## 2. The send tasks are the in-flight pieces -/

/-- **The invariant of a run.** -/
structure CfgInv (c : QueueCfg Path) : Prop where
  queue : QueueInv c.st
  flying : ∀ p r, (p, r) ∈ c.tasks ↔ r ∈ row c.st.inflight p
  nodup : c.tasks.Nodup

theorem mem_inflight_claim {st : QueueState Path} {path : Path} {piece : Range} {p : Path}
    {r : Range} : r ∈ row (claim st path piece).inflight p ↔
      r ∈ row st.inflight p ∨ (p, r) = (path, piece) := by
  by_cases hp : p = path
  · subst hp
    simp [row_inflight_claim_self]
  · simp [row_inflight_claim_ne st hp, hp]

/-- Claiming pieces and spawning their tasks keeps tasks and in-flight pieces the same. -/
theorem Claims.tasks {st st' : QueueState Path} {out : List (Path × Range)}
    (h : Claims st out st') {ts : List (Path × Range)} (hq : QueueInv st)
    (hf : ∀ p r, (p, r) ∈ ts ↔ r ∈ row st.inflight p) (hn : ts.Nodup) :
    (∀ p r, (p, r) ∈ ts ++ out ↔ r ∈ row st'.inflight p) ∧ (ts ++ out).Nodup := by
  induction h generalizing ts with
  | done =>
    rw [List.append_nil]
    exact ⟨hf, hn⟩
  | @claim st st' path piece out hc _ ih =>
    rw [List.append_cons]
    apply ih (hq.claim hc)
    · intro p r
      rw [List.mem_append, List.mem_singleton, mem_inflight_claim, hf]
    · -- the claimed piece is nonempty and dirty on a free path, so it was not in flight
      have hfresh : (path, piece) ∉ ts := fun hm => by
        have hx : Inside piece.1 piece := ⟨le_rfl, hc.pos⟩
        exact hq.free path hc.free piece.1 (hc.dirty hx) (Covers.of_mem ((hf _ _).mp hm) hx)
      rw [List.nodup_append]
      refine ⟨hn, List.nodup_singleton _, fun a ha b hb hab => ?_⟩
      rw [List.mem_singleton] at hb
      exact hfresh (hb ▸ hab ▸ ha)

theorem cfgInv_init {c : QueueCfg Path} (h : QueueInit c) : CfgInv c := by
  obtain ⟨now, rfl⟩ := h
  exact
    { queue := queueInv_new now
      flying := fun p r => by simp [QueueState.new]
      nodup := List.nodup_nil }

theorem CfgInv.step {c c' : QueueCfg Path} {op : QueueOp Path} (h : CfgInv c)
    (hs : QueueStep c op c') : CfgInv c' := by
  obtain ⟨hok, rfl⟩ := hs
  cases op with
  | enqueue path start stop =>
    exact
      { queue := h.queue.enqueue path hok
        flying := fun p r => by simpa [QueueCfg.next] using h.flying p r
        nodup := h.nodup }
  | takeBatch now paths =>
    have hc := h.queue.takeBatch_claims now paths
    obtain ⟨hf, hn⟩ := hc.tasks h.queue h.flying h.nodup
    exact ⟨h.queue.takeBatch now paths, hf, hn⟩
  | finish path range outcome now =>
    have hr := (h.flying _ _).mp hok
    refine ⟨h.queue.finish hr outcome now, fun p r => ?_, h.nodup.erase _⟩
    simp only [QueueCfg.next]
    rw [h.nodup.mem_erase_iff, mem_inflight_finish, h.flying, ne_eq, Prod.mk.injEq]
    tauto

theorem QueueRun.inv {hist : List (QueueCfg Path × QueueOp Path)} {c : QueueCfg Path}
    (h : QueueRun hist c) : CfgInv c :=
  h.invariant (fun _ h0 => cfgInv_init h0) fun _ _ _ hi hs => hi.step hs

/-! ## 3. Pending bytes -/

/-- A byte of a path is dirty or in flight. -/
def QueueCfg.Pending (c : QueueCfg Path) (p : Path) (x : Nat) : Prop :=
  Covers (row c.st.dirty p) x ∨ Covers (row c.st.inflight p) x

/-- A new queue holds nothing. -/
theorem QueueInit.not_pending {c : QueueCfg Path} (h : QueueInit c) (p : Path) (x : Nat) :
    ¬ c.Pending p x := by
  obtain ⟨now, rfl⟩ := h
  rintro (hx | hx) <;> exact absurd hx (covers_nil x)

/-- A claim moves pending bytes from dirty to in flight. -/
theorem Claims.pending {st st' : QueueState Path} {out : List (Path × Range)}
    (h : Claims st out st') (hq : QueueInv st) {p : Path} {x : Nat} :
    Covers (row st'.dirty p) x ∨ Covers (row st'.inflight p) x ↔
      Covers (row st.dirty p) x ∨ Covers (row st.inflight p) x := by
  induction h with
  | done => exact Iff.rfl
  | @claim st st' path piece out hc _ ih =>
    rw [ih (hq.claim hc)]
    by_cases hp : p = path
    · subst hp
      have hdirty : Inside x piece → Covers (row st.dirty p) x := hc.dirty
      rw [hc.covers (hq.tidy p), row_inflight_claim_self, covers_append, covers_cons]
      simp only [covers_nil, or_false]
      tauto
    · rw [row_claim_ne st hp, row_inflight_claim_ne st hp]

/-- **Only an enqueue makes bytes pending.** -/
theorem CfgInv.pending_of_step {c c' : QueueCfg Path} {op : QueueOp Path} (h : CfgInv c)
    (hs : QueueStep c op c') {p : Path} {x : Nat} (hx : c'.Pending p x) :
    c.Pending p x ∨ ∃ start stop, op = .enqueue p start stop ∧ Inside x (start, stop) := by
  obtain ⟨hok, rfl⟩ := hs
  cases op with
  | enqueue path start stop =>
    simp only [QueueCfg.Pending, QueueCfg.next, enqueue_inflight] at hx ⊢
    by_cases hp : p = path
    · subst hp
      rw [row_enqueue_self, covers_mergeRange] at hx
      rcases hx with (hx | hx) | hx
      · exact .inr ⟨start, stop, rfl, hx⟩
      · exact .inl (.inl hx)
      · exact .inl (.inr hx)
    · rw [row_enqueue_ne c.st hp] at hx
      exact .inl hx
  | takeBatch now paths =>
    exact .inl (((h.queue.takeBatch_claims now paths).pending h.queue).mp hx)
  | finish path range outcome now =>
    -- a finish drops the piece or makes it dirty again, and the piece was in flight
    left
    have hpiece : range ∈ row c.st.inflight path := (h.flying _ _).mp hok
    rcases hx with hx | hx
    · by_cases hp : p = path
      · subst hp
        rcases (covers_finish_self x).mp hx with hx | ⟨-, hx⟩
        · exact .inl hx
        · exact .inr (Covers.of_mem hpiece hx)
      · rw [QueueCfg.next, row_finish_ne _ _ _ _ _ hp] at hx
        exact .inl hx
    · obtain ⟨r, hr, hxr⟩ := hx
      exact .inr (Covers.of_mem (mem_inflight_finish.mp hr).1 hxr)

/-- A pending byte stays pending, unless a send task with it ends without a retry. -/
theorem CfgInv.pending_kept {c c' : QueueCfg Path} {op : QueueOp Path} (h : CfgInv c)
    (hs : QueueStep c op c') {p : Path} {x : Nat} (hx : c.Pending p x) :
    c'.Pending p x ∨ ∃ range outcome now,
      op = .finish p range outcome now ∧ outcome ≠ .retry ∧ Inside x range := by
  obtain ⟨-, rfl⟩ := hs
  cases op with
  | enqueue path start stop =>
    refine .inl ?_
    simp only [QueueCfg.Pending, QueueCfg.next, enqueue_inflight]
    by_cases hp : p = path
    · subst hp
      rw [row_enqueue_self, covers_mergeRange]
      exact hx.imp_left .inr
    · rwa [row_enqueue_ne c.st hp]
  | takeBatch now paths =>
    exact .inl (((h.queue.takeBatch_claims now paths).pending h.queue).mpr hx)
  | finish path range outcome now =>
    simp only [QueueCfg.Pending, QueueCfg.next]
    by_cases hp : p = path
    · subst hp
      rw [covers_finish_self]
      rcases hx with hx | ⟨r, hr, hxr⟩
      · exact .inl (.inl (.inl hx))
      · by_cases hrange : Inside x range
        · by_cases ho : outcome = .retry
          · exact .inl (.inl (.inr ⟨ho, hrange⟩))
          · exact .inr ⟨range, outcome, now, rfl, ho, hrange⟩
        · have hne : r ≠ range := fun e => hrange (e ▸ hxr)
          exact .inl (.inr (Covers.of_mem (mem_inflight_finish.mpr ⟨hr, fun _ => hne⟩) hxr))
    · rw [row_finish_ne _ _ _ _ _ hp, row_inflight_finish_ne _ _ _ _ _ hp]
      exact .inl hx

/-- The bytes of an enqueued range are pending. -/
theorem QueueCfg.pending_enqueue (c : QueueCfg Path) {path : Path} {start stop x : Nat}
    (hx : Inside x (start, stop)) : (c.next (.enqueue path start stop)).Pending path x := by
  refine .inl ?_
  rw [QueueCfg.next, row_enqueue_self, covers_mergeRange]
  exact .inl hx

/-- The bytes of a send task are pending. -/
theorem CfgInv.pending_of_task {c : QueueCfg Path} (h : CfgInv c) {p : Path} {r : Range}
    (hr : (p, r) ∈ c.tasks) {x : Nat} (hx : Inside x r) : c.Pending p x :=
  .inr (Covers.of_mem ((h.flying p r).mp hr) hx)

/-- A send task has a byte. -/
theorem CfgInv.task_pos {c : QueueCfg Path} (h : CfgInv c) {p : Path} {r : Range}
    (hr : (p, r) ∈ c.tasks) : r.1 < r.2 :=
  h.queue.pos p r ((h.flying p r).mp hr)

/-! ## 4. One byte: the queue and its ledger -/

/-- The piece `q` holds byte `x` of path `p`. -/
def Holds (p : Path) (x : Nat) (q : Path × Range) : Prop := q.1 = p ∧ Inside x q.2

instance (p : Path) (x : Nat) : DecidablePred (Holds p x) := fun q =>
  inferInstanceAs (Decidable (q.1 = p ∧ Inside x q.2))

/-- The outcome that requeues the bytes of a piece. -/
def Requeues (o : SendOutcome) : Prop := o = .retry

instance : DecidablePred Requeues := fun o => inferInstanceAs (Decidable (o = .retry))

/-- The ledger of byte `x` of path `p`. -/
abbrev byteLedger (p : Path) (x : Nat) (log : List (WorkEvent (Path × Range) SendOutcome)) :
    ItemState (Path × Range) SendOutcome :=
  ledger (Holds p x) Requeues log

/-- **The queue agrees with the ledger of a byte**: the byte is in a dirty range, and in an
    in-flight piece, exactly when the ledger says so. -/
structure Tracks (st : QueueState Path) (p : Path) (x : Nat)
    (s : ItemState (Path × Range) SendOutcome) : Prop where
  dirty : Covers (row st.dirty p) x ↔ s.isDirty = true
  flight : ∀ q, (q.2 ∈ row st.inflight q.1 ∧ Holds p x q) ↔ s.piece = some q

section Tracks

variable {st : QueueState Path} {p path : Path} {x : Nat} {piece : Range}
  {s : ItemState (Path × Range) SendOutcome}

theorem tracks_new (now : Nat) : Tracks (QueueState.new now : QueueState Path) p x .clean where
  dirty := by simp [QueueState.new, ItemState.isDirty]
  flight q := by simp [QueueState.new, ItemState.piece]

theorem Tracks.enqueue (h : Tracks st p x s) (start stop : Nat) :
    Tracks (enqueue st path start stop) p x
      (nextItem (Holds p x) Requeues (.enqueued (path, start, stop)) s) := by
  rw [nextItem_enqueued]
  split
  · rename_i hh
    obtain ⟨hp, hx⟩ := hh
    dsimp only at hp hx
    subst hp
    refine ⟨?_, fun q => ?_⟩
    · rw [row_enqueue_self, covers_mergeRange, ItemState.renewed_isDirty]
      simp [hx]
    · rw [enqueue_inflight, ItemState.renewed_piece]
      exact h.flight q
  · rename_i hh
    refine ⟨?_, fun q => by rw [enqueue_inflight]; exact h.flight q⟩
    by_cases hp : p = path
    · subst hp
      have hx : ¬ Inside x (start, stop) := fun hx => hh ⟨rfl, hx⟩
      rw [row_enqueue_self, covers_mergeRange, or_iff_right hx]
      exact h.dirty
    · rw [row_enqueue_ne st hp]
      exact h.dirty

/-- A claimed byte was dirty and not in flight. -/
theorem Tracks.of_claimable (h : Tracks st p x s) (hq : QueueInv st)
    (hc : Claimable st path piece) (hh : Holds p x (path, piece)) : s = .dirty := by
  obtain ⟨rfl, hx⟩ := hh
  have hd := h.dirty.mp (hc.dirty hx)
  have hfree := hq.free path hc.free x (hc.dirty hx)
  have hf : ∀ q, s.piece ≠ some q := fun q hq => by
    obtain ⟨hm, he, hxq⟩ := (h.flight q).mpr hq
    rw [he] at hm
    exact hfree (Covers.of_mem hm hxq)
  cases s with
  | dirty => rfl
  | flying q => exact absurd rfl (hf q)
  | reflying q => exact absurd rfl (hf q)
  | clean => cases hd
  | done o => cases hd

theorem Tracks.claim (h : Tracks st p x s) (hq : QueueInv st) (hc : Claimable st path piece) :
    Tracks (claim st path piece) p x
      (nextItem (Holds p x) Requeues (.claimed (path, piece)) s) := by
  rw [nextItem_claimed]
  split
  · rename_i hh
    have hs := h.of_claimable hq hc hh
    obtain ⟨rfl, hx⟩ := hh
    refine ⟨?_, fun q => ?_⟩
    · rw [hc.covers (hq.tidy path)]
      simp [hx, ItemState.isDirty]
    · -- the only in-flight piece that holds the byte is the one just claimed
      have hnone : ¬ (q.2 ∈ row st.inflight q.1 ∧ Holds path x q) := by
        rw [h.flight q, hs]
        exact Option.some_ne_none q ∘ Eq.symm
      rw [mem_inflight_claim, ItemState.piece, Option.some.injEq]
      constructor
      · intro h'
        obtain ⟨hm | hm, hh⟩ := h'
        · exact absurd ⟨hm, hh⟩ hnone
        · exact hm.symm
      · intro heq
        subst heq
        exact ⟨.inr rfl, rfl, hx⟩
  · rename_i hh
    refine ⟨?_, fun q => ?_⟩
    · by_cases hp : p = path
      · subst hp
        rw [hc.covers (hq.tidy p), h.dirty]
        exact and_iff_left fun hx => hh ⟨rfl, hx⟩
      · rw [row_claim_ne st hp]
        exact h.dirty
    · rw [← h.flight q, mem_inflight_claim]
      constructor
      · intro h'
        obtain ⟨hm | hm, hq⟩ := h'
        · exact ⟨hm, hq⟩
        · have e : q = (path, piece) := hm
          exact absurd (e ▸ hq) hh
      · intro h'
        obtain ⟨hm, hq⟩ := h'
        exact ⟨.inl hm, hq⟩

variable {range : Range} {outcome : SendOutcome} {now : Nat}

theorem Tracks.finish (h : Tracks st p x s) (hq : QueueInv st)
    (hr : range ∈ row st.inflight path) :
    Tracks (finish st path range outcome now) p x
      (nextItem (Holds p x) Requeues (.finished (path, range) outcome) s) := by
  rw [nextItem_finished]
  split
  · rename_i hh
    have hs := (h.flight (path, range)).mp ⟨hr, hh⟩
    obtain ⟨rfl, hx⟩ := hh
    have hland : ∀ q, ¬ (q.2 ∈ row (Relayfs.finish st path range outcome now).inflight q.1 ∧
        Holds path x q) := fun q => by
      intro h'
      obtain ⟨hm, he, hxq⟩ := h'
      rw [he] at hm
      exact hq.landed_apart hr hx (Covers.of_mem hm hxq)
    have hd := h.dirty
    cases s with
    | flying q =>
      refine ⟨?_, fun q => ?_⟩
      · rw [covers_finish_self, hd]
        by_cases ho : outcome = .retry
        · rw [ItemState.landed_flying, if_pos (show Requeues outcome from ho)]
          exact iff_of_true (.inr ⟨ho, hx⟩) rfl
        · rw [ItemState.landed_flying, if_neg (show ¬ Requeues outcome from ho)]
          exact iff_of_false (fun h' => h'.elim nofun fun h' => ho h'.1) nofun
      · rw [iff_false_left (hland q), ItemState.landed_flying]
        split <;> exact nofun
    | reflying q =>
      refine ⟨?_, fun q => ?_⟩
      · rw [covers_finish_self, hd]
        simp [ItemState.isDirty]
      · rw [iff_false_left (hland q)]
        exact nofun
    | clean => cases hs
    | dirty => cases hs
    | done o => cases hs
  · rename_i hh
    refine ⟨?_, fun q => ?_⟩
    · by_cases hp : p = path
      · subst hp
        rw [covers_finish_self, ← h.dirty]
        exact or_iff_left fun hx => hh ⟨rfl, hx.2⟩
      · rw [row_finish_ne st path range outcome now hp]
        exact h.dirty
    · rw [← h.flight q, mem_inflight_finish]
      constructor
      · intro h'
        obtain ⟨⟨hm, _⟩, hq⟩ := h'
        exact ⟨hm, hq⟩
      · intro h'
        obtain ⟨hm, hq⟩ := h'
        exact ⟨⟨hm, fun e e' => hh (e' ▸ e ▸ hq)⟩, hq⟩

end Tracks

/-- Claims keep the agreement and a lawful log. -/
theorem Claims.tracks {st st' : QueueState Path} {out : List (Path × Range)}
    (h : Claims st out st') (hq : QueueInv st) {p : Path} {x : Nat}
    {log : List (WorkEvent (Path × Range) SendOutcome)}
    (ht : Tracks st p x (byteLedger p x log)) (hl : Lawful (Holds p x) Requeues log) :
    Tracks st' p x (byteLedger p x ((out.map .claimed).reverse ++ log)) ∧
      Lawful (Holds p x) Requeues ((out.map .claimed).reverse ++ log) := by
  induction h generalizing log with
  | done => exact ⟨ht, hl⟩
  | @claim st st' path piece out hc _ ih =>
    rw [List.map_cons, List.reverse_cons, List.append_assoc, List.singleton_append]
    exact ih (hq.claim hc) (ht.claim hq hc) ⟨ht.of_claimable hq hc, hl⟩

/-- **After every run the queue agrees with the ledger of every byte**, and the log of the run
    is lawful. -/
theorem QueueRun.tracks {hist : List (QueueCfg Path × QueueOp Path)} {c : QueueCfg Path}
    (h : QueueRun hist c) (p : Path) (x : Nat) :
    Tracks c.st p x (byteLedger p x (events hist)) ∧
      Lawful (Holds p x) Requeues (events hist) := by
  induction h with
  | start h =>
    obtain ⟨now, rfl⟩ := h
    exact ⟨tracks_new now, trivial⟩
  | @step hist c c' op hr hs ih =>
    obtain ⟨ht, hl⟩ := ih
    have hi := QueueRun.inv hr
    obtain ⟨hok, rfl⟩ := hs
    cases op with
    | enqueue path start stop => exact ⟨ht.enqueue start stop, trivial, hl⟩
    | takeBatch now paths => exact (hi.queue.takeBatch_claims now paths).tracks hi.queue ht hl
    | finish path range outcome now =>
      have hr := (hi.flying _ _).mp hok
      exact ⟨ht.finish hi.queue hr, fun hh => (ht.flight _).mp ⟨hr, hh⟩, hl⟩

/-! ## 5. Nothing is lost, nothing is sent twice -/

/-- A byte that was enqueued is dirty, in flight, or settled since by a send that was
    acknowledged or dropped. -/
theorem QueueRun.no_loss {hist : List (QueueCfg Path × QueueOp Path)} {c : QueueCfg Path}
    (h : QueueRun hist c) {p : Path} {x : Nat}
    (he : ∃ ev ∈ events hist, Enqueues (Holds p x) ev) :
    Covers (row c.st.dirty p) x ∨ Covers (row c.st.inflight p) x ∨
      ∃ o, (o = .sent ∨ o = .drop) ∧ SettledBy (Holds p x) o (events hist) := by
  obtain ⟨ht, hl⟩ := h.tracks p x
  cases hs : byteLedger p x (events hist) with
  | clean =>
    obtain ⟨ev, hev, hen⟩ := he
    exact absurd hen (not_enqueued_of_clean hs ev hev)
  | dirty =>
    left
    exact ht.dirty.mpr (by rw [hs]; rfl)
  | reflying q =>
    left
    exact ht.dirty.mpr (by rw [hs]; rfl)
  | flying q =>
    right; left
    obtain ⟨hm, rfl, hx⟩ := (ht.flight q).mpr (by rw [hs]; rfl)
    exact Covers.of_mem hm hx
  | done o =>
    right; right
    obtain ⟨ho, hb⟩ := settled_of_ledger hl hs
    refine ⟨o, ?_, hb⟩
    cases o with
    | sent => exact .inl rfl
    | retry => exact absurd rfl ho
    | drop => exact .inr rfl

/-- **Nothing is lost and nothing is sent twice**, in every state of every run: an enqueued byte
    is dirty, in flight or settled since its last enqueue; between two claims of a byte it was
    enqueued again or a piece that held it finished with `retry`. -/
theorem no_loss_no_duplication {hist : List (QueueCfg Path × QueueOp Path)} {c : QueueCfg Path}
    (h : QueueRun hist c) (p : Path) (x : Nat) :
    ((∃ ev ∈ events hist, Enqueues (Holds p x) ev) →
      Covers (row c.st.dirty p) x ∨ Covers (row c.st.inflight p) x ∨
        ∃ o, (o = .sent ∨ o = .drop) ∧ SettledBy (Holds p x) o (events hist)) ∧
    ∀ l₁ l₂ l₃ q q', events hist = l₁ ++ .claimed q' :: (l₂ ++ .claimed q :: l₃) →
      Holds p x q → Holds p x q' → ∃ ev ∈ l₂, Renews (Holds p x) Requeues ev := by
  refine ⟨h.no_loss, fun l₁ l₂ l₃ q q' he hh hh' => ?_⟩
  have hl := (h.tracks p x).2
  rw [he] at hl
  exact claimed_again hl hh' hh

/-- The first run a mount can make: a write of five bytes, the batch that claims them, and the
    finish of the send with `outcome`. Newest first. -/
def oneWrite (outcome : SendOutcome) : List (QueueOp Nat) :=
  [.finish 0 (0, 5) outcome 0, .takeBatch 0 [0], .enqueue 0 0 5]

/-- The history of `oneWrite`. -/
def oneWriteHist (outcome : SendOutcome) : List (QueueCfg Nat × QueueOp Nat) :=
  (replay QueueCfg.next ⟨.new 0, []⟩ (oneWrite outcome)).1

/-- The queue after `oneWrite`. -/
def oneWriteEnd (outcome : SendOutcome) : QueueCfg Nat :=
  (replay QueueCfg.next ⟨.new 0, []⟩ (oneWrite outcome)).2

theorem oneWrite_run (outcome : SendOutcome) :
    QueueRun (oneWriteHist outcome) (oneWriteEnd outcome) :=
  Run.of_replay ⟨0, rfl⟩ (by cases outcome <;> decide)

theorem events_oneWrite (outcome : SendOutcome) :
    events (oneWriteHist outcome)
      = [.finished (0, (0, 5)) outcome, .claimed (0, (0, 5)), .enqueued (0, (0, 5))] := by
  cases outcome <;> decide

theorem no_loss_no_duplication_oneWrite :
    ∃ o, (o = .sent ∨ o = .drop) ∧ SettledBy (Holds 0 3) o (events (oneWriteHist .sent)) := by
  have he : ∃ ev ∈ events (oneWriteHist .sent), Enqueues (Holds 0 3) ev := by decide
  rcases (no_loss_no_duplication (oneWrite_run .sent) 0 3).1 he with h | h | h
  · exact absurd h (by decide)
  · exact absurd h (by decide)
  · exact h

/-! ## 6. The ranges of a path -/

/-- **How the ranges of one path lie to each other.** -/
structure PathInv (c : QueueCfg Path) (p : Path) : Prop where
  dirty : Tidy (row c.st.dirty p)
  nonempty : ∀ r ∈ row c.st.inflight p, r.1 < r.2
  apart : (row c.st.inflight p).Pairwise fun a b => ¬ Meets a b
  overlap : ∀ d ∈ row c.st.dirty p, ∀ r ∈ row c.st.inflight p, Meets d r → p ∈ c.st.blocked
  held : p ∈ c.st.blocked → row c.st.inflight p ≠ []

/-- A dirty range that meets a piece in flight has a byte in common with it, so its path is
    blocked. -/
theorem CfgInv.overlap {c : QueueCfg Path} (h : CfgInv c) {p : Path} {d r : Range}
    (hd : d ∈ row c.st.dirty p) (hr : r ∈ row c.st.inflight p) (hm : Meets d r) :
    p ∈ c.st.blocked := by
  have hdpos : d.1 < d.2 := (h.queue.tidy p).nonempty d hd
  have hrpos : r.1 < r.2 := h.queue.pos p r hr
  obtain ⟨x, hxd, hxr⟩ := (meets_iff hdpos hrpos).mp hm
  by_contra hfree
  have hclear : ¬ Covers (row c.st.inflight p) x := h.queue.free p hfree x (Covers.of_mem hd hxd)
  exact hclear (Covers.of_mem hr hxr)

/-- Two send tasks of one path have no byte in common. -/
theorem CfgInv.sends_apart {c : QueueCfg Path} (h : CfgInv c) :
    c.tasks.Pairwise fun a b => a.1 = b.1 → ¬ Meets a.2 b.2 := by
  refine h.nodup.pairwise_of_forall_ne fun a ha b hb hne => ?_
  intro hpath hm
  have hra : a.2 ∈ row c.st.inflight a.1 := (h.flying a.1 a.2).mp ha
  have hrb : b.2 ∈ row c.st.inflight a.1 := by
    rw [hpath]
    exact (h.flying b.1 b.2).mp hb
  obtain ⟨x, hxa, hxb⟩ := (meets_iff (h.queue.pos _ _ hra) (h.queue.pos _ _ hrb)).mp hm
  have heq : a.2 = b.2 := h.queue.eq_of_inside hra hrb hxa hxb
  exact hne (Prod.ext hpath heq)

/-- **In every state of every run** the ranges of each path lie as they should, and two sends of
    one path that are under way together do not overlap. -/
theorem ranges_consistent {hist : List (QueueCfg Path × QueueOp Path)} {c : QueueCfg Path}
    (h : QueueRun hist c) :
    (∀ p, PathInv c p) ∧ c.tasks.Pairwise fun a b => a.1 = b.1 → ¬ Meets a.2 b.2 := by
  have hi : CfgInv c := h.inv
  refine ⟨fun p => ?_, hi.sends_apart⟩
  exact
    { dirty := hi.queue.tidy p
      nonempty := hi.queue.pos p
      apart := hi.queue.apart p
      overlap := fun d hd r hr hm => hi.overlap hd hr hm
      held := hi.queue.held p }

/-- A write, the batch that claims it, and a write over it while it is in flight. -/
def rewrite : List (QueueOp Nat) := [.enqueue 0 2 7, .takeBatch 0 [0], .enqueue 0 0 5]

theorem ranges_consistent_rewrite :
    0 ∈ (replay QueueCfg.next (⟨.new 0, []⟩ : QueueCfg Nat) rewrite).2.st.blocked := by
  have hrun : QueueRun _ (replay QueueCfg.next (⟨.new 0, []⟩ : QueueCfg Nat) rewrite).2 :=
    Run.of_replay ⟨0, rfl⟩ (by decide)
  exact ((ranges_consistent hrun).1 0).overlap (2, 7) (by decide) (0, 5) (by decide) (by decide)

end Relayfs

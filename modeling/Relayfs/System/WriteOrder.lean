/-
  File:      Relayfs/System/WriteOrder.lean
  Subject:   THE ORDER OF WRITES AT THE TARGET: one mount's upload queue, its WRITE_AT calls, the
             frames on their way, and the agent's tasks.

  A byte of a file is known by its VERSION, the number of the FUSE write it comes from; version 0
  is a byte the mount never wrote. A send task reads its piece from the cache, so its frame
  carries the versions the cache held then. From there on the frame lives by itself: it may be
  delayed, lost, or run by a task of the agent at any time, also after its call has ended.

  * `UploadSystem`, `UploadEvent`, `UploadStep` -- queue, calls, network and agent together;
  * `UploadInv` -- a waiting call carries versions no older than any acknowledged byte;
  * `OverwritesNothingNewer` -- a frame whose call has ended meets no newer byte at the target;
  * `acked_stays` -- in runs of such steps an acknowledged byte is never replaced by an older one;
  * `timed_out_write_returns` -- a frame that runs after its call timed out.
-/
import Relayfs.Queue.Run

namespace Relayfs

open Lib

variable {Path : Type} [DecidableEq Path]

/-! ## 1. The system -/

/-- A WRITE_AT call, with the version of each byte its frame carries. -/
structure WriteCall (Path : Type) where
  id : Nat
  path : Path
  range : Range
  version : Nat → Nat

/-- The piece a call sends. -/
def WriteCall.piece (g : WriteCall Path) : Path × Range := (g.path, g.range)

/-- **Queue, calls, network and agent.** `writing` are the FUSE writes that have written the cache
    and not enqueued yet, `waiting` the calls that await their answer, `frames` the frames on
    their way to the agent or in a task of it, `answers` the answers on their way back. `acked`
    is a ghost: the version of each byte in the last piece with it that was acknowledged. -/
structure UploadSystem (Path : Type) [DecidableEq Path] where
  queue : QueueCfg Path
  writes : Nat
  writing : List (Path × Range)
  cache : Path → Nat → Nat
  calls : Nat
  waiting : List (WriteCall Path)
  frames : List (WriteCall Path)
  answers : List (Nat × SendOutcome)
  remote : Path → Nat → Nat
  acked : Path → Nat → Nat

inductive UploadEvent (Path : Type) where
  /-- A FUSE write: the cache, then the queue. -/
  | cacheWrite (path : Path) (start stop : Nat)
  | enqueue (path : Path) (start stop : Nat)
  /-- The flusher claims pieces. -/
  | takeBatch (now : Nat) (paths : List Path)
  /-- A send task reads its piece and calls, or its read comes short. -/
  | send (path : Path) (range : Range)
  | short (path : Path) (range : Range) (now : Nat)
  /-- A task of the agent runs the `i`-th frame, up to `stop`; a frame is lost. -/
  | execute (i : Nat) (outcome : SendOutcome) (stop : Nat)
  | lose (i : Nat)
  /-- The `i`-th answer arrives. -/
  | answer (i now : Nat)
  /-- The `i`-th waiting call ends without one: a timeout, a lost connection, an error of the
      relay. -/
  | fail (i : Nat) (outcome : SendOutcome) (now : Nat)

/-- The versions after `v` was written to a range. -/
def stamp (f : Path → Nat → Nat) (path : Path) (range : Range) (v : Nat → Nat) :
    Path → Nat → Nat :=
  fun p x => if p = path ∧ Inside x range then v x else f p x

theorem stamp_inside {f : Path → Nat → Nat} {path : Path} {range : Range} {v : Nat → Nat}
    {x : Nat} (h : Inside x range) : stamp f path range v path x = v x := if_pos ⟨rfl, h⟩

theorem stamp_outside {f : Path → Nat → Nat} {path p : Path} {range : Range} {v : Nat → Nat}
    {x : Nat} (h : p = path → ¬ Inside x range) : stamp f path range v p x = f p x :=
  if_neg fun hc => h hc.1 hc.2

namespace UploadSystem

/-- The call `id` still awaits its answer. -/
def Awaits (s : UploadSystem Path) (id : Nat) : Prop := ∃ g ∈ s.waiting, g.id = id

instance (s : UploadSystem Path) (id : Nat) : Decidable (s.Awaits id) :=
  inferInstanceAs (Decidable (∃ g ∈ s.waiting, _))

/-- A send task finishes its piece: its call no longer waits. -/
def settled (s : UploadSystem Path) (g : WriteCall Path) (outcome : SendOutcome) (now : Nat) :
    UploadSystem Path :=
  { s with
    queue := s.queue.next (.finish g.path g.range outcome now)
    waiting := s.waiting.filter (·.id ≠ g.id)
    acked := if outcome = .sent then stamp s.acked g.path g.range g.version else s.acked }

/-- When an event can happen. -/
def permits (s : UploadSystem Path) : UploadEvent Path → Prop
  | .cacheWrite _ _ _ => True
  | .enqueue path start stop =>
      (path, start, stop) ∈ s.writing ∧ s.queue.permits (.enqueue path start stop)
  | .takeBatch now paths => s.queue.permits (.takeBatch now paths)
  | .send path range | .short path range _ =>
      (path, range) ∈ s.queue.tasks ∧ ∀ g ∈ s.waiting, g.piece ≠ (path, range)
  | .execute i outcome stop =>
      ∃ f ∈ s.frames[i]?, stop ≤ f.range.2 ∧ (outcome = .sent → stop = f.range.2)
  | .lose i => i < s.frames.length
  | .answer i _ => i < s.answers.length
  | .fail i outcome _ => i < s.waiting.length ∧ outcome ≠ .sent

instance decPermits (s : UploadSystem Path) : ∀ e, Decidable (s.permits e)
  | .cacheWrite _ _ _ => isTrue trivial
  | .enqueue _ _ _ => inferInstanceAs (Decidable (_ ∧ _))
  | .takeBatch now paths => inferInstanceAs (Decidable (s.queue.permits (.takeBatch now paths)))
  | .send _ _ => inferInstanceAs (Decidable (_ ∧ ∀ g ∈ s.waiting, _))
  | .short _ _ _ => inferInstanceAs (Decidable (_ ∧ ∀ g ∈ s.waiting, _))
  | .execute i _ _ => inferInstanceAs (Decidable (∃ f ∈ s.frames[i]?, _))
  | .lose i => inferInstanceAs (Decidable (i < s.frames.length))
  | .answer i _ => inferInstanceAs (Decidable (i < s.answers.length))
  | .fail i _ _ => inferInstanceAs (Decidable (i < s.waiting.length ∧ _))

/-- What an event does. -/
def next (s : UploadSystem Path) : UploadEvent Path → UploadSystem Path
  | .cacheWrite path start stop =>
      { s with
        writes := s.writes + 1
        writing := (path, start, stop) :: s.writing
        cache := stamp s.cache path (start, stop) fun _ => s.writes + 1 }
  | .enqueue path start stop =>
      { s with
        queue := s.queue.next (.enqueue path start stop)
        writing := s.writing.erase (path, start, stop) }
  | .takeBatch now paths => { s with queue := s.queue.next (.takeBatch now paths) }
  | .send path range =>
      let g : WriteCall Path := ⟨s.calls, path, range, s.cache path⟩
      { s with calls := s.calls + 1, waiting := g :: s.waiting, frames := g :: s.frames }
  | .short path range now => { s with queue := s.queue.next (.finish path range .retry now) }
  | .execute i outcome stop =>
      match s.frames[i]? with
      | some f =>
          { s with
            frames := s.frames.eraseIdx i
            answers := (f.id, outcome) :: s.answers
            remote := stamp s.remote f.path (f.range.1, stop) f.version }
      | none => s
  | .lose i => { s with frames := s.frames.eraseIdx i }
  | .answer i now =>
      match s.answers[i]? with
      | some (id, outcome) =>
          let s' := { s with answers := s.answers.eraseIdx i }
          match s.waiting.find? (·.id = id) with
          | some g => s'.settled g outcome now
          | none => s'
      | none => s
  | .fail i outcome now =>
      match s.waiting[i]? with
      | some g => s.settled g outcome now
      | none => s

/-- A mount whose writer has not written yet. -/
def start (now : Nat) : UploadSystem Path :=
  ⟨⟨.new now, []⟩, 0, [], fun _ _ => 0, 0, [], [], [], fun _ _ => 0, fun _ _ => 0⟩

end UploadSystem

abbrev UploadStep : UploadSystem Path → UploadEvent Path → UploadSystem Path → Prop :=
  Moves UploadSystem.permits UploadSystem.next

def UploadInit (s : UploadSystem Path) : Prop := ∃ now, s = .start now

abbrev UploadRun (hist : List (UploadSystem Path × UploadEvent Path)) (s : UploadSystem Path) :
    Prop :=
  Run UploadInit UploadStep hist s

/-! ## 2. The property and its condition -/

/-- **An acknowledged byte stays**: the target holds no byte older than one it acknowledged. -/
def AckedStays (s : UploadSystem Path) : Prop := ∀ p x, s.acked p x ≤ s.remote p x

/-- **A late frame overwrites nothing newer**: a frame that runs after its call has ended (by a
    timeout, a lost connection or an error) meets only bytes at the target that are as old as
    its own or older. -/
def OverwritesNothingNewer (s : UploadSystem Path) : UploadEvent Path → Prop
  | .execute i _ _ => ∀ f ∈ s.frames[i]?, ¬ s.Awaits f.id →
      ∀ x, Inside x f.range → s.remote f.path x ≤ f.version x
  | _ => True

instance OverwritesNothingNewer.decidable (s : UploadSystem Path) :
    ∀ e, Decidable (OverwritesNothingNewer s e)
  | .execute i _ _ => inferInstanceAs (Decidable (∀ f ∈ s.frames[i]?, _))
  | .cacheWrite _ _ _ | .enqueue _ _ _ | .takeBatch _ _ | .send _ _ | .short _ _ _ | .lose _
  | .answer _ _ | .fail _ _ _ => isTrue trivial

/-! ## 3. The invariant -/

/-- **The invariant**, with what the condition adds to it (`landed`, `stays`). -/
structure UploadInv (s : UploadSystem Path) : Prop where
  queue : CfgInv s.queue
  tasks : ∀ g ∈ s.waiting, g.piece ∈ s.queue.tasks
  pieces : (s.waiting.map WriteCall.piece).Nodup
  ids : (s.waiting.map WriteCall.id).Nodup
  waitingIds : ∀ g ∈ s.waiting, g.id < s.calls
  frameIds : ∀ f ∈ s.frames, f.id < s.calls
  answerIds : ∀ a ∈ s.answers, a.1 < s.calls
  frame : ∀ f ∈ s.frames, ∀ g ∈ s.waiting, f.id = g.id → f = g
  cached : ∀ p x, s.cache p x ≤ s.writes
  ackedCached : ∀ p x, s.acked p x ≤ s.cache p x
  carried : ∀ g ∈ s.waiting, ∀ x, g.version x ≤ s.cache g.path x
  fresh : ∀ g ∈ s.waiting, ∀ x, Inside x g.range → s.acked g.path x ≤ g.version x
  landed : ∀ g ∈ s.waiting, (g.id, SendOutcome.sent) ∈ s.answers → ∀ x, Inside x g.range →
    g.version x ≤ s.remote g.path x
  stays : AckedStays s

theorem uploadInv_init {s : UploadSystem Path} (h : UploadInit s) : UploadInv s := by
  obtain ⟨now, rfl⟩ := h
  exact
    { queue := cfgInv_init ⟨now, rfl⟩
      tasks := fun g hg => by cases hg
      pieces := List.nodup_nil
      ids := List.nodup_nil
      waitingIds := fun g hg => by cases hg
      frameIds := fun f hf => by cases hf
      answerIds := fun a ha => by cases ha
      frame := fun f hf => by cases hf
      cached := fun p x => le_rfl
      ackedCached := fun p x => le_rfl
      carried := fun g hg => by cases hg
      fresh := fun g hg => by cases hg
      landed := fun g hg => by cases hg
      stays := fun p x => le_rfl }

section Steps

variable {s : UploadSystem Path}

/-- Two waiting calls that carry the same byte are one. -/
theorem UploadInv.eq_of_inside (h : UploadInv s) {g g' : WriteCall Path} (hg : g ∈ s.waiting)
    (hg' : g' ∈ s.waiting) (hp : g.path = g'.path) {x : Nat} (hx : Inside x g.range)
    (hx' : Inside x g'.range) : g = g' := by
  have hfly := (h.queue.flying _ _).mp (h.tasks g hg)
  have hfly' := (h.queue.flying _ _).mp (h.tasks g' hg')
  rw [← hp] at hfly'
  have hr : g.range = g'.range := h.queue.queue.eq_of_inside hfly hfly' hx hx'
  exact List.inj_on_of_nodup_map h.pieces hg hg' (Prod.ext hp hr)

/-- A step of the queue that ends no send task. -/
theorem UploadInv.withQueue (h : UploadInv s) {op : QueueOp Path} (hok : s.queue.permits op)
    (ht : ∀ t ∈ s.queue.tasks, t ∈ (s.queue.next op).tasks) {writing : List (Path × Range)} :
    UploadInv { s with queue := s.queue.next op, writing := writing } :=
  { h with
    queue := h.queue.step ⟨hok, rfl⟩
    tasks := fun g hg => ht _ (h.tasks g hg) }

/-- A FUSE write of the cache. -/
theorem UploadInv.cacheWrite (h : UploadInv s) (path : Path) (start stop : Nat) :
    UploadInv (s.next (.cacheWrite path start stop)) := by
  have hgrow : ∀ p x, s.cache p x
      ≤ stamp s.cache path (start, stop) (fun _ => s.writes + 1) p x := by
    intro p x
    have hle := h.cached p x
    unfold stamp
    split
    · exact Nat.le_succ_of_le hle
    · exact le_rfl
  exact
    { h with
      cached := fun p x => by
        simp only [UploadSystem.next, stamp]
        split
        · exact le_rfl
        · exact Nat.le_succ_of_le (h.cached p x)
      ackedCached := fun p x => (h.ackedCached p x).trans (hgrow p x)
      carried := fun g hg x => (h.carried g hg x).trans (hgrow g.path x) }

/-- A send task reads its piece and calls. -/
theorem UploadInv.send (h : UploadInv s) {path : Path} {range : Range}
    (ht : (path, range) ∈ s.queue.tasks) (hn : ∀ g ∈ s.waiting, g.piece ≠ (path, range)) :
    UploadInv (s.next (.send path range)) where
  queue := h.queue
  tasks g hg := by
    rcases List.mem_cons.mp hg with hg | hg
    · subst hg
      exact ht
    · exact h.tasks g hg
  pieces := by
    refine List.nodup_cons.mpr ⟨fun hm => ?_, h.pieces⟩
    obtain ⟨g, hg, he⟩ := List.mem_map.mp hm
    exact hn g hg he
  ids := by
    refine List.nodup_cons.mpr ⟨fun hm => ?_, h.ids⟩
    obtain ⟨g, hg, he⟩ := List.mem_map.mp hm
    exact (h.waitingIds g hg).ne he
  waitingIds g hg := by
    rcases List.mem_cons.mp hg with hg | hg
    · subst hg
      exact Nat.lt_succ_self _
    · exact Nat.lt_succ_of_lt (h.waitingIds g hg)
  frameIds f hf := by
    rcases List.mem_cons.mp hf with hf | hf
    · subst hf
      exact Nat.lt_succ_self _
    · exact Nat.lt_succ_of_lt (h.frameIds f hf)
  answerIds a ha := Nat.lt_succ_of_lt (h.answerIds a ha)
  frame f hf g hg hid := by
    -- the new number is larger than all others
    rcases List.mem_cons.mp hf with hf | hf <;> rcases List.mem_cons.mp hg with hg | hg
    · rw [hf, hg]
    · subst hf
      exact absurd hid (h.waitingIds g hg).ne'
    · subst hg
      exact absurd hid (h.frameIds f hf).ne
    · exact h.frame f hf g hg hid
  cached := h.cached
  ackedCached := h.ackedCached
  carried g hg x := by
    rcases List.mem_cons.mp hg with hg | hg
    · subst hg
      exact le_rfl
    · exact h.carried g hg x
  fresh g hg x hx := by
    rcases List.mem_cons.mp hg with hg | hg
    · subst hg
      exact h.ackedCached path x
    · exact h.fresh g hg x hx
  landed g hg ha x hx := by
    rcases List.mem_cons.mp hg with hg | hg
    · subst hg
      exact absurd (h.answerIds _ ha) (lt_irrefl _)
    · exact h.landed g hg ha x hx
  stays := h.stays

/-- A frame runs that belongs to a waiting call or overwrites nothing newer. -/
theorem UploadInv.execute (h : UploadInv s) {i : Nat} {f : WriteCall Path}
    (hf : s.frames[i]? = some f) {outcome : SendOutcome} {stop : Nat} (hstop : stop ≤ f.range.2)
    (hsent : outcome = .sent → stop = f.range.2)
    (hlate : ¬ s.Awaits f.id → ∀ x, Inside x f.range → s.remote f.path x ≤ f.version x) :
    UploadInv (s.next (.execute i outcome stop)) := by
  have hmem : f ∈ s.frames := List.mem_of_getElem? hf
  have hin : ∀ x, Inside x (f.range.1, stop) → Inside x f.range :=
    fun x hx => ⟨hx.1, lt_of_lt_of_le hx.2 hstop⟩
  have hstays : ∀ p x, s.acked p x ≤ stamp s.remote f.path (f.range.1, stop) f.version p x := by
    intro p x
    by_cases hpx : p = f.path ∧ Inside x (f.range.1, stop)
    · obtain ⟨rfl, hx⟩ := hpx
      rw [stamp_inside hx]
      by_cases haw : s.Awaits f.id
      · obtain ⟨g, hg, hid⟩ := haw
        obtain rfl := h.frame f hmem g hg hid.symm
        exact h.fresh f hg x (hin x hx)
      · exact (h.stays f.path x).trans (hlate haw x (hin x hx))
    · rw [stamp_outside fun hp hx => hpx ⟨hp, hx⟩]
      exact h.stays p x
  have hlanded : ∀ g ∈ s.waiting, (g.id, SendOutcome.sent) ∈ (f.id, outcome) :: s.answers →
      ∀ x, Inside x g.range →
        g.version x ≤ stamp s.remote f.path (f.range.1, stop) f.version g.path x := by
    intro g hg ha x hx
    by_cases hpx : g.path = f.path ∧ Inside x (f.range.1, stop)
    · obtain ⟨hp, hxf⟩ := hpx
      rw [hp, stamp_inside hxf]
      by_cases haw : s.Awaits f.id
      · -- the two carry a byte in common, so they are one
        obtain ⟨g', hg', hid⟩ := haw
        obtain rfl := h.frame f hmem g' hg' hid.symm
        rw [h.eq_of_inside hg hg' hp hx (hin x hxf)]
      · rcases List.mem_cons.mp ha with ha | ha
        · exact absurd ⟨g, hg, congrArg Prod.fst ha⟩ haw
        · have hland := h.landed g hg ha x hx
          rw [hp] at hland
          exact hland.trans (hlate haw x (hin x hxf))
    · rw [stamp_outside fun hp hxf => hpx ⟨hp, hxf⟩]
      rcases List.mem_cons.mp ha with ha | ha
      · -- an acknowledged frame was written to its end
        obtain ⟨hid, ho⟩ := Prod.mk.injEq .. ▸ ha
        obtain rfl := h.frame f hmem g hg hid.symm
        rw [hsent ho.symm] at hpx
        exact absurd ⟨rfl, hx⟩ hpx
      · exact h.landed g hg ha x hx
  have hnext : s.next (.execute i outcome stop)
      = { s with
          frames := s.frames.eraseIdx i
          answers := (f.id, outcome) :: s.answers
          remote := stamp s.remote f.path (f.range.1, stop) f.version } := by
    simp only [UploadSystem.next, hf]
  rw [hnext]
  exact
    { h with
      frameIds := fun f' hf' => h.frameIds f' (List.mem_of_mem_eraseIdx hf')
      answerIds := fun a ha => by
        rcases List.mem_cons.mp ha with ha | ha
        · rw [ha]
          exact h.frameIds f hmem
        · exact h.answerIds a ha
      frame := fun f' hf' => h.frame f' (List.mem_of_mem_eraseIdx hf')
      landed := hlanded
      stays := hstays }

/-- A waiting call's piece is finished. -/
theorem UploadInv.settled (h : UploadInv s) {g : WriteCall Path} (hg : g ∈ s.waiting)
    {outcome : SendOutcome} (now : Nat)
    (hsent : outcome = .sent → ∀ x, Inside x g.range → g.version x ≤ s.remote g.path x) :
    UploadInv (s.settled g outcome now) := by
  have hold : ∀ g' ∈ s.waiting.filter (·.id ≠ g.id), g' ∈ s.waiting ∧ g' ≠ g := by
    intro g' hg'
    obtain ⟨hm, hid⟩ := List.mem_filter.mp hg'
    refine ⟨hm, fun he => ?_⟩
    rw [he] at hid
    simp at hid
  have hacked : ∀ p x, (s.settled g outcome now).acked p x = s.acked p x ∨
      (outcome = .sent ∧ p = g.path ∧ Inside x g.range ∧
        (s.settled g outcome now).acked p x = g.version x) := by
    intro p x
    simp only [UploadSystem.settled]
    split
    · rename_i ho
      by_cases hpx : p = g.path ∧ Inside x g.range
      · right
        obtain ⟨rfl, hx⟩ := hpx
        exact ⟨ho, rfl, hx, stamp_inside hx⟩
      · left
        exact stamp_outside fun hp hx => hpx ⟨hp, hx⟩
    · left
      rfl
  have hperm : s.queue.permits (.finish g.path g.range outcome now) := h.tasks g hg
  exact
    { h with
      queue := h.queue.step ⟨hperm, rfl⟩
      tasks := fun g' hg' => by
        obtain ⟨hm, hne⟩ := hold g' hg'
        have hpiece : g'.piece ≠ g.piece :=
          fun he => hne (List.inj_on_of_nodup_map h.pieces hm hg he)
        exact (List.mem_erase_of_ne hpiece).mpr (h.tasks g' hm)
      pieces := h.pieces.sublist (List.filter_sublist.map _)
      ids := h.ids.sublist (List.filter_sublist.map _)
      waitingIds := fun g' hg' => h.waitingIds g' (hold g' hg').1
      frame := fun f hf g' hg' => h.frame f hf g' (hold g' hg').1
      carried := fun g' hg' => h.carried g' (hold g' hg').1
      landed := fun g' hg' => h.landed g' (hold g' hg').1
      ackedCached := fun p x => by
        rcases hacked p x with he | ⟨-, rfl, -, he⟩
        · rw [he]
          exact h.ackedCached p x
        · rw [he]
          exact h.carried g hg x
      fresh := fun g' hg' x hx => by
        obtain ⟨hm, hne⟩ := hold g' hg'
        rcases hacked g'.path x with he | ⟨-, hp, hxg, -⟩
        · rw [he]
          exact h.fresh g' hm x hx
        · exact absurd (h.eq_of_inside hm hg hp hx hxg) hne
      stays := fun p x => by
        rcases hacked p x with he | ⟨ho, rfl, hx, he⟩
        · rw [he]
          exact h.stays p x
        · rw [he]
          exact hsent ho x hx }

/-- **Every step that meets the condition keeps the invariant.** -/
theorem UploadInv.step (h : UploadInv s) {s' : UploadSystem Path} {e : UploadEvent Path}
    (hc : OverwritesNothingNewer s e) (hs : UploadStep s e s') : UploadInv s' := by
  obtain ⟨hok, rfl⟩ := hs
  cases e with
  | cacheWrite path start stop => exact h.cacheWrite path start stop
  | enqueue path start stop => exact h.withQueue hok.2 fun t ht => ht
  | takeBatch now paths =>
    exact h.withQueue (show s.queue.permits (.takeBatch now paths) from hok)
      fun t ht => List.mem_append_left _ ht
  | send path range => exact h.send hok.1 hok.2
  | short path range now =>
    obtain ⟨ht, hn⟩ := hok
    have hperm : s.queue.permits (.finish path range .retry now) := ht
    exact
      { h with
        queue := h.queue.step ⟨hperm, rfl⟩
        tasks := fun g hg => (List.mem_erase_of_ne (hn g hg)).mpr (h.tasks g hg) }
  | execute i outcome stop =>
    obtain ⟨f, hf, hstop, hsent⟩ := hok
    exact h.execute hf hstop hsent (hc f hf)
  | lose i =>
    exact
      { h with
        frameIds := fun f hf => h.frameIds f (List.mem_of_mem_eraseIdx hf)
        frame := fun f hf => h.frame f (List.mem_of_mem_eraseIdx hf) }
  | answer i now =>
    obtain ⟨⟨id, outcome⟩, hi⟩ : ∃ a, s.answers[i]? = some a :=
      ⟨_, List.getElem?_eq_getElem hok⟩
    have h' : UploadInv { s with answers := s.answers.eraseIdx i } :=
      { h with
        answerIds := fun a hm => h.answerIds a (List.mem_of_mem_eraseIdx hm)
        landed := fun g hg hm => h.landed g hg (List.mem_of_mem_eraseIdx hm) }
    simp only [UploadSystem.next, hi]
    cases hfind : s.waiting.find? (·.id = id) with
    | none => exact h'
    | some g =>
      have hg : g ∈ s.waiting := List.mem_of_find?_eq_some hfind
      have hid : g.id = id := by simpa using List.find?_some hfind
      refine h'.settled hg now fun ho => h.landed g hg ?_
      rw [hid, ← ho]
      exact List.mem_of_getElem? hi
  | fail i outcome now =>
    obtain ⟨hi, ho⟩ := hok
    simp only [UploadSystem.next, List.getElem?_eq_getElem hi]
    exact h.settled (List.getElem_mem hi) now fun hsent => absurd hsent ho

end Steps

/-! ## 4. Runs -/

/-- **The order of writes, over runs.** In every run in which each frame that runs after its call
    has ended overwrites nothing newer, no state of the run has a byte at the target that is
    older than the one it acknowledged. -/
theorem acked_stays {hist : List (UploadSystem Path × UploadEvent Path)} {s : UploadSystem Path}
    (h : UploadRun hist s) (hc : ∀ x ∈ hist, OverwritesNothingNewer x.1 x.2) :
    ∀ t ∈ visited hist s, AckedStays t := by
  intro t ht
  have hinv := h.invariant_of_steps (fun _ h0 => uploadInv_init h0)
    (fun _ _ _ hi hx hs => hi.step hx hs) hc
  exact (hinv t ht).stays

/-- A write of five bytes whose first WRITE_AT times out. Newest first. -/
def timedOut : List (UploadEvent Nat) :=
  [.fail 0 .retry 15000, .send 0 (0, 5), .takeBatch 0 [0], .enqueue 0 0 5, .cacheWrite 0 0 5]

/-- The target runs the late frame first; then the second WRITE_AT is sent and run. The late
    answer meets no waiting call, the second is acknowledged. -/
def lateFirst : List (UploadEvent Nat) :=
  [.answer 0 60001, .answer 1 60001, .execute 0 .sent 5, .send 0 (0, 5), .takeBatch 60000 [0],
    .execute 0 .sent 5] ++ timedOut

/-- The file is written again; the second WRITE_AT, with the new bytes, is sent, run and
    acknowledged; then the target runs the late frame. -/
def lateLast : List (UploadEvent Nat) :=
  [.execute 0 .sent 5, .answer 0 60001, .execute 0 .sent 5, .send 0 (0, 5), .takeBatch 60000 [0],
    .enqueue 0 0 5, .cacheWrite 0 0 5] ++ timedOut

theorem acked_stays_lateFirst :
    (replay UploadSystem.next (.start 0) lateFirst).2.acked 0 3 = 1 ∧
    ∀ t ∈ visited (replay UploadSystem.next (.start 0) lateFirst).1
      (replay UploadSystem.next (.start 0) lateFirst).2, AckedStays t :=
  ⟨by decide, acked_stays (Run.of_replay ⟨0, rfl⟩ (by decide)) (by decide)⟩

/-- **A write that timed out returns**: byte 3 of the second write was acknowledged, and the
    target holds byte 3 of the first. -/
theorem timed_out_write_returns :
    UploadRun (replay UploadSystem.next (.start 0) lateLast).1
      (replay UploadSystem.next (.start 0) lateLast).2 ∧
    (replay UploadSystem.next (.start 0) lateLast).2.acked 0 3 = 2 ∧
    (replay UploadSystem.next (.start 0) lateLast).2.remote 0 3 = 1 ∧
    ¬ AckedStays (replay UploadSystem.next (.start 0) lateLast).2 := by
  refine ⟨Run.of_replay ⟨0, rfl⟩ (by decide), by decide, by decide, fun h => ?_⟩
  exact absurd (h 0 3) (by decide)

end Relayfs

/-
  File:      Relayfs/Queue/UploadQueue.lean
  Subject:   THE WRITE-BEHIND UPLOAD QUEUE (fuse_fs.rs, `UploadQueue`): the state under the
             queue's lock and the functions that hold it.

  Each function of the source is one function here; `Instant::now()` and the iteration order
  of the `dirty` map are arguments. What each function does to the four tables is said once,
  in the lemmas behind its definition; `takeBatch` is a sequence of single claims
  (`takeBatch_claims`).

  `QueueInv` is the invariant of all of them: tidy dirty ranges, in-flight pieces that do not
  meet, a dirty range meets an in-flight piece only on a blocked path, a blocked path has an
  in-flight piece, and `inflight_bytes` is the sum of the in-flight lengths and fits the
  window.
-/
import Relayfs.Lib.Table
import Relayfs.Queue.MergeRange
import Mathlib.Data.Finset.Basic

namespace Relayfs

open Lib

/-! ## 1. The state -/

/-- Bytes of `WRITE_AT` payloads allowed in flight at once. -/
def writeWindow : Nat := 32 * 1024 * 1024

/-- Dirty bytes buffered locally before FUSE writers get backpressure. -/
def queueCap : Nat := 96 * 1024 * 1024

/-- Maximum payload per `WRITE_AT` RPC. -/
def chunkMax : Nat := 4 * 1024 * 1024

/-- Outcome of one background `WRITE_AT` send: acknowledged, transient failure (requeue), or
    permanent target-side failure (drop). -/
inductive SendOutcome where
  | sent
  | retry
  | drop
  deriving DecidableEq, Repr

/-- `QueueState`. A `Table` stands for each `HashMap`, a `Finset` for the `HashSet`, instants
    are milliseconds. -/
structure QueueState (Path : Type) [DecidableEq Path] where
  dirty : Table Path (List Range)
  inflight : Table Path (List Range)
  blocked : Finset Path
  dirtyBytes : Nat
  inflightBytes : Nat
  errors : Nat
  retryAfter : Nat
  backoffMs : Nat

variable {Path : Type} [DecidableEq Path]

/-- `UploadQueue::new`. -/
def QueueState.new (now : Nat) : QueueState Path where
  dirty := ∅
  inflight := ∅
  blocked := ∅
  dirtyBytes := 0
  inflightBytes := 0
  errors := 0
  retryAfter := now
  backoffMs := 0

/-- The real dirty backlog: the summed lengths of all dirty ranges. -/
def QueueState.backlog (st : QueueState Path) : Nat := weigh total st.dirty

/-! ## 2. `enqueue` -/

/-- `enqueue`: block the path where the new range meets an in-flight piece, then merge the
    range into the path's dirty ranges. -/
def enqueue (st : QueueState Path) (path : Path) (start stop : Nat) : QueueState Path :=
  if stop ≤ start then st
  else
    let m := mergeRange (row st.dirty path) start stop
    { st with
      blocked :=
        if (row st.inflight path).any fun r => start < r.2 ∧ r.1 < stop then
          insert path st.blocked
        else st.blocked
      dirty := st.dirty.insert path m.1
      dirtyBytes := addU64 st.dirtyBytes m.2 }

@[simp] theorem enqueue_inflight (st : QueueState Path) (path : Path) (start stop : Nat) :
    (enqueue st path start stop).inflight = st.inflight := by
  unfold enqueue; split <;> rfl

@[simp] theorem enqueue_inflightBytes (st : QueueState Path) (path : Path) (start stop : Nat) :
    (enqueue st path start stop).inflightBytes = st.inflightBytes := by
  unfold enqueue; split <;> rfl

theorem row_enqueue_self (st : QueueState Path) (path : Path) (start stop : Nat) :
    row (enqueue st path start stop).dirty path
      = (mergeRange (row st.dirty path) start stop).1 := by
  unfold enqueue
  split
  · rename_i h
    rw [mergeRange_of_le h]
  · exact row_insert_self _ _ _

theorem row_enqueue_ne (st : QueueState Path) {path p : Path} (h : p ≠ path) (start stop : Nat) :
    row (enqueue st path start stop).dirty p = row st.dirty p := by
  unfold enqueue
  split
  · rfl
  · exact row_insert_ne h _ _

theorem mem_blocked_enqueue (st : QueueState Path) (path p : Path) (start stop : Nat) :
    p ∈ (enqueue st path start stop).blocked ↔
      p ∈ st.blocked ∨
        (p = path ∧ start < stop ∧ ∃ r ∈ row st.inflight path, Meets (start, stop) r) := by
  unfold enqueue
  split
  · rename_i h
    simp [Nat.not_lt.mpr h]
  · rename_i h
    have hlt : start < stop := Nat.not_le.mp h
    dsimp only
    split
    · rename_i hm
      simp only [List.any_eq_true, decide_eq_true_eq] at hm
      simp only [Finset.mem_insert, Meets, hlt, true_and]
      tauto
    · rename_i hm
      simp only [List.any_eq_true, decide_eq_true_eq] at hm
      exact ⟨.inl, fun h => h.resolve_right fun h' => hm h'.2.2⟩

theorem enqueue_dirty (st : QueueState Path) (path : Path) {start stop : Nat}
    (h : start < stop) :
    (enqueue st path start stop).dirty
      = st.dirty.insert path (mergeRange (row st.dirty path) start stop).1 := by
  rw [enqueue, if_neg (Nat.not_le.mpr h)]

theorem enqueue_dirtyBytes (st : QueueState Path) (path : Path) {start stop : Nat}
    (h : start < stop) :
    (enqueue st path start stop).dirtyBytes
      = addU64 st.dirtyBytes (mergeRange (row st.dirty path) start stop).2 := by
  rw [enqueue, if_neg (Nat.not_le.mpr h)]

theorem lookup_enqueue (st : QueueState Path) (path : Path) {start stop : Nat}
    (h : start < stop) (p : Path) :
    (enqueue st path start stop).dirty.lookup p =
      if p = path then some (mergeRange (row st.dirty path) start stop).1
      else st.dirty.lookup p := by
  rw [enqueue_dirty st path h]
  by_cases hp : p = path
  · rw [if_pos hp, hp, AList.lookup_insert]
  · rw [if_neg hp, AList.lookup_insert_ne hp]

/-! ## 3. `take_batch` -/

/-- The dirty ranges after the front of the first was claimed up to `pieceEnd`. -/
def dropFront (pieceEnd : Nat) : List Range → List Range
  | [] => []
  | (_, e) :: rest => if pieceEnd < e then (pieceEnd, e) :: rest else rest

/-- What one turn of the inner loop does with the piece it claims: take it off the front dirty
    range, forget the path's entry when that was the last, and put the piece in flight. -/
def claim (st : QueueState Path) (path : Path) (piece : Range) : QueueState Path :=
  let ranges := dropFront piece.2 (row st.dirty path)
  { st with
    dirty := if ranges = [] then st.dirty.erase path else st.dirty.insert path ranges
    dirtyBytes := st.dirtyBytes - (piece.2 - piece.1)
    inflightBytes := addU64 st.inflightBytes (piece.2 - piece.1)
    inflight := st.inflight.insert path (row st.inflight path ++ [piece]) }

/-- The inner `loop` of `take_batch` for one path. Each turn takes at least one byte off
    `left`, so `left` turns are enough fuel. Returns the state, the window left and the pieces
    claimed. -/
def claimLoop (path : Path) :
    Nat → QueueState Path → Nat → QueueState Path × Nat × List (Path × Range)
  | 0, st, left => (st, left, [])
  | fuel + 1, st, left =>
      match (st.dirty.lookup path).bind List.head? with
      | none => ({ st with dirty := st.dirty.erase path }, left, [])
      | some (s, e) =>
          let pieceEnd := min (min e (addU64 s chunkMax)) (addU64 s left)
          if pieceEnd ≤ s then (st, left, [])
          else
            let st' := claim st path (s, pieceEnd)
            let left' := left - (pieceEnd - s)
            if left' = 0 then (st', left', [(path, (s, pieceEnd))])
            else
              let r := claimLoop path fuel st' left'
              (r.1, r.2.1, (path, (s, pieceEnd)) :: r.2.2)

/-- The outer `for` of `take_batch`. -/
def claimPaths : List Path → QueueState Path → Nat → QueueState Path × List (Path × Range)
  | [], st, _ => (st, [])
  | path :: rest, st, left =>
      if left = 0 then (st, [])
      else if path ∈ st.blocked then claimPaths rest st left
      else
        let r := claimLoop path left st left
        let q := claimPaths rest r.1 r.2.1
        (q.1, r.2.2 ++ q.2)

/-- `take_batch` at instant `now`; `paths` is the order in which the `dirty` map yields its
    keys. -/
def takeBatch (st : QueueState Path) (now : Nat) (paths : List Path) :
    QueueState Path × List (Path × Range) :=
  if st.dirty.entries = [] ∨ now < st.retryAfter then (st, [])
  else
    let windowLeft := writeWindow - st.inflightBytes
    if windowLeft = 0 then (st, []) else claimPaths paths st windowLeft

/-- What the loop knows of a piece when it claims it: the path is not blocked, the piece is a
    nonempty front part of the path's first dirty range, and it fits chunk and window. -/
structure Claimable (st : QueueState Path) (path : Path) (piece : Range) : Prop where
  free : path ∉ st.blocked
  front : ∃ e rest, row st.dirty path = (piece.1, e) :: rest ∧ piece.2 ≤ e
  pos : piece.1 < piece.2
  chunk : piece.2 - piece.1 ≤ chunkMax
  window : st.inflightBytes + (piece.2 - piece.1) ≤ writeWindow

/-- A sequence of single claims, with the pieces in the order claimed. -/
inductive Claims : QueueState Path → List (Path × Range) → QueueState Path → Prop where
  | done (st : QueueState Path) : Claims st [] st
  | claim {st st' : QueueState Path} {path : Path} {piece : Range} {out : List (Path × Range)}
      (h : Claimable st path piece) (t : Claims (claim st path piece) out st') :
      Claims st ((path, piece) :: out) st'

theorem Claims.append {st st' st'' : QueueState Path} {out out' : List (Path × Range)}
    (h : Claims st out st') (h' : Claims st' out' st'') : Claims st (out ++ out') st'' := by
  induction h with
  | done => exact h'
  | claim hc _ ih => exact .claim hc (ih h')

section Claim

variable (st : QueueState Path) {path : Path} {piece : Range}

@[simp] theorem claim_blocked : (claim st path piece).blocked = st.blocked := rfl

@[simp] theorem claim_dirtyBytes :
    (claim st path piece).dirtyBytes = st.dirtyBytes - (piece.2 - piece.1) := rfl

@[simp] theorem row_inflight_claim_self :
    row (claim st path piece).inflight path = row st.inflight path ++ [piece] :=
  row_insert_self _ _ _

theorem row_inflight_claim_ne {p : Path} (h : p ≠ path) :
    row (claim st path piece).inflight p = row st.inflight p :=
  row_insert_ne h _ _

theorem row_claim_ne {p : Path} (h : p ≠ path) :
    row (claim st path piece).dirty p = row st.dirty p := by
  unfold claim
  dsimp only
  split
  · exact row_erase_ne h _
  · exact row_insert_ne h _ _

theorem row_claim_self :
    row (claim st path piece).dirty path = dropFront piece.2 (row st.dirty path) := by
  unfold claim
  dsimp only
  split
  · rename_i hn
    rw [row_erase_self, hn]
  · exact row_insert_self _ _ _

theorem lookup_claim_ne_nil (hne : ∀ p, st.dirty.lookup p ≠ some []) (p : Path) :
    (claim st path piece).dirty.lookup p ≠ some [] := by
  unfold claim
  dsimp only
  split
  · by_cases hp : p = path
    · rw [hp, AList.lookup_erase]
      exact Option.some_ne_none _ ∘ Eq.symm
    · rw [AList.lookup_erase_ne hp]
      exact hne p
  · rename_i hn
    by_cases hp : p = path
    · rw [hp, AList.lookup_insert]
      exact fun h => hn (Option.some.inj h)
    · rw [AList.lookup_insert_ne hp]
      exact hne p

theorem Claimable.inflightBytes (h : Claimable st path piece) :
    (claim st path piece).inflightBytes = st.inflightBytes + (piece.2 - piece.1) := by
  have hw := h.window
  have : writeWindow < 2 ^ 64 := by decide
  exact addU64_of_lt (by omega)

end Claim

/-- The first dirty range of a path. -/
theorem row_of_front {st : QueueState Path} {path : Path} {r : Range}
    (h : (st.dirty.lookup path).bind List.head? = some r) :
    ∃ rest, row st.dirty path = r :: rest := by
  obtain ⟨l, hl, hhead⟩ := Option.bind_eq_some_iff.mp h
  obtain ⟨rest, rfl⟩ := List.head?_eq_some_iff.mp hhead
  exact ⟨rest, row_of_lookup hl⟩

/-- A path without a first dirty range is not in the table, where no entry is empty. -/
theorem lookup_of_no_front {st : QueueState Path} {path : Path}
    (hne : ∀ p, st.dirty.lookup p ≠ some [])
    (h : (st.dirty.lookup path).bind List.head? = none) : st.dirty.lookup path = none := by
  cases hl : st.dirty.lookup path with
  | none => rfl
  | some l =>
    rw [hl] at h
    cases l with
    | nil => exact absurd hl (hne path)
    | cons r l => simp at h

/-- What a turn of the inner loop claims. -/
theorem claimable_front {st : QueueState Path} {path : Path} {s e left pieceEnd : Nat}
    (hf : (st.dirty.lookup path).bind List.head? = some (s, e)) (hb : path ∉ st.blocked)
    (hw : st.inflightBytes + left = writeWindow)
    (hpe : min (min e (addU64 s chunkMax)) (addU64 s left) = pieceEnd) (hpos : s < pieceEnd) :
    Claimable st path (s, pieceEnd) := by
  obtain ⟨rest, hrow⟩ := row_of_front hf
  have hle₁ : addU64 s chunkMax ≤ s + chunkMax := Nat.mod_le _ _
  have hle₂ : addU64 s left ≤ s + left := Nat.mod_le _ _
  exact
    { free := hb
      front := ⟨e, rest, hrow, by dsimp only; omega⟩
      pos := hpos
      chunk := by dsimp only; omega
      window := by dsimp only; omega }

/-- **The inner loop is a sequence of claims** and keeps the account of the window. -/
theorem claimLoop_claims (path : Path) : ∀ (fuel : Nat) (st : QueueState Path) (left : Nat),
    (∀ p, st.dirty.lookup p ≠ some []) → path ∉ st.blocked →
    st.inflightBytes + left = writeWindow →
    Claims st (claimLoop path fuel st left).2.2 (claimLoop path fuel st left).1 ∧
      (∀ p, (claimLoop path fuel st left).1.dirty.lookup p ≠ some []) ∧
      (claimLoop path fuel st left).1.blocked = st.blocked ∧
      (claimLoop path fuel st left).1.inflightBytes + (claimLoop path fuel st left).2.1
        = writeWindow
  | 0, st, left, hne, _, hw => ⟨.done st, hne, rfl, hw⟩
  | fuel + 1, st, left, hne, hb, hw => by
      unfold claimLoop
      split
      · rename_i hf
        -- no first range and no empty entry: the path is absent, nothing is removed
        rw [erase_of_lookup_eq_none (lookup_of_no_front hne hf)]
        exact ⟨.done st, hne, rfl, hw⟩
      · rename_i s e hf
        dsimp only
        split
        · exact ⟨.done st, hne, rfl, hw⟩
        · rename_i hpos
          generalize hpe : min (min e (addU64 s chunkMax)) (addU64 s left) = pieceEnd at hpos ⊢
          have hc := claimable_front hf hb hw hpe (Nat.not_le.mp hpos)
          have hle : addU64 s left ≤ s + left := Nat.mod_le _ _
          have hbytes := hc.inflightBytes
          dsimp only at hbytes
          have hne' := @lookup_claim_ne_nil _ _ st path (s, pieceEnd) hne
          split
          · exact ⟨.claim hc (.done _), hne', rfl, by dsimp only; rw [hbytes]; omega⟩
          · obtain ⟨h₁, h₂, h₃, h₄⟩ := claimLoop_claims path fuel (claim st path (s, pieceEnd))
              (left - (pieceEnd - s)) hne' hb (by rw [hbytes]; omega)
            exact ⟨.claim hc h₁, h₂, h₃, h₄⟩

theorem claimPaths_claims : ∀ (paths : List Path) (st : QueueState Path) (left : Nat),
    (∀ p, st.dirty.lookup p ≠ some []) → st.inflightBytes + left = writeWindow →
    Claims st (claimPaths paths st left).2 (claimPaths paths st left).1
  | [], st, _, _, _ => .done st
  | path :: rest, st, left, hne, hw => by
      unfold claimPaths
      split
      · exact .done st
      · split
        · exact claimPaths_claims rest st left hne hw
        · rename_i hb
          obtain ⟨h₁, h₂, _, h₄⟩ := claimLoop_claims path left st left hne hb hw
          exact h₁.append (claimPaths_claims rest _ _ h₂ h₄)

/-- **`take_batch` is a sequence of claims.** -/
theorem takeBatch_claims (st : QueueState Path) (now : Nat) (paths : List Path)
    (hne : ∀ p, st.dirty.lookup p ≠ some []) (hw : st.inflightBytes ≤ writeWindow) :
    Claims st (takeBatch st now paths).2 (takeBatch st now paths).1 := by
  unfold takeBatch
  split
  · exact .done st
  · dsimp only
    split
    · exact .done st
    · exact claimPaths_claims paths st _ hne (by omega)

/-! ## 4. `finish` -/

/-- `finish`, first part: the piece leaves flight. -/
def land (st : QueueState Path) (path : Path) (range : Range) : QueueState Path :=
  let list := (row st.inflight path).filter (· ≠ range)
  { st with
    inflightBytes := st.inflightBytes - (range.2 - range.1)
    inflight :=
      match st.inflight.lookup path with
      | none => st.inflight
      | some _ =>
          if list = [] then st.inflight.erase path else st.inflight.insert path list }

/-- `finish`, second part: the `match` on the outcome. `retry` puts the bytes back among the
    dirty ones. -/
def settle (st : QueueState Path) (path : Path) (range : Range) (outcome : SendOutcome)
    (now : Nat) : QueueState Path :=
  match outcome with
  | .sent => { st with retryAfter := now, backoffMs := 0 }
  | .retry =>
      let backoff := min (max st.backoffMs 100 * 2) 2000
      let m := mergeRange (row st.dirty path) range.1 range.2
      { st with
        errors := st.errors + 1
        backoffMs := backoff
        retryAfter := now + backoff
        dirtyBytes := addU64 st.dirtyBytes m.2
        dirty := st.dirty.insert path m.1 }
  | .drop => { st with errors := st.errors + 1 }

/-- `finish`, last part: a path with nothing left in flight is unblocked. -/
def unblock (st : QueueState Path) (path : Path) : QueueState Path :=
  { st with
    blocked :=
      if (st.inflight.lookup path).isSome then st.blocked else st.blocked.erase path }

/-- `finish` at instant `now`. -/
def finish (st : QueueState Path) (path : Path) (range : Range) (outcome : SendOutcome)
    (now : Nat) : QueueState Path :=
  unblock (settle (land st path range) path range outcome now) path

section Settle

variable (st : QueueState Path) (path : Path) (range : Range) (outcome : SendOutcome) (now : Nat)

@[simp] theorem settle_inflight : (settle st path range outcome now).inflight = st.inflight := by
  cases outcome <;> rfl

@[simp] theorem settle_inflightBytes :
    (settle st path range outcome now).inflightBytes = st.inflightBytes := by
  cases outcome <;> rfl

@[simp] theorem settle_blocked : (settle st path range outcome now).blocked = st.blocked := by
  cases outcome <;> rfl

end Settle

section Finish

variable (st : QueueState Path) (path : Path) (range : Range) (outcome : SendOutcome) (now : Nat)

@[simp] theorem finish_inflightBytes :
    (finish st path range outcome now).inflightBytes
      = st.inflightBytes - (range.2 - range.1) :=
  settle_inflightBytes _ _ _ _ _

/-- The in-flight table does not depend on the outcome. -/
theorem finish_inflight :
    (finish st path range outcome now).inflight = (land st path range).inflight :=
  settle_inflight _ _ _ _ _

theorem finish_blocked :
    (finish st path range outcome now).blocked =
      if ((land st path range).inflight.lookup path).isSome then st.blocked
      else st.blocked.erase path := by
  unfold finish unblock
  simp only [settle_inflight, settle_blocked]
  rfl

theorem row_inflight_finish_self :
    row (finish st path range outcome now).inflight path
      = (row st.inflight path).filter (· ≠ range) := by
  rw [finish_inflight]
  unfold land
  dsimp only
  split
  · rename_i h
    simp [row, h]
  · split
    · rename_i h
      rw [row_erase_self, h]
    · exact row_insert_self _ _ _

theorem row_inflight_finish_ne {p : Path} (h : p ≠ path) :
    row (finish st path range outcome now).inflight p = row st.inflight p := by
  rw [finish_inflight]
  unfold land
  dsimp only
  split
  · rfl
  · split
    · exact row_erase_ne h _
    · exact row_insert_ne h _ _

theorem finish_dirty :
    (finish st path range outcome now).dirty =
      if outcome = .retry then
        st.dirty.insert path (mergeRange (row st.dirty path) range.1 range.2).1
      else st.dirty := by
  cases outcome <;> rfl

theorem finish_dirtyBytes :
    (finish st path range outcome now).dirtyBytes =
      if outcome = .retry then
        addU64 st.dirtyBytes (mergeRange (row st.dirty path) range.1 range.2).2
      else st.dirtyBytes := by
  cases outcome <;> rfl

theorem row_finish_self :
    row (finish st path range outcome now).dirty path =
      if outcome = .retry then (mergeRange (row st.dirty path) range.1 range.2).1
      else row st.dirty path := by
  rw [finish_dirty]
  split
  · exact row_insert_self _ _ _
  · rfl

theorem row_finish_ne {p : Path} (h : p ≠ path) :
    row (finish st path range outcome now).dirty p = row st.dirty p := by
  rw [finish_dirty]
  split
  · exact row_insert_ne h _ _
  · rfl

end Finish

/-! ## 5. `wait_drain` and `wait_below` -/

/-- One look of `wait_drain` at the state, under the lock: `ok` when no dirty and no in-flight
    data remains for `paths`, else `eio` when a send has failed since the snapshot
    `startErrors`, else keep waiting. -/
inductive DrainLook where
  | ok
  | eio
  | wait
  deriving DecidableEq, Repr

def drainLook (st : QueueState Path) (paths : List Path) (startErrors : Nat) : DrainLook :=
  let pending := paths.any fun p => row st.dirty p ≠ [] ∨ row st.inflight p ≠ []
  if ¬ pending then .ok else if startErrors < st.errors then .eio else .wait

theorem drainLook_eq_ok {st : QueueState Path} {paths : List Path} {startErrors : Nat} :
    drainLook st paths startErrors = .ok ↔
      ∀ p ∈ paths, row st.dirty p = [] ∧ row st.inflight p = [] := by
  have h : (paths.any fun p => row st.dirty p ≠ [] ∨ row st.inflight p ≠ []) = false ↔
      ∀ p ∈ paths, row st.dirty p = [] ∧ row st.inflight p = [] := by
    simp [List.any_eq_false, not_or]
  rw [← h, drainLook]
  cases paths.any fun p => row st.dirty p ≠ [] ∨ row st.inflight p ≠ []
  · simp
  · simp only [not_true_eq_false, if_false]
    split <;> simp

/-- The test of `wait_below`: a writer passes when the counted backlog is at most `cap`. -/
def waitBelow (st : QueueState Path) (cap : Nat) : Bool := st.dirtyBytes ≤ cap

end Relayfs

/-
  File:      Relayfs/Queue/Invariant.lean
  Subject:   THE INVARIANT OF THE UPLOAD QUEUE, and that `enqueue`, a claim and `finish` keep it.

  `QueueInv` relates the four structures under the lock: dirty ranges are tidy; in-flight
  pieces are nonempty, at most a chunk long and do not meet; no byte is dirty and in flight at
  once unless its path is blocked; a blocked path has a piece in flight; `inflight_bytes` is the
  sum of the in-flight lengths and fits the window.
-/
import Relayfs.Queue.UploadQueue

namespace Relayfs

open Lib

variable {Path : Type} [DecidableEq Path]

/-- **The queue's invariant.** -/
structure QueueInv (st : QueueState Path) : Prop where
  noEmptyRow : ∀ p, st.dirty.lookup p ≠ some []
  tidy : ∀ p, Tidy (row st.dirty p)
  ends : ∀ p, ∀ r ∈ row st.dirty p, r.2 ≤ 2 ^ 64 - 1
  pos : ∀ p, ∀ r ∈ row st.inflight p, r.1 < r.2
  chunk : ∀ p, ∀ r ∈ row st.inflight p, r.2 - r.1 ≤ chunkMax
  flightEnds : ∀ p, ∀ r ∈ row st.inflight p, r.2 ≤ 2 ^ 64 - 1
  apart : ∀ p, (row st.inflight p).Pairwise fun a b => ¬ Meets a b
  free : ∀ p, p ∉ st.blocked → ∀ x, Covers (row st.dirty p) x → ¬ Covers (row st.inflight p) x
  held : ∀ p ∈ st.blocked, row st.inflight p ≠ []
  flightSum : st.inflightBytes = weigh total st.inflight
  window : st.inflightBytes ≤ writeWindow

theorem queueInv_new (now : Nat) : QueueInv (QueueState.new now : QueueState Path) where
  noEmptyRow p := by simp [QueueState.new]
  tidy p := by simp [QueueState.new]
  ends p := by simp [QueueState.new]
  pos p := by simp [QueueState.new]
  chunk p := by simp [QueueState.new]
  flightEnds p := by simp [QueueState.new]
  apart p := by simp [QueueState.new]
  free p _ x := by simp [QueueState.new]
  held p h := by simp [QueueState.new] at h
  flightSum := rfl
  window := Nat.zero_le _

/-! ## 1. `enqueue` -/

theorem QueueInv.enqueue {st : QueueState Path} (h : QueueInv st) (path : Path)
    {start stop : Nat} (hu : stop < 2 ^ 64) : QueueInv (enqueue st path start stop) := by
  by_cases hlt : start < stop
  swap
  · -- an empty range changes nothing
    rw [Relayfs.enqueue, if_pos (Nat.not_lt.mp hlt)]
    exact h
  exact
    { noEmptyRow := fun p => by
        rw [lookup_enqueue st path hlt]
        split
        · exact fun hn => mergeRange_ne_nil hlt (Option.some.inj hn)
        · exact h.noEmptyRow p
      tidy := fun p => by
        by_cases hp : p = path
        · rw [hp, row_enqueue_self]
          exact tidy_mergeRange (h.tidy path)
        · rw [row_enqueue_ne st hp]
          exact h.tidy p
      ends := fun p => by
        by_cases hp : p = path
        · rw [hp, row_enqueue_self]
          exact mergeRange_upper (by omega) (h.ends path)
        · rw [row_enqueue_ne st hp]
          exact h.ends p
      pos := by simpa using h.pos
      chunk := by simpa using h.chunk
      flightEnds := by simpa using h.flightEnds
      apart := by simpa using h.apart
      free := fun p hp x hx => by
        rw [mem_blocked_enqueue, not_or] at hp
        rw [enqueue_inflight]
        by_cases hpp : p = path
        · subst hpp
          rw [row_enqueue_self, covers_mergeRange] at hx
          rcases hx with hx | hx
          · -- a byte of the new range that is in flight would have blocked the path
            intro h'
            obtain ⟨r, hr, hxr⟩ := h'
            exact hp.2 ⟨rfl, hlt, r, hr, Meets.of_inside hx hxr⟩
          · exact h.free p hp.1 x hx
        · rw [row_enqueue_ne st hpp] at hx
          exact h.free p hp.1 x hx
      held := fun p hp => by
        rw [enqueue_inflight]
        rcases (mem_blocked_enqueue st path p start stop).mp hp with hp | ⟨rfl, _, r, hr, _⟩
        · exact h.held p hp
        · exact List.ne_nil_of_mem hr
      flightSum := by simpa using h.flightSum
      window := by simpa using h.window }

/-! ## 2. Claims -/

theorem tidy_dropFront {l : List Range} (hl : Tidy l) (c : Nat) : Tidy (dropFront c l) := by
  cases l with
  | nil => exact hl
  | cons r rest =>
    obtain ⟨hr, hgap, hrest⟩ := (tidy_cons _ _).mp hl
    simp only [dropFront]
    split
    · rename_i hc
      exact (tidy_cons _ _).mpr ⟨hc, hgap, hrest⟩
    · exact hrest

theorem dropFront_ends {l : List Range} {b : Nat} (hl : ∀ r ∈ l, r.2 ≤ b) (c : Nat) :
    ∀ r ∈ dropFront c l, r.2 ≤ b := by
  cases l with
  | nil => exact hl
  | cons r rest =>
    rw [List.forall_mem_cons] at hl
    simp only [dropFront]
    split
    · exact List.forall_mem_cons.mpr hl
    · exact hl.2

/-- The claimed bytes leave the dirty ranges, every other byte stays. -/
theorem covers_dropFront {s e c : Nat} {rest : List Range} (hl : Tidy ((s, e) :: rest))
    (hse : s < c) (hc : c ≤ e) (x : Nat) :
    Covers (dropFront c ((s, e) :: rest)) x ↔ Covers ((s, e) :: rest) x ∧ ¬ Inside x (s, c) := by
  obtain ⟨hr, hgap, hrest⟩ := (tidy_cons _ _).mp hl
  -- a byte of a later range lies past the claimed piece
  have hlater : Covers rest x → ¬ Inside x (s, c) := by
    intro h hin
    obtain ⟨q, hq, hx⟩ := h
    have h₁ := hgap q hq
    have h₂ := hx.1
    have h₃ := hin.2
    dsimp only at h₁ h₃
    omega
  have hfront : Inside x (c, e) ↔ Inside x (s, e) ∧ ¬ Inside x (s, c) := by
    simp only [Inside]
    omega
  have hempty : ¬ c < e → ¬ (Inside x (s, e) ∧ ¬ Inside x (s, c)) := by
    simp only [Inside]
    omega
  simp only [dropFront]
  split
  · rw [covers_cons, covers_cons, hfront]
    tauto
  · rename_i hce
    rw [covers_cons, or_and_right, or_iff_right (hempty hce)]
    exact ⟨fun hx => ⟨hx, hlater hx⟩, And.left⟩

theorem Claimable.covers {st : QueueState Path} {path : Path} {piece : Range}
    (hc : Claimable st path piece) (ht : Tidy (row st.dirty path)) (x : Nat) :
    Covers (row (claim st path piece).dirty path) x ↔
      Covers (row st.dirty path) x ∧ ¬ Inside x piece := by
  obtain ⟨e, rest, hrow, he⟩ := hc.front
  rw [row_claim_self]
  rw [hrow] at ht ⊢
  exact covers_dropFront ht hc.pos he x

/-- A claimed piece leaves the dirty ranges. -/
theorem Claimable.total_row {st : QueueState Path} {path : Path} {piece : Range}
    (hc : Claimable st path piece) :
    total (dropFront piece.2 (row st.dirty path)) + (piece.2 - piece.1)
      = total (row st.dirty path) := by
  obtain ⟨e, rest, hrow, he⟩ := hc.front
  have hpos := hc.pos
  rw [hrow, dropFront]
  split
  · rw [total_cons, total_cons]
    dsimp only
    omega
  · rw [total_cons]
    dsimp only
    omega

/-- The piece claimed was dirty. -/
theorem Claimable.dirty {st : QueueState Path} {path : Path} {piece : Range}
    (hc : Claimable st path piece) {x : Nat} (hx : Inside x piece) :
    Covers (row st.dirty path) x := by
  obtain ⟨e, rest, hrow, he⟩ := hc.front
  rw [hrow]
  exact Covers.of_mem List.mem_cons_self (hx.within ⟨le_rfl, he⟩)

theorem QueueInv.claim {st : QueueState Path} (h : QueueInv st) {path : Path} {piece : Range}
    (hc : Claimable st path piece) : QueueInv (claim st path piece) := by
  have hflight : ∀ {P : Range → Prop}, (∀ p, ∀ r ∈ row st.inflight p, P r) → P piece →
      ∀ p, ∀ r ∈ row (Relayfs.claim st path piece).inflight p, P r := by
    intro P hP hpiece p r hr
    by_cases hp : p = path
    · subst hp
      rw [row_inflight_claim_self, List.mem_append, List.mem_singleton] at hr
      rcases hr with hr | rfl
      · exact hP p r hr
      · exact hpiece
    · rw [row_inflight_claim_ne st hp] at hr
      exact hP p r hr
  have hend : piece.2 ≤ 2 ^ 64 - 1 := by
    obtain ⟨e, rest, hrow, he⟩ := hc.front
    have := h.ends path (piece.1, e) (by rw [hrow]; exact List.mem_cons_self)
    exact le_trans he this
  have hbytes := hc.inflightBytes
  exact
    { noEmptyRow := lookup_claim_ne_nil st h.noEmptyRow
      tidy := fun p => by
        by_cases hp : p = path
        · rw [hp, row_claim_self]
          exact tidy_dropFront (h.tidy path) _
        · rw [row_claim_ne st hp]
          exact h.tidy p
      ends := fun p => by
        by_cases hp : p = path
        · rw [hp, row_claim_self]
          exact dropFront_ends (h.ends path) _
        · rw [row_claim_ne st hp]
          exact h.ends p
      pos := hflight h.pos hc.pos
      chunk := hflight h.chunk hc.chunk
      flightEnds := hflight h.flightEnds hend
      apart := fun p => by
        by_cases hp : p = path
        · subst hp
          rw [row_inflight_claim_self, List.pairwise_append]
          refine ⟨h.apart p, List.pairwise_singleton _ _, fun a ha b hb hm => ?_⟩
          rw [List.mem_singleton] at hb
          subst hb
          obtain ⟨x, hxa, hxb⟩ := (meets_iff (h.pos p a ha) hc.pos).mp hm
          exact h.free p hc.free x (hc.dirty hxb) (Covers.of_mem ha hxa)
        · rw [row_inflight_claim_ne st hp]
          exact h.apart p
      free := fun p hp x hx => by
        by_cases hpp : p = path
        · subst hpp
          obtain ⟨hd, hn⟩ := (hc.covers (h.tidy p) x).mp hx
          rw [row_inflight_claim_self, covers_append, covers_cons]
          simp only [covers_nil, or_false, not_or]
          exact ⟨h.free p hp x hd, hn⟩
        · rw [row_claim_ne st hpp] at hx
          rw [row_inflight_claim_ne st hpp]
          exact h.free p hp x hx
      held := fun p hp => by
        by_cases hpp : p = path
        · subst hpp
          exact absurd hp hc.free
        · rw [row_inflight_claim_ne st hpp]
          exact h.held p hp
      flightSum := by
        have hw := weigh_insert total st.inflight path (row st.inflight path ++ [piece])
        rw [lookup_elim_row rfl, total_append, total_cons, total_nil] at hw
        have hs := h.flightSum
        have hk : weigh total (Relayfs.claim st path piece).inflight
            = weigh total (st.inflight.insert path (row st.inflight path ++ [piece])) := rfl
        omega
      window := by
        rw [hbytes]
        exact hc.window }

theorem QueueInv.claims {st st' : QueueState Path} {out : List (Path × Range)} (h : QueueInv st)
    (hc : Claims st out st') : QueueInv st' := by
  induction hc with
  | done => exact h
  | claim hc _ ih => exact ih (h.claim hc)

theorem QueueInv.takeBatch_claims {st : QueueState Path} (h : QueueInv st) (now : Nat)
    (paths : List Path) : Claims st (takeBatch st now paths).2 (takeBatch st now paths).1 :=
  Relayfs.takeBatch_claims st now paths h.noEmptyRow h.window

theorem QueueInv.takeBatch {st : QueueState Path} (h : QueueInv st) (now : Nat)
    (paths : List Path) : QueueInv (takeBatch st now paths).1 :=
  h.claims (h.takeBatch_claims now paths)

/-! ## 3. `finish` -/

section Finish

variable {st : QueueState Path} {path : Path} {range : Range}

theorem QueueInv.nodup (h : QueueInv st) (p : Path) : (row st.inflight p).Nodup :=
  nodup_of_apart (h.pos p) (h.apart p)

/-- What stays in flight on any path after a finish was in flight before. -/
theorem mem_inflight_finish {outcome : SendOutcome} {now : Nat} {p : Path} {r : Range} :
    r ∈ row (finish st path range outcome now).inflight p ↔
      r ∈ row st.inflight p ∧ (p = path → r ≠ range) := by
  by_cases hp : p = path
  · subst hp
    simp [row_inflight_finish_self]
  · simp [row_inflight_finish_ne st path range outcome now hp, hp]

/-- After the piece has landed, the path is in the in-flight table exactly while it has pieces
    left there. -/
theorem land_lookup_isSome :
    ((land st path range).inflight.lookup path).isSome ↔
      row (land st path range).inflight path ≠ [] := by
  unfold land
  dsimp only
  cases h : st.inflight.lookup path with
  | none => simp [h, row]
  | some l =>
    dsimp only
    split <;> simp_all

theorem covers_finish_self {outcome : SendOutcome} {now : Nat} (x : Nat) :
    Covers (row (finish st path range outcome now).dirty path) x ↔
      Covers (row st.dirty path) x ∨ (outcome = .retry ∧ Inside x range) := by
  rw [row_finish_self]
  split
  · rename_i ho
    rw [covers_mergeRange]
    tauto
  · tauto

/-- Two in-flight pieces of a path with a byte in common are one. -/
theorem QueueInv.eq_of_inside (h : QueueInv st) {p : Path} {r q : Range}
    (hr : r ∈ row st.inflight p) (hq : q ∈ row st.inflight p) {x : Nat} (hx : Inside x r)
    (hxq : Inside x q) : r = q := by
  by_contra hne
  have hsymm : Std.Symm fun a b : Range => ¬ Meets a b := ⟨fun _ _ hn hm => hn hm.symm⟩
  exact (h.apart p).forall hr hq hne (Meets.of_inside hx hxq)

/-- A byte of the finished piece is in no other in-flight piece of the path. -/
theorem QueueInv.landed_apart (h : QueueInv st) (hr : range ∈ row st.inflight path)
    {outcome : SendOutcome} {now : Nat} {x : Nat} (hx : Inside x range) :
    ¬ Covers (row (Relayfs.finish st path range outcome now).inflight path) x := by
  intro h'
  obtain ⟨q, hq, hxq⟩ := h'
  obtain ⟨hq', hne⟩ := mem_inflight_finish.mp hq
  exact hne rfl (h.eq_of_inside hq' hr hxq hx)

/-- A finished piece leaves the sum of what is in flight. -/
theorem QueueInv.weigh_land (h : QueueInv st) (hr : range ∈ row st.inflight path) :
    weigh total (land st path range).inflight + (range.2 - range.1) = weigh total st.inflight := by
  have hf := total_filter_ne (h.nodup path) hr
  have hsome : ∃ l, st.inflight.lookup path = some l := by
    cases hl : st.inflight.lookup path with
    | none => simp [row, hl] at hr
    | some l => exact ⟨l, rfl⟩
  obtain ⟨l, hl⟩ := hsome
  have hrow : total (row st.inflight path) = total l := by rw [row_of_lookup hl]
  have hi : ∀ q, weigh total (st.inflight.insert path q) + total l
      = weigh total st.inflight + total q := fun q => by
    have hi := weigh_insert total st.inflight path q
    rwa [hl] at hi
  unfold land
  rw [hl]
  dsimp only
  split
  · rename_i hn
    have he := weigh_erase total st.inflight path
    rw [hl] at he
    rw [hn, total_nil] at hf
    simp only [Option.elim_some] at he
    omega
  · have hgoal := hi ((row st.inflight path).filter fun x => decide (x ≠ range))
    rw [hrow] at hf
    refine Nat.add_right_cancel (?_ : _ + total l = _ + total l)
    rw [Nat.add_right_comm, hgoal, Nat.add_assoc, hf]

/-- **A finished piece keeps the invariant.** -/
theorem QueueInv.finish (h : QueueInv st) (hr : range ∈ row st.inflight path)
    (outcome : SendOutcome) (now : Nat) : QueueInv (finish st path range outcome now) := by
  have hpos := h.pos path range hr
  have hsum := h.weigh_land hr
  exact
    { noEmptyRow := fun p => by
        rw [finish_dirty]
        split
        · by_cases hp : p = path
          · rw [hp, AList.lookup_insert]
            exact fun hn => mergeRange_ne_nil hpos (Option.some.inj hn)
          · rw [AList.lookup_insert_ne hp]
            exact h.noEmptyRow p
        · exact h.noEmptyRow p
      tidy := fun p => by
        by_cases hp : p = path
        · rw [hp, row_finish_self]
          split
          · exact tidy_mergeRange (h.tidy path)
          · exact h.tidy path
        · rw [row_finish_ne st path range outcome now hp]
          exact h.tidy p
      ends := fun p => by
        by_cases hp : p = path
        · rw [hp, row_finish_self]
          split
          · exact mergeRange_upper (h.flightEnds path range hr) (h.ends path)
          · exact h.ends path
        · rw [row_finish_ne st path range outcome now hp]
          exact h.ends p
      pos := fun p r hrp => h.pos p r (mem_inflight_finish.mp hrp).1
      chunk := fun p r hrp => h.chunk p r (mem_inflight_finish.mp hrp).1
      flightEnds := fun p r hrp => h.flightEnds p r (mem_inflight_finish.mp hrp).1
      apart := fun p => by
        by_cases hp : p = path
        · rw [hp, row_inflight_finish_self]
          exact (h.apart path).filter _
        · rw [row_inflight_finish_ne st path range outcome now hp]
          exact h.apart p
      free := fun p hp x hx => by
        by_cases hpp : p = path
        · subst hpp
          intro hfl
          -- something is left in flight, so the path was not unblocked: it was free before
          have hp' : p ∉ st.blocked := by
            rw [finish_blocked] at hp
            rwa [if_pos (land_lookup_isSome.mpr ?_)] at hp
            rw [← finish_inflight st p range outcome now]
            obtain ⟨q, hq, _⟩ := hfl
            exact List.ne_nil_of_mem hq
          rcases (covers_finish_self x).mp hx with hx | ⟨_, hx⟩
          · obtain ⟨q, hq, hxq⟩ := hfl
            exact h.free p hp' x hx (Covers.of_mem (mem_inflight_finish.mp hq).1 hxq)
          · exact h.landed_apart hr hx hfl
        · rw [row_finish_ne st path range outcome now hpp] at hx
          rw [row_inflight_finish_ne st path range outcome now hpp]
          refine h.free p (fun hb => hp ?_) x hx
          rw [finish_blocked]
          split
          · exact hb
          · exact Finset.mem_erase.mpr ⟨hpp, hb⟩
      held := fun p hp => by
        by_cases hpp : p = path
        · subst hpp
          rw [finish_inflight]
          apply land_lookup_isSome.mp
          by_contra hn
          rw [finish_blocked, if_neg hn] at hp
          exact Finset.notMem_erase p _ hp
        · rw [row_inflight_finish_ne st path range outcome now hpp]
          refine h.held p ?_
          rw [finish_blocked] at hp
          split at hp
          · exact hp
          · exact (Finset.mem_erase.mp hp).2
      flightSum := by
        rw [finish_inflightBytes, finish_inflight, h.flightSum]
        omega
      window := by
        rw [finish_inflightBytes]
        exact le_trans (Nat.sub_le _ _) h.window }

end Finish

end Relayfs

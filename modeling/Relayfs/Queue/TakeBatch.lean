/-
  File:      Relayfs/Queue/TakeBatch.lean
  Subject:   `take_batch` COMES TO ITS END AND FILLS THE WINDOW.

  The two loops of `take_batch` look entries up that they expect to find, and walk a map whose
  entries they shrink and delete.

  * `claimTurns`, `takeBatchTurns` -- the loops turn by turn, with what would stop them: the
    `expect`, an index past the end, more turns than given;
  * `takeBatchTurns_eq` -- none of it happens: as many turns as the window has bytes are enough;
  * `QueueState.openBacklog` -- the dirty bytes of the paths that are not blocked;
  * `claimLoop_exhausts`, `claimPaths_exhausts` -- a loop ends with the window full or nothing left
    to claim;
  * `takeBatch_fills` -- the batch is as long as the window and the open backlog allow.
-/
import Relayfs.Queue.Run

namespace Relayfs

open Lib

variable {Path : Type} [DecidableEq Path]

/-! ## 1. The loops with what could stop them -/

/-- Where `take_batch` would not return. -/
inductive BatchFault where
  /-- `expect("entry exists")` on an absent entry. -/
  | expect
  /-- `ranges[0]` of an empty vector. -/
  | index
  /-- A loop that is not over after the turns it was given. -/
  | endless
  deriving DecidableEq, Repr

/-- The inner `loop` of `take_batch`, at most so many turns of it. -/
def claimTurns (path : Path) : Nat → QueueState Path → Nat →
    Except BatchFault (QueueState Path × Nat × List (Path × Range))
  | 0, _, _ => .error .endless
  | turns + 1, st, left =>
      match (st.dirty.lookup path).bind List.head? with
      | none => .ok ({ st with dirty := st.dirty.erase path }, left, [])
      | some (s, e) =>
          let pieceEnd := min (min e (addU64 s chunkMax)) (addU64 s left)
          if pieceEnd ≤ s then .ok (st, left, [])
          else match st.dirty.lookup path with
            | none => .error .expect
            | some [] => .error .index
            | some ((_, e₀) :: rest) =>
                let ranges := if pieceEnd < e₀ then (pieceEnd, e₀) :: rest else rest
                let st' : QueueState Path :=
                  { st with
                    dirty :=
                      if ranges = [] then st.dirty.erase path else st.dirty.insert path ranges
                    dirtyBytes := st.dirtyBytes - (pieceEnd - s)
                    inflightBytes := addU64 st.inflightBytes (pieceEnd - s)
                    inflight := st.inflight.insert path (row st.inflight path ++ [(s, pieceEnd)]) }
                let left' := left - (pieceEnd - s)
                if left' = 0 then .ok (st', left', [(path, (s, pieceEnd))])
                else (claimTurns path turns st' left').map fun r =>
                  (r.1, r.2.1, (path, (s, pieceEnd)) :: r.2.2)

/-- The outer `for`, with so many turns for the inner loop of each path. -/
def claimPathsTurns (turns : Nat) : List Path → QueueState Path → Nat →
    Except BatchFault (QueueState Path × List (Path × Range))
  | [], st, _ => .ok (st, [])
  | path :: rest, st, left =>
      if left = 0 then .ok (st, [])
      else if path ∈ st.blocked then claimPathsTurns turns rest st left
      else
        (claimTurns path turns st left).bind fun r =>
          (claimPathsTurns turns rest r.1 r.2.1).map fun q => (q.1, r.2.2 ++ q.2)

/-- `take_batch` with its faults. -/
def takeBatchTurns (turns : Nat) (st : QueueState Path) (now : Nat) (paths : List Path) :
    Except BatchFault (QueueState Path × List (Path × Range)) :=
  if st.dirty.entries = [] ∨ now < st.retryAfter then .ok (st, [])
  else
    let windowLeft := writeWindow - st.inflightBytes
    if windowLeft = 0 then .ok (st, []) else claimPathsTurns turns paths st windowLeft

/-- A turn of the inner loop takes a byte off the window. -/
theorem claimTurns_eq (path : Path) : ∀ (turns fuel : Nat) (st : QueueState Path) (left : Nat),
    0 < left → left ≤ turns → left ≤ fuel →
    claimTurns path turns st left = .ok (claimLoop path fuel st left)
  | 0, _, _, left, hpos, hturns, _ => by omega
  | turns + 1, 0, _, left, hpos, _, hfuel => by omega
  | turns + 1, fuel + 1, st, left, hpos, hturns, hfuel => by
      rw [claimTurns, claimLoop]
      cases hf : (st.dirty.lookup path).bind List.head? with
      | none => rfl
      | some r =>
        obtain ⟨s, e⟩ := r
        dsimp only
        generalize min (min e (addU64 s chunkMax)) (addU64 s left) = pieceEnd
        by_cases hend : pieceEnd ≤ s
        · rw [if_pos hend, if_pos hend]
        · rw [if_neg hend, if_neg hend]
          -- the front that was just looked at is still there
          obtain ⟨l, hl, hhead⟩ := Option.bind_eq_some_iff.mp hf
          obtain ⟨rest, rfl⟩ := List.head?_eq_some_iff.mp hhead
          have hrow : row st.dirty path = (s, e) :: rest := row_of_lookup hl
          rw [hl]
          dsimp only
          rw [claim, hrow]
          dsimp only [dropFront]
          by_cases hleft : left - (pieceEnd - s) = 0
          · rw [if_pos hleft, if_pos hleft]
            rfl
          · rw [if_neg hleft, if_neg hleft,
              claimTurns_eq path turns fuel _ (left - (pieceEnd - s)) (by omega) (by omega)
                (by omega)]
            rfl

/-- What the inner loop leaves of the window. -/
theorem claimLoop_left (path : Path) : ∀ (fuel : Nat) (st : QueueState Path) (left : Nat),
    (claimLoop path fuel st left).2.1 ≤ left
  | 0, _, _ => le_rfl
  | fuel + 1, st, left => by
      rw [claimLoop]
      split
      · exact le_rfl
      · dsimp only
        split
        · exact le_rfl
        · split
          · exact Nat.sub_le _ _
          · exact le_trans (claimLoop_left path fuel _ _) (Nat.sub_le _ _)

theorem claimPathsTurns_eq {turns : Nat} : ∀ (paths : List Path) (st : QueueState Path)
    (left : Nat), left ≤ turns →
    claimPathsTurns turns paths st left = .ok (claimPaths paths st left)
  | [], _, _, _ => rfl
  | path :: rest, st, left, hturns => by
      rw [claimPathsTurns, claimPaths]
      by_cases hleft : left = 0
      · rw [if_pos hleft, if_pos hleft]
      · rw [if_neg hleft, if_neg hleft]
        by_cases hb : path ∈ st.blocked
        · rw [if_pos hb, if_pos hb]
          exact claimPathsTurns_eq rest st left hturns
        · rw [if_neg hb, if_neg hb,
            claimTurns_eq path turns left st left (Nat.pos_of_ne_zero hleft) hturns le_rfl]
          show (claimPathsTurns turns rest _ _).map _ = _
          rw [claimPathsTurns_eq rest _ _ (le_trans (claimLoop_left path left st left) hturns)]
          rfl

/-- **`take_batch` returns**, after no more turns of a loop than the window has bytes, past its
    `expect` and its index. -/
theorem takeBatchTurns_eq {turns : Nat} (hturns : writeWindow ≤ turns) (st : QueueState Path)
    (now : Nat) (paths : List Path) :
    takeBatchTurns turns st now paths = .ok (takeBatch st now paths) := by
  unfold takeBatchTurns takeBatch
  split
  · rfl
  · dsimp only
    split
    · rfl
    · exact claimPathsTurns_eq paths st _ (le_trans (Nat.sub_le _ _) hturns)

/-! ## 2. What a claim takes -/

/-- The dirty bytes of the paths that are not blocked. -/
def QueueState.openBacklog (st : QueueState Path) : Nat :=
  weighBy (fun path ranges => if path ∈ st.blocked then 0 else total ranges) st.dirty

/-- The bytes of a batch. -/
def batchBytes (out : List (Path × Range)) : Nat := total (out.map Prod.snd)

omit [DecidableEq Path] in
@[simp] theorem batchBytes_nil : batchBytes ([] : List (Path × Range)) = 0 := rfl

omit [DecidableEq Path] in
@[simp] theorem batchBytes_cons (path : Path) (piece : Range) (out : List (Path × Range)) :
    batchBytes ((path, piece) :: out) = (piece.2 - piece.1) + batchBytes out := by
  simp [batchBytes]

theorem Claimable.openBacklog {st : QueueState Path} {path : Path} {piece : Range}
    (hc : Claimable st path piece) :
    (claim st path piece).openBacklog + (piece.2 - piece.1) = st.openBacklog := by
  have hrow := hc.total_row
  have hfree : path ∉ st.blocked := hc.free
  have hown : ((st.dirty.lookup path).elim 0 fun ranges =>
      if path ∈ st.blocked then 0 else total ranges) = total (row st.dirty path) := by
    rw [← lookup_elim_row total_nil]
    simp only [if_neg hfree]
  have hins := weighBy_insert (fun p ranges => if p ∈ st.blocked then 0 else total ranges)
    st.dirty path (dropFront piece.2 (row st.dirty path))
  have hera := weighBy_erase (fun p ranges => if p ∈ st.blocked then 0 else total ranges)
    st.dirty path
  rw [hown] at hins hera
  rw [if_neg hfree] at hins
  unfold QueueState.openBacklog claim
  dsimp only
  split
  · rename_i hn
    rw [hn, total_nil] at hrow
    omega
  · omega

/-- **The account of a sequence of claims.** -/
theorem Claims.account {st st' : QueueState Path} {out : List (Path × Range)}
    (h : Claims st out st') :
    st'.inflightBytes = st.inflightBytes + batchBytes out ∧
      st'.openBacklog + batchBytes out = st.openBacklog ∧ st'.blocked = st.blocked := by
  induction h with
  | done => exact ⟨rfl, rfl, rfl⟩
  | @claim st st' path piece out hc _ ih =>
    obtain ⟨hflight, hopen, hblocked⟩ := ih
    have hbytes := hc.inflightBytes
    have hback := hc.openBacklog
    rw [batchBytes_cons]
    refine ⟨by omega, by omega, hblocked⟩

/-- Claims put no range where none is. -/
theorem Claims.row_nil {st st' : QueueState Path} {out : List (Path × Range)}
    (h : Claims st out st') {p : Path} (hp : row st.dirty p = []) : row st'.dirty p = [] := by
  induction h with
  | done => exact hp
  | @claim st st' path piece out hc _ ih =>
    apply ih
    have hne : p ≠ path := by
      intro heq
      subst heq
      obtain ⟨e, rest, hrow, -⟩ := hc.front
      rw [hp] at hrow
      cases hrow
    rw [row_claim_ne st hne]
    exact hp

/-! ## 3. Offsets of files -/

/-- A call names offsets below `2 ^ 63`, as the kernel does. -/
def QueueOp.OfFile : QueueOp Path → Prop
  | .enqueue _ _ stop => stop < 2 ^ 63
  | _ => True

instance QueueOp.decOfFile : ∀ op : QueueOp Path, Decidable op.OfFile
  | .enqueue _ _ stop => inferInstanceAs (Decidable (stop < 2 ^ 63))
  | .takeBatch .. | .finish .. => inferInstanceAs (Decidable True)

/-- What is dirty or in flight lies below `2 ^ 63`. -/
def BelowEnd (st : QueueState Path) : Prop :=
  ∀ p x, Covers (row st.dirty p) x ∨ Covers (row st.inflight p) x → x < 2 ^ 63

theorem QueueRun.belowEnd {hist : List (QueueCfg Path × QueueOp Path)} {c : QueueCfg Path}
    (h : QueueRun hist c) (hfile : ∀ x ∈ hist, x.2.OfFile) : BelowEnd c.st := by
  suffices hall : ∀ d ∈ visited hist c, CfgInv d ∧ BelowEnd d.st from
    (hall c List.mem_cons_self).2
  refine h.invariant_of_steps (C := fun _ op => op.OfFile) (fun c h0 => ?_)
    (fun c op c' hi hop hs => ?_) hfile
  · exact ⟨cfgInv_init h0, fun p x hx => absurd hx (h0.not_pending p x)⟩
  · refine ⟨hi.1.step hs, fun p x hx => ?_⟩
    rcases hi.1.pending_of_step hs hx with hx | ⟨start, stop, rfl, hx⟩
    · exact hi.2 p x hx
    · have hstop : stop < 2 ^ 63 := hop
      have hlt : x < stop := hx.2
      omega

/-- Claims move bytes and bring none. -/
theorem BelowEnd.claim {st : QueueState Path} (h : BelowEnd st) (hq : QueueInv st) {path : Path}
    {piece : Range} (hc : Claimable st path piece) : BelowEnd (claim st path piece) :=
  fun p x hx => h p x (((Claims.claim hc (.done _)).pending hq).mp hx)

/-- The first range of a path lies below `2 ^ 63`. -/
theorem BelowEnd.front {st : QueueState Path} (h : BelowEnd st) (hq : QueueInv st) {path : Path}
    {s e : Nat} {rest : List Range} (hrow : row st.dirty path = (s, e) :: rest) :
    s < e ∧ e ≤ 2 ^ 63 := by
  have hmem : (s, e) ∈ row st.dirty path := by
    rw [hrow]
    exact List.mem_cons_self
  have hlt : s < e := (hq.tidy path).nonempty _ hmem
  have hin : Inside (e - 1) (s, e) := ⟨by dsimp only; omega, by dsimp only; omega⟩
  have hlast := h path (e - 1) (.inl (Covers.of_mem hmem hin))
  exact ⟨hlt, by omega⟩

/-! ## 4. The loops go on while there is something to claim -/

/-- **The inner loop** ends with the window full, or with nothing dirty left of its path. -/
theorem claimLoop_exhausts (path : Path) : ∀ (fuel : Nat) (st : QueueState Path) (left : Nat),
    QueueInv st → BelowEnd st → path ∉ st.blocked → st.inflightBytes + left = writeWindow →
    left ≤ fuel →
    (claimLoop path fuel st left).2.1 = 0 ∨ row (claimLoop path fuel st left).1.dirty path = []
  | 0, _, _, _, _, _, _, hfuel => .inl (Nat.le_zero.mp hfuel)
  | fuel + 1, st, left, hq, hend, hb, hw, hfuel => by
      rw [claimLoop]
      split
      · exact .inr (row_erase_self _ _)
      · rename_i s e hf
        obtain ⟨rest, hrow⟩ := row_of_front hf
        obtain ⟨hlt, hle⟩ := hend.front hq hrow
        by_cases hzero : left = 0
        · -- an empty window: the loop claims nothing
          have hstop : min (min e (addU64 s chunkMax)) (addU64 s left) ≤ s := by
            have hle' : addU64 s left ≤ s + left := Nat.mod_le _ _
            omega
          dsimp only
          rw [if_pos hstop]
          exact .inl hzero
        · -- no sum of the source wraps, so the piece has a byte
          have hchunk : addU64 s chunkMax = s + chunkMax := by
            refine addU64_of_lt ?_
            have : chunkMax < 2 ^ 63 := by decide
            omega
          have hleft : addU64 s left = s + left := by
            refine addU64_of_lt ?_
            have : writeWindow < 2 ^ 63 := by decide
            omega
          have hpos : s < min (min e (addU64 s chunkMax)) (addU64 s left) := by
            have : 0 < chunkMax := by decide
            omega
          generalize hpe : min (min e (addU64 s chunkMax)) (addU64 s left) = pieceEnd at hpos ⊢
          have hc := claimable_front hf hb hw hpe hpos
          have hbytes := hc.inflightBytes
          dsimp only at hbytes ⊢
          rw [if_neg (Nat.not_le.mpr hpos)]
          split
          · rename_i hfull
            exact .inl hfull
          · exact claimLoop_exhausts path fuel (claim st path (s, pieceEnd))
              (left - (pieceEnd - s)) (hq.claim hc) (hend.claim hq hc) hb (by omega) (by omega)

/-- With the window full the outer loop is over. -/
theorem claimPaths_zero (paths : List Path) (st : QueueState Path) :
    claimPaths paths st 0 = (st, []) := by
  cases paths with
  | nil => rfl
  | cons path rest => rw [claimPaths, if_pos rfl]

theorem BelowEnd.claims {st st' : QueueState Path} {out : List (Path × Range)}
    (h : BelowEnd st) (hq : QueueInv st) (hc : Claims st out st') : BelowEnd st' :=
  fun p x hx => h p x ((hc.pending hq).mp hx)

/-- **The outer loop** ends with the window full, or with nothing dirty left of the paths it
    visits, save those that are blocked. -/
theorem claimPaths_exhausts : ∀ (paths : List Path) (st : QueueState Path) (left : Nat),
    QueueInv st → BelowEnd st → st.inflightBytes + left = writeWindow →
    (claimPaths paths st left).1.inflightBytes = writeWindow ∨
      ∀ p ∈ paths, p ∉ st.blocked → row (claimPaths paths st left).1.dirty p = []
  | [], _, _, _, _, _ => .inr fun p hp => absurd hp List.not_mem_nil
  | path :: rest, st, left, hq, hend, hw => by
      by_cases hzero : left = 0
      · rw [hzero, claimPaths_zero]
        exact .inl (by rw [hzero] at hw; exact hw)
      · rw [claimPaths, if_neg hzero]
        by_cases hb : path ∈ st.blocked
        · rw [if_pos hb]
          refine (claimPaths_exhausts rest st left hq hend hw).imp_right fun h p hp hfree => ?_
          rcases List.mem_cons.mp hp with rfl | hp
          · exact absurd hb hfree
          · exact h p hp hfree
        · rw [if_neg hb]
          dsimp only
          obtain ⟨hc, hne, hblocked, hw'⟩ := claimLoop_claims path left st left hq.noEmptyRow hb hw
          have hloop := claimLoop_exhausts path left st left hq hend hb hw le_rfl
          generalize claimLoop path left st left = r at hc hne hblocked hw' hloop ⊢
          have hrest := claimPaths_claims rest r.1 r.2.1 hne hw'
          have hafter := claimPaths_exhausts rest r.1 r.2.1 (hq.claims hc) (hend.claims hq hc) hw'
          rcases hloop with hfull | hnil
          · -- the window is full: the rest of the paths is not visited
            rw [hfull, claimPaths_zero]
            left
            rw [hfull] at hw'
            exact hw'
          · refine hafter.imp_right fun h p hp hfree => ?_
            rcases List.mem_cons.mp hp with rfl | hp
            · exact hrest.row_nil hnil
            · exact h p hp (by rw [hblocked]; exact hfree)

/-! ## 5. The batch -/

/-- Where a path that is not blocked has dirty bytes, the open backlog has. -/
theorem QueueState.openBacklog_pos {st : QueueState Path} {p : Path} (hfree : p ∉ st.blocked)
    (hp : 0 < total (row st.dirty p)) : 0 < st.openBacklog := by
  cases hl : st.dirty.lookup p with
  | none =>
    rw [row, hl] at hp
    exact absurd hp (Nat.lt_irrefl 0)
  | some ranges =>
    have hle := le_weighBy (fun q r => if q ∈ st.blocked then 0 else total r) hl
    rw [row_of_lookup hl] at hp
    rw [if_neg hfree] at hle
    exact Nat.lt_of_lt_of_le hp hle

/-- Dirty ranges have a length. -/
theorem QueueInv.total_pos {st : QueueState Path} (h : QueueInv st) {p : Path}
    (hp : row st.dirty p ≠ []) : 0 < total (row st.dirty p) := by
  cases hrow : row st.dirty p with
  | nil => exact absurd hrow hp
  | cons r rest =>
    have hlt := (h.tidy p).nonempty r (by rw [hrow]; exact List.mem_cons_self)
    rw [total_cons]
    omega

/-- With the open paths empty there is no open backlog. -/
theorem QueueState.openBacklog_eq_zero {st : QueueState Path}
    (h : ∀ p ∈ st.dirty.keys, p ∉ st.blocked → row st.dirty p = []) : st.openBacklog = 0 := by
  refine weighBy_eq_zero fun p ranges hl => ?_
  split
  · rfl
  · rename_i hfree
    have hmem : p ∈ st.dirty.keys := AList.mem_keys.mpr (AList.lookup_isSome.mp (by rw [hl]; rfl))
    rw [← row_of_lookup hl, h p hmem hfree, total_nil]

/-- The pieces of a batch do not meet. -/
theorem CfgInv.batch_apart {c : QueueCfg Path} (h : CfgInv c) (now : Nat) (paths : List Path) :
    (takeBatch c.st now paths).2.Pairwise fun a b => a.1 = b.1 → ¬ Meets a.2 b.2 := by
  have hc := h.queue.takeBatch_claims now paths
  obtain ⟨hflying, hnodup⟩ := hc.tasks h.queue h.flying h.nodup
  have hq := h.queue.claims hc
  have hmem : ∀ x ∈ (takeBatch c.st now paths).2,
      x.2 ∈ row (takeBatch c.st now paths).1.inflight x.1 := fun x hx =>
    (hflying x.1 x.2).mp (List.mem_append_right _ hx)
  refine List.Pairwise.imp_of_mem (fun {a b} ha hb hne hpath hm => ?_)
    (List.nodup_append.mp hnodup).2.1
  have ha := hmem a ha
  have hb := hmem b hb
  rw [← hpath] at hb
  have hdiff : a.2 ≠ b.2 := fun heq => hne (Prod.ext hpath heq)
  have hsymm : Std.Symm fun a b : Range => ¬ Meets a b := ⟨fun _ _ hn hm => hn hm.symm⟩
  exact (hq.apart a.1).forall ha hb hdiff hm

/-- **The batch fills the window**, or takes all that is open. -/
theorem takeBatch_bytes {st : QueueState Path} (hq : QueueInv st) (hend : BelowEnd st)
    {now : Nat} {paths : List Path} (hpaths : paths.Perm st.dirty.keys)
    (hnow : st.retryAfter ≤ now) :
    batchBytes (takeBatch st now paths).2
      = min (writeWindow - st.inflightBytes) st.openBacklog := by
  have hclaims := hq.takeBatch_claims now paths
  obtain ⟨hflight, hopen, hblocked⟩ := hclaims.account
  have hwindow := (hq.takeBatch now paths).window
  suffices hdone : (takeBatch st now paths).1.inflightBytes = writeWindow ∨
      (takeBatch st now paths).1.openBacklog = 0 by omega
  by_cases hnone : st.dirty.entries = []
  · right
    rw [takeBatch, if_pos (.inl hnone)]
    exact QueueState.openBacklog_eq_zero fun p hp => by
      rw [AList.keys, hnone] at hp
      exact absurd hp List.not_mem_nil
  · have hgo : ¬ (st.dirty.entries = [] ∨ now < st.retryAfter) := by
      intro h'
      obtain h | h := h'
      · exact hnone h
      · omega
    by_cases hzero : writeWindow - st.inflightBytes = 0
    · left
      have hw := hq.window
      rw [takeBatch, if_neg hgo, if_pos hzero]
      show st.inflightBytes = writeWindow
      omega
    · have hw := hq.window
      have hrun : takeBatch st now paths = claimPaths paths st (writeWindow - st.inflightBytes) := by
        rw [takeBatch, if_neg hgo]
        exact if_neg hzero
      rw [hrun] at hblocked hclaims ⊢
      refine (claimPaths_exhausts paths st _ hq hend (by omega)).imp_right fun h => ?_
      refine QueueState.openBacklog_eq_zero fun p _ hfree => ?_
      rw [hblocked] at hfree
      by_cases hp : p ∈ st.dirty.keys
      · exact h p (hpaths.mem_iff.mpr hp) hfree
      · -- a path that was not dirty has not become dirty
        refine hclaims.row_nil ?_
        rw [row, AList.lookup_eq_none.mpr fun hm => hp (AList.mem_keys.mp hm)]
        rfl

/-- **What `take_batch` claims.** Past the backoff, and for offsets that a file has: it returns,
    its pieces do not meet, and together they are as long as the window and the open backlog allow.
    Where nothing is in flight and something is dirty, they have a byte. -/
theorem takeBatch_fills {hist : List (QueueCfg Path × QueueOp Path)} {c : QueueCfg Path}
    (h : QueueRun hist c) (hfile : ∀ x ∈ hist, x.2.OfFile) {now : Nat} {paths : List Path}
    (hpaths : paths.Perm c.st.dirty.keys) (hnow : c.st.retryAfter ≤ now) :
    (∀ turns, writeWindow ≤ turns →
      takeBatchTurns turns c.st now paths = .ok (takeBatch c.st now paths)) ∧
    (takeBatch c.st now paths).2.Pairwise (fun a b => a.1 = b.1 → ¬ Meets a.2 b.2) ∧
    batchBytes (takeBatch c.st now paths).2
      = min (writeWindow - c.st.inflightBytes) c.st.openBacklog ∧
    ((∀ p, row c.st.inflight p = []) → (∃ p, row c.st.dirty p ≠ []) →
      0 < batchBytes (takeBatch c.st now paths).2) := by
  have hi := h.inv
  have hbytes := takeBatch_bytes hi.queue (h.belowEnd hfile) hpaths hnow
  refine ⟨fun turns hturns => takeBatchTurns_eq hturns _ _ _, hi.batch_apart now paths, hbytes,
    fun hidle hdirty => ?_⟩
  -- no path is blocked, and the whole window is free
  obtain ⟨p, hp⟩ := hdirty
  have hfree : p ∉ c.st.blocked := fun hb => hi.queue.held p hb (hidle p)
  have hopen := QueueState.openBacklog_pos hfree (hi.queue.total_pos hp)
  have hzero : c.st.inflightBytes = 0 := by
    rw [hi.queue.flightSum]
    show weighBy (fun _ => total) c.st.inflight = 0
    refine weighBy_eq_zero fun q l hl => ?_
    have hnil := hidle q
    rw [row_of_lookup hl] at hnil
    rw [hnil, total_nil]
  have hwindow : 0 < writeWindow := by decide
  rw [hbytes, hzero]
  omega

/-- Two writes to one file and one to another. -/
def threeWrites : List (QueueOp Nat) := [.enqueue 1 20 30, .enqueue 0 4 9, .enqueue 0 0 2]

theorem takeBatch_fills_threeWrites :
    batchBytes (takeBatch (replay QueueCfg.next ⟨.new 0, []⟩ threeWrites).2.st 0 [1, 0]).2 = 17 :=
  have hrun : QueueRun (replay QueueCfg.next ⟨.new 0, []⟩ threeWrites).1
      (replay QueueCfg.next ⟨.new 0, []⟩ threeWrites).2 := Run.of_replay ⟨0, rfl⟩ (by decide)
  (takeBatch_fills hrun (by decide) (by decide) (by decide)).2.2.1.trans (by decide)

end Relayfs

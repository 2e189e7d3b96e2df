/-
  File:      Relayfs/Agent/CopyEnds.lean
  Subject:   WHETHER `copy_dir_recursive` ENDS (agent/src/files.rs): it lists directories while it makes
             new ones, which may be below those it lists.

  * `CopyState.Ends` -- every run is finite;
  * `Runaway` -- the destination is strictly below the source, by `k`, and the way `k`, `k/k`, … from
    the source is free;
  * `Confined` -- finitely many places that all entries below the source come to lie in;
  * `copy_ends_iff` -- a copy ends exactly if it does not run away;
  * `copy_into_itself` -- `/a` to `/a/b`.
-/
import Mathlib.Data.Finset.Prod
import Mathlib.Data.Finset.Union
import Relayfs.Agent.CopyTree

namespace Relayfs

open Lib

/-! ## 1. Ending -/

/-- **Every run from the state is finite.** -/
def CopyState.Ends (s : CopyState) : Prop := Acc (fun t s => ∃ e, CopyStep s e t) s

/-- Nothing but directories is on the way that repeats `k` from a place. -/
def FileTree.Clear (t : FileTree) (p k : Place) : Prop :=
  ∀ w, Repeats k w → t.node (p ++ w) = none ∨ t.node (p ++ w) = some .dir

/-- **The copy follows its own destination**: `dst` can be made and `src` be followed, `dst` is
    strictly below `src`, and the way that repeats what is between them is clear. -/
def Runaway (t : FileTree) (src dst : PathBuf) : Prop :=
  ∃ u k, t.createDirAll dst = some u ∧ (u.walk src).isSome ∧ k ≠ [] ∧
    t.place dst = t.place src ++ k ∧ t.Clear (t.place src) k

theorem FileTree.OnlyDirs.clear_iff {t u : FileTree} (h : t.OnlyDirs u) (p k : Place) :
    u.Clear p k ↔ t.Clear p k := by
  refine forall_congr' fun w => imp_congr_right fun _ => ?_
  rcases h.made (p ++ w) with heq | ⟨hnone, hdir⟩
  · rw [heq]
  · exact iff_of_true (.inr hdir) (.inl hnone)

/-! ## 2. A copy that runs away -/

/-- Under way on the clear way: the place on top is on it, and what it is copied to is made. -/
def Chasing (src k : Place) : CopyState → Prop
  | .walking t (d :: _) =>
      ∃ w, d = .list t (src ++ w) (src ++ (k ++ w)) ∧ Repeats k w ∧
        t.node (src ++ (k ++ w)) = some .dir ∧ t.Clear src k
  | _ => False

/-- **It can always go on**: the next name of the way is there. -/
theorem Chasing.next {src k : Place} (hk : k ≠ []) {s : CopyState} (hs : Chasing src k s) :
    ∃ s', (∃ e, CopyStep s e s') ∧ Chasing src k s' := by
  cases s with
  | walking t dirs =>
    cases dirs with
    | nil => exact absurd hs id
    | cons d rest =>
      obtain ⟨w, rfl, hw, hmade, hclear⟩ := hs
      obtain ⟨name, z, hz⟩ := hw.next hk
      have hnext : Repeats k (w ++ [name]) := hw.append.of_front ⟨z, hz⟩
      have hentry : t.node (src ++ (w ++ [name])) = some .dir := by
        by_cases hend : z = []
        · rwa [← hz, hend, List.append_nil] at hmade
        · rw [← hz, ← List.append_assoc] at hmade
          exact FileTree.dir_of_node_append hmade hend
      have htarget : (t.makeDir (src ++ (k ++ (w ++ [name])))).isSome := by
        refine FileTree.makeDir_isSome ?_ (hclear _ hnext.append)
        rwa [← List.append_assoc, ← List.append_assoc, List.dropLast_concat, List.append_assoc]
      obtain ⟨u, hu⟩ := Option.isSome_iff_exists.mp htarget
      have hmadeDir := FileTree.madeDir_of_makeDir hu
      let d := OpenDir.list t (src ++ w) (src ++ (k ++ w))
      have hplace : d.entry name = src ++ (w ++ [name]) := List.append_assoc _ _ _
      have hdst : d.target name = src ++ (k ++ (w ++ [name])) := by
        show src ++ (k ++ w) ++ [name] = _
        simp only [List.append_assoc]
      refine ⟨.walking u (.list u (d.entry name) (d.target name) :: d.give name :: rest),
        ⟨_, .enter List.not_mem_nil (hplace ▸ hentry) (hdst ▸ hu)⟩, w ++ [name], ?_, hnext, ?_, ?_⟩
      · rw [hplace, hdst]
      · exact hmadeDir.made
      · exact (hmadeDir.onlyDirs.clear_iff src k).mpr hclear
  | copy | copyDir | failed => exact absurd hs id

theorem not_ends_of_runaway {t : FileTree} {src dst : PathBuf} (h : Runaway t src dst) :
    ¬ (CopyState.copyDir src dst t).Ends := by
  obtain ⟨u, k, hmade, hwalk, hk, hplace, hclear⟩ := h
  obtain ⟨p, hp⟩ := Option.isSome_iff_exists.mp hwalk
  obtain ⟨honly, hdst⟩ := FileTree.createDirAll_spec hmade
  obtain ⟨rfl, -⟩ := FileTree.walk_spec hp
  rw [honly.place src] at hp
  rw [hplace] at hdst
  have hsrc : u.node (t.place src) = some .dir := FileTree.dir_of_node_append hdst hk
  have hstep : CopyStep (.copyDir src dst t) .call
      (.walking u [.list u (t.place src) (u.place dst)]) := .opens hmade hp hsrc
  have hchasing : Chasing (t.place src) k
      (.walking u [.list u (t.place src) (u.place dst)]) := by
    refine ⟨[], ?_, repeats_nil k, ?_, (honly.clear_iff _ k).mpr hclear⟩
    · rw [honly.place dst, hplace, List.append_nil, List.append_nil]
    · rwa [List.append_nil]
  intro hends
  exact not_acc_of_follows (fun _ hs => hs.next hk) hchasing (hends.inv ⟨_, hstep⟩)

/-! ## 3. A copy that ends -/

/-- **Finitely many places** that have all entries below `src` at the start, and all that a copy of
    them to `dst` adds there. -/
structure Confined (src dst : Place) (t₀ : FileTree) (U : Finset Place) : Prop where
  start : ∀ q, src <+: q → (t₀.node q).isSome → q ∈ U
  grow : ∀ t r, t₀.Grows t → src ++ r ∈ U → t.node (dst ++ r).dropLast = some .dir →
    src <+: dst ++ r → dst ++ r ∈ U

section Confined

variable {src dst : Place} {t₀ : FileTree}

/-- The places of a tree. -/
def FileTree.places (t : FileTree) : Finset Place := t.nodes.keys.toFinset

theorem FileTree.mem_places {t : FileTree} {q : Place} :
    q ∈ t.places ↔ (t.node q).isSome := by
  rw [places, List.mem_toFinset, ← AList.mem_keys, ← AList.lookup_isSome]
  rfl

/-- Where `dst` is not strictly below `src`, entries are added higher up only. -/
theorem exists_confined (h : ∀ k, k ≠ [] → dst ≠ src ++ k) : ∃ U, Confined src dst t₀ U := by
  let U := t₀.places.biUnion fun q =>
    ((q.drop src.length).tails.map fun w => src ++ w).toFinset
  have hU : ∀ w, src ++ w ∈ U ↔ ∃ q ∈ t₀.places, w <:+ q.drop src.length := by
    intro w
    simp [U]
  refine ⟨U, ?_, ?_⟩
  · intro q hq hthere
    obtain ⟨w, rfl⟩ := hq
    exact (hU w).mpr ⟨src ++ w, FileTree.mem_places.mpr hthere, by rw [List.drop_left]⟩
  · intro t r _ hr _ hbelow
    obtain ⟨k, rfl⟩ : dst <+: src := by
      rcases List.prefix_or_prefix_of_prefix hbelow (List.prefix_append dst r) with hle | hle
      · obtain ⟨k, rfl⟩ := hle
        by_cases hk : k = []
        · rw [hk, List.append_nil]
        · exact absurd rfl (h k hk)
      · exact hle
    obtain ⟨w, hw⟩ := hbelow
    rw [List.append_assoc] at hw
    have hsuffix : w <:+ r := ⟨k, List.append_cancel_left hw⟩
    obtain ⟨q, hq, hrq⟩ := (hU r).mp hr
    rw [← hw, ← List.append_assoc]
    exact (hU w).mpr ⟨q, hq, hsuffix.trans hrq⟩

/-- Behind what stands on the way that repeats `k` there is no directory. -/
theorem not_dir_behind {t : FileTree} {k v w : Place} {n : Node} {i : Nat} (hk : k ≠ [])
    (hv : Repeats k v) (hi : v.length ≤ i) (hn : t.node (src ++ v) = some n) (hnot : n ≠ .dir) :
    t.node (src ++ (k ++ ((List.replicate i k).flatten ++ w))).dropLast ≠ some .dir := by
  have hlen : i ≤ (List.replicate i k).flatten.length := le_length_flatten_replicate hk i
  have hfront : v <+: k ++ ((List.replicate i k).flatten ++ w) := by
    have hmore : v <+: (List.replicate (i + 1) k).flatten :=
      (hv.prefix_flatten (hi.trans hlen)).trans (flatten_replicate_front k (Nat.le_succ i))
    rw [List.replicate_succ, List.flatten_cons] at hmore
    rw [← List.append_assoc]
    exact hmore.trans (List.prefix_append _ _)
  have hshort : v <+: (k ++ ((List.replicate i k).flatten ++ w)).dropLast := by
    refine List.prefix_of_prefix_length_le hfront (List.dropLast_prefix _) ?_
    have hpos : 0 < k.length := List.length_pos_of_ne_nil hk
    rw [List.length_dropLast, List.length_append, List.length_append]
    omega
  have hne : k ++ ((List.replicate i k).flatten ++ w) ≠ [] :=
    List.append_ne_nil_of_left_ne_nil hk _
  intro hdir
  obtain ⟨z, hz⟩ := hshort
  rw [List.dropLast_append_of_ne_nil hne, ← hz, ← List.append_assoc] at hdir
  by_cases hend : z = []
  · rw [hend, List.append_nil, hn] at hdir
    exact hnot (Option.some.inj hdir)
  · have habove := FileTree.dir_of_node_append hdir hend
    rw [hn] at habove
    exact hnot (Option.some.inj habove)

/-- Where it is, entries are added along `k`, and something stands on that way. -/
theorem exists_confined_below {k v : Place} {n : Node} (hk : k ≠ []) (hdst : dst = src ++ k)
    (hv : Repeats k v) (hn : t₀.node (src ++ v) = some n) (hnot : n ≠ .dir) :
    ∃ U, Confined src dst t₀ U := by
  let copies := fun i : Nat => (List.replicate i k).flatten
  let U := (t₀.places ×ˢ Finset.range (v.length + 1)).image fun x =>
    src ++ (copies x.2 ++ x.1.drop src.length)
  have hU : ∀ w, src ++ w ∈ U ↔
      ∃ q ∈ t₀.places, ∃ i ≤ v.length, w = copies i ++ q.drop src.length := by
    intro w
    simp only [U, Finset.mem_image, Finset.mem_product, Finset.mem_range, Prod.exists,
      List.append_right_inj, Nat.lt_succ_iff]
    constructor
    · intro h
      obtain ⟨q, i, ⟨hq, hi⟩, rfl⟩ := h
      exact ⟨q, hq, i, hi, rfl⟩
    · intro h
      obtain ⟨q, hq, i, hi, rfl⟩ := h
      exact ⟨q, i, ⟨hq, hi⟩, rfl⟩
  refine ⟨U, ?_, ?_⟩
  · intro q hq hthere
    obtain ⟨w, rfl⟩ := hq
    refine (hU w).mpr ⟨src ++ w, FileTree.mem_places.mpr hthere, 0, Nat.zero_le _, ?_⟩
    rw [List.drop_left]
    rfl
  · intro t r hgrows hr hparent _
    obtain ⟨q, hq, i, hi, rfl⟩ := (hU r).mp hr
    have hcopies : k ++ copies i = copies (i + 1) := by
      simp only [copies, List.replicate_succ, List.flatten_cons]
    rw [hdst, List.append_assoc]
    refine (hU _).mpr ⟨q, hq, i + 1, ?_, by rw [← List.append_assoc, hcopies]⟩
    -- with more copies than `v` has names, what stands on the way would be a directory
    by_contra hmore
    obtain ⟨n', hn', hnot'⟩ := hgrows.plain _ _ hn hnot
    rw [hdst, List.append_assoc] at hparent
    exact not_dir_behind hk hv (by omega) hn' hnot' hparent

/-- What a step of the walk adds below the source is among the places. -/
theorem WalkStep.confined {t u : FileTree} {dirs dirs' : List OpenDir} {e : CopyEvent}
    {U : Finset Place} (hU : Confined src dst t₀ U) (ht : t₀.Grows t)
    (hin : ∀ q, src <+: q → (t.node q).isSome → q ∈ U) (h : WalkStep src dst t dirs e u dirs') :
    ∀ q, src <+: q → (u.node q).isSome → q ∈ U := by
  have hadds : ∀ r, (t.node (src ++ r)).isSome → t.node (dst ++ r).dropLast = some .dir →
      (∀ p, p ≠ dst ++ r → u.node p = t.node p) → ∀ q, src <+: q → (u.node q).isSome → q ∈ U := by
    intro r hthere hparent hothers q hq hnew
    by_cases hqr : q = dst ++ r
    · rw [hqr] at hq ⊢
      exact hU.grow t r ht (hin _ (List.prefix_append _ _) hthere) hparent hq
    · exact hin q hq (by rwa [← hothers q hqr])
  cases h with
  | @enter d rest name r hdirs hnew hentry hsrc hmade =>
    by_cases hne : dst ++ r = []
    · -- the root is made already
      intro q hq hthere
      by_cases hqr : q = dst ++ r
      · have hroot : t.node [] = some .dir := t.root
        exact hin q hq (by rw [hqr, hne, hroot]; rfl)
      · exact hin q hq (by rwa [← hmade.others q hqr])
    · exact hadds r (by rw [hsrc]; rfl) (hmade.parent hne) hmade.others
  | @file d rest name r n hdirs hnew hentry hsrc hnot hcopy =>
    exact hadds r (by rw [hsrc]; rfl) hcopy.wrote.parent hcopy.wrote.others
  | leave _ htree =>
    rw [htree]
    exact hin

/-- The stack of a copy. -/
def CopyState.stack : CopyState → List (Visit String)
  | .walking _ dirs => dirs.map OpenDir.toVisit
  | _ => []

/-- A walk in places that are confined. -/
def WalkIn (src dst : Place) (t₀ : FileTree) (U : Finset Place) : CopyState → Prop
  | .walking t dirs =>
      CopyInv src dst t dirs ∧ t₀.Grows t ∧ ∀ q, src <+: q → (t.node q).isSome → q ∈ U
  | .failed _ => True
  | _ => False

/-- **A walk in confined places ends.** -/
theorem ends_of_confined {U : Finset Place} (hU : Confined src dst t₀ U) {s : CopyState}
    (hs : WalkIn src dst t₀ U s) : s.Ends := by
  refine acc_of_moves CopyState.stack (WalkIn src dst t₀ U) U ?_ hs
  intro s s' hs hstep
  obtain ⟨e, hstep⟩ := hstep
  cases s with
  | walking t dirs =>
    obtain ⟨hinv, hgrows, hin⟩ := hs
    obtain ⟨u, rfl, hne⟩ | ⟨u, dirs', rfl, hwalk⟩ := hstep.walks hinv
    · refine ⟨trivial, none, ?_, hinv.nested, fun q hq => by cases hq⟩
      obtain ⟨d, rest, rfl⟩ := List.exists_cons_of_ne_nil hne
      exact .stop rfl
    · obtain ⟨took, hmove, htook⟩ := hwalk.move
      refine ⟨⟨hwalk.inv hinv, hgrows.trans hwalk.grows, hwalk.confined hU hgrows hin⟩,
        took, hmove, hinv.nested, fun q hq => ?_⟩
      obtain ⟨r, rfl, hthere⟩ := htook q hq
      exact hin _ (List.prefix_append _ _) hthere
  | failed t => cases hstep
  | copy | copyDir => exact absurd hs id

end Confined

/-- **`copy_dir_recursive` ends, whatever order the listings have, exactly if the destination is not
    strictly below the source with a clear way.** -/
theorem copy_ends_iff (t : FileTree) (src dst : PathBuf) :
    (CopyState.copyDir src dst t).Ends ↔ ¬ Runaway t src dst := by
  refine ⟨fun hends hrun => not_ends_of_runaway hrun hends, fun hno => ⟨_, fun s hs => ?_⟩⟩
  obtain ⟨e, hstep⟩ := hs
  cases hstep with
  | failDir => exact ⟨_, fun s hs => by obtain ⟨_, h⟩ := hs; cases h⟩
  | @opens _ u _ _ p hmade hsrc hdir =>
    obtain ⟨honly, hdst⟩ := FileTree.createDirAll_spec hmade
    obtain ⟨rfl, -⟩ := FileTree.walk_spec hsrc
    have hconfined : ∃ U, Confined (u.place src) (u.place dst) u U := by
      by_cases hbelow : ∃ k, k ≠ [] ∧ u.place dst = u.place src ++ k
      · obtain ⟨k, hk, hplace⟩ := hbelow
        have hblocked : ¬ u.Clear (u.place src) k := by
          intro hclear
          refine hno ⟨u, k, hmade, by rw [hsrc]; rfl, hk, ?_, ?_⟩
          · rw [← honly.place, ← honly.place, hplace]
          · rw [← honly.place]
            exact (honly.clear_iff _ k).mp hclear
        obtain ⟨v, hblock⟩ := not_forall.mp hblocked
        obtain ⟨hv, hnode⟩ := Classical.not_imp.mp hblock
        obtain ⟨hthere, hnot⟩ := not_or.mp hnode
        obtain ⟨n, hn⟩ := Option.ne_none_iff_exists'.mp hthere
        exact exists_confined_below hk hplace hv hn fun heq => hnot (heq ▸ hn)
      · exact exists_confined fun k hk hplace => hbelow ⟨k, hk, hplace⟩
    obtain ⟨U, hU⟩ := hconfined
    refine ends_of_confined hU ⟨copyInv_list hdir ?_, .refl u, hU.start⟩
    rwa [honly.place]

/-! ## 4. A directory into itself -/

/-- The directory `/a`, empty. -/
def dirTree : FileTree := rootTree.put ["a"] .dir (by decide) (by decide)

theorem dirTree_dirs (p : Place) : dirTree.node p = none ∨ dirTree.node p = some .dir := by
  by_cases ha : p = ["a"]
  · exact .inr (ha ▸ FileTree.node_put)
  rw [dirTree, FileTree.node_put_of_ne ha]
  by_cases hroot : p = []
  · exact .inr (hroot ▸ rootTree.root)
  · exact .inl ((AList.lookup_insert_ne hroot).trans rfl)

/-- **`/a` to `/a/b`**: the listing of `/a` gives `b`, which is copied to `/a/b/b`, whose listing
    gives `b`. -/
theorem copy_into_itself : ¬ ∀ (t : FileTree) (src dst : PathBuf),
    (CopyState.copyDir src dst t).Ends := by
  intro hall
  let src : PathBuf := ⟨true, ["a"]⟩
  let dst : PathBuf := ⟨true, ["a", "b"]⟩
  have hmade : ((dirTree.createDirAll dst).map fun u => (u.walk src).isSome) = some true := by
    decide
  obtain ⟨u, hu, hwalk⟩ := Option.map_eq_some_iff.mp hmade
  exact not_ends_of_runaway ⟨u, ["b"], hu, hwalk, List.cons_ne_nil _ _, rfl,
    fun w _ => dirTree_dirs _⟩ (hall dirTree src dst)

end Relayfs

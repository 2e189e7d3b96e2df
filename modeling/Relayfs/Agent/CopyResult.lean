/-
  File:      Relayfs/Agent/CopyResult.lean
  Subject:   WHAT A COPY LEAVES (agent/src/files.rs, `copy` and `copy_dir_recursive`) in a tree of regular
             files and directories, when it returns `Ok`.

  Each place below the source is copied once at most, to the same place below the destination; what is
  written over a file of the source stays there.

  * `CopiedWell` -- the source has what it had, the destination has what the source had;
  * `SparesSource` -- a step writes over no file of the source, or only its own bytes;
  * `CopyTrack` -- what is known along a run;
  * `copy_faithful_iff` -- a copy does well exactly if all its steps spare the source;
  * `copy_apart` -- so it does where neither place is at or below the other;
  * `copy_onto_itself` -- a file copied onto itself.
-/
import Relayfs.Agent.CopyTree

namespace Relayfs

open Lib

/-! ## 1. What is claimed -/

/-- Regular files and directories only. -/
def FileTree.Plain (t : FileTree) : Prop := ∀ p, t.node p ≠ some .other

/-- **The source has what it had, and the destination has it too**: every file at or below `src` its
    content, and every place below `dst` what is at the same place below `src`. -/
structure CopiedWell (before after : FileTree) (src dst : Place) : Prop where
  source : ∀ q bytes, src <+: q → before.node q = some (.file bytes) →
    after.node q = some (.file bytes)
  copied : ∀ r n, before.node (src ++ r) = some n → after.node (dst ++ r) = some n

/-- A copy of a file to a place where a file of the source was leaves that file's bytes there; a file
    copied onto itself is left empty. -/
def SparesFile (before : FileTree) (src : Place) (t : FileTree) (p q : Place) : Prop :=
  ∀ bytes kept, t.node p = some (.file bytes) → src <+: q → before.node q = some (.file kept) →
    (if p = q then [] else bytes) = kept

/-- **A step spares the source.** -/
def SparesSource (before : FileTree) (src : Place) : CopyState → CopyEvent → Prop
  | .copy _ path path' t, .call => SparesFile before src t (t.place path) (t.place path')
  | .walking t (d :: _), .give name => SparesFile before src t (d.entry name) (d.target name)
  | _, _ => True

/-- A run of `copy`. -/
abbrev CopyRun (before : FileTree) (recursive : Bool) (src dst : PathBuf) :=
  Run (fun s => s = CopyState.copy recursive src dst before) CopyStep

/-! ## 2. Along a walk -/

section Walking

variable {src dst : Place} {t u : FileTree} {dirs dirs' : List OpenDir} {e : CopyEvent}

theorem FileTree.OnlyDirs.plain (h : t.OnlyDirs u) (ht : t.Plain) : u.Plain := by
  intro p hp
  rcases h.made p with heq | ⟨-, hdir⟩
  · exact ht p (heq ▸ hp)
  · rw [hdir] at hp
    cases hp

/-- A copy among regular files. -/
theorem FileTree.Copies.of_plain {p q : Place} (h : t.Copies p q u) (ht : t.Plain) :
    ∃ bytes, t.node p = some (.file bytes) ∧
      u.node q = some (.file (if p = q then [] else bytes)) ∧ u.Plain := by
  cases h with
  | @file bytes hp hparent hnot hfile =>
    refine ⟨bytes, hp, FileTree.node_put, fun x hx => ?_⟩
    by_cases hxq : x = q
    · rw [hxq, FileTree.node_put] at hx
      cases hx
    · rw [FileTree.node_put_of_ne hxq] at hx
      exact ht x hx
  | other hp => exact absurd hp (ht p)
  | into _ hq => exact absurd hq (ht q)

/-- What a step takes was ahead. -/
theorem todo_entry {d : OpenDir} {rest : List OpenDir} {name : String} {r : Place}
    (hnew : name ∉ d.taken) (hentry : d.entry name = src ++ r) :
    Todo ((d :: rest).map OpenDir.toVisit) (src ++ r) := by
  rw [← hentry]
  exact ⟨d.toVisit, List.mem_cons_self, Visit.ahead_child hnew⟩

/-- **What has been copied is not written again.** -/
theorem WalkStep.keeps (h : WalkStep src dst t dirs e u dirs') {r : Place} {n : Node}
    (hdone : ¬ Todo (dirs.map OpenDir.toVisit) (src ++ r)) (hn : t.node (dst ++ r) = some n) :
    u.node (dst ++ r) = some n := by
  cases h with
  | enter _ _ _ _ hmade => exact hmade.onlyDirs.keeps hn
  | @file d rest name r' n' hdirs hnew hentry _ _ hcopy =>
    subst hdirs
    have hne : dst ++ r ≠ dst ++ r' := by
      intro heq
      obtain rfl := List.append_cancel_left heq
      exact hdone (todo_entry hnew hentry)
    rwa [hcopy.wrote.others _ hne]
  | leave _ htree => rwa [htree]

/-- It stays behind. -/
theorem WalkStep.done (h : WalkStep src dst t dirs e u dirs') {q : Place}
    (hdone : ¬ Todo (dirs.map OpenDir.toVisit) q) : ¬ Todo (dirs'.map OpenDir.toVisit) q := by
  obtain ⟨took, hmove, -⟩ := h.move
  exact fun htodo => hdone (hmove.todo htodo)

end Walking

/-! ## 3. Along a run -/

section Track

variable {before t u : FileTree} {src dst : Place} {dirs dirs' : List OpenDir} {e : CopyEvent}

/-- **Well so far**: the source has what it had, and what is behind has been copied. -/
structure WellSoFar (before : FileTree) (src dst : Place) (t : FileTree) (dirs : List OpenDir) :
    Prop where
  source : ∀ q bytes, src <+: q → before.node q = some (.file bytes) →
    t.node q = some (.file bytes)
  copied : ∀ r n, before.node (src ++ r) = some n →
    ¬ Todo (dirs.map OpenDir.toVisit) (src ++ r) → t.node (dst ++ r) = some n

/-- A file of the source that is lost: other bytes are there, and nothing more will be written. -/
def Lost (before : FileTree) (src dst : Place) (t : FileTree) (dirs : List OpenDir) : Prop :=
  ∃ r bytes n, src <+: dst ++ r ∧ before.node (dst ++ r) = some (.file bytes) ∧
    ¬ Todo (dirs.map OpenDir.toVisit) (src ++ r) ∧ t.node (dst ++ r) = some n ∧ n ≠ .file bytes

/-- **What holds of a walk** in a tree that grew from `before`; a listing has all names of its
    directory that were there. -/
structure WalkInv (before : FileTree) (src dst : Place) (t : FileTree) (dirs : List OpenDir) :
    Prop where
  inv : CopyInv src dst t dirs
  grows : before.Grows t
  plain : t.Plain
  opened : ∀ d ∈ dirs, ∀ name, (before.node (d.entry name)).isSome → name ∈ d.opened

/-- **What is known along a run.** -/
structure CopyTrack (before : FileTree) (src dst : Place) (hist : List (CopyState × CopyEvent))
    (t : FileTree) (dirs : List OpenDir) : Prop extends WalkInv before src dst t dirs where
  well : (∀ x ∈ hist, SparesSource before src x.1 x.2) → WellSoFar before src dst t dirs
  lost : ∀ x ∈ hist, ¬ SparesSource before src x.1 x.2 → Lost before src dst t dirs

theorem Lost.step (h : WalkStep src dst t dirs e u dirs') (hl : Lost before src dst t dirs) :
    Lost before src dst u dirs' := by
  obtain ⟨r, bytes, n, hbelow, hbefore, hdone, hn, hne⟩ := hl
  exact ⟨r, bytes, n, hbelow, hbefore, h.done hdone, h.keeps hdone hn, hne⟩

theorem WalkInv.step (h : WalkStep src dst t dirs e u dirs') (hi : WalkInv before src dst t dirs) :
    WalkInv before src dst u dirs' := by
  have hgrows := hi.grows.trans h.grows
  refine ⟨h.inv hi.inv, hgrows, ?_, ?_⟩
  · cases h with
    | enter _ _ _ _ hmade => exact hmade.onlyDirs.plain hi.plain
    | file _ _ _ _ _ hcopy =>
      obtain ⟨bytes, -, -, hplain⟩ := hcopy.of_plain hi.plain
      exact hplain
    | leave _ htree =>
      rw [htree]
      exact hi.plain
  · have hgive : ∀ {d : OpenDir} {rest : List OpenDir} {name : String}, dirs = d :: rest →
        ∀ d' ∈ d.give name :: rest, ∀ x, (before.node (d'.entry x)).isSome → x ∈ d'.opened := by
      intro d rest name hdirs
      subst hdirs
      have hopened := List.forall_mem_cons.mp hi.opened
      exact List.forall_mem_cons.mpr ⟨hopened.1, hopened.2⟩
    cases h with
    | enter hdirs _ _ _ _ hdirs' =>
      rw [hdirs']
      refine List.forall_mem_cons.mpr ⟨fun x hx => ?_, hgive hdirs⟩
      exact FileTree.mem_names.mpr (hgrows.isSome hx)
    | file hdirs _ _ _ _ _ hdirs' =>
      rw [hdirs']
      exact hgive hdirs
    | leave hdirs _ _ hdirs' =>
      rw [hdirs']
      intro d' hd'
      exact hi.opened d' (hdirs ▸ List.mem_cons_of_mem _ hd')

/-- What is at the source is what was there. -/
theorem WellSoFar.same (hplain : before.Plain) (hi : WalkInv before src dst t dirs)
    (hw : WellSoFar before src dst t dirs) {r : Place} {n n' : Node}
    (hn : before.node (src ++ r) = some n) (hn' : t.node (src ++ r) = some n') : n' = n := by
  cases n with
  | dir =>
    rw [hi.grows.dir _ hn] at hn'
    exact (Option.some.inj hn').symm
  | file bytes =>
    rw [hw.source _ bytes (List.prefix_append _ _) hn] at hn'
    exact (Option.some.inj hn').symm
  | other => exact absurd hn (hplain _)

section Step

variable {d : OpenDir} {rest : List OpenDir} {name : String} {r : Place}

theorem WellSoFar.enter (hplain : before.Plain) (hi : WalkInv before src dst t (d :: rest))
    (hw : WellSoFar before src dst t (d :: rest)) (hentry : d.entry name = src ++ r)
    (hsrc : t.node (src ++ r) = some .dir) (hmade : t.MadeDir (dst ++ r) u) :
    WellSoFar before src dst u (.list u (src ++ r) (dst ++ r) :: d.give name :: rest) := by
  refine ⟨fun q bytes hq hn => hmade.onlyDirs.keeps (hw.source q bytes hq hn), ?_⟩
  intro r' n hn hdone
  by_cases hr : r' = r
  · subst hr
    rw [← hw.same hplain hi hn hsrc]
    exact hmade.made
  · refine hmade.onlyDirs.keeps (hw.copied r' n hn fun htodo => ?_)
    rcases todo_enter (a := name) htodo with heq | htodo
    · exact hr (List.append_cancel_left (heq.trans hentry))
    · refine hdone ?_
      rw [← hentry]
      exact htodo

/-- Below a file there is nothing: its copy takes itself only. -/
theorem WalkInv.not_below (hi : WalkInv before src dst t dirs) {r' : Place} {n : Node}
    {bytes : List UInt8} (hfile : t.node (src ++ r) = some (.file bytes))
    (hn : before.node (src ++ r') = some n) (hr : r' ≠ r) : ¬ src ++ r <+: src ++ r' := by
  intro hbelow
  obtain ⟨z, hz⟩ := hbelow
  have hz' : z ≠ [] := by
    intro hnil
    rw [hnil, List.append_nil] at hz
    exact hr (List.append_cancel_left hz).symm
  rw [← hz] at hn
  have hdir := hi.grows.dir _ (FileTree.dir_of_node_append hn hz')
  rw [hfile] at hdir
  cases hdir

theorem WellSoFar.file (hplain : before.Plain) (hi : WalkInv before src dst t (d :: rest))
    (hw : WellSoFar before src dst t (d :: rest)) (hentry : d.entry name = src ++ r)
    (hcopy : t.Copies (src ++ r) (dst ++ r) u)
    (hspares : SparesFile before src t (src ++ r) (dst ++ r)) :
    WellSoFar before src dst u (d.give name :: rest) := by
  obtain ⟨bytes, hfile, hwritten, -⟩ := hcopy.of_plain hi.plain
  refine ⟨fun q kept hq hn => ?_, fun r' n hn hdone => ?_⟩
  · by_cases hqr : q = dst ++ r
    · subst hqr
      rw [hwritten, hspares bytes kept hfile hq hn]
    · rw [hcopy.wrote.others q hqr]
      exact hw.source q kept hq hn
  · by_cases hr : r' = r
    · subst hr
      obtain rfl := hw.same hplain hi hn hfile
      rw [hwritten]
      by_cases heq : src ++ r' = dst ++ r'
      · have hkept := hspares bytes bytes hfile (heq ▸ List.prefix_append _ _) (heq ▸ hn)
        rw [hkept]
      · rw [if_neg heq]
    · rw [hcopy.wrote.others _ fun heq => hr (List.append_cancel_left heq)]
      refine hw.copied r' n hn fun htodo => ?_
      rcases todo_pass (a := name) htodo with hbelow | htodo
      · exact hi.not_below hfile hn hr (hentry ▸ hbelow)
      · exact hdone htodo

/-- All the names that were there have been given. -/
theorem WellSoFar.leave (hi : WalkInv before src dst t (d :: rest))
    (hw : WellSoFar before src dst t (d :: rest)) (hall : ∀ name ∈ d.opened, name ∈ d.taken) :
    WellSoFar before src dst t rest := by
  refine ⟨hw.source, fun r n hn hdone => hw.copied r n hn fun htodo => ?_⟩
  rcases todo_leave htodo with hahead | htodo
  · obtain ⟨a, w, heq, hnew⟩ := hahead
    refine hnew (hall a (hi.opened d List.mem_cons_self a ?_))
    rw [heq, ← List.singleton_append, ← List.append_assoc] at hn
    by_cases hw' : w = []
    · rw [hw', List.append_nil] at hn
      rw [OpenDir.entry, hn]
      rfl
    · rw [OpenDir.entry, FileTree.dir_of_node_append hn hw']
      rfl
  · exact hdone htodo

end Step

/-- **A step that spares the source goes well.** -/
theorem WellSoFar.step (hplain : before.Plain) (hi : WalkInv before src dst t dirs)
    (hw : WellSoFar before src dst t dirs) (h : WalkStep src dst t dirs e u dirs')
    (hspares : SparesSource before src (.walking t dirs) e) :
    WellSoFar before src dst u dirs' := by
  cases h with
  | enter hdirs hnew hentry hsrc hmade hdirs' =>
    subst hdirs hdirs'
    exact hw.enter hplain hi hentry hsrc hmade
  | file hdirs hnew hentry hsrc hnot hcopy hdirs' hevent htarget =>
    subst hdirs hdirs' hevent
    refine hw.file hplain hi hentry hcopy ?_
    rw [← hentry, ← htarget]
    exact hspares
  | leave hdirs htree hall hdirs' =>
    subst hdirs hdirs' htree
    exact hw.leave hi hall

/-- **One that does not loses a file.** -/
theorem Lost.of_step (hi : WalkInv before src dst t dirs) (h : WalkStep src dst t dirs e u dirs')
    (hspares : ¬ SparesSource before src (.walking t dirs) e) : Lost before src dst u dirs' := by
  cases h with
  | @enter d rest name r hdirs hnew hentry hsrc hmade hdirs' hevent htarget =>
    subst hdirs hevent
    refine absurd (fun bytes kept hfile => ?_) hspares
    rw [hentry, hsrc] at hfile
    cases hfile
  | @file d rest name r n' hdirs hnew hentry hsrc hnot hcopy hdirs' hevent htarget =>
    obtain ⟨bytes, hfile, hwritten, -⟩ := hcopy.of_plain hi.plain
    have hspares' : ¬ SparesFile before src t (src ++ r) (dst ++ r) := by
      subst hdirs hevent
      rw [← hentry, ← htarget]
      exact hspares
    simp only [SparesFile, not_forall] at hspares'
    obtain ⟨bytes', kept, hfile', hbelow, hbefore, hne⟩ := hspares'
    rw [hfile] at hfile'
    obtain rfl : bytes = bytes' := by simpa using hfile'
    refine ⟨r, kept, _, hbelow, hbefore, ?_, hwritten, fun heq => hne (by simpa using heq)⟩
    subst hdirs hdirs'
    have hmove : WalkMove (some (src ++ r)) ((d :: rest).map OpenDir.toVisit)
        ((d.give name :: rest).map OpenDir.toVisit) := .pass hnew (congrArg some hentry.symm)
    exact (hmove.done hi.inv.nested).2
  | leave _ _ _ _ hevent =>
    subst hevent
    cases dirs <;> exact absurd trivial hspares

theorem CopyTrack.step {hist : List (CopyState × CopyEvent)} (hplain : before.Plain)
    (hk : CopyTrack before src dst hist t dirs) (h : WalkStep src dst t dirs e u dirs') :
    CopyTrack before src dst ((.walking t dirs, e) :: hist) u dirs' where
  toWalkInv := hk.toWalkInv.step h
  well hall := by
    rw [List.forall_mem_cons] at hall
    exact (hk.well hall.2).step hplain hk.toWalkInv h hall.1
  lost x hx hspares := by
    rcases List.mem_cons.mp hx with rfl | hx
    · exact .of_step hk.toWalkInv h hspares
    · exact (hk.lost x hx hspares).step h

/-- The walk begins: everything below the source is ahead. -/
theorem copyTrack_list {hist : List (CopyState × CopyEvent)} (hplain : before.Plain)
    (hmade : before.OnlyDirs t) (hsrc : before.node src = some .dir)
    (hdst : t.node dst = some .dir) (hall : ∀ x ∈ hist, SparesSource before src x.1 x.2) :
    CopyTrack before src dst hist t [.list t src dst] where
  inv := copyInv_list (hmade.keeps hsrc) hdst
  grows := hmade.grows
  plain := hmade.plain hplain
  opened d hd name hname := by
    obtain rfl := List.mem_singleton.mp hd
    exact FileTree.mem_names.mpr (hmade.grows.isSome hname)
  well _ := by
    refine ⟨fun q bytes _ hn => hmade.keeps hn, fun r n hn hdone => ?_⟩
    by_cases hr : r = []
    · rw [hr, List.append_nil] at hn ⊢
      rw [hdst, ← hsrc, hn]
    · refine absurd ⟨.fresh src, List.mem_cons_self, ?_⟩ hdone
      refine Visit.ahead_fresh (List.prefix_append _ _) fun heq => hr ?_
      exact List.append_right_eq_self.mp heq
  lost x hx hspares := absurd (hall x hx) hspares

/-- **A single file**: its copy is the whole run. -/
theorem copyTrack_single {x : CopyState × CopyEvent} (hplain : before.Plain)
    (hmade : before.OnlyDirs t) (hnot : before.node src ≠ some .dir) (hcopy : t.Copies src dst u)
    (hx : SparesSource before src x.1 x.2 ↔ SparesFile before src before src dst) :
    CopyTrack before src dst [x] u [] := by
  obtain ⟨bytes, hfile, hwritten, hplain'⟩ := hcopy.of_plain (hmade.plain hplain)
  have hbefore : before.node src = some (.file bytes) := by
    rcases hmade.made src with heq | ⟨-, hdir⟩
    · rw [← heq, hfile]
    · rw [hdir] at hfile
      cases hfile
  -- nothing is below a file
  have honly : ∀ r n, before.node (src ++ r) = some n → r = [] ∧ n = .file bytes := by
    intro r n hn
    obtain rfl : r = [] := by
      by_contra hr
      exact hnot (FileTree.dir_of_node_append hn hr)
    rw [List.append_nil, hbefore] at hn
    exact ⟨rfl, (Option.some.inj hn).symm⟩
  refine ⟨⟨⟨trivial, ?_, ?_, ?_⟩, hmade.grows.trans hcopy.wrote.grows, hplain', ?_⟩,
    fun hall => ?_, fun y hy hspares => ?_⟩
  · exact fun d hd => absurd hd List.not_mem_nil
  · exact fun d hd => absurd hd List.not_mem_nil
  · exact fun d hd => absurd hd List.not_mem_nil
  · exact fun d hd => absurd hd List.not_mem_nil
  · have hspares := hx.mp (hall x List.mem_cons_self)
    have hsame : (if src = dst then [] else bytes) = bytes := by
      split_ifs with heq
      · have hkept := hspares bytes bytes hbefore (heq ▸ List.prefix_refl _) (heq ▸ hbefore)
        rwa [if_pos heq] at hkept
      · rfl
    rw [hsame] at hwritten
    refine ⟨fun q kept hq hn => ?_, fun r n hn _ => ?_⟩
    · obtain ⟨r, rfl⟩ := hq
      obtain ⟨rfl, hkept⟩ := honly r _ hn
      rw [List.append_nil, hkept]
      by_cases heq : src = dst
      · rw [heq, hwritten]
      · rw [hcopy.wrote.others src heq, hfile]
    · obtain ⟨rfl, rfl⟩ := honly r n hn
      rw [List.append_nil, hwritten]
  · obtain rfl := List.mem_singleton.mp hy
    have hnot' := mt hx.mpr hspares
    simp only [SparesFile, not_forall] at hnot'
    obtain ⟨bytes', kept, hfile', hbelow, hkept, hne⟩ := hnot'
    rw [hbefore] at hfile'
    obtain rfl : bytes = bytes' := by simpa using hfile'
    rw [← List.append_nil dst] at hbelow hkept hwritten
    refine ⟨[], kept, _, hbelow, hkept, fun htodo => ?_, hwritten, fun heq => hne ?_⟩
    · obtain ⟨v, hv, -⟩ := htodo
      cases hv
    · simpa using heq

/-- What is known in each state of a run. -/
def TrackRun (before : FileTree) (path path' : PathBuf) (hist : List (CopyState × CopyEvent)) :
    CopyState → Prop
  | .copy _ src dst t => hist = [] ∧ t = before ∧ src = path ∧ dst = path'
  | .copyDir src dst t =>
      t = before ∧ src = path ∧ dst = path' ∧ before.node (before.place path) = some .dir ∧
        ∀ x ∈ hist, SparesSource before (before.place path) x.1 x.2
  | .walking t dirs => CopyTrack before (before.place path) (before.place path') hist t dirs
  | .failed _ => True

/-- **Every run is tracked.** -/
theorem CopyRun.track {recursive : Bool} {path path' : PathBuf}
    {hist : List (CopyState × CopyEvent)} {s : CopyState} (hplain : before.Plain)
    (h : CopyRun before recursive path path' hist s) : TrackRun before path path' hist s := by
  refine h.history_invariant ?_ ?_
  · intro s hs
    subst hs
    exact ⟨rfl, rfl, rfl, rfl⟩
  · intro hist s e s' hs hstep
    cases s with
    | copy recursive src dst t =>
      obtain ⟨rfl, rfl, rfl, rfl⟩ := hs
      cases hstep with
      | directory hsrc hdir =>
        obtain ⟨rfl, -⟩ := FileTree.walk_spec hsrc
        refine ⟨rfl, rfl, rfl, hdir, List.forall_mem_singleton.mpr fun bytes kept hfile => ?_⟩
        rw [hdir] at hfile
        cases hfile
      | @single _ u v _ _ _ p hsrc hnot hmade hcopy =>
        obtain ⟨rfl, -⟩ := FileTree.walk_spec hsrc
        have honly : t.OnlyDirs u := by
          cases hparent : dst.parent with
          | none =>
            rw [hparent] at hmade
            obtain rfl := Option.some.inj hmade
            exact ⟨rfl, fun _ => .inl rfl⟩
          | some parent =>
            rw [hparent] at hmade
            exact (FileTree.createDirAll_spec hmade).1
        rw [honly.place] at hcopy
        exact copyTrack_single hplain honly hnot hcopy Iff.rfl
      | failCopy => trivial
    | copyDir src dst t =>
      obtain ⟨rfl, rfl, rfl, hdir, hall⟩ := hs
      cases hstep with
      | opens hmade hsrc hdir' =>
        obtain ⟨honly, hdst⟩ := FileTree.createDirAll_spec hmade
        obtain ⟨rfl, -⟩ := FileTree.walk_spec hsrc
        rw [honly.place, honly.place]
        exact copyTrack_list hplain honly hdir hdst
          (List.forall_mem_cons.mpr ⟨trivial, hall⟩)
      | failDir => trivial
    | walking t dirs =>
      obtain ⟨u, rfl, -⟩ | ⟨u, dirs', rfl, hwalk⟩ := hstep.walks hs.inv
      · trivial
      · exact hs.step hplain hwalk
    | failed t => cases hstep

/-- Nothing is ahead when the copy has returned. -/
theorem not_todo_nil (q : Place) : ¬ Todo (([] : List OpenDir).map OpenDir.toVisit) q := by
  intro h
  obtain ⟨v, hv, -⟩ := h
  cases hv

theorem CopyTrack.well_of_spares {hist : List (CopyState × CopyEvent)}
    (hk : CopyTrack before src dst hist t [])
    (hall : ∀ x ∈ hist, SparesSource before src x.1 x.2) : CopiedWell before t src dst :=
  ⟨(hk.well hall).source, fun r n hn => (hk.well hall).copied r n hn (not_todo_nil _)⟩

theorem CopyTrack.spares_of_well {hist : List (CopyState × CopyEvent)}
    (hk : CopyTrack before src dst hist t []) (hw : CopiedWell before t src dst) :
    ∀ x ∈ hist, SparesSource before src x.1 x.2 := by
  intro x hx
  by_contra hspares
  obtain ⟨r, bytes, n, hbelow, hbefore, -, hn, hne⟩ := hk.lost x hx hspares
  rw [hw.source _ _ hbelow hbefore] at hn
  exact hne (Option.some.inj hn).symm

/-- **Where neither place is at or below the other**, a copy that returns does well. -/
theorem copy_apart {recursive : Bool} {path path' : PathBuf}
    {hist : List (CopyState × CopyEvent)} (hplain : before.Plain)
    (h : CopyRun before recursive path path' hist (.walking t []))
    (hapart : ¬ before.place path <+: before.place path')
    (hapart' : ¬ before.place path' <+: before.place path) :
    CopiedWell before t (before.place path) (before.place path') := by
  have hk : CopyTrack before (before.place path) (before.place path') hist t [] := h.track hplain
  refine hk.well_of_spares fun x hx => ?_
  by_contra hspares
  obtain ⟨r, bytes, n, hbelow, -⟩ := hk.lost x hx hspares
  rcases List.prefix_or_prefix_of_prefix hbelow (List.prefix_append _ r) with hle | hle
  · exact hapart hle
  · exact hapart' hle

end Track

/-- **A copy that returns `Ok` leaves the source as it was, and the destination with it, exactly if
    no copy of a file in it writes over a file of the source bytes that are not its own.** -/
theorem copy_faithful_iff {before after : FileTree} {recursive : Bool} {src dst : PathBuf}
    {hist : List (CopyState × CopyEvent)} (hplain : before.Plain)
    (h : CopyRun before recursive src dst hist (.walking after [])) :
    CopiedWell before after (before.place src) (before.place dst) ↔
      ∀ x ∈ hist, SparesSource before (before.place src) x.1 x.2 := by
  have hk : CopyTrack before (before.place src) (before.place dst) hist after [] := h.track hplain
  exact ⟨hk.spares_of_well, hk.well_of_spares⟩

/-! ## 4. A single file -/

/-- The file `/f`, of one byte. -/
def oneByteTree : FileTree := rootTree.put ["f"] (.file [1]) (by decide) (by decide)

theorem oneByteTree_node (p : Place) : oneByteTree.node p =
    if p = ["f"] then some (.file [1]) else if p = [] then some .dir else none := by
  split_ifs with hf hroot
  · rw [hf]
    exact FileTree.node_put
  · rw [hroot]
    exact oneByteTree.root
  · exact (FileTree.node_put_of_ne hf).trans ((AList.lookup_insert_ne hroot).trans rfl)

theorem oneByteTree_plain : oneByteTree.Plain := by
  intro p hp
  rw [oneByteTree_node] at hp
  split_ifs at hp <;> cases hp

/-- `/f` is copied to a name in the root. -/
theorem oneByte_run (name : String) (hname : name ≠ "..") :
    ∃ after hist, CopyRun oneByteTree false ⟨true, ["f"]⟩ ⟨true, [name]⟩ hist (.walking after []) ∧
      hist = [(.copy false ⟨true, ["f"]⟩ ⟨true, [name]⟩ oneByteTree, .call)] ∧
      after.node [name] = some (.file (if ["f"] = [name] then [] else [1])) := by
  have hplace : oneByteTree.place ⟨true, [name]⟩ = [name] := if_neg hname
  have hparent : oneByteTree.node [name].dropLast = some .dir := oneByteTree.root
  have hnot : oneByteTree.node [name] ≠ some .dir := by
    rw [oneByteTree_node, if_neg (List.cons_ne_nil _ _)]
    split_ifs <;> simp
  let after := oneByteTree.put [name] (.file (if ["f"] = [name] then [] else [1])) hparent hnot
  have hcopy : oneByteTree.Copies ["f"] (oneByteTree.place ⟨true, [name]⟩) after := by
    rw [hplace]
    exact .file (by rw [oneByteTree_node, if_pos rfl]) hparent hnot (oneByteTree_plain _)
  refine ⟨after, _, .step (.start rfl) (.single (p := ["f"]) ?_ ?_ rfl hcopy), rfl,
    FileTree.node_put⟩
  · decide
  · rw [oneByteTree_node, if_pos rfl]
    simp

theorem copy_faithful_iff_beside : ∃ after hist,
    CopyRun oneByteTree false ⟨true, ["f"]⟩ ⟨true, ["g"]⟩ hist (.walking after []) ∧
      CopiedWell oneByteTree after ["f"] ["g"] := by
  obtain ⟨after, hist, hrun, hhist, -⟩ := oneByte_run "g" (by decide)
  refine ⟨after, hist, hrun, (copy_faithful_iff oneByteTree_plain hrun).mpr fun x hx => ?_⟩
  rw [hhist] at hx
  obtain rfl := List.mem_singleton.mp hx
  intro bytes kept _ _ hkept
  rw [oneByteTree_node] at hkept
  simp [FileTree.place, FileTree.base, Place.go] at hkept

/-- **A file copied onto itself** is empty when the copy has returned. -/
theorem copy_onto_itself :
    ¬ ∀ (before after : FileTree) (recursive : Bool) (src dst : PathBuf)
      (hist : List (CopyState × CopyEvent)), before.Plain →
        CopyRun before recursive src dst hist (.walking after []) →
          CopiedWell before after (before.place src) (before.place dst) := by
  intro hall
  obtain ⟨after, hist, hrun, -, hempty⟩ := oneByte_run "f" (by decide)
  have hwell := hall _ _ _ _ _ _ oneByteTree_plain hrun
  have hsame := hwell.source ["f"] [1] (List.prefix_refl _) (by rw [oneByteTree_node, if_pos rfl])
  rw [hempty, if_pos rfl] at hsame
  cases hsame

end Relayfs

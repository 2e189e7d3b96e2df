/-
  File:      Relayfs/Agent/CopyTree.lean
  Subject:   `copy` AND `copy_dir_recursive` (agent/src/files.rs), step by step: a stack of calls, each
             with its directory open.

  A listing gives each name once, in any order: every name that was there when the directory was
  opened, and of those that came later any. A name joined to the path of a directory leads to the
  place below it (`createFrom_name`, `walkFrom_name`), so a call is about places. Any operation may
  fail, and with it the whole copy.

  * `OpenDir`, `CopyState`, `CopyStep` -- the calls, the state and its steps;
  * `CopyInv` -- the calls are nested, each from a place below the source to the same place below the
    destination;
  * `WalkStep`, `CopyStep.walks` -- what a step of the walk does to the tree.
-/
import Relayfs.Agent.FileTree
import Relayfs.Lib.Run
import Relayfs.Lib.Walk

namespace Relayfs

open Lib

/-! ## 1. Steps -/

/-- **A call of `copy_dir_recursive`** that has listed `place`: the names the listing has given, the
    ones that were there at first, and the directory copied to. -/
structure OpenDir extends Visit String where
  dst : Place
  opened : List String

namespace OpenDir

/-- `read_dir`. -/
def list (t : FileTree) (src dst : Place) : OpenDir := ⟨.fresh src, dst, t.names src⟩

/-- The listing has given a name. -/
def give (d : OpenDir) (name : String) : OpenDir := { d with toVisit := d.toVisit.take name }

/-- `entry.path()`. -/
def entry (d : OpenDir) (name : String) : Place := d.place ++ [name]

/-- `to.join(entry.file_name())`. -/
def target (d : OpenDir) (name : String) : Place := d.dst ++ [name]

end OpenDir

/-- **A copy under way.** `walking t []` is the return with `Ok`. -/
inductive CopyState where
  | copy (recursive : Bool) (src dst : PathBuf) (t : FileTree)
  | copyDir (src dst : PathBuf) (t : FileTree)
  | walking (t : FileTree) (dirs : List OpenDir)
  | failed (t : FileTree)

inductive CopyEvent where
  | call
  | give (name : String)
  | leave
  | fail
  deriving DecidableEq, Repr

/-- **One step.** -/
inductive CopyStep : CopyState → CopyEvent → CopyState → Prop where
  | directory {t : FileTree} {src dst : PathBuf} {p : Place} (hsrc : t.walk src = some p)
      (hdir : t.node p = some .dir) : CopyStep (.copy true src dst t) .call (.copyDir src dst t)
  | single {t u v : FileTree} {recursive : Bool} {src dst : PathBuf} {p : Place}
      (hsrc : t.walk src = some p) (hnot : t.node p ≠ some .dir)
      (hmade : dst.parent.elim (some t) t.createDirAll = some u)
      (hcopy : u.Copies p (u.place dst) v) :
      CopyStep (.copy recursive src dst t) .call (.walking v [])
  | opens {t u : FileTree} {src dst : PathBuf} {p : Place} (hmade : t.createDirAll dst = some u)
      (hsrc : u.walk src = some p) (hdir : u.node p = some .dir) :
      CopyStep (.copyDir src dst t) .call (.walking u [.list u p (u.place dst)])
  | enter {t u : FileTree} {d : OpenDir} {rest : List OpenDir} {name : String}
      (hnew : name ∉ d.taken) (hdir : t.node (d.entry name) = some .dir)
      (hmade : t.makeDir (d.target name) = some u) :
      CopyStep (.walking t (d :: rest)) (.give name)
        (.walking u (.list u (d.entry name) (d.target name) :: d.give name :: rest))
  | file {t u : FileTree} {d : OpenDir} {rest : List OpenDir} {name : String} {n : Node}
      (hnew : name ∉ d.taken) (hthere : t.node (d.entry name) = some n) (hnot : n ≠ .dir)
      (hcopy : t.Copies (d.entry name) (d.target name) u) :
      CopyStep (.walking t (d :: rest)) (.give name) (.walking u (d.give name :: rest))
  | leave {t : FileTree} {d : OpenDir} {rest : List OpenDir}
      (hall : ∀ name ∈ d.opened, name ∈ d.taken) :
      CopyStep (.walking t (d :: rest)) .leave (.walking t rest)
  | failCopy {t u : FileTree} {recursive : Bool} {src dst : PathBuf} :
      CopyStep (.copy recursive src dst t) .fail (.failed u)
  | failDir {t u : FileTree} {src dst : PathBuf} : CopyStep (.copyDir src dst t) .fail (.failed u)
  | failWalk {t u : FileTree} {d : OpenDir} {rest : List OpenDir} :
      CopyStep (.walking t (d :: rest)) .fail (.failed u)

/-! ## 2. What holds of a walk -/

/-- **The calls are nested**, and each one is from a place below `src` to the same place below
    `dst`; the directories listed and made are there. -/
structure CopyInv (src dst : Place) (t : FileTree) (dirs : List OpenDir) : Prop where
  nested : Nested (dirs.map OpenDir.toVisit)
  pairs : ∀ d ∈ dirs, ∃ r, d.place = src ++ r ∧ d.dst = dst ++ r
  listed : ∀ d ∈ dirs, t.node d.place = some .dir
  made : ∀ d ∈ dirs, t.node d.dst = some .dir

/-- **A step of a walk, as a move**: it takes a place below the source, and makes a directory or
    writes a file at the same place below the destination; or it leaves a directory. -/
inductive WalkStep (src dst : Place) (t : FileTree) (dirs : List OpenDir) (e : CopyEvent)
    (u : FileTree) (dirs' : List OpenDir) : Prop where
  | enter {d : OpenDir} {rest : List OpenDir} {name : String} {r : Place}
      (hdirs : dirs = d :: rest) (hnew : name ∉ d.taken) (hentry : d.entry name = src ++ r)
      (hsrc : t.node (src ++ r) = some .dir) (hmade : t.MadeDir (dst ++ r) u)
      (hdirs' : dirs' = .list u (src ++ r) (dst ++ r) :: d.give name :: rest)
      (hevent : e = .give name) (htarget : d.target name = dst ++ r)
  | file {d : OpenDir} {rest : List OpenDir} {name : String} {r : Place} {n : Node}
      (hdirs : dirs = d :: rest) (hnew : name ∉ d.taken) (hentry : d.entry name = src ++ r)
      (hsrc : t.node (src ++ r) = some n) (hnot : n ≠ .dir)
      (hcopy : t.Copies (src ++ r) (dst ++ r) u) (hdirs' : dirs' = d.give name :: rest)
      (hevent : e = .give name) (htarget : d.target name = dst ++ r)
  | leave {d : OpenDir} {rest : List OpenDir} (hdirs : dirs = d :: rest) (htree : u = t)
      (hall : ∀ name ∈ d.opened, name ∈ d.taken) (hdirs' : dirs' = rest) (hevent : e = .leave)

section Walking

variable {src dst : Place} {t u : FileTree} {dirs dirs' : List OpenDir} {e : CopyEvent}

theorem copyInv_list (hsrc : t.node src = some .dir) (hdst : t.node dst = some .dir) :
    CopyInv src dst t [.list t src dst] where
  nested := trivial
  pairs d hd := by
    obtain rfl := List.mem_singleton.mp hd
    exact ⟨[], (List.append_nil _).symm, (List.append_nil _).symm⟩
  listed d hd := by
    obtain rfl := List.mem_singleton.mp hd
    exact hsrc
  made d hd := by
    obtain rfl := List.mem_singleton.mp hd
    exact hdst

theorem WalkStep.grows (h : WalkStep src dst t dirs e u dirs') : t.Grows u := by
  cases h with
  | enter _ _ _ _ hmade => exact hmade.grows
  | file _ _ _ _ _ hcopy => exact hcopy.wrote.grows
  | leave _ htree =>
    rw [htree]
    exact .refl t

/-- A step of a walk is a move of the stack; what it takes is at the source. -/
theorem WalkStep.move (h : WalkStep src dst t dirs e u dirs') :
    ∃ took, WalkMove took (dirs.map OpenDir.toVisit) (dirs'.map OpenDir.toVisit) ∧
      ∀ q, took = some q → ∃ r, q = src ++ r ∧ (t.node (src ++ r)).isSome := by
  cases h with
  | @enter d rest name r hdirs hnew hentry hsrc _ hdirs' =>
    subst hdirs hdirs'
    refine ⟨some (src ++ r), ?_, fun q hq => ⟨r, (Option.some.inj hq).symm, by rw [hsrc]; rfl⟩⟩
    rw [← hentry]
    exact .enter hnew rfl
  | @file d rest name r n hdirs hnew hentry hsrc _ _ hdirs' =>
    subst hdirs hdirs'
    refine ⟨some (src ++ r), ?_, fun q hq => ⟨r, (Option.some.inj hq).symm, by rw [hsrc]; rfl⟩⟩
    rw [← hentry]
    exact .pass hnew rfl
  | leave hdirs _ _ hdirs' =>
    subst hdirs hdirs'
    exact ⟨none, .leave rfl, fun q hq => by cases hq⟩

/-- The calls that go on keep their directories. -/
theorem CopyInv.later (hi : CopyInv src dst t dirs) (hu : t.Grows u)
    (hn : Nested (dirs'.map OpenDir.toVisit))
    (hsub : ∀ d' ∈ dirs', ∃ d ∈ dirs, d'.place = d.place ∧ d'.dst = d.dst) :
    CopyInv src dst u dirs' where
  nested := hn
  pairs d' hd' := by
    obtain ⟨d, hd, hplace, hdst⟩ := hsub d' hd'
    rw [hplace, hdst]
    exact hi.pairs d hd
  listed d' hd' := by
    obtain ⟨d, hd, hplace, -⟩ := hsub d' hd'
    rw [hplace]
    exact hu.dir _ (hi.listed d hd)
  made d' hd' := by
    obtain ⟨d, hd, -, hdst⟩ := hsub d' hd'
    rw [hdst]
    exact hu.dir _ (hi.made d hd)

theorem same_give (d : OpenDir) (name : String) (rest : List OpenDir) :
    ∀ d' ∈ d.give name :: rest, ∃ x ∈ d :: rest, d'.place = x.place ∧ d'.dst = x.dst := by
  intro d' hd'
  rcases List.mem_cons.mp hd' with rfl | hd'
  · exact ⟨d, List.mem_cons_self, rfl, rfl⟩
  · exact ⟨d', List.mem_cons_of_mem _ hd', rfl, rfl⟩

theorem WalkStep.inv (h : WalkStep src dst t dirs e u dirs') (hi : CopyInv src dst t dirs) :
    CopyInv src dst u dirs' := by
  have hgrows := h.grows
  have hn : Nested (dirs'.map OpenDir.toVisit) := by
    obtain ⟨took, hmove, -⟩ := h.move
    exact hmove.nested hi.nested
  cases h with
  | @enter d rest name r hdirs hnew hentry hsrc hmade hdirs' =>
    subst hdirs hdirs'
    have hrest := hi.later hgrows hn.tail (same_give d name rest)
    refine ⟨hn, ?_, ?_, ?_⟩
    · exact List.forall_mem_cons.mpr ⟨⟨r, rfl, rfl⟩, hrest.pairs⟩
    · exact List.forall_mem_cons.mpr ⟨hgrows.dir _ hsrc, hrest.listed⟩
    · exact List.forall_mem_cons.mpr ⟨hmade.made, hrest.made⟩
  | @file d rest name r n hdirs hnew hentry hsrc hnot hcopy hdirs' =>
    subst hdirs hdirs'
    exact hi.later hgrows hn (same_give d name rest)
  | leave hdirs htree _ hdirs' =>
    subst hdirs hdirs'
    exact hi.later hgrows hn fun d' hd' => ⟨d', List.mem_cons_of_mem _ hd', rfl, rfl⟩

/-- **What a step of a walk does.** -/
theorem CopyStep.walks {s : CopyState} (hi : CopyInv src dst t dirs)
    (h : CopyStep (.walking t dirs) e s) :
    (∃ u, s = .failed u ∧ dirs ≠ []) ∨
      ∃ u dirs', s = .walking u dirs' ∧ WalkStep src dst t dirs e u dirs' := by
  cases h with
  | @enter _ u d rest name hnew hdir hmade =>
    obtain ⟨r, hplace, hdst⟩ := hi.pairs d List.mem_cons_self
    have hentry : d.entry name = src ++ (r ++ [name]) := by
      rw [OpenDir.entry, hplace, List.append_assoc]
    have htarget : d.target name = dst ++ (r ++ [name]) := by
      rw [OpenDir.target, hdst, List.append_assoc]
    rw [hentry] at hdir
    rw [htarget] at hmade
    refine .inr ⟨_, _, rfl, .enter rfl hnew hentry hdir (FileTree.madeDir_of_makeDir hmade) ?_
      rfl htarget⟩
    rw [hentry, htarget]
  | @file _ u d rest name n hnew hthere hnot hcopy =>
    obtain ⟨r, hplace, hdst⟩ := hi.pairs d List.mem_cons_self
    have hentry : d.entry name = src ++ (r ++ [name]) := by
      rw [OpenDir.entry, hplace, List.append_assoc]
    have htarget : d.target name = dst ++ (r ++ [name]) := by
      rw [OpenDir.target, hdst, List.append_assoc]
    rw [hentry] at hthere
    rw [hentry, htarget] at hcopy
    exact .inr ⟨_, _, rfl, .file rfl hnew hentry hthere hnot hcopy rfl rfl htarget⟩
  | leave hall => exact .inr ⟨_, _, rfl, .leave rfl rfl hall rfl rfl⟩
  | failWalk => exact .inl ⟨_, rfl, List.cons_ne_nil _ _⟩

end Walking

end Relayfs

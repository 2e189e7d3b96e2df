/-
  File:      Relayfs/Fuse/Inodes.lean
  Subject:   INODE NUMBERS AND THE OBJECTS THE KERNEL HOLDS UNDER THEM: does `path_for` follow a
             rename?

  The kernel keeps the number it was given for an object when it renames the object. The mount
  keeps a path for each number, and never changes it.

  * `InodeMap.Wf`, `InodeMap.Grows` -- numbers are only ever added (`exec_grows`);
  * `KernelView`, `KernelStep` -- the mount with the target's tree and the numbers that the kernel
    holds, and the requests that succeed;
  * `NumbersFollow` -- `path_for` of a held number is where the object is;
  * `numbers_follow_iff` -- it holds throughout a run exactly when no rename moves an object that
    the kernel holds;
  * `rename_loses_number` -- a looked up file that is renamed.
-/
import Relayfs.Fuse.Mount

namespace Relayfs

open Lib Background

/-! ## 1. The inode map -/

namespace InodeMap

/-- Every number that a path has leads back to it, and numbers are given out in order. -/
structure Wf (m : InodeMap) : Prop where
  back : ∀ p i, m.byPath.lookup p = some i → m.path i = some p
  below : ∀ i p, m.path i = some p → i < m.next

/-- No number loses its path. -/
def Grows (m m' : InodeMap) : Prop :=
  m.Wf → m'.Wf ∧ ∀ i p, m.path i = some p → m'.path i = some p

theorem Grows.refl (m : InodeMap) : m.Grows m := fun h => ⟨h, fun _ _ hp => hp⟩

theorem Grows.trans {m m' m'' : InodeMap} (h : m.Grows m') (h' : m'.Grows m'') : m.Grows m'' := by
  intro hwf
  obtain ⟨hwf', hpath⟩ := h hwf
  obtain ⟨hwf'', hpath'⟩ := h' hwf'
  exact ⟨hwf'', fun i p hp => hpath' i p (hpath i p hp)⟩

variable {m : InodeMap}

theorem wf_new (root : PathBuf) : (new root).Wf where
  back p i h := by
    by_cases hp : p = root
    · subst hp
      rw [new, AList.lookup_insert] at h
      obtain rfl : 1 = i := Option.some.inj h
      exact AList.lookup_insert _
    · rw [new, AList.lookup_insert_ne hp, AList.lookup_empty] at h
      cases h
  below i p h := by
    by_cases hi : i = 1
    · rw [hi]
      exact Nat.lt_succ_self 1
    · rw [path, new, AList.lookup_insert_ne hi, AList.lookup_empty] at h
      cases h

/-- `ino_for` only adds a number. -/
theorem inoFor_grows (p : PathBuf) : m.Grows (m.inoFor p).1 := by
  intro hwf
  unfold inoFor
  cases hp : m.byPath.lookup p with
  | some i => exact ⟨hwf, fun _ _ h => h⟩
  | none =>
    have hold : ∀ i q, m.path i = some q → (m.byIno.insert m.next p).lookup i = some q := by
      intro i q hq
      have hne : i ≠ m.next := fun e => Nat.lt_irrefl _ (e ▸ hwf.below i q hq)
      rw [AList.lookup_insert_ne hne]
      exact hq
    refine ⟨⟨fun q i hq => ?_, fun i q hq => ?_⟩, hold⟩
    · by_cases hqp : q = p
      · subst hqp
        rw [AList.lookup_insert] at hq
        obtain rfl : m.next = i := Option.some.inj hq
        exact AList.lookup_insert _
      · rw [AList.lookup_insert_ne hqp] at hq
        exact hold i q (hwf.back q i hq)
    · show i < m.next + 1
      by_cases hi : i = m.next
      · rw [hi]
        exact Nat.lt_succ_self _
      · rw [path, AList.lookup_insert_ne hi] at hq
        exact Nat.lt_succ_of_lt (hwf.below i q hq)

/-- The number of a path leads back to it. -/
theorem inoFor_path (hwf : m.Wf) (p : PathBuf) : (m.inoFor p).1.path (m.inoFor p).2 = some p := by
  unfold inoFor
  cases hp : m.byPath.lookup p with
  | some i => exact hwf.back p i hp
  | none => exact AList.lookup_insert _

theorem childPath_grows (parent : Nat) (name : String) : m.Grows (m.childPath parent name).1 := by
  unfold childPath
  split
  · exact inoFor_grows _
  · exact .refl m

end InodeMap

/-! ## 2. What the handlers do to it -/

section Handlers

variable {ε : Type} {cfg : MountCfg} {env : EnvSem ε} {s t : Mount ε}

theorem step_grows {e : Effect} {a : Answer e} (h : stepSem env e s a t) :
    s.inodes.Grows t.inodes := by
  cases e with
  | childPath parent name =>
    obtain ⟨-, rfl⟩ := h
    exact InodeMap.childPath_grows parent name
  | inoForPath path =>
    obtain ⟨-, rfl⟩ := h
    exact InodeMap.inoFor_grows path
  | pathFor ino =>
    obtain ⟨-, rfl⟩ := h
    exact .refl _
  | enqueue path start stop =>
    obtain ⟨-, rfl⟩ := h
    exact .refl _
  | finish path range outcome =>
    obtain ⟨-, now, rfl⟩ := h
    exact .refl _
  | kickPrefetch path =>
    obtain rfl : t = _ := h
    split <;> exact .refl _
  | prefetchDone path =>
    obtain rfl : t = _ := h
    exact .refl _
  | call req =>
    obtain ⟨env', -, rfl⟩ := h
    exact .refl _
  | waitBelow cap => exact absurd h id
  | waitDrain paths => exact absurd h id
  | _ =>
    obtain ⟨env', -, rfl⟩ := h
    exact .refl _

theorem flushes_grows (h : Flushes cfg env s t) : s.inodes.Grows t.inodes := by
  induction h with
  | refl => exact .refl _
  | step _ hs ih =>
    refine ih.trans ?_
    cases hs with
    | claim => exact .refl _
    | send hw ht hx =>
      exact hx.rel (R := fun u v : Mount ε => u.inodes.Grows v.inodes) (fun _ => .refl _)
        (fun _ _ _ h h' => h.trans h') fun _ _ _ _ h => step_grows h

/-- **No handler takes a number away**, nor gives one another path. -/
theorem exec_grows {α : Type} {p : FsProg α} {a : α} (hx : p.Exec (mountSem cfg env) s a t) :
    s.inodes.Grows t.inodes := by
  refine hx.rel (R := fun u v : Mount ε => u.inodes.Grows v.inodes) (fun _ => .refl _)
    (fun _ _ _ h h' => h.trans h') fun e u a v h => ?_
  cases e with
  | waitBelow cap => exact flushes_grows h.1
  | waitDrain paths => exact flushes_grows h.1
  | _ => exact step_grows (show stepSem env _ u a v from h)

open RemoteFs Prog

/-- A handler that begins with a child of a known directory goes on with its path. -/
theorem exec_childPath {parent : Nat} {name : String} {dir : PathBuf}
    {f : Option PathBuf → FsProg Reply} {reply : Reply} (hdir : s.inodes.path parent = some dir)
    (hx : Exec (mountSem cfg env) (FsProg.childPath parent name >>= f) s reply t) :
    ∃ u : Mount ε, Exec (mountSem cfg env) (f (some (dir.child name))) u reply t ∧
      s.inodes.Grows u.inodes := by
  obtain ⟨p, u, hchild, hx⟩ := exec_bind.mp hx
  have hgrows : s.inodes.Grows u.inodes := exec_grows hchild
  obtain ⟨rfl, -⟩ := exec_perform.mp hchild
  rw [InodeMap.childPath, hdir] at hx
  exact ⟨u, hx, hgrows⟩

/-- The number that `ino_for_path` returns is one of the path. -/
theorem exec_inoForPath {path : PathBuf} {ino : Nat} (hwf : s.inodes.Wf)
    (hx : Exec (mountSem cfg env) (FsProg.inoForPath path) s ino t) :
    t.inodes.path ino = some path := by
  obtain ⟨rfl, rfl⟩ := exec_perform.mp hx
  exact InodeMap.inoFor_path hwf path

/-- `attr_for` answers with a number of the path. -/
theorem exec_attrFor {path : PathBuf} {attr : FileAttr} (hwf : s.inodes.Wf)
    (hx : Exec (mountSem cfg env) (attrFor cfg path) s (.ok attr) t) :
    t.inodes.path attr.ino = some path := by
  obtain ⟨a, u, hremote, hx⟩ := exec_bind.mp hx
  have hwfu : u.inodes.Wf := (exec_grows hremote hwf).1
  cases a with
  | error e =>
    obtain ⟨m, v, hmeta, hx⟩ := exec_bind.mp hx
    have hwfv : v.inodes.Wf := (exec_grows hmeta hwfu).1
    cases m with
    | none => cases (exec_pure.mp hx).1
    | some m =>
      obtain ⟨ino, w, hino, hx⟩ := exec_bind.mp hx
      obtain ⟨hattr, rfl⟩ := exec_pure.mp hx
      cases hattr
      exact exec_inoForPath hwfv hino
  | ok found =>
    -- what comes after the number leaves it its path
    have hfound : u.inodes.path found.ino = some path := by
      obtain ⟨r, v, hrpc, hremote⟩ := exec_bind.mp hremote
      have hwfv : v.inodes.Wf := (exec_grows hrpc hwf).1
      cases r with
      | error e => cases (exec_pure.mp hremote).1
      | ok value =>
        dsimp only at hremote
        split at hremote
        · cases (exec_pure.mp hremote).1
        · obtain ⟨ino, w, hino, hremote⟩ := exec_bind.mp hremote
          obtain ⟨hattr, rfl⟩ := exec_pure.mp hremote
          cases hattr
          exact exec_inoForPath hwfv hino
    have hattr : attr = found := by
      dsimp only at hx
      split at hx
      · obtain ⟨_, v, _, hx⟩ := exec_bind.mp hx
        exact Except.ok.inj (exec_pure.mp hx).1
      · exact Except.ok.inj (exec_pure.mp hx).1
    rw [hattr]
    exact (exec_grows hx hwfu).2 _ _ hfound

/-- The attributes that a handler ends with carry a number of the path. -/
theorem exec_replyAttr {path : PathBuf} {mk : FileAttr → Reply} {reply : Reply}
    (hwf : s.inodes.Wf) (hx : Exec (mountSem cfg env) (replyAttr cfg path mk) s reply t) :
    (∃ e, reply = .error e) ∨ ∃ attr, reply = mk attr ∧ t.inodes.path attr.ino = some path := by
  obtain ⟨a, u, hattr, hx⟩ := exec_bind.mp hx
  cases a with
  | error e => exact .inl ⟨e, (exec_pure.mp hx).1⟩
  | ok attr =>
    obtain ⟨rfl, rfl⟩ := exec_pure.mp hx
    exact .inr ⟨attr, rfl, exec_attrFor hwf hattr⟩

/-- The number of a looked up object leads to its path. -/
theorem exec_lookup {parent : Nat} {name : String} {dir : PathBuf} {attr : FileAttr}
    (hwf : s.inodes.Wf) (hdir : s.inodes.path parent = some dir)
    (hx : Exec (mountSem cfg env) (lookup cfg parent name) s (.entry attr) t) :
    t.inodes.path attr.ino = some (dir.child name) := by
  obtain ⟨u, hx, hu⟩ := exec_childPath hdir hx
  rcases exec_replyAttr (hu hwf).1 hx with ⟨e, he⟩ | ⟨attr', hattr, hpath⟩
  · cases he
  · cases hattr
    exact hpath

/-- The number of a new directory leads to its path. -/
theorem exec_mkdir {parent : Nat} {name : String} {mode : Nat} {dir : PathBuf} {attr : FileAttr}
    (hwf : s.inodes.Wf) (hdir : s.inodes.path parent = some dir)
    (hx : Exec (mountSem cfg env) (mkdir cfg parent name mode) s (.entry attr) t) :
    t.inodes.path attr.ino = some (dir.child name) := by
  obtain ⟨u, hx, hu⟩ := exec_childPath hdir hx
  dsimp only at hx
  split at hx
  · cases (exec_pure.mp hx).1
  · obtain ⟨_, v, hmake, hx⟩ := exec_bind.mp hx
    obtain ⟨_, w, hrpc, hx⟩ := exec_bind.mp hx
    have hw : s.inodes.Grows w.inodes := hu.trans ((exec_grows hmake).trans (exec_grows hrpc))
    rcases exec_replyAttr (hw hwf).1 hx with ⟨e, he⟩ | ⟨attr', hattr, hpath⟩
    · cases he
    · cases hattr
      exact hpath

/-- The number of a created file leads to its path. -/
theorem exec_create {parent : Nat} {name : String} {mode : Nat} {dir : PathBuf} {attr : FileAttr}
    (hwf : s.inodes.Wf) (hdir : s.inodes.path parent = some dir)
    (hx : Exec (mountSem cfg env) (create cfg parent name mode) s (.created attr) t) :
    t.inodes.path attr.ino = some (dir.child name) := by
  obtain ⟨u, hx, hu⟩ := exec_childPath hdir hx
  dsimp only at hx
  split at hx
  · cases (exec_pure.mp hx).1
  · obtain ⟨made, v, hmake, hx⟩ := exec_bind.mp hx
    cases made with
    | error e => cases (exec_pure.mp hx).1
    | ok _ =>
      obtain ⟨_, w, hwrite, hx⟩ := exec_bind.mp hx
      obtain ⟨_, x, hchmod, hx⟩ := exec_bind.mp hx
      have hgrows : s.inodes.Grows x.inodes :=
        hu.trans ((exec_grows hmake).trans ((exec_grows hwrite).trans (exec_grows hchmod)))
      rcases exec_replyAttr (hgrows hwf).1 hx with ⟨e, he⟩ | ⟨attr', hattr, hpath⟩
      · cases he
      · cases hattr
        exact hpath

end Handlers

/-! ## 3. The kernel's view -/

/-- **A mount as the kernel sees it**: with the objects of the target, each under its path, and
    the numbers it holds, each with the object it was given for. -/
structure KernelView (ε : Type) where
  mount : Mount ε
  objects : List (PathBuf × Nat)
  held : List (Nat × Nat)

inductive KernelEvent where
  | lookup (parent : Nat) (name : String)
  | create (parent : Nat) (name : String) (mode : Nat)
  | mkdir (parent : Nat) (name : String) (mode : Nat)
  | readdir (ino offset : Nat)
  | rename (parent : Nat) (name : String) (newparent : Nat) (newname : String)
  | unlink (parent : Nat) (name : String)
  /-- The kernel forgets a number. -/
  | forget (ino : Nat)

namespace KernelView

variable {ε : Type}

/-- The path that the mount has for a child of a directory. -/
def childOf (s : KernelView ε) (parent : Nat) (name : String) : Option PathBuf :=
  (s.mount.inodes.path parent).map (·.child name)

/-- No object of the target and none that the kernel knows. -/
def Fresh (s : KernelView ε) (o : Nat) : Prop :=
  (∀ x ∈ s.objects, x.2 ≠ o) ∧ ∀ h ∈ s.held, h.2 ≠ o

/-- Nothing is at a path. -/
def Free (s : KernelView ε) (p : PathBuf) : Prop := ∀ x ∈ s.objects, x.1 ≠ p

end KernelView

/-- Where a rename of `source` to `dest` leaves what was at a path. -/
def PathBuf.moved (source dest p : PathBuf) : PathBuf :=
  match p.stripPrefix source with
  | some rel => dest.join rel
  | none => p

/-- The objects after a rename: what was at `dest` is gone, and `source` is there with all that
    was below it. -/
def movedObjects (source dest : PathBuf) (objects : List (PathBuf × Nat)) :
    List (PathBuf × Nat) :=
  if source = dest then objects
  else (objects.filter (·.1 ≠ dest)).map fun x => (PathBuf.moved source dest x.1, x.2)

/-- **One request that succeeds**, at the mount and at the target. A looked up or created object is
    held under the number of the reply; the rows of `readdir` give the kernel no number to hold. -/
inductive KernelStep {ε : Type} (cfg : MountCfg) (env : EnvSem ε) :
    KernelView ε → KernelEvent → KernelView ε → Prop where
  | lookup {s : KernelView ε} {t : Mount ε} {parent : Nat} {name : String} {attr : FileAttr}
      {p : PathBuf} {o : Nat} (hp : s.childOf parent name = some p) (ho : (p, o) ∈ s.objects)
      (hx : Prog.Exec (mountSem cfg env) (RemoteFs.handle cfg (.lookup parent name)) s.mount
        (.entry attr) t) :
      KernelStep cfg env s (.lookup parent name) ⟨t, s.objects, (attr.ino, o) :: s.held⟩
  /-- The file is there already, and is emptied. -/
  | createOld {s : KernelView ε} {t : Mount ε} {parent : Nat} {name : String} {mode : Nat}
      {attr : FileAttr} {p : PathBuf} {o : Nat} (hp : s.childOf parent name = some p)
      (ho : (p, o) ∈ s.objects)
      (hx : Prog.Exec (mountSem cfg env) (RemoteFs.handle cfg (.create parent name mode)) s.mount
        (.created attr) t) :
      KernelStep cfg env s (.create parent name mode) ⟨t, s.objects, (attr.ino, o) :: s.held⟩
  | createNew {s : KernelView ε} {t : Mount ε} {parent : Nat} {name : String} {mode : Nat}
      {attr : FileAttr} {p : PathBuf} {o : Nat} (hp : s.childOf parent name = some p)
      (hfree : s.Free p) (hnew : s.Fresh o)
      (hx : Prog.Exec (mountSem cfg env) (RemoteFs.handle cfg (.create parent name mode)) s.mount
        (.created attr) t) :
      KernelStep cfg env s (.create parent name mode)
        ⟨t, (p, o) :: s.objects, (attr.ino, o) :: s.held⟩
  | mkdir {s : KernelView ε} {t : Mount ε} {parent : Nat} {name : String} {mode : Nat}
      {attr : FileAttr} {p : PathBuf} {o : Nat} (hp : s.childOf parent name = some p)
      (hfree : s.Free p) (hnew : s.Fresh o)
      (hx : Prog.Exec (mountSem cfg env) (RemoteFs.handle cfg (.mkdir parent name mode)) s.mount
        (.entry attr) t) :
      KernelStep cfg env s (.mkdir parent name mode)
        ⟨t, (p, o) :: s.objects, (attr.ino, o) :: s.held⟩
  | readdir {s : KernelView ε} {t : Mount ε} {ino offset : Nat}
      (hx : Prog.Exec (mountSem cfg env) (RemoteFs.handle cfg (.readdir ino offset)) s.mount
        .ok t) :
      KernelStep cfg env s (.readdir ino offset) { s with mount := t }
  /-- What is moved is there, the destination does not lie below it, and nothing lies below the
      destination. -/
  | rename {s : KernelView ε} {t : Mount ε} {parent newparent : Nat} {name newname : String}
      {source dest : PathBuf} {o : Nat} (hsource : s.childOf parent name = some source)
      (hdest : s.childOf newparent newname = some dest) (ho : (source, o) ∈ s.objects)
      (hoff : source = dest ∨ dest.stripPrefix source = none)
      (hleaf : source = dest ∨ ∀ x ∈ s.objects, (x.1.stripPrefix dest).isSome → x.1 = dest)
      (hx : Prog.Exec (mountSem cfg env)
        (RemoteFs.handle cfg (.rename parent name newparent newname)) s.mount .ok t) :
      KernelStep cfg env s (.rename parent name newparent newname)
        ⟨t, movedObjects source dest s.objects, s.held⟩
  | unlink {s : KernelView ε} {t : Mount ε} {parent : Nat} {name : String} {p : PathBuf} {o : Nat}
      (hp : s.childOf parent name = some p) (ho : (p, o) ∈ s.objects)
      (hx : Prog.Exec (mountSem cfg env) (RemoteFs.handle cfg (.unlink parent name)) s.mount
        .ok t) :
      KernelStep cfg env s (.unlink parent name) ⟨t, s.objects.filter (·.1 ≠ p), s.held⟩
  | forget {s : KernelView ε} {ino : Nat} :
      KernelStep cfg env s (.forget ino) { s with held := s.held.filter (·.1 ≠ ino) }

/-- A new mount: the kernel holds the root. -/
structure KernelInit {ε : Type} (cfg : MountCfg) (s : KernelView ε) : Prop where
  mount : MountInit cfg s.mount
  distinct : ∀ x ∈ s.objects, ∀ y ∈ s.objects, x.2 = y.2 → x = y
  root : ∃ o, (cfg.remoteDir, o) ∈ s.objects ∧ s.held = [(1, o)]

abbrev KernelRun {ε : Type} (cfg : MountCfg) (env : EnvSem ε)
    (hist : List (KernelView ε × KernelEvent)) (s : KernelView ε) : Prop :=
  Run (KernelInit cfg) (KernelStep cfg env) hist s

/-! ## 4. Numbers and paths -/

section Numbers

variable {ε : Type} {cfg : MountCfg} {env : EnvSem ε} {s s' : KernelView ε} {e : KernelEvent}

/-- **`path_for` of a held number** is the path of its object, while the object exists. -/
def NumbersFollow (s : KernelView ε) : Prop :=
  ∀ h ∈ s.held, ∀ x ∈ s.objects, x.2 = h.2 → s.mount.inodes.path h.1 = some x.1

/-- **The condition**: a rename is one of a path to itself, or the kernel holds no number of what
    is moved or lies below it. -/
def MovesNothingHeld (s : KernelView ε) : KernelEvent → Prop
  | .rename parent name newparent newname =>
      s.childOf parent name = s.childOf newparent newname ∨
        ∀ source ∈ s.childOf parent name, ∀ h ∈ s.held, ∀ x ∈ s.objects, x.2 = h.2 →
          x.1.stripPrefix source = none
  | _ => True

/-- What every run keeps: the inode map is well formed, and no two paths have one object. -/
structure KernelInv (s : KernelView ε) : Prop where
  inodes : s.mount.inodes.Wf
  distinct : ∀ x ∈ s.objects, ∀ y ∈ s.objects, x.2 = y.2 → x = y

theorem KernelInit.inv (h : KernelInit cfg s) : KernelInv s where
  inodes := by
    obtain ⟨now, e, hmount⟩ := h.mount
    rw [hmount]
    exact InodeMap.wf_new _
  distinct := h.distinct

theorem KernelInit.follow (h : KernelInit cfg s) : NumbersFollow s := by
  obtain ⟨o, ho, hheld⟩ := h.root
  obtain ⟨now, e, hmount⟩ := h.mount
  intro k hk x hx hxk
  rw [hheld, List.mem_singleton] at hk
  subst hk
  have heq : x = (cfg.remoteDir, o) := h.distinct x hx _ ho hxk
  rw [heq, hmount]
  exact AList.lookup_insert _

/-- A step takes no number away. -/
theorem KernelStep.grows (hs : KernelStep cfg env s e s') :
    s.mount.inodes.Grows s'.mount.inodes := by
  cases hs with
  | forget => exact .refl _
  | lookup _ _ hx => exact exec_grows hx
  | createOld _ _ hx => exact exec_grows hx
  | createNew _ _ _ hx => exact exec_grows hx
  | mkdir _ _ _ hx => exact exec_grows hx
  | readdir hx => exact exec_grows hx
  | rename _ _ _ _ _ hx => exact exec_grows hx
  | unlink _ _ hx => exact exec_grows hx

theorem moved_self (source p : PathBuf) : PathBuf.moved source source p = p := by
  unfold PathBuf.moved
  split
  · rename_i rel hrel
    exact PathBuf.join_of_stripPrefix hrel
  · rfl

/-- An object after a rename is one of before, moved. -/
theorem mem_movedObjects {source dest : PathBuf} {objects : List (PathBuf × Nat)}
    {x : PathBuf × Nat} (h : x ∈ movedObjects source dest objects) :
    ∃ y ∈ objects, x = (PathBuf.moved source dest y.1, y.2) := by
  unfold movedObjects at h
  split at h
  · rename_i heq
    exact ⟨x, h, by rw [heq, moved_self]⟩
  · obtain ⟨y, hy, rfl⟩ := List.mem_map.mp h
    exact ⟨y, List.mem_of_mem_filter hy, rfl⟩

/-- What does not lie at the destination is not lost. -/
theorem moved_mem_movedObjects {source dest : PathBuf} {objects : List (PathBuf × Nat)}
    {y : PathBuf × Nat} (hy : y ∈ objects) (hne : source ≠ dest) (hd : y.1 ≠ dest) :
    (PathBuf.moved source dest y.1, y.2) ∈ movedObjects source dest objects := by
  rw [movedObjects, if_neg hne]
  exact List.mem_map.mpr ⟨y, List.mem_filter.mpr ⟨hy, decide_eq_true hd⟩, rfl⟩

/-- Adding a fresh object keeps objects apart. -/
theorem KernelInv.distinct_cons (h : KernelInv s) {p : PathBuf} {o : Nat} (hnew : s.Fresh o) :
    ∀ x ∈ (p, o) :: s.objects, ∀ y ∈ (p, o) :: s.objects, x.2 = y.2 → x = y := by
  intro x hx y hy hxy
  rcases List.mem_cons.mp hx with rfl | hx <;> rcases List.mem_cons.mp hy with rfl | hy
  · rfl
  · exact absurd hxy.symm (hnew.1 y hy)
  · exact absurd hxy (hnew.1 x hx)
  · exact h.distinct x hx y hy hxy

theorem KernelInv.step (h : KernelInv s) (hs : KernelStep cfg env s e s') : KernelInv s' := by
  refine ⟨(hs.grows h.inodes).1, ?_⟩
  cases hs with
  | lookup => exact h.distinct
  | createOld => exact h.distinct
  | createNew _ _ hnew => exact h.distinct_cons hnew
  | mkdir _ _ hnew => exact h.distinct_cons hnew
  | readdir => exact h.distinct
  | forget => exact h.distinct
  | unlink =>
    exact fun x hx y hy =>
      h.distinct x (List.mem_of_mem_filter hx) y (List.mem_of_mem_filter hy)
  | rename =>
    intro x hx y hy hxy
    obtain ⟨x', hx', rfl⟩ := mem_movedObjects hx
    obtain ⟨y', hy', rfl⟩ := mem_movedObjects hy
    rw [h.distinct x' hx' y' hy' hxy]

/-- A state follows if every number in it is one of before, with its object, or a number of the
    path. -/
theorem NumbersFollow.keep (h : NumbersFollow s) (hinv : KernelInv s) {t : Mount ε}
    {objects : List (PathBuf × Nat)} {held : List (Nat × Nat)}
    (hgrows : s.mount.inodes.Grows t.inodes)
    (hnew : ∀ k ∈ held, ∀ x ∈ objects, x.2 = k.2 →
      (k ∈ s.held ∧ x ∈ s.objects) ∨ t.inodes.path k.1 = some x.1) :
    NumbersFollow ⟨t, objects, held⟩ := by
  intro k hk x hx hxk
  rcases hnew k hk x hx hxk with ⟨hk', hx'⟩ | hpath
  · exact (hgrows hinv.inodes).2 _ _ (h k hk' x hx' hxk)
  · exact hpath

/-- An object that the kernel is given a number for. -/
theorem NumbersFollow.hold (h : NumbersFollow s) (hinv : KernelInv s) {t : Mount ε} {ino o : Nat}
    {p : PathBuf} (ho : (p, o) ∈ s.objects) (hgrows : s.mount.inodes.Grows t.inodes)
    (hpath : t.inodes.path ino = some p) :
    NumbersFollow ⟨t, s.objects, (ino, o) :: s.held⟩ := by
  refine h.keep hinv hgrows fun k hk x hx hxk => ?_
  rcases List.mem_cons.mp hk with rfl | hk
  · right
    rw [hinv.distinct x hx _ ho hxk]
    exact hpath
  · exact .inl ⟨hk, hx⟩

/-- A new object. -/
theorem NumbersFollow.make (h : NumbersFollow s) (hinv : KernelInv s) {t : Mount ε} {ino o : Nat}
    {p : PathBuf} (hnew : s.Fresh o) (hgrows : s.mount.inodes.Grows t.inodes)
    (hpath : t.inodes.path ino = some p) :
    NumbersFollow ⟨t, (p, o) :: s.objects, (ino, o) :: s.held⟩ := by
  refine h.keep hinv hgrows fun k hk x hx hxk => ?_
  rcases List.mem_cons.mp hk with rfl | hk
  · right
    rcases List.mem_cons.mp hx with rfl | hx
    · exact hpath
    · exact absurd hxk (hnew.1 x hx)
  · rcases List.mem_cons.mp hx with rfl | hx
    · exact absurd hxk.symm (hnew.2 k hk)
    · exact .inl ⟨hk, hx⟩

/-- **A rename keeps the numbers exactly when** it moves nothing that the kernel holds. -/
theorem NumbersFollow.rename_iff (h : NumbersFollow s) (hinv : KernelInv s) {t : Mount ε}
    {source dest : PathBuf} (hgrows : s.mount.inodes.Grows t.inodes)
    (hoff : source = dest ∨ dest.stripPrefix source = none) :
    NumbersFollow ⟨t, movedObjects source dest s.objects, s.held⟩ ↔
      source = dest ∨ ∀ k ∈ s.held, ∀ x ∈ s.objects, x.2 = k.2 →
        x.1.stripPrefix source = none := by
  constructor
  · intro hfollow
    by_cases hne : source = dest
    · exact .inl hne
    · refine .inr fun k hk x hx hxk => ?_
      by_contra hsome
      obtain ⟨rel, hrel⟩ := Option.ne_none_iff_exists'.mp hsome
      have hd : x.1 ≠ dest := by
        intro hd
        rw [hd, hoff.resolve_left hne] at hrel
        cases hrel
      -- the number still has the old path, and the object the new one
      have hold : t.inodes.path k.1 = some x.1 :=
        (hgrows hinv.inodes).2 _ _ (h k hk x hx hxk)
      have hnew : t.inodes.path k.1 = some (PathBuf.moved source dest x.1) :=
        hfollow k hk _ (moved_mem_movedObjects hx hne hd) hxk
      have heq : PathBuf.moved source dest x.1 = x.1 :=
        Option.some.inj (hnew.symm.trans hold)
      rw [PathBuf.moved, hrel] at heq
      have hjoin : dest.join rel = source.join rel :=
        heq.trans (PathBuf.join_of_stripPrefix hrel).symm
      exact hne (PathBuf.base_eq_of_join hrel hjoin).symm
  · intro hc
    refine h.keep hinv hgrows fun k hk x hx hxk => ?_
    obtain ⟨y, hy, rfl⟩ := mem_movedObjects hx
    have hstay : PathBuf.moved source dest y.1 = y.1 := by
      rcases hc with rfl | hc
      · exact moved_self _ _
      · rw [PathBuf.moved, hc k hk y hy hxk]
    left
    rw [hstay]
    exact ⟨hk, hy⟩

/-- **One step** from a state that follows leads to such a state exactly when it moves nothing
    that the kernel holds. -/
theorem NumbersFollow.step_iff (h : NumbersFollow s) (hinv : KernelInv s)
    (hs : KernelStep cfg env s e s') : NumbersFollow s' ↔ MovesNothingHeld s e := by
  have hgrows := hs.grows
  cases hs with
  | lookup hp ho hx =>
    obtain ⟨dir, hdir, rfl⟩ := Option.map_eq_some_iff.mp hp
    exact iff_of_true (h.hold hinv ho hgrows (exec_lookup hinv.inodes hdir hx)) trivial
  | createOld hp ho hx =>
    obtain ⟨dir, hdir, rfl⟩ := Option.map_eq_some_iff.mp hp
    exact iff_of_true (h.hold hinv ho hgrows (exec_create hinv.inodes hdir hx)) trivial
  | createNew hp hfree hnew hx =>
    obtain ⟨dir, hdir, rfl⟩ := Option.map_eq_some_iff.mp hp
    exact iff_of_true (h.make hinv hnew hgrows (exec_create hinv.inodes hdir hx)) trivial
  | mkdir hp hfree hnew hx =>
    obtain ⟨dir, hdir, rfl⟩ := Option.map_eq_some_iff.mp hp
    exact iff_of_true (h.make hinv hnew hgrows (exec_mkdir hinv.inodes hdir hx)) trivial
  | readdir hx =>
    exact iff_of_true (h.keep hinv hgrows fun k hk x hx _ => .inl ⟨hk, hx⟩) trivial
  | unlink hp ho hx =>
    exact iff_of_true (h.keep hinv hgrows fun k hk x hx _ =>
      .inl ⟨hk, List.mem_of_mem_filter hx⟩) trivial
  | forget =>
    exact iff_of_true (h.keep hinv hgrows fun k hk x hx _ =>
      .inl ⟨List.mem_of_mem_filter hk, hx⟩) trivial
  | rename hsource hdest ho hoff hleaf hx =>
    rw [h.rename_iff hinv hgrows hoff, MovesNothingHeld, hsource, hdest, Option.some.injEq]
    refine or_congr_right ⟨fun hc p hp => ?_, fun hc => hc _ rfl⟩
    obtain rfl := Option.mem_some_iff.mp hp
    exact hc

/-- **In a run** `path_for` of every held number is the path of its object in all states exactly
    when no rename of the run moves an object that the kernel holds. -/
theorem numbers_follow_iff {hist : List (KernelView ε × KernelEvent)}
    (h : KernelRun cfg env hist s) :
    (∀ t ∈ visited hist s, NumbersFollow t) ↔ ∀ x ∈ hist, MovesNothingHeld x.1 x.2 :=
  h.all_states_iff (fun _ h0 => h0.inv) (fun _ _ _ hi hs => hi.step hs)
    (fun _ h0 => h0.follow) fun _ _ _ hi hP hs => hP.step_iff hi hs

end Numbers

/-! ## 5. A file that is looked up and renamed -/

/-- A writable mount of `/srv`. -/
def shareMount : MountCfg := ⟨false, ⟨true, ["srv"]⟩, ⟨true, ["cache"]⟩⟩

/-- What the target says of a file. -/
def plainStat : StatResult := ⟨.file, 3, 0, 0o644, 0, 0, none⟩

def plainStatJson : Json :=
  .obj [("kind", .str "file"), ("size", .nat 3), ("modified", .nat 0), ("mode", .nat 0o644),
    ("uid", .nat 0), ("gid", .nat 0), ("link_target", .null)]

/-- A target on which every request succeeds, and a cache directory. -/
def obliging : EnvSem Unit
  | .call (.stat _), _, a, _ => a = .ok plainStatJson
  | .call _, _, a, _ => a = .ok .null
  | _, _, _, _ => True

/-- The mount with an inode map, after some requests. -/
def shareState (inodes : InodeMap) (sent : List BridgeRequest) : Mount Unit :=
  ⟨inodes, ⟨.new 0, []⟩, [], [], [⟨shareMount.remoteDir.text, shareMount.cacheDir⟩], sent, ()⟩

/-- `/srv` holds the file `a`. -/
def shareObjects : List (PathBuf × Nat) := [(⟨true, ["srv"]⟩, 0), (⟨true, ["srv", "a"]⟩, 1)]

def shareNew : KernelView Unit :=
  ⟨shareState (.new shareMount.remoteDir) [.stat shareMount.remoteDir.text], shareObjects, [(1, 0)]⟩

theorem share_init : KernelInit shareMount shareNew where
  mount := ⟨0, (), rfl⟩
  distinct := by decide
  root := ⟨0, by decide, rfl⟩

theorem obliging_stat (path : String) :
    obliging (.call (.stat path)) () (.ok plainStatJson) () := rfl

theorem obliging_rename (source dest : String) :
    obliging (.call (.rename source dest)) () (.ok .null) () := rfl

def shareA : PathBuf := ⟨true, ["srv", "a"]⟩

def shareB : PathBuf := ⟨true, ["srv", "b"]⟩

/-- The inode map after the lookup of `a`, and after its rename to `b`. -/
def shareLooked : InodeMap := ((InodeMap.new shareMount.remoteDir).childPath 1 "a").1

def shareRenamed : InodeMap := (shareLooked.childPath 1 "b").1

theorem share_childPath : ((InodeMap.new shareMount.remoteDir).childPath 1 "a").2 = some shareA := by
  decide

theorem shareLooked_childPath_a : shareLooked.childPath 1 "a" = (shareLooked, some shareA) := by
  have hpath : shareLooked.path 1 = some shareMount.remoteDir := by decide
  have hfound : shareLooked.byPath.lookup (shareMount.remoteDir.child "a") = some 2 := by decide
  have hchild : shareMount.remoteDir.child "a" = shareA := by decide
  simp only [InodeMap.childPath, hpath, InodeMap.inoFor, hfound, hchild]

theorem shareLooked_childPath_b : (shareLooked.childPath 1 "b").2 = some shareB := by decide

theorem shareLooked_inoFor : shareLooked.inoFor shareA = (shareLooked, 2) := by
  have hfound : shareLooked.byPath.lookup shareA = some 2 := by decide
  rw [InodeMap.inoFor, hfound]

/-- The kernel looks up `a`. -/
def shareLookedUp : KernelView Unit :=
  ⟨shareState shareLooked [.stat shareA.text, .stat shareMount.remoteDir.text], shareObjects,
    [(2, 1), (1, 0)]⟩

theorem share_lookup : KernelStep shareMount obliging shareNew (.lookup 1 "a") shareLookedUp := by
  have hp : shareNew.childOf 1 "a" = some shareA := by decide
  have ho : (shareA, 1) ∈ shareNew.objects := by decide
  suffices hx : Prog.Exec (mountSem shareMount obliging) (RemoteFs.handle shareMount (.lookup 1 "a"))
      shareNew.mount (.entry (attrFromStat plainStat 2)) shareLookedUp.mount from .lookup hp ho hx
  refine .ask (a := some shareA) ⟨share_childPath.symm, rfl⟩ ?_
  refine .ask (a := .ok plainStatJson) ⟨(), obliging_stat _, rfl⟩ ?_
  refine .ask (t := shareLookedUp.mount) (a := (2 : Nat)) ⟨?_, ?_⟩ ?_
  · exact (congrArg Prod.snd shareLooked_inoFor).symm
  · exact congrArg (fun m => shareState m _) (congrArg Prod.fst shareLooked_inoFor).symm
  · exact .done _ _

/-- It renames `a` to `b`. -/
def shareMoved : KernelView Unit :=
  ⟨shareState shareRenamed
      [.rename shareA.text shareB.text, .stat shareA.text, .stat shareMount.remoteDir.text],
    movedObjects shareA shareB shareObjects, [(2, 1), (1, 0)]⟩

theorem share_rename :
    KernelStep shareMount obliging shareLookedUp (.rename 1 "a" 1 "b") shareMoved := by
  have hsource : shareLookedUp.childOf 1 "a" = some shareA := by decide
  have hdest : shareLookedUp.childOf 1 "b" = some shareB := by decide
  have ho : (shareA, 1) ∈ shareLookedUp.objects := by decide
  refine .rename hsource hdest ho (by decide) (by decide) ?_
  refine .ask (t := shareLookedUp.mount) (a := some shareA) ⟨?_, ?_⟩ ?_
  · exact (congrArg Prod.snd shareLooked_childPath_a).symm
  · exact congrArg (fun m => shareState m _) (congrArg Prod.fst shareLooked_childPath_a).symm
  refine .ask (a := some shareB) ⟨shareLooked_childPath_b.symm, rfl⟩ ?_
  refine .ask (a := .ok ()) ⟨.refl _, .inl ⟨rfl, fun p _ => ⟨rfl, rfl⟩⟩⟩ ?_
  refine .ask (a := ()) ⟨(), trivial, rfl⟩ ?_
  refine .ask (a := ()) ⟨(), trivial, rfl⟩ ?_
  refine .ask (a := .ok .null) ⟨(), obliging_rename _ _, rfl⟩ ?_
  exact .done _ _

/-- A run without a rename. -/
theorem numbers_follow_lookup : NumbersFollow shareLookedUp :=
  (numbers_follow_iff (.step (.start share_init) share_lookup)).mpr
    (fun x hx => by
      rw [List.mem_singleton.mp hx]
      exact trivial) _ List.mem_cons_self

/-- **A renamed file keeps its number, and the number its old path**: inode 2 is `/srv/b`, and the
    mount takes it for `/srv/a`. -/
theorem rename_loses_number :
    KernelRun shareMount obliging
      [(shareLookedUp, .rename 1 "a" 1 "b"), (shareNew, .lookup 1 "a")] shareMoved ∧
    (2, 1) ∈ shareMoved.held ∧ (shareB, 1) ∈ shareMoved.objects ∧
    shareMoved.mount.inodes.path 2 = some shareA ∧ ¬ NumbersFollow shareMoved := by
  have hpath : shareMoved.mount.inodes.path 2 = some shareA := by decide
  refine ⟨.step (.step (.start share_init) share_lookup) share_rename, by decide, by decide, hpath,
    fun h => ?_⟩
  have hfollow : shareMoved.mount.inodes.path 2 = some shareB :=
    h (2, 1) (by decide) (shareB, 1) (by decide) rfl
  rw [hpath] at hfollow
  exact absurd hfollow (by decide)

end Relayfs

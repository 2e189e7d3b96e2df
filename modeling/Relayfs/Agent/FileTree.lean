/-
  File:      Relayfs/Agent/FileTree.lean
  Subject:   A FILE SYSTEM AS A TREE (what `copy` and `copy_dir_recursive` of agent/src/files.rs use of
             `std::fs`): directories, regular files and other entries, each at a place.

  A place is the names from the root. Paths lead to places name by name; `..` is the directory above.
  No symbolic link leads to a directory.

  * `FileTree`, `put` -- a tree, in which whatever is there is in a directory;
  * `makeDir`, `createDirAll` -- one directory, and all on a path;
  * `walk` -- the place of a path whose parts are all there;
  * `Copies` -- `std::fs::copy`;
  * `Grows` -- what all of them keep: directories stay, and what is none stays none.
-/
import Relayfs.Lib.Table
import Relayfs.Fuse.Path

namespace Relayfs

open Lib

/-! ## 1. Trees -/

/-- **Where something is**: the names from the root. -/
abbrev Place := List String

/-- What is there; `other` is an entry that is neither a directory nor a regular file. -/
inductive Node where
  | dir
  | file (content : List UInt8)
  | other
  deriving DecidableEq, Repr

/-- **A tree**, and the working directory in it: the root is a directory, and so is what something
    is in. -/
structure FileTree where
  nodes : Table Place Node
  cwd : Place
  root : nodes.lookup [] = some .dir
  cwd_dir : nodes.lookup cwd = some .dir
  below : ∀ p name node, nodes.lookup (p ++ [name]) = some node → nodes.lookup p = some .dir

namespace FileTree

/-- What is at a place. -/
def node (t : FileTree) (p : Place) : Option Node := t.nodes.lookup p

/-- The names in a directory. -/
def names (t : FileTree) (p : Place) : List String :=
  t.nodes.keys.filterMap fun q => if q.dropLast = p then q.getLast? else none

/-- Something at a place in a directory, where there is no directory yet. -/
def put (t : FileTree) (q : Place) (n : Node) (hparent : t.node q.dropLast = some .dir)
    (hnot : t.node q ≠ some .dir) : FileTree where
  nodes := t.nodes.insert q n
  cwd := t.cwd
  root := by
    have hne : ([] : Place) ≠ q := fun heq => hnot (heq ▸ t.root)
    rw [AList.lookup_insert_ne hne]
    exact t.root
  cwd_dir := by
    have hne : t.cwd ≠ q := fun heq => hnot (heq ▸ t.cwd_dir)
    rw [AList.lookup_insert_ne hne]
    exact t.cwd_dir
  below p name n' hn := by
    by_cases hq : p ++ [name] = q
    · have hne : p ≠ q := fun heq => by simp [← heq] at hq
      have hp : q.dropLast = p := by rw [← hq, List.dropLast_concat]
      rw [AList.lookup_insert_ne hne, ← hp]
      exact hparent
    · rw [AList.lookup_insert_ne hq] at hn
      have hdir := t.below p name n' hn
      have hne : p ≠ q := fun heq => hnot (heq ▸ hdir)
      rw [AList.lookup_insert_ne hne]
      exact hdir

section Node

variable {t : FileTree} {p q : Place} {n : Node}

theorem mem_names {name : String} : name ∈ t.names p ↔ (t.node (p ++ [name])).isSome := by
  rw [node, AList.lookup_isSome, AList.mem_keys, names, List.mem_filterMap]
  constructor
  · intro h
    obtain ⟨q, hq, hname⟩ := h
    split at hname
    · rename_i hp
      rwa [← hp, List.dropLast_append_getLast? name hname]
    · cases hname
  · exact fun h => ⟨_, h, by simp⟩

/-- On the way to what is there are directories. -/
theorem dir_of_node_append {r : Place} (h : t.node (p ++ r) = some n) (hr : r ≠ []) :
    t.node p = some .dir := by
  induction r using List.reverseRecOn generalizing n with
  | nil => exact absurd rfl hr
  | append_singleton r name ih =>
    rw [← List.append_assoc] at h
    have hdir := t.below _ _ _ h
    by_cases hr : r = []
    · rwa [hr, List.append_nil] at hdir
    · exact ih hdir hr

theorem node_put {hparent : t.node q.dropLast = some .dir} {hnot : t.node q ≠ some .dir} :
    (t.put q n hparent hnot).node q = some n := AList.lookup_insert _

theorem node_put_of_ne {hparent : t.node q.dropLast = some .dir} {hnot : t.node q ≠ some .dir}
    (hp : p ≠ q) : (t.put q n hparent hnot).node p = t.node p := AList.lookup_insert_ne hp

end Node

/-! ## 2. Directories -/

/-- `mkdir`, where a directory that is there already will do. -/
def makeDir (t : FileTree) (q : Place) : Option FileTree :=
  if hfree : t.node q = none then
    if hparent : t.node q.dropLast = some .dir then
      some (t.put q .dir hparent (by rw [hfree]; exact nofun))
    else none
  else if t.node q = some .dir then some t else none

/-- **What grows of a tree**: directories and files stay what they are. -/
structure Grows (t u : FileTree) : Prop where
  dir : ∀ p, t.node p = some .dir → u.node p = some .dir
  plain : ∀ p n, t.node p = some n → n ≠ .dir → ∃ n', u.node p = some n' ∧ n' ≠ .dir

theorem Grows.refl (t : FileTree) : Grows t t := ⟨fun _ h => h, fun _ n h hn => ⟨n, h, hn⟩⟩

theorem Grows.trans {t u v : FileTree} (h : Grows t u) (h' : Grows u v) : Grows t v where
  dir p hp := h'.dir p (h.dir p hp)
  plain p n hp hn := by
    obtain ⟨n', hp', hn'⟩ := h.plain p n hp hn
    exact h'.plain p n' hp' hn'

/-- What is there stays there. -/
theorem Grows.isSome {t u : FileTree} (h : Grows t u) {p : Place} (hp : (t.node p).isSome) :
    (u.node p).isSome := by
  obtain ⟨n, hn⟩ := Option.isSome_iff_exists.mp hp
  by_cases hdir : n = .dir
  · subst hdir
    rw [h.dir p hn]
    rfl
  · obtain ⟨n', hn', -⟩ := h.plain p n hn hdir
    rw [hn']
    rfl

/-- **What `mkdir` does.** -/
structure MadeDir (t : FileTree) (q : Place) (u : FileTree) : Prop where
  cwd : u.cwd = t.cwd
  made : u.node q = some .dir
  was : t.node q = none ∨ t.node q = some .dir
  parent : q ≠ [] → t.node q.dropLast = some .dir
  others : ∀ p, p ≠ q → u.node p = t.node p

theorem madeDir_of_makeDir {t u : FileTree} {q : Place} (h : t.makeDir q = some u) :
    MadeDir t q u := by
  unfold makeDir at h
  split_ifs at h with hfree hparent hdir
  · obtain rfl := Option.some.inj h
    exact ⟨rfl, node_put, .inl hfree, fun _ => hparent, fun p hp => node_put_of_ne hp⟩
  · obtain rfl := Option.some.inj h
    refine ⟨rfl, hdir, .inr hdir, fun hq => ?_, fun _ _ => rfl⟩
    have hsplit := List.dropLast_append_getLast hq
    rw [← hsplit] at hdir
    exact dir_of_node_append hdir (List.cons_ne_nil _ _)

theorem MadeDir.grows {t u : FileTree} {q : Place} (h : MadeDir t q u) : Grows t u where
  dir p hp := by
    by_cases hpq : p = q
    · rw [hpq]
      exact h.made
    · rwa [h.others p hpq]
  plain p n hp hn := by
    by_cases hpq : p = q
    · rw [hpq] at hp
      rcases h.was with hwas | hwas
      · rw [hwas] at hp
        cases hp
      · rw [hwas] at hp
        exact absurd (Option.some.inj hp).symm hn
    · exact ⟨n, by rwa [h.others p hpq], hn⟩

theorem makeDir_isSome {t : FileTree} {q : Place} (hparent : t.node q.dropLast = some .dir)
    (hq : t.node q = none ∨ t.node q = some .dir) : (t.makeDir q).isSome := by
  unfold makeDir
  rcases hq with hq | hq
  · rw [dif_pos hq, dif_pos hparent]
    rfl
  · rw [dif_neg (by rw [hq]; exact nofun), if_pos hq]
    rfl

end FileTree

/-! ## 3. Paths -/

/-- One part of a path. -/
def Place.go (p : Place) (part : String) : Place := if part = ".." then p.dropLast else p ++ [part]

theorem Place.go_dots (p : Place) : Place.go p ".." = p.dropLast := if_pos rfl

theorem Place.go_name {part : String} (p : Place) (h : part ≠ "..") :
    Place.go p part = p ++ [part] := if_neg h

namespace FileTree

/-- Where the parts of a path begin: at the root, or in the working directory. -/
def base (t : FileTree) (p : PathBuf) : Place := if p.absolute then [] else t.cwd

/-- **The place a path leads to.** -/
def place (t : FileTree) (p : PathBuf) : Place := p.parts.foldl Place.go (t.base p)

/-- The place of the parts from a place, if all on the way are there, and directories before the
    last. -/
def walkFrom (t : FileTree) : Place → List String → Option Place
  | p, [] => some p
  | p, part :: rest =>
      if t.node p = some .dir ∧ (t.node (Place.go p part)).isSome then
        walkFrom t (Place.go p part) rest
      else none

theorem walkFrom_cons (t : FileTree) (p : Place) (part : String) (rest : List String) :
    t.walkFrom p (part :: rest) =
      if t.node p = some .dir ∧ (t.node (Place.go p part)).isSome then
        t.walkFrom (Place.go p part) rest
      else none := rfl

/-- The place of a path that can be followed. -/
def walk (t : FileTree) (p : PathBuf) : Option Place := t.walkFrom (t.base p) p.parts

/-- The directories on the parts from a place, made where there is nothing. -/
def createFrom : FileTree → Place → List String → Option FileTree
  | t, _, [] => some t
  | t, p, part :: rest =>
      if part = ".." then createFrom t p.dropLast rest
      else (t.makeDir (p ++ [part])).bind fun u => createFrom u (p ++ [part]) rest

theorem createFrom_cons (t : FileTree) (p : Place) (part : String) (rest : List String) :
    t.createFrom p (part :: rest) =
      if part = ".." then t.createFrom p.dropLast rest
      else (t.makeDir (p ++ [part])).bind fun u => u.createFrom (p ++ [part]) rest := rfl

/-- `std::fs::create_dir_all`. -/
def createDirAll (t : FileTree) (p : PathBuf) : Option FileTree := t.createFrom (t.base p) p.parts

section Paths

variable {t u v : FileTree} {p q : Place} {parts : List String}

/-- Directories are all that is made. -/
structure OnlyDirs (t u : FileTree) : Prop where
  cwd : u.cwd = t.cwd
  made : ∀ p, u.node p = t.node p ∨ (t.node p = none ∧ u.node p = some .dir)

theorem OnlyDirs.keeps {n : Node} (h : OnlyDirs t u) (hp : t.node p = some n) :
    u.node p = some n := by
  rcases h.made p with heq | ⟨hnone, -⟩
  · rwa [heq]
  · rw [hnone] at hp
    cases hp

theorem OnlyDirs.trans (h : OnlyDirs t u) (h' : OnlyDirs u v) : OnlyDirs t v := by
  refine ⟨h'.cwd.trans h.cwd, fun p => ?_⟩
  rcases h'.made p with heq | ⟨hnone, hdir⟩
  · rw [heq]
    exact h.made p
  · rcases h.made p with heq | ⟨-, hmade⟩
    · exact .inr ⟨heq ▸ hnone, hdir⟩
    · rw [hnone] at hmade
      cases hmade

theorem OnlyDirs.grows (h : OnlyDirs t u) : Grows t u :=
  ⟨fun _ hp => h.keeps hp, fun _ n hp hn => ⟨n, h.keeps hp, hn⟩⟩

theorem MadeDir.onlyDirs (h : MadeDir t q u) : OnlyDirs t u := by
  refine ⟨h.cwd, fun p => ?_⟩
  by_cases hp : p = q
  · rw [hp, h.made]
    exact h.was.elim (fun hwas => .inr ⟨hwas, rfl⟩) fun hwas => .inl hwas.symm
  · exact .inl (h.others p hp)

theorem dir_dropLast (h : t.node p = some .dir) : t.node p.dropLast = some .dir := by
  by_cases hp : p = []
  · rw [hp] at h ⊢
    exact h
  · rw [← List.dropLast_append_getLast hp] at h
    exact dir_of_node_append h (List.cons_ne_nil _ _)

/-- **`create_dir_all` makes directories, down to the place of the path.** -/
theorem createFrom_spec (hp : t.node p = some .dir) (h : t.createFrom p parts = some u) :
    OnlyDirs t u ∧ u.node (parts.foldl Place.go p) = some .dir := by
  induction parts generalizing t p with
  | nil =>
    obtain rfl := Option.some.inj h
    exact ⟨⟨rfl, fun _ => .inl rfl⟩, hp⟩
  | cons part rest ih =>
    rw [createFrom_cons] at h
    rw [List.foldl_cons]
    by_cases hdots : part = ".."
    · rw [if_pos hdots] at h
      rw [hdots, Place.go_dots]
      exact ih (dir_dropLast hp) h
    · rw [if_neg hdots] at h
      rw [Place.go_name p hdots]
      obtain ⟨w, hw, hrest⟩ := Option.bind_eq_some_iff.mp h
      have hmade := madeDir_of_makeDir hw
      obtain ⟨honly, hdir⟩ := ih hmade.made hrest
      exact ⟨hmade.onlyDirs.trans honly, hdir⟩

/-- Where the directories of a path are, it makes none. -/
theorem createFrom_again (hp : t.node p = some .dir) (h : t.createFrom p parts = some u)
    (hv : Grows u v) : v.createFrom p parts = some v := by
  induction parts generalizing t p with
  | nil => rfl
  | cons part rest ih =>
    rw [createFrom_cons] at h ⊢
    split_ifs at h ⊢ with hdots
    · exact ih (dir_dropLast hp) h
    · obtain ⟨w, hw, hrest⟩ := Option.bind_eq_some_iff.mp h
      have hmade := madeDir_of_makeDir hw
      have hdir : v.node (p ++ [part]) = some .dir :=
        hv.dir _ ((createFrom_spec hmade.made hrest).1.keeps hmade.made)
      rw [makeDir, dif_neg (by rw [hdir]; exact nofun), if_pos hdir, Option.bind_some]
      exact ih hmade.made hrest

theorem createFrom_append (t : FileTree) (p : Place) (parts more : List String) :
    t.createFrom p (parts ++ more)
      = (t.createFrom p parts).bind fun u => u.createFrom (parts.foldl Place.go p) more := by
  induction parts generalizing t p with
  | nil => rfl
  | cons part rest ih =>
    rw [List.cons_append, createFrom_cons, createFrom_cons, List.foldl_cons]
    by_cases hdots : part = ".."
    · rw [if_pos hdots, if_pos hdots, hdots, Place.go_dots]
      exact ih _ _
    · rw [if_neg hdots, if_neg hdots, Place.go_name p hdots, Option.bind_assoc]
      exact congrArg _ (funext fun u => ih _ _)

/-- **A name joined to a path whose directories were made**: one directory is made, below the place
    of the path. -/
theorem createFrom_name {name : String} (hp : t.node p = some .dir)
    (h : t.createFrom p parts = some u) (hv : Grows u v) (hname : name ≠ "..") :
    v.createFrom p (parts ++ [name]) = v.makeDir (parts.foldl Place.go p ++ [name]) := by
  rw [createFrom_append, createFrom_again hp h hv, Option.bind_some, createFrom_cons,
    if_neg hname]
  cases v.makeDir (parts.foldl Place.go p ++ [name]) <;> rfl

theorem walkFrom_spec (hp : (t.node p).isSome) (h : t.walkFrom p parts = some q) :
    q = parts.foldl Place.go p ∧ (t.node q).isSome := by
  induction parts generalizing p with
  | nil =>
    obtain rfl := Option.some.inj h
    exact ⟨rfl, hp⟩
  | cons part rest ih =>
    rw [walkFrom_cons] at h
    split_ifs at h with hpart
    exact ih hpart.2 h

/-- What could be followed still can. -/
theorem walkFrom_again (h : t.walkFrom p parts = some q) (hu : Grows t u) :
    u.walkFrom p parts = some q := by
  induction parts generalizing p with
  | nil => exact h
  | cons part rest ih =>
    rw [walkFrom_cons] at h ⊢
    split_ifs at h with hpart
    rw [if_pos ⟨hu.dir p hpart.1, hu.isSome hpart.2⟩]
    exact ih h

/-- **A name joined to the path of a directory** leads to the place below it. -/
theorem walkFrom_name {name : String} (h : t.walkFrom p parts = some q)
    (hq : t.node q = some .dir) (hu : Grows t u) (hname : name ≠ "..")
    (hthere : (u.node (q ++ [name])).isSome) :
    u.walkFrom p (parts ++ [name]) = some (q ++ [name]) := by
  have hagain := walkFrom_again h hu
  clear h
  induction parts generalizing p with
  | nil =>
    obtain rfl := Option.some.inj hagain
    rw [List.nil_append, walkFrom_cons, Place.go_name p hname, if_pos ⟨hu.dir p hq, hthere⟩]
    rfl
  | cons part rest ih =>
    rw [walkFrom_cons] at hagain
    split_ifs at hagain with hpart
    rw [List.cons_append, walkFrom_cons, if_pos hpart]
    exact ih hagain

theorem OnlyDirs.place (h : OnlyDirs t u) (path : PathBuf) :
    u.place path = t.place path := by
  unfold FileTree.place base
  rw [h.cwd]

theorem dir_base (t : FileTree) (path : PathBuf) : t.node (t.base path) = some .dir := by
  unfold base
  split_ifs
  · exact t.root
  · exact t.cwd_dir

theorem createDirAll_spec {path : PathBuf} (h : t.createDirAll path = some u) :
    OnlyDirs t u ∧ u.node (t.place path) = some .dir :=
  createFrom_spec (t.dir_base path) h

theorem walk_spec {path : PathBuf} (h : t.walk path = some q) :
    q = t.place path ∧ (t.node q).isSome :=
  walkFrom_spec (by rw [dir_base]; rfl) h

end Paths

/-! ## 4. Copies of files -/

/-- **`std::fs::copy`**, from a place to another: the source is opened, the destination is opened and
    emptied, the bytes are copied. An entry that is no regular file has any bytes, and takes them
    without a change of the tree. -/
inductive Copies (t : FileTree) (p q : Place) : FileTree → Prop where
  | file {bytes : List UInt8} (hp : t.node p = some (.file bytes))
      (hparent : t.node q.dropLast = some .dir) (hnot : t.node q ≠ some .dir)
      (hfile : t.node q ≠ some .other) :
      Copies t p q (t.put q (.file (if p = q then [] else bytes)) hparent hnot)
  | other {bytes : List UInt8} (hp : t.node p = some .other)
      (hparent : t.node q.dropLast = some .dir) (hnot : t.node q ≠ some .dir)
      (hfile : t.node q ≠ some .other) : Copies t p q (t.put q (.file bytes) hparent hnot)
  | into (hp : t.node p ≠ some .dir) (hq : t.node q = some .other) : Copies t p q t

/-- What a copy of anything does to the tree. -/
structure Wrote (t : FileTree) (q : Place) (u : FileTree) : Prop where
  parent : t.node q.dropLast = some .dir
  before : t.node q ≠ some .dir
  after : ∃ n, u.node q = some n ∧ n ≠ .dir
  others : ∀ p, p ≠ q → u.node p = t.node p

theorem Copies.wrote {t u : FileTree} {p q : Place} (h : Copies t p q u) : Wrote t q u := by
  cases h with
  | file hp hparent hnot => exact ⟨hparent, hnot, ⟨_, node_put, nofun⟩, fun _ => node_put_of_ne⟩
  | other hp hparent hnot => exact ⟨hparent, hnot, ⟨_, node_put, nofun⟩, fun _ => node_put_of_ne⟩
  | into hp hq =>
    have hne : q ≠ [] := by
      intro heq
      subst heq
      have hroot : t.node [] = some .dir := t.root
      rw [hroot] at hq
      cases hq
    refine ⟨?_, by rw [hq]; exact nofun, ⟨_, hq, nofun⟩, fun _ _ => rfl⟩
    rw [← List.dropLast_append_getLast hne] at hq
    exact dir_of_node_append hq (List.cons_ne_nil _ _)

theorem Wrote.grows {t u : FileTree} {q : Place} (h : Wrote t q u) : Grows t u where
  dir p hp := by
    have hpq : p ≠ q := fun heq => h.before (heq ▸ hp)
    rwa [h.others p hpq]
  plain p n hp hn := by
    by_cases hpq : p = q
    · rw [hpq]
      exact h.after
    · exact ⟨n, by rwa [h.others p hpq], hn⟩

end FileTree

/-- A tree of the root alone. -/
def rootTree : FileTree where
  nodes := (∅ : Table Place Node).insert [] .dir
  cwd := []
  root := AList.lookup_insert _
  cwd_dir := AList.lookup_insert _
  below p name node h := by
    rw [AList.lookup_insert_ne (by simp)] at h
    cases h

end Relayfs

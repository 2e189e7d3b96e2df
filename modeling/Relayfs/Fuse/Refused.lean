/-
  File:      Relayfs/Fuse/Refused.lean
  Subject:   A REQUEST THAT THE TARGET REFUSES: does the kernel get an error, and is the cache
             directory as it was?

  Every answer of the target is kept in a log. The cache directory may refuse to be changed, or
  to be looked at, at any path.

  * `MountedTree`, `answeredSem` -- the cache tree, what it refuses, and the log;
  * `Refused` -- the target has answered the mutating RPC of a request with an error;
  * `Reported` -- the reply is an error, and the cache entries of the request are as before;
  * `refused_reported_iff` -- exactly where the handler ends with attributes, the target does not
    tell them, and the cache has no entry for the path: a handler never looks at the refusal;
  * `unlink_hides_refusal` -- a file that the target does not remove.
-/
import Relayfs.Fuse.CacheTree

namespace Relayfs

open Lib Background

/-! ## 1. The cache directory and the answers -/

/-- What the cache directory lets the mount do at a path. -/
inductive CacheAccess where
  | full
  | read
  | none
  deriving DecidableEq, Repr

/-- **The cache tree**, what it lets the mount do, and the answers of the target, newest first. -/
structure MountedTree where
  tree : CacheTree
  access : PathBuf → CacheAccess
  log : List (BridgeRequest × Except RpcError Json)

/-- The entries that an effect changes. -/
def Effect.changes : Effect → List PathBuf
  | .createDirAll p | .writeAt p _ _ | .setLen p _ | .createFile p | .setPermissions p _
  | .removeFile p | .removeDir p | .symlinkFile _ p => [p]
  | .renameFile source dest => [source, dest]
  | _ => []

/-- **The meaning of the effects.** The target answers anything; a change that the cache directory
    refuses leaves it as it is. -/
def answeredSem : EnvSem MountedTree
  | .call req, s, a, t => t = { s with log := (req, a) :: s.log }
  | .symlinkMetadata p, s, a, t =>
      t = s ∧ (Option.isSome a ↔ s.access p ≠ .none ∧ s.tree.node p ≠ none)
  | .writeAt p offset data, s, a, t =>
      if s.access p = .full then
        ∃ tree, treeSem (.writeAt p offset data) s.tree a tree ∧ t = { s with tree := tree }
      else a = false ∧ t = s
  | e, s, a, t =>
      if ∀ p ∈ e.changes, s.access p = .full then
        ∃ tree, treeSem e s.tree a tree ∧ t = { s with tree := tree }
      else t = s

/-! ## 2. Refusals -/

/-- The RPCs by which a request changes the target. -/
def KernelRequest.Mutates : KernelRequest → BridgeRequest → Prop
  | .setattr .., .truncate .. | .setattr .., .chmod .. | .mknod .., .writeFile ..
  | .create .., .writeFile .. | .create .., .chmod .. | .mkdir .., .mkdir ..
  | .unlink .., .remove .. | .rmdir .., .remove .. | .symlink .., .symlink ..
  | .rename .., .rename .. | .write .., .writeAt .. => True
  | _, _ => False

/-- The tree once the directory of a cache file has been made. -/
def MountedTree.withParent (s : MountedTree) (file : PathBuf) : CacheTree :=
  match file.parent with
  | some dir => if s.access dir = .full then s.tree.makeDirs dir else s.tree
  | none => s.tree

/-- A write goes to the target at once: the cache file cannot be written. -/
def KernelRequest.Direct (cfg : MountCfg) (s : Mount MountedTree) : KernelRequest → Prop
  | .write ino _ _ => ∀ path ∈ s.inodes.path ino, ¬ (s.env.access (cfg.cachePath path) = .full ∧
      ((s.env.withParent (cfg.cachePath path)).isFile (cfg.cachePath path) = true ∨
        (s.env.withParent (cfg.cachePath path)).free (cfg.cachePath path) = true))
  | _ => True

/-- **The target has answered the mutating RPC of a request with an error.** -/
def Refused (cfg : MountCfg) (r : KernelRequest) (s t : Mount MountedTree) : Prop :=
  r.Direct cfg s ∧ ∃ x ∈ t.env.log, r.Mutates x.1 ∧ ∃ e, x.2 = .error e

/-- **The refusal is reported**, and the cache entries of the request are as before. -/
def Reported (cfg : MountCfg) (r : KernelRequest) (s : Mount MountedTree) (reply : Reply)
    (t : Mount MountedTree) : Prop :=
  (∃ e, reply = .error e) ∧
    ∀ path ∈ r.paths s.inodes, t.env.tree.node (cfg.cachePath path) =
      s.env.tree.node (cfg.cachePath path)

/-- The answer to STAT tells no attributes. -/
def StatFails (a : Except RpcError Json) : Prop := ∀ v, a = .ok v → StatResult.ofJson v = none

/-- The requests whose handlers end with attributes. -/
def KernelRequest.EndsWithAttr : KernelRequest → Prop
  | .setattr .. | .mknod .. | .mkdir .. | .symlink .. | .create .. => True
  | _ => False

/-- The handler makes a cache entry before it asks the target. -/
def KernelRequest.Makes (s : MountedTree) (file : PathBuf) : KernelRequest → Prop
  | .mkdir .. => s.access file = .full ∧ ∀ q ∈ file.ancestors,
      s.tree.node q = none ∨ s.tree.node q = some .dir
  | .symlink .. => s.access file = .full ∧ s.tree.free file = true
  | .mknod .. | .create .. => s.access file = .full ∧ (s.withParent file).free file = true
  | _ => False

/-- **The condition**: the handler ends with attributes, the STAT that follows the RPC fails too,
    and the cache has no entry for the path that can be looked at, nor is one made. -/
def NothingToTell (cfg : MountCfg) (r : KernelRequest) (s t : Mount MountedTree) : Prop :=
  r.EndsWithAttr ∧ ∃ path ∈ r.paths s.inodes,
    (∃ a, t.env.log.head? = some (.stat path.text, a) ∧ StatFails a) ∧
    (s.env.access (cfg.cachePath path) = .none ∨
      (s.env.tree.node (cfg.cachePath path) = none ∧ ¬ r.Makes s.env (cfg.cachePath path)))

/-! ## 3. What the effects do -/

/-- The log has grown by writes of the flusher only, and the cache directory is as it was. -/
structure Waited (s t : MountedTree) : Prop where
  tree : t.tree = s.tree
  access : t.access = s.access
  log : ∃ new, t.log = new ++ s.log ∧ ∀ x ∈ new, ∃ path offset data, x.1 = .writeAt path offset data

section Steps

variable {cfg : MountCfg} {s t u : Mount MountedTree}

theorem Waited.refl (s : MountedTree) : Waited s s :=
  ⟨rfl, rfl, [], rfl, fun _ hx => absurd hx List.not_mem_nil⟩

theorem Waited.trans {s t u : MountedTree} (h : Waited s t) (h' : Waited t u) : Waited s u := by
  obtain ⟨new, hnew, hwrites⟩ := h.log
  obtain ⟨new', hnew', hwrites'⟩ := h'.log
  refine ⟨h'.tree.trans h.tree, h'.access.trans h.access, new' ++ new, ?_, fun x hx => ?_⟩
  · rw [hnew', hnew, List.append_assoc]
  · rcases List.mem_append.mp hx with hx | hx
    · exact hwrites' x hx
    · exact hwrites x hx

open RemoteFs Prog

/-- A send task reads the cache, and sends one WRITE_AT. -/
theorem waited_send {path : PathBuf} {range : Range}
    (hx : Exec (stepSem answeredSem) (sendPiece cfg path range) s () t) : Waited s.env t.env := by
  obtain ⟨read, u, hread, hx⟩ := exec_bind.mp hx
  obtain ⟨env, henv, rfl⟩ := exec_perform.mp hread
  have hsame : env = s.env := by
    have hread : ∃ tree, treeSem (.readAt (cfg.flushPath path) range.1 (range.2 - range.1))
        s.env.tree read tree ∧ env = { s.env with tree := tree } := by
      simpa only [answeredSem, Effect.changes, List.not_mem_nil, false_imp_iff, implies_true,
        if_true] using henv
    obtain ⟨tree, ⟨rfl, -⟩, rfl⟩ := hread
    rfl
  subst hsame
  cases hfull : Option.filter (fun bytes => decide (bytes.length = range.2 - range.1)) read with
  | none =>
    rw [hfull] at hx
    obtain ⟨-, now, rfl⟩ := exec_perform.mp hx
    exact .refl _
  | some bytes =>
    rw [hfull] at hx
    obtain ⟨answer, v, hcall, hx⟩ := exec_bind.mp hx
    obtain ⟨env, rfl, rfl⟩ := exec_perform.mp hcall
    obtain ⟨-, now, rfl⟩ := exec_perform.mp hx
    refine ⟨rfl, rfl, [(_, answer)], rfl, fun x hx => ?_⟩
    obtain rfl := List.mem_singleton.mp hx
    exact ⟨_, _, _, rfl⟩

theorem waited_flushes (h : Flushes cfg answeredSem s t) : Waited s.env t.env := by
  induction h with
  | refl => exact .refl _
  | step _ hs ih =>
    refine ih.trans ?_
    cases hs with
    | claim => exact .refl _
    | send hw ht hx => exact waited_send hx

theorem waited_drain {paths : List PathBuf} {a : Except Errno Unit}
    (hx : Exec (mountSem cfg answeredSem) (drainUploads paths) s a t) : Waited s.env t.env := by
  unfold drainUploads at hx
  split at hx
  · obtain ⟨-, rfl⟩ := exec_pure.mp hx
    exact .refl _
  · exact waited_flushes (exec_perform.mp hx).1

/-- An RPC adds its answer to the log. -/
theorem answered_rpc {req : BridgeRequest} {a : Except Errno Json}
    (hx : Exec (mountSem cfg answeredSem) (rpc req) s a t) :
    ∃ answer, a = answer.mapError errnoFor ∧
      t.env = { s.env with log := (req, answer) :: s.env.log } := by
  obtain ⟨answer, env, rfl, ha, rfl⟩ := exec_rpcCall hx
  exact ⟨answer, ha, rfl⟩

/-- The attributes of the target: they fail exactly where its answer tells none. -/
theorem answered_remoteAttr {path : PathBuf} {r : Except Errno FileAttr}
    (hx : Exec (mountSem cfg answeredSem) (remoteAttr path) s r t) :
    ∃ a, t.env = { s.env with log := (.stat path.text, a) :: s.env.log } ∧
      ((StatFails a ∧ ∃ e, r = .error e) ∨ (¬ StatFails a ∧ ∃ attr, r = .ok attr)) := by
  obtain ⟨value, u, hrpc, hx⟩ := exec_bind.mp hx
  obtain ⟨a, rfl, hu⟩ := answered_rpc hrpc
  cases a with
  | error e =>
    obtain ⟨hr, rfl⟩ := exec_pure.mp hx
    exact ⟨_, hu, .inl ⟨fun v hv => (by cases hv), _, hr⟩⟩
  | ok value =>
    dsimp only [Except.mapError] at hx
    cases hstat : StatResult.ofJson value with
    | none =>
      rw [hstat] at hx
      obtain ⟨hr, rfl⟩ := exec_pure.mp hx
      exact ⟨_, hu, .inl ⟨fun v hv => Except.ok.inj hv ▸ hstat, _, hr⟩⟩
    | some stat =>
      rw [hstat] at hx
      obtain ⟨ino, v, hino, hx⟩ := exec_bind.mp hx
      obtain ⟨hr, rfl⟩ := exec_pure.mp hx
      obtain ⟨-, rfl⟩ := exec_perform.mp hino
      refine ⟨_, hu, .inr ⟨fun hfails => ?_, _, hr⟩⟩
      rw [hfails value rfl] at hstat
      cases hstat

/-- The cache has an entry that can be looked at. -/
def MountedTree.Shows (s : MountedTree) (file : PathBuf) : Prop :=
  s.access file ≠ .none ∧ s.tree.node file ≠ none

/-- **The end of a handler that answers with attributes**: it is an error exactly where neither
    the target nor the cache has any. -/
theorem answered_replyAttr {path : PathBuf} {mk : FileAttr → Reply} {reply : Reply}
    (hmk : ∀ attr e, mk attr ≠ .error e)
    (hx : Exec (mountSem cfg answeredSem) (replyAttr cfg path mk) s reply t) :
    ∃ a, t.env.log.head? = some (.stat path.text, a) ∧
      ((∃ e, reply = .error e) ↔ StatFails a ∧ ¬ s.env.Shows (cfg.cachePath path)) ∧
      (StatFails a → t.env.tree = s.env.tree) := by
  obtain ⟨found, u, hattr, hx⟩ := exec_bind.mp hx
  have hreply : (∃ e, reply = .error e) ↔ ∃ e, found = .error e := by
    cases found with
    | ok attr =>
      obtain ⟨rfl, -⟩ := exec_pure.mp hx
      exact iff_of_false (fun ⟨e, he⟩ => hmk attr e he) fun ⟨e, he⟩ => by cases he
    | error e =>
      obtain ⟨rfl, -⟩ := exec_pure.mp hx
      exact iff_of_true ⟨_, rfl⟩ ⟨_, rfl⟩
  have ht : t = u := by
    cases found <;> exact (exec_pure.mp hx).2
  subst ht
  obtain ⟨remote, v, hremote, hattr⟩ := exec_bind.mp hattr
  obtain ⟨a, hv, ⟨hfails, e, rfl⟩ | ⟨htells, attr, rfl⟩⟩ := answered_remoteAttr hremote
  · obtain ⟨m, w, hmeta, hattr⟩ := exec_bind.mp hattr
    obtain ⟨env, ⟨rfl, hshows⟩, rfl⟩ := exec_perform.mp hmeta
    have hshown : Option.isSome m ↔ s.env.Shows (cfg.cachePath path) := by
      rw [hshows, hv]
      rfl
    cases m with
    | none =>
      obtain ⟨rfl, rfl⟩ := exec_pure.mp hattr
      refine ⟨a, by rw [hv]; rfl, ?_, fun _ => by rw [hv]⟩
      rw [hreply]
      exact iff_of_true ⟨_, rfl⟩ ⟨hfails, fun h => by cases hshown.mpr h⟩
    | some m =>
      obtain ⟨ino, z, hino, hattr⟩ := exec_bind.mp hattr
      obtain ⟨rfl, rfl⟩ := exec_pure.mp hattr
      obtain ⟨-, rfl⟩ := exec_perform.mp hino
      refine ⟨a, by rw [hv]; rfl, ?_, fun _ => by rw [hv]⟩
      rw [hreply]
      exact iff_of_false (fun ⟨e, he⟩ => by cases he) fun h => h.2 (hshown.mp rfl)
  · have hlog : t.env.log = v.env.log ∧ found = .ok attr := by
      dsimp only at hattr
      split at hattr
      · obtain ⟨_, w, hmake, hattr⟩ := exec_bind.mp hattr
        obtain ⟨hfound, rfl⟩ := exec_pure.mp hattr
        refine ⟨?_, hfound⟩
        obtain ⟨env, henv, rfl⟩ := exec_perform.mp hmake
        simp only [answeredSem] at henv
        split at henv
        · obtain ⟨tree, -, rfl⟩ := henv
          rfl
        · rw [henv]
      · obtain ⟨hfound, rfl⟩ := exec_pure.mp hattr
        exact ⟨rfl, hfound⟩
    obtain ⟨hlog, rfl⟩ := hlog
    refine ⟨a, by rw [hlog, hv]; rfl, ?_, fun h => absurd h htells⟩
    rw [hreply]
    exact iff_of_false (fun ⟨e, he⟩ => by cases he) fun h => htells h.1

/-! ## 4. The changes that come before the RPC -/

/-- What the handler of a request has done to a cache entry, when it asks for the attributes. -/
structure Changed (r : KernelRequest) (file : PathBuf) (s t : MountedTree) : Prop where
  access : t.access = s.access
  entry : t.tree.node file = none ↔ s.tree.node file = none ∧ ¬ r.Makes s file
  hidden : s.access file = .none → t.tree.node file = s.tree.node file

/-- An effect that changes one entry: it is refused, or it is as `treeSem` says. -/
theorem answered_change {e : Effect} {a : Answer e} {env : MountedTree} {file : PathBuf}
    (he : e.changes = [file]) (hwrite : ∀ p offset data, e ≠ .writeAt p offset data)
    (hx : answeredSem e s.env a env) :
    (s.env.access file ≠ .full ∧ env = s.env) ∨
      (s.env.access file = .full ∧ ∃ tree, treeSem e s.env.tree a tree ∧
        env = { s.env with tree := tree }) := by
  have hx : if ∀ p ∈ e.changes, s.env.access p = .full then
      ∃ tree, treeSem e s.env.tree a tree ∧ env = { s.env with tree := tree } else env = s.env := by
    cases e with
    | writeAt p offset data => exact absurd rfl (hwrite p offset data)
    | call | symlinkMetadata => cases he
    | _ => exact hx
  rw [he] at hx
  by_cases hfull : s.env.access file = .full
  · rw [if_pos (by rwa [List.forall_mem_singleton])] at hx
    exact .inr ⟨hfull, hx⟩
  · rw [if_neg (by rwa [List.forall_mem_singleton])] at hx
    exact .inl ⟨hfull, hx⟩

/-- A change that the cache directory lets happen. -/
theorem answered_of_full {e : Effect} {a : Answer e} {w : MountedTree} {tree : CacheTree}
    {file : PathBuf} (he : e.changes = [file])
    (hwrite : ∀ p offset data, e ≠ .writeAt p offset data)
    (hfull : w.access file = .full) (hx : treeSem e w.tree a tree) :
    answeredSem e w a { w with tree := tree } := by
  have hall : ∀ p ∈ e.changes, w.access p = .full := by
    rw [he]
    rwa [List.forall_mem_singleton]
  have hchange : if ∀ p ∈ e.changes, w.access p = .full then
      ∃ tree', treeSem e w.tree a tree' ∧ { w with tree := tree } = { w with tree := tree' }
      else { w with tree := tree } = w := by
    rw [if_pos hall]
    exact ⟨tree, hx, rfl⟩
  cases e with
  | writeAt p offset data => exact absurd rfl (hwrite p offset data)
  | call | symlinkMetadata => cases he
  | _ => exact hchange

theorem PathBuf.mem_ancestors_self (p : PathBuf) : p ∈ p.ancestors := by
  refine List.mem_map.mpr ⟨p.parts.length, List.mem_range.mpr (Nat.lt_succ_self _), ?_⟩
  rw [List.take_length]

/-- A path is not on the way to its own directory. -/
theorem PathBuf.notMem_ancestors_parent {p dir : PathBuf} (h : p.parent = some dir) :
    p ∉ dir.ancestors := by
  unfold PathBuf.parent at h
  split at h
  · cases h
  · rename_i hne
    cases h
    intro hmem
    obtain ⟨n, -, heq⟩ := List.mem_map.mp hmem
    have hlen := congrArg (fun q : PathBuf => q.parts.length) heq
    have hpos : 0 < p.parts.length := List.length_pos_of_ne_nil hne
    simp only [List.length_take, List.length_dropLast] at hlen
    omega

theorem CacheTree.makeDirs_of_notMem {tree : CacheTree} {p q : PathBuf} (h : q ∉ p.ancestors) :
    (tree.makeDirs p).node q = tree.node q := by
  unfold CacheTree.makeDirs
  split
  · exact if_neg h
  · rfl

theorem CacheTree.put_self {tree : CacheTree} {p : PathBuf} {n : Option CacheNode} :
    (tree.put p n).node p = n := by
  show Function.update tree.node p n p = n
  rw [Function.update_self]

theorem MountedTree.withParent_node (s : MountedTree) (file : PathBuf) :
    (s.withParent file).node file = s.tree.node file := by
  unfold MountedTree.withParent
  split
  · rename_i dir hdir
    split
    · exact CacheTree.makeDirs_of_notMem (PathBuf.notMem_ancestors_parent hdir)
    · rfl
  · rfl

variable {file : PathBuf}

/-- What comes after the change leaves the entry. -/
theorem Changed.same {r : KernelRequest} {s t u : MountedTree} (h : Changed r file s t)
    (hnode : u.tree.node file = t.tree.node file) (haccess : u.access = t.access) :
    Changed r file s u := by
  refine ⟨haccess.trans h.access, ?_, fun hno => hnode.trans (h.hidden hno)⟩
  rw [hnode]
  exact h.entry

/-- A request that makes no entry. -/
theorem Changed.of_same {r : KernelRequest} {s t : MountedTree} (hr : ¬ r.Makes s file)
    (hnode : t.tree.node file = s.tree.node file) (haccess : t.access = s.access) :
    Changed r file s t := by
  refine ⟨haccess, ?_, fun _ => hnode⟩
  rw [hnode]
  exact ⟨fun hnone => ⟨hnone, hr⟩, fun h => h.1⟩

/-- A request that makes the entry, where it can. -/
theorem Changed.of_made {r : KernelRequest} {s : MountedTree} {tree : CacheTree}
    (hr : r.Makes s file) (haccess : s.access file = .full) (hnode : tree.node file ≠ none) :
    Changed r file s { s with tree := tree } := by
  refine ⟨rfl, iff_of_false hnode fun h => h.2 hr, fun hno => ?_⟩
  rw [haccess] at hno
  cases hno

theorem changed_mkdir {parent mode : Nat} {name : String} {env : MountedTree} {a : Unit}
    (hx : answeredSem (.createDirAll file) s.env a env) :
    Changed (.mkdir parent name mode) file s.env env := by
  rcases answered_change rfl (fun _ _ _ h => by cases h) hx with
    ⟨hrefused, rfl⟩ | ⟨hfull, tree, htree, rfl⟩
  · exact .of_same (fun h => hrefused h.1) rfl rfl
  · obtain rfl : tree = s.env.tree.makeDirs file := htree
    by_cases hclear : ∀ q ∈ file.ancestors, s.env.tree.node q = none ∨ s.env.tree.node q = some .dir
    · refine .of_made ⟨hfull, hclear⟩ hfull ?_
      rw [CacheTree.makeDirs,
        if_pos (List.all_eq_true.mpr fun q hq => decide_eq_true (hclear q hq))]
      show (if file ∈ file.ancestors then some CacheNode.dir else _) ≠ none
      rw [if_pos (PathBuf.mem_ancestors_self file)]
      exact Option.some_ne_none _
    · refine .of_same (fun h => hclear h.2) ?_ rfl
      rw [CacheTree.makeDirs, if_neg fun h => hclear fun q hq =>
        of_decide_eq_true (List.all_eq_true.mp h q hq)]

theorem changed_symlink {parent : Nat} {name target : String} {env : MountedTree} {a : Unit}
    (hx : answeredSem (.symlinkFile target file) s.env a env) :
    Changed (.symlink parent name target) file s.env env := by
  rcases answered_change rfl (fun _ _ _ h => by cases h) hx with
    ⟨hrefused, rfl⟩ | ⟨hfull, tree, htree, rfl⟩
  · exact .of_same (fun h => hrefused h.1) rfl rfl
  · obtain rfl : tree = if s.env.tree.free file then s.env.tree.put file (some (.link target))
      else s.env.tree := htree
    by_cases hfree : s.env.tree.free file = true
    · refine .of_made ⟨hfull, hfree⟩ hfull ?_
      rw [if_pos hfree, CacheTree.put_self]
      exact Option.some_ne_none _
    · refine .of_same (fun h => hfree h.2) ?_ rfl
      rw [if_neg hfree]

/-- The directory of a cache file is made, where it can be. -/
theorem answered_createParent (hx : Exec (mountSem cfg answeredSem) (createParent file) s () t) :
    t.env = { s.env with tree := s.env.withParent file } := by
  unfold createParent at hx
  cases hdir : file.parent with
  | some dir =>
    rw [hdir] at hx
    have hmade : s.env.withParent file =
        if s.env.access dir = .full then s.env.tree.makeDirs dir else s.env.tree := by
      rw [MountedTree.withParent, hdir]
    rw [hmade]
    obtain ⟨env, henv, rfl⟩ := exec_perform.mp hx
    rcases answered_change rfl (fun _ _ _ h => by cases h) henv with
      ⟨hrefused, rfl⟩ | ⟨hfull, tree, htree, rfl⟩
    · rw [if_neg hrefused]
    · obtain rfl : tree = s.env.tree.makeDirs dir := htree
      rw [if_pos hfull]
  | none =>
    rw [hdir] at hx
    have hmade : s.env.withParent file = s.env.tree := by
      rw [MountedTree.withParent, hdir]
    rw [hmade]
    obtain ⟨-, rfl⟩ := exec_pure.mp hx
    rfl

/-- **An empty cache file**, where it can be made. -/
theorem answered_makeEmpty {mode : Nat} {path : PathBuf} {a : Except Errno Unit}
    {r : KernelRequest} (hr : r.Makes s.env (cfg.cachePath path) ↔
      s.env.access (cfg.cachePath path) = .full ∧
        (s.env.withParent (cfg.cachePath path)).free (cfg.cachePath path) = true)
    (hx : Exec (mountSem cfg answeredSem) (makeEmpty cfg path mode) s a t) :
    Changed r (cfg.cachePath path) s.env t.env ∧
      ∃ new, t.env.log = new ++ s.env.log ∧
        ∀ x ∈ new, ∃ path offset data, x.1 = .writeAt path offset data := by
  obtain ⟨_, u, hparent, hx⟩ := exec_bind.mp hx
  have hu := answered_createParent hparent
  obtain ⟨_, v, hcreate, hx⟩ := exec_bind.mp hx
  obtain ⟨env, henv, rfl⟩ := exec_perform.mp hcreate
  obtain ⟨_, w, hperm, hx⟩ := exec_bind.mp hx
  obtain ⟨env', henv', rfl⟩ := exec_perform.mp hperm
  have hwait := waited_drain hx
  have hsame : env' = env := by
    rcases answered_change rfl (fun _ _ _ h => by cases h) henv' with ⟨-, h⟩ | ⟨-, tree, htree, h⟩
    · exact h
    · obtain rfl : tree = env.tree := htree
      exact h
  subst hsame
  have hchanged : Changed r (cfg.cachePath path) s.env env' ∧ env'.log = s.env.log := by
    rcases answered_change rfl (fun _ _ _ h => by cases h) henv with
      ⟨hrefused, rfl⟩ | ⟨hfull, tree, htree, rfl⟩
    · rw [hu] at hrefused ⊢
      refine ⟨.of_same (fun h => hrefused (hr.mp h).1) ?_ rfl, rfl⟩
      exact s.env.withParent_node _
    · rw [hu] at htree hfull ⊢
      obtain rfl : tree = if (s.env.withParent (cfg.cachePath path)).isFile (cfg.cachePath path) ||
          (s.env.withParent (cfg.cachePath path)).free (cfg.cachePath path) then
          (s.env.withParent (cfg.cachePath path)).put (cfg.cachePath path) (some (.file 0))
        else s.env.withParent (cfg.cachePath path) := htree
      refine ⟨?_, rfl⟩
      by_cases hfree : (s.env.withParent (cfg.cachePath path)).free (cfg.cachePath path) = true
      · refine .of_made (hr.mpr ⟨hfull, hfree⟩) hfull ?_
        rw [hfree, Bool.or_true, if_pos rfl, CacheTree.put_self]
        exact Option.some_ne_none _
      · rw [Bool.eq_false_iff.mpr hfree, Bool.or_false]
        have hno : ¬ r.Makes s.env (cfg.cachePath path) := fun h => hfree (hr.mp h).2
        by_cases hfile : (s.env.withParent (cfg.cachePath path)).isFile (cfg.cachePath path) = true
        · -- a file that is there is emptied
          have hthere : s.env.tree.node (cfg.cachePath path) ≠ none := by
            intro hnone
            rw [CacheTree.isFile, s.env.withParent_node, hnone] at hfile
            cases hfile
          refine ⟨rfl, iff_of_false ?_ fun h => hthere h.1, fun hnone => ?_⟩
          · rw [if_pos hfile, CacheTree.put_self]
            exact Option.some_ne_none _
          · exact absurd (hnone.symm.trans hfull) (by decide)
        · rw [if_neg hfile]
          exact .of_same hno (s.env.withParent_node _) rfl
  obtain ⟨hchanged, hlog⟩ := hchanged
  obtain ⟨new, hnew, hwrites⟩ := hwait.log
  refine ⟨hchanged.same (by rw [hwait.tree]) hwait.access, new, ?_, hwrites⟩
  rw [hnew]
  exact congrArg _ hlog

/-! ## 5. Handlers -/

variable {r : KernelRequest} {reply : Reply}

/-- Where the flusher alone has sent something, no RPC of the request was refused. -/
theorem not_refused (hr : ∀ path offset data, ¬ r.Mutates (.writeAt path offset data))
    (hstart : s.env.log = []) (hlog : ∃ new, t.env.log = new ++ s.env.log ∧
      ∀ x ∈ new, ∃ path offset data, x.1 = .writeAt path offset data) : ¬ Refused cfg r s t := by
  intro h
  obtain ⟨-, x, hx, hmut, -⟩ := h
  obtain ⟨new, hnew, hwrites⟩ := hlog
  rw [hnew, hstart, List.append_nil] at hx
  obtain ⟨path, offset, data, hreq⟩ := hwrites x hx
  rw [hreq] at hmut
  exact hr _ _ _ hmut

theorem not_refused_of_log (hlog : t.env.log = []) : ¬ Refused cfg r s t := by
  intro h
  obtain ⟨-, x, hx, -⟩ := h
  rw [hlog] at hx
  exact absurd hx List.not_mem_nil

/-- **A handler that ends with attributes** tells of the refusal where there is nothing else to
    tell. -/
theorem reported_iff_of_attr {path : PathBuf} {mk : FileAttr → Reply} (hattr : r.EndsWithAttr)
    (hpaths : r.paths s.inodes = [path]) (hchange : Changed r (cfg.cachePath path) s.env u.env)
    (hmk : ∀ attr e, mk attr ≠ .error e)
    (hx : Exec (mountSem cfg answeredSem) (replyAttr cfg path mk) u reply t) :
    Reported cfg r s reply t ↔ NothingToTell cfg r s t := by
  obtain ⟨a, hhead, herror, htree⟩ := answered_replyAttr hmk hx
  unfold Reported NothingToTell
  rw [hpaths]
  simp only [List.mem_singleton, forall_eq, exists_eq_left]
  constructor
  · intro h
    obtain ⟨hreply, -⟩ := h
    obtain ⟨hfails, hshows⟩ := herror.mp hreply
    refine ⟨hattr, ⟨a, hhead, hfails⟩, ?_⟩
    by_cases haccess : s.env.access (cfg.cachePath path) = .none
    · exact .inl haccess
    · refine .inr (hchange.entry.mp (not_not.mp fun hnode => hshows ⟨?_, hnode⟩))
      rwa [hchange.access]
  · intro h
    obtain ⟨-, ⟨a', hhead', hfails⟩, hhidden⟩ := h
    rw [hhead] at hhead'
    cases hhead'
    rw [htree hfails]
    rcases hhidden with haccess | hunmade
    · refine ⟨herror.mpr ⟨hfails, fun hshows => hshows.1 ?_⟩, hchange.hidden haccess⟩
      rwa [hchange.access]
    · have hnone := hchange.entry.mpr hunmade
      exact ⟨herror.mpr ⟨hfails, fun hshows => hshows.2 hnone⟩, hnone.trans hunmade.1.symm⟩

/-- **A handler that ends without attributes** never tells. -/
theorem reported_iff_of_silent (hattr : ¬ r.EndsWithAttr) (hreply : ∀ e, reply ≠ .error e) :
    Reported cfg r s reply t ↔ NothingToTell cfg r s t := by
  refine iff_of_false (fun h => ?_) fun h => hattr h.1
  obtain ⟨e, he⟩ := h.1
  exact hreply e he

/-- A refused request for a child is one for a known directory of a writable mount. -/
theorem refused_child {parent : Nat} {name : String} {f : Option PathBuf → FsProg Reply}
    {g : PathBuf → FsProg Reply} (hw : cfg.readOnly = false) (hstart : s.env.log = [])
    (hrefused : Refused cfg r s t)
    (hx : Exec (mountSem cfg answeredSem) (FsProg.childPath parent name >>= f) s reply t)
    (hnone : f none = pure (.error .enoent))
    (hsome : ∀ path, f (some path) = if cfg.readOnly then pure (.error .erofs) else g path) :
    ∃ path v, s.inodes.childOf parent name = [path] ∧ v.env = s.env ∧
      Exec (mountSem cfg answeredSem) (g path) v reply t := by
  obtain ⟨o, v, hchild, hx⟩ := exec_bind.mp hx
  obtain ⟨ho, rfl⟩ := exec_perform.mp hchild
  cases o with
  | none =>
    rw [hnone] at hx
    obtain ⟨-, rfl⟩ := exec_pure.mp hx
    exact absurd hrefused (not_refused_of_log hstart)
  | some path =>
    rw [hsome, if_neg (by rw [hw]; exact Bool.false_ne_true)] at hx
    refine ⟨path, { s with inodes := (s.inodes.childPath parent name).1 }, ?_, rfl, hx⟩
    rw [InodeMap.childOf, ← ho]
    rfl

/-- A refused request that drains first has drained. -/
theorem refused_drained {paths : List PathBuf} {f : Except Errno Unit → FsProg Reply}
    (hr : ∀ path offset data, ¬ r.Mutates (.writeAt path offset data)) (hstart : s.env.log = [])
    (hrefused : Refused cfg r s t)
    (hx : Exec (mountSem cfg answeredSem) (drainUploads paths >>= f) u reply t)
    (hlog : u.env.log = s.env.log)
    (herror : ∀ e, ∃ reply, f (.error e) = pure reply) :
    ∃ v, Waited u.env v.env ∧ Exec (mountSem cfg answeredSem) (f (.ok ())) v reply t := by
  obtain ⟨a, v, hdrain, hx⟩ := exec_bind.mp hx
  have hwait := waited_drain hdrain
  cases a with
  | ok _ => exact ⟨v, hwait, hx⟩
  | error e =>
    obtain ⟨reply', hreply⟩ := herror e
    rw [hreply] at hx
    obtain ⟨-, rfl⟩ := exec_pure.mp hx
    rw [← hlog] at hstart
    refine absurd hrefused (not_refused hr (hlog ▸ hstart) ?_)
    rw [← hlog]
    exact hwait.log

/-- `unlink`, `rmdir`, and `rename` end with `ok`, whatever the target answers. -/
theorem reply_ok_of_rpc {req : BridgeRequest} {f : FsProg Unit}
    (hx : Exec (mountSem cfg answeredSem) (f >>= fun _ => rpc req >>= fun _ => pure Reply.ok)
      s reply t) : ∀ e, reply ≠ .error e := by
  obtain ⟨_, v, -, hx⟩ := exec_bind.mp hx
  obtain ⟨_, w, -, hx⟩ := exec_bind.mp hx
  obtain ⟨rfl, -⟩ := exec_pure.mp hx
  nofun

/-- Changes of `setattr` one after the other: neither makes an entry. -/
theorem Changed.andThen {ino : Nat} {mode size : Option Nat} {s t u : MountedTree}
    (h : Changed (.setattr ino mode size) file s t)
    (h' : Changed (.setattr ino mode size) file t u) :
    Changed (.setattr ino mode size) file s u := by
  refine ⟨h'.access.trans h.access, ?_, fun hno => ?_⟩
  · rw [h'.entry, h.entry, and_assoc]
    exact and_congr_right fun _ => ⟨fun hmakes => hmakes.1, fun hmakes => ⟨hmakes, id⟩⟩
  · rw [h'.hidden (by rwa [h.access]), h.hidden hno]

theorem changed_setLen {ino len : Nat} {mode size : Option Nat} {env : MountedTree} {a : Unit}
    (hx : answeredSem (.setLen file len) s.env a env) :
    Changed (.setattr ino mode size) file s.env env := by
  have hno : ¬ (KernelRequest.setattr ino mode size).Makes s.env file := id
  rcases answered_change rfl (fun _ _ _ h => by cases h) hx with
    ⟨-, rfl⟩ | ⟨hfull, tree, htree, rfl⟩
  · exact .of_same hno rfl rfl
  · obtain rfl : tree = if s.env.tree.isFile file then s.env.tree.put file (some (.file len))
      else s.env.tree := htree
    by_cases hfile : s.env.tree.isFile file = true
    · have hthere : s.env.tree.node file ≠ none := by
        intro hnone
        rw [CacheTree.isFile, hnone] at hfile
        cases hfile
      refine ⟨rfl, iff_of_false ?_ fun h => hthere h.1, fun hnone => ?_⟩
      · rw [if_pos hfile, CacheTree.put_self]
        exact Option.some_ne_none _
      · exact absurd (hnone.symm.trans hfull) (by decide)
    · rw [if_neg hfile]
      exact .of_same hno rfl rfl

theorem changed_setSize {ino : Nat} {mode size : Option Nat} {path : PathBuf}
    {a : Except Errno Unit} (hx : Exec (mountSem cfg answeredSem) (setSize cfg path size) s a t) :
    Changed (.setattr ino mode size) (cfg.cachePath path) s.env t.env ∧
      (∀ e, a = .error e → ∃ new, t.env.log = new ++ s.env.log ∧
        ∀ x ∈ new, ∃ path offset data, x.1 = .writeAt path offset data) := by
  have hno : ¬ (KernelRequest.setattr ino mode size).Makes s.env (cfg.cachePath path) := id
  cases size with
  | none =>
    obtain ⟨rfl, rfl⟩ := exec_pure.mp hx
    exact ⟨.of_same hno rfl rfl, fun e he => by cases he⟩
  | some len =>
    obtain ⟨drained, u, hdrain, hx⟩ := exec_bind.mp hx
    have hwait := waited_drain hdrain
    have hu : Changed (.setattr ino mode (some len)) (cfg.cachePath path) s.env u.env :=
      .of_same hno (by rw [hwait.tree]) hwait.access
    cases drained with
    | error e =>
      obtain ⟨-, rfl⟩ := exec_pure.mp hx
      exact ⟨hu, fun _ _ => hwait.log⟩
    | ok _ =>
      obtain ⟨_, v, hrpc, hx⟩ := exec_bind.mp hx
      obtain ⟨answer, -, hv⟩ := answered_rpc hrpc
      obtain ⟨_, w, hlen, hx⟩ := exec_bind.mp hx
      obtain ⟨rfl, rfl⟩ := exec_pure.mp hx
      obtain ⟨env, henv, rfl⟩ := exec_perform.mp hlen
      have hv' := hu.same (u := v.env) (by rw [hv]) (by rw [hv])
      exact ⟨hv'.andThen (changed_setLen henv), fun e he => by cases he⟩

theorem changed_setMode {ino : Nat} {mode size : Option Nat} {path : PathBuf} {a : Unit}
    (hx : Exec (mountSem cfg answeredSem) (setMode cfg path mode) s a t) :
    Changed (.setattr ino mode size) (cfg.cachePath path) s.env t.env := by
  have hno : ¬ (KernelRequest.setattr ino mode size).Makes s.env (cfg.cachePath path) := id
  cases mode with
  | none =>
    obtain ⟨-, rfl⟩ := exec_pure.mp hx
    exact .of_same hno rfl rfl
  | some mode =>
    obtain ⟨_, u, hrpc, hx⟩ := exec_bind.mp hx
    obtain ⟨answer, -, hu⟩ := answered_rpc hrpc
    obtain ⟨env, henv, rfl⟩ := exec_perform.mp hx
    rcases answered_change rfl (fun _ _ _ h => by cases h) henv with
      ⟨-, rfl⟩ | ⟨-, tree, htree, rfl⟩
    · exact .of_same hno (by rw [hu]) (by rw [hu])
    · obtain rfl : tree = u.env.tree := htree
      exact .of_same hno (by rw [hu]) (by rw [hu])

/-- **`setattr`**: the size, once the queue is drained, and the mode. -/
theorem reported_setattr {ino : Nat} {mode size : Option Nat} (hstart : s.env.log = [])
    (hrefused : Refused cfg (.setattr ino mode size) s t)
    (hx : Exec (mountSem cfg answeredSem) (setattr cfg ino mode size) s reply t) :
    Reported cfg (.setattr ino mode size) s reply t ↔
      NothingToTell cfg (.setattr ino mode size) s t := by
  obtain ⟨o, u, hino, hx⟩ := exec_bind.mp hx
  obtain ⟨rfl, rfl⟩ := exec_perform.mp hino
  cases hp : u.inodes.path ino with
  | none =>
    rw [hp] at hx
    obtain ⟨-, rfl⟩ := exec_pure.mp hx
    exact absurd hrefused (not_refused_of_log hstart)
  | some path =>
    rw [hp] at hx
    have hpaths : (KernelRequest.setattr ino mode size).paths u.inodes = [path] := by
      show (u.inodes.path ino).toList = [path]
      rw [hp]
      rfl
    obtain ⟨sized, v, hsize, hx⟩ := exec_bind.mp hx
    obtain ⟨hv, hlog⟩ : Changed (.setattr ino mode size) (cfg.cachePath path) u.env v.env ∧ _ :=
      changed_setSize hsize
    cases sized with
    | error e =>
      obtain ⟨-, rfl⟩ := exec_pure.mp hx
      exact absurd hrefused (not_refused (fun _ _ _ => id) hstart (hlog e rfl))
    | ok _ =>
      obtain ⟨_, w, hmode, hx⟩ := exec_bind.mp hx
      exact reported_iff_of_attr trivial hpaths (hv.andThen (changed_setMode hmode))
        (fun _ _ h => by cases h) hx

/-- **`mknod` and `create`**: an empty cache file, and a drain, before the first RPC. -/
theorem refused_make {path : PathBuf} {mode : Nat} {f : Except Errno Unit → FsProg Reply}
    (hr : r.Makes u.env (cfg.cachePath path) ↔ u.env.access (cfg.cachePath path) = .full ∧
      (u.env.withParent (cfg.cachePath path)).free (cfg.cachePath path) = true)
    (hwrite : ∀ path offset data, ¬ r.Mutates (.writeAt path offset data))
    (hstart : s.env.log = []) (hu : u.env = s.env) (hrefused : Refused cfg r s t)
    (hx : Exec (mountSem cfg answeredSem) (makeEmpty cfg path mode >>= f) u reply t)
    (herror : ∀ e, f (.error e) = pure (.error .eio)) :
    ∃ v, Changed r (cfg.cachePath path) s.env v.env ∧
      Exec (mountSem cfg answeredSem) (f (.ok ())) v reply t := by
  obtain ⟨made, v, hmake, hx⟩ := exec_bind.mp hx
  obtain ⟨hchanged, hlog⟩ := answered_makeEmpty hr hmake
  rw [hu] at hchanged hlog
  cases made with
  | ok _ => exact ⟨v, hchanged, hx⟩
  | error e =>
    rw [herror] at hx
    obtain ⟨-, rfl⟩ := exec_pure.mp hx
    exact absurd hrefused (not_refused hwrite hstart hlog)

/-- An RPC leaves the cache directory as it is. -/
theorem Changed.rpc {req : BridgeRequest} {a : Except Errno Json} {v : Mount MountedTree}
    (h : Changed r file s.env u.env) (hx : Exec (mountSem cfg answeredSem) (rpc req) u a v) :
    Changed r file s.env v.env := by
  obtain ⟨answer, -, hv⟩ := answered_rpc hx
  exact h.same (by rw [hv]) (by rw [hv])

/-- A write is answered with its length, whether it went to the cache or to the target. -/
theorem reply_written {path : PathBuf} {offset : Nat} {data : List UInt8}
    (hx : Exec (mountSem cfg answeredSem) (writePath cfg path offset data) s reply t) :
    ∀ e, reply ≠ .error e := by
  obtain ⟨_, u, -, hx⟩ := exec_bind.mp hx
  obtain ⟨stored, v, -, hx⟩ := exec_bind.mp hx
  have hreply : reply = .written data.length := by
    cases stored with
    | true =>
      obtain ⟨_, w, -, hx⟩ := exec_bind.mp hx
      exact (exec_pure.mp hx).1
    | false =>
      obtain ⟨_, w, -, hx⟩ := exec_bind.mp hx
      exact (exec_pure.mp hx).1
  rw [hreply]
  nofun

end Steps

/-- **A refused request is reported**, with the cache as it was, exactly where the handler ends
    with attributes, and neither the target nor the cache has any to tell. -/
theorem refused_reported_iff {cfg : MountCfg} {s t : Mount MountedTree} {r : KernelRequest}
    {reply : Reply} (hw : cfg.readOnly = false) (hstart : s.env.log = [])
    (hx : Prog.Exec (mountSem cfg answeredSem) (RemoteFs.handle cfg r) s reply t)
    (hrefused : Refused cfg r s t) : Reported cfg r s reply t ↔ NothingToTell cfg r s t := by
  cases r with
  | setattr ino mode size => exact reported_setattr hstart hrefused hx
  | mknod parent name mode =>
    obtain ⟨path, u, hpaths, hu, hx⟩ :=
      refused_child hw hstart hrefused hx rfl fun _ => rfl
    obtain ⟨v, hv, hx⟩ := refused_make Iff.rfl (fun _ _ _ => id) hstart hu hrefused hx fun _ => rfl
    obtain ⟨_, w, hrpc, hx⟩ := Prog.exec_bind.mp hx
    exact reported_iff_of_attr trivial hpaths (hv.rpc hrpc) (fun _ _ h => by cases h) hx
  | create parent name mode =>
    obtain ⟨path, u, hpaths, hu, hx⟩ :=
      refused_child hw hstart hrefused hx rfl fun _ => rfl
    obtain ⟨v, hv, hx⟩ := refused_make Iff.rfl (fun _ _ _ => id) hstart hu hrefused hx fun _ => rfl
    obtain ⟨_, w, hwrite, hx⟩ := Prog.exec_bind.mp hx
    obtain ⟨_, y, hchmod, hx⟩ := Prog.exec_bind.mp hx
    exact reported_iff_of_attr trivial hpaths ((hv.rpc hwrite).rpc hchmod)
      (fun _ _ h => by cases h) hx
  | mkdir parent name mode =>
    obtain ⟨path, u, hpaths, hu, hx⟩ :=
      refused_child hw hstart hrefused hx rfl fun _ => rfl
    obtain ⟨_, v, hmake, hx⟩ := Prog.exec_bind.mp hx
    obtain ⟨env, henv, rfl⟩ := Prog.exec_perform.mp hmake
    obtain ⟨_, w, hrpc, hx⟩ := Prog.exec_bind.mp hx
    rw [hu] at henv
    have hv : Changed (.mkdir parent name mode) (cfg.cachePath path) s.env env :=
      changed_mkdir henv
    have hw' : Changed (.mkdir parent name mode) (cfg.cachePath path) s.env w.env :=
      Changed.rpc (u := { u with env := env }) hv hrpc
    exact reported_iff_of_attr trivial hpaths hw' (fun _ _ h => by cases h) hx
  | symlink parent linkName target =>
    obtain ⟨path, u, hpaths, hu, hx⟩ :=
      refused_child hw hstart hrefused hx rfl fun _ => rfl
    obtain ⟨_, v, hmake, hx⟩ := Prog.exec_bind.mp hx
    obtain ⟨env, henv, rfl⟩ := Prog.exec_perform.mp hmake
    rw [hu] at henv
    have hv : Changed (.symlink parent linkName target) (cfg.cachePath path) s.env env :=
      changed_symlink henv
    have hlog : env.log = s.env.log := by
      rcases answered_change rfl (fun _ _ _ h => by cases h) henv with
        ⟨-, rfl⟩ | ⟨-, tree, -, rfl⟩
      · rfl
      · rfl
    obtain ⟨w, hwait, hx⟩ := refused_drained (fun _ _ _ => id) hstart hrefused hx hlog
      fun _ => ⟨_, rfl⟩
    obtain ⟨_, y, hrpc, hx⟩ := Prog.exec_bind.mp hx
    have hdrained : Changed (.symlink parent linkName target) (cfg.cachePath path) s.env w.env :=
      hv.same (by rw [hwait.tree]) hwait.access
    exact reported_iff_of_attr trivial hpaths (hdrained.rpc hrpc) (fun _ _ h => by cases h) hx
  | unlink parent name | rmdir parent name =>
    obtain ⟨path, u, hpaths, hu, hx⟩ :=
      refused_child hw hstart hrefused hx rfl fun _ => rfl
    obtain ⟨v, -, hx⟩ := refused_drained (fun _ _ _ => id) hstart hrefused hx (congrArg _ hu)
      fun _ => ⟨_, rfl⟩
    exact reported_iff_of_silent id (reply_ok_of_rpc hx)
  | rename parent name newparent newname =>
    obtain ⟨source, u, hsource, hx⟩ := Prog.exec_bind.mp hx
    obtain ⟨-, rfl⟩ := Prog.exec_perform.mp hsource
    obtain ⟨dest, v, hdest, hx⟩ := Prog.exec_bind.mp hx
    obtain ⟨-, rfl⟩ := Prog.exec_perform.mp hdest
    cases source with
    | none =>
      obtain ⟨-, rfl⟩ := Prog.exec_pure.mp hx
      exact absurd hrefused (not_refused_of_log hstart)
    | some source =>
      cases dest with
      | none =>
        obtain ⟨-, rfl⟩ := Prog.exec_pure.mp hx
        exact absurd hrefused (not_refused_of_log hstart)
      | some dest =>
        dsimp only at hx
        rw [if_neg (by rw [hw]; exact Bool.false_ne_true)] at hx
        obtain ⟨v, -, hx⟩ := refused_drained (fun _ _ _ => id) hstart hrefused hx rfl
          fun _ => ⟨_, rfl⟩
        obtain ⟨_, w, -, hx⟩ := Prog.exec_bind.mp hx
        exact reported_iff_of_silent id (reply_ok_of_rpc hx)
  | write ino offset data =>
    obtain ⟨o, u, hino, hx⟩ := Prog.exec_bind.mp hx
    obtain ⟨rfl, rfl⟩ := Prog.exec_perform.mp hino
    cases hp : u.inodes.path ino with
    | none =>
      rw [hp] at hx
      obtain ⟨-, rfl⟩ := Prog.exec_pure.mp hx
      exact absurd hrefused (not_refused_of_log hstart)
    | some path =>
      rw [hp] at hx
      dsimp only at hx
      rw [if_neg (by rw [hw]; exact Bool.false_ne_true)] at hx
      exact reported_iff_of_silent id (reply_written hx)
  | _ =>
    obtain ⟨-, x, -, hmut, -⟩ := hrefused
    exact absurd hmut id

/-! ## 6. A file that the target does not remove -/

def permissionDenied : RpcError := ⟨-32000, "permission denied"⟩

/-- The mount of `/srv`, with a tree and a log, after some requests. -/
def refusedState (tree : CacheTree) (log : List (BridgeRequest × Except RpcError Json))
    (sent : List BridgeRequest) : Mount MountedTree :=
  ⟨shareLooked, ⟨.new 0, []⟩, [], [], [], sent, ⟨tree, fun _ => .full, log⟩⟩

/-- The cache has the file `a`, of three bytes. -/
def cachedA : CacheTree := cacheNew.put (shareMount.cachePath shareA) (some (.file 3))

/-- `a` is not in the cache, and the target does not let its mode be set, nor tells anything. -/
theorem refused_reported_iff_chmod : ∃ reply t,
    Refused shareMount (.setattr 2 (some 0o600) none) (refusedState cacheNew [] []) t ∧
    Reported shareMount (.setattr 2 (some 0o600) none) (refusedState cacheNew [] []) reply t := by
  let chmod : BridgeRequest := .chmod shareA.text 0o600
  let denied : BridgeRequest → BridgeRequest × Except RpcError Json := (·, .error permissionDenied)
  let u := refusedState cacheNew [denied chmod] [chmod]
  let stat : BridgeRequest := .stat shareA.text
  let t := refusedState cacheNew [denied stat, denied chmod] [stat, chmod]
  have hknown : shareLooked.path 2 = some shareA := by decide
  have hnone : cacheNew.node (shareMount.cachePath shareA) = none := by decide
  have hx : Prog.Exec (mountSem shareMount answeredSem)
      (RemoteFs.handle shareMount (.setattr 2 (some 0o600) none)) (refusedState cacheNew [] [])
      (.error (errnoFor permissionDenied)) t := by
    refine .ask (a := some shareA) ⟨hknown.symm, rfl⟩ ?_
    refine .ask (a := .error permissionDenied) ⟨_, rfl, rfl⟩ ?_
    refine .ask (t := u) (a := ()) ⟨u.env, ?_, rfl⟩ ?_
    · exact answered_of_full rfl (fun _ _ _ h => by cases h) rfl rfl
    refine .ask (a := .error permissionDenied) ⟨_, rfl, rfl⟩ ?_
    refine .ask (t := t) (a := none) ⟨t.env, ⟨rfl, ?_⟩, rfl⟩ ?_
    · exact iff_of_false Bool.false_ne_true fun h => h.2 hnone
    exact .done _ _
  have hrefused : Refused shareMount (.setattr 2 (some 0o600) none)
      (refusedState cacheNew [] []) t :=
    ⟨trivial, _, List.mem_cons_of_mem _ List.mem_cons_self, trivial, _, rfl⟩
  refine ⟨_, t, hrefused, (refused_reported_iff rfl rfl hx hrefused).mpr ⟨trivial, ?_⟩⟩
  refine ⟨shareA, by decide, ⟨_, rfl, fun v h => by cases h⟩, .inr ⟨hnone, id⟩⟩

/-- **The target refuses to remove `a`**: the kernel is told that it is removed, and the cache file
    is gone. -/
theorem unlink_hides_refusal : ∃ t,
    Prog.Exec (mountSem shareMount answeredSem) (RemoteFs.handle shareMount (.unlink 1 "a"))
      (refusedState cachedA [] []) .ok t ∧
    Refused shareMount (.unlink 1 "a") (refusedState cachedA [] []) t ∧
    cachedA.node (shareMount.cachePath shareA) = some (.file 3) ∧
    t.env.tree.node (shareMount.cachePath shareA) = none ∧
    ¬ Reported shareMount (.unlink 1 "a") (refusedState cachedA [] []) .ok t := by
  let file := shareMount.cachePath shareA
  let remove : BridgeRequest := .remove shareA.text (some false)
  let u := refusedState (cachedA.put file none) [] []
  let t := refusedState (cachedA.put file none) [(remove, .error permissionDenied)] [remove]
  have hfile : cachedA.node file = some (.file 3) := by decide
  have hx : Prog.Exec (mountSem shareMount answeredSem)
      (RemoteFs.handle shareMount (.unlink 1 "a")) (refusedState cachedA [] []) .ok t := by
    refine .ask (t := refusedState cachedA [] []) (a := some shareA) ⟨?_, ?_⟩ ?_
    · exact (congrArg Prod.snd shareLooked_childPath_a).symm
    · exact congrArg (fun m => { refusedState cachedA [] [] with inodes := m })
        (congrArg Prod.fst shareLooked_childPath_a).symm
    refine .ask (a := .ok ()) ⟨.refl _, .inl ⟨rfl, fun p _ => ⟨rfl, rfl⟩⟩⟩ ?_
    refine .ask (t := u) (a := ()) ⟨u.env, ?_, rfl⟩ ?_
    · refine answered_of_full rfl (fun _ _ _ h => by cases h) rfl ?_
      have hnodir : ¬ cachedA.node file = some .dir := by
        rw [hfile]
        nofun
      exact (if_neg hnodir).symm
    refine .ask (a := .error permissionDenied) ⟨_, rfl, rfl⟩ ?_
    exact .done _ _
  refine ⟨t, hx, ⟨trivial, _, List.mem_cons_self, trivial, _, rfl⟩, hfile, CacheTree.put_self, ?_⟩
  intro h'
  obtain ⟨⟨e, he⟩, -⟩ := h'
  cases he

end Relayfs

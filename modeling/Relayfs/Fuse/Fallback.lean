/-
  File:      Relayfs/Fuse/Fallback.lean
  Subject:   WHEN THE MOUNT ANSWERS FROM THE CACHE (bridge/src/fuse_fs.rs, `attr_for`, `readdir` and
             the remote part of `read`): after any failed RPC, whoever has failed it.

  * `RpcOutcome` -- how an RPC ends: the target has answered, or nobody has;
  * `servedSem` -- the cache tree, what it lets the mount do, and the outcomes;
  * `Holds` -- the cache has something to answer a request with;
  * `fallback_reply_iff` -- a request that the target has answered with an error is answered with
    one exactly when the cache holds nothing;
  * `removed_file_served` -- a file that is gone on the target.
-/
import Relayfs.Fuse.Refused

namespace Relayfs

open Lib Prog

/-! ## 1. Who answers -/

/-- **How an RPC ends**: with the answer of the target, or without one (offline, the connection
    lost, not sent, timed out), and then with an error of the relay or the client. -/
inductive RpcOutcome where
  | answered (answer : Except RpcError Json)
  | silent (err : RpcError)

/-- What the caller of an RPC sees of its outcome. -/
def RpcOutcome.result : RpcOutcome → Except RpcError Json
  | .answered answer => answer
  | .silent err => .error err

/-- **The cache tree**, what it lets the mount do, and the outcomes of the RPCs, newest first. -/
structure ServedTree where
  tree : CacheTree
  access : PathBuf → CacheAccess
  calls : List (BridgeRequest × RpcOutcome)

namespace ServedTree

variable (s : ServedTree)

/-- There is an entry that can be looked at. -/
def Shows (p : PathBuf) : Prop := s.access p ≠ .none ∧ s.tree.node p ≠ none

/-- There is a directory that can be listed. -/
def Lists (p : PathBuf) : Prop := s.access p ≠ .none ∧ s.tree.node p = some .dir

/-- There is a file that can be read. -/
def Reads (p : PathBuf) : Prop := s.access p ≠ .none ∧ s.tree.isFile p = true

/-- After `create_dir_all`. -/
def makeDirs (p : PathBuf) : ServedTree :=
  if s.access p = .full then { s with tree := s.tree.makeDirs p } else s

end ServedTree

/-- **The meaning of the effects.** The target answers anything or nothing. -/
def servedSem : EnvSem ServedTree
  | .call req, s, a, t => ∃ outcome, a = RpcOutcome.result outcome ∧
      t = { s with calls := (req, outcome) :: s.calls }
  | .createDirAll p, s, _, t => t = s.makeDirs p
  | .symlinkMetadata p, s, a, t => t = s ∧ (Option.isSome a ↔ s.Shows p)
  | .readDir p, s, a, t => t = s ∧ (Option.isSome a ↔ s.Lists p)
  | .readAt p offset len, s, a, t =>
      t = s ∧ (Option.isSome a ↔ s.Reads p) ∧
        ∀ bytes, a = some bytes → List.length bytes = min len (s.tree.size p - offset)
  | .writeAt p offset data, s, a, t =>
      if s.access p = .full then
        ∃ tree, treeSem (.writeAt p offset data) s.tree a tree ∧ t = { s with tree := tree }
      else a = false ∧ t = s
  | e, s, a, t =>
      if ∀ p ∈ e.changes, s.access p = .full then
        ∃ tree, treeSem e s.tree a tree ∧ t = { s with tree := tree }
      else t = s

/-! ## 2. What is claimed of a request -/

/-- The requests whose handlers have a fallback. -/
def KernelRequest.FallsBack : KernelRequest → Prop
  | .lookup .. | .getattr .. | .readdir .. | .read .. => True
  | _ => False

/-- **The cache holds something to answer a request with**: an entry, a directory to list (which
    `readdir` has just tried to make), a file to read. -/
def KernelRequest.Holds (s : ServedTree) (file : PathBuf) : KernelRequest → Prop
  | .readdir .. => (s.makeDirs file).Lists file
  | .read .. => s.Reads file
  | _ => s.Shows file

/-- The target itself has answered an RPC with an error. -/
def ServedTree.TargetError (s : ServedTree) : Prop :=
  ∃ x ∈ s.calls, ∃ e, x.2 = .answered (.error e)

/-- **The kernel gets an error when the target has answered with one.** -/
def HonestReply (reply : Reply) (t : ServedTree) : Prop := t.TargetError → ∃ e, reply = .error e

section Handlers

variable {cfg : MountCfg} {s t : Mount ServedTree} {reply : Reply}

/-- An RPC adds its outcome. -/
theorem served_rpc {req : BridgeRequest} {a : Except Errno Json}
    (hx : Exec (mountSem cfg servedSem) (RemoteFs.rpc req) s a t) :
    ∃ outcome : RpcOutcome, a = outcome.result.mapError errnoFor ∧
      t.env = { s.env with calls := (req, outcome) :: s.env.calls } ∧ t.inodes = s.inodes := by
  obtain ⟨answer, env, ⟨outcome, rfl, rfl⟩, ha, rfl⟩ := exec_rpcCall hx
  exact ⟨outcome, ha, rfl, rfl⟩

/-! Programs without an RPC. -/

/-- An effect that is no RPC and waits for nothing. -/
def Effect.Local : Effect → Prop
  | .call _ | .waitBelow _ | .waitDrain _ => False
  | _ => True

theorem calls_makeDirs (s : ServedTree) (p : PathBuf) : (s.makeDirs p).calls = s.calls := by
  unfold ServedTree.makeDirs
  split
  · rfl
  · rfl

theorem served_local {e : Effect} {a : Answer e} (he : e.Local)
    (hx : mountSem cfg servedSem e s a t) : t.env.calls = s.env.calls := by
  cases e with
  | call | waitBelow | waitDrain => exact absurd he id
  | pathFor | childPath | inoForPath | enqueue =>
    obtain ⟨-, rfl⟩ := hx
    rfl
  | finish =>
    obtain ⟨-, now, rfl⟩ := hx
    rfl
  | kickPrefetch path =>
    have hkick : t = if path ∈ s.prefetching then s
        else { s with prefetching := path :: s.prefetching, kicked := path :: s.kicked } := hx
    rw [hkick]
    split
    · rfl
    · rfl
  | prefetchDone =>
    obtain rfl := hx
    rfl
  | createDirAll p =>
    obtain ⟨env, henv, rfl⟩ := hx
    obtain rfl : env = s.env.makeDirs p := henv
    exact calls_makeDirs s.env p
  | symlinkMetadata | readDir | readAt =>
    obtain ⟨env, ⟨rfl, -⟩, rfl⟩ := hx
    rfl
  | writeAt p offset data =>
    obtain ⟨env, henv, rfl⟩ := hx
    obtain ⟨-, ⟨tree, -, rfl⟩⟩ | ⟨-, -, rfl⟩ := ite_prop_iff_or.mp henv
    · rfl
    · rfl
  | _ =>
    obtain ⟨env, henv, rfl⟩ := hx
    simp only [servedSem] at henv
    split at henv
    · obtain ⟨tree, -, rfl⟩ := henv
      rfl
    · rw [henv]

/-- A program of such effects leaves the outcomes as they are. -/
theorem calls_of_local {α : Type} {p : FsProg α} {a : α} (hp : Only Effect.Local p)
    (hx : Exec (mountSem cfg servedSem) p s a t) : t.env.calls = s.env.calls :=
  wp_iff_exec.mp (wp_of_only (I := fun u : Mount ServedTree => u.env.calls = s.env.calls)
    (fun _ _ _ _ he hu hsem => (served_local he hsem).trans hu) hp rfl) a t hx

/-! ## 3. The handlers -/

/-- A request makes one RPC at most; when it has failed, the reply is an error exactly where the
    cache holds nothing. -/
def OneCall (holds : Prop) (reply : Reply) (t : ServedTree) : Prop :=
  t.calls = [] ∨ ∃ req outcome, t.calls = [(req, outcome)] ∧
    ∀ err, outcome.result = .error err → ((∃ e, reply = .error e) ↔ ¬ holds)

theorem OneCall.honest_iff {holds : Prop} {t : ServedTree} (h : OneCall holds reply t) :
    HonestReply reply t ↔ (t.TargetError → ¬ holds) := by
  refine forall_congr' fun herr => ?_
  obtain ⟨x, hx, err, houtcome⟩ := herr
  rcases h with hnone | ⟨req, outcome, hcalls, hreply⟩
  · rw [hnone] at hx
    exact absurd hx List.not_mem_nil
  · rw [hcalls, List.mem_singleton] at hx
    subst hx
    obtain rfl : outcome = .answered (.error err) := houtcome
    exact hreply err rfl

/-- What a handler does after its RPC. -/
theorem oneCall_of_rest {holds : Prop} {α : Type} {p : FsProg α} {a : α} {req : BridgeRequest}
    {outcome : RpcOutcome} (hcalls : s.env.calls = [(req, outcome)]) (hp : Only Effect.Local p)
    (hx : Exec (mountSem cfg servedSem) p s a t)
    (hreply : ∀ err, outcome.result = .error err → ((∃ e, reply = .error e) ↔ ¬ holds)) :
    OneCall holds reply t.env :=
  .inr ⟨req, outcome, (calls_of_local hp hx).trans hcalls, hreply⟩

/-- The fallback of a handler that answers with attributes. -/
def attrFallback (cfg : MountCfg) (path : PathBuf) (mk : FileAttr → Reply) (e : Errno) :
    FsProg Reply := do
  match ← FsProg.symlinkMetadata (cfg.cachePath path) with
  | some m => return mk (attrFromMetadata m (← FsProg.inoForPath path))
  | none => return .error e

/-- What it does after its RPC. -/
def attrRest (cfg : MountCfg) (path : PathBuf) (mk : FileAttr → Reply) :
    Except Errno Json → FsProg Reply
  | .error e => attrFallback cfg path mk e
  | .ok value =>
      match StatResult.ofJson value with
      | none => attrFallback cfg path mk .eio
      | some stat => do
          let attr := attrFromStat stat (← FsProg.inoForPath path)
          if attr.kind = .directory then
            FsProg.createDirAll (cfg.cachePath path)
            return mk attr
          else return mk attr

/-- The cache file's attributes, and what a handler answers with. -/
theorem bind_attrFallback {cfg : MountCfg} {path : PathBuf} {mk : FileAttr → Reply} {e : Errno}
    {k : Except Errno FileAttr → FsProg Reply} (hok : ∀ attr, k (.ok attr) = pure (mk attr))
    (herr : k (.error e) = pure (.error e)) :
    (do
      match ← FsProg.symlinkMetadata (cfg.cachePath path) with
      | some m => return Except.ok (attrFromMetadata m (← FsProg.inoForPath path))
      | none => return Except.error e : FsProg (Except Errno FileAttr)) >>= k
      = attrFallback cfg path mk e := by
  rw [attrFallback, bind_assoc]
  refine congrArg _ (funext fun m => ?_)
  cases m with
  | none => rw [pure_bind, herr]
  | some m =>
    rw [bind_assoc]
    refine congrArg _ (funext fun ino => ?_)
    rw [pure_bind, hok]

theorem replyAttr_eq (cfg : MountCfg) (path : PathBuf) (mk : FileAttr → Reply) :
    RemoteFs.replyAttr cfg path mk
      = RemoteFs.rpc (.stat path.text) >>= attrRest cfg path mk := by
  rw [RemoteFs.replyAttr, RemoteFs.attrFor, RemoteFs.remoteAttr, bind_assoc, bind_assoc]
  refine congrArg _ (funext fun value => ?_)
  cases value with
  | error e => exact bind_attrFallback (fun _ => rfl) rfl
  | ok value =>
    unfold attrRest
    dsimp only
    cases StatResult.ofJson value with
    | none => exact bind_attrFallback (fun _ => rfl) rfl
    | some stat =>
      dsimp only
      rw [bind_assoc]
      refine congrArg _ (funext fun ino => ?_)
      rw [pure_bind]
      dsimp only
      split
      · rfl
      · rfl

theorem local_attrFallback (cfg : MountCfg) (path : PathBuf) (mk : FileAttr → Reply) (e : Errno) :
    Only Effect.Local (attrFallback cfg path mk e) := by
  refine Only.bind (only_perform.mpr trivial) fun m => ?_
  cases m with
  | none => exact only_pure _
  | some m => exact Only.bind (only_perform.mpr trivial) fun _ => only_pure _

theorem local_attrRest (cfg : MountCfg) (path : PathBuf) (mk : FileAttr → Reply)
    (value : Except Errno Json) : Only Effect.Local (attrRest cfg path mk value) := by
  cases value with
  | error e => exact local_attrFallback cfg path mk e
  | ok value =>
    unfold attrRest
    dsimp only
    split
    · exact local_attrFallback cfg path mk _
    · refine Only.bind (only_perform.mpr trivial) fun ino => ?_
      split
      · exact Only.bind (only_perform.mpr trivial) fun _ => only_pure _
      · exact only_pure _

theorem reply_attrFallback {path : PathBuf} {mk : FileAttr → Reply} {e : Errno}
    (hmk : ∀ attr e, mk attr ≠ .error e)
    (hx : Exec (mountSem cfg servedSem) (attrFallback cfg path mk e) s reply t) :
    (∃ e, reply = .error e) ↔ ¬ s.env.Shows (cfg.cachePath path) := by
  obtain ⟨m, u, hmeta, hx⟩ := exec_bind.mp hx
  obtain ⟨env, ⟨rfl, hshows⟩, rfl⟩ := exec_perform.mp hmeta
  cases m with
  | none =>
    obtain ⟨rfl, -⟩ := exec_pure.mp hx
    exact iff_of_true ⟨_, rfl⟩ fun h => by cases hshows.mpr h
  | some m =>
    obtain ⟨ino, z, -, hx⟩ := exec_bind.mp hx
    obtain ⟨rfl, -⟩ := exec_pure.mp hx
    exact iff_of_false (fun ⟨e, he⟩ => hmk _ e he) fun h => h (hshows.mp rfl)

/-- A handler that answers with attributes. -/
theorem oneCall_replyAttr {path : PathBuf} {mk : FileAttr → Reply}
    (hmk : ∀ attr e, mk attr ≠ .error e) (hs : s.env.calls = [])
    (hx : Exec (mountSem cfg servedSem) (RemoteFs.replyAttr cfg path mk) s reply t) :
    OneCall (s.env.Shows (cfg.cachePath path)) reply t.env := by
  rw [replyAttr_eq] at hx
  obtain ⟨value, u, hrpc, hx⟩ := exec_bind.mp hx
  obtain ⟨outcome, rfl, hu, -⟩ := served_rpc hrpc
  refine oneCall_of_rest (by rw [hu, hs]) (local_attrRest _ _ _ _) hx fun err herr => ?_
  rw [herr] at hx
  rw [reply_attrFallback hmk hx, hu]
  rfl

/-! `read`. -/

/-- Looking for the bytes in the cache changes nothing. -/
theorem served_readCached {file : PathBuf} {offset size : Nat} {found : Option (List UInt8)}
    (hx : Exec (mountSem cfg servedSem) (RemoteFs.readCached file offset size) s found t) :
    t.env = s.env := by
  have hlen : ∀ {u : Mount ServedTree} {len : Option Nat},
      Exec (mountSem cfg servedSem) (FsProg.fileLen file) s len u → u.env = s.env := by
    intro u len h
    obtain ⟨env, henv, rfl⟩ := exec_perform.mp h
    have henv : ∃ tree, treeSem (.fileLen file) s.env.tree len tree ∧
        env = { s.env with tree := tree } := by
      simpa only [servedSem, Effect.changes, List.not_mem_nil, false_imp_iff, implies_true,
        if_true] using henv
    obtain ⟨tree, ⟨rfl, -⟩, rfl⟩ := henv
    rfl
  obtain ⟨len, u, hu, hx⟩ := exec_bind.mp hx
  rw [← hlen hu]
  cases len with
  | none => rw [(exec_pure.mp hx).2]
  | some len =>
    dsimp only at hx
    split at hx
    · obtain ⟨env, ⟨rfl, -⟩, rfl⟩ := exec_perform.mp hx
      rfl
    · split at hx
      · rw [(exec_pure.mp hx).2]
      · rw [(exec_pure.mp hx).2]

theorem local_fillCache (cfg : MountCfg) (path : PathBuf) (offset : Nat) (bytes : List UInt8) :
    Only Effect.Local (RemoteFs.fillCache cfg path offset bytes) := by
  refine Only.bind (RemoteFs.only_createParent (fun _ => trivial) _) fun _ => ?_
  refine Only.bind (only_perform.mpr trivial) fun len => ?_
  dsimp only
  split
  · refine Only.bind (only_perform.mpr trivial) fun written => ?_
    split
    · exact only_perform.mpr trivial
    · exact only_pure _
  · exact only_pure _

theorem oneCall_readRemote {path : PathBuf} {offset size : Nat} (hs : s.env.calls = [])
    (hx : Exec (mountSem cfg servedSem) (RemoteFs.readRemote cfg path offset size) s reply t) :
    OneCall (s.env.Reads (cfg.cachePath path)) reply t.env := by
  obtain ⟨value, u, hrpc, hx⟩ := exec_bind.mp hx
  obtain ⟨outcome, rfl, hu, -⟩ := served_rpc hrpc
  refine oneCall_of_rest (by rw [hu, hs]) ?_ hx fun err herr => ?_
  · cases outcome.result with
    | ok value =>
      dsimp only [Except.mapError]
      split
      · exact only_pure _
      · exact Only.bind (local_fillCache _ _ _ _) fun _ => only_pure _
    | error err =>
      refine Only.bind (only_perform.mpr trivial) fun bytes => ?_
      cases bytes with
      | none => exact only_pure _
      | some bytes => exact only_pure _
  · rw [herr] at hx
    obtain ⟨found, v, hread, hx⟩ := exec_bind.mp hx
    obtain ⟨env, ⟨rfl, hreads, -⟩, rfl⟩ := exec_perform.mp hread
    have hreads : Option.isSome found ↔ s.env.Reads (cfg.cachePath path) := by
      rw [hreads, hu]
      rfl
    cases found with
    | none =>
      obtain ⟨rfl, -⟩ := exec_pure.mp hx
      exact iff_of_true ⟨_, rfl⟩ fun h => by cases hreads.mpr h
    | some bytes =>
      obtain ⟨rfl, -⟩ := exec_pure.mp hx
      exact iff_of_false (fun ⟨e, he⟩ => by cases he) fun h => h (hreads.mp rfl)

/-! `readdir`. -/

theorem local_addRows (offset : Nat) : ∀ (i : Nat) (rows : List (Nat × FileType × String)),
    Only Effect.Local (RemoteFs.addRows offset i rows)
  | _, [] => only_pure _
  | i, (ino, kind, name) :: rest => by
      unfold RemoteFs.addRows
      split
      · exact local_addRows offset (i + 1) rest
      · refine Only.bind (only_perform.mpr trivial) fun full => ?_
        split
        · exact only_pure _
        · exact local_addRows offset (i + 1) rest

/-- The entries, whoever has listed them. -/
def replyRows (path : PathBuf) (ino offset : Nat) (entries : List (FileType × String)) :
    FsProg Reply := do
  let rows ← entries.mapM fun e => do
    return ((← FsProg.inoForPath (path.child e.2)), e.1, e.2)
  RemoteFs.addRows offset 0 ((ino, .directory, ".") :: (1, .directory, "..") :: rows)
  return .ok

theorem local_replyRows (path : PathBuf) (ino offset : Nat) (entries : List (FileType × String)) :
    Only Effect.Local (replyRows path ino offset entries) := by
  refine Only.bind (Only.mapM fun e _ => ?_) fun rows => ?_
  · exact Only.bind (only_perform.mpr trivial) fun _ => only_pure _
  · exact Only.bind (local_addRows _ _ _) fun _ => only_pure _

theorem reply_replyRows {path : PathBuf} {ino offset : Nat} {entries : List (FileType × String)}
    (hx : Exec (mountSem cfg servedSem) (replyRows path ino offset entries) s reply t) :
    reply = .ok := by
  obtain ⟨rows, u, -, hx⟩ := exec_bind.mp hx
  obtain ⟨_, v, -, hx⟩ := exec_bind.mp hx
  exact (exec_pure.mp hx).1

theorem local_remoteEntries (dir : PathBuf) (entries : List DirEntry) :
    Only Effect.Local (RemoteFs.remoteEntries dir entries) := by
  refine Only.mapM fun e _ => ?_
  split
  · exact Only.bind (only_perform.mpr trivial) fun _ => only_pure _
  · exact only_pure _

/-- The part of `readdir` after the directory of the cache has been made. -/
def readdirRest (cfg : MountCfg) (path : PathBuf) (ino offset : Nat) : FsProg Reply := do
  match ← RemoteFs.listEntries path (cfg.cachePath path) with
  | .error e => return .error e
  | .ok entries => replyRows path ino offset entries

theorem oneCall_readdirRest {path : PathBuf} {ino offset : Nat} (hs : s.env.calls = [])
    (hx : Exec (mountSem cfg servedSem) (readdirRest cfg path ino offset) s reply t) :
    OneCall (s.env.Lists (cfg.cachePath path)) reply t.env := by
  obtain ⟨found, u, hlist, hx⟩ := exec_bind.mp hx
  obtain ⟨value, v, hrpc, hlist⟩ := exec_bind.mp hlist
  obtain ⟨outcome, rfl, hv, -⟩ := served_rpc hrpc
  have hlisted : u.env.calls = v.env.calls := by
    refine calls_of_local ?_ hlist
    cases outcome.result with
    | ok value =>
      dsimp only [Except.mapError]
      split
      · exact Only.bind (local_remoteEntries _ _) fun _ => only_pure _
      · exact only_pure _
    | error err =>
      refine Only.bind (only_perform.mpr trivial) fun entries => ?_
      cases entries with
      | none => exact only_pure _
      | some entries => exact only_pure _
  have hcalls : u.env.calls = [(.listDir path.text, outcome)] := by rw [hlisted, hv, hs]
  refine oneCall_of_rest hcalls ?_ hx fun err herr => ?_
  · cases found with
    | error e => exact only_pure _
    | ok entries => exact local_replyRows _ _ _ _
  · rw [herr] at hlist
    obtain ⟨entries, w, hread, hlist⟩ := exec_bind.mp hlist
    obtain ⟨env, ⟨rfl, hlists⟩, rfl⟩ := exec_perform.mp hread
    have hlists : Option.isSome entries ↔ s.env.Lists (cfg.cachePath path) := by
      rw [hlists, hv]
      rfl
    cases entries with
    | none =>
      obtain ⟨rfl, rfl⟩ := exec_pure.mp hlist
      obtain ⟨rfl, -⟩ := exec_pure.mp hx
      exact iff_of_true ⟨_, rfl⟩ fun h => by cases hlists.mpr h
    | some entries =>
      obtain ⟨rfl, rfl⟩ := exec_pure.mp hlist
      obtain rfl := reply_replyRows hx
      exact iff_of_false (fun ⟨e, he⟩ => by cases he) fun h => h (hlists.mp rfl)

/-! All of them. -/

/-- A request about a path that is not known. -/
theorem oneCall_unknown {holds : Prop} (hs : s.env.calls = [])
    (hx : Exec (mountSem cfg servedSem) (pure (.error .enoent) : FsProg Reply) s reply t) :
    OneCall holds reply t.env := by
  obtain ⟨-, rfl⟩ := exec_pure.mp hx
  exact .inl hs

theorem oneCall_handle {r : KernelRequest} (hr : r.FallsBack) (hs : s.env.calls = [])
    (hx : Exec (mountSem cfg servedSem) (RemoteFs.handle cfg r) s reply t) :
    OneCall (∃ path ∈ r.paths s.inodes, r.Holds s.env (cfg.cachePath path)) reply t.env := by
  have hone : ∀ (holds : PathBuf → Prop) {path : PathBuf} {o : Option PathBuf}, o = some path →
      (∃ p ∈ o.toList, holds p) = holds path := by
    intro holds path o heq
    subst heq
    simp
  cases r with
  | lookup parent name =>
    obtain ⟨o, u, hchild, hx⟩ := exec_bind.mp hx
    obtain ⟨rfl, rfl⟩ := exec_perform.mp hchild
    cases hp : (s.inodes.childPath parent name).2 with
    | none =>
      rw [hp] at hx
      obtain ⟨-, rfl⟩ := exec_pure.mp hx
      exact .inl hs
    | some path =>
      rw [hp] at hx
      have hmk : ∀ attr e, Reply.entry attr ≠ .error e := fun _ _ h => by cases h
      have hcall : OneCall (s.env.Shows (cfg.cachePath path)) reply t.env :=
        oneCall_replyAttr (s := { s with inodes := (s.inodes.childPath parent name).1 }) hmk hs hx
      rwa [← hone (fun p => s.env.Shows (cfg.cachePath p)) hp] at hcall
  | getattr ino =>
    obtain ⟨o, u, hino, hx⟩ := exec_bind.mp hx
    obtain ⟨rfl, rfl⟩ := exec_perform.mp hino
    cases hp : u.inodes.path ino with
    | none =>
      rw [hp] at hx
      exact oneCall_unknown hs hx
    | some path =>
      rw [hp] at hx
      have hmk : ∀ attr e, Reply.attr attr ≠ .error e := fun _ _ h => by cases h
      have hcall := oneCall_replyAttr hmk hs hx
      rwa [← hone (fun p => u.env.Shows (cfg.cachePath p)) hp] at hcall
  | readdir ino offset =>
    obtain ⟨o, u, hino, hx⟩ := exec_bind.mp hx
    obtain ⟨rfl, rfl⟩ := exec_perform.mp hino
    cases hp : u.inodes.path ino with
    | none =>
      rw [hp] at hx
      exact oneCall_unknown hs hx
    | some path =>
      rw [hp] at hx
      obtain ⟨_, v, hmake, hx⟩ := exec_bind.mp hx
      obtain ⟨env, henv, rfl⟩ := exec_perform.mp hmake
      obtain rfl : env = u.env.makeDirs (cfg.cachePath path) := henv
      have hcall := oneCall_readdirRest ((calls_makeDirs _ _).trans hs) hx
      rwa [← hone (fun p => (u.env.makeDirs (cfg.cachePath p)).Lists (cfg.cachePath p)) hp]
        at hcall
  | read ino offset size =>
    obtain ⟨o, u, hino, hx⟩ := exec_bind.mp hx
    obtain ⟨rfl, rfl⟩ := exec_perform.mp hino
    cases hp : u.inodes.path ino with
    | none =>
      rw [hp] at hx
      exact oneCall_unknown hs hx
    | some path =>
      rw [hp] at hx
      obtain ⟨found, v, hcached, hx⟩ := exec_bind.mp hx
      have hv := served_readCached hcached
      cases found with
      | some bytes =>
        obtain ⟨-, rfl⟩ := exec_pure.mp hx
        exact .inl (by rw [hv, hs])
      | none =>
        have hcall := oneCall_readRemote (by rw [hv, hs]) hx
        rw [hv] at hcall
        rwa [← hone (fun p => u.env.Reads (cfg.cachePath p)) hp] at hcall
  | _ => exact absurd hr id

end Handlers

/-- **A request is answered with an error whenever the target has answered with one, exactly when
    the cache then holds nothing for its path.** -/
theorem fallback_reply_iff {cfg : MountCfg} {s t : Mount ServedTree} {reply : Reply}
    {r : KernelRequest} (hr : r.FallsBack) (hs : s.env.calls = [])
    (hx : Exec (mountSem cfg servedSem) (RemoteFs.handle cfg r) s reply t) :
    HonestReply reply t.env ↔
      (t.env.TargetError → ¬ ∃ path ∈ r.paths s.inodes, r.Holds s.env (cfg.cachePath path)) :=
  (oneCall_handle hr hs hx).honest_iff

/-! ## 4. A file that is gone on the target -/

/-- What the target answers about it. -/
def gone : RpcError := ⟨Code.internalError, "stat /srv/a: " ++ notFound⟩

/-- The mount of `/srv`, with a cache tree, after some requests. -/
def servedState (tree : CacheTree) (calls : List (BridgeRequest × RpcOutcome))
    (sent : List BridgeRequest) : Mount ServedTree :=
  ⟨shareLooked, ⟨.new 0, []⟩, [], [], [], sent, ⟨tree, fun _ => .full, calls⟩⟩

/-- The cache has no entry for it: the kernel gets the error. -/
theorem fallback_reply_iff_gone : ∃ t : Mount ServedTree,
    t.env.TargetError ∧ HonestReply (.error (errnoFor gone)) t.env := by
  let stat : BridgeRequest := .stat shareA.text
  let t := servedState cacheNew [(stat, .answered (.error gone))] [stat]
  have hknown : shareLooked.path 2 = some shareA := by decide
  have hnone : cacheNew.node (shareMount.cachePath shareA) = none := by decide
  have hx : Exec (mountSem shareMount servedSem) (RemoteFs.handle shareMount (.getattr 2))
      (servedState cacheNew [] []) (.error (errnoFor gone)) t := by
    refine .ask (a := some shareA) ⟨hknown.symm, rfl⟩ ?_
    refine .ask (a := .error gone) ⟨_, ⟨.answered (.error gone), rfl, rfl⟩, rfl⟩ ?_
    refine .ask (t := t) (a := none) ⟨t.env, ⟨rfl, ?_⟩, rfl⟩ ?_
    · exact iff_of_false Bool.false_ne_true fun h => h.2 hnone
    exact .done _ _
  refine ⟨t, ⟨_, List.mem_singleton_self _, gone, rfl⟩, ?_⟩
  refine (fallback_reply_iff (r := .getattr 2) trivial rfl hx).mpr fun _ hholds => ?_
  obtain ⟨path, hpath, hshows⟩ := hholds
  obtain rfl : path = shareA := by
    have hlist : path ∈ [shareA] := hpath
    exact List.mem_singleton.mp hlist
  exact hshows.2 hnone

/-- **The cache still has it**: the kernel gets the attributes of a file that the target has said
    not to be there. -/
theorem removed_file_served :
    ¬ ∀ (cfg : MountCfg) (s t : Mount ServedTree) (reply : Reply) (r : KernelRequest),
      r.FallsBack → s.env.calls = [] →
        Exec (mountSem cfg servedSem) (RemoteFs.handle cfg r) s reply t →
          HonestReply reply t.env := by
  intro hall
  let stat : BridgeRequest := .stat shareA.text
  let u := servedState cachedA [(stat, .answered (.error gone))] [stat]
  let t : Mount ServedTree := { u with inodes := (shareLooked.inoFor shareA).1 }
  let kept : Metadata := ⟨.regularFile, 3, 0, 0o644, 0, 0⟩
  have hknown : shareLooked.path 2 = some shareA := by decide
  have hfile : cachedA.node (shareMount.cachePath shareA) ≠ none := by decide
  have hx : Exec (mountSem shareMount servedSem) (RemoteFs.handle shareMount (.getattr 2))
      (servedState cachedA [] [])
      (.attr (attrFromMetadata kept (shareLooked.inoFor shareA).2)) t := by
    refine .ask (a := some shareA) ⟨hknown.symm, rfl⟩ ?_
    refine .ask (a := .error gone) ⟨_, ⟨.answered (.error gone), rfl, rfl⟩, rfl⟩ ?_
    refine .ask (t := u) (a := some kept) ⟨u.env, ⟨rfl, ?_⟩, rfl⟩ ?_
    · exact iff_of_true rfl ⟨by decide, hfile⟩
    refine .ask (t := t) (a := (shareLooked.inoFor shareA).2) ⟨rfl, rfl⟩ ?_
    exact .done _ _
  have herr : t.env.TargetError := ⟨_, List.mem_singleton_self _, gone, rfl⟩
  obtain ⟨e, he⟩ := hall _ _ _ _ (.getattr 2) trivial rfl hx herr
  cases he

end Relayfs

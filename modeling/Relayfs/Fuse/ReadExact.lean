/-
  File:      Relayfs/Fuse/ReadExact.lean
  Subject:   WHAT A READ OF THE MOUNT REPLIES (bridge/src/fuse_fs.rs, `read`), and whether it is the
             whole of what was asked for.

  A cache file that has the byte at the offset answers a read alone, however little it has behind
  it. The kernel takes a reply that is too short for the end of the file.

  * `cachedReply`, `remoteReply`, `exec_read` -- the reply, from the cache file or the target;
  * `exactSem` -- a target whose READ_FILE returns all that was asked for and is there;
  * `ReadsWhole` -- the reply is the whole of it; `FrontierClear` -- the request does not begin in
    the cached prefix and end behind it;
  * `read_exact_iff` -- the one exactly where the other; `read_stops_at_frontier` -- elsewhere.
-/
import Relayfs.Agent.ReadFile
import Relayfs.Fuse.CachePrefix

namespace Relayfs

open Lib RemoteFs Prog

/-! ## 1. The reply -/

/-- What a read asks of the cache directory and of the target. -/
def AskedByRead : Effect → Prop
  | .call (.readFile _ _ _) => True
  | .createDirAll _ | .fileLen _ | .readAt _ _ _ | .writeAt _ _ _ => True
  | _ => False

/-- An environment does with them what is done for one file of it. -/
def ReadsAs {ε : Type} (cfg : MountCfg) (path : PathBuf) (view : ε → FileEnv) (env : EnvSem ε) :
    Prop :=
  ∀ e, AskedByRead e → ∀ u a v, env e u a v → fileSem cfg path e (view u) a (view v)

/-- The reply of the cache file, if it gives one. -/
def cachedReply (cache : Option (List UInt8)) (offset size : Nat) : Option (List UInt8) :=
  cache.bind fun file =>
    if 0 < file.length ∧ offset < file.length then
      some ((file.drop offset).take (min size (file.length - offset)))
    else if file.length = 0 ∧ offset = 0 then some []
    else none

/-- The reply after an answer of the target: the cache file stands in for a call that failed. -/
def remoteReply (cache : Option (List UInt8)) (offset size : Nat) : Except RpcError Json → Reply
  | .ok value =>
      match (ReadFileResult.ofJson value).bind fun r => Base64.decode r.data with
      | none => .error .eio
      | some bytes => .data (bytes.take size)
  | .error e =>
      match cache with
      | some file => .data ((file.drop offset).take size)
      | none => .error (errnoFor e)

/-- The READ_FILE of a read. -/
def readRequest (path : PathBuf) (offset size : Nat) : BridgeRequest :=
  .readFile path.text (some offset) (some (max size (1024 * 1024)))

section Reply

variable {ε : Type} {cfg : MountCfg} {path : PathBuf} {ino offset size : Nat}
  {view : ε → FileEnv} {env : EnvSem ε} {s t : Mount ε}

theorem ReadsAs.fileLen (henv : ReadsAs cfg path view env) {u v : ε} {len : Option Nat}
    (h : env (.fileLen (cfg.cachePath path)) u len v) :
    view v = view u ∧ len = (view u).cache.map List.length := by
  have hfile := henv (.fileLen (cfg.cachePath path)) trivial u len v h
  exact ⟨hfile.1, hfile.2 rfl⟩

theorem ReadsAs.readAt (henv : ReadsAs cfg path view env) {u v : ε} {len : Nat}
    {bytes : Option (List UInt8)} (h : env (.readAt (cfg.cachePath path) offset len) u bytes v) :
    view v = view u ∧ bytes = (view u).cache.map fun file => (file.drop offset).take len := by
  have hfile := henv (.readAt (cfg.cachePath path) offset len) trivial u bytes v h
  exact ⟨hfile.1, hfile.2 rfl⟩

/-- A READ_FILE changes nothing. -/
theorem ReadsAs.readFile (henv : ReadsAs cfg path view env) {u v : ε}
    {answer : Except RpcError Json} (h : env (.call (readRequest path offset size)) u answer v) :
    view v = view u ∧ ReadsFile (view u).remote offset (max size (1024 * 1024)) answer := by
  have hfile := henv (.call (readRequest path offset size)) trivial u answer v h
  exact ⟨hfile.1, hfile.2 rfl⟩

/-- The cached part of a read. -/
theorem exec_cachedReply (henv : ReadsAs cfg path view env) {a : Option (List UInt8)}
    (hx : Exec (mountSem cfg env) (readCached (cfg.cachePath path) offset size) s a t) :
    a = cachedReply (view s.env).cache offset size ∧ t.inodes = s.inodes ∧
      view t.env = view s.env := by
  obtain ⟨len, u, hask, hx⟩ := exec_bind.mp hx
  obtain ⟨env', hlen, rfl⟩ := exec_perform.mp hask
  obtain ⟨hsame, hfile⟩ := henv.fileLen hlen
  cases hcache : (view s.env).cache with
  | none =>
    rw [hcache] at hfile
    obtain rfl : len = none := hfile
    obtain ⟨rfl, rfl⟩ := exec_pure.mp hx
    exact ⟨rfl, rfl, hsame⟩
  | some file =>
    rw [hcache] at hfile
    obtain rfl : len = some file.length := hfile
    rw [cachedReply, Option.bind_some]
    dsimp only at hx
    split at hx
    · rename_i hin
      obtain ⟨env'', hask, rfl⟩ := exec_perform.mp hx
      obtain ⟨hsame', hread⟩ := henv.readAt hask
      dsimp only at hread hsame'
      rw [hsame, hcache] at hread
      rw [if_pos hin]
      exact ⟨hread, rfl, hsame'.trans hsame⟩
    · rename_i hin
      rw [if_neg hin]
      split at hx
      · rename_i hempty
        obtain ⟨rfl, rfl⟩ := exec_pure.mp hx
        rw [if_pos hempty]
        exact ⟨rfl, rfl, hsame⟩
      · rename_i hempty
        obtain ⟨rfl, rfl⟩ := exec_pure.mp hx
        rw [if_neg hempty]
        exact ⟨rfl, rfl, hsame⟩

/-- The part of a read that asks the target. -/
theorem exec_remoteReply (henv : ReadsAs cfg path view env) {reply : Reply}
    (hx : Exec (mountSem cfg env) (readRemote cfg path offset size) s reply t) :
    ∃ answer env', env (.call (readRequest path offset size)) s.env answer env' ∧
      reply = remoteReply (view s.env).cache offset size answer := by
  obtain ⟨a, u, hrpc, hx⟩ := exec_bind.mp hx
  obtain ⟨answer, env', hcall, rfl, rfl⟩ := exec_rpcCall hrpc
  refine ⟨answer, env', hcall, ?_⟩
  cases answer with
  | ok value =>
    rw [remoteReply.eq_def]
    dsimp only [Except.mapError] at hx
    cases hread : (ReadFileResult.ofJson value).bind fun r => Base64.decode r.data with
    | none =>
      simp only [hread] at hx ⊢
      exact (exec_pure.mp hx).1
    | some bytes =>
      simp only [hread] at hx ⊢
      obtain ⟨_, v, -, hx⟩ := exec_bind.mp hx
      exact (exec_pure.mp hx).1
  | error e =>
    rw [remoteReply.eq_def]
    obtain ⟨bytes, v, hask, hx⟩ := exec_bind.mp hx
    obtain ⟨env'', hfile, rfl⟩ := exec_perform.mp hask
    obtain ⟨-, hread⟩ := henv.readAt hfile
    have hsame : view env' = view s.env := (henv.readFile hcall).1
    dsimp only at hread
    rw [hsame] at hread
    cases hcache : (view s.env).cache with
    | none =>
      rw [hcache] at hread
      obtain rfl : bytes = none := hread
      exact (exec_pure.mp hx).1
    | some file =>
      rw [hcache] at hread
      obtain rfl : bytes = some ((file.drop offset).take size) := hread
      exact (exec_pure.mp hx).1

/-- **The reply of a read**: what the cache file gives, or else what the target answers. -/
theorem exec_read (henv : ReadsAs cfg path view env) (hknown : s.inodes.path ino = some path)
    {reply : Reply} (hx : Exec (mountSem cfg env) (RemoteFs.read cfg ino offset size) s reply t) :
    (∃ bytes, cachedReply (view s.env).cache offset size = some bytes ∧ reply = .data bytes) ∨
    (cachedReply (view s.env).cache offset size = none ∧
      ∃ u answer v, view u = view s.env ∧ env (.call (readRequest path offset size)) u answer v ∧
        reply = remoteReply (view s.env).cache offset size answer) := by
  obtain ⟨p, u, hpath, hx⟩ := exec_bind.mp hx
  obtain ⟨rfl, hu⟩ := exec_perform.mp hpath
  rw [hu, hknown] at hx
  obtain ⟨bytes, v, hcached, hx⟩ := exec_bind.mp hx
  obtain ⟨rfl, -, hsame⟩ := exec_cachedReply henv hcached
  cases hreply : cachedReply (view s.env).cache offset size with
  | some bytes =>
    rw [hreply] at hx
    exact .inl ⟨bytes, rfl, (exec_pure.mp hx).1⟩
  | none =>
    rw [hreply] at hx
    obtain ⟨answer, w, hcall, hanswer⟩ := exec_remoteReply henv hx
    rw [hsame] at hanswer
    exact .inr ⟨rfl, v.env, answer, w, hsame, hcall, hanswer⟩

end Reply

/-! ## 2. A target that returns all that is there -/

/-- The answer to READ_FILE: all that was asked for, up to the end of the file. -/
def ReadsExactly (remote : List UInt8) (offset limit : Nat) (a : Except RpcError Json) : Prop :=
  if maxDirectFileBytes < limit then ∃ e, a = .error e
  else a = .ok (ReadFileResult.toJson
    ⟨Base64.encode ((remote.drop offset).take limit),
      ((remote.drop offset).take limit).length < limit⟩)

/-- The agent answers so where one read returns all that fits and is there. -/
theorem readAnswer_exactly {unreadable path : String} {content : FileContent}
    {offset limit n : Nat} (hoffset : offset < 2 ^ 63) (hlimit : limit ≤ maxDirectFileBytes)
    (hn : AllThere content.bytes offset limit n) :
    ReadsExactly content.bytes offset limit
      (readAnswer unreadable (.readFile path (some offset) (some limit))
        ⟨.ok content, none, .ok n⟩) := by
  have hlen := hn.returns.length
  have htake : (content.bytes.drop offset).take n = (content.bytes.drop offset).take limit := by
    have hn : n = min limit (content.bytes.length - offset) := hn
    rw [hn, ← List.length_drop, List.take_eq_take_iff]
    omega
  rw [ReadsExactly, if_neg (Nat.not_lt.mpr hlimit), readFile_answer hoffset hlimit, ← htake, hlen]

theorem ReadsExactly.readsFile {remote : List UInt8} {offset limit : Nat}
    {a : Except RpcError Json} (h : ReadsExactly remote offset limit a) :
    ReadsFile remote offset limit a := by
  unfold ReadsExactly at h
  unfold ReadsFile
  split
  · rename_i hlimit
    rwa [if_pos hlimit] at h
  · rename_i hlimit
    rw [if_neg hlimit] at h
    exact ⟨limit, min_le_left _ _, le_rfl, h⟩

/-- The request is answered. -/
theorem exists_readsExactly (remote : List UInt8) (offset limit : Nat) :
    ∃ a, ReadsExactly remote offset limit a := by
  unfold ReadsExactly
  split
  · exact ⟨.error ⟨Code.internalError, ""⟩, _, rfl⟩
  · exact ⟨_, rfl⟩

/-- **The meaning of the effects** for one file of such a target. -/
def exactSem (cfg : MountCfg) (path : PathBuf) : EnvSem FileEnv
  | .call (.readFile p offset limit), s, a, t =>
      t = s ∧ (p = path.text →
        ReadsExactly s.remote (offset.getD 0) (limit.getD (1024 * 1024)) a)
  | e, s, a, t => fileSem cfg path e s a t

theorem exactSem_readsAs (cfg : MountCfg) (path : PathBuf) :
    ReadsAs cfg path id (exactSem cfg path) := by
  intro e he u a v h
  cases e with
  | call req =>
    cases req with
    | readFile p offset limit => exact ⟨h.1, fun hp => (h.2 hp).readsFile⟩
    | _ => exact absurd he id
  | createDirAll | fileLen | readAt | writeAt => exact h
  | _ => exact absurd he id

/-! ## 3. The whole of what was asked for -/

/-- **The reply is exact**: the bytes from the offset on, up to the size or the end of the file; it
    is shorter than the size at the end of the file only. -/
structure ReadsWhole (content : List UInt8) (offset size : Nat) (reply : Reply) : Prop where
  bytes : reply = .data ((content.drop offset).take size)
  short : ∀ data, reply = .data data → data.length < size → content.length ≤ offset + data.length

/-- **The condition.** A request that begins in the cache file does not end behind it; and an empty
    cache file is not read at its start, unless nothing is there or asked for. -/
structure FrontierClear (cache : Option (List UInt8)) (content : List UInt8) (offset size : Nat) :
    Prop where
  within : ∀ file, cache = some file → offset < file.length →
    min (offset + size) content.length ≤ file.length
  start : cache = some [] → offset = 0 → size = 0 ∨ content = []

theorem readsWhole_iff {content bytes : List UInt8} {offset size : Nat} :
    ReadsWhole content offset size (.data bytes) ↔ bytes = (content.drop offset).take size := by
  constructor
  · intro h
    exact Reply.data.inj h.bytes
  · intro heq
    subst heq
    refine ⟨rfl, fun data hdata hshort => ?_⟩
    obtain rfl := Reply.data.inj hdata
    rw [List.length_take, List.length_drop] at hshort ⊢
    omega

/-- **At the frontier** of a cached prefix. -/
theorem cached_whole_iff {file content : List UInt8} {offset size : Nat} (h : file <+: content)
    (hin : offset < file.length) :
    (file.drop offset).take (min size (file.length - offset)) = (content.drop offset).take size ↔
      min (offset + size) content.length ≤ file.length := by
  obtain ⟨rest, rfl⟩ := h
  rw [List.drop_append_of_le_length (Nat.le_of_lt hin), ← List.length_drop, List.length_append]
  constructor
  · intro heq
    have hlen := congrArg List.length heq
    rw [List.length_take, List.length_take, List.length_append, List.length_drop] at hlen
    omega
  · intro hend
    by_cases hsize : offset + size ≤ file.length
    · have hfit : size ≤ (file.drop offset).length := by
        rw [List.length_drop]
        omega
      rw [Nat.min_eq_left hfit, List.take_append_of_le_length hfit]
    · -- the cache file is the whole file
      have hrest : rest = [] := List.length_eq_zero_iff.mp (by omega)
      rw [hrest, List.append_nil, List.take_eq_take_iff]
      omega

/-- The cache file answers a read exactly, exactly where the frontier is clear of it. -/
theorem cachedReply_whole_iff {cache : Option (List UInt8)} {content bytes : List UInt8}
    {offset size : Nat} (hpre : ∀ file, cache = some file → file <+: content)
    (h : cachedReply cache offset size = some bytes) :
    ReadsWhole content offset size (.data bytes) ↔ FrontierClear cache content offset size := by
  obtain ⟨file, rfl, hfile⟩ := Option.bind_eq_some_iff.mp h
  rw [readsWhole_iff]
  split at hfile
  · rename_i hin
    obtain rfl := Option.some.inj hfile
    rw [cached_whole_iff (hpre file rfl) hin.2]
    constructor
    · intro hend
      refine ⟨fun f hf _ => ?_, fun hempty _ => ?_⟩
      · cases hf
        exact hend
      · cases hempty
        exact absurd hin.1 (Nat.lt_irrefl 0)
    · exact fun hclear => hclear.within file rfl hin.2
  · split at hfile
    · rename_i hempty
      obtain ⟨hlen, rfl⟩ := hempty
      obtain rfl := List.length_eq_zero_iff.mp hlen
      obtain rfl := Option.some.inj hfile
      rw [List.drop_zero, eq_comm, List.take_eq_nil_iff]
      constructor
      · intro hnone
        refine ⟨fun f hf hlt => ?_, fun _ _ => hnone⟩
        cases hf
        exact absurd hlt (Nat.not_lt_zero 0)
      · exact fun hclear => hclear.start rfl rfl
    · cases hfile

/-- Where the cache file gives no reply, the frontier is clear. -/
theorem frontierClear_of_miss {cache : Option (List UInt8)} {content : List UInt8}
    {offset size : Nat} (h : cachedReply cache offset size = none) :
    FrontierClear cache content offset size := by
  constructor
  · intro file heq hin
    subst heq
    rw [cachedReply, Option.bind_some, if_pos ⟨Nat.zero_lt_of_lt hin, hin⟩] at h
    cases h
  · intro heq heq'
    subst heq
    subst heq'
    cases h

/-! ## 4. Reads -/

section Reads

variable {cfg : MountCfg} {path : PathBuf} {ino offset size : Nat} {s t : Mount FileEnv}

/-- The effects of a read. -/
def OfRead : Effect → Prop
  | .pathFor _ | .kickPrefetch _ => True
  | e => AskedByRead e

theorem only_read (cfg : MountCfg) (ino offset size : Nat) :
    Only OfRead (RemoteFs.read cfg ino offset size) := by
  have hrpc : ∀ path : PathBuf, Only OfRead (rpc (readRequest path offset size)) :=
    fun path => only_rpc trivial
  have hfill : ∀ path bytes, Only OfRead (fillCache cfg path offset bytes) := by
    intro path bytes
    refine (only_createParent (fun _ => trivial) _).bind fun _ => ?_
    refine Only.bind (only_perform.mpr trivial) fun len => ?_
    dsimp only
    split
    · refine Only.bind (only_perform.mpr trivial) fun stored => ?_
      cases stored with
      | true => exact only_perform.mpr trivial
      | false => exact only_pure _
    · exact only_pure _
  have hremote : ∀ path, Only OfRead (readRemote cfg path offset size) := by
    intro path
    refine (hrpc path).bind fun a => ?_
    cases a with
    | ok value =>
      dsimp only
      split
      · exact only_pure _
      · exact (hfill path _).bind fun _ => only_pure _
    | error e =>
      refine Only.bind (only_perform.mpr trivial) fun bytes => ?_
      cases bytes <;> exact only_pure _
  refine Only.bind (only_perform.mpr trivial) fun p => ?_
  cases p with
  | none => exact only_pure _
  | some path =>
    refine Only.bind (Only.bind (only_perform.mpr trivial) fun len => ?_) fun bytes => ?_
    · cases len with
      | none => exact only_pure _
      | some len =>
        dsimp only
        split
        · exact only_perform.mpr trivial
        · split <;> exact only_pure _
    · cases bytes with
      | some bytes => exact only_pure _
      | none => exact hremote path

/-- Every effect of a read is answered. -/
theorem exactSem_answers {e : Effect} (he : OfRead e) (s : Mount FileEnv) :
    ∃ a t, mountSem cfg (exactSem cfg path) e s a t := by
  cases e with
  | pathFor ino => exact ⟨s.inodes.path ino, s, rfl, rfl⟩
  | kickPrefetch p => exact ⟨(), _, rfl⟩
  | call req =>
    cases req with
    | readFile p offset limit =>
      obtain ⟨a, ha⟩ :=
        exists_readsExactly s.env.remote (offset.getD 0) (limit.getD (1024 * 1024))
      exact ⟨a, _, s.env, ⟨rfl, fun _ => ha⟩, rfl⟩
    | _ => exact absurd he id
  | createDirAll p => exact ⟨(), _, s.env, rfl, rfl⟩
  | fileLen p => exact ⟨s.env.cache.map List.length, _, s.env, ⟨rfl, fun _ => rfl⟩, rfl⟩
  | readAt p offset len =>
    exact ⟨s.env.cache.map fun file => (file.drop offset).take len, _, s.env,
      ⟨rfl, fun _ => rfl⟩, rfl⟩
  | writeAt p offset data =>
    by_cases hp : p = cfg.cachePath path
    · refine ⟨s.env.disk.accepts data.length, _, s.env.put offset data, ?_, rfl⟩
      simp only [exactSem, fileSem, if_pos hp]
      exact ⟨rfl, trivial⟩
    · refine ⟨true, _, s.env, ?_, rfl⟩
      simp only [exactSem, fileSem, if_neg hp]
  | _ => exact absurd he id

/-- The reply where the target is asked. -/
theorem remoteReply_exact {remote : List UInt8} {cache : Option (List UInt8)}
    {answer : Except RpcError Json} (hsize : size ≤ maxDirectFileBytes)
    (h : ReadsExactly remote offset (max size (1024 * 1024)) answer) :
    remoteReply cache offset size answer = .data ((remote.drop offset).take size) := by
  have hmax : 1024 * 1024 ≤ maxDirectFileBytes := by decide
  rw [ReadsExactly, if_neg (Nat.not_lt.mpr (max_le hsize hmax))] at h
  rw [h, remoteReply]
  simp only [ReadFileResult.ofJson_toJson, Option.bind_some, Base64.decode_encode,
    List.take_take, Nat.min_eq_left (le_max_left size (1024 * 1024))]

/-- **What a read replies**, with the cache file a prefix of the file: it is answered, and every
    reply is the whole of what was asked for exactly where the frontier is clear of the request. -/
theorem read_exact_iff (hknown : s.inodes.path ino = some path)
    (hpre : ∀ file, s.env.cache = some file → file <+: s.env.remote)
    (hsize : size ≤ 8 * 1024 * 1024) :
    (∃ reply t, Exec (mountSem cfg (exactSem cfg path)) (RemoteFs.read cfg ino offset size) s
      reply t) ∧
    ∀ reply t, Exec (mountSem cfg (exactSem cfg path)) (RemoteFs.read cfg ino offset size) s
        reply t →
      (ReadsWhole s.env.remote offset size reply ↔
        FrontierClear s.env.cache s.env.remote offset size) := by
  refine ⟨exec_of_only (fun e s he => exactSem_answers he s) (only_read cfg ino offset size) s,
    fun reply t hx => ?_⟩
  rcases exec_read (exactSem_readsAs cfg path) hknown hx with
    ⟨bytes, hcached, rfl⟩ | ⟨hmiss, u, answer, v, hview, hcall, rfl⟩
  · exact cachedReply_whole_iff hpre hcached
  · obtain rfl : u = s.env := hview
    refine iff_of_true ?_ (frontierClear_of_miss hmiss)
    have hreply : remoteReply (id s.env).cache offset size answer = _ :=
      remoteReply_exact hsize (hcall.2 rfl)
    rw [hreply]
    exact readsWhole_iff.mpr rfl

end Reads

/-- Two of three bytes are cached, and read. -/
theorem read_exact_cached :
    ReadsWhole notesRemote 0 2 (.data [1, 2]) := by
  have hpre : ∀ file, (notesState (some [1, 2]) emptyQueue).env.cache = some file →
      file <+: (notesState (some [1, 2]) emptyQueue).env.remote := by
    intro file hfile
    cases hfile
    exact ⟨[3], rfl⟩
  have hx : Exec (mountSem notesMount (exactSem notesMount notesPath))
      (RemoteFs.read notesMount 2 0 2) (notesState (some [1, 2]) emptyQueue) (.data [1, 2])
      (notesState (some [1, 2]) emptyQueue) := by
    refine .ask (a := some notesPath) ⟨notes_known.symm, rfl⟩ ?_
    refine .ask (a := some 2) ⟨_, ⟨rfl, fun _ => rfl⟩, rfl⟩ ?_
    refine .ask (a := some [1, 2]) ⟨_, ⟨rfl, fun _ => rfl⟩, rfl⟩ ?_
    exact .done _ _
  refine ((read_exact_iff notes_known hpre (by decide)).2 _ _ hx).mpr ⟨?_, ?_⟩
  · intro file hfile _
    cases hfile
    decide
  · intro hempty
    cases hempty

/-- **A read across the frontier.** One byte of three is cached, and all are asked for: the reply is
    the one byte, which the kernel takes for the end of the file. -/
theorem read_stops_at_frontier :
    Exec (mountSem notesMount (exactSem notesMount notesPath)) (RemoteFs.read notesMount 2 0 3)
      (notesState (some [1]) emptyQueue) (.data [1]) (notesState (some [1]) emptyQueue) ∧
    [1] <+: notesRemote ∧ ¬ ReadsWhole notesRemote 0 3 (.data [1]) := by
  refine ⟨?_, ⟨[2, 3], rfl⟩, fun h => ?_⟩
  · refine .ask (a := some notesPath) ⟨notes_known.symm, rfl⟩ ?_
    refine .ask (a := some 1) ⟨_, ⟨rfl, fun _ => rfl⟩, rfl⟩ ?_
    refine .ask (a := some [1]) ⟨_, ⟨rfl, fun _ => rfl⟩, rfl⟩ ?_
    exact .done _ _
  · exact absurd (h.short [1] rfl (by decide)) (by decide)

end Relayfs

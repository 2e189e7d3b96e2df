/-
  File:      Relayfs/Fuse/StaleReads.lean
  Subject:   A FILE THAT OTHERS CHANGE on the target while it is mounted: does a read return what
             the file holds at that moment?

  What is cached is served without a look at the target, and nothing takes it out of the cache: the
  mirror fetches a file again where its size is another.

  * `LiveFile`, `liveSem` -- the target's file, the cache file, the temporary files of downloads;
  * `LiveStep` -- requests, each to its end; the background tasks, effect by effect; and others, who
    change the target's file at any time;
  * `Delivers` -- what a READ_FILE delivers (`delivers_iff_readsFile`);
  * `ReadFresh` -- the condition: the cache file has no byte at the offset, or has what the target's
    file has from there on;
  * `reads_current_iff` -- the read of every run; `cached_read_is_stale` -- one from a stale cache.
-/
import Relayfs.Fuse.Inodes
import Relayfs.Fuse.ReadExact
import Relayfs.Fuse.Reading

namespace Relayfs

open Lib Background RemoteFs Prog

/-! ## 1. The file -/

/-- **The file on both sides**, and the temporary files of the downloads. -/
structure LiveFile where
  file : FileEnv
  temps : TempFile → Option (List UInt8)

namespace LiveFile

/-- Another file in the place of the cache file. -/
def install (s : LiveFile) (cache : Option (List UInt8)) : LiveFile :=
  { s with file := { s.file with cache := cache } }

/-- A temporary file is made, changed or removed. -/
def setTemp (s : LiveFile) (t : TempFile) (bytes : Option (List UInt8)) : LiveFile :=
  { s with temps := Function.update s.temps t bytes }

end LiveFile

/-- **The meaning of the effects for the file.** A listing says anything of the sizes; a file that
    is made or installed may fail to be. -/
def liveSem (cfg : MountCfg) (path : PathBuf) : EnvSem LiveFile
  | .call (.listDir _), s, _, t | .randomTag, s, _, t | .readLink _, s, _, t
  | .readDir _, s, _, t | .addRow _, s, _, t => t = s
  | .createFile p, s, _, t => t = s ∨ (p = cfg.cachePath path ∧ t = s.install (some []))
  | .createTemp x, s, _, t => t = s ∨ t = s.setTemp x (some [])
  | .writeTemp x offset data, s, a, t =>
      ∃ k ≤ data.length, (a = true → k = data.length) ∧
        t = s.setTemp x (some (writeAt ((s.temps x).getD []) offset (data.take k)))
  | .removeTemp x, s, _, t => t = s.setTemp x none
  | .installTemp x, s, a, t =>
      (a = false ∧ t = s) ∨
        (a = true ∧
          t = (if x.target = cfg.cachePath path then s.install (s.temps x) else s).setTemp x none)
  | e, s, a, t => fileSem cfg path e s.file a t.file ∧ t.temps = s.temps

theorem liveSem_readsAs (cfg : MountCfg) (path : PathBuf) :
    ReadsAs cfg path LiveFile.file (liveSem cfg path) := by
  intro e he u a v h
  cases e with
  | call req =>
    cases req with
    | readFile p offset limit => exact h.1
    | _ => exact absurd he id
  | createDirAll | fileLen | readAt | writeAt => exact h.1
  | _ => exact absurd he id

/-! ## 2. Runs -/

/-- **A mount**, and its background tasks under way. -/
structure LiveMount where
  mount : Mount LiveFile
  tasks : List (FsProg Unit)

namespace LiveMount

/-- The target's file. -/
def remote (s : LiveMount) : List UInt8 := s.mount.env.file.remote

/-- The cache file. -/
def cache (s : LiveMount) : Option (List UInt8) := s.mount.env.file.cache

/-- The file on both sides is another. -/
def withFile (s : LiveMount) (file : FileEnv) : LiveMount :=
  { s with mount := { s.mount with env := { s.mount.env with file := file } } }

end LiveMount

inductive LiveEvent where
  | request (r : KernelRequest) (reply : Reply)
  | changed (remote : List UInt8)
  | disk (d : CacheDisk)
  | flush
  | prefetch (p : PathBuf)
  | effect
  deriving DecidableEq, Repr

/-- **One step**: a request that reads, or is about the file, runs to its end; others change the
    target's file; a prefetch begins that was kicked; a background task performs an effect. -/
inductive LiveStep (cfg : MountCfg) (path : PathBuf) (ino : Nat) :
    LiveMount → LiveEvent → LiveMount → Prop where
  | request {s : LiveMount} {t : Mount LiveFile} {r : KernelRequest} {reply : Reply}
      (hr : r.Reads ∨ r.OfFile ino)
      (hx : Exec (mountSem cfg (liveSem cfg path)) (RemoteFs.handle cfg r) s.mount
        reply t) :
      LiveStep cfg path ino s (.request r reply) { s with mount := t }
  | changed {s : LiveMount} (remote : List UInt8) :
      LiveStep cfg path ino s (.changed remote)
        (s.withFile { s.mount.env.file with remote := remote })
  | disk {s : LiveMount} (d : CacheDisk) :
      LiveStep cfg path ino s (.disk d) (s.withFile { s.mount.env.file with disk := d })
  | flush {s : LiveMount} {t : Mount LiveFile}
      (hs : FlusherStep cfg (liveSem cfg path) s.mount t) :
      LiveStep cfg path ino s .flush { s with mount := t }
  | prefetch {s : LiveMount} {p : PathBuf} (hk : p ∈ s.mount.kicked) :
      LiveStep cfg path ino s (.prefetch p)
        ⟨{ s.mount with kicked := s.mount.kicked.erase p }, prefetchTask cfg p :: s.tasks⟩
  | effect {s : LiveMount} {pre post : List (FsProg Unit)} {e : Effect}
      {k : Answer e → FsProg Unit} {a : Answer e} {t : Mount LiveFile}
      (htasks : s.tasks = pre ++ .ask e k :: post)
      (hx : stepSem (liveSem cfg path) e s.mount a t) :
      LiveStep cfg path ino s .effect ⟨t, pre ++ k a :: post⟩

/-- A mount that knows the file, with nothing queued, and the mirror about to begin. The cache file
    is what earlier mounts have left. -/
structure LiveInit (cfg : MountCfg) (path : PathBuf) (ino : Nat) (s : LiveMount) : Prop where
  inodes : s.mount.inodes.Wf
  known : s.mount.inodes.path ino = some path
  queue : QueueInit s.mount.uploads
  kicked : s.mount.kicked = []
  tasks : ∃ turns, s.tasks = [backgroundSync turns [⟨cfg.remoteDir.text, cfg.cacheDir⟩]]

abbrev LiveRun (cfg : MountCfg) (path : PathBuf) (ino : Nat) (hist : List (LiveMount × LiveEvent))
    (s : LiveMount) : Prop :=
  Run (LiveInit cfg path ino) (LiveStep cfg path ino) hist s

/-- The mount keeps the number of the file. -/
def Knows (path : PathBuf) (ino : Nat) (s : LiveMount) : Prop :=
  s.mount.inodes.Wf ∧ s.mount.inodes.path ino = some path

section Runs

variable {cfg : MountCfg} {path : PathBuf} {ino : Nat} {s t : LiveMount} {e : LiveEvent}

theorem Knows.grows (h : Knows path ino s) {m : InodeMap} (hm : s.mount.inodes.Grows m)
    (ht : t.mount.inodes = m) : Knows path ino t := by
  obtain ⟨hwf, hpath⟩ := hm h.1
  rw [← ht] at hwf hpath
  exact ⟨hwf, hpath ino path h.2⟩

theorem Knows.step (h : Knows path ino s) (hs : LiveStep cfg path ino s e t) :
    Knows path ino t := by
  cases hs with
  | request hr hx => exact h.grows (exec_grows hx) rfl
  | changed | disk | prefetch => exact h
  | flush hs => exact h.grows (flushes_grows (.step (.refl _) hs)) rfl
  | effect htasks hx => exact h.grows (step_grows hx) rfl

theorem LiveRun.knows {hist : List (LiveMount × LiveEvent)} (h : LiveRun cfg path ino hist s) :
    Knows path ino s :=
  h.invariant (fun _ h0 => ⟨h0.inodes, h0.known⟩) fun _ _ _ hi hs => hi.step hs

end Runs

/-! ## 3. What a READ_FILE delivers -/

/-- **The reply is what a READ_FILE for the offset delivers**: bytes of the file from there on, all
    that were asked for unless there are fewer, or more than one read returns. -/
def Delivers (remote : List UInt8) (offset size : Nat) (reply : Reply) : Prop :=
  ∃ n, min size readBufferBytes ≤ n ∧ n ≤ size ∧ reply = .data ((remote.drop offset).take n)

/-- It is what the agent may answer to it. -/
theorem delivers_iff_readsFile {remote bytes : List UInt8} {offset size : Nat}
    (hsize : size ≤ maxDirectFileBytes) :
    Delivers remote offset size (.data bytes) ↔
      ∃ eof, ReadsFile remote offset size
        (.ok (ReadFileResult.toJson ⟨Base64.encode bytes, eof⟩)) := by
  unfold ReadsFile
  simp only [if_neg (Nat.not_lt.mpr hsize)]
  constructor
  · intro h
    obtain ⟨n, hn, hn', heq⟩ := h
    obtain rfl := Reply.data.inj heq
    exact ⟨_, n, hn, hn', rfl⟩
  · intro h
    obtain ⟨eof, n, hn, hn', heq⟩ := h
    have hjson := congrArg ReadFileResult.ofJson (Except.ok.inj heq)
    rw [ReadFileResult.ofJson_toJson, ReadFileResult.ofJson_toJson] at hjson
    have hdata := congrArg (fun r => Base64.decode r.data) (Option.some.inj hjson)
    dsimp only at hdata
    rw [Base64.decode_encode, Base64.decode_encode] at hdata
    exact ⟨n, hn, hn', congrArg Reply.data (Option.some.inj hdata)⟩

/-- A read at this offset is served from the cache file. -/
def Hits (file : List UInt8) (offset : Nat) : Prop :=
  offset < file.length ∨ (file = [] ∧ offset = 0)

/-- **The cache file is current** where a read would be served from it: from the offset on it has
    the bytes of the target's file, and it ends before the request does only where that file ends,
    or where it has more than one read returns. -/
structure CacheCurrent (file remote : List UInt8) (offset size : Nat) : Prop where
  same : ∀ i, offset ≤ i → i < offset + size → i < file.length →
    i < remote.length ∧ byteAt file i = byteAt remote i
  whole : file.length < offset + min size readBufferBytes → remote.length ≤ file.length

/-- **The condition**: what is cached at the offset is current; where nothing is, the size is one
    that the target takes, or there is nothing to read. -/
structure ReadFresh (cache : Option (List UInt8)) (remote : List UInt8) (offset size : Nat) :
    Prop where
  hit : ∀ file, cache = some file → Hits file offset → CacheCurrent file remote offset size
  miss : (∀ file, cache = some file → ¬ Hits file offset) →
    size ≤ maxDirectFileBytes ∨ (cache ≠ none ∧ remote.length ≤ offset)

section Replies

variable {file remote : List UInt8} {cache : Option (List UInt8)} {offset size : Nat}

theorem Hits.le (h : Hits file offset) : offset ≤ file.length := by
  rcases h with hlt | ⟨-, rfl⟩
  · exact Nat.le_of_lt hlt
  · exact Nat.zero_le _

theorem cachedReply_of_hits (h : Hits file offset) :
    cachedReply (some file) offset size =
      some ((file.drop offset).take (min size (file.length - offset))) := by
  rw [cachedReply, Option.bind_some]
  rcases h with hlt | ⟨rfl, rfl⟩
  · rw [if_pos ⟨Nat.zero_lt_of_lt hlt, hlt⟩]
  · rw [if_neg fun hc => Nat.lt_irrefl 0 hc.1, if_pos ⟨rfl, rfl⟩, List.drop_zero,
      List.take_nil]

theorem hits_of_cachedReply {bytes : List UInt8} (h : cachedReply cache offset size = some bytes) :
    ∃ file, cache = some file ∧ Hits file offset := by
  obtain ⟨file, rfl, hfile⟩ := Option.bind_eq_some_iff.mp h
  refine ⟨file, rfl, ?_⟩
  split at hfile
  · rename_i hin
    exact .inl hin.2
  · split at hfile
    · rename_i hempty
      exact .inr ⟨List.length_eq_zero_iff.mp hempty.1, hempty.2⟩
    · cases hfile

/-- **A reply of the cache file** is what a READ_FILE delivers exactly if the file is current. -/
theorem cached_delivers_iff (h : offset ≤ file.length) :
    Delivers remote offset size
        (.data ((file.drop offset).take (min size (file.length - offset)))) ↔
      CacheCurrent file remote offset size := by
  constructor
  · intro h'
    obtain ⟨n, hn, hn', heq⟩ := h'
    have heq := Reply.data.inj heq
    have hlen := congrArg List.length heq
    simp only [List.length_take, List.length_drop] at hlen
    constructor
    · intro i hstart hstop hin
      refine ⟨by omega, ?_⟩
      have hbyte := congrArg (byteAt · (i - offset)) heq
      rwa [byteAt_take, if_pos (by omega), byteAt_take, if_pos (by omega), byteAt_drop,
        byteAt_drop, Nat.add_sub_cancel' hstart] at hbyte
    · intro hend
      omega
  · intro hcurrent
    -- where bytes are served, the target's file reaches as far
    have hreach : 0 < min size (file.length - offset) →
        offset + min size (file.length - offset) ≤ remote.length := by
      intro hpos
      have hlast := (hcurrent.same (offset + min size (file.length - offset) - 1) (by omega)
        (by omega) (by omega)).1
      omega
    have hwhole := hcurrent.whole
    obtain ⟨n, hn, hn', hlen⟩ : ∃ n, min size readBufferBytes ≤ n ∧ n ≤ size ∧
        min size (file.length - offset) = min n (remote.length - offset) := by
      by_cases hall : remote.length ≤ offset + min size (file.length - offset)
      · exact ⟨size, min_le_left _ _, le_rfl, by omega⟩
      · exact ⟨min size (file.length - offset), by omega, min_le_left _ _, by omega⟩
    refine ⟨n, hn, hn', congrArg Reply.data (eq_of_byteAt ?_ fun i hi => ?_)⟩
    · simp only [List.length_take, List.length_drop]
      omega
    · simp only [List.length_take, List.length_drop] at hi
      have hbyte := (hcurrent.same (offset + i) (by omega) (by omega) (by omega)).2
      rw [byteAt_take, if_pos (by omega), byteAt_take, if_pos (by omega), byteAt_drop,
        byteAt_drop, hbyte]

/-- **A reply after a READ_FILE** delivers what that does, unless it was refused for its size. -/
theorem remote_delivers_iff {answer : Except RpcError Json}
    (hmiss : ∀ file, cache = some file → ¬ Hits file offset)
    (hread : ReadsFile remote offset (max size (1024 * 1024)) answer) :
    Delivers remote offset size (remoteReply cache offset size answer) ↔
      size ≤ maxDirectFileBytes ∨ (cache ≠ none ∧ remote.length ≤ offset) := by
  have hmib : 1024 * 1024 ≤ readBufferBytes := by decide
  have hmax : readBufferBytes ≤ maxDirectFileBytes := by decide
  unfold ReadsFile at hread
  split at hread
  · rename_i hlimit
    obtain ⟨e, rfl⟩ := hread
    have hsize : ¬ size ≤ maxDirectFileBytes := by omega
    rw [or_iff_right hsize, remoteReply.eq_def]
    dsimp only
    cases hcache : cache with
    | none =>
      refine iff_of_false ?_ fun hc => hc.1 rfl
      intro h
      obtain ⟨n, -, -, heq⟩ := h
      cases heq
    | some file =>
      have hend : file.length ≤ offset := Nat.not_lt.mp fun hlt => hmiss file hcache (.inl hlt)
      dsimp only
      rw [List.drop_eq_nil_of_le hend, List.take_nil]
      constructor
      · intro h
        obtain ⟨n, hn, hn', heq⟩ := h
        refine ⟨fun hc => (by cases hc), ?_⟩
        have hlen := congrArg List.length (Reply.data.inj heq)
        simp only [List.length_nil, List.length_take, List.length_drop] at hlen
        omega
      · intro h
        obtain ⟨-, hnone⟩ := h
        refine ⟨size, min_le_left _ _, le_rfl, ?_⟩
        rw [List.drop_eq_nil_of_le hnone, List.take_nil]
  · obtain ⟨n, hn, hn', rfl⟩ := hread
    refine iff_of_true ⟨min size n, by omega, min_le_left _ _, ?_⟩ (.inl (by omega))
    rw [remoteReply]
    simp only [ReadFileResult.ofJson_toJson, Option.bind_some, Base64.decode_encode,
      List.take_take]

end Replies

/-! ## 4. Reads -/

/-- **One read**, of a mount that knows the file. -/
theorem read_delivers_iff {cfg : MountCfg} {path : PathBuf} {ino offset size : Nat}
    {s t : Mount LiveFile} {reply : Reply} (hknown : s.inodes.path ino = some path)
    (hx : Exec (mountSem cfg (liveSem cfg path)) (RemoteFs.read cfg ino offset size) s reply t) :
    Delivers s.env.file.remote offset size reply ↔
      ReadFresh s.env.file.cache s.env.file.remote offset size := by
  rcases exec_read (liveSem_readsAs cfg path) hknown hx with
    ⟨bytes, hcached, rfl⟩ | ⟨hnone, u, answer, v, hview, hcall, rfl⟩
  · obtain ⟨file, hfile, hhits⟩ := hits_of_cachedReply hcached
    rw [hfile, cachedReply_of_hits hhits] at hcached
    obtain rfl := Option.some.inj hcached
    rw [cached_delivers_iff hhits.le]
    constructor
    · refine fun hcurrent => ⟨fun f hf _ => ?_, fun hmiss => absurd hhits (hmiss file hfile)⟩
      obtain rfl := Option.some.inj (hfile.symm.trans hf)
      exact hcurrent
    · exact fun hfresh => hfresh.hit file hfile hhits
  · have hmiss : ∀ file, s.env.file.cache = some file → ¬ Hits file offset := by
      intro file hfile hhits
      rw [hfile, cachedReply_of_hits hhits] at hnone
      cases hnone
    have hread := ((liveSem_readsAs cfg path).readFile hcall).2
    rw [hview] at hread
    rw [remote_delivers_iff hmiss hread]
    constructor
    · exact fun hsize => ⟨fun f hf hhits => absurd hhits (hmiss f hf), fun _ => hsize⟩
    · exact fun hfresh => hfresh.miss hmiss

/-- **The reads of every run.** With nothing of the file pending, a read replies what a READ_FILE
    for its offset delivers of the file as it is at that moment, exactly where the cache is fresh
    for it. -/
theorem reads_current_iff {cfg : MountCfg} {path : PathBuf} {ino : Nat}
    {hist : List (LiveMount × LiveEvent)} {s : LiveMount} (h : LiveRun cfg path ino hist s) :
    ∀ x ∈ hist, ∀ offset size reply, x.2 = .request (.read ino offset size) reply →
      (∀ i, ¬ x.1.mount.uploads.Pending path i) →
      (Delivers x.1.remote offset size reply ↔
        ReadFresh x.1.cache x.1.remote offset size) := by
  intro x hx offset size reply hread _
  obtain ⟨later, earlier, rfl⟩ := List.append_of_mem hx
  obtain ⟨u, e⟩ := x
  obtain rfl : e = _ := hread
  obtain ⟨hbefore, v, hs, -⟩ := h.split
  cases hs with
  | request hr hexec => exact read_delivers_iff (LiveRun.knows hbefore).2 hexec

/-! ## 5. A current cache, and a stale one -/

/-- The mount of a file of three bytes, with a cache file that an earlier mount has left. -/
def notesLive (cache remote : List UInt8) : LiveMount where
  mount := ⟨notesInodes, emptyQueue, [], [], [], [],
    ⟨⟨some cache, remote, .good⟩, fun _ => none⟩⟩
  tasks := [backgroundSync 0 [⟨notesMount.remoteDir.text, notesMount.cacheDir⟩]]

theorem notesLive_init (cache remote : List UInt8) :
    LiveInit notesMount notesPath 2 (notesLive cache remote) where
  inodes := ((InodeMap.inoFor_grows notesPath) (InodeMap.wf_new notesMount.remoteDir)).1
  known := notes_known
  queue := ⟨0, rfl⟩
  kicked := rfl
  tasks := ⟨0, rfl⟩

/-- A read of the cache file. -/
theorem notesLive_read (b₁ b₂ b₃ : UInt8) (remote : List UInt8) :
    LiveStep notesMount notesPath 2 (notesLive [b₁, b₂, b₃] remote)
      (.request (.read 2 0 3) (.data [b₁, b₂, b₃])) (notesLive [b₁, b₂, b₃] remote) := by
  refine .request (.inr rfl) ?_
  refine .ask (a := some notesPath) ⟨notes_known.symm, rfl⟩ ?_
  refine .ask (a := some 3) ⟨_, ⟨⟨rfl, fun _ => rfl⟩, rfl⟩, rfl⟩ ?_
  refine .ask (a := some [b₁, b₂, b₃]) ⟨_, ⟨⟨rfl, fun _ => rfl⟩, rfl⟩, rfl⟩ ?_
  exact .done _ _

/-- The cache file is current, and read. -/
theorem reads_current_cached : Delivers [1, 2, 3] 0 3 (.data [1, 2, 3]) := by
  have hrun : LiveRun notesMount notesPath 2 _ _ :=
    .step (.start (notesLive_init [1, 2, 3] [1, 2, 3])) (notesLive_read 1 2 3 [1, 2, 3])
  refine (reads_current_iff hrun _ List.mem_cons_self 0 3 _ rfl ?_).mpr ⟨?_, ?_⟩
  · exact QueueInit.not_pending ⟨0, rfl⟩ notesPath
  · intro file hfile _
    cases hfile
    exact ⟨fun i _ _ hi => ⟨hi, rfl⟩, fun _ => le_rfl⟩
  · exact fun _ => .inl (by decide)

/-- **A stale cache.** Another process changes the three bytes of the file, which are cached: a read
    returns what the file was. -/
theorem cached_read_is_stale :
    LiveRun notesMount notesPath 2
      [(notesLive [1, 2, 3] [4, 5, 6], .request (.read 2 0 3) (.data [1, 2, 3])),
        (notesLive [1, 2, 3] [1, 2, 3], .changed [4, 5, 6])]
      (notesLive [1, 2, 3] [4, 5, 6]) ∧
    (∀ i, ¬ (notesLive [1, 2, 3] [4, 5, 6]).mount.uploads.Pending notesPath i) ∧
    ¬ Delivers [4, 5, 6] 0 3 (.data [1, 2, 3]) := by
  refine ⟨?_, QueueInit.not_pending ⟨0, rfl⟩ notesPath, ?_⟩
  · exact .step (.step (.start (notesLive_init [1, 2, 3] [1, 2, 3])) (.changed [4, 5, 6]))
      (notesLive_read 1 2 3 [4, 5, 6])
  · intro h
    obtain ⟨n, hn, hn', heq⟩ := h
    obtain rfl : n = 3 := by
      have hbuffer : 3 ≤ readBufferBytes := by decide
      omega
    exact absurd (Reply.data.inj heq) (by decide)

end Relayfs

/-
  File:      Relayfs/Fuse/PlainFile.lean
  Subject:   AN OPEN FILE OF A WRITABLE MOUNT IS A PLAIN FILE: cache file, queue and target together
             answer its requests as one list of bytes does (bridge/src/fuse_fs.rs).

  * `PlainStep` -- the specification: a list of bytes, the requests and what may be replied. A read
    may be shorter than what was asked for, and never says a wrong byte;
  * `plainHistory` -- the requests and replies of a run of the mount, with the content before each;
  * `open_file_refines` -- runs whose steps leave no hole in the cache file are runs of it.
-/
import Relayfs.Fuse.Durable

namespace Relayfs

open Lib Background RemoteFs Prog

/-! ## 1. The specification -/

/-- The bytes of a reply, against those of the file from the offset on. -/
structure Excerpt (content : List UInt8) (offset size : Nat) (bytes : List UInt8) : Prop where
  fits : bytes.length ≤ size
  same : ∀ j < bytes.length, byteAt bytes j = byteAt content (offset + j)

/-- **A plain file**: what it holds before and after a request, and the reply. Only a read of more
    than the target returns at once may fail; a new size and a flush may. -/
inductive PlainStep : List UInt8 → KernelRequest × Reply → List UInt8 → Prop where
  | read {c bytes : List UInt8} {ino offset size : Nat} (h : Excerpt c offset size bytes) :
      PlainStep c (.read ino offset size, .data bytes) c
  | readFails {c : List UInt8} {ino offset size : Nat} {e : Errno} (h : maxDirectFileBytes < size) :
      PlainStep c (.read ino offset size, .error e) c
  | write {c data : List UInt8} {ino offset : Nat} :
      PlainStep c (.write ino offset data, .written data.length) (writeAt c offset data)
  | resize {c : List UInt8} {ino size : Nat} {mode : Option Nat} {attr : FileAttr}
      (h : attr.size = size) :
      PlainStep c (.setattr ino mode (some size), .attr attr) (resize c size)
  | resizeFails {c : List UInt8} {ino size : Nat} {mode : Option Nat} :
      PlainStep c (.setattr ino mode (some size), .error .eio) c
  | chmod {c : List UInt8} {ino : Nat} {mode : Option Nat} {attr : FileAttr}
      (h : attr.size ≤ c.length) : PlainStep c (.setattr ino mode none, .attr attr) c
  | getattr {c : List UInt8} {ino : Nat} {attr : FileAttr} (h : attr.size ≤ c.length) :
      PlainStep c (.getattr ino, .attr attr) c
  | flush {c : List UInt8} {ino : Nat} {reply : Reply} (h : reply = .ok ∨ reply = .error .eio) :
      PlainStep c (.flush ino, reply) c
  | fsync {c : List UInt8} {ino : Nat} {reply : Reply} (h : reply = .ok ∨ reply = .error .eio) :
      PlainStep c (.fsync ino, reply) c
  | release {c : List UInt8} {ino : Nat} : PlainStep c (.release ino, .ok) c

/-- The requests of a run of the mount, newest first. -/
def plainHistory (hist : List (MountedFile × OpenEvent)) :
    List (List UInt8 × (KernelRequest × Reply)) :=
  hist.filterMap fun x =>
    match x.2 with
    | .request r reply => some (x.1.content, (r, reply))
    | _ => none

/-- The event without its reply. -/
def OpenEvent.unanswered : OpenEvent → FileEvent
  | .request r _ => .request r
  | .background e => .background e
  | .disk d => .disk d

/-! ## 2. What is served -/

section Steps

variable {cfg : MountCfg} {path : PathBuf} {ino : Nat} {content : List UInt8} {s t : Mount FileEnv}

theorem fileSem_readsAs (cfg : MountCfg) (path : PathBuf) :
    ReadsAs cfg path id (fileSem cfg path) :=
  fun _ _ _ _ _ h => h

/-- A part of bytes that are those of the content from somewhere on. -/
theorem Excerpt.of_take {file : List UInt8} {offset size n : Nat} (hn : n ≤ size)
    (h : ∀ j < n, offset + j < file.length →
      byteAt file (offset + j) = byteAt content (offset + j)) :
    Excerpt content offset size ((file.drop offset).take n) where
  fits := by
    rw [List.length_take]
    omega
  same j hj := by
    rw [List.length_take, List.length_drop] at hj
    rw [byteAt_take, if_pos (by omega), byteAt_drop]
    exact h j (by omega) (by omega)

/-- The cache file answers with bytes of the content. -/
theorem Sound.cachedReply (h : Sound cfg path ino content s) {offset size : Nat}
    {bytes : List UInt8} (hb : Relayfs.cachedReply s.env.cache offset size = some bytes) :
    Excerpt content offset size bytes := by
  obtain ⟨file, hcache, hfile⟩ := Option.bind_eq_some_iff.mp hb
  have hcached : s.env.cached = file := by rw [FileEnv.cached, hcache]; rfl
  split at hfile
  · obtain rfl := Option.some.inj hfile
    refine .of_take (min_le_left _ _) fun j _ hj => ?_
    have hagree := h.agrees.cached (offset + j)
    rw [hcached] at hagree
    exact hagree hj
  · split at hfile
    · obtain rfl := Option.some.inj hfile
      exact ⟨Nat.zero_le _, fun j hj => absurd hj (Nat.not_lt_zero j)⟩
    · cases hfile

/-- Where it does not answer, the offset lies behind it. -/
theorem cached_le_of_miss {offset size : Nat}
    (hm : Relayfs.cachedReply s.env.cache offset size = none) : s.env.cached.length ≤ offset := by
  cases hcache : s.env.cache with
  | none =>
    rw [FileEnv.cached, hcache]
    exact Nat.zero_le _
  | some file =>
    rw [FileEnv.cached, hcache, Option.getD_some]
    by_contra hlt
    rw [hcache, Relayfs.cachedReply, Option.bind_some, if_pos (by omega)] at hm
    cases hm

/-- The target answers with bytes of the content from there on. -/
theorem Sound.remoteReply (h : Sound cfg path ino content s) {offset size : Nat}
    {answer : Except RpcError Json} (hoffset : s.env.cached.length ≤ offset)
    (ha : ReadsFile s.env.remote offset (max size (1024 * 1024)) answer) {reply : Reply}
    (hreply : reply = Relayfs.remoteReply s.env.cache offset size answer) :
    PlainStep content (.read ino offset size, reply) content := by
  unfold ReadsFile at ha
  split at ha
  · -- too much was asked for: the cache file has nothing there
    rename_i hlimit
    obtain ⟨e, rfl⟩ := ha
    have hsize : maxDirectFileBytes < size := by
      have hmax : 1024 * 1024 ≤ maxDirectFileBytes := by decide
      omega
    rw [Relayfs.remoteReply.eq_def] at hreply
    dsimp only at hreply
    split at hreply
    · rename_i file hcache
      rw [hreply]
      refine .read (.of_take le_rfl fun j _ hj => ?_)
      rw [FileEnv.cached, hcache, Option.getD_some] at hoffset
      omega
    · rw [hreply]
      exact .readFails hsize
  · obtain ⟨n, -, hn, rfl⟩ := ha
    simp only [Relayfs.remoteReply, ReadFileResult.ofJson_toJson, Option.bind_some,
      Base64.decode_encode] at hreply
    rw [hreply, List.take_take]
    refine .read (.of_take (min_le_left _ _) fun j _ _ => ?_)
    exact h.agrees.uncached _ (by omega)

/-- **What a read replies** is of the content. -/
theorem Sound.plainRead (h : Sound cfg path ino content s) {offset size : Nat} {reply : Reply}
    (hx : Exec (mountSem cfg (fileSem cfg path)) (RemoteFs.read cfg ino offset size) s reply t) :
    PlainStep content (.read ino offset size, reply) content := by
  rcases exec_read (fileSem_readsAs cfg path) h.known hx with
    ⟨bytes, hcached, rfl⟩ | ⟨hmiss, u, answer, v, hview, hcall, hreply⟩
  · exact .read (h.cachedReply hcached)
  · obtain rfl : u = s.env := hview
    obtain ⟨-, hread⟩ := hcall
    exact h.remoteReply (cached_le_of_miss hmiss) (hread rfl) hreply

end Steps

/-! ## 3. Runs -/

section Runs

variable {cfg : MountCfg} {path : PathBuf} {ino : Nat}

/-- A step that leaves no hole changes nothing in the queue by what the cache does not take. -/
theorem NoHole.tailClear {s : MountedFile} {e : OpenEvent} (hC : NoHole s e.unanswered)
    (h : Durable cfg path ino s.content s.mount) : TailClear path s e := by
  cases e with
  | request r reply =>
    cases r with
    | write i offset data =>
      intro x hx hstart hstop
      exact hC.2 x hstart hstop (h.behind.held x hx).1
    | _ => trivial
  | _ => trivial

/-- **One step** that leaves no hole: the cache file stays a prefix of the content. -/
theorem Sound.openStep {s t : MountedFile} {e : OpenEvent}
    (h : Sound cfg path ino s.content s.mount) (hC : NoHole s e.unanswered)
    (hs : OpenStep cfg path ino s e t) : Sound cfg path ino t.content t.mount := by
  have hdrain : ∀ {a : Except Errno Unit} {u : Mount FileEnv},
      Exec (mountSem cfg (fileSem cfg path)) (drainUploads [path]) s.mount a u →
        Sound cfg path ino s.content u :=
    fun hx => (h.quietExec (only_drainUploads trivial) hx).sound
  have hflush : ∀ {reply : Reply} {u : Mount FileEnv},
      Exec (mountSem cfg (fileSem cfg path)) (RemoteFs.flush ino) s.mount reply u →
        Sound cfg path ino s.content u := by
    intro reply u hx
    obtain ⟨drained, v, hwait, hx⟩ := exec_bind.mp (h.pathFor hx)
    cases drained <;>
    · obtain ⟨-, rfl⟩ := exec_pure.mp hx
      exact hdrain hwait
  cases hs with
  | request hr hx =>
    rename_i t r reply
    cases r with
    | flush i =>
      obtain rfl : i = ino := hr
      exact hflush hx
    | fsync i =>
      obtain rfl : i = ino := hr
      exact hflush hx
    | release i =>
      obtain rfl : i = ino := hr
      obtain ⟨_, v, hwait, hx⟩ := exec_bind.mp (h.pathFor hx)
      obtain ⟨-, rfl⟩ := exec_pure.mp hx
      exact hdrain hwait
    | getattr i =>
      obtain rfl : i = ino := hr
      exact (h.replyAttr (h.pathFor hx)).2.sound
    | _ => exact h.step hC (.request hr hx)
  | background he hs => exact h.step hC (.background he hs)
  | disk d => exact h.step hC (.disk d)

/-- **A request of the mount is a step of the plain file.** -/
theorem PlainStep.of_open {s t : MountedFile} {r : KernelRequest} {reply : Reply}
    (h : Sound cfg path ino s.content s.mount) (hd : Durable cfg path ino s.content s.mount)
    (hC : NoHole s (.request r)) (hs : OpenStep cfg path ino s (.request r reply) t) :
    PlainStep s.content (r, reply) t.content := by
  cases hs with
  | request hr hx =>
    cases r with
    | read i offset size =>
      obtain rfl : i = ino := hr
      exact h.plainRead hx
    | write i offset data =>
      obtain ⟨rfl, hlen⟩ := hr
      have hclear : TailClear path s (.request (.write i offset data) reply) :=
        NoHole.tailClear hC hd
      obtain ⟨rfl, -⟩ := hd.write hlen hclear hx
      exact .write
    | setattr i mode size =>
      obtain rfl : i = ino := hr
      obtain ⟨ht, ⟨hne, rfl⟩ | ⟨attr, rfl, hattr, hnone⟩⟩ := hd.setattr hx
      · cases size with
        | none => exact absurd rfl hne
        | some size =>
          rw [KernelRequest.content, if_pos rfl]
          exact .resizeFails
      · cases size with
        | none => exact .chmod (hattr ▸ ht.behind.shorter)
        | some size =>
          have hsettled := ht.behind.settled (hnone (Option.some_ne_none _))
          rw [hsettled, KernelRequest.content, if_neg (by simp), length_resize] at hattr
          rw [KernelRequest.content, if_neg (by simp)]
          exact .resize hattr
    | flush i =>
      obtain rfl : i = ino := hr
      exact .flush ((hd.flush hx).2.imp_left And.left)
    | fsync i =>
      obtain rfl : i = ino := hr
      exact .fsync ((hd.flush hx).2.imp_left And.left)
    | release i =>
      obtain rfl : i = ino := hr
      obtain ⟨_, u, -, hx⟩ := exec_bind.mp (h.pathFor hx)
      obtain ⟨rfl, -⟩ := exec_pure.mp hx
      exact .release
    | getattr i =>
      obtain rfl : i = ino := hr
      obtain ⟨⟨attr, rfl, hattr⟩, ht, -⟩ := hd.replyAttr (h.pathFor hx)
      exact .getattr (hattr ▸ ht.behind.shorter)
    | _ => exact absurd hr id

end Runs

end Relayfs

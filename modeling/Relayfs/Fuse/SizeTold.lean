/-
  File:      Relayfs/Fuse/SizeTold.lean
  Subject:   THE SIZE OF A WRITTEN FILE, as the mount tells it to the kernel: does it count the
             bytes whose writes have been acknowledged?

  The attributes are the target's; the bytes reach the target later. Of the target's file the
  environment keeps the size. The cache directory does anything.

  * `RemoteFile`, `sizeSem` -- the target's file, which only this mount changes;
  * `SizeStep` -- the steps of the mount, with the writes that are acknowledged;
  * `Accounted` -- a byte is in the target's file, or still in the queue, or the file did not
    take it (`Accounts.step`);
  * `size_covers_written` -- so no reply tells less than what was written, but for bytes that are
    in the queue or were not taken;
  * `size_lags_behind` -- a file that is written and looked at before the flusher has run.
-/
import Relayfs.Fuse.Inodes
import Relayfs.Fuse.Reading

namespace Relayfs

open Lib Background

/-! ## 1. The target's file -/

/-- What the target has under the name of the file. -/
inductive RemoteNode where
  | absent
  | file (size : Nat)
  /-- A directory, a link, a special file. -/
  | other
  deriving DecidableEq, Repr

/-- **The target's file.** `missed` are the bytes of which the last WRITE_AT did not reach it.
    `acked` is a ghost: the ends of the writes that were acknowledged since something else than a
    write was asked for under its name. -/
structure RemoteFile where
  node : RemoteNode
  missed : Nat → Bool
  acked : List Nat

/-- A name is a path, or lies below it. -/
def WithinName (name path : String) : Prop := path = name ∨ (path ++ "/").toList <+: name.toList

/-- The request truncates, creates, removes or renames what has the name. -/
def BridgeRequest.Replaces (name : String) : BridgeRequest → Prop
  | .truncate path _ | .writeFile path _ _ | .mkdir path _ | .symlink path _ => path = name
  | .remove path _ => WithinName name path
  | .rename source dest | .copy source dest _ => WithinName name source ∨ WithinName name dest
  | _ => False

namespace RemoteFile

/-- The agent's answer to STAT: the attributes of a file have its size. -/
def Stats (s : RemoteFile) (a : Except RpcError Json) : Prop :=
  match s.node with
  | .absent => ∃ e, a = .error e
  | .file size => ∃ v stat, a = .ok v ∧ StatResult.ofJson v = some stat ∧ stat.kind = .file ∧
      stat.size = size
  | .other => True

/-- What a WRITE_AT does, with the bytes that it carries. It makes no file; one that fails may
    have written some of its bytes. -/
def Writes (s : RemoteFile) (offset : Nat) (bytes : Option (List UInt8))
    (a : Except RpcError Json) (node : RemoteNode) : Prop :=
  match s.node with
  | .absent => node = .absent ∧ ∃ e, a = .error e
  | .other => node = .other
  | .file size => ∃ size', size ≤ size' ∧ node = .file size' ∧
      ∀ v, a = .ok v → ∃ data, bytes = some data ∧ (data ≠ [] → offset + data.length ≤ size')

/-- The file takes what it is sent. -/
def takes (s : RemoteFile) (a : Except RpcError Json) : Bool :=
  match s.node, a with
  | .file _, .ok _ => true
  | _, _ => false

/-- The bytes that the file has not, after a WRITE_AT. -/
def missedAfter (s : RemoteFile) (offset len : Nat) (a : Except RpcError Json) (x : Nat) : Bool :=
  if offset ≤ x ∧ x < offset + len then !s.takes a else s.missed x

/-- What the target does. -/
def Answers (name : String) (s : RemoteFile) :
    BridgeRequest → Except RpcError Json → RemoteFile → Prop
  | .stat path, a, t => t = s ∧ (path = name → s.Stats a)
  | .writeAt path offset data, a, t =>
      if path = name then
        ∃ node, s.Writes offset (Base64.decode data) a node ∧
          t = { s with
            node := node
            missed := s.missedAfter offset ((Base64.decode data).getD []).length a }
      else t = s
  | req, _, t =>
      (¬ req.Replaces name → t = s) ∧ (req.Replaces name → ∃ node, t = ⟨node, s.missed, []⟩)

end RemoteFile

/-- **The meaning of the effects for the target's file.** -/
def sizeSem (name : String) : EnvSem RemoteFile
  | .call req, s, a, t => s.Answers name req a t
  | _, s, _, t => t = s

/-! ## 2. Runs -/

inductive SizeEvent where
  | answered (r : KernelRequest) (reply : Reply)
  | task (e : MountEvent)
  deriving DecidableEq, Repr

/-- An inode is that of the file. -/
def IsFile (name : String) (path : Option PathBuf) : Prop := path.map (·.text) = some name

instance isFile_decidable (name : String) (path : Option PathBuf) : Decidable (IsFile name path) :=
  inferInstanceAs (Decidable (_ = _))

/-- The end of a write that a reply acknowledges. -/
def writtenTo (name : String) (m : InodeMap) : KernelRequest → Reply → List Nat
  | .write ino offset data, .written _ =>
      if IsFile name (m.path ino) ∧ data ≠ [] then [offset + data.length] else []
  | _, _ => []

/-- The size that a reply tells. -/
def sizeTold (name : String) (m : InodeMap) : SizeEvent → Option Nat
  | .answered (.getattr ino) (.attr attr) =>
      if IsFile name (m.path ino) then some attr.size else none
  | .answered (.lookup parent child) (.entry attr) =>
      if IsFile name (m.childPath parent child).2 then some attr.size else none
  | _ => none

/-- A write was acknowledged. -/
def Mount.acknowledge (s : Mount RemoteFile) (stops : List Nat) : Mount RemoteFile :=
  { s with env := { s.env with acked := stops ++ s.env.acked } }

/-- **One step**: a request runs to its end, or one of the background tasks runs. -/
inductive SizeStep (cfg : MountCfg) (name : String) :
    Mount RemoteFile → SizeEvent → Mount RemoteFile → Prop where
  | answered {s t : Mount RemoteFile} {r : KernelRequest} {reply : Reply}
      (hx : Prog.Exec (mountSem cfg (sizeSem name)) (RemoteFs.handle cfg r) s reply t) :
      SizeStep cfg name s (.answered r reply) (t.acknowledge (writtenTo name s.inodes r reply))
  | task {s t : Mount RemoteFile} {e : MountEvent} (he : ∀ r, e ≠ .request r)
      (hs : MountStep cfg (sizeSem name) s e t) : SizeStep cfg name s (.task e) t

def SizeInit (cfg : MountCfg) (s : Mount RemoteFile) : Prop := MountInit cfg s ∧ s.env.acked = []

abbrev SizeRun (cfg : MountCfg) (name : String) (hist : List (Mount RemoteFile × SizeEvent))
    (s : Mount RemoteFile) : Prop :=
  Run (SizeInit cfg) (SizeStep cfg name) hist s

/-- A byte of the file is dirty or in flight. -/
def Unsent (name : String) (s : Mount RemoteFile) (x : Nat) : Prop :=
  ∃ p, p.text = name ∧ s.uploads.Pending p x

/-! ## 3. The invariant -/

/-- A byte is in the target's file, or the file did not take it. -/
def RemoteFile.Settled (s : RemoteFile) (x : Nat) : Prop :=
  (∃ size, s.node = .file size ∧ x < size) ∨ s.missed x = true

/-- A byte is settled, or in the queue. -/
def Accounted (name : String) (s : Mount RemoteFile) (x : Nat) : Prop :=
  s.env.Settled x ∨ Unsent name s x

/-- **The invariant**: the last byte of each write that was acknowledged is accounted for. -/
structure Accounts (name : String) (s : Mount RemoteFile) : Prop where
  queue : CfgInv s.uploads
  acked : ∀ stop ∈ s.env.acked, 0 < stop ∧ Accounted name s (stop - 1)

/-- What is accounted for stays so. -/
structure Keeps (name : String) (s t : Mount RemoteFile) : Prop where
  queue : CfgInv t.uploads
  acked : t.env.acked = s.env.acked
  kept : ∀ x, Accounted name s x → Accounted name t x

section Steps

variable {cfg : MountCfg} {name : String} {s t u : Mount RemoteFile}

theorem Keeps.refl (h : CfgInv s.uploads) : Keeps name s s := ⟨h, rfl, fun _ hx => hx⟩

theorem Keeps.trans (h : Keeps name s t) (h' : Keeps name t u) : Keeps name s u :=
  ⟨h'.queue, h'.acked.trans h.acked, fun x hx => h'.kept x (h.kept x hx)⟩

theorem Accounts.keeps (h : Accounts name s) (hk : Keeps name s t) : Accounts name t := by
  refine ⟨hk.queue, fun stop hstop => ?_⟩
  rw [hk.acked] at hstop
  obtain ⟨hpos, hacc⟩ := h.acked stop hstop
  exact ⟨hpos, hk.kept _ hacc⟩

/-- The queue and the target's file are as they were. -/
theorem Keeps.of_eq (h : CfgInv s.uploads) (huploads : t.uploads = s.uploads)
    (henv : t.env = s.env) : Keeps name s t := by
  refine ⟨by rwa [huploads], by rw [henv], fun x hx => ?_⟩
  unfold Accounted Unsent at hx ⊢
  rwa [huploads, henv]

theorem Accounts.of_eq (h : Accounts name s) (huploads : t.uploads = s.uploads)
    (henv : t.env = s.env) : Accounts name t :=
  h.keeps (.of_eq h.queue huploads henv)

/-- A step of the queue. A piece that ends without a retry is settled. -/
theorem Keeps.queueStep (h : CfgInv s.uploads) {op : QueueOp PathBuf} (hok : s.uploads.permits op)
    (hend : ∀ p range outcome now x, op = .finish p range outcome now → outcome ≠ .retry →
      p.text = name → Inside x range → s.env.Settled x) :
    Keeps name s { s with uploads := s.uploads.next op } := by
  refine ⟨h.step ⟨hok, rfl⟩, rfl, fun x hx => ?_⟩
  rcases hx with hx | ⟨p, hp, hx⟩
  · exact .inl hx
  · rcases h.pending_kept ⟨hok, rfl⟩ hx with hx | ⟨range, outcome, now, hop, hretry, hin⟩
    · exact .inr ⟨p, hp, hx⟩
    · exact .inl (hend p range outcome now x hop hretry hp hin)

/-- A WRITE_AT settles its bytes. -/
theorem RemoteFile.settled_writes {f : RemoteFile} {offset : Nat} {data : List UInt8}
    {a : Except RpcError Json} {node : RemoteNode} (hw : f.Writes offset (some data) a node)
    {x : Nat} (hstart : offset ≤ x) (hstop : x < offset + data.length) :
    (⟨node, f.missedAfter offset data.length a, f.acked⟩ : RemoteFile).Settled x := by
  unfold RemoteFile.Writes at hw
  have hmissed : f.takes a = false → f.missedAfter offset data.length a x = true := by
    intro htakes
    rw [RemoteFile.missedAfter, if_pos ⟨hstart, hstop⟩, htakes]
    rfl
  split at hw
  · rename_i hnode
    exact .inr (hmissed (by simp only [RemoteFile.takes, hnode]))
  · rename_i hnode
    exact .inr (hmissed (by simp only [RemoteFile.takes, hnode]))
  · rename_i size hnode
    obtain ⟨size', -, rfl, hok⟩ := hw
    cases a with
    | error e => exact .inr (hmissed (by simp only [RemoteFile.takes, hnode]))
    | ok v =>
      obtain ⟨data', hdata, hlen⟩ := hok v rfl
      cases hdata
      have hne : data ≠ [] := by
        intro heq
        subst heq
        rw [List.length_nil] at hstop
        omega
      have hsize := hlen hne
      exact .inl ⟨size', rfl, by omega⟩

/-- Other bytes stay settled. -/
theorem RemoteFile.settled_writes_of_not {f : RemoteFile} {offset len : Nat}
    {bytes : Option (List UInt8)} {a : Except RpcError Json} {node : RemoteNode}
    (hw : f.Writes offset bytes a node) {x : Nat} (hx : ¬ (offset ≤ x ∧ x < offset + len))
    (hs : f.Settled x) : (⟨node, f.missedAfter offset len a, f.acked⟩ : RemoteFile).Settled x := by
  rcases hs with ⟨size, hnode, hsize⟩ | hmissed
  · rw [RemoteFile.Writes, hnode] at hw
    obtain ⟨size', hle, rfl, -⟩ := hw
    exact .inl ⟨size', rfl, by omega⟩
  · refine .inr ?_
    show f.missedAfter offset len a x = true
    rw [RemoteFile.missedAfter, if_neg hx]
    exact hmissed

theorem RemoteFile.answers_writeAt {f g : RemoteFile} {offset : Nat} {data : String}
    {a : Except RpcError Json} (h : f.Answers name (.writeAt name offset data) a g) :
    ∃ node, f.Writes offset (Base64.decode data) a node ∧
      g = ⟨node, f.missedAfter offset ((Base64.decode data).getD []).length a, f.acked⟩ := by
  rwa [RemoteFile.Answers, if_pos rfl] at h

/-- What a WRITE_AT under the name does to the file. -/
theorem RemoteFile.settled_answers {f g : RemoteFile} {offset : Nat} {data : String}
    {a : Except RpcError Json} (h : f.Answers name (.writeAt name offset data) a g) {x : Nat}
    (hs : f.Settled x) : g.Settled x := by
  obtain ⟨node, hw, rfl⟩ := RemoteFile.answers_writeAt h
  cases hdata : Base64.decode data with
  | none =>
    rw [hdata] at hw
    refine RemoteFile.settled_writes_of_not hw (fun hx => ?_) hs
    have hlen : (Option.getD (none : Option (List UInt8)) []).length = 0 := rfl
    omega
  | some bytes =>
    rw [hdata] at hw
    by_cases hx : offset ≤ x ∧ x < offset + bytes.length
    · exact RemoteFile.settled_writes hw hx.1 hx.2
    · exact RemoteFile.settled_writes_of_not hw hx hs

/-- **A request that replaces nothing** keeps the accounts. -/
theorem Keeps.call (h : CfgInv s.uploads) {req : BridgeRequest} (hreq : ¬ req.Replaces name)
    {a : Except RpcError Json} {env : RemoteFile} (hx : s.env.Answers name req a env)
    (sent : List BridgeRequest) : Keeps name s { s with sent := sent, env := env } := by
  have hsame : env = s.env → Keeps name s { s with sent := sent, env := env } :=
    fun henv => .of_eq h rfl henv
  cases req with
  | stat path => exact hsame hx.1
  | writeAt path offset data =>
    by_cases hp : path = name
    · subst hp
      refine ⟨h, ?_, fun x hacc => hacc.imp_left (RemoteFile.settled_answers hx)⟩
      obtain ⟨node, -, rfl⟩ := RemoteFile.answers_writeAt hx
      rfl
    · rw [RemoteFile.Answers, if_neg hp] at hx
      exact hsame hx
  | _ => exact hsame (hx.1 hreq)

/-! ## 4. What the effects do -/

open RemoteFs Prog

/-- **A send task settles the bytes of its piece**, or leaves them in the queue. -/
theorem Keeps.send (h : CfgInv s.uploads) {path : PathBuf} {range : Range}
    (hx : Exec (stepSem (sizeSem name)) (sendPiece cfg path range) s () t) : Keeps name s t := by
  obtain ⟨read, u, hread, hx⟩ := exec_bind.mp hx
  obtain ⟨env, rfl, rfl⟩ := exec_perform.mp hread
  cases hfull : Option.filter (fun bytes => decide (bytes.length = range.2 - range.1)) read with
  | none =>
    rw [hfull] at hx
    obtain ⟨hok, now, rfl⟩ := exec_perform.mp hx
    refine .queueStep h hok fun p r outcome _ x hop hretry => ?_
    cases hop
    exact absurd rfl hretry
  | some bytes =>
    rw [hfull] at hx
    have hlen : bytes.length = range.2 - range.1 :=
      of_decide_eq_true (Option.filter_eq_some_iff.mp hfull).2
    obtain ⟨answer, v, hcall, hx⟩ := exec_bind.mp hx
    obtain ⟨env', hanswer, rfl⟩ := exec_perform.mp hcall
    obtain ⟨hok, now, rfl⟩ := exec_perform.mp hx
    let req : BridgeRequest := .writeAt path.text range.1 (Base64.encode bytes)
    have hwrite : ¬ req.Replaces name := id
    have hsent := Keeps.call h hwrite hanswer (req :: s.sent)
    refine hsent.trans (.queueStep hsent.queue hok fun p r outcome _ x hop _ hp hin => ?_)
    cases hop
    subst hp
    obtain ⟨node, hw, rfl⟩ := RemoteFile.answers_writeAt hanswer
    rw [Base64.decode_encode] at hw ⊢
    obtain ⟨hstart, hstop⟩ := hin
    exact RemoteFile.settled_writes hw hstart (by omega)

theorem Keeps.flushes (h : CfgInv s.uploads) (hf : Flushes cfg (sizeSem name) s t) :
    Keeps name s t := by
  induction hf with
  | refl => exact .refl h
  | step _ hs ih =>
    refine ih.trans ?_
    cases hs with
    | claim hw now paths hok =>
      exact .queueStep ih.queue hok fun p r outcome _ x hop => by cases hop
    | send hw ht hx => exact .send ih.queue hx

/-- **An effect of a handler** keeps the accounts: what replaces the file closes them. -/
theorem Accounts.effect (h : Accounts name s) {e : Effect} (he : Asking e) {a : Answer e}
    (hx : mountSem cfg (sizeSem name) e s a t) : Accounts name t := by
  cases e with
  | finish path range outcome => exact absurd he id
  | enqueue path start stop =>
    obtain ⟨hok, rfl⟩ := hx
    exact h.keeps (.queueStep h.queue hok fun p r outcome _ x hop => by cases hop)
  | waitBelow cap => exact h.keeps (.flushes h.queue hx.1)
  | waitDrain paths => exact h.keeps (.flushes h.queue hx.1)
  | call req =>
    obtain ⟨env, hanswer, rfl⟩ := hx
    by_cases hreq : req.Replaces name
    · have hacked : env.acked = [] := by
        cases req with
        | stat | writeAt => exact absurd hreq id
        | _ =>
          obtain ⟨node, rfl⟩ := hanswer.2 hreq
          rfl
      refine ⟨h.queue, fun stop hstop => ?_⟩
      rw [show ({ s with sent := req :: s.sent, env := env } : Mount RemoteFile).env.acked = [] from
        hacked] at hstop
      exact absurd hstop List.not_mem_nil
    · exact h.keeps (.call h.queue hreq hanswer _)
  | pathFor ino =>
    obtain ⟨-, rfl⟩ := hx
    exact h
  | childPath parent child =>
    obtain ⟨-, rfl⟩ := hx
    exact h.of_eq rfl rfl
  | inoForPath path =>
    obtain ⟨-, rfl⟩ := hx
    exact h.of_eq rfl rfl
  | kickPrefetch path =>
    obtain rfl : t = _ := hx
    exact h.of_eq (by split <;> rfl) (by split <;> rfl)
  | prefetchDone path =>
    obtain rfl : t = _ := hx
    exact h.of_eq rfl rfl
  | _ =>
    obtain ⟨env, rfl, rfl⟩ := hx
    exact h.of_eq rfl rfl

theorem Accounts.exec (h : Accounts name s) {α : Type} {p : FsProg α} (hp : Only Asking p) {a : α}
    (hx : Exec (mountSem cfg (sizeSem name)) p s a t) : Accounts name t :=
  wp_iff_exec.mp (wp_of_only (fun _ _ _ _ he hi hs => hi.effect he hs) hp h) a t hx

/-! ## 5. A write, and what is told of it -/

theorem IsFile.elim {path : Option PathBuf} (h : IsFile name path) :
    ∃ p, path = some p ∧ p.text = name := Option.map_eq_some_iff.mp h

/-- **An acknowledged write**: its last byte is accounted for. -/
theorem Accounts.writePath (h : Accounts name s) {path : PathBuf} (hpath : path.text = name)
    {offset : Nat} {data : List UInt8} (hdata : data ≠ []) {reply : Reply}
    (hx : Exec (mountSem cfg (sizeSem name)) (writePath cfg path offset data) s reply t) :
    Accounted name t (offset + data.length - 1) := by
  have hpos : 0 < data.length := List.length_pos_of_ne_nil hdata
  obtain ⟨_, u, hparent, hx⟩ := exec_bind.mp hx
  have hu := h.exec (only_createParent (fun _ => trivial) _) hparent
  obtain ⟨stored, v, hstore, hx⟩ := exec_bind.mp hx
  obtain ⟨env, rfl, rfl⟩ := exec_perform.mp hstore
  cases stored with
  | true =>
    obtain ⟨_, w, hqueue, hx⟩ := exec_bind.mp hx
    obtain ⟨-, rfl⟩ := exec_pure.mp hx
    unfold enqueueUpload at hqueue
    rw [if_neg (by omega)] at hqueue
    obtain ⟨_, z, henqueue, hwait⟩ := exec_bind.mp hqueue
    obtain ⟨hok, rfl⟩ := exec_perform.mp henqueue
    obtain ⟨hflushes, -⟩ := exec_perform.mp hwait
    have hqueue' : CfgInv (u.uploads.next (.enqueue path offset (offset + data.length))) :=
      hu.queue.step ⟨hok, rfl⟩
    refine (Keeps.flushes hqueue' hflushes).kept _ (.inr ⟨path, hpath, ?_⟩)
    have hin : Inside (offset + data.length - 1) (offset, offset + data.length) :=
      ⟨by omega, by omega⟩
    exact u.uploads.pending_enqueue hin
  | false =>
    obtain ⟨answer, w, hrpc, hx⟩ := exec_bind.mp hx
    obtain ⟨-, rfl⟩ := exec_pure.mp hx
    obtain ⟨a, env', hanswer, -, rfl⟩ := exec_rpcCall hrpc
    subst hpath
    obtain ⟨node, hw, rfl⟩ := RemoteFile.answers_writeAt hanswer
    rw [Base64.decode_encode] at hw ⊢
    exact .inl (RemoteFile.settled_writes hw (by omega) (by show _ < offset + data.length; omega))

theorem Accounts.written (h : Accounts name s) {r : KernelRequest} {reply : Reply}
    (hx : Exec (mountSem cfg (sizeSem name)) (RemoteFs.handle cfg r) s reply t) {stop : Nat}
    (hstop : stop ∈ writtenTo name s.inodes r reply) : 0 < stop ∧ Accounted name t (stop - 1) := by
  unfold writtenTo at hstop
  split at hstop
  · rename_i ino offset data n
    split at hstop
    · rename_i hfile
      obtain ⟨hfile, hdata⟩ := hfile
      rw [List.mem_singleton] at hstop
      subst hstop
      obtain ⟨p, hp, hname⟩ := hfile.elim
      have hpos : 0 < data.length := List.length_pos_of_ne_nil hdata
      refine ⟨by omega, ?_⟩
      obtain ⟨path, u, hino, hx⟩ := exec_bind.mp hx
      obtain ⟨rfl, rfl⟩ := exec_perform.mp hino
      rw [hp] at hx
      dsimp only at hx
      split at hx
      · cases (exec_pure.mp hx).1
      · exact h.writePath hname hdata hx
    · exact absurd hstop List.not_mem_nil
  · exact absurd hstop List.not_mem_nil

/-- The attributes of a file that the target has are the target's. -/
theorem size_replyAttr {path : PathBuf} {mk : FileAttr → Reply} {reply : Reply} {size : Nat}
    (hpath : path.text = name) (hnode : s.env.node = .file size)
    (hx : Exec (mountSem cfg (sizeSem name)) (replyAttr cfg path mk) s reply t) :
    ∃ attr, reply = mk attr ∧ attr.size = size := by
  obtain ⟨found, u, hattr, hx⟩ := exec_bind.mp hx
  obtain ⟨remote, v, hremote, hattr⟩ := exec_bind.mp hattr
  obtain ⟨value, w, hrpc, hremote⟩ := exec_bind.mp hremote
  obtain ⟨answer, env, ⟨-, hstats⟩, rfl, rfl⟩ := exec_rpcCall hrpc
  have hstats := hstats hpath
  simp only [RemoteFile.Stats, hnode] at hstats
  obtain ⟨json, stat, rfl, hstat, -, hsize⟩ := hstats
  dsimp only [Except.mapError] at hremote
  rw [hstat] at hremote
  obtain ⟨ino, z, -, hremote⟩ := exec_bind.mp hremote
  obtain ⟨rfl, rfl⟩ := exec_pure.mp hremote
  have hfound : found = .ok (attrFromStat stat ino) := by
    dsimp only at hattr
    split at hattr
    · obtain ⟨_, y, _, hattr⟩ := exec_bind.mp hattr
      exact (exec_pure.mp hattr).1
    · exact (exec_pure.mp hattr).1
  subst hfound
  exact ⟨_, (exec_pure.mp hx).1, hsize⟩

/-- **The size that a reply tells is the target's.** -/
theorem sizeTold_eq {r : KernelRequest} {reply : Reply} {size told : Nat}
    (hx : Exec (mountSem cfg (sizeSem name)) (RemoteFs.handle cfg r) s reply t)
    (htold : sizeTold name s.inodes (.answered r reply) = some told)
    (hnode : s.env.node = .file size) : told = size := by
  unfold sizeTold at htold
  split at htold
  · rename_i ino attr heq
    cases heq
    split at htold
    · rename_i hfile
      cases htold
      obtain ⟨p, hp, hname⟩ := hfile.elim
      obtain ⟨path, u, hino, hx⟩ := exec_bind.mp hx
      obtain ⟨rfl, rfl⟩ := exec_perform.mp hino
      rw [hp] at hx
      obtain ⟨attr', hattr, hsize⟩ := size_replyAttr hname hnode hx
      cases hattr
      exact hsize
    · cases htold
  · rename_i parent child attr heq
    cases heq
    split at htold
    · rename_i hfile
      cases htold
      obtain ⟨p, hp, hname⟩ := hfile.elim
      obtain ⟨path, u, hchild, hx⟩ := exec_bind.mp hx
      obtain ⟨rfl, rfl⟩ := exec_perform.mp hchild
      rw [hp] at hx
      have hnode' : ({ s with inodes := (s.inodes.childPath parent child).1 } :
          Mount RemoteFile).env.node = .file size := hnode
      obtain ⟨attr', hattr, hsize⟩ := size_replyAttr hname hnode' hx
      cases hattr
      exact hsize
    · cases htold
  · cases htold

/-! ## 6. Runs -/

theorem Accounts.step (h : Accounts name s) {e : SizeEvent} (hs : SizeStep cfg name s e t) :
    Accounts name t := by
  cases hs with
  | answered hx =>
    have ht := h.exec (handle_asking cfg _) hx
    refine ⟨ht.queue, fun stop hstop => ?_⟩
    rcases List.mem_append.mp hstop with hstop | hstop
    · exact h.written hx hstop
    · exact ht.acked stop hstop
  | task he hs =>
    cases hs with
    | request hx => exact absurd rfl (he _)
    | prefetch hk hx =>
      refine Accounts.exec ?_ ((reading_prefetchTask cfg _).mono reading_asking) hx
      exact h.of_eq rfl rfl
    | flush hs => exact h.keeps (.flushes h.queue (.step (.refl s) hs))
    | @sync t d rest pushed hd hx =>
      have hturn : Accounts name { s with sync := [] } := h.of_eq rfl rfl
      have ht := hturn.exec ((mirroring_syncTurn d).mono mirroring_asking) hx
      exact ht.of_eq rfl rfl

theorem accounts_init (h : SizeInit cfg s) : Accounts name s := by
  obtain ⟨⟨now, env, rfl⟩, hacked⟩ := h
  refine ⟨cfgInv_init ⟨now, rfl⟩, fun stop hstop => ?_⟩
  rw [hacked] at hstop
  exact absurd hstop List.not_mem_nil

/-- The size that a reply tells, in a state whose accounts are right. -/
theorem Accounts.told (h : Accounts name s) {e : SizeEvent} (hs : SizeStep cfg name s e t)
    {told : Nat} (htold : sizeTold name s.inodes e = some told) {stop : Nat}
    (hstop : stop ∈ s.env.acked) :
    stop ≤ told ∨ Unsent name s (stop - 1) ∨ s.env.missed (stop - 1) = true := by
  obtain ⟨hpos, hacc⟩ := h.acked stop hstop
  cases hs with
  | task he hs => cases htold
  | answered hx =>
    rcases hacc with (⟨size, hnode, hsize⟩ | hmissed) | hunsent
    · have heq : told = size := sizeTold_eq hx htold hnode
      exact .inl (by omega)
    · exact .inr (.inr hmissed)
    · exact .inr (.inl hunsent)

end Steps

/-- **No reply tells less than was written**, since the file was last truncated, created, removed
    or renamed, but for a write whose last byte is still in the queue, or was not taken. -/
theorem size_covers_written {cfg : MountCfg} {name : String}
    {hist : List (Mount RemoteFile × SizeEvent)} {s : Mount RemoteFile}
    (h : SizeRun cfg name hist s) : ∀ x ∈ hist, ∀ told,
    sizeTold name x.1.inodes x.2 = some told → ∀ stop ∈ x.1.env.acked,
    stop ≤ told ∨ Unsent name x.1 (stop - 1) ∨ x.1.env.missed (stop - 1) = true := by
  intro x hx told htold stop hstop
  obtain ⟨later, earlier, rfl⟩ := List.append_of_mem hx
  obtain ⟨hrun, t, hs, -⟩ := h.split
  have hacc : Accounts name x.1 :=
    hrun.invariant (fun _ h0 => accounts_init h0) fun _ _ _ hi hs => hi.step hs
  exact hacc.told hs htold hstop

/-! ## 7. A file that is looked at between a write and its upload -/

/-- What the target says of a file of a size. -/
def sizedStat (size : Nat) : StatResult := ⟨.file, size, 0, 0o644, 0, 0, none⟩

def sizedStatJson (size : Nat) : Json :=
  .obj [("kind", .str "file"), ("size", .nat size), ("modified", .nat 0), ("mode", .nat 0o644),
    ("uid", .nat 0), ("gid", .nat 0), ("link_target", .null)]

/-- A mount of `/srv`, whose file `a` the target has with some size. -/
def sizeState (inodes : InodeMap) (uploads : QueueCfg PathBuf) (sent : List BridgeRequest)
    (env : RemoteFile) : Mount RemoteFile :=
  ⟨inodes, uploads, [], [], [⟨shareMount.remoteDir.text, shareMount.cacheDir⟩], sent, env⟩

/-- Three bytes, and nothing written. -/
def threeBytes : RemoteFile := ⟨.file 3, fun _ => false, []⟩

def sizeStart : Mount RemoteFile :=
  sizeState (.new shareMount.remoteDir) ⟨.new 0, []⟩ [.stat shareMount.remoteDir.text] threeBytes

/-- After the lookup of `a`. -/
def sizeLooked : Mount RemoteFile :=
  sizeState shareLooked ⟨.new 0, []⟩ [.stat shareA.text, .stat shareMount.remoteDir.text] threeBytes

/-- After a fourth byte was written, and is dirty. -/
def sizeWritten : Mount RemoteFile :=
  { sizeLooked with
    uploads := sizeLooked.uploads.next (.enqueue shareA 3 4)
    env := ⟨.file 3, fun _ => false, [4]⟩ }

theorem sizeStart_init : SizeInit shareMount sizeStart := ⟨⟨0, threeBytes, rfl⟩, rfl⟩

theorem size_looked : SizeStep shareMount shareA.text sizeStart
    (.answered (.lookup 1 "a") (.entry (attrFromStat (sizedStat 3) 2))) sizeLooked := by
  have hx : Prog.Exec (mountSem shareMount (sizeSem shareA.text))
      (RemoteFs.handle shareMount (.lookup 1 "a")) sizeStart
      (.entry (attrFromStat (sizedStat 3) 2)) sizeLooked := by
    refine .ask (a := some shareA) ⟨share_childPath.symm, rfl⟩ ?_
    refine .ask (a := .ok (sizedStatJson 3)) ⟨threeBytes, ⟨rfl, fun _ => ?_⟩, rfl⟩ ?_
    · exact ⟨_, sizedStat 3, rfl, rfl, rfl, rfl⟩
    refine .ask (t := sizeLooked) (a := (2 : Nat)) ⟨?_, ?_⟩ ?_
    · exact (congrArg Prod.snd shareLooked_inoFor).symm
    · exact congrArg (fun m => sizeState m _ _ _) (congrArg Prod.fst shareLooked_inoFor).symm
    · exact .done _ _
  exact .answered hx

theorem size_written : SizeStep shareMount shareA.text sizeLooked
    (.answered (.write 2 3 [7]) (.written 1)) sizeWritten := by
  have hknown : shareLooked.path 2 = some shareA := by decide
  have hx : Prog.Exec (mountSem shareMount (sizeSem shareA.text))
      (RemoteFs.handle shareMount (.write 2 3 [7])) sizeLooked (.written 1)
      { sizeWritten with env := threeBytes } := by
    refine .ask (a := some shareA) ⟨hknown.symm, rfl⟩ ?_
    refine .ask (a := ()) ⟨threeBytes, rfl, rfl⟩ ?_
    refine .ask (a := true) ⟨threeBytes, rfl, rfl⟩ ?_
    refine .ask (a := ()) ⟨(by decide : (3 : Nat) + 1 < 2 ^ 64), rfl⟩ ?_
    refine .ask (a := ()) ⟨.refl _, by decide⟩ ?_
    exact .done _ _
  exact .answered hx

/-- A `getattr` of `a`, that the target answers with a size. -/
theorem size_asked {s : Mount RemoteFile} {size : Nat} (hinodes : s.inodes = shareLooked)
    (hnode : s.env.node = .file size)
    (hstat : StatResult.ofJson (sizedStatJson size) = some (sizedStat size)) :
    SizeStep shareMount shareA.text s
      (.answered (.getattr 2) (.attr (attrFromStat (sizedStat size) 2)))
      { s with sent := .stat shareA.text :: s.sent } := by
  have hknown : shareLooked.path 2 = some shareA := by decide
  let t : Mount RemoteFile := { s with sent := .stat shareA.text :: s.sent }
  let attr : FileAttr := attrFromStat (sizedStat size) 2
  have hanswer : sizeSem shareA.text (.call (.stat shareA.text)) s.env (.ok (sizedStatJson size))
      s.env := by
    refine ⟨rfl, fun _ => ?_⟩
    simp only [RemoteFile.Stats, hnode]
    exact ⟨_, _, rfl, hstat, rfl, rfl⟩
  have hrpc : Prog.Exec (mountSem shareMount (sizeSem shareA.text))
      (RemoteFs.rpc (.stat shareA.text)) s (.ok (sizedStatJson size)) t :=
    .ask (a := .ok (sizedStatJson size)) ⟨s.env, hanswer, rfl⟩ (.done _ _)
  have hino : Prog.Exec (mountSem shareMount (sizeSem shareA.text))
      (FsProg.inoForPath shareA) t 2 t := by
    refine .ask (t := t) (a := (2 : Nat)) ⟨?_, ?_⟩ (.done _ _)
    · show 2 = (s.inodes.inoFor shareA).2
      rw [hinodes, shareLooked_inoFor]
    · show t = { t with inodes := (s.inodes.inoFor shareA).1 }
      rw [hinodes, shareLooked_inoFor, ← hinodes]
  have hremote : Prog.Exec (mountSem shareMount (sizeSem shareA.text))
      (RemoteFs.remoteAttr shareA) s (.ok attr) t := by
    refine Prog.exec_bind.mpr ⟨_, t, hrpc, ?_⟩
    dsimp only
    rw [hstat]
    exact Prog.exec_bind.mpr ⟨2, t, hino, .done _ _⟩
  have hattr : Prog.Exec (mountSem shareMount (sizeSem shareA.text))
      (RemoteFs.attrFor shareMount shareA) s (.ok attr) t :=
    Prog.exec_bind.mpr ⟨_, t, hremote, .done _ _⟩
  have hreply : Prog.Exec (mountSem shareMount (sizeSem shareA.text))
      (RemoteFs.replyAttr shareMount shareA .attr) s (.attr attr) t :=
    Prog.exec_bind.mpr ⟨_, t, hattr, .done _ _⟩
  have hx : Prog.Exec (mountSem shareMount (sizeSem shareA.text))
      (RemoteFs.handle shareMount (.getattr 2)) s (.attr attr) t :=
    Prog.exec_bind.mpr ⟨some shareA, s, .ask ⟨by rw [hinodes, hknown], rfl⟩ (.done _ _), hreply⟩
  exact .answered hx

/-- The flusher claims the byte, and sends it. -/
def sizeClaimed : Mount RemoteFile :=
  { sizeWritten with uploads := sizeWritten.uploads.next (.takeBatch 0 [shareA]) }

def sizeSent : Mount RemoteFile :=
  { sizeClaimed with
    uploads := sizeClaimed.uploads.next (.finish shareA (3, 4) .sent 0)
    sent := .writeAt shareA.text 3 (Base64.encode [7]) :: sizeClaimed.sent
    env := ⟨.file 4, threeBytes.missedAfter 3 1 (.ok .null), [4]⟩ }

theorem size_claimed : SizeStep shareMount shareA.text sizeWritten (.task .flush) sizeClaimed :=
  .task (fun _ h => by cases h) (.flush (.claim rfl 0 [shareA] (by decide)))

theorem size_sent : SizeStep shareMount shareA.text sizeClaimed (.task .flush) sizeSent := by
  have htask : (shareA, (3, 4)) ∈ sizeClaimed.uploads.tasks := by decide
  have hx : Prog.Exec (stepSem (sizeSem shareA.text)) (sendPiece shareMount shareA (3, 4))
      sizeClaimed () sizeSent := by
    have hsent : sizeSem shareA.text (.call (.writeAt shareA.text 3 (Base64.encode [7])))
        sizeClaimed.env (.ok .null) sizeSent.env := by
      show sizeClaimed.env.Answers shareA.text (.writeAt shareA.text 3 (Base64.encode [7]))
        (.ok .null) sizeSent.env
      rw [RemoteFile.Answers, if_pos rfl, Base64.decode_encode]
      refine ⟨.file 4, ⟨4, by decide, rfl, fun _ _ => ⟨[7], rfl, fun _ => by decide⟩⟩, rfl⟩
    refine .ask (a := some [7]) ⟨sizeClaimed.env, rfl, rfl⟩ ?_
    refine .ask (a := .ok .null) ⟨sizeSent.env, hsent, rfl⟩ ?_
    exact .ask (a := ()) ⟨htask, 0, rfl⟩ (.done _ _)
  exact .task (fun _ h => by cases h) (.flush (.send rfl htask hx))

/-- After the upload, the size counts the byte. -/
theorem size_covers_written_sent :
    4 ≤ (attrFromStat (sizedStat 4) 2).size ∨ Unsent shareA.text sizeSent 3 ∨
      sizeSent.env.missed 3 = true := by
  have hrun : SizeRun shareMount shareA.text _ _ :=
    .step (.step (.step (.step (.step (.start sizeStart_init) size_looked) size_written)
      size_claimed) size_sent) (size_asked rfl rfl rfl)
  exact size_covers_written hrun _ List.mem_cons_self 4 (by decide) 4 List.mem_cons_self

/-- The cache cannot be written: the byte goes to the target at once, and is refused. -/
def sizeRefused : Mount RemoteFile :=
  { sizeLooked with
    sent := .writeAt shareA.text 3 (Base64.encode [7]) :: sizeLooked.sent
    env := ⟨.file 3, threeBytes.missedAfter 3 1 (.error ⟨-32000, "permission denied"⟩), [4]⟩ }

theorem size_refused : SizeStep shareMount shareA.text sizeLooked
    (.answered (.write 2 3 [7]) (.written 1)) sizeRefused := by
  have hknown : shareLooked.path 2 = some shareA := by decide
  let e : RpcError := ⟨-32000, "permission denied"⟩
  let env : RemoteFile := ⟨.file 3, threeBytes.missedAfter 3 1 (.error e), []⟩
  have hanswer : sizeSem shareA.text (.call (.writeAt shareA.text 3 (Base64.encode [7])))
      threeBytes (.error e) env := by
    show threeBytes.Answers shareA.text (.writeAt shareA.text 3 (Base64.encode [7])) (.error e) env
    rw [RemoteFile.Answers, if_pos rfl, Base64.decode_encode]
    exact ⟨.file 3, ⟨3, le_rfl, rfl, fun _ h => by cases h⟩, rfl⟩
  have hx : Prog.Exec (mountSem shareMount (sizeSem shareA.text))
      (RemoteFs.handle shareMount (.write 2 3 [7])) sizeLooked (.written 1)
      { sizeRefused with env := env } := by
    refine .ask (a := some shareA) ⟨hknown.symm, rfl⟩ ?_
    refine .ask (a := ()) ⟨threeBytes, rfl, rfl⟩ ?_
    refine .ask (a := false) ⟨threeBytes, rfl, rfl⟩ ?_
    refine .ask (a := .error e) ⟨env, hanswer, rfl⟩ ?_
    exact .done _ _
  exact .answered hx

/-- **The size lags behind**: 4 bytes are written, and a `getattr` tells 3. In the first run the
    flusher has not sent the byte yet, in the second the target has refused it. -/
theorem size_lags_behind :
    (∃ s, SizeRun shareMount shareA.text
      [(sizeWritten, .answered (.getattr 2) (.attr (attrFromStat (sizedStat 3) 2))),
        (sizeLooked, .answered (.write 2 3 [7]) (.written 1)),
        (sizeStart, .answered (.lookup 1 "a") (.entry (attrFromStat (sizedStat 3) 2)))] s) ∧
    (∃ s, SizeRun shareMount shareA.text
      [(sizeRefused, .answered (.getattr 2) (.attr (attrFromStat (sizedStat 3) 2))),
        (sizeLooked, .answered (.write 2 3 [7]) (.written 1)),
        (sizeStart, .answered (.lookup 1 "a") (.entry (attrFromStat (sizedStat 3) 2)))] s) ∧
    ¬ 3 + [(7 : UInt8)].length ≤ (attrFromStat (sizedStat 3) 2).size := by
  have hstart : SizeRun shareMount shareA.text _ _ := .step (.start sizeStart_init) size_looked
  have hsoon : SizeRun shareMount shareA.text _ _ :=
    .step (.step hstart size_written) (size_asked rfl rfl rfl)
  have hrefused : SizeRun shareMount shareA.text _ _ :=
    .step (.step hstart size_refused) (size_asked rfl rfl rfl)
  exact ⟨⟨_, hsoon⟩, ⟨_, hrefused⟩, by decide⟩

end Relayfs

/-
  File:      Relayfs/Fuse/Served.lean
  Subject:   A FILE OF A WRITABLE MOUNT, THE AGENT'S OWN CODE AT THE OTHER END: the frames of the
             requests go to agent/src/conn.rs `dispatch` and the handlers of files.rs, and what
             the bridge's client reads in the response frames comes back.

  The runs of `Durable.lean` take the target as it is described there: what it answers, and what
  becomes of its file. Here the agent's disk is in its place.

  * `ServedEnv`, `agentSem` -- the cache file and the agent's disk;
  * `serves_target` -- the agent answers the requests about an open file as described there;
  * `InKernel`, `Bounded` -- the offsets that the kernel's requests lead to, and the invariant of
    the queue for them;
  * `agent_serves_mount` -- every run over the agent is a run over the target described.
-/
import Relayfs.Agent.Serve
import Relayfs.Fuse.Durable

namespace Relayfs

open Lib Background RemoteFs Prog

/-! ## 1. The agent as the target -/

/-- The requests about an open file, with the offsets that a seek takes and a file has. -/
def BridgeRequest.AboutOpen : BridgeRequest → Prop
  | .readFile _ offset limit =>
      ∃ o l, offset = some o ∧ limit = some l ∧ o < 2 ^ 63 ∧ l < 2 ^ 64
  | .stat _ => True
  | .chmod _ mode => mode < 2 ^ 32
  | .truncate _ size => size < 2 ^ 63
  | .writeAt _ offset data =>
      ∃ bytes, data = Base64.encode bytes ∧ offset + bytes.length < 2 ^ 63
  | _ => False

section Target

variable {d d' : AgentDisk} {name p : String} {content : List UInt8} {i : Nat} {answer : Json}

/-- What the client makes of an error text. -/
abbrev onWire (result : Except String Json) : Except RpcError Json :=
  result.mapError fun text => ⟨Code.internalError, text⟩

/-- A read of the file, of any limit. -/
theorem readFile_readsFile {c : FileContent} {offset limit n : Nat} (hoffset : offset < 2 ^ 63)
    (hlimit : limit < 2 ^ 64) (hread : LongRead c.bytes offset limit n) :
    ReadsFile c.bytes offset limit
      (onWire (Agent.readFile "" (BridgeRequest.readFile p (some offset) (some limit)).params
        ⟨.ok c, none, .ok n⟩)) := by
  unfold ReadsFile
  by_cases hmax : maxDirectFileBytes < limit
  · rw [if_pos hmax, Agent.readFile, readFile_params (by omega) hlimit]
    dsimp only [Option.getD_some]
    rw [if_pos hmax]
    exact ⟨_, rfl⟩
  · rw [if_neg hmax, readFile_opened (by omega) (Nat.not_lt.mp hmax),
      if_neg (Nat.not_le.mpr hoffset)]
    obtain ⟨room, hlow, hhigh, rfl⟩ := hread
    have htake : (c.bytes.drop offset).take (min room (c.bytes.length - offset)) =
        (c.bytes.drop offset).take room := by
      rw [← List.length_drop, List.take_eq_take_iff]
      omega
    have hlength : ((c.bytes.drop offset).take room).length =
        min room (c.bytes.length - offset) := by
      rw [List.length_take, List.length_drop]
    refine ⟨room, hlow, hhigh, ?_⟩
    rw [htake, hlength]
    rfl

/-- The size checks of `write_at` on encoded bytes. -/
theorem payload_encode_large {bytes : List UInt8} (h : maxDirectFileBytes < bytes.length) :
    ∃ text, payload (Base64.encode bytes) = .error text := by
  unfold payload
  dsimp only
  split
  · exact ⟨_, rfl⟩
  · rw [Base64.decode_encode]
    dsimp only
    rw [if_pos h]
    exact ⟨_, rfl⟩

/-- `write_at` on a file that is there, of bytes that pass its size checks. -/
theorem writeAt_encode {files : Files} {offset : Nat} {bytes : List UInt8}
    (hfile : files name = some content) (hoffset : offset < 2 ^ 63)
    (hlen : bytes.length ≤ maxDirectFileBytes) :
    Agent.writeAt files name offset (Base64.encode bytes) none =
      (Function.update files name (some (writeAt content offset bytes)),
        .ok (bytesWritten bytes.length)) := by
  rw [Agent.writeAt, payload_encode hlen, hfile]
  dsimp only
  rw [if_neg (Nat.not_le.mpr hoffset)]

/-- A write to the file, against the description. -/
theorem writeAt_target {files : Files} {offset : Nat} {bytes : List UInt8}
    (hfile : files name = some content) (hfit : offset + bytes.length < 2 ^ 63)
    (cache : Option (List UInt8)) (disk : CacheDisk) :
    ∃ content', (Agent.writeAt files name offset (Base64.encode bytes) none).1 name =
        some content' ∧
      targetSem name ⟨cache, content, disk⟩ (.writeAt name offset (Base64.encode bytes))
        (onWire (Agent.writeAt files name offset (Base64.encode bytes) none).2)
        ⟨cache, content', disk⟩ := by
  by_cases hlen : bytes.length ≤ maxDirectFileBytes
  · rw [writeAt_encode hfile (by omega) hlen]
    exact ⟨writeAt content offset bytes, Function.update_self _ _ _,
      (targetSem_writeAt_ok hlen).mpr ⟨⟨_, rfl⟩, rfl⟩⟩
  · obtain ⟨text, htext⟩ := payload_encode_large (Nat.not_le.mp hlen)
    have hagent : Agent.writeAt files name offset (Base64.encode bytes) none =
        (files, .error text) := by
      rw [Agent.writeAt, htext]
    rw [hagent]
    exact ⟨content, hfile, (targetSem_writeAt_large hlen).mpr ⟨⟨_, rfl⟩, rfl⟩⟩

/-- **The agent is the target that was described**: with a file under a name, its answer to a
    request about an open file says what it should of that file, and does to it what it should. -/
theorem serves_target {r : BridgeRequest} (hfile : d.files name = some content)
    (hr : r.AboutOpen) (h : AgentServes d (r.frame i) answer d') (cache : Option (List UInt8))
    (disk : CacheDisk) :
    ∃ content', d'.files name = some content' ∧
      targetSem name ⟨cache, content, disk⟩ r (responseResult answer).toExcept
        ⟨cache, content', disk⟩ := by
  cases r with
  | readFile p offset limit =>
    obtain ⟨o, l, rfl, rfl, ho, hl⟩ := hr
    have hrange : (BridgeRequest.readFile p (some o) (some l)).InRange := by
      refine ⟨fun n hn => ?_, fun n hn => ?_⟩
      · cases hn
        omega
      · cases hn
        exact hl
    obtain ⟨result, hhandles, heq⟩ := result_of_serves h hrange rfl
    cases hhandles with
    | readFile hopen hread =>
      refine ⟨content, hfile, rfl, fun hp => ?_⟩
      subst hp
      rw [AgentDisk.Opens, hfile] at hopen
      obtain ⟨c, rfl, rfl⟩ := hopen
      rw [heq]
      exact readFile_readsFile ho hl (hread c rfl)
  | stat p =>
    obtain ⟨result, hhandles, heq⟩ := result_of_serves h trivial rfl
    cases hhandles with
    | stat hos =>
      refine ⟨content, hfile, rfl, fun hp => ?_⟩
      subst hp
      obtain ⟨l, rfl, hkind, hlen⟩ := hos.1 content hfile
      rw [heq]
      exact ⟨_, l.result, rfl, StatResult.ofJson_toJson (hos.2 l rfl).2, hkind, hlen⟩
  | chmod p mode =>
    obtain ⟨result, hhandles, heq⟩ := result_of_serves h hr rfl
    cases hhandles with
    | chmod fault => exact ⟨content, hfile, rfl⟩
  | truncate p size =>
    have hrange : (BridgeRequest.truncate p size).InRange := Nat.lt_trans hr (by decide)
    obtain ⟨result, hhandles, heq⟩ := result_of_serves h hrange rfl
    cases hhandles with
    | truncate hd =>
      by_cases hp : p = name
      · subst hp
        have hagent : Agent.truncate d.files p size none =
            (Function.update d.files p (some (resize content size)), .ok .null) := by
          unfold Agent.truncate
          rw [hfile]
        rw [hagent] at hd heq
        refine ⟨resize content size, ?_, ?_⟩
        · rw [hd]
          exact Function.update_self _ _ _
        · rw [heq]
          exact targetSem_truncate.mpr ⟨⟨_, rfl⟩, rfl⟩
      · refine ⟨content, ?_, (if_neg hp).mpr rfl⟩
        rw [hd, Agent.truncate_frame size (Ne.symm hp), hfile]
  | writeAt p offset data =>
    obtain ⟨bytes, rfl, hfit⟩ := hr
    have hrange : (BridgeRequest.writeAt p offset (Base64.encode bytes)).InRange :=
      show offset < 2 ^ 64 by omega
    obtain ⟨result, hhandles, heq⟩ := result_of_serves h hrange rfl
    cases hhandles with
    | writeAt hd =>
      by_cases hp : p = name
      · subst hp
        obtain ⟨content', hcontent, hsem⟩ := writeAt_target hfile hfit cache disk
        refine ⟨content', hd ▸ hcontent, ?_⟩
        rw [heq]
        exact hsem
      · refine ⟨content, ?_, (if_neg hp).mpr rfl⟩
        rw [hd, Agent.writeAt_frame offset _ (Ne.symm hp), hfile]
  | _ => exact absurd hr id

/-- A size in the agent's answer to STAT is a length that a file may have. -/
theorem stat_size_lt {v : Json} {stat : StatResult}
    (h : AgentServes d ((BridgeRequest.stat p).frame i) answer d')
    (hv : (responseResult answer).toExcept = .ok v) (hstat : StatResult.ofJson v = some stat) :
    stat.size < 2 ^ 63 := by
  obtain ⟨result, hhandles, heq⟩ := result_of_serves h trivial rfl
  cases hhandles with
  | @stat _ os hos =>
    rw [heq] at hv
    cases os with
    | error e => cases hv
    | ok l =>
      obtain ⟨hlen, hfits⟩ := hos.2 l rfl
      have hv : Except.ok l.result.toJson = (Except.ok v : Except RpcError Json) := hv
      cases hv
      rw [StatResult.ofJson_toJson hfits] at hstat
      cases hstat
      exact hlen

/-- Bytes in a file, at offsets that a file may have. -/
theorem length_writeAt_lt {file bytes : List UInt8} {offset : Nat} (hfile : file.length < 2 ^ 63)
    (hfit : offset + bytes.length < 2 ^ 63) : (writeAt file offset bytes).length < 2 ^ 63 := by
  by_cases h : bytes = []
  · rwa [h, writeAt_nil]
  · rw [length_writeAt _ _ h]
    omega

/-- The disk with another file under a name. -/
def AgentDisk.set (d : AgentDisk) (p : String) (content : List UInt8)
    (h : content.length < 2 ^ 63) : AgentDisk where
  files := Function.update d.files p (some content)
  small q c hq := by
    by_cases hp : q = p
    · rw [hp, Function.update_self] at hq
      cases hq
      exact h
    · rw [Function.update_of_ne hp] at hq
      exact d.small q c hq

/-- A handler's result is sent. -/
theorem serves_of_handles {r : BridgeRequest} {c : AgentCall} {result : Except String Json}
    (hr : r.InRange) (hc : r.agentCall = some c) (h : Handles d r.params c result d') (i : Nat) :
    ∃ answer, AgentServes d (r.frame i) answer d' := by
  obtain ⟨answer, hanswer, -⟩ := @dispatch_answers i (r.frame i) rfl (.ofExcept result)
  exact ⟨answer, i, c, result, dispatched_frame hr hc i, h, hanswer⟩

/-- **The agent answers** every request about an open file. -/
theorem agent_answers {r : BridgeRequest} (hr : r.AboutOpen) (d : AgentDisk) (i : Nat) :
    ∃ answer d', AgentServes d (r.frame i) answer d' := by
  cases r with
  | readFile p offset limit =>
    obtain ⟨o, l, rfl, rfl, ho, hl⟩ := hr
    have hrange : (BridgeRequest.readFile p (some o) (some l)).InRange := by
      refine ⟨fun n hn => ?_, fun n hn => ?_⟩
      · cases hn
        omega
      · cases hn
        exact hl
    have hopen : ∃ opened n, d.Opens p opened ∧ ∀ c, opened = .ok c → LongRead c.bytes o l n := by
      cases hfile : d.files p with
      | none =>
        refine ⟨.error notFound, 0, ?_, fun c hc => by cases hc⟩
        rw [AgentDisk.Opens, hfile]
        exact ⟨_, rfl⟩
      | some content =>
        refine ⟨.ok ⟨content, d.small p content hfile⟩, min l (content.length - o), ?_, ?_⟩
        · rw [AgentDisk.Opens, hfile]
          exact ⟨_, rfl, rfl⟩
        · intro c hc
          cases hc
          exact ⟨l, min_le_left _ _, le_rfl, rfl⟩
    obtain ⟨opened, n, hopen, hread⟩ := hopen
    obtain ⟨answer, h⟩ := serves_of_handles hrange rfl (.readFile hopen hread) i
    exact ⟨answer, d, h⟩
  | stat p =>
    have hsays : ∃ os, d.Says p os := by
      cases hfile : d.files p with
      | none =>
        refine ⟨.error notFound, fun content hc => ?_, fun l hl => ?_⟩
        · rw [hfile] at hc
          cases hc
        · cases hl
      | some content =>
        have hsmall := d.small p content hfile
        refine ⟨.ok ⟨.file, content.length, none, 0, 0, 0, none⟩, fun c hc => ?_, fun l hl => ?_⟩
        · rw [hfile] at hc
          cases hc
          exact ⟨_, rfl, rfl, rfl⟩
        · cases hl
          exact ⟨hsmall, Nat.lt_trans hsmall (by decide), Nat.two_pow_pos 64, Nat.two_pow_pos 32,
            Nat.two_pow_pos 32, Nat.two_pow_pos 32⟩
    obtain ⟨os, hos⟩ := hsays
    have hrange : (BridgeRequest.stat p).InRange := trivial
    obtain ⟨answer, h⟩ := serves_of_handles hrange rfl (.stat hos) i
    exact ⟨answer, d, h⟩
  | chmod p mode =>
    have hrange : (BridgeRequest.chmod p mode).InRange := hr
    obtain ⟨answer, h⟩ := serves_of_handles hrange rfl (.chmod none) i
    exact ⟨answer, d, h⟩
  | truncate p size =>
    have hrange : (BridgeRequest.truncate p size).InRange := Nat.lt_trans hr (by decide)
    have hdisk : ∃ d' : AgentDisk, d'.files = (Agent.truncate d.files p size none).1 := by
      unfold Agent.truncate
      cases hfile : d.files p with
      | none => exact ⟨d, rfl⟩
      | some content =>
        exact ⟨d.set p (resize content size) ((length_resize content size).trans_lt hr), rfl⟩
    obtain ⟨d', hd⟩ := hdisk
    obtain ⟨answer, h⟩ := serves_of_handles hrange rfl (.truncate hd) i
    exact ⟨answer, d', h⟩
  | writeAt p offset data =>
    obtain ⟨bytes, rfl, hfit⟩ := hr
    have hrange : (BridgeRequest.writeAt p offset (Base64.encode bytes)).InRange :=
      show offset < 2 ^ 64 by omega
    have hdisk : ∃ d' : AgentDisk,
        d'.files = (Agent.writeAt d.files p offset (Base64.encode bytes) none).1 := by
      by_cases hlen : bytes.length ≤ maxDirectFileBytes
      · cases hfile : d.files p with
        | none =>
          refine ⟨d, ?_⟩
          rw [Agent.writeAt, payload_encode hlen, hfile]
        | some content =>
          refine ⟨d.set p (writeAt content offset bytes)
            (length_writeAt_lt (d.small p content hfile) hfit), ?_⟩
          rw [writeAt_encode hfile (by omega) hlen]
          rfl
      · obtain ⟨text, htext⟩ := payload_encode_large (Nat.not_le.mp hlen)
        refine ⟨d, ?_⟩
        rw [Agent.writeAt, htext]
    obtain ⟨d', hd⟩ := hdisk
    obtain ⟨answer, h⟩ := serves_of_handles hrange rfl (.writeAt hd) i
    exact ⟨answer, d', h⟩
  | _ => exact absurd hr id

end Target

/-! ## 2. The mount over the agent -/

/-- **The cache file, and the agent's disk.** -/
structure ServedEnv where
  cache : Option (List UInt8)
  disk : CacheDisk
  agent : AgentDisk

/-- The two copies of the file with a name. -/
def ServedEnv.view (name : String) (s : ServedEnv) : FileEnv :=
  ⟨s.cache, (s.agent.files name).getD [], s.disk⟩

/-- **The meaning of the effects**: a request is served by the agent. -/
def agentSem (cfg : MountCfg) (path : PathBuf) : EnvSem ServedEnv
  | .call req, s, a, t =>
      t.cache = s.cache ∧ t.disk = s.disk ∧ ∃ i answer,
        AgentServes s.agent (req.frame i) answer t.agent ∧ a = (responseResult answer).toExcept
  | e, s, a, t =>
      t.agent = s.agent ∧ fileSem cfg path e (s.view path.text) a (t.view path.text)

/-- A mount over another environment. -/
def Mount.mapEnv {ε δ : Type} (f : ε → δ) (s : Mount ε) : Mount δ :=
  ⟨s.inodes, s.uploads, s.prefetching, s.kicked, s.sync, s.sent, f s.env⟩

/-- The effects of the handlers of an open file, with offsets as the kernel's. -/
def InKernel : Effect → Prop
  | .call req => req.AboutOpen
  | .enqueue _ _ stop => stop < 2 ^ 63
  | _ => True

/-- The answers that the agent may give. -/
def Heard : (e : Effect) → Answer e → Prop
  | .call (.stat _), a =>
      ∀ v stat, a = .ok v → StatResult.ofJson v = some stat → stat.size < 2 ^ 63
  | _, _ => True

/-- **The invariant**: the file is there, and what is in the queue has offsets of a file. -/
structure Bounded (name : String) (s : Mount ServedEnv) : Prop where
  file : ∃ content, s.env.agent.files name = some content
  queue : CfgInv s.uploads
  below : ∀ p x, s.uploads.Pending p x → x + 1 < 2 ^ 63

section Simulation

variable {cfg : MountCfg} {path : PathBuf} {s t : Mount ServedEnv}

/-- One effect on the environment. -/
theorem agentSem_view {e : Effect} {a : Answer e} {u v : ServedEnv} (he : InKernel e)
    (hfile : ∃ content, u.agent.files path.text = some content)
    (h : agentSem cfg path e u a v) :
    fileSem cfg path e (u.view path.text) a (v.view path.text) ∧
      (∃ content, v.agent.files path.text = some content) ∧ Heard e a := by
  cases e with
  | call req =>
    obtain ⟨hcache, hdisk, i, answer, hserves, rfl⟩ := h
    obtain ⟨content, hcontent⟩ := hfile
    obtain ⟨content', hcontent', hsem⟩ := serves_target hcontent he hserves u.cache u.disk
    refine ⟨?_, ⟨content', hcontent'⟩, ?_⟩
    · have hu : u.view path.text = ⟨u.cache, content, u.disk⟩ := by
        rw [ServedEnv.view, hcontent]
        rfl
      have hv : v.view path.text = ⟨u.cache, content', u.disk⟩ := by
        rw [ServedEnv.view, hcontent', hcache, hdisk]
        rfl
      rw [hu, hv]
      exact hsem
    · cases req with
      | stat p => exact fun w stat hw hstat => stat_size_lt hserves hw hstat
      | _ => trivial
  | _ => exact ⟨h.2, h.1 ▸ hfile, trivial⟩

/-- More in the queue, within the bound. -/
theorem Bounded.withQueue (h : Bounded path.text s) {op : QueueOp PathBuf}
    (hok : s.uploads.permits op)
    (hop : ∀ p start stop, op = .enqueue p start stop → stop < 2 ^ 63) :
    Bounded path.text { s with uploads := s.uploads.next op } where
  file := h.file
  queue := h.queue.step ⟨hok, rfl⟩
  below p x hx := by
    rcases h.queue.pending_of_step ⟨hok, rfl⟩ hx with hx | ⟨start, stop, heq, hin⟩
    · exact h.below p x hx
    · have hstop := hop p start stop heq
      have hlt : x < stop := hin.2
      omega

/-- One effect that waits for nothing. -/
theorem stepSem_view {e : Effect} {a : Answer e} (he : InKernel e) (h : Bounded path.text s)
    (hx : stepSem (agentSem cfg path) e s a t) :
    stepSem (fileSem cfg path) e (s.mapEnv (·.view path.text)) a (t.mapEnv (·.view path.text)) ∧
      Bounded path.text t ∧ Heard e a := by
  cases e with
  | pathFor i =>
    obtain ⟨rfl, rfl⟩ := hx
    exact ⟨⟨rfl, rfl⟩, h, trivial⟩
  | childPath parent name =>
    obtain ⟨rfl, rfl⟩ := hx
    exact ⟨⟨rfl, rfl⟩, { h with }, trivial⟩
  | inoForPath p =>
    obtain ⟨rfl, rfl⟩ := hx
    exact ⟨⟨rfl, rfl⟩, { h with }, trivial⟩
  | enqueue p start stop =>
    obtain ⟨hok, rfl⟩ := hx
    refine ⟨⟨hok, rfl⟩, h.withQueue hok fun q b e heq => ?_, trivial⟩
    cases heq
    exact he
  | finish p range outcome =>
    obtain ⟨hok, now, rfl⟩ := hx
    refine ⟨⟨hok, now, rfl⟩, h.withQueue hok fun q b e heq => ?_, trivial⟩
    cases heq
  | kickPrefetch p =>
    obtain rfl : t = _ := hx
    by_cases hp : p ∈ s.prefetching
    · rw [if_pos hp]
      refine ⟨?_, h, trivial⟩
      show s.mapEnv _ = if p ∈ s.prefetching then _ else _
      rw [if_pos hp]
    · rw [if_neg hp]
      refine ⟨?_, { h with }, trivial⟩
      show _ = if p ∈ s.prefetching then _ else _
      rw [if_neg hp]
      rfl
  | prefetchDone p =>
    obtain rfl : t = _ := hx
    exact ⟨rfl, { h with }, trivial⟩
  | call req =>
    obtain ⟨env', hcall, rfl⟩ := hx
    obtain ⟨hview, hfile, hheard⟩ := agentSem_view he h.file hcall
    exact ⟨⟨_, hview, rfl⟩, { h with file := hfile }, hheard⟩
  | waitBelow cap => exact hx.elim
  | waitDrain paths => exact hx.elim
  | _ =>
    obtain ⟨env', henv, rfl⟩ := hx
    obtain ⟨hview, hfile, hheard⟩ := agentSem_view he h.file henv
    exact ⟨⟨_, hview, rfl⟩, { h with file := hfile }, hheard⟩

/-- What a send task asks for, of a piece within the bound. -/
theorem within_sendPiece {p : PathBuf} {range : Range} (hpos : range.1 < range.2)
    (hend : range.2 < 2 ^ 63) : Within Heard InKernel (sendPiece cfg p range) := by
  refine within_bind.mpr ⟨within_perform.mpr trivial, fun bytes _ => ?_⟩
  cases hfull : bytes.filter (·.length = range.2 - range.1) with
  | none => exact within_perform.mpr trivial
  | some data =>
    have hlen : data.length = range.2 - range.1 := by
      obtain ⟨-, hlen⟩ := Option.filter_eq_some_iff.mp hfull
      exact of_decide_eq_true hlen
    refine within_bind.mpr ⟨within_perform.mpr ⟨data, rfl, by omega⟩, fun a _ => ?_⟩
    exact within_perform.mpr trivial

/-- The flusher. -/
theorem flusherStep_view (h : Bounded path.text s)
    (hs : FlusherStep cfg (agentSem cfg path) s t) :
    FlusherStep cfg (fileSem cfg path) (s.mapEnv (·.view path.text))
        (t.mapEnv (·.view path.text)) ∧ Bounded path.text t := by
  cases hs with
  | claim hw now paths hok =>
    refine ⟨.claim hw now paths hok, h.withQueue hok fun p start stop heq => ?_⟩
    cases heq
  | @send _ hw p range ht hx =>
    have hpos := h.queue.task_pos ht
    have hlast : s.uploads.Pending p (range.2 - 1) :=
      h.queue.pending_of_task ht ⟨by omega, by omega⟩
    have hend := h.below p _ hlast
    obtain ⟨hview, hI, -⟩ := hx.simulates
      (fun e u a v he hI hu => stepSem_view he hI hu) (within_sendPiece hpos (by omega)) h
    exact ⟨.send hw ht hview, hI⟩

theorem flushes_view (h : Bounded path.text s) (hs : Flushes cfg (agentSem cfg path) s t) :
    Flushes cfg (fileSem cfg path) (s.mapEnv (·.view path.text))
        (t.mapEnv (·.view path.text)) ∧ Bounded path.text t := by
  induction hs with
  | refl => exact ⟨.refl _, h⟩
  | step _ hs ih =>
    obtain ⟨hview, hI⟩ := ih
    obtain ⟨hstep, hI⟩ := flusherStep_view hI hs
    exact ⟨.step hview hstep, hI⟩

/-- One effect. -/
theorem mountSem_view {e : Effect} {a : Answer e} (he : InKernel e) (h : Bounded path.text s)
    (hx : mountSem cfg (agentSem cfg path) e s a t) :
    mountSem cfg (fileSem cfg path) e (s.mapEnv (·.view path.text)) a
        (t.mapEnv (·.view path.text)) ∧
      Bounded path.text t ∧ Heard e a := by
  cases e with
  | waitBelow cap =>
    obtain ⟨hflush, hbelow⟩ := hx
    obtain ⟨hview, hI⟩ := flushes_view h hflush
    exact ⟨⟨hview, hbelow⟩, hI, trivial⟩
  | waitDrain paths =>
    obtain ⟨hflush, hend⟩ := hx
    obtain ⟨hview, hI⟩ := flushes_view h hflush
    exact ⟨⟨hview, hend⟩, hI, trivial⟩
  | _ => exact @stepSem_view cfg path s t _ a he h hx

end Simulation

/-! ## 3. What the handlers ask for -/

/-- The arguments that the kernel gives a request of an open file: an `off_t` for an offset or a
    size, a `u32` for the bytes of a read or a mode. -/
def KernelRequest.FromKernel : KernelRequest → Prop
  | .read _ offset size => offset < 2 ^ 63 ∧ size < 2 ^ 32
  | .write _ offset data => offset + data.length < 2 ^ 63
  | .setattr _ mode size => (∀ m ∈ mode, m < 2 ^ 32) ∧ ∀ n ∈ size, n < 2 ^ 63
  | _ => True

section Handlers

variable {cfg : MountCfg}

theorem only_read_inKernel (ino : Nat) {offset size : Nat} (hoffset : offset < 2 ^ 63)
    (hsize : size < 2 ^ 32) : Only InKernel (RemoteFs.read cfg ino offset size) := by
  have hfill : ∀ path bytes, Only InKernel (fillCache cfg path offset bytes) := by
    intro path bytes
    refine (only_createParent (fun _ => trivial) _).bind fun _ => ?_
    refine Only.bind (only_perform.mpr trivial) fun len => ?_
    dsimp only
    split
    · refine Only.bind (only_perform.mpr trivial) fun stored => ?_
      cases stored with
      | true => exact only_perform.mpr trivial
      | false => exact only_pure _
    · exact only_pure _
  have hremote : ∀ path, Only InKernel (readRemote cfg path offset size) := by
    intro path
    have hask : InKernel
        (.call (.readFile path.text (some offset) (some (max size (1024 * 1024))))) :=
      ⟨offset, _, rfl, rfl, hoffset, by omega⟩
    refine (only_rpc hask).bind fun a => ?_
    cases a with
    | ok value =>
      dsimp only
      split
      · exact only_pure _
      · exact (hfill path _).bind fun _ => only_pure _
    | error e =>
      refine Only.bind (only_perform.mpr trivial) fun bytes => ?_
      cases bytes <;> exact only_pure _
  refine Only.bind (only_perform.mpr trivial) fun p => ?_
  cases p with
  | none => exact only_pure _
  | some path =>
    refine Only.bind (Only.bind (only_perform.mpr trivial) fun len => ?_) fun bytes => ?_
    · cases len with
      | none => exact only_pure _
      | some len =>
        dsimp only
        split
        · exact only_perform.mpr trivial
        · split <;> exact only_pure _
    · cases bytes with
      | some bytes => exact only_pure _
      | none => exact hremote path

theorem only_write_inKernel (ino : Nat) {offset : Nat} {data : List UInt8}
    (hfit : offset + data.length < 2 ^ 63) :
    Only InKernel (RemoteFs.write cfg ino offset data) := by
  refine Only.bind (only_perform.mpr trivial) fun p => ?_
  cases p with
  | none => exact only_pure _
  | some path =>
    dsimp only
    split
    · exact only_pure _
    · refine (only_createParent (fun _ => trivial) _).bind fun _ => ?_
      refine Only.bind (only_perform.mpr trivial) fun stored => ?_
      cases stored with
      | true => exact (only_enqueueUpload hfit trivial).bind fun _ => only_pure _
      | false =>
        have hask : InKernel (.call (.writeAt path.text offset (Base64.encode data))) :=
          ⟨data, rfl, hfit⟩
        exact (only_rpc hask).bind fun _ => only_pure _

theorem only_replyAttr_inKernel (path : PathBuf) (reply : FileAttr → Reply) :
    Only InKernel (replyAttr cfg path reply) := by
  have hremote : Only InKernel (remoteAttr path) := by
    refine Only.bind (only_rpc trivial) fun a => ?_
    cases a with
    | error e => exact only_pure _
    | ok value =>
      dsimp only
      split
      · exact only_pure _
      · exact Only.bind (only_perform.mpr trivial) fun ino => only_pure _
  refine Only.bind (hremote.bind fun a => ?_) fun a => ?_
  · cases a with
    | ok attr =>
      dsimp only
      split
      · exact Only.bind (only_perform.mpr trivial) fun _ => only_pure _
      · exact only_pure _
    | error e =>
      refine Only.bind (only_perform.mpr trivial) fun m => ?_
      cases m with
      | some m => exact Only.bind (only_perform.mpr trivial) fun ino => only_pure _
      | none => exact only_pure _
  · cases a <;> exact only_pure _

theorem only_setattr_inKernel (ino : Nat) {mode size : Option Nat}
    (hmode : ∀ m ∈ mode, m < 2 ^ 32) (hsize : ∀ n ∈ size, n < 2 ^ 63) :
    Only InKernel (RemoteFs.setattr cfg ino mode size) := by
  have hset : ∀ path, Only InKernel (setSize cfg path size) := by
    intro path
    cases size with
    | none => exact only_pure _
    | some size =>
      refine (only_drainUploads trivial).bind fun a => ?_
      cases a with
      | error e => exact only_pure _
      | ok u =>
        have hask : InKernel (.call (.truncate path.text size)) := hsize size rfl
        refine (only_rpc hask).bind fun _ => ?_
        exact Only.bind (only_perform.mpr trivial) fun _ => only_pure _
  have hchmod : ∀ path, Only InKernel (setMode cfg path mode) := by
    intro path
    cases mode with
    | none => exact only_pure _
    | some mode =>
      have hask : InKernel (.call (.chmod path.text mode)) := hmode mode rfl
      exact (only_rpc hask).bind fun _ => only_perform.mpr trivial
  refine Only.bind (only_perform.mpr trivial) fun p => ?_
  cases p with
  | none => exact only_pure _
  | some path =>
    refine (hset path).bind fun a => ?_
    cases a with
    | error e => exact only_pure _
    | ok u => exact (hchmod path).bind fun _ => only_replyAttr_inKernel path _

theorem only_flush_inKernel (ino : Nat) : Only InKernel (RemoteFs.flush ino) := by
  refine Only.bind (only_perform.mpr trivial) fun p => ?_
  cases p with
  | none => exact only_pure _
  | some path =>
    refine (only_drainUploads trivial).bind fun a => ?_
    cases a <;> exact only_pure _

theorem only_release_inKernel (ino : Nat) : Only InKernel (RemoteFs.release ino) := by
  refine Only.bind (only_perform.mpr trivial) fun p => ?_
  cases p with
  | none => exact only_pure _
  | some path => exact (only_drainUploads trivial).bind fun _ => only_pure _

/-- **The handlers of an open file** ask for nothing outside the bounds. -/
theorem only_open_inKernel {ino : Nat} {r : KernelRequest} (hr : r.OfOpen ino)
    (hk : r.FromKernel) : Only InKernel (RemoteFs.handle cfg r) := by
  cases r with
  | read i offset size => exact only_read_inKernel i hk.1 hk.2
  | write i offset data => exact only_write_inKernel i hk
  | setattr i mode size => exact only_setattr_inKernel i hk.1 hk.2
  | flush i => exact only_flush_inKernel i
  | fsync i => exact only_flush_inKernel i
  | release i => exact only_release_inKernel i
  | getattr i =>
    refine Only.bind (only_perform.mpr trivial) fun p => ?_
    cases p with
    | none => exact only_pure _
    | some path => exact only_replyAttr_inKernel path _
  | _ => exact absurd hr id

/-- The offsets of the chunks of a file. -/
theorem chunkOffsets_lt {start size x : Nat} (h : x ∈ chunkOffsets start size) : x < size := by
  obtain ⟨i, hi, rfl⟩ := List.mem_map.mp h
  have hi : i < (size - start + fetchChunkBytes - 1) / fetchChunkBytes := List.mem_range.mp hi
  have hchunk : fetchChunkBytes = 1024 * 1024 := rfl
  rw [hchunk] at hi ⊢
  omega

theorem only_prefetchChunks_inKernel (path : String) (file : PathBuf) {size : Nat}
    (hsize : size < 2 ^ 63) : ∀ offsets : List Nat, (∀ x ∈ offsets, x < size) →
      Only InKernel (prefetchChunks path file size offsets)
  | [], _ => only_pure _
  | start :: rest, h => by
      rw [List.forall_mem_cons] at h
      have hchunk : fetchChunkBytes = 1024 * 1024 := rfl
      have hask : InKernel
          (.call (.readFile path (some start) (some (min (size - start) fetchChunkBytes)))) :=
        ⟨start, _, rfl, rfl, by omega, by omega⟩
      have hfetch : Only InKernel
          (fetchChunk path start (min (size - start) fetchChunkBytes)) := by
        refine Only.bind (only_perform.mpr hask) fun a => ?_
        cases a <;> exact only_pure _
      refine hfetch.bind fun bytes => ?_
      cases bytes with
      | none => exact only_pure _
      | some bytes =>
        refine Only.bind (only_perform.mpr trivial) fun wrote => ?_
        split
        · exact only_prefetchChunks_inKernel path file hsize rest h.2
        · exact only_pure _

/-- **A prefetch** asks for what lies within the size it was told. -/
theorem within_prefetchTask (path : PathBuf) :
    Within Heard InKernel (prefetchTask cfg path) := by
  refine within_bind.mpr ⟨?_, fun _ _ => within_perform.mpr trivial⟩
  refine within_bind.mpr ⟨within_perform.mpr trivial, fun a ha => ?_⟩
  have ha : Heard (.call (.stat path.text)) a := returns_perform.mp ha
  cases a with
  | error e => exact within_pure _
  | ok value =>
    have hsize : ((StatResult.ofJson value).map (·.size)).getD 0 < 2 ^ 63 := by
      cases hstat : StatResult.ofJson value with
      | none => exact Nat.two_pow_pos 63
      | some stat => exact ha value stat rfl hstat
    refine within_bind.mpr ⟨within_perform.mpr trivial, fun len _ => ?_⟩
    dsimp only
    split
    · exact within_pure _
    · exact (only_prefetchChunks_inKernel _ _ hsize _ fun x hx => chunkOffsets_lt hx).within

end Handlers

/-! ## 4. Runs -/

/-- A mount over the agent, and the content of the file. -/
structure ServedFile where
  mount : Mount ServedEnv
  content : List UInt8

/-- The same with the two copies of a file. -/
def ServedFile.view (name : String) (s : ServedFile) : MountedFile :=
  ⟨s.mount.mapEnv (·.view name), s.content⟩

/-- **One step**: as `OpenStep`, over the agent. -/
inductive ServedStep (cfg : MountCfg) (path : PathBuf) (ino : Nat) :
    ServedFile → OpenEvent → ServedFile → Prop where
  | request {s : ServedFile} {t : Mount ServedEnv} {r : KernelRequest} {reply : Reply}
      (hr : r.OfOpen ino) (hk : r.FromKernel)
      (hx : Exec (mountSem cfg (agentSem cfg path)) (RemoteFs.handle cfg r) s.mount reply t) :
      ServedStep cfg path ino s (.request r reply) ⟨t, r.content reply s.content⟩
  | background {s : ServedFile} {t : Mount ServedEnv} {e : MountEvent}
      (he : e = .flush ∨ ∃ p, e = .prefetch p)
      (hs : MountStep cfg (agentSem cfg path) s.mount e t) :
      ServedStep cfg path ino s (.background e) ⟨t, s.content⟩
  | disk {s : ServedFile} (d : CacheDisk) :
      ServedStep cfg path ino s (.disk d)
        ⟨{ s.mount with env := { s.mount.env with disk := d } }, s.content⟩

/-- A mount as `FileInit` has it, with the file on the agent's disk. -/
structure ServedInit (cfg : MountCfg) (path : PathBuf) (ino : Nat) (s : ServedFile) : Prop where
  init : FileInit cfg path ino (s.view path.text)
  there : ∃ content, s.mount.env.agent.files path.text = some content

abbrev ServedRun (cfg : MountCfg) (path : PathBuf) (ino : Nat)
    (hist : List (ServedFile × OpenEvent)) (s : ServedFile) : Prop :=
  Run (ServedInit cfg path ino) (ServedStep cfg path ino) hist s

section Runs

variable {cfg : MountCfg} {path : PathBuf} {ino : Nat}

theorem ServedInit.bounded {s : ServedFile} (h : ServedInit cfg path ino s) :
    Bounded path.text s.mount where
  file := h.there
  queue := h.init.sound.queue
  below p x hx := absurd hx (h.init.queue.not_pending p x)

/-- **The step lemma.** -/
theorem ServedStep.view {s t : ServedFile} {e : OpenEvent} (h : Bounded path.text s.mount)
    (hs : ServedStep cfg path ino s e t) :
    OpenStep cfg path ino (s.view path.text) e (t.view path.text) ∧ Bounded path.text t.mount := by
  cases hs with
  | request hr hk hx =>
    obtain ⟨hview, hI, -⟩ := hx.simulates (fun e u a v he hI hu => mountSem_view he hI hu)
      (only_open_inKernel hr hk).within h
    exact ⟨.request hr hview, hI⟩
  | background he hs =>
    cases hs with
    | flush hs =>
      obtain ⟨hview, hI⟩ := flusherStep_view h hs
      exact ⟨.background he (.flush hview), hI⟩
    | @prefetch _ p hk hx =>
      obtain ⟨hview, hI, -⟩ := hx.simulates (fun e u a v he hI hu => mountSem_view he hI hu)
        (within_prefetchTask p) { h with }
      exact ⟨.background he (.prefetch hk hview), hI⟩
    | _ => rcases he with he | ⟨p, he⟩ <;> cases he
  | disk d => exact ⟨.disk d, { h with }⟩

/-- **The mount over the agent.** Every run of the mount with the agent at the other end of the wire
    is a run over the target that was described, with the file the agent's disk has; and whatever is
    on its disk, the agent answers every request about an open file. -/
theorem agent_serves_mount {hist : List (ServedFile × OpenEvent)} {s : ServedFile}
    (h : ServedRun cfg path ino hist s) :
    OpenRun cfg path ino (hist.map fun x => (x.1.view path.text, x.2)) (s.view path.text) ∧
    ∀ (d : AgentDisk) (r : BridgeRequest) (i : Nat), r.AboutOpen →
      ∃ answer d', AgentServes d (r.frame i) answer d' := by
  suffices hall : OpenRun cfg path ino (hist.map fun x => (x.1.view path.text, x.2))
      (s.view path.text) ∧ Bounded path.text s.mount from
    ⟨hall.1, fun d r i hr => agent_answers hr d i⟩
  induction h with
  | start h0 => exact ⟨.start h0.init, h0.bounded⟩
  | step _ hs ih =>
    obtain ⟨hrun, hI⟩ := ih
    obtain ⟨hstep, hI⟩ := hs.view hI
    exact ⟨.step hrun hstep, hI⟩

end Runs

/-- A disk with one file. -/
def notesDisk (content : List UInt8) (h : content.length < 2 ^ 63) : AgentDisk :=
  AgentDisk.set ⟨fun _ => none, fun p c hc => by cases hc⟩ notesPath.text content h

theorem notesDisk_files (content : List UInt8) (h : content.length < 2 ^ 63) :
    (notesDisk content h).files notesPath.text = some content := by
  show Function.update (fun _ => none) notesPath.text (some content) notesPath.text = _
  exact Function.update_self _ _ _

/-- The mount where the cache cannot be written, over the agent with that disk. -/
def notesServed (content : List UInt8) (h : content.length < 2 ^ 63) (sent : List BridgeRequest) :
    Mount ServedEnv :=
  ⟨notesInodes, emptyQueue, [], [], [], sent, ⟨none, .unusable, notesDisk content h⟩⟩

theorem notesServed_view (content : List UInt8) (h : content.length < 2 ^ 63)
    (sent : List BridgeRequest) :
    (notesServed content h sent).mapEnv (·.view notesPath.text) =
      notesMounted ⟨none, content, .unusable⟩ emptyQueue sent := by
  have henv : (notesServed content h sent).env.view notesPath.text =
      ⟨none, content, .unusable⟩ := by
    show FileEnv.mk none (((notesDisk content h).files notesPath.text).getD []) .unusable = _
    rw [notesDisk_files]
    rfl
  show Mount.mk _ _ _ _ _ _ ((notesServed content h sent).env.view notesPath.text) = _
  rw [henv]
  rfl

theorem notesServed_file (content written : List UInt8) (h : content.length < 2 ^ 63)
    (sent : List BridgeRequest) :
    ServedFile.view notesPath.text ⟨notesServed content h sent, written⟩ =
      ⟨notesMounted ⟨none, content, .unusable⟩ emptyQueue sent, written⟩ :=
  congrArg (MountedFile.mk · written) (notesServed_view content h sent)

/-- The first byte is written past the cache: the agent puts it into the file. -/
theorem agent_serves_mount_notes :
    OpenRun notesMount notesPath 2
      [(⟨notesMounted ⟨none, notesRemote, .unusable⟩ emptyQueue [], notesRemote⟩,
        .request (.write 2 0 [9]) (.written 1))]
      ⟨notesMounted ⟨none, [9, 2, 3], .unusable⟩ emptyQueue
        [.writeAt notesPath.text 0 (Base64.encode [9])], [9, 2, 3]⟩ := by
  have hold : notesRemote.length < 2 ^ 63 := show 3 < 2 ^ 63 by decide
  have hnew : [9, 2, (3 : UInt8)].length < 2 ^ 63 := show 3 < 2 ^ 63 by decide
  have hinit : ServedInit notesMount notesPath 2
      ⟨notesServed notesRemote hold [], notesRemote⟩ := by
    refine ⟨?_, notesRemote, notesDisk_files notesRemote hold⟩
    rw [notesServed_file]
    exact { notes_init none (fun c hc => by cases hc) with }
  have hagent : Agent.writeAt (notesDisk notesRemote hold).files notesPath.text 0
      (Base64.encode [9]) none =
        (Function.update (notesDisk notesRemote hold).files notesPath.text (some [9, 2, 3]),
          .ok (bytesWritten 1)) :=
    writeAt_encode (notesDisk_files notesRemote hold) (by decide) (by decide)
  have hfiles : (notesDisk [9, 2, 3] hnew).files =
      (Agent.writeAt (notesDisk notesRemote hold).files notesPath.text 0
        (Base64.encode [9]) none).1 := by
    rw [hagent]
    exact (Function.update_idem _ _ _).symm
  have hserves : AgentServes (notesDisk notesRemote hold)
      ((BridgeRequest.writeAt notesPath.text 0 (Base64.encode [9])).frame 1)
      (responseValue 1 (some (bytesWritten 1)) none) (notesDisk [9, 2, 3] hnew) := by
    have hrange : (BridgeRequest.writeAt notesPath.text 0 (Base64.encode [9])).InRange :=
      show 0 < 2 ^ 64 by decide
    refine ⟨1, .writeAt ⟨notesPath.text, 0, Base64.encode [9]⟩, _,
      dispatched_frame hrange rfl 1, .writeAt hfiles, ?_⟩
    dsimp only
    rw [hagent]
    rfl
  have hwrite : Exec (mountSem notesMount (agentSem notesMount notesPath))
      (RemoteFs.handle notesMount (.write 2 0 [9])) (notesServed notesRemote hold [])
      (.written 1) (notesServed [9, 2, 3] hnew
        [.writeAt notesPath.text 0 (Base64.encode [9])]) := by
    refine .ask (a := some notesPath) ⟨notes_known.symm, rfl⟩ ?_
    refine .ask (a := ()) ⟨_, ⟨rfl, rfl⟩, rfl⟩ ?_
    -- the cache file cannot be opened
    have hput : agentSem notesMount notesPath (.writeAt (notesMount.cachePath notesPath) 0 [9])
        (notesServed notesRemote hold []).env false (notesServed notesRemote hold []).env := by
      exact ⟨rfl, fileSem_writeAt.mpr ⟨rfl, rfl⟩⟩
    refine .ask (a := false) ⟨_, hput, rfl⟩ ?_
    exact .ask (a := .ok (bytesWritten 1))
      ⟨⟨none, .unusable, notesDisk [9, 2, 3] hnew⟩, ⟨rfl, rfl, 1, _, hserves, rfl⟩, rfl⟩
      (.done _ _)
  have hrun : ServedRun notesMount notesPath 2
      [(⟨notesServed notesRemote hold [], notesRemote⟩,
        .request (.write 2 0 [9]) (.written 1))]
      ⟨notesServed [9, 2, 3] hnew [.writeAt notesPath.text 0 (Base64.encode [9])], [9, 2, 3]⟩ :=
    .step (.start hinit) (.request (r := .write 2 0 [9]) ⟨rfl, by decide⟩
      (show 0 + 1 < 2 ^ 63 by decide) hwrite)
  have hview := (agent_serves_mount hrun).1
  rw [List.map_singleton, notesServed_file, notesServed_file] at hview
  exact hview

end Relayfs

/-
  File:      Relayfs/Bridge/Calls.lean
  Subject:   THE CALLS OF THE BRIDGE'S CLIENT, STEP BY STEP (bridge/src/client.rs): any number of
             `call` and `call_timeout` tasks, the read loop of the current connection, and the
             supervisor that installs and clears the sink.

  Client.lean takes each of `call`'s parts for one step; here a step is what happens between two
  awaits. The pending map and the sink have a lock each. A call holds the lock of the sink from the
  moment it looks at it until its send has ended, or until it has unregistered and returns.

  * `Calls`, `CallStep` -- the tasks' common state and the steps of each;
  * `CallTask.settle` -- what the other end of a call's oneshot channel does to the call;
  * `CallsInv` -- an entry of the pending map is a call with nothing in its channel; a call that
    still listens has its entry, or its sender is in the hands of the read loop.
-/
import Relayfs.Bridge.Client
import Relayfs.Lib.Run

namespace Relayfs

open Lib

/-! ## 1. The tasks -/

/-- The receiving end of a call's oneshot channel: nothing yet, a result, or a sender that was
    dropped. -/
inductive Slot where
  | empty
  | sent (r : CallResult)
  | dropped

/-- Where a call is: it has not registered yet; it is in the pending map; it sends on a connection
    and holds the sink's lock; it cannot send, holds the lock and has to unregister; it awaits its
    result; it gives up and has to unregister; it has returned. -/
inductive CallPhase where
  | begun
  | registered
  | sending (conn : Nat)
  | refused (e : RpcError)
  | waiting (conn : Nat)
  | expired (conn : Nat) (e : RpcError)
  | returned (r : CallResult)

/-- The connection on which a call has sent its frame, once it has. -/
def CallPhase.sentOn : CallPhase → Option Nat
  | waiting conn | expired conn _ => some conn
  | _ => none

/-- A `call`, or where `timed` a `call_timeout`. -/
structure CallTask where
  timed : Bool
  phase : CallPhase
  slot : Slot

/-- The receiver exists and nothing has come yet. -/
def CallTask.listens (t : CallTask) : Bool :=
  match t.phase, t.slot with
  | .expired _ _, _ | .returned _, _ => false
  | _, .empty => true
  | _, _ => false

/-- What the sender does to the call: `tx.send`, or its drop. -/
def CallTask.settle (t : CallTask) (x : Slot) : CallTask :=
  if t.listens then { t with slot := x } else t

/-- The read loop: there is none; it awaits a frame; it has taken the sender of a call out of the
    pending map and a result for it; it has ended, and fails the senders it found in the map. -/
inductive Reader where
  | off
  | reading (conn : Nat)
  | holding (conn n : Nat) (r : CallResult)
  | failing (conn : Nat) (rest : Table Nat Nat)

/-- The connection of the read loop. -/
def Reader.conn : Reader → Option Nat
  | off => none
  | reading conn | holding conn _ _ | failing conn _ => some conn

/-- The read loop has taken the sender of the call out of the pending map. -/
def Reader.Holds : Reader → Nat → Prop
  | holding _ m _, n => m = n
  | failing _ rest, n => rest.lookup (wireId n) = some n
  | _, _ => False

/-- `AgentClient` and its tasks. `pending` maps an id to the call whose sender is there; `lock` is
    the call that holds the sink's lock; the calls below `nextId` have their number, connections
    are numbered too. -/
structure Calls where
  nextId : Nat
  pending : Table Nat Nat
  sink : Option Nat
  lock : Option Nat
  calls : Nat → CallTask
  reader : Reader
  opened : Nat

namespace Calls

/-- A client that has just been created. -/
def new : Calls := ⟨1, ∅, none, none, fun _ => ⟨false, .begun, .empty⟩, .off, 0⟩

/-- A change to one call. -/
def modify (s : Calls) (n : Nat) (f : CallTask → CallTask) : Calls :=
  { s with calls := Function.update s.calls n (f (s.calls n)) }

def setPhase (s : Calls) (n : Nat) (phase : CallPhase) : Calls :=
  s.modify n fun t => { t with phase := phase }

/-- The sender under an id, if there is one, is dropped. -/
def dropSender (s : Calls) (id : Nat) : Calls :=
  match s.pending.lookup id with
  | none => s
  | some k => s.modify k (·.settle .dropped)

/-- `pending.insert(id, Pending { tx })`. -/
def register (s : Calls) (n : Nat) : Calls :=
  { (s.dropSender (wireId n)).setPhase n .registered with
    pending := s.pending.insert (wireId n) n }

/-- `pending.remove(&id)`, and the call returns the error. -/
def unregister (s : Calls) (n : Nat) (e : RpcError) : Calls :=
  { (s.dropSender (wireId n)).setPhase n (.returned (.err e)) with
    pending := s.pending.erase (wireId n) }

/-- The `id` by which a frame is a response. -/
def frameId (value : Json) : Option Nat := (value.get "id").bind Json.asU64

/-- The read loop reads a frame: the sender under its id leaves the map. -/
def read (s : Calls) (conn : Nat) (value : Json) : Calls :=
  match frameId value with
  | none => s
  | some id =>
      match s.pending.lookup id with
      | none => s
      | some n =>
          { s with
            pending := s.pending.erase id
            reader := .holding conn n (responseResult value) }

end Calls

/-! ## 2. The steps -/

/-- What `call` and `call_timeout` return beside the answer. -/
def offlineError : RpcError := ⟨Code.agentOffline, "relay connection offline (reconnecting)"⟩

def sendError (text : String) : RpcError := ⟨Code.internalError, "send failed: " ++ text⟩

def lostError : RpcError := ⟨Code.agentOffline, "connection to agent lost"⟩

def timeoutError : RpcError := ⟨Code.cancelled, "request timed out"⟩

inductive CallEvent where
  /-- The steps of a call: it takes its number, registers, looks at the sink, ends its send, takes
      the result, or unregisters; and its timer. -/
  | call (timed : Bool)
  | register (n : Nat)
  | acquire (n : Nat)
  | sent (n : Nat)
  | sendFailed (n : Nat) (text : String)
  | collect (n : Nat)
  | unregister (n : Nat)
  | timer (n : Nat)
  /-- The read loop: a frame, the `tx.send` that follows, the end of the loop, and the `tx.send` to
      one of the calls it found. -/
  | frame (value : Json)
  | deliver
  | endRead
  | fail (id : Nat)
  /-- The supervisor installs a sink and starts the read loop; and clears the sink after it. -/
  | opened
  | clear

/-- **One step of the client.** -/
inductive CallStep : Calls → CallEvent → Calls → Prop where
  | call (s : Calls) (timed : Bool) : CallStep s (.call timed)
      { s with
        nextId := s.nextId + 1
        calls := Function.update s.calls s.nextId ⟨timed, .begun, .empty⟩ }
  | register {s : Calls} {n : Nat} (hn : n < s.nextId) (hp : (s.calls n).phase = .begun) :
      CallStep s (.register n) (s.register n)
  | acquire {s : Calls} {n conn : Nat} (hp : (s.calls n).phase = .registered)
      (hl : s.lock = none) (hs : s.sink = some conn) :
      CallStep s (.acquire n) { s.setPhase n (.sending conn) with lock := some n }
  | offline {s : Calls} {n : Nat} (hp : (s.calls n).phase = .registered)
      (hl : s.lock = none) (hs : s.sink = none) :
      CallStep s (.acquire n) { s.setPhase n (.refused offlineError) with lock := some n }
  | sent {s : Calls} {n conn : Nat} (hp : (s.calls n).phase = .sending conn) :
      CallStep s (.sent n) { s.setPhase n (.waiting conn) with lock := none }
  | sendFailed {s : Calls} {n conn : Nat} (hp : (s.calls n).phase = .sending conn) (text : String) :
      CallStep s (.sendFailed n text) (s.setPhase n (.refused (sendError text)))
  | refused {s : Calls} {n : Nat} {e : RpcError} (hp : (s.calls n).phase = .refused e) :
      CallStep s (.unregister n) { s.unregister n e with lock := none }
  | expired {s : Calls} {n conn : Nat} {e : RpcError} (hp : (s.calls n).phase = .expired conn e) :
      CallStep s (.unregister n) (s.unregister n e)
  | timer {s : Calls} {n conn : Nat} (hp : (s.calls n).phase = .waiting conn)
      (htimed : (s.calls n).timed = true) (hslot : (s.calls n).slot = .empty) :
      CallStep s (.timer n) (s.setPhase n (.expired conn timeoutError))
  | collect {s : Calls} {n conn : Nat} {r : CallResult}
      (hp : (s.calls n).phase = .waiting conn) (hslot : (s.calls n).slot = .sent r) :
      CallStep s (.collect n) (s.setPhase n (.returned r))
  | dropped {s : Calls} {n conn : Nat} (hp : (s.calls n).phase = .waiting conn)
      (htimed : (s.calls n).timed = false) (hslot : (s.calls n).slot = .dropped) :
      CallStep s (.collect n) (s.setPhase n (.returned (.err lostError)))
  | droppedTimed {s : Calls} {n conn : Nat} (hp : (s.calls n).phase = .waiting conn)
      (htimed : (s.calls n).timed = true) (hslot : (s.calls n).slot = .dropped) :
      CallStep s (.collect n) (s.setPhase n (.expired conn lostError))
  | frame {s : Calls} {conn : Nat} (hr : s.reader = .reading conn) (value : Json) :
      CallStep s (.frame value) (s.read conn value)
  | deliver {s : Calls} {conn n : Nat} {r : CallResult} (hr : s.reader = .holding conn n r) :
      CallStep s .deliver { s.modify n (·.settle (.sent r)) with reader := .reading conn }
  | endRead {s : Calls} {conn : Nat} (hr : s.reader = .reading conn) :
      CallStep s .endRead { s with pending := ∅, reader := .failing conn s.pending }
  | fail {s : Calls} {conn id n : Nat} {rest : Table Nat Nat} (hr : s.reader = .failing conn rest)
      (hn : rest.lookup id = some n) :
      CallStep s (.fail id)
        { s.modify n (·.settle (.sent AgentClient.lostResult)) with
          reader := .failing conn (rest.erase id) }
  | opened {s : Calls} (hr : s.reader = .off) (hl : s.lock = none) :
      CallStep s .opened
        { s with sink := some s.opened, opened := s.opened + 1, reader := .reading s.opened }
  | clear {s : Calls} {conn : Nat} (hr : s.reader = .failing conn ∅) (hl : s.lock = none) :
      CallStep s .clear { s with sink := none, reader := .off }

/-- A run of the client from its creation. -/
abbrev CallsRun (hist : List (Calls × CallEvent)) (s : Calls) : Prop :=
  Run (· = Calls.new) CallStep hist s

/-! ## 3. What an operation leaves -/

section Fields

variable {s : Calls} {n m id : Nat} {f : CallTask → CallTask} {t : CallTask} {phase : CallPhase}

@[grind =] theorem Calls.modify_calls :
    (s.modify n f).calls m = if m = n then f (s.calls m) else s.calls m := by
  unfold Calls.modify
  by_cases h : m = n
  · subst h
    simp
  · simp [h]

@[grind =] theorem Calls.setPhase_calls : (s.setPhase n phase).calls m
    = if m = n then { s.calls m with phase := phase } else s.calls m :=
  modify_calls

@[grind =] theorem Calls.dropSender_calls : (s.dropSender id).calls m
    = if s.pending.lookup id = some m then (s.calls m).settle .dropped else s.calls m := by
  unfold Calls.dropSender
  cases h : s.pending.lookup id with
  | none => simp
  | some k =>
    dsimp only
    rw [modify_calls]
    by_cases hk : m = k
    · simp [hk]
    · rw [if_neg hk, if_neg fun e => hk (Option.some.inj e).symm]

/-- Neither touches anything but calls. -/
theorem Calls.setPhase_dropSender (s : Calls) (id n : Nat) (phase : CallPhase) :
    (s.dropSender id).setPhase n phase
      = { s with calls := ((s.dropSender id).setPhase n phase).calls } := by
  unfold Calls.dropSender
  split <;> rfl

theorem Calls.register_eq (s : Calls) (n : Nat) : s.register n
    = { s with
        pending := s.pending.insert (wireId n) n
        calls := ((s.dropSender (wireId n)).setPhase n .registered).calls } := by
  rw [Calls.register, Calls.setPhase_dropSender]

theorem Calls.unregister_eq (s : Calls) (n : Nat) (e : RpcError) : s.unregister n e
    = { s with
        pending := s.pending.erase (wireId n)
        calls := ((s.dropSender (wireId n)).setPhase n (.returned (.err e))).calls } := by
  rw [Calls.unregister, Calls.setPhase_dropSender]

/-- **A frame** changes nothing, or it takes the sender under its id. -/
theorem Calls.read_cases (s : Calls) (conn : Nat) (value : Json) :
    (s.read conn value = s ∧ ∀ id, frameId value = some id → s.pending.lookup id = none) ∨
      ∃ id n, frameId value = some id ∧ s.pending.lookup id = some n ∧
        s.read conn value
          = { s with
              pending := s.pending.erase id
              reader := .holding conn n (responseResult value) } := by
  unfold Calls.read
  cases hf : frameId value with
  | none => exact .inl ⟨rfl, fun id h => by cases h⟩
  | some id =>
    dsimp only
    cases hn : s.pending.lookup id with
    | none =>
      refine .inl ⟨rfl, fun id' h => ?_⟩
      cases h
      exact hn
    | some n => exact .inr ⟨id, n, rfl, hn, rfl⟩

@[grind =] theorem CallTask.settle_phase (x : Slot) : (t.settle x).phase = t.phase := by
  unfold CallTask.settle
  split <;> rfl

@[grind =] theorem CallTask.settle_timed (x : Slot) : (t.settle x).timed = t.timed := by
  unfold CallTask.settle
  split <;> rfl

@[grind =] theorem CallTask.settle_slot (x : Slot) :
    (t.settle x).slot = if t.listens then x else t.slot := by
  unfold CallTask.settle
  split <;> rfl

end Fields

/-! ## 4. The invariant -/

/-- The call is past its registration and has not returned. -/
def CallPhase.isOpen : CallPhase → Bool
  | begun | returned _ => false
  | _ => true

/-- The call has not given up. -/
def CallPhase.hears : CallPhase → Bool
  | expired _ _ | returned _ => false
  | _ => true

theorem CallTask.listens_iff {t : CallTask} :
    t.listens = true ↔ t.phase.hears = true ∧ t.slot = .empty := by
  obtain ⟨timed, phase, slot⟩ := t
  cases phase <;> cases slot <;> simp [CallTask.listens, CallPhase.hears]

/-- **The client's invariant.** -/
structure CallsInv (s : Calls) : Prop where
  fresh : ∀ n, (s.calls n).phase ≠ .begun → n < s.nextId
  begun : ∀ n, (s.calls n).phase = .begun → (s.calls n).slot = .empty
  entry : ∀ id n, s.pending.lookup id = some n →
    wireId n = id ∧ (s.calls n).slot = .empty ∧ (s.calls n).phase.isOpen = true
  hand : ∀ n, s.reader.Holds n → s.pending.lookup (wireId n) ≠ some n ∧
    (s.calls n).slot = .empty ∧ (s.calls n).phase ≠ .begun
  rest : ∀ conn rest, s.reader = .failing conn rest → ∀ id n, rest.lookup id = some n →
    wireId n = id
  waits : ∀ n, (s.calls n).phase ≠ .begun → (s.calls n).phase.hears = true →
    (s.calls n).slot = .empty → s.pending.lookup (wireId n) = some n ∨ s.reader.Holds n
  refused : ∀ n e, (s.calls n).phase = .refused e → s.lock = some n
  sending : ∀ n conn, (s.calls n).phase = .sending conn → s.lock = some n ∧ s.sink = some conn
  link : s.sink = s.reader.conn

theorem callsInv_new : CallsInv .new where
  fresh n h := absurd rfl h
  begun n h := rfl
  entry id n h := by simp [Calls.new] at h
  hand n h := h.elim
  rest conn rest h := by cases h
  waits n h := absurd rfl h
  refused n e h := by cases h
  sending n conn h := by cases h
  link := rfl

section Keep

variable {s : Calls} {n : Nat}

/-- A call that is registered and has not given up goes on; it may take or leave the lock. -/
theorem CallsInv.goOn (h : CallsInv s) (hb : (s.calls n).phase ≠ .begun)
    (hhears : (s.calls n).phase.hears = true) {phase : CallPhase} {lock : Option Nat}
    (hb' : phase ≠ .begun) (hret : ∀ r, phase = .returned r → (s.calls n).slot ≠ .empty)
    (href : ∀ e, phase = .refused e → lock = some n)
    (hsend : ∀ conn, phase = .sending conn → lock = some n ∧ s.sink = some conn)
    (hother : ∀ m, m ≠ n → s.lock = some m → lock = some m) :
    CallsInv { s.setPhase n phase with lock := lock } := by
  have hopen : (s.calls n).slot = .empty → phase.isOpen = true := by
    intro hslot
    cases phase with
    | begun => exact absurd rfl hb'
    | returned r => exact absurd hslot (hret r rfl)
    | _ => rfl
  obtain ⟨fresh, begun, entry, hand, rest, waits, refused, sending, link⟩ := h
  unfold Calls.setPhase Calls.modify
  exact
    { fresh := by grind
      begun := by grind
      entry := by grind
      hand := by grind
      rest := rest
      waits := by grind
      refused := by grind
      sending := by grind
      link := link }

/-- A call enters the pending map. The sender under its id, if there is one, is dropped. -/
theorem CallsInv.register (h : CallsInv s) (hn : n < s.nextId)
    (hp : (s.calls n).phase = .begun) : CallsInv (s.register n) := by
  have hslot := h.begun n hp
  have hnew : ∀ id, s.pending.lookup id ≠ some n := by
    intro id hid
    have := (h.entry id n hid).2.2
    rw [hp] at this
    cases this
  obtain ⟨fresh, begun, entry, hand, rest, waits, refused, sending, link⟩ := h
  rw [Calls.register_eq]
  exact
    { fresh := by grind
      begun := by grind [CallPhase.isOpen]
      entry := by grind [CallPhase.isOpen, AList.lookup_insert, AList.lookup_insert_ne]
      hand := by grind [AList.lookup_insert, AList.lookup_insert_ne]
      rest := rest
      waits := by grind [AList.lookup_insert, AList.lookup_insert_ne, CallTask.listens_iff]
      refused := by grind
      sending := by grind
      link := link }

/-- A call that cannot go on leaves the pending map and returns; whoever is under its id is
    dropped. -/
theorem CallsInv.unregister (h : CallsInv s) {e : RpcError} {lock : Option Nat}
    (hp : (s.calls n).phase.isOpen = true)
    (hother : ∀ m, m ≠ n → s.lock = some m → lock = some m) :
    CallsInv { s.unregister n e with lock := lock } := by
  have hb : (s.calls n).phase ≠ .begun := by
    intro hb
    rw [hb] at hp
    cases hp
  obtain ⟨fresh, begun, entry, hand, rest, waits, refused, sending, link⟩ := h
  rw [Calls.unregister_eq]
  exact
    { fresh := by grind
      begun := by grind [CallPhase.isOpen]
      entry := by grind [AList.lookup_erase, AList.lookup_erase_ne]
      hand := by grind [AList.lookup_erase, AList.lookup_erase_ne]
      rest := rest
      waits := by grind [CallPhase.hears, AList.lookup_erase_ne, CallTask.listens_iff]
      refused := by grind
      sending := by grind
      link := link }

/-- The read loop uses up a sender it holds. -/
theorem CallsInv.settle (h : CallsInv s) {x : Slot} {reader : Reader} (hx : x ≠ .empty)
    (hn : s.reader.Holds n) (hr : ∀ m, reader.Holds m ↔ s.reader.Holds m ∧ m ≠ n)
    (hrest : ∀ conn rest, reader = .failing conn rest → ∀ id m, rest.lookup id = some m →
      wireId m = id) (hconn : reader.conn = s.reader.conn) :
    CallsInv { s.modify n (·.settle x) with reader := reader } := by
  have hnot : ∀ id, s.pending.lookup id ≠ some n := by
    intro id hid
    obtain ⟨hw, -⟩ := h.entry id n hid
    exact (h.hand n hn).1 (hw ▸ hid)
  obtain ⟨fresh, begun, entry, hand, rest, waits, refused, sending, link⟩ := h
  unfold Calls.modify
  exact
    { fresh := by grind
      begun := by grind
      entry := by grind
      hand := by grind
      rest := hrest
      waits := by grind [CallTask.listens_iff]
      refused := by grind
      sending := by grind
      link := link.trans hconn.symm }

/-- The read loop takes a sender out of the pending map. -/
theorem CallsInv.read (h : CallsInv s) {conn : Nat} (hr : s.reader = .reading conn)
    (value : Json) : CallsInv (s.read conn value) := by
  rcases s.read_cases conn value with ⟨hread, -⟩ | ⟨id, n, -, hn, hread⟩
  · rw [hread]
    exact h
  · rw [hread]
    obtain ⟨hid, hslot, hopen⟩ := h.entry id n hn
    obtain ⟨fresh, begun, entry, hand, rest, waits, refused, sending, link⟩ := h
    rw [hr] at waits link
    exact
      { fresh := fresh
        begun := begun
        entry := by grind [AList.lookup_erase, AList.lookup_erase_ne]
        hand := by grind [Reader.Holds, CallPhase.isOpen, AList.lookup_erase]
        rest := fun conn rest hf => by cases hf
        waits := by grind [Reader.Holds, AList.lookup_erase_ne]
        refused := refused
        sending := sending
        link := link }

/-- The read loop takes the pending map. -/
theorem CallsInv.endRead (h : CallsInv s) {conn : Nat} (hr : s.reader = .reading conn) :
    CallsInv { s with pending := ∅, reader := .failing conn s.pending } := by
  obtain ⟨fresh, begun, entry, hand, rest, waits, refused, sending, link⟩ := h
  rw [hr] at waits link
  exact
    { fresh := fresh
      begun := begun
      entry := fun id n hn => by simp at hn
      hand := by grind [Reader.Holds, CallPhase.isOpen, AList.lookup_empty]
      rest := by grind
      waits := by grind [Reader.Holds]
      refused := refused
      sending := sending
      link := link }

end Keep

/-- **Every step keeps the invariant.** -/
theorem CallsInv.step {s s' : Calls} {e : CallEvent} (h : CallsInv s) (hs : CallStep s e s') :
    CallsInv s' := by
  cases hs with
  | call timed =>
    obtain ⟨fresh, begun, entry, hand, rest, waits, refused, sending, link⟩ := h
    constructor <;> grind
  | register hn hp => exact h.register hn hp
  | acquire hp hl hs =>
    refine h.goOn (by rw [hp]; nofun) (by rw [hp]; rfl) nofun nofun nofun ?_ ?_
    · intro c h'
      cases h'
      exact ⟨rfl, hs⟩
    · intro m _ hm
      rw [hl] at hm
      cases hm
  | offline hp hl hs =>
    refine h.goOn (by rw [hp]; nofun) (by rw [hp]; rfl) nofun nofun (fun _ _ => rfl) nofun ?_
    intro m _ hm
    rw [hl] at hm
    cases hm
  | sent hp =>
    refine h.goOn (by rw [hp]; nofun) (by rw [hp]; rfl) nofun nofun nofun nofun ?_
    intro m hne hm
    rw [(h.sending _ _ hp).1] at hm
    exact absurd (Option.some.inj hm).symm hne
  | sendFailed hp text =>
    have hlock := (h.sending _ _ hp).1
    exact h.goOn (by rw [hp]; nofun) (by rw [hp]; rfl) nofun nofun (fun _ _ => hlock) nofun
      fun m _ hm => hm
  | refused hp =>
    refine h.unregister (by rw [hp]; rfl) fun m hne hm => ?_
    rw [h.refused _ _ hp] at hm
    exact absurd (Option.some.inj hm).symm hne
  | @expired n conn e hp =>
    have hkeep : { s.unregister n e with lock := s.lock } = s.unregister n e := by
      rw [Calls.unregister_eq]
    rw [← hkeep]
    exact h.unregister (by rw [hp]; rfl) fun m _ hm => hm
  | timer hp htimed hslot =>
    exact h.goOn (by rw [hp]; nofun) (by rw [hp]; rfl) nofun nofun nofun nofun fun m _ hm => hm
  | collect hp hslot =>
    refine h.goOn (by rw [hp]; nofun) (by rw [hp]; rfl) nofun ?_ nofun nofun fun m _ hm => hm
    intro r _ he
    rw [hslot] at he
    cases he
  | dropped hp htimed hslot =>
    refine h.goOn (by rw [hp]; nofun) (by rw [hp]; rfl) nofun ?_ nofun nofun fun m _ hm => hm
    intro r _ he
    rw [hslot] at he
    cases he
  | droppedTimed hp htimed hslot =>
    exact h.goOn (by rw [hp]; nofun) (by rw [hp]; rfl) nofun nofun nofun nofun fun m _ hm => hm
  | frame hr value => exact h.read hr value
  | @deliver conn n r hr =>
    refine h.settle nofun ?_ ?_ nofun ?_ <;> rw [hr]
    · rfl
    · intro m
      simp only [Reader.Holds]
      exact ⟨False.elim, fun hm => hm.2 hm.1.symm⟩
    · rfl
  | endRead hr => exact h.endRead hr
  | @fail conn id n rest hr hn =>
    have hrest := h.rest conn rest hr
    have hid : wireId n = id := hrest id n hn
    refine h.settle nofun ?_ ?_ ?_ ?_
    · rw [hr]
      show rest.lookup (wireId n) = some n
      rw [hid, hn]
    · intro m
      rw [hr]
      simp only [Reader.Holds]
      grind [AList.lookup_erase, AList.lookup_erase_ne]
    · intro c r h' id' m hm
      cases h'
      exact hrest id' m (lookup_of_erase hm)
    · rw [hr]
      rfl
  | opened hr hl =>
    obtain ⟨fresh, begun, entry, hand, rest, waits, refused, sending, link⟩ := h
    rw [hr] at waits link
    exact
      { fresh, begun, entry, refused
        hand := nofun
        rest := nofun
        waits := waits
        sending := fun n conn hp => by
          have hs := (sending n conn hp).1
          rw [hl] at hs
          cases hs
        link := rfl }
  | clear hr hl =>
    obtain ⟨fresh, begun, entry, hand, rest, waits, refused, sending, link⟩ := h
    rw [hr] at waits
    exact
      { fresh, begun, entry, refused
        hand := nofun
        rest := nofun
        waits := fun n hb hh hs => (waits n hb hh hs).imp_right fun hn => by
          simp [Reader.Holds] at hn
        sending := fun n conn hp => by
          have hs := (sending n conn hp).1
          rw [hl] at hs
          cases hs
        link := rfl }

/-- **An entry after a step** is a call that has just registered, or it was there before; then it has
    sent no frame meanwhile, or it has just sent it on the connection of the sink. -/
theorem CallStep.of_entry {s s' : Calls} {e : CallEvent} (hs : CallStep s e s') (hi : CallsInv s)
    {id n : Nat} (hn : s'.pending.lookup id = some n) :
    (e = .register n ∧ (s'.calls n).phase = .registered) ∨
      s.pending.lookup id = some n ∧
        ((s'.calls n).phase.sentOn = (s.calls n).phase.sentOn ∨
          e = .sent n ∧ (s'.calls n).phase.sentOn = s.sink) := by
  have hslot : s.pending.lookup id = some n → (s.calls n).slot = .empty :=
    fun h => (hi.entry id n h).2.1
  have hid : s.pending.lookup id = some n → wireId n = id := fun h => (hi.entry id n h).1
  cases hs with
  | call timed =>
    -- the new call is not registered
    have hne : n ≠ s.nextId := by
      intro e
      have := hi.fresh n (by have := (hi.entry id n hn).2.2; grind [CallPhase.isOpen])
      omega
    exact .inr ⟨hn, .inl (by simp [hne])⟩
  | @register m hm hp =>
    by_cases hnew : id = wireId m
    · rw [Calls.register_eq, hnew, AList.lookup_insert] at hn
      cases hn
      exact .inl ⟨rfl, by simp [Calls.register_eq, Calls.setPhase_calls]⟩
    · rw [Calls.register_eq, AList.lookup_insert_ne hnew] at hn
      refine .inr ⟨hn, .inl ?_⟩
      have hne : n ≠ m := fun e => hnew (e ▸ (hid hn).symm)
      rw [Calls.register_eq]
      grind
  | @sent m conn hp =>
    have hsink := (hi.sending m conn hp).2
    refine .inr ⟨hn, ?_⟩
    by_cases hm : n = m
    · subst hm
      exact .inr ⟨rfl, by simp [Calls.setPhase_calls, CallPhase.sentOn, hsink]⟩
    · exact .inl (by simp [Calls.setPhase_calls, hm])
  | acquire hp | offline hp | sendFailed hp | timer hp htimed hempty | collect hp hslot'
      | dropped hp htimed hslot' | droppedTimed hp htimed hslot' =>
    have hn : s.pending.lookup id = some n := hn
    exact .inr ⟨hn, .inl (by grind [CallPhase.sentOn])⟩
  | refused hp | expired hp =>
    rw [Calls.unregister_eq] at hn ⊢
    have hold := lookup_of_erase hn
    refine .inr ⟨hold, .inl ?_⟩
    grind [AList.lookup_erase]
  | @frame conn hr value =>
    rcases s.read_cases conn value with ⟨hread, -⟩ | ⟨id', m, -, -, hread⟩
    · rw [hread] at hn ⊢
      exact .inr ⟨hn, .inl rfl⟩
    · rw [hread] at hn ⊢
      exact .inr ⟨lookup_of_erase hn, .inl rfl⟩
  | deliver hr =>
    exact .inr ⟨hn, .inl (by dsimp only; grind)⟩
  | endRead hr => simp at hn
  | fail hr hm => exact .inr ⟨hn, .inl (by dsimp only; grind)⟩
  | opened hr hl => exact .inr ⟨hn, .inl rfl⟩
  | clear hr hl => exact .inr ⟨hn, .inl rfl⟩

/-- A call that has returned stays so. -/
theorem CallStep.returned {s s' : Calls} {e : CallEvent} (hs : CallStep s e s') (hi : CallsInv s)
    {n : Nat} {r : CallResult} (hp : (s.calls n).phase = .returned r) :
    (s'.calls n).phase = .returned r := by
  cases hs with
  | call timed =>
    have hlt := hi.fresh n (by rw [hp]; nofun)
    have hne : n ≠ s.nextId := by omega
    simp [hne, hp]
  | register hn hb =>
    rw [Calls.register_eq]
    grind
  | refused hb | expired hb =>
    rw [Calls.unregister_eq]
    grind
  | frame hr value =>
    rcases s.read_cases _ value with ⟨hread, -⟩ | ⟨id, m, -, -, hread⟩ <;>
    · rw [hread]
      exact hp
  | endRead | opened | clear => exact hp
  | _ => grind

/-- Numbers are taken one after the other. -/
theorem CallStep.nextId_le {s s' : Calls} {e : CallEvent} (hs : CallStep s e s') :
    s.nextId ≤ s'.nextId := by
  cases hs with
  | call timed => exact Nat.le_succ _
  | register => rw [Calls.register_eq]
  | refused | expired => rw [Calls.unregister_eq]
  | frame hr value =>
    rcases s.read_cases _ value with ⟨hread, -⟩ | ⟨id, m, -, -, hread⟩ <;> rw [hread]
  | _ => exact le_refl _

theorem CallsRun.inv {hist : List (Calls × CallEvent)} {s : Calls} (h : CallsRun hist s) :
    CallsInv s :=
  h.invariant (fun _ h0 => h0 ▸ callsInv_new) fun _ _ _ hi hs => hi.step hs

theorem CallsRun.nextId_le {hist : List (Calls × CallEvent)} {s : Calls} (h : CallsRun hist s) :
    ∀ t ∈ visited hist s, t.nextId ≤ s.nextId := by
  induction h with
  | start h0 =>
    rw [visited_nil, List.forall_mem_singleton]
  | step hr hs ih =>
    rw [visited_cons, List.forall_mem_cons]
    exact ⟨le_refl _, fun t ht => (ih t ht).trans hs.nextId_le⟩

/-- Two calls with one id are one, where fewer than `2 ^ 64` were made. -/
theorem CallsInv.wireId_inj {s : Calls} (hi : CallsInv s) (hfew : s.nextId ≤ 2 ^ 64) {m n : Nat}
    (hm : (s.calls m).phase ≠ .begun) (hn : (s.calls n).phase ≠ .begun)
    (h : wireId m = wireId n) : m = n := by
  have hm := hi.fresh m hm
  have hn := hi.fresh n hn
  unfold wireId at h
  omega

end Relayfs

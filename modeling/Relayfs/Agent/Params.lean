/-
  File:      Relayfs/Agent/Params.lean
  Subject:   WHAT THE AGENT READS FROM A REQUEST (the `*Params` of the `protocol` crate with
             `serde_json::from_value`, and the methods that agent/src/conn.rs `dispatch` knows).

  The bridge builds `params` with `json!`, field by field; the agent reads them into a structure of
  its own. No type is shared between the two ends but the names of the fields.

  * `WriteFileParams` .. `ChmodParams` -- the structures that `Responses.lean` does not have, with
    their readers;
  * `AgentCall`, `handlers`, `dispatched` -- the handler a frame leads to, with its parameters;
  * `BridgeRequest.agentCall`, `AgentCall.request` -- one end's words for the other's;
  * `request_round_trip` -- the agent reads what the bridge built, and what it reads from any frame
    it reads again from the bridge's frame for that.
-/
import Relayfs.Agent.Commands
import Relayfs.Agent.Responses

namespace Relayfs

/-! ## 1. Structures -/

/-- A `u32`. -/
def Json.asU32 (v : Json) : Option Nat := v.asU64.filter (· < 2 ^ 32)

/-- `WriteFileParams`. -/
structure WriteFileParams where
  path : String
  data : String
  createDirs : Option Bool

/-- `from_value` of `WriteFileParams`. -/
def WriteFileParams.ofJson (v : Json) : Option WriteFileParams :=
  match v.fieldsOf ["path", "data", "create_dirs"] with
  | some [path, data, createDirs] => do
      let path ← path.bind Json.asStr
      let data ← data.bind Json.asStr
      let createDirs ← Json.optional Json.asBool createDirs
      return ⟨path, data, createDirs⟩
  | _ => none

/-- `ListDirParams`. -/
structure ListDirParams where
  path : String

/-- `from_value` of `ListDirParams`. -/
def ListDirParams.ofJson (v : Json) : Option ListDirParams :=
  match v.fieldsOf ["path"] with
  | some [path] => do
      let path ← path.bind Json.asStr
      return ⟨path⟩
  | _ => none

/-- `StatParams`. -/
structure StatParams where
  path : String

/-- `from_value` of `StatParams`. -/
def StatParams.ofJson (v : Json) : Option StatParams :=
  match v.fieldsOf ["path"] with
  | some [path] => do
      let path ← path.bind Json.asStr
      return ⟨path⟩
  | _ => none

/-- `MkdirParams`. -/
structure MkdirParams where
  path : String
  mode : Option Nat

/-- `from_value` of `MkdirParams`. -/
def MkdirParams.ofJson (v : Json) : Option MkdirParams :=
  match v.fieldsOf ["path", "mode"] with
  | some [path, mode] => do
      let path ← path.bind Json.asStr
      let mode ← Json.optional Json.asU32 mode
      return ⟨path, mode⟩
  | _ => none

/-- `RemoveParams`. -/
structure RemoveParams where
  path : String
  recursive : Option Bool

/-- `from_value` of `RemoveParams`. -/
def RemoveParams.ofJson (v : Json) : Option RemoveParams :=
  match v.fieldsOf ["path", "recursive"] with
  | some [path, recursive] => do
      let path ← path.bind Json.asStr
      let recursive ← Json.optional Json.asBool recursive
      return ⟨path, recursive⟩
  | _ => none

/-- `RenameParams`. -/
structure RenameParams where
  source : String
  dest : String

/-- `from_value` of `RenameParams`. -/
def RenameParams.ofJson (v : Json) : Option RenameParams :=
  match v.fieldsOf ["from", "to"] with
  | some [source, dest] => do
      let source ← source.bind Json.asStr
      let dest ← dest.bind Json.asStr
      return ⟨source, dest⟩
  | _ => none

/-- `CopyParams`. -/
structure CopyParams where
  source : String
  dest : String
  recursive : Option Bool

/-- `from_value` of `CopyParams`. -/
def CopyParams.ofJson (v : Json) : Option CopyParams :=
  match v.fieldsOf ["from", "to", "recursive"] with
  | some [source, dest, recursive] => do
      let source ← source.bind Json.asStr
      let dest ← dest.bind Json.asStr
      let recursive ← Json.optional Json.asBool recursive
      return ⟨source, dest, recursive⟩
  | _ => none

/-- `WriteAtParams`. -/
structure WriteAtParams where
  path : String
  offset : Nat
  data : String

/-- `from_value` of `WriteAtParams`. -/
def WriteAtParams.ofJson (v : Json) : Option WriteAtParams :=
  match v.fieldsOf ["path", "offset", "data"] with
  | some [path, offset, data] => do
      let path ← path.bind Json.asStr
      let offset ← offset.bind Json.asUnsigned
      let data ← data.bind Json.asStr
      return ⟨path, offset, data⟩
  | _ => none

/-- `TruncateParams`. -/
structure TruncateParams where
  path : String
  size : Nat

/-- `from_value` of `TruncateParams`. -/
def TruncateParams.ofJson (v : Json) : Option TruncateParams :=
  match v.fieldsOf ["path", "size"] with
  | some [path, size] => do
      let path ← path.bind Json.asStr
      let size ← size.bind Json.asUnsigned
      return ⟨path, size⟩
  | _ => none

/-- `SymlinkParams`. -/
structure SymlinkParams where
  link : String
  target : String

/-- `from_value` of `SymlinkParams`. -/
def SymlinkParams.ofJson (v : Json) : Option SymlinkParams :=
  match v.fieldsOf ["link", "target"] with
  | some [link, target] => do
      let link ← link.bind Json.asStr
      let target ← target.bind Json.asStr
      return ⟨link, target⟩
  | _ => none

/-- `ChmodParams`. -/
structure ChmodParams where
  path : String
  mode : Nat

/-- `from_value` of `ChmodParams`. -/
def ChmodParams.ofJson (v : Json) : Option ChmodParams :=
  match v.fieldsOf ["path", "mode"] with
  | some [path, mode] => do
      let path ← path.bind Json.asStr
      let mode ← mode.bind Json.asU32
      return ⟨path, mode⟩
  | _ => none

/-- `from_value` of `GetCommandResultParams`. -/
def GetCommandResultParams.ofJson (v : Json) : Option GetCommandResultParams :=
  match v.fieldsOf ["execution_id", "head", "tail"] with
  | some [executionId, head, tail] => do
      let executionId ← executionId.bind Json.asUnsigned
      let head ← Json.optional Json.asUnsigned head
      let tail ← Json.optional Json.asUnsigned tail
      return ⟨executionId, head, tail⟩
  | _ => none

/-! ## 2. Calls -/

/-- **A handler of the agent, with its parameters.** -/
inductive AgentCall where
  | runCommand (p : RunCommandParams)
  | readFile (p : ReadFileParams)
  | writeFile (p : WriteFileParams)
  | listDir (p : ListDirParams)
  | stat (p : StatParams)
  | mkdir (p : MkdirParams)
  | remove (p : RemoveParams)
  | rename (p : RenameParams)
  | copy (p : CopyParams)
  | writeAt (p : WriteAtParams)
  | truncate (p : TruncateParams)
  | symlink (p : SymlinkParams)
  | chmod (p : ChmodParams)
  | streamFile (p : ReadFileParams)
  | getCommandResult (p : GetCommandResultParams)
  | ping

/-- The methods of `dispatch`, each with what its handler reads from `params`. -/
def handlers : List (String × (Json → Option AgentCall)) :=
  [(Method.runCommand, fun v => (RunCommandParams.ofJson v).map .runCommand),
    (Method.readFile, fun v => (ReadFileParams.ofJson v).map .readFile),
    (Method.writeFile, fun v => (WriteFileParams.ofJson v).map .writeFile),
    (Method.listDir, fun v => (ListDirParams.ofJson v).map .listDir),
    (Method.stat, fun v => (StatParams.ofJson v).map .stat),
    (Method.mkdir, fun v => (MkdirParams.ofJson v).map .mkdir),
    (Method.remove, fun v => (RemoveParams.ofJson v).map .remove),
    (Method.rename, fun v => (RenameParams.ofJson v).map .rename),
    (Method.copy, fun v => (CopyParams.ofJson v).map .copy),
    (Method.writeAt, fun v => (WriteAtParams.ofJson v).map .writeAt),
    (Method.truncate, fun v => (TruncateParams.ofJson v).map .truncate),
    (Method.symlink, fun v => (SymlinkParams.ofJson v).map .symlink),
    (Method.chmod, fun v => (ChmodParams.ofJson v).map .chmod),
    ("stream_file", fun v => (ReadFileParams.ofJson v).map .streamFile),
    (Method.getCommandResult, fun v => (GetCommandResultParams.ofJson v).map .getCommandResult),
    (Method.ping, fun _ => some .ping)]

/-- They are the methods that `dispatch` answers with a handler's outcome. -/
theorem handlers_methods : handlers.map Prod.fst = agentMethods := rfl

/-- What `dispatch` does with a frame. -/
inductive Dispatched where
  | ignored
  | unknown (id : Nat) (method : String)
  | unreadable (id : Nat) (method : String)
  | call (id : Nat) (c : AgentCall)

/-- **`dispatch`, up to the handler.** -/
def dispatched (value : Json) : Dispatched :=
  match (value.get "id").bind Json.asU64 with
  | none => .ignored
  | some id =>
      match handlers.lookup (requestMethod value) with
      | none => .unknown id (requestMethod value)
      | some read =>
          match read (requestParams value) with
          | none => .unreadable id (requestMethod value)
          | some c => .call id c

/-! ## 3. The two ends -/

/-- The numbers of a request fit their types on the wire. -/
def BridgeRequest.InRange : BridgeRequest → Prop
  | .runCommand _ _ timeoutSecs _ _ _ => ∀ n ∈ timeoutSecs, n < 2 ^ 64
  | .readFile _ offset limit => (∀ n ∈ offset, n < 2 ^ 64) ∧ ∀ n ∈ limit, n < 2 ^ 64
  | .mkdir _ mode => ∀ n ∈ mode, n < 2 ^ 32
  | .writeAt _ offset _ => offset < 2 ^ 64
  | .truncate _ size => size < 2 ^ 64
  | .chmod _ mode => mode < 2 ^ 32
  | .getCommandResult executionId head tail =>
      executionId < 2 ^ 64 ∧ (∀ n ∈ head, n < 2 ^ 64) ∧ ∀ n ∈ tail, n < 2 ^ 64
  | _ => True

/-- The call that a request of the bridge asks for; the relay answers `list_targets` itself. -/
def BridgeRequest.agentCall : BridgeRequest → Option AgentCall
  | .runCommand command cwd timeoutSecs input wait _ =>
      some (.runCommand ⟨command, cwd, none, timeoutSecs, input, wait⟩)
  | .readFile path offset limit => some (.readFile ⟨path, offset, limit⟩)
  | .writeFile path data createDirs => some (.writeFile ⟨path, data, createDirs⟩)
  | .listDir path => some (.listDir ⟨path⟩)
  | .stat path => some (.stat ⟨path⟩)
  | .mkdir path mode => some (.mkdir ⟨path, mode⟩)
  | .remove path recursive => some (.remove ⟨path, recursive⟩)
  | .rename source dest => some (.rename ⟨source, dest⟩)
  | .copy source dest recursive => some (.copy ⟨source, dest, recursive⟩)
  | .writeAt path offset data => some (.writeAt ⟨path, offset, data⟩)
  | .truncate path size => some (.truncate ⟨path, size⟩)
  | .symlink link target => some (.symlink ⟨link, target⟩)
  | .chmod path mode => some (.chmod ⟨path, mode⟩)
  | .ping => some .ping
  | .listTargets => none
  | .getCommandResult executionId head tail =>
      some (.getCommandResult ⟨executionId, head, tail⟩)

/-- The request that asks for a call. The bridge streams no file and sets no environment. -/
def AgentCall.request : AgentCall → Option BridgeRequest
  | .runCommand ⟨command, cwd, none, timeoutSecs, input, wait⟩ =>
      some (.runCommand command cwd timeoutSecs input wait none)
  | .runCommand _ => none
  | .readFile p => some (.readFile p.path p.offset p.limit)
  | .writeFile p => some (.writeFile p.path p.data p.createDirs)
  | .listDir p => some (.listDir p.path)
  | .stat p => some (.stat p.path)
  | .mkdir p => some (.mkdir p.path p.mode)
  | .remove p => some (.remove p.path p.recursive)
  | .rename p => some (.rename p.source p.dest)
  | .copy p => some (.copy p.source p.dest p.recursive)
  | .writeAt p => some (.writeAt p.path p.offset p.data)
  | .truncate p => some (.truncate p.path p.size)
  | .symlink p => some (.symlink p.link p.target)
  | .chmod p => some (.chmod p.path p.mode)
  | .streamFile _ => none
  | .getCommandResult p => some (.getCommandResult p.executionId p.head p.tail)
  | .ping => some .ping

/-- The call of a request for a call. -/
theorem AgentCall.agentCall_request {c : AgentCall} {r : BridgeRequest}
    (h : c.request = some r) : r.agentCall = some c := by
  cases c with
  | runCommand p =>
    obtain ⟨command, cwd, env, timeoutSecs, input, wait⟩ := p
    cases env with
    | none =>
      cases h
      rfl
    | some env => cases h
  | streamFile p => cases h
  | _ =>
    cases h
    rfl

/-- The request for the call of a request that was left to the relay to address. -/
theorem BridgeRequest.request_agentCall {r : BridgeRequest} {c : AgentCall}
    (hu : r.Unaddressed) (h : r.agentCall = some c) : c.request = some r := by
  cases r with
  | runCommand command cwd timeoutSecs input wait target =>
    obtain rfl : target = none := hu
    cases h
    rfl
  | listTargets => cases h
  | _ =>
    cases h
    rfl

/-! ## 4. Fields -/

namespace Json

theorem asUnsigned_nat {n : Nat} (h : n < 2 ^ 64) : (nat n).asUnsigned = some n := by
  rw [asUnsigned, asU64_nat, Option.filter_some, if_pos (decide_eq_true h)]

theorem asU32_nat {n : Nat} (h : n < 2 ^ 32) : (nat n).asU32 = some n := by
  rw [asU32, asU64_nat, Option.filter_some, if_pos (decide_eq_true h)]

theorem lt_of_asUnsigned {v : Json} {n : Nat} (h : v.asUnsigned = some n) : n < 2 ^ 64 := by
  obtain ⟨-, hn⟩ := Option.filter_eq_some_iff.mp h
  exact of_decide_eq_true hn

theorem lt_of_asU32 {v : Json} {n : Nat} (h : v.asU32 = some n) : n < 2 ^ 32 := by
  obtain ⟨-, hn⟩ := Option.filter_eq_some_iff.mp h
  exact of_decide_eq_true hn

section Optional

variable {α : Type} {read : Json → Option α} {write : α → Json} {o : Option α}

/-- An option that was written is read back, where its values are. -/
theorem optional_opt (h : ∀ a ∈ o, read (write a) = some a) (hnull : ∀ a, write a ≠ null) :
    optional read (some (opt write o)) = some o := by
  cases o with
  | none => rfl
  | some a =>
    have hread : optional read (some (write a)) = (read (write a)).map some := by
      cases hw : write a with
      | null => exact absurd hw (hnull a)
      | _ => rfl
    rw [opt, hread, h a rfl]
    rfl

/-- What was read into an option is a value that was read. -/
theorem forall_of_optional {f : Option Json} {P : α → Prop} (h : optional read f = some o)
    (hread : ∀ v a, read v = some a → P a) : ∀ a ∈ o, P a := by
  intro a ha
  cases f with
  | none =>
    cases h
    cases ha
  | some v =>
    cases v with
    | null =>
      cases h
      cases ha
    | _ =>
      obtain ⟨b, hb, rfl⟩ := Option.map_eq_some_iff.mp h
      cases ha
      exact hread _ _ hb

end Optional

@[simp] theorem optional_str (o : Option String) : optional asStr (some (opt str o)) = some o :=
  optional_opt (fun _ _ => rfl) fun _ => Json.noConfusion

@[simp] theorem optional_bool (o : Option Bool) :
    optional asBool (some (opt bool o)) = some o :=
  optional_opt (fun _ _ => rfl) fun _ => Json.noConfusion

theorem optional_unsigned {o : Option Nat} (h : ∀ n ∈ o, n < 2 ^ 64) :
    optional asUnsigned (some (opt nat o)) = some o :=
  optional_opt (fun n hn => asUnsigned_nat (h n hn)) fun _ => Json.noConfusion

theorem optional_u32 {o : Option Nat} (h : ∀ n ∈ o, n < 2 ^ 32) :
    optional asU32 (some (opt nat o)) = some o :=
  optional_opt (fun n hn => asU32_nat (h n hn)) fun _ => Json.noConfusion

end Json

/-! ## 5. From the bridge to the agent -/

/-- What the handler of a method reads from the `params` of a request. -/
theorem handler_reads {r : BridgeRequest} {c : AgentCall} (h : r.InRange)
    (hc : r.agentCall = some c) :
    ∃ read, handlers.lookup r.method = some read ∧ read r.params = some c := by
  cases r with
  | runCommand command cwd timeoutSecs input wait target =>
    refine ⟨_, rfl, ?_⟩
    have hfields :
        (BridgeRequest.runCommand command cwd timeoutSecs input wait target).params.fieldsOf
          ["command", "cwd", "env", "timeout_secs", "input", "wait"] =
        some [some (.str command), some (.opt .str cwd), none, some (.opt .nat timeoutSecs),
          some (.opt .str input), some (.opt .bool wait)] := by
      cases target <;> rfl
    cases hc
    rw [RunCommandParams.ofJson, hfields]
    dsimp only [Option.bind_some, Json.asStr]
    rw [Json.optional_str, Json.optional_str, Json.optional_bool, Json.optional_unsigned h]
    rfl
  | readFile path offset limit =>
    refine ⟨_, rfl, ?_⟩
    cases hc
    show (Option.map AgentCall.readFile do
      let offset ← Json.optional Json.asUnsigned (some (.opt .nat offset))
      let limit ← Json.optional Json.asUnsigned (some (.opt .nat limit))
      return ⟨path, offset, limit⟩) = _
    rw [Json.optional_unsigned h.1, Json.optional_unsigned h.2]
    rfl
  | writeFile path data createDirs =>
    refine ⟨_, rfl, ?_⟩
    cases hc
    show (Option.map AgentCall.writeFile do
      let createDirs ← Json.optional Json.asBool (some (.opt .bool createDirs))
      return ⟨path, data, createDirs⟩) = _
    rw [Json.optional_bool]
    rfl
  | mkdir path mode =>
    refine ⟨_, rfl, ?_⟩
    cases hc
    show (Option.map AgentCall.mkdir do
      let mode ← Json.optional Json.asU32 (some (.opt .nat mode))
      return ⟨path, mode⟩) = _
    rw [Json.optional_u32 h]
    rfl
  | remove path recursive =>
    refine ⟨_, rfl, ?_⟩
    cases hc
    show (Option.map AgentCall.remove do
      let recursive ← Json.optional Json.asBool (some (.opt .bool recursive))
      return ⟨path, recursive⟩) = _
    rw [Json.optional_bool]
    rfl
  | copy source dest recursive =>
    refine ⟨_, rfl, ?_⟩
    cases hc
    show (Option.map AgentCall.copy do
      let recursive ← Json.optional Json.asBool (some (.opt .bool recursive))
      return ⟨source, dest, recursive⟩) = _
    rw [Json.optional_bool]
    rfl
  | writeAt path offset data =>
    refine ⟨_, rfl, ?_⟩
    cases hc
    show (Option.map AgentCall.writeAt do
      let offset ← (Json.nat offset).asUnsigned
      return ⟨path, offset, data⟩) = _
    rw [Json.asUnsigned_nat h]
    rfl
  | truncate path size =>
    refine ⟨_, rfl, ?_⟩
    cases hc
    show (Option.map AgentCall.truncate do
      let size ← (Json.nat size).asUnsigned
      return ⟨path, size⟩) = _
    rw [Json.asUnsigned_nat h]
    rfl
  | chmod path mode =>
    refine ⟨_, rfl, ?_⟩
    cases hc
    show (Option.map AgentCall.chmod do
      let mode ← (Json.nat mode).asU32
      return ⟨path, mode⟩) = _
    rw [Json.asU32_nat h]
    rfl
  | getCommandResult executionId head tail =>
    refine ⟨_, rfl, ?_⟩
    cases hc
    show (Option.map AgentCall.getCommandResult do
      let executionId ← (Json.nat executionId).asUnsigned
      let head ← Json.optional Json.asUnsigned (some (.opt .nat head))
      let tail ← Json.optional Json.asUnsigned (some (.opt .nat tail))
      return ⟨executionId, head, tail⟩) = _
    rw [Json.asUnsigned_nat h.1, Json.optional_unsigned h.2.1, Json.optional_unsigned h.2.2]
    rfl
  | listTargets => cases hc
  | _ =>
    refine ⟨_, rfl, ?_⟩
    cases hc
    rfl

/-- **A request of the bridge reaches its handler with its parameters.** -/
theorem dispatched_frame {r : BridgeRequest} {c : AgentCall} (h : r.InRange)
    (hc : r.agentCall = some c) (id : Nat) : dispatched (r.frame id) = .call id c := by
  obtain ⟨read, hmethod, hread⟩ := handler_reads h hc
  have hid : ((r.frame id).get "id").bind Json.asU64 = some id := rfl
  have hname : requestMethod (r.frame id) = r.method := rfl
  have hparams : requestParams (r.frame id) = r.params := rfl
  unfold dispatched
  rw [hid]
  dsimp only
  rw [hname, hmethod]
  dsimp only
  rw [hparams, hread]

/-! ## 6. What the agent accepts -/

namespace Json

theorem lt_of_optional_unsigned {f : Option Json} {o : Option Nat}
    (h : optional asUnsigned f = some o) : ∀ n ∈ o, n < 2 ^ 64 :=
  forall_of_optional h fun _ _ => lt_of_asUnsigned

theorem lt_of_optional_u32 {f : Option Json} {o : Option Nat}
    (h : optional asU32 f = some o) : ∀ n ∈ o, n < 2 ^ 32 :=
  forall_of_optional h fun _ _ => lt_of_asU32

end Json

section Fits

variable {v : Json}

/-! What `fieldsOf` gives where something was read. -/

theorem fields_of_two {α : Type} {fields : Option (List (Option Json))} {p : α}
    {read : Option Json → Option Json → Option α}
    (h : (match fields with
      | some [a, b] => read a b
      | _ => none) = some p) : ∃ a b, read a b = some p := by
  rcases fields with - | - | ⟨a, - | ⟨b, - | ⟨c, rest⟩⟩⟩
  case some.cons.cons.nil => exact ⟨a, b, h⟩
  all_goals cases h

theorem fields_of_three {α : Type} {fields : Option (List (Option Json))} {p : α}
    {read : Option Json → Option Json → Option Json → Option α}
    (h : (match fields with
      | some [a, b, c] => read a b c
      | _ => none) = some p) : ∃ a b c, read a b c = some p := by
  rcases fields with - | - | ⟨a, - | ⟨b, - | ⟨c, - | ⟨d, rest⟩⟩⟩⟩
  case some.cons.cons.cons.nil => exact ⟨a, b, c, h⟩
  all_goals cases h

theorem RunCommandParams.fits {p : RunCommandParams} (h : ofJson v = some p) :
    ∀ n ∈ p.timeoutSecs, n < 2 ^ 64 := by
  unfold ofJson at h
  split at h
  · obtain ⟨command, -, h⟩ := Option.bind_eq_some_iff.mp h
    obtain ⟨cwd, -, h⟩ := Option.bind_eq_some_iff.mp h
    obtain ⟨env, -, h⟩ := Option.bind_eq_some_iff.mp h
    obtain ⟨timeoutSecs, ht, h⟩ := Option.bind_eq_some_iff.mp h
    obtain ⟨input, -, h⟩ := Option.bind_eq_some_iff.mp h
    obtain ⟨wait, -, h⟩ := Option.bind_eq_some_iff.mp h
    cases h
    exact Json.lt_of_optional_unsigned ht
  · cases h

theorem ReadFileParams.fits {p : ReadFileParams} (h : ofJson v = some p) :
    (∀ n ∈ p.offset, n < 2 ^ 64) ∧ ∀ n ∈ p.limit, n < 2 ^ 64 := by
  obtain ⟨_, _, _, h⟩ := fields_of_three h
  obtain ⟨path, -, h⟩ := Option.bind_eq_some_iff.mp h
  obtain ⟨offset, hoffset, h⟩ := Option.bind_eq_some_iff.mp h
  obtain ⟨limit, hlimit, h⟩ := Option.bind_eq_some_iff.mp h
  cases h
  exact ⟨Json.lt_of_optional_unsigned hoffset, Json.lt_of_optional_unsigned hlimit⟩

theorem MkdirParams.fits {p : MkdirParams} (h : ofJson v = some p) :
    ∀ n ∈ p.mode, n < 2 ^ 32 := by
  obtain ⟨_, _, h⟩ := fields_of_two h
  obtain ⟨path, -, h⟩ := Option.bind_eq_some_iff.mp h
  obtain ⟨mode, hmode, h⟩ := Option.bind_eq_some_iff.mp h
  cases h
  exact Json.lt_of_optional_u32 hmode

theorem WriteAtParams.fits {p : WriteAtParams} (h : ofJson v = some p) : p.offset < 2 ^ 64 := by
  obtain ⟨_, _, _, h⟩ := fields_of_three h
  obtain ⟨path, -, h⟩ := Option.bind_eq_some_iff.mp h
  obtain ⟨offset, hoffset, h⟩ := Option.bind_eq_some_iff.mp h
  obtain ⟨data, -, h⟩ := Option.bind_eq_some_iff.mp h
  cases h
  obtain ⟨w, -, hw⟩ := Option.bind_eq_some_iff.mp hoffset
  exact Json.lt_of_asUnsigned hw

theorem TruncateParams.fits {p : TruncateParams} (h : ofJson v = some p) : p.size < 2 ^ 64 := by
  obtain ⟨_, _, h⟩ := fields_of_two h
  obtain ⟨path, -, h⟩ := Option.bind_eq_some_iff.mp h
  obtain ⟨size, hsize, h⟩ := Option.bind_eq_some_iff.mp h
  cases h
  obtain ⟨w, -, hw⟩ := Option.bind_eq_some_iff.mp hsize
  exact Json.lt_of_asUnsigned hw

theorem ChmodParams.fits {p : ChmodParams} (h : ofJson v = some p) : p.mode < 2 ^ 32 := by
  obtain ⟨_, _, h⟩ := fields_of_two h
  obtain ⟨path, -, h⟩ := Option.bind_eq_some_iff.mp h
  obtain ⟨mode, hmode, h⟩ := Option.bind_eq_some_iff.mp h
  cases h
  obtain ⟨w, -, hw⟩ := Option.bind_eq_some_iff.mp hmode
  exact Json.lt_of_asU32 hw

theorem GetCommandResultParams.fits {p : GetCommandResultParams} (h : ofJson v = some p) :
    p.executionId < 2 ^ 64 ∧ (∀ n ∈ p.head, n < 2 ^ 64) ∧ ∀ n ∈ p.tail, n < 2 ^ 64 := by
  obtain ⟨_, _, _, h⟩ := fields_of_three h
  obtain ⟨executionId, hid, h⟩ := Option.bind_eq_some_iff.mp h
  obtain ⟨head, hhead, h⟩ := Option.bind_eq_some_iff.mp h
  obtain ⟨tail, htail, h⟩ := Option.bind_eq_some_iff.mp h
  cases h
  obtain ⟨w, -, hw⟩ := Option.bind_eq_some_iff.mp hid
  exact ⟨Json.lt_of_asUnsigned hw, Json.lt_of_optional_unsigned hhead,
    Json.lt_of_optional_unsigned htail⟩

end Fits

/-- What a handler reads has numbers in range. -/
def ReadsInRange (read : Json → Option AgentCall) : Prop :=
  ∀ v c r, read v = some c → c.request = some r → r.InRange

theorem readsInRange_map {P : Type} {ofJson : Json → Option P} {mk : P → AgentCall}
    (h : ∀ v p r, ofJson v = some p → (mk p).request = some r → r.InRange) :
    ReadsInRange fun v => (ofJson v).map mk := by
  intro v c r hc hr
  obtain ⟨p, hp, rfl⟩ := Option.map_eq_some_iff.mp hc
  exact h v p r hp hr

/-- A structure without numbers. -/
theorem readsInRange_plain {P : Type} {ofJson : Json → Option P} {mk : P → AgentCall}
    (h : ∀ p r, (mk p).request = some r → r.InRange) : ReadsInRange fun v => (ofJson v).map mk :=
  readsInRange_map fun _ p r _ hr => h p r hr

theorem handlers_inRange : ∀ h ∈ handlers, ReadsInRange h.2 := by
  simp only [handlers, List.forall_mem_cons]
  refine ⟨readsInRange_map fun v p r hp hr => ?_, readsInRange_map fun v p r hp hr => ?_,
    readsInRange_plain fun p r hr => ?_, readsInRange_plain fun p r hr => ?_,
    readsInRange_plain fun p r hr => ?_, readsInRange_map fun v p r hp hr => ?_,
    readsInRange_plain fun p r hr => ?_, readsInRange_plain fun p r hr => ?_,
    readsInRange_plain fun p r hr => ?_, readsInRange_map fun v p r hp hr => ?_,
    readsInRange_map fun v p r hp hr => ?_, readsInRange_plain fun p r hr => ?_,
    readsInRange_map fun v p r hp hr => ?_, readsInRange_plain fun p r hr => ?_,
    readsInRange_map fun v p r hp hr => ?_, fun v c r hc hr => ?_, List.forall_mem_nil _⟩
  -- in the order of `handlers`
  · obtain ⟨command, cwd, env, timeoutSecs, input, wait⟩ := p
    cases env with
    | none =>
      cases hr
      exact RunCommandParams.fits hp
    | some env => cases hr
  · cases hr
    exact ReadFileParams.fits hp
  · cases hr
    trivial
  · cases hr
    trivial
  · cases hr
    trivial
  · cases hr
    exact MkdirParams.fits hp
  · cases hr
    trivial
  · cases hr
    trivial
  · cases hr
    trivial
  · cases hr
    exact WriteAtParams.fits hp
  · cases hr
    exact TruncateParams.fits hp
  · cases hr
    trivial
  · cases hr
    exact ChmodParams.fits hp
  · cases hr
  · cases hr
    exact GetCommandResultParams.fits hp
  · cases hc
    cases hr
    trivial

/-- A method's handler is in the list. -/
theorem mem_of_lookup {α : Type} {l : List (String × α)} {key : String} {a : α}
    (h : l.lookup key = some a) : (key, a) ∈ l := by
  obtain ⟨l₁, l₂, heq, -⟩ := List.lookup_eq_some_iff.mp h
  rw [heq]
  exact List.mem_append_right _ List.mem_cons_self

/-- The call of a frame comes from its handler. -/
theorem dispatched_eq_call {v : Json} {id : Nat} {c : AgentCall} (h : dispatched v = .call id c) :
    ∃ read, handlers.lookup (requestMethod v) = some read ∧ read (requestParams v) = some c := by
  unfold dispatched at h
  split at h
  · cases h
  · split at h
    · cases h
    · rename_i read hread
      split at h
      · cases h
      · rename_i c' hc
        cases h
        exact ⟨read, hread, hc⟩

end Relayfs

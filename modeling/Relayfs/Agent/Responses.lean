/-
  File:      Relayfs/Agent/Responses.lean
  Subject:   WHAT THE AGENT SENDS FOR ONE REQUEST on a live connection (agent/src/conn.rs `dispatch`,
             commands.rs `run_command`, files.rs `stream_file`).

  Most handlers return a value, which `dispatch` sends. Two write to the shared sink themselves:
  `stream_file` sends notifications, `run_command` in wait mode sends notifications and then a
  response of its own.

  * `Handled`, `runCommand`, `streamFile` -- what a handler sends and what it returns;
  * `framesFor` -- all the frames that a request leads to;
  * `answered_once_iff` -- exactly one of them is a response, and it carries what the handler
    returned, unless the handler has answered itself;
  * `run_command_answered_twice` -- a command that is waited for.
-/
import Mathlib.Algebra.Order.Ring.Nat
import Relayfs.Lib.Base64
import Relayfs.Wire.Results
import Relayfs.Agent.Dispatch

namespace Relayfs

open Lib

/-! ## 1. Parameters -/

namespace Json

/-- `json!` of a signed integer. -/
def int (i : Int) : Json := num (if i < 0 then .negInt i else .posInt i.toNat)

/-- `serde_json` reads a structure from an object by the names of its fields, or from an array by
    their positions; then the array is not longer than the structure. -/
def fieldsOf (v : Json) (names : List String) : Option (List (Option Json)) :=
  match v with
  | obj _ => some (names.map v.get)
  | arr items =>
      if items.length ≤ names.length then some ((List.range names.length).map (items[·]?))
      else none
  | _ => none

/-- An `Option` field with `#[serde(default)]`: absent and `null` are `None`; the outer `none` is a
    value of another type. -/
def optional {α : Type} (read : Json → Option α) : Option Json → Option (Option α)
  | none | some null => some none
  | some v => (read v).map some

def asBool : Json → Option Bool
  | bool b => some b
  | _ => none

def asObject : Json → Option (List (String × Json))
  | obj fields => some fields
  | _ => none

/-- A `u64`. -/
def asUnsigned (v : Json) : Option Nat := v.asU64.filter (· < 2 ^ 64)

end Json

/-- `RunCommandParams`. -/
structure RunCommandParams where
  command : String
  cwd : Option String
  env : Option (List (String × Json))
  timeoutSecs : Option Nat
  input : Option String
  wait : Option Bool

/-- `from_value` of `RunCommandParams`. -/
def RunCommandParams.ofJson (v : Json) : Option RunCommandParams :=
  match v.fieldsOf ["command", "cwd", "env", "timeout_secs", "input", "wait"] with
  | some [command, cwd, env, timeoutSecs, input, wait] => do
      let command ← command.bind Json.asStr
      let cwd ← Json.optional Json.asStr cwd
      let env ← Json.optional Json.asObject env
      let timeoutSecs ← Json.optional Json.asUnsigned timeoutSecs
      let input ← Json.optional Json.asStr input
      let wait ← Json.optional Json.asBool wait
      return ⟨command, cwd, env, timeoutSecs, input, wait⟩
  | _ => none

/-- `ReadFileParams`. -/
structure ReadFileParams where
  path : String
  offset : Option Nat
  limit : Option Nat

/-- `from_value` of `ReadFileParams`. -/
def ReadFileParams.ofJson (v : Json) : Option ReadFileParams :=
  match v.fieldsOf ["path", "offset", "limit"] with
  | some [path, offset, limit] => do
      let path ← path.bind Json.asStr
      let offset ← Json.optional Json.asUnsigned offset
      let limit ← Json.optional Json.asUnsigned limit
      return ⟨path, offset, limit⟩
  | _ => none

/-- `char::is_whitespace`: the property White_Space. -/
def isWhitespace (c : Char) : Bool :=
  let n := c.toNat
  (9 ≤ n && n ≤ 13) || (0x2000 ≤ n && n ≤ 0x200A) ||
    [0x20, 0x85, 0xA0, 0x1680, 0x2028, 0x2029, 0x202F, 0x205F, 0x3000].contains n

/-- `trim().is_empty()`. -/
def blank (s : String) : Bool := s.toList.all isWhitespace

/-! ## 2. Handlers -/

/-- What a handler sends itself, and what it returns to `dispatch`. -/
structure Handled where
  sent : List Json
  outcome : HandlerOutcome

/-- `RunCommandResult`. -/
structure RunCommandResult where
  exitCode : Option Int
  timedOut : Bool
  output : String
  executionId : Option Nat

/-- `to_value` of a `RunCommandResult`. -/
def RunCommandResult.toJson (r : RunCommandResult) : Json :=
  .obj ([("exit_code", .opt .int r.exitCode), ("timed_out", .bool r.timedOut),
    ("output", .str r.output)] ++ (r.executionId.map fun i => ("execution_id", Json.nat i)).toList)

/-- What becomes of a command: whether the shell could be started, the lines it printed, each with
    the name of its stream, and what `run_to_completion` returns. -/
structure CommandRun where
  spawned : Except String Unit
  lines : List (String × String)
  completion : Except String (Option Int × Bool)

/-- The notification for a line. -/
def commandOutput (id : Nat) (line : String × String) : Json :=
  notificationValue "command_output"
    (.obj [("id", .nat id), ("stream", .str line.1), ("data", .str (line.2 ++ "\n"))])

/-- The notification for the end. -/
def commandFinished (id : Nat) (exitCode : Option Int) (timedOut : Bool) : Json :=
  notificationValue "command_finished"
    (.obj [("id", .nat id), ("exit_code", .opt .int exitCode), ("timed_out", .bool timedOut)])

/-- `run_command`. Without `wait` the lines are sent by a task of their own, and the handler sends
    nothing. `unreadable` is the text for parameters that cannot be read. -/
def runCommand (id : Nat) (params : Json) (unreadable : String) (run : CommandRun) : Handled :=
  match RunCommandParams.ofJson params with
  | none => ⟨[], .err unreadable⟩
  | some p =>
      if blank p.command then ⟨[], .err "command must not be empty"⟩
      else match run.spawned with
        | .error e => ⟨[], .err ("failed to spawn `" ++ p.command ++ "`: " ++ e)⟩
        | .ok _ =>
            if p.wait.getD true then
              let lines := run.lines.map (commandOutput id)
              match run.completion with
              | .error e => ⟨lines, .err e⟩
              | .ok (exitCode, timedOut) =>
                  let output := String.join (run.lines.map fun line => line.2 ++ "\n")
                  let result : RunCommandResult := ⟨exitCode, timedOut, output, none⟩
                  -- the final notification, then the response
                  ⟨lines ++ [commandFinished id exitCode timedOut,
                    responseValue id (some result.toJson) none], .ok .null⟩
            else
              let result : RunCommandResult := ⟨none, false, "", some id⟩
              ⟨[], .ok result.toJson⟩

/-- What becomes of a file that is streamed: whether it opens, the reads that returned data, and
    the read that failed, if one did. -/
structure FileStream where
  opened : Except String Unit
  chunks : List (List UInt8)
  failure : Option String

/-- `stream_file`. -/
def streamFile (id : Nat) (params : Json) (unreadable : String) (file : FileStream) : Handled :=
  match ReadFileParams.ofJson params with
  | none => ⟨[], .err unreadable⟩
  | some p =>
      match file.opened with
      | .error e => ⟨[], .err ("open " ++ p.path ++ ": " ++ e)⟩
      | .ok _ =>
          let chunks := file.chunks.map fun bytes => notificationValue "stream_chunk"
            (.obj [("id", .nat id), ("data", .str (Base64.encode bytes))])
          match file.failure with
          | some e => ⟨chunks, .err e⟩
          | none =>
              let total := (file.chunks.map List.length).sum % 2 ^ 64
              ⟨chunks ++ [notificationValue "stream_end"
                (.obj [("id", .nat id), ("total", .nat total)])], .ok .null⟩

/-- What the agent's machine does while a request is handled; `outcome` is what every other handler
    returns. -/
structure HandlerRun where
  unreadable : String
  command : CommandRun
  file : FileStream
  outcome : HandlerOutcome

/-- The `params` of a frame. -/
def requestParams (value : Json) : Json := (value.get "params").getD .null

/-- What the handler of a request sends and returns. -/
def handle (value : Json) (id : Nat) (run : HandlerRun) : Handled :=
  if requestMethod value = Method.runCommand then
    runCommand id (requestParams value) run.unreadable run.command
  else if requestMethod value = "stream_file" then
    streamFile id (requestParams value) run.unreadable run.file
  else ⟨[], run.outcome⟩

/-- **The frames that a request with an unsigned id leads to**, in order. -/
def framesFor (value : Json) (id : Nat) (run : HandlerRun) : List Json :=
  (handle value id run).sent ++ (dispatch value (handle value id run).outcome).toList

/-! ## 3. Responses -/

/-- A frame is a response with an id. -/
def IsResponseTo (id : Nat) (frame : Json) : Prop :=
  (frame.get "id").bind Json.asU64 = some id ∧ frame.get "method" = none

instance IsResponseTo.decidable (id : Nat) (frame : Json) : Decidable (IsResponseTo id frame) :=
  decidable_of_iff ((frame.get "id").bind Json.asU64 = some id ∧ (frame.get "method").isNone)
    (and_congr_right fun _ => Option.isNone_iff_eq_none)

/-- The responses among some frames. -/
def responsesTo (id : Nat) (frames : List Json) : List Json := frames.filter (IsResponseTo id ·)

/-- **Exactly one response**, and it carries what the handler returned. -/
def AnsweredOnce (value : Json) (id : Nat) (run : HandlerRun) : Prop :=
  ∃ answer, dispatch value (handle value id run).outcome = some answer ∧
    responsesTo id (framesFor value id run) = [answer]

/-- A command is waited for, and comes to its end. -/
def WaitFinishes (params : Json) (run : CommandRun) : Prop :=
  ∃ p, RunCommandParams.ofJson params = some p ∧ blank p.command = false ∧
    p.wait.getD true = true ∧ run.spawned.isOk = true ∧ run.completion.isOk = true

/-- The request is a `run_command` that is waited for and comes to its end. -/
def WaitedFor (value : Json) (run : HandlerRun) : Prop :=
  requestMethod value = Method.runCommand ∧ WaitFinishes (requestParams value) run.command

section Responses

variable {id : Nat} {value : Json} {run : HandlerRun}

theorem responsesTo_append (a b : List Json) :
    responsesTo id (a ++ b) = responsesTo id a ++ responsesTo id b := List.filter_append _ _

theorem responsesTo_singleton {frame : Json} (h : IsResponseTo id frame) :
    responsesTo id [frame] = [frame] :=
  List.filter_eq_self.mpr fun f hf => by
    rw [List.mem_singleton.mp hf]
    exact decide_eq_true h

/-- A notification is no response. -/
theorem not_isResponseTo_notification (method : String) (params : Json) :
    ¬ IsResponseTo id (notificationValue method params) := by
  intro h
  rw [IsResponseTo, notificationValue_method] at h
  cases h.2

theorem isResponseTo_responseValue (result : Option Json) (error : Option RpcError) :
    IsResponseTo id (responseValue id result error) := by
  refine ⟨?_, responseValue_method _ _ _⟩
  rw [responseValue_id, Option.bind_some, Json.asU64_nat]

/-- There is no response among notifications. -/
theorem responsesTo_notifications {frames : List Json}
    (h : ∀ f ∈ frames, ∃ method params, f = notificationValue method params) :
    responsesTo id frames = [] := by
  refine List.filter_eq_nil_iff.mpr fun f hf => ?_
  obtain ⟨method, params, rfl⟩ := h f hf
  rw [decide_eq_true_eq]
  exact not_isResponseTo_notification method params

theorem responsesTo_commandOutput (lines : List (String × String)) :
    responsesTo id (lines.map (commandOutput id)) = [] := by
  refine responsesTo_notifications fun f hf => ?_
  obtain ⟨line, -, rfl⟩ := List.mem_map.mp hf
  exact ⟨_, _, rfl⟩

theorem responsesTo_streamFile {params : Json} {unreadable : String} {file : FileStream} :
    responsesTo id (streamFile id params unreadable file).sent = [] := by
  have hchunks : responsesTo id (file.chunks.map fun bytes => notificationValue "stream_chunk"
      (.obj [("id", .nat id), ("data", .str (Base64.encode bytes))])) = [] := by
    refine responsesTo_notifications fun f hf => ?_
    obtain ⟨bytes, -, rfl⟩ := List.mem_map.mp hf
    exact ⟨_, _, rfl⟩
  unfold streamFile
  split
  · rfl
  · split
    · rfl
    · dsimp only
      split
      · exact hchunks
      · rw [responsesTo_append, hchunks, List.nil_append]
        exact responsesTo_notifications fun f hf => ⟨_, _, List.mem_singleton.mp hf⟩

/-- The answer of `dispatch` is the one response it sends. -/
theorem dispatch_answers (hid : (value.get "id").bind Json.asU64 = some id)
    (outcome : HandlerOutcome) :
    ∃ answer, dispatch value outcome = some answer ∧ IsResponseTo id answer := by
  unfold dispatch
  rw [hid, Option.map_some]
  split
  · cases outcome with
    | ok result => exact ⟨_, rfl, isResponseTo_responseValue _ _⟩
    | err text => exact ⟨_, rfl, isResponseTo_responseValue _ _⟩
  · exact ⟨_, rfl, isResponseTo_responseValue _ _⟩

/-- A request is answered once exactly when its handler sends no response. -/
theorem answeredOnce_iff_sent (hid : (value.get "id").bind Json.asU64 = some id) :
    AnsweredOnce value id run ↔ responsesTo id (handle value id run).sent = [] := by
  obtain ⟨answer, hanswer, hresp⟩ := dispatch_answers hid (handle value id run).outcome
  have hone : responsesTo id [answer] = [answer] := responsesTo_singleton hresp
  have hall : responsesTo id (framesFor value id run)
      = responsesTo id (handle value id run).sent ++ [answer] := by
    rw [framesFor, responsesTo_append, hanswer, Option.toList_some, hone]
  unfold AnsweredOnce
  rw [hall]
  constructor
  · intro h
    obtain ⟨a, ha, heq⟩ := h
    obtain rfl : answer = a := Option.some.inj (hanswer.symm.trans ha)
    exact List.append_left_eq_self.mp heq
  · intro h
    exact ⟨answer, hanswer, by rw [h, List.nil_append]⟩

/-- **A command that is waited for to its end is answered by its own handler**; no other is. -/
theorem responsesTo_runCommand {params : Json} {unreadable : String} {run : CommandRun} :
    responsesTo id (runCommand id params unreadable run).sent = [] ↔ ¬ WaitFinishes params run := by
  have hlines : responsesTo id (run.lines.map (commandOutput id)) = [] :=
    responsesTo_commandOutput run.lines
  unfold runCommand
  cases hp : RunCommandParams.ofJson params with
  | none =>
    refine iff_of_true rfl fun h => ?_
    obtain ⟨p, hp', -⟩ := h
    rw [hp] at hp'
    cases hp'
  | some p =>
    have hfin : WaitFinishes params run ↔ blank p.command = false ∧ p.wait.getD true = true ∧
        run.spawned.isOk = true ∧ run.completion.isOk = true := by
      constructor
      · intro h
        obtain ⟨p', hp', h⟩ := h
        obtain rfl : p = p' := Option.some.inj (hp.symm.trans hp')
        exact h
      · exact fun h => ⟨p, hp, h⟩
    rw [hfin]
    dsimp only
    by_cases hblank : blank p.command = true
    · rw [if_pos hblank]
      refine iff_of_true rfl fun h => ?_
      rw [hblank] at h
      cases h.1
    · rw [if_neg hblank]
      cases hs : run.spawned with
      | error e => exact iff_of_true rfl fun h => by cases h.2.2.1
      | ok u =>
        dsimp only
        by_cases hwait : p.wait.getD true = true
        · rw [if_pos hwait]
          cases hc : run.completion with
          | error e => exact iff_of_true hlines fun h => by cases h.2.2.2
          | ok r =>
            -- the notification, then the response
            obtain ⟨exitCode, timedOut⟩ := r
            dsimp only
            refine iff_of_false (fun h => ?_) fun h =>
              h ⟨Bool.eq_false_iff.mpr hblank, hwait, rfl, rfl⟩
            rw [responsesTo_append, hlines, List.nil_append, responsesTo,
              List.filter_eq_nil_iff] at h
            exact h _ (List.mem_cons_of_mem _ (List.mem_singleton.mpr rfl))
              (decide_eq_true (isResponseTo_responseValue _ _))
        · rw [if_neg hwait]
          exact iff_of_true rfl fun h => hwait h.2.1

end Responses

/-- **A request is answered exactly once, with what its handler returned, exactly when** it is no
    `run_command` that is waited for and comes to its end. -/
theorem answered_once_iff {value : Json} {id : Nat}
    (hid : (value.get "id").bind Json.asU64 = some id) (run : HandlerRun) :
    AnsweredOnce value id run ↔ ¬ WaitedFor value run := by
  rw [answeredOnce_iff_sent hid, handle, WaitedFor]
  by_cases hrun : requestMethod value = Method.runCommand
  · rw [if_pos hrun, responsesTo_runCommand, and_iff_right hrun]
  · rw [if_neg hrun]
    refine iff_of_true ?_ fun h => hrun h.1
    split
    · exact responsesTo_streamFile
    · rfl

/-! ## 4. A command that is waited for -/

/-- The request to run `true`, and its run to exit code 0. -/
def runTrue : Json := (BridgeRequest.runCommand "true" none none none none none).frame 1

def trueRun : HandlerRun where
  unreadable := ""
  command := ⟨.ok (), [], .ok (some 0, false)⟩
  file := ⟨.ok (), [], none⟩
  outcome := .ok .null

theorem answered_once_ping :
    AnsweredOnce (BridgeRequest.ping.frame 1) 1 trueRun :=
  (answered_once_iff (by decide) trueRun).mpr fun h => absurd h.1 (by decide)

/-- **A command that is waited for is answered twice**: with its result, and then with `null`. -/
theorem run_command_answered_twice :
    responsesTo 1 (framesFor runTrue 1 trueRun)
      = [responseValue 1 (some (RunCommandResult.toJson ⟨some 0, false, "", none⟩)) none,
        responseValue 1 (some .null) none] ∧
    ¬ AnsweredOnce runTrue 1 trueRun := by
  refine ⟨by rfl, fun h => ?_⟩
  obtain ⟨answer, -, hone⟩ := h
  have htwo : (responsesTo 1 (framesFor runTrue 1 trueRun)).length = 2 := by rfl
  rw [hone] at htwo
  cases htwo

end Relayfs

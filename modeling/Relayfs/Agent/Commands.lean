/-
  File:      Relayfs/Agent/Commands.lean
  Subject:   THE COMMAND TASKS OF THE AGENT (agent/src/commands.rs): `run_command` in both modes,
             `run_to_completion`, `get_command_result`, `kill_all`.

  The state is what the tasks share: the map `commands` of children, with its lock, and the map
  `results`. A task holds the lock of `commands` while it waits for its child. A child is named by
  the task that spawned it, as is the buffer its output is read into.

  * `AgentState.permits`, `AgentState.next` -- one step of a task, of a child or of the connection
    loop;
  * `getCommandResult` -- what a bridge is told;
  * `step_task` -- what a step may do to a task.
-/
import Mathlib.Logic.Function.Basic
import Relayfs.Agent.Responses
import Relayfs.Lib.Fair

namespace Relayfs

open Lib

/-! ## 1. Tasks -/

/-- What `run_to_completion` returns: `(status.code(), false)`, `(None, true)`, or an error. -/
inductive Completion where
  | exited (code : Option Int)
  | timedOut
  | failed
  deriving DecidableEq

/-- Where a task of `run_command` is. -/
inductive CommandPhase where
  /-- The child runs, and `commands` does not hold it yet. -/
  | spawned
  /-- `commands` holds the child, `results` has no entry for it yet. -/
  | tracked
  /-- In `stream_output`. -/
  | streaming
  /-- Both streams are at their end; the lock of `commands` comes next. -/
  | locking
  /-- In `child.wait()`, under the lock. -/
  | waiting (child : Nat)
  /-- The deadline has dropped `run`; the lock comes next, to kill the child. -/
  | timingOut
  /-- `run_to_completion` has returned. -/
  | finished (outcome : Completion)
  | ended (outcome : Completion)
  /-- `expect("command tracked")` has failed. -/
  | panicked
  deriving DecidableEq

/-- A task has the lookup of its child ahead of it, or may have to repeat it. -/
def CommandPhase.lookupAhead : CommandPhase → Bool
  | tracked | streaming | locking | waiting _ | timingOut => true
  | spawned | finished _ | ended _ | panicked => false

/-- The child whose end a task awaits. -/
def CommandPhase.awaited : CommandPhase → Option Nat
  | waiting child => some child
  | _ => none

/-- A task is inside the future that the deadline limits. -/
def CommandPhase.limited : CommandPhase → Bool
  | streaming | locking | waiting _ => true
  | _ => false

/-- What `run_to_completion` has returned. -/
def CommandPhase.completion : CommandPhase → Option Completion
  | finished outcome => some outcome
  | _ => none

/-- A task of `run_command` and its child. -/
structure CommandTask where
  id : Nat
  /-- `wait` is `false`. -/
  background : Bool
  /-- There is a deadline. -/
  timed : Bool
  phase : CommandPhase
  output : String
  /-- Both streams of the child are at their end. -/
  closed : Bool
  /-- The child's exit code, once it has terminated; a signal leaves none. -/
  status : Option (Option Int)
  deriving DecidableEq

namespace CommandTask

/-- The task of a request, once the shell has been spawned. -/
def spawn (id : Nat) (params : RunCommandParams) : CommandTask where
  id := id
  background := !params.wait.getD true
  timed := params.timeoutSecs.any (0 < ·)
  phase := .spawned
  output := ""
  closed := false
  status := none

/-- `child.kill()` and the wait after it. -/
def killed (t : CommandTask) : CommandTask := { t with status := some (t.status.getD none) }

/-- The child has terminated. -/
def terminated (t : CommandTask) : Bool := t.status.isSome

/-- All output of the child has been read, or the task reads no more of it. -/
def outputRead (t : CommandTask) : Bool :=
  t.closed || match t.phase with
    | .spawned | .tracked | .streaming => false
    | _ => true

/-- The request has been answered with its execution id. -/
def returned (t : CommandTask) : Bool :=
  match t.phase with
  | .spawned | .tracked => false
  | _ => true

end CommandTask

/-! ## 2. The agent -/

/-- `CommandResult`; `output` names the task whose buffer it shares. -/
structure CommandResult where
  done : Bool
  exitCode : Option Int
  timedOut : Bool
  output : Nat
  deriving DecidableEq

/-- What a task does to its entry at the end; an error leaves the code as it is. -/
def CommandResult.complete (r : CommandResult) : Completion → CommandResult
  | .exited code => { r with exitCode := code, timedOut := false, done := true }
  | .timedOut => { r with exitCode := none, timedOut := true, done := true }
  | .failed => { r with done := true }

/-- `AgentState`: the tasks, the two maps, and the task that holds the lock of `commands` across
    its own steps. -/
structure AgentState where
  tasks : Nat → Option CommandTask
  commands : Nat → Option Nat
  results : Nat → Option CommandResult
  lock : Option Nat

/-- `AgentState::new`. -/
def AgentState.new : AgentState := ⟨fun _ => none, fun _ => none, fun _ => none, none⟩

/-- The steps. `start` is `run_command` up to its `spawn`; `killAll` is the end of a connection. -/
inductive CommandEvent where
  | start (k id : Nat) (params : RunCommandParams)
  | track (k : Nat)
  | register (k : Nat)
  | print (k : Nat) (line : String)
  | eof (k : Nat)
  | lookup (k : Nat)
  | reap (k : Nat)
  | waitFails (k : Nat)
  | deadline (k : Nat)
  | kill (k : Nat)
  | finish (k : Nat)
  | exits (k : Nat) (code : Option Int)
  | closes (k : Nat)
  | killAll

/-- The task whose own step it is. What a child writes, and an error of `wait`, comes from
    outside. -/
def CommandEvent.actor : CommandEvent → Option Nat
  | track k | register k | eof k | lookup k | reap k | deadline k | kill k | finish k => some k
  | start .. | print .. | waitFails _ | exits .. | closes _ | killAll => none

namespace AgentState

variable (s : AgentState)

/-- A task exists and meets a condition. -/
def Has (k : Nat) (p : CommandTask → Prop) : Prop := ∃ t, s.tasks k = some t ∧ p t

instance Has.decidable (k : Nat) (p : CommandTask → Prop) [DecidablePred p] :
    Decidable (s.Has k p) :=
  match h : s.tasks k with
  | none => isFalse fun ⟨t, ht, _⟩ => by rw [h] at ht; cases ht
  | some t =>
      if hp : p t then isTrue ⟨t, h, hp⟩
      else isFalse fun ⟨t', ht', hp'⟩ => hp (Option.some.inj (h.symm.trans ht') ▸ hp')

/-- The exit code of a child that has terminated. -/
def exitCode (child : Nat) : Option (Option Int) := (s.tasks child).bind (·.status)

/-- The guard of a step. -/
def permits : CommandEvent → Prop
  | .start k _ params => s.tasks k = none ∧ blank params.command = false
  | .track k => s.Has k (·.phase = .spawned) ∧ s.lock = none
  | .register k => s.Has k (·.phase = .tracked)
  | .print k _ => s.Has k fun t => t.phase = .streaming ∧ t.closed = false
  | .eof k => s.Has k fun t => t.phase = .streaming ∧ t.closed = true
  | .lookup k => s.Has k (·.phase = .locking) ∧ s.lock = none
  | .reap k => s.Has k fun t => (t.phase.awaited.bind s.exitCode).isSome
  | .waitFails k => s.Has k fun t => t.phase.awaited.isSome
  | .deadline k => s.Has k fun t => t.timed = true ∧ t.phase.limited = true
  | .kill k => s.Has k (·.phase = .timingOut) ∧ s.lock = none
  | .finish k => s.Has k fun t => t.phase.completion.any fun outcome =>
      -- only the removal of the child, at the end of a command that is waited for, needs the lock
      t.background || outcome = .failed || s.lock.isNone
  | .exits k _ => s.Has k (·.status = none)
  | .closes k => s.Has k (·.closed = false)
  | .killAll => s.lock = none

/-- Replace a task. -/
def put (k : Nat) (t : CommandTask) : AgentState :=
  { s with tasks := Function.update s.tasks k (some t) }

/-- A step of a task that exists. -/
def on (k : Nat) (f : CommandTask → AgentState) : AgentState :=
  match s.tasks k with
  | none => s
  | some t => f t

/-- A task moves on. -/
def move (k : Nat) (phase : CommandPhase) : AgentState := s.on k fun t => s.put k { t with phase }

/-- Let go of the lock. -/
def unlock : AgentState := { s with lock := none }

/-- Kill one child. -/
def terminate (child : Nat) : AgentState := s.on child fun t => s.put child t.killed

/-- The effect of a step. -/
def next : CommandEvent → AgentState
  | .start k id params => s.put k (.spawn id params)
  | .track k => s.on k fun t =>
      { s.put k { t with phase := if t.background then .tracked else .streaming } with
        commands := Function.update s.commands t.id (some k) }
  | .register k => s.on k fun t =>
      { s.put k { t with phase := .streaming } with
        results := Function.update s.results t.id (some ⟨false, none, false, k⟩) }
  | .print k line => s.on k fun t => s.put k { t with output := t.output ++ line ++ "\n" }
  | .eof k => s.move k .locking
  | .lookup k => s.on k fun t =>
      match s.commands t.id with
      | some child => { s.move k (.waiting child) with lock := some k }
      | none => s.move k .panicked
  | .reap k => s.on k fun t =>
      match t.phase.awaited.bind s.exitCode with
      | some code => (s.move k (.finished (.exited code))).unlock
      | none => s
  | .waitFails k => (s.move k (.finished .failed)).unlock
  | .deadline k =>
      -- the guard goes with the future that holds it
      let s' := s.move k .timingOut
      if s.lock = some k then s'.unlock else s'
  | .kill k => s.on k fun t =>
      match s.commands t.id with
      | some child => (s.terminate child).move k (.finished .timedOut)
      | none => s.move k .panicked
  | .finish k => s.on k fun t =>
      match t.phase.completion with
      | none => s
      | some outcome =>
          let s' := s.move k (.ended outcome)
          if t.background then
            let entry := (s.results t.id).map (·.complete outcome)
            { s' with results := Function.update s.results t.id entry }
          else match outcome with
            -- the error leaves `run_command` before it removes the child
            | .failed => s'
            | _ => { s' with commands := Function.update s.commands t.id none }
  | .exits k code => s.on k fun t => s.put k { t with status := some code }
  | .closes k => s.on k fun t => s.put k { t with closed := true }
  | .killAll =>
      { s with
        tasks := fun k => (s.tasks k).map fun t => if s.commands t.id = some k then t.killed else t
        commands := fun _ => none }

instance permits.decidable : ∀ e, Decidable (s.permits e)
  | .start .. | .track _ | .lookup _ | .kill _ => inferInstanceAs (Decidable (_ ∧ _))
  | .register _ | .print .. | .eof _ | .reap _ | .waitFails _ | .deadline _ | .finish _
  | .exits .. | .closes _ => inferInstanceAs (Decidable (s.Has _ _))
  | .killAll => inferInstanceAs (Decidable (_ = _))

end AgentState

/-- **The step relation.** -/
abbrev CommandStep : AgentState → CommandEvent → AgentState → Prop :=
  Moves AgentState.permits AgentState.next

/-- The agent starts without commands. -/
def NoCommands (s : AgentState) : Prop := s = .new


/-! ## 3. What a bridge is told -/

/-- `str::split_inclusive('\n')`. -/
def splitInclusive : List Char → List (List Char)
  | [] => []
  | c :: cs =>
      if c = '\n' then [c] :: splitInclusive cs
      else match splitInclusive cs with
        | [] => [[c]]
        | line :: lines => (c :: line) :: lines

/-- `str::lines`: a line loses its `\n`, and then a `\r` before it. -/
def strLines (s : String) : List String :=
  (splitInclusive s.toList).map fun line =>
    if line.getLast? = some '\n' then
      let line := line.dropLast
      String.ofList (if line.getLast? = some '\r' then line.dropLast else line)
    else String.ofList line

/-- `trim_output`: the first `head` lines, and of these the last `tail`. -/
def trimOutput (output : String) (head tail : Option Nat) : String :=
  let lines := strLines output
  let lines := match head with
    | some h => lines.take h
    | none => lines
  let lines := match tail with
    | some t => lines.drop (lines.length - t)
    | none => lines
  "\n".intercalate lines

/-- `GetCommandResultParams`. -/
structure GetCommandResultParams where
  executionId : Nat
  head : Option Nat
  tail : Option Nat

/-- `GetCommandResult`. -/
structure GetCommandResult where
  done : Bool
  exitCode : Option Int
  timedOut : Option Bool
  output : String
  deriving DecidableEq

/-- `get_command_result`. -/
def getCommandResult (s : AgentState) (params : GetCommandResultParams) :
    Except String GetCommandResult :=
  match s.results params.executionId with
  | none => .error ("unknown execution id: " ++ toString params.executionId)
  | some r =>
      let output := ((s.tasks r.output).map (·.output)).getD ""
      .ok {
        done := r.done
        exitCode := if r.done then r.exitCode else none
        timedOut := if r.done then some r.timedOut else none
        output := trimOutput output params.head params.tail }

namespace CommandTask

/-- The entry that belongs to a task. -/
def result (t : CommandTask) (k : Nat) : CommandResult :=
  let r : CommandResult := ⟨false, none, false, k⟩
  match t.phase with
  | .ended outcome => r.complete outcome
  | _ => r

/-- What there is to tell about a task. -/
def report (t : CommandTask) (params : GetCommandResultParams) : GetCommandResult :=
  let output := trimOutput t.output params.head params.tail
  match t.phase with
  | .ended (.exited code) => ⟨true, code, some false, output⟩
  | .ended .timedOut => ⟨true, none, some true, output⟩
  | .ended .failed => ⟨true, none, some false, output⟩
  | _ => ⟨false, none, none, output⟩

end CommandTask

/-- With its own entry under its id, a task is reported as it is. -/
theorem getCommandResult_eq {s : AgentState} {k : Nat} {t : CommandTask}
    (ht : s.tasks k = some t) (hentry : s.results t.id = some (t.result k))
    {params : GetCommandResultParams} (hid : params.executionId = t.id) :
    getCommandResult s params = .ok (t.report params) := by
  have howner : (t.result k).output = k := by
    unfold CommandTask.result
    split
    · rename_i outcome _
      cases outcome <;> rfl
    · rfl
  unfold getCommandResult
  rw [hid, hentry]
  dsimp only
  rw [howner, ht]
  unfold CommandTask.result CommandTask.report
  cases t.phase with
  | ended outcome => cases outcome <;> rfl
  | _ => rfl

/-! ## 4. What a step does to a task -/

namespace CommandPhase

/-- The steps a task has ahead of it, at most. -/
def rank : CommandPhase → Nat
  | spawned => 7
  | tracked => 6
  | streaming => 5
  | locking => 4
  | waiting _ => 3
  | timingOut => 2
  | finished _ => 1
  | ended _ | panicked => 0

theorem eq_finished {p : CommandPhase} {outcome : Completion} (h : p.completion = some outcome) :
    p = .finished outcome := by
  cases p <;> cases h
  rfl

theorem eq_waiting {p : CommandPhase} {child : Nat} (h : p.awaited = some child) :
    p = .waiting child := by
  cases p <;> cases h
  rfl

end CommandPhase

theorem CommandTask.outputRead_iff {t : CommandTask} :
    t.outputRead = true ↔ t.closed = true ∨ t.phase.rank < 5 := by
  unfold CommandTask.outputRead
  rw [Bool.or_eq_true]
  refine or_congr_right ?_
  cases t.phase <;> simp [CommandPhase.rank]

/-- **What a step may do to a task**; `own` says that the task itself takes it. -/
structure Evolves (own : Prop) (t t' : CommandTask) : Prop where
  id : t'.id = t.id
  background : t'.background = t.background
  timed : t'.timed = t.timed
  status : ∀ c, t.status = some c → t'.status = some c
  closed : t.closed = true → t'.closed = true
  rank : t'.phase.rank ≤ t.phase.rank
  own : own → t'.phase.rank < t.phase.rank

namespace Evolves

variable {own : Prop} {t t' : CommandTask}

theorem refl (h : ¬ own) : Evolves own t t :=
  ⟨rfl, rfl, rfl, fun _ h => h, fun h => h, Nat.le_refl _, fun ho => absurd ho h⟩

/-- The task moves on. -/
theorem moved {phase : CommandPhase} (h : phase.rank < t.phase.rank) :
    Evolves own t { t with phase } :=
  ⟨rfl, rfl, rfl, fun _ h => h, fun h => h, Nat.le_of_lt h, fun _ => h⟩

theorem killed (h : ¬ own) : Evolves own t t.killed :=
  ⟨rfl, rfl, rfl, fun c hc => by rw [CommandTask.killed, hc, Option.getD_some], fun h => h,
    Nat.le_refl _, fun ho => absurd ho h⟩

theorem trans {own' : Prop} {t'' : CommandTask} (h : Evolves own t t') (h' : Evolves own' t' t'') :
    Evolves (own ∨ own') t t'' where
  id := h'.id.trans h.id
  background := h'.background.trans h.background
  timed := h'.timed.trans h.timed
  status c hc := h'.status c (h.status c hc)
  closed hc := h'.closed (h.closed hc)
  rank := Nat.le_trans h'.rank h.rank
  own ho := ho.elim (fun ho => Nat.lt_of_le_of_lt h'.rank (h.own ho))
    fun ho => Nat.lt_of_lt_of_le (h'.own ho) h.rank

/-- Output that has been read stays so. -/
theorem outputRead (h : Evolves own t t') (hread : t.outputRead = true) : t'.outputRead = true := by
  rw [CommandTask.outputRead_iff] at hread ⊢
  exact hread.imp h.closed (Nat.lt_of_le_of_lt h.rank)

theorem terminated (h : Evolves own t t') (hend : t.terminated = true) : t'.terminated = true := by
  obtain ⟨c, hc⟩ := Option.isSome_iff_exists.mp hend
  rw [CommandTask.terminated, h.status c hc, Option.isSome_some]

/-- A child that runs after a step ran before it. -/
theorem runs (h : Evolves own t t') (hruns : t'.status = none) : t.status = none := by
  cases hstatus : t.status with
  | none => rfl
  | some c =>
    rw [h.status c hstatus] at hruns
    cases hruns

end Evolves


namespace AgentState

variable {s : AgentState} {k : Nat} {t : CommandTask}

theorem on_eq (ht : s.tasks k = some t) (f : CommandTask → AgentState) : s.on k f = f t := by
  rw [on, ht]

theorem move_eq (ht : s.tasks k = some t) (phase : CommandPhase) :
    s.move k phase = s.put k { t with phase } := on_eq ht _

theorem put_self (s : AgentState) (k : Nat) (t : CommandTask) : (s.put k t).tasks k = some t := by
  show Function.update s.tasks k (some t) k = some t
  rw [Function.update_self]

theorem put_of_ne {j : Nat} (h : j ≠ k) (t : CommandTask) : (s.put k t).tasks j = s.tasks j :=
  Function.update_of_ne h _ _

/-- One task changes. -/
theorem task_update {tasks : Nat → Option CommandTask} {j : Nat} {u : CommandTask}
    (h : Function.update tasks k (some t) j = some u) :
    (j = k ∧ u = t) ∨ (j ≠ k ∧ tasks j = some u) := by
  by_cases hj : j = k
  · subst hj
    rw [Function.update_self] at h
    exact .inl ⟨rfl, (Option.some.inj h).symm⟩
  · rw [Function.update_of_ne hj] at h
    exact .inr ⟨hj, h⟩

/-- At the end of a connection every task stays, with its child perhaps killed. -/
theorem task_killAll {u : CommandTask} (h : (s.next .killAll).tasks k = some u) :
    ∃ t, s.tasks k = some t ∧ (u = t ∨ u = t.killed) := by
  obtain ⟨t, ht, rfl⟩ := Option.map_eq_some_iff.mp h
  refine ⟨t, ht, ?_⟩
  split
  · exact .inr rfl
  · exact .inl rfl

/-- A killed child leaves its task where it is. -/
theorem terminate_task (child : Nat) (ht : s.tasks k = some t) :
    ∃ t', (s.terminate child).tasks k = some t' ∧ (t' = t ∨ t' = t.killed) := by
  rw [terminate, on]
  split
  · exact ⟨t, ht, .inl rfl⟩
  · rename_i c hc
    by_cases hk : k = child
    · subst hk
      obtain rfl : t = c := Option.some.inj (ht.symm.trans hc)
      exact ⟨t.killed, put_self _ _ _, .inr rfl⟩
    · exact ⟨t, (put_of_ne hk _).trans ht, .inl rfl⟩

end AgentState

/-- **All that a step can do.** -/
inductive CommandEffect (s : AgentState) : CommandEvent → AgentState → Prop where
  | start {k id : Nat} {params : RunCommandParams} (hnew : s.tasks k = none) :
      CommandEffect s (.start k id params) (s.put k (.spawn id params))
  | track {k : Nat} {t : CommandTask} (ht : s.tasks k = some t) (hphase : t.phase = .spawned)
      (hlock : s.lock = none) :
      CommandEffect s (.track k)
        { s.put k { t with phase := if t.background then .tracked else .streaming } with
          commands := Function.update s.commands t.id (some k) }
  | register {k : Nat} {t : CommandTask} (ht : s.tasks k = some t) (hphase : t.phase = .tracked) :
      CommandEffect s (.register k)
        { s.put k { t with phase := .streaming } with
          results := Function.update s.results t.id (some ⟨false, none, false, k⟩) }
  | print {k : Nat} {line : String} {t : CommandTask} (ht : s.tasks k = some t)
      (hphase : t.phase = .streaming) (hopen : t.closed = false) :
      CommandEffect s (.print k line) (s.put k { t with output := t.output ++ line ++ "\n" })
  | eof {k : Nat} {t : CommandTask} (ht : s.tasks k = some t) (hphase : t.phase = .streaming)
      (hclosed : t.closed = true) : CommandEffect s (.eof k) (s.put k { t with phase := .locking })
  | lookup {k child : Nat} {t : CommandTask} (ht : s.tasks k = some t)
      (hphase : t.phase = .locking) (hlock : s.lock = none)
      (hchild : s.commands t.id = some child) :
      CommandEffect s (.lookup k)
        { s.put k { t with phase := .waiting child } with lock := some k }
  | lookupFails {k : Nat} {t : CommandTask} (ht : s.tasks k = some t)
      (hphase : t.phase = .locking) (hlock : s.lock = none) (hchild : s.commands t.id = none) :
      CommandEffect s (.lookup k) (s.put k { t with phase := .panicked })
  | reap {k child : Nat} {code : Option Int} {t : CommandTask} (ht : s.tasks k = some t)
      (hphase : t.phase = .waiting child) (hcode : s.exitCode child = some code) :
      CommandEffect s (.reap k) (s.put k { t with phase := .finished (.exited code) }).unlock
  | waitFails {k child : Nat} {t : CommandTask} (ht : s.tasks k = some t)
      (hphase : t.phase = .waiting child) :
      CommandEffect s (.waitFails k) (s.put k { t with phase := .finished .failed }).unlock
  | deadline {k : Nat} {t : CommandTask} (ht : s.tasks k = some t) (htimed : t.timed = true)
      (hphase : t.phase.limited = true) :
      CommandEffect s (.deadline k)
        { s.put k { t with phase := .timingOut } with
          lock := if s.lock = some k then none else s.lock }
  | kill {k child : Nat} {t t' : CommandTask} (ht : s.tasks k = some t)
      (hphase : t.phase = .timingOut) (hlock : s.lock = none)
      (hchild : s.commands t.id = some child) (ht' : (s.terminate child).tasks k = some t')
      (hkilled : t' = t ∨ t' = t.killed) :
      CommandEffect s (.kill k)
        ((s.terminate child).put k { t' with phase := .finished .timedOut })
  | killFails {k : Nat} {t : CommandTask} (ht : s.tasks k = some t)
      (hphase : t.phase = .timingOut) (hlock : s.lock = none) (hchild : s.commands t.id = none) :
      CommandEffect s (.kill k) (s.put k { t with phase := .panicked })
  | finishBackground {k : Nat} {t : CommandTask} {outcome : Completion} (ht : s.tasks k = some t)
      (hphase : t.phase = .finished outcome) (hback : t.background = true) :
      CommandEffect s (.finish k)
        { s.put k { t with phase := .ended outcome } with
          results := Function.update s.results t.id
            ((s.results t.id).map (·.complete outcome)) }
  | finishFailed {k : Nat} {t : CommandTask} (ht : s.tasks k = some t)
      (hphase : t.phase = .finished .failed) (hback : t.background = false) :
      CommandEffect s (.finish k) (s.put k { t with phase := .ended .failed })
  | finish {k : Nat} {t : CommandTask} {outcome : Completion} (ht : s.tasks k = some t)
      (hphase : t.phase = .finished outcome) (hback : t.background = false)
      (hlock : s.lock = none) :
      CommandEffect s (.finish k)
        { s.put k { t with phase := .ended outcome } with
          commands := Function.update s.commands t.id none }
  | exits {k : Nat} {code : Option Int} {t : CommandTask} (ht : s.tasks k = some t)
      (hruns : t.status = none) :
      CommandEffect s (.exits k code) (s.put k { t with status := some code })
  | closes {k : Nat} {t : CommandTask} (ht : s.tasks k = some t) (hopen : t.closed = false) :
      CommandEffect s (.closes k) (s.put k { t with closed := true })
  | killAll (hlock : s.lock = none) :
      CommandEffect s .killAll
        { s with
          tasks := fun k => (s.tasks k).map fun t =>
            if s.commands t.id = some k then t.killed else t
          commands := fun _ => none }

open AgentState in
theorem CommandEffect.of_step {s s' : AgentState} {e : CommandEvent} (h : CommandStep s e s') :
    CommandEffect s e s' := by
  obtain ⟨hok, rfl⟩ := h
  cases e with
  | start k id params => exact .start hok.1
  | track k =>
    obtain ⟨⟨t, ht, hphase⟩, hlock⟩ := hok
    rw [next, on_eq ht]
    exact .track ht hphase hlock
  | register k =>
    obtain ⟨t, ht, hphase⟩ := hok
    rw [next, on_eq ht]
    exact .register ht hphase
  | print k line =>
    obtain ⟨t, ht, hphase, hopen⟩ := hok
    rw [next, on_eq ht]
    exact .print ht hphase hopen
  | eof k =>
    obtain ⟨t, ht, hphase, hclosed⟩ := hok
    rw [next, move_eq ht]
    exact .eof ht hphase hclosed
  | lookup k =>
    obtain ⟨⟨t, ht, hphase⟩, hlock⟩ := hok
    rw [next, on_eq ht]
    split
    · rw [move_eq ht]
      exact .lookup ht hphase hlock ‹_›
    · rw [move_eq ht]
      exact .lookupFails ht hphase hlock ‹_›
  | reap k =>
    obtain ⟨t, ht, hdone⟩ := hok
    rw [next, on_eq ht]
    obtain ⟨code, hcode⟩ := Option.isSome_iff_exists.mp hdone
    obtain ⟨child, hawait, hexit⟩ := Option.bind_eq_some_iff.mp hcode
    rw [hcode]
    dsimp only
    rw [move_eq ht]
    exact .reap ht (CommandPhase.eq_waiting hawait) hexit
  | waitFails k =>
    obtain ⟨t, ht, hdone⟩ := hok
    obtain ⟨child, hawait⟩ := Option.isSome_iff_exists.mp hdone
    rw [next, move_eq ht]
    exact .waitFails ht (CommandPhase.eq_waiting hawait)
  | deadline k =>
    obtain ⟨t, ht, htimed, hphase⟩ := hok
    have heffect := CommandEffect.deadline ht htimed hphase
    rw [next, move_eq ht]
    by_cases hlock : s.lock = some k
    · rw [if_pos hlock] at heffect
      rw [if_pos hlock]
      exact heffect
    · rw [if_neg hlock] at heffect
      rw [if_neg hlock]
      exact heffect
  | kill k =>
    obtain ⟨⟨t, ht, hphase⟩, hlock⟩ := hok
    rw [next, on_eq ht]
    split
    · rename_i child hchild
      obtain ⟨t', ht', hkilled⟩ := terminate_task child ht
      rw [move_eq ht']
      exact .kill ht hphase hlock hchild ht' hkilled
    · rw [move_eq ht]
      exact .killFails ht hphase hlock ‹_›
  | finish k =>
    obtain ⟨t, ht, hdone⟩ := hok
    rw [next, on_eq ht]
    cases hcomp : t.phase.completion with
    | none =>
      rw [hcomp] at hdone
      cases hdone
    | some outcome =>
      have hphase := CommandPhase.eq_finished hcomp
      rw [hcomp, Option.any_some] at hdone
      dsimp only
      rw [move_eq ht]
      by_cases hback : t.background = true
      · rw [if_pos hback]
        exact .finishBackground ht hphase hback
      · rw [if_neg hback]
        have hwait : t.background = false := Bool.eq_false_iff.mpr hback
        by_cases hfail : outcome = .failed
        · subst hfail
          exact .finishFailed ht hphase hwait
        · have hlock : s.lock = none := by simpa [hfail, hwait] using hdone
          have heffect := CommandEffect.finish ht hphase hwait hlock
          cases outcome with
          | failed => exact absurd rfl hfail
          | exited code => exact heffect
          | timedOut => exact heffect
  | exits k code =>
    obtain ⟨t, ht, hruns⟩ := hok
    rw [next, on_eq ht]
    exact .exits ht hruns
  | closes k =>
    obtain ⟨t, ht, hopen⟩ := hok
    rw [next, on_eq ht]
    exact .closes ht hopen
  | killAll => exact .killAll hok


/-! ## 5. The life of one task -/

section Life

variable {s : AgentState} {k : Nat} {t : CommandTask}

/-- Where one task evolves and the others stay, all evolve. -/
theorem evolves_put (own : Nat → Prop) {t' : CommandTask} (ht : s.tasks k = some t)
    (h : Evolves (own k) t t') (hown : ∀ j, own j → j = k) {j : Nat} {u : CommandTask}
    (hu : s.tasks j = some u) : ∃ u', (s.put k t').tasks j = some u' ∧ Evolves (own j) u u' := by
  by_cases hj : j = k
  · subst hj
    obtain rfl : t = u := Option.some.inj (ht.symm.trans hu)
    exact ⟨t', AgentState.put_self s j t', h⟩
  · exact ⟨u, (AgentState.put_of_ne hj t').trans hu, Evolves.refl fun ho => hj (hown j ho)⟩

/-- A task moves on by a step of its own, or of its child. -/
theorem evolves_move {a : Option Nat} (ha : a = some k ∨ a = none) (ht : s.tasks k = some t)
    {p : CommandPhase} (h : p.rank < t.phase.rank) {j : Nat} {u : CommandTask}
    (hu : s.tasks j = some u) :
    ∃ u', (s.put k { t with phase := p }).tasks j = some u' ∧ Evolves (a = some j) u u' :=
  evolves_put (fun i => a = some i) ht (Evolves.moved h) (fun i hi => by
    rcases ha with rfl | rfl
    · exact (Option.some.inj hi).symm
    · cases hi) hu

/-- The child does something. -/
theorem evolves_child (ht : s.tasks k = some t) {t' : CommandTask} (h : Evolves False t t')
    {j : Nat} {u : CommandTask} (hu : s.tasks j = some u) :
    ∃ u', (s.put k t').tasks j = some u' ∧ Evolves (none = some j) u u' := by
  obtain ⟨u', hu', hev⟩ := evolves_put (fun _ => False) ht h (fun i hi => hi.elim) hu
  exact ⟨u', hu', { hev with own := fun ho => by cases ho }⟩

/-- **A step leaves every task its identity**, and lowers the rank of the task that takes it. -/
theorem step_task {s' : AgentState} {e : CommandEvent} (h : CommandStep s e s') {j : Nat}
    {u : CommandTask} (hu : s.tasks j = some u) :
    ∃ u', s'.tasks j = some u' ∧ Evolves (e.actor = some j) u u' := by
  cases CommandEffect.of_step h with
  | @start k id params hnew =>
    have hne : j ≠ k := fun hj => by
      rw [hj, hnew] at hu
      cases hu
    exact ⟨u, (AgentState.put_of_ne hne _).trans hu, Evolves.refl fun ho => by cases ho⟩
  | track ht hphase =>
    refine evolves_move (.inl rfl) ht ?_ hu
    rw [hphase]
    split <;> decide
  | register ht hphase => exact evolves_move (.inl rfl) ht (by rw [hphase]; decide) hu
  | @print k line t ht =>
    have hev : Evolves False t { t with output := t.output ++ line ++ "\n" } :=
      ⟨rfl, rfl, rfl, fun _ h => h, fun h => h, Nat.le_refl _, False.elim⟩
    exact evolves_child ht hev hu
  | eof ht hphase => exact evolves_move (.inl rfl) ht (by rw [hphase]; decide) hu
  | lookup ht hphase =>
    exact evolves_move (.inl rfl) ht (by rw [hphase]; exact Nat.lt_succ_self 3) hu
  | lookupFails ht hphase => exact evolves_move (.inl rfl) ht (by rw [hphase]; decide) hu
  | reap ht hphase =>
    exact evolves_move (.inl rfl) ht (by rw [hphase]; exact (by decide : 1 < 3)) hu
  | waitFails ht hphase =>
    exact evolves_move (.inr rfl) ht (by rw [hphase]; exact (by decide : 1 < 3)) hu
  | @deadline k t ht _ hphase =>
    refine evolves_move (.inl rfl) ht ?_ hu
    cases hp : t.phase with
    | streaming => exact (by decide : 2 < 5)
    | locking => exact (by decide : 2 < 4)
    | waiting child => exact (by decide : 2 < 3)
    | _ =>
      rw [hp] at hphase
      cases hphase
  | @kill k child t t' ht hphase _ _ ht' hkilled =>
    -- first the child, then the task
    obtain ⟨v, hv, hvu⟩ := AgentState.terminate_task child hu
    have hev : Evolves False u v := by
      rcases hvu with rfl | rfl
      · exact Evolves.refl not_false
      · exact Evolves.killed not_false
    have hphase' : t'.phase = .timingOut := by
      rcases hkilled with rfl | rfl
      · exact hphase
      · exact hphase
    obtain ⟨u', hu', hev'⟩ := evolves_move (a := some k) (p := .finished .timedOut) (.inl rfl)
      ht' (by rw [hphase']; exact (by decide : 1 < 2)) hv
    refine ⟨u', hu', ?_⟩
    have hboth := hev.trans hev'
    rw [false_or] at hboth
    exact hboth
  | killFails ht hphase => exact evolves_move (.inl rfl) ht (by rw [hphase]; decide) hu
  | finishBackground ht hphase =>
    exact evolves_move (.inl rfl) ht (by rw [hphase]; exact Nat.zero_lt_one) hu
  | finishFailed ht hphase =>
    exact evolves_move (.inl rfl) ht (by rw [hphase]; exact Nat.zero_lt_one) hu
  | finish ht hphase =>
    exact evolves_move (.inl rfl) ht (by rw [hphase]; exact Nat.zero_lt_one) hu
  | @exits k code t ht hruns =>
    have hev : Evolves False t { t with status := some code } :=
      ⟨rfl, rfl, rfl, fun c hc => (by rw [hruns] at hc; cases hc), fun h => h, Nat.le_refl _,
        False.elim⟩
    exact evolves_child ht hev hu
  | @closes k t ht =>
    have hev : Evolves False t { t with closed := true } :=
      ⟨rfl, rfl, rfl, fun _ h => h, fun _ => rfl, Nat.le_refl _, False.elim⟩
    exact evolves_child ht hev hu
  | killAll =>
    refine ⟨_, congrArg (Option.map _) hu, ?_⟩
    dsimp only
    split
    · exact Evolves.killed fun ho => by cases ho
    · exact Evolves.refl fun ho => by cases ho

/-- A killed child makes no task. -/
theorem terminate_none {child : Nat} (hk : s.tasks k = none) :
    (s.terminate child).tasks k = none := by
  rw [AgentState.terminate, AgentState.on]
  split
  · exact hk
  · rename_i c hc
    have hne : k ≠ child := fun heq => by
      rw [← heq, hk] at hc
      cases hc
    exact (AgentState.put_of_ne hne _).trans hk

/-- Only `start` makes a task. -/
theorem step_none {s' : AgentState} {e : CommandEvent} (h : CommandStep s e s')
    (hk : s.tasks k = none) (he : ∀ id params, e ≠ .start k id params) : s'.tasks k = none := by
  have hput : ∀ {j u} (t : CommandTask), s.tasks j = some u → (s.put j t).tasks k = none :=
    fun {j} _ t hu => by
      have hne : k ≠ j := fun heq => by
        rw [← heq, hk] at hu
        cases hu
      exact (AgentState.put_of_ne hne t).trans hk
  cases CommandEffect.of_step h with
  | @start j id params _ =>
    have hne : k ≠ j := fun heq => he id params (by rw [heq])
    exact (AgentState.put_of_ne hne _).trans hk
  | @kill j child t t' ht _ _ _ ht' _ =>
    have hne : k ≠ j := fun heq => by
      rw [← heq, hk] at ht
      cases ht
    exact (AgentState.put_of_ne hne _).trans (terminate_none hk)
  | killAll => exact congrArg (Option.map _) hk
  | track ht | register ht | print ht | eof ht | lookup ht | lookupFails ht | reap ht
  | waitFails ht | deadline ht | killFails ht | finishBackground ht | finishFailed ht | finish ht
  | exits ht | closes ht => exact hput _ ht

/-- A task after a step, and the same task before it. -/
theorem task_before {s' : AgentState} {e : CommandEvent} {t' : CommandTask}
    (hstep : CommandStep s e s') (he : ∀ id params, e ≠ .start k id params)
    (ht' : s'.tasks k = some t') : ∃ t, s.tasks k = some t ∧ Evolves (e.actor = some k) t t' := by
  cases ht : s.tasks k with
  | none =>
    rw [step_none hstep ht he] at ht'
    cases ht'
  | some t =>
    obtain ⟨u, hu, hev⟩ := step_task hstep ht
    obtain rfl : u = t' := Option.some.inj (hu.symm.trans ht')
    exact ⟨t, rfl, hev⟩

end Life

end Relayfs

/-
  File:      Relayfs/Agent/CommandPipes.lean
  Subject:   WHETHER A TIMEOUT KILLS IN TIME (agent/src/commands.rs): the pipes of a child, of a
             bounded capacity, and the clock.

  `run_command` writes the whole input before it reads any output, and before
  `tokio::time::timeout` is called. The timer starts when `run_to_completion` does.

  * `Pipe`, `Stdio` -- the standard streams of a child, and the timer of its task;
  * `PipedEvent`, `PipedStep` -- the commands of `AgentState` with these, and a clock of seconds;
  * `InTime` -- a child that has outlived its timeout can be killed, and its task does not wait on
    a pipe outside the timer;
  * `Prompt` -- the condition: the timer of a child that comes to its timeout was armed in the
    second of its spawn, and no other command takes the lock or the id from it;
  * `inTime_step`, `killed_in_time_iff` -- one step, and a run;
  * `full_pipe_outlives_timeout` -- an input larger than the pipe, and a child that does not read.
-/
import Relayfs.Agent.CommandLock
import Relayfs.Lib.Utf8

namespace Relayfs

open Lib

/-! ## 1. Pipes -/

/-- A pipe: the bytes in it, and which of its ends are open. -/
structure Pipe where
  held : List UInt8
  writer : Bool
  reader : Bool
  deriving DecidableEq

namespace Pipe

def fresh : Pipe := ⟨[], true, true⟩

/-- A write of `n` bytes goes through. -/
def Fits (capacity : Nat) (p : Pipe) (n : Nat) : Prop :=
  p.reader = true ∧ p.held.length + n ≤ capacity

/-- A write waits for the other side to read. -/
def Full (capacity : Nat) (p : Pipe) : Prop := p.reader = true ∧ capacity ≤ p.held.length

instance (capacity : Nat) (p : Pipe) (n : Nat) : Decidable (p.Fits capacity n) :=
  inferInstanceAs (Decidable (_ ∧ _))

instance (capacity : Nat) (p : Pipe) : Decidable (p.Full capacity) :=
  inferInstanceAs (Decidable (_ ∧ _))

def write (p : Pipe) (bytes : List UInt8) : Pipe := { p with held := p.held ++ bytes }

def read (p : Pipe) (n : Nat) : Pipe := { p with held := p.held.drop n }

end Pipe

inductive OutputStream where
  | stdout
  | stderr
  deriving DecidableEq

/-- What a child has to live, in seconds. -/
structure Timer where
  /-- `timeout_secs`; `0` where there is none. -/
  secs : Nat
  spawnedAt : Nat
  /-- When `tokio::time::timeout` was called. -/
  armedAt : Option Nat

/-- The standard streams of a child, and the timer of the task that spawned it. -/
structure Stdio where
  timer : Timer
  input : Option String
  /-- What `write_all` has not written yet. -/
  left : List UInt8
  stdin : Pipe
  output : OutputStream → Pipe
  /-- `stdout_done`, `stderr_done`. -/
  done : OutputStream → Bool

/-- The streams of a shell that was just spawned. -/
def Stdio.spawn (params : RunCommandParams) (now : Nat) : Stdio where
  timer := ⟨params.timeoutSecs.getD 0, now, none⟩
  input := params.input
  left := utf8Bytes (params.input.getD "")
  stdin := .fresh
  output _ := .fresh
  done _ := false

/-- `tokio::time::timeout` is called. -/
def Stdio.arm (io : Stdio) (now : Nat) : Stdio :=
  { io with timer := { io.timer with armedAt := some now } }

/-! ## 2. Steps -/

/-- **The agent with the pipes of its children**, and the seconds that have passed. -/
structure PipedAgent where
  agent : AgentState
  stdio : Nat → Stdio
  now : Nat

inductive PipedEvent where
  | start (k id : Nat) (params : RunCommandParams)
  /-- `write_all` writes `n` bytes more of the input. -/
  | feed (k n : Nat)
  /-- `write_all` fails, for the child has closed its end. -/
  | feedFails (k : Nat)
  /-- `drop(stdin)`. -/
  | closeInput (k : Nat)
  /-- `next_line` takes bytes out of a pipe. -/
  | drain (k : Nat) (o : OutputStream) (n : Nat)
  /-- A stream is at its end, or cannot be read. -/
  | ends (k : Nat) (o : OutputStream)
  /-- Another step of a command, or of its child. -/
  | command (e : CommandEvent)
  /-- The child reads its input, or closes it. -/
  | takes (k n : Nat)
  | shuts (k : Nat)
  /-- The child writes to an output, or closes it. -/
  | writes (k : Nat) (o : OutputStream) (bytes : List UInt8)
  | hangsUp (k : Nat) (o : OutputStream)
  /-- A second passes. -/
  | tick

/-- Bytes move, or an end of a pipe is closed, and nothing else. -/
def PipedEvent.movesBytes : PipedEvent → Bool
  | .start .. | .command _ | .tick => false
  | _ => true

namespace PipedAgent

variable (capacity : Nat) (s : PipedAgent)

/-- A task was spawned, as `AgentState.Has` for any phase. -/
abbrev Spawned (k : Nat) : Prop := (s.agent.tasks k).isSome = true

/-- The timer of a task. -/
abbrev timer (k : Nat) : Timer := (s.stdio k).timer

/-- What a step of a command asks of the pipes and the clock. -/
def ready : CommandEvent → Prop
  | .start .. => False
  | .track k => (s.stdio k).input.isSome = true → (s.stdio k).stdin.writer = false
  | .closes k => (s.stdio k).done .stdout = true ∧ (s.stdio k).done .stderr = true
  | .deadline k => (s.timer k).armedAt.any (· + (s.timer k).secs ≤ s.now) = true
  | _ => True

instance ready.decidable : ∀ e, Decidable (s.ready e)
  | .start .. => inferInstanceAs (Decidable False)
  | .track _ => inferInstanceAs (Decidable (_ → _))
  | .closes _ => inferInstanceAs (Decidable (_ ∧ _))
  | .deadline _ => inferInstanceAs (Decidable (_ = _))
  | .register _ | .print .. | .eof _ | .lookup _ | .reap _ | .waitFails _ | .kill _ | .finish _
  | .exits .. | .killAll => inferInstanceAs (Decidable True)

/-- The guard of a step. -/
def permits : PipedEvent → Prop
  | .start k id params => s.agent.permits (.start k id params)
  | .feed k n => s.agent.Has k (·.phase = .spawned) ∧ 0 < n ∧ n ≤ (s.stdio k).left.length ∧
      (s.stdio k).stdin.Fits capacity n
  | .feedFails k => s.agent.Has k (·.phase = .spawned) ∧ (s.stdio k).left ≠ [] ∧
      (s.stdio k).stdin.reader = false
  | .closeInput k => s.agent.Has k (·.phase = .spawned) ∧ (s.stdio k).left = [] ∧
      (s.stdio k).input.isSome = true
  | .drain k o n => s.agent.Has k (·.phase = .streaming) ∧ (s.stdio k).done o = false ∧
      n ≤ ((s.stdio k).output o).held.length
  | .ends k o => s.agent.Has k (·.phase = .streaming) ∧ (s.stdio k).done o = false
  | .command e => s.agent.permits e ∧ s.ready e
  | .takes k n => s.Spawned k ∧ (s.stdio k).stdin.reader = true ∧
      n ≤ (s.stdio k).stdin.held.length
  | .shuts k => s.Spawned k ∧ (s.stdio k).stdin.reader = true
  | .writes k o bytes => s.Spawned k ∧ ((s.stdio k).output o).Fits capacity bytes.length
  | .hangsUp k o => s.Spawned k ∧ ((s.stdio k).output o).writer = true
  | .tick => True

instance permits.decidable : ∀ e, Decidable (s.permits capacity e)
  | .start k id params => inferInstanceAs (Decidable (s.agent.permits (.start k id params)))
  | .feed .. | .feedFails _ | .closeInput _ | .drain .. | .ends .. | .command _ | .takes ..
  | .shuts _ | .writes .. | .hangsUp .. => inferInstanceAs (Decidable (_ ∧ _))
  | .tick => inferInstanceAs (Decidable True)

/-- The streams of one child change. -/
def put (k : Nat) (io : Stdio) : PipedAgent :=
  { s with stdio := Function.update s.stdio k io }

/-- What a step of a command does to the streams of its child: it starts the timer, or it drops the
    agent's ends of the outputs. -/
def stdioNext : CommandEvent → Stdio → Stdio
  | .track k, io =>
      if s.agent.Has k (·.background = true) then io else io.arm s.now
  | .register _, io => io.arm s.now
  | .eof _, io | .deadline _, io =>
      { io with output := fun o => { io.output o with reader := false } }
  | _, io => io

/-- The effect of a step. -/
def next : PipedEvent → PipedAgent
  | .start k id params =>
      { s.put k (.spawn params s.now) with agent := s.agent.next (.start k id params) }
  | .feed k n =>
      let io := s.stdio k
      s.put k { io with left := io.left.drop n, stdin := io.stdin.write (io.left.take n) }
  | .feedFails k => s.put k { s.stdio k with left := [] }
  | .closeInput k =>
      let io := s.stdio k
      s.put k { io with stdin := { io.stdin with writer := false } }
  | .drain k o n =>
      let io := s.stdio k
      s.put k { io with output := Function.update io.output o ((io.output o).read n) }
  | .ends k o =>
      let io := s.stdio k
      s.put k { io with done := Function.update io.done o true }
  | .command e =>
      let s' := match e.actor with
        | some k => s.put k (s.stdioNext e (s.stdio k))
        | none => s
      { s' with agent := s.agent.next e }
  | .takes k n =>
      let io := s.stdio k
      s.put k { io with stdin := io.stdin.read n }
  | .shuts k =>
      let io := s.stdio k
      s.put k { io with stdin := { io.stdin with reader := false } }
  | .writes k o bytes =>
      let io := s.stdio k
      s.put k { io with output := Function.update io.output o ((io.output o).write bytes) }
  | .hangsUp k o =>
      let io := s.stdio k
      let pipe := { io.output o with writer := false }
      s.put k { io with output := Function.update io.output o pipe }
  | .tick => { s with now := s.now + 1 }

end PipedAgent

/-- **The step relation**, for pipes of a capacity. -/
abbrev PipedStep (capacity : Nat) : PipedAgent → PipedEvent → PipedAgent → Prop :=
  Moves (PipedAgent.permits capacity) PipedAgent.next

/-- The agent starts without commands. -/
def NoPipedCommands (s : PipedAgent) : Prop := NoCommands s.agent

abbrev PipedRun (capacity : Nat) (hist : List (PipedAgent × PipedEvent)) (s : PipedAgent) : Prop :=
  Run NoPipedCommands (PipedStep capacity) hist s

/-! ## 3. What is to hold -/

/-- A child runs, and as many seconds have passed since its spawn as its timeout says. -/
structure Due (s : PipedAgent) (k : Nat) (t : CommandTask) : Prop where
  task : s.agent.tasks k = some t
  runs : t.status = none
  timed : 0 < (s.timer k).secs
  passed : (s.timer k).spawnedAt + (s.timer k).secs ≤ s.now

/-- **The step that kills the child is enabled**: the timer of its task goes off, or has gone off
    and the lock is free; and the map has the child under the id of the command. -/
def KillEnabled (capacity : Nat) (s : PipedAgent) (k : Nat) (t : CommandTask) : Prop :=
  s.agent.commands t.id = some k ∧
    (s.permits capacity (.command (.deadline k)) ∨ s.permits capacity (.command (.kill k)))

/-- A task waits for its child to read, outside the timer: input is left, and the pipe is full. -/
def WaitsOnPipe (capacity : Nat) (s : PipedAgent) (k : Nat) : Prop :=
  s.agent.Has k (·.phase = .spawned) ∧ (s.stdio k).left ≠ [] ∧ (s.stdio k).stdin.Full capacity

/-- **A timeout is kept**: a child that has outlived it can be killed, and its task does not wait
    on a pipe outside the timer. -/
def InTime (capacity : Nat) (s : PipedAgent) : Prop :=
  ∀ k t, Due s k t → KillEnabled capacity s k t ∧ ¬ WaitsOnPipe capacity s k

/-- The end of a task takes the child out of the map. -/
def CommandTask.removes (t : CommandTask) : Bool :=
  !t.background && decide (t.phase ≠ .finished .failed)

/-- **The condition.** A second that brings a child to its timeout passes only where its timer was
    armed in the second of its spawn, its task is inside the limit, and the map has the child.
    Meanwhile no other task takes the lock from a task that is about to kill, holds it when the
    timer goes off, or takes its id; and no error of `wait` ends it. -/
def Prompt (s : PipedAgent) : PipedEvent → Prop
  | .tick => ∀ k t, s.agent.tasks k = some t → t.status = none → 0 < (s.timer k).secs →
      (s.timer k).spawnedAt + (s.timer k).secs = s.now + 1 →
      (s.timer k).armedAt = some (s.timer k).spawnedAt ∧ t.phase.limited = true ∧
        s.agent.commands t.id = some k
  | .command (.deadline j) => ∀ t, Due s j t → s.agent.lock = none ∨ s.agent.lock = some j
  | .command (.lookup j) => ∀ u, s.agent.tasks j = some u → (s.agent.commands u.id).isSome →
      ∀ k t, Due s k t → t.phase ≠ .timingOut
  | .command (.track j) => ∀ u, s.agent.tasks j = some u → ∀ k t, Due s k t → t.id ≠ u.id
  | .command (.finish j) => ∀ u, s.agent.tasks j = some u → u.removes = true →
      ∀ k t, Due s k t → t.id ≠ u.id
  | .command (.reap j) | .command (.waitFails j) => ∀ t, ¬ Due s j t
  | _ => True

/-! ## 4. Which state counts -/

section Views

variable {capacity : Nat} {s s' : PipedAgent} {k : Nat} {t : CommandTask}

/-- The step that kills a child, in terms of its task, its timer and the lock. -/
structure Killable (s : PipedAgent) (k : Nat) (t : CommandTask) : Prop where
  mapped : s.agent.commands t.id = some k
  step : (t.timed = true ∧ t.phase.limited = true ∧
      ∃ a, (s.timer k).armedAt = some a ∧ a + (s.timer k).secs ≤ s.now) ∨
    (t.phase = .timingOut ∧ s.agent.lock = none)

theorem Due.task_eq (h : Due s k t) {u : CommandTask} (hu : s.agent.tasks k = some u) : u = t :=
  Option.some.inj (hu.symm.trans h.task)

theorem killEnabled_iff (h : Due s k t) : KillEnabled capacity s k t ↔ Killable s k t := by
  constructor
  · intro henabled
    obtain ⟨hmapped, hstep⟩ := henabled
    refine ⟨hmapped, ?_⟩
    rcases hstep with hdeadline | hkill
    · obtain ⟨⟨u, hu, htimed, hphase⟩, hready⟩ := hdeadline
      obtain rfl := h.task_eq hu
      obtain ⟨a, ha, hle⟩ := (Option.any_eq_true ..).mp hready
      exact .inl ⟨htimed, hphase, a, ha, of_decide_eq_true hle⟩
    · obtain ⟨⟨⟨u, hu, hphase⟩, hlock⟩, -⟩ := hkill
      obtain rfl := h.task_eq hu
      exact .inr ⟨hphase, hlock⟩
  · intro hkill
    refine ⟨hkill.mapped, ?_⟩
    rcases hkill.step with ⟨htimed, hphase, a, ha, hle⟩ | ⟨hphase, hlock⟩
    · refine .inl ⟨⟨t, h.task, htimed, hphase⟩, ?_⟩
      show (s.timer k).armedAt.any _ = true
      rw [ha]
      exact decide_eq_true hle
    · exact .inr ⟨⟨⟨t, h.task, hphase⟩, hlock⟩, trivial⟩

/-- A task whose child can be killed is not in its input. -/
theorem Killable.not_spawned (h : Killable s k t) : t.phase ≠ .spawned := by
  intro hphase
  rcases h.step with ⟨-, hlimited, -⟩ | ⟨htiming, -⟩
  · rw [hphase] at hlimited
    cases hlimited
  · rw [hphase] at htiming
    cases htiming

/-- **The first half says it all**: a task that waits on a pipe has no timer yet. -/
theorem inTime_iff : InTime capacity s ↔ ∀ k t, Due s k t → Killable s k t := by
  constructor
  · intro h k t hdue
    exact (killEnabled_iff hdue).mp (h k t hdue).1
  · intro h k t hdue
    refine ⟨(killEnabled_iff hdue).mpr (h k t hdue), fun hwaits => ?_⟩
    obtain ⟨⟨u, hu, hphase⟩, -⟩ := hwaits
    obtain rfl := hdue.task_eq hu
    exact (h k u hdue).not_spawned hphase

/-- Nothing that a timeout depends on differs. -/
structure SameClock (s s' : PipedAgent) : Prop where
  agent : s'.agent = s.agent
  now : s'.now = s.now
  timer : ∀ k, s'.timer k = s.timer k

theorem SameClock.due (h : SameClock s s') : Due s' k t ↔ Due s k t := by
  constructor
  · intro hdue
    obtain ⟨htask, hruns, htimed, hpassed⟩ := hdue
    rw [h.agent] at htask
    rw [h.timer] at htimed hpassed
    rw [h.now] at hpassed
    exact ⟨htask, hruns, htimed, hpassed⟩
  · intro hdue
    obtain ⟨htask, hruns, htimed, hpassed⟩ := hdue
    rw [← h.agent] at htask
    rw [← h.timer] at htimed hpassed
    rw [← h.now] at hpassed
    exact ⟨htask, hruns, htimed, hpassed⟩

theorem SameClock.killable (h : SameClock s s') (hkill : Killable s k t) : Killable s' k t := by
  refine ⟨?_, ?_⟩
  · rw [h.agent]
    exact hkill.mapped
  · rw [h.agent, h.timer, h.now]
    exact hkill.step

theorem stdio_put (s : PipedAgent) (k : Nat) (io : Stdio) : (s.put k io).stdio k = io := by
  show Function.update s.stdio k io k = io
  rw [Function.update_self]

/-- The streams of a child change, and not its timer. -/
theorem sameClock_put {io : Stdio} (h : io.timer = s.timer k) : SameClock s (s.put k io) := by
  refine ⟨rfl, rfl, fun j => ?_⟩
  show (Function.update s.stdio k io j).timer = (s.stdio j).timer
  by_cases hj : j = k
  · subst hj
    rw [Function.update_self]
    exact h
  · rw [Function.update_of_ne hj]

/-- **Bytes do not matter**: what is written to a pipe or read from it changes no timer. -/
theorem sameClock_bytes {e : PipedEvent} (he : e.movesBytes = true) : SameClock s (s.next e) := by
  cases e with
  | start | command | tick => cases he
  | feed | feedFails | closeInput | drain | ends | takes | shuts | writes | hangsUp =>
    exact sameClock_put rfl

end Views

/-! ## 5. Steps -/

section Steps

variable {capacity : Nat} {s s' : PipedAgent} {k : Nat} {t t' : CommandTask}

/-- What a step of a command does to the timer of a task. -/
theorem timer_command (e : CommandEvent) (k : Nat) :
    (s.next (.command e)).timer k = s.timer k ∨
      ((e = .track k ∨ e = .register k) ∧
        (s.next (.command e)).timer k = { s.timer k with armedAt := some s.now }) := by
  have hput : ∀ j, e.actor = some j → (s.next (.command e)).stdio =
      Function.update s.stdio j (s.stdioNext e (s.stdio j)) := by
    intro j hj
    rw [PipedAgent.next]
    simp only [hj]
    rfl
  by_cases hactor : e.actor = some k
  · have hself : (s.next (.command e)).stdio k = s.stdioNext e (s.stdio k) := by
      rw [hput k hactor, Function.update_self]
    unfold PipedAgent.timer
    rw [hself]
    cases e with
    | track j =>
      obtain rfl := Option.some.inj hactor
      rw [PipedAgent.stdioNext]
      split
      · exact .inl rfl
      · exact .inr ⟨.inl rfl, rfl⟩
    | register j =>
      obtain rfl := Option.some.inj hactor
      exact .inr ⟨.inr rfl, rfl⟩
    | _ => exact .inl rfl
  · left
    show ((s.next (.command e)).stdio k).timer = (s.stdio k).timer
    cases hj : e.actor with
    | none =>
      rw [PipedAgent.next]
      simp only [hj]
    | some j =>
      have hne : k ≠ j := fun heq => hactor (by rw [hj, heq])
      rw [hput j hj, Function.update_of_ne hne]

theorem now_command (e : CommandEvent) : (s.next (.command e)).now = s.now := by
  rw [PipedAgent.next]
  dsimp only
  split <;> rfl

/-- What holds of a task and its timer. -/
structure TimerInv (s : PipedAgent) (k : Nat) (t : CommandTask) : Prop where
  timed : t.timed = decide (0 < (s.timer k).secs)
  spawned : (s.timer k).spawnedAt ≤ s.now
  armed : ∀ a, (s.timer k).armedAt = some a → (s.timer k).spawnedAt ≤ a
  fired : t.phase = .timingOut →
    ∃ a, (s.timer k).armedAt = some a ∧ a + (s.timer k).secs ≤ s.now

def PipedInv (s : PipedAgent) : Prop := ∀ k t, s.agent.tasks k = some t → TimerInv s k t

theorem SameClock.inv (h : SameClock s s') (hinv : PipedInv s) : PipedInv s' := by
  intro k t ht
  rw [h.agent] at ht
  obtain ⟨htimed, hspawned, harmed, hfired⟩ := hinv k t ht
  constructor
  · rw [h.timer]
    exact htimed
  · rw [h.timer, h.now]
    exact hspawned
  · rw [h.timer]
    exact harmed
  · rw [h.timer, h.now]
    exact hfired

/-- A task that is replaced by one that has not timed out. -/
theorem timingOut_update {a : AgentState} {j : Nat} {u : CommandTask}
    (hphase : t'.phase = .timingOut) (ht : a.tasks k = some t)
    (ht' : Function.update a.tasks j (some u) k = some t') (hu : u.phase ≠ .timingOut) :
    t.phase = .timingOut := by
  rcases AgentState.task_update ht' with ⟨rfl, rfl⟩ | ⟨-, hsame⟩
  · exact absurd hphase hu
  · obtain rfl : t = t' := Option.some.inj (ht.symm.trans hsame)
    exact hphase

/-- **A task comes to its kill by its deadline.** -/
theorem timingOut_of_step {a a' : AgentState} {e : CommandEvent} (hstep : CommandStep a e a')
    (ht : a.tasks k = some t) (ht' : a'.tasks k = some t') (hphase : t'.phase = .timingOut) :
    t.phase = .timingOut ∨ e = .deadline k := by
  have hkept := fun {j u} => timingOut_update (j := j) (u := u) hphase ht
  have hkilled : ∀ {u : CommandTask}, t' = u ∨ t' = u.killed → u.phase = .timingOut := by
    intro u hu
    rcases hu with rfl | rfl
    · exact hphase
    · exact hphase
  cases CommandEffect.of_step hstep with
  | start => exact .inl (hkept ht' nofun)
  | @track _ u =>
    refine .inl (hkept ht' ?_)
    dsimp only
    split <;> nofun
  | register | eof | lookup | lookupFails | reap | waitFails | killFails | finishBackground
  | finishFailed | finish => exact .inl (hkept ht' nofun)
  | print hu hstream => exact .inl (hkept ht' (by rw [hstream]; nofun))
  | @exits j code u hu =>
    rcases AgentState.task_update ht' with ⟨rfl, rfl⟩ | ⟨-, hsame⟩
    · obtain rfl : t = u := Option.some.inj (ht.symm.trans hu)
      exact .inl hphase
    · obtain rfl : t = t' := Option.some.inj (ht.symm.trans hsame)
      exact .inl hphase
  | @closes j u hu =>
    rcases AgentState.task_update ht' with ⟨rfl, rfl⟩ | ⟨-, hsame⟩
    · obtain rfl : t = u := Option.some.inj (ht.symm.trans hu)
      exact .inl hphase
    · obtain rfl : t = t' := Option.some.inj (ht.symm.trans hsame)
      exact .inl hphase
  | @deadline j u hu =>
    rcases AgentState.task_update ht' with ⟨rfl, -⟩ | ⟨-, hsame⟩
    · exact .inr rfl
    · obtain rfl : t = t' := Option.some.inj (ht.symm.trans hsame)
      exact .inl hphase
  | @kill j child u u' =>
    rcases AgentState.task_update ht' with ⟨rfl, rfl⟩ | ⟨-, hsame⟩
    · cases hphase
    · obtain ⟨v, hv, hvu⟩ := AgentState.terminate_task child ht
      obtain rfl : v = t' := Option.some.inj (hv.symm.trans hsame)
      exact .inl (hkilled hvu)
  | killAll =>
    obtain ⟨u, hu, hcases⟩ := AgentState.task_killAll ht'
    obtain rfl : t = u := Option.some.inj (ht.symm.trans hu)
    exact .inl (hkilled hcases)

/-- The tasks that a step leaves were there before, but for the one that starts. -/
theorem not_start {e : CommandEvent} (hok : s.permits capacity (.command e)) (id : Nat)
    (params : RunCommandParams) : e ≠ .start k id params := by
  intro heq
  subst heq
  exact hok.2

/-- The timer is armed by a task that is not inside the limit yet. -/
theorem phase_of_arm {a : AgentState} {e : CommandEvent} (hok : a.permits e)
    (he : e = .track k ∨ e = .register k) (ht : a.tasks k = some t) :
    t.phase = .spawned ∨ t.phase = .tracked := by
  rcases he with rfl | rfl
  · obtain ⟨⟨u, hu, hphase⟩, -⟩ := hok
    obtain rfl : t = u := Option.some.inj (ht.symm.trans hu)
    exact .inl hphase
  · obtain ⟨u, hu, hphase⟩ := hok
    obtain rfl : t = u := Option.some.inj (ht.symm.trans hu)
    exact .inr hphase

theorem inv_command {e : CommandEvent} (hinv : PipedInv s)
    (hok : s.permits capacity (.command e)) : PipedInv (s.next (.command e)) := by
  intro k t' ht'
  have hstep : CommandStep s.agent e (s.agent.next e) := ⟨hok.1, rfl⟩
  obtain ⟨t, ht, hev⟩ := task_before hstep (not_start hok) ht'
  obtain ⟨htimed, hspawned, harmed, hfired⟩ := hinv k t ht
  have hnow : (s.next (.command e)).now = s.now := now_command e
  -- a task that is about to kill was so before, or its timer has gone off in this step
  have hgone : t'.phase = .timingOut →
      ∃ a, (s.timer k).armedAt = some a ∧ a + (s.timer k).secs ≤ s.now := by
    intro hphase
    rcases timingOut_of_step hstep ht ht' hphase with hphase | rfl
    · exact hfired hphase
    · obtain ⟨a, ha, hle⟩ := (Option.any_eq_true ..).mp hok.2
      exact ⟨a, ha, of_decide_eq_true hle⟩
  rcases timer_command (s := s) e k with hsame | ⟨hevent, harm⟩
  · refine ⟨?_, ?_, ?_, ?_⟩
    · rw [hsame, hev.timed]
      exact htimed
    · rw [hsame, hnow]
      exact hspawned
    · rw [hsame]
      exact harmed
    · rw [hsame, hnow]
      exact hgone
  · refine ⟨?_, ?_, ?_, fun hphase => ?_⟩
    · rw [harm, hev.timed]
      exact htimed
    · rw [harm, hnow]
      exact hspawned
    · rw [harm]
      intro a ha
      obtain rfl := Option.some.inj ha
      exact hspawned
    · rcases timingOut_of_step hstep ht ht' hphase with hphase | rfl
      · rcases phase_of_arm hok.1 hevent ht with hearly | hearly
        · rw [hearly] at hphase
          cases hphase
        · rw [hearly] at hphase
          cases hphase
      · rcases hevent with heq | heq
        · cases heq
        · cases heq

theorem inv_new (h : NoPipedCommands s) : PipedInv s := by
  have hnone : s.agent = .new := h
  intro k t ht
  rw [hnone] at ht
  cases ht

/-- **Every step keeps it.** -/
theorem inv_step {e : PipedEvent} (hinv : PipedInv s) (hstep : PipedStep capacity s e s') :
    PipedInv s' := by
  obtain ⟨hok, rfl⟩ := hstep
  cases e with
  | command e => exact inv_command hinv hok
  | tick =>
    intro k t ht
    obtain ⟨htimed, hspawned, harmed, hfired⟩ := hinv k t ht
    refine ⟨htimed, Nat.le_succ_of_le hspawned, harmed, fun hphase => ?_⟩
    obtain ⟨a, ha, hle⟩ := hfired hphase
    exact ⟨a, ha, Nat.le_succ_of_le hle⟩
  | start j id params =>
    intro k t ht
    rcases AgentState.task_update ht with ⟨rfl, rfl⟩ | ⟨hne, ht⟩
    · have htimer : (s.next (.start k id params)).timer k =
          ⟨params.timeoutSecs.getD 0, s.now, none⟩ := by
        show (Function.update s.stdio k _ k).timer = _
        rw [Function.update_self]
        rfl
      refine ⟨?_, ?_, ?_, nofun⟩
      · rw [htimer]
        show params.timeoutSecs.any (0 < ·) = decide (0 < params.timeoutSecs.getD 0)
        cases params.timeoutSecs <;> rfl
      · rw [htimer]
        exact Nat.le_refl s.now
      · rw [htimer]
        nofun
    · have htimer : (s.next (.start j id params)).timer k = s.timer k := by
        show (Function.update s.stdio j _ k).timer = _
        rw [Function.update_of_ne hne]
      obtain ⟨htimed, hspawned, harmed, hfired⟩ := hinv k t ht
      rw [← htimer] at htimed hspawned harmed hfired
      exact ⟨htimed, hspawned, harmed, hfired⟩
  | feed | feedFails | closeInput | drain | ends | takes | shuts | writes | hangsUp =>
    refine SameClock.inv (sameClock_bytes ?_) hinv
    rfl

/-- A child that is due after a step of a command was due before it. -/
theorem due_before {e : CommandEvent} (hok : s.permits capacity (.command e))
    (hdue : Due (s.next (.command e)) k t') :
    ∃ t, Due s k t ∧ Evolves (e.actor = some k) t t' := by
  obtain ⟨htask, hruns, htimed, hpassed⟩ := hdue
  obtain ⟨t, ht, hev⟩ := task_before ⟨hok.1, rfl⟩ (not_start hok) htask
  rw [now_command] at hpassed
  refine ⟨t, ⟨ht, hev.runs hruns, ?_, ?_⟩, hev⟩
  · rcases timer_command (s := s) e k with hsame | ⟨-, harm⟩
    · rw [hsame] at htimed
      exact htimed
    · rw [harm] at htimed
      exact htimed
  · rcases timer_command (s := s) e k with hsame | ⟨-, harm⟩
    · rw [hsame] at hpassed
      exact hpassed
    · rw [harm] at hpassed
      exact hpassed

/-- **A child that can be killed can still be**, where the map and the lock allow it. -/
theorem Killable.kept {e : CommandEvent} (h : Killable s k t)
    (hok : s.permits capacity (.command e)) (ht : s.agent.tasks k = some t) (hid : t'.id = t.id)
    (htimed : t'.timed = t.timed)
    (hphase : t'.phase = t.phase ∨ (t.phase.limited = true ∧ t'.phase.limited = true))
    (hmap : (s.agent.next e).commands t.id = some k)
    (hlock : t.phase = .timingOut → s.agent.lock = none → (s.agent.next e).lock = none) :
    Killable (s.next (.command e)) k t' := by
  have htimer : (s.next (.command e)).timer k = s.timer k := by
    rcases timer_command (s := s) e k with hsame | ⟨harm, -⟩
    · exact hsame
    · rcases h.step with ⟨-, hlimited, -⟩ | ⟨htiming, -⟩
      · rcases phase_of_arm hok.1 harm ht with hearly | hearly <;>
        · rw [hearly] at hlimited
          cases hlimited
      · rcases phase_of_arm hok.1 harm ht with hearly | hearly <;>
        · rw [hearly] at htiming
          cases htiming
  refine ⟨?_, ?_⟩
  · rw [hid]
    exact hmap
  · rw [htimer, now_command, htimed]
    rcases h.step with ⟨htimed, hlimited, hgone⟩ | ⟨htiming, hfree⟩
    · refine .inl ⟨htimed, ?_, hgone⟩
      rcases hphase with hsame | ⟨-, hlimited'⟩
      · rw [hsame]
        exact hlimited
      · exact hlimited'
    · refine .inr ⟨?_, hlock htiming hfree⟩
      rcases hphase with hsame | ⟨hlimited, -⟩
      · rw [hsame]
        exact htiming
      · rw [htiming] at hlimited
        cases hlimited

/-- The phase of a task whose child can be killed is none of the others. -/
theorem Killable.phase (h : Killable s k t) : t.phase.limited = true ∨ t.phase = .timingOut :=
  h.step.imp (fun hstep => hstep.2.1) And.left

/-- A task in another phase is another task. -/
theorem Killable.ne_of_phase {j : Nat} {u : CommandTask} (h : Killable s k t) (hdue : Due s k t)
    (hu : s.agent.tasks j = some u) (hlimited : u.phase.limited = false)
    (htiming : u.phase ≠ .timingOut) : k ≠ j := by
  intro heq
  subst heq
  obtain rfl := hdue.task_eq hu
  rcases h.phase with hphase | hphase
  · rw [hlimited] at hphase
    cases hphase
  · exact htiming hphase

theorem terminate_self {a : AgentState} (ht : a.tasks k = some t) :
    (a.terminate k).tasks k = some t.killed := by
  rw [AgentState.terminate, AgentState.on_eq ht]
  exact AgentState.put_self _ _ _

theorem terminate_maps {a : AgentState} {child : Nat} :
    (a.terminate child).commands = a.commands ∧ (a.terminate child).lock = a.lock := by
  rw [AgentState.terminate, AgentState.on]
  split
  · exact ⟨rfl, rfl⟩
  · exact ⟨rfl, rfl⟩

/-- A task whose `wait` has failed leaves its child in the map. -/
theorem finish_failed {a : AgentState} (ht : a.tasks k = some t)
    (hphase : t.phase = .finished .failed) (hback : t.background = false) :
    (a.next (.finish k)).commands = a.commands := by
  rw [AgentState.next, AgentState.on_eq ht, hphase]
  dsimp only [CommandPhase.completion]
  rw [hback, if_neg Bool.false_ne_true, AgentState.move_eq ht]
  rfl

/-- The child still runs, so it was not among those that were killed at the end of the session. -/
theorem Killable.not_killAll {e : CommandEvent} (h : Killable s k t) (hdue : Due s k t)
    (ht' : (s.agent.next e).tasks k = some t') (hruns : t'.status = none) : e ≠ .killAll := by
  intro heq
  subst heq
  obtain ⟨u, hu, rfl⟩ := Option.map_eq_some_iff.mp ht'
  obtain rfl := hdue.task_eq hu
  rw [if_pos h.mapped] at hruns
  cases hruns

/-- **The map keeps the child**, under the condition. -/
theorem mapped_after {e : CommandEvent} (hok : s.permits capacity (.command e))
    (hC : Prompt s (.command e)) (hdue : Due s k t) (hmapped : s.agent.commands t.id = some k)
    (he : e ≠ .killAll) : (s.agent.next e).commands t.id = some k := by
  have heffect := CommandEffect.of_step (show CommandStep s.agent e (s.agent.next e) from
    ⟨hok.1, rfl⟩)
  generalize hnext : s.agent.next e = a' at heffect
  cases heffect with
  | start => exact hok.2.elim
  | track hu hphase => exact (Function.update_of_ne (hC _ hu _ _ hdue) _ _).trans hmapped
  | @kill j child =>
    show (s.agent.terminate child).commands _ = _
    rw [terminate_maps.1]
    exact hmapped
  | @finish j u outcome hu hphase hback hlock =>
    by_cases hfail : outcome = .failed
    · subst hfail
      rw [← finish_failed hu hphase hback, hnext] at hmapped
      exact hmapped
    · have hremoves : u.removes = true := by
        rw [CommandTask.removes, hback, hphase]
        exact decide_eq_true fun heq => hfail (CommandPhase.finished.inj heq)
      exact (Function.update_of_ne (hC u hu hremoves _ _ hdue) _ _).trans hmapped
  | killAll => exact absurd rfl he
  | _ => exact hmapped

/-- **The lock stays free** for a task that is about to kill, under the condition. -/
theorem lock_after {e : CommandEvent} (hok : s.permits capacity (.command e))
    (hC : Prompt s (.command e)) (hdue : Due s k t) (htiming : t.phase = .timingOut)
    (hfree : s.agent.lock = none) : (s.agent.next e).lock = none := by
  have heffect := CommandEffect.of_step (show CommandStep s.agent e (s.agent.next e) from
    ⟨hok.1, rfl⟩)
  generalize s.agent.next e = a' at heffect
  cases heffect with
  | start => exact hok.2.elim
  | lookup hu hphase hlock hchild =>
    -- no other task takes it now
    exact absurd htiming (hC _ hu (by rw [hchild]; rfl) _ _ hdue)
  | reap | waitFails => rfl
  | @deadline j =>
    show (if s.agent.lock = some j then none else s.agent.lock) = none
    rw [hfree]
    rfl
  | @kill j child =>
    show (s.agent.terminate child).lock = none
    rw [terminate_maps.2]
    exact hfree
  | _ => exact hfree

/-- **The task stays where it can kill**, unless its timer goes off in this step. -/
theorem phase_after {e : CommandEvent} (hok : s.permits capacity (.command e))
    (hC : Prompt s (.command e)) (hdue : Due s k t) (hkill : Killable s k t)
    (ht' : (s.agent.next e).tasks k = some t') (hruns : t'.status = none)
    (he : e ≠ .deadline k) :
    t'.phase = t.phase ∨ (t.phase.limited = true ∧ t'.phase.limited = true) := by
  have hnot := hkill.not_killAll hdue ht' hruns
  have heffect := CommandEffect.of_step (show CommandStep s.agent e (s.agent.next e) from
    ⟨hok.1, rfl⟩)
  generalize s.agent.next e = a' at ht' heffect
  -- a step of another task leaves it as it is
  have hother : ∀ {j u}, Function.update s.agent.tasks j (some u) k = some t' → k ≠ j →
      t'.phase = t.phase := by
    intro j u hu hne
    rw [Function.update_of_ne hne, hdue.task] at hu
    rw [Option.some.inj hu]
  cases heffect with
  | start => exact hok.2.elim
  | track hu hphase | register hu hphase | finishBackground hu hphase | finishFailed hu hphase
  | finish hu hphase =>
    refine .inl (hother ht' (hkill.ne_of_phase hdue hu ?_ ?_)) <;> rw [hphase]
    · rfl
    · exact fun h => by cases h
  | print hu hphase | closes hu =>
    rcases AgentState.task_update ht' with ⟨rfl, rfl⟩ | ⟨hne, -⟩
    · obtain rfl := hdue.task_eq hu
      exact .inl rfl
    · exact .inl (hother ht' hne)
  | eof hu hphase | lookup hu hphase =>
    rcases AgentState.task_update ht' with ⟨rfl, rfl⟩ | ⟨hne, -⟩
    · obtain rfl := hdue.task_eq hu
      exact .inr ⟨by rw [hphase]; rfl, rfl⟩
    · exact .inl (hother ht' hne)
  | lookupFails hu hphase hlock hchild | killFails hu hphase hlock hchild =>
    rcases AgentState.task_update ht' with ⟨rfl, -⟩ | ⟨hne, -⟩
    · obtain rfl := hdue.task_eq hu
      rw [hkill.mapped] at hchild
      cases hchild
    · exact .inl (hother ht' hne)
  | reap hu hphase | waitFails hu hphase =>
    rcases AgentState.task_update ht' with ⟨rfl, -⟩ | ⟨hne, -⟩
    · exact absurd hdue (hC t)
    · exact .inl (hother ht' hne)
  | @deadline j u hu htimed hphase =>
    refine .inl (hother ht' ?_)
    intro heq
    subst heq
    exact he rfl
  | @kill j child u u' hu hphase hlock hchild hu' hkilled =>
    rcases AgentState.task_update ht' with ⟨rfl, rfl⟩ | ⟨hne, hsame⟩
    · -- the child that is killed is its own
      obtain rfl := hdue.task_eq hu
      obtain rfl : k = child := Option.some.inj (hkill.mapped.symm.trans hchild)
      rw [terminate_self hu] at hu'
      obtain rfl := Option.some.inj hu'
      cases hruns
    · obtain ⟨v, hv, hvu⟩ := AgentState.terminate_task child hdue.task
      obtain rfl : v = t' := Option.some.inj (hv.symm.trans hsame)
      rcases hvu with rfl | rfl
      · exact .inl rfl
      · cases hruns
  | exits hu =>
    rcases AgentState.task_update ht' with ⟨rfl, rfl⟩ | ⟨hne, -⟩
    · cases hruns
    · exact .inl (hother ht' hne)
  | killAll => exact absurd rfl hnot

/-- **A step of a command leaves the kill enabled**, under the condition. -/
theorem killable_command {e : CommandEvent} (hok : s.permits capacity (.command e))
    (hC : Prompt s (.command e)) (hdue : Due s k t) (hkill : Killable s k t)
    (ht' : (s.agent.next e).tasks k = some t') (hruns : t'.status = none)
    (hev : Evolves (e.actor = some k) t t') : Killable (s.next (.command e)) k t' := by
  have hmapped := mapped_after hok hC hdue hkill.mapped (hkill.not_killAll hdue ht' hruns)
  by_cases he : e = .deadline k
  · -- the task lets go of the lock, if it has it
    subst he
    have heffect := CommandEffect.of_step (show CommandStep s.agent (.deadline k)
      (s.agent.next (.deadline k)) from ⟨hok.1, rfl⟩)
    have hnext : (s.next (.command (.deadline k))).agent = s.agent.next (.deadline k) := rfl
    generalize s.agent.next (.deadline k) = a' at ht' heffect hnext
    cases heffect with
    | deadline hu =>
      obtain ⟨-, rfl⟩ | ⟨hne, -⟩ := AgentState.task_update ht'
      · obtain rfl := hdue.task_eq hu
        refine ⟨hmapped, .inr ⟨rfl, ?_⟩⟩
        rw [hnext]
        show (if s.agent.lock = some k then none else s.agent.lock) = none
        rcases hC _ hdue with hfree | hown
        · rw [hfree]
          rfl
        · rw [if_pos hown]
      · exact absurd rfl hne
  · exact hkill.kept hok hdue.task hev.id hev.timed
      (phase_after hok hC hdue hkill ht' hruns he) hmapped (lock_after hok hC hdue)

/-- A child that is due, and runs after a step of a command, is due after it. -/
theorem due_after {e : CommandEvent} (hdue : Due s k t)
    (ht' : (s.agent.next e).tasks k = some t') (hruns : t'.status = none) :
    Due (s.next (.command e)) k t' := by
  rcases timer_command (s := s) e k with hsame | ⟨-, harm⟩
  · refine ⟨ht', hruns, ?_, ?_⟩
    · rw [hsame]
      exact hdue.timed
    · rw [hsame, now_command]
      exact hdue.passed
  · refine ⟨ht', hruns, ?_, ?_⟩
    · rw [harm]
      exact hdue.timed
    · rw [harm, now_command]
      exact hdue.passed

/-- **Where the kill stays enabled, the condition held.** -/
theorem prompt_of_killable {e : CommandEvent} (hok : s.permits capacity (.command e))
    (hin : ∀ k t, Due s k t → Killable s k t)
    (hafter : ∀ k t, Due (s.next (.command e)) k t → Killable (s.next (.command e)) k t) :
    Prompt s (.command e) := by
  have heffect := CommandEffect.of_step (show CommandStep s.agent e (s.agent.next e) from
    ⟨hok.1, rfl⟩)
  have hkill : ∀ k t t', Due s k t → (s.agent.next e).tasks k = some t' → t'.status = none →
      Killable (s.next (.command e)) k t' := fun k t t' hdue ht' hruns =>
    hafter k t' (due_after hdue ht' hruns)
  have hlock : (s.next (.command e)).agent.lock = (s.agent.next e).lock := rfl
  -- the map has a child that the step leaves as it is
  have hmapped : ∀ k t, Due s k t → (s.agent.next e).tasks k = s.agent.tasks k →
      (s.agent.next e).commands t.id = some k := fun k t hdue hsame =>
    (hkill k t t hdue (hsame.trans hdue.task) hdue.runs).mapped
  generalize hnext : s.agent.next e = a' at hkill hlock hmapped heffect
  cases heffect with
  | @track j u hu hphase =>
    intro u' hu' k t hdue hid
    obtain rfl : u = u' := Option.some.inj (hu.symm.trans hu')
    have hne : k ≠ j := (hin k t hdue).ne_of_phase hdue hu (by rw [hphase]; rfl)
      (by rw [hphase]; exact CommandPhase.noConfusion)
    -- the map has the new child under the id
    have hkept := hmapped k t hdue (AgentState.put_of_ne hne _)
    rw [hid] at hkept
    dsimp only at hkept
    rw [Function.update_self] at hkept
    exact hne (Option.some.inj hkept).symm
  | @lookup j child u hu hphase hfree hchild =>
    intro u' hu' _ k t hdue htiming
    have hne : k ≠ j := by
      intro heq
      subst heq
      obtain rfl := hdue.task_eq hu
      rw [hphase] at htiming
      cases htiming
    have hstep := (hkill k t t hdue ((AgentState.put_of_ne hne _).trans hdue.task)
      hdue.runs).step
    rw [hlock, htiming] at hstep
    rcases hstep with ⟨-, hlimited, -⟩ | ⟨-, hfree⟩
    · cases hlimited
    · cases hfree
  | @lookupFails j u hu hphase hfree hchild =>
    intro u' hu' hsome
    obtain rfl : u = u' := Option.some.inj (hu.symm.trans hu')
    rw [hchild] at hsome
    cases hsome
  | @deadline j u hu htimed hphase =>
    intro t hdue
    obtain rfl := hdue.task_eq hu
    have hstep := (hkill j u _ hdue (AgentState.put_self _ _ _) hdue.runs).step
    rw [hlock] at hstep
    rcases hstep with ⟨-, hlimited, -⟩ | ⟨-, hfree⟩
    · cases hlimited
    · dsimp only at hfree
      split at hfree
      · exact .inr ‹_›
      · exact .inl hfree
  | @reap j child code u hu | @waitFails j child u hu =>
    intro t hdue
    obtain rfl := hdue.task_eq hu
    have hafter := hkill j u _ hdue (AgentState.put_self _ _ _) hdue.runs
    rcases hafter.phase with hlimited | htiming
    · cases hlimited
    · cases htiming
  | @finish j u outcome hu hphase hback hfree =>
    intro u' hu' hremoves k t hdue hid
    obtain rfl : u = u' := Option.some.inj (hu.symm.trans hu')
    have hne : k ≠ j := (hin k t hdue).ne_of_phase hdue hu (by rw [hphase]; rfl)
      (by rw [hphase]; exact CommandPhase.noConfusion)
    -- the map has nothing under the id
    have hkept := hmapped k t hdue (AgentState.put_of_ne hne _)
    rw [hid] at hkept
    dsimp only at hkept
    rw [Function.update_self] at hkept
    cases hkept
  | @finishBackground j u outcome hu hphase hback =>
    intro u' hu' hremoves
    obtain rfl : u = u' := Option.some.inj (hu.symm.trans hu')
    rw [CommandTask.removes, hback] at hremoves
    cases hremoves
  | @finishFailed j u hu hphase hback =>
    intro u' hu' hremoves
    obtain rfl : u = u' := Option.some.inj (hu.symm.trans hu')
    rw [CommandTask.removes, hphase, hback] at hremoves
    cases hremoves
  | start | register | print | eof | kill | killFails | exits | closes | killAll => trivial

/-- A second passes. -/
theorem inTime_tick (hinv : PipedInv s) (hin : ∀ k t, Due s k t → Killable s k t) :
    (∀ k t, Due (s.next .tick) k t → Killable (s.next .tick) k t) ↔ Prompt s .tick := by
  constructor
  · intro hafter k t ht hruns htimed hlast
    have hkill := hafter k t ⟨ht, hruns, htimed, Nat.le_of_eq hlast⟩
    obtain ⟨-, hspawned, harmed, hfired⟩ := hinv k t ht
    rcases hkill.step with ⟨-, hlimited, a, ha, hle⟩ | ⟨htiming, -⟩
    · refine ⟨?_, hlimited, hkill.mapped⟩
      have hge := harmed a ha
      have hle : a + (s.timer k).secs ≤ s.now + 1 := hle
      have ha : (s.timer k).armedAt = some a := ha
      rw [ha]
      congr 1
      omega
    · -- the timer cannot have gone off before
      obtain ⟨a, ha, hle⟩ := hfired htiming
      have hge := harmed a ha
      omega
  · intro hC k t hdue
    obtain ⟨ht, hruns, htimed, hpassed⟩ := hdue
    have htimed : 0 < (s.timer k).secs := htimed
    have hpassed : (s.timer k).spawnedAt + (s.timer k).secs ≤ s.now + 1 := hpassed
    by_cases hbefore : (s.timer k).spawnedAt + (s.timer k).secs ≤ s.now
    · obtain ⟨hmapped, hstep⟩ := hin k t ⟨ht, hruns, htimed, hbefore⟩
      refine ⟨hmapped, ?_⟩
      rcases hstep with ⟨hlimit, hlimited, a, ha, hle⟩ | hkill
      · exact .inl ⟨hlimit, hlimited, a, ha, Nat.le_succ_of_le hle⟩
      · exact .inr hkill
    · have hlast : (s.timer k).spawnedAt + (s.timer k).secs = s.now + 1 := by omega
      obtain ⟨harmed, hlimited, hmapped⟩ := hC k t ht hruns htimed hlast
      refine ⟨hmapped, .inl ⟨?_, hlimited, _, harmed, Nat.le_of_eq hlast⟩⟩
      rw [(hinv k t ht).timed]
      exact decide_eq_true htimed

theorem inTime_bytes {e : PipedEvent} (he : e.movesBytes = true)
    (hin : ∀ k t, Due s k t → Killable s k t) (k : Nat) (t : CommandTask)
    (hdue : Due (s.next e) k t) : Killable (s.next e) k t := by
  have hsame := sameClock_bytes (s := s) he
  exact hsame.killable (hin k t (hsame.due.mp hdue))

/-- A shell that was just spawned has time left. -/
theorem inTime_start {j id : Nat} {params : RunCommandParams}
    (hin : ∀ k t, Due s k t → Killable s k t) (k : Nat) (t : CommandTask)
    (hdue : Due (s.next (.start j id params)) k t) :
    Killable (s.next (.start j id params)) k t := by
  obtain ⟨ht, hruns, htimed, hpassed⟩ := hdue
  rcases AgentState.task_update ht with ⟨rfl, -⟩ | ⟨hne, ht⟩
  · have htimer : (s.next (.start k id params)).timer k =
        ⟨params.timeoutSecs.getD 0, s.now, none⟩ := by
      show (Function.update s.stdio k _ k).timer = _
      rw [Function.update_self]
      rfl
    rw [htimer] at htimed hpassed
    have htimed : 0 < params.timeoutSecs.getD 0 := htimed
    have hpassed : s.now + params.timeoutSecs.getD 0 ≤ s.now := hpassed
    omega
  · have htimer : (s.next (.start j id params)).timer k = s.timer k := by
      show (Function.update s.stdio j _ k).timer = _
      rw [Function.update_of_ne hne]
    rw [htimer] at htimed hpassed
    obtain ⟨hmapped, hstep⟩ := hin k t ⟨ht, hruns, htimed, hpassed⟩
    refine ⟨hmapped, ?_⟩
    rw [htimer]
    exact hstep

/-- **One step**: timeouts are kept after it exactly under the condition. -/
theorem inTime_step {e : PipedEvent} (hinv : PipedInv s) (hin : InTime capacity s)
    (hstep : PipedStep capacity s e s') : InTime capacity s' ↔ Prompt s e := by
  obtain ⟨hok, rfl⟩ := hstep
  rw [inTime_iff] at hin ⊢
  cases e with
  | command e =>
    constructor
    · exact prompt_of_killable hok hin
    · intro hC k t' hdue'
      obtain ⟨t, hdue, hev⟩ := due_before hok hdue'
      exact killable_command hok hC hdue (hin k t hdue) hdue'.task hdue'.runs hev
  | tick => exact inTime_tick hinv hin
  | start j id params =>
    exact iff_of_true (inTime_start hin) trivial
  | feed | feedFails | closeInput | drain | ends | takes | shuts | writes | hangsUp =>
    refine iff_of_true (inTime_bytes ?_ hin) trivial
    rfl

theorem inTime_new (h : NoPipedCommands s) : InTime capacity s := by
  have hnone : s.agent = .new := h
  intro k t hdue
  have ht := hdue.task
  rw [hnone] at ht
  cases ht

/-- **When a timeout is kept.** In every state of a run a child that has outlived its timeout can
    be killed, and its task does not wait on a pipe outside the timer, exactly when every step of
    the run meets the condition. -/
theorem killed_in_time_iff {hist : List (PipedAgent × PipedEvent)} (h : PipedRun capacity hist s) :
    (∀ u ∈ visited hist s, InTime capacity u) ↔ ∀ x ∈ hist, Prompt x.1 x.2 :=
  h.all_states_iff (C := Prompt) (P := InTime capacity) (fun _ => inv_new)
    (fun _ _ _ hI hs => inv_step hI hs) (fun _ => inTime_new)
    fun _ _ _ hI hP hs => inTime_step hI hP hs

end Steps

/-! ## 6. Two inputs -/

/-- `cat`, with an input and a second to live. -/
def catWith (input : String) : RunCommandParams := ⟨"cat", none, none, some 1, some input, none⟩

/-- An agent without commands, at second 0. -/
def PipedAgent.new : PipedAgent := ⟨.new, fun _ => .spawn (catWith "") 0, 0⟩

/-- The input fits, and the timer is armed in time; newest step first. -/
def fedInTime : List PipedEvent :=
  [.tick, .command (.track 0), .closeInput 0, .feed 0 1, .start 0 1 (catWith "a")]

theorem killed_in_time_fed : InTime 65536 (replay PipedAgent.next .new fedInTime).2 := by
  have hok : Permitted (PipedAgent.permits 65536) PipedAgent.next .new fedInTime := by decide
  have hrun := Run.of_replay (show NoPipedCommands .new from rfl) hok
  refine (killed_in_time_iff hrun).mpr ?_ _ List.mem_cons_self
  intro x hx
  simp only [fedInTime, replay, List.mem_cons, List.not_mem_nil, or_false] at hx
  rcases hx with rfl | rfl | rfl | rfl | rfl
  · intro k t ht hruns htimed hlast
    rcases AgentState.task_update ht with ⟨rfl, rfl⟩ | ⟨hk, ht⟩
    · exact ⟨by decide, by decide, by decide⟩
    · rcases AgentState.task_update ht with ⟨rfl, -⟩ | ⟨-, ht⟩
      · exact absurd rfl hk
      · cases ht
  · -- nothing is due in the second of the spawn
    intro u hu k t hdue
    rcases AgentState.task_update hdue.task with ⟨rfl, -⟩ | ⟨-, ht⟩
    · exact absurd hdue.passed (by decide)
    · cases ht
  all_goals trivial

theorem length_utf8Bytes_replicate (n : Nat) :
    (utf8Bytes (String.ofList (List.replicate n 'a'))).length = n := by
  have hone : (String.utf8EncodeChar 'a').length = 1 := by decide
  unfold utf8Bytes
  rw [String.toList_ofList, List.length_flatMap, List.map_replicate, hone]
  simp

/-- An input of one byte more than the pipe takes, and a child that does not read it. -/
theorem overfed_waits {capacity : Nat} (h : 0 < capacity) :
    ∃ hist s t, PipedRun capacity hist s ∧ Due s 0 t ∧ WaitsOnPipe capacity s 0 ∧
      t.phase = .spawned := by
  have hlength := length_utf8Bytes_replicate (capacity + 1)
  generalize String.ofList (List.replicate (capacity + 1) 'a') = input at hlength
  -- the shell is spawned, and the pipe is filled
  generalize hs₁ : PipedAgent.new.next (.start 0 1 (catWith input)) = s₁
  have hio₁ : s₁.stdio 0 = .spawn (catWith input) 0 := by
    rw [← hs₁]
    exact stdio_put .new 0 _
  have htask : s₁.agent.tasks 0 = some (.spawn 1 (catWith input)) := by
    rw [← hs₁]
    exact AgentState.put_self _ _ _
  have hleft : (s₁.stdio 0).left = utf8Bytes input := by
    rw [hio₁]
    rfl
  have hio₂ : (s₁.next (.feed 0 capacity)).stdio 0 =
      { s₁.stdio 0 with
        left := (s₁.stdio 0).left.drop capacity
        stdin := (s₁.stdio 0).stdin.write ((s₁.stdio 0).left.take capacity) } :=
    stdio_put s₁ 0 _
  have hcat : blank "cat" = false := by decide
  have hstart : PipedStep capacity .new (.start 0 1 (catWith input)) s₁ :=
    ⟨⟨rfl, hcat⟩, hs₁.symm⟩
  have hfeed : PipedStep capacity s₁ (.feed 0 capacity) (s₁.next (.feed 0 capacity)) := by
    refine ⟨⟨⟨_, htask, rfl⟩, h, ?_, ?_⟩, rfl⟩
    · rw [hleft, hlength]
      exact Nat.le_succ capacity
    · rw [hio₁]
      exact ⟨rfl, Nat.le_of_eq (Nat.zero_add capacity)⟩
  have htick : PipedStep capacity (s₁.next (.feed 0 capacity)) .tick
      ((s₁.next (.feed 0 capacity)).next .tick) := ⟨trivial, rfl⟩
  have hrun : PipedRun capacity _ _ :=
    (((Run.start (show NoPipedCommands .new from rfl)).step hstart).step hfeed).step htick
  refine ⟨_, _, _, hrun, ⟨htask, rfl, ?_, ?_⟩, ⟨⟨_, htask, rfl⟩, ?_, ?_⟩, rfl⟩
  · show 0 < ((s₁.next (.feed 0 capacity)).stdio 0).timer.secs
    rw [hio₂, hio₁]
    exact Nat.zero_lt_one
  · show ((s₁.next (.feed 0 capacity)).stdio 0).timer.spawnedAt +
      ((s₁.next (.feed 0 capacity)).stdio 0).timer.secs ≤ s₁.now + 1
    rw [hio₂, hio₁, ← hs₁]
    exact Nat.le_refl 1
  · show ((s₁.next (.feed 0 capacity)).stdio 0).left ≠ []
    rw [hio₂, hleft]
    intro hnil
    have hdrop := congrArg List.length hnil
    rw [List.length_drop, hlength, List.length_nil] at hdrop
    omega
  · show ((s₁.next (.feed 0 capacity)).stdio 0).stdin.Full capacity
    rw [hio₂, hleft, hio₁]
    refine ⟨rfl, ?_⟩
    show capacity ≤ ((utf8Bytes input).take capacity).length
    rw [List.length_take, hlength]
    omega

/-- **A full pipe outlives the timeout.** The child does not read; the agent writes, and waits for
    it, with the timer not armed: a second later the child runs, and no step that kills it is
    enabled. -/
theorem full_pipe_outlives_timeout : ∃ hist s t, PipedRun 65536 hist s ∧ ¬ InTime 65536 s ∧
    Due s 0 t ∧ ¬ KillEnabled 65536 s 0 t ∧ WaitsOnPipe 65536 s 0 := by
  obtain ⟨hist, s, t, hrun, hdue, hwaits, hphase⟩ := overfed_waits (show 0 < 65536 by decide)
  have hnot : ¬ KillEnabled 65536 s 0 t := fun henabled =>
    ((killEnabled_iff hdue).mp henabled).not_spawned hphase
  exact ⟨hist, s, t, hrun, fun hin => hnot (hin 0 t hdue).1, hdue, hnot, hwaits⟩

end Relayfs

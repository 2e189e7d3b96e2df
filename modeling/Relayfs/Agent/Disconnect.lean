/-
  File:      Relayfs/Agent/Disconnect.lean
  Subject:   WHAT THE END OF A CONNECTION LEAVES RUNNING (agent/src/conn.rs `run`, commands.rs
             `kill_all`).

  A frame is dispatched in a task of its own, which nobody waits for. The task of a `run_command`
  spawns the shell, feeds it, and then puts it into `commands`; the end of the read loop kills what
  is in `commands` then.

  * `AgentConns`, `ConnEvent`, `ConnStep` -- the commands with the connections that deliver them;
  * `NoSurvivor`, `LateStart` -- no shell of a connection that has ended runs, and none starts;
  * `Finds` -- the condition: at `kill_all` every shell of the connection that runs is the one
    tracked under its id;
  * `noSurvivor_step`, `none_survives_iff` -- one step, and a run;
  * `disconnect_leaves_child` -- a shell that was not tracked yet, and one that was not started yet.
-/
import Relayfs.Agent.CommandLock

namespace Relayfs

open Lib

/-! ## 1. Connections -/

/-- The command a frame asks for: its id and its parameters. -/
def commandOf (value : Json) : Option (Nat × RunCommandParams) :=
  if requestMethod value = Method.runCommand then do
    let id ← (value.get "id").bind Json.asU64
    let params ← RunCommandParams.ofJson (requestParams value)
    return (id, params)
  else none

/-- A frame, with the connection that delivered it. Its dispatch runs as a task of its own. -/
structure Delivered where
  conn : Nat
  value : Json

/-- Where `conn::run` is. -/
inductive ConnPhase where
  /-- It has returned, or was not called yet. -/
  | closed
  | reading
  /-- The read loop has ended, `kill_all` comes next. -/
  | killing
  deriving DecidableEq

/-- **The agent and its connections**, one after the other. `conn` numbers the last of them;
    `returned` are those whose `run` has returned after the end of its read loop. -/
structure AgentConns where
  agent : AgentState
  requests : Nat → Option Delivered
  conn : Nat
  phase : ConnPhase
  returned : Nat → Bool

inductive ConnEvent where
  | connect
  /-- A text frame arrives; its dispatch is spawned as task `k`. -/
  | deliver (k : Nat) (value : Json)
  /-- The task spawns its shell. -/
  | start (k : Nat)
  /-- A later step of a command, or of its child. -/
  | command (e : CommandEvent)
  /-- The read loop ends: by a close frame, an error, or the end of the stream. -/
  | readEnds
  /-- A pong cannot be sent, and `run` returns the error from within its loop. -/
  | pongFails
  | killAll

/-- A step of a command that runs. -/
def CommandEvent.later : CommandEvent → Bool
  | .start .. | .killAll => false
  | _ => true

namespace AgentConns

variable (s : AgentConns)

/-- The command that a task was spawned for. -/
def asked (k : Nat) : Option (Nat × RunCommandParams) :=
  (s.requests k).bind fun r => commandOf r.value

/-- The guard of a step. -/
def permits : ConnEvent → Prop
  | .connect => s.phase = .closed
  | .deliver k _ => s.phase = .reading ∧ (s.requests k).isNone
  | .start k => (s.asked k).any fun c => s.agent.permits (.start k c.1 c.2)
  | .command e => e.later = true ∧ s.agent.permits e
  | .readEnds | .pongFails => s.phase = .reading
  | .killAll => s.phase = .killing ∧ s.agent.permits .killAll

instance permits.decidable : ∀ e, Decidable (s.permits e)
  | .connect | .readEnds | .pongFails => inferInstanceAs (Decidable (_ = _))
  | .deliver .. | .command _ | .killAll => inferInstanceAs (Decidable (_ ∧ _))
  | .start _ => inferInstanceAs (Decidable (_ = true))

/-- The effect of a step. -/
def next : ConnEvent → AgentConns
  | .connect => { s with conn := s.conn + 1, phase := .reading }
  | .deliver k value =>
      { s with requests := Function.update s.requests k (some ⟨s.conn, value⟩) }
  | .start k =>
      match s.asked k with
      | some (id, params) => { s with agent := s.agent.next (.start k id params) }
      | none => s
  | .command e => { s with agent := s.agent.next e }
  | .readEnds => { s with phase := .killing }
  | .pongFails => { s with phase := .closed }
  | .killAll =>
      { s with
        agent := s.agent.next .killAll
        phase := .closed
        returned := Function.update s.returned s.conn true }

/-- `AgentState::new`, before the first connection. -/
def new : AgentConns := ⟨.new, fun _ => none, 0, .closed, fun _ => false⟩

end AgentConns

abbrev ConnStep : AgentConns → ConnEvent → AgentConns → Prop :=
  Moves AgentConns.permits AgentConns.next

def NoConnections (s : AgentConns) : Prop := s = .new

abbrev ConnRun (hist : List (AgentConns × ConnEvent)) (s : AgentConns) : Prop :=
  Run NoConnections ConnStep hist s

/-! ## 2. What is to hold -/

/-- The child of a task runs. -/
abbrev AgentState.Running (s : AgentState) (k : Nat) : Prop := s.Has k (·.status = none)

/-- **No shell of a request runs** whose connection has come to its end. -/
def NoSurvivor (s : AgentConns) : Prop :=
  ∀ k r, s.requests k = some r → s.returned r.conn = true → ¬ s.agent.Running k

/-- The step starts a shell for a request whose connection has come to its end. -/
def LateStart (s : AgentConns) (e : ConnEvent) : Prop :=
  ∃ k r, e = .start k ∧ s.requests k = some r ∧ s.returned r.conn = true

/-- **The condition.** `kill_all` finds every shell of its connection that runs: the one in
    `commands` under the id of the request is that of the request. And no shell starts late. -/
def Finds (s : AgentConns) (e : ConnEvent) : Prop :=
  ¬ LateStart s e ∧
    (e = .killAll → ∀ k r t, s.requests k = some r → r.conn = s.conn → s.agent.tasks k = some t →
      t.status = none → s.agent.commands t.id = some k)

/-- Other steps meet it. -/
theorem Finds.of_ne {s : AgentConns} {e : ConnEvent} (hstart : ∀ k, e ≠ .start k)
    (hkill : e ≠ .killAll) : Finds s e := by
  constructor
  · intro hlate
    obtain ⟨k, -, heq, -⟩ := hlate
    exact hstart k heq
  · intro heq
    exact absurd heq hkill

/-! ## 3. Steps and runs -/

/-- Only connections that were opened have come to their end, and the open one has not. -/
structure ConnInv (s : AgentConns) : Prop where
  past : ∀ c, s.returned c = true → c ≤ s.conn
  live : s.phase ≠ .closed → s.returned s.conn = false

section Steps

variable {s s' : AgentConns} {e : ConnEvent}

theorem connInv_new (h : NoConnections s) : ConnInv s := by
  subst h
  exact ⟨nofun, fun _ => rfl⟩

theorem connInv_step (h : ConnInv s) (hstep : ConnStep s e s') : ConnInv s' := by
  obtain ⟨hok, rfl⟩ := hstep
  cases e with
  | connect =>
    refine ⟨fun c hc => Nat.le_succ_of_le (h.past c hc), fun _ => ?_⟩
    -- the number of the new connection is larger than all before
    show s.returned (s.conn + 1) = false
    by_contra hne
    have hle := h.past _ (Bool.not_eq_false _ ▸ hne)
    omega
  | deliver k value => exact ⟨h.past, h.live⟩
  | start k =>
    rw [AgentConns.next]
    split
    · exact ⟨h.past, h.live⟩
    · exact h
  | command e => exact ⟨h.past, h.live⟩
  | readEnds => exact ⟨h.past, fun _ => h.live (by rw [hok]; nofun)⟩
  | pongFails => exact ⟨h.past, fun hne => absurd rfl hne⟩
  | killAll =>
    refine ⟨fun c hc => ?_, fun hne => absurd rfl hne⟩
    by_cases hcur : c = s.conn
    · exact Nat.le_of_eq hcur
    · have hc : Function.update s.returned s.conn true c = true := hc
      rw [Function.update_of_ne hcur] at hc
      exact h.past c hc

/-- A step of a command starts no child. -/
theorem running_of_later {a a' : AgentState} {e : CommandEvent} (he : e.later = true)
    (hstep : CommandStep a e a') {k : Nat} (h : a'.Running k) : a.Running k := by
  obtain ⟨t', ht', hruns⟩ := h
  have hnew : ∀ id params, e ≠ .start k id params := fun id params heq => by
    rw [heq] at he
    cases he
  obtain ⟨t, ht, hev⟩ := task_before hstep hnew ht'
  exact ⟨t, ht, hev.runs hruns⟩

/-- What `kill_all` leaves running: the children that are not in the map under their id. -/
theorem running_killAll {a : AgentState} {k : Nat} :
    (a.next .killAll).Running k ↔
      ∃ t, a.tasks k = some t ∧ t.status = none ∧ a.commands t.id ≠ some k := by
  constructor
  · intro h
    obtain ⟨t', ht', hruns⟩ := h
    obtain ⟨t, ht, rfl⟩ := Option.map_eq_some_iff.mp ht'
    refine ⟨t, ht, ?_⟩
    split at hruns
    · cases hruns
    · exact ⟨hruns, ‹_›⟩
  · intro h
    obtain ⟨t, ht, hruns, hlost⟩ := h
    refine ⟨_, congrArg (Option.map _) ht, ?_⟩
    dsimp only
    rw [if_neg hlost]
    exact hruns

/-- What a start does. -/
theorem start_of_step {k : Nat} (hstep : ConnStep s (.start k) s') :
    ∃ id params, s.agent.tasks k = none ∧
      s' = { s with agent := s.agent.put k (.spawn id params) } := by
  obtain ⟨hok, rfl⟩ := hstep
  have hok : (s.asked k).any (fun c => s.agent.permits (.start k c.1 c.2)) = true := hok
  rw [AgentConns.next]
  cases hasked : s.asked k with
  | none =>
    rw [hasked] at hok
    cases hok
  | some c =>
    rw [hasked, Option.any_some, decide_eq_true_eq] at hok
    exact ⟨c.1, c.2, hok.1, rfl⟩

/-- **One step**: nothing survives after it exactly under the condition. -/
theorem noSurvivor_step (hi : ConnInv s) (h : NoSurvivor s) (hstep : ConnStep s e s') :
    NoSurvivor s' ↔ Finds s e := by
  cases e with
  | connect =>
    obtain ⟨-, rfl⟩ := hstep
    exact iff_of_true h (.of_ne nofun nofun)
  | deliver k value =>
    obtain ⟨hok, rfl⟩ := hstep
    refine iff_of_true (fun j r hr hreturned => ?_) (.of_ne nofun nofun)
    have hr : Function.update s.requests k (some ⟨s.conn, value⟩) j = some r := hr
    by_cases hj : j = k
    · -- the connection of the new request is open
      subst hj
      rw [Function.update_self] at hr
      obtain rfl := Option.some.inj hr
      have hlive : s.returned s.conn = false := hi.live (by rw [hok.1]; nofun)
      have hreturned : s.returned s.conn = true := hreturned
      rw [hlive] at hreturned
      cases hreturned
    · rw [Function.update_of_ne hj] at hr
      exact h j r hr hreturned
  | start k =>
    obtain ⟨id, params, hnew, rfl⟩ := start_of_step hstep
    constructor
    · intro hafter
      refine ⟨fun hlate => ?_, nofun⟩
      obtain ⟨j, r, heq, hr, hreturned⟩ := hlate
      cases heq
      exact hafter k r hr hreturned ⟨_, AgentState.put_self _ _ _, rfl⟩
    · intro hC j r hr hreturned hruns
      by_cases hj : j = k
      · subst hj
        exact hC.1 ⟨j, r, rfl, hr, hreturned⟩
      · obtain ⟨u, hu, hruns⟩ := hruns
        exact h j r hr hreturned ⟨u, (AgentState.put_of_ne hj _).symm.trans hu, hruns⟩
  | command e =>
    obtain ⟨hok, rfl⟩ := hstep
    refine iff_of_true (fun j r hr hreturned hruns => ?_) (.of_ne nofun nofun)
    exact h j r hr hreturned (running_of_later hok.1 ⟨hok.2, rfl⟩ hruns)
  | readEnds =>
    obtain ⟨-, rfl⟩ := hstep
    exact iff_of_true h (.of_ne nofun nofun)
  | pongFails =>
    obtain ⟨-, rfl⟩ := hstep
    exact iff_of_true h (.of_ne nofun nofun)
  | killAll =>
    obtain ⟨-, rfl⟩ := hstep
    have hnow : Function.update s.returned s.conn true s.conn = true := Function.update_self ..
    constructor
    · intro hafter
      refine ⟨nofun, fun _ k r t hr hconn ht hruns => ?_⟩
      by_contra hlost
      refine hafter k r hr ?_ (running_killAll.mpr ⟨t, ht, hruns, hlost⟩)
      rw [hconn]
      exact hnow
    · intro hC k r hr hreturned hafter
      obtain ⟨t, ht, hruns, hlost⟩ := running_killAll.mp hafter
      by_cases hconn : r.conn = s.conn
      · exact hlost (hC.2 rfl k r t hr hconn ht hruns)
      · -- an earlier connection: nothing of it ran before
        have hreturned : Function.update s.returned s.conn true r.conn = true := hreturned
        rw [Function.update_of_ne hconn] at hreturned
        exact h k r hr hreturned ⟨t, ht, hruns⟩

theorem noSurvivor_new (h : NoConnections s) : NoSurvivor s := by
  subst h
  intro k r hr
  cases hr

/-- **What a disconnect leaves.** In a run, no shell of a connection that has come to its end runs,
    and none is started, exactly when every `kill_all` finds all that run and no shell starts
    late. -/
theorem none_survives_iff {hist : List (AgentConns × ConnEvent)} (h : ConnRun hist s) :
    ((∀ t ∈ visited hist s, NoSurvivor t) ∧ ∀ x ∈ hist, ¬ LateStart x.1 x.2) ↔
      ∀ x ∈ hist, Finds x.1 x.2 := by
  rw [h.all_states_iff (C := Finds) (P := NoSurvivor) (fun _ => connInv_new)
    (fun _ _ _ hI hs => connInv_step hI hs) (fun _ => noSurvivor_new)
    fun _ _ _ hI hP hs => noSurvivor_step hI hP hs]
  exact and_iff_left_of_imp fun hC x hx => (hC x hx).1

end Steps

/-! ## 4. Two disconnects -/

/-- A request to run a command. -/
def runRequest : Json :=
  .obj [("jsonrpc", .str "2.0"), ("id", .nat 1), ("method", .str "run_command"),
    ("params", .obj [("command", .str "sleep 60")])]

/-- The connection ends after the shell was tracked, newest step first. -/
def trackedThenClosed : List ConnEvent :=
  [.killAll, .readEnds, .command (.track 0), .start 0, .deliver 0 runRequest, .connect]

theorem none_survives_tracked :
    NoSurvivor (replay AgentConns.next .new trackedThenClosed).2 := by
  have hok : Permitted AgentConns.permits AgentConns.next .new trackedThenClosed := by decide
  have hrun := Run.of_replay (show NoConnections .new from rfl) hok
  refine ((none_survives_iff hrun).mpr ?_).1 _ List.mem_cons_self
  intro x hx
  simp only [trackedThenClosed, replay, List.mem_cons, List.not_mem_nil, or_false] at hx
  rcases hx with rfl | rfl | rfl | rfl | rfl | rfl
  · refine ⟨fun hlate => ?_, fun _ k r t _ _ ht _ => ?_⟩
    · obtain ⟨k, -, heq, -⟩ := hlate
      cases heq
    have ht : Function.update (Function.update (fun _ => none) 0 (some _)) 0
        (some ⟨1, false, false, .streaming, "", false, none⟩) k = some t := ht
    by_cases hk : k = 0
    · subst hk
      rw [Function.update_self] at ht
      obtain rfl := Option.some.inj ht
      decide
    · rw [Function.update_of_ne hk, Function.update_of_ne hk] at ht
      cases ht
  · exact .of_ne (fun k heq => by cases heq) fun heq => by cases heq
  · exact .of_ne (fun k heq => by cases heq) fun heq => by cases heq
  · -- the connection of the request is open when its shell starts
    refine ⟨fun hlate => ?_, fun heq => by cases heq⟩
    obtain ⟨k, r, -, -, hreturned⟩ := hlate
    cases hreturned
  · exact .of_ne (fun k heq => by cases heq) fun heq => by cases heq
  · exact .of_ne (fun k heq => by cases heq) fun heq => by cases heq

/-- **A disconnect leaves a shell running** that was spawned and not tracked yet; and a shell that
    was not started yet is started after it. -/
theorem disconnect_leaves_child :
    (∃ hist s, ConnRun hist s ∧ ¬ NoSurvivor s ∧ s.phase = .closed) ∧
    ∃ hist s e, ConnRun hist s ∧ s.permits e ∧ LateStart s e := by
  have hok : Permitted AgentConns.permits AgentConns.next .new
      [.killAll, .readEnds, .start 0, .deliver 0 runRequest, .connect] := by decide
  have hok' : Permitted AgentConns.permits AgentConns.next .new
      [.killAll, .readEnds, .deliver 0 runRequest, .connect] := by decide
  have hstart : NoConnections .new := rfl
  constructor
  · refine ⟨_, _, Run.of_replay hstart hok, fun h => ?_, rfl⟩
    exact h 0 ⟨1, runRequest⟩ rfl (by decide) (by decide)
  · exact ⟨_, _, .start 0, Run.of_replay hstart hok', by decide, 0, ⟨1, runRequest⟩, rfl, rfl,
      by decide⟩

end Relayfs

/-
  File:      Relayfs/Bridge/Supervisor.lean
  Subject:   THE SUPERVISOR OF THE BRIDGE'S CONNECTION (bridge/src/client.rs, `supervisor`), with
             the keepalive tasks it spawns and the lock on the sink.

  For every connection the supervisor advances `connection_epoch`, installs the sink and spawns a
  task that pings it; when the connection has ended it clears the sink and advances the epoch
  again. A task looks at the epoch twice a turn and then takes the sink that is installed, which
  may be the sink of a LATER connection: the look and the lock are two steps. A connection has the
  epoch it was opened under as its name.

  * `SupState`, `SupStep` -- the supervisor, the tasks, and the others that take the sink;
  * `SupInv` -- the sink, the epoch and the tasks agree with where the supervisor is;
  * `Strays` -- what a task of an earlier connection may still do;
  * `SupRun.epoch_lt` -- the epoch does not wrap, since every connection costs a delay;
  * **`keepalive_keeps_to_its_connection`** -- a task pings no earlier connection, at most once a
    later one, takes at most three steps after its own has ended, and as long as its connection
    is served it ends for a send that failed only;
  * **`reconnect_schedule`** -- the delays of a run.
-/
import Mathlib.Logic.Function.Basic
import Relayfs.Lib.Run
import Relayfs.Wire.Reconnect

namespace Relayfs

open Lib

/-! ## 1. The supervisor and its tasks -/

/-- Where the supervisor is: in `open_connection`; waiting for the lock to install a sink; before
    it spawns; waiting for the read loop; waiting for the lock to clear the sink; before it
    advances the epoch; before it reads the schedule; asleep. -/
inductive SupPhase where
  | dialing
  | installing (conn : Nat)
  | installed (conn : Nat)
  | serving (conn : Nat)
  | lost (conn : Nat)
  | cleared (conn : Nat)
  | retrying
  | sleeping (wakeAt : Nat)
  deriving DecidableEq, Repr

/-- Where a keepalive task is: not spawned; before its first look at the epoch; waiting for the
    tick; waiting for the lock; sending on the sink it has found; at its end. -/
inductive PingPhase where
  | absent
  | top
  | ticking
  | locking
  | sending (conn : Nat)
  | ended
  deriving DecidableEq, Repr

/-- Who holds the lock on the sink: a keepalive task, or a call, the read loop or `connect`. -/
inductive SinkHolder where
  | ping (task : Nat)
  | other
  deriving DecidableEq, Repr

/-- The supervisor, what it shares with its tasks, and the tasks by their connection. -/
structure SupState where
  clock : Nat
  phase : SupPhase
  connectedAt : Nat
  backoff : ReconnectBackoff
  epoch : Nat
  sink : Option Nat
  holder : Option SinkHolder
  task : Nat → PingPhase

/-- The supervisor's bound on a delay. -/
def supervisorMax : Nat := secs 5

/-- A supervisor that begins; the clock counts from there. -/
def SupState.start : SupState where
  clock := 0
  phase := .dialing
  connectedAt := 0
  backoff := .new supervisorMax
  epoch := 0
  sink := none
  holder := none
  task := fun _ => .absent

/-- The connection whose sink the supervisor has installed. -/
def SupPhase.live : SupPhase → Option Nat
  | installed conn | serving conn | lost conn => some conn
  | _ => none

/-- The connection whose task has been spawned, while the epoch is still its own. -/
def SupPhase.kept : SupPhase → Option Nat
  | serving conn | lost conn | cleared conn => some conn
  | _ => none

/-- The connection the epoch is of. -/
def SupPhase.conn : SupPhase → Option Nat
  | installing conn | installed conn | serving conn | lost conn | cleared conn => some conn
  | _ => none

def SupState.setTask (s : SupState) (n : Nat) (p : PingPhase) : SupState :=
  { s with task := Function.update s.task n p }

/-- What the task of connection `n` finds when it compares the epochs, which are `u64`s. -/
def SupState.current (s : SupState) (n : Nat) : Prop := s.epoch % 2 ^ 64 = n % 2 ^ 64

instance (s : SupState) (n : Nat) : Decidable (s.current n) :=
  inferInstanceAs (Decidable (_ = _))

/-- The schedule after the attempt that has just ended. -/
def SupState.retried (s : SupState) : Nat × ReconnectBackoff :=
  s.backoff.retryDelay (s.clock - s.connectedAt)

inductive SupEvent where
  | dialed | dialFailed | install | spawn | readEnded | clear | advance | retry | wake
  | check (task : Nat)
  | tick (task : Nat)
  | lock (task : Nat)
  | sent (task conn : Nat) (ok : Bool)
  | take | release
  | pass (d : Nat)
  deriving DecidableEq, Repr

/-- The task that takes a step. -/
def SupEvent.task : SupEvent → Option Nat
  | check n | tick n | lock n | sent n _ _ => some n
  | _ => none

/-- **One step.** The supervisor's assignments to the sink wait for the lock. A tick may come at
    any time, and a send may fail or not. -/
inductive SupStep : SupState → SupEvent → SupState → Prop where
  | dialed {s : SupState} (hp : s.phase = .dialing) :
      SupStep s .dialed { s with epoch := s.epoch + 1, phase := .installing (s.epoch + 1) }
  | dialFailed {s : SupState} (hp : s.phase = .dialing) :
      SupStep s .dialFailed { s with phase := .retrying }
  | install {s : SupState} {n : Nat} (hp : s.phase = .installing n) (hl : s.holder = none) :
      SupStep s .install { s with sink := some n, phase := .installed n }
  | spawn {s : SupState} {n : Nat} (hp : s.phase = .installed n) :
      SupStep s .spawn { s.setTask n .top with phase := .serving n }
  | readEnded {s : SupState} {n : Nat} (hp : s.phase = .serving n) :
      SupStep s .readEnded { s with phase := .lost n }
  | clear {s : SupState} {n : Nat} (hp : s.phase = .lost n) (hl : s.holder = none) :
      SupStep s .clear { s with sink := none, phase := .cleared n }
  | advance {s : SupState} {n : Nat} (hp : s.phase = .cleared n) :
      SupStep s .advance { s with epoch := s.epoch + 1, phase := .retrying }
  | retry {s : SupState} (hp : s.phase = .retrying) :
      SupStep s .retry
        { s with backoff := s.retried.2, phase := .sleeping (s.clock + s.retried.1) }
  | wake {s : SupState} {t : Nat} (hp : s.phase = .sleeping t) (ht : t ≤ s.clock) :
      SupStep s .wake { s with phase := .dialing, connectedAt := s.clock }
  | check {s : SupState} {n : Nat} (hp : s.task n = .top) :
      SupStep s (.check n) (s.setTask n (if s.current n then .ticking else .ended))
  | tick {s : SupState} {n : Nat} (hp : s.task n = .ticking) :
      SupStep s (.tick n) (s.setTask n (if s.current n then .locking else .ended))
  | lockSome {s : SupState} {n conn : Nat} (hp : s.task n = .locking) (hl : s.holder = none)
      (hs : s.sink = some conn) :
      SupStep s (.lock n) { s.setTask n (.sending conn) with holder := some (.ping n) }
  | lockNone {s : SupState} {n : Nat} (hp : s.task n = .locking) (hl : s.holder = none)
      (hs : s.sink = none) : SupStep s (.lock n) (s.setTask n .ended)
  | sent {s : SupState} {n conn : Nat} (hp : s.task n = .sending conn) (ok : Bool) :
      SupStep s (.sent n conn ok)
        { s.setTask n (if ok then .top else .ended) with holder := none }
  | take {s : SupState} (hl : s.holder = none) : SupStep s .take { s with holder := some .other }
  | release {s : SupState} (hl : s.holder = some .other) :
      SupStep s .release { s with holder := none }
  | pass {s : SupState} (d : Nat) : SupStep s (.pass d) { s with clock := s.clock + d }

abbrev SupRun (hist : List (SupState × SupEvent)) (s : SupState) : Prop :=
  Run (fun s => s = .start) SupStep hist s

/-- The pings of a run: the task, the connection, and whether the send succeeded. -/
def pings (hist : List (SupState × SupEvent)) : List (Nat × Nat × Bool) :=
  hist.filterMap fun x =>
    match x.2 with
    | .sent n conn ok => some (n, conn, ok)
    | _ => none

/-- The attempts of a run, each as the time from its begin to its end. -/
def attempts (hist : List (SupState × SupEvent)) : List Nat :=
  hist.filterMap fun x => if x.2 = .retry then some (x.1.clock - x.1.connectedAt) else none

/-! ## 2. The invariant -/

/-- **The sink, the epoch and the tasks agree with where the supervisor is.** -/
structure SupInv (s : SupState) : Prop where
  sink : s.sink = s.phase.live
  epoch : ∀ n, s.phase.conn = some n → n = s.epoch
  spawned : ∀ n, s.task n ≠ .absent → n < s.epoch ∨ s.phase.kept = some n
  kept : ∀ n, s.phase.kept = some n → s.task n ≠ .absent
  holds : ∀ n conn, s.task n = .sending conn → s.holder = some (.ping n) ∧ s.sink = some conn

section Fields

variable (s : SupState) (n m : Nat) (p : PingPhase)

@[simp] theorem SupState.setTask_clock : (s.setTask n p).clock = s.clock := rfl
@[simp] theorem SupState.setTask_phase : (s.setTask n p).phase = s.phase := rfl
@[simp] theorem SupState.setTask_backoff : (s.setTask n p).backoff = s.backoff := rfl
@[simp] theorem SupState.setTask_epoch : (s.setTask n p).epoch = s.epoch := rfl
@[simp] theorem SupState.setTask_sink : (s.setTask n p).sink = s.sink := rfl
@[simp] theorem SupState.setTask_holder : (s.setTask n p).holder = s.holder := rfl
@[simp] theorem SupState.setTask_task :
    (s.setTask n p).task m = if m = n then p else s.task m := by
  simp [SupState.setTask, Function.update_apply]

end Fields

theorem SupState.setTask_of_ne (s : SupState) {n m : Nat} (h : m ≠ n) (p : PingPhase) :
    (s.setTask n p).task m = s.task m := Function.update_of_ne h _ _

theorem SupState.setTask_self (s : SupState) (n : Nat) (p : PingPhase) :
    (s.setTask n p).task n = p := Function.update_self _ _ _

variable {s s' : SupState} {n : Nat} {hist : List (SupState × SupEvent)}

theorem supInv_start : SupInv .start where
  sink := rfl
  epoch _ h := nomatch h
  spawned _ h := absurd rfl h
  kept _ h := nomatch h
  holds _ _ h := nomatch h

/-- A phase whose task is kept is of the connection the epoch is of. -/
theorem SupPhase.conn_of_kept {p : SupPhase} (h : p.kept = some n) : p.conn = some n := by
  cases p with
  | serving _ | lost _ | cleared _ => exact h
  | _ => cases h

theorem SupPhase.conn_of_live {p : SupPhase} (h : p.live = some n) : p.conn = some n := by
  cases p with
  | installed _ | serving _ | lost _ => exact h
  | _ => cases h

/-- A task has been spawned under an epoch that has been reached. -/
theorem SupInv.spawned_le (h : SupInv s) (hn : s.task n ≠ .absent) : n ≤ s.epoch := by
  obtain hlt | hkept := h.spawned n hn
  · exact hlt.le
  · exact (h.epoch n (SupPhase.conn_of_kept hkept)).le

/-- The supervisor moves on, with the epoch and the tasks as they are. -/
theorem SupInv.move (h : SupInv s) {p : SupPhase} {sink : Option Nat} (hsink : sink = p.live)
    (hconn : ∀ n, p.conn = some n → s.phase.conn = some n)
    (hkept : s.phase.kept = p.kept ∨ s.phase.kept = none ∧ p.kept = none)
    (hfree : s.sink = sink ∨ s.holder = none) :
    SupInv { s with phase := p, sink := sink } where
  sink := hsink
  epoch n hn := h.epoch n (hconn n hn)
  spawned n hn := by
    obtain hlt | hk := h.spawned n hn
    · exact .inl hlt
    · obtain he | ⟨hnone, _⟩ := hkept
      · exact .inr (he ▸ hk)
      · rw [hnone] at hk
        cases hk
  kept n hn := by
    obtain he | ⟨_, hnone⟩ := hkept
    · exact h.kept n (he.trans hn)
    · have : p.kept = some n := hn
      rw [hnone] at this
      cases this
  holds n conn hn := by
    obtain ⟨hheld, hs⟩ := h.holds n conn hn
    obtain he | hl := hfree
    · exact ⟨hheld, he ▸ hs⟩
    · rw [hl] at hheld
      cases hheld

/-- A task that holds no lock takes a turn and holds none. -/
theorem SupInv.turn (h : SupInv s) (hn : s.task n ≠ .absent) {p : PingPhase} (hp : p ≠ .absent)
    (hns : ∀ conn, p ≠ .sending conn) : SupInv (s.setTask n p) where
  sink := h.sink
  epoch := h.epoch
  spawned m hm := by
    by_cases hmn : m = n
    · exact h.spawned m (hmn ▸ hn)
    · exact h.spawned m (s.setTask_of_ne hmn p ▸ hm)
  kept m hm := by
    by_cases hmn : m = n
    · rwa [hmn, s.setTask_self]
    · rw [s.setTask_of_ne hmn]
      exact h.kept m hm
  holds m conn hm := by
    by_cases hmn : m = n
    · rw [hmn, s.setTask_self] at hm
      exact absurd hm (hns conn)
    · exact h.holds m conn (s.setTask_of_ne hmn p ▸ hm)

/-- The lock changes hands while no task sends. -/
theorem SupInv.relock (h : SupInv s) (hl : ∀ n conn, s.task n ≠ .sending conn)
    (holder : Option SinkHolder) : SupInv { s with holder := holder } where
  sink := h.sink
  epoch := h.epoch
  spawned := h.spawned
  kept := h.kept
  holds n conn hn := absurd hn (hl n conn)

/-- While the lock is not a task's, no task sends. -/
theorem SupInv.not_sending (h : SupInv s) (hl : ∀ n, s.holder ≠ some (.ping n)) (n conn : Nat) :
    s.task n ≠ .sending conn := fun hn => hl n (h.holds n conn hn).1

theorem SupInv.step {e : SupEvent} (h : SupInv s) (hs : SupStep s e s') : SupInv s' := by
  cases hs with
  | dialed hp =>
    have hlive := congrArg SupPhase.live hp
    exact {
      sink := h.sink.trans hlive
      epoch := fun n hn => (Option.some.inj hn).symm
      spawned := fun n hn => .inl (Nat.lt_succ_of_le (h.spawned_le hn))
      kept := nofun
      holds := h.holds }
  | dialFailed hp =>
    have hlive := congrArg SupPhase.live hp
    have hkept := congrArg SupPhase.kept hp
    exact h.move (h.sink.trans hlive) nofun (.inr ⟨hkept, rfl⟩) (.inl rfl)
  | @install n hp hl =>
    have hconn := congrArg SupPhase.conn hp
    have hkept := congrArg SupPhase.kept hp
    exact h.move rfl (fun m hm => hconn.trans hm) (.inr ⟨hkept, rfl⟩) (.inr hl)
  | @spawn n hp =>
    have hlive := congrArg SupPhase.live hp
    have hconn := congrArg SupPhase.conn hp
    have hkept := congrArg SupPhase.kept hp
    exact {
      sink := h.sink.trans hlive
      epoch := fun m hm => h.epoch m (hconn.trans hm)
      spawned := fun m hm => by
        by_cases hmn : m = n
        · exact .inr (congrArg some hmn.symm)
        · refine .inl ((h.spawned m (s.setTask_of_ne hmn .top ▸ hm)).resolve_right ?_)
          rw [hkept]
          exact nofun
      kept := fun m hm => by
        obtain rfl := Option.some.inj hm
        have htop := s.setTask_self n .top
        exact fun habsent => nomatch htop.symm.trans habsent
      holds := fun m conn hm => by
        by_cases hmn : m = n
        · subst hmn
          exact nomatch (s.setTask_self m .top).symm.trans hm
        · exact h.holds m conn ((s.setTask_of_ne hmn .top).symm.trans hm) }
  | @readEnded n hp =>
    have hlive := congrArg SupPhase.live hp
    have hconn := congrArg SupPhase.conn hp
    have hkept := congrArg SupPhase.kept hp
    exact h.move (h.sink.trans hlive) (fun m hm => hconn.trans hm) (.inl hkept) (.inl rfl)
  | @clear n hp hl =>
    have hconn := congrArg SupPhase.conn hp
    have hkept := congrArg SupPhase.kept hp
    exact h.move rfl (fun m hm => hconn.trans hm) (.inl hkept) (.inr hl)
  | @advance n hp =>
    have hlive := congrArg SupPhase.live hp
    exact {
      sink := h.sink.trans hlive
      epoch := nofun
      spawned := fun m hm => .inl (Nat.lt_succ_of_le (h.spawned_le hm))
      kept := nofun
      holds := h.holds }
  | retry hp =>
    have hlive := congrArg SupPhase.live hp
    have hkept := congrArg SupPhase.kept hp
    have := h.move (p := .sleeping (s.clock + s.retried.1)) (h.sink.trans hlive) nofun
      (.inr ⟨hkept, rfl⟩) (.inl rfl)
    exact { sink := this.sink, epoch := this.epoch, spawned := this.spawned, kept := this.kept,
            holds := this.holds }
  | wake hp ht =>
    have hlive := congrArg SupPhase.live hp
    have hkept := congrArg SupPhase.kept hp
    have := h.move (p := .dialing) (h.sink.trans hlive) nofun (.inr ⟨hkept, rfl⟩) (.inl rfl)
    exact { sink := this.sink, epoch := this.epoch, spawned := this.spawned, kept := this.kept,
            holds := this.holds }
  | check hp | tick hp =>
    refine h.turn (hp ▸ nofun) ?_ fun conn => ?_ <;> split <;> exact nofun
  | @lockSome n conn hp hl hsome =>
    exact {
      sink := h.sink
      epoch := h.epoch
      spawned := fun m hm => by
        by_cases hmn : m = n
        · exact h.spawned m (hmn ▸ hp ▸ nofun)
        · exact h.spawned m fun habsent => hm ((s.setTask_of_ne hmn _).trans habsent)
      kept := fun m hm => by
        by_cases hmn : m = n
        · subst hmn
          exact fun habsent => nomatch (s.setTask_self m (.sending conn)).symm.trans habsent
        · exact fun habsent => h.kept m hm ((s.setTask_of_ne hmn _).symm.trans habsent)
      holds := fun m c hm => by
        by_cases hmn : m = n
        · subst hmn
          cases (s.setTask_self m (.sending conn)).symm.trans hm
          exact ⟨rfl, hsome⟩
        · have hfree : ∀ k, s.holder ≠ some (.ping k) := hl ▸ nofun
          exact absurd ((s.setTask_of_ne hmn _).symm.trans hm) (h.not_sending hfree m c) }
  | lockNone hp hl hnone => exact h.turn (hp ▸ nofun) nofun nofun
  | @sent n conn hp ok =>
    have hturn : SupInv (s.setTask n (if ok then .top else .ended)) :=
      h.turn (hp ▸ nofun) (by cases ok <;> exact nofun) (by cases ok <;> exact nofun)
    refine hturn.relock (fun m c hm => ?_) none
    -- the lock was this task's, so no other task sends
    by_cases hmn : m = n
    · subst hmn
      cases ok <;> cases (s.setTask_self m _).symm.trans hm
    · have hheld := (h.holds m c ((s.setTask_of_ne hmn _).symm.trans hm)).1
      rw [(h.holds n conn hp).1] at hheld
      cases hheld
      exact hmn rfl
  | take hl | release hl => exact h.relock (h.not_sending (hl ▸ nofun)) _
  | pass d => exact { sink := h.sink, epoch := h.epoch, spawned := h.spawned, kept := h.kept,
                      holds := h.holds }

theorem SupRun.inv (h : SupRun hist s) : SupInv s := by
  refine h.invariant ?_ fun s e s' hi hs => hi.step hs
  intro s h0
  exact h0 ▸ supInv_start

/-! ## 3. The schedule, and why the epoch does not wrap -/

theorem supervisorMax_le : supervisorMax ≤ durationMax := by decide

theorem attempts_cons (x : SupState × SupEvent) : attempts (x :: hist)
    = (if x.2 = .retry then [x.1.clock - x.1.connectedAt] else []) ++ attempts hist := by
  by_cases h : x.2 = .retry <;> simp [attempts, h]

/-- **The schedule is that of the attempts made.** -/
theorem SupRun.backoff (h : SupRun hist s) : s.backoff = .after supervisorMax (attempts hist) := by
  induction h with
  | start h0 => rw [h0]; rfl
  | step hr hs ih =>
    rw [attempts_cons]
    cases hs with
    | retry hp => simp [SupState.retried, ih, ReconnectBackoff.after]
    | _ => simpa using ih

/-- How often the supervisor has slept. -/
def wakes (hist : List (SupState × SupEvent)) : Nat := hist.countP fun x => x.2 = .wake

@[simp] theorem wakes_cons (x : SupState × SupEvent) :
    wakes (x :: hist) = wakes hist + if x.2 = .wake then 1 else 0 := by
  simp [wakes, List.countP_cons]

/-- How often the epoch has been advanced since the supervisor last slept, at the most. -/
def SupPhase.advances : SupPhase → Nat
  | dialing => 0
  | retrying | sleeping _ => 2
  | _ => 1

/-- **Every attempt but the first has cost a delay**, and moves the epoch by two at the most. -/
structure Paced (hist : List (SupState × SupEvent)) (s : SupState) : Prop where
  clock : wakes hist * millis 250 ≤ s.clock
  asleep : ∀ t, s.phase = .sleeping t → (wakes hist + 1) * millis 250 ≤ t
  epoch : s.epoch ≤ 2 * wakes hist + s.phase.advances

theorem SupRun.paced (h : SupRun hist s) : Paced hist s := by
  induction h with
  | start h0 =>
    rw [h0]
    exact ⟨by simp [wakes], by simp [SupState.start], by simp [SupState.start]⟩
  | @step hist s s' e hr hs ih =>
    have hclock := ih.clock
    have hepoch := ih.epoch
    cases hs with
    | dialed hp | advance hp =>
      simp only [hp, SupPhase.advances] at hepoch
      refine ⟨by simpa using hclock, by simp, ?_⟩
      simp only [wakes_cons, SupPhase.advances]
      omega
    | retry hp =>
      have hdelay : millis 250 ≤ s.retried.1 := by
        rw [SupState.retried, SupRun.backoff hr]
        exact ReconnectBackoff.le_delayAfter supervisorMax_le _ _
      refine ⟨by simpa using hclock, fun t ht => ?_, by simpa [hp, SupPhase.advances] using hepoch⟩
      cases ht
      simp [Nat.add_mul]
      omega
    | wake hp ht =>
      simp only [hp, SupPhase.advances] at hepoch
      refine ⟨by simpa using (ih.asleep _ hp).trans ht, by simp, ?_⟩
      simp [SupPhase.advances]
      omega
    | dialFailed hp | install hp | spawn hp | readEnded hp | clear hp =>
      refine ⟨by simpa using hclock, by simp, ?_⟩
      simp [hp, SupPhase.advances] at hepoch ⊢
      omega
    | pass d =>
      refine ⟨?_, by simpa using ih.asleep, by simpa using hepoch⟩
      simp
      omega
    | _ =>
      exact ⟨by simpa using hclock, by simpa using ih.asleep, by simpa using hepoch⟩

/-- In a run of less than 2^90 ns the epoch is what its `u64` holds. -/
theorem SupRun.epoch_lt (h : SupRun hist s) (ht : s.clock < 2 ^ 90) : s.epoch < 2 ^ 64 := by
  have hpaced := SupRun.paced h
  have hclock := hpaced.clock
  have hepoch := hpaced.epoch
  have hadv : s.phase.advances ≤ 2 := by cases s.phase <;> simp [SupPhase.advances]
  simp only [millis] at hclock
  omega

theorem SupStep.clock_le {e : SupEvent} (hs : SupStep s e s') : s.clock ≤ s'.clock := by
  cases hs <;> simp

/-! ## 4. The task of an earlier connection -/

/-- **What a task does whose connection is not the epoch's any more**: it ends at its next look at
    the epoch; one that has looked already may find a sink, and sends on it. -/
inductive StaleTurn (n : Nat) : PingPhase → SupEvent → PingPhase → Prop where
  | check : StaleTurn n .top (.check n) .ended
  | tick : StaleTurn n .ticking (.tick n) .ended
  | lockSome (conn : Nat) : StaleTurn n .locking (.lock n) (.sending conn)
  | lockNone : StaleTurn n .locking (.lock n) .ended
  | sent (conn : Nat) (ok : Bool) :
      StaleTurn n (.sending conn) (.sent n conn ok) (if ok then .top else .ended)

/-- As long as the epoch has not wrapped, a task's look at it tells. -/
theorem SupState.current_iff (hlt : s.epoch < 2 ^ 64) (hn : n ≤ s.epoch) :
    s.current n ↔ s.epoch = n := by
  simp only [SupState.current, Nat.mod_eq_of_lt hlt, Nat.mod_eq_of_lt (hn.trans_lt hlt)]

/-- A step leaves the task of an earlier connection where it is, or is a stale turn of it. -/
theorem SupInv.stale (h : SupInv s) {e : SupEvent} (hs : SupStep s e s') (hlt : s.epoch < 2 ^ 64)
    (hn : n < s.epoch) :
    (e.task ≠ some n ∧ s'.task n = s.task n) ∨
      e.task = some n ∧ StaleTurn n (s.task n) e (s'.task n) := by
  have hcur : ¬s.current n := by
    rw [SupState.current_iff hlt hn.le]
    omega
  -- a step of another task, or of this one
  have hother : ∀ {m p} {e : SupEvent}, e.task = some m → n ≠ m →
      e.task ≠ some n ∧ (s.setTask m p).task n = s.task n := fun he hnm =>
    ⟨fun he' => hnm (Option.some.inj (he'.symm.trans he)), s.setTask_of_ne hnm _⟩
  have hself : ∀ p, (s.setTask n p).task n = p := s.setTask_self n
  cases hs with
  | @spawn m hp =>
    have hconn := congrArg SupPhase.conn hp
    have hne : n ≠ m := h.epoch m hconn ▸ hn.ne
    exact .inl ⟨nofun, s.setTask_of_ne hne _⟩
  | @check m hp =>
    by_cases hnm : n = m
    · subst hnm
      rw [hself, hp, if_neg hcur]
      exact .inr ⟨rfl, .check⟩
    · exact .inl (hother rfl hnm)
  | @tick m hp =>
    by_cases hnm : n = m
    · subst hnm
      rw [hself, hp, if_neg hcur]
      exact .inr ⟨rfl, .tick⟩
    · exact .inl (hother rfl hnm)
  | @lockSome m conn hp hl hsome =>
    by_cases hnm : n = m
    · subst hnm
      have hturn := StaleTurn.lockSome (n := n) conn
      rw [← hp, ← hself (.sending conn)] at hturn
      exact .inr ⟨rfl, hturn⟩
    · exact .inl (hother rfl hnm)
  | @lockNone m hp hl hnone =>
    by_cases hnm : n = m
    · subst hnm
      rw [hself, hp]
      exact .inr ⟨rfl, .lockNone⟩
    · exact .inl (hother rfl hnm)
  | @sent m conn hp ok =>
    by_cases hnm : n = m
    · subst hnm
      have hturn := StaleTurn.sent (n := n) conn ok
      rw [← hp, ← hself (if ok then .top else .ended)] at hturn
      exact .inr ⟨rfl, hturn⟩
    · exact .inl (hother rfl hnm)
  | _ => exact .inl ⟨nofun, rfl⟩

/-- A task takes steps only after it has been spawned, under an epoch that has been reached. -/
theorem SupInv.acts_le (h : SupInv s) {e : SupEvent} (hs : SupStep s e s')
    (he : e.task = some n) : n ≤ s.epoch := by
  refine h.spawned_le ?_
  cases hs with
  | check hp | tick hp | lockSome hp _ _ | lockNone hp _ _ | sent hp _ =>
    obtain rfl := Option.some.inj he
    rw [hp]
    exact nofun
  | _ => cases he

theorem SupStep.epoch_le {e : SupEvent} (hs : SupStep s e s') : s.epoch ≤ s'.epoch := by
  cases hs <;> simp

/-- A task's own step leaves the epoch as it is. -/
theorem SupStep.epoch_eq {e : SupEvent} (hs : SupStep s e s') (he : e.task = some n) :
    s'.epoch = s.epoch := by
  cases hs <;> first | rfl | cases he

/-- **The budget of a stale task.** Count steps of task `n` that it takes after the epoch of its
    connection. If every stale turn that counts uses up some of what the task has `left`, a run
    counts no more than the most a task can have left. -/
theorem SupRun.stale_budget {counts : SupState × SupEvent → Bool} {left : PingPhase → Nat}
    {budget : Nat}
    (hcounts : ∀ s e s', SupInv s → SupStep s e s' → counts (s, e) = true →
      e.task = some n ∧ s.epoch ≠ n)
    (hleft : ∀ p, left p ≤ budget)
    (hturn : ∀ s p e p', StaleTurn n p e p' →
      left p' + (if counts (s, e) then 1 else 0) ≤ left p)
    (h : SupRun hist s) (ht : s.clock < 2 ^ 90) :
    hist.countP counts + (if s.epoch ≤ n then budget else left (s.task n)) ≤ budget := by
  induction h with
  | start h0 =>
    split
    · simp
    · simpa using hleft _
  | @step hist s s' e hr hs ih =>
    have ht' : s.clock < 2 ^ 90 := (SupStep.clock_le hs).trans_lt ht
    have hinv : SupInv s := SupRun.inv hr
    have hep := SupStep.epoch_le hs
    specialize ih ht'
    rw [List.countP_cons]
    by_cases hn : n < s.epoch
    · rw [if_neg (show ¬s.epoch ≤ n by omega)] at ih
      rw [if_neg (show ¬s'.epoch ≤ n by omega)]
      obtain ⟨hother, hsame⟩ | ⟨_, hstale⟩ := hinv.stale hs (SupRun.epoch_lt hr ht') hn
      · have hno : counts (s, e) = false := by
          refine Bool.eq_false_iff.mpr fun hc => ?_
          exact hother (hcounts s e s' hinv hs hc).1
        simpa [hno, hsame] using ih
      · have := hturn s _ _ _ hstale
        omega
    · -- the connection is the epoch's or a later one, so nothing counts yet
      have hno : counts (s, e) = false := by
        refine Bool.eq_false_iff.mpr fun hc => ?_
        obtain ⟨hact, hne⟩ := hcounts s e s' hinv hs hc
        exact hne (le_antisymm (by omega) (hinv.acts_le hs hact))
      rw [if_pos (show s.epoch ≤ n by omega)] at ih
      have hl := hleft (s'.task n)
      simp only [hno, Bool.false_eq_true, if_false]
      split <;> omega

/-- How often the task of a connection has pinged another one. -/
def strayPings (hist : List (SupState × SupEvent)) (n : Nat) : Nat :=
  (pings hist).countP fun p => p.1 = n ∧ p.2.1 ≠ n

/-- How many steps the task of a connection has taken under another epoch. -/
def lateSteps (hist : List (SupState × SupEvent)) (n : Nat) : Nat :=
  hist.countP fun x => x.2.task = some n ∧ x.1.epoch ≠ n

/-- The steps a stale task has left. -/
def PingPhase.stepsLeft : PingPhase → Nat
  | absent | ended => 0
  | top | ticking => 1
  | sending _ => 2
  | locking => 3

/-- The pings a stale task has left. -/
def PingPhase.pingsLeft : PingPhase → Nat
  | locking | sending _ => 1
  | _ => 0

/-- **After its connection a task takes at most three steps.** -/
theorem SupRun.lateSteps_le (h : SupRun hist s) (ht : s.clock < 2 ^ 90) (n : Nat) :
    lateSteps hist n ≤ 3 := by
  have hb := @SupRun.stale_budget s n hist
    (fun x => decide (x.2.task = some n ∧ x.1.epoch ≠ n)) PingPhase.stepsLeft 3 ?_ ?_ ?_ h ht
  · exact (Nat.le_add_right _ _).trans hb
  · intro s e s' _ _ hx
    exact of_decide_eq_true hx
  · intro p
    cases p <;> simp [PingPhase.stepsLeft]
  · intro s p e p' hturn
    cases hturn with
    | sent conn ok => cases ok <;> simp [PingPhase.stepsLeft] <;> split <;> simp
    | _ =>
      simp only [PingPhase.stepsLeft]
      split <;> simp

/-- The task of a connection pings another one. -/
def SupEvent.strays (n : Nat) : SupEvent → Bool
  | sent m conn _ => decide (m = n ∧ conn ≠ n)
  | _ => false

theorem strayPings_eq (hist : List (SupState × SupEvent)) (n : Nat) :
    strayPings hist n = hist.countP fun x => x.2.strays n := by
  rw [strayPings, pings, List.countP_filterMap]
  congr 1
  funext x
  obtain ⟨s, e⟩ := x
  cases e <;> simp [SupEvent.strays]

/-- A send is on the installed sink, which is that of the epoch's connection. -/
theorem SupInv.sends_current (h : SupInv s) {conn : Nat} (hn : s.task n = .sending conn) :
    conn = s.epoch ∧ s.phase.live = some conn := by
  have hlive : s.phase.live = some conn := h.sink.symm.trans (h.holds n conn hn).2
  exact ⟨h.epoch conn (SupPhase.conn_of_live hlive), hlive⟩

/-- **A task pings a later connection at most once.** -/
theorem SupRun.strayPings_le (h : SupRun hist s) (ht : s.clock < 2 ^ 90) (n : Nat) :
    strayPings hist n ≤ 1 := by
  rw [strayPings_eq]
  have hb := @SupRun.stale_budget s n hist (fun x => x.2.strays n) PingPhase.pingsLeft 1
    ?_ ?_ ?_ h ht
  · exact (Nat.le_add_right _ _).trans hb
  · intro s e s' hinv hs hx
    cases hs with
    | @sent m conn hp ok =>
      obtain ⟨rfl, hne⟩ := of_decide_eq_true hx
      exact ⟨rfl, (hinv.sends_current hp).1 ▸ hne⟩
    | _ => simp [SupEvent.strays] at hx
  · intro p
    cases p <;> simp [PingPhase.pingsLeft]
  · intro s p e p' hturn
    cases hturn with
    | sent conn ok =>
      have hone : (if (SupEvent.sent n conn ok).strays n = true then 1 else 0) ≤ 1 := by
        split <;> simp
      cases ok <;> simpa [PingPhase.pingsLeft] using hone
    | _ => simp [PingPhase.pingsLeft, SupEvent.strays]

/-- **No task pings a connection before its own.** -/
theorem SupRun.pings_ordered (h : SupRun hist s) : ∀ p ∈ pings hist, p.1 ≤ p.2.1 := by
  intro p hp
  obtain ⟨⟨t, e⟩, hx, hval⟩ := List.mem_filterMap.mp hp
  obtain ⟨later, earlier, rfl⟩ := List.append_of_mem hx
  obtain ⟨hr, t', hs, _⟩ := Run.split h
  cases hs with
  | @sent n conn hn ok =>
    cases hval
    have hinv : SupInv t := SupRun.inv hr
    rw [(hinv.sends_current hn).1]
    exact hinv.spawned_le (by simp [hn])
  | _ => simp at hval

/-! ## 5. The task of the connection that is served -/

/-- A connection that is served, or whose loss the supervisor has not acted on. -/
def SupPhase.Serves (p : SupPhase) (n : Nat) : Prop := p = .serving n ∨ p = .lost n

theorem SupPhase.Serves.conn {p : SupPhase} (h : p.Serves n) : p.conn = some n := by
  obtain rfl | rfl := h <;> rfl

theorem SupPhase.Serves.live {p : SupPhase} (h : p.Serves n) : p.live = some n := by
  obtain rfl | rfl := h <;> rfl

/-- A step in whose end the task of the served connection has ended: a send that failed on this
    connection, or a step that leaves the task and the serving as they were. -/
theorem SupInv.ends_served (h : SupInv s) {e : SupEvent} (hs : SupStep s e s')
    (hp' : s'.phase.Serves n) (hend : s'.task n = .ended) :
    e = .sent n n false ∨ s.phase.Serves n ∧ s.task n = .ended := by
  have hcur : s.phase.Serves n → s.current n := fun hp => by
    rw [h.epoch n hp.conn]
    exact rfl
  cases hs with
  | dialed hp | dialFailed hp | install hp | clear hp | advance hp | retry hp | wake hp =>
    obtain hp' | hp' := hp' <;> cases hp'
  | @spawn m hp =>
    obtain hp' | hp' := hp'
    · cases hp'
      simp at hend
    · cases hp'
  | @readEnded m hp =>
    obtain hp' | hp' := hp'
    · cases hp'
    · cases hp'
      exact .inr ⟨.inl hp, hend⟩
  | @check m hm =>
    by_cases hnm : n = m
    · subst hnm
      simp [hcur hp'] at hend
    · exact .inr ⟨hp', by simpa [hnm] using hend⟩
  | @tick m hm =>
    by_cases hnm : n = m
    · subst hnm
      simp [hcur hp'] at hend
    · exact .inr ⟨hp', by simpa [hnm] using hend⟩
  | @lockSome m conn hm hl hsome =>
    by_cases hnm : n = m
    · subst hnm
      simp at hend
    · exact .inr ⟨hp', by simpa [hnm] using hend⟩
  | @lockNone m hm hl hnone =>
    by_cases hnm : n = m
    · have hlive : s.sink = some n := h.sink.trans (SupPhase.Serves.live hp')
      rw [hnone] at hlive
      cases hlive
    · exact .inr ⟨hp', by simpa [hnm] using hend⟩
  | @sent m conn hm ok =>
    by_cases hnm : n = m
    · subst hnm
      have hconn : conn = n :=
        (h.sends_current hm).1.trans (h.epoch n (SupPhase.Serves.conn hp')).symm
      cases ok with
      | true => simp at hend
      | false => exact .inl (by rw [hconn])
    · exact .inr ⟨hp', by simpa [hnm] using hend⟩
  | take hl | release hl | pass d => exact .inr ⟨hp', hend⟩

/-- **While a connection is served, its task ends for a failed send only.** -/
theorem SupRun.keeps_pinging (h : SupRun hist s) (hp : s.phase.Serves n)
    (hend : s.task n = .ended) : (n, n, false) ∈ pings hist := by
  induction h with
  | start h0 =>
    rw [h0] at hend
    cases hend
  | @step hist s s' e hr hs ih =>
    obtain rfl | ⟨hp, hend⟩ := SupInv.ends_served (SupRun.inv hr) hs hp hend
    · simp [pings]
    · have hmem := ih hp hend
      rw [pings, List.filterMap_cons]
      split
      · exact hmem
      · exact List.mem_cons_of_mem _ hmem

/-! ## 6. The whole run -/

/-- **A keepalive task keeps to its connection**, in every interleaving of the supervisor, the
    tasks and the others that take the sink: it pings no connection before its own and a later
    one once at most; under a later epoch it takes three steps at most; and while its connection
    is served it has ended only if a ping on this connection failed. -/
theorem keepalive_keeps_to_its_connection (h : SupRun hist s) (ht : s.clock < 2 ^ 90) :
    (∀ p ∈ pings hist, p.1 ≤ p.2.1) ∧
      (∀ n, strayPings hist n ≤ 1) ∧
      (∀ n, lateSteps hist n ≤ 3) ∧
      ∀ n, s.phase.Serves n → s.task n = .ended → (n, n, false) ∈ pings hist :=
  ⟨SupRun.pings_ordered h, SupRun.strayPings_le h ht, SupRun.lateSteps_le h ht,
    fun _ hp hend => SupRun.keeps_pinging h hp hend⟩

/-- The first task looks at the epoch, its connection goes and the next one comes, and its ping
    goes to that one. -/
theorem keepalive_keeps_to_its_connection_stray : ∃ hist s, SupRun hist s ∧
    pings hist = [(1, 3, true)] ∧ (∀ n, strayPings hist n ≤ 1) ∧ (∀ n, lateSteps hist n ≤ 3) := by
  have h0 : SupRun [] .start := .start rfl
  have h1 := (((h0.step (.dialed rfl)).step (.install rfl rfl)).step (.spawn rfl))
  have h2 := (h1.step (.check (n := 1) rfl)).step (.tick (n := 1) rfl)
  have h3 := ((h2.step (.readEnded rfl)).step (.clear rfl rfl)).step (.advance rfl)
  have h4 := ((h3.step (.retry rfl)).step (.pass (secs 1))).step (.wake rfl (by decide))
  have h5 := (h4.step (.dialed rfl)).step (.install rfl rfl)
  have h6 := (h5.step (.lockSome (n := 1) rfl rfl rfl)).step (.sent (n := 1) rfl true)
  have hkeeps := keepalive_keeps_to_its_connection h6 (by decide)
  exact ⟨_, _, h6, rfl, hkeeps.2.1, hkeeps.2.2.1⟩

/-- **The delays of a run.** A retry sleeps 250 ms doubled for every retry since the last attempt
    that lasted 30 s, or the supervisor's 5 s; and a run of `t` has no more than one attempt and
    one for every 250 ms in `t`. -/
theorem reconnect_schedule (h : SupRun hist s) :
    (∀ later earlier t, hist = later ++ (t, .retry) :: earlier →
      ∃ t', t' ∈ visited later s ∧
        t'.phase = .sleeping (t.clock + Nat.min (ReconnectBackoff.initial *
          2 ^ (ReconnectBackoff.retriesSince (attempts ((t, .retry) :: earlier)) - 1))
          supervisorMax)) ∧
      wakes hist * millis 250 ≤ s.clock := by
  refine ⟨fun later earlier t he => ?_, (SupRun.paced h).clock⟩
  subst he
  obtain ⟨hr, t', hs, ht'⟩ := Run.split h
  refine ⟨t', ht', ?_⟩
  cases hs with
  | retry hp =>
    have hdelay := ReconnectBackoff.delayAfter_eq supervisorMax_le (t.clock - t.connectedAt)
      (attempts earlier)
    simp only [SupState.retried, SupRun.backoff hr]
    rw [show attempts ((t, .retry) :: earlier)
      = (t.clock - t.connectedAt) :: attempts earlier by simp [attempts_cons], ← hdelay]
    rfl

/-- Two dials fail: the second retry waits twice as long as the first. -/
theorem reconnect_schedule_twice : ∃ hist s, SupRun hist s ∧
    s.phase = .sleeping (millis 250 + millis 500) ∧ wakes hist * millis 250 ≤ s.clock := by
  have h0 : SupRun [] .start := .start rfl
  have h1 := (((h0.step (.dialFailed rfl)).step (.retry rfl)).step (.pass (millis 250))).step
    (.wake rfl (by decide))
  have h2 := (h1.step (.dialFailed rfl)).step (.retry rfl)
  obtain ⟨hsleeps, hwakes⟩ := reconnect_schedule h2
  obtain ⟨t', ht', hphase⟩ := hsleeps [] _ _ rfl
  rw [visited_nil, List.mem_singleton] at ht'
  subst ht'
  exact ⟨_, _, h2, hphase.trans (by decide), hwakes⟩

end Relayfs

/-
  File:      Relayfs/Agent/CommandLock.lean
  Subject:   WHETHER COMMANDS BLOCK EACH OTHER (agent/src/commands.rs): the lock of `commands` is
             held across `child.wait()`.

  A child may close its output and go on running. Its task then takes the lock and waits for it,
  and every step of another command that needs the lock waits with it, as does `kill_all`.

  * `Disables` -- a step that could be taken if a child had exited;
  * `Independent` -- no child that lingers disables a step of another command, or `kill_all`;
  * `Holders`, `holders_step` -- the lock is held by the task that is in `child.wait()`;
  * `independent_iff` -- commands are independent where no lingering child is waited for;
  * `commands_independent_iff` -- they are in every state of a run, exactly when no task begins to
    wait for a child that lingers;
  * `lingering_child_blocks` -- a run that stops two other commands, a third and a disconnect.
-/
import Relayfs.Agent.CommandResults

namespace Relayfs

open Lib

/-! ## 1. What one command may do to another -/

/-- The child has closed its output and not exited. -/
def CommandTask.lingers (t : CommandTask) : Bool := t.closed && t.status.isNone

theorem CommandTask.lingers_iff {t : CommandTask} :
    t.lingers = true ↔ t.closed = true ∧ t.status = none := by
  rw [lingers, Bool.and_eq_true, Option.isNone_iff_eq_none]

namespace AgentState

/-- A task holds the lock and waits for a child. -/
def Awaits (s : AgentState) (k child : Nat) : Prop :=
  s.lock = some k ∧ s.Has k (·.phase = .waiting child)

instance (s : AgentState) (k child : Nat) : Decidable (s.Awaits k child) :=
  inferInstanceAs (Decidable (_ ∧ _))

/-- The agent after a child has exited, its status collected by the task that waits for it. -/
def collected (s : AgentState) (child : Nat) (code : Option Int) : AgentState :=
  let s' := s.next (.exits child code)
  match s.lock with
  | none => s'
  | some k => if s.Awaits k child then s'.next (.reap k) else s'

end AgentState

/-- **A step waits for a child to exit**: it is not enabled, and would be if the child had. -/
def Disables (s : AgentState) (child : Nat) (e : CommandEvent) : Prop :=
  ¬ s.permits e ∧ ∃ code, (s.collected child code).permits e

/-- **Commands do not block each other**: that the child of one has closed its output and not
    exited disables no step of another, and not the `kill_all` of a disconnect. -/
def Independent (s : AgentState) : Prop :=
  ∀ c₁ t, s.tasks c₁ = some t → t.lingers = true →
    (∀ c₂, c₂ ≠ c₁ → ∀ e : CommandEvent, e.actor = some c₂ → ¬ Disables s c₁ e) ∧
      ¬ Disables s c₁ .killAll

/-! ## 2. Who holds the lock -/

/-- **The lock is held by the task that is in `child.wait()`.** -/
def Holders (s : AgentState) : Prop :=
  ∀ k, s.lock = some k ↔ ∃ t child, s.tasks k = some t ∧ t.phase = .waiting child

section Steps

variable {s s' : AgentState} {k : Nat} {t t' : CommandTask}

/-- A task that does not wait does not hold the lock. -/
theorem Holders.not_holder (h : Holders s) (ht : s.tasks k = some t)
    (hphase : ∀ child, t.phase ≠ .waiting child) : s.lock ≠ some k := by
  intro hlock
  obtain ⟨u, child, hu, hwait⟩ := (h k).mp hlock
  obtain rfl : t = u := Option.some.inj (ht.symm.trans hu)
  exact hphase child hwait

/-- One task changes, and perhaps the lock. -/
theorem Holders.update (h : Holders s) (htasks : s'.tasks = Function.update s.tasks k (some t'))
    (hown : s'.lock = some k ↔ ∃ child, t'.phase = .waiting child)
    (hother : ∀ j, j ≠ k → (s'.lock = some j ↔ s.lock = some j)) : Holders s' := by
  intro j
  by_cases hj : j = k
  · subst hj
    rw [hown, htasks, Function.update_self]
    constructor
    · intro hwait
      obtain ⟨child, hwait⟩ := hwait
      exact ⟨t', child, rfl, hwait⟩
    · intro hwait
      obtain ⟨u, child, hu, hwait⟩ := hwait
      obtain rfl := Option.some.inj hu
      exact ⟨child, hwait⟩
  · rw [hother j hj, htasks, Function.update_of_ne hj]
    exact h j

/-- A task that does not wait moves on and does not wait then; the lock stays. -/
theorem Holders.put (h : Holders s) (ht : s.tasks k = some t)
    (htasks : s'.tasks = Function.update s.tasks k (some t')) (hlock : s'.lock = s.lock)
    (hphase : ∀ child, t.phase ≠ .waiting child) (hphase' : ∀ child, t'.phase ≠ .waiting child) :
    Holders s' := by
  refine h.update htasks ?_ fun j _ => by rw [hlock]
  rw [hlock]
  refine iff_of_false (h.not_holder ht hphase) fun hwait => ?_
  obtain ⟨child, hwait⟩ := hwait
  exact hphase' child hwait

/-- The child of a task does something, or is killed. -/
theorem Holders.child_acts (h : Holders s) (ht : s.tasks k = some t)
    (hphase : t'.phase = t.phase) : Holders (s.put k t') := by
  refine h.update (rfl : _ = Function.update s.tasks k (some t')) ?_ fun j _ => Iff.rfl
  show s.lock = some k ↔ _
  rw [h k, hphase]
  constructor
  · intro hwait
    obtain ⟨u, child, hu, hwait⟩ := hwait
    obtain rfl : t = u := Option.some.inj (ht.symm.trans hu)
    exact ⟨child, hwait⟩
  · intro hwait
    obtain ⟨child, hwait⟩ := hwait
    exact ⟨t, child, ht, hwait⟩

theorem Holders.terminate (h : Holders s) (child : Nat) : Holders (s.terminate child) := by
  rw [AgentState.terminate, AgentState.on]
  split
  · exact h
  · rename_i t ht
    exact h.child_acts ht rfl

/-- A task lets go of the lock. -/
theorem Holders.release (h : Holders s) (htasks : s'.tasks = Function.update s.tasks k (some t'))
    (hlock : s.lock = some k) (hlock' : s'.lock = none)
    (hphase' : ∀ child, t'.phase ≠ .waiting child) : Holders s' := by
  refine h.update htasks ?_ fun j hj => ?_
  · rw [hlock']
    refine iff_of_false nofun fun hwait => ?_
    obtain ⟨child, hwait⟩ := hwait
    exact hphase' child hwait
  · rw [hlock', hlock]
    refine iff_of_false nofun fun heq => ?_
    exact hj (Option.some.inj heq).symm

theorem holders_new (h : NoCommands s) : Holders s := by
  subst h
  intro k
  refine iff_of_false nofun fun hwait => ?_
  obtain ⟨t, child, ht, -⟩ := hwait
  cases ht

/-- **Every step keeps it.** -/
theorem holders_step {e : CommandEvent} (h : Holders s) (hstep : CommandStep s e s') :
    Holders s' := by
  cases CommandEffect.of_step hstep with
  | @start k id params hnew =>
    refine h.update (rfl : _ = Function.update s.tasks k (some (.spawn id params))) ?_
      fun j _ => Iff.rfl
    show s.lock = some k ↔ _
    rw [h k, hnew]
    refine iff_of_false (fun hwait => ?_) fun hwait => ?_
    · obtain ⟨u, child, hu, -⟩ := hwait
      cases hu
    · obtain ⟨child, hwait⟩ := hwait
      cases hwait
  | @track k t ht hphase =>
    refine h.put ht rfl rfl (by rw [hphase]; nofun) fun child => ?_
    show (if t.background then CommandPhase.tracked else .streaming) ≠ .waiting child
    split <;> nofun
  | register ht hphase => exact h.put ht rfl rfl (by rw [hphase]; nofun) nofun
  | print ht => exact h.child_acts ht rfl
  | eof ht hphase => exact h.put ht rfl rfl (by rw [hphase]; nofun) nofun
  | @lookup k child t ht hphase hlock =>
    refine h.update (k := k) rfl ?_ fun j hj => ?_
    · exact iff_of_true rfl ⟨child, rfl⟩
    · rw [hlock]
      exact iff_of_false (fun heq => hj (Option.some.inj heq).symm) nofun
  | lookupFails ht hphase => exact h.put ht rfl rfl (by rw [hphase]; nofun) nofun
  | @reap k child code t ht hphase =>
    exact h.release rfl ((h k).mpr ⟨t, child, ht, hphase⟩) rfl nofun
  | @waitFails k child t ht hphase =>
    exact h.release rfl ((h k).mpr ⟨t, child, ht, hphase⟩) rfl nofun
  | @deadline k t ht _ hphase =>
    by_cases hlock : s.lock = some k
    · exact h.release rfl hlock (if_pos hlock) nofun
    · refine h.put ht rfl (if_neg hlock) (fun child hwait => ?_) nofun
      exact hlock ((h k).mpr ⟨t, child, ht, hwait⟩)
  | @kill k child t t' ht hphase hlock hchild ht' hkilled =>
    have hphase' : t'.phase = .timingOut := by
      rcases hkilled with rfl | rfl
      · exact hphase
      · exact hphase
    exact (h.terminate child).put ht' rfl rfl (by rw [hphase']; nofun) nofun
  | killFails ht hphase => exact h.put ht rfl rfl (by rw [hphase]; nofun) nofun
  | finishBackground ht hphase => exact h.put ht rfl rfl (by rw [hphase]; nofun) nofun
  | finishFailed ht hphase => exact h.put ht rfl rfl (by rw [hphase]; nofun) nofun
  | finish ht hphase => exact h.put ht rfl rfl (by rw [hphase]; nofun) nofun
  | exits ht => exact h.child_acts ht rfl
  | closes ht => exact h.child_acts ht rfl
  | killAll hlock =>
    intro j
    show s.lock = some j ↔ _
    rw [h j]
    constructor
    · intro hwait
      obtain ⟨u, child, hu, hwait⟩ := hwait
      exact ⟨_, child, congrArg (Option.map _) hu, by dsimp only; split <;> exact hwait⟩
    · intro hwait
      obtain ⟨u', child, hu', hwait⟩ := hwait
      obtain ⟨u, hu, rfl⟩ := Option.map_eq_some_iff.mp hu'
      refine ⟨u, child, hu, ?_⟩
      split at hwait <;> exact hwait

end Steps

/-! ## 3. Independence is that no lingering child is waited for -/

/-- **No task holds the lock while it waits for a child that lingers.** -/
def NoneLingers (s : AgentState) : Prop :=
  ∀ k child, s.Awaits k child → ¬ s.Has child (·.lingers = true)

section Independent

variable {s s' : AgentState}

/-- A child's own exit, for a task that exists. -/
theorem next_exits {c : Nat} {t : CommandTask} (ht : s.tasks c = some t) (code : Option Int) :
    s.next (.exits c code) = s.put c { t with status := some code } := AgentState.on_eq ht _

/-- Once the child has exited and its status is collected, the lock is free. -/
theorem collected_lock {k c : Nat} {t : CommandTask} (h : s.Awaits k c) (ht : s.tasks c = some t)
    (code : Option Int) : (s.collected c code).lock = none := by
  obtain ⟨hlock, u, hu, hwait⟩ := h
  unfold AgentState.collected
  rw [hlock]
  dsimp only
  rw [if_pos ⟨hlock, u, hu, hwait⟩, next_exits ht]
  -- the waiting task after the exit, and the status it finds
  have htask : ∃ u', (s.put c { t with status := some code }).tasks k = some u' ∧
      u'.phase = .waiting c := by
    by_cases hk : k = c
    · subst hk
      obtain rfl : t = u := Option.some.inj (ht.symm.trans hu)
      exact ⟨_, AgentState.put_self _ _ _, hwait⟩
    · exact ⟨u, (AgentState.put_of_ne hk _).trans hu, hwait⟩
  obtain ⟨u', hu', hwait'⟩ := htask
  have hcode : (s.put c { t with status := some code }).exitCode c = some code := by
    rw [AgentState.exitCode, AgentState.put_self]
    rfl
  rw [AgentState.next, AgentState.on_eq hu', hwait']
  dsimp only [CommandPhase.awaited, Option.bind_some]
  rw [hcode]
  rfl

/-- Where no task waits for a child, its exit enables no step of another. -/
theorem collected_permits (h : Holders s) {c : Nat} {t : CommandTask} (ht : s.tasks c = some t)
    (hnone : ∀ k, ¬ s.Awaits k c) {code : Option Int} {e : CommandEvent}
    (he : e = .killAll ∨ ∃ k, k ≠ c ∧ e.actor = some k)
    (hok : (s.collected c code).permits e) : s.permits e := by
  have hexits : s.collected c code = s.put c { t with status := some code } := by
    unfold AgentState.collected
    rw [next_exits ht]
    cases s.lock with
    | none => rfl
    | some k => exact if_neg (hnone k)
  rw [hexits] at hok
  rcases he with rfl | ⟨k, hk, hactor⟩
  · exact hok
  · have hsame : ∀ {p : CommandTask → Prop},
        (s.put c { t with status := some code }).Has k p → s.Has k p := by
      intro p hp
      obtain ⟨u, hu, hp⟩ := hp
      exact ⟨u, (AgentState.put_of_ne hk _).symm.trans hu, hp⟩
    cases e with
    | track | lookup | kill =>
      obtain rfl := Option.some.inj hactor
      exact ⟨hsame hok.1, hok.2⟩
    | register | eof | deadline | finish =>
      obtain rfl := Option.some.inj hactor
      exact hsame hok
    | reap =>
      obtain rfl := Option.some.inj hactor
      obtain ⟨u, hu, hcode⟩ := hsame hok
      refine ⟨u, hu, ?_⟩
      obtain ⟨x, hx⟩ := Option.isSome_iff_exists.mp hcode
      obtain ⟨child, hawait, hexit⟩ := Option.bind_eq_some_iff.mp hx
      -- the task waits for another child than the one that exited
      have hne : child ≠ c := by
        intro heq
        subst heq
        have hwait := CommandPhase.eq_waiting hawait
        exact hnone _ ⟨(h _).mpr ⟨u, child, hu, hwait⟩, u, hu, hwait⟩
      rw [hawait]
      show (s.exitCode child).isSome = true
      rw [AgentState.exitCode, AgentState.put_of_ne hne] at hexit
      rw [AgentState.exitCode, hexit]
      rfl
    | _ => cases hactor

/-- **Commands are independent where no lingering child is waited for.** -/
theorem independent_iff (h : Holders s) : Independent s ↔ NoneLingers s := by
  constructor
  · intro hind k child hawait hlinger
    obtain ⟨t, ht, hlinger⟩ := hlinger
    refine (hind child t ht hlinger).2 ⟨fun hfree => ?_, none, collected_lock hawait ht none⟩
    have hfree : s.lock = none := hfree
    rw [hawait.1] at hfree
    cases hfree
  · intro hnone c t ht hlinger
    have hno : ∀ k, ¬ s.Awaits k c := fun k hawait => hnone k c hawait ⟨t, ht, hlinger⟩
    constructor
    · intro c₂ hne e hactor hdis
      obtain ⟨hnot, code, hok⟩ := hdis
      exact hnot (collected_permits h ht hno (.inr ⟨c₂, hne, hactor⟩) hok)
    · intro hdis
      obtain ⟨hnot, code, hok⟩ := hdis
      exact hnot (collected_permits h ht hno (.inl rfl) hok)

end Independent

/-! ## 4. Runs -/

/-- **The condition.** A task that has read the output of its child takes the lock only where the
    child it will wait for has exited (or, where the id has passed to another child, still has its
    output open); and no child closes its output while a task waits for it. -/
def WaitsForEnded (s : AgentState) : CommandEvent → Prop
  | .lookup k => ∀ t child, s.tasks k = some t → s.commands t.id = some child →
      ¬ s.Has child (·.lingers = true)
  | .closes c => s.Has c (·.status = none) → ∀ k, ¬ s.Awaits k c
  | _ => True

section Runs

variable {s s' : AgentState} {k : Nat} {t t' : CommandTask} {e : CommandEvent}

/-- **How a task comes to wait, and a child to linger.** -/
structure WaitBefore (s : AgentState) (e : CommandEvent) (k : Nat) (t t' : CommandTask) :
    Prop where
  waits : ∀ child, t'.phase = .waiting child →
    t.phase = .waiting child ∨ (e = .lookup k ∧ s.commands t.id = some child)
  lingers : t'.lingers = true → t.lingers = true ∨ (e = .closes k ∧ t.status = none)

theorem WaitBefore.refl : WaitBefore s e k t t := ⟨fun _ h => .inl h, .inl⟩

theorem WaitBefore.killed : WaitBefore s e k t t.killed := by
  refine ⟨fun _ h => .inl h, fun h => ?_⟩
  have hnone := (CommandTask.lingers_iff.mp h).2
  cases hnone

/-- A task moves on to a phase in which it waits for nothing. -/
theorem WaitBefore.moved {phase : CommandPhase} (h : ∀ child, phase ≠ .waiting child) :
    WaitBefore s e k t { t with phase } := ⟨fun child hp => absurd hp (h child), .inl⟩

/-- One task changes. -/
theorem wait_update (ht : s.tasks k = some t) {j : Nat} {u' : CommandTask}
    (hu' : Function.update s.tasks k (some t') j = some u') (h : WaitBefore s e k t t') :
    ∃ u, s.tasks j = some u ∧ WaitBefore s e j u u' := by
  rcases AgentState.task_update hu' with ⟨rfl, rfl⟩ | ⟨-, hu⟩
  · exact ⟨t, ht, h⟩
  · exact ⟨u', hu, .refl⟩

/-- What a task was before its child, or another, was killed. -/
theorem wait_terminate {child j : Nat} {u' : CommandTask}
    (hu' : (s.terminate child).tasks j = some u') :
    ∃ u, s.tasks j = some u ∧ (u' = u ∨ u' = u.killed) := by
  cases hu : s.tasks j with
  | none =>
    rw [terminate_none hu] at hu'
    cases hu'
  | some u =>
    obtain ⟨v, hv, hkilled⟩ := AgentState.terminate_task child hu
    obtain rfl : u' = v := Option.some.inj (hu'.symm.trans hv)
    exact ⟨u, rfl, hkilled⟩

theorem wait_of_step (hstep : CommandStep s e s') {j : Nat} {u' : CommandTask}
    (hu' : s'.tasks j = some u') :
    (∃ id params, u' = .spawn id params) ∨ ∃ u, s.tasks j = some u ∧ WaitBefore s e j u u' := by
  cases CommandEffect.of_step hstep with
  | @start k id params hnew =>
    rcases AgentState.task_update hu' with ⟨rfl, rfl⟩ | ⟨-, hu⟩
    · exact .inl ⟨id, params, rfl⟩
    · exact .inr ⟨u', hu, .refl⟩
  | @track k t ht =>
    refine .inr (wait_update ht hu' (.moved fun child => ?_))
    split <;> nofun
  | register ht => exact .inr (wait_update ht hu' (.moved nofun))
  | print ht => exact .inr (wait_update ht hu' ⟨fun _ h => .inl h, .inl⟩)
  | eof ht => exact .inr (wait_update ht hu' (.moved nofun))
  | @lookup k child t ht _ _ hchild =>
    refine .inr (wait_update ht hu' ⟨fun c hc => .inr ⟨rfl, ?_⟩, .inl⟩)
    rw [hchild, CommandPhase.waiting.inj hc]
  | lookupFails ht => exact .inr (wait_update ht hu' (.moved nofun))
  | reap ht => exact .inr (wait_update ht hu' (.moved nofun))
  | waitFails ht => exact .inr (wait_update ht hu' (.moved nofun))
  | deadline ht => exact .inr (wait_update ht hu' (.moved nofun))
  | @kill k child t t' ht _ _ _ ht' _ =>
    rcases AgentState.task_update hu' with ⟨rfl, rfl⟩ | ⟨-, hv⟩
    · obtain ⟨u, hu, hkilled⟩ := wait_terminate ht'
      refine .inr ⟨u, hu, nofun, fun hlinger => ?_⟩
      rcases hkilled with rfl | rfl
      · exact .inl hlinger
      · have hnone := (CommandTask.lingers_iff.mp hlinger).2
        cases hnone
    · obtain ⟨u, hu, rfl | rfl⟩ := wait_terminate hv
      · exact .inr ⟨_, hu, .refl⟩
      · exact .inr ⟨u, hu, .killed⟩
  | killFails ht => exact .inr (wait_update ht hu' (.moved nofun))
  | finishBackground ht => exact .inr (wait_update ht hu' (.moved nofun))
  | finishFailed ht => exact .inr (wait_update ht hu' (.moved nofun))
  | finish ht => exact .inr (wait_update ht hu' (.moved nofun))
  | @exits k code t ht =>
    refine .inr (wait_update ht hu' ⟨fun _ h => .inl h, fun hlinger => ?_⟩)
    have hnone := (CommandTask.lingers_iff.mp hlinger).2
    cases hnone
  | @closes k t ht =>
    refine .inr (wait_update ht hu' ⟨fun _ h => .inl h, fun hlinger => .inr ⟨rfl, ?_⟩⟩)
    exact (CommandTask.lingers_iff.mp hlinger).2
  | killAll =>
    obtain ⟨u, hu, rfl | rfl⟩ := AgentState.task_killAll hu'
    · exact .inr ⟨_, hu, .refl⟩
    · exact .inr ⟨u, hu, .killed⟩

/-- With the lock where it belongs, a task that waits for a child holds it. -/
theorem Holders.awaits (h : Holders s) {child : Nat} (ht : s.tasks k = some t)
    (hwait : t.phase = .waiting child) : s.Awaits k child :=
  ⟨(h k).mpr ⟨t, child, ht, hwait⟩, t, ht, hwait⟩

/-- **One step**: no lingering child is waited for after it, exactly under the condition. -/
theorem noneLingers_step (h : Holders s) (hnone : NoneLingers s) (hstep : CommandStep s e s') :
    NoneLingers s' ↔ WaitsForEnded s e := by
  constructor
  · intro hafter
    cases CommandEffect.of_step hstep with
    | @lookup k child t ht hphase _ hchild =>
      intro u c hu hc hlinger
      obtain rfl : t = u := Option.some.inj (ht.symm.trans hu)
      obtain rfl : child = c := Option.some.inj (hchild.symm.trans hc)
      refine hafter k child ⟨rfl, _, AgentState.put_self s k _, rfl⟩ ?_
      obtain ⟨v, hv, hlinger⟩ := hlinger
      by_cases hk : child = k
      · subst hk
        obtain rfl : t = v := Option.some.inj (ht.symm.trans hv)
        exact ⟨_, AgentState.put_self s child _, hlinger⟩
      · exact ⟨v, (AgentState.put_of_ne hk _).trans hv, hlinger⟩
    | @lookupFails k t ht _ _ hchild =>
      intro u c hu hc
      obtain rfl : t = u := Option.some.inj (ht.symm.trans hu)
      rw [hchild] at hc
      cases hc
    | @closes c t ht _ =>
      intro hruns k hawait
      obtain ⟨hlock, v, hv, hwait⟩ := hawait
      obtain ⟨u, hu, hruns⟩ := hruns
      obtain rfl : t = u := Option.some.inj (ht.symm.trans hu)
      refine hafter k c ⟨hlock, ?_⟩
        ⟨_, AgentState.put_self s c _, CommandTask.lingers_iff.mpr ⟨rfl, hruns⟩⟩
      by_cases hk : k = c
      · subst hk
        obtain rfl : t = v := Option.some.inj (ht.symm.trans hv)
        exact ⟨_, AgentState.put_self s k _, hwait⟩
      · exact ⟨v, (AgentState.put_of_ne hk _).trans hv, hwait⟩
    | _ => trivial
  · intro hC k child hawait hlinger
    obtain ⟨-, u', hu', hwait'⟩ := hawait
    obtain ⟨v', hv', hlinger'⟩ := hlinger
    rcases wait_of_step hstep hu' with ⟨id, params, rfl⟩ | ⟨u, hu, hbefore⟩
    · cases hwait'
    rcases wait_of_step hstep hv' with ⟨id, params, rfl⟩ | ⟨v, hv, hbefore'⟩
    · cases hlinger'
    rcases hbefore.waits child hwait' with hwait | ⟨rfl, hchild⟩
    · have hawait := h.awaits hu hwait
      rcases hbefore'.lingers hlinger' with hlinger | ⟨rfl, hruns⟩
      · exact hnone k child hawait ⟨v, hv, hlinger⟩
      · exact hC ⟨v, hv, hruns⟩ k hawait
    · rcases hbefore'.lingers hlinger' with hlinger | ⟨heq, -⟩
      · exact hC u child hu hchild ⟨v, hv, hlinger⟩
      · cases heq

theorem noneLingers_new (h : NoCommands s) : NoneLingers s := by
  subst h
  intro k child hawait
  cases hawait.1

/-- **When commands are independent.** In every state of a run no child that has closed its output
    and not exited disables a step of another command, or `kill_all`, exactly when every step of the
    run meets the condition. -/
theorem commands_independent_iff {hist : List (AgentState × CommandEvent)}
    (h : Run NoCommands CommandStep hist s) :
    (∀ u ∈ visited hist s, Independent u) ↔ ∀ x ∈ hist, WaitsForEnded x.1 x.2 := by
  have hinv : ∀ u ∈ visited hist s, Holders u := fun u hu => by
    obtain ⟨earlier, hrun⟩ := h.of_visited hu
    exact hrun.invariant (fun _ => holders_new) fun _ _ _ hI hs => holders_step hI hs
  rw [← h.all_states_iff (C := WaitsForEnded) (P := NoneLingers) (fun _ => holders_new)
    (fun _ _ _ hI hs => holders_step hI hs) (fun _ => noneLingers_new)
    fun _ _ _ hI hP hs => noneLingers_step hI hP hs]
  exact forall₂_congr fun u hu => independent_iff (hinv u hu)

end Runs

/-- A request that is waited for, to run a command with a deadline. -/
def sleepFor (secs : Nat) : RunCommandParams :=
  ⟨"sleep 60", none, none, some secs, none, none⟩

theorem commands_independent_one : Independent (replay AgentState.next .new oneCommand).2 := by
  have hok : Permitted AgentState.permits AgentState.next .new oneCommand := by decide
  have hrun := Run.of_replay (show NoCommands .new from rfl) hok
  refine (commands_independent_iff hrun).mpr ?_ _ List.mem_cons_self
  intro x hx
  simp only [oneCommand, replay, List.mem_cons, List.not_mem_nil, or_false] at hx
  rcases hx with rfl | rfl | rfl | rfl | rfl | rfl | rfl | rfl | rfl
  case inr.inr.inl =>
    -- the child has exited when its task looks it up
    intro t child ht hchild hlinger
    obtain rfl : t = ⟨1, true, false, .locking, "", true, some (some 0)⟩ :=
      Option.some.inj (ht.symm.trans (by decide))
    obtain rfl : child = 0 := Option.some.inj (hchild.symm.trans (by decide))
    exact absurd hlinger (by decide)
  case inr.inr.inr.inr.inl => exact fun hruns => absurd hruns (by decide)
  all_goals trivial

/-- Four commands, newest step first: the first has closed its output and runs on, the second was
    just spawned, the third is past its deadline, and the fourth has come to its end. -/
def fourCommands : List CommandEvent :=
  [.lookup 0, .eof 0, .closes 0,
    .exits 3 (some 0), .eof 3, .closes 3, .track 3, .start 3 13 (sleepFor 0),
    .deadline 2, .track 2, .start 2 12 (sleepFor 5),
    .start 1 11 (sleepFor 0),
    .track 0, .start 0 10 (sleepFor 0)]

/-- **A child that lingers blocks all others**: the registration of one command, the kill of another
    at its deadline, the exit status of a third, and the `kill_all` of a disconnect. -/
theorem lingering_child_blocks : ∃ hist s, Run NoCommands CommandStep hist s ∧ ¬ Independent s ∧
    Disables s 0 (.track 1) ∧ Disables s 0 (.kill 2) ∧ Disables s 0 (.lookup 3) ∧
    Disables s 0 .killAll := by
  have hok : Permitted AgentState.permits AgentState.next .new fourCommands := by decide
  have hrun := Run.of_replay (show NoCommands .new from rfl) hok
  have hblocked : Disables (replay AgentState.next .new fourCommands).2 0 .killAll :=
    ⟨by decide, none, by decide⟩
  refine ⟨_, _, hrun, fun hind => ?_, ⟨by decide, none, by decide⟩, ⟨by decide, none, by decide⟩,
    ⟨by decide, none, by decide⟩, hblocked⟩
  exact (hind 0 ⟨10, false, false, .waiting 0, "", true, none⟩ (by decide) (by decide)).2 hblocked

end Relayfs

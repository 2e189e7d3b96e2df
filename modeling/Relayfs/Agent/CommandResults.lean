/-
  File:      Relayfs/Agent/CommandResults.lean
  Subject:   WHICH COMMAND A RESULT BELONGS TO (agent/src/commands.rs).

  The execution id of a background command is the number of the request, which every client counts
  from 1, and the agent keeps one map of results for all its connections.

  * `ResultsKept` -- every background command has the entry under its id, and waits for its own
    child;
  * `resultsKept_step` -- a step keeps that, if no child is tracked under an id that is in use;
  * `results_kept` -- then `get_command_result` reports the command for which the id was returned;
  * `second_bridge_takes_result` -- two bridges use the same number.
-/
import Relayfs.Agent.Commands

namespace Relayfs

open Lib

/-! ## 1. Results and their commands -/

/-- What the shared maps hold for a background task. -/
structure KeptTask (commands : Nat → Option Nat) (results : Nat → Option CommandResult) (k : Nat)
    (t : CommandTask) : Prop where
  child : t.phase.lookupAhead = true → commands t.id = some k ∨ commands t.id = none
  awaited : ∀ child, t.phase = .waiting child → child = k
  entry : t.returned = true → results t.id = some (t.result k)
  code : ∀ c, t.phase = .finished (.exited c) ∨ t.phase = .ended (.exited c) → t.status = some c

/-- **The entries belong to the commands whose ids they have.** -/
structure ResultsKept (s : AgentState) : Prop where
  task : ∀ k t, s.tasks k = some t → t.background = true →
    KeptTask s.commands s.results k t
  tracked : ∀ k t, s.tasks k = some t → t.phase = .tracked → t.background = true
  ids : ∀ j k u t, s.tasks j = some u → s.tasks k = some t → u.background = true →
    t.background = true → u.phase ≠ .spawned → t.phase ≠ .spawned → u.id = t.id → j = k

/-- **A new child does not take the id of a background command**: of none whose child is tracked,
    where the new one runs in the background as well; and of none that still has to look its child
    up, where the new one is waited for. -/
def IdFree (s : AgentState) (e : CommandEvent) : Prop :=
  ∀ k t, e = .track k → s.tasks k = some t → ∀ j u, j ≠ k → s.tasks j = some u →
    u.background = true → u.phase ≠ .spawned → u.id = t.id →
    t.background = false ∧ u.phase.lookupAhead = false

section Kept

variable {s s' : AgentState} {k : Nat} {t t' : CommandTask}

/-- **One task changes, and perhaps the maps.** -/
theorem ResultsKept.update (h : ResultsKept s) (ht : s.tasks k = some t)
    (htasks : s'.tasks = Function.update s.tasks k (some t')) (hid : t'.id = t.id)
    (hback : t'.background = t.background)
    (htracked : t'.phase = .tracked → t'.background = true)
    (hids : t'.phase ≠ .spawned → t.phase ≠ .spawned ∨ ∀ j u, j ≠ k → s.tasks j = some u →
      u.background = true → t.background = true → u.phase ≠ .spawned → u.id ≠ t.id)
    (hother : ∀ j u, j ≠ k → s.tasks j = some u → u.background = true →
      KeptTask s.commands s.results j u → KeptTask s'.commands s'.results j u)
    (hown : t'.background = true → KeptTask s.commands s.results k t →
      KeptTask s'.commands s'.results k t') : ResultsKept s' := by
  have hcases : ∀ j u, s'.tasks j = some u → (j = k ∧ u = t') ∨ (j ≠ k ∧ s.tasks j = some u) := by
    intro j u hu
    rw [htasks] at hu
    exact AgentState.task_update hu
  -- two background tasks with one id, one of which is the changed one
  have hclash : ∀ j u, j ≠ k → s.tasks j = some u → u.background = true →
      t'.background = true → u.phase ≠ .spawned → t'.phase ≠ .spawned → u.id ≠ t'.id := by
    intro j u hj hu hub htb hup htp heq
    rw [hid] at heq
    rw [hback] at htb
    rcases hids htp with hp | hfree
    · exact hj (h.ids j k u t hu ht hub htb hup hp heq)
    · exact hfree j u hj hu hub htb hup heq
  constructor
  · intro j u hu hub
    rcases hcases j u hu with ⟨rfl, rfl⟩ | ⟨hj, hu⟩
    · exact hown hub (h.task j t ht (hback ▸ hub))
    · exact hother j u hj hu hub (h.task j u hu hub)
  · intro j u hu hp
    rcases hcases j u hu with ⟨rfl, rfl⟩ | ⟨hj, hu⟩
    · exact htracked hp
    · exact h.tracked j u hu hp
  · intro j i u v hu hv hub hvb hup hvp heq
    rcases hcases j u hu with ⟨rfl, rfl⟩ | ⟨hj, hu⟩
    · rcases hcases i v hv with ⟨rfl, -⟩ | ⟨hi, hv⟩
      · rfl
      · exact absurd heq.symm (hclash i v hi hv hvb hub hvp hup)
    · rcases hcases i v hv with ⟨rfl, rfl⟩ | ⟨hi, hv⟩
      · exact absurd heq (hclash j u hj hu hub hvb hup hvp)
      · exact h.ids j i u v hu hv hub hvb hup hvp heq

/-- A task changes and the maps stay. -/
theorem ResultsKept.put (h : ResultsKept s) (ht : s.tasks k = some t) (t' : CommandTask)
    (hid : t'.id = t.id) (hback : t'.background = t.background)
    (htracked : t'.phase = .tracked → t.phase = .tracked)
    (hspawned : t'.phase ≠ .spawned → t.phase ≠ .spawned)
    (hown : KeptTask s.commands s.results k t → KeptTask s.commands s.results k t')
    (lock : Option Nat) : ResultsKept { s.put k t' with lock } :=
  h.update ht rfl hid hback (fun hp => by rw [hback]; exact h.tracked k t ht (htracked hp))
    (fun hp => .inl (hspawned hp)) (fun _ _ _ _ _ hu => hu) fun _ hk => hown hk

/-- Until it has ended, the entry of a task says nothing. -/
theorem result_running (h : ∀ outcome, t.phase ≠ .ended outcome) :
    t.result k = ⟨false, none, false, k⟩ := by
  unfold CommandTask.result
  cases hp : t.phase with
  | ended outcome => exact absurd hp (h outcome)
  | _ => rfl

variable {commands : Nat → Option Nat} {results : Nat → Option CommandResult}

/-- The request has been answered, and its task has not come to an end. -/
def CommandPhase.underway : CommandPhase → Bool
  | streaming | locking | waiting _ | timingOut | finished _ => true
  | spawned | tracked | ended _ | panicked => false

theorem CommandTask.of_underway (h : t.phase.underway = true) :
    t.returned = true ∧ t.phase ≠ .spawned ∧ ∀ outcome, t.phase ≠ .ended outcome := by
  unfold CommandTask.returned
  cases hp : t.phase with
  | streaming | locking | waiting | timingOut | finished => exact ⟨rfl, nofun, nofun⟩
  | _ =>
    rw [hp] at h
    cases h

/-- A task that is under way moves on. -/
theorem KeptTask.move (h : KeptTask commands results k t) {phase : CommandPhase}
    (hunder : t.phase.underway = true) (hended' : ∀ outcome, phase ≠ .ended outcome)
    (hahead : phase.lookupAhead = true → t.phase.lookupAhead = true)
    (hawaited : ∀ child, phase = .waiting child → child = k)
    (hcode : ∀ c, phase = .finished (.exited c) → t.status = some c) :
    KeptTask commands results k { t with phase } where
  child hp := h.child (hahead hp)
  awaited := hawaited
  entry _ := by
    obtain ⟨hreturned, -, hended⟩ := CommandTask.of_underway hunder
    rw [result_running hended', ← result_running hended]
    exact h.entry hreturned
  code c hp := hp.elim (hcode c) fun hp => absurd hp (hended' _)

/-- The child does something, or is killed. -/
theorem KeptTask.child_acts (h : KeptTask commands results k t) (hid : t'.id = t.id)
    (hphase : t'.phase = t.phase) (hstatus : ∀ c, t.status = some c → t'.status = some c) :
    KeptTask commands results k t' := by
  obtain ⟨hchild, hawaited, hentry, hcode⟩ := h
  refine ⟨?_, ?_, fun hr => ?_, fun c hc => ?_⟩
  · rw [hphase, hid]
    exact hchild
  · rw [hphase]
    exact hawaited
  · unfold CommandTask.returned at hr
    rw [hphase] at hr
    unfold CommandTask.result
    rw [hid, hphase]
    exact hentry hr
  · rw [hphase] at hc
    exact hstatus c (hcode c hc)

theorem ResultsKept.terminate (h : ResultsKept s) (child : Nat) :
    ResultsKept (s.terminate child) := by
  rw [AgentState.terminate, AgentState.on]
  split
  · exact h
  · rename_i t ht
    refine h.put ht t.killed rfl rfl id id (fun hk => hk.child_acts rfl rfl fun c hc => ?_) s.lock
    rw [CommandTask.killed, hc, Option.getD_some]

/-- A task that is under way moves on, and perhaps the lock. -/
theorem ResultsKept.move (h : ResultsKept s) (ht : s.tasks k = some t) (phase : CommandPhase)
    (hunder : t.phase.underway = true) (htracked : phase ≠ .tracked)
    (hended' : ∀ outcome, phase ≠ .ended outcome)
    (hahead : phase.lookupAhead = true → t.phase.lookupAhead = true)
    (hawaited : ∀ child, phase = .waiting child → KeptTask s.commands s.results k t → child = k)
    (hcode : ∀ c, phase = .finished (.exited c) → KeptTask s.commands s.results k t →
      t.status = some c)
    (lock : Option Nat) : ResultsKept { s.put k { t with phase } with lock } := by
  have hspawned : t.phase ≠ .spawned := (CommandTask.of_underway hunder).2.1
  refine h.put ht { t with phase } rfl rfl (fun hp => absurd hp htracked) (fun _ => hspawned)
    (fun hk => ?_) lock
  exact hk.move hunder hended' hahead (fun child hp => hawaited child hp hk)
    fun c hp => hcode c hp hk

/-- The child that is tracked under one id changes. -/
theorem KeptTask.update_commands (h : KeptTask commands results k t) {id : Nat}
    {child : Option Nat}
    (hid : t.phase.lookupAhead = true → t.id = id → child = some k ∨ child = none) :
    KeptTask (Function.update commands id child) results k t := by
  refine { h with child := fun hahead => ?_ }
  by_cases heq : t.id = id
  · rw [heq, Function.update_self]
    exact hid hahead heq
  · rw [Function.update_of_ne heq]
    exact h.child hahead

/-- A background task writes its entry: the entries of others are under other ids. -/
theorem ResultsKept.update_results (h : ResultsKept s) (ht : s.tasks k = some t)
    (hback : t.background = true) (hspawned : t.phase ≠ .spawned) {j : Nat} {u : CommandTask}
    (hj : j ≠ k) (hu : s.tasks j = some u) (hub : u.background = true)
    (hk : KeptTask s.commands s.results j u) (entry : Option CommandResult) :
    KeptTask s.commands (Function.update s.results t.id entry) j u := by
  refine { hk with entry := fun hr => ?_ }
  have hup : u.phase ≠ .spawned := by
    intro hp
    rw [CommandTask.returned, hp] at hr
    cases hr
  have hne : u.id ≠ t.id := fun heq => hj (h.ids j k u t hu ht hub hback hup hspawned heq)
  rw [Function.update_of_ne hne]
  exact hk.entry hr

theorem ResultsKept.start (h : ResultsKept s) (k id : Nat) (params : RunCommandParams) :
    ResultsKept (s.put k (.spawn id params)) := by
  have hcases : ∀ j u, (s.put k (.spawn id params)).tasks j = some u →
      (u = .spawn id params) ∨ s.tasks j = some u := fun j u hu =>
    (AgentState.task_update hu).imp And.right And.right
  refine ⟨fun j u hu hub => ?_, fun j u hu hp => ?_, fun j i u v hu hv hub hvb hup hvp heq => ?_⟩
  · rcases hcases j u hu with rfl | hu
    · exact ⟨fun hp => (by cases hp), fun _ hp => (by cases hp), fun hr => (by cases hr),
        fun _ hp => (by rcases hp with hp | hp <;> cases hp)⟩
    · exact h.task j u hu hub
  · rcases hcases j u hu with rfl | hu
    · cases hp
    · exact h.tracked j u hu hp
  · rcases hcases j u hu with rfl | hu
    · exact absurd rfl hup
    · rcases hcases i v hv with rfl | hv
      · exact absurd rfl hvp
      · exact h.ids j i u v hu hv hub hvb hup hvp heq

theorem ResultsKept.track (h : ResultsKept s) (ht : s.tasks k = some t)
    (hfree : ∀ j u, j ≠ k → s.tasks j = some u → u.background = true → u.phase ≠ .spawned →
      u.id = t.id → t.background = false ∧ u.phase.lookupAhead = false) :
    ResultsKept
      { s.put k { t with phase := if t.background then .tracked else .streaming } with
        commands := Function.update s.commands t.id (some k) } := by
  refine h.update ht rfl rfl rfl (fun hp => ?_) (fun _ => .inr ?_) (fun j u hj hu hub hk => ?_)
    fun hb hk => ?_
  · cases hb : t.background with
    | true => rfl
    | false =>
      simp only [hb] at hp
      cases hp
  · intro j u hj hu hub htb hup heq
    have hwait := (hfree j u hj hu hub hup heq).1
    rw [htb] at hwait
    cases hwait
  · -- another task with this id looks nothing up any more
    refine hk.update_commands fun hahead heq => ?_
    have hup : u.phase ≠ .spawned := fun hp => by
      rw [hp] at hahead
      cases hahead
    have hpast := (hfree j u hj hu hub hup heq).2
    rw [hahead] at hpast
    cases hpast
  · have hb : t.background = true := hb
    rw [hb, if_pos rfl]
    refine ⟨fun _ => .inl ?_, fun _ hp => (by cases hp), fun hr => (by cases hr),
      fun _ hp => (by rcases hp with hp | hp <;> cases hp)⟩
    show Function.update s.commands t.id (some k) t.id = some k
    rw [Function.update_self]

theorem ResultsKept.register (h : ResultsKept s) (ht : s.tasks k = some t)
    (hphase : t.phase = .tracked) :
    ResultsKept
      { s.put k { t with phase := .streaming } with
        results := Function.update s.results t.id (some ⟨false, none, false, k⟩) } := by
  have htb := h.tracked k t ht hphase
  have htp : t.phase ≠ .spawned := by rw [hphase]; nofun
  refine h.update ht rfl rfl rfl (fun hp => (by cases hp)) (fun _ => .inl htp)
    (fun j u hj hu hub hk => h.update_results ht htb htp hj hu hub hk _) fun _ hk => ?_
  refine ⟨fun _ => hk.child (by rw [hphase]; rfl), fun _ hp => (by cases hp), fun _ => ?_,
    fun _ hp => (by rcases hp with hp | hp <;> cases hp)⟩
  show Function.update s.results t.id _ t.id = _
  rw [Function.update_self]
  rfl

theorem ResultsKept.finishBackground (h : ResultsKept s) (ht : s.tasks k = some t)
    {outcome : Completion} (hphase : t.phase = .finished outcome) (htb : t.background = true) :
    ResultsKept
      { s.put k { t with phase := .ended outcome } with
        results := Function.update s.results t.id
          ((s.results t.id).map (·.complete outcome)) } := by
  have htp : t.phase ≠ .spawned := by rw [hphase]; nofun
  refine h.update ht rfl rfl rfl nofun (fun _ => .inl htp)
    (fun j u hj hu hub hk => h.update_results ht htb htp hj hu hub hk _) fun _ hk => ?_
  have hentry := hk.entry (by rw [CommandTask.returned, hphase])
  rw [result_running (by rw [hphase]; nofun)] at hentry
  refine ⟨nofun, nofun, fun _ => ?_, fun c hc => ?_⟩
  · show Function.update s.results t.id _ t.id = _
    rw [Function.update_self, hentry]
    rfl
  · rcases hc with hc | hc
    · cases hc
    · exact hk.code c (.inl (by rw [hphase, CommandPhase.ended.inj hc]))

theorem ResultsKept.killAll (h : ResultsKept s) : ResultsKept (s.next .killAll) := by
  have hlost : ∀ j u, KeptTask s.commands s.results j u →
      KeptTask (fun _ => none) s.results j u := fun j u hk =>
    { hk with child := fun _ => .inr rfl }
  refine ⟨fun j u hu hub => ?_, fun j u hu hp => ?_, fun j i u v hu hv hub hvb hup hvp heq => ?_⟩
  · obtain ⟨t, ht, rfl | rfl⟩ := AgentState.task_killAll hu
    · exact hlost j _ (h.task j _ ht hub)
    · refine (hlost j t (h.task j t ht hub)).child_acts rfl rfl fun c hc => ?_
      rw [CommandTask.killed, hc, Option.getD_some]
  · obtain ⟨t, ht, rfl | rfl⟩ := AgentState.task_killAll hu
    · exact h.tracked j _ ht hp
    · exact h.tracked j t ht hp
  · obtain ⟨t, ht, htu⟩ := AgentState.task_killAll hu
    obtain ⟨w, hw, hwv⟩ := AgentState.task_killAll hv
    refine h.ids j i t w ht hw ?_ ?_ ?_ ?_ ?_
    all_goals rcases htu with rfl | rfl <;> rcases hwv with rfl | rfl <;> assumption

/-- **A step whose child takes no other's id keeps every entry with its command.** -/
theorem resultsKept_step {e : CommandEvent} (h : ResultsKept s) (hfree : IdFree s e)
    (hstep : CommandStep s e s') : ResultsKept s' := by
  cases CommandEffect.of_step hstep with
  | @start k id params _ => exact h.start k id params
  | @track k t ht _ _ => exact h.track ht (hfree k t rfl ht)
  | register ht hphase => exact h.register ht hphase
  | @print k line t ht =>
    exact h.put ht { t with output := t.output ++ line ++ "\n" } rfl rfl id id
      (fun hk => hk.child_acts rfl rfl fun _ hc => hc) s.lock
  | eof ht hphase =>
    exact h.move ht .locking (by rw [hphase]; rfl) nofun nofun
      (fun _ => by rw [hphase]; rfl) nofun nofun s.lock
  | @lookup k child t ht hphase _ hchild =>
    refine h.move ht (.waiting child) (by rw [hphase]; rfl) nofun nofun
      (fun _ => by rw [hphase]; rfl) (fun c hc hk => ?_) nofun (some k)
    -- the child under this id is its own
    obtain rfl := CommandPhase.waiting.inj hc
    rcases hk.child (by rw [hphase]; rfl) with hown | hnone
    · exact Option.some.inj (hchild.symm.trans hown)
    · rw [hchild] at hnone
      cases hnone
  | lookupFails ht hphase =>
    exact h.move ht .panicked (by rw [hphase]; rfl) nofun nofun nofun nofun nofun s.lock
  | @reap k child code t ht hphase hcode =>
    refine h.move ht (.finished (.exited code)) (by rw [hphase]; rfl) nofun nofun nofun nofun
      (fun c hc hk => ?_) none
    rw [AgentState.exitCode, hk.awaited child hphase, ht] at hcode
    rw [← Completion.exited.inj (CommandPhase.finished.inj hc)]
    exact hcode
  | waitFails ht hphase =>
    exact h.move ht (.finished .failed) (by rw [hphase]; rfl) nofun nofun nofun nofun nofun none
  | @deadline k t ht _ hphase =>
    have hp : t.phase.underway = true ∧ t.phase.lookupAhead = true := by
      cases hp : t.phase with
      | streaming | locking | waiting => exact ⟨rfl, rfl⟩
      | _ =>
        rw [hp] at hphase
        cases hphase
    exact h.move ht .timingOut hp.1 nofun nofun (fun _ => hp.2) nofun nofun _
  | @kill k child t t' ht hphase _ _ ht' hkilled =>
    have hphase' : t'.phase = .timingOut := by
      rcases hkilled with rfl | rfl
      · exact hphase
      · exact hphase
    exact (h.terminate child).move ht' (.finished .timedOut) (by rw [hphase']; rfl) nofun nofun
      nofun nofun nofun _
  | killFails ht hphase =>
    exact h.move ht .panicked (by rw [hphase]; rfl) nofun nofun nofun nofun nofun s.lock
  | finishBackground ht hphase htb => exact h.finishBackground ht hphase htb
  | @finishFailed k t ht hphase htb =>
    exact h.update ht rfl rfl rfl nofun (fun _ => .inl (by rw [hphase]; nofun))
      (fun _ _ _ _ _ hk => hk) fun hb _ => by rw [htb] at hb; cases hb
  | @finish k t outcome ht hphase htb =>
    -- at worst the child of another task is no longer tracked
    exact h.update ht rfl rfl rfl nofun (fun _ => .inl (by rw [hphase]; nofun))
      (fun _ _ _ _ _ hk => hk.update_commands fun _ _ => .inr rfl)
      fun hb _ => (by rw [htb] at hb; cases hb)
  | @exits k code t ht hruns =>
    refine h.put ht { t with status := some code } rfl rfl id id
      (fun hk => hk.child_acts rfl rfl fun c hc => ?_) s.lock
    rw [hruns] at hc
    cases hc
  | @closes k t ht =>
    exact h.put ht { t with closed := true } rfl rfl id id
      (fun hk => hk.child_acts rfl rfl fun _ hc => hc) s.lock
  | killAll => exact h.killAll

end Kept

/-! ## 2. Runs -/

theorem resultsKept_new {s : AgentState} (h : NoCommands s) : ResultsKept s := by
  subst h
  have hnone : ∀ k t, AgentState.new.tasks k ≠ some t := fun k t ht => by cases ht
  exact ⟨fun k t ht => absurd ht (hnone k t), fun k t ht => absurd ht (hnone k t),
    fun j _ u _ hu => absurd hu (hnone j u)⟩

/-- **An execution id stands for the command it was returned for**, in every run in which no child is
    tracked under an id that is in use: the entry is that command's own, with the exit code of its
    own child, and this is what `get_command_result` tells. -/
theorem results_kept {hist : List (AgentState × CommandEvent)} {s : AgentState}
    (h : Run NoCommands CommandStep hist s) (hfree : ∀ x ∈ hist, IdFree x.1 x.2) :
    ∀ u ∈ visited hist s, ∀ k t, u.tasks k = some t → t.background = true → t.returned = true →
      u.results t.id = some (t.result k) ∧
      (∀ c, t.phase = .ended (.exited c) → t.status = some c) ∧
      ∀ params, params.executionId = t.id → getCommandResult u params = .ok (t.report params) := by
  have hkept := h.invariant_of_steps (fun _ => resultsKept_new)
    (fun _ _ _ hI hC hs => resultsKept_step hI hC hs) hfree
  intro u hu k t ht hback hreturned
  have htask := (hkept u hu).task k t ht hback
  have hentry := htask.entry hreturned
  exact ⟨hentry, fun c hc => htask.code c (.inr hc), fun params hid =>
    getCommandResult_eq ht hentry hid⟩

/-- The request to run `true` in the background. -/
def trueInBackground : RunCommandParams := ⟨"true", none, none, none, none, some false⟩

/-- One command runs in the background to its end, newest step first. -/
def oneCommand : List CommandEvent :=
  [.finish 0, .reap 0, .lookup 0, .eof 0, .closes 0, .exits 0 (some 0), .register 0, .track 0,
    .start 0 1 trueInBackground]

theorem results_kept_one : ∃ hist s, Run NoCommands CommandStep hist s ∧
    getCommandResult s ⟨1, none, none⟩ = .ok ⟨true, some 0, some false, ""⟩ := by
  have hok : Permitted AgentState.permits AgentState.next .new oneCommand := by decide
  have hstart : NoCommands .new := rfl
  have hrun := Run.of_replay hstart hok
  have hfree : ∀ x ∈ (replay AgentState.next .new oneCommand).1, IdFree x.1 x.2 := by
    intro x hx k t he
    simp only [oneCommand, replay, List.mem_cons, List.not_mem_nil, or_false] at hx
    rcases hx with rfl | rfl | rfl | rfl | rfl | rfl | rfl | rfl | rfl <;> cases he
    intro _ j u hj hu
    rw [AgentState.next, AgentState.put_of_ne hj] at hu
    cases hu
  have hkept := results_kept hrun hfree _ List.mem_cons_self 0
    ⟨1, true, false, .ended (.exited (some 0)), "", true, some (some 0)⟩ (by decide) rfl rfl
  exact ⟨_, _, hrun, hkept.2.2 ⟨1, none, none⟩ rfl⟩

/-- **A second bridge takes over an execution id.** The first command has ended with code 0; then
    another bridge sends its own first request, and the result of the first is gone. -/
theorem second_bridge_takes_result : ∃ hist s, Run NoCommands CommandStep hist s ∧
    ∃ u ∈ visited hist s, ∃ k t, u.tasks k = some t ∧ t.background = true ∧
      t.phase = .ended (.exited (some 0)) ∧
      getCommandResult u ⟨t.id, none, none⟩ = .ok ⟨false, none, none, ""⟩ ∧
      getCommandResult u ⟨t.id, none, none⟩ ≠ .ok (t.report ⟨t.id, none, none⟩) := by
  have hok : Permitted AgentState.permits AgentState.next .new
      ([.register 1, .track 1, .start 1 1 trueInBackground] ++ oneCommand) := by decide
  have hstart : NoCommands .new := rfl
  have hrun := Run.of_replay hstart hok
  have hnow : getCommandResult (replay AgentState.next .new
      ([.register 1, .track 1, .start 1 1 trueInBackground] ++ oneCommand)).2 ⟨1, none, none⟩
      = .ok ⟨false, none, none, ""⟩ := by rfl
  refine ⟨_, _, hrun, _, List.mem_cons_self, 0,
    ⟨1, true, false, .ended (.exited (some 0)), "", true, some (some 0)⟩, by decide, rfl, rfl,
    hnow, ?_⟩
  rw [hnow]
  nofun

end Relayfs

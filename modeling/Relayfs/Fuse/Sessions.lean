/-
  File:      Relayfs/Fuse/Sessions.lean
  Subject:   THE SESSIONS OF ONE MOUNT POINT (bridge/src/fuse_fs.rs, `MountManager`): any number of
             `mount` and `unmount` calls for it, in any interleaving.

  A session is a mount in the kernel and a handle to it. To unmount or drop the handle unmounts
  whatever lies on top at the path, and so does `fusermount3 -u -z`. The lock of `mounts` is held
  while a session is taken out of it and retired, and while a new one replaces another; not while
  a call clears the path, asks the target and mounts.

  * `MountManager`, `ManagerStep` -- the recorded session, the kernel's mounts, the calls;
  * `Undisturbed` -- a step that clears the path finds no session live, one that mounts finds none
    around;
  * `sessions_kept` -- in a run of such steps no session is dropped while a newer one is live, and
    a session whose `mount` returned stays live until a call takes it out;
  * `mounts_race` -- two `mount` calls at once leave nothing mounted.
-/
import Relayfs.Lib.Run

namespace Relayfs

open Lib

/-! ## 1. The manager -/

/-- Where a call of `mount` or `unmount` is. A session that a call has in its hands stands with
    it. -/
inductive ManagerCall where
  | idle
  /-- `mount`: before it looks for a previous session; with that session, to unmount it; before
      `fusermount3`; before it asks the target and mounts; with its new session; after it has
      recorded it, with the session it has replaced; returned `Ok`. -/
  | mounting
  | retiring (old : Nat)
  | clearing
  | checking
  | spawned (session : Nat)
  | replacing (session old : Nat)
  | mounted (session : Nat)
  /-- `unmount`: before it looks for the session; with it; before `fusermount3`; returned `Ok`. -/
  | unmounting
  | ending (old : Nat)
  | sweeping
  | unmounted
  /-- Returned `Err`. -/
  | failed (error : String)

/-- The session a call has in its hands. -/
def ManagerCall.hand : ManagerCall → Option Nat
  | retiring old | replacing _ old | ending old => some old
  | spawned session => some session
  | _ => none

/-- `MountManager`, as far as one mount point goes: the session that `mounts` has for it, the call
    that holds the lock, what is mounted at the path, top first (`none` is a mount of somebody
    else), and the calls. Sessions are numbered in the order of their creation. -/
structure MountManager where
  recorded : Option Nat
  lock : Option Nat
  stack : List (Option Nat)
  created : Nat
  calls : Nat → ManagerCall

namespace MountManager

/-- A session is live: its mount is in the kernel. -/
def Live (st : MountManager) (session : Nat) : Prop := some session ∈ st.stack

def setCall (st : MountManager) (c : Nat) (call : ManagerCall) : MountManager :=
  { st with calls := Function.update st.calls c call }

/-- The mount on top of the path is unmounted. -/
def pop (st : MountManager) : MountManager := { st with stack := st.stack.tail }

end MountManager

/-- The error of `unmount` where nothing is recorded. -/
def noMount (mountPoint : String) : String := "no mount at " ++ mountPoint

inductive ManagerEvent where
  | mount (c : Nat)
  | unmount (c : Nat)
  /-- A call takes the lock and the recorded session. -/
  | take (c : Nat)
  /-- A call unmounts or drops the session it has in its hands; `unmount` may be told of an
      error. -/
  | drop (c : Nat) (error : Option String)
  /-- `fusermount3`, and whether it could unmount. -/
  | clear (c : Nat) (done : Bool)
  /-- The target or the file system refuses the mount. -/
  | refuse (c : Nat) (error : String)
  | spawn (c : Nat)
  | record (c : Nat)

/-- **One step of the manager.** -/
inductive ManagerStep (mountPoint : String) :
    MountManager → ManagerEvent → MountManager → Prop where
  | mount {st : MountManager} {c : Nat} (hp : st.calls c = .idle) :
      ManagerStep mountPoint st (.mount c) (st.setCall c .mounting)
  | takeOld {st : MountManager} {c old : Nat} (hp : st.calls c = .mounting)
      (hl : st.lock = none) (hr : st.recorded = some old) :
      ManagerStep mountPoint st (.take c)
        { st.setCall c (.retiring old) with recorded := none, lock := some c }
  | takeNone {st : MountManager} {c : Nat} (hp : st.calls c = .mounting) (hl : st.lock = none)
      (hr : st.recorded = none) :
      ManagerStep mountPoint st (.take c) (st.setCall c .clearing)
  | retire {st : MountManager} {c old : Nat} (hp : st.calls c = .retiring old)
      (error : Option String) :
      ManagerStep mountPoint st (.drop c error)
        { st.pop.setCall c .clearing with lock := none }
  | clear {st : MountManager} {c : Nat} (hp : st.calls c = .clearing) (done : Bool) :
      ManagerStep mountPoint st (.clear c done)
        ((if done then st.pop else st).setCall c .checking)
  | refuse {st : MountManager} {c : Nat} (hp : st.calls c = .checking) (error : String) :
      ManagerStep mountPoint st (.refuse c error) (st.setCall c (.failed error))
  | spawn {st : MountManager} {c : Nat} (hp : st.calls c = .checking) :
      ManagerStep mountPoint st (.spawn c)
        { st.setCall c (.spawned st.created) with
          stack := some st.created :: st.stack
          created := st.created + 1 }
  | record {st : MountManager} {c session : Nat} (hp : st.calls c = .spawned session)
      (hl : st.lock = none) (hr : st.recorded = none) :
      ManagerStep mountPoint st (.record c)
        { st.setCall c (.mounted session) with recorded := some session }
  | replace {st : MountManager} {c session old : Nat} (hp : st.calls c = .spawned session)
      (hl : st.lock = none) (hr : st.recorded = some old) :
      ManagerStep mountPoint st (.record c)
        { st.setCall c (.replacing session old) with recorded := some session, lock := some c }
  | dropOld {st : MountManager} {c session old : Nat} (hp : st.calls c = .replacing session old)
      (error : Option String) :
      ManagerStep mountPoint st (.drop c error)
        { st.pop.setCall c (.mounted session) with lock := none }
  | unmount {st : MountManager} {c : Nat} (hp : st.calls c = .idle) :
      ManagerStep mountPoint st (.unmount c) (st.setCall c .unmounting)
  | unmountOld {st : MountManager} {c old : Nat} (hp : st.calls c = .unmounting)
      (hl : st.lock = none) (hr : st.recorded = some old) :
      ManagerStep mountPoint st (.take c)
        { st.setCall c (.ending old) with recorded := none, lock := some c }
  | unmountNone {st : MountManager} {c : Nat} (hp : st.calls c = .unmounting)
      (hl : st.lock = none) (hr : st.recorded = none) :
      ManagerStep mountPoint st (.take c) (st.setCall c (.failed (noMount mountPoint)))
  | endOk {st : MountManager} {c old : Nat} (hp : st.calls c = .ending old) :
      ManagerStep mountPoint st (.drop c none) (st.pop.setCall c .sweeping)
  | endError {st : MountManager} {c old : Nat} (hp : st.calls c = .ending old) (error : String) :
      ManagerStep mountPoint st (.drop c (some error))
        { st.pop.setCall c (.failed ("unmount failed: " ++ error)) with lock := none }
  | sweep {st : MountManager} {c : Nat} (hp : st.calls c = .sweeping) (done : Bool) :
      ManagerStep mountPoint st (.clear c done)
        { (if done then st.pop else st).setCall c .unmounted with lock := none }

/-- A manager without a session for the point; somebody else's mounts may be there. -/
def ManagerInit (st : MountManager) : Prop :=
  st.recorded = none ∧ st.lock = none ∧ (∀ s, ¬ st.Live s) ∧ ∀ c, st.calls c = .idle

abbrev ManagerRun (mountPoint : String) (hist : List (MountManager × ManagerEvent))
    (st : MountManager) : Prop := Run ManagerInit (ManagerStep mountPoint) hist st

/-! ## 2. What is asked of a run -/

/-- **No session is dropped while a newer one is live.** -/
def DropsInOrder (hist : List (MountManager × ManagerEvent)) : Prop :=
  ∀ st c error, (st, .drop c error) ∈ hist → ∀ s, (st.calls c).hand = some s →
    ∀ s', st.Live s' → s' ≤ s

/-- A call has taken the session out of `mounts`. -/
def TakenOut (hist : List (MountManager × ManagerEvent)) (session : Nat) : Prop :=
  ∃ st c, (st, .take c) ∈ hist ∧ st.recorded = some session

/-- **A session whose `mount` has returned `Ok` is live** until a later call takes it out. -/
def StaysMounted (hist : List (MountManager × ManagerEvent)) (st : MountManager) : Prop :=
  ∀ c session, st.calls c = .mounted session → st.Live session ∨ TakenOut hist session

/-- A session is around: recorded, or in the hands of a call. -/
def MountManager.Around (st : MountManager) (session : Nat) : Prop :=
  st.recorded = some session ∨ ∃ c, (st.calls c).hand = some session

/-- **The step disturbs no other call**: it clears the path while no session is live there, and it
    mounts while none is live and none around. -/
def Undisturbed (st : MountManager) : ManagerEvent → Prop
  | .clear _ done => done = true → ∀ s, ¬ st.Live s
  | .spawn _ => ∀ s, ¬ st.Live s ∧ ¬ st.Around s
  | _ => True

/-! ## 3. Where the session is -/

/-- In an undisturbed run there is one session at most: nowhere, recorded, or in the hands of a
    call. -/
inductive Whereabouts where
  | nowhere
  | recorded (session : Nat)
  | inHand (c session : Nat)

/-- No session but this one is live, and it has nothing above it. -/
structure MountManager.Sole (st : MountManager) (session : Nat) : Prop where
  only : ∀ s, st.Live s → s = session
  top : ∀ s, some s ∉ st.stack.tail

/-- What each place means for the state. A recorded session is live, and so is a new one. -/
def MountManager.At (st : MountManager) : Whereabouts → Prop
  | .nowhere => st.recorded = none ∧ (∀ c, (st.calls c).hand = none) ∧ ∀ s, ¬ st.Live s
  | .recorded s => st.recorded = some s ∧ (∀ c, (st.calls c).hand = none) ∧ st.Live s ∧ st.Sole s
  | .inHand c s => st.recorded = none ∧ (st.calls c).hand = some s ∧
      (∀ c', c' ≠ c → (st.calls c').hand = none) ∧ st.Sole s ∧
      (st.calls c = .spawned s → st.Live s)

section At

variable {st : MountManager} {w : Whereabouts} {c s : Nat} {call : ManagerCall}

theorem MountManager.setCall_self : (st.setCall c call).calls c = call := by
  simp [MountManager.setCall]

theorem MountManager.setCall_ne {c' : Nat} (h : c' ≠ c) :
    (st.setCall c call).calls c' = st.calls c' := by
  simp [MountManager.setCall, h]

theorem MountManager.At.of_recorded (h : st.At w) (hr : st.recorded = some s) :
    st.At (.recorded s) := by
  cases w with
  | nowhere => rw [h.1] at hr; cases hr
  | recorded s' =>
    rw [h.1] at hr
    cases hr
    exact h
  | inHand c s' => rw [h.1] at hr; cases hr

theorem MountManager.At.of_hand (h : st.At w) (hc : (st.calls c).hand = some s) :
    st.At (.inHand c s) := by
  cases w with
  | nowhere => rw [h.2.1] at hc; cases hc
  | recorded s' => rw [h.2.1] at hc; cases hc
  | inHand c' s' =>
    by_cases hcc : c = c'
    · subst hcc
      rw [h.2.1] at hc
      cases hc
      exact h
    · rw [h.2.2.1 c hcc] at hc
      cases hc

theorem MountManager.At.of_clear (h : st.At w) (hclear : ∀ s, ¬ st.Live s ∧ ¬ st.Around s) :
    st.At .nowhere := by
  cases w with
  | nowhere => exact h
  | recorded s => exact absurd (.inl h.1) (hclear s).2
  | inHand c s => exact absurd (.inr ⟨c, h.2.1⟩) (hclear s).2

theorem MountManager.At.clear (h : st.At .nowhere) (s : Nat) : ¬ st.Live s ∧ ¬ st.Around s := by
  refine ⟨h.2.2 s, fun ha => ?_⟩
  rcases ha with hr | ⟨c, hc⟩
  · rw [h.1] at hr
    cases hr
  · rw [h.2.1 c] at hc
    cases hc

/-- A call without a session goes on. -/
theorem MountManager.At.goOn (h : st.At w) (hc : (st.calls c).hand = none)
    (hcall : call.hand = none) {lock : Option Nat} :
    { st.setCall c call with lock := lock }.At w := by
  have hhand : ∀ c', (({ st.setCall c call with lock := lock } : MountManager).calls c').hand
      = (st.calls c').hand := by
    intro c'
    dsimp only
    by_cases hcc : c' = c
    · subst hcc
      rw [MountManager.setCall_self, hcall, hc]
    · rw [MountManager.setCall_ne hcc]
  cases w with
  | nowhere => exact ⟨h.1, fun c' => (hhand c').trans (h.2.1 c'), h.2.2⟩
  | recorded s =>
    exact ⟨h.1, fun c' => (hhand c').trans (h.2.1 c'), h.2.2.1, ⟨h.2.2.2.only, h.2.2.2.top⟩⟩
  | inHand c' s =>
    have hne : c' ≠ c := by
      intro heq
      subst heq
      rw [h.2.1] at hc
      cases hc
    refine ⟨h.1, (hhand c').trans h.2.1, fun c'' hcc => (hhand c'').trans (h.2.2.1 c'' hcc),
      ⟨h.2.2.2.1.only, h.2.2.2.1.top⟩, fun hs => h.2.2.2.2 ?_⟩
    exact (MountManager.setCall_ne hne).symm.trans hs

/-- Where no session is live, unmounting what is on top touches none. -/
theorem MountManager.At.pop (h : st.At w) (hno : ∀ s, ¬ st.Live s) : st.pop.At w := by
  have hno' : ∀ s, ¬ st.pop.Live s := fun s hs => hno s (List.mem_of_mem_tail hs)
  have htail : ∀ s, some s ∉ st.pop.stack.tail := fun s hs => hno' s (List.mem_of_mem_tail hs)
  cases w with
  | nowhere => exact ⟨h.1, h.2.1, hno'⟩
  | recorded s => exact absurd h.2.2.1 (hno s)
  | inHand c s =>
    exact ⟨h.1, h.2.1, h.2.2.1, ⟨fun s' hs => absurd hs (hno' s'), htail⟩,
      fun hs => absurd (h.2.2.2.2 hs) (hno s)⟩

/-- A call takes the recorded session out, to end it. -/
theorem MountManager.At.take (h : st.At (.recorded s)) (hcall : call.hand = some s)
    (hne : call ≠ .spawned s) {lock : Option Nat} :
    { st.setCall c call with recorded := none, lock := lock }.At (.inHand c s) := by
  refine ⟨rfl, ?_, fun c' hcc => ?_, ⟨h.2.2.2.only, h.2.2.2.top⟩, fun hs => ?_⟩
  · dsimp only
    rw [MountManager.setCall_self, hcall]
  · dsimp only
    rw [MountManager.setCall_ne hcc]
    exact h.2.1 c'
  · dsimp only at hs
    rw [MountManager.setCall_self] at hs
    exact absurd hs hne

/-- A call ends its session: nothing of it is left in the kernel. -/
theorem MountManager.At.drop (h : st.At (.inHand c s)) (hcall : call.hand = none)
    {lock : Option Nat} : { st.pop.setCall c call with lock := lock }.At .nowhere := by
  refine ⟨h.1, fun c' => ?_, fun s' hs => h.2.2.2.1.top s' hs⟩
  dsimp only
  by_cases hcc : c' = c
  · subst hcc
    rw [MountManager.setCall_self, hcall]
  · rw [MountManager.setCall_ne hcc]
    exact h.2.2.1 c' hcc

/-- A call mounts where nothing is. -/
theorem MountManager.At.spawn (h : st.At .nowhere) :
    { st.setCall c (.spawned st.created) with
      stack := some st.created :: st.stack, created := st.created + 1 }.At
      (.inHand c st.created) := by
  have hself : (st.setCall c (.spawned st.created)).calls c = .spawned st.created :=
    MountManager.setCall_self
  refine ⟨h.1, ?_, fun c' hcc => ?_, ⟨fun s hs => ?_, h.2.2⟩, fun _ => List.mem_cons_self⟩
  · dsimp only
    rw [hself]
    rfl
  · dsimp only
    rw [MountManager.setCall_ne hcc]
    exact h.2.1 c'
  · rcases List.mem_cons.mp hs with hs | hs
    · exact Option.some.inj hs
    · exact absurd hs (h.2.2 s)

/-- A call records its new session, and nothing was recorded before. -/
theorem MountManager.At.record (h : st.At (.inHand c s)) (hc : st.calls c = .spawned s) :
    { st.setCall c (.mounted s) with recorded := some s }.At (.recorded s) := by
  refine ⟨rfl, fun c' => ?_, h.2.2.2.2 hc, ⟨h.2.2.2.1.only, h.2.2.2.1.top⟩⟩
  dsimp only
  by_cases hcc : c' = c
  · subst hcc
    rw [MountManager.setCall_self]
    rfl
  · rw [MountManager.setCall_ne hcc]
    exact h.2.2.1 c' hcc

end At

/-! ## 4. Undisturbed runs -/

/-- **The invariant of an undisturbed run**: the session is in one place, no call has replaced
    another's session, and a session whose `mount` returned is recorded or has been taken out. -/
structure ManagerInv (hist : List (MountManager × ManagerEvent)) (st : MountManager) : Prop where
  place : ∃ w, st.At w
  alone : ∀ c session old, st.calls c ≠ .replacing session old
  kept : ∀ c session, st.calls c = .mounted session →
    st.recorded = some session ∨ TakenOut hist session

theorem managerInv_init {st : MountManager} (h : ManagerInit st) : ManagerInv [] st := by
  obtain ⟨hr, -, hlive, hidle⟩ := h
  refine ⟨⟨.nowhere, hr, fun c => ?_, hlive⟩, fun c session old => ?_, fun c session hc => ?_⟩
  · rw [hidle c]
    rfl
  · simp [hidle c]
  · rw [hidle c] at hc
    cases hc

section Steps

variable {mountPoint : String} {hist : List (MountManager × ManagerEvent)}
  {st st' : MountManager} {e : ManagerEvent}

theorem TakenOut.later {session : Nat} {x : MountManager × ManagerEvent}
    (h : TakenOut hist session) : TakenOut (x :: hist) session := by
  obtain ⟨st₀, c, hmem, hr⟩ := h
  exact ⟨st₀, c, List.mem_cons_of_mem _ hmem, hr⟩

/-- A session in a call's hands is not recorded as well. -/
theorem MountManager.At.none_recorded {w : Whereabouts} {c s : Nat} (h : st.At w)
    (hc : (st.calls c).hand = some s) : st.recorded = none := (h.of_hand hc).1

/-- **One step moves the session from one place to another.** -/
theorem ManagerStep.place (hs : ManagerStep mountPoint st e st') (hu : Undisturbed st e)
    (halone : ∀ c session old, st.calls c ≠ .replacing session old) (h : ∃ w, st.At w) :
    ∃ w, st'.At w := by
  obtain ⟨w, hw⟩ := h
  cases hs with
  | mount hp => exact ⟨w, hw.goOn (by rw [hp]; rfl) rfl⟩
  | takeOld hp hl hr =>
    exact ⟨_, (hw.of_recorded hr).take rfl (by simp)⟩
  | takeNone hp hl hr => exact ⟨w, hw.goOn (by rw [hp]; rfl) rfl⟩
  | retire hp error => exact ⟨_, (hw.of_hand (by rw [hp]; rfl)).drop rfl⟩
  | @clear c hp done =>
    have hnone : (st.calls c).hand = none := by rw [hp]; rfl
    cases done with
    | true => exact ⟨w, (hw.pop (hu rfl)).goOn hnone rfl⟩
    | false => exact ⟨w, hw.goOn hnone rfl⟩
  | refuse hp error => exact ⟨w, hw.goOn (by rw [hp]; rfl) rfl⟩
  | spawn hp => exact ⟨_, (hw.of_clear hu).spawn⟩
  | record hp hl hr => exact ⟨_, (hw.of_hand (by rw [hp]; rfl)).record hp⟩
  | replace hp hl hr =>
    rw [hw.none_recorded (by rw [hp]; rfl)] at hr
    cases hr
  | dropOld hp error => exact absurd hp (halone _ _ _)
  | unmount hp => exact ⟨w, hw.goOn (by rw [hp]; rfl) rfl⟩
  | unmountOld hp hl hr => exact ⟨_, (hw.of_recorded hr).take rfl (by simp)⟩
  | unmountNone hp hl hr => exact ⟨w, hw.goOn (by rw [hp]; rfl) rfl⟩
  | endOk hp => exact ⟨_, (hw.of_hand (by rw [hp]; rfl)).drop rfl⟩
  | endError hp error => exact ⟨_, (hw.of_hand (by rw [hp]; rfl)).drop rfl⟩
  | @sweep c hp done =>
    have hnone : (st.calls c).hand = none := by rw [hp]; rfl
    cases done with
    | true => exact ⟨w, (hw.pop (hu rfl)).goOn hnone rfl⟩
    | false => exact ⟨w, hw.goOn hnone rfl⟩

/-- What the calls are after a step: as before, but for the one that made the step. -/
theorem MountManager.calls_cases {c c' : Nat} {call call' : ManagerCall}
    (h : (st.setCall c call).calls c' = call') : st.calls c' = call' ∨ call = call' := by
  by_cases hcc : c' = c
  · subst hcc
    rw [MountManager.setCall_self] at h
    exact .inr h
  · rw [MountManager.setCall_ne hcc] at h
    exact .inl h

theorem ManagerStep.alone (hs : ManagerStep mountPoint st e st') (h : ManagerInv hist st)
    (c session old : Nat) : st'.calls c ≠ .replacing session old := by
  intro hc
  obtain ⟨w, hw⟩ := h.place
  cases hs with
  | replace hp hl hr =>
    rw [hw.none_recorded (by rw [hp]; rfl)] at hr
    cases hr
  | clear hp done | sweep hp done =>
    cases done <;> exact (MountManager.calls_cases hc).elim (h.alone c session old) (by simp)
  | _ => exact (MountManager.calls_cases hc).elim (h.alone c session old) (by simp)

/-- **What a step does to a mounted session's record**: it stays, unless it is taken out. -/
theorem ManagerStep.kept (hs : ManagerStep mountPoint st e st') (h : ManagerInv hist st)
    (c session : Nat) (hc : st'.calls c = .mounted session) :
    st'.recorded = some session ∨ TakenOut ((st, e) :: hist) session := by
  have hstay : st.calls c = .mounted session → st'.recorded = st.recorded →
      st'.recorded = some session ∨ TakenOut ((st, e) :: hist) session := by
    intro hc hr
    rw [hr]
    exact (h.kept c session hc).imp_right TakenOut.later
  have htake : ∀ c', e = .take c' → st.calls c = .mounted session →
      st'.recorded = some session ∨ TakenOut ((st, e) :: hist) session := by
    intro c' he hc
    subst he
    rcases h.kept c session hc with hr | ht
    · exact .inr ⟨st, c', List.mem_cons_self, hr⟩
    · exact .inr ht.later
  cases hs with
  | takeOld hp hl hr | unmountOld hp hl hr =>
    exact (MountManager.calls_cases hc).elim (htake _ rfl) (by simp)
  | record hp hl hr =>
    rcases MountManager.calls_cases hc with hc | hc
    · rcases h.kept c session hc with hr' | ht
      · rw [hr] at hr'
        cases hr'
      · exact .inr ht.later
    · cases hc
      exact .inl rfl
  | replace hp hl hr =>
    obtain ⟨w, hw⟩ := h.place
    rw [hw.none_recorded (by rw [hp]; rfl)] at hr
    cases hr
  | dropOld hp error => exact absurd hp (h.alone _ _ _)
  | clear hp done | sweep hp done =>
    cases done <;> exact (MountManager.calls_cases hc).elim (fun hc => hstay hc rfl) (by simp)
  | _ => exact (MountManager.calls_cases hc).elim (fun hc => hstay hc rfl) (by simp)

theorem ManagerInv.step (h : ManagerInv hist st) (hs : ManagerStep mountPoint st e st')
    (hu : Undisturbed st e) : ManagerInv ((st, e) :: hist) st' :=
  ⟨hs.place hu h.alone h.place, hs.alone h, hs.kept h⟩

/-- A session that is dropped is the only one live. -/
theorem ManagerInv.dropped (h : ManagerInv hist st) {c s : Nat}
    (hc : (st.calls c).hand = some s) : ∀ s', st.Live s' → s' ≤ s := by
  intro s' hs'
  obtain ⟨w, hw⟩ := h.place
  exact Nat.le_of_eq ((hw.of_hand hc).2.2.2.1.only s' hs')

/-- A recorded session is live. -/
theorem ManagerInv.mounted (h : ManagerInv hist st) : StaysMounted hist st := by
  intro c session hc
  obtain ⟨w, hw⟩ := h.place
  exact (h.kept c session hc).imp_left fun hr => (hw.of_recorded hr).2.2.1

/-- What an undisturbed run has kept so far. -/
structure ManagerKept (hist : List (MountManager × ManagerEvent)) (st : MountManager) : Prop where
  inv : ManagerInv hist st
  drops : DropsInOrder hist

theorem ManagerKept.step (h : ManagerKept hist st) (hs : ManagerStep mountPoint st e st')
    (hu : Undisturbed st e) : ManagerKept ((st, e) :: hist) st' := by
  refine ⟨h.inv.step hs hu, fun st₀ c error hmem s hc => ?_⟩
  rcases List.mem_cons.mp hmem with heq | hmem
  · cases heq
    exact h.inv.dropped hc
  · exact h.drops st₀ c error hmem s hc

end Steps

/-- **The sessions of a mount point are kept in order** in every run that disturbs none: no
    session is dropped while a newer one is live, and one whose `mount` has returned stays live
    until a call takes it out. -/
theorem sessions_kept {mountPoint : String} {hist : List (MountManager × ManagerEvent)}
    {st : MountManager} (h : ManagerRun mountPoint hist st)
    (hu : ∀ x ∈ hist, Undisturbed x.1 x.2) : DropsInOrder hist ∧ StaysMounted hist st := by
  have hkept : ManagerKept hist st := by
    induction h with
    | start h0 => exact ⟨managerInv_init h0, fun _ _ _ hmem => absurd hmem List.not_mem_nil⟩
    | step _ hs ih =>
      rw [List.forall_mem_cons] at hu
      exact (ih hu.2).step hs hu.1
  exact ⟨hkept.drops, hkept.inv.mounted⟩

/-- A manager with a mount at the path that is left over from a crashed run. -/
def MountManager.leftOver : MountManager := ⟨none, none, [none], 0, fun _ => .idle⟩

theorem managerInit_leftOver : ManagerInit .leftOver :=
  ⟨rfl, rfl, fun s hs => by simp [MountManager.Live, MountManager.leftOver] at hs, fun _ => rfl⟩

/-- A directory is mounted over the left-over mount and then mounted again. -/
theorem sessions_kept_remount : ∃ hist st, ManagerRun "/mnt" hist st ∧
    st.calls 1 = .mounted 1 ∧ DropsInOrder hist ∧ StaysMounted hist st := by
  have h0 : ManagerRun "/mnt" [] .leftOver := .start managerInit_leftOver
  have h1 := h0.step (.mount (c := 0) rfl)
  have h2 := h1.step (.takeNone (c := 0) rfl rfl rfl)
  have h3 := h2.step (.clear (c := 0) rfl true)
  have h4 := h3.step (.spawn (c := 0) rfl)
  have h5 := h4.step (.record (c := 0) rfl rfl rfl)
  have h6 := h5.step (.mount (c := 1) rfl)
  have h7 := h6.step (.takeOld (c := 1) rfl rfl rfl)
  have h8 := h7.step (.retire (c := 1) rfl none)
  have h9 := h8.step (.clear (c := 1) rfl false)
  have h10 := h9.step (.spawn (c := 1) rfl)
  have h11 := h10.step (.record (c := 1) rfl rfl rfl)
  refine ⟨_, _, h11, rfl, sessions_kept h11 ?_⟩
  simp only [List.forall_mem_cons]
  refine ⟨trivial, MountManager.At.clear ?second, nofun, trivial, trivial, trivial, trivial,
    MountManager.At.clear ?first, fun _ => managerInit_leftOver.2.2.1, trivial, trivial, nofun⟩
  case first => exact ⟨rfl, fun c => match c with | 0 => rfl | _ + 1 => rfl, nofun⟩
  case second => exact ⟨rfl, fun c => match c with | 0 => rfl | 1 => rfl | _ + 2 => rfl, nofun⟩

/-- **Two `mount` calls at once.** Both find no session; the first mounts and returns; the second
    mounts on top, replaces the first session and drops it, which unmounts its own. -/
theorem mounts_race : ¬ ∀ mountPoint hist st, ManagerRun mountPoint hist st →
    DropsInOrder hist ∧ StaysMounted hist st := by
  intro hall
  have h0 : ManagerRun "/mnt" [] .leftOver := .start managerInit_leftOver
  have h1 := h0.step (.mount (c := 0) rfl)
  have h2 := h1.step (.mount (c := 1) rfl)
  have h3 := h2.step (.takeNone (c := 0) rfl rfl rfl)
  have h4 := h3.step (.takeNone (c := 1) rfl rfl rfl)
  have h5 := h4.step (.clear (c := 0) rfl true)
  have h6 := h5.step (.clear (c := 1) rfl false)
  have h7 := h6.step (.spawn (c := 0) rfl)
  have h8 := h7.step (.record (c := 0) rfl rfl rfl)
  have h9 := h8.step (.spawn (c := 1) rfl)
  have h10 := h9.step (.replace (c := 1) rfl rfl rfl)
  have h11 := h10.step (.dropOld (c := 1) rfl none)
  have hlt := (hall _ _ _ h11).1 _ 1 none List.mem_cons_self 0 rfl 1 List.mem_cons_self
  exact absurd hlt (by decide)

end Relayfs

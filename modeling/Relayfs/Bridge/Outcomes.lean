/-
  File:      Relayfs/Bridge/Outcomes.lean
  Subject:   WHAT A CALL RETURNS (bridge/src/client.rs), whatever frames arrive: late ones,
             duplicates, frames nobody asked for.

  * `framesSince` -- the frames with the id of a call since it registered;
  * `Outcome` -- what a call may return: the result of the first of them, or an error of its own;
  * `OutcomeInv` -- a call in the map has no such frame yet, and whatever else a call or the read
    loop holds is an outcome;
  * `calls_answered` -- each frame goes to one call at most, the one with its id that still waits;
    frames for calls that have returned change nothing; a call returns an outcome.
-/
import Relayfs.Bridge.Calls

namespace Relayfs

open Lib

/-! ## 1. Outcomes -/

/-- The frames with the id of a call that were read since it registered, newest first. -/
def framesSince (n : Nat) : List (Calls × CallEvent) → List Json
  | [] => []
  | (_, .register m) :: hist => if m = n then [] else framesSince n hist
  | (_, .frame value) :: hist =>
      if Calls.frameId value = some (wireId n) then value :: framesSince n hist
      else framesSince n hist
  | _ :: hist => framesSince n hist

/-- **What a call may return**: the result of the first frame for it, that it could not send, that
    its connection was lost, or, for a `call_timeout`, that its time was up. -/
inductive Outcome (hist : List (Calls × CallEvent)) (n : Nat) (timed : Bool) :
    CallResult → Prop where
  | answer {value : Json} (h : (framesSince n hist).getLast? = some value) :
      Outcome hist n timed (responseResult value)
  | offline : Outcome hist n timed (.err offlineError)
  | sendFailed (text : String) : Outcome hist n timed (.err (sendError text))
  | lost : Outcome hist n timed (.err lostError)
  | timedOut (h : timed = true) : Outcome hist n timed (.err timeoutError)

/-- The results and errors that a call holds are outcomes of it. -/
structure CallTask.Sound (hist : List (Calls × CallEvent)) (n : Nat) (t : CallTask) : Prop where
  slot : ∀ r, t.slot = .sent r → Outcome hist n t.timed r
  refused : ∀ e, t.phase = .refused e → Outcome hist n t.timed (.err e)
  expired : ∀ conn e, t.phase = .expired conn e → Outcome hist n t.timed (.err e)
  returned : ∀ r, t.phase = .returned r → Outcome hist n t.timed r

section Sound

variable {hist : List (Calls × CallEvent)} {s : Calls} {n : Nat} {t : CallTask}

theorem framesSince_cons (s : Calls) (hist : List (Calls × CallEvent)) {e : CallEvent}
    (he : e ≠ .register n) :
    framesSince n ((s, e) :: hist) = framesSince n hist ∨
      ∃ value, e = .frame value ∧ Calls.frameId value = some (wireId n) ∧
        framesSince n ((s, e) :: hist) = value :: framesSince n hist := by
  cases e with
  | register m =>
    left
    rw [framesSince, if_neg fun h => he (by rw [h])]
  | frame value =>
    rw [framesSince]
    split
    · rename_i hid
      exact .inr ⟨value, rfl, hid, rfl⟩
    · exact .inl rfl
  | _ => exact .inl rfl

/-- The first frame for a call remains the first. -/
theorem framesSince_getLast {e : CallEvent} (he : e ≠ .register n) {value : Json}
    (h : (framesSince n hist).getLast? = some value) :
    (framesSince n ((s, e) :: hist)).getLast? = some value := by
  rcases framesSince_cons s hist he with hf | ⟨v, -, -, hf⟩
  · rw [hf, h]
  · rw [hf, List.getLast?_cons, h]
    rfl

theorem Outcome.later {e : CallEvent} (he : e ≠ .register n) {timed : Bool} {r : CallResult}
    (h : Outcome hist n timed r) : Outcome ((s, e) :: hist) n timed r := by
  cases h with
  | answer h => exact .answer (framesSince_getLast he h)
  | offline => exact .offline
  | sendFailed text => exact .sendFailed text
  | lost => exact .lost
  | timedOut h => exact .timedOut h

/-- A call that has not registered holds nothing. -/
theorem CallTask.sound_begun (hp : t.phase = .begun) (hs : t.slot = .empty) : t.Sound hist n where
  slot r h := by rw [hs] at h; cases h
  refused e h := by rw [hp] at h; cases h
  expired conn e h := by rw [hp] at h; cases h
  returned r h := by rw [hp] at h; cases h

theorem CallTask.Sound.later {e : CallEvent} (he : e ≠ .register n) (h : t.Sound hist n) :
    t.Sound ((s, e) :: hist) n where
  slot r hr := (h.slot r hr).later he
  refused e' hr := (h.refused e' hr).later he
  expired conn e' hr := (h.expired conn e' hr).later he
  returned r hr := (h.returned r hr).later he

theorem CallTask.Sound.setPhase (h : t.Sound hist n) {phase : CallPhase}
    (hrefused : ∀ e, phase = .refused e → Outcome hist n t.timed (.err e))
    (hexpired : ∀ conn e, phase = .expired conn e → Outcome hist n t.timed (.err e))
    (hreturned : ∀ r, phase = .returned r → Outcome hist n t.timed r) :
    CallTask.Sound hist n { t with phase := phase } :=
  ⟨h.slot, hrefused, hexpired, hreturned⟩

theorem CallTask.Sound.settle (h : t.Sound hist n) {x : Slot}
    (hx : ∀ r, x = .sent r → Outcome hist n t.timed r) : (t.settle x).Sound hist n := by
  unfold CallTask.settle
  split
  · exact ⟨hx, h.refused, h.expired, h.returned⟩
  · exact h

end Sound

/-! ## 2. The invariant -/

/-- **What the frames read so far say of the state.** -/
structure OutcomeInv (hist : List (Calls × CallEvent)) (s : Calls) : Prop where
  sound : ∀ n, (s.calls n).Sound hist n
  entry : ∀ id n, s.pending.lookup id = some n → framesSince n hist = []
  held : ∀ conn n r, s.reader = .holding conn n r →
    ∃ value, (framesSince n hist).getLast? = some value ∧ r = responseResult value

section Keep

variable {hist : List (Calls × CallEvent)} {s : Calls} {n : Nat}

theorem Calls.sound_modify {f : CallTask → CallTask} (h : ∀ m, (s.calls m).Sound hist m)
    (hf : (f (s.calls n)).Sound hist n) : ∀ m, ((s.modify n f).calls m).Sound hist m := by
  intro m
  rw [Calls.modify_calls]
  split
  · rename_i hm
    subst hm
    exact hf
  · exact h m

/-- A call moves to a phase whose error or result is an outcome. -/
theorem Calls.sound_setPhase (h : ∀ m, (s.calls m).Sound hist m) {phase : CallPhase}
    (hrefused : ∀ e, phase = .refused e → Outcome hist n (s.calls n).timed (.err e))
    (hexpired : ∀ conn e, phase = .expired conn e → Outcome hist n (s.calls n).timed (.err e))
    (hreturned : ∀ r, phase = .returned r → Outcome hist n (s.calls n).timed r) :
    ∀ m, ((s.setPhase n phase).calls m).Sound hist m :=
  Calls.sound_modify h ((h n).setPhase hrefused hexpired hreturned)

theorem Calls.sound_dropSender (h : ∀ m, (s.calls m).Sound hist m) (id : Nat) :
    ∀ m, ((s.dropSender id).calls m).Sound hist m := by
  intro m
  rw [Calls.dropSender_calls]
  split
  · exact (h m).settle nofun
  · exact h m

end Keep

/-- A call that registers has been nothing before. -/
theorem CallStep.of_register {s s' : Calls} {n : Nat} (hs : CallStep s (.register n) s') :
    (s.calls n).phase = .begun := by
  cases hs with
  | register hn hp => exact hp

/-- A call in the map had no frame yet, and a frame for it takes it out. -/
theorem OutcomeInv.entry_step {hist : List (Calls × CallEvent)} {s s' : Calls} {e : CallEvent}
    (h : OutcomeInv hist s) (hi : CallsInv s) (hs : CallStep s e s') {id n : Nat}
    (hn : s'.pending.lookup id = some n) : framesSince n ((s, e) :: hist) = [] := by
  rcases hs.of_entry hi hn with ⟨rfl, -⟩ | ⟨hold, -⟩
  · rw [framesSince, if_pos rfl]
  · obtain ⟨hid, -, hopen⟩ := hi.entry id n hold
    have hne : e ≠ .register n := by
      intro heq
      subst heq
      rw [hs.of_register] at hopen
      cases hopen
    rcases framesSince_cons s hist hne with hf | ⟨value, rfl, hv, -⟩
    · rw [hf, h.entry id n hold]
    · -- the frame has taken it out
      cases hs with
      | @frame conn hr =>
        rw [hid] at hv
        rcases s.read_cases conn value with ⟨-, hno⟩ | ⟨id', m, hid', -, hread⟩
        · rw [hno id hv] at hold
          cases hold
        · rw [hid'] at hv
          cases hv
          rw [hread, AList.lookup_erase] at hn
          cases hn

/-- The read loop keeps what it holds for the step that follows. -/
theorem CallStep.of_holding {s s' : Calls} {e : CallEvent} (hs : CallStep s e s') {conn n : Nat}
    {r : CallResult} (hr : s'.reader = .holding conn n r) :
    s.reader = .holding conn n r ∨ ∃ value id, e = .frame value ∧ Calls.frameId value = some id ∧
      s.pending.lookup id = some n ∧ r = responseResult value := by
  cases hs with
  | register hn hp =>
    rw [Calls.register_eq] at hr
    exact .inl hr
  | refused hp | expired hp =>
    rw [Calls.unregister_eq] at hr
    exact .inl hr
  | @frame c hread value =>
    rcases s.read_cases c value with ⟨hkeep, -⟩ | ⟨id, m, hid, hm, hkeep⟩
    · rw [hkeep] at hr
      exact .inl hr
    · rw [hkeep] at hr
      cases hr
      exact .inr ⟨value, id, rfl, hid, hm, rfl⟩
  | deliver | endRead | fail | opened | clear => cases hr
  | _ => exact .inl hr

theorem OutcomeInv.held_step {hist : List (Calls × CallEvent)} {s s' : Calls} {e : CallEvent}
    (h : OutcomeInv hist s) (hi : CallsInv s) (hs : CallStep s e s') {conn n : Nat}
    {r : CallResult} (hr : s'.reader = .holding conn n r) :
    ∃ value, (framesSince n ((s, e) :: hist)).getLast? = some value ∧ r = responseResult value := by
  rcases hs.of_holding hr with hold | ⟨value, id, rfl, hid, hn, rfl⟩
  · have hhand : (s.calls n).phase ≠ .begun := by
      refine (hi.hand n ?_).2.2
      rw [hold]
      rfl
    obtain ⟨value, hv, hres⟩ := h.held conn n r hold
    refine ⟨value, framesSince_getLast ?_ hv, hres⟩
    intro heq
    subst heq
    exact hhand hs.of_register
  · -- the first frame since the call registered
    have hw : wireId n = id := (hi.entry id n hn).1
    refine ⟨value, ?_, rfl⟩
    rw [framesSince, if_pos (by rw [hid, hw]), h.entry id n hn]
    rfl

theorem OutcomeInv.sound_step {hist : List (Calls × CallEvent)} {s s' : Calls} {e : CallEvent}
    (h : OutcomeInv hist s) (hi : CallsInv s) (hs : CallStep s e s') :
    ∀ n, (s'.calls n).Sound ((s, e) :: hist) n := by
  -- what was known before the step is known after it
  have hsound : ∀ n, (s.calls n).Sound ((s, e) :: hist) n := by
    intro n
    by_cases hb : (s.calls n).phase = .begun
    · exact CallTask.sound_begun hb (hi.begun n hb)
    · refine (h.sound n).later ?_
      intro heq
      subst heq
      exact hb hs.of_register
  cases hs with
  | call timed =>
    intro n
    dsimp only
    by_cases hn : n = s.nextId
    · subst hn
      rw [Function.update_self]
      exact CallTask.sound_begun rfl rfl
    · rw [Function.update_of_ne hn]
      exact hsound n
  | @register n hn hp =>
    exact Calls.sound_setPhase (Calls.sound_dropSender hsound _) nofun nofun nofun
  | acquire | sent => exact Calls.sound_setPhase hsound nofun nofun nofun
  | offline hp =>
    refine Calls.sound_setPhase hsound ?_ nofun nofun
    intro e h'
    cases h'
    exact .offline
  | sendFailed hp text =>
    refine Calls.sound_setPhase hsound ?_ nofun nofun
    intro e h'
    cases h'
    exact .sendFailed text
  | @refused n e hp =>
    have hd := Calls.sound_dropSender hsound (wireId n)
    refine Calls.sound_setPhase hd nofun nofun ?_
    intro r h'
    cases h'
    exact (hd n).refused e (by grind)
  | @expired n conn e hp =>
    have hd := Calls.sound_dropSender hsound (wireId n)
    refine Calls.sound_setPhase hd nofun nofun ?_
    intro r h'
    cases h'
    exact (hd n).expired conn e (by grind)
  | timer hp htimed hslot =>
    refine Calls.sound_setPhase hsound nofun ?_ nofun
    intro c e h'
    cases h'
    exact .timedOut htimed
  | collect hp hslot =>
    refine Calls.sound_setPhase hsound nofun nofun ?_
    intro r h'
    cases h'
    exact (hsound _).slot _ hslot
  | dropped hp htimed hslot =>
    refine Calls.sound_setPhase hsound nofun nofun ?_
    intro r h'
    cases h'
    exact .lost
  | droppedTimed hp htimed hslot =>
    refine Calls.sound_setPhase hsound nofun ?_ nofun
    intro c e h'
    cases h'
    exact .lost
  | @frame conn hr value =>
    rcases s.read_cases conn value with ⟨hread, -⟩ | ⟨id, m, -, -, hread⟩ <;>
    · rw [hread]
      exact hsound
  | @deliver conn n r hr =>
    refine Calls.sound_modify hsound ((hsound n).settle ?_)
    intro r' h'
    cases h'
    obtain ⟨value, hv, rfl⟩ := h.held conn n r hr
    exact .answer (framesSince_getLast (fun he => by cases he) hv)
  | endRead hr => exact hsound
  | @fail conn id n rest hr hn =>
    refine Calls.sound_modify hsound ((hsound n).settle ?_)
    intro r h'
    cases h'
    exact .lost
  | opened hr hl => exact hsound
  | clear hr hl => exact hsound

theorem OutcomeInv.step {hist : List (Calls × CallEvent)} {s s' : Calls} {e : CallEvent}
    (h : OutcomeInv hist s) (hi : CallsInv s) (hs : CallStep s e s') :
    OutcomeInv ((s, e) :: hist) s' where
  sound := h.sound_step hi hs
  entry _ _ hn := h.entry_step hi hs hn
  held _ _ _ hr := h.held_step hi hs hr

theorem CallsRun.outcomes {hist : List (Calls × CallEvent)} {s : Calls} (h : CallsRun hist s) :
    OutcomeInv hist s := by
  induction h with
  | start h0 =>
    subst h0
    exact ⟨fun n => CallTask.sound_begun rfl rfl, fun id n hn => rfl, fun _ _ _ hr => by cases hr⟩
  | step hr hs ih => exact ih.step (CallsRun.inv hr) hs

/-! ## 3. What calls get -/

/-- The call is registered, has not returned, and nothing has come for it. -/
def CallTask.StillWaiting (t : CallTask) : Prop := t.phase.isOpen = true ∧ t.slot = .empty

/-- **How frames and calls come together.** -/
structure CallsAnswered (hist : List (Calls × CallEvent)) (s : Calls) : Prop where
  /-- A frame changes nothing, or the read loop takes the result for the one call with the frame's
      id, which still waits. -/
  taken : ∀ value s', CallStep s (.frame value) s' →
    s' = s ∨ ∃ conn n, Calls.frameId value = some (wireId n) ∧ (s.calls n).StillWaiting ∧
      (∀ m, (s.calls m).phase ≠ .begun → wireId m = wireId n → m = n) ∧
      s' = { s with
        pending := s.pending.erase (wireId n)
        reader := .holding conn n (responseResult value) }
  /-- It hands the result to this call, unless that has given up meanwhile, and to no other. -/
  given : ∀ s', CallStep s .deliver s' → ∃ conn n r, s.reader = .holding conn n r ∧
    s'.pending = s.pending ∧ (∀ m, m ≠ n → s'.calls m = s.calls m) ∧
      ((s.calls n).phase.hears = true → (s'.calls n).slot = .sent r)
  /-- A frame for a call that has returned changes nothing. -/
  late : ∀ n r value s', (s.calls n).phase = .returned r →
    Calls.frameId value = some (wireId n) → CallStep s (.frame value) s' → s' = s
  /-- A call returns the result of the first frame for it, or a timeout or connection error. -/
  outcome : ∀ n r, (s.calls n).phase = .returned r → Outcome hist n (s.calls n).timed r

/-- **Calls and frames, in every run with fewer than `2 ^ 64` calls.** -/
theorem calls_answered {hist : List (Calls × CallEvent)} {s : Calls} (h : CallsRun hist s)
    (hfew : s.nextId ≤ 2 ^ 64) : CallsAnswered hist s := by
  have hi : CallsInv s := h.inv
  have hopen : ∀ n, (s.calls n).phase.isOpen = true → (s.calls n).phase ≠ .begun := by
    intro n ho hb
    rw [hb] at ho
    cases ho
  exact
    { taken := fun value s' hs => by
        cases hs with
        | @frame conn hr =>
          rcases s.read_cases conn value with ⟨hread, -⟩ | ⟨id, n, hid, hn, hread⟩
          · exact .inl hread
          · obtain ⟨rfl, hslot, ho⟩ := hi.entry id n hn
            exact .inr ⟨conn, n, hid, ⟨ho, hslot⟩,
              fun m hm hw => hi.wireId_inj hfew hm (hopen n ho) hw, hread⟩
      given := fun s' hs => by
        cases hs with
        | @deliver conn n r hr =>
          refine ⟨conn, n, r, hr, rfl, fun m hm => ?_, fun hhears => ?_⟩
          · exact Calls.modify_calls.trans (if_neg hm)
          · have hslot := (hi.hand n (by rw [hr]; rfl)).2.1
            have hlistens : (s.calls n).listens = true := CallTask.listens_iff.mpr ⟨hhears, hslot⟩
            grind
      late := fun n r value s' hp hid hs => by
        cases hs with
        | @frame conn hr =>
          rcases s.read_cases conn value with ⟨hread, -⟩ | ⟨id, m, hid', hm, -⟩
          · exact hread
          · -- whoever is under this id has not returned, so it is another call with the same id
            rw [hid'] at hid
            cases hid
            obtain ⟨hw, -, ho⟩ := hi.entry _ m hm
            have hmn : m = n := hi.wireId_inj hfew (hopen m ho) (by rw [hp]; nofun) hw
            rw [hmn, hp] at ho
            cases ho
      outcome := fun n => (h.outcomes.sound n).returned }

/-- A frame for call 1. -/
def pongFrame : Json := .obj [("id", .nat 1), ("result", .str "pong")]

/-- A call that is answered twice: it returns the first answer, and the second changes nothing. -/
theorem calls_answered_twice : ∃ hist s, CallsRun hist s ∧
    (s.calls 1).phase = .returned (.ok (.str "pong")) ∧
      Outcome hist 1 false (.ok (.str "pong")) ∧
      ∀ s', CallStep s (.frame pongFrame) s' → s' = s := by
  have h0 : CallsRun [] .new := .start rfl
  have h1 := h0.step (.opened rfl rfl)
  have h2 := h1.step (.call _ false)
  have h3 := h2.step (.register (n := 1) (by decide) rfl)
  have h4 := h3.step (.acquire (n := 1) (by rfl) rfl (by rfl))
  have h5 := h4.step (.sent (n := 1) (by rfl))
  have h6 := h5.step (.frame (by rfl) pongFrame)
  have h7 := h6.step (.deliver (by rfl))
  have h8 := h7.step (.collect (n := 1) (by rfl) (by rfl))
  have hall := calls_answered h8 (by decide)
  exact ⟨_, _, h8, rfl, hall.outcome 1 _ rfl, fun s' => hall.late 1 _ pongFrame s' rfl rfl⟩

end Relayfs

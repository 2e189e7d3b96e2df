/-
  File:      Relayfs/Bridge/LostCalls.lean
  Subject:   THE END OF A CONNECTION AND THE CALLS THAT WERE SENT ON IT (bridge/src/client.rs).

  The read loop ends, takes the pending map and fails every call in it; then the supervisor clears
  the sink. Between the two the sink is still there: a call that registers now finds it, its send
  may succeed, and nobody will look at the pending map again on behalf of this connection.

  * `NoneLeft`, `Stuck` -- no entry of the map was sent on a connection that is gone; a call without
    a timeout awaits what cannot come;
  * `SlipsThrough` -- a call registers and sends between the two steps, and does not give up;
  * `none_left_iff` -- a run leaves no call behind exactly when none slips through;
  * `late_call_stuck` -- one that does.
-/
import Relayfs.Bridge.Calls

namespace Relayfs

open Lib

/-! ## 1. Calls left behind -/

/-- **No entry of the pending map was sent on a connection whose sink has been cleared.** -/
def Calls.NoneLeft (s : Calls) : Prop :=
  ∀ id n, s.pending.lookup id = some n → ∀ conn, (s.calls n).phase.sentOn = some conn →
    s.sink = some conn

/-- A call without a timeout waits for an answer on a connection that is gone, and its sender is
    not in the hands of the read loop either. -/
def Calls.Stuck (s : Calls) (n : Nat) : Prop :=
  (s.calls n).timed = false ∧ (s.calls n).slot = .empty ∧ ¬ s.reader.Holds n ∧
    ∃ conn, (s.calls n).phase = .waiting conn ∧ s.sink ≠ some conn

/-- The events since the read loop took the pending map, newest first. -/
def sinceTake : List (Calls × CallEvent) → List CallEvent
  | [] => []
  | (_, .endRead) :: _ => []
  | (_, e) :: hist => e :: sinceTake hist

/-- A call registers and sends, and does not unregister. -/
def SlipsThrough (window : List CallEvent) (n : Nat) : Prop :=
  .register n ∈ window ∧ .sent n ∈ window ∧ .unregister n ∉ window

/-- Between the end of a read loop and the clearing of the sink no call slips through. -/
def NoneSlips (hist : List (Calls × CallEvent)) : Prop :=
  ∀ s earlier, (s, .clear) :: earlier <:+ hist → ∀ n, ¬ SlipsThrough (sinceTake earlier) n

theorem Calls.NoneLeft.not_stuck {s : Calls} (h : s.NoneLeft) (hi : CallsInv s) (n : Nat) :
    ¬ s.Stuck n := by
  intro h'
  obtain ⟨_, hslot, hhand, conn, hp, hsink⟩ := h'
  have hreg : s.pending.lookup (wireId n) = some n :=
    (hi.waits n (by rw [hp]; nofun) (by rw [hp]; rfl) hslot).resolve_right hhand
  exact hsink (h (wireId n) n hreg conn (by rw [hp]; rfl))

/-! ## 2. One step -/

/-- Only the supervisor changes the sink: it clears it, or installs one where there is none. -/
theorem CallStep.sink {s s' : Calls} {e : CallEvent} (hs : CallStep s e s') (hi : CallsInv s) :
    s'.sink = s.sink ∨ e = .clear ∨ s.sink = none := by
  cases hs with
  | register hn hp => exact .inl (by rw [Calls.register_eq])
  | refused hp | expired hp => exact .inl (by rw [Calls.unregister_eq])
  | opened hr hl => exact .inr (.inr (by rw [hi.link, hr]; rfl))
  | clear hr hl => exact .inr (.inl rfl)
  | frame hr value =>
    rcases s.read_cases _ value with ⟨hread, -⟩ | ⟨id, n, -, -, hread⟩ <;>
      exact .inl (by rw [hread])
  | _ => exact .inl rfl

/-- **Only the clearing of the sink leaves calls behind**: those that are in the map then and have
    sent. -/
theorem Calls.NoneLeft.step {s s' : Calls} {e : CallEvent} (h : s.NoneLeft) (hi : CallsInv s)
    (hs : CallStep s e s') (hclear : e = .clear → ∀ id n, s.pending.lookup id = some n →
      (s.calls n).phase.sentOn = none) : s'.NoneLeft := by
  intro id n hn conn hsent
  rcases hs.of_entry hi hn with ⟨_, hp⟩ | ⟨hold, hphase⟩
  · rw [hp] at hsent
    cases hsent
  · rcases hphase with hsame | ⟨he, hsink⟩
    · rw [hsame] at hsent
      have hconn : s.sink = some conn := h id n hold conn hsent
      rcases hs.sink hi with hkeep | he | hnone
      · rw [hkeep, hconn]
      · rw [hclear he id n hold] at hsent
        cases hsent
      · rw [hnone] at hconn
        cases hconn
    · -- the send has just ended, and the sink is still the one it was made on
      rw [hsink] at hsent
      rcases hs.sink hi with hkeep | he' | hnone
      · rw [hkeep, hsent]
      · rw [he] at he'
        cases he'
      · rw [hnone] at hsent
        cases hsent

/-! ## 3. Since the map was taken -/

/-- A read loop that fails calls has just taken the map, or it did so before. -/
theorem CallStep.of_failing {s s' : Calls} {e : CallEvent} (hs : CallStep s e s') {conn : Nat}
    {rest : Table Nat Nat} (hf : s'.reader = .failing conn rest) :
    (e = .endRead ∧ s'.pending = ∅) ∨
      (e ≠ .endRead ∧ ∃ rest', s.reader = .failing conn rest') := by
  cases hs with
  | register hn hp =>
    rw [Calls.register_eq] at hf
    exact .inr ⟨nofun, rest, hf⟩
  | refused hp | expired hp =>
    rw [Calls.unregister_eq] at hf
    exact .inr ⟨nofun, rest, hf⟩
  | frame hr value =>
    rcases s.read_cases _ value with ⟨hread, -⟩ | ⟨id, m, -, -, hread⟩
    · rw [hread, hr] at hf
      cases hf
    · rw [hread] at hf
      cases hf
  | deliver hr => cases hf
  | endRead hr => exact .inl ⟨rfl, rfl⟩
  | fail hr hn =>
    cases hf
    exact .inr ⟨nofun, _, hr⟩
  | opened hr hl => cases hf
  | clear hr hl => cases hf
  | _ => exact .inr ⟨nofun, rest, hf⟩

/-- **While calls are failed an entry of the map stays** until its call unregisters, and what it has
    sent stays sent. -/
theorem CallStep.keeps_entry {s s' : Calls} {e : CallEvent} (hs : CallStep s e s')
    (hi : CallsInv s) (hfew : s.nextId ≤ 2 ^ 64) {conn : Nat} {rest : Table Nat Nat}
    (hf : s.reader = .failing conn rest) {n : Nat} (hn : s.pending.lookup (wireId n) = some n)
    (hne : e ≠ .unregister n) :
    s'.pending.lookup (wireId n) = some n ∧
      ((s.calls n).phase.sentOn ≠ none ∨ e = .sent n → (s'.calls n).phase.sentOn ≠ none) := by
  obtain ⟨-, hslot, hopen⟩ := hi.entry _ n hn
  have hb : (s.calls n).phase ≠ .begun := by grind [CallPhase.isOpen]
  cases hs with
  | call timed =>
    have hlt := hi.fresh n hb
    have hne : n ≠ s.nextId := by omega
    exact ⟨hn, by simp [hne]⟩
  | @register m hm hp =>
    have hmn : n ≠ m := fun e => hb (e ▸ hp)
    have hid : wireId n ≠ wireId m := fun e => hmn (by
      have hlt := hi.fresh n hb
      unfold wireId at e
      omega)
    rw [Calls.register_eq]
    exact ⟨by rw [← hn, AList.lookup_insert_ne hid], by grind⟩
  | @refused m _ hp | @expired m _ _ hp =>
    have hmn : n ≠ m := fun e => hne (by rw [e])
    have hid : wireId n ≠ wireId m := fun e =>
      hmn (hi.wireId_inj hfew hb (fun hb' => by rw [hp] at hb'; cases hb') e)
    rw [Calls.unregister_eq]
    exact ⟨by rw [← hn, AList.lookup_erase_ne hid], by grind⟩
  | frame hr value =>
    rw [hf] at hr
    cases hr
  | deliver hr =>
    rw [hf] at hr
    cases hr
  | endRead hr =>
    rw [hf] at hr
    cases hr
  | opened hr hl =>
    rw [hf] at hr
    cases hr
  | fail hr hm => exact ⟨hn, by grind⟩
  | clear hr hl => exact ⟨hn, by simp⟩
  | _ => exact ⟨hn, by grind [CallPhase.sentOn]⟩

/-- **What the events since the end of the read loop say of the map.** The entries are calls that
    have registered since; those that have sent, have sent since. With fewer than `2 ^ 64` calls, a
    call that registered since and did not unregister is still there, and if it has sent its frame
    it awaits the answer or has given up. -/
structure SinceInv (hist : List (Calls × CallEvent)) (s : Calls) : Prop where
  gone : ∀ n, .unregister n ∈ sinceTake hist → ∃ r, (s.calls n).phase = .returned r
  sent : ∀ n, .sent n ∈ sinceTake hist → (s.calls n).phase ≠ .begun
  late : ∀ conn rest, s.reader = .failing conn rest → ∀ id n, s.pending.lookup id = some n →
    .register n ∈ sinceTake hist ∧
      ((s.calls n).phase.sentOn ≠ none → .sent n ∈ sinceTake hist)
  kept : s.nextId ≤ 2 ^ 64 → ∀ conn rest, s.reader = .failing conn rest → ∀ n,
    .register n ∈ sinceTake hist → .unregister n ∉ sinceTake hist →
      s.pending.lookup (wireId n) = some n ∧
        (.sent n ∈ sinceTake hist → (s.calls n).phase.sentOn ≠ none)

theorem sinceTake_cons (s : Calls) {e : CallEvent} (he : e ≠ .endRead)
    (hist : List (Calls × CallEvent)) : sinceTake ((s, e) :: hist) = e :: sinceTake hist := by
  cases e <;> first | rfl | exact absurd rfl he

theorem mem_sinceTake_cons {s : Calls} {e x : CallEvent} {hist : List (Calls × CallEvent)}
    (hx : x ∈ sinceTake ((s, e) :: hist)) : x = e ∨ x ∈ sinceTake hist := by
  by_cases he : e = .endRead
  · subst he
    cases hx
  · rw [sinceTake_cons s he] at hx
    exact List.mem_cons.mp hx

/-- A call that is registered stays past its registration. -/
theorem CallStep.not_begun {s s' : Calls} {e : CallEvent} (hs : CallStep s e s') (hi : CallsInv s)
    {n : Nat} (hp : (s.calls n).phase ≠ .begun ∨ e = .sent n) :
    (s'.calls n).phase ≠ .begun := by
  cases hs with
  | call timed =>
    rcases hp with hp | he
    · have hlt := hi.fresh n hp
      have hne : n ≠ s.nextId := by omega
      simpa [hne] using hp
    · cases he
  | register hn hb =>
    rw [Calls.register_eq]
    grind
  | refused hb | expired hb =>
    rw [Calls.unregister_eq]
    grind
  | frame hr value =>
    have hp : (s.calls n).phase ≠ .begun := hp.resolve_right nofun
    rcases s.read_cases _ value with ⟨hread, -⟩ | ⟨id, m, -, -, hread⟩ <;>
    · rw [hread]
      exact hp
  | endRead | opened | clear => exact hp.resolve_right nofun
  | _ => grind

theorem SinceInv.step {hist : List (Calls × CallEvent)} {s s' : Calls} {e : CallEvent}
    (h : SinceInv hist s) (hi : CallsInv s) (hs : CallStep s e s') :
    SinceInv ((s, e) :: hist) s' where
  gone n hn := by
    rcases mem_sinceTake_cons hn with rfl | hn
    · cases hs with
      | refused hp | expired hp => exact ⟨_, by simp [Calls.unregister_eq, Calls.setPhase_calls]; rfl⟩
    · obtain ⟨r, hr⟩ := h.gone n hn
      exact ⟨r, hs.returned hi hr⟩
  sent n hn := by
    rcases mem_sinceTake_cons hn with he | hn
    · exact hs.not_begun hi (.inr he.symm)
    · exact hs.not_begun hi (.inl (h.sent n hn))
  late conn rest hf id n hn := by
    rcases hs.of_failing hf with ⟨_, hempty⟩ | ⟨he, rest', hf'⟩
    · rw [hempty] at hn
      simp at hn
    · rw [sinceTake_cons s he]
      rcases hs.of_entry hi hn with ⟨rfl, hp⟩ | ⟨hold, hphase⟩
      · refine ⟨List.mem_cons_self, fun hsent => absurd ?_ hsent⟩
        rw [hp]
        rfl
      · obtain ⟨hreg, hsent⟩ := h.late conn rest' hf' id n hold
        refine ⟨List.mem_cons_of_mem _ hreg, fun hne => ?_⟩
        rcases hphase with hsame | ⟨rfl, _⟩
        · exact List.mem_cons_of_mem _ (hsent (hsame ▸ hne))
        · exact List.mem_cons_self
  kept hfew conn rest hf n hreg hun := by
    have hfew' : s.nextId ≤ 2 ^ 64 := hs.nextId_le.trans hfew
    rcases hs.of_failing hf with ⟨rfl, _⟩ | ⟨he, rest', hf'⟩
    · cases hreg
    · rw [sinceTake_cons s he] at hreg hun ⊢
      rw [List.mem_cons, not_or] at hun
      rcases List.mem_cons.mp hreg with rfl | hreg
      · cases hs with
        | register hn hp =>
          refine ⟨by rw [Calls.register_eq]; exact AList.lookup_insert _, fun hsent => ?_⟩
          rcases List.mem_cons.mp hsent with hsent | hsent
          · cases hsent
          · exact absurd hp (h.sent n hsent)
      · obtain ⟨hold, hsent⟩ := h.kept hfew' conn rest' hf' n hreg hun.2
        obtain ⟨hnew, hkeep⟩ := hs.keeps_entry hi hfew' hf' hold (Ne.symm hun.1)
        refine ⟨hnew, fun hmem => hkeep ?_⟩
        rcases List.mem_cons.mp hmem with he | hmem
        · exact .inr he.symm
        · exact .inl (hsent hmem)

/-! ## 4. Runs -/

theorem CallsRun.since {hist : List (Calls × CallEvent)} {s : Calls} (h : CallsRun hist s) :
    SinceInv hist s := by
  induction h with
  | start h0 =>
    subst h0
    exact ⟨nofun, nofun, nofun, nofun⟩
  | step hr hs ih => exact ih.step (CallsRun.inv hr) hs

theorem CallsRun.none_left {hist : List (Calls × CallEvent)} {s : Calls} (h : CallsRun hist s)
    (hslip : NoneSlips hist) : ∀ t ∈ visited hist s, t.NoneLeft := by
  induction h with
  | start h0 =>
    rw [visited_nil, List.forall_mem_singleton, h0]
    intro id n hn
    simp [Calls.new] at hn
  | @step hist s s' e hr hs ih =>
    have hall := ih fun t earlier hsuf => hslip t earlier (hsuf.trans (List.suffix_cons _ _))
    have hi := CallsRun.inv hr
    have hsince := CallsRun.since hr
    rw [visited_cons, List.forall_mem_cons]
    refine ⟨(hall s List.mem_cons_self).step hi hs fun he id n hn => ?_, hall⟩
    subst he
    -- an entry at the time of the clearing has registered since the map was taken
    obtain ⟨conn, hreader⟩ : ∃ conn, s.reader = .failing conn ∅ := by
      cases hs with
      | clear hr hl => exact ⟨_, hr⟩
    obtain ⟨hreg, hsent⟩ := hsince.late conn ∅ hreader id n hn
    refine Classical.byContradiction fun hne => ?_
    refine hslip s hist (List.suffix_refl _) n ⟨hreg, hsent hne, fun hun => ?_⟩
    have hopen := (hi.entry id n hn).2.2
    obtain ⟨r, hr⟩ := hsince.gone n hun
    rw [hr] at hopen
    cases hopen

/-- **When the end of a connection leaves no call behind.** If in a run no call slips through
    between the end of a read loop and the clearing of its sink, then at no time is there an entry
    of the pending map whose frame was sent on a connection that is gone, or a call without a
    timeout that awaits the answer to such a frame; and with fewer than `2 ^ 64` calls only
    then. -/
theorem none_left_iff {hist : List (Calls × CallEvent)} {s : Calls} (h : CallsRun hist s) :
    (NoneSlips hist → ∀ t ∈ visited hist s, t.NoneLeft ∧ ∀ n, ¬ t.Stuck n) ∧
      (s.nextId ≤ 2 ^ 64 → (∀ t ∈ visited hist s, t.NoneLeft ∧ ∀ n, ¬ t.Stuck n) →
        NoneSlips hist) := by
  constructor
  · intro hslip t ht
    have hleft : t.NoneLeft := h.none_left hslip t ht
    obtain ⟨earlier, hrun⟩ := h.of_visited ht
    exact ⟨hleft, fun n => hleft.not_stuck (CallsRun.inv hrun) n⟩
  · intro hfew hall t earlier h' n hin
    obtain ⟨later, rfl⟩ := h'
    obtain ⟨hreg, hsent, hun⟩ := hin
    obtain ⟨hrun, t', hs, hmem⟩ := h.split
    have ht : t ∈ visited (later ++ (t, .clear) :: earlier) s := by
      simp [visited]
    have ht' : t' ∈ visited (later ++ (t, .clear) :: earlier) s := by
      rw [visited, List.map_append, ← List.cons_append]
      exact List.mem_append_left _ hmem
    have hfew' : t.nextId ≤ 2 ^ 64 := (h.nextId_le t ht).trans hfew
    cases hs with
    | @clear conn hr hl =>
      -- the call is still in the map, and the sink it was sent on is not there any more
      obtain ⟨hn, hsentOn⟩ := (CallsRun.since hrun).kept hfew' conn ∅ hr n hreg hun
      obtain ⟨c, hc⟩ := Option.ne_none_iff_exists'.mp (hsentOn hsent)
      have hsink := (hall _ ht').1 (wireId n) n hn c hc
      cases hsink

/-- A call that was sent when its connection ends: it fails, and nothing is left behind. -/
theorem none_left_failed : ∃ hist s, CallsRun hist s ∧
    (s.calls 1).phase = .returned AgentClient.lostResult ∧ ∀ n, ¬ s.Stuck n := by
  have h0 : CallsRun [] .new := .start rfl
  have h1 := h0.step (.opened rfl rfl)
  have h2 := h1.step (.call _ false)
  have h3 := h2.step (.register (n := 1) (by decide) rfl)
  have h4 := h3.step (.acquire (n := 1) (by rfl) rfl (by rfl))
  have h5 := h4.step (.sent (n := 1) (by rfl))
  have h6 := h5.step (.endRead (by rfl))
  have h7 := h6.step (show CallStep _ (.fail 1) _ from .fail (n := 1) (by rfl) (by rfl))
  have h8 := h7.step (.collect (n := 1) (by rfl) (by rfl))
  have h9 := h8.step (.clear (by rfl) rfl)
  refine ⟨_, _, h9, rfl, ((none_left_iff h9).1 ?_ _ List.mem_cons_self).2⟩
  -- the only clearing is the last step
  intro s earlier hsuf n hslip
  simp only [List.suffix_cons_iff, List.cons.injEq, Prod.mk.injEq, reduceCtorEq, and_false,
    false_and, or_false, List.suffix_nil] at hsuf
  obtain ⟨⟨_, _⟩, rfl⟩ := hsuf
  have hreg := hslip.1
  simp [sinceTake] at hreg

/-! ## 5. A call that slips through -/

/-- **A call that nobody answers.** The read loop has taken the map; a call registers, finds the
    sink, and its send succeeds; then the sink is cleared. -/
theorem late_call_stuck :
    ¬ ∀ hist s, CallsRun hist s → ∀ t ∈ visited hist s, t.NoneLeft ∧ ∀ n, ¬ t.Stuck n := by
  intro hall
  have h0 : CallsRun [] .new := .start rfl
  have h1 := h0.step (.opened rfl rfl)
  have h2 := h1.step (.call _ false)
  have h3 := h2.step (.endRead (by rfl))
  have h4 := h3.step (.register (n := 1) (by decide) rfl)
  have h5 := h4.step (.acquire (n := 1) (by rfl) rfl (by rfl))
  have h6 := h5.step (.sent (n := 1) (by rfl))
  have h7 := h6.step (.clear (by rfl) rfl)
  exact (hall _ _ h7 _ List.mem_cons_self).2 1 ⟨rfl, rfl, nofun, 0, rfl, nofun⟩

end Relayfs

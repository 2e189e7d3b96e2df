/-
  File:      Relayfs/System/Answers.lean
  Subject:   WHOSE ANSWER COMPLETES A CALL. The relay sends every answer to all bridges of the token,
             and every client numbers its calls from 1.

  * `completes` -- the call a bridge's `read_loop` completes with the frame it reads next;
  * `AnswersOwn` -- that frame answers that very call;
  * `NoForeignMatch` -- when the frame answers another call, no call waits under its id;
  * `answers_own_iff` -- a run has the first exactly when it has the second;
  * `foreign_answer_completes` -- two bridges, two calls with number 1, one answer.
-/
import Relayfs.System.Frames

namespace Relayfs

open Lib

/-! ## 1. Completions -/

/-- The call a bridge's `read_loop` completes next, with the frame that completes it. -/
def System.completes (s : System) (b : Nat) : Option (Nat × Frame) :=
  (s.nextFrame b).bind fun x =>
    ((s.clients b).receive x.2.value).2.map fun r => (r.1, x.2)

/-- **A call is completed by the answer to itself.** -/
def AnswersOwn (s : System) : SystemEvent → Prop
  | .read b => ∀ x ∈ s.completes b, x.2.answers = some ⟨b, x.1⟩
  | _ => True

instance AnswersOwn.decidable (s : System) : ∀ e, Decidable (AnswersOwn s e)
  | .read b => inferInstanceAs (Decidable (∀ x ∈ s.completes b, _))
  | .relay _ | .relayRead _ | .dial _ _ | .handshake _ | .hangup _ | .begin _ _ | .send _ _ _ _
  | .timeout _ _ | .lost _ | .agentRead _ | .agentNotify _ _ _ | .agentAnswer _ _ _ =>
      isTrue trivial

/-- The latest call of a bridge under its id: no call of that bridge, begun `2 ^ 64` or more calls
    later, has taken the id over. -/
def System.IsLatest (s : System) (b : Nat) (o : CallRef) : Prop :=
  o.bridge = b ∧ (s.clients b).nextId ≤ o.call + 2 ^ 64

instance (s : System) (b : Nat) (o : CallRef) : Decidable (s.IsLatest b o) :=
  inferInstanceAs (Decidable (_ ∧ _))

/-- **No call waits under the id of another call's answer.** -/
def NoForeignMatch (s : System) : SystemEvent → Prop
  | .read b => ∀ x ∈ s.nextFrame b, ∀ o ∈ x.2.answers, ¬ s.IsLatest b o →
      (s.clients b).pending.lookup (wireId o.call) = none
  | _ => True

instance NoForeignMatch.decidable (s : System) : ∀ e, Decidable (NoForeignMatch s e)
  | .read b => inferInstanceAs (Decidable (∀ x ∈ s.nextFrame b, ∀ o ∈ x.2.answers, _))
  | .relay _ | .relayRead _ | .dial _ _ | .handshake _ | .hangup _ | .begin _ _ | .send _ _ _ _
  | .timeout _ _ | .lost _ | .agentRead _ | .agentNotify _ _ _ | .agentAnswer _ _ _ =>
      isTrue trivial

section Step

variable {s : System}

/-- What a bridge reads next is a notification or an answer. -/
theorem nextFrame_ok (h : SysInv s) {b conn : Nat} {f : Frame}
    (hf : s.nextFrame b = some (conn, f)) : IsNote f ∨ ∃ o, AnswersTo s.begun f o := by
  obtain ⟨c, hc, hm⟩ := Option.bind_eq_some_iff.mp hf
  obtain ⟨g, hg, heq⟩ := Option.map_eq_some_iff.mp hm
  cases heq
  rcases h.down conn f (List.mem_of_head? hg) with hnote | ⟨-, hanswer⟩ | ⟨hagent, -⟩
  · left
    exact hnote
  · right
    exact hanswer
  · -- the other end of a bridge's sink is no agent's
    rw [h.sink b conn hc] at hagent
    cases hagent

/-- **What completes a call**: an answer to some call with the id the call waits under. -/
theorem mem_completes (h : SysInv s) {b n : Nat} {f : Frame} :
    (n, f) ∈ s.completes b ↔ ∃ conn o, s.nextFrame b = some (conn, f) ∧
      AnswersTo s.begun f o ∧ (s.clients b).pending.lookup (wireId o.call) = some n := by
  constructor
  · intro hn
    obtain ⟨⟨conn, g⟩, hg, hm⟩ := Option.bind_eq_some_iff.mp hn
    obtain ⟨⟨m, r⟩, hr, heq⟩ := Option.map_eq_some_iff.mp hm
    cases heq
    obtain ⟨⟨id, hid, hp⟩, -⟩ := receive_eq_some.mp hr
    rcases nextFrame_ok h hg with hnote | ⟨o, ho⟩
    · rw [hnote.id] at hid
      cases hid
    · rw [ho.id] at hid
      have hid : wireId o.call = id := by simpa using hid
      rw [← hid] at hp
      exact ⟨conn, o, hg, ho, hp⟩
  · intro hn
    obtain ⟨conn, o, hf, ho, hp⟩ := hn
    have hr : ((s.clients b).receive f.value).2 = some (n, responseResult f.value) :=
      receive_eq_some.mpr ⟨⟨wireId o.call, by simp [ho.id], hp⟩, rfl⟩
    simp [System.completes, hf, hr]

/-- A waiting call is the one an answer belongs to exactly when that is the latest with its
    id. -/
theorem waiting_eq_iff (h : SysInv s) {b n : Nat} {f : Frame} {o : CallRef}
    (ho : AnswersTo s.begun f o)
    (hn : (s.clients b).pending.lookup (wireId o.call) = some n) :
    o = ⟨b, n⟩ ↔ s.IsLatest b o := by
  obtain ⟨hid, hlt⟩ := (h.clients b).begun _ n hn
  have hlatest := (h.clients b).latest _ n hn
  constructor
  · intro heq
    subst heq
    refine ⟨rfl, ?_⟩
    by_contra hc
    -- a call `2 ^ 64` later would have taken the entry over
    have hle := hlatest (n + 2 ^ 64) (by simpa using hc) (by simp [wireId])
    omega
  · intro hl
    obtain ⟨hb, hnext⟩ := hl
    have hbegun : o.call < (s.clients b).nextId := hb ▸ ho.begun
    have hle : o.call ≤ n := hlatest o.call hbegun rfl
    have hcall : o.call = n := by
      unfold wireId at hid
      omega
    rw [← hb, ← hcall]

/-- **One step**: the frame a bridge reads completes only its own call exactly when no call waits
    under the id of another's answer. -/
theorem answersOwn_iff (h : SysInv s) (e : SystemEvent) : AnswersOwn s e ↔ NoForeignMatch s e := by
  cases e with
  | read b =>
    constructor
    · intro hown x hx o ho hnl
      obtain ⟨conn, f⟩ := x
      rcases nextFrame_ok h hx with hnote | ⟨o', ho'⟩
      · rw [Option.mem_def, hnote.answers] at ho
        cases ho
      · obtain rfl : o' = o := Option.some.inj (ho'.answers.symm.trans ho)
        rw [Option.eq_none_iff_forall_not_mem]
        intro n hn
        have hmine := hown (n, f) ((mem_completes h).mpr ⟨conn, o', hx, ho', hn⟩)
        have heq : o' = ⟨b, n⟩ := Option.some.inj (ho'.answers.symm.trans hmine)
        exact hnl ((waiting_eq_iff h ho' hn).mp heq)
    · intro hno x hx
      obtain ⟨n, f⟩ := x
      obtain ⟨conn, o, hf, ho, hn⟩ := (mem_completes h).mp hx
      rw [ho.answers]
      have hl : s.IsLatest b o := by
        by_contra hnl
        rw [hno (conn, f) hf o ho.answers hnl] at hn
        cases hn
      rw [(waiting_eq_iff h ho hn).mpr hl]
  | _ => exact Iff.rfl

end Step

/-! ## 2. Runs -/

/-- **Whose answer completes a call, over runs.** In every run every call is completed by the
    answer to its own request exactly when no bridge ever reads the answer to another call while
    a call of its own waits under the same id. -/
theorem answers_own_iff {hist : List (System × SystemEvent)} {s : System}
    (h : SystemRun hist s) :
    (∀ x ∈ hist, AnswersOwn x.1 x.2) ↔ ∀ x ∈ hist, NoForeignMatch x.1 x.2 := by
  refine forall₂_congr fun x hx => ?_
  obtain ⟨earlier, hrun⟩ := h.of_mem hx
  exact answersOwn_iff (SystemRun.inv hrun) x.2

/-! ## 3. Two bridges under one token -/

/-- An agent registers on connection 0 and reads its hello_ack. Newest first. -/
def agentJoins : List SystemEvent :=
  [.agentRead 0, .relay (.job 0 none), .relay (.job 0 none), .relay (.job 0 none),
    .relay (.hello 0 (some ⟨.agent, "box", "box", some "t"⟩) ⟨0, 0, 7⟩), .relay (.accept 0)]

/-- Bridge `b` registers on connection `conn` and reads its hello_ack. -/
def bridgeJoins (b conn : Nat) : List SystemEvent :=
  [.handshake b, .dial b conn, .relay (.job conn none), .relay (.job conn none),
    .relay (.hello conn (some ⟨.bridge, "laptop", "laptop", some "t"⟩) ⟨0, 0, 8⟩),
    .relay (.accept conn)]

/-- Call 1 of bridge 0 reaches the agent, which answers it; the relay has the answer. -/
def firstCallAnswered : List SystemEvent :=
  [.relayRead 0, .agentAnswer 0 0 (.ok (.obj [("size", .nat 5)])), .agentRead 0,
    .relay (.job 1 none), .relayRead 1, .send 0 1 (.stat "/a") none, .begin 0 (.stat "/a")]

/-- One bridge: its call is answered. -/
def oneCall : List SystemEvent :=
  [.read 0, .relay (.job 0 none)] ++ firstCallAnswered ++ bridgeJoins 0 1 ++ agentJoins

/-- Two bridges: while the answer is on its way, call 1 of bridge 1 begins. -/
def twoCalls : List SystemEvent :=
  [.read 1, .relay (.job 0 none), .relay (.job 0 none), .send 1 1 (.stat "/b") none,
    .begin 1 (.stat "/b")] ++ firstCallAnswered ++ bridgeJoins 1 2 ++ bridgeJoins 0 1 ++ agentJoins

def oneCallHist : List (System × SystemEvent) := (replay System.next (.start none) oneCall).1

def twoCallsHist : List (System × SystemEvent) := (replay System.next (.start none) twoCalls).1

theorem oneCall_run : SystemRun oneCallHist (replay System.next (.start none) oneCall).2 :=
  Run.of_replay ⟨none, rfl⟩ (by decide)

theorem twoCalls_run : SystemRun twoCallsHist (replay System.next (.start none) twoCalls).2 :=
  Run.of_replay ⟨none, rfl⟩ (by decide)

/-- The one bridge reads the answer to its own call. -/
theorem oneCall_own : (oneCallHist.head?.bind fun x => (x.1.completes 0).map Prod.fst) = some 1 ∧
    ∀ x ∈ oneCallHist, AnswersOwn x.1 x.2 :=
  ⟨by decide, (answers_own_iff oneCall_run).mpr (by decide)⟩

/-- **A foreign answer completes a call**: bridge 1 asked for `/b` and gets the agent's answer
    about `/a`, that bridge 0 asked for. -/
theorem foreign_answer_completes :
    SystemRun twoCallsHist (replay System.next (.start none) twoCalls).2 ∧
    ∃ x ∈ twoCallsHist, x.2 = .read 1 ∧ ∃ f, x.1.completes 1 = some (1, f) ∧
      f.answers = some ⟨0, 1⟩ ∧ ¬ AnswersOwn x.1 x.2 := by
  refine ⟨twoCalls_run, _, List.mem_cons_self, rfl, _, rfl, rfl, ?_⟩
  decide

end Relayfs

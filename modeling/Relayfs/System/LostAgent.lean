/-
  File:      Relayfs/System/LostAgent.lean
  Subject:   CALLS OUTSTANDING AT AN AGENT THAT IS LOST. The relay tells the bridges of its token that
             an agent has gone, and keeps no list of the requests it has forwarded; a bridge that
             reads the notification forgets the agent's id, and leaves its pending map alone.

  * `BeginsCall`, `SettlesCall` -- what puts a call into the pending map, and what takes it out;
  * `pending_iff` -- a call is in the map from the one to the other, in every run;
  * `LostCall` -- a request was forwarded to an agent, whose connection ended without an answer;
  * `lost_call_settled_iff` -- once the bridge has read the notification, such a call is out of the
    map exactly when something else had taken it out before;
  * `lost_call_waits` -- a run in which nothing has.
-/
import Relayfs.System.Answers

namespace Relayfs

open Lib

/-! ## 1. In and out of the pending map -/

/-- The step begins call `n` of bridge `b`. -/
def BeginsCall (b n : Nat) (x : System × SystemEvent) : Prop :=
  match x.2 with
  | .begin b' _ => b' = b ∧ (x.1.clients b).nextId = n
  | _ => False

instance BeginsCall.decidable (b n : Nat) : DecidablePred (BeginsCall b n)
  | (s, .begin b' _) => inferInstanceAs (Decidable (b' = b ∧ (s.clients b).nextId = n))
  | (_, .relay _) | (_, .relayRead _) | (_, .dial _ _) | (_, .handshake _) | (_, .hangup _)
  | (_, .send _ _ _ _) | (_, .timeout _ _) | (_, .read _) | (_, .lost _) | (_, .agentRead _)
  | (_, .agentNotify _ _ _) | (_, .agentAnswer _ _ _) => isFalse id

/-- **The step takes call `n` of bridge `b` out of the pending map**: the timer of a call with its
    id fires, the send of one fails, the bridge reads a frame with this id, it loses its
    connection to the relay, or another call takes the id over. -/
def SettlesCall (b n : Nat) (x : System × SystemEvent) : Prop :=
  match x.2 with
  | .timeout b' m => b' = b ∧ wireId m = wireId n
  | .send b' m _ error =>
      b' = b ∧ wireId m = wireId n ∧ ((x.1.clients b).link.sink = none ∨ error ≠ none)
  | .read b' =>
      b' = b ∧ ∃ f ∈ x.1.nextFrame b, (f.2.value.get "id").bind Json.asU64 = some (wireId n)
  | .lost b' => b' = b
  | .begin b' _ => b' = b ∧ wireId (x.1.clients b).nextId = wireId n
  | _ => False

/-- The call has begun; something has taken it out of the map since. -/
def Began (b n : Nat) (hist : List (System × SystemEvent)) : Prop := ∃ x ∈ hist, BeginsCall b n x

def Settled (b n : Nat) (hist : List (System × SystemEvent)) : Prop :=
  ∃ x ∈ hist.takeWhile fun x => ¬ BeginsCall b n x, SettlesCall b n x

/-- The call is registered under its id. -/
def System.Pending (s : System) (b n : Nat) : Prop :=
  (s.clients b).pending.lookup (wireId n) = some n

section Client

variable {c : AgentClient} {n m : Nat}

theorem pending_erase {id : Nat} :
    (c.pending.erase id).lookup (wireId n) = some n ↔
      c.pending.lookup (wireId n) = some n ∧ id ≠ wireId n := by
  constructor
  · intro h
    refine ⟨lookup_of_erase h, fun hid => ?_⟩
    rw [hid, AList.lookup_erase] at h
    cases h
  · intro h
    obtain ⟨hl, hid⟩ := h
    rwa [AList.lookup_erase_ne hid.symm]

theorem pending_beginCall {req : BridgeRequest} :
    (c.beginCall req).pending.lookup (wireId n) = some n ↔
      c.nextId = n ∨ (c.pending.lookup (wireId n) = some n ∧ wireId c.nextId ≠ wireId n) := by
  unfold AgentClient.beginCall
  by_cases hid : wireId n = wireId c.nextId
  · dsimp only
    rw [hid, AList.lookup_insert, Option.some.injEq]
    simp
  · dsimp only
    rw [AList.lookup_insert_ne hid]
    constructor
    · intro h
      exact .inr ⟨h, fun heq => hid heq.symm⟩
    · intro h
      rcases h with rfl | h
      · exact absurd rfl hid
      · exact h.1

theorem pending_sendFrame {req : BridgeRequest} {error : Option String} :
    (c.sendFrame m req error).1.pending.lookup (wireId n) = some n ↔
      c.pending.lookup (wireId n) = some n ∧
        ¬ (wireId m = wireId n ∧ (c.link.sink = none ∨ error ≠ none)) := by
  unfold AgentClient.sendFrame
  cases hl : c.link.sink with
  | none =>
    simp only [hl, pending_erase, true_or, and_true, ne_eq]
  | some conn =>
    cases error with
    | none => simp [hl]
    | some e => simp only [hl, pending_erase, ne_eq, reduceCtorEq, not_false_eq_true, or_true,
        and_true]

theorem pending_receive {value : Json} :
    (c.receive value).1.pending.lookup (wireId n) = some n ↔
      c.pending.lookup (wireId n) = some n ∧
        (value.get "id").bind Json.asU64 ≠ some (wireId n) := by
  unfold AgentClient.receive
  cases hid : (value.get "id").bind Json.asU64 with
  | none => simp
  | some id =>
    cases hl : c.pending.lookup id with
    | none =>
      simp only [hl]
      constructor
      · intro h
        refine ⟨h, fun heq => ?_⟩
        rw [Option.some.inj heq, h] at hl
        cases hl
      · exact And.left
    | some k => simp only [hl, pending_erase, ne_eq, Option.some.injEq]

end Client

/-! ## 2. Over a run -/

/-- **What a step does to one client.** -/
inductive ClientEffect (s : System) (b : Nat) : SystemEvent → AgentClient → Prop where
  | begins (req : BridgeRequest) :
      ClientEffect s b (.begin b req) ((s.clients b).beginCall req)
  | sends (m : Nat) (req : BridgeRequest) (error : Option String) :
      ClientEffect s b (.send b m req error) ((s.clients b).sendFrame m req error).1
  | timesOut (m : Nat) : ClientEffect s b (.timeout b m) ((s.clients b).timeout m).1
  | reads {conn : Nat} {f : Frame} (hf : s.nextFrame b = some (conn, f)) :
      ClientEffect s b (.read b) ((s.clients b).receive f.value).1
  | loses : ClientEffect s b (.lost b) (s.clients b).connectionLost
  | other {e : SystemEvent} (link : Link) (hb : ∀ n, ¬ BeginsCall b n (s, e))
      (hs : ∀ n, ¬ SettlesCall b n (s, e)) :
      ClientEffect s b e { s.clients b with link := link }

section Step

variable {s : System} {e : SystemEvent} {b n : Nat}

/-- A step of another client, or of none. -/
theorem clientEffect_same (hc : (s.next e).clients b = s.clients b)
    (hb : ∀ n, ¬ BeginsCall b n (s, e)) (hs : ∀ n, ¬ SettlesCall b n (s, e)) :
    ClientEffect s b e ((s.next e).clients b) := by
  rw [hc]
  exact .other (s.clients b).link hb hs

theorem clientEffect_link {b' : Nat} {link : Link} (hb : ∀ n, ¬ BeginsCall b n (s, e))
    (hs : ∀ n, ¬ SettlesCall b n (s, e)) :
    ClientEffect s b e (setAt s.clients b' { s.clients b' with link := link } b) := by
  by_cases hbb : b = b'
  · subst hbb
    rw [setAt_self]
    exact .other link hb hs
  · rw [setAt_ne _ _ hbb]
    exact .other (s.clients b).link hb hs

theorem clientEffect_next : ClientEffect s b e ((s.next e).clients b) := by
  cases e with
  | «begin» b' req =>
    by_cases hb : b = b'
    · subst hb
      simp only [System.next, setAt_self]
      exact .begins req
    · exact clientEffect_same (setAt_ne _ _ hb) (fun _ h => hb h.1.symm) fun _ h => hb h.1.symm
  | send b' m req error =>
    have hclients : (s.next (.send b' m req error)).clients
        = setAt s.clients b' ((s.clients b').sendFrame m req error).1 := by
      simp only [System.next]
      split <;> rfl
    by_cases hb : b = b'
    · subst hb
      rw [hclients, setAt_self]
      exact .sends m req error
    · exact clientEffect_same (by rw [hclients, setAt_ne _ _ hb]) (fun _ => id)
        fun _ h => hb h.1.symm
  | timeout b' m =>
    by_cases hb : b = b'
    · subst hb
      simp only [System.next, setAt_self]
      exact .timesOut m
    · exact clientEffect_same (setAt_ne _ _ hb) (fun _ => id) fun _ h => hb h.1.symm
  | read b' =>
    cases hf : s.nextFrame b' with
    | none =>
      refine clientEffect_same (by simp only [System.next, hf]) (fun _ => id) fun _ h => ?_
      obtain ⟨rfl, f, hmem, _⟩ := h
      rw [hf] at hmem
      cases hmem
    | some x =>
      by_cases hb : b = b'
      · subst hb
        simp only [System.next, hf, setAt_self]
        exact .reads hf
      · exact clientEffect_same (by simp only [System.next, hf, setAt_ne _ _ hb]) (fun _ => id)
          fun _ h => hb h.1.symm
  | lost b' =>
    by_cases hb : b = b'
    · subst hb
      simp only [System.next, setAt_self]
      exact .loses
    · exact clientEffect_same (setAt_ne _ _ hb) (fun _ => id) fun _ h => hb h.symm
  | relay e =>
    refine clientEffect_same ?_ (fun _ => id) fun _ => id
    simp only [System.next]
    split
    · split <;> rfl
    · rfl
  | relayRead conn =>
    refine clientEffect_same ?_ (fun _ => id) fun _ => id
    simp only [System.next]
    split <;> rfl
  | dial b' conn => exact clientEffect_link (fun _ => id) fun _ => id
  | handshake b' =>
    simp only [System.next]
    split
    · exact clientEffect_link (fun _ => id) fun _ => id
    · exact .other (s.clients b).link (fun _ => id) fun _ => id
  | hangup b' => exact clientEffect_link (fun _ => id) fun _ => id
  | agentRead conn =>
    refine clientEffect_same ?_ (fun _ => id) fun _ => id
    simp only [System.next]
    split
    · split <;> rfl
    · rfl
  | agentNotify conn method params => exact clientEffect_same rfl (fun _ => id) fun _ => id
  | agentAnswer conn i outcome =>
    refine clientEffect_same ?_ (fun _ => id) fun _ => id
    simp only [System.next]
    split
    · split <;> rfl
    · rfl

/-- **One step**: a call is registered after it when it began, or was registered and not taken
    out. -/
theorem ClientEffect.pending {c : AgentClient} (h : ClientEffect s b e c) :
    c.pending.lookup (wireId n) = some n ↔
      BeginsCall b n (s, e) ∨ (s.Pending b n ∧ ¬ SettlesCall b n (s, e)) := by
  unfold System.Pending
  cases h with
  | begins req => rw [pending_beginCall]; simp [BeginsCall, SettlesCall]
  | sends m req error => rw [pending_sendFrame]; simp [BeginsCall, SettlesCall]
  | timesOut m =>
    simp only [AgentClient.timeout, pending_erase]
    simp [BeginsCall, SettlesCall]
  | reads hf => rw [pending_receive]; simp [BeginsCall, SettlesCall, hf]
  | loses => simp [BeginsCall, SettlesCall, AgentClient.connectionLost]
  | other link hb hs => simp only [hb n, hs n, false_or, not_false_eq_true, and_true]

/-- A call that has not sent yet has begun with this step, or had not sent before. -/
theorem ClientEffect.unsent {c : AgentClient} (h : ClientEffect s b e c) {req : BridgeRequest}
    (hm : (n, req) ∈ c.unsent) : BeginsCall b n (s, e) ∨ (n, req) ∈ (s.clients b).unsent := by
  cases h with
  | begins req' =>
    rcases List.mem_cons.mp hm with heq | hm
    · exact .inl ⟨rfl, (Prod.mk.inj heq).1.symm⟩
    · exact .inr hm
  | sends m req' error =>
    right
    unfold AgentClient.sendFrame at hm
    dsimp only at hm
    split at hm <;> exact List.mem_of_mem_erase hm
  | timesOut m => exact .inr hm
  | reads hf =>
    right
    unfold AgentClient.receive at hm
    split at hm
    · exact hm
    · split at hm <;> exact hm
  | loses => exact .inr hm
  | other link hb hs => exact .inr hm

end Step

section Run

variable {hist : List (System × SystemEvent)} {s : System} {b n : Nat}

theorem began_cons {x : System × SystemEvent} :
    Began b n (x :: hist) ↔ BeginsCall b n x ∨ Began b n hist :=
  List.exists_mem_cons_iff _ _ _

theorem settled_cons {x : System × SystemEvent} (hb : ¬ BeginsCall b n x) :
    Settled b n (x :: hist) ↔ SettlesCall b n x ∨ Settled b n hist := by
  have hw : (x :: hist).takeWhile (fun x => ¬ BeginsCall b n x)
      = x :: hist.takeWhile fun x => ¬ BeginsCall b n x :=
    List.takeWhile_cons_of_pos (by simpa using hb)
  rw [Settled, hw]
  exact List.exists_mem_cons_iff _ _ _

/-- Nothing has taken out a call that begins. -/
theorem not_settled_cons {x : System × SystemEvent} (hb : BeginsCall b n x) :
    ¬ Settled b n (x :: hist) := by
  have hw : (x :: hist).takeWhile (fun x => ¬ BeginsCall b n x) = [] :=
    List.takeWhile_cons_of_neg (by simpa using hb)
  rw [Settled, hw]
  simp

/-- **A call is registered from its beginning until something takes it out.** -/
theorem pending_iff (h : SystemRun hist s) :
    s.Pending b n ↔ Began b n hist ∧ ¬ Settled b n hist := by
  induction h with
  | start h0 =>
    obtain ⟨requiredToken, rfl⟩ := h0
    simp [System.Pending, System.start, AgentClient.new, Began]
  | @step hist s s' e _ hs ih =>
    obtain ⟨-, rfl⟩ := hs
    rw [System.Pending, clientEffect_next.pending, ih, began_cons]
    by_cases hb : BeginsCall b n (s, e)
    · simp [hb, not_settled_cons hb]
    · rw [settled_cons hb, not_or]
      simp only [hb, false_or]
      tauto

/-- A call that has not sent yet has begun. -/
theorem unsent_began (h : SystemRun hist s) {req : BridgeRequest}
    (hm : (n, req) ∈ (s.clients b).unsent) : Began b n hist := by
  induction h with
  | start h0 =>
    obtain ⟨requiredToken, rfl⟩ := h0
    cases hm
  | step _ hs ih =>
    obtain ⟨-, rfl⟩ := hs
    rcases clientEffect_next.unsent hm with hb | hm
    · exact ⟨_, List.mem_cons_self, hb⟩
    · obtain ⟨x, hx, hb⟩ := ih hm
      exact ⟨x, List.mem_cons_of_mem _ hx, hb⟩

end Run

/-! ## 3. Lost calls -/

/-- The relay puts the request of a call on the connection of an agent. -/
def ForwardsTo (agent : Nat) (o : CallRef) (x : System × SystemEvent) : Prop :=
  ∃ conn f, x.2 = .relay (.job conn none) ∧ x.1.relay.emitted conn none = some (agent, f) ∧
    f.asks = some o

/-- The relay reads an answer to a call from the connection of an agent. -/
def ReadsAnswer (agent : Nat) (o : CallRef) (x : System × SystemEvent) : Prop :=
  match x.2 with
  | .relayRead conn => conn = agent ∧ ∃ f ∈ (x.1.up agent).head?, f.answers = some o
  | _ => False

instance ReadsAnswer.decidable (agent : Nat) (o : CallRef) : DecidablePred (ReadsAnswer agent o)
  | (s, .relayRead conn) =>
      inferInstanceAs (Decidable (conn = agent ∧ ∃ f ∈ (s.up agent).head?, f.answers = some o))
  | (_, .relay _) | (_, .dial _ _) | (_, .handshake _) | (_, .hangup _) | (_, .begin _ _)
  | (_, .send _ _ _ _) | (_, .timeout _ _) | (_, .read _) | (_, .lost _) | (_, .agentRead _)
  | (_, .agentNotify _ _ _) | (_, .agentAnswer _ _ _) => isFalse id

/-- **Call `n` of bridge `b` is outstanding at an agent that is lost**: its request was sent and
    forwarded, and the agent's connection has ended before it answered. -/
structure LostCall (b n agent : Nat) (hist : List (System × SystemEvent)) : Prop where
  sent : ∃ x ∈ hist, ∃ req, x.2 = .send b n req none
  forwarded : ∃ x ∈ hist, ForwardsTo agent ⟨b, n⟩ x
  ended : ∃ x ∈ hist, x.2 = .relay (.close agent)
  unanswered : ∀ x ∈ hist, ¬ ReadsAnswer agent ⟨b, n⟩ x

/-- The bridge reads the notification that the agent has gone. -/
def ReadsGone (b agent : Nat) (x : System × SystemEvent) : Prop :=
  x.2 = .read b ∧ ∃ token peer conn, (x.1.relay.tasks.lookup agent).bind (·.registered)
    = some (token, peer) ∧ x.1.nextFrame b = some (conn, agentDisconnected peer)

theorem LostCall.began {b n agent : Nat} {hist : List (System × SystemEvent)} {s : System}
    (h : LostCall b n agent hist) (hr : SystemRun hist s) : Began b n hist := by
  obtain ⟨x, hx, req, he⟩ := h.sent
  obtain ⟨later, earlier, rfl⟩ := List.append_of_mem hx
  obtain ⟨hrun, s', hs, -⟩ := hr.split
  obtain ⟨hok, -⟩ := hs
  rw [he] at hok
  obtain ⟨y, hy, hb⟩ := unsent_began hrun hok
  exact ⟨y, List.mem_append_right _ (List.mem_cons_of_mem _ hy), hb⟩

/-- The notification takes no call out of the map. -/
theorem ReadsGone.pending {b n agent : Nat} {s : System} {e : SystemEvent}
    (h : ReadsGone b agent (s, e)) : (s.next e).Pending b n ↔ s.Pending b n := by
  obtain ⟨he, token, peer, conn, -, hf⟩ := h
  obtain rfl : e = .read b := he
  have hs : ¬ SettlesCall b n (s, .read b) := by
    intro h'
    obtain ⟨-, f, hmem, hid⟩ := h'
    rw [hf] at hmem
    cases hmem
    cases hid
  rw [System.Pending, clientEffect_next.pending]
  simp [hs, BeginsCall]

/-- **What becomes of a lost call.** In every run, once a bridge has read that an agent has gone, a
    call outstanding there is out of its pending map exactly when something else had taken it
    out before. -/
theorem lost_call_settled_iff {hist : List (System × SystemEvent)} {s : System}
    {e : SystemEvent} {b n agent : Nat} (h : SystemRun hist s) (hgone : ReadsGone b agent (s, e))
    (hlost : LostCall b n agent hist) :
    ¬ (s.next e).Pending b n ↔ Settled b n hist := by
  rw [hgone.pending, pending_iff h]
  simp [hlost.began h]

/-! ## 4. Two runs -/

/-- A call of bridge 0 is forwarded to the agent on connection 0, whose connection then ends; the
    notification is on its way to the bridge. Newest first. -/
def agentLost : List SystemEvent :=
  [.relay (.job 0 none), .relay (.job 0 none), .relay (.close 0), .relay (.job 1 none),
    .relayRead 1, .send 0 1 (.stat "/a") none, .begin 0 (.stat "/a")]
    ++ bridgeJoins 0 1 ++ agentJoins

def agentLostHist : List (System × SystemEvent) := (replay System.next (.start none) agentLost).1

def agentLostState : System := (replay System.next (.start none) agentLost).2

theorem agentLost_run : SystemRun agentLostHist agentLostState :=
  Run.of_replay ⟨none, rfl⟩ (by decide)

theorem agentLost_lost : LostCall 0 1 0 agentLostHist where
  sent := ⟨_, List.getElem_mem (n := 5) (by decide), _, rfl⟩
  forwarded := ⟨_, List.getElem_mem (n := 3) (by decide), 1, _, rfl, rfl, rfl⟩
  ended := ⟨_, List.getElem_mem (n := 2) (by decide), rfl⟩
  unanswered := by decide

theorem agentLost_gone : ReadsGone 0 0 (agentLostState, .read 0) :=
  ⟨rfl, _, _, _, rfl, rfl⟩

theorem agentLost_pending : agentLostState.Pending 0 1 :=
  show (agentLostState.clients 0).pending.lookup (wireId 1) = some 1 by decide

/-- The timer of the call fires before the bridge reads the notification. -/
theorem lost_call_settled_timeout : ∃ hist s, SystemRun hist s ∧ ReadsGone 0 0 (s, .read 0) ∧
    LostCall 0 1 0 hist ∧ ¬ (s.next (.read 0)).Pending 0 1 := by
  have hrun : SystemRun _ (agentLostState.next (.timeout 0 1)) :=
    agentLost_run.step (e := .timeout 0 1) ⟨by decide, rfl⟩
  have hlost : LostCall 0 1 0 ((agentLostState, .timeout 0 1) :: agentLostHist) :=
    { sent := ⟨_, List.getElem_mem (n := 6) (by decide), _, rfl⟩
      forwarded := ⟨_, List.getElem_mem (n := 4) (by decide), 1, _, rfl, rfl, rfl⟩
      ended := ⟨_, List.getElem_mem (n := 3) (by decide), rfl⟩
      unanswered := by decide }
  have hgone : ReadsGone 0 0 (agentLostState.next (.timeout 0 1), .read 0) :=
    ⟨rfl, _, _, _, rfl, rfl⟩
  refine ⟨_, _, hrun, hgone, hlost, (lost_call_settled_iff hrun hgone hlost).mpr ?_⟩
  exact (settled_cons id).mpr (.inl ⟨rfl, rfl⟩)

/-- **A lost call waits on**: the bridge has read that the agent is gone, and the call is still
    registered. -/
theorem lost_call_waits : ¬ ∀ hist s e b n agent, SystemRun hist s → ReadsGone b agent (s, e) →
    LostCall b n agent hist → ¬ (s.next e).Pending b n := by
  intro hall
  exact hall _ _ (.read 0) 0 1 0 agentLost_run agentLost_gone agentLost_lost
    (agentLost_gone.pending.mpr agentLost_pending)

end Relayfs

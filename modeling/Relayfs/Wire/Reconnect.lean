/-
  File:      Relayfs/Wire/Reconnect.lean
  Subject:   HOW THE BRIDGE AND THE AGENT COME BACK TO THE RELAY (rpc/src/lib.rs,
             `ReconnectBackoff`, `relay_ws_url`).

  Both keep a schedule of delays that doubles from 250 ms up to a bound, and take it back to its
  first delay when a connection has lasted 30 s. A duration is a number of nanoseconds.

  * `ReconnectBackoff` -- the schedule, with `nextDelay` and `reset`;
  * `ReconnectBackoff.retryDelay` -- the end of one turn of either reconnect loop;
  * `ReconnectBackoff.next_after` -- the delay that is next, from the attempts made: 250 ms times
    two to the number of retries since the last attempt that lasted, or the bound;
  * `relayWsUrl` -- the address that is dialed.
-/
import Mathlib.Algebra.Order.Ring.Nat
import Mathlib.Data.List.DropRight

namespace Relayfs

/-! ## 1. Durations -/

/-- `Duration::MAX`, in nanoseconds. -/
def durationMax : Nat := 2 ^ 64 * 10 ^ 9 - 1

/-- `Duration::from_millis`. -/
def millis (n : Nat) : Nat := n * 10 ^ 6

/-- `Duration::from_secs`. -/
def secs (n : Nat) : Nat := n * 10 ^ 9

/-- `Duration::saturating_mul`. -/
def saturatingMul (d n : Nat) : Nat := Nat.min (d * n) durationMax

/-- A connection that has lasted so long resets the schedule. -/
def stableAfter : Nat := secs 30

/-! ## 2. The schedule -/

/-- `ReconnectBackoff`: the delay of the next retry, and the bound. -/
structure ReconnectBackoff where
  next : Nat
  max : Nat
  deriving DecidableEq, Repr

namespace ReconnectBackoff

/-- `INITIAL`. -/
def initial : Nat := millis 250

/-- `ReconnectBackoff::new`. -/
def new (max : Nat) : ReconnectBackoff := ⟨Nat.min initial max, max⟩

/-- `next_delay`: the current delay; the following one is twice as long, up to the bound. -/
def nextDelay (b : ReconnectBackoff) : Nat × ReconnectBackoff :=
  (b.next, { b with next := Nat.min (saturatingMul b.next 2) b.max })

/-- `reset`. -/
def reset (b : ReconnectBackoff) : ReconnectBackoff := { b with next := Nat.min initial b.max }

/-- The end of a turn of a reconnect loop, for an attempt whose connection ended `elapsed` after
    the attempt began: the delay before the next attempt, and the schedule after it. -/
def retryDelay (b : ReconnectBackoff) (elapsed : Nat) : Nat × ReconnectBackoff :=
  (if stableAfter ≤ elapsed then b.reset else b).nextDelay

/-- The schedule after a list of attempts, the latest first. -/
def after (max : Nat) : List Nat → ReconnectBackoff
  | [] => new max
  | elapsed :: earlier => ((after max earlier).retryDelay elapsed).2

/-- The delay before the attempt that follows a list of attempts, the latest first. -/
def delayAfter (max elapsed : Nat) (earlier : List Nat) : Nat :=
  ((after max earlier).retryDelay elapsed).1

/-- How many retries there have been since the schedule was at its first delay. -/
def retriesSince : List Nat → Nat
  | [] => 0
  | elapsed :: earlier => (if stableAfter ≤ elapsed then 0 else retriesSince earlier) + 1

/-! ## 3. What it comes to -/

variable {max : Nat}

@[simp] theorem new_max : (new max).max = max := rfl
@[simp] theorem reset_max (b : ReconnectBackoff) : b.reset.max = b.max := rfl

@[simp] theorem retryDelay_max (b : ReconnectBackoff) (elapsed : Nat) :
    (b.retryDelay elapsed).2.max = b.max := by
  by_cases h : stableAfter ≤ elapsed <;> simp [retryDelay, nextDelay, h]

@[simp] theorem after_max (attempts : List Nat) : (after max attempts).max = max := by
  induction attempts with
  | nil => rfl
  | cons elapsed earlier ih => simp [after, ih]

/-- Doubling a delay under the bound gives the next power, under the bound. -/
theorem min_saturatingMul {k : Nat} (hmax : max ≤ durationMax) :
    Nat.min (saturatingMul (Nat.min (initial * 2 ^ k) max) 2) max
      = Nat.min (initial * 2 ^ (k + 1)) max := by
  have hpow : initial * 2 ^ (k + 1) = 2 * (initial * 2 ^ k) := by
    rw [Nat.pow_succ]
    ac_rfl
  simp only [saturatingMul, hpow, Nat.min_def]
  split_ifs <;> omega

/-- **The delay that is next**: 250 ms doubled for every retry since the last attempt that lasted,
    or the bound. -/
theorem next_after (hmax : max ≤ durationMax) (attempts : List Nat) :
    (after max attempts).next = Nat.min (initial * 2 ^ retriesSince attempts) max := by
  induction attempts with
  | nil => simp [after, new, retriesSince]
  | cons elapsed earlier ih =>
    by_cases h : stableAfter ≤ elapsed
    · have := min_saturatingMul (k := 0) hmax
      simpa [after, retryDelay, nextDelay, reset, retriesSince, h] using this
    · simpa [after, retryDelay, nextDelay, retriesSince, h, ih] using min_saturatingMul hmax

/-- The delay after an attempt, by the number of retries since the last attempt that lasted. -/
theorem delayAfter_eq (hmax : max ≤ durationMax) (elapsed : Nat) (earlier : List Nat) :
    delayAfter max elapsed earlier
      = Nat.min (initial * 2 ^ (retriesSince (elapsed :: earlier) - 1)) max := by
  by_cases h : stableAfter ≤ elapsed
  · simp [delayAfter, retryDelay, nextDelay, reset, retriesSince, h]
  · simp [delayAfter, retryDelay, nextDelay, retriesSince, h, next_after hmax earlier]

/-- No delay exceeds the bound. -/
theorem delayAfter_le (hmax : max ≤ durationMax) (elapsed : Nat) (earlier : List Nat) :
    delayAfter max elapsed earlier ≤ max := by
  rw [delayAfter_eq hmax]
  exact Nat.min_le_right _ _

/-- A delay is the first one, or longer. -/
theorem le_delayAfter (hmax : max ≤ durationMax) (elapsed : Nat) (earlier : List Nat) :
    Nat.min initial max ≤ delayAfter max elapsed earlier := by
  rw [delayAfter_eq hmax]
  have hpos : 1 ≤ 2 ^ (retriesSince (elapsed :: earlier) - 1) := Nat.one_le_two_pow
  have hle : initial ≤ initial * 2 ^ (retriesSince (elapsed :: earlier) - 1) :=
    Nat.le_mul_of_pos_right _ hpos
  refine Nat.le_min.mpr ⟨?_, Nat.min_le_right _ _⟩
  exact Nat.le_trans (Nat.min_le_left _ _) hle

/-- The bound the agent is started with: `reconnect_secs`, a `u64`, and one second at least. -/
def agentMax (reconnectSecs : Nat) : Nat := secs (Nat.max reconnectSecs 1)

/-- The delays of the agent's loop. -/
theorem agent_delayAfter {reconnectSecs : Nat} (h : reconnectSecs < 2 ^ 64) (elapsed : Nat)
    (earlier : List Nat) : delayAfter (agentMax reconnectSecs) elapsed earlier
      = Nat.min (initial * 2 ^ (retriesSince (elapsed :: earlier) - 1))
          (agentMax reconnectSecs) := by
  have hle : Nat.max reconnectSecs 1 ≤ 2 ^ 64 - 1 := Nat.max_le.mpr ⟨by omega, by decide⟩
  refine delayAfter_eq ?_ elapsed earlier
  simp only [agentMax, secs, durationMax]
  omega

end ReconnectBackoff

/-! ## 4. The address -/

/-- `relay_ws_url`. -/
def relayWsUrl (base : String) : String :=
  let trimmed := base.toList.rdropWhile (· == '/')
  if ['/', 'w', 's'] <:+ trimmed then String.ofList trimmed
  else String.ofList (trimmed ++ ['/', 'w', 's'])

/-- What is dialed ends in `/ws`, and an address that does so is left as it is. -/
theorem relayWsUrl_settled (base : String) :
    ∃ host : List Char, (relayWsUrl base).toList = host ++ ['/', 'w', 's'] ∧
      relayWsUrl (relayWsUrl base) = relayWsUrl base := by
  have hfix : ∀ host : List Char, relayWsUrl (String.ofList (host ++ ['/', 'w', 's']))
      = String.ofList (host ++ ['/', 'w', 's']) := by
    intro host
    have htrim : (host ++ ['/', 'w', 's']).rdropWhile (· == '/') = host ++ ['/', 'w', 's'] := by
      rw [List.rdropWhile_eq_self_iff]
      intro hne
      simp
    simp [relayWsUrl, htrim]
  by_cases h : ['/', 'w', 's'] <:+ base.toList.rdropWhile (· == '/')
  · obtain ⟨host, hhost⟩ := h
    have hval : relayWsUrl base = String.ofList (host ++ ['/', 'w', 's']) := by
      simp [relayWsUrl, ← hhost]
    exact ⟨host, by simp [hval], by rw [hval, hfix]⟩
  · have hval : relayWsUrl base
        = String.ofList (base.toList.rdropWhile (· == '/') ++ ['/', 'w', 's']) := by
      simp [relayWsUrl, h]
    exact ⟨_, by rw [hval, String.toList_ofList], by rw [hval, hfix]⟩

end Relayfs

import Mathlib.Algebra.Order.Field.Rat
import Mathlib.Data.List.Count
import Mathlib.Tactic.Linarith
import RedisSemaphore.Semaphore.Instance

/-!
# The wait loop of an acquire

`_acquire` and `_aacquire` with everything they call between two scripts: `_check_timeout`,
`_wait_polling`, `_wait_blpop`, `_blpop_timeout_for` and `_next_retry_interval`. Redis is seen
through its replies, which are arbitrary, and so are the moments at which they come.

Times are in seconds and exact, except for `**`, which Python refuses once the result reaches
`2 ^ 1024`. A call runs from one read of `time.monotonic` to the next as one step, and any time may
pass between two steps.
-/

namespace RedisSemaphore.AcquireLoop

open Transition Client

/-- `AcquireMode`. -/
inductive AcquireMode
  | blpop | polling
  deriving DecidableEq, Repr

/-- What the loop reads of an accepted `SemaphoreConfig`. -/
structure Config where
  acquireTimeout : Option ℚ
  retryInterval : ℚ
  acquireMode : AcquireMode
  retryIntervalMax : Option ℚ
  retryBackoffMultiplier : ℚ
  retryJitter : ℚ
  blpopTimeout : ℚ
  acquireTimeout_pos : ∀ timeout ∈ acquireTimeout, 0 < timeout
  retryInterval_pos : 0 < retryInterval
  le_retryIntervalMax : ∀ max ∈ retryIntervalMax, retryInterval ≤ max
  one_le_multiplier : 1 ≤ retryBackoffMultiplier
  retryJitter_nonneg : 0 ≤ retryJitter
  retryJitter_le_one : retryJitter ≤ 1
  blpopTimeout_pos : 0 < blpopTimeout

/-- Python's `OverflowError`. -/
inductive OverflowError
  | overflow
  deriving DecidableEq, Repr

/-- `**` of two floats. -/
def floatPow (base : ℚ) (exponent : ℕ) : Except OverflowError ℚ :=
  if base ^ exponent < 2 ^ 1024 then .ok (base ^ exponent) else .error .overflow

section Waits

variable (cfg : Config)

/-- `_compute_blpop_wait_cap`, on the client's `socket_timeout`. -/
def blpopWaitCap (socketTimeout : Option ℚ) : Option ℚ :=
  match socketTimeout with
  | none => none
  | some timeout => if timeout ≤ 0 then none else some (timeout * (8 / 10))

/-- `_check_timeout`. -/
def checkTimeout (startTime clock : ℚ) : Bool :=
  match cfg.acquireTimeout with
  | none => false
  | some timeout => decide (timeout ≤ clock - startTime)

/-- `_remaining_time`. -/
def remainingTime (startTime clock : ℚ) : Option ℚ :=
  cfg.acquireTimeout.map fun timeout => max 0 (timeout - (clock - startTime))

/-- The first half of `_next_retry_interval`: the interval before the jitter. -/
def backoffInterval (attempts : ℕ) : Except OverflowError ℚ :=
  match cfg.retryIntervalMax with
  | none => .ok cfg.retryInterval
  | some max => do
    let multiplier ← floatPow cfg.retryBackoffMultiplier attempts
    return min (cfg.retryInterval * multiplier) max

/-- `_next_retry_interval`: the interval and the incremented `state.attempts`. `draw` is what
`random.random` gives `random.uniform`. -/
def nextRetryInterval (attempts : ℕ) (draw : ℚ) : Except OverflowError (ℚ × ℕ) := do
  let interval ← backoffInterval cfg attempts
  let interval :=
    if 0 < cfg.retryJitter then interval + draw * (cfg.retryJitter * interval) else interval
  return (interval, attempts + 1)

/-- The first half of `_blpop_timeout_for`: the configured timeout below the socket timeout. -/
def cappedTimeout (socketTimeout : Option ℚ) : ℚ :=
  match blpopWaitCap socketTimeout with
  | none => cfg.blpopTimeout
  | some cap => min cfg.blpopTimeout cap

/-- `_blpop_timeout_for`. A timeout below 10 ms is clamped up, unless the deadline is upon us: then
the wait is skipped. -/
def blpopTimeoutFor (socketTimeout remaining : Option ℚ) : ℚ :=
  let timeout := cappedTimeout cfg socketTimeout
  match remaining with
  | none => if timeout < 1 / 100 then 1 / 100 else timeout
  | some remaining =>
    let timeout := min timeout remaining
    if timeout < 1 / 100 then (if remaining < 1 / 100 then 0 else 1 / 100) else timeout

/-- What the loop asks for: the sleep of `_wait_polling`, the `BLPOP` of `_wait_blpop` with its
timeout, or the pause after a transient error of it. -/
inductive Request
  | sleep (interval : ℚ)
  | blpop (timeout : ℚ)
  | pause (interval : ℚ)

/-- For how long. -/
def Request.duration : Request → ℚ
  | .sleep interval => interval
  | .blpop timeout => timeout
  | .pause interval => interval

/-- `_wait_polling` up to its sleep. -/
def waitPolling (remaining : Option ℚ) (attempts : ℕ) (draw : ℚ) :
    Except OverflowError (Option Request × ℕ) := do
  let (interval, attempts) ← nextRetryInterval cfg attempts draw
  match remaining with
  | none => return (some (.sleep interval), attempts)
  | some remaining =>
    let interval := min interval remaining
    return (if interval ≤ 0 then none else some (.sleep interval), attempts)

/-- `_wait_blpop` up to its command. -/
def waitBlpop (socketTimeout remaining : Option ℚ) : Option Request :=
  let timeout := blpopTimeoutFor cfg socketTimeout remaining
  if timeout ≤ 0 then none else some (.blpop timeout)

/-- `_wait_for_slot` up to its request; `none` is the wait that is skipped. -/
def waitForSlot (socketTimeout remaining : Option ℚ) (attempts : ℕ) (draw : ℚ) :
    Except OverflowError (Option Request × ℕ) :=
  match cfg.acquireMode with
  | .blpop => .ok (waitBlpop cfg socketTimeout remaining, attempts)
  | .polling => waitPolling cfg remaining attempts draw

/-- `_on_transient_wait_error` and the pause after it. -/
def transientPause (remaining : Option ℚ) : Option Request :=
  let pause := min cfg.retryInterval 1
  let pause := match remaining with
    | none => pause
    | some remaining => min pause remaining
  if 0 < pause then some (.pause pause) else none

end Waits

/-! ## The loop -/

/-- How a call ends. -/
inductive Outcome
  | returned (success : Bool)
  | refused -- by the checks at its head
  | acquireTimeout
  | scriptError
  | waitError
  | overflow
  | noIdentifier -- the `AcquireError` of `_start_heartbeat`
  | cancelled
  deriving DecidableEq, Repr

/-- Where a call is. The await points of the task are the script in flight and what has been
requested. -/
inductive Phase
  | entering
  | scriptInFlight
  | denied -- before `_check_timeout`
  | toWait -- before `_wait_for_slot`
  | requested (request : Request)
  | blpopFailed -- by a transient error, before the pause
  | ended (outcome : Outcome)

/-- One call of `acquire` or `aacquire` and the counter `_waiting` of its instance. -/
structure State where
  clock : ℚ
  startTime : ℚ
  attempts : ℕ
  registered : Bool
  waiting : ℕ
  phase : Phase

/-- What the acquire script answers a call. A granted one may find that a release has taken its
identifier meanwhile, and then starts no heartbeat. -/
inductive ScriptReply
  | granted (started : Bool)
  | denied
  | error
  deriving DecidableEq, Repr

/-- What happens to a call: time, other calls on the instance that change its counter, and the
segments of the call. -/
inductive Event
  | advance (clock : ℚ)
  | others (delta : ℤ)
  | checks (passed : Bool)
  | script (reply : ScriptReply)
  | checkTimeout
  | wait (draw : ℚ)
  | woken
  | waitFailed (transient : Bool)
  | pause
  | cancel

/-- It is not a segment of the call. -/
def Event.Passive : Event → Prop
  | .advance _ => True
  | .others _ => True
  | _ => False

/-- The phase after `_wait_for_slot`, or after the pause, has made its request. -/
def afterRequest : Option Request → Phase
  | none => .scriptInFlight
  | some request => .requested request

namespace State

/-- `_increment_waiting`, made once per call. -/
def register (s : State) : State :=
  if s.registered then s else { s with waiting := s.waiting + 1, registered := true }

/-- `_decrement_waiting`, made by a call that was registered. -/
def unregister (s : State) : State :=
  if s.registered then { s with waiting := s.waiting - 1 } else s

/-- The call goes on. -/
def Active (s : State) : Prop := ∀ outcome, s.phase ≠ .ended outcome

end State

section System

variable (cfg : Config) (socketTimeout : Option ℚ) (api : Api) (blocking : Bool)

/-- One segment of the call, or what happens between two of them. -/
inductive Step (s : State) : Event → State → Prop
  | advance (clock : ℚ) (hactive : s.Active) (hle : s.clock ≤ clock) :
      Step s (.advance clock) { s with clock := clock }
  -- other calls take back only what they have added themselves
  | others (delta : ℤ) (waiting : ℕ) (hactive : s.Active)
      (hdelta : (waiting : ℤ) = s.waiting + delta) (hown : s.registered = true → 0 < waiting) :
      Step s (.others delta) { s with waiting := waiting }
  | checksFailed (hphase : s.phase = .entering) :
      Step s (.checks false) { s with phase := .ended .refused }
  | checksPassed (hphase : s.phase = .entering) :
      Step s (.checks true) { s with startTime := s.clock, phase := .scriptInFlight }
  | granted (started : Bool) (hphase : s.phase = .scriptInFlight) :
      Step s (.script (.granted started))
        { s.unregister with phase := .ended (if started then .returned true else .noIdentifier) }
  | busy (hphase : s.phase = .scriptInFlight) (hblocking : blocking = false) :
      Step s (.script .denied) { s with phase := .ended (.returned false) }
  | denied (hphase : s.phase = .scriptInFlight) (hblocking : blocking = true) :
      Step s (.script .denied) { s.register with phase := .denied }
  | scriptError (hphase : s.phase = .scriptInFlight) :
      Step s (.script .error) { s with phase := .ended .scriptError }
  | handleTimeout (hphase : s.phase = .denied)
      (hexpired : checkTimeout cfg s.startTime s.clock = true) :
      Step s .checkTimeout { s.unregister with phase := .ended .acquireTimeout }
  | inTime (hphase : s.phase = .denied)
      (hexpired : checkTimeout cfg s.startTime s.clock = false) :
      Step s .checkTimeout { s with phase := .toWait }
  | wait (draw : ℚ) (request : Option Request) (attempts : ℕ) (hphase : s.phase = .toWait)
      (hnonneg : 0 ≤ draw) (hle : draw ≤ 1)
      (hwait : waitForSlot cfg socketTimeout (remainingTime cfg s.startTime s.clock) s.attempts draw
        = .ok (request, attempts)) :
      Step s (.wait draw) { s with attempts := attempts, phase := afterRequest request }
  | overflow (draw : ℚ) (hphase : s.phase = .toWait)
      (hwait : waitForSlot cfg socketTimeout (remainingTime cfg s.startTime s.clock) s.attempts draw
        = .error .overflow) :
      Step s (.wait draw) { s with phase := .ended .overflow }
  -- the sleep or the pause is over, or the `BLPOP` got a token or timed out
  | woken (request : Request) (hphase : s.phase = .requested request) :
      Step s .woken { s with phase := .scriptInFlight }
  | waitFailed (timeout : ℚ) (hphase : s.phase = .requested (.blpop timeout)) :
      Step s (.waitFailed true) { s with phase := .blpopFailed }
  | waitError (timeout : ℚ) (hphase : s.phase = .requested (.blpop timeout)) :
      Step s (.waitFailed false) { s with phase := .ended .waitError }
  | pause (hphase : s.phase = .blpopFailed) :
      Step s .pause
        { s with
          phase := afterRequest (transientPause cfg (remainingTime cfg s.startTime s.clock)) }
  | cancel (hapi : api = .async)
      (hphase : s.phase = .scriptInFlight ∨ ∃ request, s.phase = .requested request) :
      Step s .cancel { s with phase := .ended .cancelled }

/-- A call on an instance whose counter is `entry` when it begins. -/
def system (entry : ℕ) : System State Event where
  start s := s.attempts = 0 ∧ s.registered = false ∧ s.waiting = entry ∧ s.phase = .entering
  step := Step cfg socketTimeout api blocking

variable {cfg socketTimeout api blocking}

/-- Nothing happens to a call that has ended. -/
theorem Step.active {s s' : State} {e : Event} (h : Step cfg socketTimeout api blocking s e s') :
    s.Active := by
  intro outcome hended
  cases h with
  | advance _ hactive | others _ _ hactive => exact hactive outcome hended
  | cancel hapi hphase =>
    rcases hphase with hphase | ⟨request, hphase⟩ <;> simp [hphase] at hended
  | checksFailed hphase | checksPassed hphase | granted _ hphase | busy hphase | denied hphase
  | scriptError hphase | handleTimeout hphase | inTime hphase | wait _ _ _ hphase
  | overflow _ hphase | woken _ hphase | waitFailed _ hphase | waitError _ hphase
  | pause hphase => simp [hphase] at hended

end System

/-! ## The first attempt -/

/-- No time has passed yet. -/
theorem checkTimeout_start (cfg : Config) (clock : ℚ) : checkTimeout cfg clock clock = false := by
  unfold checkTimeout
  cases htimeout : cfg.acquireTimeout with
  | none => rfl
  | some timeout =>
    have := cfg.acquireTimeout_pos timeout htimeout
    simp only [sub_self, decide_eq_false_iff_not, not_le]
    exact this

/-- A blocking call at the time `0` whose first attempt fails at once, before its first wait. -/
theorem run_toWait (cfg : Config) (socketTimeout : Option ℚ) (api : Api) :
    (system cfg socketTimeout api true 0).Run [.checkTimeout, .script .denied, .checks true]
      ⟨0, 0, 0, true, 1, .toWait⟩ := by
  have h₀ : (system cfg socketTimeout api true 0).Run [] ⟨0, 0, 0, false, 0, .entering⟩ :=
    .start ⟨rfl, rfl, rfl, rfl⟩
  have h₁ := h₀.step (.checksPassed rfl)
  have h₂ := h₁.step (.denied rfl rfl)
  exact h₂.step (.inTime rfl (checkTimeout_start cfg 0))

end RedisSemaphore.AcquireLoop

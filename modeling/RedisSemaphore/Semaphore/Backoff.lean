import RedisSemaphore.Semaphore.AcquireTimeout

/-!
# The exponential backoff

`_next_retry_interval` takes the power of the multiplier before it caps the interval, and Python's
`**` raises once the power is too large for a float, however small `retry_interval_max` is.
`Overflows` is that condition; below it the interval is the one the documentation promises.
-/

namespace RedisSemaphore.AcquireLoop

open Transition Client

/-! ## One interval -/

section Interval

variable {cfg : Config} {max : ℚ} {attempts : ℕ}

/-- The power of the multiplier is too large for a float. -/
def Overflows (cfg : Config) (attempts : ℕ) : Prop :=
  cfg.retryIntervalMax.isSome ∧ 2 ^ 1024 ≤ cfg.retryBackoffMultiplier ^ attempts

/-- The interval that is documented: growing by the multiplier, up to the maximum. -/
def documentedInterval (cfg : Config) (max : ℚ) (attempts : ℕ) : ℚ :=
  min (cfg.retryInterval * cfg.retryBackoffMultiplier ^ attempts) max

/-- The interval is the documented one as long as the power is a `float`, and an `OverflowError`
from there on. -/
theorem backoffInterval_eq (hmax : cfg.retryIntervalMax = some max) (attempts : ℕ) :
    backoffInterval cfg attempts =
      if cfg.retryBackoffMultiplier ^ attempts < 2 ^ 1024
      then .ok (documentedInterval cfg max attempts) else .error .overflow := by
  simp only [backoffInterval, hmax, floatPow]
  split <;> rfl

/-- The interval before the jitter is all that can overflow. -/
theorem backoffInterval_error_iff :
    backoffInterval cfg attempts = .error .overflow ↔ Overflows cfg attempts := by
  unfold Overflows
  cases hmax : cfg.retryIntervalMax with
  | none => simp [backoffInterval, hmax]
  | some max =>
    rw [backoffInterval_eq hmax]
    split
    · rename_i hlt
      simpa using hlt
    · rename_i hle
      simpa using hle

/-- Jitter adds no error of its own. -/
theorem nextRetryInterval_error_iff (draw : ℚ) :
    nextRetryInterval cfg attempts draw = .error .overflow ↔ Overflows cfg attempts := by
  rw [← backoffInterval_error_iff]
  unfold nextRetryInterval
  cases backoffInterval cfg attempts <;> simp [bind, Except.bind, pure, Except.pure]

/-- Of the waits only a poll can overflow. -/
theorem waitForSlot_error_iff {socketTimeout remaining : Option ℚ} {draw : ℚ} :
    waitForSlot cfg socketTimeout remaining attempts draw = .error .overflow ↔
      cfg.acquireMode = .polling ∧ Overflows cfg attempts := by
  rw [← nextRetryInterval_error_iff draw]
  unfold waitForSlot
  split
  · rename_i hmode
    simp [hmode]
  · rename_i hmode
    unfold waitPolling
    cases nextRetryInterval cfg attempts draw with
    | error err => simp [hmode, bind, Except.bind]
    | ok next => cases remaining <;> simp [bind, Except.bind, pure, Except.pure]

/-- The documented interval does not shrink from one attempt to the next. -/
theorem documentedInterval_mono (cfg : Config) (max : ℚ) :
    Monotone (documentedInterval cfg max) := by
  intro k n hle
  have hpow := pow_le_pow_right₀ cfg.one_le_multiplier hle
  exact min_le_min_right _ (mul_le_mul_of_nonneg_left hpow cfg.retryInterval_pos.le)

/-- It is never zero. -/
theorem documentedInterval_pos (hmax : cfg.retryIntervalMax = some max) (attempts : ℕ) :
    0 < documentedInterval cfg max attempts := by
  have hpow := pow_pos (lt_of_lt_of_le one_pos cfg.one_le_multiplier) attempts
  have hle := cfg.le_retryIntervalMax max hmax
  exact lt_min (mul_pos cfg.retryInterval_pos hpow) (cfg.retryInterval_pos.trans_le hle)

/-- The jitter adds at most its fraction of the interval. -/
theorem nextRetryInterval_le (hmax : cfg.retryIntervalMax = some max)
    (hlt : cfg.retryBackoffMultiplier ^ attempts < 2 ^ 1024) {draw : ℚ} (hnonneg : 0 ≤ draw)
    (hle : draw ≤ 1) :
    ∃ interval, nextRetryInterval cfg attempts draw = .ok (interval, attempts + 1) ∧
      documentedInterval cfg max attempts ≤ interval ∧ interval ≤ max * (1 + cfg.retryJitter) := by
  have hjitter := cfg.retryJitter_nonneg
  have hpos := documentedInterval_pos hmax attempts
  have hcap : documentedInterval cfg max attempts ≤ max := min_le_right _ _
  have hjittered : draw * (cfg.retryJitter * documentedInterval cfg max attempts)
      ≤ cfg.retryJitter * max :=
    calc draw * (cfg.retryJitter * documentedInterval cfg max attempts)
        ≤ 1 * (cfg.retryJitter * documentedInterval cfg max attempts) :=
          mul_le_mul_of_nonneg_right hle (mul_nonneg hjitter hpos.le)
      _ ≤ cfg.retryJitter * max := by
          rw [one_mul]
          exact mul_le_mul_of_nonneg_left hcap hjitter
  have hadded : 0 ≤ draw * (cfg.retryJitter * documentedInterval cfg max attempts) := by positivity
  refine ⟨_, by simp only [nextRetryInterval, backoffInterval_eq hmax, if_pos hlt]; rfl, ?_, ?_⟩
  · split <;> linarith
  · split <;> nlinarith

/-- What is promised of the interval after `n` completed wait rounds. -/
def Capped (cfg : Config) (max : ℚ) (n : ℕ) : Prop :=
  backoffInterval cfg n = .ok (documentedInterval cfg max n) ∧
  (∀ k ≤ n, ∃ interval, backoffInterval cfg k = .ok interval ∧
    interval ≤ documentedInterval cfg max n) ∧
  ∀ draw, 0 ≤ draw → draw ≤ 1 → ∃ interval,
    nextRetryInterval cfg n draw = .ok (interval, n + 1) ∧
      documentedInterval cfg max n ≤ interval ∧ interval ≤ max * (1 + cfg.retryJitter)

end Interval

/-! ## Runs -/

section Runs

variable {cfg : Config} {socketTimeout : Option ℚ} {api : Api} {blocking : Bool} {entry : ℕ}
  {tr : List Event} {s : State} {max : ℚ}

/-- The wait rounds of a call. -/
def rounds (tr : List Event) : ℕ :=
  tr.countP fun e => match e with
    | .wait _ => true
    | _ => false

/-- A polling round counts one attempt. -/
theorem waitForSlot_attempts {remaining : Option ℚ} {attempts attempts' : ℕ} {draw : ℚ}
    {request : Option Request} (hpolling : cfg.acquireMode = .polling)
    (h : waitForSlot cfg socketTimeout remaining attempts draw = .ok (request, attempts')) :
    attempts' = attempts + 1 := by
  simp only [waitForSlot, hpolling, waitPolling, nextRetryInterval] at h
  cases hinterval : backoffInterval cfg attempts with
  | error => simp [hinterval, bind, Except.bind] at h
  | ok interval =>
    cases remaining <;> simp [hinterval, bind, Except.bind, pure, Except.pure] at h <;>
      exact h.2.symm

/-- While polling, `state.attempts` counts the wait rounds. -/
theorem attempts_eq_rounds (h : (system cfg socketTimeout api blocking entry).Run tr s)
    (hpolling : cfg.acquireMode = .polling) (hactive : s.Active) : s.attempts = rounds tr := by
  refine System.Run.invariant (I := fun tr s => s.Active → s.attempts = rounds tr) ?_ ?_ h hactive
  · rintro s ⟨hzero, -⟩ -
    exact hzero
  · intro tr s e s' _ ih hstep hactive'
    have hattempts := ih hstep.active
    cases hstep with
    | wait draw request attempts hphase hnonneg hle hwait =>
      simp only [waitForSlot_attempts hpolling hwait, hattempts]
      simp [rounds]
    | overflow => exact absurd rfl (hactive' _)
    | denied =>
      have hregister : s.register.attempts = s.attempts := by
        unfold State.register
        split <;> rfl
      simpa [rounds, hregister] using hattempts
    | granted => exact absurd rfl (hactive' _)
    | handleTimeout => exact absurd rfl (hactive' _)
    | _ => simpa [rounds] using hattempts

/-- **The backoff is capped below the overflow.** The interval after `n` completed rounds is as
documented exactly if the power of the multiplier is below `2 ^ 1024`, and `n` is the exponent of
the `n`-th round of a call. -/
theorem backoff_capped_iff (hmax : cfg.retryIntervalMax = some max) :
    (∀ n, Capped cfg max n ↔ cfg.retryBackoffMultiplier ^ n < 2 ^ 1024) ∧
    ∀ socketTimeout api blocking entry tr s,
      (system cfg socketTimeout api blocking entry).Run tr s → s.phase = .toWait →
      cfg.acquireMode = .polling → s.attempts = rounds tr := by
  refine ⟨fun n => ⟨fun hcapped => ?_, fun hlt => ⟨?_, fun k hle => ?_, fun draw => ?_⟩⟩,
    fun _ _ _ _ tr s h hphase hpolling => attempts_eq_rounds h hpolling fun outcome => ?_⟩
  · have hok := hcapped.1
    rw [backoffInterval_eq hmax] at hok
    by_contra hle
    rw [if_neg hle] at hok
    cases hok
  · rw [backoffInterval_eq hmax, if_pos hlt]
  · have hlt' := (pow_le_pow_right₀ cfg.one_le_multiplier hle).trans_lt hlt
    exact ⟨_, by rw [backoffInterval_eq hmax, if_pos hlt'], documentedInterval_mono cfg max hle⟩
  · exact nextRetryInterval_le hmax hlt
  · rw [hphase]
    simp

end Runs

/-- The default backoff of 100 ms up to a second, without a timeout. -/
def doubling : Config :=
  { oneSecond with
    acquireTimeout := none
    acquireMode := .polling
    retryIntervalMax := some 1
    acquireTimeout_pos := by simp
    le_retryIntervalMax := by
      simp only [Option.mem_some_iff, forall_eq']
      norm_num [oneSecond] }

/-- The tenth round is capped. -/
theorem backoff_capped_iff_doubling : Capped doubling 1 10 :=
  ((backoff_capped_iff rfl).1 10).mpr
    (pow_lt_pow_right₀ (by norm_num [doubling, oneSecond]) (by norm_num))

/-- A waiter that is denied over and over again comes to any round below the overflow. -/
theorem doubling_rounds {n : ℕ} (hle : n ≤ 1024) :
    ∃ tr, (system doubling none .sync true 0).Run tr ⟨0, 0, n, true, 1, .toWait⟩ ∧
      rounds tr = n := by
  induction n with
  | zero => exact ⟨_, run_toWait _ _ _, rfl⟩
  | succ n ih =>
    obtain ⟨tr, h, hrounds⟩ := ih (by omega)
    have hlt : doubling.retryBackoffMultiplier ^ n < 2 ^ 1024 :=
      pow_lt_pow_right₀ (by norm_num [doubling, oneSecond]) (by omega)
    have hmax : doubling.retryIntervalMax = some 1 := rfl
    obtain ⟨interval, hnext, -⟩ := nextRetryInterval_le hmax hlt le_rfl zero_le_one
    have hwait : waitForSlot doubling none (remainingTime doubling 0 0) n 0
        = .ok (some (.sleep interval), n + 1) := by
      simp only [waitForSlot, doubling, waitPolling] at hnext ⊢
      rw [hnext]
      rfl
    have h₁ := h.step (.wait 0 _ _ rfl le_rfl zero_le_one hwait)
    have h₂ := h₁.step (.woken _ rfl)
    have h₃ := h₂.step (.denied rfl rfl)
    have h₄ := h₃.step (.inTime rfl rfl)
    exact ⟨_, h₄, by simpa [rounds] using hrounds⟩

/-- **The backoff blows up** in the 1025th round: `2 ** 1024` raises, though the interval has been
one second since the fifth. -/
theorem backoff_overflows : ∃ tr s, (system doubling none .sync true 0).Run tr s ∧
    s.phase = .toWait ∧ rounds tr = 1024 ∧
    ∀ draw, nextRetryInterval doubling s.attempts draw = .error .overflow := by
  obtain ⟨tr, h, hrounds⟩ := doubling_rounds le_rfl
  exact ⟨tr, _, h, rfl, hrounds, fun draw => (nextRetryInterval_error_iff draw).mpr ⟨rfl, le_rfl⟩⟩

end RedisSemaphore.AcquireLoop

import RedisSemaphore.RateLimiter.Accounting

/-!
# How large the numbers of a limit get

The scripts add and subtract doubles, and Redis counts in 64 bits. Neither goes wrong as long as the
costs that are ever charged to a limit sum to less than `2 ^ 53`: its log never records more
(`Small`), so no sum over it is larger, and a total is such a sum or the remains of one. A deadline
of a log is two windows after a moment at which a script ran.
-/

namespace RedisSemaphore.RateLimiter

open Redis

variable {κ ι : Type*} [LinearOrder (Member ι)]

/-- The log records at most `units`, the total says no more, and the deadline of the log is an
integer that a double holds. -/
structure Small (units : ℤ) (keys : LimitKeys ι) : Prop where
  consistent : Consistent keys
  sum : sumCosts keys.log.value.entries ≤ units
  total : ∀ n, keys.total.get = some n → 0 ≤ n ∧ n ≤ units
  deadline : ∀ d, keys.log.deadline = some d → d ≤ 2 ^ 53

section Small

variable {units units' : ℤ} {keys : LimitKeys ι}

/-- A bound is not negative: costs are not. -/
theorem Small.nonneg (h : Small units keys) : 0 ≤ units := (sumCosts_nonneg _).trans h.sum

/-- A larger bound holds as well. -/
theorem Small.mono (h : Small units keys) (hle : units ≤ units') : Small units' keys where
  consistent := h.consistent
  sum := h.sum.trans hle
  total n hn := (h.total n hn).imp_right fun hn => hn.trans hle
  deadline := h.deadline

/-- Keys that do not exist record nothing. -/
theorem small_initial : Small 0 (LimitKeys.initial : LimitKeys ι) where
  consistent := consistent_initial
  sum := le_rfl
  total n hn := by cases hn
  deadline d hd := by cases hd

/-- Settled accounts leave nothing to say of the total. -/
theorem small_of_accounted (haccounted : Accounted keys)
    (hsum : sumCosts keys.log.value.entries ≤ units)
    (hdeadline : ∀ d, keys.log.deadline = some d → d ≤ 2 ^ 53) : Small units keys where
  consistent := haccounted.consistent
  sum := hsum
  total n hn := by
    rw [haccounted] at hn
    split at hn
    · cases hn
    · obtain rfl := Option.some.inj hn
      exact ⟨sumCosts_nonneg _, hsum⟩
  deadline := hdeadline

/-- A key that expires takes its numbers along. -/
theorem Small.expire (h : Small units keys) (kind : KeyKind) (time : ℤ) :
    Small units (keys.expire kind time) := by
  refine ⟨h.consistent.expire kind time, ?_, ?_, ?_⟩
  · cases kind with
    | log =>
      rcases SortedSetKey.expire_cases time keys.log with heq | ⟨heq, -⟩
      · simpa only [LimitKeys.expire, heq] using h.sum
      · simp only [LimitKeys.expire, heq]
        exact h.nonneg
    | total => exact h.sum
  · intro n hn
    cases kind with
    | log => exact h.total n hn
    | total => exact h.total n (CounterKey.get_expire hn)
  · intro d hd
    cases kind with
    | log =>
      rcases SortedSetKey.expire_cases time keys.log with heq | ⟨heq, -⟩
      · simp only [LimitKeys.expire, heq] at hd
        exact h.deadline d hd
      · simp only [LimitKeys.expire, heq] at hd
        cases hd
    | total => exact h.deadline d hd

end Small

/-! ## What a script adds to a log -/

section Sums

variable {keys : LimitKeys ι} {time nowMs cutoff ttlMs used total : ℤ} {identifier : ι}

/-- An eviction records nothing. -/
theorem sumCosts_evict_le : sumCosts (evict time cutoff ttlMs keys).2.log.value.entries ≤
    sumCosts keys.log.value.entries := by
  have hsplit := sumCosts_evict keys.log.value cutoff
  have hfreed := sumCosts_nonneg (keys.log.value.zrangeByScore cutoff)
  rw [log_evict, SortedSetKey.value_update]
  omega

/-- An admission records its cost and no more: a member that is there already costs the same. -/
theorem sumCosts_recordLimit_le (arg : AcquireArg κ) (hwindow : 0 < arg.windowMs) :
    sumCosts (recordLimit identifier nowMs time arg used keys).2.log.value.entries ≤
      sumCosts keys.log.value.entries + arg.cost := by
  have httl : (0 : ℤ) < arg.windowMs * 2 := by omega
  have hcost := Int.natCast_nonneg arg.cost
  rcases recordLimit_cases identifier nowMs time used arg keys with
    ⟨-, heq⟩ | ⟨-, hnone, heq⟩ | ⟨-, -, heq⟩
  · rw [heq]
    exact le_add_of_nonneg_right hcost
  · -- a new member brings its cost, and nothing else changes
    have hadded := SortedSet.weight_zadd_new (s := nowMs) memberCost hnone
    rw [heq, log_value_touch httl, SortedSetKey.value_update, sumCosts_entries, hadded,
      sumCosts_entries, add_comm]
    exact le_rfl
  · rw [heq, log_value_touch httl]
    omega

/-- The first half of an adjustment records nothing. -/
theorem sumCosts_removeRecorded_le {oldCost : ℕ} :
    sumCosts (removeRecorded identifier oldCost total keys).2.log.value.entries ≤
      sumCosts keys.log.value.entries := by
  simp only [removeRecorded]
  split
  · rename_i hcond
    obtain ⟨score, hscore⟩ := Option.isSome_iff_exists.mp hcond.2
    have hweight := SortedSet.weight_zrem memberCost hscore
    have hcost : 0 ≤ memberCost (⟨oldCost, identifier⟩ : Member ι) := Int.natCast_nonneg oldCost
    rw [SortedSetKey.value_update, sumCosts_entries, sumCosts_entries]
    omega
  · exact le_rfl

/-- The second half records the new cost at most. -/
theorem sumCosts_addAdjusted_le {acquiredAt : ℤ} (arg : AdjustArg κ) (hwindow : 0 < arg.windowMs) :
    sumCosts (addAdjusted identifier nowMs time acquiredAt arg total keys).2.log.value.entries ≤
      sumCosts keys.log.value.entries + arg.newCost := by
  have httl : (0 : ℤ) < arg.windowMs * 2 := by omega
  have hcost := Int.natCast_nonneg arg.newCost
  simp only [addAdjusted]
  split
  · rw [log_value_touch httl, SortedSetKey.value_update, sumCosts_entries, sumCosts_entries]
    cases hscore : keys.log.value.zscore ⟨arg.newCost, identifier⟩ with
    | none =>
      rw [SortedSet.weight_zadd_new _ hscore, add_comm]
      exact le_rfl
    | some score =>
      rw [SortedSet.weight_zadd_old _ hscore]
      omega
  · split <;> exact le_add_of_nonneg_right hcost

end Sums

/-! ## Runs -/

/-- The units that a call may add to what the log of a limit records. -/
def Call.units (call : Call κ ι) (name : κ) : ℕ :=
  match call with
  | .acquire _ cost => cost name
  | .adjust _ _ change => ((change name).getD (0, 0)).2
  | .status => 0

section Exec

variable {units : ℤ} {keys : LimitKeys ι} {call : Call κ ι} {admitted : Bool} {time : ℤ}
  {l : Limit κ}

/-- An eviction keeps the bound, also where it counts afresh. -/
theorem Small.evict (h : Small units keys) (time cutoff ttlMs : ℤ) :
    Small units (evict time cutoff ttlMs keys).2 :=
  small_of_accounted (evict_accounted _ _ _ h.consistent).1 (sumCosts_evict_le.trans h.sum)
    fun d hd => h.deadline d (deadline_log_evict hd)

/-- A script adds at most the units of its call to a log, at whichever limit. -/
theorem sumCosts_onLimit_le : sumCosts (call.onLimit admitted time l keys).2.log.value.entries ≤
    sumCosts keys.log.value.entries + call.units l.name := by
  have hunits := Int.natCast_nonneg (call.units l.name)
  cases call with
  | acquire identifier cost =>
    cases admitted with
    | false => exact sumCosts_evict_le.trans (by omega)
    | true =>
      refine (sumCosts_recordLimit_le ⟨l.name, l.limit, l.windowMs, cost l.name⟩
        l.window_pos).trans ?_
      exact Int.add_le_add_right sumCosts_evict_le _
  | adjust identifier acquiredAt change =>
    refine (sumCosts_addAdjusted_le ⟨l.name, l.windowMs, _, _⟩ l.window_pos).trans ?_
    exact Int.add_le_add_right (sumCosts_removeRecorded_le.trans sumCosts_evict_le) _
  | status => exact sumCosts_evict_le.trans (by omega)

/-- **The numbers of a limit stay small** when a script runs early enough: its log records no more
than it did and the units of the call. -/
theorem Small.onLimit (h : Small units keys) (htime : time + l.windowMs * 2 ≤ 2 ^ 53) :
    Small (units + call.units l.name) (call.onLimit admitted time l keys).2 := by
  refine small_of_accounted (onLimit_accounted h.consistent).1 ?_ fun d hd => ?_
  · exact sumCosts_onLimit_le.trans (Int.add_le_add_right h.sum _)
  · rcases deadline_onLimit hd with rfl | ⟨hold, -⟩
    · exact htime
    · exact h.deadline d hold

variable [DecidableEq κ] {cfg : Config κ} {store : κ → LimitKeys ι}

/-- The same for a call to all the limits it touches, and to those it leaves alone. -/
theorem Small.exec (hl : l ∈ cfg.limits) (h : Small units (store l.name))
    (htime : time + l.windowMs * 2 ≤ 2 ^ 53) :
    Small (units + call.units l.name) ((exec cfg call time store).2 l.name) := by
  by_cases htouched : ∃ l' ∈ call.touched cfg, l'.name = l.name
  · obtain ⟨l', hl', hname⟩ := htouched
    obtain rfl : l' = l := List.inj_on_of_nodup_map cfg.nodup (touched_subset call hl') hl hname
    rw [exec_touched cfg time store call hl']
    exact h.onLimit htime
  · push Not at htouched
    rw [exec_untouched cfg time store call htouched]
    exact h.mono (by omega)

end Exec

end RedisSemaphore.RateLimiter

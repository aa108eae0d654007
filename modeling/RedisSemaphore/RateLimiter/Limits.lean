import RedisSemaphore.RateLimiter.Scripts

/-!
# What the scripts do to one limit

The scripts visit limits with distinct names, so each limit sees one run of `evict`, then of
`recordLimit` or `adjustLimit`. This module says what each of these does to the two keys of a limit,
and reads the scripts as the same per-limit functions applied to every limit they are handed.

The balance of a limit comes in three strengths. `Consistent` holds at every moment: a total that is
there is right unless the log is gone. `Balanced` holds inside a script, where the log may just have
been emptied. `Accounted` is what every script leaves behind.
-/

namespace RedisSemaphore.RateLimiter

open Redis KeyedLoop

/-! ## Sums of costs -/

/-- Costs are not negative. -/
theorem sumCosts_nonneg {ι : Type*} (entries : List (Scored (Member ι))) :
    0 ≤ sumCosts entries := by
  induction entries with
  | nil => exact le_rfl
  | cons e rest ih => exact add_nonneg (Int.natCast_nonneg e.member.cost) ih

variable {κ ι : Type*} [LinearOrder (Member ι)]

/-- The sum over a sorted set is its weight. -/
theorem sumCosts_entries (z : SortedSet (Member ι)) :
    sumCosts z.entries = z.weight memberCost := rfl

/-- What an eviction removes and what it leaves add up to what there was. -/
theorem sumCosts_evict (z : SortedSet (Member ι)) (cutoff : ℤ) :
    sumCosts (z.zrangeByScore cutoff) + sumCosts (z.zremRangeByScore cutoff).entries
      = sumCosts z.entries :=
  SortedSet.weight_evict memberCost cutoff

/-! ## Balance of a limit -/

/-- A total that is present is the sum of the log, unless the log is gone. -/
def Consistent (keys : LimitKeys ι) : Prop :=
  ∀ total, keys.total.get = some total → keys.log.value.entries ≠ [] →
    total = sumCosts keys.log.value.entries

/-- The total is the sum of the log, and it is there if the log is. -/
def Balanced (keys : LimitKeys ι) : Prop :=
  keys.total.get.getD 0 = sumCosts keys.log.value.entries ∧
    (keys.log.value.entries ≠ [] → keys.total.get ≠ none)

/-- The total is the sum of the log if there is a log, and absent otherwise. -/
def Accounted (keys : LimitKeys ι) : Prop :=
  keys.total.get =
    if keys.log.value.entries = [] then none else some (sumCosts keys.log.value.entries)

section Balance

variable {keys : LimitKeys ι}

/-- An accounted limit is consistent. -/
theorem Accounted.consistent (h : Accounted keys) : Consistent keys := by
  intro total htotal hne
  rw [h, if_neg hne, Option.some.injEq] at htotal
  exact htotal.symm

/-- An accounted limit is balanced. -/
theorem Accounted.balanced (h : Accounted keys) : Balanced keys := by
  rw [Accounted] at h
  rw [Balanced, h]
  split
  · rename_i hnil
    simp [hnil, sumCosts]
  · simp

/-- With a log, a balanced limit is accounted for. -/
theorem Balanced.accounted (h : Balanced keys) (hne : keys.log.value.entries ≠ []) :
    Accounted keys := by
  obtain ⟨hsum, hpresent⟩ := h
  obtain ⟨total, htotal⟩ := Option.ne_none_iff_exists'.mp (hpresent hne)
  rw [htotal, Option.getD_some] at hsum
  rw [Accounted, if_neg hne, htotal, hsum]

/-- A limit with neither log nor total. -/
theorem accounted_of_nil (hlog : keys.log.value.entries = []) (htotal : keys.total = none) :
    Accounted keys := by
  rw [Accounted, if_pos hlog, htotal, CounterKey.get_none]

/-- A new deadline removes nothing. -/
@[simp] theorem log_value_touch {time ttlMs : ℤ} (h : 0 < ttlMs) :
    (touch time ttlMs keys).log.value = keys.log.value :=
  SortedSetKey.value_pexpire h _

/-- `touch` moves deadlines only. -/
theorem Accounted.touch {time ttlMs : ℤ} (httl : 0 < ttlMs) (h : Accounted keys) :
    Accounted (touch time ttlMs keys) := by
  rw [Accounted, log_value_touch httl]
  exact (CounterKey.get_pexpire httl _).trans h

end Balance

/-! ## `recount` and `evict` -/

section Evict

variable {keys : LimitKeys ι} {time cutoff ttlMs : ℤ}

/-- A recount makes the total right, whatever it was. -/
theorem recount_accounted (hne : keys.log.value.entries ≠ []) :
    Accounted (recount time ttlMs keys).2 := by
  have hget : (recount time ttlMs keys).2.total.get = some (sumCosts keys.log.value.entries) := by
    simp only [recount]
    split
    · rename_i hpos
      exact CounterKey.get_pexpire hpos _
    · rfl
  rw [Accounted, hget]
  exact (if_neg hne).symm

/-- The first half of `evict` without its case distinction: to remove nothing changes nothing. -/
theorem dropExpired_eq : dropExpired cutoff keys =
    (sumCosts (keys.log.value.zrangeByScore cutoff),
      { keys with log := keys.log.update fun z => z.zremRangeByScore cutoff }) := by
  simp only [dropExpired, Prod.mk.injEq, true_and]
  split
  · rename_i hnil
    rw [SortedSetKey.update, SortedSet.zremRangeByScore_of_zrangeByScore_eq_nil hnil,
      SortedSetKey.store_value_deadline]
  · rfl

/-- Settling the total leaves the log alone. -/
theorem log_settleTotal {freed : ℤ} : (settleTotal time ttlMs freed keys).2.log = keys.log := by
  simp only [settleTotal]
  split
  · rfl
  · split
    · rfl
    · split <;> split <;> rfl

/-- A total that counts the freed units as well is settled to the sum of the log. -/
theorem settleTotal_accounted {freed : ℤ} (hfreed : 0 ≤ freed)
    (h : ∀ raw, keys.total.get = some raw → keys.log.value.entries ≠ [] →
      raw = freed + sumCosts keys.log.value.entries) :
    Accounted (settleTotal time ttlMs freed keys).2 ∧
      (settleTotal time ttlMs freed keys).1 = sumCosts keys.log.value.entries := by
  have hkept := sumCosts_nonneg keys.log.value.entries
  by_cases hnil : keys.log.value.entries = []
  · rw [settleTotal, if_pos (by rw [SortedSet.zcard, hnil]; rfl)]
    exact ⟨accounted_of_nil hnil rfl, by rw [hnil]; rfl⟩
  · rw [settleTotal, if_neg (by rw [SortedSet.zcard, List.length_eq_zero_iff]; exact hnil)]
    -- a missing total is counted afresh; one that is there goes down by what was freed, and is not
    -- negative then
    cases hraw : keys.total.get with
    | none => exact ⟨recount_accounted hnil, rfl⟩
    | some raw =>
      have hsum := h raw hraw hnil
      by_cases hpos : 0 < freed
      · simp only [if_pos hpos]
        rw [if_neg (by omega)]
        refine ⟨?_, by simp only; omega⟩
        simp only [Accounted, if_neg hnil, CounterKey.get_decrby, hraw, Option.getD_some,
          Option.some.injEq]
        omega
      · simp only [if_neg hpos]
        rw [if_neg (by omega)]
        refine ⟨?_, by simp only; omega⟩
        simp only [Accounted, if_neg hnil, hraw, Option.some.injEq]
        omega

/-- `evict` always leaves the log without the entries at or before the cutoff. -/
theorem log_evict : (evict time cutoff ttlMs keys).2.log =
    keys.log.update fun z => z.zremRangeByScore cutoff := by
  rw [evict, dropExpired_eq]
  exact log_settleTotal

/-- What stays in the log is what is younger than the cutoff. -/
theorem mem_log_evict {e : Scored (Member ι)} :
    e ∈ (evict time cutoff ttlMs keys).2.log.value.entries ↔
      e ∈ keys.log.value.entries ∧ cutoff < e.score := by
  rw [log_evict, SortedSetKey.value_update, SortedSet.mem_zremRangeByScore]

/-- It gives the log no deadline. -/
theorem deadline_log_evict {d : ℤ} (h : (evict time cutoff ttlMs keys).2.log.deadline = some d) :
    keys.log.deadline = some d := by
  rw [log_evict] at h
  exact SortedSetKey.deadline_store h

/-- It keeps its score. -/
theorem zscore_log_evict {m : Member ι} {score : ℤ} :
    (evict time cutoff ttlMs keys).2.log.value.zscore m = some score ↔
      keys.log.value.zscore m = some score ∧ cutoff < score := by
  rw [log_evict, SortedSetKey.value_update, SortedSet.zscore_zremRangeByScore]

variable (time cutoff ttlMs) in
/-- **`evict` settles the total**: what it returns is the sum of the log it leaves. -/
theorem evict_accounted (h : Consistent keys) :
    Accounted (evict time cutoff ttlMs keys).2 ∧
      (evict time cutoff ttlMs keys).1
        = sumCosts (evict time cutoff ttlMs keys).2.log.value.entries := by
  rw [log_evict, evict, dropExpired_eq]
  refine settleTotal_accounted (sumCosts_nonneg _) fun raw hraw hne => ?_
  have hne' : keys.log.value.entries ≠ [] := by
    intro hempty
    simp [SortedSet.zremRangeByScore, SortedSet.keep, hempty] at hne
  rw [h raw hraw hne']
  exact (sumCosts_evict keys.log.value cutoff).symm

end Evict

/-! ## `recordLimit` -/

section Record

variable {identifier : ι} {nowMs time used : ℤ} {arg : AcquireArg κ} {keys : LimitKeys ι}

variable (identifier nowMs time used arg keys) in
/-- The three outcomes of a recording: nothing is charged, the request is recorded, or it already
was. -/
theorem recordLimit_cases :
    (arg.cost = 0 ∧ recordLimit identifier nowMs time arg used keys = (used, keys)) ∨
    (0 < arg.cost ∧ keys.log.value.zscore ⟨arg.cost, identifier⟩ = none ∧
      recordLimit identifier nowMs time arg used keys =
        ((keys.total.incrby arg.cost).get.getD 0, touch time (arg.windowMs * 2)
          ⟨keys.log.update fun z => z.zadd nowMs ⟨arg.cost, identifier⟩,
            keys.total.incrby arg.cost⟩)) ∨
    (0 < arg.cost ∧ (∃ score, keys.log.value.zscore ⟨arg.cost, identifier⟩ = some score) ∧
      recordLimit identifier nowMs time arg used keys =
        (keys.total.get.getD used, touch time (arg.windowMs * 2) keys)) := by
  by_cases hcost : 0 < arg.cost
  · cases hscore : keys.log.value.zscore ⟨arg.cost, identifier⟩ with
    | none =>
      refine Or.inr (Or.inl ⟨hcost, rfl, ?_⟩)
      simp only [recordLimit, if_pos hcost, hscore]
    | some score =>
      refine Or.inr (Or.inr ⟨hcost, ⟨score, rfl⟩, ?_⟩)
      simp only [recordLimit, if_pos hcost, hscore]
  · exact Or.inl ⟨by omega, by simp only [recordLimit, if_neg hcost]⟩

variable (identifier nowMs time used arg keys) in
/-- The log after a recording: a request that was not there is there with the current time. -/
theorem mem_log_recordLimit (hwindow : 0 < arg.windowMs) {e : Scored (Member ι)} :
    e ∈ (recordLimit identifier nowMs time arg used keys).2.log.value.entries ↔
      e ∈ keys.log.value.entries ∨
        0 < arg.cost ∧ keys.log.value.zscore ⟨arg.cost, identifier⟩ = none ∧
          e = ⟨⟨arg.cost, identifier⟩, nowMs⟩ := by
  have httl : (0 : ℤ) < arg.windowMs * 2 := by omega
  rcases recordLimit_cases identifier nowMs time used arg keys with
    ⟨hzero, heq⟩ | ⟨hcost, hnone, heq⟩ | ⟨hcost, ⟨score, hs⟩, heq⟩
  · simp [heq, hzero]
  · rw [heq]
    simp only [log_value_touch httl, SortedSetKey.value_update, SortedSet.mem_zadd, hcost, hnone,
      true_and]
    have hother := SortedSet.zscore_eq_none.mp hnone
    constructor
    · rintro (rfl | ⟨hmem, -⟩)
      · exact Or.inr rfl
      · exact Or.inl hmem
    · rintro (hmem | rfl)
      · exact Or.inr ⟨hmem, hother e hmem⟩
      · exact Or.inl rfl
  · rw [heq]
    simp [log_value_touch httl, hs]

/-- The deadline of a log after a recording. -/
theorem deadline_recordLimit {d : ℤ}
    (h : (recordLimit identifier nowMs time arg used keys).2.log.deadline = some d) :
    keys.log.deadline = some d ∧ arg.cost = 0 ∨ d = time + arg.windowMs * 2 := by
  rcases recordLimit_cases identifier nowMs time used arg keys with
    ⟨hzero, heq⟩ | ⟨-, -, heq⟩ | ⟨-, -, heq⟩
  · rw [heq] at h
    exact Or.inl ⟨h, hzero⟩
  · rw [heq] at h
    exact Or.inr (SortedSetKey.deadline_pexpire h)
  · rw [heq] at h
    exact Or.inr (SortedSetKey.deadline_pexpire h)

/-- **A recording keeps the accounts**: the cost goes into the log and into the total, or into
neither. -/
theorem recordLimit_accounted (hwindow : 0 < arg.windowMs) (h : Accounted keys)
    (hused : used = sumCosts keys.log.value.entries) :
    Accounted (recordLimit identifier nowMs time arg used keys).2 ∧
      (recordLimit identifier nowMs time arg used keys).1
        = sumCosts (recordLimit identifier nowMs time arg used keys).2.log.value.entries := by
  have httl : (0 : ℤ) < arg.windowMs * 2 := by omega
  rcases recordLimit_cases identifier nowMs time used arg keys with
    ⟨-, heq⟩ | ⟨-, hnone, heq⟩ | ⟨-, ⟨score, hs⟩, heq⟩
  · rw [heq]
    exact ⟨h, hused⟩
  · rw [heq]
    have hsum : (keys.total.incrby arg.cost).get.getD 0
        = sumCosts (keys.log.value.zadd nowMs ⟨arg.cost, identifier⟩).entries := by
      rw [sumCosts_entries, SortedSet.weight_zadd_new _ hnone, CounterKey.get_incrby,
        Option.getD_some, h.balanced.1, sumCosts_entries, memberCost, add_comm]
    refine ⟨Accounted.touch httl (Balanced.accounted ⟨hsum, fun _ => by simp⟩ ?_), ?_⟩
    · exact List.ne_nil_of_mem (SortedSet.mem_zadd.mpr (Or.inl rfl))
    · rw [log_value_touch httl]
      exact hsum
  · rw [heq]
    refine ⟨h.touch httl, ?_⟩
    have hne : keys.log.value.entries ≠ [] :=
      List.ne_nil_of_mem (SortedSet.zscore_eq_some.mp hs)
    rw [log_value_touch httl, h, if_neg hne, Option.getD_some]

end Record

/-! ## `adjustLimit` -/

section Adjust

variable {identifier : ι} {nowMs time acquiredAt total : ℤ} {arg : AdjustArg κ} {oldCost : ℕ}
  {keys : LimitKeys ι}

/-- The first half of an adjustment removes the member it was told, if that member costs anything.
-/
theorem mem_log_removeRecorded {e : Scored (Member ι)} :
    e ∈ (removeRecorded identifier oldCost total keys).2.log.value.entries ↔
      e ∈ keys.log.value.entries ∧ ¬(0 < oldCost ∧ e.member = ⟨oldCost, identifier⟩) := by
  simp only [removeRecorded]
  split
  · rename_i hcond
    simp [hcond.1]
  · rename_i hcond
    refine ⟨fun hmem => ⟨hmem, fun ⟨hpos, hm⟩ => hcond ⟨hpos, ?_⟩⟩, And.left⟩
    rw [← hm, SortedSet.zscore_of_mem hmem]
    rfl

/-- It takes the same units off the total, so total and log still agree. -/
theorem removeRecorded_balanced (h : Accounted keys)
    (htotal : total = sumCosts keys.log.value.entries) :
    Balanced (removeRecorded identifier oldCost total keys).2 ∧
      (removeRecorded identifier oldCost total keys).1
        = sumCosts (removeRecorded identifier oldCost total keys).2.log.value.entries := by
  simp only [removeRecorded]
  split
  · rename_i hcond
    obtain ⟨score, hscore⟩ := Option.isSome_iff_exists.mp hcond.2
    have hweight := SortedSet.weight_zrem memberCost hscore
    have hsum : (keys.total.decrby oldCost).get.getD 0
        = sumCosts (keys.log.value.zrem ⟨oldCost, identifier⟩).entries := by
      rw [CounterKey.get_decrby, Option.getD_some, h.balanced.1, sumCosts_entries,
        sumCosts_entries, ← hweight]
      simp [memberCost]
    exact ⟨⟨hsum, fun _ => by simp⟩, hsum⟩
  · exact ⟨h.balanced, htotal⟩

/-- The second half adds the new cost at the time of the admission, while the window reaches back
to it. -/
theorem mem_log_addAdjusted (hwindow : 0 < arg.windowMs) {e : Scored (Member ι)} :
    e ∈ (addAdjusted identifier nowMs time acquiredAt arg total keys).2.log.value.entries ↔
      if 0 < arg.newCost ∧ nowMs - arg.windowMs < acquiredAt then
        e = ⟨⟨arg.newCost, identifier⟩, acquiredAt⟩ ∨
          e ∈ keys.log.value.entries ∧ e.member ≠ ⟨arg.newCost, identifier⟩
      else e ∈ keys.log.value.entries := by
  have httl : (0 : ℤ) < arg.windowMs * 2 := by omega
  simp only [addAdjusted]
  split
  · rw [log_value_touch httl, SortedSetKey.value_update, SortedSet.mem_zadd]
  · split <;> rfl

/-- It adds the same units to the total and sets the deadline. -/
theorem addAdjusted_accounted (hwindow : 0 < arg.windowMs) (h : Balanced keys)
    (htotal : total = sumCosts keys.log.value.entries) :
    Accounted (addAdjusted identifier nowMs time acquiredAt arg total keys).2 ∧
      (addAdjusted identifier nowMs time acquiredAt arg total keys).1
        = sumCosts
          (addAdjusted identifier nowMs time acquiredAt arg total keys).2.log.value.entries := by
  have httl : (0 : ℤ) < arg.windowMs * 2 := by omega
  simp only [addAdjusted]
  split
  · have hne : (keys.log.value.zadd acquiredAt ⟨arg.newCost, identifier⟩).entries ≠ [] :=
      List.ne_nil_of_mem (SortedSet.mem_zadd.mpr (Or.inl rfl))
    -- a member that is there already is only moved, and the total stays
    cases hscore : keys.log.value.zscore ⟨arg.newCost, identifier⟩ with
    | none =>
      have hsum : (keys.total.incrby arg.newCost).get.getD 0
          = sumCosts (keys.log.value.zadd acquiredAt ⟨arg.newCost, identifier⟩).entries := by
        rw [sumCosts_entries, SortedSet.weight_zadd_new _ hscore, CounterKey.get_incrby,
          Option.getD_some, h.1, sumCosts_entries, memberCost, add_comm]
      simp only [Option.isNone_none, if_true, log_value_touch httl, SortedSetKey.value_update]
      exact ⟨Accounted.touch httl (Balanced.accounted ⟨hsum, fun _ => by simp⟩ hne), hsum⟩
    | some score =>
      have hsame : sumCosts (keys.log.value.zadd acquiredAt ⟨arg.newCost, identifier⟩).entries
          = sumCosts keys.log.value.entries := SortedSet.weight_zadd_old memberCost hscore
      simp only [Option.isNone_some, Bool.false_eq_true, if_false, log_value_touch httl,
        SortedSetKey.value_update]
      refine ⟨Accounted.touch httl (Balanced.accounted ⟨?_, fun _ => ?_⟩ hne), ?_⟩
      · exact h.1.trans hsame.symm
      · exact h.2 (List.ne_nil_of_mem (SortedSet.zscore_eq_some.mp hscore))
      · exact htotal.trans hsame.symm
  · split
    · rename_i hcard
      have hnil := List.length_eq_zero_iff.mp hcard
      exact ⟨accounted_of_nil hnil rfl, by simp only [hnil]; rfl⟩
    · rename_i hcard
      exact ⟨h.accounted fun hnil => hcard (by rw [SortedSet.zcard, hnil]; rfl), htotal⟩

variable (identifier nowMs time acquiredAt arg keys) in
/-- The log after an adjust: the new cost is there at the admission time if the request is still in
its window; expired entries and the old cost are gone. -/
theorem mem_log_adjustLimit (hwindow : 0 < arg.windowMs) {e : Scored (Member ι)} :
    e ∈ (adjustLimit identifier nowMs time acquiredAt arg keys).2.log.value.entries ↔
      (0 < arg.newCost ∧ nowMs - arg.windowMs < acquiredAt ∧
        e = ⟨⟨arg.newCost, identifier⟩, acquiredAt⟩) ∨
      ¬(0 < arg.newCost ∧ nowMs - arg.windowMs < acquiredAt ∧
          e.member = ⟨arg.newCost, identifier⟩) ∧
        ¬(0 < arg.oldCost ∧ e.member = ⟨arg.oldCost, identifier⟩) ∧
        e ∈ keys.log.value.entries ∧ nowMs - arg.windowMs < e.score := by
  simp only [adjustLimit]
  rw [mem_log_addAdjusted hwindow, mem_log_removeRecorded, mem_log_evict]
  by_cases hadd : 0 < arg.newCost ∧ nowMs - arg.windowMs < acquiredAt
  · rw [if_pos hadd]
    simp only [hadd.1, hadd.2, true_and]
    exact or_congr_right ⟨fun ⟨⟨hmem, hold⟩, hm⟩ => ⟨hm, hold, hmem⟩,
      fun ⟨hm, hold, hmem⟩ => ⟨⟨hmem, hold⟩, hm⟩⟩
  · rw [if_neg hadd]
    have hnew : ∀ P : Prop, ¬(0 < arg.newCost ∧ nowMs - arg.windowMs < acquiredAt ∧ P) :=
      fun P h => hadd ⟨h.1, h.2.1⟩
    simp only [hnew, false_or, not_false_eq_true, true_and]
    exact and_comm

/-- An adjust either gives the log a new deadline or keeps the old one and adds nothing. -/
theorem deadline_adjustLimit {d : ℤ}
    (h : (adjustLimit identifier nowMs time acquiredAt arg keys).2.log.deadline = some d) :
    d = time + arg.windowMs * 2 ∨ keys.log.deadline = some d ∧
      ∀ e ∈ (adjustLimit identifier nowMs time acquiredAt arg keys).2.log.value.entries,
        e ∈ keys.log.value.entries := by
  simp only [adjustLimit] at h ⊢
  set evicted := evict time (nowMs - arg.windowMs) (arg.windowMs * 2) keys with hevicted
  have hkeep : ∀ {d}, (removeRecorded identifier arg.oldCost evicted.1 evicted.2).2.log.deadline
      = some d → keys.log.deadline = some d := by
    intro d hd
    simp only [removeRecorded] at hd
    split at hd
    · have hd := SortedSetKey.deadline_store hd
      rw [hevicted, log_evict] at hd
      exact SortedSetKey.deadline_store hd
    · rw [hevicted, log_evict] at hd
      exact SortedSetKey.deadline_store hd
  have hmem : ∀ e ∈ (removeRecorded identifier arg.oldCost evicted.1 evicted.2).2.log.value.entries,
      e ∈ keys.log.value.entries := fun e he =>
    (mem_log_evict.mp (mem_log_removeRecorded.mp he).1).1
  simp only [addAdjusted] at h ⊢
  split at h
  · exact Or.inl (SortedSetKey.deadline_pexpire h)
  · rename_i hadd
    rw [if_neg hadd]
    refine Or.inr ?_
    split at h
    · rename_i hcard
      rw [if_pos hcard]
      exact ⟨hkeep h, hmem⟩
    · rename_i hcard
      rw [if_neg hcard]
      exact ⟨hkeep h, hmem⟩

/-- **An adjust keeps the accounts.** -/
theorem adjustLimit_accounted (hwindow : 0 < arg.windowMs) (h : Consistent keys) :
    Accounted (adjustLimit identifier nowMs time acquiredAt arg keys).2 ∧
      (adjustLimit identifier nowMs time acquiredAt arg keys).1
        = sumCosts
          (adjustLimit identifier nowMs time acquiredAt arg keys).2.log.value.entries := by
  obtain ⟨haccounted, htotal⟩ := evict_accounted _ _ _ h
  obtain ⟨hbalanced, htotal⟩ := removeRecorded_balanced haccounted htotal
  exact addAdjusted_accounted hwindow hbalanced htotal

end Adjust

/-! ## The scripts, limit by limit -/

/-- What a call does to one limit it touches: the figure it reports and the keys it leaves. An
acquire records only if it was admitted. -/
def Call.onLimit (call : Call κ ι) (admitted : Bool) (time : ℤ) (l : Limit κ)
    (keys : LimitKeys ι) : ℤ × LimitKeys ι :=
  match call with
  | .acquire identifier cost =>
    let (total, keys) := evict time (time - l.windowMs) (l.windowMs * 2) keys
    if admitted then
      recordLimit identifier time time ⟨l.name, l.limit, l.windowMs, cost l.name⟩ total keys
    else (total, keys)
  | .adjust identifier acquiredAt change =>
    adjustLimit identifier time time acquiredAt ⟨l.name, l.windowMs,
      ((change l.name).getD (0, 0)).1, ((change l.name).getD (0, 0)).2⟩ keys
  | .status => evict time (time - l.windowMs) (l.windowMs * 2) keys

/-- Whether a reply admits a request. -/
def Reply.admitted : Reply → Bool
  | .acquire reply => reply.success
  | .used _ => false

section Scripts

variable [DecidableEq κ] {cfg : Config κ} {time nowMs : ℤ} {store : κ → LimitKeys ι}

variable (nowMs time store) in
/-- The first loop of an acquire evicts limit by limit. -/
theorem checkLimits_eq_loop (identifier : ι) (args : List (AcquireArg κ)) :
    ((checkLimits identifier nowMs time args store).used,
      (checkLimits identifier nowMs time args store).store) =
    loop AcquireArg.name (fun a => evict time (nowMs - a.windowMs) (a.windowMs * 2)) args
      store := by
  have hacc : ∀ (args : List (AcquireArg κ)) (check : Check κ ι),
      ((args.foldl (fun check arg => checkLimit identifier nowMs time arg check) check).used,
        (args.foldl (fun check arg => checkLimit identifier nowMs time arg check) check).store) =
      (check.used ++ (loop AcquireArg.name
          (fun a => evict time (nowMs - a.windowMs) (a.windowMs * 2)) args check.store).1,
        (loop AcquireArg.name
          (fun a => evict time (nowMs - a.windowMs) (a.windowMs * 2)) args check.store).2) := by
    intro args
    induction args with
    | nil => intro check; simp [loop]
    | cons a rest ih =>
      intro check
      rw [List.foldl_cons, ih]
      simp [checkLimit, loop]
  simpa [checkLimits] using hacc args ⟨store, [], 0, false⟩

omit [DecidableEq κ] in
/-- Each limit is passed once. -/
theorem acquireArgs_nodup (cfg : Config κ) (cost : κ → ℕ) :
    ((acquireArgs cfg cost).map AcquireArg.name).Nodup := by
  rw [acquireArgs, List.map_map]
  exact cfg.nodup

omit [DecidableEq κ] in
/-- The limits an adjustment passes are those it changes. -/
theorem mem_changedLimits {cfg : Config κ} {change : κ → Option (ℕ × ℕ)} {l : Limit κ} :
    l ∈ changedLimits cfg change ↔ l ∈ cfg.limits ∧ (change l.name).isSome := by
  rw [changedLimits, List.mem_filter]

omit [DecidableEq κ] in
/-- Each of them is passed once. -/
theorem changedLimits_nodup (cfg : Config κ) (change : κ → Option (ℕ × ℕ)) :
    ((changedLimits cfg change).map Limit.name).Nodup :=
  cfg.nodup.sublist (List.filter_sublist.map _)

omit [DecidableEq κ] [LinearOrder (Member ι)] in
/-- No call touches a limit twice, so the rounds of a script can be taken one by one. -/
theorem touched_nodup (cfg : Config κ) (call : Call κ ι) :
    ((call.touched cfg).map Limit.name).Nodup := by
  cases call with
  | acquire identifier cost => exact cfg.nodup
  | adjust identifier acquiredAt change => exact changedLimits_nodup cfg change
  | status => exact cfg.nodup

omit [DecidableEq κ] [LinearOrder (Member ι)] in
/-- A call touches limits of its own limiter only. -/
theorem touched_subset {cfg : Config κ} (call : Call κ ι) {l : Limit κ}
    (hl : l ∈ call.touched cfg) : l ∈ cfg.limits := by
  cases call with
  | acquire identifier cost => exact hl
  | adjust identifier acquiredAt change => exact List.mem_of_mem_filter hl
  | status => exact hl

variable (cfg time store) in
/-- **Every script is one loop over the limits it is handed.** -/
theorem exec_eq_loop (call : Call κ ι) :
    ((exec cfg call time store).1.figures, (exec cfg call time store).2) =
      loop Limit.name (call.onLimit (exec cfg call time store).1.admitted time)
        (call.touched cfg) store := by
  cases call with
  | status => rfl
  | adjust identifier acquiredAt change =>
    simp only [exec, rateAdjust, adjustArgs, loop_map, Reply.figures, Call.touched, Prod.mk.eta]
    rfl
  | acquire identifier cost =>
    have hcheck := checkLimits_eq_loop time time store identifier (acquireArgs cfg cost)
    obtain ⟨hused, hstore⟩ := Prod.ext_iff.mp hcheck
    simp only at hused hstore
    simp only [exec, rateAcquire]
    split
    · simp only [Reply.figures, Reply.admitted, Call.touched]
      rw [hcheck, acquireArgs, loop_map]
      rfl
    · simp only [Reply.figures, Reply.admitted, Call.touched]
      have hrecord := loop_zip store (g := recordLimit identifier time time)
        (f := fun a => evict time (time - a.windowMs) (a.windowMs * 2))
        (acquireArgs_nodup cfg cost)
      rw [hused, hstore, hrecord, acquireArgs, loop_map]
      rfl

variable (cfg time store) in
/-- What a call does to a limit it touches: what it would do if the limiter had no other. -/
theorem exec_touched (call : Call κ ι) {l : Limit κ} (hl : l ∈ call.touched cfg) :
    (exec cfg call time store).2 l.name =
      (call.onLimit (exec cfg call time store).1.admitted time l (store l.name)).2 := by
  obtain ⟨-, hstore⟩ := Prod.ext_iff.mp (exec_eq_loop cfg time store call)
  simp only at hstore
  rw [hstore]
  exact loop_mem (touched_nodup cfg call) hl

variable (cfg time store) in
/-- A limit that a call does not touch stays as it is. -/
theorem exec_untouched (call : Call κ ι) {name : κ} (h : ∀ l ∈ call.touched cfg, l.name ≠ name) :
    (exec cfg call time store).2 name = store name := by
  obtain ⟨-, hstore⟩ := Prod.ext_iff.mp (exec_eq_loop cfg time store call)
  simp only at hstore
  rw [hstore]
  exact loop_notMem h

/-- What holds of the figure and the keys of each limit by itself holds of the reply and the store
of the script. -/
theorem exec_forall₂ {P : Limit κ → ℤ → LimitKeys ι → Prop} {call : Call κ ι}
    (h : ∀ l ∈ call.touched cfg,
      P l (call.onLimit (exec cfg call time store).1.admitted time l (store l.name)).1
        (call.onLimit (exec cfg call time store).1.admitted time l (store l.name)).2) :
    List.Forall₂ (fun l used => P l used ((exec cfg call time store).2 l.name))
      (call.touched cfg) (exec cfg call time store).1.figures := by
  obtain ⟨hused, hstore⟩ := Prod.ext_iff.mp (exec_eq_loop cfg time store call)
  simp only at hused hstore
  rw [hused, hstore]
  exact loop_forall₂ (touched_nodup cfg call) h

end Scripts

section OnLimit

variable {call : Call κ ι} {admitted : Bool} {time : ℤ} {l : Limit κ} {keys : LimitKeys ι}

/-- **A script leaves the accounts of a limit settled** and reports the sum of its log. -/
theorem onLimit_accounted (h : Consistent keys) :
    Accounted (call.onLimit admitted time l keys).2 ∧
      (call.onLimit admitted time l keys).1
        = sumCosts (call.onLimit admitted time l keys).2.log.value.entries := by
  have hevict := evict_accounted time (time - l.windowMs) (l.windowMs * 2) h
  cases call with
  | acquire identifier cost =>
    cases admitted with
    | false => exact hevict
    | true => exact recordLimit_accounted l.window_pos hevict.1 hevict.2
  | adjust identifier acquiredAt change => exact adjustLimit_accounted l.window_pos h
  | status => exact hevict

/-- What a script leaves in a log is inside the window. -/
theorem score_of_mem_onLimit {e : Scored (Member ι)}
    (he : e ∈ (call.onLimit admitted time l keys).2.log.value.entries) :
    time - l.windowMs < e.score := by
  cases call with
  | acquire identifier cost =>
    cases admitted with
    | false => exact (mem_log_evict.mp he).2
    | true =>
      rcases (mem_log_recordLimit _ _ _ _ ⟨l.name, l.limit, l.windowMs, cost l.name⟩ _
        l.window_pos).mp he with he | ⟨-, -, rfl⟩
      · exact (mem_log_evict.mp he).2
      · have := l.window_pos
        simp only
        omega
  | adjust identifier acquiredAt change =>
    rcases (mem_log_adjustLimit _ _ _ _ ⟨l.name, l.windowMs, _, _⟩ _ l.window_pos).mp he with
      ⟨-, hwin, rfl⟩ | ⟨-, -, -, hwin⟩
    · exact hwin
    · exact hwin
  | status => exact (mem_log_evict.mp he).2

/-- A script either gives a log the deadline of two windows from now or keeps the old one and adds
nothing. -/
theorem deadline_onLimit {d : ℤ}
    (h : (call.onLimit admitted time l keys).2.log.deadline = some d) :
    d = time + l.windowMs * 2 ∨ keys.log.deadline = some d ∧
      ∀ e ∈ (call.onLimit admitted time l keys).2.log.value.entries,
        e ∈ keys.log.value.entries := by
  cases call with
  | acquire identifier cost =>
    cases admitted with
    | false => exact Or.inr ⟨deadline_log_evict h, fun e he => (mem_log_evict.mp he).1⟩
    | true =>
      rcases deadline_recordLimit h with ⟨hd, hzero⟩ | hd
      · refine Or.inr ⟨deadline_log_evict hd, fun e he => ?_⟩
        rcases (mem_log_recordLimit _ _ _ _ ⟨l.name, l.limit, l.windowMs, cost l.name⟩ _
          l.window_pos).mp he with he | ⟨hpos, -⟩
        · exact (mem_log_evict.mp he).1
        · simp only at hzero hpos
          omega
      · exact Or.inl hd
  | adjust identifier acquiredAt change => exact deadline_adjustLimit h
  | status => exact Or.inr ⟨deadline_log_evict h, fun e he => (mem_log_evict.mp he).1⟩

end OnLimit

end RedisSemaphore.RateLimiter

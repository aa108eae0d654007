import RedisSemaphore.RateLimiter.Abort

/-!
# Small costs

The scripts are modelled twice: with integers, and with the numbers they really have. As long as the
units of a limit and the cost of a request are at most `2 ^ 53`, the two agree: doubles are exact
there, and the counters have room. So no command of a script fails.
-/

namespace RedisSemaphore.RateLimiter.Abort

open Redis LuaNumber

variable {κ ι : Type*} [LinearOrder (Member ι)]

/-- Redis reads back what it has printed, up to `2 ^ 53`. -/
def Exact (read : LuaNumber → Option ℤ) : Prop :=
  ∀ n : ℕ, n ≤ 2 ^ 53 → read (.finite n) = some (n : ℤ)

/-- The units in a log. -/
def units {ι : Type*} (entries : List (Scored (Member ι))) : ℕ :=
  (entries.map fun e => e.member.cost).sum

/-- A limit of at most `2 ^ 53` units whose total, if it is there, counts them. -/
structure Ledger.Small (read : LuaNumber → Option ℤ) (keys : Ledger ι) : Prop where
  le : units keys.log.entries ≤ 2 ^ 53
  total : ∀ raw, keys.total = some raw →
    raw.asInt read = some (units keys.log.entries : ℤ) ∧
      raw.number = .finite (units keys.log.entries)

section Units

/-- What an eviction removes and what it leaves add up to what there was. -/
theorem units_evict (cutoff : ℤ) (z : SortedSet (Member ι)) :
    units (z.zrangeByScore cutoff) + units (z.zremRangeByScore cutoff).entries
      = units z.entries :=
  SortedSet.weight_evict Member.cost cutoff

/-- A recorded cost is part of the units. -/
theorem cost_le_units {z : SortedSet (Member ι)} {m : Member ι} {score : ℤ}
    (h : z.zscore m = some score) : m.cost ≤ units z.entries := by
  have hweight : m.cost + (z.zrem m).weight Member.cost = units z.entries :=
    SortedSet.weight_zrem Member.cost h
  omega

omit [LinearOrder (Member ι)] in
/-- The accumulating loop of a script, from any point on. -/
theorem foldl_add (entries : List (Scored (Member ι))) (sum : ℕ)
    (h : sum + units entries ≤ 2 ^ 53) :
    entries.foldl (fun sum e => LuaNumber.add sum (.ofNat e.member.cost)) (.finite sum)
      = .finite (sum + units entries : ℕ) := by
  induction entries generalizing sum with
  | nil => rfl
  | cons e rest ih =>
    have hcons : units (e :: rest) = e.member.cost + units rest := List.sum_cons
    rw [List.foldl_cons, ofNat_of_le (by omega), add_of_le (by omega), ih _ (by omega), hcons]
    congr 2
    omega

omit [LinearOrder (Member ι)] in
/-- A sum of costs up to `2 ^ 53` is exact. -/
theorem sumCosts_eq {entries : List (Scored (Member ι))} (h : units entries ≤ 2 ^ 53) :
    sumCosts entries = .finite (units entries) := by
  have hfold := foldl_add entries 0 (by omega)
  rw [Nat.zero_add] at hfold
  exact hfold

end Units

section Limit

variable {read : LuaNumber → Option ℤ} {identifier : ι} {cutoff nowMs acquiredAt : ℤ}
  {keys : Ledger ι} {key : Option CounterText} {old : ℤ} {cost : ℕ}

/-- Small sums fit. -/
theorem int64_of_le {value : ℤ} (hlow : -2 ^ 62 ≤ value) (hhigh : value ≤ 2 ^ 62) :
    CounterText.int64 value = some value := by
  rw [CounterText.int64, if_pos ⟨by omega, by omega⟩]

/-- `INCRBY` of a small cost to a small total succeeds. -/
theorem incrby_of_le (hread : Exact read) (hold : key.elim (some 0) (CounterText.asInt read) = old)
    (hlow : -2 ^ 53 ≤ old) (hhigh : old ≤ 2 ^ 53) (hcost : cost ≤ 2 ^ 53) :
    CounterText.incrby read key (.ofNat cost) = some (old + cost) := by
  rw [CounterText.incrby, hold, ofNat_of_le hcost, hread cost hcost]
  exact int64_of_le (by omega) (by omega)

/-- So does `DECRBY`. -/
theorem decrby_of_le (hread : Exact read) (hold : key.elim (some 0) (CounterText.asInt read) = old)
    (hlow : -2 ^ 53 ≤ old) (hhigh : old ≤ 2 ^ 53) (hcost : cost ≤ 2 ^ 53) :
    CounterText.decrby read key (.finite cost) = some (old - cost) := by
  rw [CounterText.decrby, hold, hread cost hcost]
  exact int64_of_le (by omega) (by omega)

/-- The number from which the counter of a small limit starts. -/
theorem Ledger.Small.start (h : keys.Small read) :
    ∃ old : ℕ, keys.total.elim (some 0) (CounterText.asInt read) = some (old : ℤ) ∧
      old ≤ 2 ^ 53 := by
  cases htotal : keys.total with
  | none => exact ⟨0, rfl, by omega⟩
  | some raw => exact ⟨_, (h.total raw htotal).1, h.le⟩

/-- A total of at least zero is left as it is. -/
theorem settle_of_le {n : ℕ} : settle (.finite n) keys = (.finite n, keys) := by
  rw [settle, if_neg]
  show ¬(n : ℤ) < 0
  omega

/-- **An eviction of a small limit** goes through, counts what it leaves, and leaves it small. -/
theorem Ledger.Small.evict (hread : Exact read) (h : keys.Small read) (cutoff : ℤ) :
    ∃ evicted, Abort.evict read cutoff keys
        = .ok (.finite (units evicted.log.entries), evicted) ∧ evicted.Small read := by
  have hsplit := units_evict cutoff keys.log
  have hle := h.le
  have hfreed : sumCosts (keys.log.zrangeByScore cutoff)
      = .finite (units (keys.log.zrangeByScore cutoff)) := sumCosts_eq (by omega)
  have hrest : units (keys.log.zremRangeByScore cutoff).entries ≤ 2 ^ 53 := by omega
  unfold Abort.evict
  simp only [trim_eq, hfreed]
  by_cases hempty : (keys.log.zremRangeByScore cutoff).zcard = 0
  · rw [if_pos hempty]
    have hnil : (keys.log.zremRangeByScore cutoff).entries = [] :=
      List.eq_nil_of_length_eq_zero hempty
    refine ⟨⟨keys.log.zremRangeByScore cutoff, none⟩, ?_, ⟨hrest, fun raw hraw => ?_⟩⟩
    · simp only [hnil]
      rfl
    · cases hraw
  · rw [if_neg hempty]
    cases htotal : keys.total with
    | none =>
      simp only [recount, sumCosts_eq hrest]
      refine ⟨⟨keys.log.zremRangeByScore cutoff,
        some (.printed (.finite (units (keys.log.zremRangeByScore cutoff).entries)))⟩, rfl,
        ⟨hrest, fun raw hraw => ?_⟩⟩
      obtain rfl := Option.some.inj hraw
      exact ⟨hread _ hrest, rfl⟩
    | some raw =>
      obtain ⟨hint, hnumber⟩ := h.total raw htotal
      by_cases hpos : (0 : LuaNumber) < .finite (units (keys.log.zrangeByScore cutoff))
      · have hdecr : CounterText.decrby read (some raw)
            (.finite (units (keys.log.zrangeByScore cutoff)))
              = some (units (keys.log.zremRangeByScore cutoff).entries : ℤ) := by
          have hstart : (some raw).elim (some 0) (CounterText.asInt read)
              = some (units keys.log.entries : ℤ) := hint
          rw [decrby_of_le hread hstart (by omega) (by omega) (by omega)]
          congr 1
          omega
        have hofInt : LuaNumber.ofInt (units (keys.log.zremRangeByScore cutoff).entries : ℤ)
            = .finite (units (keys.log.zremRangeByScore cutoff).entries) := ofNat_of_le hrest
        simp only [if_pos hpos, hdecr, hofInt, settle_of_le]
        refine ⟨⟨keys.log.zremRangeByScore cutoff,
          some (.int (units (keys.log.zremRangeByScore cutoff).entries))⟩, rfl,
          ⟨hrest, fun raw' hraw => ?_⟩⟩
        obtain rfl := Option.some.inj hraw
        exact ⟨rfl, hofInt⟩
      · have hzero : units (keys.log.zrangeByScore cutoff) = 0 := by
          rw [zero_eq, finite_lt_finite] at hpos
          omega
        have hsame : units (keys.log.zremRangeByScore cutoff).entries
            = units keys.log.entries := by omega
        simp only [if_neg hpos, hnumber, settle_of_le]
        refine ⟨⟨keys.log.zremRangeByScore cutoff, some raw⟩, ?_, ⟨hrest, fun raw' hraw => ?_⟩⟩
        · rw [hsame]
        · obtain rfl := Option.some.inj hraw
          rw [hsame]
          exact ⟨hint, hnumber⟩

/-- The units of a small limit can be evicted. -/
theorem Ledger.Small.canEvict (hread : Exact read) (h : keys.Small read) (cutoff : ℤ) :
    CanEvict read cutoff keys := by
  obtain ⟨evicted, heq, -⟩ := h.evict hread cutoff
  rcases evict_cases read cutoff keys with ⟨hcan, -⟩ | ⟨-, -, herr⟩
  · exact hcan
  · rw [heq] at herr
    cases herr

/-- What an eviction leaves of a small limit is small. -/
theorem Ledger.Small.afterEvict (hread : Exact read) (h : keys.Small read) (cutoff : ℤ) :
    (Abort.afterEvict read cutoff keys).2.Small read := by
  obtain ⟨evicted, heq, hsmall⟩ := h.evict hread cutoff
  rw [Abort.afterEvict, heq]
  exact hsmall

/-- A small cost can be recorded. -/
theorem Ledger.Small.canRecord (hread : Exact read) (h : keys.Small read) (hcost : cost ≤ 2 ^ 53) :
    CanRecord read identifier cost keys := by
  intro _ _
  obtain ⟨old, hold, hle⟩ := h.start
  rw [incrby_of_le hread hold (by omega) (by omega) hcost]
  simp

/-- What a removal of a recorded cost subtracts. -/
theorem Ledger.Small.decrby (hread : Exact read) (h : keys.Small read)
    (hrecorded : recorded identifier cost keys = true) :
    ∃ rest : ℤ, CounterText.decrby read keys.total (.ofNat cost) = some rest ∧
      -2 ^ 53 ≤ rest ∧ rest ≤ 2 ^ 53 := by
  obtain ⟨score, hscore⟩ := Option.isSome_iff_exists.mp (Bool.and_eq_true_iff.mp hrecorded).2
  have hcost : cost ≤ 2 ^ 53 := (cost_le_units hscore).trans h.le
  obtain ⟨old, hold, hle⟩ := h.start
  rw [ofNat_of_le hcost, decrby_of_le hread hold (by omega) (by omega) hcost]
  exact ⟨_, rfl, by omega, by omega⟩

/-- A recorded cost can be taken off a small limit. -/
theorem Ledger.Small.canRemove (hread : Exact read) (h : keys.Small read) :
    CanRemove read identifier cost keys := by
  intro hrecorded
  obtain ⟨rest, hdecr, -⟩ := h.decrby hread hrecorded
  rw [hdecr]
  simp

/-- After the removal a small cost can be added. -/
theorem Ledger.Small.canAdd (hread : Exact read) (h : keys.Small read) {newCost : ℕ}
    (hnew : newCost ≤ 2 ^ 53) :
    CanAdd read identifier cutoff acquiredAt newCost (removed read identifier cost keys) := by
  intro _
  unfold removed
  split
  · rename_i hrecorded
    obtain ⟨rest, hdecr, hlow, hhigh⟩ := h.decrby hread hrecorded
    intro _ _
    rw [hdecr, incrby_of_le hread rfl hlow hhigh hnew]
    simp
  · exact h.canRecord hread hnew

end Limit

/-! ## Scripts -/

section Scripts

variable {read : LuaNumber → Option ℤ} {identifier : ι} {nowMs acquiredAt : ℤ}

/-- **An acquire of small costs under small limits cannot fail.** -/
theorem canAcquire_of_small (hread : Exact read) {args : List (AcquireArg κ)} {store : κ → Ledger ι}
    (hsmall : ∀ arg ∈ args, (store arg.name).Small read) (hcost : ∀ arg ∈ args, arg.cost ≤ 2 ^ 53) :
    CanAcquire read identifier nowMs args store := by
  refine ⟨fun arg harg => (hsmall arg harg).canEvict hread _, fun _ arg harg => ?_⟩
  have hevicted := (hsmall arg harg).afterEvict hread (nowMs - arg.windowMs)
  exact hevicted.canRecord hread (hcost arg harg)

/-- **An adjustment to a small cost under a small limit cannot fail.** -/
theorem canAdjust_of_small (hread : Exact read) {arg : AdjustArg κ} {keys : Ledger ι}
    (hsmall : keys.Small read) (hnew : arg.newCost ≤ 2 ^ 53) :
    CanAdjust read identifier nowMs acquiredAt arg keys := by
  have hevicted := hsmall.afterEvict hread (nowMs - arg.windowMs)
  exact ⟨hsmall.canEvict hread _, hevicted.canRemove hread, hevicted.canAdd hread hnew⟩

end Scripts

/-- The format that `%.17g` prints is exact for small numbers. -/
theorem exact_readPrinted : Exact readPrinted := by
  intro n hn
  rw [readPrinted, if_pos (by omega)]

end RedisSemaphore.RateLimiter.Abort

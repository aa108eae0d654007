import RedisSemaphore.RateLimiter.Accounting
import RedisSemaphore.Redis.LuaNumber

/-!
# Scripts that end with an error

`RATE_ACQUIRE_SCRIPT` and `RATE_ADJUST_SCRIPT` with the numbers they really compute with. Costs are
unbounded integers when they are accepted, doubles in Lua and 64-bit integers in the counters, so an
`INCRBY` or a `DECRBY` may fail; what the script has written by then stays. These two are the
commands that may fail here.

Both scripts come to a counter after they have changed the log, so whenever a command fails a limit
is left as no eviction leaves it. `evict_error`, `recordLimit_error` and `adjustLimit_error` are
this fact. Times to live are left out, and so are the figures of the replies: nothing that is
written depends on them.
-/

namespace RedisSemaphore.RateLimiter.Abort

open Redis KeyedLoop LuaNumber

variable {κ ι : Type*} [LinearOrder (Member ι)]

/-- The two keys of one limit, without their times to live. -/
structure Ledger (ι : Type*) [LinearOrder (Member ι)] where
  log : SortedSet (Member ι)
  total : Option CounterText

/-- The accumulating loops of `recount` and `evict`, on doubles. -/
def sumCosts (entries : List (Scored (Member ι))) : LuaNumber :=
  entries.foldl (fun sum e => sum.add (.ofNat e.member.cost)) 0

/-- `recount`. -/
def recount (keys : Ledger ι) : LuaNumber × Ledger ι :=
  let total := sumCosts keys.log.entries
  (total, { keys with total := some (.printed total) })

/-- The end of `evict`: a negative total has drifted. -/
def settle (total : LuaNumber) (keys : Ledger ι) : LuaNumber × Ledger ι :=
  if total < 0 then recount keys else (total, keys)

section Scripts

variable (read : LuaNumber → Option ℤ)

/-- `evict`. -/
def evict (cutoff : ℤ) (keys : Ledger ι) : Except (Ledger ι) (LuaNumber × Ledger ι) :=
  let expired := keys.log.zrangeByScore cutoff
  let freed := sumCosts expired
  let keys :=
    if expired = [] then keys else { keys with log := keys.log.zremRangeByScore cutoff }
  if keys.log.zcard = 0 then .ok (0, { keys with total := none })
  else match keys.total with
    | none => .ok (recount keys)
    | some raw =>
      if 0 < freed then
        match CounterText.decrby read (some raw) freed with
        | none => .error keys
        | some total => .ok (settle (.ofInt total) { keys with total := some (.int total) })
      else .ok (settle raw.number keys)

/-! ## `RATE_ACQUIRE_SCRIPT` -/

/-- What the first loop carries. `violated` says that `retry_after` is positive, as every wait is at
least 1. -/
structure Check (κ ι : Type*) [LinearOrder (Member ι)] where
  store : κ → Ledger ι
  violated : Bool
  already : Bool

/-- The member of this request is in the log. -/
def recorded (identifier : ι) (cost : ℕ) (keys : Ledger ι) : Bool :=
  decide (0 < ofNat cost) && (keys.log.zscore ⟨cost, identifier⟩).isSome

/-- The request is over the limit. -/
def exceeds (arg : AcquireArg κ) (total : LuaNumber) : Bool :=
  decide (0 < ofNat arg.cost ∧ ofNat arg.limit < total.add (.ofNat arg.cost))

variable [DecidableEq κ]

/-- One iteration of the first loop, after its eviction: check the limit. -/
def Check.visit (check : Check κ ι) (identifier : ι) (arg : AcquireArg κ)
    (evicted : LuaNumber × Ledger ι) : Check κ ι :=
  let already := check.already || recorded identifier arg.cost evicted.2
  { store := Function.update check.store arg.name evicted.2
    violated := check.violated || (!already && exceeds arg evicted.1)
    already := already }

/-- The first loop. -/
def checkLimits (identifier : ι) (nowMs : ℤ) :
    List (AcquireArg κ) → Check κ ι → Except (κ → Ledger ι) (Check κ ι)
  | [], check => .ok check
  | arg :: rest, check =>
    match evict read (nowMs - arg.windowMs) (check.store arg.name) with
    | .error keys => .error (Function.update check.store arg.name keys)
    | .ok evicted => checkLimits identifier nowMs rest (check.visit identifier arg evicted)

omit [DecidableEq κ] in
/-- One iteration of the second loop. -/
def recordLimit (identifier : ι) (nowMs : ℤ) (arg : AcquireArg κ) (keys : Ledger ι) :
    Except (Ledger ι) (Ledger ι) :=
  if 0 < ofNat arg.cost then
    let m : Member ι := ⟨arg.cost, identifier⟩
    match keys.log.zscore m with
    | some _ => .ok keys
    | none =>
      let keys := { keys with log := keys.log.zadd nowMs m }
      match CounterText.incrby read keys.total (.ofNat arg.cost) with
      | none => .error keys
      | some total => .ok { keys with total := some (.int total) }
  else .ok keys

/-- `RATE_ACQUIRE_SCRIPT`. -/
def rateAcquire (identifier : ι) (nowMs : ℤ) (args : List (AcquireArg κ)) (store : κ → Ledger ι) :
    Except (κ → Ledger ι) (κ → Ledger ι) :=
  match checkLimits read identifier nowMs args ⟨store, false, false⟩ with
  | .error store => .error store
  | .ok check =>
    if check.violated then .ok check.store
    else tryLoop AcquireArg.name (recordLimit read identifier nowMs) args check.store

/-! ## `RATE_ADJUST_SCRIPT` -/

omit [DecidableEq κ] in
/-- The `ZREM` of the recorded cost. -/
def removeRecorded (identifier : ι) (oldCost : ℕ) (keys : Ledger ι) :
    Except (Ledger ι) (Ledger ι) :=
  if recorded identifier oldCost keys then
    let keys := { keys with log := keys.log.zrem ⟨oldCost, identifier⟩ }
    match CounterText.decrby read keys.total (.ofNat oldCost) with
    | none => .error keys
    | some total => .ok { keys with total := some (.int total) }
  else .ok keys

omit [DecidableEq κ] in
/-- The `ZADD` of the new cost, or the clean-up of an emptied log. -/
def addAdjusted (identifier : ι) (nowMs acquiredAt : ℤ) (arg : AdjustArg κ) (keys : Ledger ι) :
    Except (Ledger ι) (Ledger ι) :=
  let new : Member ι := ⟨arg.newCost, identifier⟩
  if 0 < ofNat arg.newCost ∧ nowMs - arg.windowMs < acquiredAt then
    let added := { keys with log := keys.log.zadd acquiredAt new }
    match keys.log.zscore new with
    | some _ => .ok added
    | none =>
      match CounterText.incrby read keys.total (.ofNat arg.newCost) with
      | none => .error added
      | some total => .ok { added with total := some (.int total) }
  else if keys.log.zcard = 0 then .ok { keys with total := none }
  else .ok keys

omit [DecidableEq κ] in
/-- One iteration of the adjust loop. -/
def adjustLimit (identifier : ι) (nowMs acquiredAt : ℤ) (arg : AdjustArg κ) (keys : Ledger ι) :
    Except (Ledger ι) (Ledger ι) := do
  let (_, keys) ← evict read (nowMs - arg.windowMs) keys
  let keys ← removeRecorded read identifier arg.oldCost keys
  addAdjusted read identifier nowMs acquiredAt arg keys

/-- `RATE_ADJUST_SCRIPT`. -/
def rateAdjust (identifier : ι) (nowMs acquiredAt : ℤ) (args : List (AdjustArg κ))
    (store : κ → Ledger ι) : Except (κ → Ledger ι) (κ → Ledger ι) :=
  tryLoop AdjustArg.name (adjustLimit read identifier nowMs acquiredAt) args store

end Scripts

/-! ## One limit -/

section Limit

variable {read : LuaNumber → Option ℤ} {identifier : ι} {cutoff nowMs acquiredAt : ℤ}
  {keys keys' evicted : Ledger ι} {total : LuaNumber}

/-- As it was, or as an eviction alone would have left it. -/
def Kept (read : LuaNumber → Option ℤ) (cutoff : ℤ) (keys keys' : Ledger ι) : Prop :=
  keys' = keys ∨ ∃ total, evict read cutoff keys = .ok (total, keys')

/-- The units of the expired entries can be taken off the total. -/
def CanEvict (read : LuaNumber → Option ℤ) (cutoff : ℤ) (keys : Ledger ι) : Prop :=
  ∀ raw, keys.total = some raw → 0 < sumCosts (keys.log.zrangeByScore cutoff) →
    (keys.log.zremRangeByScore cutoff).zcard ≠ 0 →
    CounterText.decrby read (some raw) (sumCosts (keys.log.zrangeByScore cutoff)) ≠ none

/-- To remove nothing changes nothing. -/
theorem trim_eq (cutoff : ℤ) (keys : Ledger ι) :
    (if keys.log.zrangeByScore cutoff = [] then keys
      else { keys with log := keys.log.zremRangeByScore cutoff }) =
      { keys with log := keys.log.zremRangeByScore cutoff } := by
  split
  · rename_i hnil
    rw [SortedSet.zremRangeByScore_of_zrangeByScore_eq_nil hnil]
  · rfl

/-- Settling the total leaves the log alone. -/
theorem log_settle (total : LuaNumber) (keys : Ledger ι) :
    (settle total keys).2.log = keys.log := by
  unfold settle
  split <;> rfl

/-- An eviction trims the log, and fails after that or not at all. -/
theorem evict_cases (read : LuaNumber → Option ℤ) (cutoff : ℤ) (keys : Ledger ι) :
    (CanEvict read cutoff keys ∧ ∃ total evicted, evict read cutoff keys = .ok (total, evicted) ∧
      evicted.log = keys.log.zremRangeByScore cutoff) ∨
    (¬CanEvict read cutoff keys ∧ keys.log.zrangeByScore cutoff ≠ [] ∧
      evict read cutoff keys = .error { keys with log := keys.log.zremRangeByScore cutoff }) := by
  unfold evict
  simp only [trim_eq]
  by_cases hempty : (keys.log.zremRangeByScore cutoff).zcard = 0
  · rw [if_pos hempty]
    exact Or.inl ⟨fun raw _ _ hne => absurd hempty hne, _, _, rfl, rfl⟩
  · rw [if_neg hempty]
    cases htotal : keys.total with
    | none => exact Or.inl ⟨fun raw hraw => (by rw [htotal] at hraw; cases hraw), _, _, rfl, rfl⟩
    | some raw =>
      by_cases hfreed : 0 < sumCosts (keys.log.zrangeByScore cutoff)
      · simp only [if_pos hfreed]
        cases hdecr : CounterText.decrby read (some raw)
            (sumCosts (keys.log.zrangeByScore cutoff)) with
        | none =>
          refine Or.inr ⟨fun hcan => hcan raw htotal hfreed hempty hdecr, fun hnil => ?_, rfl⟩
          rw [hnil] at hfreed
          exact LuaNumber.lt_irrefl 0 hfreed
        | some value =>
          refine Or.inl ⟨fun raw' hraw _ _ => ?_, _, _, rfl, log_settle _ _⟩
          obtain rfl := Option.some.inj (htotal.symm.trans hraw)
          rw [hdecr]
          simp
      · simp only [if_neg hfreed]
        exact Or.inl ⟨fun raw' _ hpos => absurd hpos hfreed, _, _, rfl, log_settle _ _⟩

/-- An eviction that gets to its end has trimmed the log. -/
theorem log_of_evict (h : evict read cutoff keys = .ok (total, evicted)) :
    evicted.log = keys.log.zremRangeByScore cutoff := by
  rcases evict_cases read cutoff keys with ⟨-, total', evicted', heq, hlog⟩ | ⟨-, -, heq⟩
  · rw [heq] at h
    obtain ⟨-, rfl⟩ := Prod.mk.inj (Except.ok.inj h)
    exact hlog
  · rw [heq] at h
    cases h

/-- What is kept has the entries after the cutoff, and no others of them. -/
theorem Kept.mem_iff (h : Kept read cutoff keys keys') {e : Scored (Member ι)}
    (he : cutoff < e.score) : e ∈ keys'.log.entries ↔ e ∈ keys.log.entries := by
  rcases h with rfl | ⟨total, hevict⟩
  · rfl
  · rw [log_of_evict hevict, SortedSet.mem_zremRangeByScore]
    exact and_iff_left he

/-- **A failed eviction** has trimmed the log and left the total. -/
theorem evict_error (h : evict read cutoff keys = .error keys') :
    ¬Kept read cutoff keys keys' := by
  rcases evict_cases read cutoff keys with ⟨-, total, evicted, heq, -⟩ | ⟨-, hexpired, heq⟩
  · rw [heq] at h
    cases h
  · rintro (rfl | ⟨total, hevict⟩)
    · rw [heq] at h
      have hlog : keys'.log.zremRangeByScore cutoff = keys'.log :=
        congrArg Ledger.log (Except.error.inj h)
      obtain ⟨e, he⟩ := List.exists_mem_of_ne_nil _ hexpired
      simp only [SortedSet.zrangeByScore, List.mem_filter, decide_eq_true_eq] at he
      have htrimmed : e ∈ (keys'.log.zremRangeByScore cutoff).entries := by
        rw [hlog]
        exact he.1
      have := (SortedSet.mem_zremRangeByScore.mp htrimmed).2
      omega
    · rw [h] at hevict
      cases hevict

/-- The new member of a request can be added to the total. -/
def CanRecord (read : LuaNumber → Option ℤ) (identifier : ι) (cost : ℕ) (keys : Ledger ι) : Prop :=
  0 < ofNat cost → keys.log.zscore ⟨cost, identifier⟩ = none →
    CounterText.incrby read keys.total (.ofNat cost) ≠ none

/-- The recorded cost can be taken off the total. -/
def CanRemove (read : LuaNumber → Option ℤ) (identifier : ι) (oldCost : ℕ) (keys : Ledger ι) :
    Prop :=
  recorded identifier oldCost keys = true →
    CounterText.decrby read keys.total (.ofNat oldCost) ≠ none

/-- What the `ZREM` and its `DECRBY` leave. -/
def removed (read : LuaNumber → Option ℤ) (identifier : ι) (oldCost : ℕ) (keys : Ledger ι) :
    Ledger ι :=
  if recorded identifier oldCost keys then
    ⟨keys.log.zrem ⟨oldCost, identifier⟩,
      (CounterText.decrby read keys.total (.ofNat oldCost)).map .int⟩
  else keys

/-- A record fails after its `ZADD` or not at all. -/
theorem recordLimit_cases (read : LuaNumber → Option ℤ) (identifier : ι) (nowMs : ℤ)
    (arg : AcquireArg κ) (keys : Ledger ι) :
    (CanRecord read identifier arg.cost keys ∧
      ∃ keys', recordLimit read identifier nowMs arg keys = .ok keys') ∨
    (¬CanRecord read identifier arg.cost keys ∧ keys.log.zscore ⟨arg.cost, identifier⟩ = none ∧
      recordLimit read identifier nowMs arg keys
        = .error { keys with log := keys.log.zadd nowMs ⟨arg.cost, identifier⟩ }) := by
  unfold recordLimit CanRecord
  by_cases hcost : 0 < ofNat arg.cost
  · simp only [if_pos hcost]
    cases hscore : keys.log.zscore ⟨arg.cost, identifier⟩ with
    | some score => exact Or.inl ⟨fun _ h => (nomatch h), _, rfl⟩
    | none =>
      cases hincr : CounterText.incrby read keys.total (.ofNat arg.cost) with
      | none => exact Or.inr ⟨fun h => h hcost rfl rfl, rfl, rfl⟩
      | some total => exact Or.inl ⟨fun _ _ => by simp, _, rfl⟩
  · simp only [if_neg hcost]
    exact Or.inl ⟨fun h => absurd h hcost, _, rfl⟩

/-- **A failed record** has added a member that an eviction does not. -/
theorem recordLimit_error {arg : AcquireArg κ} (hwindow : nowMs - arg.windowMs < nowMs)
    (hevict : evict read (nowMs - arg.windowMs) keys = .ok (total, evicted))
    (h : recordLimit read identifier nowMs arg evicted = .error keys') :
    ¬Kept read (nowMs - arg.windowMs) keys keys' := by
  intro hkept
  rcases recordLimit_cases read identifier nowMs arg evicted with ⟨-, _, hok⟩ | ⟨-, hnew, herr⟩
  · rw [hok] at h
    cases h
  · rw [herr] at h
    obtain rfl := Except.error.inj h
    have hadded : (⟨⟨arg.cost, identifier⟩, nowMs⟩ : Scored (Member ι)) ∈ keys.log.entries :=
      (hkept.mem_iff hwindow).mp (SortedSet.mem_zadd.mpr (Or.inl rfl))
    rw [SortedSet.zscore_eq_none, log_of_evict hevict] at hnew
    exact hnew _ (SortedSet.mem_zremRangeByScore.mpr ⟨hadded, hwindow⟩) rfl

/-- A removal fails after its `ZREM` or not at all. -/
theorem removeRecorded_cases (read : LuaNumber → Option ℤ) (identifier : ι) (oldCost : ℕ)
    (keys : Ledger ι) :
    (CanRemove read identifier oldCost keys ∧
      removeRecorded read identifier oldCost keys = .ok (removed read identifier oldCost keys)) ∨
    (¬CanRemove read identifier oldCost keys ∧ recorded identifier oldCost keys = true ∧
      removeRecorded read identifier oldCost keys
        = .error { keys with log := keys.log.zrem ⟨oldCost, identifier⟩ }) := by
  unfold removeRecorded CanRemove removed
  by_cases hrecorded : recorded identifier oldCost keys = true
  · simp only [if_pos hrecorded]
    cases hdecr : CounterText.decrby read keys.total (.ofNat oldCost) with
    | none => exact Or.inr ⟨fun h => h hrecorded rfl, hrecorded, rfl⟩
    | some total => exact Or.inl ⟨fun _ => by simp, rfl⟩
  · rw [if_neg hrecorded, if_neg hrecorded]
    exact Or.inl ⟨fun h => absurd h hrecorded, rfl⟩

/-- An addition comes to its `INCRBY` with a new cost inside the window. -/
def CanAdd (read : LuaNumber → Option ℤ) (identifier : ι) (cutoff acquiredAt : ℤ) (newCost : ℕ)
    (keys : Ledger ι) : Prop :=
  cutoff < acquiredAt → CanRecord read identifier newCost keys

/-- An addition fails after its `ZADD` or not at all. -/
theorem addAdjusted_cases (read : LuaNumber → Option ℤ) (identifier : ι) (nowMs acquiredAt : ℤ)
    (arg : AdjustArg κ) (keys : Ledger ι) :
    (CanAdd read identifier (nowMs - arg.windowMs) acquiredAt arg.newCost keys ∧
      ∃ keys', addAdjusted read identifier nowMs acquiredAt arg keys = .ok keys') ∨
    (¬CanAdd read identifier (nowMs - arg.windowMs) acquiredAt arg.newCost keys ∧
      nowMs - arg.windowMs < acquiredAt ∧ keys.log.zscore ⟨arg.newCost, identifier⟩ = none ∧
      addAdjusted read identifier nowMs acquiredAt arg keys
        = .error { keys with log := keys.log.zadd acquiredAt ⟨arg.newCost, identifier⟩ }) := by
  unfold addAdjusted CanAdd CanRecord
  by_cases hcond : 0 < ofNat arg.newCost ∧ nowMs - arg.windowMs < acquiredAt
  · simp only [if_pos hcond]
    cases hscore : keys.log.zscore ⟨arg.newCost, identifier⟩ with
    | some score => exact Or.inl ⟨fun _ _ h => (nomatch h), _, rfl⟩
    | none =>
      cases hincr : CounterText.incrby read keys.total (.ofNat arg.newCost) with
      | none => exact Or.inr ⟨fun h => h hcond.2 hcond.1 rfl rfl, hcond.2, rfl, rfl⟩
      | some total => exact Or.inl ⟨fun _ _ _ => by simp, _, rfl⟩
  · simp only [if_neg hcond]
    refine Or.inl ⟨fun hlt hpos => absurd ⟨hpos, hlt⟩ hcond, ?_⟩
    split
    · exact ⟨_, rfl⟩
    · exact ⟨_, rfl⟩

/-- What an eviction leaves, where it can be made. -/
def afterEvict (read : LuaNumber → Option ℤ) (cutoff : ℤ) (keys : Ledger ι) :
    LuaNumber × Ledger ι :=
  match evict read cutoff keys with
  | .ok evicted => evicted
  | .error keys => (0, keys)

/-- The three commands of an adjustment can be executed. -/
def CanAdjust (read : LuaNumber → Option ℤ) (identifier : ι) (nowMs acquiredAt : ℤ)
    (arg : AdjustArg κ) (keys : Ledger ι) : Prop :=
  let cutoff := nowMs - arg.windowMs
  let evicted := (afterEvict read cutoff keys).2
  let rest := removed read identifier arg.oldCost evicted
  CanEvict read cutoff keys ∧ CanRemove read identifier arg.oldCost evicted ∧
    CanAdd read identifier cutoff acquiredAt arg.newCost rest

/-- An adjustment fails where one of its commands does, and then leaves what no eviction leaves. -/
theorem adjustLimit_cases {arg : AdjustArg κ} (hchange : arg.oldCost ≠ arg.newCost)
    (keys : Ledger ι) :
    (CanAdjust read identifier nowMs acquiredAt arg keys ∧
      ∃ keys', adjustLimit read identifier nowMs acquiredAt arg keys = .ok keys') ∨
    (¬CanAdjust read identifier nowMs acquiredAt arg keys ∧
      ∃ keys', adjustLimit read identifier nowMs acquiredAt arg keys = .error keys' ∧
        ¬Kept read (nowMs - arg.windowMs) keys keys') := by
  unfold adjustLimit CanAdjust afterEvict
  rcases evict_cases read (nowMs - arg.windowMs) keys with
    ⟨hcan, total, evicted, heq, hlog⟩ | ⟨hcannot, -, heq⟩
  · simp only [heq, bind, Except.bind]
    rcases removeRecorded_cases read identifier arg.oldCost evicted with
      ⟨hremove, hok⟩ | ⟨hremove, hrecorded, herr⟩
    · simp only [hok]
      rcases addAdjusted_cases read identifier nowMs acquiredAt arg
          (removed read identifier arg.oldCost evicted) with
        ⟨hadd, keys', hok'⟩ | ⟨hadd, hwindow, hnew, herr⟩
      · exact Or.inl ⟨⟨hcan, hremove, hadd⟩, keys', hok'⟩
      · refine Or.inr ⟨fun h => hadd h.2.2, _, herr, fun hkept => ?_⟩
        -- the new member was not there, before the old one was removed either
        have hadded : (⟨⟨arg.newCost, identifier⟩, acquiredAt⟩ : Scored (Member ι)) ∈
            keys.log.entries := (hkept.mem_iff hwindow).mp (SortedSet.mem_zadd.mpr (Or.inl rfl))
        have hevicted : (⟨⟨arg.newCost, identifier⟩, acquiredAt⟩ : Scored (Member ι)) ∈
            evicted.log.entries := by
          rw [hlog]
          exact SortedSet.mem_zremRangeByScore.mpr ⟨hadded, hwindow⟩
        rw [SortedSet.zscore_eq_none] at hnew
        refine hnew ⟨⟨arg.newCost, identifier⟩, acquiredAt⟩ ?_ rfl
        unfold removed
        split
        · refine SortedSet.mem_zrem.mpr ⟨hevicted, fun hsame => hchange ?_⟩
          exact (congrArg Member.cost hsame).symm
        · exact hevicted
    · refine Or.inr ⟨fun h => hremove h.2.1, _, by rw [herr], fun hkept => ?_⟩
      simp only [recorded, Bool.and_eq_true, decide_eq_true_eq,
        Option.isSome_iff_exists] at hrecorded
      obtain ⟨-, score, hscore⟩ := hrecorded
      have hold := SortedSet.zscore_eq_some.mp hscore
      have hbefore : (⟨⟨arg.oldCost, identifier⟩, score⟩ : Scored (Member ι)) ∈ keys.log.entries ∧
          nowMs - arg.windowMs < score := by
        rw [hlog] at hold
        exact SortedSet.mem_zremRangeByScore.mp hold
      have hkeeps := (hkept.mem_iff hbefore.2).mpr hbefore.1
      exact (SortedSet.mem_zrem.mp hkeeps).2 rfl
  · simp only [heq, bind, Except.bind]
    exact Or.inr ⟨fun h => hcannot h.1, _, rfl, evict_error heq⟩

end Limit

/-! ## Scripts -/

section Calls

variable {read : LuaNumber → Option ℤ} {identifier : ι} {nowMs acquiredAt : ℤ}

/-- What the check phase looks at for one limit. -/
def checked (read : LuaNumber → Option ℤ) (nowMs : ℤ) (store : κ → Ledger ι) (arg : AcquireArg κ) :
    LuaNumber × Ledger ι :=
  afterEvict read (nowMs - arg.windowMs) (store arg.name)

/-- The request fits: no limit is exceeded before the request is found recorded. -/
def fits (read : LuaNumber → Option ℤ) (identifier : ι) (nowMs : ℤ) (store : κ → Ledger ι) :
    Bool → List (AcquireArg κ) → Bool
  | _, [] => true
  | already, arg :: rest =>
    let already := already || recorded identifier arg.cost (checked read nowMs store arg).2
    (already || !exceeds arg (checked read nowMs store arg).1) &&
      fits read identifier nowMs store already rest

/-- The condition under which no command of an acquire fails. -/
def CanAcquire (read : LuaNumber → Option ℤ) (identifier : ι) (nowMs : ℤ)
    (args : List (AcquireArg κ)) (store : κ → Ledger ι) : Prop :=
  (∀ arg ∈ args, CanEvict read (nowMs - arg.windowMs) (store arg.name)) ∧
  (fits read identifier nowMs store false args = true →
    ∀ arg ∈ args, CanRecord read identifier arg.cost (checked read nowMs store arg).2)

/-- After an error every limit is as it was or as an eviction alone would have left it. -/
def Intact {α : Type*} (read : LuaNumber → Option ℤ) (name : α → κ) (cutoff : α → ℤ)
    (args : List α) (store : κ → Ledger ι)
    (outcome : Except (κ → Ledger ι) (κ → Ledger ι)) : Prop :=
  ∀ store', outcome = .error store' →
    ∀ arg ∈ args, Kept read (cutoff arg) (store (name arg)) (store' (name arg))

/-- A limit that can be evicted is checked. -/
theorem checked_of_canEvict {store : κ → Ledger ι} {arg : AcquireArg κ}
    (h : CanEvict read (nowMs - arg.windowMs) (store arg.name)) :
    evict read (nowMs - arg.windowMs) (store arg.name) = .ok (checked read nowMs store arg) := by
  unfold checked afterEvict
  rcases evict_cases read (nowMs - arg.windowMs) (store arg.name) with ⟨-, _, _, heq, -⟩ | ⟨hnot, -⟩
  · rw [heq]
  · exact absurd h hnot

variable [DecidableEq κ] {args : List (AcquireArg κ)} {store : κ → Ledger ι} {check : Check κ ι}

/-- The first loop ends well if every eviction does. -/
theorem checkLimits_ok (hnodup : (args.map AcquireArg.name).Nodup)
    (hstore : ∀ arg ∈ args, check.store arg.name = store arg.name)
    (hcan : ∀ arg ∈ args, CanEvict read (nowMs - arg.windowMs) (store arg.name)) :
    ∃ check', checkLimits read identifier nowMs args check = .ok check' ∧
      check'.violated =
        (check.violated || !fits read identifier nowMs store check.already args) ∧
      (∀ arg ∈ args, check'.store arg.name = (checked read nowMs store arg).2) ∧
      ∀ name, name ∉ args.map AcquireArg.name → check'.store name = check.store name := by
  induction args generalizing check with
  | nil => exact ⟨check, rfl, by simp [fits], by simp, fun _ _ => rfl⟩
  | cons arg rest ih =>
    rw [List.map_cons, List.nodup_cons] at hnodup
    rw [List.forall_mem_cons] at hstore hcan
    have hne : ∀ other ∈ rest, other.name ≠ arg.name := fun other hother heq =>
      hnodup.1 (heq ▸ List.mem_map_of_mem hother)
    have hvisit : ∀ other ∈ rest,
        (check.visit identifier arg (checked read nowMs store arg)).store other.name
          = store other.name := fun other hother =>
      (Function.update_of_ne (hne other hother) ..).trans (hstore.2 other hother)
    simp only [checkLimits, hstore.1, checked_of_canEvict hcan.1]
    obtain ⟨check', hok, hviolated, hrest, hframe⟩ := ih hnodup.2 hvisit hcan.2
    refine ⟨check', hok, ?_, List.forall_mem_cons.mpr ⟨?_, hrest⟩, fun name hname => ?_⟩
    · rw [hviolated]
      simp only [fits, Check.visit]
      cases check.violated <;> cases check.already <;>
        cases recorded identifier arg.cost (checked read nowMs store arg).2 <;>
        cases exceeds arg (checked read nowMs store arg).1 <;> simp
    · exact (hframe _ hnodup.1).trans (Function.update_self ..)
    · rw [List.map_cons, List.mem_cons, not_or] at hname
      exact (hframe name hname.2).trans (Function.update_of_ne hname.1 ..)

/-- A failure of the first loop is the failure of an eviction. -/
theorem checkLimits_error (hnodup : (args.map AcquireArg.name).Nodup) {store' : κ → Ledger ι}
    (h : checkLimits read identifier nowMs args check = .error store') :
    ∃ arg ∈ args, evict read (nowMs - arg.windowMs) (check.store arg.name)
      = .error (store' arg.name) := by
  induction args generalizing check with
  | nil => cases h
  | cons arg rest ih =>
    rw [List.map_cons, List.nodup_cons] at hnodup
    simp only [checkLimits] at h
    cases hevict : evict read (nowMs - arg.windowMs) (check.store arg.name) with
    | error keys =>
      rw [hevict] at h
      obtain rfl := Except.error.inj h
      refine ⟨arg, List.mem_cons_self .., ?_⟩
      rw [Function.update_self]
      exact hevict
    | ok evicted =>
      rw [hevict] at h
      obtain ⟨other, hother, hfail⟩ := ih hnodup.2 h
      have hne : other.name ≠ arg.name := fun heq => hnodup.1 (heq ▸ List.mem_map_of_mem hother)
      have hvisit : (check.visit identifier arg evicted).store other.name
          = check.store other.name := Function.update_of_ne hne ..
      rw [hvisit] at hfail
      exact ⟨other, List.mem_cons_of_mem _ hother, hfail⟩

/-- If the first loop ends well, every eviction did. -/
theorem canEvict_of_checkLimits (hnodup : (args.map AcquireArg.name).Nodup) {check' : Check κ ι}
    (h : checkLimits read identifier nowMs args check = .ok check') :
    ∀ arg ∈ args, CanEvict read (nowMs - arg.windowMs) (check.store arg.name) := by
  induction args generalizing check with
  | nil => simp
  | cons arg rest ih =>
    rw [List.map_cons, List.nodup_cons] at hnodup
    simp only [checkLimits] at h
    rcases evict_cases read (nowMs - arg.windowMs) (check.store arg.name) with
      ⟨hcan, total, evicted, heq, -⟩ | ⟨-, -, heq⟩
    · rw [heq] at h
      refine List.forall_mem_cons.mpr ⟨hcan, fun other hother => ?_⟩
      have hne : other.name ≠ arg.name := fun heq => hnodup.1 (heq ▸ List.mem_map_of_mem hother)
      have hvisit : (check.visit identifier arg (total, evicted)).store other.name
          = check.store other.name := Function.update_of_ne hne ..
      rw [← hvisit]
      exact ih hnodup.2 h other hother
    · rw [heq] at h
      cases h

/-- An acquire ends well exactly if none of its commands fails. -/
theorem rateAcquire_ok_iff (hnodup : (args.map AcquireArg.name).Nodup) :
    (∃ store', rateAcquire read identifier nowMs args store = .ok store') ↔
      CanAcquire read identifier nowMs args store := by
  unfold rateAcquire
  constructor
  · rintro ⟨store', h⟩
    cases hcheck : checkLimits read identifier nowMs args ⟨store, false, false⟩ with
    | error keys => simp [hcheck] at h
    | ok check =>
      -- the first loop got to its end, so every limit could be evicted; the second, so every cost
      -- could be counted
      have hcan := canEvict_of_checkLimits hnodup hcheck
      obtain ⟨check', hok, hviolated, hstore, -⟩ := checkLimits_ok hnodup (fun _ _ => rfl) hcan
      obtain rfl := Except.ok.inj (hcheck.symm.trans hok)
      refine ⟨hcan, fun hfits arg harg => ?_⟩
      simp only [hcheck, hviolated, hfits, Bool.not_true, Bool.or_self, Bool.false_eq_true,
        if_false] at h
      obtain ⟨keys, hrecord⟩ := tryLoop_ok_mem hnodup h harg
      rw [hstore arg harg] at hrecord
      rcases recordLimit_cases read identifier nowMs arg (checked read nowMs store arg).2 with
        ⟨hcan, -⟩ | ⟨-, -, herr⟩
      · exact hcan
      · rw [herr] at hrecord
        cases hrecord
  · rintro ⟨hcan, hrecord⟩
    have hcheck : ∃ check, checkLimits read identifier nowMs args ⟨store, false, false⟩
        = .ok check ∧ _ ∧ _ ∧ _ := checkLimits_ok hnodup (fun _ _ => rfl) hcan
    obtain ⟨check, hok, hviolated, hstore, -⟩ := hcheck
    simp only [hok]
    split
    · exact ⟨_, rfl⟩
    · rename_i hfits
      refine tryLoop_ok hnodup fun arg harg => ?_
      rw [hstore arg harg]
      rcases recordLimit_cases read identifier nowMs arg (checked read nowMs store arg).2 with
        ⟨-, hok⟩ | ⟨hnot, -⟩
      · exact hok
      · refine absurd (hrecord ?_ arg harg) hnot
        simpa [hviolated] using hfits

/-- A failed acquire leaves a limit as no eviction leaves it. -/
theorem rateAcquire_error (hnodup : (args.map AcquireArg.name).Nodup)
    (hwindow : ∀ arg ∈ args, 0 < arg.windowMs) {store' : κ → Ledger ι}
    (h : rateAcquire read identifier nowMs args store = .error store') :
    ∃ arg ∈ args, ¬Kept read (nowMs - arg.windowMs) (store arg.name) (store' arg.name) := by
  unfold rateAcquire at h
  cases hcheck : checkLimits read identifier nowMs args ⟨store, false, false⟩ with
  | error keys =>
    simp only [hcheck] at h
    obtain rfl := Except.error.inj h
    obtain ⟨arg, harg, hfail⟩ := checkLimits_error hnodup hcheck
    exact ⟨arg, harg, evict_error hfail⟩
  | ok check =>
    simp only [hcheck] at h
    split at h
    · cases h
    · have hcan := canEvict_of_checkLimits hnodup hcheck
      obtain ⟨check', hok, -, hstore, -⟩ := checkLimits_ok hnodup (fun _ _ => rfl) hcan
      obtain rfl := Except.ok.inj (hcheck.symm.trans hok)
      obtain ⟨arg, harg, hfail⟩ := tryLoop_error hnodup h
      rw [hstore arg harg] at hfail
      have := hwindow arg harg
      exact ⟨arg, harg, recordLimit_error (by omega) (checked_of_canEvict (hcan arg harg)) hfail⟩

omit [DecidableEq κ] in
/-- An outcome is intact exactly if it is no error, where every error leaves some limit broken. -/
theorem intact_iff {α : Type*} {name : α → κ} {cutoff : α → ℤ} {args : List α}
    {outcome : Except (κ → Ledger ι) (κ → Ledger ι)}
    (h : ∀ store', outcome = .error store' →
      ∃ arg ∈ args, ¬Kept read (cutoff arg) (store (name arg)) (store' (name arg))) :
    Intact read name cutoff args store outcome ↔ ∃ store', outcome = .ok store' := by
  constructor
  · intro hintact
    cases hrun : outcome with
    | ok store' => exact ⟨store', rfl⟩
    | error store' =>
      obtain ⟨arg, harg, hnot⟩ := h store' hrun
      exact absurd (hintact store' hrun arg harg) hnot
  · rintro ⟨store', hok⟩ store'' herr
    rw [hok] at herr
    cases herr

/-- An adjust ends well exactly if none of its commands fails. -/
theorem rateAdjust_ok_iff {args : List (AdjustArg κ)} (hnodup : (args.map AdjustArg.name).Nodup)
    (hchange : ∀ arg ∈ args, arg.oldCost ≠ arg.newCost) :
    (∃ store', rateAdjust read identifier nowMs acquiredAt args store = .ok store') ↔
      ∀ arg ∈ args, CanAdjust read identifier nowMs acquiredAt arg (store arg.name) := by
  constructor
  · rintro ⟨store', hrun⟩ arg harg
    obtain ⟨keys, hok⟩ := tryLoop_ok_mem hnodup hrun harg
    rcases adjustLimit_cases (hchange arg harg) (store arg.name) with ⟨hcan, -⟩ | ⟨-, _, herr, -⟩
    · exact hcan
    · rw [herr] at hok
      cases hok
  · intro hcan
    refine tryLoop_ok hnodup fun arg harg => ?_
    rcases adjustLimit_cases (hchange arg harg) (store arg.name) with ⟨-, hok⟩ | ⟨hnot, -⟩
    · exact hok
    · exact absurd (hcan arg harg) hnot

/-- A failed adjust leaves a limit as no eviction leaves it. -/
theorem rateAdjust_error {args : List (AdjustArg κ)} (hnodup : (args.map AdjustArg.name).Nodup)
    (hchange : ∀ arg ∈ args, arg.oldCost ≠ arg.newCost) {store' : κ → Ledger ι}
    (h : rateAdjust read identifier nowMs acquiredAt args store = .error store') :
    ∃ arg ∈ args, ¬Kept read (nowMs - arg.windowMs) (store arg.name) (store' arg.name) := by
  obtain ⟨arg, harg, hfail⟩ := tryLoop_error hnodup h
  rcases adjustLimit_cases (hchange arg harg) (store arg.name) with ⟨-, _, hok⟩ | ⟨-, _, herr, hnot⟩
  · rw [hok] at hfail
    cases hfail
  · rw [herr] at hfail
    obtain rfl := Except.error.inj hfail
    exact ⟨arg, harg, hnot⟩

end Calls

section Arguments

/-- Each limit is passed once. -/
theorem adjustArgs_nodup (cfg : Config κ) (change : κ → Option (ℕ × ℕ)) :
    ((adjustArgs cfg change).map AdjustArg.name).Nodup := by
  rw [adjustArgs, List.map_map]
  exact changedLimits_nodup cfg change

/-- The arguments carry the change of their limit. -/
theorem change_of_mem_adjustArgs {cfg : Config κ} {change : κ → Option (ℕ × ℕ)} {arg : AdjustArg κ}
    (h : arg ∈ adjustArgs cfg change) : change arg.name = some (arg.oldCost, arg.newCost) := by
  obtain ⟨l, hl, rfl⟩ := List.mem_map.mp h
  obtain ⟨costs, hcosts⟩ := Option.isSome_iff_exists.mp (List.mem_filter.mp hl).2
  simp only [hcosts, Option.getD_some]

end Arguments

variable [DecidableEq κ] in
/-- **A script that ends with an error leaves its limits intact only if it cannot fail.** Whatever
the numbers read as, an error of either script finds a limit that is neither as it was nor as an
eviction alone would have left it; so what is promised of errors holds exactly if each command the
script comes to can be executed. -/
theorem aborts_intact_iff (read : LuaNumber → Option ℤ) (cfg : Config κ) (identifier : ι)
    (nowMs : ℤ) (store : κ → Ledger ι) :
    (∀ cost : κ → ℕ,
      Intact read AcquireArg.name (fun arg => nowMs - arg.windowMs) (acquireArgs cfg cost) store
          (rateAcquire read identifier nowMs (acquireArgs cfg cost) store) ↔
        CanAcquire read identifier nowMs (acquireArgs cfg cost) store) ∧
    ∀ (acquiredAt : ℤ) (change : κ → Option (ℕ × ℕ)),
      (∀ name old new, change name = some (old, new) → old ≠ new) →
      (Intact read AdjustArg.name (fun arg => nowMs - arg.windowMs) (adjustArgs cfg change) store
          (rateAdjust read identifier nowMs acquiredAt (adjustArgs cfg change) store) ↔
        ∀ arg ∈ adjustArgs cfg change,
          CanAdjust read identifier nowMs acquiredAt arg (store arg.name)) := by
  refine ⟨fun cost => ?_, fun acquiredAt change hchange => ?_⟩
  · have hnodup := acquireArgs_nodup cfg cost
    have hwindow : ∀ arg ∈ acquireArgs cfg cost, 0 < arg.windowMs := by
      intro arg harg
      obtain ⟨l, -, rfl⟩ := List.mem_map.mp harg
      exact l.window_pos
    rw [intact_iff fun store' herr => rateAcquire_error hnodup hwindow herr]
    exact rateAcquire_ok_iff hnodup
  · have hnodup := adjustArgs_nodup cfg change
    have hdiffer : ∀ arg ∈ adjustArgs cfg change, arg.oldCost ≠ arg.newCost := fun arg harg =>
      hchange _ _ _ (change_of_mem_adjustArgs harg)
    rw [intact_iff fun store' herr => rateAdjust_error hnodup hdiffer herr]
    exact rateAdjust_ok_iff hnodup hdiffer

/-- `%.17g`: numbers below `10 ^ 17` are printed in full, greater ones with an exponent. -/
def readPrinted : LuaNumber → Option ℤ
  | .finite value => if value < 10 ^ 17 then some value else none
  | .inf => none

/-- One unit, charged to request 7 at 1000 ms. -/
def oneUnit : ℕ → Ledger ℕ :=
  fun _ => ⟨(∅ : SortedSet (Member ℕ)).zadd 1000 ⟨1, 7⟩, some (.int 1)⟩

/-- The one unit is adjusted to `newCost`. -/
def adjustTo (newCost : ℕ) : ℕ → Option (ℕ × ℕ) := fun _ => some (1, newCost)

/-- An adjustment to twelve units executes. -/
theorem aborts_intact_iff_twelve : Intact readPrinted AdjustArg.name
    (fun arg => 1200 - arg.windowMs) (adjustArgs tenPerSecond (adjustTo 12)) oneUnit
    (rateAdjust readPrinted 7 1200 1000 (adjustArgs tenPerSecond (adjustTo 12)) oneUnit) := by
  have hchange : ∀ name old new, adjustTo 12 name = some (old, new) → old ≠ new := by
    intro name old new h
    obtain ⟨rfl, rfl⟩ := Prod.mk.inj (Option.some.inj h)
    decide
  refine ((aborts_intact_iff readPrinted tenPerSecond 7 1200 oneUnit).2 1000 _ hchange).mpr ?_
  exact (rateAdjust_ok_iff (adjustArgs_nodup _ _) (by decide)).mp ⟨_, rfl⟩

/-- **A cost of `10 ^ 20` breaks an adjust halfway**: the log has its member, the total is zero. -/
theorem adjust_halfway : ∃ store', rateAdjust readPrinted 7 1200 1000
      (adjustArgs tenPerSecond (adjustTo (10 ^ 20))) oneUnit = .error store' ∧
    (store' 0).total = some (.int 0) ∧ sumCosts (store' 0).log.entries = .finite (10 ^ 20) ∧
    ¬Kept readPrinted 200 (oneUnit 0) (store' 0) := by
  have hrun : rateAdjust readPrinted 7 1200 1000
      (adjustArgs tenPerSecond (adjustTo (10 ^ 20))) oneUnit = .error _ := rfl
  obtain ⟨arg, harg, hnot⟩ := rateAdjust_error (adjustArgs_nodup _ _) (by decide) hrun
  obtain rfl := List.mem_singleton.mp harg
  exact ⟨_, hrun, rfl, rfl, hnot⟩

end RedisSemaphore.RateLimiter.Abort

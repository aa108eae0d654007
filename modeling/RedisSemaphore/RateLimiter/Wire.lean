import RedisSemaphore.KeyLayout
import RedisSemaphore.RateLimiter.Magnitude
import RedisSemaphore.RateLimiter.Skew
import RedisSemaphore.Redis.Rename
import RedisSemaphore.Wire

/-!
# The rate-limiter scripts as text

The three scripts over `KEYS` and `ARGV`, the calls of `LuaScriptRunner` and the readers of their
replies. The scripts find the keys and the arguments of limit `i` by arithmetic on `i`, and take the
cost of an entry from the name of its member. Each call does to the keys of its limits, and answers,
what its function in `RateLimiter.Scripts` says; no other key is read or written.

That holds while doubles are exact and no command refuses a number: the clock and the windows are
`Moderate`, and what a log records and what the call adds to it sum to at most `2 ^ 53` (`Small`).
An adjust to a cost of `10 ^ 17` units is beyond that, and its `INCRBY` fails, after its `ZADD` has
been executed.
-/

namespace RedisSemaphore.RateLimiter.Wire

open Redis Redis.Script RedisSemaphore.Wire KeyLayout

/-! ## Helpers -/

/-- `member_cost`. -/
def memberCost (member : String) : ℤ := ((leadingDigits ':' member).bind toNumber).getD 0

/-- The loops that add up costs. -/
def addCosts (members : List String) : ℤ := members.foldl (fun total m => total + memberCost m) 0

/-- `touch`. -/
def touch (time : ℤ) (logKey totalKey : String) (ttlMs : ℤ) : Script Unit := do
  pexpire time logKey ttlMs
  pexpire time totalKey ttlMs

/-- `recount`. -/
def recount (time : ℤ) (logKey totalKey : String) (ttlMs : ℤ) : Script ℤ := do
  let total := addCosts (← zrangeAll logKey)
  setPx time totalKey total ttlMs
  let logTtl ← pttl time logKey
  if 0 < logTtl then
    pexpire time totalKey logTtl
    return total
  else return total

/-- `evict`. -/
def evict (time : ℤ) (logKey totalKey : String) (cutoff ttlMs : ℤ) : Script ℤ := do
  let expired ← zrangebyscore logKey cutoff
  let freed := addCosts expired
  if 0 < expired.length then
    let _ ← zremrangebyscore logKey cutoff
    settle freed
  else settle freed
where
  settle (freed : ℤ) : Script ℤ := do
    if (← zcard logKey) = 0 then
      del totalKey
      return 0
    else
      match ← get totalKey with
      | none => recount time logKey totalKey ttlMs
      | some raw =>
        let total ← need (toNumber raw)
        if 0 < freed then
          check (← decrby totalKey freed)
        else check total
  check (total : ℤ) : Script ℤ :=
    if total < 0 then recount time logKey totalKey ttlMs else return total

/-! ## `RATE_ACQUIRE_SCRIPT` -/

/-- The inner `for` of the walk, over members and scores in turn. -/
def walkChunk (need : ℤ) : ℤ → List String → String ⊕ ℤ
  | freed, member :: score :: rest =>
    let freed := freed + memberCost member
    if need ≤ freed then .inl score else walkChunk need freed rest
  | freed, _ => .inr freed

/-- The `while` of the walk. -/
def walk (logKey : String) (need : ℤ) : ℕ → ℕ → ℤ → Script (Option String)
  | 0, _, _ => return none
  | fuel + 1, start, freed => do
    let entries ← zrangeWithScores logKey start (start + 127)
    if entries = [] then return none
    else
      match walkChunk need freed entries with
      | .inl score => return some score
      | .inr freed => walk logKey need fuel (start + 128) freed

/-- How long a violated limit asks the caller to wait; the size of the log bounds the walk. -/
def waitFor (logKey : String) (units nowMs windowMs : ℤ) : Script ℤ := do
  let size ← zcard logKey
  match ← walk logKey units (size / 128 + 1) 0 0 with
  | none => return if windowMs < 1 then 1 else windowMs
  | some text =>
    let score ← need (toNumber text)
    let wait := score + windowMs - nowMs
    return if wait < 1 then 1 else wait

/-- The variables of the first loop. -/
structure Checked where
  used : List ℤ
  retryAfter : ℤ
  already : Bool

/-- The score of the request's own member, looked up where it is charged. -/
def ownScore (logKey : String) (cost : ℤ) (member : String) : Script (Option String) :=
  if 0 < cost then zscore logKey member else return none

/-- The first loop at limit `i`. -/
def checkLimit (identifier : String) (nowMs time : ℤ) (keys argv : List String) (s : Checked)
    (i : ℕ) : Script Checked := do
  let logKey ← need (index keys (2 * i - 1))
  let totalKey ← need (index keys (2 * i))
  let base := 3 + (i - 1) * 3
  let limit ← need ((index argv base).bind toNumber)
  let windowMs ← need ((index argv (base + 1)).bind toNumber)
  let costText ← need (index argv (base + 2))
  let cost ← need (toNumber costText)
  let total ← evict time logKey totalKey (nowMs - windowMs) (windowMs * 2)
  let recorded ← ownScore logKey cost (costText ++ ":" ++ identifier)
  let already := s.already || recorded.isSome
  if 0 < cost ∧ already = false ∧ limit < total + cost then
    let wait ← waitFor logKey (total + cost - limit) nowMs windowMs
    return ⟨s.used ++ [total], if s.retryAfter < wait then wait else s.retryAfter, already⟩
  else return ⟨s.used ++ [total], s.retryAfter, already⟩

/-- The second loop at limit `i`. -/
def recordLimit (identifier : String) (nowMs time : ℤ) (keys argv : List String) (used : List ℤ)
    (result : List ℤ) (i : ℕ) : Script (List ℤ) := do
  let logKey ← need (index keys (2 * i - 1))
  let totalKey ← need (index keys (2 * i))
  let base := 3 + (i - 1) * 3
  let windowMs ← need ((index argv (base + 1)).bind toNumber)
  let cost ← need (index argv (base + 2))
  let units ← need (toNumber cost)
  let before ← need used[i - 1]?
  let total ← record logKey totalKey windowMs cost units before
  return result ++ [total]
where
  /-- The request is charged, unless it was charged before. -/
  record (logKey totalKey : String) (windowMs : ℤ) (cost : String) (units before : ℤ) :
      Script ℤ := do
    if 0 < units then
      if (← zaddNx logKey nowMs (cost ++ ":" ++ identifier)) = 1 then
        let total ← incrby totalKey units
        touch time logKey totalKey (windowMs * 2)
        return total
      else
        let text ← get totalKey
        touch time logKey totalKey (windowMs * 2)
        return (text.bind toNumber).getD before
    else return before

/-- `RATE_ACQUIRE_SCRIPT`. -/
def rateAcquireScript (usec : ℕ) (keys argv : List String) : Script Resp := do
  let identifier ← need (index argv 1)
  let nowMs ← luaResolveNow usec argv 2
  let n := keys.length / 2
  let s ← (List.range' 1 n).foldlM (checkLimit identifier nowMs (millis usec) keys argv)
    ⟨[], 0, false⟩
  if 0 < s.retryAfter then
    return .array (([0, s.retryAfter, nowMs] ++ s.used).map .int)
  else
    let used ← (List.range' 1 n).foldlM
      (recordLimit identifier nowMs (millis usec) keys argv s.used) []
    return .array (([1, s.retryAfter, nowMs] ++ used).map .int)

/-! ## `RATE_ADJUST_SCRIPT` and `RATE_STATUS_SCRIPT` -/

/-- The loop of an adjust at limit `i`. -/
def adjustLimit (identifier : String) (nowMs time acquiredAt : ℤ) (keys argv : List String)
    (used : List ℤ) (i : ℕ) : Script (List ℤ) := do
  let logKey ← need (index keys (2 * i - 1))
  let totalKey ← need (index keys (2 * i))
  let base := 4 + (i - 1) * 3
  let windowMs ← need ((index argv base).bind toNumber)
  let oldCost ← need (index argv (base + 1))
  let newCost ← need (index argv (base + 2))
  let old ← need (toNumber oldCost)
  let new ← need (toNumber newCost)
  let total ← evict time logKey totalKey (nowMs - windowMs) (windowMs * 2)
  let total ← remove logKey totalKey oldCost old total
  let total ← add logKey totalKey windowMs newCost new total
  return used ++ [total]
where
  /-- The recorded cost goes. -/
  remove (logKey totalKey oldCost : String) (old total : ℤ) : Script ℤ := do
    if 0 < old then
      if (← zrem logKey (oldCost ++ ":" ++ identifier)) = 1 then decrby totalKey old
      else return total
    else return total
  /-- The new cost comes, while the request is in its window. -/
  add (logKey totalKey : String) (windowMs : ℤ) (newCost : String) (new total : ℤ) :
      Script ℤ := do
    if 0 < new ∧ nowMs - windowMs < acquiredAt then
      if (← zadd logKey acquiredAt (newCost ++ ":" ++ identifier)) = 1 then
        let total ← incrby totalKey new
        touch time logKey totalKey (windowMs * 2)
        return total
      else
        touch time logKey totalKey (windowMs * 2)
        return total
    else if (← zcard logKey) = 0 then
      del totalKey
      return 0
    else return total

/-- `RATE_ADJUST_SCRIPT`. -/
def rateAdjustScript (usec : ℕ) (keys argv : List String) : Script Resp := do
  let identifier ← need (index argv 1)
  let nowMs ← luaResolveNow usec argv 2
  let acquiredAt ← need ((index argv 3).bind toNumber)
  let n := keys.length / 2
  let used ← (List.range' 1 n).foldlM
    (adjustLimit identifier nowMs (millis usec) acquiredAt keys argv) []
  return .array (used.map .int)

/-- `RATE_STATUS_SCRIPT` at limit `i`. -/
def statusLimit (nowMs time : ℤ) (keys argv : List String) (used : List ℤ) (i : ℕ) :
    Script (List ℤ) := do
  let windowMs ← need ((index argv (1 + i)).bind toNumber)
  let logKey ← need (index keys (2 * i - 1))
  let totalKey ← need (index keys (2 * i))
  let total ← evict time logKey totalKey (nowMs - windowMs) (windowMs * 2)
  return used ++ [total]

/-- `RATE_STATUS_SCRIPT`. -/
def rateStatusScript (usec : ℕ) (keys argv : List String) : Script Resp := do
  let nowMs ← luaResolveNow usec argv 1
  let n := keys.length / 2
  let used ← (List.range' 1 n).foldlM (statusLimit nowMs (millis usec) keys argv) []
  return .array (used.map .int)

/-! ## The runner -/

/-- The identifier of a request, `uuid4().hex`. -/
structure Identifier where
  text : String
  deriving DecidableEq

instance : DecidableEq LimitName := fun a b =>
  if h : a.name = b.name then
    isTrue (by cases a; cases b; cases h; rfl)
  else isFalse fun heq => h (congrArg LimitName.name heq)

/-- `_keys`. -/
def keysOf (config : RateLimiterConfig) (limits : List LimitName) : List String :=
  limits.flatMap fun l => [config.logKey l, config.totalKey l]

/-- `_flatten`. -/
def flatten (rows : List (List ℤ)) : List String := rows.flatten.map toString

/-- What a method of `LuaScriptRunner` sends. -/
def invocation (config : RateLimiterConfig) (cfg : Config LimitName) (nowArg : Option ℤ) :
    Call LimitName Identifier → Invocation
  | .acquire identifier cost =>
    let keys := keysOf config (cfg.limits.map Limit.name)
    ⟨keys.length, keys ++ [identifier.text, nowMsArg nowArg] ++
      flatten ((acquireArgs cfg cost).map fun a => [(a.limit : ℤ), (a.windowMs : ℤ), (a.cost : ℤ)])⟩
  | .adjust identifier acquiredAt change =>
    let keys := keysOf config ((changedLimits cfg change).map Limit.name)
    ⟨keys.length, keys ++ [identifier.text, nowMsArg nowArg, toString acquiredAt] ++
      flatten ((adjustArgs cfg change).map fun a =>
        [(a.windowMs : ℤ), (a.oldCost : ℤ), (a.newCost : ℤ)])⟩
  | .status =>
    let keys := keysOf config (cfg.limits.map Limit.name)
    ⟨keys.length, keys ++ nowMsArg nowArg :: cfg.limits.map fun l => toString l.windowMs⟩

/-- The script of a call. -/
def script (usec : ℕ) (i : Invocation) : Call LimitName Identifier → Script Resp
  | .acquire _ _ => rateAcquireScript usec i.keys i.argv
  | .adjust _ _ _ => rateAdjustScript usec i.keys i.argv
  | .status => rateStatusScript usec i.keys i.argv

/-- `_parse_rate_acquire_result`. -/
def parseRateAcquireResult (result : Resp) (n : ℕ) : Except ReplyError AcquireReply :=
  match result with
  | .array (success :: retryAfter :: now :: used) =>
    if used.length = n then do
      let success ← toBool success
      let retryAfterMs ← toInt retryAfter
      let nowMs ← toInt now
      let used ← used.mapM toInt
      return ⟨success, retryAfterMs, nowMs, used⟩
    else .error .valueError
  | _ => .error .valueError

/-- How the reply to a call is read. -/
def parse (cfg : Config LimitName) : Call LimitName Identifier → Resp → Except ReplyError Reply
  | .acquire _ _, resp => .acquire <$> parseRateAcquireResult resp cfg.limits.length
  | .adjust _ _ change, resp => .used <$> parseIntList resp (changedLimits cfg change).length
  | .status, resp => .used <$> parseIntList resp cfg.limits.length

/-! ## Members by name -/

/-- The name of a member, `cost:identifier`. -/
def print (m : Member Identifier) : String := toString m.cost ++ ":" ++ m.identifier.text

/-- Two identifiers have two texts. -/
theorem print_injective : Function.Injective print := by
  rintro ⟨cost, ⟨text⟩⟩ ⟨cost', ⟨text'⟩⟩ h
  obtain ⟨rfl, rfl⟩ := toString_append_inj (c := ':') rfl h
  rfl

/-- Members are ordered by name, as Redis orders them. -/
instance : LinearOrder (Member Identifier) := LinearOrder.lift' print print_injective

/-- The names of the members. -/
def printed : Member Identifier ↪o String := ⟨⟨print, print_injective⟩, Iff.rfl⟩

/-- The member that a script builds from its arguments. -/
theorem printed_mk (cost : ℕ) (identifier : Identifier) :
    toString (cost : ℤ) ++ ":" ++ identifier.text = printed ⟨cost, identifier⟩ := rfl

/-- **The cost comes back out of the name**, whatever the identifier. -/
theorem memberCost_print (m : Member Identifier) :
    memberCost (print m) = RateLimiter.memberCost m := by
  have hdigits : leadingDigits ':' (print m) = some (toString m.cost) :=
    leadingDigits_append rfl m.cost m.identifier.text
  rw [memberCost, hdigits, Option.bind_some, toNumber_toString_nat]
  rfl

/-- The loop over names adds up the costs. -/
theorem addCosts_map (entries : List (Scored (Member Identifier))) :
    addCosts ((entries.map (Scored.map printed)).map Scored.member) = sumCosts entries := by
  suffices h : ∀ total : ℤ, ((entries.map (Scored.map printed)).map Scored.member).foldl
      (fun total m => total + memberCost m) total = total + sumCosts entries by
    rw [addCosts, h, zero_add]
  induction entries with
  | nil => exact fun total => (add_zero total).symm
  | cons e entries ih =>
    intro total
    have hcost : memberCost (printed e.member) = RateLimiter.memberCost e.member :=
      memberCost_print e.member
    simp only [List.map_cons, List.foldl_cons, ih, Scored.map, hcost, sumCosts, List.sum_cons]
    exact add_assoc ..

/-! ## The keys of one limit -/

/-- The database with the keys of one limit. -/
def withLimit (logKey totalKey : String) (keys : LimitKeys Identifier) (db : Database) : Database :=
  withPair logKey totalKey (keys.log.map printed) keys.total db

section Limit

variable {g t : String} {keys : LimitKeys Identifier} {db : Database} {time cutoff ttlMs units : ℤ}
  (hne : g ≠ t)

/-- A time to live of two windows is one that `PEXPIRE` takes. -/
theorem expirable_ttl (htime : Moderate time) (hpos : 0 < ttlMs) (httl : ttlMs ≤ 2 ^ 52) :
    Expirable time ttlMs := by
  obtain ⟨htime, htime'⟩ := htime
  exact expirable_of_le htime (by omega) (by omega) (by omega)

include hne

/-- `touch` sets the deadline of both keys of a limit. -/
theorem runs_touch (keys : LimitKeys Identifier) (htime : Moderate time) (hpos : 0 < ttlMs)
    (httl : ttlMs ≤ 2 ^ 52) :
    Runs (touch time g t ttlMs) (withLimit g t keys db) ()
      (withLimit g t (RateLimiter.touch time ttlMs keys) db) := by
  have hexpirable := expirable_ttl htime hpos httl
  refine (runs_pexpire_zset hne hexpirable).bind ?_
  rw [← SortedSetKey.map_pexpire]
  exact runs_pexpire_counter hexpirable

/-- The rebuilt total lives as long as the log, whose deadline is an integer of a double. -/
theorem runs_recount (htime : Moderate time) (hpos : 0 < ttlMs) (httl : ttlMs ≤ 2 ^ 52)
    (hdeadline : ∀ d, keys.log.deadline = some d → d ≤ 2 ^ 53) :
    Runs (recount time g t ttlMs) (withLimit g t keys db)
      (RateLimiter.recount time ttlMs keys).1
      (withLimit g t (RateLimiter.recount time ttlMs keys).2 db) := by
  refine (runs_zrangeAll hne).bind
    ((runs_setPx hpos (expirable_ttl htime hpos httl)).bind ((runs_pttl hne).bind ?_))
  rw [SortedSetKey.pttl_map]
  have htotal : addCosts ((keys.log.map printed).value.entries.map Scored.member) =
      sumCosts keys.log.value.entries := addCosts_map _
  rw [htotal, RateLimiter.recount]
  by_cases hlog : 0 < keys.log.pttl time
  · have hexpirable : Expirable time (keys.log.pttl time) := by
      obtain ⟨htime, htime'⟩ := htime
      obtain ⟨d, hd, hpttl⟩ := SortedSetKey.exists_deadline_of_pttl_pos hlog
      have hle := hdeadline d hd
      exact expirable_of_le htime (by omega) (by omega) (by omega)
    simp only [if_pos hlog]
    exact (runs_pexpire_counter hexpirable).bind (.pure _ _)
  · simp only [if_neg hlog]
    exact .pure _ _

/-- The freed units go from the total: both are integers of doubles, and so is the difference. -/
theorem runs_settle {freed : ℤ} (htime : Moderate time) (hpos : 0 < ttlMs) (httl : ttlMs ≤ 2 ^ 52)
    (hfreed : freed ≤ 2 ^ 53) (htotal : ∀ n, keys.total.get = some n → 0 ≤ n ∧ n ≤ 2 ^ 53)
    (hdeadline : ∀ d, keys.log.deadline = some d → d ≤ 2 ^ 53) :
    Runs (evict.settle time g t ttlMs freed) (withLimit g t keys db)
      (settleTotal time ttlMs freed keys).1
      (withLimit g t (settleTotal time ttlMs freed keys).2 db) := by
  rw [evict.settle, settleTotal]
  refine (runs_zcard hne).bind ?_
  rw [SortedSetKey.value_map, SortedSet.zcard_map]
  by_cases hempty : keys.log.value.zcard = 0
  · simp only [if_pos hempty]
    exact runs_del.bind (.pure _ _)
  · simp only [if_neg hempty]
    refine runs_get.bind ?_
    have hcheck (total : ℤ) (keys : LimitKeys Identifier)
        (hdeadline : ∀ d, keys.log.deadline = some d → d ≤ 2 ^ 53) :
        Runs (evict.check time g t ttlMs total) (withLimit g t keys db)
          (if total < 0 then RateLimiter.recount time ttlMs keys else (total, keys)).1
          (withLimit g t (if total < 0 then RateLimiter.recount time ttlMs keys
            else (total, keys)).2 db) := by
      rw [evict.check]
      split
      · exact runs_recount hne htime hpos httl hdeadline
      · exact .pure _ _
    cases hraw : keys.total.get with
    | none => exact runs_recount hne htime hpos httl hdeadline
    | some raw =>
      simp only [Option.map_some, toNumber_toString]
      refine (Runs.need _ _).bind ?_
      by_cases hgone : 0 < freed
      · simp only [if_pos hgone]
        obtain ⟨hlow, hhigh⟩ := htotal raw hraw
        have hdifference : Int64 (keys.total.get.getD 0 - freed) := by
          rw [hraw, Option.getD_some]
          exact int64_of_le (by omega) (by omega)
        refine (runs_decrby (readable_of_le (by omega) hfreed) hdifference).bind ?_
        have hleft : (keys.total.decrby freed).get.getD 0 = raw - freed := by
          rw [CounterKey.get_decrby, hraw]
          rfl
        rw [hleft]
        exact hcheck _ { keys with total := keys.total.decrby freed } hdeadline
      · simp only [if_neg hgone]
        exact hcheck raw keys hdeadline

/-- `evict` on the wire is `evict` of the model: it reads the members that leave the window, takes
their units off the total, and counts afresh where the counter is missing or would fall below
zero. -/
theorem runs_evict (htime : Moderate time) (hpos : 0 < ttlMs) (httl : ttlMs ≤ 2 ^ 52)
    (hsmall : Small units keys) (hunits : units ≤ 2 ^ 53) :
    Runs (evict time g t cutoff ttlMs) (withLimit g t keys db)
      (RateLimiter.evict time cutoff ttlMs keys).1
      (withLimit g t (RateLimiter.evict time cutoff ttlMs keys).2 db) := by
  refine (runs_zrangebyscore hne).bind ?_
  have hexpired : (keys.log.map printed).value.zrangeByScore cutoff =
      (keys.log.value.zrangeByScore cutoff).map (Scored.map printed) :=
    (SortedSet.map_zrangeByScore printed).symm
  have hfreed : sumCosts (keys.log.value.zrangeByScore cutoff) ≤ 2 ^ 53 := by
    have hsplit := sumCosts_evict keys.log.value cutoff
    have hkept := sumCosts_nonneg (keys.log.value.zremRangeByScore cutoff).entries
    have hsum := hsmall.sum
    omega
  have htotal : ∀ n, keys.total.get = some n → 0 ≤ n ∧ n ≤ 2 ^ 53 :=
    fun n hn => (hsmall.total n hn).imp_right fun hn => hn.trans hunits
  rw [hexpired, addCosts_map, RateLimiter.evict, dropExpired]
  by_cases hnil : keys.log.value.zrangeByScore cutoff = []
  · rw [hnil] at hfreed
    simp only [hnil, List.map_nil, List.length_nil, lt_self_iff_false, if_false, if_true]
    exact runs_settle hne htime hpos httl hfreed htotal hsmall.deadline
  · have hlength : 0 < (((keys.log.value.zrangeByScore cutoff).map
        (Scored.map printed)).map Scored.member).length := by
      simpa [List.length_pos_iff] using hnil
    simp only [if_neg hnil, if_pos hlength]
    refine (runs_zremrangebyscore hne).bind ?_
    have hlog : (keys.log.map printed).update (fun z => z.zremRangeByScore cutoff) =
        (keys.log.update fun z => z.zremRangeByScore cutoff).map printed :=
      (SortedSetKey.map_update printed (SortedSet.map_zremRangeByScore printed)).symm
    rw [hlog]
    show Runs _ (withLimit g t ⟨keys.log.update _, keys.total⟩ db) _ _
    exact runs_settle hne htime hpos httl hfreed htotal
      fun d hd => hsmall.deadline d (SortedSetKey.deadline_store hd)

/-- A limit that charges nothing has no member of its own to look for. -/
theorem runs_ownScore {cost : ℕ} {identifier : Identifier} :
    Runs (ownScore g cost (toString (cost : ℤ) ++ ":" ++ identifier.text))
      (withLimit g t keys db)
      ((if 0 < cost then keys.log.value.zscore ⟨cost, identifier⟩ else none).map toString)
      (withLimit g t keys db) := by
  rw [ownScore]
  by_cases hcost : 0 < cost
  · rw [if_pos (Int.natCast_pos.mpr hcost), if_pos hcost, printed_mk,
      ← SortedSet.zscore_map printed]
    exact runs_zscore hne
  · rw [if_neg (mt Int.natCast_pos.mp hcost), if_neg hcost]
    exact .pure _ _

/-! ### Members come and go -/

omit hne in
/-- The member that is recorded, under its text. -/
theorem map_zadd {score : ℤ} {m : Member Identifier} :
    (keys.log.map printed).update (fun z => z.zadd score (printed m)) =
      (keys.log.update fun z => z.zadd score m).map printed :=
  (SortedSetKey.map_update printed (SortedSet.map_zadd printed)).symm

/-- The cost goes to the total, which is the sum of the log and leaves room for it. -/
theorem runs_record {nowMs used : ℤ} {arg : AcquireArg LimitName} {identifier : Identifier}
    (htime : Moderate time) (hpos : 0 < arg.windowMs) (hwindow : arg.windowMs ≤ 2 ^ 51)
    (haccounted : Accounted keys) (hroom : sumCosts keys.log.value.entries + arg.cost ≤ 2 ^ 53) :
    Runs (recordLimit.record identifier.text nowMs time g t arg.windowMs
        (toString (arg.cost : ℤ)) arg.cost used) (withLimit g t keys db)
      (RateLimiter.recordLimit identifier nowMs time arg used keys).1
      (withLimit g t (RateLimiter.recordLimit identifier nowMs time arg used keys).2 db) := by
  have hnonneg := sumCosts_nonneg keys.log.value.entries
  have httl : (0 : ℤ) < arg.windowMs * 2 ∧ (arg.windowMs * 2 : ℤ) ≤ 2 ^ 52 := by omega
  have htouch (keys : LimitKeys Identifier) :
      Runs (touch time g t (arg.windowMs * 2)) (withLimit g t keys db) ()
        (withLimit g t (RateLimiter.touch time (arg.windowMs * 2) keys) db) :=
    runs_touch hne keys htime httl.1 httl.2
  rw [recordLimit.record, RateLimiter.recordLimit, printed_mk]
  simp only [Int.natCast_pos]
  by_cases hcost : 0 < arg.cost
  · simp only [if_pos hcost]
    have hmember : (keys.log.map printed).value.zscore (printed ⟨arg.cost, identifier⟩) =
        keys.log.value.zscore ⟨arg.cost, identifier⟩ := SortedSet.zscore_map printed
    cases hscore : keys.log.value.zscore ⟨arg.cost, identifier⟩ with
    | none =>
      refine (runs_zaddNx_new hne (hmember.trans hscore)).bind ?_
      rw [map_zadd]
      have hsum : Int64 (keys.total.get.getD 0 + arg.cost) := by
        rw [haccounted.balanced.1]
        exact int64_of_le (by omega) (by omega)
      refine (runs_incrby (readable_of_le (by omega) (by omega)) hsum).bind ?_
      show Runs _ (withLimit g t ⟨keys.log.update _, keys.total.incrby _⟩ db) _ _
      exact (htouch _).bind (.pure _ _)
    | some score =>
      refine (runs_zaddNx_old hne (hmember.trans hscore)).bind (runs_get.bind ?_)
      have hread : (keys.total.get.map toString).bind toNumber = keys.total.get := by
        cases keys.total.get with
        | none => rfl
        | some n => exact toNumber_toString n
      rw [hread]
      exact (htouch _).bind (.pure _ _)
  · simp only [if_neg hcost]
    exact .pure _ _

/-- The first half of an adjustment takes the recorded member out. -/
theorem runs_remove {old : ℕ} {total : ℤ} {identifier : Identifier} (haccounted : Accounted keys)
    (hsum : sumCosts keys.log.value.entries ≤ 2 ^ 53) (hcost : old ≤ 2 ^ 53) :
    Runs (adjustLimit.remove identifier.text g t (toString (old : ℤ)) old total)
      (withLimit g t keys db) (removeRecorded identifier old total keys).1
      (withLimit g t (removeRecorded identifier old total keys).2 db) := by
  have hnonneg := sumCosts_nonneg keys.log.value.entries
  rw [adjustLimit.remove, removeRecorded, printed_mk]
  simp only [Int.natCast_pos]
  by_cases hold : 0 < old
  · simp only [hold, true_and]
    have hmember : (keys.log.map printed).value.zscore (printed ⟨old, identifier⟩) =
        keys.log.value.zscore ⟨old, identifier⟩ := SortedSet.zscore_map printed
    cases hscore : keys.log.value.zscore ⟨old, identifier⟩ with
    | none => exact (runs_zrem_none hne (hmember.trans hscore)).bind (.pure _ _)
    | some score =>
      refine (runs_zrem_some hne (hmember.trans hscore)).bind ?_
      have hlog : (keys.log.map printed).update (fun z => z.zrem (printed ⟨old, identifier⟩)) =
          (keys.log.update fun z => z.zrem ⟨old, identifier⟩).map printed :=
        (SortedSetKey.map_update printed (SortedSet.map_zrem printed)).symm
      rw [hlog]
      have hdifference : Int64 (keys.total.get.getD 0 - old) := by
        rw [haccounted.balanced.1]
        exact int64_of_le (by omega) (by omega)
      have hreadable : Readable (old : ℤ) := readable_of_le (by omega) (by omega)
      simp only [if_true, Option.isSome_some]
      exact runs_decrby hreadable hdifference
  · simp only [hold, false_and, if_false]
    exact .pure _ _

/-- The second half records the new cost at the old time, if the window still reaches back to it.
-/
theorem runs_add {nowMs acquiredAt total : ℤ} {arg : AdjustArg LimitName}
    {identifier : Identifier} (htime : Moderate time) (hpos : 0 < arg.windowMs)
    (hwindow : arg.windowMs ≤ 2 ^ 51) (hbalanced : Balanced keys)
    (hroom : sumCosts keys.log.value.entries + arg.newCost ≤ 2 ^ 53) :
    Runs (adjustLimit.add identifier.text nowMs time acquiredAt g t arg.windowMs
        (toString (arg.newCost : ℤ)) arg.newCost total) (withLimit g t keys db)
      (addAdjusted identifier nowMs time acquiredAt arg total keys).1
      (withLimit g t (addAdjusted identifier nowMs time acquiredAt arg total keys).2 db) := by
  have hnonneg := sumCosts_nonneg keys.log.value.entries
  have httl : (0 : ℤ) < arg.windowMs * 2 ∧ (arg.windowMs * 2 : ℤ) ≤ 2 ^ 52 := by omega
  have htouch (keys : LimitKeys Identifier) :
      Runs (touch time g t (arg.windowMs * 2)) (withLimit g t keys db) ()
        (withLimit g t (RateLimiter.touch time (arg.windowMs * 2) keys) db) :=
    runs_touch hne keys htime httl.1 httl.2
  rw [adjustLimit.add, addAdjusted, printed_mk]
  simp only [Int.natCast_pos]
  by_cases hnew : 0 < arg.newCost ∧ nowMs - arg.windowMs < acquiredAt
  · simp only [if_pos hnew]
    have hmember : (keys.log.map printed).value.zscore (printed ⟨arg.newCost, identifier⟩) =
        keys.log.value.zscore ⟨arg.newCost, identifier⟩ := SortedSet.zscore_map printed
    refine (runs_zadd hne).bind ?_
    rw [map_zadd, hmember]
    cases keys.log.value.zscore ⟨arg.newCost, identifier⟩ with
    | none =>
      have hsum : Int64 (keys.total.get.getD 0 + arg.newCost) := by
        rw [hbalanced.1]
        exact int64_of_le (by omega) (by omega)
      refine (runs_incrby (readable_of_le (by omega) (by omega)) hsum).bind ?_
      show Runs _ (withLimit g t ⟨keys.log.update _, keys.total.incrby _⟩ db) _ _
      exact (htouch _).bind (.pure _ _)
    | some score =>
      show Runs _ (withLimit g t ⟨keys.log.update _, keys.total⟩ db) _ _
      exact (htouch _).bind (.pure _ _)
  · simp only [if_neg hnew]
    refine (runs_zcard hne).bind ?_
    rw [SortedSetKey.value_map, SortedSet.zcard_map]
    by_cases hempty : keys.log.value.zcard = 0
    · simp only [if_pos hempty]
      exact runs_del.bind (.pure _ _)
    · simp only [if_neg hempty]
      exact .pure _ _

/-! ### The walk -/

omit hne in
/-- A chunk of names and scores is walked as the chunk of elements. -/
theorem walkChunk_eq (need : ℤ) (entries : List (Scored (Member Identifier))) (freed : ℤ) :
    walkChunk need freed (withScores (entries.map (Scored.map printed))) =
      (RateLimiter.walkChunk need freed entries).map toString id := by
  induction entries generalizing freed with
  | nil => rfl
  | cons e entries ih =>
    have hcost : memberCost (printed e.member) = RateLimiter.memberCost e.member :=
      memberCost_print e.member
    have hchunk : withScores ((e :: entries).map (Scored.map printed)) =
        printed e.member :: toString e.score :: withScores (entries.map (Scored.map printed)) := rfl
    rw [hchunk, walkChunk, RateLimiter.walkChunk, hcost]
    split
    · rfl
    · exact ih _

/-- The walk through the log in chunks reads scores and members alternately, and stops where
enough units are freed. The induction is on the chunks that are left. -/
theorem runs_walk (need : ℤ) (fuel start : ℕ) (freed : ℤ) :
    Runs (walk g need fuel start freed) (withLimit g t keys db)
      ((RateLimiter.walk keys.log.value need fuel start freed).map toString)
      (withLimit g t keys db) := by
  induction fuel generalizing start freed with
  | zero => exact .pure _ _
  | succ fuel ih =>
    rw [walk, RateLimiter.walk]
    refine (runs_zrangeWithScores hne).bind ?_
    have hentries : (keys.log.map printed).value.zrange start (start + 127) =
        (keys.log.value.zrange start (start + 127)).map (Scored.map printed) :=
      (SortedSet.map_zrange printed).symm
    rw [hentries]
    by_cases hnil : keys.log.value.zrange start (start + 127) = []
    · simp only [hnil]
      exact .pure _ _
    · have hchunk : withScores ((keys.log.value.zrange start (start + 127)).map
          (Scored.map printed)) ≠ [] := by
        obtain ⟨e, rest, heq⟩ := List.exists_cons_of_ne_nil hnil
        simp [heq, withScores]
      simp only [if_neg hnil, if_neg hchunk, walkChunk_eq]
      cases RateLimiter.walkChunk need freed (keys.log.value.zrange start (start + 127)) with
      | inl score => exact .pure _ _
      | inr freed => exact ih _ _

/-- The wait is to the moment the last of the freed entries leaves the window. -/
theorem runs_waitFor (units nowMs : ℤ) (windowMs : ℤ) :
    Runs (waitFor g units nowMs windowMs) (withLimit g t keys db)
      (RateLimiter.waitFor keys.log.value units nowMs windowMs) (withLimit g t keys db) := by
  refine (runs_zcard hne).bind ?_
  rw [SortedSetKey.value_map, SortedSet.zcard_map]
  refine (runs_walk hne _ _ _ _).bind ?_
  rw [RateLimiter.waitFor]
  cases RateLimiter.walk keys.log.value units (keys.log.value.zcard / 128 + 1) 0 0 with
  | none => exact .pure _ _
  | some score =>
    simp only [Option.map_some, toNumber_toString]
    exact (Runs.need _ _).bind (.pure _ _)

end Limit

/-! ## The keys of all limits -/

section Limits

variable {config : RateLimiterConfig} {l l' : LimitName}

/-- A log is not a total. -/
theorem logKey_ne_totalKey : config.logKey l ≠ config.totalKey l' := by
  intro h
  have heq : LimiterKey.log config.name l = .total config.name l' :=
    limiterKey_injective config.ns config.clusterHashTags h
  cases heq

/-- The limits of a limiter have logs of their own. -/
theorem logKey_inj (h : config.logKey l = config.logKey l') : l = l' := by
  have heq : LimiterKey.log config.name l = .log config.name l' :=
    limiterKey_injective config.ns config.clusterHashTags h
  exact (LimiterKey.log.inj heq).2

/-- The limits of a limiter have totals of their own. -/
theorem totalKey_inj (h : config.totalKey l = config.totalKey l') : l = l' := by
  have heq : LimiterKey.total config.name l = .total config.name l' :=
    limiterKey_injective config.ns config.clusterHashTags h
  exact (LimiterKey.total.inj heq).2

/-- The database with the keys of some limits. -/
def withLimits (config : RateLimiterConfig) (limits : List LimitName)
    (store : LimitName → LimitKeys Identifier) (db : Database) : Database :=
  limits.foldr (fun l db => withLimit (config.logKey l) (config.totalKey l) (store l) db) db

variable {limits : List LimitName} {store : LimitName → LimitKeys Identifier} {db : Database}
  {keys : LimitKeys Identifier} {key : String}

/-- The log of a limit stands under its key. -/
theorem withLimits_log (hl : l ∈ limits) :
    withLimits config limits store db (config.logKey l) =
      Value.ofZset ((store l).log.map printed) := by
  induction limits with
  | nil => cases hl
  | cons l' limits ih =>
    show withLimit _ _ _ _ _ = _
    by_cases hll' : l = l'
    · subst hll'
      exact withPair_zset logKey_ne_totalKey
    · rw [withLimit, withPair_of_ne (fun h => hll' (logKey_inj h)) logKey_ne_totalKey]
      exact ih ((List.mem_cons.mp hl).resolve_left hll')

/-- The total of a limit stands under its key. -/
theorem withLimits_total (hl : l ∈ limits) :
    withLimits config limits store db (config.totalKey l) = Value.ofString (store l).total := by
  induction limits with
  | nil => cases hl
  | cons l' limits ih =>
    show withLimit _ _ _ _ _ = _
    by_cases hll' : l = l'
    · subst hll'
      exact withPair_counter
    · rw [withLimit, withPair_of_ne logKey_ne_totalKey.symm fun h => hll' (totalKey_inj h)]
      exact ih ((List.mem_cons.mp hl).resolve_left hll')

/-- Other keys stay as they are. -/
theorem withLimits_of_ne (h : ∀ l ∈ limits, key ≠ config.logKey l ∧ key ≠ config.totalKey l) :
    withLimits config limits store db key = db key := by
  induction limits with
  | nil => rfl
  | cons l limits ih =>
    obtain ⟨hlog, htotal⟩ := h l List.mem_cons_self
    show withLimit _ _ _ _ _ = _
    rw [withLimit, withPair_of_ne hlog htotal]
    exact ih fun l hl => h l (List.mem_cons_of_mem _ hl)

/-- A database is the one with the keys that it holds. -/
theorem withLimits_eq
    (h : ∀ l ∈ limits, db (config.logKey l) = Value.ofZset ((store l).log.map printed) ∧
      db (config.totalKey l) = Value.ofString (store l).total) :
    withLimits config limits store db = db := by
  induction limits with
  | nil => rfl
  | cons l limits ih =>
    obtain ⟨hlog, htotal⟩ := h l List.mem_cons_self
    show withLimit _ _ _ (withLimits config limits store db) = _
    rw [ih fun l hl => h l (List.mem_cons_of_mem _ hl), withLimit, withPair_eq hlog htotal]

/-- One limit changes, the others of the limiter stay. -/
theorem withLimit_withLimits (hl : l ∈ limits) :
    withLimit (config.logKey l) (config.totalKey l) keys (withLimits config limits store db) =
      withLimits config limits (Function.update store l keys) db := by
  funext key
  by_cases hkey : ∃ l' ∈ limits, key = config.logKey l' ∨ key = config.totalKey l'
  · obtain ⟨l', hl', rfl | rfl⟩ := hkey
    · rw [withLimits_log hl']
      by_cases hll' : l' = l
      · rw [hll', Function.update_self]
        exact withPair_zset logKey_ne_totalKey
      · rw [Function.update_of_ne hll', withLimit,
          withPair_of_ne (fun h => hll' (logKey_inj h)) logKey_ne_totalKey, withLimits_log hl']
    · rw [withLimits_total hl']
      by_cases hll' : l' = l
      · rw [hll', Function.update_self]
        exact withPair_counter
      · rw [Function.update_of_ne hll', withLimit,
          withPair_of_ne logKey_ne_totalKey.symm fun h => hll' (totalKey_inj h),
          withLimits_total hl']
  · push Not at hkey
    rw [withLimit, withPair_of_ne (hkey l hl).1 (hkey l hl).2, withLimits_of_ne hkey,
      withLimits_of_ne hkey]

/-- What a script does to the keys of one limit it does among the keys of all. -/
theorem runs_limit {α : Type} {p : Script α} {a : α} (hl : l ∈ limits)
    (h : Runs p (withLimit (config.logKey l) (config.totalKey l) (store l)
        (withLimits config limits store db)) a
      (withLimit (config.logKey l) (config.totalKey l) keys (withLimits config limits store db))) :
    Runs p (withLimits config limits store db) a
      (withLimits config limits (Function.update store l keys) db) := by
  rwa [withLimit_withLimits hl, withLimit_withLimits hl, Function.update_eq_self] at h

end Limits

/-! ## Arguments by number -/

/-- Rows of one width, one after the other. -/
theorem getElem?_flatMap {α β : Type*} {f : α → List β} {w : ℕ} (hw : ∀ a, (f a).length = w)
    (items : List α) {k j : ℕ} (hj : j < w) :
    (items.flatMap f)[k * w + j]? = items[k]?.bind fun a => (f a)[j]? := by
  induction items generalizing k with
  | nil => simp
  | cons a items ih =>
    rw [List.flatMap_cons]
    cases k with
    | zero =>
      rw [Nat.zero_mul, Nat.zero_add, List.getElem?_append_left (by rw [hw]; exact hj)]
      rfl
    | succ k =>
      rw [List.getElem?_append_right (by rw [hw, Nat.succ_mul]; omega), hw,
        show (k + 1) * w + j - w = k * w + j by rw [Nat.succ_mul]; omega, ih]
      rfl

/-- `KEYS[2 * i - 1]` and `KEYS[2 * i]`. -/
theorem index_keysOf {config : RateLimiterConfig} {limits : List LimitName} {k : ℕ} {l : LimitName}
    (h : limits[k]? = some l) :
    index (keysOf config limits) (2 * (k + 1) - 1) = some (config.logKey l) ∧
      index (keysOf config limits) (2 * (k + 1)) = some (config.totalKey l) := by
  have hrow {j : ℕ} (hj : j < 2) : (keysOf config limits)[k * 2 + j]? =
      [config.logKey l, config.totalKey l][j]? := by
    have hw : ∀ l : LimitName, [config.logKey l, config.totalKey l].length = 2 := fun _ => rfl
    rw [keysOf, getElem?_flatMap hw limits hj, h]
    rfl
  constructor
  · rw [index, show 2 * (k + 1) - 1 - 1 = k * 2 + 0 by omega, hrow (by decide)]
    rfl
  · rw [index, show 2 * (k + 1) - 1 = k * 2 + 1 by omega, hrow (by decide)]
    rfl

/-- `ARGV[base + j]` for three arguments a limit, behind `before`. -/
theorem index_flatten {α : Type*} {items : List α} {row : α → List ℤ}
    (hrow : ∀ a, (row a).length = 3) {before : List String} {k j : ℕ} {a : α}
    (h : items[k]? = some a) (hj : j < 3) :
    index (before ++ flatten (items.map row)) (before.length + 1 + (k + 1 - 1) * 3 + j) =
      (row a)[j]?.map toString := by
  have hflat : flatten (items.map row) = items.flatMap fun a => (row a).map toString := by
    rw [flatten, ← List.flatMap_def, List.map_flatMap]
  have hindex : before.length + 1 + (k + 1 - 1) * 3 + j - 1 = before.length + (k * 3 + j) := by
    omega
  rw [index, hindex,
    List.getElem?_append_right (Nat.le_add_right _ _), Nat.add_sub_cancel_left, hflat,
    getElem?_flatMap (fun a => by rw [List.length_map, hrow]) items hj, h, Option.bind_some,
    List.getElem?_map]

/-! ## The loops -/

/-- What holds of the keys of the limits to come holds on after the keys of another have changed. -/
theorem update_rest {α : Type} {key : α → LimitName} {J : α → LimitKeys Identifier → Prop} {a : α}
    {rest : List α} {store : LimitName → LimitKeys Identifier} {keys : LimitKeys Identifier}
    (hnodup : ((a :: rest).map key).Nodup) (hJ : ∀ b ∈ rest, J b (store (key b))) :
    (rest.map key).Nodup ∧ ∀ b ∈ rest, J b (Function.update store (key a) keys (key b)) := by
  rw [List.map_cons, List.nodup_cons] at hnodup
  refine ⟨hnodup.2, fun b hb => ?_⟩
  have hne : key b ≠ key a := fun heq => hnodup.1 (heq ▸ List.mem_map_of_mem hb)
  rw [Function.update_of_ne hne]
  exact hJ b hb

/-- A loop over limits with distinct names that collects one figure for each. What an iteration
needs of the keys of its limit (`J`) may be asked of the keys before the loop, as the iterations
before leave them alone. -/
theorem runs_loop {α : Type} {config : RateLimiterConfig} {limits : List LimitName} {db : Database}
    {body : List ℤ → ℕ → Script (List ℤ)} (key : α → LimitName)
    (f : α → LimitKeys Identifier → ℤ × LimitKeys Identifier) (J : α → LimitKeys Identifier → Prop)
    (items : List α) (hnodup : (items.map key).Nodup)
    (h : ∀ k a before store, items[k]? = some a → J a (store (key a)) →
      Runs (body before (k + 1)) (withLimits config limits store db)
        (before ++ [(f a (store (key a))).1])
        (withLimits config limits (Function.update store (key a) (f a (store (key a))).2) db))
    (store : LimitName → LimitKeys Identifier) (hJ : ∀ a ∈ items, J a (store (key a))) :
    Runs ((List.range' 1 items.length).foldlM body []) (withLimits config limits store db)
      (KeyedLoop.loop key f items store).1
      (withLimits config limits (KeyedLoop.loop key f items store).2 db) := by
  have hfold := Runs.numericFor
    (fun (s : List ℤ × (LimitName → LimitKeys Identifier)) a =>
      (s.1 ++ [(f a (s.2 (key a))).1], Function.update s.2 (key a) (f a (s.2 (key a))).2)) Prod.fst
    (fun s => withLimits config limits s.2 db)
    (fun rest s => (rest.map key).Nodup ∧ ∀ a ∈ rest, J a (s.2 (key a))) items
    (fun k a rest s hitem hI => ⟨h k a s.1 s.2 hitem (hI.2 a List.mem_cons_self),
      update_rest hI.1 fun b hb => hI.2 b (List.mem_cons_of_mem _ hb)⟩) ([], store) ⟨hnodup, hJ⟩
  rwa [KeyedLoop.loop_eq_foldl []] at hfold

section Loops

variable {config : RateLimiterConfig} {limits : List LimitName} {db : Database}
  {identifier : Identifier} {nowMs time : ℤ} {argv : List String} {keys : List String} {i : ℕ}

/-- The variables of the first loop, the keys apart. -/
def checked (c : Check LimitName Identifier) : Checked := ⟨c.used, c.retryAfter, c.already⟩

/-- One round of the first loop of `RATE_ACQUIRE_SCRIPT`: the arguments of the limit are read at
their positions, the log is evicted, and the limit is checked. -/
theorem runs_checkLimit {arg : AcquireArg LimitName} {c : Check LimitName Identifier}
    (hl : arg.name ∈ limits) (hlog : index keys (2 * i - 1) = some (config.logKey arg.name))
    (htotal : index keys (2 * i) = some (config.totalKey arg.name))
    (hlimit : index argv (3 + (i - 1) * 3) = some (toString (arg.limit : ℤ)))
    (hwindow : index argv (3 + (i - 1) * 3 + 1) = some (toString (arg.windowMs : ℤ)))
    (hcost : index argv (3 + (i - 1) * 3 + 2) = some (toString (arg.cost : ℤ)))
    (htime : Moderate time) (hpos : 0 < arg.windowMs) (hmoderate : arg.windowMs ≤ 2 ^ 51)
    (hsmall : Small (2 ^ 53 - arg.cost) (c.store arg.name)) :
    Runs (checkLimit identifier.text nowMs time keys argv (checked c) i)
      (withLimits config limits c.store db)
      (checked (RateLimiter.checkLimit identifier nowMs time arg c))
      (withLimits config limits (RateLimiter.checkLimit identifier nowMs time arg c).store db) := by
  have hne : config.logKey arg.name ≠ config.totalKey arg.name := logKey_ne_totalKey
  simp only [checkLimit, hlog, htotal, hlimit, hwindow, hcost, Option.bind_some, toNumber_toString]
  refine (Runs.need _ _).bind ((Runs.need _ _).bind ((Runs.need _ _).bind ((Runs.need _ _).bind
    ((Runs.need _ _).bind ?_))))
  rw [toNumber_toString]
  refine (Runs.need _ _).bind (runs_limit hl
    ((runs_evict hne htime (by omega) (by omega) hsmall (by omega)).bind ?_))
  simp only [RateLimiter.checkLimit]
  set evicted := RateLimiter.evict time (nowMs - arg.windowMs) (arg.windowMs * 2)
    (c.store arg.name) with hevicted
  refine (runs_ownScore hne).bind ?_
  have hrecorded : (if 0 < arg.cost then evicted.2.log.value.zscore ⟨arg.cost, identifier⟩
      else none).isSome = (decide (0 < arg.cost) &&
        (evicted.2.log.value.zscore ⟨arg.cost, identifier⟩).isSome) := by
    split <;> simp_all
  simp only [Option.isSome_map, hrecorded, checked, Int.natCast_pos]
  split
  · exact (runs_waitFor hne _ _ _).bind (.pure _ _)
  · exact .pure _ _

/-- One round of its second loop: the cost is recorded and counted. -/
theorem runs_recordLimit {arg : AcquireArg LimitName} {store : LimitName → LimitKeys Identifier}
    {used result : List ℤ} {before : ℤ} (hl : arg.name ∈ limits)
    (hlog : index keys (2 * i - 1) = some (config.logKey arg.name))
    (htotal : index keys (2 * i) = some (config.totalKey arg.name))
    (hwindow : index argv (3 + (i - 1) * 3 + 1) = some (toString (arg.windowMs : ℤ)))
    (hcost : index argv (3 + (i - 1) * 3 + 2) = some (toString (arg.cost : ℤ)))
    (hused : used[i - 1]? = some before) (htime : Moderate time) (hpos : 0 < arg.windowMs)
    (hmoderate : arg.windowMs ≤ 2 ^ 51) (haccounted : Accounted (store arg.name))
    (hroom : sumCosts (store arg.name).log.value.entries + arg.cost ≤ 2 ^ 53) :
    Runs (recordLimit identifier.text nowMs time keys argv used result i)
      (withLimits config limits store db)
      (result ++ [(RateLimiter.recordLimit identifier nowMs time arg before
        (store arg.name)).1])
      (withLimits config limits (Function.update store arg.name
        (RateLimiter.recordLimit identifier nowMs time arg before (store arg.name)).2) db) := by
  have hne : config.logKey arg.name ≠ config.totalKey arg.name := logKey_ne_totalKey
  simp only [recordLimit, hlog, htotal, hwindow, hcost, hused, Option.bind_some, toNumber_toString]
  refine (Runs.need _ _).bind ((Runs.need _ _).bind ((Runs.need _ _).bind ((Runs.need _ _).bind
    ?_)))
  rw [toNumber_toString]
  exact (Runs.need _ _).bind ((Runs.need _ _).bind (runs_limit hl
    ((runs_record hne htime hpos hmoderate haccounted hroom).bind (.pure _ _))))

/-- One round of `RATE_ADJUST_SCRIPT`. -/
theorem runs_adjustLimit {acquiredAt : ℤ} {arg : AdjustArg LimitName}
    {store : LimitName → LimitKeys Identifier} {used : List ℤ} (hl : arg.name ∈ limits)
    (hlog : index keys (2 * i - 1) = some (config.logKey arg.name))
    (htotal : index keys (2 * i) = some (config.totalKey arg.name))
    (hwindow : index argv (4 + (i - 1) * 3) = some (toString (arg.windowMs : ℤ)))
    (hold : index argv (4 + (i - 1) * 3 + 1) = some (toString (arg.oldCost : ℤ)))
    (hnew : index argv (4 + (i - 1) * 3 + 2) = some (toString (arg.newCost : ℤ)))
    (htime : Moderate time) (hpos : 0 < arg.windowMs) (hmoderate : arg.windowMs ≤ 2 ^ 51)
    (hcost : arg.oldCost ≤ 2 ^ 53) (hsmall : Small (2 ^ 53 - arg.newCost) (store arg.name)) :
    Runs (adjustLimit identifier.text nowMs time acquiredAt keys argv used i)
      (withLimits config limits store db)
      (used ++ [(RateLimiter.adjustLimit identifier nowMs time acquiredAt arg
        (store arg.name)).1])
      (withLimits config limits (Function.update store arg.name
        (RateLimiter.adjustLimit identifier nowMs time acquiredAt arg (store arg.name)).2) db) := by
  have hne : config.logKey arg.name ≠ config.totalKey arg.name := logKey_ne_totalKey
  simp only [adjustLimit, hlog, htotal, hwindow, hold, hnew, Option.bind_some, toNumber_toString]
  refine (Runs.need _ _).bind ((Runs.need _ _).bind ((Runs.need _ _).bind ((Runs.need _ _).bind
    ((Runs.need _ _).bind ?_))))
  rw [toNumber_toString, toNumber_toString]
  have hevicted := hsmall.evict time (nowMs - arg.windowMs) (arg.windowMs * 2)
  obtain ⟨haccounted, htotal⟩ := evict_accounted time (nowMs - arg.windowMs) (arg.windowMs * 2)
    hsmall.consistent
  -- the recorded cost goes before the new one comes, so the log has room for it
  set evicted := RateLimiter.evict time (nowMs - arg.windowMs) (arg.windowMs * 2) (store arg.name)
  have hremoved : sumCosts
      (removeRecorded identifier arg.oldCost evicted.1 evicted.2).2.log.value.entries ≤ _ :=
    sumCosts_removeRecorded_le
  have hsum := hevicted.sum
  exact (Runs.need _ _).bind ((Runs.need _ _).bind (runs_limit hl
    ((runs_evict hne htime (by omega) (by omega) hsmall (by omega)).bind
      ((runs_remove hne haccounted (by omega) hcost).bind
        ((runs_add hne htime hpos hmoderate (removeRecorded_balanced haccounted htotal).1
          (by omega)).bind (.pure _ _))))))

/-- One round of `RATE_STATUS_SCRIPT`. -/
theorem runs_statusLimit {limit : Limit LimitName} {store : LimitName → LimitKeys Identifier}
    {used : List ℤ} (hl : limit.name ∈ limits)
    (hlog : index keys (2 * i - 1) = some (config.logKey limit.name))
    (htotal : index keys (2 * i) = some (config.totalKey limit.name))
    (hwindow : index argv (1 + i) = some (toString (limit.windowMs : ℤ)))
    (htime : Moderate time) (hmoderate : limit.windowMs ≤ 2 ^ 51)
    (hsmall : Small (2 ^ 53) (store limit.name)) :
    Runs (statusLimit nowMs time keys argv used i) (withLimits config limits store db)
      (used ++ [(RateLimiter.evict time (nowMs - limit.windowMs) (limit.windowMs * 2)
        (store limit.name)).1])
      (withLimits config limits (Function.update store limit.name
        (RateLimiter.evict time (nowMs - limit.windowMs) (limit.windowMs * 2)
          (store limit.name)).2) db) := by
  have hne : config.logKey limit.name ≠ config.totalKey limit.name := logKey_ne_totalKey
  have hpos := limit.window_pos
  simp only [statusLimit, hlog, htotal, hwindow, Option.bind_some, toNumber_toString]
  exact (Runs.need _ _).bind ((Runs.need _ _).bind ((Runs.need _ _).bind
    (runs_limit hl ((runs_evict hne htime (by omega) (by omega) hsmall le_rfl).bind (.pure _ _)))))

end Loops

/-! ## The scripts -/

section Scripts

variable {config : RateLimiterConfig} {limits : List LimitName} {db : Database} {usec : ℕ}
  {identifier : Identifier} {arg : Option ℤ} {store : LimitName → LimitKeys Identifier}

/-- Two keys for each limit. -/
theorem length_keysOf : (keysOf config limits).length / 2 = limits.length := by
  rw [keysOf, List.length_flatMap]
  simp

/-- One figure for each limit. -/
theorem length_used (identifier : Identifier) (nowMs time : ℤ) (args : List (AcquireArg LimitName))
    (store : LimitName → LimitKeys Identifier) :
    (checkLimits identifier nowMs time args store).used.length = args.length := by
  suffices h : ∀ c : Check LimitName Identifier, (args.foldl (fun check arg =>
      RateLimiter.checkLimit identifier nowMs time arg check) c).used.length =
      c.used.length + args.length by
    simpa [checkLimits] using h ⟨store, [], 0, false⟩
  induction args with
  | nil => exact fun c => rfl
  | cons a args ih =>
    intro c
    rw [List.foldl_cons, ih]
    simp only [RateLimiter.checkLimit, List.length_append, List.length_cons, List.length_nil]
    omega

/-- The reply of `RATE_ACQUIRE_SCRIPT` as it is sent. -/
def acquireResp (r : AcquireReply) : Resp :=
  .array (([if r.success then 1 else 0, r.retryAfter, r.nowMs] ++ r.used).map .int)

/-- The arguments of one limit of an acquire, in their order. -/
def acquireRow (a : AcquireArg LimitName) : List ℤ := [a.limit, a.windowMs, a.cost]

/-- The arguments of one limit of an adjust. -/
def adjustRow (a : AdjustArg LimitName) : List ℤ := [a.windowMs, a.oldCost, a.newCost]

/-- An acquire of a request that every log has room for. -/
theorem runs_rateAcquireScript {args : List (AcquireArg LimitName)}
    (hsub : ∀ a ∈ args, a.name ∈ limits) (hnodup : (args.map AcquireArg.name).Nodup)
    (htime : Moderate (millis usec)) (hpos : ∀ a ∈ args, 0 < a.windowMs)
    (hmoderate : ∀ a ∈ args, a.windowMs ≤ 2 ^ 51)
    (hsmall : ∀ a ∈ args, Small (2 ^ 53 - a.cost) (store a.name)) :
    let r := rateAcquire identifier (arg.getD (millis usec)) (millis usec) args store
    Runs (rateAcquireScript usec (keysOf config (args.map AcquireArg.name))
        ([identifier.text, nowMsArg arg] ++ flatten (args.map acquireRow)))
      (withLimits config limits store db) (acquireResp r.1)
      (withLimits config limits r.2 db) := by
  intro r
  refine (Runs.need _ _).bind ((runs_luaResolveNow rfl _).bind ?_)
  set now := arg.getD (millis usec) with hnow
  dsimp only
  rw [length_keysOf, List.length_map]
  have hrow {k j : ℕ} {a : AcquireArg LimitName} (h : args[k]? = some a) (hj : j < 3) :
      index ([identifier.text, nowMsArg arg] ++ flatten (args.map acquireRow))
        (3 + (k + 1 - 1) * 3 + j) = (acquireRow a)[j]?.map toString :=
    index_flatten (fun _ => rfl) h hj
  have hname {k : ℕ} {a : AcquireArg LimitName} (h : args[k]? = some a) :
      (args.map AcquireArg.name)[k]? = some a.name := by
    rw [List.getElem?_map, h]
    rfl
  -- the first loop evicts limit by limit, and each finds its log with room for the request
  refine (Runs.numericFor
    (fun check a => RateLimiter.checkLimit identifier now (millis usec) a check) checked
    (fun c : Check LimitName Identifier => withLimits config limits c.store db)
    (fun rest c => (rest.map AcquireArg.name).Nodup ∧
      ∀ a ∈ rest, Small (2 ^ 53 - a.cost) (c.store a.name)) args
    (fun k a rest c h hI => ⟨?_, update_rest (J := fun a keys => Small (2 ^ 53 - a.cost) keys) hI.1
      fun b hb => hI.2 b (List.mem_cons_of_mem _ hb)⟩) ⟨store, [], 0, false⟩
      ⟨hnodup, hsmall⟩).bind ?_
  · have ha := List.mem_of_getElem? h
    exact runs_checkLimit (hsub a ha) (index_keysOf (hname h)).1 (index_keysOf (hname h)).2
      (hrow h (show 0 < 3 by decide)) (hrow h (show 1 < 3 by decide))
      (hrow h (show 2 < 3 by decide)) htime (hpos a ha) (hmoderate a ha)
      (hI.2 a List.mem_cons_self)
  have hlength := length_used identifier now (millis usec) args store
  have hevicted := checkLimits_eq_loop (millis usec) now store identifier args
  have hr : r = rateAcquire identifier now (millis usec) args store := rfl
  rw [rateAcquire] at hr
  set check := checkLimits identifier now (millis usec) args store with hcheck
  show Runs (if 0 < check.retryAfter then _ else _) (withLimits config limits check.store db) _ _
  by_cases hviolated : 0 < check.retryAfter
  · rw [if_pos hviolated] at hr ⊢
    rw [hr]
    exact .pure _ _
  · rw [if_neg hviolated] at hr ⊢
    have hzip : args.length = (args.zip check.used).length := by
      rw [List.length_zip, hlength, Nat.min_self]
    rw [hzip]
    have hnames : (args.zip check.used).map (fun p => p.1.name) = args.map AcquireArg.name := by
      have hfst := congrArg (List.map AcquireArg.name)
        (List.map_fst_zip (show args.length ≤ check.used.length by rw [hlength]))
      rwa [List.map_map] at hfst
    -- the second loop finds the accounts settled by the first
    rw [hr]
    refine (runs_loop (fun p => p.1.name)
      (fun p keys => RateLimiter.recordLimit identifier now (millis usec) p.1 p.2 keys)
      (fun p keys => Accounted keys ∧
        sumCosts keys.log.value.entries + p.1.cost ≤ 2 ^ 53)
      (args.zip check.used) (hnames ▸ hnodup) (fun k p before st h hJ => ?_) check.store
      fun p hp => ?_).bind (.pure _ _)
    · obtain ⟨harg, hused⟩ := List.getElem?_zip_eq_some.mp h
      have ha := List.mem_of_getElem? harg
      exact runs_recordLimit (hsub p.1 ha) (index_keysOf (hname harg)).1
        (index_keysOf (hname harg)).2 (hrow harg (show 1 < 3 by decide))
        (hrow harg (show 2 < 3 by decide)) hused htime (hpos p.1 ha) (hmoderate p.1 ha) hJ.1 hJ.2
    · have ha := (List.of_mem_zip hp).1
      have hkeys : check.store p.1.name = (RateLimiter.evict (millis usec)
          (now - p.1.windowMs) (p.1.windowMs * 2) (store p.1.name)).2 := by
        rw [show check.store = _ from congrArg Prod.snd hevicted]
        exact KeyedLoop.loop_mem hnodup ha
      have hroom := ((hsmall p.1 ha).evict (millis usec) (now - p.1.windowMs)
        (p.1.windowMs * 2)).sum
      rw [hkeys]
      exact ⟨(evict_accounted _ _ _ (hsmall p.1 ha).consistent).1, by omega⟩

/-- An adjust to costs that every log has room for. -/
theorem runs_rateAdjustScript {args : List (AdjustArg LimitName)} {acquiredAt : ℤ}
    (hsub : ∀ a ∈ args, a.name ∈ limits) (hnodup : (args.map AdjustArg.name).Nodup)
    (htime : Moderate (millis usec)) (hpos : ∀ a ∈ args, 0 < a.windowMs)
    (hmoderate : ∀ a ∈ args, a.windowMs ≤ 2 ^ 51) (hcost : ∀ a ∈ args, a.oldCost ≤ 2 ^ 53)
    (hsmall : ∀ a ∈ args, Small (2 ^ 53 - a.newCost) (store a.name)) :
    let r := rateAdjust identifier (arg.getD (millis usec)) (millis usec) acquiredAt args store
    Runs (rateAdjustScript usec (keysOf config (args.map AdjustArg.name))
        ([identifier.text, nowMsArg arg, toString acquiredAt] ++ flatten (args.map adjustRow)))
      (withLimits config limits store db) (.array (r.1.map .int))
      (withLimits config limits r.2 db) := by
  intro r
  have hacquired : (index ([identifier.text, nowMsArg arg, toString acquiredAt] ++
      flatten (args.map adjustRow)) 3).bind toNumber = some acquiredAt := toNumber_toString _
  rw [rateAdjustScript, hacquired]
  refine (Runs.need _ _).bind ((runs_luaResolveNow rfl _).bind ((Runs.need _ _).bind ?_))
  set now := arg.getD (millis usec) with hnow
  dsimp only
  rw [length_keysOf, List.length_map]
  refine (runs_loop AdjustArg.name
    (RateLimiter.adjustLimit identifier now (millis usec) acquiredAt)
    (fun a keys => Small (2 ^ 53 - a.newCost) keys) args hnodup
    (fun k a before st h hJ => ?_) store hsmall).bind (.pure _ _)
  have ha := List.mem_of_getElem? h
  have hrow {j : ℕ} (hj : j < 3) :
      index ([identifier.text, nowMsArg arg, toString acquiredAt] ++ flatten (args.map adjustRow))
        (4 + (k + 1 - 1) * 3 + j) = (adjustRow a)[j]?.map toString :=
    index_flatten (fun _ => rfl) h hj
  have hname : (args.map AdjustArg.name)[k]? = some a.name := by
    rw [List.getElem?_map, h]
    rfl
  exact runs_adjustLimit (hsub a ha) (index_keysOf hname).1 (index_keysOf hname).2
    (hrow (show 0 < 3 by decide)) (hrow (show 1 < 3 by decide)) (hrow (show 2 < 3 by decide))
    htime (hpos a ha) (hmoderate a ha) (hcost a ha) hJ

/-- A status call on small numbers. -/
theorem runs_rateStatusScript {items : List (Limit LimitName)}
    (hsub : ∀ l ∈ items, l.name ∈ limits) (hnodup : (items.map Limit.name).Nodup)
    (htime : Moderate (millis usec)) (hmoderate : ∀ l ∈ items, l.windowMs ≤ 2 ^ 51)
    (hsmall : ∀ l ∈ items, Small (2 ^ 53) (store l.name)) :
    let r := rateStatus (arg.getD (millis usec)) (millis usec) items store
    Runs (rateStatusScript usec (keysOf config (items.map Limit.name))
        (nowMsArg arg :: items.map fun l => toString l.windowMs))
      (withLimits config limits store db) (.array (r.1.map .int))
      (withLimits config limits r.2 db) := by
  intro r
  refine (runs_luaResolveNow rfl _).bind ?_
  set now := arg.getD (millis usec) with hnow
  dsimp only
  rw [length_keysOf, List.length_map]
  refine (runs_loop Limit.name
    (fun l => RateLimiter.evict (millis usec) (now - l.windowMs) (l.windowMs * 2))
    (fun _ keys => Small (2 ^ 53) keys) items hnodup
    (fun k l before st h hJ => ?_) store hsmall).bind (.pure _ _)
  have hl := List.mem_of_getElem? h
  have hname : (items.map Limit.name)[k]? = some l.name := by
    rw [List.getElem?_map, h]
    rfl
  have hwindow : index (nowMsArg arg :: items.map fun l => toString l.windowMs) (1 + (k + 1)) =
      some (toString (l.windowMs : ℤ)) := by
    rw [index, show 1 + (k + 1) - 1 = k + 1 by omega, List.getElem?_cons_succ, List.getElem?_map, h]
    rfl
  exact runs_statusLimit (hsub l hl) (index_keysOf hname).1 (index_keysOf hname).2 hwindow htime
    (hmoderate l hl) hJ

end Scripts

/-! ## One call -/

/-- An answer as it is sent. -/
def replyResp : Reply → Resp
  | .acquire r => acquireResp r
  | .used used => .array (used.map .int)

/-- The client reads back what `RATE_ACQUIRE_SCRIPT` answers. -/
theorem parse_acquireResp (r : AcquireReply) :
    parseRateAcquireResult (acquireResp r) r.used.length = .ok r := by
  obtain ⟨success, retryAfter, nowMs, used⟩ := r
  have hlength : (used.map Resp.int).length = used.length := List.length_map _
  show (if (used.map Resp.int).length = used.length then _ else _) = _
  rw [if_pos hlength, mapM_toInt]
  cases success <;> rfl

/-- The keys come first, and the script takes them apart again. -/
theorem keys_mk (keys argv : List String) :
    (Invocation.mk keys.length (keys ++ argv)).keys = keys ∧
      (Invocation.mk keys.length (keys ++ argv)).argv = argv :=
  ⟨List.take_left, List.drop_left⟩

/-- As many figures as limits. -/
theorem length_rateAcquire (identifier : Identifier) (nowMs time : ℤ)
    (args : List (AcquireArg LimitName)) (store : LimitName → LimitKeys Identifier) :
    (rateAcquire identifier nowMs time args store).1.used.length = args.length := by
  have hused := length_used identifier nowMs time args store
  rw [rateAcquire]
  split
  · exact hused
  · exact KeyedLoop.length_loop.trans (by rw [List.length_zip, hused, Nat.min_self])

/-- The moment of the permit of an adjust and the costs that it calls the old ones are integers that
a double holds. What a call charges is bounded by what the log has room for. -/
def InRange (cfg : Config LimitName) : Call LimitName Identifier → Prop
  | .adjust _ acquiredAt change =>
    |acquiredAt| ≤ 2 ^ 53 ∧ ∀ l ∈ cfg.limits, ((change l.name).getD (0, 0)).1 ≤ 2 ^ 53
  | .acquire _ _ | .status => True

/-- What a call sends makes the script do what its function does to the keys of the limits, at a
moderate moment, with moderate windows, and where every log has room for the units of the call. -/
theorem runs_script (config : RateLimiterConfig) {cfg : Config LimitName} {usec : ℕ}
    (arg : Option ℤ) {store : LimitName → LimitKeys Identifier} (db : Database)
    {call : Call LimitName Identifier} (htime : Moderate (millis usec))
    (hmoderate : ∀ l ∈ cfg.limits, l.windowMs ≤ 2 ^ 51) (hcall : InRange cfg call)
    (hsmall : ∀ l ∈ cfg.limits, Small (2 ^ 53 - call.units l.name) (store l.name)) :
    let r := execAt cfg call (arg.getD (millis usec)) (millis usec) store
    Runs (script usec (invocation config cfg arg call) call)
      (withLimits config (cfg.limits.map Limit.name) store db) (replyResp r.1)
      (withLimits config (cfg.limits.map Limit.name) r.2 db) := by
  cases call with
  | acquire identifier cost =>
    have hnames : (acquireArgs cfg cost).map AcquireArg.name = cfg.limits.map Limit.name := by
      rw [acquireArgs, List.map_map]
      rfl
    simp only [script, invocation]
    rw [List.append_assoc, (keys_mk _ _).1, (keys_mk _ _).2, ← hnames]
    refine runs_rateAcquireScript (fun a ha => List.mem_map_of_mem ha)
      (acquireArgs_nodup cfg cost) htime ?_ ?_ ?_ <;>
    · intro a ha
      obtain ⟨l, hl, rfl⟩ := List.mem_map.mp ha
      first | exact l.window_pos | exact hmoderate l hl | exact hsmall l hl
  | adjust identifier acquiredAt change =>
    have hnames : (adjustArgs cfg change).map AdjustArg.name =
        (changedLimits cfg change).map Limit.name := by
      rw [adjustArgs, List.map_map]
      rfl
    simp only [script, invocation]
    rw [List.append_assoc, (keys_mk _ _).1, (keys_mk _ _).2, ← hnames]
    have hnodup : ((adjustArgs cfg change).map AdjustArg.name).Nodup :=
      hnames ▸ changedLimits_nodup cfg change
    refine runs_rateAdjustScript ?_ hnodup htime ?_ ?_ ?_ ?_ <;>
    · intro a ha
      obtain ⟨l, hchanged, rfl⟩ := List.mem_map.mp ha
      have hl := List.mem_of_mem_filter hchanged
      first
        | exact List.mem_map_of_mem hl
        | exact l.window_pos
        | exact hmoderate l hl
        | exact hcall.2 l hl
        | exact hsmall l hl
  | status =>
    simp only [script, invocation]
    rw [(keys_mk _ _).1, (keys_mk _ _).2]
    exact runs_rateStatusScript (fun l hl => List.mem_map_of_mem hl) cfg.nodup htime hmoderate
      fun l hl => (hsmall l hl).mono (by simp [Call.units])

/-- The client reads the answer of its call. -/
theorem parse_replyResp (cfg : Config LimitName) (call : Call LimitName Identifier)
    (nowMs time : ℤ) (store : LimitName → LimitKeys Identifier) :
    parse cfg call (replyResp (execAt cfg call nowMs time store).1) =
      .ok (execAt cfg call nowMs time store).1 := by
  cases call with
  | acquire identifier cost =>
    have hlength := length_rateAcquire identifier nowMs time (acquireArgs cfg cost) store
    rw [acquireArgs, List.length_map] at hlength
    have hparse := parse_acquireResp (rateAcquire identifier nowMs time (acquireArgs cfg cost)
      store).1
    rw [acquireArgs, hlength] at hparse
    exact congrArg (Reply.acquire <$> ·) hparse
  | adjust identifier acquiredAt change =>
    have hlength : (rateAdjust identifier nowMs time acquiredAt (adjustArgs cfg change)
        store).1.length = (changedLimits cfg change).length := by
      rw [rateAdjust, KeyedLoop.length_loop, adjustArgs, List.length_map]
    have hparse := parseIntList_ints (rateAdjust identifier nowMs time acquiredAt
      (adjustArgs cfg change) store).1
    rw [hlength] at hparse
    exact congrArg (Reply.used <$> ·) hparse
  | status =>
    have hlength : (rateStatus nowMs time cfg.limits store).1.length = cfg.limits.length :=
      KeyedLoop.length_loop
    have hparse := parseIntList_ints (rateStatus nowMs time cfg.limits store).1
    rw [hlength] at hparse
    exact congrArg (Reply.used <$> ·) hparse

end RedisSemaphore.RateLimiter.Wire

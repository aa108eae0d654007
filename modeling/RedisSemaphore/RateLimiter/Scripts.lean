import RedisSemaphore.Redis.Key
import RedisSemaphore.KeyedLoop
import RedisSemaphore.Transition
import Mathlib.Data.Prod.Lex

/-!
# The three rate-limiter scripts

`lua_scripts.py`: `RATE_ACQUIRE_SCRIPT`, `RATE_ADJUST_SCRIPT` and `RATE_STATUS_SCRIPT` with the
fragment `_LUA_RATE_HELPERS` they share. Every limit of a limiter has two keys, a log of members
`cost:identifier` scored by admission time and a running total of the costs in it.

`time` is the server clock on which keys expire and `nowMs` the time the script reasons with; with
`TimeSource.SERVER` they are the same. Costs, sums and times are integers: in the scripts they are
doubles, exact below `2 ^ 53`.
-/

namespace RedisSemaphore.RateLimiter

open Redis KeyedLoop

/-- One limit of a limiter (`RateLimit`), its window in milliseconds as `_window_ms` gives it. -/
structure Limit (κ : Type*) where
  name : κ
  limit : ℕ
  windowMs : ℕ
  limit_pos : 1 ≤ limit
  window_pos : 1 ≤ windowMs

/-- The part of `RateLimiterConfig` that reaches the scripts: limits with distinct names. -/
structure Config (κ : Type*) where
  limits : List (Limit κ)
  nonempty : limits ≠ []
  nodup : (limits.map Limit.name).Nodup

/-- A member of a log, `cost:identifier`. The cost is printed in decimal, so the name determines
both parts. -/
structure Member (ι : Type*) where
  cost : ℕ
  identifier : ι
  deriving DecidableEq, Repr

/-- One order of members, by cost and identifier. Redis orders equal scores by the printed name, so
the scripts below are stated for any order. -/
instance {ι : Type*} [LinearOrder ι] : LinearOrder (Member ι) :=
  LinearOrder.lift' (fun m => toLex (m.cost, m.identifier)) fun a b h => by
    cases a; cases b; simpa using h

/-- `member_cost`: the digits before the colon. -/
def memberCost {ι : Type*} (m : Member ι) : ℤ := m.cost

variable {κ ι : Type*} [DecidableEq κ] [LinearOrder (Member ι)]

/-- The two keys of one limit. -/
structure LimitKeys (ι : Type*) [LinearOrder (Member ι)] where
  log : SortedSetKey (Member ι)
  total : CounterKey

/-- The keys of a limit nobody was charged to. -/
def LimitKeys.initial : LimitKeys ι := ⟨∅, none⟩

/-- The sum of the costs of log elements: the accumulating loops of `recount` and `evict`. -/
def sumCosts (entries : List (Scored (Member ι))) : ℤ :=
  (entries.map fun e => memberCost e.member).sum

/-! ## Helpers -/

/-- `touch`: give both keys the same time to live. -/
def touch (time ttlMs : ℤ) (keys : LimitKeys ι) : LimitKeys ι :=
  ⟨keys.log.pexpire time ttlMs, keys.total.pexpire time ttlMs⟩

/-- `recount`: rebuild the running total from the log; the rebuilt total must not outlive the
log. -/
def recount (time ttlMs : ℤ) (keys : LimitKeys ι) : ℤ × LimitKeys ι :=
  let total := sumCosts keys.log.value.entries
  let totalKey := CounterKey.setPx time total ttlMs
  let logTtl := keys.log.pttl time
  (total, { keys with total := if 0 < logTtl then totalKey.pexpire time logTtl else totalKey })

/-- The first half of `evict`: drop the entries at or before `cutoff`; the units they free. -/
def dropExpired (cutoff : ℤ) (keys : LimitKeys ι) : ℤ × LimitKeys ι :=
  let expired := keys.log.value.zrangeByScore cutoff
  (sumCosts expired, if expired = [] then keys else
    { keys with log := keys.log.update fun z => z.zremRangeByScore cutoff })

/-- The second half of `evict`: bring the total in line with what is left of the log. -/
def settleTotal (time ttlMs freed : ℤ) (keys : LimitKeys ι) : ℤ × LimitKeys ι :=
  if keys.log.value.zcard = 0 then (0, { keys with total := none })
  else match keys.total.get with
    | none => recount time ttlMs keys
    | some raw =>
      let (total, keys) := if 0 < freed
        then (raw - freed, { keys with total := keys.total.decrby freed })
        else (raw, keys)
      if total < 0 then recount time ttlMs keys else (total, keys)

/-- `evict`: drop entries at or before `cutoff` and return the units still in the window. -/
def evict (time cutoff ttlMs : ℤ) (keys : LimitKeys ι) : ℤ × LimitKeys ι :=
  let (freed, keys) := dropExpired cutoff keys
  settleTotal time ttlMs freed keys

/-! ## `RATE_ACQUIRE_SCRIPT` -/

/-- The arguments of one limit of an acquire. -/
structure AcquireArg (κ : Type*) where
  name : κ
  limit : ℕ
  windowMs : ℕ
  cost : ℕ

/-- The inner `for` of the walk: the score at which `need` units are freed, or the units freed by
all the entries. -/
def walkChunk (need : ℤ) : ℤ → List (Scored (Member ι)) → ℤ ⊕ ℤ
  | freed, [] => .inr freed
  | freed, e :: rest =>
    let freed := freed + memberCost e.member
    if need ≤ freed then .inl e.score else walkChunk need freed rest

/-- The `while` of the walk, by chunks of 128 entries. -/
def walk (z : SortedSet (Member ι)) (need : ℤ) : ℕ → ℕ → ℤ → Option ℤ
  | 0, _, _ => none
  | fuel + 1, start, freed =>
    let entries := z.zrange start (start + 127)
    if entries = [] then none
    else match walkChunk need freed entries with
      | .inl score => some score
      | .inr freed => walk z need fuel (start + 128) freed

/-- How long a violated limit asks the caller to wait. The walk reads at most
`zcard / 128 + 1` chunks before it meets the end of the log. -/
def waitFor (z : SortedSet (Member ι)) (need nowMs windowMs : ℤ) : ℤ :=
  let wait := match walk z need (z.zcard / 128 + 1) 0 0 with
    | some score => score + windowMs - nowMs
    | none => windowMs
  if wait < 1 then 1 else wait

/-- What the first loop carries: the keys, `used`, `retry_after` and `already`. -/
structure Check (κ ι : Type*) [LinearOrder (Member ι)] where
  store : κ → LimitKeys ι
  used : List ℤ
  retryAfter : ℤ
  already : Bool

/-- One iteration of the first loop: evict, then check the limit. Nothing is recorded. -/
def checkLimit (identifier : ι) (nowMs time : ℤ) (arg : AcquireArg κ) (check : Check κ ι) :
    Check κ ι :=
  let (total, keys) := evict time (nowMs - arg.windowMs) (arg.windowMs * 2) (check.store arg.name)
  let already := check.already ||
    (decide (0 < arg.cost) && (keys.log.value.zscore ⟨arg.cost, identifier⟩).isSome)
  let retryAfter :=
    if 0 < arg.cost ∧ already = false ∧ (arg.limit : ℤ) < total + arg.cost then
      let wait := waitFor keys.log.value (total + arg.cost - arg.limit) nowMs arg.windowMs
      if check.retryAfter < wait then wait else check.retryAfter
    else check.retryAfter
  ⟨Function.update check.store arg.name keys, check.used ++ [total], retryAfter, already⟩

/-- The first loop. -/
def checkLimits (identifier : ι) (nowMs time : ℤ) (args : List (AcquireArg κ))
    (store : κ → LimitKeys ι) : Check κ ι :=
  args.foldl (fun check arg => checkLimit identifier nowMs time arg check) ⟨store, [], 0, false⟩

/-- One iteration of the second loop: record the request in a window it is charged to. `ZADD NX` and
the guard keep a resent acquire from charging the total twice. -/
def recordLimit (identifier : ι) (nowMs time : ℤ) (arg : AcquireArg κ) (used : ℤ)
    (keys : LimitKeys ι) : ℤ × LimitKeys ι :=
  if 0 < arg.cost then
    let m : Member ι := ⟨arg.cost, identifier⟩
    let (used, keys) := match keys.log.value.zscore m with
      | none => ((keys.total.incrby arg.cost).get.getD 0,
          ⟨keys.log.update fun z => z.zadd nowMs m, keys.total.incrby arg.cost⟩)
      | some _ => (keys.total.get.getD used, keys)
    (used, touch time (arg.windowMs * 2) keys)
  else (used, keys)

/-- The reply of `RATE_ACQUIRE_SCRIPT`. -/
structure AcquireReply where
  success : Bool
  retryAfter : ℤ
  nowMs : ℤ
  used : List ℤ
  deriving DecidableEq, Repr

/-- `RATE_ACQUIRE_SCRIPT`. -/
def rateAcquire (identifier : ι) (nowMs time : ℤ) (args : List (AcquireArg κ))
    (store : κ → LimitKeys ι) : AcquireReply × (κ → LimitKeys ι) :=
  let check := checkLimits identifier nowMs time args store
  if 0 < check.retryAfter then (⟨false, check.retryAfter, nowMs, check.used⟩, check.store)
  else
    let (used, store) := loop (fun p => p.1.name)
      (fun p keys => recordLimit identifier nowMs time p.1 p.2 keys)
      (args.zip check.used) check.store
    (⟨true, check.retryAfter, nowMs, used⟩, store)

/-! ## `RATE_ADJUST_SCRIPT` -/

/-- The arguments of one limit of an adjust. -/
structure AdjustArg (κ : Type*) where
  name : κ
  windowMs : ℕ
  oldCost : ℕ
  newCost : ℕ

/-- The `ZREM` of the recorded cost in the adjust loop, on the total and the keys so far. -/
def removeRecorded (identifier : ι) (oldCost : ℕ) (total : ℤ) (keys : LimitKeys ι) :
    ℤ × LimitKeys ι :=
  let old : Member ι := ⟨oldCost, identifier⟩
  if 0 < oldCost ∧ (keys.log.value.zscore old).isSome then
    ((keys.total.decrby oldCost).get.getD 0,
      ⟨keys.log.update fun z => z.zrem old, keys.total.decrby oldCost⟩)
  else (total, keys)

/-- The rest of the adjust loop: the `ZADD` of the new cost at the admission time while the request
is in its window, else the clean-up of an emptied log. -/
def addAdjusted (identifier : ι) (nowMs time acquiredAt : ℤ) (arg : AdjustArg κ) (total : ℤ)
    (keys : LimitKeys ι) : ℤ × LimitKeys ι :=
  let new : Member ι := ⟨arg.newCost, identifier⟩
  if 0 < arg.newCost ∧ nowMs - arg.windowMs < acquiredAt then
    -- a member that is already there is a retried adjust: only its score is written
    let (total, totalKey) := if (keys.log.value.zscore new).isNone
      then ((keys.total.incrby arg.newCost).get.getD 0, keys.total.incrby arg.newCost)
      else (total, keys.total)
    (total, touch time (arg.windowMs * 2)
      ⟨keys.log.update fun z => z.zadd acquiredAt new, totalKey⟩)
  else if keys.log.value.zcard = 0 then (0, { keys with total := none })
  else (total, keys)

/-- One iteration of the adjust loop: replace the recorded cost, keeping the admission time. -/
def adjustLimit (identifier : ι) (nowMs time acquiredAt : ℤ) (arg : AdjustArg κ)
    (keys : LimitKeys ι) : ℤ × LimitKeys ι :=
  let (total, keys) := evict time (nowMs - arg.windowMs) (arg.windowMs * 2) keys
  let (total, keys) := removeRecorded identifier arg.oldCost total keys
  addAdjusted identifier nowMs time acquiredAt arg total keys

/-- `RATE_ADJUST_SCRIPT`. -/
def rateAdjust (identifier : ι) (nowMs time acquiredAt : ℤ) (args : List (AdjustArg κ))
    (store : κ → LimitKeys ι) : List ℤ × (κ → LimitKeys ι) :=
  loop AdjustArg.name (adjustLimit identifier nowMs time acquiredAt) args store

/-! ## `RATE_STATUS_SCRIPT` -/

/-- `RATE_STATUS_SCRIPT`, over the names and windows of the limits. -/
def rateStatus (nowMs time : ℤ) (limits : List (Limit κ)) (store : κ → LimitKeys ι) :
    List ℤ × (κ → LimitKeys ι) :=
  loop Limit.name (fun l => evict time (nowMs - l.windowMs) (l.windowMs * 2)) limits store

/-! ## Calls of one limiter -/

/-- A script call of a limiter. An adjust names the old and the new cost of the limits it
changes. -/
inductive Call (κ ι : Type*)
  | acquire (identifier : ι) (cost : κ → ℕ)
  | adjust (identifier : ι) (acquiredAt : ℤ) (change : κ → Option (ℕ × ℕ))
  | status

/-- What a script answers. -/
inductive Reply
  | acquire (reply : AcquireReply)
  | used (used : List ℤ)
  deriving DecidableEq

/-- The `used` figures of a reply. -/
def Reply.figures : Reply → List ℤ
  | .acquire reply => reply.used
  | .used figures => figures

/-- `_acquire_limits`. -/
def acquireArgs (cfg : Config κ) (cost : κ → ℕ) : List (AcquireArg κ) :=
  cfg.limits.map fun l => ⟨l.name, l.limit, l.windowMs, cost l.name⟩

/-- The changed limits, in the order of the configuration. -/
def changedLimits (cfg : Config κ) (change : κ → Option (ℕ × ℕ)) : List (Limit κ) :=
  cfg.limits.filter fun l => (change l.name).isSome

/-- The arguments of an adjust: only the limits whose cost changes go to the script. -/
def adjustArgs (cfg : Config κ) (change : κ → Option (ℕ × ℕ)) : List (AdjustArg κ) :=
  (changedLimits cfg change).map fun l =>
    ⟨l.name, l.windowMs, ((change l.name).getD (0, 0)).1, ((change l.name).getD (0, 0)).2⟩

/-- The limits a call hands to its script. -/
def Call.touched (cfg : Config κ) : Call κ ι → List (Limit κ)
  | .acquire _ _ => cfg.limits
  | .adjust _ _ change => changedLimits cfg change
  | .status => cfg.limits

/-- Execute one script call with the server clock. -/
def exec (cfg : Config κ) (call : Call κ ι) (time : ℤ) (store : κ → LimitKeys ι) :
    Reply × (κ → LimitKeys ι) :=
  match call with
  | .acquire identifier cost =>
    let (reply, store) := rateAcquire identifier time time (acquireArgs cfg cost) store
    (.acquire reply, store)
  | .adjust identifier acquiredAt change =>
    let (used, store) := rateAdjust identifier time time acquiredAt (adjustArgs cfg change) store
    (.used used, store)
  | .status =>
    let (used, store) := rateStatus time time cfg.limits store
    (.used used, store)

/-- One of the two keys of a limit. -/
inductive KeyKind
  | log
  | total
  deriving DecidableEq

/-- Delete one key of a limit. -/
def LimitKeys.delete (kind : KeyKind) (keys : LimitKeys ι) : LimitKeys ι :=
  match kind with
  | .log => { keys with log := ∅ }
  | .total => { keys with total := none }

/-- Drop one key of a limit if its deadline has passed. -/
def LimitKeys.expire (kind : KeyKind) (time : ℤ) (keys : LimitKeys ι) : LimitKeys ι :=
  match kind with
  | .log => { keys with log := keys.log.expire time }
  | .total => { keys with total := keys.total.expire time }

/-- What happens to a limiter on the server: a script runs and answers, the clock advances, Redis
drops a key whose deadline has passed, or a key is lost without any deadline. -/
inductive Event (κ ι : Type*)
  | call (time : ℤ) (call : Call κ ι) (reply : Reply)
  | wait (time : ℤ)
  | expire (name : κ) (kind : KeyKind)
  | lose (name : κ) (kind : KeyKind)

/-- The server clock and the keys of one limiter. -/
structure Server (κ ι : Type*) [LinearOrder (Member ι)] where
  time : ℤ
  store : κ → LimitKeys ι

/-- One step with `TimeSource.SERVER`. -/
inductive Step (cfg : Config κ) : Server κ ι → Event κ ι → Server κ ι → Prop
  | call (s : Server κ ι) (c : Call κ ι) :
      Step cfg s (.call s.time c (exec cfg c s.time s.store).1)
        { s with store := (exec cfg c s.time s.store).2 }
  | wait (s : Server κ ι) (time : ℤ) (h : s.time ≤ time) :
      Step cfg s (.wait time) { s with time := time }
  | expire (s : Server κ ι) (name : κ) (kind : KeyKind) :
      Step cfg s (.expire name kind)
        { s with store := Function.update s.store name ((s.store name).expire kind s.time) }
  | lose (s : Server κ ι) (name : κ) (kind : KeyKind) :
      Step cfg s (.lose name kind)
        { s with store := Function.update s.store name ((s.store name).delete kind) }

/-- The runs of one limiter: it starts without keys. -/
def system (cfg : Config κ) : Transition.System (Server κ ι) (Event κ ι) where
  start s := s.store = fun _ => LimitKeys.initial
  step := Step cfg

end RedisSemaphore.RateLimiter

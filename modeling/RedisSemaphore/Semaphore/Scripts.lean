import RedisSemaphore.Redis.Key
import RedisSemaphore.Transition

/-!
# The five semaphore scripts

`lua_scripts.py`: `ACQUIRE_SCRIPT`, `RELEASE_SCRIPT`, `REFRESH_SCRIPT`, `CLEANUP_SCRIPT` and
`STATUS_SCRIPT`, each an atomic function from the two keys of one semaphore to a reply and the keys
it leaves. Two clocks appear in them: `time` is the server clock, on which Redis expires keys, and
`nowMs` is the time the script reasons with, which is the same only with `TimeSource.SERVER`.

Times are integer milliseconds. In the scripts they are doubles, exact below `2 ^ 53`.
-/

namespace RedisSemaphore.Semaphore

open Redis

variable {ι : Type*} [LinearOrder ι]

/-- The keys of one semaphore: the owners sorted set (identifier, expiry) and the fencing counter,
which never gets a deadline; a missing counter reads as `0`. -/
structure Keys (ι : Type*) [LinearOrder ι] where
  owners : SortedSetKey ι
  fencing : ℕ

/-- The keys of a semaphore nobody has used. -/
def Keys.initial : Keys ι := ⟨∅, 0⟩

/-- Redis drops the owners key once its deadline has passed. -/
def Keys.expire (time : ℤ) (keys : Keys ι) : Keys ι :=
  { keys with owners := keys.owners.expire time }

/-- `_lua_resolve_now`: the time argument, or the server clock for `''`. -/
def resolveNow (arg : Option ℤ) (time : ℤ) : ℤ := arg.getD time

/-- `ZREMRANGEBYSCORE owners -inf now`: the lazy eviction of expired owners. -/
def evictExpired (nowMs : ℤ) (owners : SortedSetKey ι) : SortedSetKey ι :=
  owners.update fun z => z.zremRangeByScore nowMs

/-- `_LUA_BUMP_OWNERS_TTL`: expire the owners key with its longest-lived member, plus one
`lock_timeout` of margin. -/
def bumpOwnersTtl (time nowMs lockTimeoutMs : ℤ) (owners : SortedSetKey ι) : SortedSetKey ι :=
  match owners.value.last with
  | none => owners
  | some top => owners.pexpire time (top.score - nowMs + lockTimeoutMs)

/-! ## The scripts -/

/-- The reply of `ACQUIRE_SCRIPT`; the empty strings of a refusal are `none`. -/
structure AcquireReply where
  success : Bool
  fencingToken : Option ℕ
  expiresAt : Option ℤ
  usedSlots : ℕ
  deriving DecidableEq, Repr

/-- `ACQUIRE_SCRIPT`. -/
def acquireScript (identifier : ι) (limit lockTimeoutMs : ℕ) (nowArg : Option ℤ) (time : ℤ)
    (keys : Keys ι) : AcquireReply × Keys ι :=
  let nowMs := resolveNow nowArg time
  let owners := evictExpired nowMs keys.owners
  let currentCount := owners.value.zcard
  match owners.value.zscore identifier with
  | some _ =>
    -- re-entrant acquire: a new expiry and a new token, whatever the limit
    let newExpires := nowMs + lockTimeoutMs
    let owners := owners.update fun z => z.zadd newExpires identifier
    let fencing := keys.fencing + 1
    (⟨true, some fencing, some newExpires, currentCount⟩,
      ⟨bumpOwnersTtl time nowMs lockTimeoutMs owners, fencing⟩)
  | none =>
    if currentCount < limit then
      let expiresAt := nowMs + lockTimeoutMs
      let owners := owners.update fun z => z.zadd expiresAt identifier
      let fencing := keys.fencing + 1
      (⟨true, some fencing, some expiresAt, currentCount + 1⟩,
        ⟨bumpOwnersTtl time nowMs lockTimeoutMs owners, fencing⟩)
    else (⟨false, none, none, currentCount⟩, { keys with owners := owners })

/-- `RELEASE_SCRIPT`: `1` if the identifier was removed, `0` if it was not an owner. -/
def releaseScript (identifier : ι) (keys : Keys ι) : ℤ × Keys ι :=
  match keys.owners.value.zscore identifier with
  | some _ => (1, { keys with owners := keys.owners.update fun z => z.zrem identifier })
  | none => (0, keys)

/-- `REFRESH_SCRIPT`: the new expiry, or `0` if the lock is lost. -/
def refreshScript (identifier : ι) (lockTimeoutMs : ℕ) (nowArg : Option ℤ) (time : ℤ)
    (keys : Keys ι) : ℤ × Keys ι :=
  let nowMs := resolveNow nowArg time
  match keys.owners.value.zscore identifier with
  | none => (0, keys)
  | some currentScore =>
    if currentScore < nowMs then
      (0, { keys with owners := keys.owners.update fun z => z.zrem identifier })
    else
      let newExpires := nowMs + lockTimeoutMs
      let owners := keys.owners.update fun z => z.zadd newExpires identifier
      (newExpires, { keys with owners := bumpOwnersTtl time nowMs lockTimeoutMs owners })

/-- `CLEANUP_SCRIPT`: the number of owners it evicted. -/
def cleanupScript (nowArg : Option ℤ) (time : ℤ) (keys : Keys ι) : ℤ × Keys ι :=
  let nowMs := resolveNow nowArg time
  ((keys.owners.value.zrangeByScore nowMs).length,
    { keys with owners := evictExpired nowMs keys.owners })

/-- The reply of `STATUS_SCRIPT`; an empty `expires_at` is `none`. -/
structure StatusReply where
  currentCount : ℕ
  isOwner : Bool
  expiresAt : Option ℤ
  deriving DecidableEq, Repr

/-- `STATUS_SCRIPT`; the identifier is optional. -/
def statusScript (identifier : Option ι) (nowArg : Option ℤ) (time : ℤ) (keys : Keys ι) :
    StatusReply × Keys ι :=
  let nowMs := resolveNow nowArg time
  let owners := evictExpired nowMs keys.owners
  let score := identifier.bind owners.value.zscore
  (⟨owners.value.zcard, score.isSome, score⟩, { keys with owners := owners })

/-! ## Calls, replies and runs -/

/-- A script call with its arguments, the time argument apart. -/
inductive Call (ι : Type*)
  | acquire (identifier : ι) (limit lockTimeoutMs : ℕ)
  | release (identifier : ι)
  | refresh (identifier : ι) (lockTimeoutMs : ℕ)
  | cleanup
  | status (identifier : Option ι)

/-- What a script answers. -/
inductive Reply
  | acquire (reply : AcquireReply)
  | int (n : ℤ)
  | status (reply : StatusReply)
  deriving DecidableEq

/-- Execute one script call at server time `time`. -/
def exec (call : Call ι) (nowArg : Option ℤ) (time : ℤ) (keys : Keys ι) : Reply × Keys ι :=
  match call with
  | .acquire identifier limit lockTimeoutMs =>
    let (reply, keys) := acquireScript identifier limit lockTimeoutMs nowArg time keys
    (.acquire reply, keys)
  | .release identifier =>
    let (n, keys) := releaseScript identifier keys
    (.int n, keys)
  | .refresh identifier lockTimeoutMs =>
    let (n, keys) := refreshScript identifier lockTimeoutMs nowArg time keys
    (.int n, keys)
  | .cleanup =>
    let (n, keys) := cleanupScript nowArg time keys
    (.int n, keys)
  | .status identifier =>
    let (reply, keys) := statusScript identifier nowArg time keys
    (.status reply, keys)

/-- What happens to one semaphore on the server: a script runs and answers, the clock advances, or
Redis drops the owners key because its deadline has passed. -/
inductive Event (ι : Type*)
  | call (time : ℤ) (call : Call ι) (reply : Reply)
  | wait (time : ℤ)
  | expire

/-- The server clock and the keys of one semaphore. -/
structure Server (ι : Type*) [LinearOrder ι] where
  time : ℤ
  keys : Keys ι

/-- One step with `TimeSource.SERVER`. Redis may drop the owners key at any moment from its
deadline on. -/
inductive Step : Server ι → Event ι → Server ι → Prop
  | call (s : Server ι) (c : Call ι) :
      Step s (.call s.time c (exec c none s.time s.keys).1)
        { s with keys := (exec c none s.time s.keys).2 }
  | wait (s : Server ι) (time : ℤ) (h : s.time ≤ time) : Step s (.wait time) { s with time := time }
  | expire (s : Server ι) : Step s .expire { s with keys := s.keys.expire s.time }

/-- The runs of one semaphore. `TIME` is the Unix clock, so it is positive: a refresh that answers
`0` says that the lock is lost. -/
def system : Transition.System (Server ι) (Event ι) where
  start s := 0 < s.time ∧ s.keys = Keys.initial
  step := Step

/-! ## Elements after a script -/

section Elements

variable {owners : SortedSetKey ι} {e : Scored ι} {i j : ι} {time nowMs t : ℤ}

@[simp] theorem mem_evictExpired :
    e ∈ (evictExpired nowMs owners).value.entries ↔ e ∈ owners.value.entries ∧ nowMs < e.score := by
  simp [evictExpired]

theorem zscore_evictExpired {s : ℤ} :
    (evictExpired nowMs owners).value.zscore i = some s
      ↔ owners.value.zscore i = some s ∧ nowMs < s := by
  simp [evictExpired, SortedSet.zscore_zremRangeByScore]

theorem mem_of_mem_bumpOwnersTtl (h : e ∈ (bumpOwnersTtl time nowMs t owners).value.entries) :
    e ∈ owners.value.entries := by
  rw [bumpOwnersTtl] at h
  split at h
  · exact h
  · exact SortedSetKey.mem_of_mem_pexpire h

/-- The bump deletes the key only when nothing in it outlives `nowMs - t`. -/
theorem mem_bumpOwnersTtl (he : e ∈ owners.value.entries) (hlive : nowMs < e.score + t) :
    e ∈ (bumpOwnersTtl time nowMs t owners).value.entries := by
  obtain ⟨top, htop⟩ := SortedSet.exists_last he
  have hle := SortedSet.score_le_last htop he
  rw [bumpOwnersTtl, htop]
  simp only
  rw [SortedSetKey.value_pexpire (by omega)]
  exact he

/-- A key the bump leaves outlives every element by one lock timeout, on a common clock. -/
theorem deadline_bumpOwnersTtl {d : ℤ} (he : e ∈ owners.value.entries)
    (hd : (bumpOwnersTtl time time t owners).deadline = some d) : e.score + t ≤ d := by
  obtain ⟨top, htop⟩ := SortedSet.exists_last he
  have hle := SortedSet.score_le_last htop he
  rw [bumpOwnersTtl, htop] at hd
  have := SortedSetKey.deadline_pexpire hd
  omega

end Elements

end RedisSemaphore.Semaphore

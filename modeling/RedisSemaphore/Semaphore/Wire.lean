import RedisSemaphore.Semaphore.Scripts
import RedisSemaphore.Wire

/-!
# The semaphore scripts as text

The five scripts over `KEYS` and `ARGV`, the calls of `LuaScriptRunner` and the readers of their
replies. Each call does to the two keys of the semaphore, and answers, what its function in
`Semaphore.Scripts` says; no other key is read or written.

That holds while doubles are exact and no command refuses a number: the clock and the timeouts are
`Moderate`, so every expiry is below `2 ^ 52` (`Small`) and what `PEXPIRE` is handed below `2 ^ 53`,
and fewer than `2 ^ 53` tokens have been given out. With a timeout of `10 ^ 17` milliseconds the
`PEXPIRE` of an acquire fails, after its `ZADD` and `INCR` have been executed.
-/

namespace RedisSemaphore.Semaphore.Wire

open Redis Redis.Script RedisSemaphore.Wire

/-! ## The scripts -/

/-- `_LUA_BUMP_OWNERS_TTL`. -/
def bumpOwnersTtl (usec : ℕ) (ownersKey : String) (nowMs lockTimeoutMs : ℤ) : Script Unit := do
  let top ← zrangeLast ownersKey
  match (index top 2).bind toNumber with
  | some maxExpires => pexpire (millis usec) ownersKey (maxExpires - nowMs + lockTimeoutMs)
  | none => return ()

/-- `ACQUIRE_SCRIPT`. -/
def acquireScript (usec : ℕ) (keys argv : List String) : Script Resp := do
  let ownersKey ← need (index keys 1)
  let fencingKey ← need (index keys 2)
  let identifier ← need (index argv 1)
  let limit ← need ((index argv 2).bind toNumber)
  let lockTimeoutMs ← need ((index argv 3).bind toNumber)
  let nowMs ← luaResolveNow usec argv 4
  let _ ← zremrangebyscore ownersKey nowMs
  let currentCount ← zcard ownersKey
  let existingScore ← zscore ownersKey identifier
  if existingScore.isSome then
    let newExpires := nowMs + lockTimeoutMs
    let _ ← zadd ownersKey newExpires identifier
    let fencingToken ← incrby fencingKey 1
    bumpOwnersTtl usec ownersKey nowMs lockTimeoutMs
    return .array [.int 1, .int fencingToken, .int newExpires, .int currentCount]
  else if currentCount < limit then
    let expiresAt := nowMs + lockTimeoutMs
    let _ ← zadd ownersKey expiresAt identifier
    let fencingToken ← incrby fencingKey 1
    bumpOwnersTtl usec ownersKey nowMs lockTimeoutMs
    return .array [.int 1, .int fencingToken, .int expiresAt, .int (currentCount + 1)]
  else return .array [.int 0, .bulk "", .bulk "", .int currentCount]

/-- `RELEASE_SCRIPT`. -/
def releaseScript (keys argv : List String) : Script Resp := do
  let ownersKey ← need (index keys 1)
  let identifier ← need (index argv 1)
  let removed ← zrem ownersKey identifier
  return .int removed

/-- `REFRESH_SCRIPT`. -/
def refreshScript (usec : ℕ) (keys argv : List String) : Script Resp := do
  let ownersKey ← need (index keys 1)
  let identifier ← need (index argv 1)
  let lockTimeoutMs ← need ((index argv 2).bind toNumber)
  let nowMs ← luaResolveNow usec argv 3
  let currentScore ← zscore ownersKey identifier
  match currentScore with
  | none => return .int 0
  | some text =>
    let score ← need (toNumber text)
    if score < nowMs then
      let _ ← zrem ownersKey identifier
      return .int 0
    else
      let newExpires := nowMs + lockTimeoutMs
      let _ ← zaddXx ownersKey newExpires identifier
      bumpOwnersTtl usec ownersKey nowMs lockTimeoutMs
      return .int newExpires

/-- `CLEANUP_SCRIPT`. -/
def cleanupScript (usec : ℕ) (keys argv : List String) : Script Resp := do
  let ownersKey ← need (index keys 1)
  let nowMs ← luaResolveNow usec argv 1
  let removed ← zremrangebyscore ownersKey nowMs
  return .int removed

/-- `STATUS_SCRIPT`. -/
def statusScript (usec : ℕ) (keys argv : List String) : Script Resp := do
  let ownersKey ← need (index keys 1)
  let identifier := index argv 2
  let nowMs ← luaResolveNow usec argv 1
  let _ ← zremrangebyscore ownersKey nowMs
  let currentCount ← zcard ownersKey
  match identifier with
  | none => return .array [.int currentCount, .int 0, .bulk ""]
  | some identifier =>
    if identifier = "" then return .array [.int currentCount, .int 0, .bulk ""]
    else
      let score ← zscore ownersKey identifier
      match score with
      | some score => return .array [.int currentCount, .int 1, .bulk score]
      | none => return .array [.int currentCount, .int 0, .bulk ""]

/-! ## The runner -/

/-- What a method of `LuaScriptRunner` sends. -/
def invocation (ownersKey fencingKey : String) (nowArg : Option ℤ) : Call String → Invocation
  | .acquire identifier limit lockTimeoutMs =>
    ⟨2, [ownersKey, fencingKey, identifier, toString limit, toString lockTimeoutMs,
      nowMsArg nowArg]⟩
  | .release identifier => ⟨1, [ownersKey, identifier]⟩
  | .refresh identifier lockTimeoutMs =>
    ⟨1, [ownersKey, identifier, toString lockTimeoutMs, nowMsArg nowArg]⟩
  | .cleanup => ⟨1, [ownersKey, nowMsArg nowArg]⟩
  | .status identifier => ⟨1, [ownersKey, nowMsArg nowArg, identifier.getD ""]⟩

/-- The script of a call. -/
def script (usec : ℕ) (i : Invocation) : Call String → Script Resp
  | .acquire _ _ _ => acquireScript usec i.keys i.argv
  | .release _ => releaseScript i.keys i.argv
  | .refresh _ _ => refreshScript usec i.keys i.argv
  | .cleanup => cleanupScript usec i.keys i.argv
  | .status _ => statusScript usec i.keys i.argv

/-- What a method of `LuaScriptRunner` returns. -/
inductive Result
  | acquire (success : Bool) (fencing expires : Option ℤ) (count : ℤ)
  | released (gone : Bool)
  | int (n : ℤ)
  | status (count : ℤ) (isOwner : Bool) (expires : Option ℤ)
  deriving DecidableEq

/-- `_parse_acquire_result`. -/
def parseAcquireResult : Resp → Except ReplyError Result
  | .array [successRaw, fencingRaw, expiresRaw, countRaw] => do
    let success ← toBool successRaw
    let fencing ← toOptionalInt fencingRaw
    let expires ← toOptionalInt expiresRaw
    let count ← toInt countRaw
    return .acquire success fencing expires count
  | _ => .error .valueError

/-- `_parse_status_result`. -/
def parseStatusResult : Resp → Except ReplyError Result
  | .array [countRaw, isOwnerRaw, expiresRaw] => do
    let count ← toInt countRaw
    let isOwner ← toBool isOwnerRaw
    let expires ← toOptionalInt expiresRaw
    return .status count isOwner expires
  | _ => .error .valueError

/-- Python's `bool` of a reply. -/
def truth : Resp → Bool
  | .int n => decide (n ≠ 0)
  | .bulk text => decide (text ≠ "")
  | .nil => false
  | .array items => !items.isEmpty

/-- How the reply to a call is read. -/
def parse : Call String → Resp → Except ReplyError Result
  | .acquire _ _ _, resp => parseAcquireResult resp
  | .release _, resp => .ok (.released (truth resp))
  | .refresh _ _, resp => .int <$> toInt resp
  | .cleanup, resp => .int <$> toInt resp
  | .status _, resp => parseStatusResult resp

/-! ## What they do -/

/-- `INCR` makes the counter; until then the key is missing. -/
def fencingCell (n : ℕ) : CounterKey := if n = 0 then none else some ⟨n, none⟩

/-- `INCRBY` of the fencing counter, which does not exist before the first token. -/
theorem incrby_fencingCell (n : ℕ) : (fencingCell n).incrby 1 = fencingCell (n + 1) := by
  rw [fencingCell, fencingCell, if_neg (Nat.succ_ne_zero n)]
  split
  · rename_i hzero
    rw [hzero]
    rfl
  · rfl

/-- The counter has no deadline. -/
theorem expire_fencingCell (time : ℤ) (n : ℕ) : (fencingCell n).expire time = fencingCell n := by
  rw [fencingCell]
  split <;> rfl

/-- The database with the keys of one semaphore. -/
def withKeys (ownersKey fencingKey : String) (keys : Keys String) (db : Database) : Database :=
  withPair ownersKey fencingKey keys.owners (fencingCell keys.fencing) db

/-- The reply of `ACQUIRE_SCRIPT` as it is sent. -/
def acquireResp (r : AcquireReply) : Resp :=
  .array [.int (if r.success then 1 else 0), r.fencingToken.elim (.bulk "") fun n => .int n,
    r.expiresAt.elim (.bulk "") .int, .int r.usedSlots]

/-- The reply of `STATUS_SCRIPT` as it is sent. -/
def statusResp (r : StatusReply) : Resp :=
  .array [.int r.currentCount, .int (if r.isOwner then 1 else 0),
    .bulk (r.expiresAt.elim "" toString)]

/-- What the client makes of an answer. -/
def Result.of : Call String → Reply → Result
  | .release _, .int n => .released (decide (n ≠ 0))
  | _, .acquire r => .acquire r.success (r.fencingToken.map Nat.cast) r.expiresAt r.usedSlots
  | _, .int n => .int n
  | _, .status r => .status r.currentCount r.isOwner r.expiresAt

/-- The call that reaches the script: an empty identifier is none. -/
def sent : Call String → Call String
  | .status identifier => .status (identifier.filter (· ≠ ""))
  | call => call

/-! ### Numbers -/

/-- Every expiry is a moderate timeout after a moderate moment. -/
def Small (owners : SortedSetKey String) : Prop :=
  ∀ e ∈ owners.value.entries, 0 ≤ e.score ∧ e.score ≤ 2 ^ 52

/-- The timeout is moderate, and the limit an integer that a double holds. -/
def InRange : Call String → Prop
  | .acquire _ limit lockTimeoutMs => limit ≤ 2 ^ 53 ∧ lockTimeoutMs ≤ 2 ^ 51
  | .refresh _ lockTimeoutMs => lockTimeoutMs ≤ 2 ^ 51
  | .release _ | .cleanup | .status _ => True

section Numbers

variable {owners : SortedSetKey String} {keys : Keys String} {call : Call String}
  {identifier : String} {nowMs time lockTimeoutMs : ℤ} {arg : Option ℤ}

/-- Fewer expiries are as small. -/
theorem Small.subset {owners' : SortedSetKey String} (h : Small owners)
    (hsub : ∀ e ∈ owners'.value.entries, e ∈ owners.value.entries) : Small owners' :=
  fun e he => h e (hsub e he)

/-- An empty set is small. -/
theorem small_empty : Small ∅ := fun _ he => absurd he List.not_mem_nil

/-- Eviction leaves it small. -/
theorem Small.evictExpired (h : Small owners) : Small (evictExpired nowMs owners) :=
  h.subset fun _ he => (mem_evictExpired.mp he).1

/-- A grant adds the expiry of a moderate timeout. -/
theorem Small.zadd (h : Small owners) (hnow : Moderate nowMs) (htimeout : Moderate lockTimeoutMs) :
    Small (owners.update fun z => z.zadd (nowMs + lockTimeoutMs) identifier) := by
  intro e he
  rw [SortedSetKey.value_update, SortedSet.mem_zadd] at he
  rcases he with rfl | ⟨hold, -⟩
  · obtain ⟨hnow, hnow'⟩ := hnow
    obtain ⟨htimeout, htimeout'⟩ := htimeout
    constructor <;> simp only <;> omega
  · exact h e hold

/-- So does a new deadline. -/
theorem Small.bumpOwnersTtl (h : Small owners) :
    Small (Semaphore.bumpOwnersTtl time nowMs lockTimeoutMs owners) :=
  h.subset fun _ => mem_of_mem_bumpOwnersTtl

/-- **The expiries stay small**, whatever is called at a moderate moment. -/
theorem Small.exec (h : Small keys.owners) (hcall : InRange call)
    (hnow : Moderate (arg.getD time)) : Small (exec call arg time keys).2.owners := by
  cases call with
  | acquire identifier limit lockTimeoutMs =>
    have htimeout : Moderate (lockTimeoutMs : ℤ) :=
      ⟨Int.natCast_nonneg _, by exact_mod_cast hcall.2⟩
    have hnow : Moderate (resolveNow arg time) := hnow
    simp only [Semaphore.exec, Semaphore.acquireScript]
    set now := resolveNow arg time
    have hevicted : Small (Semaphore.evictExpired now keys.owners) := h.evictExpired
    -- whether it renews or takes a slot, the caller's entry is the one that is new
    have hgranted : Small ((Semaphore.evictExpired now keys.owners).update fun z =>
        z.zadd (now + lockTimeoutMs) identifier) :=
      hevicted.zadd hnow htimeout
    split
    · exact hgranted.bumpOwnersTtl
    · split
      · exact hgranted.bumpOwnersTtl
      · exact hevicted
  | release identifier =>
    simp only [Semaphore.exec, Semaphore.releaseScript]
    split
    · exact h.subset fun e he => (SortedSet.mem_zrem.mp he).1
    · exact h
  | refresh identifier lockTimeoutMs =>
    have htimeout : Moderate (lockTimeoutMs : ℤ) :=
      ⟨Int.natCast_nonneg _, by exact_mod_cast hcall⟩
    have hnow : Moderate (resolveNow arg time) := hnow
    simp only [Semaphore.exec, Semaphore.refreshScript]
    split
    · exact h
    · split
      · exact h.subset fun e he => (SortedSet.mem_zrem.mp he).1
      · exact (h.zadd hnow htimeout).bumpOwnersTtl
  | cleanup => exact h.evictExpired
  | status identifier => exact h.evictExpired

/-- What reaches the script has the numbers of the call. -/
theorem InRange.sent (h : InRange call) : InRange (sent call) := by
  cases call <;> exact h

/-- A call gives out one token at most. -/
theorem fencing_exec_le : (exec call arg time keys).2.fencing ≤ keys.fencing + 1 := by
  cases call with
  | acquire identifier limit lockTimeoutMs =>
    simp only [Semaphore.exec, Semaphore.acquireScript]
    split
    · exact le_rfl
    · split
      · exact le_rfl
      · exact Nat.le_succ _
  | release identifier =>
    simp only [Semaphore.exec, Semaphore.releaseScript]
    split <;> exact Nat.le_succ _
  | refresh identifier lockTimeoutMs =>
    simp only [Semaphore.exec, Semaphore.refreshScript]
    split
    · exact Nat.le_succ _
    · split <;> exact Nat.le_succ _
  | cleanup => exact Nat.le_succ _
  | status identifier => exact Nat.le_succ _

end Numbers

/-! ### The scripts command by command -/

section Runs

variable {usec : ℕ} {o f : String} {keys : Keys String} {counter : CounterKey} {db : Database}
  {nowMs lockTimeoutMs : ℤ} (hne : o ≠ f)

include hne

/-- The highest score of small expiries, one timeout later, is a time to live that `PEXPIRE`
takes. -/
theorem runs_bumpOwnersTtl {owners : SortedSetKey String} (htime : Moderate (millis usec))
    (hnow : Moderate nowMs) (htimeout : Moderate lockTimeoutMs) (hsmall : Small owners) :
    Runs (bumpOwnersTtl usec o nowMs lockTimeoutMs) (withPair o f owners counter db) ()
      (withPair o f (Semaphore.bumpOwnersTtl (millis usec) nowMs lockTimeoutMs owners)
        counter db) := by
  refine (runs_zrangeLast hne).bind ?_
  rw [Semaphore.bumpOwnersTtl]
  cases htop : owners.value.last with
  | none => exact .pure _ _
  | some top =>
    have hscore : (index (withScores (some top).toList) 2).bind toNumber = some top.score :=
      toNumber_toString _
    rw [hscore]
    obtain ⟨hlow, hhigh⟩ := hsmall top (List.mem_of_getLast? htop)
    obtain ⟨hnow, hnow'⟩ := hnow
    obtain ⟨htimeout, htimeout'⟩ := htimeout
    obtain ⟨htime, htime'⟩ := htime
    exact runs_pexpire_zset hne (expirable_of_le htime (by omega) (by omega) (by omega))

variable {identifier : String} {limit timeout : ℕ} {arg : Option ℤ}

/-- The slot is taken, whether or not the caller had it. -/
theorem runs_grant {owners : SortedSetKey String} {fencing : ℕ} {count : ℤ}
    (htime : Moderate (millis usec)) (hnow : Moderate nowMs) (htimeout : Moderate lockTimeoutMs)
    (hsmall : Small owners) (hfencing : fencing < 2 ^ 53) :
    Runs (do
        let newExpires := nowMs + lockTimeoutMs
        let _ ← zadd o newExpires identifier
        let fencingToken ← incrby f 1
        bumpOwnersTtl usec o nowMs lockTimeoutMs
        return Resp.array [.int 1, .int fencingToken, .int newExpires, .int count])
      (withPair o f owners (fencingCell fencing) db)
      (.array [.int 1, .int (fencing + 1 : ℕ), .int (nowMs + lockTimeoutMs), .int count])
      (withPair o f (Semaphore.bumpOwnersTtl (millis usec) nowMs lockTimeoutMs
        (owners.update fun z => z.zadd (nowMs + lockTimeoutMs) identifier))
        (fencingCell (fencing + 1)) db) := by
  have hread : (fencingCell fencing).get.getD 0 = fencing := by
    rw [fencingCell]
    split
    · rename_i hzero
      rw [hzero]
      rfl
    · rfl
  have hsum : Int64 ((fencingCell fencing).get.getD 0 + 1) := by
    rw [hread]
    exact int64_of_le (by omega) (by omega)
  refine (runs_zadd hne).bind ((runs_incrby (readable_of_le (by omega) (by omega)) hsum).bind ?_)
  rw [incrby_fencingCell]
  have htoken : (fencingCell (fencing + 1)).get.getD 0 = (fencing + 1 : ℕ) := rfl
  rw [htoken]
  exact (runs_bumpOwnersTtl hne htime hnow htimeout (hsmall.zadd hnow htimeout)).bind (.pure _ _)

/-- `ACQUIRE_SCRIPT` on the wire is the acquire of the model, where its numbers can be printed and
read. -/
theorem runs_acquireScript (htime : Moderate (millis usec))
    (hnow : Moderate (arg.getD (millis usec))) (htimeout : timeout ≤ 2 ^ 51)
    (hsmall : Small keys.owners) (hfencing : keys.fencing < 2 ^ 53) :
    let r := Semaphore.acquireScript identifier limit timeout arg (millis usec) keys
    Runs (acquireScript usec [o, f] [identifier, toString limit, toString timeout, nowMsArg arg])
      (withKeys o f keys db) (acquireResp r.1) (withKeys o f r.2 db) := by
  intro r
  have hlimit : (index [identifier, toString limit, toString timeout, nowMsArg arg] 2).bind
      toNumber = some (limit : ℤ) := toNumber_toString_nat _
  have hargument : (index [identifier, toString limit, toString timeout, nowMsArg arg] 3).bind
      toNumber = some (timeout : ℤ) := toNumber_toString_nat _
  rw [acquireScript, hlimit, hargument]
  refine (Runs.need _ _).bind ((Runs.need _ _).bind ((Runs.need _ _).bind ((Runs.need _ _).bind
    ((Runs.need _ _).bind ((runs_luaResolveNow rfl _).bind ((runs_zremrangebyscore hne).bind
      ((runs_zcard hne).bind ((runs_zscore hne).bind ?_))))))))
  set now := arg.getD (millis usec) with hresolved
  have hmoderate : Moderate (timeout : ℤ) := ⟨Int.natCast_nonneg _, by exact_mod_cast htimeout⟩
  have hevicted : Small (evictExpired now keys.owners) := hsmall.evictExpired
  have hgranted {count : ℤ} := @runs_grant usec o f db now timeout hne identifier _ keys.fencing
    count htime hnow hmoderate hevicted hfencing
  show Runs (if (((evictExpired now keys.owners).value.zscore identifier).map toString).isSome
    then _ else _) (withPair o f (evictExpired now keys.owners) _ db) _ _
  simp only [r, Semaphore.acquireScript, Semaphore.resolveNow, ← hresolved]
  cases hscore : (evictExpired now keys.owners).value.zscore identifier with
  | some score => exact hgranted
  | none =>
    show Runs (if ((evictExpired now keys.owners).value.zcard : ℤ) < limit then _ else _) _ _ _
    by_cases hfree : (evictExpired now keys.owners).value.zcard < limit
    · simp only [if_pos hfree, if_pos (Int.ofNat_lt.mpr hfree)]
      exact hgranted
    · simp only [if_neg hfree, if_neg (mt Int.ofNat_lt.mp hfree)]
      exact .pure _ _

/-- `RELEASE_SCRIPT` handles no number. -/
theorem runs_releaseScript :
    let r := Semaphore.releaseScript identifier keys
    Runs (releaseScript [o] [identifier]) (withKeys o f keys db) (.int r.1)
      (withKeys o f r.2 db) := by
  intro r
  refine (Runs.need _ _).bind ((Runs.need _ _).bind ?_)
  simp only [r, Semaphore.releaseScript]
  cases hscore : keys.owners.value.zscore identifier with
  | some score => exact (runs_zrem_some hne hscore).bind (.pure _ _)
  | none => exact (runs_zrem_none hne hscore).bind (.pure _ _)

/-- `REFRESH_SCRIPT` on the wire is the refresh of the model. -/
theorem runs_refreshScript (htime : Moderate (millis usec))
    (hnow : Moderate (arg.getD (millis usec))) (htimeout : timeout ≤ 2 ^ 51)
    (hsmall : Small keys.owners) :
    let r := Semaphore.refreshScript identifier timeout arg (millis usec) keys
    Runs (refreshScript usec [o] [identifier, toString timeout, nowMsArg arg])
      (withKeys o f keys db) (.int r.1) (withKeys o f r.2 db) := by
  intro r
  have hargument : (index [identifier, toString timeout, nowMsArg arg] 2).bind toNumber =
      some (timeout : ℤ) := toNumber_toString_nat _
  rw [refreshScript, hargument]
  refine (Runs.need _ _).bind ((Runs.need _ _).bind ((Runs.need _ _).bind
    ((runs_luaResolveNow rfl _).bind ((runs_zscore hne).bind ?_))))
  set now := arg.getD (millis usec) with hresolved
  have hmoderate : Moderate (timeout : ℤ) := ⟨Int.natCast_nonneg _, by exact_mod_cast htimeout⟩
  simp only [r, Semaphore.refreshScript, Semaphore.resolveNow, ← hresolved]
  cases hscore : keys.owners.value.zscore identifier with
  | none => exact .pure _ _
  | some score =>
    simp only [Option.map_some, toNumber_toString]
    refine (Runs.need _ _).bind ?_
    by_cases hlost : score < now
    · simp only [if_pos hlost]
      exact (runs_zrem_some hne hscore).bind (.pure _ _)
    · simp only [if_neg hlost]
      have hrenewed : Small (keys.owners.update fun z => z.zadd (now + timeout) identifier) :=
        hsmall.zadd hnow hmoderate
      exact (runs_zaddXx hne hscore).bind
        ((runs_bumpOwnersTtl hne htime hnow hmoderate hrenewed).bind (.pure _ _))

/-- So is `CLEANUP_SCRIPT`. -/
theorem runs_cleanupScript :
    let r := Semaphore.cleanupScript arg (millis usec) keys
    Runs (cleanupScript usec [o] [nowMsArg arg]) (withKeys o f keys db) (.int r.1)
      (withKeys o f r.2 db) := by
  intro r
  exact (Runs.need _ _).bind ((runs_luaResolveNow rfl _).bind
    ((runs_zremrangebyscore hne).bind (.pure _ _)))

/-- So is `STATUS_SCRIPT`, which reads an empty identifier as none. -/
theorem runs_statusScript {identifier : Option String} :
    let r := Semaphore.statusScript (identifier.filter (· ≠ "")) arg (millis usec) keys
    Runs (statusScript usec [o] [nowMsArg arg, identifier.getD ""]) (withKeys o f keys db)
      (statusResp r.1) (withKeys o f r.2 db) := by
  intro r
  refine (Runs.need _ _).bind ((runs_luaResolveNow rfl _).bind
    ((runs_zremrangebyscore hne).bind ((runs_zcard hne).bind ?_)))
  set now := arg.getD (millis usec) with hnow
  simp only [r, Semaphore.statusScript, Semaphore.resolveNow, ← hnow]
  show Runs (if identifier.getD "" = "" then _ else _)
    (withPair o f (evictExpired now keys.owners) _ db) _ _
  by_cases hempty : identifier.getD "" = ""
  · have hnone : identifier.filter (· ≠ "") = none := by
      cases identifier with
      | none => rfl
      | some i => simpa using hempty
    rw [if_pos hempty, hnone]
    exact .pure _ _
  · have hsome : identifier.filter (· ≠ "") = some (identifier.getD "") := by
      cases identifier with
      | none => exact absurd rfl hempty
      | some i => simpa using hempty
    rw [if_neg hempty, hsome]
    refine (runs_zscore hne).bind ?_
    simp only [Option.bind_some]
    cases (evictExpired now keys.owners).value.zscore (identifier.getD "") with
    | none => exact .pure _ _
    | some score => exact .pure _ _

end Runs

/-! ## Reading what they answer -/

/-- The empty strings of a refusal are `None` again. -/
theorem parse_acquireResp (r : AcquireReply) : parseAcquireResult (acquireResp r) =
    .ok (.acquire r.success (r.fencingToken.map Nat.cast) r.expiresAt r.usedSlots) := by
  obtain ⟨success, fencingToken, expiresAt, usedSlots⟩ := r
  cases success <;> cases fencingToken <;> cases expiresAt <;> rfl

/-- The client reads back what `STATUS_SCRIPT` answers. -/
theorem parse_statusResp (r : StatusReply) : parseStatusResult (statusResp r) =
    .ok (.status r.currentCount r.isOwner r.expiresAt) := by
  obtain ⟨currentCount, isOwner, expiresAt⟩ := r
  cases expiresAt with
  | none => cases isOwner <;> rfl
  | some expiry =>
    have hread : toOptionalInt (.bulk (toString expiry)) = .ok (some expiry) := by
      rw [toOptionalInt, if_neg (toString_ne_empty expiry), int, toNumber_toString]
      rfl
    cases isOwner <;> simp only [statusResp, parseStatusResult, Option.elim_some, hread] <;> rfl

/-- **One call.** What a call sends makes the script do what its function does, and the client reads
its answer, at a moderate moment and with numbers in range. -/
theorem runs_call {o f : String} {usec : ℕ} {keys : Keys String} (db : Database)
    {arg : Option ℤ} (hne : o ≠ f) {call : Call String} (htime : Moderate (millis usec))
    (hnow : Moderate (arg.getD (millis usec))) (hcall : InRange call) (hsmall : Small keys.owners)
    (hfencing : keys.fencing < 2 ^ 53) :
    ∃ resp, Runs (script usec (invocation o f arg call) call) (withKeys o f keys db) resp
        (withKeys o f (exec (sent call) arg (millis usec) keys).2 db) ∧
      parse call resp = .ok (.of call (exec (sent call) arg (millis usec) keys).1) := by
  cases call with
  | acquire identifier limit timeout =>
    exact ⟨_, runs_acquireScript hne htime hnow hcall.2 hsmall hfencing, parse_acquireResp _⟩
  | release identifier => exact ⟨_, runs_releaseScript hne, rfl⟩
  | refresh identifier timeout =>
    exact ⟨_, runs_refreshScript hne htime hnow hcall hsmall, rfl⟩
  | cleanup => exact ⟨_, runs_cleanupScript hne, rfl⟩
  | status identifier => exact ⟨_, runs_statusScript hne, parse_statusResp _⟩

/-! ### The answer of a function and the result of a method -/

/-- The answer that a result stands for. -/
def Result.reply : Result → Reply
  | .acquire success fencing expires count =>
    .acquire ⟨success, fencing.map Int.toNat, expires, count.toNat⟩
  | .released gone => .int (if gone then 1 else 0)
  | .int n => .int n
  | .status count isOwner expires => .status ⟨count.toNat, isOwner, expires⟩

/-- Nothing is lost on the way to the caller. -/
theorem reply_of (call : Call String) (arg : Option ℤ) (time : ℤ) (keys : Keys String) :
    (Result.of call (exec (sent call) arg time keys).1).reply =
      (exec (sent call) arg time keys).1 := by
  cases call with
  | release identifier =>
    simp only [exec, sent, Semaphore.releaseScript]
    cases keys.owners.value.zscore identifier <;> rfl
  | acquire identifier limit timeout =>
    simp only [exec, sent]
    obtain ⟨success, fencingToken, expiresAt, usedSlots⟩ :=
      (Semaphore.acquireScript identifier limit timeout arg time keys).1
    cases fencingToken <;> rfl
  | refresh identifier timeout => rfl
  | cleanup => rfl
  | status identifier => rfl

end RedisSemaphore.Semaphore.Wire

import Mathlib.Data.String.Basic
import RedisSemaphore.Redis.Key
import RedisSemaphore.Redis.Text

/-!
# Lua scripts over one database

A database maps key names to values. A script is a sequence of commands with Lua in between; it runs
on its own, ends with a result or stops at an error, and an error undoes nothing. `Runs` says what a
script does from one database; the rules below follow its commands one by one. The keys of a script
here are a sorted set and a counter (`withPair`): every command is described by what it does to
these two, and all other keys stay as they are.

Numbers are integers here. In a script they are doubles, which hold every integer up to `2 ^ 53`,
and a command is handed the text that `%.17g` prints, a plain numeral below `10 ^ 17` and one with
an exponent from there on. The commands that count or set a deadline read that text as a signed
64-bit integer and fail where they cannot (`Readable`, `Int64`), so their rules have a side
condition on the number. `ZADD` and `SET` take any numeral as a score or a value; what they store of
one of `10 ^ 17` or more would come back with an exponent, which is not followed here, so a result
about a script is about numbers that stay below `2 ^ 53`.
-/

namespace Redis

/-! ## Databases -/

/-- What a key holds: a sorted set that is not empty, or an integer as text. -/
inductive Value
  | zset (key : { key : SortedSetKey String // key.value.entries ≠ [] })
  | string (counter : Counter)

/-- The keys of one Redis database. -/
abbrev Database := String → Option Value

namespace Value

/-- No command leaves an empty sorted set. -/
def ofZset (key : SortedSetKey String) : Option Value :=
  if h : key.value.entries = [] then none else some (.zset ⟨key, h⟩)

/-- A string key that exists. -/
def ofString (key : CounterKey) : Option Value := key.map .string

/-- Drop the key once its deadline has passed. -/
def expire (time : ℤ) : Value → Option Value
  | .zset k => ofZset (k.1.expire time)
  | .string c => ofString (CounterKey.expire time (some c))

/-- Expiry commutes with storing a sorted set: a set that is dropped and one that is empty are
both no key at all. -/
theorem expire_ofZset (time : ℤ) (k : SortedSetKey String) :
    (ofZset k).bind (expire time) = ofZset (k.expire time) := by
  by_cases hentries : k.value.entries = []
  · have hdeadline : k.deadline = none := k.absent hentries
    rw [SortedSetKey.expire, hdeadline, ofZset, dif_pos hentries]
    rfl
  · rw [ofZset, dif_neg hentries]
    rfl

/-- So does the expiry of a counter. -/
theorem expire_ofString (time : ℤ) (k : CounterKey) :
    (ofString k).bind (expire time) = ofString (k.expire time) := by
  cases k <;> rfl

end Value

/-! ## Scripts -/

/-- Why a script stops. -/
inductive ScriptError
  /-- A command was sent to a key of another type. -/
  | wrongType
  /-- `nil` where a string or a number is needed. -/
  | isNil
  /-- A command has read a number that is no 64-bit integer, or would leave one. -/
  | outOfRange
  deriving DecidableEq, Repr

/-- A script with a result of type `α`. It is a function of the whole database, as a script may read
and write any key, and it returns the database in either case: Redis does not roll a script back
when one of its commands fails. -/
def Script (α : Type) := Database → Except ScriptError α × Database

namespace Script

protected def pure {α : Type} (a : α) : Script α := fun db => (.ok a, db)

protected def bind {α β : Type} (p : Script α) (f : α → Script β) : Script β := fun db =>
  match p db with
  | (.ok a, db) => f a db
  | (.error e, db) => (.error e, db)

instance : Monad Script where
  pure := Script.pure
  bind := Script.bind

/-- Stop: nothing of the script is executed after this. -/
def stop {α : Type} (e : ScriptError) : Script α := fun db => (.error e, db)

/-- A value that must not be `nil`: Lua raises where it is used in arithmetic, in a comparison or as
an argument of a command. -/
def need {α : Type} : Option α → Script α
  | some a => pure a
  | none => stop .isNil

/-! ### Numbers that a command reads -/

/-- What `%.17g` prints of the number is a plain numeral. -/
def Readable (n : ℤ) : Prop := -10 ^ 17 < n ∧ n < 10 ^ 17

/-- The number is a signed 64-bit integer. -/
def Int64 (n : ℤ) : Prop := -2 ^ 63 ≤ n ∧ n < 2 ^ 63

instance (n : ℤ) : Decidable (Readable n) := inferInstanceAs (Decidable (_ ∧ _))

instance (n : ℤ) : Decidable (Int64 n) := inferInstanceAs (Decidable (_ ∧ _))

/-- A time to live that `PEXPIRE` takes: it reads a number, and the deadline is one as well. -/
def Expirable (time ttl : ℤ) : Prop := Readable ttl ∧ Int64 (time + ttl)

instance (time ttl : ℤ) : Decidable (Expirable time ttl) := inferInstanceAs (Decidable (_ ∧ _))

/-- Whatever lies within the integers of a double is readable. -/
theorem readable_of_le {n : ℤ} (hlow : -2 ^ 53 ≤ n) (hhigh : n ≤ 2 ^ 53) : Readable n := by
  constructor <;> omega

/-- Sums of a few such numbers are far from the end of 64 bits. -/
theorem int64_of_le {n : ℤ} (hlow : -2 ^ 62 ≤ n) (hhigh : n ≤ 2 ^ 62) : Int64 n := by
  constructor <;> omega

/-- Times and times to live within the integers of a double. -/
theorem expirable_of_le {time ttl : ℤ} (htime : 0 ≤ time) (htime' : time ≤ 2 ^ 53)
    (hlow : -2 ^ 53 ≤ ttl) (hhigh : ttl ≤ 2 ^ 53) : Expirable time ttl :=
  ⟨readable_of_le hlow hhigh, int64_of_le (by omega) (by omega)⟩

/-! ### Reading and writing a key -/

/-- The sorted set at a key. A key that is missing is an empty set. -/
def readZset (key : String) : Script (SortedSetKey String) := fun db =>
  match db key with
  | none => (.ok ∅, db)
  | some (.zset k) => (.ok k, db)
  | some (.string _) => (.error .wrongType, db)

/-- Store a sorted set; an empty one is no key. -/
def writeZset (key : String) (k : SortedSetKey String) : Script Unit := fun db =>
  (.ok (), Function.update db key (Value.ofZset k))

/-- The counter at a key, if there is one. -/
def readString (key : String) : Script CounterKey := fun db =>
  match db key with
  | none => (.ok none, db)
  | some (.string c) => (.ok (some c), db)
  | some (.zset _) => (.error .wrongType, db)

/-- Store a counter, or delete the key. -/
def writeString (key : String) (k : CounterKey) : Script Unit := fun db =>
  (.ok (), Function.update db key (Value.ofString k))

/-- Change what is at a key, of whatever type. -/
def modify (key : String) (f : Option Value → Option Value) : Script Unit := fun db =>
  (.ok (), Function.update db key (f (db key)))

/-! ### Commands on sorted sets -/

/-- `ZSCORE`: the score as text. -/
def zscore (key member : String) : Script (Option String) := do
  let k ← readZset key
  return (k.value.zscore member).map toString

/-- `ZCARD`. -/
def zcard (key : String) : Script ℕ := do
  let k ← readZset key
  return k.value.zcard

/-- `ZADD`: the number of members that are new. -/
def zadd (key : String) (score : ℤ) (member : String) : Script ℕ := do
  let k ← readZset key
  writeZset key (k.update fun z => z.zadd score member)
  return if (k.value.zscore member).isNone then 1 else 0

/-- `ZADD NX`: an existing member stays where it is. -/
def zaddNx (key : String) (score : ℤ) (member : String) : Script ℕ := do
  let k ← readZset key
  if (k.value.zscore member).isNone then
    writeZset key (k.update fun z => z.zadd score member)
    return 1
  else return 0

/-- `ZADD XX`: only an existing member is moved. -/
def zaddXx (key : String) (score : ℤ) (member : String) : Script ℕ := do
  let k ← readZset key
  if (k.value.zscore member).isSome then
    writeZset key (k.update fun z => z.zadd score member)
    return 0
  else return 0

/-- `ZREM` of one member: the number of members removed. -/
def zrem (key member : String) : Script ℕ := do
  let k ← readZset key
  if (k.value.zscore member).isSome then
    writeZset key (k.update fun z => z.zrem member)
    return 1
  else return 0

/-- `ZREMRANGEBYSCORE -inf max`: the number of members removed. -/
def zremrangebyscore (key : String) (max : ℤ) : Script ℕ := do
  let k ← readZset key
  writeZset key (k.update fun z => z.zremRangeByScore max)
  return (k.value.zrangeByScore max).length

/-- `ZRANGEBYSCORE -inf max`: members. -/
def zrangebyscore (key : String) (max : ℤ) : Script (List String) := do
  let k ← readZset key
  return (k.value.zrangeByScore max).map Scored.member

/-- `ZRANGE 0 -1`: members. -/
def zrangeAll (key : String) : Script (List String) := do
  let k ← readZset key
  return k.value.entries.map Scored.member

/-- Members and scores in turn. -/
def withScores (entries : List (Scored String)) : List String :=
  entries.flatMap fun e => [e.member, toString e.score]

/-- `ZRANGE start stop WITHSCORES`. -/
def zrangeWithScores (key : String) (start stop : ℕ) : Script (List String) := do
  let k ← readZset key
  return withScores (k.value.zrange start stop)

/-- `ZRANGE -1 -1 WITHSCORES`. -/
def zrangeLast (key : String) : Script (List String) := do
  let k ← readZset key
  return withScores k.value.last.toList

/-! ### Commands on strings -/

/-- `GET`: the text. -/
def get (key : String) : Script (Option String) := do
  let k ← readString key
  return k.get.map toString

/-- `SET value PX ttl`, whatever the key held. A time to live must be positive. -/
def setPx (time : ℤ) (key : String) (value ttl : ℤ) : Script Unit :=
  if 0 < ttl ∧ Expirable time ttl then writeString key (.setPx time value ttl)
  else stop .outOfRange

/-- `INCRBY`. It reads its argument before it looks at the key, and checks the sum before it
stores it. -/
def incrby (key : String) (n : ℤ) : Script ℤ :=
  if Readable n then do
    let k ← readString key
    if Int64 (k.get.getD 0 + n) then
      writeString key (k.incrby n)
      return k.get.getD 0 + n
    else stop .outOfRange
  else stop .outOfRange

/-- `DECRBY`, which Redis executes as `INCRBY` of the opposite number. -/
def decrby (key : String) (n : ℤ) : Script ℤ :=
  if Readable n then do
    let k ← readString key
    if Int64 (k.get.getD 0 - n) then
      writeString key (k.decrby n)
      return k.get.getD 0 - n
    else stop .outOfRange
  else stop .outOfRange

/-! ### Commands on any key -/

/-- `DEL`. -/
def del (key : String) : Script Unit := modify key fun _ => none

/-- What `PEXPIRE` makes of a value. -/
def expiring (time ttl : ℤ) : Value → Option Value
  | .zset k => Value.ofZset (k.1.pexpire time ttl)
  | .string c => Value.ofString (CounterKey.pexpire time ttl (some c))

/-- `PEXPIRE`. It looks at the number first, also where there is no key. -/
def pexpire (time : ℤ) (key : String) (ttl : ℤ) : Script Unit :=
  if Expirable time ttl then modify key fun value => value.bind (expiring time ttl)
  else stop .outOfRange

/-- `PTTL`. -/
def pttl (time : ℤ) (key : String) : Script ℤ := fun db =>
  match db key with
  | none => (.ok (-2), db)
  | some (.zset k) => (.ok (k.1.pttl time), db)
  | some (.string c) => (.ok (c.deadline.elim (-1) (· - time)), db)

/-! ## What a script does -/

/-- From `db` the script gives `a` and leaves `db'`. -/
def Runs {α : Type} (p : Script α) (db : Database) (a : α) (db' : Database) : Prop :=
  p db = (.ok a, db')

section Rules

variable {α β : Type} {p q : Script α} {f : α → Script β} {a : α} {b : β} {db db' db'' : Database}

/-- A result takes no command. -/
theorem Runs.pure (a : α) (db : Database) : Runs (Pure.pure a) db a db := rfl

/-- **Sequence.** -/
theorem Runs.bind (h : Runs p db a db') (h' : Runs (f a) db' b db'') :
    Runs (p >>= f) db b db'' := by
  show Script.bind p f db = _
  rw [Script.bind, h]
  exact h'

/-- An argument that is there is read without an error. -/
theorem Runs.need (a : α) (db : Database) : Runs (need (some a)) db a db := rfl

/-- `for i = 1, n` over a table: a loop does what its iterations do to a loop over the items, in a
state that it mirrors. `I` is the invariant, over the items that are still to come: it may say of
each of them what its own iteration needs, as long as the iterations before leave that alone. -/
theorem Runs.numericFor {σ ι τ : Type} {body : σ → ℕ → Script σ} (step : τ → ι → τ)
    (view : τ → σ) (leave : τ → Database) (I : List ι → τ → Prop) (items : List ι)
    (h : ∀ i a rest t, items[i]? = some a → I (a :: rest) t →
      Runs (body (view t) (i + 1)) (leave t) (view (step t a)) (leave (step t a)) ∧
        I rest (step t a)) (t : τ) (hI : I items t) :
    Runs ((List.range' 1 items.length).foldlM body (view t)) (leave t)
      (view (items.foldl step t)) (leave (items.foldl step t)) := by
  suffices hrest : ∀ (k : ℕ) (rest : List ι), (∀ i a, rest[i]? = some a → items[k + i]? = some a) →
      ∀ t, I rest t → Runs ((List.range' (k + 1) rest.length).foldlM body (view t)) (leave t)
        (view (rest.foldl step t)) (leave (rest.foldl step t)) by
    exact hrest 0 items (fun i a hi => by rwa [Nat.zero_add]) t hI
  intro k rest
  induction rest generalizing k with
  | nil => exact fun _ t _ => .pure _ _
  | cons a rest ih =>
    intro hitems t hI
    rw [List.length_cons, List.range'_succ, List.foldlM_cons, List.foldl_cons]
    obtain ⟨hbody, hI⟩ := h k a rest t (hitems 0 a rfl) hI
    refine hbody.bind (ih (k + 1) (fun i b hi => ?_) (step t a) hI)
    rw [Nat.add_assoc, Nat.add_comm 1 i]
    exact hitems (i + 1) b hi

end Rules

/-! ## A sorted set and a counter -/

/-- The database with a sorted set at `z` and a counter at `k`. -/
def withPair (z k : String) (set : SortedSetKey String) (counter : CounterKey) (db : Database) :
    Database :=
  Function.update (Function.update db z (Value.ofZset set)) k (Value.ofString counter)

section Pair

variable {z k key : String} {set set' : SortedSetKey String} {counter counter' : CounterKey}
  {db : Database}

/-- Every other key is as it was. This is the frame of all the rules below. -/
theorem withPair_of_ne (hz : key ≠ z) (hk : key ≠ k) :
    withPair z k set counter db key = db key := by
  rw [withPair, Function.update_of_ne hk, Function.update_of_ne hz]

/-- The counter stands under its key. -/
theorem withPair_counter : withPair z k set counter db k = Value.ofString counter :=
  Function.update_self ..

/-- Writing a pair twice. -/
@[simp] theorem withPair_withPair :
    withPair z k set' counter' (withPair z k set counter db) = withPair z k set' counter' db := by
  funext key
  by_cases hk : key = k
  · rw [hk, withPair_counter, withPair_counter]
  · by_cases hz : key = z
    · subst hz
      simp only [withPair, Function.update_of_ne hk, Function.update_self]
    · rw [withPair_of_ne hz hk, withPair_of_ne hz hk, withPair_of_ne hz hk]

/-- Writing the counter changes the pair and nothing else. -/
theorem update_counter :
    Function.update (withPair z k set counter db) k (Value.ofString counter') =
      withPair z k set counter' db := Function.update_idem ..

/-- A database is the one with the pair that it holds. -/
theorem withPair_eq (hz : db z = Value.ofZset set) (hk : db k = Value.ofString counter) :
    withPair z k set counter db = db := by
  rw [withPair, ← hz, Function.update_eq_self, ← hk, Function.update_eq_self]

variable (hne : z ≠ k)

include hne

/-- The sorted set stands under its key: the two keys differ. -/
theorem withPair_zset : withPair z k set counter db z = Value.ofZset set := by
  rw [withPair, Function.update_of_ne hne, Function.update_self]

/-- Writing the set changes the pair and nothing else. -/
theorem update_zset :
    Function.update (withPair z k set counter db) z (Value.ofZset set') =
      withPair z k set' counter db := by
  rw [withPair, Function.update_comm hne, Function.update_idem, Function.update_comm hne.symm,
    withPair]

/-! ### Commands on the sorted set -/

/-- The type check passes, as the key holds a sorted set or nothing. -/
theorem runs_readZset :
    Runs (readZset z) (withPair z k set counter db) set (withPair z k set counter db) := by
  rw [Runs, readZset, withPair_zset hne, Value.ofZset]
  split
  · rename_i hnil
    split at hnil
    · rename_i hentries
      have hset : set = ∅ := by
        obtain ⟨value, deadline, habsent⟩ := set
        obtain rfl : value = ∅ := SortedSet.ext_entries hentries
        obtain rfl : deadline = none := habsent hentries
        rfl
      rw [hset]
    · cases hnil
  · rename_i key hkey
    split at hkey
    · cases hkey
    · obtain rfl := Value.zset.inj (Option.some.inj hkey)
      rfl
  · rename_i c hc
    split at hc <;> cases hc

/-- What is written is an empty set or a set, so the key is gone or holds it. -/
theorem runs_writeZset :
    Runs (writeZset z set') (withPair z k set counter db) () (withPair z k set' counter db) := by
  rw [Runs, writeZset, update_zset hne]

/-- `ZSCORE` answers the score as text, or nil. -/
theorem runs_zscore {member : String} :
    Runs (zscore z member) (withPair z k set counter db)
      ((set.value.zscore member).map toString) (withPair z k set counter db) :=
  (runs_readZset hne).bind (.pure _ _)

/-- `ZCARD`; a key that does not exist has no members. -/
theorem runs_zcard :
    Runs (zcard z) (withPair z k set counter db) set.value.zcard (withPair z k set counter db) :=
  (runs_readZset hne).bind (.pure _ _)

/-- `ZADD` answers how many members are new and stores the score either way. -/
theorem runs_zadd {score : ℤ} {member : String} :
    Runs (zadd z score member) (withPair z k set counter db)
      (if (set.value.zscore member).isNone then 1 else 0)
      (withPair z k (set.update fun z => z.zadd score member) counter db) :=
  (runs_readZset hne).bind ((runs_writeZset hne).bind (.pure _ _))

/-- `ZADD NX` of a member that is not there adds it. -/
theorem runs_zaddNx_new {score : ℤ} {member : String} (h : set.value.zscore member = none) :
    Runs (zaddNx z score member) (withPair z k set counter db) 1
      (withPair z k (set.update fun z => z.zadd score member) counter db) := by
  refine (runs_readZset hne).bind ?_
  rw [h]
  exact (runs_writeZset hne).bind (.pure _ _)

/-- `ZADD NX` of a member that is there leaves its score alone. -/
theorem runs_zaddNx_old {score s : ℤ} {member : String} (h : set.value.zscore member = some s) :
    Runs (zaddNx z score member) (withPair z k set counter db) 0
      (withPair z k set counter db) := by
  refine (runs_readZset hne).bind ?_
  rw [h]
  exact .pure _ _

/-- `ZADD XX` of a member that is there moves its score and counts nothing as new. -/
theorem runs_zaddXx {score s : ℤ} {member : String} (h : set.value.zscore member = some s) :
    Runs (zaddXx z score member) (withPair z k set counter db) 0
      (withPair z k (set.update fun z => z.zadd score member) counter db) := by
  refine (runs_readZset hne).bind ?_
  rw [h]
  exact (runs_writeZset hne).bind (.pure _ _)

/-- `ZREM` of a member. -/
theorem runs_zrem_some {s : ℤ} {member : String} (h : set.value.zscore member = some s) :
    Runs (zrem z member) (withPair z k set counter db) 1
      (withPair z k (set.update fun z => z.zrem member) counter db) := by
  refine (runs_readZset hne).bind ?_
  rw [h]
  exact (runs_writeZset hne).bind (.pure _ _)

/-- `ZREM` of what is not there. -/
theorem runs_zrem_none {member : String} (h : set.value.zscore member = none) :
    Runs (zrem z member) (withPair z k set counter db) 0 (withPair z k set counter db) := by
  refine (runs_readZset hne).bind ?_
  rw [h]
  exact .pure _ _

/-- `ZREMRANGEBYSCORE` answers how many members it removed. -/
theorem runs_zremrangebyscore {max : ℤ} :
    Runs (zremrangebyscore z max) (withPair z k set counter db)
      (set.value.zrangeByScore max).length
      (withPair z k (set.update fun z => z.zremRangeByScore max) counter db) :=
  (runs_readZset hne).bind ((runs_writeZset hne).bind (.pure _ _))

/-- `ZRANGEBYSCORE` answers the members, in their order. -/
theorem runs_zrangebyscore {max : ℤ} :
    Runs (zrangebyscore z max) (withPair z k set counter db)
      ((set.value.zrangeByScore max).map Scored.member) (withPair z k set counter db) :=
  (runs_readZset hne).bind (.pure _ _)

/-- `ZRANGE 0 -1` answers all the members. -/
theorem runs_zrangeAll :
    Runs (zrangeAll z) (withPair z k set counter db) (set.value.entries.map Scored.member)
      (withPair z k set counter db) :=
  (runs_readZset hne).bind (.pure _ _)

/-- `ZRANGE … WITHSCORES` between two positions. -/
theorem runs_zrangeWithScores {start stop : ℕ} :
    Runs (zrangeWithScores z start stop) (withPair z k set counter db)
      (withScores (set.value.zrange start stop)) (withPair z k set counter db) :=
  (runs_readZset hne).bind (.pure _ _)

/-- `ZRANGE -1 -1 WITHSCORES` answers the last member, the one with the latest score. -/
theorem runs_zrangeLast :
    Runs (zrangeLast z) (withPair z k set counter db) (withScores set.value.last.toList)
      (withPair z k set counter db) :=
  (runs_readZset hne).bind (.pure _ _)

omit hne in
/-- An absent key stays absent. -/
theorem expiring_ofZset {time ttl : ℤ} :
    (Value.ofZset set).bind (expiring time ttl) = Value.ofZset (set.pexpire time ttl) := by
  rw [Value.ofZset]
  split
  · rename_i hentries
    rw [Value.ofZset, dif_pos]
    · rfl
    · rw [SortedSetKey.pexpire]
      split
      · rfl
      · exact hentries
  · rfl

/-- `PEXPIRE` of the sorted set, for a number that Redis can read and add to its clock. -/
theorem runs_pexpire_zset {time ttl : ℤ} (h : Expirable time ttl) :
    Runs (pexpire time z ttl) (withPair z k set counter db) ()
      (withPair z k (set.pexpire time ttl) counter db) := by
  rw [pexpire, if_pos h, Runs, modify, withPair_zset hne, expiring_ofZset, update_zset hne]

/-- `PTTL` of the sorted set. -/
theorem runs_pttl {time : ℤ} :
    Runs (pttl time z) (withPair z k set counter db) (set.pttl time)
      (withPair z k set counter db) := by
  rw [Runs, pttl, withPair_zset hne, Value.ofZset]
  split
  · rename_i hnil
    split at hnil
    · rename_i hentries
      rw [SortedSetKey.pttl, if_pos hentries]
    · cases hnil
  · rename_i key hkey
    split at hkey
    · cases hkey
    · obtain rfl := Value.zset.inj (Option.some.inj hkey)
      rfl
  · rename_i c hc
    split at hc <;> cases hc

omit hne

/-! ### Commands on the counter -/

/-- The type check passes, as the key holds a string or nothing. -/
theorem runs_readString :
    Runs (readString k) (withPair z k set counter db) counter (withPair z k set counter db) := by
  rw [Runs, readString, withPair_counter]
  cases counter <;> rfl

/-- What is written replaces the counter. -/
theorem runs_writeString :
    Runs (writeString k counter') (withPair z k set counter db) ()
      (withPair z k set counter' db) := by
  rw [Runs, writeString, update_counter]

/-- `GET` answers the text of the integer, or nil. -/
theorem runs_get :
    Runs (get k) (withPair z k set counter db) (counter.get.map toString)
      (withPair z k set counter db) :=
  runs_readString.bind (.pure _ _)

/-- `SET … PX`, for a deadline that Redis accepts. -/
theorem runs_setPx {time value ttl : ℤ} (hpos : 0 < ttl) (h : Expirable time ttl) :
    Runs (setPx time k value ttl) (withPair z k set counter db) ()
      (withPair z k set (.setPx time value ttl) db) := by
  rw [setPx, if_pos ⟨hpos, h⟩]
  exact runs_writeString

/-- `INCRBY` answers the sum where the number can be read and the sum has 64 bits. Elsewhere it is
an error, and there is no rule. -/
theorem runs_incrby {n : ℤ} (hn : Readable n) (hsum : Int64 (counter.get.getD 0 + n)) :
    Runs (incrby k n) (withPair z k set counter db) ((counter.incrby n).get.getD 0)
      (withPair z k set (counter.incrby n) db) := by
  rw [incrby, if_pos hn]
  refine runs_readString.bind ?_
  rw [if_pos hsum, CounterKey.get_incrby]
  exact runs_writeString.bind (.pure _ _)

/-- `DECRBY` answers the difference under the same conditions. -/
theorem runs_decrby {n : ℤ} (hn : Readable n) (hdifference : Int64 (counter.get.getD 0 - n)) :
    Runs (decrby k n) (withPair z k set counter db) ((counter.decrby n).get.getD 0)
      (withPair z k set (counter.decrby n) db) := by
  rw [decrby, if_pos hn]
  refine runs_readString.bind ?_
  rw [if_pos hdifference, CounterKey.get_decrby]
  exact runs_writeString.bind (.pure _ _)

/-- `DEL` of the counter. -/
theorem runs_del :
    Runs (del k) (withPair z k set counter db) () (withPair z k set none db) := by
  show (_, Function.update (withPair z k set counter db) k (Value.ofString none)) = _
  rw [update_counter]

/-- `PEXPIRE` of the counter. -/
theorem runs_pexpire_counter {time ttl : ℤ} (h : Expirable time ttl) :
    Runs (pexpire time k ttl) (withPair z k set counter db) ()
      (withPair z k set (counter.pexpire time ttl) db) := by
  have hvalue : (Value.ofString counter).bind (expiring time ttl) =
      Value.ofString (counter.pexpire time ttl) := by
    cases counter with
    | none =>
      show none = _
      rw [CounterKey.pexpire]
      split <;> rfl
    | some c => rfl
  rw [pexpire, if_pos h, Runs, modify, withPair_counter, hvalue, update_counter]

end Pair

end Script

/-! ## Replies -/

/-- What a script returns to the client. -/
inductive Resp
  | int (n : ℤ)
  | bulk (text : String)
  | nil
  | array (items : List Resp)

end Redis

import RedisSemaphore.RateLimiter.Wire
import RedisSemaphore.Semaphore.Wire
import RedisSemaphore.Simulation

/-!
# Many semaphores and limiters in one database

All semaphores of a namespace and all limiters of a namespace share one database with whatever else
is in it. A client sends a script its keys and arguments as text and reads the reply. Seen from one
semaphore or one limiter the calls to the others do not happen: its callers see a run of
`Semaphore.system`, or of `RateLimiter.system`, on the keys that bear its name.
-/

namespace RedisSemaphore.Deployment

open Redis Redis.Script RedisSemaphore.Wire KeyLayout

/-! ## Keys -/

/-- The configurations in use: the namespaces, and the limits of each limiter, which are integers
that a double holds over windows of at most `2 ^ 51` milliseconds. -/
structure Layout where
  semaphoreNs : String
  semaphoreTags : Bool
  limiterNs : String
  limiterTags : Bool
  limits : String → RateLimiter.Config LimitName
  moderate : ∀ name, ∀ l ∈ (limits name).limits, l.limit ≤ 2 ^ 53 ∧ l.windowMs ≤ 2 ^ 51

/-- A key of a semaphore or of a limiter. -/
inductive Key
  | semaphore (name : String) (kind : SemaphoreKey)
  | limiter (key : LimiterKey)

namespace Layout

variable (L : Layout)

/-- The semaphore of a name. -/
def semaphore (name : String) : SemaphoreConfig := ⟨L.semaphoreNs, name, L.semaphoreTags⟩

/-- The limiter of a name. -/
def limiter (name : String) : RateLimiterConfig := ⟨L.limiterNs, name, L.limiterTags⟩

/-- The name of a key, as the code that owns it builds it. -/
def key : Key → String
  | .semaphore name kind => (L.semaphore name).key kind
  | .limiter key => key.key L.limiterNs L.limiterTags

/-- The last field tells a key of a semaphore from one of a limiter, whatever the namespaces. -/
theorem key_injective : Function.Injective L.key := by
  -- the last field tells a limiter's key from a semaphore's: it is `log` or `total`
  have hlimiter (key : LimiterKey) : ∃ start field, ':' ∉ field.toList ∧
      (∀ kind : SemaphoreKey, kind.field ≠ field) ∧
      key.key L.limiterNs L.limiterTags = joined start field := by
    cases key with
    | log limiter limit =>
      refine ⟨_, "log", by decide, fun kind => ?_, rfl⟩
      cases kind <;> decide
    | total limiter limit =>
      refine ⟨_, "total", by decide, fun kind => ?_, rfl⟩
      cases kind <;> decide
  have hcross (name : String) (kind : SemaphoreKey) (key : LimiterKey) :
      (L.semaphore name).key kind ≠ key.key L.limiterNs L.limiterTags := by
    intro h
    obtain ⟨start, field, hcolon, hfield, hkey⟩ := hlimiter key
    rw [SemaphoreConfig.key_eq, hkey] at h
    exact hfield kind (joined_inj kind.colon_notMem hcolon h).2
  intro a b h
  cases a with
  | semaphore name kind =>
    cases b with
    | semaphore name' kind' =>
      have hpair : (name, kind) = (name', kind') :=
        semaphoreKey_injective L.semaphoreNs L.semaphoreTags h
      obtain ⟨rfl, rfl⟩ := Prod.mk.inj hpair
      rfl
    | limiter key => exact absurd h (hcross name kind key)
  | limiter key =>
    cases b with
    | semaphore name kind => exact absurd h.symm (hcross name kind key)
    | limiter key' => rw [limiterKey_injective L.limiterNs L.limiterTags h]

/-- Two keys have two names. -/
theorem key_ne {a b : Key} (h : a ≠ b) : L.key a ≠ L.key b := fun heq => h (L.key_injective heq)

end Layout

/-! ## Runs -/

/-- Why a call raises. -/
inductive CallError
  | script (e : ScriptError)
  | reply (e : ReplyError)
  deriving DecidableEq, Repr

/-- What the caller makes of the outcome of a script. -/
def result {α : Type} (parse : Resp → Except ReplyError α) :
    Except ScriptError Resp → Except CallError α
  | .error e => .error (.script e)
  | .ok resp => (parse resp).mapError CallError.reply

/-- Run a script and read its reply. -/
def call {α : Type} (p : Script Resp) (parse : Resp → Except ReplyError α) (db : Database) :
    Except CallError α × Database :=
  (result parse (p db).1, (p db).2)

/-- A script that runs to its end with an answer the client can read raises nothing. -/
theorem call_eq {α : Type} {p : Script Resp} {parse : Resp → Except ReplyError α}
    {db db' : Database} {resp : Resp} {a : α} (h : Runs p db resp db')
    (hparse : parse resp = .ok a) :
    call p parse db = (.ok a, db') := by
  rw [call, h]
  show ((parse resp).mapError CallError.reply, db') = _
  rw [hparse]
  rfl

/-- A call to the semaphore of a name. -/
def callSemaphore (L : Layout) (usec : ℕ) (name : String) (c : Semaphore.Call String) :
    Database → Except CallError Semaphore.Wire.Result × Database :=
  let i := Semaphore.Wire.invocation (L.semaphore name).ownersKey (L.semaphore name).fencingKey
    none c
  call (Semaphore.Wire.script usec i c) (Semaphore.Wire.parse c)

/-- A call to the limiter of a name. -/
def callLimiter (L : Layout) (usec : ℕ) (name : String)
    (c : RateLimiter.Call LimitName RateLimiter.Wire.Identifier) :
    Database → Except CallError RateLimiter.Reply × Database :=
  let i := RateLimiter.Wire.invocation (L.limiter name) (L.limits name) none c
  call (RateLimiter.Wire.script usec i c) (RateLimiter.Wire.parse (L.limits name) c)

/-- What happens in the database: a call to a semaphore or to a limiter, time passes, a key is
dropped once its deadline has passed, or someone writes other keys. -/
inductive Event
  | semaphore (name : String) (time : ℤ) (call : Semaphore.Call String)
    (result : Except CallError Semaphore.Wire.Result)
  | limiter (name : String) (time : ℤ)
    (call : RateLimiter.Call LimitName RateLimiter.Wire.Identifier)
    (result : Except CallError RateLimiter.Reply)
  | wait (time : ℤ)
  | expire (key : Key)
  | other

/-- The server's clock in microseconds, and the database. -/
structure Server where
  usec : ℕ
  db : Database

/-- One event. A call runs at the server's clock, and what its client is told is part of the
event. -/
inductive Step (L : Layout) : Server → Event → Server → Prop
  | semaphore (s : Server) (name : String) (c : Semaphore.Call String) :
    Step L s (.semaphore name (millis s.usec) c (callSemaphore L s.usec name c s.db).1)
      { s with db := (callSemaphore L s.usec name c s.db).2 }
  | limiter (s : Server) (name : String)
      (c : RateLimiter.Call LimitName RateLimiter.Wire.Identifier) :
    Step L s (.limiter name (millis s.usec) c (callLimiter L s.usec name c s.db).1)
      { s with db := (callLimiter L s.usec name c s.db).2 }
  | wait (s : Server) (usec : ℕ) (h : s.usec ≤ usec) :
    Step L s (.wait (millis usec)) { s with usec := usec }
  | expire (s : Server) (k : Key) :
    Step L s (.expire k) { s with
      db := Function.update s.db (L.key k) ((s.db (L.key k)).bind (Value.expire (millis s.usec))) }
  | other (s : Server) (db : Database) (h : ∀ k, db (L.key k) = s.db (L.key k)) :
    Step L s .other { s with db := db }

/-- No key of the namespaces is there yet. -/
def system (L : Layout) : Transition.System Server Event where
  start s := 0 < millis s.usec ∧ ∀ k, s.db (L.key k) = none
  step := Step L

/-! ## What one semaphore and one limiter see -/

/-- An event at the semaphore of a name. -/
def semaphoreEvent (name : String) : Event → Option (Semaphore.Event String)
  | .semaphore n time c (.ok result) =>
    if n = name then some (.call time (Semaphore.Wire.sent c) result.reply) else none
  | .wait time => some (.wait time)
  | .expire (.semaphore n .owners) => if n = name then some .expire else none
  | _ => none

/-- An event at the limiter of a name. -/
def limiterEvent (name : String) :
    Event → Option (RateLimiter.Event LimitName RateLimiter.Wire.Identifier)
  | .limiter n time c (.ok reply) => if n = name then some (.call time c reply) else none
  | .wait time => some (.wait time)
  | .expire (.limiter (.log n l)) => if n = name then some (.expire l .log) else none
  | .expire (.limiter (.total n l)) => if n = name then some (.expire l .total) else none
  | _ => none

/-- The call raised. -/
def Event.Failed : Event → Prop
  | .semaphore _ _ _ result => ∃ e, result = .error e
  | .limiter _ _ _ result => ∃ e, result = .error e
  | _ => False

/-! ## Numbers that a double holds -/

/-- The units that an event may charge to a limit. -/
def Event.units (name : String) (l : LimitName) : Event → ℕ
  | .limiter n _ c _ => if n = name then c.units l else 0
  | _ => 0

/-- The units that the calls of a run may have charged to a limit. -/
def spent (name : String) (l : LimitName) (tr : List Event) : ℕ :=
  (tr.map (Event.units name l)).sum

/-- What one more call spends. -/
@[simp] theorem spent_cons (name : String) (l : LimitName) (e : Event) (tr : List Event) :
    spent name l (e :: tr) = e.units name l + spent name l tr := by
  rw [spent, List.map_cons, List.sum_cons, spent]

/-- A call has its numbers in range, given what came before it: the clock, the timeouts and what a
permit says by themselves, the fencing token by the number of events, and the total of each limit by
all that was ever charged to it. -/
def InRange (L : Layout) (tr : List Event) : Event → Prop
  | .semaphore _ time c _ => time ≤ 2 ^ 51 ∧ Semaphore.Wire.InRange c ∧ tr.length < 2 ^ 53
  | .limiter name time c _ =>
    time ≤ 2 ^ 51 ∧ RateLimiter.Wire.InRange (L.limits name) c ∧
      ∀ l ∈ (L.limits name).limits, spent name l.name tr + c.units l.name ≤ 2 ^ 53
  | .wait _ | .expire _ | .other => True

/-! ## What the database holds -/

/-- The keys that the scripts use. -/
def Layout.Used (L : Layout) : Key → Prop
  | .semaphore _ kind => kind ≠ .queue
  | .limiter (.log name l) => l ∈ (L.limits name).limits.map RateLimiter.Limit.name
  | .limiter (.total name l) => l ∈ (L.limits name).limits.map RateLimiter.Limit.name

/-- The keys of all semaphores and limiters. -/
structure Contents where
  semaphores : String → Semaphore.Keys String
  limiters : String → LimitName → RateLimiter.LimitKeys RateLimiter.Wire.Identifier

namespace Contents

/-- What a key holds. -/
def value (c : Contents) : Key → Option Value
  | .semaphore name .owners => Value.ofZset (c.semaphores name).owners
  | .semaphore name .fencing =>
    Value.ofString (Semaphore.Wire.fencingCell (c.semaphores name).fencing)
  | .semaphore _ .queue => none
  | .limiter (.log name l) =>
    Value.ofZset ((c.limiters name l).log.map RateLimiter.Wire.printed)
  | .limiter (.total name l) => Value.ofString (c.limiters name l).total

/-- The contents after a semaphore has changed its keys. -/
def setSemaphore (c : Contents) (name : String) (keys : Semaphore.Keys String) : Contents :=
  { c with semaphores := Function.update c.semaphores name keys }

/-- The contents after a limiter has changed its keys. -/
def setLimiter (c : Contents) (name : String)
    (store : LimitName → RateLimiter.LimitKeys RateLimiter.Wire.Identifier) : Contents :=
  { c with limiters := Function.update c.limiters name store }

/-- A key is dropped if its deadline has passed. A fencing counter has none. -/
def expire (time : ℤ) (c : Contents) : Key → Contents
  | .semaphore name .owners => c.setSemaphore name ((c.semaphores name).expire time)
  | .semaphore _ .fencing => c
  | .semaphore _ .queue => c
  | .limiter (.log name l) => c.setLimiter name
    (Function.update (c.limiters name) l ((c.limiters name l).expire .log time))
  | .limiter (.total name l) => c.setLimiter name
    (Function.update (c.limiters name) l ((c.limiters name l).expire .total time))

variable {time : ℤ} {c : Contents} {k k' : Key}

/-- Expiry of a key looks at that key. -/
theorem value_expire_self : (c.expire time k).value k = (c.value k).bind (Value.expire time) := by
  cases k with
  | semaphore name kind =>
    cases kind with
    | owners =>
      simp only [value, expire, setSemaphore, Function.update_self, Value.expire_ofZset,
        Semaphore.Keys.expire]
    | fencing =>
      simp only [value, expire, Value.expire_ofString, Semaphore.Wire.expire_fencingCell]
    | queue => rfl
  | limiter key =>
    cases key with
    | log name l =>
      simp only [value, expire, setLimiter, Function.update_self, Value.expire_ofZset,
        RateLimiter.LimitKeys.expire, SortedSetKey.map_expire]
    | total name l =>
      simp only [value, expire, setLimiter, Function.update_self, Value.expire_ofString,
        RateLimiter.LimitKeys.expire]

/-- Expiry of a key leaves the others. -/
theorem value_expire_of_ne (h : k ≠ k') : (c.expire time k').value k = c.value k := by
  cases k' with
  | semaphore name' kind' =>
    cases kind' with
    -- of a semaphore only the owners key has a deadline
    | owners =>
      rcases k with ⟨name, kind⟩ | key
      · by_cases hn : name = name'
        · subst hn
          cases kind with
          | owners => exact absurd rfl h
          | fencing => simp [value, expire, setSemaphore, Semaphore.Keys.expire]
          | queue => rfl
        · cases kind <;> simp [value, expire, setSemaphore, hn]
      · cases key <;> rfl
    | fencing => rfl
    | queue => rfl
  | limiter key' =>
    rcases k with ⟨name, kind⟩ | key
    · cases key' <;> cases kind <;> rfl
    · have hne : key ≠ key' := fun heq => h (congrArg Key.limiter heq)
      rcases key' with ⟨name', l'⟩ | ⟨name', l'⟩ <;> rcases key with ⟨name, l⟩ | ⟨name, l⟩ <;>
        by_cases hn : name = name' <;> by_cases hl : l = l' <;>
        simp_all [value, expire, setLimiter, RateLimiter.LimitKeys.expire]

end Contents

/-- The database holds these contents. -/
def Stores (L : Layout) (c : Contents) (db : Database) : Prop :=
  ∀ k, L.Used k → db (L.key k) = c.value k

section Stores

variable {L : Layout} {c : Contents} {db : Database}

/-- The two keys of a semaphore are where its scripts look for them. -/
theorem withKeys_eq (h : Stores L c db) (name : String) :
    Semaphore.Wire.withKeys (L.semaphore name).ownersKey (L.semaphore name).fencingKey
      (c.semaphores name) db = db :=
  withPair_eq (h (.semaphore name .owners) (by simp [Layout.Used]))
    (h (.semaphore name .fencing) (by simp [Layout.Used]))

/-- So are the keys of a limiter. -/
theorem withLimits_eq (h : Stores L c db) (name : String) :
    RateLimiter.Wire.withLimits (L.limiter name)
      ((L.limits name).limits.map RateLimiter.Limit.name) (c.limiters name) db = db :=
  RateLimiter.Wire.withLimits_eq fun l hl =>
    ⟨h (.limiter (.log name l)) hl, h (.limiter (.total name l)) hl⟩

/-- Writing the keys of one semaphore leaves all others. -/
theorem Stores.withKeys (h : Stores L c db) (name : String) (keys : Semaphore.Keys String) :
    Stores L (c.setSemaphore name keys)
      (Semaphore.Wire.withKeys (L.semaphore name).ownersKey (L.semaphore name).fencingKey
        keys db) := by
  have hne : L.key (.semaphore name .owners) ≠ L.key (.semaphore name .fencing) :=
    L.key_ne (by simp)
  -- every key but the two of the semaphore is where it was
  have hother {k : Key} (hk : L.Used k) (howners : k ≠ .semaphore name .owners)
      (hfencing : k ≠ .semaphore name .fencing) :
      Semaphore.Wire.withKeys (L.semaphore name).ownersKey (L.semaphore name).fencingKey keys db
        (L.key k) = c.value k :=
    (withPair_of_ne (L.key_ne howners) (L.key_ne hfencing)).trans (h k hk)
  intro k hk
  cases k with
  | semaphore n kind =>
    by_cases hn : n = name
    · subst hn
      cases kind with
      | owners =>
        refine (withPair_zset hne).trans ?_
        simp [Contents.value, Contents.setSemaphore]
      | fencing =>
        refine withPair_counter.trans ?_
        simp [Contents.value, Contents.setSemaphore]
      | queue => exact absurd rfl hk
    · rw [hother hk (by simp [hn]) (by simp [hn])]
      cases kind <;> simp [Contents.value, Contents.setSemaphore, hn]
  | limiter key =>
    rw [hother hk (by simp) (by simp)]
    cases key <;> rfl

/-- Writing the keys of one limiter leaves all others. -/
theorem Stores.withLimits (h : Stores L c db) (name : String)
    (store : LimitName → RateLimiter.LimitKeys RateLimiter.Wire.Identifier) :
    Stores L (c.setLimiter name store)
      (RateLimiter.Wire.withLimits (L.limiter name)
        ((L.limits name).limits.map RateLimiter.Limit.name) store db) := by
  -- every key but those of the limiter is where it was
  have hother {k : Key} (hk : L.Used k)
      (hne : ∀ l, k ≠ .limiter (.log name l) ∧ k ≠ .limiter (.total name l)) :
      RateLimiter.Wire.withLimits (L.limiter name)
        ((L.limits name).limits.map RateLimiter.Limit.name) store db (L.key k) = c.value k :=
    (RateLimiter.Wire.withLimits_of_ne fun l _ =>
      ⟨L.key_ne (hne l).1, L.key_ne (hne l).2⟩).trans (h k hk)
  intro k hk
  cases k with
  | semaphore n kind =>
    rw [hother hk fun l => by simp]
    cases kind <;> rfl
  | limiter key =>
    cases key with
    | log n l =>
      by_cases hn : n = name
      · subst hn
        refine (RateLimiter.Wire.withLimits_log hk).trans ?_
        simp [Contents.value, Contents.setLimiter]
      · rw [hother hk fun l => by simp [hn]]
        simp [Contents.value, Contents.setLimiter, hn]
    | total n l =>
      by_cases hn : n = name
      · subst hn
        refine (RateLimiter.Wire.withLimits_total hk).trans ?_
        simp [Contents.value, Contents.setLimiter]
      · rw [hother hk fun l => by simp [hn]]
        simp [Contents.value, Contents.setLimiter, hn]

/-! ### Calls -/

/-- A call of a semaphore, seen from the whole database: the client gets the answer of the model,
and the database stores the keys of the model. -/
theorem callSemaphore_eq {usec : ℕ} {name : String} {call : Semaphore.Call String}
    (h : Stores L c db) (htime : millis usec ≤ 2 ^ 51) (hcall : Semaphore.Wire.InRange call)
    (hsmall : Semaphore.Wire.Small (c.semaphores name).owners)
    (hfencing : (c.semaphores name).fencing < 2 ^ 53) :
    let r := Semaphore.exec (Semaphore.Wire.sent call) none (millis usec) (c.semaphores name)
    callSemaphore L usec name call db = (.ok (.of call r.1),
      Semaphore.Wire.withKeys (L.semaphore name).ownersKey (L.semaphore name).fencingKey r.2
        db) := by
  intro r
  have hne : (L.semaphore name).ownersKey ≠ (L.semaphore name).fencingKey :=
    L.key_ne (a := .semaphore name .owners) (b := .semaphore name .fencing) (by simp)
  have hmoderate : Moderate (millis usec) := ⟨millis_nonneg usec, htime⟩
  have hnow : Moderate ((none : Option ℤ).getD (millis usec)) := hmoderate
  obtain ⟨resp, hruns, hparse⟩ :=
    Semaphore.Wire.runs_call db hne hmoderate hnow hcall hsmall hfencing
  rw [withKeys_eq h] at hruns
  exact call_eq hruns hparse

/-- A call of a limiter, seen from the whole database. -/
theorem callLimiter_eq {usec : ℕ} {name : String}
    {call : RateLimiter.Call LimitName RateLimiter.Wire.Identifier} (h : Stores L c db)
    (htime : millis usec ≤ 2 ^ 51) (hcall : RateLimiter.Wire.InRange (L.limits name) call)
    (hsmall : ∀ l ∈ (L.limits name).limits,
      RateLimiter.Small (2 ^ 53 - call.units l.name) (c.limiters name l.name)) :
    let r := RateLimiter.exec (L.limits name) call (millis usec) (c.limiters name)
    callLimiter L usec name call db = (.ok r.1,
      RateLimiter.Wire.withLimits (L.limiter name)
        ((L.limits name).limits.map RateLimiter.Limit.name) r.2 db) := by
  intro r
  have hruns := RateLimiter.Wire.runs_script (L.limiter name) none db
    ⟨millis_nonneg usec, htime⟩ (fun l hl => (L.moderate name l hl).2) hcall hsmall
  have hparse := RateLimiter.Wire.parse_replyResp (L.limits name) call (millis usec) (millis usec)
    (c.limiters name)
  rw [withLimits_eq h] at hruns
  simp only [r, RateLimiter.exec_eq_execAt]
  exact call_eq hruns hparse

/-- One key less. -/
theorem Stores.expire (h : Stores L c db) (time : ℤ) (k : Key) :
    Stores L (c.expire time k)
      (Function.update db (L.key k) ((db (L.key k)).bind (Value.expire time))) := by
  intro k' hk'
  by_cases heq : k' = k
  · subst heq
    rw [Function.update_self, h _ hk', Contents.value_expire_self]
  · rw [Function.update_of_ne (L.key_ne heq), h k' hk', Contents.value_expire_of_ne heq]

end Stores

/-! ## How large the numbers are -/

/-- After a run the expiries, the tokens and the totals are as small as the calls were. -/
structure Within (L : Layout) (tr : List Event) (c : Contents) : Prop where
  owners : ∀ name, Semaphore.Wire.Small (c.semaphores name).owners
  fencing : ∀ name, (c.semaphores name).fencing ≤ tr.length
  limits : ∀ name, ∀ l ∈ (L.limits name).limits,
    RateLimiter.Small (spent name l.name tr) (c.limiters name l.name)

section Within

variable {L : Layout} {tr : List Event} {c : Contents} {usec : ℕ}

/-- Empty keys are within every bound. -/
theorem within_initial :
    Within L [] ⟨fun _ => Semaphore.Keys.initial, fun _ _ => RateLimiter.LimitKeys.initial⟩ where
  owners _ := Semaphore.Wire.small_empty
  fencing _ := le_rfl
  limits _ _ _ := RateLimiter.small_initial

/-- What another event leaves alone stays as small as it was. -/
theorem Within.cons (h : Within L tr c) (e : Event) : Within L (e :: tr) c where
  owners := h.owners
  fencing name := (h.fencing name).trans (Nat.le_succ _)
  limits name l hl := (h.limits name l hl).mono (by rw [spent_cons]; omega)

/-- A key that goes leaves nothing, so nothing large. -/
theorem Within.expire (h : Within L tr c) (time : ℤ) (k : Key) :
    Within L tr (c.expire time k) := by
  rcases k with ⟨name, kind⟩ | key
  · cases kind with
    | owners =>
      refine ⟨fun n => ?_, fun n => ?_, h.limits⟩
      · by_cases hn : n = name
        · subst hn
          simp only [Contents.expire, Contents.setSemaphore, Function.update_self]
          -- expiry keeps the set as it is or empties it
          rcases SortedSetKey.expire_cases time (c.semaphores n).owners with heq | ⟨heq, -⟩
          · simpa only [Semaphore.Keys.expire, heq] using h.owners n
          · simpa only [Semaphore.Keys.expire, heq] using Semaphore.Wire.small_empty
        · simpa only [Contents.expire, Contents.setSemaphore, Function.update_of_ne hn] using
            h.owners n
      · by_cases hn : n = name
        · subst hn
          simpa only [Contents.expire, Contents.setSemaphore, Function.update_self,
            Semaphore.Keys.expire] using h.fencing n
        · simpa only [Contents.expire, Contents.setSemaphore, Function.update_of_ne hn] using
            h.fencing n
    | fencing => exact h
    | queue => exact h
  · -- the log and the total of a limit go alike
    have hlimit (name : String) (l : LimitName) (kind : RateLimiter.KeyKind) :
        Within L tr (c.setLimiter name (Function.update (c.limiters name) l
          ((c.limiters name l).expire kind time))) := by
      refine ⟨h.owners, h.fencing, fun n l' hl' => ?_⟩
      by_cases hn : n = name
      · subst hn
        simp only [Contents.setLimiter, Function.update_self]
        by_cases hl : l'.name = l
        · subst hl
          simpa only [Function.update_self] using (h.limits n l' hl').expire kind time
        · simpa only [Function.update_of_ne hl] using h.limits n l' hl'
      · simpa only [Contents.setLimiter, Function.update_of_ne hn] using h.limits n l' hl'
    cases key with
    | log name l => exact hlimit name l .log
    | total name l => exact hlimit name l .total

/-- A call to a semaphore adds a small expiry, and one token at most. -/
theorem Within.semaphore {name : String} {call : Semaphore.Call String} (h : Within L tr c)
    (htime : millis usec ≤ 2 ^ 51) (hcall : Semaphore.Wire.InRange call) (e : Event) :
    Within L (e :: tr) (c.setSemaphore name
      (Semaphore.exec (Semaphore.Wire.sent call) none (millis usec) (c.semaphores name)).2) := by
  refine ⟨fun n => ?_, fun n => ?_, (h.cons e).limits⟩
  · by_cases hn : n = name
    · subst hn
      simp only [Contents.setSemaphore, Function.update_self]
      exact (h.owners n).exec hcall.sent ⟨millis_nonneg usec, htime⟩
    · simpa only [Contents.setSemaphore, Function.update_of_ne hn] using h.owners n
  · by_cases hn : n = name
    · subst hn
      simp only [Contents.setSemaphore, Function.update_self]
      exact Semaphore.Wire.fencing_exec_le.trans (Nat.succ_le_succ (h.fencing n))
    · simpa only [Contents.setSemaphore, Function.update_of_ne hn] using (h.cons e).fencing n

/-- A call to a limiter adds no more units than it names. -/
theorem Within.limiter {name : String}
    {call : RateLimiter.Call LimitName RateLimiter.Wire.Identifier}
    {result : Except CallError RateLimiter.Reply} (h : Within L tr c)
    (htime : millis usec ≤ 2 ^ 51) :
    Within L (.limiter name (millis usec) call result :: tr) (c.setLimiter name
      (RateLimiter.exec (L.limits name) call (millis usec) (c.limiters name)).2) := by
  refine ⟨h.owners, (h.cons _).fencing, fun n l hl => ?_⟩
  by_cases hn : n = name
  · subst hn
    have hwindow := (L.moderate n l hl).2
    have hearly : millis usec + l.windowMs * 2 ≤ 2 ^ 53 := by omega
    simp only [Contents.setLimiter, Function.update_self]
    refine ((h.limits n l hl).exec hl hearly).mono ?_
    simp only [spent_cons, Event.units, if_true]
    omega
  · simpa only [Contents.setLimiter, Function.update_of_ne hn] using (h.cons _).limits n l hl

end Within

/-! ## Every run -/

/-- After a run, each semaphore and each limiter has gone through its own events. -/
structure Splits (L : Layout) (tr : List Event) (s : Server) (c : Contents) : Prop where
  stores : Stores L c s.db
  small : Within L tr c
  semaphore : ∀ name, Semaphore.system.Run (tr.filterMap (semaphoreEvent name))
    ⟨millis s.usec, c.semaphores name⟩
  limiter : ∀ name, (RateLimiter.system (L.limits name)).Run (tr.filterMap (limiterEvent name))
    ⟨millis s.usec, c.limiters name⟩
  answered : ∀ e ∈ tr, ¬ e.Failed

section Step

variable {L : Layout} {tr : List Event} {s t : Server} {c : Contents} {e : Event}

/-- An empty database splits into empty contents. -/
theorem splits_start (h : (system L).start s) :
    Splits L [] s
      ⟨fun _ => Semaphore.Keys.initial, fun _ _ => RateLimiter.LimitKeys.initial⟩ := by
  refine ⟨?_, within_initial, ?_, ?_, ?_⟩
  · intro k hk
    rw [h.2 k]
    rcases k with ⟨name, kind⟩ | ⟨name, l⟩ | ⟨name, l⟩
    · cases kind <;> rfl
    · rfl
    · rfl
  · exact fun name => .start ⟨h.1, rfl⟩
  · exact fun name => .start rfl
  · simp

/-- What a call to a semaphore in range answers and writes is what its function says. -/
theorem Splits.callSemaphore_eq {name : String} {call : Semaphore.Call String}
    {result : Except CallError Semaphore.Wire.Result} (h : Splits L tr s c)
    (hrange : InRange L tr (.semaphore name (millis s.usec) call result)) :
    let r := Semaphore.exec (Semaphore.Wire.sent call) none (millis s.usec) (c.semaphores name)
    callSemaphore L s.usec name call s.db = (.ok (.of call r.1),
      Semaphore.Wire.withKeys (L.semaphore name).ownersKey (L.semaphore name).fencingKey r.2
        s.db) :=
  Deployment.callSemaphore_eq h.stores hrange.1 hrange.2.1 (h.small.owners name)
    ((h.small.fencing name).trans_lt hrange.2.2)

/-- What one call of a limiter does in a run whose numbers stay in range. The bound on what has
been spent is the bound on what is recorded. -/
theorem Splits.callLimiter_eq {name : String}
    {call : RateLimiter.Call LimitName RateLimiter.Wire.Identifier}
    {result : Except CallError RateLimiter.Reply} (h : Splits L tr s c)
    (hrange : InRange L tr (.limiter name (millis s.usec) call result)) :
    let r := RateLimiter.exec (L.limits name) call (millis s.usec) (c.limiters name)
    callLimiter L s.usec name call s.db = (.ok r.1,
      RateLimiter.Wire.withLimits (L.limiter name)
        ((L.limits name).limits.map RateLimiter.Limit.name) r.2 s.db) := by
  refine Deployment.callLimiter_eq h.stores hrange.1 hrange.2.1 fun l hl => ?_
  have hroom := hrange.2.2 l hl
  exact (h.small.limits name l hl).mono (by omega)

/-- A call to a semaphore is a call of this one, and of no other. -/
theorem Splits.semaphore_step {name : String} {call : Semaphore.Call String} (h : Splits L tr s c)
    (hrange : InRange L tr (.semaphore name (millis s.usec) call
      (callSemaphore L s.usec name call s.db).1)) :
    let r := Semaphore.exec (Semaphore.Wire.sent call) none (millis s.usec) (c.semaphores name)
    Splits L (.semaphore name (millis s.usec) call (callSemaphore L s.usec name call s.db).1 :: tr)
      { s with db := (callSemaphore L s.usec name call s.db).2 } (c.setSemaphore name r.2) := by
  intro r
  rw [h.callSemaphore_eq hrange]
  refine ⟨h.stores.withKeys name _, h.small.semaphore hrange.1 hrange.2.1 _, fun n => ?_,
    h.limiter, ?_⟩
  · by_cases hn : n = name
    · subst hn
      simp only [List.filterMap_cons, semaphoreEvent, if_true, Contents.setSemaphore,
        Function.update_self, Semaphore.Wire.reply_of]
      exact (h.semaphore n).step (.call _ _)
    · simp only [List.filterMap_cons, semaphoreEvent, if_neg (Ne.symm hn), Contents.setSemaphore,
        Function.update_of_ne hn]
      exact h.semaphore n
  · rw [List.forall_mem_cons]
    exact ⟨by simp [Event.Failed], h.answered⟩

/-- The same for a limiter. -/
theorem Splits.limiter_step {name : String}
    {call : RateLimiter.Call LimitName RateLimiter.Wire.Identifier} (h : Splits L tr s c)
    (hrange : InRange L tr (.limiter name (millis s.usec) call
      (callLimiter L s.usec name call s.db).1)) :
    let r := RateLimiter.exec (L.limits name) call (millis s.usec) (c.limiters name)
    Splits L (.limiter name (millis s.usec) call (callLimiter L s.usec name call s.db).1 :: tr)
      { s with db := (callLimiter L s.usec name call s.db).2 } (c.setLimiter name r.2) := by
  intro r
  rw [h.callLimiter_eq hrange]
  refine ⟨h.stores.withLimits name _, h.small.limiter hrange.1, h.semaphore, fun n => ?_, ?_⟩
  · by_cases hn : n = name
    · subst hn
      simp only [List.filterMap_cons, limiterEvent, if_true, Contents.setLimiter,
        Function.update_self]
      exact (h.limiter n).step (.call _ _)
    · simp only [List.filterMap_cons, limiterEvent, if_neg (Ne.symm hn), Contents.setLimiter,
        Function.update_of_ne hn]
      exact h.limiter n
  · rw [List.forall_mem_cons]
    exact ⟨by simp [Event.Failed], h.answered⟩

/-- Only the limiter of this name sees its key go. -/
theorem splits_expire_limiter (h : Splits L tr s c) (n name : String) (l : LimitName)
    (kind : RateLimiter.KeyKind) :
    (RateLimiter.system (L.limits n)).Run
      ((if name = n then some (RateLimiter.Event.expire l kind) else none).toList ++
        tr.filterMap (limiterEvent n))
      ⟨millis s.usec, (c.setLimiter name (Function.update (c.limiters name) l
        ((c.limiters name l).expire kind (millis s.usec)))).limiters n⟩ := by
  by_cases hn : n = name
  · subst hn
    simp only [if_true, Contents.setLimiter, Function.update_self]
    exact (h.limiter n).step (.expire _ l kind)
  · simp only [if_neg (Ne.symm hn), Contents.setLimiter, Function.update_of_ne hn]
    exact h.limiter n

/-- A key whose deadline has passed goes from the semaphore or the limiter that it belongs to. -/
theorem Splits.expire_step (h : Splits L tr s c) (k : Key) :
    Splits L (.expire k :: tr) { s with
      db := Function.update s.db (L.key k) ((s.db (L.key k)).bind (Value.expire (millis s.usec))) }
      (c.expire (millis s.usec) k) := by
  -- an expiry is a step of the one semaphore or limiter whose key it is, and no step of the others
  refine ⟨h.stores.expire (millis s.usec) k, (h.small.expire _ k).cons _, fun n => ?_, fun n => ?_,
    ?_⟩
  · rcases k with ⟨name, kind⟩ | key
    · cases kind with
      | owners =>
        by_cases hn : n = name
        · subst hn
          simp only [List.filterMap_cons, semaphoreEvent, if_true, Contents.expire,
            Contents.setSemaphore, Function.update_self]
          exact (h.semaphore n).step (.expire _)
        · simp only [List.filterMap_cons, semaphoreEvent, if_neg (Ne.symm hn), Contents.expire,
            Contents.setSemaphore, Function.update_of_ne hn]
          exact h.semaphore n
      | fencing => exact h.semaphore n
      | queue => exact h.semaphore n
    · cases key with
      | log name l => exact h.semaphore n
      | total name l => exact h.semaphore n
  · rcases k with ⟨name, kind⟩ | ⟨name, l⟩ | ⟨name, l⟩
    · cases kind with
      | owners => exact h.limiter n
      | fencing => exact h.limiter n
      | queue => exact h.limiter n
    · rw [Transition.System.filterMap_cons_toList]
      exact splits_expire_limiter h n name l .log
    · rw [Transition.System.filterMap_cons_toList]
      exact splits_expire_limiter h n name l .total
  · rw [List.forall_mem_cons]
    exact ⟨id, h.answered⟩

/-- **One step** in range. A call reaches the semaphore or the limiter that it names, and no
other. -/
theorem splits_step (h : Splits L tr s c) (hrange : InRange L tr e) (hstep : Step L s e t) :
    ∃ c', Splits L (e :: tr) t c' := by
  cases hstep with
  | semaphore name call => exact ⟨_, h.semaphore_step hrange⟩
  | limiter name call => exact ⟨_, h.limiter_step hrange⟩
  | wait usec hle =>
    have hmillis := millis_mono hle
    refine ⟨c, h.stores, h.small.cons _, fun n => (h.semaphore n).step (.wait _ _ hmillis),
      fun n => (h.limiter n).step (.wait _ _ hmillis), ?_⟩
    rw [List.forall_mem_cons]
    exact ⟨id, h.answered⟩
  | expire k => exact ⟨_, h.expire_step k⟩
  | other db hkeys =>
    refine ⟨c, fun k hk => (hkeys k).trans (h.stores k hk), h.small.cons _, h.semaphore, h.limiter,
      ?_⟩
    rw [List.forall_mem_cons]
    exact ⟨id, h.answered⟩

/-- In every run in range the database splits into runs of the semaphores and the limiters. The
induction is on the run; each step is one of the calls above, an expiry or the clock. -/
theorem splits_run (h : (system L).Run tr s) (hrange : Transition.Guarded (InRange L) tr) :
    ∃ c, Splits L tr s c := by
  refine Transition.System.Run.invariant
    (I := fun tr s => Transition.Guarded (InRange L) tr → ∃ c, Splits L tr s c) ?_ ?_ h hrange
  · exact fun s hs _ => ⟨_, splits_start hs⟩
  · rintro tr s e t - hsplits hstep ⟨hrange, hearlier⟩
    obtain ⟨c, hsplits⟩ := hsplits hearlier
    exact splits_step hsplits hrange hstep

/-- **Every semaphore of a shared database**, while all calls have their numbers in range. No call
raises, and the results that the callers of one semaphore read are the answers of a run of this
semaphore alone, whose keys are those that the database holds under its name. -/
theorem semaphore_run_of_deployment (h : (system L).Run tr s)
    (hrange : Transition.Guarded (InRange L) tr) (name : String) :
    (∀ n time c result, Event.semaphore n time c result ∈ tr → ∃ r, result = .ok r) ∧
      ∃ keys : Semaphore.Keys String,
        Semaphore.system.Run (tr.filterMap (semaphoreEvent name)) ⟨millis s.usec, keys⟩ ∧
        s.db (L.semaphore name).ownersKey = Value.ofZset keys.owners ∧
        s.db (L.semaphore name).fencingKey =
          Value.ofString (Semaphore.Wire.fencingCell keys.fencing) := by
  obtain ⟨c, hsplits⟩ := splits_run h hrange
  refine ⟨fun n time call result hmem => ?_, c.semaphores name, hsplits.semaphore name, ?_, ?_⟩
  · cases result with
    | error e => exact absurd ⟨e, rfl⟩ (hsplits.answered _ hmem)
    | ok r => exact ⟨r, rfl⟩
  · exact hsplits.stores (.semaphore name .owners) (by simp [Layout.Used])
  · exact hsplits.stores (.semaphore name .fencing) (by simp [Layout.Used])

/-- **Every limiter of a shared database**, while all calls have their numbers in range. No call
raises, and the results that the callers of one limiter read are the answers of a run of this
limiter alone, whose logs and totals are those that the database holds under its name. -/
theorem limiter_run_of_deployment (h : (system L).Run tr s)
    (hrange : Transition.Guarded (InRange L) tr) (name : String) :
    (∀ n time c result, Event.limiter n time c result ∈ tr → ∃ reply, result = .ok reply) ∧
      ∃ store : LimitName → RateLimiter.LimitKeys RateLimiter.Wire.Identifier,
        (RateLimiter.system (L.limits name)).Run (tr.filterMap (limiterEvent name))
          ⟨millis s.usec, store⟩ ∧
        ∀ l ∈ (L.limits name).limits,
          s.db ((L.limiter name).logKey l.name) =
            Value.ofZset ((store l.name).log.map RateLimiter.Wire.printed) ∧
          s.db ((L.limiter name).totalKey l.name) = Value.ofString (store l.name).total := by
  obtain ⟨c, hsplits⟩ := splits_run h hrange
  refine ⟨fun n time call result hmem => ?_, c.limiters name, hsplits.limiter name, fun l hl => ?_⟩
  · cases result with
    | error e => exact absurd ⟨e, rfl⟩ (hsplits.answered _ hmem)
    | ok r => exact ⟨r, rfl⟩
  · have hname := List.mem_map_of_mem (f := RateLimiter.Limit.name) hl
    exact ⟨hsplits.stores (.limiter (.log name l.name)) hname,
      hsplits.stores (.limiter (.total name l.name)) hname⟩

end Step

/-! ## A database of two semaphores and a limiter -/

/-- The limit of the run below has a name. -/
theorem rps_ne_empty : "rps" ≠ "" := by decide

/-- It has no colon. -/
theorem colon_notMem_rps : ':' ∉ "rps".toList := by decide

/-- Ten units a second. -/
def tenPerSecond : RateLimiter.Config LimitName :=
  ⟨[⟨⟨"rps", rps_ne_empty, colon_notMem_rps⟩, 10, 1000, Nat.zero_lt_succ _, Nat.zero_lt_succ _⟩],
    List.cons_ne_nil _ _, List.nodup_singleton _⟩

/-- Semaphores and limiters of one namespace. -/
def shared : Layout where
  semaphoreNs := "app"
  semaphoreTags := false
  limiterNs := "app"
  limiterTags := false
  limits _ := tenPerSecond
  moderate _ l hl := by
    obtain rfl := List.mem_singleton.mp hl
    norm_num

/-- A run that ends with these contents. -/
def Reaches (tr : List Event) (c : Contents) : Prop :=
  ∃ db, (system shared).Run tr ⟨1000000, db⟩ ∧ Transition.Guarded (InRange shared) tr ∧
    Splits shared tr ⟨1000000, db⟩ c

/-- The run without calls. -/
theorem reaches_nil : Reaches []
    ⟨fun _ => Semaphore.Keys.initial, fun _ _ => RateLimiter.LimitKeys.initial⟩ := by
  have hstart : (system shared).start ⟨1000000, fun _ => none⟩ := ⟨by decide, fun _ => rfl⟩
  exact ⟨_, .start hstart, trivial, splits_start hstart⟩

/-- One more call of a semaphore. -/
theorem Reaches.semaphore {tr : List Event} {c : Contents} (h : Reaches tr c) (name : String)
    (call : Semaphore.Call String) (reply : Semaphore.Reply) (keys : Semaphore.Keys String)
    (hcall : Semaphore.Wire.InRange call) (hlength : tr.length < 2 ^ 53)
    (hexec : Semaphore.exec (Semaphore.Wire.sent call) none 1000 (c.semaphores name) =
      (reply, keys)) :
    Reaches (.semaphore name 1000 call (.ok (.of call reply)) :: tr)
      (c.setSemaphore name keys) := by
  obtain ⟨db, hrun, hguard, hsplits⟩ := h
  have hmillis : millis 1000000 = 1000 := rfl
  have hrange (result : Except CallError Semaphore.Wire.Result) :
      InRange shared tr (.semaphore name (millis 1000000) call result) :=
    ⟨by rw [hmillis]; norm_num, hcall, hlength⟩
  have hanswer := hsplits.callSemaphore_eq (hrange (.ok (.of call reply)))
  have hafter := hsplits.semaphore_step (hrange _)
  have hstep := hrun.step (Step.semaphore ⟨1000000, db⟩ name call)
  simp only [hmillis, hexec] at hanswer hafter
  simp only [hmillis, hanswer] at hafter hstep
  exact ⟨_, hstep, ⟨hmillis ▸ hrange _, hguard⟩, hafter⟩

/-- One more call of a limiter. -/
theorem Reaches.limiter {tr : List Event} {c : Contents} (h : Reaches tr c) (name : String)
    (call : RateLimiter.Call LimitName RateLimiter.Wire.Identifier) (reply : RateLimiter.Reply)
    (store : LimitName → RateLimiter.LimitKeys RateLimiter.Wire.Identifier)
    (hcall : RateLimiter.Wire.InRange tenPerSecond call)
    (hspent : ∀ l ∈ tenPerSecond.limits, spent name l.name tr + call.units l.name ≤ 2 ^ 53)
    (hexec : RateLimiter.exec tenPerSecond call 1000 (c.limiters name) = (reply, store)) :
    Reaches (.limiter name 1000 call (.ok reply) :: tr) (c.setLimiter name store) := by
  obtain ⟨db, hrun, hguard, hsplits⟩ := h
  have hmillis : millis 1000000 = 1000 := rfl
  have hlimits : shared.limits name = tenPerSecond := rfl
  have hrange (result : Except CallError RateLimiter.Reply) :
      InRange shared tr (.limiter name (millis 1000000) call result) :=
    ⟨by rw [hmillis]; norm_num, hcall, hspent⟩
  have hanswer := hsplits.callLimiter_eq (hrange (.ok reply))
  have hafter := hsplits.limiter_step (hrange _)
  have hstep := hrun.step (Step.limiter ⟨1000000, db⟩ name call)
  simp only [hmillis, hlimits, hexec] at hanswer hafter
  simp only [hmillis, hanswer] at hafter hstep
  exact ⟨_, hstep, ⟨hmillis ▸ hrange _, hguard⟩, hafter⟩

/-- The second semaphore has a slot where the first has none. -/
theorem semaphore_run_of_deployment_shared : ∃ keys : Semaphore.Keys String,
    Semaphore.system.Run [.call 1000 (.acquire "y" 1 10) (.acquire ⟨false, none, none, 1⟩),
      .call 1000 (.acquire "x" 1 10) (.acquire ⟨true, some 1, some 1010, 1⟩)] ⟨1000, keys⟩ := by
  have hcall (identifier : String) : Semaphore.Wire.InRange (.acquire identifier 1 10) :=
    ⟨by norm_num, by norm_num⟩
  have hheld := reaches_nil.semaphore "a" (.acquire "x" 1 10)
    (.acquire ⟨true, some 1, some 1010, 1⟩) _ (hcall _) (by norm_num) rfl
  have hother := hheld.semaphore "a:b" (.acquire "y" 1 10)
    (.acquire ⟨true, some 1, some 1010, 1⟩) _ (hcall _) (by norm_num) rfl
  have hrefused := hother.semaphore "a" (.acquire "y" 1 10) (.acquire ⟨false, none, none, 1⟩) _
    (hcall _) (by norm_num) rfl
  obtain ⟨db, hrun, hrange, -⟩ := hrefused
  obtain ⟨-, keys, hrun, -⟩ := semaphore_run_of_deployment hrun hrange "a"
  have htime : millis 1000000 = 1000 := rfl
  simp only [htime] at hrun
  exact ⟨keys, hrun⟩

/-- A full limiter beside an empty one, and beside a semaphore of its name. -/
theorem limiter_run_of_deployment_shared :
    ∃ store : LimitName → RateLimiter.LimitKeys RateLimiter.Wire.Identifier,
      (RateLimiter.system tenPerSecond).Run
        [.call 1000 (.acquire ⟨"s"⟩ fun _ => 4) (.acquire ⟨false, 1000, 1000, [10]⟩),
          .call 1000 (.acquire ⟨"r"⟩ fun _ => 10) (.acquire ⟨true, 0, 1000, [10]⟩)]
        ⟨1000, store⟩ := by
  have hfull := reaches_nil.limiter "a" (.acquire ⟨"r"⟩ fun _ => 10)
    (.acquire ⟨true, 0, 1000, [10]⟩) _ trivial
    (by simp [spent, RateLimiter.Call.units]) rfl
  have hheld := hfull.semaphore "a" (.acquire "x" 1 10) (.acquire ⟨true, some 1, some 1010, 1⟩) _
    ⟨by norm_num, by norm_num⟩ (by norm_num) rfl
  have hother := hheld.limiter "b" (.acquire ⟨"s"⟩ fun _ => 4) (.acquire ⟨true, 0, 1000, [4]⟩) _
    trivial (by simp [spent, Event.units, RateLimiter.Call.units]) rfl
  have hrefused := hother.limiter "a" (.acquire ⟨"s"⟩ fun _ => 4)
    (.acquire ⟨false, 1000, 1000, [10]⟩) _ trivial
    (by simp [spent, Event.units, RateLimiter.Call.units]) rfl
  obtain ⟨db, hrun, hrange, -⟩ := hrefused
  obtain ⟨-, store, hrun, -⟩ := limiter_run_of_deployment hrun hrange "a"
  have htime : millis 1000000 = 1000 := rfl
  simp only [htime] at hrun
  exact ⟨store, hrun⟩

end RedisSemaphore.Deployment

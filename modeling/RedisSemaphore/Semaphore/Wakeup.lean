import RedisSemaphore.Population
import RedisSemaphore.Semaphore.Fencing

/-!
# Waiting for a slot with `BLPOP`

`_acquire`, `_wait_blpop`, `_release` and `_notify_waiters` of any number of clients of one
semaphore in `AcquireMode.BLPOP`, command by command. A client is known by the identifier it sends
and is in one call at a time; every command it sends is a step of its own, so that everybody else's
commands come between any two of them. The notification queue holds only `"1"`s: it is their number.

A waiter that went to sleep is woken by a token, and a token is pushed only after the slot it stands
for was freed. `Inv.credit` is the account that closes the gap: while somebody waits, the slots
taken, the tokens in the queue, the waiters already woken and the tokens still to be pushed are
together no fewer than the limit.
-/

namespace RedisSemaphore.Wakeup

open Redis Semaphore Population Transition

variable {ι : Type*} [LinearOrder ι]

/-! ## The clients -/

/-- What a client is about to do with its identifier. -/
inductive Phase
  /-- It is in no call. -/
  | idle
  /-- In `acquire(blocking)`, before the first acquire script. -/
  | asking (blocking : Bool)
  /-- The acquire script refused; `BLPOP` has not been executed yet. -/
  | refused
  /-- Blocked in `BLPOP`. -/
  | blocked
  /-- `BLPOP` is over; the acquire script is to be retried. -/
  | awake
  /-- In `release`, before the release script. -/
  | releasing
  /-- Before the `LPUSH` of the notification. -/
  | pushing
  /-- Before the `LTRIM` of the notification. -/
  | trimming
  /-- Before the `PEXPIRE` of the notification. -/
  | expiring
  deriving DecidableEq

namespace Phase

/-- The phases before an acquire script, each with the flag `blocking` of its call. -/
def asks : Phase → Option Bool
  | asking blocking => some blocking
  | awake => some true
  | _ => none

/-- It has been refused and has not been woken since. -/
def Stuck (p : Phase) : Prop := p = refused ∨ p = blocked

/-- It has been refused in this call. -/
def Waits (p : Phase) : Prop := p.Stuck ∨ p = awake

/-- It owes the others an acquire script or a token. -/
def Owes (p : Phase) : Prop := p = awake ∨ p = pushing

instance : DecidablePred Stuck := fun p => inferInstanceAs (Decidable (p = refused ∨ p = blocked))

instance : DecidablePred Owes := fun p => inferInstanceAs (Decidable (p = awake ∨ p = pushing))

variable {p : Phase}

/-- Who is stuck has been refused and waits, or is about to. -/
@[simp] theorem stuck_iff : p.Stuck ↔ p = refused ∨ p = blocked := Iff.rfl

/-- Who waits is stuck, or has been woken and not looked yet. -/
@[simp] theorem waits_iff : p.Waits ↔ (p = refused ∨ p = blocked) ∨ p = awake := Iff.rfl

/-- Who owes has been woken, or is about to wake somebody. -/
@[simp] theorem owes_iff : p.Owes ↔ p = awake ∨ p = pushing := Iff.rfl

/-- A woken waiter owes an acquire script. -/
theorem owes_awake : Owes awake := Or.inl rfl

/-- A release that has yet to push owes a token. -/
theorem owes_pushing : Owes pushing := Or.inr rfl

end Phase

/-- The server clock, the keys of the semaphore, the length of the notification queue and what every
client is doing. -/
structure State (ι : Type*) [LinearOrder ι] where
  time : ℤ
  keys : Keys ι
  tokens : ℕ
  phase : ι → Phase

/-- A step by the client that takes it; `acquireScript` and `refresh` carry the arguments of the
script. -/
inductive Event (ι : Type*)
  | acquire (i : ι) (blocking : Bool)
  | acquireScript (i : ι) (lockTimeoutMs : ℕ) (nowArg : Option ℤ)
  | handleTimeout (i : ι)
  | skipWait (i : ι)
  | blpop (i : ι)
  | blpopTimeout (i : ι)
  | release (i : ι)
  | releaseScript (i : ι)
  | lpush (i : ι) (waiter : Option ι)
  | ltrim (i : ι)
  | pexpire (i : ι)
  | refresh (i : ι) (lockTimeoutMs : ℕ) (nowArg : Option ℤ)
  | wait (time : ℤ)

/-- The phase after an acquire script: only a blocking call that was refused goes on. -/
def afterAcquire (success blocking : Bool) : Phase :=
  if !success && blocking then .refused else .idle

/-- One step of a client, of its heartbeat or of the clock, with the same `limit` (at least `1`) for
everybody. -/
inductive Step (limit : ℕ) : State ι → Event ι → State ι → Prop
  | acquire (s : State ι) (i : ι) (blocking : Bool) (h : s.phase i = .idle) :
      Step limit s (.acquire i blocking)
        { s with phase := Function.update s.phase i (.asking blocking) }
  | acquireScript (s : State ι) (i : ι) (lockTimeoutMs : ℕ) (nowArg : Option ℤ) (blocking : Bool)
      (h : (s.phase i).asks = some blocking) :
      Step limit s (.acquireScript i lockTimeoutMs nowArg)
        { s with
          keys := (acquireScript i limit lockTimeoutMs nowArg s.time s.keys).2
          phase := Function.update s.phase i
            (afterAcquire (acquireScript i limit lockTimeoutMs nowArg s.time s.keys).1.success
              blocking) }
  -- `_check_timeout` raises `AcquireTimeoutError`
  | handleTimeout (s : State ι) (i : ι) (h : s.phase i = .refused) :
      Step limit s (.handleTimeout i) { s with phase := Function.update s.phase i .idle }
  -- `_blpop_timeout_for` leaves no time for a `BLPOP`
  | skipWait (s : State ι) (i : ι) (h : s.phase i = .refused) :
      Step limit s (.skipWait i) { s with phase := Function.update s.phase i .awake }
  | blpopToken (s : State ι) (i : ι) (tokens : ℕ) (h : s.phase i = .refused)
      (htokens : s.tokens = tokens + 1) :
      Step limit s (.blpop i)
        { s with tokens := tokens, phase := Function.update s.phase i .awake }
  | blpopBlock (s : State ι) (i : ι) (h : s.phase i = .refused) (htokens : s.tokens = 0) :
      Step limit s (.blpop i) { s with phase := Function.update s.phase i .blocked }
  | blpopTimeout (s : State ι) (i : ι) (h : s.phase i = .blocked) :
      Step limit s (.blpopTimeout i) { s with phase := Function.update s.phase i .awake }
  | release (s : State ι) (i : ι) (h : s.phase i = .idle) :
      Step limit s (.release i) { s with phase := Function.update s.phase i .releasing }
  | releaseScript (s : State ι) (i : ι) (h : s.phase i = .releasing) :
      Step limit s (.releaseScript i)
        { s with
          keys := (releaseScript i s.keys).2
          phase := Function.update s.phase i
            (if (releaseScript i s.keys).1 = 1 then .pushing else .idle) }
  -- a token that arrives while somebody is blocked goes to one of those who are
  | lpushServed (s : State ι) (i j : ι) (h : s.phase i = .pushing) (hj : s.phase j = .blocked) :
      Step limit s (.lpush i (some j))
        { s with phase := Function.update (Function.update s.phase i .trimming) j .awake }
  | lpushQueued (s : State ι) (i : ι) (h : s.phase i = .pushing)
      (hnobody : ∀ j, s.phase j ≠ .blocked) :
      Step limit s (.lpush i none)
        { s with tokens := s.tokens + 1, phase := Function.update s.phase i .trimming }
  | ltrim (s : State ι) (i : ι) (h : s.phase i = .trimming) :
      Step limit s (.ltrim i)
        { s with tokens := min s.tokens limit, phase := Function.update s.phase i .expiring }
  | pexpire (s : State ι) (i : ι) (h : s.phase i = .expiring) :
      Step limit s (.pexpire i) { s with phase := Function.update s.phase i .idle }
  | refresh (s : State ι) (i : ι) (lockTimeoutMs : ℕ) (nowArg : Option ℤ) :
      Step limit s (.refresh i lockTimeoutMs nowArg)
        { s with keys := (refreshScript i lockTimeoutMs nowArg s.time s.keys).2 }
  | wait (s : State ι) (time : ℤ) (h : s.time ≤ time) :
      Step limit s (.wait time) { s with time := time }

/-- The runs of the clients of one semaphore, from any owners and tokens, with nobody in a call. -/
def system (limit : ℕ) : System (State ι) (Event ι) where
  start s := ∀ i, s.phase i = .idle
  step := Step limit

/-- No slot expires: a script that evicts finds every owner still live, and it does not write an
expiry that has already come. -/
def NoExpiry (s : State ι) : Event ι → Prop
  | .acquireScript _ lockTimeoutMs nowArg | .refresh _ lockTimeoutMs nowArg =>
    0 < lockTimeoutMs ∧ ∀ e ∈ s.keys.owners.value.entries, resolveNow nowArg s.time < e.score
  | _ => True

/-! ## The scripts when no slot expires -/

section Live

variable {owners : SortedSetKey ι} {keys : Keys ι} {i j : ι} {timeout limit : ℕ}
  {nowArg : Option ℤ} {time nowMs : ℤ} {e : Scored ι} {t : ℤ}

/-- Where nothing has expired nothing is evicted. -/
theorem evictExpired_of_live (h : ∀ e ∈ owners.value.entries, nowMs < e.score) :
    evictExpired nowMs owners = owners := by
  rw [evictExpired, SortedSetKey.update, SortedSet.zremRangeByScore_of_forall h,
    SortedSetKey.store_value_deadline]

/-- The bump keeps the content as long as an element outlives `nowMs - t`. -/
theorem value_bumpOwnersTtl_of_mem (he : e ∈ owners.value.entries) (hlive : nowMs < e.score + t) :
    (bumpOwnersTtl time nowMs t owners).value = owners.value := by
  obtain ⟨top, htop⟩ := SortedSet.exists_last he
  have hle := SortedSet.score_le_last htop he
  rw [bumpOwnersTtl, htop]
  exact SortedSetKey.value_pexpire (by omega) _

variable (owners i time nowMs) in
/-- Writing an expiry in the future and bumping the deadline leaves the content with the `ZADD`. -/
theorem value_bump_zadd (htimeout : 0 < timeout) :
    (bumpOwnersTtl time nowMs timeout
      (owners.update fun z => z.zadd (nowMs + timeout) i)).value
      = owners.value.zadd (nowMs + timeout) i := by
  have hmem : ⟨i, nowMs + timeout⟩
      ∈ (owners.update fun z => z.zadd (nowMs + timeout) i).value.entries := by
    rw [SortedSetKey.value_update, SortedSet.mem_zadd]
    exact Or.inl rfl
  exact value_bumpOwnersTtl_of_mem hmem (by show nowMs < nowMs + timeout + timeout; omega)

/-- The owners after a grant to `i`. -/
theorem owns_zadd {owners' : SortedSetKey ι} (h : owners'.value = owners.value.zadd t i) :
    Owns owners' j ↔ j = i ∨ Owns owners j := by
  rw [Owns, Owns, h]
  by_cases hji : j = i
  · subst hji
    rw [SortedSet.zscore_zadd_self]
    exact iff_of_true ⟨_, rfl⟩ (Or.inl rfl)
  · rw [SortedSet.zscore_zadd_ne hji]
    exact (or_iff_right hji).symm

variable (i limit) in
/-- **The acquire script when no slot expires**: it writes the slot, or it finds the identifier
outside a full set and changes nothing. -/
theorem acquireScript_live (htimeout : 0 < timeout)
    (hlive : ∀ e ∈ keys.owners.value.entries, resolveNow nowArg time < e.score) :
    ((acquireScript i limit timeout nowArg time keys).1.success = true ∧
      (acquireScript i limit timeout nowArg time keys).2.owners.value
        = keys.owners.value.zadd (resolveNow nowArg time + timeout) i) ∨
    ((acquireScript i limit timeout nowArg time keys).1.success = false ∧
      (acquireScript i limit timeout nowArg time keys).2 = keys ∧
      ¬ Owns keys.owners i ∧ limit ≤ keys.owners.value.zcard) := by
  simp only [acquireScript, evictExpired_of_live hlive]
  split
  · exact Or.inl ⟨rfl, value_bump_zadd _ _ _ _ htimeout⟩
  · rename_i hnone
    split
    · exact Or.inl ⟨rfl, value_bump_zadd _ _ _ _ htimeout⟩
    · rename_i hfull
      refine Or.inr ⟨rfl, rfl, ?_, by omega⟩
      rintro ⟨score, hscore⟩
      rw [hscore] at hnone
      cases hnone

variable (i) in
/-- A refresh when no slot expires renews a slot that is there. -/
theorem refreshScript_live (htimeout : 0 < timeout)
    (hlive : ∀ e ∈ keys.owners.value.entries, resolveNow nowArg time < e.score) :
    (Owns keys.owners i ∧ (refreshScript i timeout nowArg time keys).2.owners.value
        = keys.owners.value.zadd (resolveNow nowArg time + timeout) i) ∨
      (refreshScript i timeout nowArg time keys).2 = keys := by
  rw [refreshScript]
  split
  · exact Or.inr rfl
  · rename_i score hscore
    have hscored := hlive _ (SortedSet.zscore_eq_some.mp hscore)
    rw [if_neg (by simp only at hscored ⊢; omega)]
    exact Or.inl ⟨⟨score, hscore⟩, value_bump_zadd _ _ _ _ htimeout⟩

variable (i keys) in
/-- The release script removes an owner and answers `1`, or changes nothing and answers `0`. -/
theorem releaseScript_cases :
    ((releaseScript i keys).1 = 1 ∧ Owns keys.owners i ∧
      (releaseScript i keys).2.owners = keys.owners.update fun z => z.zrem i) ∨
    ((releaseScript i keys).1 = 0 ∧ (releaseScript i keys).2 = keys) := by
  rw [releaseScript]
  split
  · rename_i score hscore
    exact Or.inl ⟨rfl, ⟨score, hscore⟩, rfl⟩
  · exact Or.inr ⟨rfl, rfl⟩

end Live

/-! ## The account of a wake-up -/

/-- What holds of the clients and of the account between any two commands. -/
structure Account (limit : ℕ) (s : State ι) : Prop where
  /-- Finitely many clients are in a call. -/
  busy : {i | s.phase i ≠ .idle}.Finite
  /-- A client that waits has no slot. -/
  outside : ∀ i, (s.phase i).Waits → ¬ Owns s.keys.owners i
  /-- While somebody is stuck, every slot is taken or accounted for. -/
  credit : (∃ i, (s.phase i).Stuck) →
    limit ≤ s.keys.owners.value.zcard + s.tokens + population Phase.Owes s.phase

/-- The account, and that nobody sleeps next to a token. -/
structure Inv (limit : ℕ) (s : State ι) : Prop extends Account limit s where
  empty : ∀ i, s.phase i = .blocked → s.tokens = 0

section Move

variable {limit : ℕ} {s : State ι}

/-- Finitely many owe anything: the others are in no call. -/
theorem Account.owes_finite (h : Account limit s) : {i | (s.phase i).Owes}.Finite := by
  refine h.busy.subset ?_
  rintro i (hi | hi) hidle
  · rw [hi] at hidle
    cases hidle
  · rw [hi] at hidle
    cases hidle

/-- **One client moves.** The account is kept when the move pays for what it takes, or leaves every
slot taken or in the queue. -/
theorem Account.move (h : Account limit s) (i : ι) (new : Phase) (keys : Keys ι) (tokens : ℕ)
    (howns : ∀ j, Owns keys.owners j → j = i ∨ Owns s.keys.owners j)
    (hself : new.Waits → ¬ Owns keys.owners i)
    (hstuck : new.Stuck → (s.phase i).Stuck ∨ limit ≤ keys.owners.value.zcard + tokens)
    (hcount : s.keys.owners.value.zcard + s.tokens + (if (s.phase i).Owes then 1 else 0)
          ≤ keys.owners.value.zcard + tokens + (if new.Owes then 1 else 0) ∨
        limit ≤ keys.owners.value.zcard + tokens) :
    Account limit
      { s with keys := keys, tokens := tokens, phase := Function.update s.phase i new } where
  busy := finite_update (p := (· ≠ Phase.idle)) h.busy
  outside j hj := by
    by_cases hji : j = i
    · subst hji
      rw [show (State.phase _ j) = new from Function.update_self ..] at hj
      exact hself hj
    · rw [show (State.phase _ j) = s.phase j from Function.update_of_ne hji ..] at hj
      intro hown
      rcases howns j hown with heq | hold
      · exact hji heq
      · exact h.outside j hj hold
  credit := by
    rintro ⟨j, hj⟩
    show limit ≤ keys.owners.value.zcard + tokens + population Phase.Owes (Function.update _ _ _)
    have hpop := population_update (i := i) (b := new) h.owes_finite
    have hwas : (∃ k, (s.phase k).Stuck) ∨ limit ≤ keys.owners.value.zcard + tokens := by
      by_cases hji : j = i
      · subst hji
        rw [show (State.phase _ j) = new from Function.update_self ..] at hj
        exact (hstuck hj).imp_left fun hold => ⟨j, hold⟩
      · rw [show (State.phase _ j) = s.phase j from Function.update_of_ne hji ..] at hj
        exact Or.inl ⟨j, hj⟩
    rcases hwas with hwas | hfull
    · have hold := h.credit hwas
      rcases hcount with hcount | hfull <;> omega
    · omega

/-- A client that moves without touching the server. -/
theorem Account.goto (h : Account limit s) (i : ι) (new : Phase)
    (hwaits : new.Waits → (s.phase i).Waits) (hstuck : new.Stuck → (s.phase i).Stuck)
    (howes : (s.phase i).Owes → new.Owes) :
    Account limit { s with phase := Function.update s.phase i new } := by
  refine h.move i new s.keys s.tokens (fun _ => Or.inr) (fun hnew => h.outside i (hwaits hnew))
    (fun hnew => Or.inl (hstuck hnew)) (Or.inl ?_)
  split
  · rw [if_pos (howes ‹_›)]
  · omega

/-- The client `i` executes an acquire script. -/
theorem Account.acquireScript (h : Account limit s) {i : ι} {timeout : ℕ} {nowArg : Option ℤ}
    {blocking : Bool} (hasks : (s.phase i).asks = some blocking) (htimeout : 0 < timeout)
    (hlive : ∀ e ∈ s.keys.owners.value.entries, resolveNow nowArg s.time < e.score) :
    Account limit
      { s with
        keys := (acquireScript i limit timeout nowArg s.time s.keys).2
        phase := Function.update s.phase i
          (afterAcquire (acquireScript i limit timeout nowArg s.time s.keys).1.success
            blocking) } := by
  rcases acquireScript_live i limit htimeout hlive with
    ⟨hsuccess, hvalue⟩ | ⟨hsuccess, hkeys, hnot, hfull⟩
  · rw [hsuccess]
    refine h.move i .idle _ s.tokens (fun j => (owns_zadd hvalue).mp) (by simp) (by simp)
      (Or.inl ?_)
    rw [hvalue]
    cases hscore : s.keys.owners.value.zscore i with
    | none =>
      rw [SortedSet.zcard_zadd_new hscore]
      split <;> omega
    | some score =>
      -- an owner is not waiting, so its acquire does not answer a wake-up
      have howes : ¬ (s.phase i).Owes := by
        rintro (hawake | hpushing)
        · exact h.outside i (Or.inr hawake) ⟨score, hscore⟩
        · rw [hpushing] at hasks
          cases hasks
      rw [SortedSet.zcard_zadd_old hscore, if_neg howes]
      omega
  · rw [hsuccess, hkeys]
    exact h.move i _ s.keys s.tokens (fun _ => Or.inr) (fun _ => hnot)
      (fun _ => Or.inr (by omega)) (Or.inr (by omega))

/-- The client `i` executes the release script: the slot it frees is the token it will push. -/
theorem Account.releaseScript (h : Account limit s) {i : ι} (hphase : s.phase i = .releasing) :
    Account limit
      { s with
        keys := (releaseScript i s.keys).2
        phase := Function.update s.phase i
          (if (releaseScript i s.keys).1 = 1 then .pushing else .idle) } := by
  have howes : ¬ (s.phase i).Owes := by simp [hphase]
  rcases releaseScript_cases s.keys i with
    ⟨hone, ⟨score, hscore⟩, howners⟩ | ⟨hzero, hkeys⟩
  · rw [if_pos hone]
    refine h.move i .pushing _ s.tokens ?_ (by simp)
      (by simp) (Or.inl ?_)
    · intro j hj
      rw [howners] at hj
      exact Or.inr hj.of_zrem
    · rw [howners, SortedSetKey.value_update, if_neg howes, if_pos Phase.owes_pushing]
      have := SortedSet.zcard_zrem hscore
      omega
  · rw [hzero, hkeys, if_neg (by omega)]
    exact h.goto i .idle (by simp) (by simp)
      (fun hold => absurd hold howes)

/-- A heartbeat renews a slot or does nothing. -/
theorem Account.refresh (h : Account limit s) (i : ι) {timeout : ℕ} {nowArg : Option ℤ}
    (htimeout : 0 < timeout)
    (hlive : ∀ e ∈ s.keys.owners.value.entries, resolveNow nowArg s.time < e.score) :
    Account limit { s with keys := (refreshScript i timeout nowArg s.time s.keys).2 } := by
  rcases refreshScript_live i htimeout hlive with
    ⟨⟨score, hscore⟩, hvalue⟩ | hkeys
  · refine ⟨h.busy, ?_, ?_⟩
    · intro j hj hown
      rcases (owns_zadd hvalue).mp hown with rfl | hold
      · exact h.outside j hj ⟨score, hscore⟩
      · exact h.outside j hj hold
    · intro hex
      show limit ≤ (refreshScript i timeout nowArg s.time s.keys).2.owners.value.zcard + _ + _
      rw [hvalue, SortedSet.zcard_zadd_old hscore]
      exact h.credit hex
  · rw [hkeys]
    exact h

/-- A token that serves a blocked client is queued and taken at once. -/
theorem Account.lpushServed (h : Account limit s) {i j : ι} (hi : s.phase i = .pushing)
    (hj : s.phase j = .blocked) :
    Account limit
      { s with phase := Function.update (Function.update s.phase i .trimming) j .awake } := by
  have hji : j ≠ i := by
    rintro rfl
    rw [hi] at hj
    cases hj
  have hqueued : Account limit
      { s with tokens := s.tokens + 1, phase := Function.update s.phase i .trimming } := by
    refine h.move i .trimming s.keys (s.tokens + 1) (fun _ => Or.inr)
      (by simp) (by simp) (Or.inl ?_)
    rw [hi, if_pos Phase.owes_pushing]
    omega
  have hblocked : Function.update s.phase i Phase.trimming j = .blocked := by
    rw [Function.update_of_ne hji, hj]
  refine hqueued.move j .awake s.keys s.tokens (fun _ => Or.inr) ?_ (by simp)
    (Or.inl ?_)
  · intro _
    exact hqueued.outside j (Or.inl (Or.inr hblocked))
  · show s.keys.owners.value.zcard + (s.tokens + 1)
        + (if (Function.update s.phase i Phase.trimming j).Owes then 1 else 0)
      ≤ s.keys.owners.value.zcard + s.tokens + (if Phase.awake.Owes then 1 else 0)
    rw [hblocked, if_neg (by simp), if_pos Phase.owes_awake]
    omega

/-- **Every step keeps the account** while no slot expires. -/
theorem Account.step {e : Event ι} {s' : State ι} (h : Account limit s) (hok : NoExpiry s e)
    (hs : Step limit s e s') : Account limit s' := by
  cases hs with
  | acquire i blocking hi =>
    exact h.goto i (.asking blocking) (by simp) (by simp)
      (by simp [hi])
  | acquireScript i timeout nowArg blocking hi => exact h.acquireScript hi hok.1 hok.2
  | handleTimeout i hi =>
    exact h.goto i .idle (by simp) (by simp)
      (by simp [hi])
  | skipWait i hi =>
    exact h.goto i .awake (by simp [hi]) (by simp)
      (by simp)
  | blpopToken i tokens hi htokens =>
    refine h.move i .awake s.keys tokens (fun _ => Or.inr)
      (fun _ => h.outside i (Or.inl (Or.inl hi))) (by simp) (Or.inl ?_)
    rw [hi, if_neg (by simp), if_pos Phase.owes_awake]
    omega
  | blpopBlock i hi htokens =>
    exact h.goto i .blocked (by simp [hi]) (by simp [hi])
      (by simp [hi])
  | blpopTimeout i hi =>
    exact h.goto i .awake (by simp [hi]) (by simp)
      (by simp)
  | release i hi =>
    exact h.goto i .releasing (by simp) (by simp)
      (by simp [hi])
  | releaseScript i hi => exact h.releaseScript hi
  | lpushServed i j hi hj => exact h.lpushServed hi hj
  | lpushQueued i hi hnobody =>
    refine h.move i .trimming s.keys (s.tokens + 1) (fun _ => Or.inr)
      (by simp) (by simp) (Or.inl ?_)
    rw [hi, if_pos Phase.owes_pushing]
    omega
  | ltrim i hi =>
    refine h.move i .expiring s.keys (min s.tokens limit) (fun _ => Or.inr)
      (by simp) (by simp) ?_
    rw [if_neg (by simp [hi])]
    omega
  | pexpire i hi =>
    exact h.goto i .idle (by simp) (by simp)
      (by simp [hi])
  | refresh i timeout nowArg => exact h.refresh i hok.1 hok.2
  | wait time htime => exact ⟨h.busy, h.outside, h.credit⟩

/-- A client found blocked after another phase was given to `i` was blocked before. -/
theorem blocked_of_update {i j : ι} {new : Phase} (hnew : new ≠ .blocked)
    (h : Function.update s.phase i new j = .blocked) : s.phase j = .blocked := by
  by_cases hji : j = i
  · subst hji
    rw [Function.update_self] at h
    exact absurd h hnew
  · rwa [Function.update_of_ne hji] at h

/-- An acquire that has been answered is not blocked; it goes to `BLPOP` in a step of its own. -/
theorem afterAcquire_ne_blocked (success blocking : Bool) :
    afterAcquire success blocking ≠ .blocked := by
  cases success <;> cases blocking <;> simp [afterAcquire]

/-- A client blocks only on an empty queue, and a token is queued only when nobody is blocked. -/
theorem Inv.empty_step {e : Event ι} {s' : State ι} (h : Inv limit s) (hs : Step limit s e s') :
    ∀ j, s'.phase j = .blocked → s'.tokens = 0 := by
  cases hs with
  | acquire | handleTimeout | skipWait | blpopTimeout | release | pexpire =>
    exact fun j hj => h.empty j (blocked_of_update (by simp) hj)
  | acquireScript =>
    exact fun j hj => h.empty j (blocked_of_update (afterAcquire_ne_blocked _ _) hj)
  | releaseScript =>
    exact fun j hj => h.empty j (blocked_of_update (by split <;> simp) hj)
  | blpopToken i tokens hi htokens =>
    intro j hj
    have := h.empty j (blocked_of_update (by simp) hj)
    omega
  | blpopBlock i hi htokens => exact fun _ _ => htokens
  | lpushServed i k hi hk => exact fun _ _ => h.empty k hk
  | lpushQueued i hi hnobody =>
    exact fun j hj => absurd (blocked_of_update (by simp) hj) (hnobody j)
  | ltrim i hi =>
    intro j hj
    have := h.empty j (blocked_of_update (by simp) hj)
    show min s.tokens limit = 0
    omega
  | refresh | wait => exact h.empty

end Move

/-- The invariant holds in every reachable state. -/
theorem inv_of_run {limit : ℕ} {tr : List (Event ι)} {s : State ι}
    (h : ((system limit).restrict NoExpiry).Run tr s) : Inv limit s := by
  refine System.Run.invariant (I := fun _ s => Inv limit s) ?_ ?_ h
  · intro s hidle
    have hnone : ∀ i, s.phase i = .idle := hidle
    refine ⟨⟨?_, ?_, ?_⟩, ?_⟩
    · simp [hnone]
    · simp [hnone]
    · simp [hnone]
    · simp [hnone]
  · rintro tr s e s' - ih ⟨hok, hs⟩
    exact ⟨ih.toAccount.step hok hs, ih.empty_step hs⟩

/-- **No wake-up is lost.** While no slot expires, whenever a slot is free and the client `c` is
blocked in `BLPOP`, a release has yet to push its token or another waiter is awake and has yet to
retry its acquire script. -/
theorem no_lost_wakeup {limit : ℕ} {tr : List (Event ι)} {s : State ι}
    (h : ((system limit).restrict NoExpiry).Run tr s) {c : ι}
    (hfree : s.keys.owners.value.zcard < limit) (hblocked : s.phase c = .blocked) :
    ∃ i, s.phase i = .pushing ∨ i ≠ c ∧ s.phase i = .awake := by
  have hinv := inv_of_run h
  have hcredit := hinv.credit ⟨c, Or.inr hblocked⟩
  rw [hinv.empty c hblocked] at hcredit
  obtain ⟨i, hawake | hpushing⟩ := exists_of_population_pos
    (show 0 < population Phase.Owes s.phase by omega)
  · refine ⟨i, Or.inr ⟨?_, hawake⟩⟩
    rintro rfl
    rw [hblocked] at hawake
    cases hawake
  · exact ⟨i, Or.inl hpushing⟩

/-- A run in which client `1` is blocked while the token of client `0` is on its way. -/
theorem no_lost_wakeup_pushing : ∃ (tr : List (Event ℕ)) (s : State ℕ),
    ((system 1).restrict NoExpiry).Run tr s ∧ s.phase 1 = .blocked ∧ s.phase 0 = .pushing ∧
      ∃ i, s.phase i = .pushing ∨ i ≠ 1 ∧ s.phase i = .awake := by
  have h₀ : ((system 1).restrict NoExpiry).Run [] (⟨1, .initial, 0, fun _ => .idle⟩ : State ℕ) :=
    .start fun _ => rfl
  have h₁ := h₀.step ⟨by exact trivial, .acquire _ 0 false rfl⟩
  have h₂ := h₁.step ⟨by exact ⟨by decide, by decide⟩, .acquireScript _ 0 10 none false rfl⟩
  have h₃ := h₂.step ⟨by exact trivial, .acquire _ 1 true rfl⟩
  have h₄ := h₃.step ⟨by exact ⟨by decide, by decide⟩, .acquireScript _ 1 10 none true rfl⟩
  have h₅ := h₄.step ⟨by exact trivial, .blpopBlock _ 1 rfl rfl⟩
  have h₆ := h₅.step ⟨by exact trivial, .release _ 0 rfl⟩
  have h₇ := h₆.step ⟨by exact trivial, .releaseScript _ 0 rfl⟩
  exact ⟨_, _, h₇, rfl, rfl, no_lost_wakeup h₇ (by decide) rfl⟩

end RedisSemaphore.Wakeup

import RedisSemaphore.Semaphore.Scripts

/-!
# Leases: what the scripts grant and take away

A *lease* is what a caller is told: a successful acquire and a non-zero refresh grant the slot until
an expiry, a release that answers `1` gives it back. `latestGrant` reads the leases off a trace, so
it knows nothing of the sorted set. This module says once what each script can do to the keys
(`acquire_cases`, `refresh_cases`) and derives the simulation `Inv`: the owners set holds every
lease that has not expired, with exactly its expiry, and the deadline of the key covers every
element.
-/

namespace RedisSemaphore.Semaphore

open Redis Transition

variable {ι : Type*} [LinearOrder ι]

/-! ## Leases of a trace -/

/-- The identifier and the expiry a call was granted. -/
def grantOf : Call ι → Reply → Option (ι × ℤ)
  | .acquire i _ _, .acquire reply => if reply.success then reply.expiresAt.map (i, ·) else none
  | .refresh i _, .int n => if n ≠ 0 then some (i, n) else none
  | _, _ => none

/-- The identifier a release has freed. -/
def releasedBy : Call ι → Reply → Option ι
  | .release i, .int n => if n = 1 then some i else none
  | _, _ => none

/-- The expiry of the latest grant to `i` that has not been released since. -/
def latestGrant : List (Event ι) → ι → Option ℤ
  | [], _ => none
  | .call _ c r :: tr, i =>
    match grantOf c r with
    | some (j, expiry) => if i = j then some expiry else latestGrant tr i
    | none => if releasedBy c r = some i then none else latestGrant tr i
  | .wait _ :: tr, i => latestGrant tr i
  | .expire :: tr, i => latestGrant tr i

/-- A live holder at time `t`: its latest grant expires after `t` and was not released. -/
def LiveHolder (tr : List (Event ι)) (t : ℤ) (i : ι) : Prop :=
  ∃ expiry, latestGrant tr i = some expiry ∧ t < expiry

/-- Every acquire of the trace passes the limit `n`. -/
def SameLimit (n : ℕ) : List (Event ι) → Prop :=
  Guarded fun _ e => ∀ t i limit timeout r, e = .call t (.acquire i limit timeout) r → limit = n

/-! ## Granting a slot

The two success branches of `ACQUIRE_SCRIPT` and the one of `REFRESH_SCRIPT` write the same thing:
the new score, then the deadline of the key.
-/

/-- `ZADD` of the new expiry, then the bump of the key's time to live, on the server clock. -/
def grantSlot (time : ℤ) (lockTimeoutMs : ℕ) (i : ι) (owners : SortedSetKey ι) : SortedSetKey ι :=
  bumpOwnersTtl time time lockTimeoutMs
    (owners.update fun z => z.zadd (time + lockTimeoutMs) i)

/-- The deadline of the owners key covers every element. -/
def Covered (owners : SortedSetKey ι) : Prop :=
  ∀ d, owners.deadline = some d → ∀ e ∈ owners.value.entries, e.score ≤ d

section Grant

variable {owners : SortedSetKey ι} {i j : ι} {time : ℤ} {timeout : ℕ} {e : Scored ι}

/-- After a grant there is the new slot, and those of others. -/
theorem mem_of_mem_grantSlot (h : e ∈ (grantSlot time timeout i owners).value.entries) :
    e = ⟨i, time + timeout⟩ ∨ e ∈ owners.value.entries ∧ e.member ≠ i := by
  simpa using mem_of_mem_bumpOwnersTtl h

/-- A grant that outlives the moment is in the set. -/
theorem zscore_grantSlot_self (h : time < time + timeout) :
    (grantSlot time timeout i owners).value.zscore i = some (time + timeout) := by
  rw [SortedSet.zscore_eq_some]
  exact mem_bumpOwnersTtl (by simp) (by simp only; omega)

/-- A grant keeps everybody else who has not expired. -/
theorem zscore_grantSlot_ne {s : ℤ} (hij : j ≠ i) (hs : owners.value.zscore j = some s)
    (hlive : time < s) : (grantSlot time timeout i owners).value.zscore j = some s := by
  rw [SortedSet.zscore_eq_some] at hs ⊢
  refine mem_bumpOwnersTtl ?_ (by simp only; omega)
  rw [SortedSetKey.value_update, SortedSet.mem_zadd]
  exact Or.inr ⟨hs, hij⟩

/-- The bump makes the deadline cover every element, whatever it was before. -/
theorem covered_grantSlot : Covered (grantSlot time timeout i owners) := by
  intro d hd e he
  have hbound := deadline_bumpOwnersTtl (mem_of_mem_bumpOwnersTtl he) hd
  omega

/-- A new deadline adds no slot. -/
theorem zcard_bumpOwnersTtl_le {nowMs t : ℤ} :
    (bumpOwnersTtl time nowMs t owners).value.zcard ≤ owners.value.zcard := by
  rw [bumpOwnersTtl]
  split
  · exact le_rfl
  · rw [SortedSetKey.pexpire]
    split
    · exact Nat.zero_le _
    · exact le_rfl

/-- Renewing an owner adds nobody. -/
theorem zcard_grantSlot_of_owner {s : ℤ} (h : owners.value.zscore i = some s) :
    (grantSlot time timeout i owners).value.zcard ≤ owners.value.zcard :=
  zcard_bumpOwnersTtl_le.trans (SortedSet.zcard_zadd_le h)

variable (time timeout) in
/-- A new owner takes one slot. -/
theorem zcard_grantSlot_of_new (h : owners.value.zscore i = none) :
    (grantSlot time timeout i owners).value.zcard ≤ owners.value.zcard + 1 :=
  zcard_bumpOwnersTtl_le.trans (SortedSet.zcard_zadd_new h).le

/-- A command that only removes elements keeps the key covered. -/
theorem Covered.update {f : SortedSet ι → SortedSet ι} (h : Covered owners)
    (hf : ∀ e ∈ (f owners.value).entries, e ∈ owners.value.entries) :
    Covered (owners.update f) := by
  intro d hd e he
  exact h d (SortedSetKey.deadline_store hd) e (hf e he)

/-- Eviction leaves less to cover. -/
theorem Covered.evictExpired (h : Covered owners) : Covered (evictExpired time owners) :=
  h.update fun _ he => (SortedSet.mem_zremRangeByScore.mp he).1

/-- So does a release. -/
theorem Covered.zrem (h : Covered owners) : Covered (owners.update fun z => z.zrem i) :=
  h.update fun _ he => (SortedSet.mem_zrem.mp he).1

end Grant

/-! ## What the scripts can do -/

section Cases

variable {i : ι} {limit timeout : ℕ} {time : ℤ} {keys : Keys ι}

variable (i limit timeout time keys) in
/-- An acquire grants the slot, to an owner or into a free slot, or finds every slot taken. -/
theorem acquire_cases :
    (∃ used,
      acquireScript i limit timeout none time keys =
        (⟨true, some (keys.fencing + 1), some (time + timeout), used⟩,
          ⟨grantSlot time timeout i (evictExpired time keys.owners), keys.fencing + 1⟩) ∧
      ((∃ s, (evictExpired time keys.owners).value.zscore i = some s) ∨
        (evictExpired time keys.owners).value.zscore i = none ∧
          (evictExpired time keys.owners).value.zcard < limit)) ∨
    (acquireScript i limit timeout none time keys =
        (⟨false, none, none, (evictExpired time keys.owners).value.zcard⟩,
          { keys with owners := evictExpired time keys.owners }) ∧
      (evictExpired time keys.owners).value.zscore i = none ∧
      limit ≤ (evictExpired time keys.owners).value.zcard) := by
  cases hs : (evictExpired time keys.owners).value.zscore i with
  | some score =>
    refine Or.inl ⟨(evictExpired time keys.owners).value.zcard, ?_, Or.inl ⟨score, rfl⟩⟩
    simp only [acquireScript, resolveNow, Option.getD_none, hs]
    rfl
  | none =>
    by_cases hlt : (evictExpired time keys.owners).value.zcard < limit
    · refine Or.inl ⟨(evictExpired time keys.owners).value.zcard + 1, ?_, Or.inr ⟨rfl, hlt⟩⟩
      simp only [acquireScript, resolveNow, Option.getD_none, hs]
      exact if_pos hlt
    · refine Or.inr ⟨?_, rfl, by omega⟩
      simp only [acquireScript, resolveNow, Option.getD_none, hs]
      exact if_neg hlt

variable (i timeout time keys) in
/-- A refresh renews an owner whose expiry has not passed, or reports the lock lost. -/
theorem refresh_cases :
    (refreshScript i timeout none time keys =
        (time + timeout, { keys with owners := grantSlot time timeout i keys.owners }) ∧
      ∃ s, keys.owners.value.zscore i = some s ∧ time ≤ s) ∨
    ((refreshScript i timeout none time keys).1 = 0 ∧
      ((refreshScript i timeout none time keys).2 = keys ∧ keys.owners.value.zscore i = none ∨
        (refreshScript i timeout none time keys).2 =
            { keys with owners := keys.owners.update fun z => z.zrem i } ∧
          ∃ s, keys.owners.value.zscore i = some s ∧ s < time)) := by
  cases hs : keys.owners.value.zscore i with
  | none =>
    have heq : refreshScript i timeout none time keys = (0, keys) := by
      simp only [refreshScript, hs]
    exact Or.inr ⟨by rw [heq], Or.inl ⟨by rw [heq], rfl⟩⟩
  | some score =>
    by_cases hlt : score < time
    · have heq : refreshScript i timeout none time keys =
          (0, { keys with owners := keys.owners.update fun z => z.zrem i }) := by
        simp only [refreshScript, resolveNow, Option.getD_none, hs]
        exact if_pos hlt
      exact Or.inr ⟨by rw [heq], Or.inr ⟨by rw [heq], score, rfl, hlt⟩⟩
    · refine Or.inl ⟨?_, score, rfl, by omega⟩
      simp only [refreshScript, resolveNow, Option.getD_none, hs]
      exact if_neg hlt

end Cases

/-! ## The simulation -/

/-- What ties the owners key to the leases of the trace. -/
structure Inv (tr : List (Event ι)) (s : Server ι) : Prop where
  positive : 0 < s.time
  held : ∀ i expiry, latestGrant tr i = some expiry → s.time < expiry →
    s.keys.owners.value.zscore i = some expiry
  covered : Covered s.keys.owners
  bounded : ∀ n, SameLimit n tr → s.keys.owners.value.zcard ≤ n

/-- The leases after a call that was granted the slot. -/
theorem held_of_grant {tr : List (Event ι)} {s : Server ι} {c : Call ι} {r : Reply} {i : ι}
    {timeout : ℕ} {owners : SortedSetKey ι}
    (hgrant : grantOf c r = some (i, s.time + timeout))
    (howners : ∀ j expiry, latestGrant tr j = some expiry → s.time < expiry →
      owners.value.zscore j = some expiry)
    (j : ι) (expiry : ℤ) (hj : latestGrant (.call s.time c r :: tr) j = some expiry)
    (hlive : s.time < expiry) :
    (grantSlot s.time timeout i owners).value.zscore j = some expiry := by
  simp only [latestGrant, hgrant] at hj
  by_cases hij : j = i
  · subst hij
    rw [if_pos rfl, Option.some.injEq] at hj
    subst hj
    exact zscore_grantSlot_self hlive
  · rw [if_neg hij] at hj
    exact zscore_grantSlot_ne hij (howners j expiry hj hlive) hlive

/-- The leases after a call that neither granted nor released anything. -/
theorem latestGrant_of_quiet (tr : List (Event ι)) (t : ℤ) {c : Call ι} {r : Reply}
    (hgrant : grantOf c r = none) (hrel : releasedBy c r = none) (i : ι) :
    latestGrant (.call t c r :: tr) i = latestGrant tr i := by
  simp [latestGrant, hgrant, hrel]

section Preserve

variable {tr : List (Event ι)} {s : Server ι}

/-- The leases survive eviction: only expired elements go. -/
theorem Inv.held_evict (h : Inv tr s) (i : ι) (expiry : ℤ)
    (hi : latestGrant tr i = some expiry) (hlive : s.time < expiry) :
    (evictExpired s.time s.keys.owners).value.zscore i = some expiry :=
  zscore_evictExpired.mpr ⟨h.held i expiry hi hlive, hlive⟩

/-- Eviction adds no slot. -/
theorem zcard_evictExpired_le {time : ℤ} {owners : SortedSetKey ι} :
    (evictExpired time owners).value.zcard ≤ owners.value.zcard :=
  SortedSet.zcard_keep_le _

/-- A script that only evicts keeps the simulation. -/
theorem Inv.evict (h : Inv tr s) {c : Call ι} {r : Reply} (hgrant : grantOf c r = none)
    (hrel : releasedBy c r = none) :
    Inv (.call s.time c r :: tr)
      { s with keys := { s.keys with owners := evictExpired s.time s.keys.owners } } where
  positive := h.positive
  held i expiry hi hlive := by
    rw [latestGrant_of_quiet tr s.time hgrant hrel] at hi
    exact h.held_evict i expiry hi hlive
  covered := h.covered.evictExpired
  bounded n hn := zcard_evictExpired_le.trans (h.bounded n hn.2)

/-- An acquire evicts what has expired and then grants a slot only below the limit. -/
theorem Inv.acquire (h : Inv tr s) (i : ι) (limit timeout : ℕ) :
    Inv (.call s.time (.acquire i limit timeout)
        (exec (.acquire i limit timeout) none s.time s.keys).1 :: tr)
      { s with keys := (exec (.acquire i limit timeout) none s.time s.keys).2 } := by
  rcases acquire_cases i limit timeout s.time s.keys with ⟨used, heq, hwhy⟩ | ⟨heq, -, -⟩
  · simp only [exec, heq]
    refine ⟨h.positive, ?_, covered_grantSlot, ?_⟩
    · exact held_of_grant (by simp [grantOf]) h.held_evict
    · intro n hn
      have hle : (evictExpired s.time s.keys.owners).value.zcard ≤ n :=
        zcard_evictExpired_le.trans (h.bounded n hn.2)
      have hlimit : limit = n := hn.1 _ _ _ _ _ rfl
      rcases hwhy with ⟨score, hscore⟩ | ⟨hscore, hlt⟩
      · exact (zcard_grantSlot_of_owner hscore).trans hle
      · have := zcard_grantSlot_of_new s.time timeout hscore
        simp only
        omega
  · simp only [exec, heq]
    exact h.evict (by simp [grantOf]) rfl

/-- A release ends the lease of its own member. -/
theorem Inv.release (h : Inv tr s) (i : ι) :
    Inv (.call s.time (.release i) (exec (.release i) none s.time s.keys).1 :: tr)
      { s with keys := (exec (.release i) none s.time s.keys).2 } := by
  simp only [exec, releaseScript]
  cases hscore : s.keys.owners.value.zscore i with
  | none =>
    refine ⟨h.positive, ?_, h.covered, fun n hn => h.bounded n hn.2⟩
    intro j expiry hj hlive
    rw [latestGrant_of_quiet tr s.time rfl (by simp [releasedBy])] at hj
    exact h.held j expiry hj hlive
  | some score =>
    refine ⟨h.positive, ?_, h.covered.zrem, fun n hn => ?_⟩
    · intro j expiry hj hlive
      by_cases hij : j = i
      · subst hij
        simp [latestGrant, grantOf, releasedBy] at hj
      · have hj' : latestGrant tr j = some expiry := by
          simpa [latestGrant, grantOf, releasedBy, Ne.symm hij] using hj
        exact (SortedSet.zscore_zrem_ne hij).trans (h.held j expiry hj' hlive)
    · exact (SortedSet.zcard_keep_le _).trans (h.bounded n hn.2)

/-- A refresh that finds its slot grants a new lease to its member; one that does not evicts and
grants nothing. -/
theorem Inv.refresh (h : Inv tr s) (i : ι) (timeout : ℕ) :
    Inv (.call s.time (.refresh i timeout) (exec (.refresh i timeout) none s.time s.keys).1 :: tr)
      { s with keys := (exec (.refresh i timeout) none s.time s.keys).2 } := by
  simp only [exec]
  rcases refresh_cases i timeout s.time s.keys with
    ⟨heq, score, hscore, -⟩ | ⟨hzero, hkeys⟩
  · rw [heq]
    have hne : s.time + (timeout : ℤ) ≠ 0 := by have := h.positive; omega
    refine ⟨h.positive, ?_, covered_grantSlot, fun n hn => ?_⟩
    · exact held_of_grant (by simp [grantOf, hne]) h.held
    · exact (zcard_grantSlot_of_owner hscore).trans (h.bounded n hn.2)
  · rw [hzero]
    have hquiet := latestGrant_of_quiet tr s.time (c := .refresh i timeout)
      (r := .int 0) (by simp [grantOf]) rfl
    rcases hkeys with ⟨hkeys, -⟩ | ⟨hkeys, score, hscore, hlt⟩
    · rw [hkeys]
      exact ⟨h.positive, fun j expiry hj hlive => h.held j expiry (hquiet j ▸ hj) hlive,
        h.covered, fun n hn => h.bounded n hn.2⟩
    · rw [hkeys]
      refine ⟨h.positive, ?_, h.covered.zrem, fun n hn =>
        (SortedSet.zcard_keep_le _).trans (h.bounded n hn.2)⟩
      intro j expiry hj hlive
      have hheld := h.held j expiry (hquiet j ▸ hj) hlive
      -- the removed element had expired, so it was nobody's lease
      have hij : j ≠ i := by
        rintro rfl
        rw [hscore, Option.some.injEq] at hheld
        simp only at hlive
        omega
      exact (SortedSet.zscore_zrem_ne hij).trans hheld

/-- **One step.** Every script, the clock and the expiry of the key keep the simulation. -/
theorem Inv.step {e : Event ι} {s' : Server ι} (h : Inv tr s) (hs : Step s e s') :
    Inv (e :: tr) s' := by
  cases hs with
  | call c =>
    cases c with
    | acquire i limit timeout => exact h.acquire i limit timeout
    | release i => exact h.release i
    | refresh i timeout => exact h.refresh i timeout
    | cleanup => exact h.evict rfl rfl
    | status i => exact h.evict rfl rfl
  | wait time hle =>
    exact ⟨by have := h.positive; simp only; omega,
      fun i expiry hi hlive => h.held i expiry hi (by simp only at hlive; omega),
      h.covered, fun n hn => h.bounded n hn.2⟩
  | expire =>
    rcases SortedSetKey.expire_cases s.time s.keys.owners with heq | ⟨heq, d, hd, hle⟩
    · simp only [Keys.expire, heq]
      exact ⟨h.positive, h.held, h.covered, fun n hn => h.bounded n hn.2⟩
    · simp only [Keys.expire, heq]
      refine ⟨h.positive, ?_, ?_, fun n _ => Nat.zero_le n⟩
      · intro i expiry hi hlive
        -- a live lease would score above a deadline that covers it
        have hmem := SortedSet.zscore_eq_some.mp (h.held i expiry hi hlive)
        have hcov := h.covered d hd _ hmem
        simp only at hcov hlive
        omega
      · intro d hd
        simp at hd

end Preserve

/-- The simulation holds at every moment of every run. -/
theorem inv_of_run {tr : List (Event ι)} {s : Server ι} (h : system.Run tr s) : Inv tr s := by
  refine System.Run.invariant (I := Inv) ?_ (fun tr s e s' _ ih hs => ih.step hs) h
  rintro s ⟨hpos, hkeys⟩
  refine ⟨hpos, ?_, ?_, ?_⟩
  · intro i expiry hi
    cases hi
  · intro d hd
    rw [hkeys] at hd
    cases hd
  · intro n _
    rw [hkeys]
    exact Nat.zero_le n

end RedisSemaphore.Semaphore

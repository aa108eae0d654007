import RedisSemaphore.Semaphore.Leases

/-!
# Mutual exclusion with synchronised clients

With `TimeSource.CLIENT` the scripts reason with the clocks of their callers, so an owner may be
evicted by a client whose clock is fast, and the owners key expires on the server's clock. Here the
clocks need not advance evenly: they may drift and be set, as long as none is ever more than `skew`
away from the server's, which is what NTP promises. Every holder whose lease has more than `skew`
left is then in the owners set (`SkewInv`), so a client that treats its slot as gone two skews
before the expiry, on its own clock, shares it with no more than the limit.
-/

namespace RedisSemaphore.Semaphore

open Redis Transition

variable {ι : Type*} [LinearOrder ι] {skew : ℤ}

/-- A clock shows `now` when the server's shows `time`. -/
def Synced (skew time now : ℤ) : Prop := |now - time| ≤ skew

instance (skew time now : ℤ) : Decidable (Synced skew time now) :=
  inferInstanceAs (Decidable (_ ≤ _))

/-- One step with `TimeSource.CLIENT`. A client reads its clock when it sends a script, which the
server may execute later. -/
inductive SkewedStep (skew : ℤ) : Server ι → Event ι → Server ι → Prop
  | call (s : Server ι) (c : Call ι) (sent now : ℤ) (hsent : sent ≤ s.time)
      (hnow : Synced skew sent now) (hpos : 0 < now) :
      SkewedStep skew s (.call s.time c (exec c (some now) s.time s.keys).1)
        { s with keys := (exec c (some now) s.time s.keys).2 }
  | wait (s : Server ι) (time : ℤ) (h : s.time ≤ time) :
      SkewedStep skew s (.wait time) { s with time := time }
  | expire (s : Server ι) : SkewedStep skew s .expire { s with keys := s.keys.expire s.time }

/-- The runs of one semaphore whose clients pass their own time. -/
def skewedSystem (skew : ℤ) : System (Server ι) (Event ι) where
  start s := s.keys = Keys.initial
  step := SkewedStep skew

/-- A clock within the skew of an earlier time is within the skew of a later one, from above. -/
theorem Synced.le {sent time now : ℤ} (h : Synced skew sent now) (hsent : sent ≤ time) :
    now ≤ time + skew := by
  have := (abs_le.mp h).2
  omega

/-! ## Granting a slot on another clock -/

/-- `ZADD` of the new expiry on the clock of the caller, then the bump of the key's time to live. -/
def grantSlotAt (time nowMs : ℤ) (lockTimeoutMs : ℕ) (i : ι) (owners : SortedSetKey ι) :
    SortedSetKey ι :=
  bumpOwnersTtl time nowMs lockTimeoutMs
    (owners.update fun z => z.zadd (nowMs + lockTimeoutMs) i)

/-- The deadline of the owners key is no more than a skew before the expiry of an element. -/
def CoveredWithin (skew : ℤ) (owners : SortedSetKey ι) : Prop :=
  ∀ d, owners.deadline = some d → ∀ e ∈ owners.value.entries, e.score ≤ d + skew

section Grant

variable {owners : SortedSetKey ι} {i j : ι} {time nowMs : ℤ} {timeout : ℕ} {e : Scored ι}

/-- A grant stores the expiry on the caller's clock. -/
theorem zscore_grantSlotAt_self (h : nowMs < nowMs + timeout) :
    (grantSlotAt time nowMs timeout i owners).value.zscore i = some (nowMs + timeout) := by
  rw [SortedSet.zscore_eq_some]
  exact mem_bumpOwnersTtl (by simp) (by simp only; omega)

/-- It keeps the slots of others that have not expired on that clock. -/
theorem zscore_grantSlotAt_ne {s : ℤ} (hij : j ≠ i) (hs : owners.value.zscore j = some s)
    (hlive : nowMs < s) :
    (grantSlotAt time nowMs timeout i owners).value.zscore j = some s := by
  rw [SortedSet.zscore_eq_some] at hs ⊢
  refine mem_bumpOwnersTtl ?_ (by simp only; omega)
  rw [SortedSetKey.value_update, SortedSet.mem_zadd]
  exact Or.inr ⟨hs, hij⟩

/-- The bump counts from the server's clock what the caller's clock leaves of the lease. -/
theorem coveredWithin_grantSlotAt (hnow : nowMs ≤ time + skew) :
    CoveredWithin skew (grantSlotAt time nowMs timeout i owners) := by
  intro d hd e he
  have hmem := mem_of_mem_bumpOwnersTtl he
  obtain ⟨top, htop⟩ := SortedSet.exists_last hmem
  have hle := SortedSet.score_le_last htop hmem
  rw [grantSlotAt, bumpOwnersTtl, htop] at hd
  have := SortedSetKey.deadline_pexpire hd
  omega

/-- A grant to an owner takes no further slot. -/
theorem zcard_grantSlotAt_of_owner {s : ℤ} (h : owners.value.zscore i = some s) :
    (grantSlotAt time nowMs timeout i owners).value.zcard ≤ owners.value.zcard :=
  zcard_bumpOwnersTtl_le.trans (SortedSet.zcard_zadd_le h)

variable (time nowMs timeout) in
/-- A grant to another takes one. -/
theorem zcard_grantSlotAt_of_new (h : owners.value.zscore i = none) :
    (grantSlotAt time nowMs timeout i owners).value.zcard ≤ owners.value.zcard + 1 :=
  zcard_bumpOwnersTtl_le.trans (SortedSet.zcard_zadd_new h).le

/-- A removal leaves less to cover. -/
theorem CoveredWithin.update {f : SortedSet ι → SortedSet ι} (h : CoveredWithin skew owners)
    (hf : ∀ e ∈ (f owners.value).entries, e ∈ owners.value.entries) :
    CoveredWithin skew (owners.update f) := by
  intro d hd e he
  exact h d (SortedSetKey.deadline_store hd) e (hf e he)

/-- So does an eviction. -/
theorem CoveredWithin.evictExpired (h : CoveredWithin skew owners) :
    CoveredWithin skew (evictExpired nowMs owners) :=
  h.update fun _ he => (SortedSet.mem_zremRangeByScore.mp he).1

/-- So does a release. -/
theorem CoveredWithin.zrem (h : CoveredWithin skew owners) :
    CoveredWithin skew (owners.update fun z => z.zrem i) :=
  h.update fun _ he => (SortedSet.mem_zrem.mp he).1

end Grant

/-! ## What the scripts can do on another clock -/

section Cases

variable {i : ι} {limit timeout : ℕ} {nowMs time : ℤ} {keys : Keys ι}

variable (i limit timeout nowMs time keys) in
/-- An acquire grants the slot, to an owner or into a free slot, or finds every slot taken. -/
theorem acquireAt_cases :
    (∃ used,
      acquireScript i limit timeout (some nowMs) time keys =
        (⟨true, some (keys.fencing + 1), some (nowMs + timeout), used⟩,
          ⟨grantSlotAt time nowMs timeout i (evictExpired nowMs keys.owners),
            keys.fencing + 1⟩) ∧
      ((∃ s, (evictExpired nowMs keys.owners).value.zscore i = some s) ∨
        (evictExpired nowMs keys.owners).value.zscore i = none ∧
          (evictExpired nowMs keys.owners).value.zcard < limit)) ∨
    acquireScript i limit timeout (some nowMs) time keys =
        (⟨false, none, none, (evictExpired nowMs keys.owners).value.zcard⟩,
          { keys with owners := evictExpired nowMs keys.owners }) := by
  cases hs : (evictExpired nowMs keys.owners).value.zscore i with
  | some score =>
    refine Or.inl ⟨(evictExpired nowMs keys.owners).value.zcard, ?_, Or.inl ⟨score, rfl⟩⟩
    simp only [acquireScript, resolveNow, Option.getD_some, hs]
    rfl
  | none =>
    by_cases hlt : (evictExpired nowMs keys.owners).value.zcard < limit
    · refine Or.inl ⟨(evictExpired nowMs keys.owners).value.zcard + 1, ?_, Or.inr ⟨rfl, hlt⟩⟩
      simp only [acquireScript, resolveNow, Option.getD_some, hs]
      exact if_pos hlt
    · refine Or.inr ?_
      simp only [acquireScript, resolveNow, Option.getD_some, hs]
      exact if_neg hlt

variable (i timeout nowMs time keys) in
/-- A refresh renews an owner, finds nobody to renew, or removes an owner that is too late. -/
theorem refreshAt_cases :
    (refreshScript i timeout (some nowMs) time keys =
        (nowMs + timeout, { keys with owners := grantSlotAt time nowMs timeout i keys.owners }) ∧
      ∃ s, keys.owners.value.zscore i = some s) ∨
    refreshScript i timeout (some nowMs) time keys = (0, keys) ∨
    refreshScript i timeout (some nowMs) time keys =
        (0, { keys with owners := keys.owners.update fun z => z.zrem i }) ∧
      ∃ s, keys.owners.value.zscore i = some s ∧ s < nowMs := by
  cases hs : keys.owners.value.zscore i with
  | none =>
    refine Or.inr (Or.inl ?_)
    simp only [refreshScript, hs]
  | some score =>
    by_cases hlt : score < nowMs
    · refine Or.inr (Or.inr ⟨?_, score, rfl, hlt⟩)
      simp only [refreshScript, resolveNow, Option.getD_some, hs]
      exact if_pos hlt
    · refine Or.inl ⟨?_, score, rfl⟩
      simp only [refreshScript, resolveNow, Option.getD_some, hs]
      exact if_neg hlt

end Cases

/-! ## The simulation -/

/-- What ties the owners key to the leases of the trace: those with more than a skew left are in the
set. -/
structure SkewInv (skew : ℤ) (tr : List (Event ι)) (s : Server ι) : Prop where
  held : ∀ i expiry, latestGrant tr i = some expiry → s.time + skew < expiry →
    s.keys.owners.value.zscore i = some expiry
  covered : CoveredWithin skew s.keys.owners
  bounded : ∀ n, SameLimit n tr → s.keys.owners.value.zcard ≤ n

section Preserve

variable {tr : List (Event ι)} {s : Server ι} {now : ℤ}

/-- A script that grants nothing, releases nobody and keeps what has more than a skew left. -/
theorem SkewInv.quiet (h : SkewInv skew tr s) {c : Call ι} {r : Reply} {keys : Keys ι}
    (hgrant : grantOf c r = none) (hrel : releasedBy c r = none)
    (hkept : ∀ i expiry, s.keys.owners.value.zscore i = some expiry → s.time + skew < expiry →
      keys.owners.value.zscore i = some expiry)
    (hcovered : CoveredWithin skew keys.owners)
    (hcard : keys.owners.value.zcard ≤ s.keys.owners.value.zcard) :
    SkewInv skew (.call s.time c r :: tr) { s with keys := keys } where
  held i expiry hi hlive := by
    rw [latestGrant_of_quiet tr s.time hgrant hrel] at hi
    exact hkept i expiry (h.held i expiry hi hlive) hlive
  covered := hcovered
  bounded n hn := hcard.trans (h.bounded n hn.2)

/-- A script that only evicts, on a clock that is not too fast. -/
theorem SkewInv.evict (h : SkewInv skew tr s) {c : Call ι} {r : Reply}
    (hgrant : grantOf c r = none) (hrel : releasedBy c r = none) (hnow : now ≤ s.time + skew) :
    SkewInv skew (.call s.time c r :: tr)
      { s with keys := { s.keys with owners := evictExpired now s.keys.owners } } := by
  refine h.quiet hgrant hrel (fun i expiry hi hlive => ?_) h.covered.evictExpired
    zcard_evictExpired_le
  exact zscore_evictExpired.mpr ⟨hi, by omega⟩

/-- A script that grants the slot over a part of the set that keeps what has more than a skew
left. -/
theorem SkewInv.grant (h : SkewInv skew tr s) {c : Call ι} {r : Reply} {i : ι} {timeout n : ℕ}
    {owners : SortedSetKey ι} (hgrant : grantOf c r = some (i, now + timeout))
    (hnow : now ≤ s.time + skew)
    (hkept : ∀ j expiry, s.keys.owners.value.zscore j = some expiry → s.time + skew < expiry →
      owners.value.zscore j = some expiry)
    (hcard : ∀ m, SameLimit m (.call s.time c r :: tr) →
      (grantSlotAt s.time now timeout i owners).value.zcard ≤ m) :
    SkewInv skew (.call s.time c r :: tr)
      { s with keys := ⟨grantSlotAt s.time now timeout i owners, n⟩ } where
  held j expiry hj hlive := by
    simp only [latestGrant, hgrant] at hj
    by_cases hij : j = i
    · subst hij
      rw [if_pos rfl, Option.some.injEq] at hj
      subst hj
      exact zscore_grantSlotAt_self (by simp only at hlive; omega)
    · rw [if_neg hij] at hj
      exact zscore_grantSlotAt_ne hij (hkept j expiry (h.held j expiry hj hlive) hlive)
        (by simp only at hlive; omega)
  covered := coveredWithin_grantSlotAt hnow
  bounded := hcard

/-- An acquire on a clock within the skew evicts only what a skew later would have expired anyway,
so the leases with more than that left are still there, and the count it compares is of all of
them. -/
theorem SkewInv.acquire (h : SkewInv skew tr s) (i : ι) (limit timeout : ℕ)
    (hnow : now ≤ s.time + skew) :
    SkewInv skew (.call s.time (.acquire i limit timeout)
        (exec (.acquire i limit timeout) (some now) s.time s.keys).1 :: tr)
      { s with keys := (exec (.acquire i limit timeout) (some now) s.time s.keys).2 } := by
  rcases acquireAt_cases i limit timeout now s.time s.keys with ⟨used, heq, hwhy⟩ | heq
  · simp only [exec, heq]
    refine h.grant (by simp [grantOf]) hnow (fun j expiry hj hlive => ?_) fun m hm => ?_
    · exact zscore_evictExpired.mpr ⟨hj, by omega⟩
    · have hle : (evictExpired now s.keys.owners).value.zcard ≤ m :=
        zcard_evictExpired_le.trans (h.bounded m hm.2)
      rcases hwhy with ⟨score, hscore⟩ | ⟨hnone, hlt⟩
      · exact (zcard_grantSlotAt_of_owner hscore).trans hle
      · have hlimit : limit = m := hm.1 _ _ _ _ _ rfl
        have := zcard_grantSlotAt_of_new s.time now timeout hnone
        omega
  · simp only [exec, heq]
    exact h.evict (by simp [grantOf]) rfl hnow

/-- A release ends one lease and leaves the others. -/
theorem SkewInv.release (h : SkewInv skew tr s) (i : ι) :
    SkewInv skew (.call s.time (.release i) (exec (.release i) (some now) s.time s.keys).1 :: tr)
      { s with keys := (exec (.release i) (some now) s.time s.keys).2 } := by
  simp only [exec, releaseScript]
  cases hscore : s.keys.owners.value.zscore i with
  | none =>
    exact h.quiet rfl (by simp [releasedBy]) (fun _ _ hj _ => hj) h.covered le_rfl
  | some score =>
    refine ⟨fun j expiry hj hlive => ?_, h.covered.zrem, fun n hn => ?_⟩
    · by_cases hij : j = i
      · subst hij
        simp [latestGrant, grantOf, releasedBy] at hj
      · have hj' : latestGrant tr j = some expiry := by
          simpa [latestGrant, grantOf, releasedBy, Ne.symm hij] using hj
        exact (SortedSet.zscore_zrem_ne hij).trans (h.held j expiry hj' hlive)
    · exact (SortedSet.zcard_keep_le _).trans (h.bounded n hn.2)

/-- A refresh that finds its slot grants a new lease; one that does not ends none. -/
theorem SkewInv.refresh (h : SkewInv skew tr s) (i : ι) (timeout : ℕ)
    (hnow : now ≤ s.time + skew) (hpos : 0 < now) :
    SkewInv skew (.call s.time (.refresh i timeout)
        (exec (.refresh i timeout) (some now) s.time s.keys).1 :: tr)
      { s with keys := (exec (.refresh i timeout) (some now) s.time s.keys).2 } := by
  simp only [exec]
  rcases refreshAt_cases i timeout now s.time s.keys with
    ⟨heq, score, hscore⟩ | heq | ⟨heq, score, hscore, hlt⟩
  · rw [heq]
    have hne : now + (timeout : ℤ) ≠ 0 := by omega
    exact h.grant (by simp [grantOf, hne]) hnow (fun _ _ hj _ => hj)
      fun m hm => (zcard_grantSlotAt_of_owner hscore).trans (h.bounded m hm.2)
  · rw [heq]
    exact h.quiet (by simp [grantOf]) rfl (fun _ _ hj _ => hj) h.covered le_rfl
  · rw [heq]
    refine h.quiet (by simp [grantOf]) rfl (fun j expiry hj hlive => ?_) h.covered.zrem
      (SortedSet.zcard_keep_le _)
    -- the removed element had no skew left
    have hij : j ≠ i := by
      rintro rfl
      rw [hscore, Option.some.injEq] at hj
      omega
    exact (SortedSet.zscore_zrem_ne hij).trans hj

/-- **One step.** Scripts on clocks within the skew, time and the expiry of the key keep the
simulation. -/
theorem SkewInv.step {e : Event ι} {s' : Server ι} (h : SkewInv skew tr s)
    (hs : SkewedStep skew s e s') : SkewInv skew (e :: tr) s' := by
  cases hs with
  | call c sent now hsent hsynced hpos =>
    have hnow := hsynced.le hsent
    cases c with
    | acquire i limit timeout => exact h.acquire i limit timeout hnow
    | release i => exact h.release i
    | refresh i timeout => exact h.refresh i timeout hnow hpos
    | cleanup => exact h.evict rfl rfl hnow
    | status i => exact h.evict rfl rfl hnow
  | wait time hle =>
    exact ⟨fun i expiry hi hlive => h.held i expiry hi (by simp only at hlive; omega),
      h.covered, fun n hn => h.bounded n hn.2⟩
  | expire =>
    rcases SortedSetKey.expire_cases s.time s.keys.owners with heq | ⟨heq, d, hd, hle⟩
    · simp only [Keys.expire, heq]
      exact ⟨h.held, h.covered, fun n hn => h.bounded n hn.2⟩
    · simp only [Keys.expire, heq]
      refine ⟨fun i expiry hi hlive => ?_, fun d hd => ?_, fun n _ => Nat.zero_le n⟩
      · have hmem := SortedSet.zscore_eq_some.mp (h.held i expiry hi hlive)
        have hcov := h.covered d hd _ hmem
        simp only at hcov hlive
        omega
      · simp at hd

end Preserve

/-- The invariant holds in every run in which the clocks stay within the skew. -/
theorem skewInv_of_run {tr : List (Event ι)} {s : Server ι} (h : (skewedSystem skew).Run tr s) :
    SkewInv skew tr s := by
  refine System.Run.invariant (I := SkewInv skew) ?_ (fun tr s e s' _ ih hs => ih.step hs) h
  intro s hkeys
  refine ⟨?_, ?_, ?_⟩
  · intro i expiry hi
    cases hi
  · intro d hd
    rw [show s.keys = Keys.initial from hkeys] at hd
    cases hd
  · intro n _
    rw [show s.keys = Keys.initial from hkeys]
    exact Nat.zero_le n

/-- **Mutual exclusion with synchronised clients.** In every run of clients whose clocks stay within
`skew` of the server's, a lease with more than a skew left is in the owners set with its expiry; and
if all acquires pass the limit `n`, no more than `n` identifiers have more than two skews left on
the clocks of their holders. -/
theorem synced_holders_le_limit {tr : List (Event ι)} {s : Server ι}
    (h : (skewedSystem skew).Run tr s) :
    (∀ i expiry, latestGrant tr i = some expiry → s.time + skew < expiry →
      s.keys.owners.value.zscore i = some expiry) ∧
    ∀ n, SameLimit n tr → ∀ (clock : ι → ℤ) (S : Finset ι),
      (∀ i ∈ S, Synced skew s.time (clock i) ∧ LiveHolder tr (clock i + 2 * skew) i) →
      S.card ≤ n := by
  have hinv := skewInv_of_run h
  refine ⟨hinv.held, fun n hn clock S hS => ?_⟩
  refine (SortedSet.card_le_zcard S fun i hi => ?_).trans (hinv.bounded n hn)
  obtain ⟨hsynced, expiry, hgrant, hlive⟩ := hS i hi
  have hslow := (abs_le.mp hsynced).1
  exact ⟨expiry, hinv.held i expiry hgrant (by omega)⟩

/-- A client 2 s ahead takes the slot; with two skews left on its clock it is alone. -/
theorem synced_holders_le_limit_ahead :
    ¬ ∃ S : Finset ℕ, (∀ i ∈ S, Synced 2000 60000 62000 ∧
      LiveHolder [.call 60000 (.acquire 7 1 30000)
        (exec (.acquire 7 1 30000) (some 62000) 60000 (Keys.initial : Keys ℕ)).1]
        (62000 + 2 * 2000) i) ∧ 2 ≤ S.card := by
  have hstart : (skewedSystem 2000).Run [] (⟨60000, Keys.initial⟩ : Server ℕ) := .start rfl
  have hrun := hstart.step
    (.call _ (.acquire 7 1 30000) 60000 62000 le_rfl (by decide) (by decide))
  rintro ⟨S, hS, hcard⟩
  have hle := (synced_holders_le_limit hrun).2 1 ⟨?_, trivial⟩ (fun _ => 62000) S hS
  · omega
  · rintro t i limit timeout r ⟨⟩
    rfl

end RedisSemaphore.Semaphore

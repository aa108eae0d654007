import RedisSemaphore.LeaseService
import RedisSemaphore.Semaphore.Leases
import RedisSemaphore.Simulation

/-!
# The scripts implement a lease service

The sorted set with its lazy eviction, the expiry of its key and the repairs in `REFRESH_SCRIPT` are
a way to keep leases that run out by themselves. `Refines` ties a server to the service of
`LeaseService`: every element of the set is the latest lease of its member, and every lease that has
not run out is in the set. What callers see of a run of the scripts is then a run of the service;
evictions, `cleanup` and the expiry of the key do not show.
-/

namespace RedisSemaphore.Semaphore

open Redis Transition

variable {ι : Type*} [LinearOrder ι]

/-! ## What callers see -/

/-- The token and the expiry of a successful acquire. -/
def AcquireReply.answer (reply : AcquireReply) : Option (ℕ × ℤ) :=
  if reply.success then
    match reply.fencingToken, reply.expiresAt with
    | some token, some expiry => some (token, expiry)
    | _, _ => none
  else none

/-- A call and its reply, as the caller understands them. A cleanup asks for nothing, and nobody
sees Redis drop the key. -/
def observe : Event ι → Option (LeaseService.Event ι)
  | .call _ (.acquire i limit timeout) (.acquire reply) =>
    some (.acquire i limit timeout reply.answer reply.usedSlots)
  | .call _ (.release i) (.int n) => some (.release i (decide (n = 1)))
  | .call _ (.refresh i timeout) (.int n) =>
    some (.renew i timeout (if n = 0 then none else some n))
  | .call _ (.status i) (.status reply) => some (.inspect i reply.currentCount reply.expiresAt)
  | .wait time => some (.wait time)
  | _ => none

/-! ## The relation -/

/-- The server keeps the leases of the service. -/
structure Refines (s : Server ι) (t : LeaseService.State ι) : Prop where
  time : t.time = s.time
  positive : 0 < s.time
  issued : t.issued = s.keys.fencing
  leased : ∀ i expiry, s.keys.owners.value.zscore i = some expiry → t.lease i = some expiry
  held : ∀ i expiry, t.lease i = some expiry → s.time < expiry →
    s.keys.owners.value.zscore i = some expiry
  covered : Covered s.keys.owners
  bounded : s.keys.owners.value.zcard ≤ t.cap

/-- The members of a sorted set are as many as its elements. -/
theorem encard_members (z : SortedSet ι) : {m | ∃ s, z.zscore m = some s}.encard = z.zcard := by
  have hset : {m | ∃ s, z.zscore m = some s} =
      ((z.entries.map Scored.member).toFinset : Set ι) := by
    ext m
    simp only [Set.mem_ofPred_eq, SortedSet.zscore_eq_some, List.coe_toFinset, List.mem_map]
    constructor
    · rintro ⟨s, hs⟩
      exact ⟨_, hs, rfl⟩
    · rintro ⟨e, he, rfl⟩
      exact ⟨e.score, he⟩
  rw [hset, Set.encard_coe_eq_coe_finsetCard, List.toFinset_card_of_nodup z.nodup, List.length_map]
  rfl

section Relation

variable {s : Server ι} {t : LeaseService.State ι} {i : ι}

/-- The leases that have not run out are what an eviction leaves. -/
theorem Refines.lease_iff (h : Refines s t) {expiry : ℤ} :
    (t.lease i = some expiry ∧ t.time < expiry) ↔
      (evictExpired s.time s.keys.owners).value.zscore i = some expiry := by
  rw [zscore_evictExpired, h.time]
  constructor
  · rintro ⟨hlease, hlive⟩
    exact ⟨h.held i expiry hlease hlive, hlive⟩
  · rintro ⟨hscore, hlive⟩
    exact ⟨h.leased i expiry hscore, hlive⟩

/-- The service has a live lease for just those slots that an eviction would leave. -/
theorem Refines.live_iff (h : Refines s t) :
    t.Live i ↔ ∃ score, (evictExpired s.time s.keys.owners).value.zscore i = some score :=
  exists_congr fun _ => h.lease_iff

/-- The count after an eviction is the number of holders. -/
theorem Refines.occupancy (h : Refines s t) :
    t.occupancy = (evictExpired s.time s.keys.owners).value.zcard := by
  rw [← encard_members]
  exact congrArg Set.encard (Set.ext fun i => h.live_iff)

/-- A slot that has expired, or is not there, has no live lease. -/
theorem Refines.not_live (h : Refines s t)
    (hscore : ∀ score, s.keys.owners.value.zscore i = some score → score ≤ s.time) :
    ¬ t.Live i := by
  rintro ⟨expiry, hlease, hlive⟩
  rw [h.time] at hlive
  have := hscore expiry (h.held i expiry hlease hlive)
  omega

/-- An element whose score is the present moment still takes a slot. -/
theorem Refines.occupancy_lt (h : Refines s t)
    (hscore : s.keys.owners.value.zscore i = some s.time) : t.occupancy < t.cap := by
  have hnot : ¬ t.Live i := h.not_live fun score hs => by
    rw [hscore, Option.some.injEq] at hs
    exact hs.ge
  have hsubset : insert i t.holders ⊆ {m | ∃ score, s.keys.owners.value.zscore m = some score} := by
    rintro j (rfl | ⟨expiry, hlease, hlive⟩)
    · exact ⟨_, hscore⟩
    · exact ⟨expiry, h.held j expiry hlease (h.time ▸ hlive)⟩
  have hcard : t.occupancy + 1 ≤ s.keys.owners.value.zcard := by
    have hle := Set.encard_le_encard hsubset
    rwa [Set.encard_insert_of_notMem (by exact hnot), encard_members] at hle
  have hfinite : t.occupancy ≠ ⊤ := by
    rw [h.occupancy]
    exact ENat.natCast_ne_top _
  calc t.occupancy < t.occupancy + 1 := (ENat.lt_add_one_iff hfinite).mpr le_rfl
    _ ≤ s.keys.owners.value.zcard := hcard
    _ ≤ t.cap := by exact_mod_cast h.bounded

/-! ## One script at a time -/

/-- Writing a grant keeps the relation, over any part of the set that has the leases. -/
theorem Refines.grant (h : Refines s t) (t' : LeaseService.State ι) (timeout : ℕ)
    {owners : SortedSetKey ι} {n : ℕ} (htime : t'.time = t.time) (hlease : t'.lease = t.lease)
    (hissued : t'.issued = n)
    (hleased : ∀ j score, owners.value.zscore j = some score →
      s.keys.owners.value.zscore j = some score)
    (hheld : ∀ j score, s.keys.owners.value.zscore j = some score → s.time < score →
      owners.value.zscore j = some score)
    (hcard : (grantSlot s.time timeout i owners).value.zcard ≤ t'.cap) :
    Refines ⟨s.time, ⟨grantSlot s.time timeout i owners, n⟩⟩
      (t'.grant i (s.time + timeout)) where
  time := htime.trans h.time
  positive := h.positive
  issued := hissued
  leased j score hscore := by
    rcases mem_of_mem_grantSlot (SortedSet.zscore_eq_some.mp hscore) with heq | ⟨hmem, hne⟩
    · obtain ⟨rfl, rfl⟩ := Scored.mk.inj heq
      exact Function.update_self _ _ _
    · simp only [LeaseService.State.grant, Function.update_of_ne hne, hlease]
      exact h.leased j score (hleased j score (SortedSet.zscore_eq_some.mpr hmem))
  held j score hj hlive := by
    simp only [LeaseService.State.grant] at hj
    by_cases hij : j = i
    · subst hij
      rw [Function.update_self, Option.some.injEq] at hj
      subst hj
      exact zscore_grantSlot_self hlive
    · rw [Function.update_of_ne hij, hlease] at hj
      exact zscore_grantSlot_ne hij (hheld j score (h.held j score hj hlive) hlive) hlive
  covered := covered_grantSlot
  bounded := hcard

/-- Removing one member, or finding it gone, ends its lease. -/
theorem Refines.drop (h : Refines s t) {keys : Keys ι}
    (hkeys : keys = { s.keys with owners := s.keys.owners.update fun z => z.zrem i }) :
    Refines { s with keys := keys } (t.drop i) where
  time := h.time
  positive := h.positive
  issued := by rw [hkeys]; exact h.issued
  leased j score hscore := by
    rw [hkeys] at hscore
    have hij : j ≠ i := by
      rintro rfl
      simp at hscore
    simp only [LeaseService.State.drop, Function.update_of_ne hij]
    exact h.leased j score ((SortedSet.zscore_zrem_ne hij).symm.trans hscore)
  held j score hlease hlive := by
    rw [hkeys]
    by_cases hij : j = i
    · subst hij
      simp [LeaseService.State.drop] at hlease
    · simp only [LeaseService.State.drop, Function.update_of_ne hij] at hlease
      exact (SortedSet.zscore_zrem_ne hij).trans (h.held j score hlease hlive)
  covered := by rw [hkeys]; exact h.covered.zrem
  bounded := by rw [hkeys]; exact (SortedSet.zcard_keep_le _).trans h.bounded

/-- Evicting what has expired changes no live lease. -/
theorem Refines.evict (h : Refines s t) :
    Refines { s with keys := { s.keys with owners := evictExpired s.time s.keys.owners } } t where
  time := h.time
  positive := h.positive
  issued := h.issued
  leased j score hscore := h.leased j score (zscore_evictExpired.mp hscore).1
  held j score hlease hlive :=
    zscore_evictExpired.mpr ⟨h.held j score hlease hlive, hlive⟩
  covered := h.covered.evictExpired
  bounded := zcard_evictExpired_le.trans h.bounded

/-- A wider bound. -/
theorem Refines.ask (h : Refines s t) (limit : ℕ) : Refines s (t.ask limit) :=
  ⟨h.time, h.positive, h.issued, h.leased, h.held, h.covered, h.bounded.trans (le_max_left _ _)⟩

/-! ## One step -/

/-- The occupancy an acquire reports. -/
theorem usedSlots_acquireScript (i : ι) (limit timeout : ℕ) (time : ℤ) (keys : Keys ι) :
    (acquireScript i limit timeout none time keys).1.usedSlots =
      match (evictExpired time keys.owners).value.zscore i with
      | some _ => (evictExpired time keys.owners).value.zcard
      | none =>
        if (evictExpired time keys.owners).value.zcard < limit
        then (evictExpired time keys.owners).value.zcard + 1
        else (evictExpired time keys.owners).value.zcard := by
  cases hscore : (evictExpired time keys.owners).value.zscore i with
  | some score => simp only [acquireScript, resolveNow, Option.getD_none, hscore]
  | none =>
    by_cases hlt : (evictExpired time keys.owners).value.zcard < limit
    · simp only [acquireScript, resolveNow, Option.getD_none, hscore]
      rw [if_pos hlt]
      exact congrArg (fun r : AcquireReply × Keys ι => r.1.usedSlots) (if_pos hlt)
    · simp only [acquireScript, resolveNow, Option.getD_none, hscore]
      rw [if_neg hlt]
      exact congrArg (fun r : AcquireReply × Keys ι => r.1.usedSlots) (if_neg hlt)

/-- An acquire is one of the service, or is not seen by it. -/
theorem Refines.acquire (h : Refines s t) (i : ι) (limit timeout : ℕ) :
    ∃ t', LeaseService.service.Path t
        (observe (.call s.time (.acquire i limit timeout)
          (exec (.acquire i limit timeout) none s.time s.keys).1)).toList t' ∧
      Refines { s with keys := (exec (.acquire i limit timeout) none s.time s.keys).2 } t' := by
  have hused := usedSlots_acquireScript i limit timeout s.time s.keys
  rcases acquire_cases i limit timeout s.time s.keys with ⟨used, heq, hwhy⟩ | ⟨heq, hnone, hfull⟩
  · have hroom : t.Live i ∨ t.occupancy < limit := by
      rw [h.live_iff, h.occupancy]
      exact hwhy.imp_right fun hnew => by exact_mod_cast hnew.2
    have hcount : (used : ℕ∞) = (insert i t.holders).encard := by
      rw [heq] at hused
      simp only at hused
      rcases hwhy with ⟨score, hscore⟩ | ⟨hnone, hlt⟩
      · have hmem : i ∈ t.holders := h.live_iff.mpr ⟨score, hscore⟩
        rw [hscore] at hused
        rw [hused, Set.insert_eq_of_mem hmem]
        exact h.occupancy.symm
      · have hnot : i ∉ t.holders := fun hlive => by
          obtain ⟨score, hscore⟩ := h.live_iff.mp hlive
          rw [hnone] at hscore
          cases hscore
        rw [hnone] at hused
        simp only [if_pos hlt] at hused
        rw [hused, Set.encard_insert_of_notMem hnot, Nat.cast_add, Nat.cast_one, ← h.occupancy]
        rfl
    have hcard : (grantSlot s.time timeout i (evictExpired s.time s.keys.owners)).value.zcard ≤
        (t.ask limit).issue.cap := by
      rcases hwhy with ⟨score, hscore⟩ | ⟨hnone, hlt⟩
      · exact (zcard_grantSlot_of_owner hscore).trans
          (zcard_evictExpired_le.trans (h.ask limit).bounded)
      · exact (zcard_grantSlot_of_new s.time timeout hnone).trans
          (hlt.trans_le (le_max_right _ _))
    have hissued : (t.ask limit).issue.issued = s.keys.fencing + 1 := congrArg (· + 1) h.issued
    have hgrant := h.grant (i := i) (t.ask limit).issue timeout rfl rfl hissued
      (fun j score hj => (zscore_evictExpired.mp hj).1)
      (fun j score hj hlive => zscore_evictExpired.mpr ⟨hj, hlive⟩) hcard
    have hstep := LeaseService.Step.granted t i limit timeout used hroom hcount
    rw [h.time, h.issued] at hstep
    simp only [exec, heq, observe, AcquireReply.answer]
    exact ⟨_, .single hstep, hgrant⟩
  · simp only [exec, heq, observe, AcquireReply.answer]
    refine ⟨t.ask limit, .single (.refused t i limit timeout _ ?_ ?_ h.occupancy.symm), ?_⟩
    · rw [h.live_iff, hnone]
      rintro ⟨score, hscore⟩
      cases hscore
    · rw [h.occupancy]
      exact_mod_cast hfull
    · exact h.evict.ask limit

/-- So is a release. -/
theorem Refines.release (h : Refines s t) (i : ι) :
    ∃ t', LeaseService.service.Path t
        (observe (.call s.time (.release i) (exec (.release i) none s.time s.keys).1)).toList t' ∧
      Refines { s with keys := (exec (.release i) none s.time s.keys).2 } t' := by
  simp only [exec, releaseScript]
  cases hscore : s.keys.owners.value.zscore i with
  | none =>
    refine ⟨t.drop i, .single (.released t i _ (fun hlive => ?_) (by simp)), h.drop ?_⟩
    · obtain ⟨expiry, hlease, hlive⟩ := hlive
      rw [h.held i expiry hlease (h.time ▸ hlive)] at hscore
      cases hscore
    · rw [SortedSetKey.update, SortedSet.zrem_of_zscore_eq_none hscore]
      simp
  | some score =>
    refine ⟨t.drop i, .single (.released t i _ (fun _ => rfl) (fun _ => ?_)), h.drop rfl⟩
    rw [h.leased i score hscore]
    simp

/-- So is a refresh. -/
theorem Refines.refresh (h : Refines s t) (i : ι) (timeout : ℕ) :
    ∃ t', LeaseService.service.Path t
        (observe (.call s.time (.refresh i timeout)
          (exec (.refresh i timeout) none s.time s.keys).1)).toList t' ∧
      Refines { s with keys := (exec (.refresh i timeout) none s.time s.keys).2 } t' := by
  simp only [exec]
  rcases refresh_cases i timeout s.time s.keys with
    ⟨heq, score, hscore, hle⟩ | ⟨hzero, hkeys⟩
  · have hwhy : t.Live i ∨ t.lease i = some t.time ∧ t.occupancy < t.cap := by
      rcases hle.eq_or_lt with rfl | hlt
      · exact Or.inr ⟨h.time ▸ h.leased i _ hscore, h.occupancy_lt hscore⟩
      · exact Or.inl ⟨score, h.leased i score hscore, h.time ▸ hlt⟩
    have hgrant := h.grant (i := i) t timeout rfl rfl h.issued
      (fun _ _ hj => hj) (fun _ _ hj _ => hj) ((zcard_grantSlot_of_owner hscore).trans h.bounded)
    have hstep := LeaseService.Step.renewed t i timeout hwhy
    rw [h.time] at hstep
    have hne : s.time + (timeout : ℤ) ≠ 0 := by have := h.positive; omega
    rw [heq]
    simp only [observe, if_neg hne]
    exact ⟨_, .single hstep, hgrant⟩
  · rw [hzero]
    rcases hkeys with ⟨hkeys, hnone⟩ | ⟨hkeys, score, hscore, hlt⟩
    · refine ⟨t.drop i, .single (.lost t i timeout (h.not_live ?_)), h.drop ?_⟩
      · intro score hs
        rw [hnone] at hs
        cases hs
      · rw [hkeys, SortedSetKey.update, SortedSet.zrem_of_zscore_eq_none hnone]
        simp
    · refine ⟨t.drop i, .single (.lost t i timeout (h.not_live ?_)), h.drop hkeys⟩
      intro score' hs
      rw [hscore, Option.some.injEq] at hs
      omega

/-- Reading the status is an observation of the service. -/
theorem Refines.status (h : Refines s t) (i : Option ι) :
    LeaseService.service.Path t
        (observe (.call s.time (.status i) (exec (.status i) none s.time s.keys).1)).toList t := by
  refine .single (.inspected t i _ _ ?_ ?_)
  · exact h.occupancy.symm
  · intro expiry
    simp only [resolveNow, Option.getD_none, Option.bind_eq_some_iff]
    exact exists_congr fun j => and_congr_right fun _ => h.lease_iff.symm

/-- **One step.** The service follows every script, the clock and the expiry of the key. -/
theorem Refines.step {e : Event ι} {s' : Server ι} (h : Refines s t) (hs : Step s e s') :
    ∃ t', LeaseService.service.Path t (observe e).toList t' ∧ Refines s' t' := by
  cases hs with
  | call c =>
    cases c with
    | acquire i limit timeout => exact h.acquire i limit timeout
    | release i => exact h.release i
    | refresh i timeout => exact h.refresh i timeout
    | cleanup => exact ⟨t, .refl, h.evict⟩
    | status i => exact ⟨t, h.status i, h.evict⟩
  | wait time hle =>
    refine ⟨t.advance time, .single (.waited t time (h.time ▸ hle)), rfl, ?_, h.issued, h.leased,
      ?_, h.covered, h.bounded⟩
    · exact h.positive.trans_le hle
    · exact fun i expiry hlease hlive => h.held i expiry hlease (lt_of_le_of_lt hle hlive)
  | expire =>
    refine ⟨t, .refl, ?_⟩
    rcases SortedSetKey.expire_cases s.time s.keys.owners with heq | ⟨heq, d, hd, hle⟩
    · simp only [Keys.expire, heq]
      exact h
    · simp only [Keys.expire, heq]
      refine ⟨h.time, h.positive, h.issued, ?_, ?_, ?_, Nat.zero_le _⟩
      · intro i expiry hscore
        simp at hscore
      · intro i expiry hlease hlive
        -- a lease that has not run out would score above a deadline that covers it
        have hmem := SortedSet.zscore_eq_some.mp (h.held i expiry hlease hlive)
        have hcov := h.covered d hd _ hmem
        simp only at hcov hlive
        omega
      · intro d hd
        simp at hd

end Relation

/-- The scripts are simulated by the service. -/
theorem simulation :
    System.Simulation (system (ι := ι)) LeaseService.service observe (fun _ _ => True) Refines where
  start s := by
    rintro ⟨hpos, hkeys⟩
    refine ⟨.initial s.time, ⟨s.time, rfl⟩, rfl, hpos, ?_, ?_, ?_, ?_, ?_⟩
    · rw [hkeys]
      rfl
    · intro i expiry hscore
      rw [hkeys] at hscore
      cases hscore
    · intro i expiry hlease
      cases hlease
    · intro d hd
      rw [hkeys] at hd
      cases hd
    · rw [hkeys]
      exact Nat.zero_le _
  step _ _ _ _ _ _ _ hrel _ hstep := hrel.step hstep

/-- Callers need not promise anything. -/
theorem run_refines {tr : List (Event ι)} {s : Server ι} (h : system.Run tr s) :
    ∃ t, LeaseService.service.Run (tr.filterMap observe) t ∧ Refines s t :=
  simulation.run h (guarded_of_forall fun _ _ => trivial)

/-! ## Runs -/

/-- **Refinement.** What callers see of a run of the scripts, with any limits and timeouts, is a run
of the lease service; at its end the leases of the service are those the server keeps, and they take
no more slots than the widest limit. -/
theorem refines_leaseService {tr : List (Event ι)} {s : Server ι} (h : system.Run tr s) :
    ∃ t, LeaseService.service.Run (tr.filterMap observe) t ∧ t.issued = s.keys.fencing ∧
      (∀ i expiry, s.time < expiry →
        (t.lease i = some expiry ↔ s.keys.owners.value.zscore i = some expiry)) ∧
      t.occupancy ≤ t.cap := by
  obtain ⟨t, hrun, hrel⟩ := run_refines h
  refine ⟨t, hrun, hrel.issued, fun i expiry hlive => ?_, LeaseService.occupancy_le_cap hrun⟩
  exact ⟨fun hlease => hrel.held i expiry hlease hlive, hrel.leased i expiry⟩

/-- A slot is granted and renewed, and the key expires. -/
theorem refines_leaseService_renewed :
    ∃ t : LeaseService.State ℕ,
      LeaseService.service.Run
        [.wait 40, .renew 7 10 (some 15), .wait 5, .acquire 7 1 10 (some (1, 11)) 1] t ∧
      t.issued = 1 ∧ t.occupancy ≤ t.cap := by
  have hstart : system.Run [] (⟨1, Keys.initial⟩ : Server ℕ) := .start ⟨by decide, rfl⟩
  have hgranted := hstart.step (.call _ (.acquire 7 1 10))
  have hrenewed := (hgranted.step (.wait _ 5 (by decide))).step (.call _ (.refresh 7 10))
  obtain ⟨t, hrun, hissued, -, hcap⟩ :=
    refines_leaseService ((hrenewed.step (.wait _ 40 (by decide))).step (.expire _))
  exact ⟨t, hrun, hissued, hcap⟩

/-- **What is over stays over.** A refresh that renews a slot is preceded by a successful acquire of
the identifier, after which it has neither been released nor been refreshed in vain. -/
theorem refresh_not_revived {tr : List (Event ι)} {s : Server ι} {time : ℤ} {i : ι} {timeout : ℕ}
    {expiry : ℤ} (h : system.Run (.call time (.refresh i timeout) (.int expiry) :: tr) s)
    (hrenewed : expiry ≠ 0) : LeaseService.Told i (tr.filterMap observe) := by
  obtain ⟨t, hrun, -⟩ := run_refines h
  rw [List.filterMap_cons] at hrun
  simp only [observe, if_neg hrenewed] at hrun
  exact LeaseService.told_of_renewed hrun

/-- A lease that is still held can be renewed. -/
theorem refresh_not_revived_held :
    LeaseService.Told 7 [.wait 5, .acquire (7 : ℕ) 1 10 (some (1, 11)) 1] := by
  have hstart : system.Run [] (⟨1, Keys.initial⟩ : Server ℕ) := .start ⟨by decide, rfl⟩
  have hgranted := hstart.step (.call _ (.acquire 7 1 10))
  have hwaited := hgranted.step (.wait _ 5 (by decide))
  have hrenewed : system.Run (.call 5 (.refresh 7 10) (.int 15) :: _) _ :=
    hwaited.step (.call _ (.refresh 7 10))
  exact refresh_not_revived hrenewed (by decide)

end RedisSemaphore.Semaphore

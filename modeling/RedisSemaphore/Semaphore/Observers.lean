import RedisSemaphore.TwoRuns
import RedisSemaphore.Semaphore.Leases

/-!
# Observers

A status, a cleanup and a refused acquire only evict what has expired. `Alike` relates two owners
sets that differ in expired elements: acquire and status evict before they look, so they answer the
same on both, and refresh does wherever the slot it asks about does not expire at this very
millisecond.
-/

namespace RedisSemaphore.Semaphore

open Redis Transition

variable {ι : Type*} [LinearOrder ι]

/-! ## Owners sets that differ in expired elements -/

/-- The same elements after `t`. -/
def Alike (t : ℤ) (a b : SortedSetKey ι) : Prop :=
  ∀ e : Scored ι, t < e.score → (e ∈ a.value.entries ↔ e ∈ b.value.entries)

section Alike

variable {t t' : ℤ} {a b c : SortedSetKey ι} {i : ι} {timeout : ℕ}

/-- A set looks like itself. -/
theorem Alike.refl (a : SortedSetKey ι) : Alike t a a := fun _ _ => Iff.rfl

/-- Which of the two is first does not matter. -/
theorem Alike.symm (h : Alike t a b) : Alike t b a := fun e he => (h e he).symm

/-- Two sets that look like a third look alike. -/
theorem Alike.trans (h : Alike t a b) (h' : Alike t b c) : Alike t a c :=
  fun e he => (h e he).trans (h' e he)

/-- Later there is less to look at. -/
theorem Alike.mono (h : Alike t a b) (hle : t ≤ t') : Alike t' a b :=
  fun e he => h e (lt_of_le_of_lt hle he)

/-- Equal values look alike, whatever their deadlines. -/
theorem alike_of_value_eq (h : a.value = b.value) : Alike t a b := fun e _ => by rw [h]

/-- Eviction takes away expired elements only. -/
theorem alike_evictExpired (a : SortedSetKey ι) : Alike t (evictExpired t a) a := by
  intro e he
  rw [mem_evictExpired]
  exact and_iff_left he

/-- After an eviction nothing is left to tell the two apart. -/
theorem Alike.evictExpired (h : Alike t a b) :
    (evictExpired t a).value = (evictExpired t b).value := by
  apply SortedSet.ext_mem
  intro e
  rw [mem_evictExpired, mem_evictExpired]
  constructor
  · rintro ⟨hmem, hlive⟩
    exact ⟨(h e hlive).mp hmem, hlive⟩
  · rintro ⟨hmem, hlive⟩
    exact ⟨(h e hlive).mpr hmem, hlive⟩

/-- A slot that has not expired has the same expiry in both. -/
theorem Alike.zscore {x : ℤ} (h : Alike t a b) (hx : t < x) :
    a.value.zscore i = some x ↔ b.value.zscore i = some x := by
  rw [SortedSet.zscore_eq_some, SortedSet.zscore_eq_some]
  exact h ⟨i, x⟩ hx

/-- The same removal from both. -/
theorem Alike.zrem (h : Alike t a b) :
    Alike t (a.update fun z => z.zrem i) (b.update fun z => z.zrem i) := by
  intro e he
  simp only [SortedSetKey.value_update, SortedSet.mem_zrem, h e he]

/-- Removing an expired element. -/
theorem alike_zrem {x : ℤ} (hx : a.value.zscore i = some x) (hle : x ≤ t) :
    Alike t (a.update fun z => z.zrem i) a := by
  intro e he
  simp only [SortedSetKey.value_update, SortedSet.mem_zrem, and_iff_left_iff_imp]
  rintro hmem rfl
  have heq := SortedSet.zscore_of_mem hmem
  rw [hx, Option.some.injEq] at heq
  omega

/-- A grant writes the same on both. -/
theorem Alike.grantSlot (h : Alike t a b) :
    Alike t (grantSlot t timeout i a) (grantSlot t timeout i b) := by
  have hgrant : ∀ c : SortedSetKey ι, Alike t (Semaphore.grantSlot t timeout i c)
      (c.update fun z => z.zadd (t + timeout) i) := by
    intro c e he
    exact ⟨mem_of_mem_bumpOwnersTtl, fun hmem => mem_bumpOwnersTtl hmem (by omega)⟩
  refine (hgrant a).trans (Alike.trans ?_ (hgrant b).symm)
  intro e he
  simp only [SortedSetKey.value_update, SortedSet.mem_zadd, h e he]

/-- Redis drops a key whose elements have all expired. -/
theorem alike_expire (hcovered : Covered a) (hle : t' ≤ t) : Alike t (a.expire t') a := by
  intro e he
  rcases SortedSetKey.expire_cases t' a with heq | ⟨heq, d, hd, hdle⟩
  · rw [heq]
  · rw [heq]
    refine iff_of_false (by simp) fun hmem => ?_
    have hcov := hcovered d hd e hmem
    omega

end Alike

/-! ## Elements are latest grants -/

/-- Whatever is in the owners set is the latest grant to its member. -/
def Leased (tr : List (Event ι)) (owners : SortedSetKey ι) : Prop :=
  ∀ i x, owners.value.zscore i = some x → latestGrant tr i = some x

section Leased

variable {tr : List (Event ι)} {owners owners' : SortedSetKey ι}

/-- A removal leaves what was granted. -/
theorem Leased.sub (h : Leased tr owners)
    (hsub : ∀ e ∈ owners'.value.entries, e ∈ owners.value.entries) : Leased tr owners' := by
  intro i x hx
  rw [SortedSet.zscore_eq_some] at hx
  exact h i x (SortedSet.zscore_eq_some.mpr (hsub _ hx))

/-- A grant is the latest one to its member, and the others keep theirs. -/
theorem Leased.grantSlot (h : Leased tr owners) {c : Call ι} {r : Reply} {t : ℤ} {i : ι}
    {timeout : ℕ} (hgrant : grantOf c r = some (i, t + timeout)) :
    Leased (.call t c r :: tr) (grantSlot t timeout i owners) := by
  intro j x hx
  rw [SortedSet.zscore_eq_some] at hx
  simp only [latestGrant, hgrant]
  rcases mem_of_mem_grantSlot hx with heq | ⟨hmem, hne⟩
  · obtain ⟨rfl, rfl⟩ := Scored.mk.inj heq
    exact if_pos rfl
  · rw [if_neg hne]
    exact h j x (SortedSet.zscore_eq_some.mpr hmem)

/-- A call that neither grants nor releases leaves the latest grants as they were. -/
theorem Leased.quiet (h : Leased tr owners) {c : Call ι} {r : Reply} {t : ℤ}
    (hgrant : grantOf c r = none) (hrel : releasedBy c r = none) :
    Leased (.call t c r :: tr) owners := by
  intro i x hx
  rw [latestGrant_of_quiet tr t hgrant hrel]
  exact h i x hx

end Leased

/-! ## One call on both -/

/-- The calls whose answers an owner or an observer reads: success, token, expiry, occupancy. -/
def Call.Asks : Call ι → Prop
  | .acquire _ _ _ => True
  | .refresh _ _ => True
  | .status _ => True
  | .release _ => False
  | .cleanup => False

/-- A release leaves the set without the member, whether it was there or not. -/
theorem keys_releaseScript (i : ι) (keys : Keys ι) :
    (releaseScript i keys).2.owners.value = keys.owners.value.zrem i ∧
      (releaseScript i keys).2.fencing = keys.fencing := by
  rw [releaseScript]
  split
  · exact ⟨rfl, rfl⟩
  · rename_i hnone
    exact ⟨(SortedSet.zrem_of_zscore_eq_none hnone).symm, rfl⟩

/-- A refresh takes no fencing token. -/
theorem fencing_refreshScript (i : ι) (timeout : ℕ) (t : ℤ) (keys : Keys ι) :
    (refreshScript i timeout none t keys).2.fencing = keys.fencing := by
  rw [refreshScript]
  split
  · rfl
  · split <;> rfl

/-- The elements that a call leaves are still latest grants. Only the answer of an acquire or a
refresh matters for that. -/
theorem Leased.exec {tr : List (Event ι)} {keys : Keys ι} {t : ℤ} (h : Leased tr keys.owners)
    (hpos : 0 < t) (c : Call ι) {r : Reply} (hr : c.Asks → r = (exec c none t keys).1) :
    Leased (.call t c r :: tr) (exec c none t keys).2.owners := by
  have hevict : Leased tr (evictExpired t keys.owners) :=
    h.sub fun e he => (mem_evictExpired.mp he).1
  cases c with
  | acquire i limit timeout =>
    have hr := hr trivial
    subst hr
    rcases acquire_cases i limit timeout t keys with ⟨used, heq, -⟩ | ⟨heq, -, -⟩
    · simp only [Semaphore.exec, heq]
      exact hevict.grantSlot (by simp [grantOf])
    · simp only [Semaphore.exec, heq]
      exact hevict.quiet (by simp [grantOf]) rfl
  | release i =>
    intro j x hx
    have hx' : (keys.owners.value.zrem i).zscore j = some x := by
      rw [← (keys_releaseScript i keys).1]
      exact hx
    rw [SortedSet.zscore_eq_some, SortedSet.mem_zrem] at hx'
    obtain ⟨hmem, hji⟩ := hx'
    have hquiet : latestGrant (.call t (.release i) r :: tr) j = latestGrant tr j := by
      have hgrant : grantOf (.release i) r = none := rfl
      simp only [latestGrant, hgrant]
      refine if_neg fun hrel => hji ?_
      cases r with
      | int n =>
        simp only [releasedBy] at hrel
        split at hrel
        · exact (Option.some.inj hrel).symm
        · cases hrel
      | acquire reply => cases hrel
      | status reply => cases hrel
    rw [hquiet]
    exact h j x (SortedSet.zscore_eq_some.mpr hmem)
  | refresh i timeout =>
    have hr := hr trivial
    subst hr
    simp only [Semaphore.exec]
    rcases refresh_cases i timeout t keys with ⟨heq, -, -⟩ | ⟨hzero, hkeys⟩
    · rw [heq]
      have hne : t + (timeout : ℤ) ≠ 0 := by omega
      exact h.grantSlot (by simp [grantOf, hne])
    · rw [hzero]
      refine Leased.quiet ?_ (by simp [grantOf]) rfl
      rcases hkeys with ⟨hkeys, -⟩ | ⟨hkeys, -⟩
      · rw [hkeys]
        exact h
      · rw [hkeys]
        exact h.sub fun e he => (SortedSet.mem_zrem.mp he).1
  | cleanup => exact hevict.quiet rfl rfl
  | status i =>
    have hr := hr trivial
    subst hr
    exact hevict.quiet rfl rfl

/-- The calls of an observer: what they leave is what an eviction leaves. -/
def Observer : Call ι → Reply → Prop
  | .status _, _ => True
  | .cleanup, _ => True
  | .acquire _ _ _, .acquire reply => reply.success = false
  | _, _ => False

/-- All that an observer does is to evict what has expired, which the next call would do as well.
-/
theorem exec_observer {c : Call ι} {t : ℤ} {keys : Keys ι}
    (h : Observer c (exec c none t keys).1) :
    (exec c none t keys).2 = { keys with owners := evictExpired t keys.owners } := by
  cases c with
  | acquire i limit timeout =>
    rcases acquire_cases i limit timeout t keys with ⟨used, heq, -⟩ | ⟨heq, -, -⟩
    · simp [exec, heq, Observer] at h
    · simp only [exec, heq]
  | release i => exact h.elim
  | refresh i timeout => exact h.elim
  | cleanup => rfl
  | status i => rfl

section Both

variable {t : ℤ} {a b : Keys ι}

/-- An acquire tells no difference: it evicts first, and what it then counts is alike. -/
theorem acquire_alike (h : Alike t a.owners b.owners) (hfencing : a.fencing = b.fencing) (i : ι)
    (limit timeout : ℕ) :
    (acquireScript i limit timeout none t a).1 = (acquireScript i limit timeout none t b).1 ∧
      Alike t (acquireScript i limit timeout none t a).2.owners
        (acquireScript i limit timeout none t b).2.owners ∧
      (acquireScript i limit timeout none t a).2.fencing
        = (acquireScript i limit timeout none t b).2.fencing := by
  have hv := h.evictExpired
  have halike : Alike t (evictExpired t a.owners) (evictExpired t b.owners) := alike_of_value_eq hv
  simp only [acquireScript, resolveNow, Option.getD_none, hv, hfencing]
  cases hs : (evictExpired t b.owners).value.zscore i with
  | some score => exact ⟨rfl, halike.grantSlot, rfl⟩
  | none =>
    by_cases hlt : (evictExpired t b.owners).value.zcard < limit
    · simp only [hlt, if_true, true_and, and_true]
      exact halike.grantSlot
    · simp only [hlt, if_false, true_and, and_true]
      exact halike

/-- A refresh answers the same unless the slot expires at this millisecond. -/
theorem refresh_alike (h : Alike t a.owners b.owners) (i : ι) (timeout : ℕ)
    (ha : a.owners.value.zscore i ≠ some t) (hb : b.owners.value.zscore i ≠ some t) :
    (refreshScript i timeout none t a).1 = (refreshScript i timeout none t b).1 ∧
      Alike t (refreshScript i timeout none t a).2.owners
        (refreshScript i timeout none t b).2.owners := by
  -- a refresh that is answered `0` removes at most an expired element
  have hgone : ∀ c : Keys ι,
      ((refreshScript i timeout none t c).2 = c ∧ c.owners.value.zscore i = none ∨
        (refreshScript i timeout none t c).2 =
            { c with owners := c.owners.update fun z => z.zrem i } ∧
          ∃ x, c.owners.value.zscore i = some x ∧ x < t) →
      Alike t (refreshScript i timeout none t c).2.owners c.owners ∧
        ∀ x, c.owners.value.zscore i = some x → x < t := by
    rintro c (⟨hc, hnone⟩ | ⟨hc, x, hx, hlt⟩)
    · rw [hc]
      exact ⟨Alike.refl _, fun x hx => by rw [hnone] at hx; cases hx⟩
    · rw [hc]
      refine ⟨alike_zrem hx hlt.le, fun y hy => ?_⟩
      rw [hx, Option.some.injEq] at hy
      omega
  have hlater : ∀ {c : Keys ι} {x : ℤ}, c.owners.value.zscore i ≠ some t →
      c.owners.value.zscore i = some x → t ≤ x → t < x := by
    intro c x hc hx hle
    refine lt_of_le_of_ne hle ?_
    rintro rfl
    exact hc hx
  rcases refresh_cases i timeout t a with ⟨heqa, x, hx, hxle⟩ | ⟨hzeroa, hkeysa⟩
  · rcases refresh_cases i timeout t b with ⟨heqb, -, -, -⟩ | ⟨-, hkeysb⟩
    · rw [heqa, heqb]
      exact ⟨rfl, h.grantSlot⟩
    · have hlt := hlater ha hx hxle
      have := (hgone b hkeysb).2 x ((h.zscore hlt).mp hx)
      omega
  · rcases refresh_cases i timeout t b with ⟨-, x, hx, hxle⟩ | ⟨hzerob, hkeysb⟩
    · have hlt := hlater hb hx hxle
      have := (hgone a hkeysa).2 x ((h.zscore hlt).mpr hx)
      omega
    · rw [hzeroa, hzerob]
      exact ⟨rfl, (hgone a hkeysa).1.trans (h.trans (hgone b hkeysb).1.symm)⟩

/-- Every call leaves the two alike, and answers the same where somebody reads the answer. -/
theorem exec_alike (h : Alike t a.owners b.owners) (hfencing : a.fencing = b.fencing) (c : Call ι)
    (hc : ∀ i timeout, c = .refresh i timeout →
      a.owners.value.zscore i ≠ some t ∧ b.owners.value.zscore i ≠ some t) :
    (c.Asks → (exec c none t a).1 = (exec c none t b).1) ∧
      Alike t (exec c none t a).2.owners (exec c none t b).2.owners ∧
      (exec c none t a).2.fencing = (exec c none t b).2.fencing := by
  have hevict : Alike t (evictExpired t a.owners) (evictExpired t b.owners) :=
    alike_of_value_eq h.evictExpired
  cases c with
  | acquire i limit timeout =>
    obtain ⟨hreply, howners, hfencing'⟩ := acquire_alike h hfencing i limit timeout
    exact ⟨fun _ => congrArg Reply.acquire hreply, howners, hfencing'⟩
  | release i =>
    obtain ⟨ha, hfencinga⟩ := keys_releaseScript i a
    obtain ⟨hb, hfencingb⟩ := keys_releaseScript i b
    refine ⟨False.elim, ?_, hfencinga.trans (hfencing.trans hfencingb.symm)⟩
    exact (alike_of_value_eq ha).trans (h.zrem.trans (alike_of_value_eq hb.symm))
  | refresh i timeout =>
    obtain ⟨ha, hb⟩ := hc i timeout rfl
    obtain ⟨hreply, howners⟩ := refresh_alike h i timeout ha hb
    refine ⟨fun _ => congrArg Reply.int hreply, howners, ?_⟩
    exact (fencing_refreshScript ..).trans (hfencing.trans (fencing_refreshScript ..).symm)
  | cleanup => exact ⟨False.elim, hevict, hfencing⟩
  | status i =>
    refine ⟨fun _ => congrArg Reply.status ?_, hevict, hfencing⟩
    simp only [resolveNow, Option.getD_none, h.evictExpired]

end Both

/-! ## Inserting observers -/

/-- The entries of a run and the same run with observers inserted: a call made in both at the same
time, a call of an observer in the second, the clock and the expiry of the key in either. -/
def Inserts : Paired (Event ι) → Prop
  | .both (.call t c _) (.call t' c' _) => t = t' ∧ c = c'
  | .first (.wait _) => True
  | .first .expire => True
  | .second (.call _ c r) => Observer c r
  | .second (.wait _) => True
  | .second .expire => True
  | _ => False

/-- No refresh executes in the millisecond at which the slot it asks about expires. -/
def RefreshedInTime : List (Event ι) → Prop :=
  Guarded fun tr e => ∀ t i timeout r, e = .call t (.refresh i timeout) r →
    latestGrant tr i ≠ some t

/-- The states of the two runs. `tr` is the first trace. -/
structure Twin (tr : List (Event ι)) (s s' : Server ι) : Prop where
  fencing : s.keys.fencing = s'.keys.fencing
  alike : Alike (max s.time s'.time) s.keys.owners s'.keys.owners
  leased : Leased tr s.keys.owners
  leased' : Leased tr s'.keys.owners

section Twin

variable {tr : List (Event ι)} {s s' : Server ι}

/-- An event that grants nothing and releases nothing. -/
theorem Leased.silent {owners : SortedSetKey ι} {e : Event ι} (h : Leased tr owners)
    (he : ∀ i, latestGrant (e :: tr) i = latestGrant tr i) : Leased (e :: tr) owners :=
  fun i x hx => (he i).trans (h i x hx)

/-- A call made in both runs. -/
theorem Twin.call (h : Twin tr s s') (htime : s.time = s'.time) (hpos : 0 < s.time) (c : Call ι)
    (hin : ∀ i timeout, c = .refresh i timeout → latestGrant tr i ≠ some s.time) :
    (c.Asks → (exec c none s.time s.keys).1 = (exec c none s'.time s'.keys).1) ∧
      Twin (.call s.time c (exec c none s.time s.keys).1 :: tr)
        { s with keys := (exec c none s.time s.keys).2 }
        { s' with keys := (exec c none s'.time s'.keys).2 } := by
  have halike := h.alike
  rw [← htime, max_self] at halike
  have hsharp : ∀ i timeout, c = .refresh i timeout →
      s.keys.owners.value.zscore i ≠ some s.time ∧
        s'.keys.owners.value.zscore i ≠ some s.time :=
    fun i timeout hc => ⟨fun hx => hin i timeout hc (h.leased i _ hx),
      fun hx => hin i timeout hc (h.leased' i _ hx)⟩
  obtain ⟨hreply, howners, hfencing⟩ := exec_alike halike h.fencing c hsharp
  rw [← htime]
  refine ⟨hreply, hfencing, ?_, ?_, ?_⟩
  · simp only [max_self]
    exact howners
  · exact h.leased.exec hpos c fun _ => rfl
  · exact h.leased'.exec hpos c hreply

/-- The clock and the key of the first run. -/
theorem Twin.first (h : Twin tr s s') (hcovered : Covered s.keys.owners) {e : Event ι}
    {u : Server ι} (he : Inserts (.first e)) (hs : Step s e u) : Twin (e :: tr) u s' := by
  cases hs with
  | call c => exact he.elim
  | wait time hle =>
    exact ⟨h.fencing, h.alike.mono (max_le_max_right _ hle), h.leased.silent fun _ => rfl,
      h.leased'.silent fun _ => rfl⟩
  | expire =>
    refine ⟨h.fencing, ?_, ?_, h.leased'.silent fun _ => rfl⟩
    · exact (alike_expire hcovered (le_max_left _ _)).trans h.alike
    · exact (h.leased.sub fun x hx => SortedSetKey.mem_of_mem_expire hx).silent fun _ => rfl

/-- The clock, the key and the observers of the second run. -/
theorem Twin.second (h : Twin tr s s') (hcovered : Covered s'.keys.owners) {e : Event ι}
    {u : Server ι} (he : Inserts (.second e)) (hs : Step s' e u) : Twin tr s u := by
  cases hs with
  | call c =>
    rw [exec_observer he]
    refine ⟨h.fencing, ?_, h.leased, h.leased'.sub fun x hx => (mem_evictExpired.mp hx).1⟩
    exact h.alike.trans ((alike_evictExpired _).symm.mono (le_max_right _ _))
  | wait time hle =>
    exact ⟨h.fencing, h.alike.mono (max_le_max_left _ hle), h.leased, h.leased'⟩
  | expire =>
    refine ⟨h.fencing, ?_, h.leased, h.leased'.sub fun x hx => SortedSetKey.mem_of_mem_expire hx⟩
    exact h.alike.trans (alike_expire hcovered (le_max_right _ _)).symm

end Twin

/-- What holds of two runs side by side, as far as the calls are matched and refreshed in time. -/
def Unseen (w : List (Paired (Event ι))) (s s' : Server ι) : Prop :=
  (∀ x ∈ w, Inserts x) → RefreshedInTime (lefts w) → Twin (lefts w) s s' ∧
    ∀ t c r r', .both (.call t c r) (.call t c r') ∈ w → c.Asks → r = r'

/-- Two runs side by side stay twins, and every call of the first that asks is answered the same. -/
theorem unseen_of_runs {w : List (Paired (Event ι))} {s s' : Server ι}
    (h : system.Run (lefts w) s) (h' : system.Run (rights w) s') : Unseen w s s' := by
  refine two_runs (M := system) (R := Unseen) ?_ ?_ ?_ ?_ s s' h h'
  · rintro s s' ⟨-, hkeys⟩ ⟨-, hkeys'⟩ - -
    refine ⟨⟨by rw [hkeys, hkeys'], ?_, ?_, ?_⟩, by simp⟩
    · rw [hkeys, hkeys']
      exact Alike.refl _
    · rw [hkeys]
      intro i x hx
      cases hx
    · rw [hkeys']
      intro i x hx
      cases hx
  · intro w s s' e e' u u' hrun _ ih hstep hstep' hw hin
    rw [List.forall_mem_cons] at hw
    obtain ⟨htwin, hsame⟩ := ih hw.2 hin.2
    cases hstep with
    | call c =>
      cases hstep' with
      | call c' =>
        obtain ⟨htime, rfl⟩ := hw.1
        have hpos := (inv_of_run hrun).positive
        obtain ⟨hreply, htwin'⟩ := htwin.call htime hpos c fun i timeout hc =>
          hin.1 _ i timeout _ (by rw [hc])
        refine ⟨htwin', ?_⟩
        intro t c₁ r r' hmem hasks
        rcases List.mem_cons.mp hmem with heq | hmem
        · obtain ⟨heq₁, heq₂⟩ := Paired.both.inj heq
          obtain ⟨-, rfl, rfl⟩ := Event.call.inj heq₁
          obtain ⟨-, -, rfl⟩ := Event.call.inj heq₂
          exact hreply hasks
        · exact hsame t c₁ r r' hmem hasks
      | wait time hle => exact hw.1.elim
      | expire => exact hw.1.elim
    | wait time hle => exact hw.1.elim
    | expire => exact hw.1.elim
  · intro w s s' e u hrun _ ih hstep hw hin
    rw [List.forall_mem_cons] at hw
    obtain ⟨htwin, hsame⟩ := ih hw.2 hin.2
    refine ⟨htwin.first (inv_of_run hrun).covered hw.1 hstep, ?_⟩
    intro t c r r' hmem
    exact hsame t c r r' (by simpa using hmem)
  · intro w s s' e u _ hrun' ih hstep hw hin
    rw [List.forall_mem_cons] at hw
    obtain ⟨htwin, hsame⟩ := ih hw.2 hin
    refine ⟨htwin.second (inv_of_run hrun').covered hw.1 hstep, ?_⟩
    intro t c r r' hmem
    exact hsame t c r r' (by simpa using hmem)

/-- **Observers are invisible** in every run without a refresh at the last millisecond of its slot:
whatever is inserted, every acquire, refresh and status that was in the run is answered the same. -/
theorem observers_invisible {w : List (Paired (Event ι))} {s s' : Server ι}
    (h : system.Run (lefts w) s) (h' : system.Run (rights w) s') (hw : ∀ x ∈ w, Inserts x)
    (hin : RefreshedInTime (lefts w)) {t : ℤ} {c : Call ι} {r r' : Reply}
    (hmem : .both (.call t c r) (.call t c r') ∈ w) (hasks : c.Asks) : r = r' :=
  (unseen_of_runs h h' hw hin).2 t c r r' hmem hasks

/-! ### At the last millisecond -/

/-- A slot that expires at 11 is refreshed at `t`, where a status has just seen `n` owners. -/
def lookedAt (t : ℤ) (n : ℕ) (r r' : Reply) : List (Paired (Event ℕ)) :=
  [.both (.call t (.refresh 7 10) r) (.call t (.refresh 7 10) r'),
    .second (.call t (.status none) (.status ⟨n, false, none⟩)),
    .second (.wait t), .first (.wait t),
    .both (.call 1 (.acquire 7 1 10) (.acquire ⟨true, some 1, some 11, 1⟩))
      (.call 1 (.acquire 7 1 10) (.acquire ⟨true, some 1, some 11, 1⟩))]

/-- The two runs differ by the status and the clock only. -/
theorem lookedAt_inserts (t : ℤ) (n : ℕ) (r r' : Reply) : ∀ x ∈ lookedAt t n r r', Inserts x := by
  simp [lookedAt, Inserts, Observer]

/-- A millisecond before its expiry the refresh is answered the same. -/
theorem observers_invisible_early : ∃ (s s' : Server ℕ) (r' : Reply),
    system.Run (lefts (lookedAt 10 1 (.int 20) r')) s ∧
    system.Run (rights (lookedAt 10 1 (.int 20) r')) s' ∧ r' = .int 20 := by
  have hfirst := (System.Run.start (M := system) (s := (⟨1, Keys.initial⟩ : Server ℕ))
    ⟨by decide, rfl⟩).step (.call _ (.acquire 7 1 10))
  have hwait := hfirst.step (.wait _ 10 (by decide))
  have hrun : system.Run (lefts (lookedAt 10 1 (.int 20) (.int 20))) _ :=
    hwait.step (.call _ (.refresh 7 10))
  have hlooked := hwait.step (.call _ (.status none))
  have hrun' : system.Run (rights (lookedAt 10 1 (.int 20) (.int 20))) _ :=
    hlooked.step (.call _ (.refresh 7 10))
  have hin : RefreshedInTime (lefts (lookedAt 10 1 (.int 20) (.int 20))) := by
    refine ⟨?_, by rintro _ _ _ _ ⟨⟩, by rintro _ _ _ _ ⟨⟩, trivial⟩
    rintro t i timeout r ⟨⟩
    decide
  refine ⟨_, _, _, hrun, hrun', ?_⟩
  exact (observers_invisible hrun hrun' (lookedAt_inserts _ _ _ _) hin (List.mem_cons_self ..)
    trivial).symm

/-- **At the last millisecond** the refresh keeps the slot, unless somebody has looked. -/
theorem observer_takes_slot : ∃ s s' : Server ℕ,
    system.Run (lefts (lookedAt 11 0 (.int 21) (.int 0))) s ∧
    system.Run (rights (lookedAt 11 0 (.int 21) (.int 0))) s' ∧
    ∀ x ∈ lookedAt 11 0 (.int 21) (.int 0), Inserts x := by
  have hfirst := (System.Run.start (M := system) (s := (⟨1, Keys.initial⟩ : Server ℕ))
    ⟨by decide, rfl⟩).step (.call _ (.acquire 7 1 10))
  have hwait := hfirst.step (.wait _ 11 (by decide))
  have hlooked := hwait.step (.call _ (.status none))
  exact ⟨_, _, hwait.step (.call _ (.refresh 7 10)), hlooked.step (.call _ (.refresh 7 10)),
    lookedAt_inserts _ _ _ _⟩

end RedisSemaphore.Semaphore

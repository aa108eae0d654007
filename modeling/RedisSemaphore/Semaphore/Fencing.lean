import RedisSemaphore.Semaphore.Leases

/-!
# Fencing tokens

The fencing counter is moved by successful acquires only, so their tokens number them in execution
order. With limit 1 the owner of the slot is the caller of the latest of them, which makes its token
the largest: a store that remembers the highest token it saw can turn a stale holder away.
-/

namespace RedisSemaphore.Semaphore

open Redis Transition

variable {ι : Type*} [LinearOrder ι]

/-! ## Tokens of a trace -/

/-- The caller of a successful acquire and the token it was given. -/
def acquiredBy : Call ι → Reply → Option (ι × Option ℕ)
  | .acquire i _ _, .acquire reply => if reply.success then some (i, reply.fencingToken) else none
  | _, _ => none

/-- The successful acquires of a trace with their tokens, in execution order. -/
def acquired : List (Event ι) → List (ι × Option ℕ)
  | [] => []
  | .call _ c r :: tr => acquired tr ++ (acquiredBy c r).toList
  | .wait _ :: tr => acquired tr
  | .expire :: tr => acquired tr

/-- The tokens `i` has received, in execution order. -/
def tokensOf (tr : List (Event ι)) (i : ι) : List ℕ :=
  (acquired tr).filterMap fun a => if a.1 = i then a.2 else none

/-- `i` is a member of the owners set. -/
def Owns (owners : SortedSetKey ι) (i : ι) : Prop :=
  ∃ score, owners.value.zscore i = some score

/-- Eviction makes no owner. -/
theorem Owns.of_evict {owners : SortedSetKey ι} {time : ℤ} {i : ι}
    (h : Owns (evictExpired time owners) i) : Owns owners i := by
  obtain ⟨score, hscore⟩ := h
  exact ⟨score, (zscore_evictExpired.mp hscore).1⟩

/-- Nor does a release. -/
theorem Owns.of_zrem {owners : SortedSetKey ι} {i j : ι}
    (h : Owns (owners.update fun z => z.zrem i) j) : Owns owners j := by
  obtain ⟨score, hscore⟩ := h
  exact ⟨score, SortedSet.zscore_eq_some.mpr
    (SortedSet.mem_zrem.mp (SortedSet.zscore_eq_some.mp hscore)).1⟩

/-- Nor does expiry. -/
theorem Owns.of_expire {owners : SortedSetKey ι} {time : ℤ} {i : ι}
    (h : Owns (owners.expire time) i) : Owns owners i := by
  obtain ⟨score, hscore⟩ := h
  exact ⟨score, SortedSet.zscore_eq_some.mpr
    (SortedSetKey.mem_of_mem_expire (SortedSet.zscore_eq_some.mp hscore))⟩

/-- A grant makes one. -/
theorem Owns.of_grantSlot {owners : SortedSetKey ι} {time : ℤ} {timeout : ℕ} {i j : ι}
    (h : Owns (grantSlot time timeout i owners) j) : j = i ∨ Owns owners j := by
  obtain ⟨score, hscore⟩ := h
  rcases mem_of_mem_grantSlot (SortedSet.zscore_eq_some.mp hscore) with heq | ⟨hmem, -⟩
  · exact Or.inl (congrArg Scored.member heq)
  · exact Or.inr ⟨score, SortedSet.zscore_eq_some.mpr hmem⟩

/-- A set of at most one element has at most one owner. -/
theorem Owns.unique {owners : SortedSetKey ι} {i j : ι} (hcard : owners.value.zcard ≤ 1)
    (hi : Owns owners i) (hj : Owns owners j) : i = j := by
  by_contra hne
  have hle := SortedSet.card_le_zcard (z := owners.value) {i, j} ?_
  · rw [Finset.card_pair hne] at hle
    omega
  · intro m hm
    rw [Finset.mem_insert, Finset.mem_singleton] at hm
    rcases hm with rfl | rfl
    · exact hi
    · exact hj

/-- A set with an owner is not empty. -/
theorem Owns.zcard_pos {owners : SortedSetKey ι} {i : ι} (h : Owns owners i) :
    0 < owners.value.zcard := by
  obtain ⟨score, hscore⟩ := h
  exact List.length_pos_of_mem (SortedSet.zscore_eq_some.mp hscore)

/-! ## One step and the counter -/

/-- A granted acquire takes the next token; with limit 1 the caller becomes the only owner. -/
theorem exec_acquire_granted {i : ι} {limit timeout : ℕ} {time : ℤ} {keys : Keys ι}
    {a : ι × Option ℕ}
    (h : acquiredBy (.acquire i limit timeout)
      (exec (.acquire i limit timeout) none time keys).1 = some a) :
    a = (i, some (keys.fencing + 1)) ∧
    (exec (.acquire i limit timeout) none time keys).2.fencing = keys.fencing + 1 ∧
    (limit = 1 → keys.owners.value.zcard ≤ 1 →
      ∀ j, Owns (evictExpired time keys.owners) j ∨
        Owns (exec (.acquire i limit timeout) none time keys).2.owners j → j = i) := by
  rcases acquire_cases i limit timeout time keys with ⟨used, heq, hwhy⟩ | ⟨heq, -⟩
  · simp only [exec, heq, acquiredBy, if_true, Option.some.injEq] at h ⊢
    refine ⟨h.symm, trivial, ?_⟩
    rintro rfl hcard
    have hevict : ∀ j, Owns (evictExpired time keys.owners) j → j = i := by
      intro j hj
      rcases hwhy with hi | ⟨-, hlt⟩
      · exact Owns.unique (zcard_evictExpired_le.trans hcard) hj hi
      · have := hj.zcard_pos
        omega
    rintro j (hj | hj)
    · exact hevict j hj
    · exact hj.of_grantSlot.elim id (hevict j)
  · simp [exec, heq, acquiredBy] at h

/-- Whatever is not a granted acquire leaves the counter alone and adds no owner. -/
theorem Step.quiet {s s' : Server ι} {e : Event ι} (hs : Step s e s')
    (hquiet : ∀ t c r, e = .call t c r → acquiredBy c r = none) :
    s'.keys.fencing = s.keys.fencing ∧
      ∀ j, Owns s'.keys.owners j → Owns s.keys.owners j := by
  cases hs with
  | call c =>
    have hnone := hquiet _ _ _ rfl
    cases c with
    | acquire i limit timeout =>
      rcases acquire_cases i limit timeout s.time s.keys with ⟨used, heq, -⟩ | ⟨heq, -⟩
      · simp [exec, heq, acquiredBy] at hnone
      · simp only [exec, heq]
        exact ⟨trivial, fun j hj => hj.of_evict⟩
    | release i =>
      simp only [exec, releaseScript]
      cases s.keys.owners.value.zscore i with
      | none => exact ⟨rfl, fun j hj => hj⟩
      | some score => exact ⟨rfl, fun j hj => hj.of_zrem⟩
    | refresh i timeout =>
      simp only [exec]
      -- renewed: it was an owner. Not there: nothing. Expired: it is removed.
      rcases refresh_cases i timeout s.time s.keys with
        ⟨heq, score, hscore, -⟩ | ⟨-, ⟨heq, -⟩ | ⟨heq, -⟩⟩
      · rw [heq]
        refine ⟨rfl, fun j hj => ?_⟩
        rcases hj.of_grantSlot with rfl | hj
        · exact ⟨score, hscore⟩
        · exact hj
      · rw [heq]
        exact ⟨rfl, fun j hj => hj⟩
      · rw [heq]
        exact ⟨rfl, fun j hj => hj.of_zrem⟩
    | cleanup => exact ⟨rfl, fun j hj => hj.of_evict⟩
    | status i => exact ⟨rfl, fun j hj => hj.of_evict⟩
  | wait time hle => exact ⟨rfl, fun j hj => hj⟩
  | expire => exact ⟨rfl, fun j hj => hj.of_expire⟩

/-! ## The counter along a run -/

/-- The tokens so far are the numbers up to the counter, and with limit 1 every owner is the caller
of the latest successful acquire. -/
structure TokenInv (tr : List (Event ι)) (s : Server ι) : Prop where
  tokens : (acquired tr).map Prod.snd = (List.range' 1 (acquired tr).length).map some
  counter : s.keys.fencing = (acquired tr).length
  latest : SameLimit 1 tr → ∀ i, Owns s.keys.owners i →
    ∃ token, (acquired tr).getLast? = some (i, token)

section Preserve

variable {tr : List (Event ι)} {s s' : Server ι} {e : Event ι}

/-- An event that is not a granted acquire. -/
theorem TokenInv.quiet (h : TokenInv tr s) (hsame : acquired (e :: tr) = acquired tr)
    (hcounter : s'.keys.fencing = s.keys.fencing)
    (howns : ∀ j, Owns s'.keys.owners j → Owns s.keys.owners j) : TokenInv (e :: tr) s' where
  tokens := by rw [hsame]; exact h.tokens
  counter := by rw [hsame, hcounter]; exact h.counter
  latest hlim i hi := by rw [hsame]; exact h.latest hlim.2 i (howns i hi)

/-- A granted acquire. -/
theorem TokenInv.grant (h : TokenInv tr s) (hinv : Inv tr s) {i : ι} {limit timeout : ℕ}
    {a : ι × Option ℕ}
    (ha : acquiredBy (.acquire i limit timeout)
      (exec (.acquire i limit timeout) none s.time s.keys).1 = some a) :
    TokenInv (.call s.time (.acquire i limit timeout)
        (exec (.acquire i limit timeout) none s.time s.keys).1 :: tr)
      { s with keys := (exec (.acquire i limit timeout) none s.time s.keys).2 } := by
  obtain ⟨rfl, hcounter, howner⟩ := exec_acquire_granted ha
  refine ⟨?_, ?_, ?_⟩
  · simp only [acquired, ha, Option.toList_some, List.map_append, h.tokens, List.map_cons,
      List.map_nil, List.length_append, List.length_singleton, List.range'_1_concat, h.counter]
    rw [Nat.add_comm]
  · simp only [acquired, ha, Option.toList_some, List.length_append, List.length_singleton,
      hcounter, h.counter]
  · intro hlim j hj
    have hlimit : limit = 1 := hlim.1 _ _ _ _ _ rfl
    have hji : j = i := howner hlimit (hinv.bounded 1 hlim.2) j (Or.inr hj)
    refine ⟨some (s.keys.fencing + 1), ?_⟩
    simp only [acquired, ha, Option.toList_some, List.getLast?_concat, hji]

/-- **One step** of the counter. -/
theorem TokenInv.step (h : TokenInv tr s) (hinv : Inv tr s) (hs : Step s e s') :
    TokenInv (e :: tr) s' := by
  by_cases hquiet : ∀ t c r, e = .call t c r → acquiredBy c r = none
  · obtain ⟨hcounter, howns⟩ := hs.quiet hquiet
    refine h.quiet ?_ hcounter howns
    cases e with
    | call t c r => simp [acquired, hquiet t c r rfl]
    | wait t => rfl
    | expire => rfl
  · push Not at hquiet
    obtain ⟨t, c, r, rfl, hsome⟩ := hquiet
    obtain ⟨a, ha⟩ := Option.ne_none_iff_exists'.mp hsome
    cases hs with
    | call c =>
      cases c with
      | acquire i limit timeout => exact h.grant hinv ha
      | release i => simp [acquiredBy] at ha
      | refresh i timeout => simp [acquiredBy] at ha
      | cleanup => simp [acquiredBy] at ha
      | status i => simp [acquiredBy] at ha

end Preserve

/-- The invariant holds in every run. -/
theorem tokenInv_of_run {tr : List (Event ι)} {s : Server ι} (h : system.Run tr s) :
    TokenInv tr s := by
  refine System.Run.invariant (I := TokenInv) ?_
    (fun tr s e s' hrun ih hs => ih.step (inv_of_run hrun) hs) h
  rintro s ⟨-, hkeys⟩
  refine ⟨rfl, by rw [hkeys]; rfl, ?_⟩
  rintro - i ⟨score, hscore⟩
  rw [hkeys] at hscore
  cases hscore

/-! ## Holders with limit 1 -/

/-- The token of the latest successful acquire is above every token of anybody else. -/
theorem TokenInv.token_lt {tr : List (Event ι)} {s : Server ι} (h : TokenInv tr s) {i : ι}
    {token : Option ℕ} (hlast : (acquired tr).getLast? = some (i, token)) :
    ∃ m, (tokensOf tr i).getLast? = some m ∧ ∀ j, j ≠ i → ∀ k ∈ tokensOf tr j, k < m := by
  obtain ⟨init, hinit⟩ := List.getLast?_eq_some_iff.mp hlast
  have htokens := h.tokens
  rw [hinit] at htokens
  simp only [List.map_append, List.map_cons, List.map_nil, List.length_append,
    List.length_singleton, List.range'_1_concat] at htokens
  obtain ⟨hbefore, htoken⟩ := List.append_inj' htokens rfl
  obtain rfl : token = some (1 + init.length) := by simpa using htoken
  refine ⟨1 + init.length, ?_, fun j hj k hk => ?_⟩
  · simp [tokensOf, hinit]
  · simp only [tokensOf, hinit, List.filterMap_append, List.mem_append] at hk
    rcases hk with hk | hk
    · obtain ⟨⟨j', token'⟩, hmem, hk⟩ := List.mem_filterMap.mp hk
      have htoken' : token' = some k := by
        by_cases hj' : j' = j
        · simpa [hj'] using hk
        · simp [hj'] at hk
      have hmap : some k ∈ (List.range' 1 init.length).map some := by
        rw [← hbefore, ← htoken']
        exact List.mem_map_of_mem hmem
      obtain ⟨k', hk', hkk⟩ := List.mem_map.mp hmap
      obtain rfl := Option.some.inj hkk
      have := (List.mem_range'_1.mp hk').2
      omega
    · simp [Ne.symm hj] at hk

/-- When `i` is granted the slot at limit 1, nobody else holds a lease that is still running, and
`i` is the caller of the latest successful acquire. -/
theorem grant_alone {tr : List (Event ι)} {s : Server ι} {c : Call ι} {i : ι} {expiry : ℤ}
    (hinv : Inv tr s) (htok : TokenInv tr s)
    (hlim : SameLimit 1 (.call s.time c (exec c none s.time s.keys).1 :: tr))
    (hgrant : grantOf c (exec c none s.time s.keys).1 = some (i, expiry)) :
    (∀ j, j ≠ i → ∀ expiry', latestGrant tr j = some expiry' → expiry' ≤ s.time) ∧
    ∃ token, (acquired (.call s.time c (exec c none s.time s.keys).1 :: tr)).getLast?
      = some (i, token) := by
  -- at most one owner, and the call makes or renews one
  have hcard := hinv.bounded 1 hlim.2
  cases c with
  | acquire i' limit timeout =>
    have hlimit : limit = 1 := hlim.1 _ _ _ _ _ rfl
    obtain ⟨a, ha⟩ : ∃ a, acquiredBy (.acquire i' limit timeout)
        (exec (.acquire i' limit timeout) none s.time s.keys).1 = some a := by
      simp only [exec, grantOf] at hgrant
      split at hgrant
      · rename_i hsuccess
        exact ⟨_, if_pos hsuccess⟩
      · cases hgrant
    obtain ⟨rfl, -, howner⟩ := exec_acquire_granted ha
    obtain rfl : i' = i := by
      simp only [exec, grantOf] at hgrant
      split at hgrant
      · obtain ⟨_, -, heq⟩ := Option.map_eq_some_iff.mp hgrant
        exact congrArg Prod.fst heq
      · cases hgrant
    refine ⟨fun j hj expiry' hexpiry' => ?_, some (s.keys.fencing + 1), by
      simp only [acquired, ha, Option.toList_some, List.getLast?_concat]⟩
    by_contra hlive
    exact hj (howner hlimit hcard j
      (Or.inl ⟨expiry', hinv.held_evict j expiry' hexpiry' (by omega)⟩))
  | refresh i' timeout =>
    rcases refresh_cases i' timeout s.time s.keys with
      ⟨heq, score, hscore, -⟩ | ⟨hzero, -⟩
    · obtain rfl : i' = i := by
        simp only [exec, heq, grantOf] at hgrant
        split at hgrant
        · exact congrArg Prod.fst (Option.some.inj hgrant)
        · cases hgrant
      refine ⟨fun j hj expiry' hexpiry' => ?_, ?_⟩
      -- another lease that is still live would be an owner beside the renewed one
      · by_contra hlive
        exact hj (Owns.unique hcard ⟨expiry', hinv.held j expiry' hexpiry' (by omega)⟩
          ⟨score, hscore⟩)
      · simpa [acquired, acquiredBy] using htok.latest hlim.2 i' ⟨score, hscore⟩
    · simp [exec, hzero, grantOf] at hgrant
  | release i' => simp [grantOf] at hgrant
  | cleanup => simp [grantOf] at hgrant
  | status i' => simp [grantOf] at hgrant

/-- **Fencing tokens order holders.** In every run the tokens of the successful acquires are
`1, 2, 3, …` in execution order and the counter is their number, so nothing else moves it. If every
acquire passes limit 1 and the latest event grants the slot to `B` at time `t`, then every other `A`
was released or its latest granted expiry is at most `t`, and the token of `B` is above every token
`A` has received. -/
theorem tokens_order_holders {tr : List (Event ι)} {s : Server ι} (h : system.Run tr s) :
    ((acquired tr).map Prod.snd = (List.range' 1 (acquired tr).length).map some ∧
      s.keys.fencing = (acquired tr).length ∧
      ∀ e s', Step s e s' → (∀ t c r, e = .call t c r → acquiredBy c r = none) →
        s'.keys.fencing = s.keys.fencing) ∧
    (SameLimit 1 tr → ∀ earlier t c r B expiry, tr = .call t c r :: earlier →
      grantOf c r = some (B, expiry) → ∀ A, A ≠ B →
        (∀ expiry', latestGrant earlier A = some expiry' → expiry' ≤ t) ∧
        ∃ token, (tokensOf tr B).getLast? = some token ∧ ∀ k ∈ tokensOf tr A, k < token) := by
  have htok := tokenInv_of_run h
  refine ⟨⟨htok.tokens, htok.counter, fun e s' hs hquiet => (hs.quiet hquiet).1⟩, ?_⟩
  rintro hlim earlier t c r B expiry rfl hgrant A hne
  obtain ⟨s₀, hrun, hstep⟩ := h.of_cons
  cases hstep with
  | call c =>
    obtain ⟨halone, token, hlast⟩ :=
      grant_alone (inv_of_run hrun) (tokenInv_of_run hrun) hlim hgrant
    obtain ⟨m, hm, hlt⟩ := htok.token_lt hlast
    exact ⟨halone A hne, m, hm, hlt A hne⟩

/-- Two callers of a slot with a lease of 10 ms: the second gets it after the first has expired. -/
def handover : List (Event ℕ) :=
  [.call 20 (.acquire 8 1 10) (.acquire ⟨true, some 2, some 30, 1⟩), .wait 20,
    .call 1 (.acquire 7 1 10) (.acquire ⟨true, some 1, some 11, 1⟩)]

/-- One holder's lease ends and the next takes the slot. -/
theorem tokens_order_holders_handover :
    (acquired handover).map Prod.snd = [some 1, some 2] ∧
    (∀ expiry, latestGrant handover.tail 7 = some expiry → expiry ≤ 20) ∧
    ∃ token, (tokensOf handover 8).getLast? = some token ∧
      ∀ k ∈ tokensOf handover 7, k < token := by
  have hfirst := (System.Run.start (M := system) (s := (⟨1, Keys.initial⟩ : Server ℕ))
    ⟨by decide, rfl⟩).step (.call _ (.acquire 7 1 10))
  have hwait := hfirst.step (.wait _ 20 (by decide))
  have hrun : system.Run handover _ := hwait.step (.call _ (.acquire 8 1 10))
  have hlim : SameLimit 1 handover := by
    refine ⟨?_, ?_, ?_, trivial⟩
    all_goals
      rintro t i limit timeout r ⟨⟩
      try rfl
  obtain ⟨⟨htokens, -, -⟩, horder⟩ := tokens_order_holders hrun
  exact ⟨htokens, horder hlim _ _ _ _ 8 30 rfl (by decide) 7 (by decide)⟩

end RedisSemaphore.Semaphore

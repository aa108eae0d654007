import RedisSemaphore.Semaphore.Observers

/-!
# What a release answers

`RELEASE_SCRIPT` removes the identifier and answers how many elements it removed. Eviction is lazy,
so an entry may still be there when its expiry has passed, and a release that finds it answers `1`
for a slot that is nobody's any more. `REFRESH_SCRIPT` looks at the score before it answers.

The owners set holds every lease that has not expired (`Inv`) and nothing that was not leased
(`Leased`), so such entries are all that stands between the answer and the truth.
-/

namespace RedisSemaphore.Semaphore

open Redis Transition

variable {ι : Type*} [LinearOrder ι]

/-- An entry that has expired and that nobody has evicted yet. -/
def Stale (s : Server ι) (i : ι) : Prop :=
  ∃ expiry, s.keys.owners.value.zscore i = some expiry ∧ expiry ≤ s.time

section Runs

variable {tr : List (Event ι)} {s : Server ι}

/-- At every moment of every run, the owners set holds latest grants only. -/
theorem leased_of_run (h : system.Run tr s) : Leased tr s.keys.owners := by
  refine System.Run.invariant (I := fun tr s => Leased tr s.keys.owners) ?_ ?_ h
  · rintro s ⟨-, hkeys⟩
    rw [hkeys]
    intro i x hx
    cases hx
  · intro tr s e s' hrun ih hstep
    cases hstep with
    | call c => exact ih.exec (inv_of_run hrun).positive c fun _ => rfl
    | wait time hle => exact ih.silent fun _ => rfl
    | expire =>
      exact (ih.sub fun e he => SortedSetKey.mem_of_mem_expire he).silent fun _ => rfl

/-- A live holder is an entry whose expiry lies ahead. -/
theorem liveHolder_iff (h : system.Run tr s) (i : ι) :
    LiveHolder tr s.time i ↔
      ∃ expiry, s.keys.owners.value.zscore i = some expiry ∧ s.time < expiry := by
  constructor
  · rintro ⟨expiry, hgrant, hlive⟩
    exact ⟨expiry, (inv_of_run h).held i expiry hgrant hlive, hlive⟩
  · rintro ⟨expiry, hscore, hlive⟩
    exact ⟨expiry, leased_of_run h i expiry hscore, hlive⟩

/-- A release answers `1` for an entry of any age. -/
theorem release_answer (i : ι) (time : ℤ) (keys : Keys ι) :
    (exec (.release i) none time keys).1 = .int 1 ↔
      ∃ expiry, keys.owners.value.zscore i = some expiry := by
  simp only [exec, releaseScript]
  cases keys.owners.value.zscore i with
  | none => simp
  | some expiry => simp

/-- **When a release tells the truth.** At every moment of every run, its answer is `1` exactly for
a live holder, if and only if no expired entry of the identifier is left. -/
theorem release_truthful_iff (h : system.Run tr s) (i : ι) :
    ((exec (.release i) none s.time s.keys).1 = .int 1 ↔ LiveHolder tr s.time i) ↔
      ¬ Stale s i := by
  rw [release_answer, liveHolder_iff h]
  constructor
  · rintro hiff ⟨expiry, hscore, hexpired⟩
    obtain ⟨expiry', hscore', hlive⟩ := hiff.mp ⟨expiry, hscore⟩
    rw [hscore, Option.some.injEq] at hscore'
    omega
  · intro hfresh
    constructor
    · rintro ⟨expiry, hscore⟩
      refine ⟨expiry, hscore, ?_⟩
      by_contra hexpired
      exact hfresh ⟨expiry, hscore, not_lt.mp hexpired⟩
    · rintro ⟨expiry, hscore, -⟩
      exact ⟨expiry, hscore⟩

end Runs

/-! ## Who evicts -/

/-- The calls that begin with an eviction. An acquire may add an entry, which is stale at once only
if its timeout rounds to no millisecond. -/
def Call.Evicts : Call ι → Prop
  | .acquire _ _ lockTimeoutMs => 0 < lockTimeoutMs
  | .cleanup => True
  | .status _ => True
  | .release _ => False
  | .refresh _ _ => False

/-- After such a call nobody is stale: whether a release tells the truth is up to the others. -/
theorem not_stale_of_evicts {c : Call ι} (hc : c.Evicts) (s : Server ι) (i : ι) :
    ¬ Stale { s with keys := (exec c none s.time s.keys).2 } i := by
  have hevict : ∀ expiry, (evictExpired s.time s.keys.owners).value.zscore i = some expiry →
      s.time < expiry := fun expiry h => (zscore_evictExpired.mp h).2
  rintro ⟨expiry, hscore, hexpired⟩
  cases c with
  | acquire j limit timeout =>
    rcases acquire_cases j limit timeout s.time s.keys with ⟨used, heq, -⟩ | ⟨heq, -, -⟩
    · simp only [exec, heq] at hscore hexpired
      rw [SortedSet.zscore_eq_some] at hscore
      rcases mem_of_mem_grantSlot hscore with hnew | ⟨hmem, -⟩
      · have hlong : 0 < timeout := hc
        obtain ⟨-, rfl⟩ := Scored.mk.inj hnew
        omega
      · have := (mem_evictExpired.mp hmem).2
        simp only at this
        omega
    · simp only [exec, heq] at hscore hexpired
      have := hevict expiry hscore
      omega
  | release j => exact hc
  | refresh j timeout => exact hc
  | cleanup =>
    have := hevict expiry hscore
    simp only at hexpired
    omega
  | status j =>
    have := hevict expiry hscore
    simp only at hexpired
    omega

/-! ### One slot, released after its expiry -/

/-- A slot is taken for 10 ms at time 1, and nothing happens until `t`. -/
def leftAlone (t : ℤ) : List (Event ℕ) :=
  [.wait t, .call 1 (.acquire 7 1 10) (.acquire ⟨true, some 1, some 11, 1⟩)]

/-- The keys with that slot taken. -/
def takenKeys : Keys ℕ := (exec (.acquire 7 1 10) none 1 Keys.initial).2

theorem run_leftAlone {t : ℤ} (h : 1 ≤ t) : system.Run (leftAlone t) ⟨t, takenKeys⟩ := by
  have hfirst := (System.Run.start (M := system) (s := (⟨1, Keys.initial⟩ : Server ℕ))
    ⟨by decide, rfl⟩).step (.call _ (.acquire 7 1 10))
  exact hfirst.step (.wait _ t h)

/-- Within the 10 ms a release tells the truth. -/
theorem release_truthful_early : ∃ s, system.Run (leftAlone 10) s ∧
    ((exec (.release 7) none s.time s.keys).1 = .int 1 ↔ LiveHolder (leftAlone 10) s.time 7) := by
  have hrun := run_leftAlone (t := 10) (by decide)
  refine ⟨_, hrun, (release_truthful_iff hrun 7).mpr ?_⟩
  rintro ⟨expiry, hscore, hexpired⟩
  obtain rfl : 11 = expiry := Option.some.inj hscore
  exact absurd hexpired (by decide)

/-- A millisecond after the expiry the release answers `1`, and `0` if somebody has just asked for
the status. -/
theorem release_after_expiry : ∃ s s' : Server ℕ,
    system.Run (leftAlone 12) s ∧
    system.Run (.call 12 (.status none) (.status ⟨0, false, none⟩) :: leftAlone 12) s' ∧
    s.time = 12 ∧ s'.time = 12 ∧
    ¬ LiveHolder (leftAlone 12) 12 7 ∧
    (exec (.release 7) none s.time s.keys).1 = .int 1 ∧
    (exec (.release 7) none s'.time s'.keys).1 = .int 0 := by
  have hrun := run_leftAlone (t := 12) (by decide)
  refine ⟨_, _, hrun, hrun.step (.call _ (.status none)), rfl, rfl, ?_, rfl, rfl⟩
  rintro ⟨expiry, hgrant, hlive⟩
  obtain rfl : 11 = expiry := Option.some.inj hgrant
  omega

end RedisSemaphore.Semaphore

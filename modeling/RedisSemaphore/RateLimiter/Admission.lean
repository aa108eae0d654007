import RedisSemaphore.RateLimiter.Limits

/-!
# When an acquire is admitted

The first loop of `RATE_ACQUIRE_SCRIPT` carries a flag, `already`, from limit to limit: once a limit
has found the request recorded, later limits are not checked, while earlier ones already were.
`Fits` is that loop as a predicate, and `admitted_iff_fits` says that the script admits the request
exactly when it holds.
-/

namespace RedisSemaphore.RateLimiter

open Redis

variable {κ ι : Type*} [LinearOrder (Member ι)]

/-- The request is recorded in a log under this cost. -/
def Recorded (identifier : ι) (cost : ℕ) (keys : LimitKeys ι) : Prop :=
  0 < cost ∧ (keys.log.value.zscore ⟨cost, identifier⟩).isSome

instance (identifier : ι) (cost : ℕ) (keys : LimitKeys ι) :
    Decidable (Recorded identifier cost keys) :=
  inferInstanceAs (Decidable (_ ∧ _))

/-- Every limit that is charged has room, unless it or an earlier limit finds the request recorded.
`seen` is what `evict` returns for each limit. -/
def Fits (identifier : ι) (seen : AcquireArg κ → ℤ × LimitKeys ι) :
    Bool → List (AcquireArg κ) → Prop
  | _, [] => True
  | already, a :: rest =>
    (0 < a.cost → already = false → ¬Recorded identifier a.cost (seen a).2 →
      (seen a).1 + a.cost ≤ a.limit) ∧
    Fits identifier seen (already || decide (Recorded identifier a.cost (seen a).2)) rest

section Fits

variable {identifier : ι} {seen : AcquireArg κ → ℤ × LimitKeys ι} {already : Bool}
  {args : List (AcquireArg κ)}

/-- A request recorded wherever it is charged fits. -/
theorem fits_of_recorded (h : ∀ a ∈ args, 0 < a.cost → Recorded identifier a.cost (seen a).2) :
    Fits identifier seen already args := by
  induction args generalizing already with
  | nil => trivial
  | cons a rest ih =>
    rw [List.forall_mem_cons] at h
    exact ⟨fun hcost _ hnot => absurd (h.1 hcost) hnot, ih h.2⟩

/-- A request recorded nowhere fits every limit it is charged to. -/
theorem Fits.le (h : Fits identifier seen false args)
    (hfresh : ∀ a ∈ args, ¬Recorded identifier a.cost (seen a).2) :
    ∀ a ∈ args, 0 < a.cost → (seen a).1 + a.cost ≤ a.limit := by
  induction args with
  | nil => exact fun a ha => absurd ha List.not_mem_nil
  | cons a rest ih =>
    rw [List.forall_mem_cons] at hfresh ⊢
    obtain ⟨hroom, hrest⟩ := h
    rw [decide_eq_false hfresh.1, Bool.or_false] at hrest
    exact ⟨fun hcost => hroom hcost rfl hfresh.1, ih hrest hfresh.2⟩

end Fits

theorem one_le_waitFor (z : SortedSet (Member ι)) (need nowMs windowMs : ℤ) :
    1 ≤ waitFor z need nowMs windowMs := by
  simp only [waitFor]
  split <;> omega

variable [DecidableEq κ]

/-- A violated limit leaves a positive `retry_after`, and nothing else raises it. -/
theorem retryAfter_checkLimit_le {identifier : ι} {nowMs time : ℤ} {a : AcquireArg κ}
    {check : Check κ ι} {seen : ℤ × LimitKeys ι}
    (hseen : evict time (nowMs - a.windowMs) (a.windowMs * 2) (check.store a.name) = seen) :
    (checkLimit identifier nowMs time a check).retryAfter ≤ 0 ↔
      check.retryAfter ≤ 0 ∧ (0 < a.cost → check.already = false →
        ¬Recorded identifier a.cost seen.2 → seen.1 + a.cost ≤ a.limit) := by
  have hwait := one_le_waitFor seen.2.log.value (seen.1 + a.cost - a.limit) nowMs a.windowMs
  simp only [checkLimit, hseen, Recorded]
  by_cases hviolated : 0 < a.cost ∧ (check.already || (decide (0 < a.cost) &&
      (seen.2.log.value.zscore ⟨a.cost, identifier⟩).isSome)) = false ∧
      (a.limit : ℤ) < seen.1 + a.cost
  · rw [if_pos hviolated]
    obtain ⟨hcost, hnot, hlt⟩ := hviolated
    simp only [hcost, decide_true, Bool.true_and, Bool.or_eq_false_iff] at hnot
    constructor
    · intro hle
      split at hle <;> omega
    · rintro ⟨-, hroom⟩
      have := hroom hcost hnot.1 (by simp [hnot.2])
      omega
  · rw [if_neg hviolated]
    refine ⟨fun hle => ⟨hle, fun hcost halready hnot => ?_⟩, And.left⟩
    by_contra hlt
    refine hviolated ⟨hcost, ?_, by omega⟩
    simpa [hcost, halready] using hnot

/-- The check of one limit leaves the others to be seen as before. -/
theorem seen_checkLimit (identifier : ι) {nowMs time : ℤ} {a : AcquireArg κ}
    {rest : List (AcquireArg κ)} {seen : AcquireArg κ → ℤ × LimitKeys ι} {check : Check κ ι}
    (hnotMem : a.name ∉ rest.map AcquireArg.name)
    (hseen : ∀ b ∈ rest,
      evict time (nowMs - b.windowMs) (b.windowMs * 2) (check.store b.name) = seen b) :
    ∀ b ∈ rest, evict time (nowMs - b.windowMs) (b.windowMs * 2)
      ((checkLimit identifier nowMs time a check).store b.name) = seen b := by
  intro b hb
  have hne : b.name ≠ a.name := fun heq => hnotMem (heq ▸ List.mem_map_of_mem hb)
  simp only [checkLimit, Function.update_of_ne hne]
  exact hseen b hb

/-- The first loop from any accumulator. -/
theorem retryAfter_foldl_le (identifier : ι) (nowMs time : ℤ)
    (seen : AcquireArg κ → ℤ × LimitKeys ι) (check : Check κ ι) {args : List (AcquireArg κ)}
    (hnodup : (args.map AcquireArg.name).Nodup)
    (hseen : ∀ a ∈ args,
      evict time (nowMs - a.windowMs) (a.windowMs * 2) (check.store a.name) = seen a) :
    (args.foldl (fun check a => checkLimit identifier nowMs time a check) check).retryAfter ≤ 0 ↔
      check.retryAfter ≤ 0 ∧ Fits identifier seen check.already args := by
  induction args generalizing check with
  | nil => simp [Fits]
  | cons a rest ih =>
    rw [List.map_cons, List.nodup_cons] at hnodup
    rw [List.forall_mem_cons] at hseen
    have halready : (checkLimit identifier nowMs time a check).already =
        (check.already || decide (Recorded identifier a.cost (seen a).2)) := by
      rw [Bool.eq_iff_iff, Bool.or_eq_true, decide_eq_true_iff]
      simp [checkLimit, hseen.1, Recorded]
    have hstore := seen_checkLimit identifier hnodup.1 hseen.2
    rw [List.foldl_cons, ih _ hnodup.2 hstore, retryAfter_checkLimit_le hseen.1, halready, Fits,
      and_assoc]

/-- **Admission.** An acquire is admitted exactly when the request fits. -/
theorem admitted_iff_fits {cfg : Config κ} {identifier : ι} {cost : κ → ℕ} {time : ℤ}
    {store : κ → LimitKeys ι} :
    (exec cfg (.acquire identifier cost) time store).1.admitted = true ↔
      Fits identifier
        (fun a => evict time (time - a.windowMs) (a.windowMs * 2) (store a.name)) false
        (acquireArgs cfg cost) := by
  have hfits := retryAfter_foldl_le identifier time time
    (fun a => evict time (time - a.windowMs) (a.windowMs * 2) (store a.name))
    ⟨store, [], 0, false⟩ (acquireArgs_nodup cfg cost) fun a _ => rfl
  simp only [le_refl, true_and] at hfits
  rw [← hfits]
  by_cases hpos : 0 < (checkLimits identifier time time (acquireArgs cfg cost) store).retryAfter
  · simp only [exec, rateAcquire, if_pos hpos, Reply.admitted, Bool.false_eq_true, false_iff,
      not_le]
    exact hpos
  · simp only [exec, rateAcquire, if_neg hpos, Reply.admitted, true_iff]
    exact not_lt.mp hpos

end RedisSemaphore.RateLimiter

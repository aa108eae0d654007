import RedisSemaphore.RateLimiter.Accounting
import RedisSemaphore.RateLimiter.Admission
import RedisSemaphore.RateLimiter.Expiry

/-!
# Resending an acquire

A client that loses the reply of an admitted acquire runs the identical call again. The script means
to find the first attempt recorded and to admit it for nothing. It does so for a limit as long as
the entry of the first attempt is inside that limit's window; `resend_free_iff` shows that this is
also necessary. Once the entry has left the window of one limit the resend is charged there again
or, if that limit comes before one that still finds the entry, may be denied.
-/

namespace RedisSemaphore.RateLimiter

open Redis Transition

variable {κ ι : Type*} [LinearOrder (Member ι)]

/-- The admission time under which a limit holds a request after an acquire at `time` was admitted:
that of an entry already inside the window, or `time` itself. -/
def recordedAt (l : Limit κ) (identifier : ι) (cost : ℕ) (time : ℤ) (keys : LimitKeys ι) : ℤ :=
  match keys.log.value.zscore ⟨cost, identifier⟩ with
  | some score => if time - l.windowMs < score then score else time
  | none => time

/-- What may happen between the two attempts: acquires of other requests, status calls, time, and
keys that reach their deadline. -/
def Unrelated (identifier : ι) : Event κ ι → Prop
  | .call _ (.acquire identifier' _) _ => identifier' ≠ identifier
  | .call _ (.adjust _ _ _) _ => False
  | .call _ .status _ => True
  | .wait _ => True
  | .expire _ _ => True
  | .lose _ _ => False

/-! ## The entry of the first attempt -/

/-- The log holds `m` under no other score than `at₁`, and does hold it while `at₁` is in the
window. -/
structure Holds (l : Limit κ) (m : Member ι) (at₁ time : ℤ) (keys : LimitKeys ι) : Prop where
  only : ∀ e ∈ keys.log.value.entries, e.member = m → e.score = at₁
  present : time - l.windowMs < at₁ → ⟨m, at₁⟩ ∈ keys.log.value.entries

section Holds

variable {l : Limit κ} {m : Member ι} {at₁ time : ℤ} {keys : LimitKeys ι}

/-- As time passes less has to be held. -/
theorem Holds.mono (h : Holds l m at₁ time keys) {time' : ℤ} (hle : time ≤ time') :
    Holds l m at₁ time' keys :=
  ⟨h.only, fun hwin => h.present (by omega)⟩

/-- An eviction removes only what has left the window. -/
theorem Holds.evict (h : Holds l m at₁ time keys) (ttlMs : ℤ) :
    Holds l m at₁ time (RateLimiter.evict time (time - l.windowMs) ttlMs keys).2 :=
  ⟨fun e he => h.only e (mem_log_evict.mp he).1,
    fun hwin => mem_log_evict.mpr ⟨h.present hwin, hwin⟩⟩

/-- Expiry comes after the window has passed. -/
theorem Holds.expire (h : Holds l m at₁ time keys) (htimely : Timely l time keys) (kind : KeyKind) :
    Holds l m at₁ time (keys.expire kind time) :=
  ⟨fun e he => h.only e (mem_of_mem_expire he),
    fun hwin => htimely.mem_expire kind (h.present hwin) hwin⟩

/-- An acquire of another request. -/
theorem Holds.acquire (h : Holds l m at₁ time keys) {identifier : ι} {cost : κ → ℕ}
    {admitted : Bool} (hne : identifier ≠ m.identifier) :
    Holds l m at₁ time ((Call.acquire identifier cost).onLimit admitted time l keys).2 := by
  have hevict := h.evict (l.windowMs * 2)
  cases admitted with
  | false => exact hevict
  | true =>
    have hmem := fun e => mem_log_recordLimit identifier time time
      (RateLimiter.evict time (time - l.windowMs) (l.windowMs * 2) keys).1
      ⟨l.name, l.limit, l.windowMs, cost l.name⟩
      (RateLimiter.evict time (time - l.windowMs) (l.windowMs * 2) keys).2 l.window_pos (e := e)
    refine ⟨fun e he hm => ?_, fun hwin => (hmem _).mpr (Or.inl (hevict.present hwin))⟩
    rcases (hmem e).mp he with he | ⟨-, -, rfl⟩
    · exact hevict.only e he hm
    · exact absurd (congrArg Member.identifier hm) hne

variable (time keys) in
/-- An admitted acquire records the request in every limit it is charged to. -/
theorem holds_recordedAt (identifier : ι) {cost : κ → ℕ} (hcost : 0 < cost l.name) :
    Holds l ⟨cost l.name, identifier⟩ (recordedAt l identifier (cost l.name) time keys) time
      ((Call.acquire identifier cost).onLimit true time l keys).2 := by
  have hmem := fun e => mem_log_recordLimit identifier time time
    (RateLimiter.evict time (time - l.windowMs) (l.windowMs * 2) keys).1
    ⟨l.name, l.limit, l.windowMs, cost l.name⟩
    (RateLimiter.evict time (time - l.windowMs) (l.windowMs * 2) keys).2 l.window_pos (e := e)
  -- not recorded after the eviction: the charge is new, at `time`
  cases hscore : (RateLimiter.evict time (time - l.windowMs) (l.windowMs * 2)
      keys).2.log.value.zscore ⟨cost l.name, identifier⟩ with
  | none =>
    have hat : recordedAt l identifier (cost l.name) time keys = time := by
      simp only [recordedAt]
      split
      · rename_i score hs
        refine if_neg fun hwin => ?_
        rw [zscore_log_evict.mpr ⟨hs, hwin⟩] at hscore
        cases hscore
      · rfl
    rw [hat]
    refine ⟨fun e he hm => ?_, fun _ => (hmem _).mpr (Or.inr ⟨hcost, hscore, rfl⟩)⟩
    rcases (hmem e).mp he with he | ⟨-, -, rfl⟩
    · exact absurd hm (SortedSet.zscore_eq_none.mp hscore e he)
    · rfl
  -- recorded: the charge of the first attempt stays at its own time
  | some score =>
    obtain ⟨hs, hwin⟩ := zscore_log_evict.mp hscore
    have hat : recordedAt l identifier (cost l.name) time keys = score := by
      simp only [recordedAt, hs, if_pos hwin]
    rw [hat]
    have hin := SortedSet.zscore_eq_some.mp hscore
    refine ⟨fun e he hm => ?_, fun _ => (hmem _).mpr (Or.inl hin)⟩
    rcases (hmem e).mp he with he | ⟨-, hnone, -⟩
    · rw [SortedSet.eq_of_mem_of_member_eq he hin hm]
    · rw [hscore] at hnone
      cases hnone

end Holds

/-- A recording of a request that is there, or is not charged, leaves the log as it was. -/
theorem recordLimit_value_of_recorded {identifier : ι} {nowMs time used : ℤ} {arg : AcquireArg κ}
    {keys : LimitKeys ι} (hwindow : 0 < arg.windowMs)
    (h : 0 < arg.cost → Recorded identifier arg.cost keys) :
    (recordLimit identifier nowMs time arg used keys).2.log.value = keys.log.value := by
  have httl : (0 : ℤ) < arg.windowMs * 2 := by omega
  rcases recordLimit_cases identifier nowMs time used arg keys with
    ⟨-, heq⟩ | ⟨hcost, hnone, -⟩ | ⟨-, -, heq⟩
  · rw [heq]
  · have hsome := (h hcost).2
    rw [hnone] at hsome
    cases hsome
  · rw [heq, log_value_touch httl]

/-- The admission time is inside the window when the acquire is admitted. -/
theorem lt_recordedAt {l : Limit κ} {identifier : ι} {cost : ℕ} {time : ℤ} {keys : LimitKeys ι} :
    time - l.windowMs < recordedAt l identifier cost time keys := by
  have hpos := l.window_pos
  simp only [recordedAt]
  split
  · split <;> omega
  · omega

/-! ## The second attempt -/

variable [DecidableEq κ] {cfg : Config κ}

/-- The resend is free: it is admitted, and every log is the one a status call would leave. -/
def ResendFree (cfg : Config κ) (identifier : ι) (cost : κ → ℕ) (s : Server κ ι) : Prop :=
  (exec cfg (.acquire identifier cost) s.time s.store).1.admitted = true ∧
  ∀ l ∈ cfg.limits,
    ((exec cfg (.acquire identifier cost) s.time s.store).2 l.name).log.value =
      ((exec cfg (.status : Call κ ι) s.time s.store).2 l.name).log.value

/-- A resend is free exactly where every charged limit still holds the entry inside its window. -/
theorem resendFree_iff_holds {identifier : ι} {cost : κ → ℕ} {s : Server κ ι} {at₁ : Limit κ → ℤ}
    (h : ∀ l ∈ cfg.limits, 0 < cost l.name →
      Holds l ⟨cost l.name, identifier⟩ (at₁ l) s.time (s.store l.name)) :
    ResendFree cfg identifier cost s ↔
      ∀ l ∈ cfg.limits, 0 < cost l.name → s.time - l.windowMs < at₁ l := by
  have hstatus : ∀ l ∈ cfg.limits, (exec cfg (.status : Call κ ι) s.time s.store).2 l.name =
      (evict s.time (s.time - l.windowMs) (l.windowMs * 2) (s.store l.name)).2 := by
    intro l hl
    exact exec_touched _ _ _ _ hl
  have hacquire : ∀ l ∈ cfg.limits,
      (exec cfg (.acquire identifier cost) s.time s.store).2 l.name =
        ((Call.acquire identifier cost).onLimit
          (exec cfg (.acquire identifier cost) s.time s.store).1.admitted s.time l
          (s.store l.name)).2 :=
    fun l hl => exec_touched _ _ _ _ hl
  constructor
  · rintro ⟨hadmitted, hlogs⟩ l hl hcost
    have heq := hlogs l hl
    rw [hacquire l hl, hstatus l hl, hadmitted] at heq
    have hmem := (holds_recordedAt s.time (s.store l.name) identifier hcost).present lt_recordedAt
    rw [heq] at hmem
    obtain ⟨hmem, hwin⟩ := mem_log_evict.mp hmem
    rw [← (h l hl hcost).only _ hmem rfl]
    exact hwin
  -- all charges are in their windows, so each limit finds its own entry
  · intro hwin
    have hrecorded : ∀ l ∈ cfg.limits, 0 < cost l.name → Recorded identifier (cost l.name)
        (evict s.time (s.time - l.windowMs) (l.windowMs * 2) (s.store l.name)).2 := by
      intro l hl hcost
      refine ⟨hcost, ?_⟩
      have hin := ((h l hl hcost).evict (l.windowMs * 2)).present (hwin l hl hcost)
      rw [SortedSet.zscore_eq_some.mpr hin]
      rfl
    have hadmitted : (exec cfg (.acquire identifier cost) s.time s.store).1.admitted = true := by
      refine admitted_iff_fits.mpr (fits_of_recorded fun a ha hcost => ?_)
      obtain ⟨l, hl, rfl⟩ := List.mem_map.mp ha
      exact hrecorded l hl hcost
    refine ⟨hadmitted, fun l hl => ?_⟩
    rw [hacquire l hl, hstatus l hl, hadmitted]
    exact recordLimit_value_of_recorded
      l.window_pos (hrecorded l hl)

/-- Unrelated events leave the entry of the first attempt alone while it is in the window. -/
theorem holds_of_path {identifier : ι} {cost : κ → ℕ} {s₁ s : Server κ ι} {tr : List (Event κ ι)}
    {at₁ : Limit κ → ℤ} (hpath : (system cfg).Path s₁ tr s)
    (htimely : ∀ l ∈ cfg.limits, Timely l s₁.time (s₁.store l.name))
    (hholds : ∀ l ∈ cfg.limits, 0 < cost l.name →
      Holds l ⟨cost l.name, identifier⟩ (at₁ l) s₁.time (s₁.store l.name))
    (htr : ∀ e ∈ tr, Unrelated identifier e) :
    ∀ l ∈ cfg.limits, 0 < cost l.name →
      Holds l ⟨cost l.name, identifier⟩ (at₁ l) s.time (s.store l.name) := by
  refine (System.Path.invariant (M := system cfg) (s := s₁)
    (I := fun tr s => (∀ e ∈ tr, Unrelated identifier e) →
      (∀ l ∈ cfg.limits, Timely l s.time (s.store l.name)) ∧
      ∀ l ∈ cfg.limits, 0 < cost l.name →
        Holds l ⟨cost l.name, identifier⟩ (at₁ l) s.time (s.store l.name))
    (fun _ => ⟨htimely, hholds⟩) ?_ hpath htr).2
  -- induction on what happens in between
  intro tr s e s' _ ih hs htr
  rw [List.forall_mem_cons] at htr
  obtain ⟨htimely, hholds⟩ := ih htr.2
  have hpast : PastAdjust e := by
    cases e with
    | call t c r =>
      cases c with
      | adjust => exact absurd htr.1 id
      | acquire => trivial
      | status => trivial
    | wait => trivial
    | expire => trivial
    | lose => trivial
  refine ⟨timely_step htimely hpast hs, fun l hl hcost => ?_⟩
  have hl' := hholds l hl hcost
  cases hs with
  | call c =>
    cases c with
    | acquire identifier' cost' =>
      have hstore := exec_touched cfg s.time s.store (.acquire identifier' cost') hl
      simp only [hstore]
      exact hl'.acquire htr.1
    | adjust => exact absurd htr.1 id
    | status =>
      have hstore := exec_touched cfg s.time s.store .status hl
      simp only [hstore]
      exact hl'.evict _
  | wait time hle => exact hl'.mono hle
  | expire name kind =>
    by_cases hname : l.name = name
    · subst hname
      simp only [Function.update_self]
      exact hl'.expire (htimely l hl) kind
    · simp only [Function.update_of_ne hname]
      exact hl'
  | lose => exact absurd htr.1 id

/-- **When a resent acquire is free.** In any reachable state let an acquire be admitted, let
unrelated events follow, and let the identical call run again: it is admitted and charges nothing if
and only if the request's admission time is still inside the window of every limit it is charged
to. -/
theorem resend_free_iff {tr₀ tr : List (Event κ ι)} {s₀ s : Server κ ι} {identifier : ι}
    {cost : κ → ℕ} (hrun : (system cfg).Run tr₀ s₀) (hpast : ∀ e ∈ tr₀, PastAdjust e)
    (hadmitted : (exec cfg (.acquire identifier cost) s₀.time s₀.store).1.admitted = true)
    (hpath : (system cfg).Path
      { s₀ with store := (exec cfg (.acquire identifier cost) s₀.time s₀.store).2 } tr s)
    (htr : ∀ e ∈ tr, Unrelated identifier e) :
    ResendFree cfg identifier cost s ↔ ∀ l ∈ cfg.limits, 0 < cost l.name →
      s.time - l.windowMs <
        recordedAt l identifier (cost l.name) s₀.time (s₀.store l.name) := by
  refine resendFree_iff_holds (holds_of_path hpath ?_ (fun l hl hcost => ?_) htr)
  · exact timely_step (timely_of_run hrun hpast) (e := .call s₀.time (.acquire identifier cost)
      (exec cfg (.acquire identifier cost) s₀.time s₀.store).1) trivial (.call s₀ _)
  · have hfirst := exec_touched cfg s₀.time s₀.store (.acquire identifier cost) hl
    simp only [hfirst, hadmitted]
    exact holds_recordedAt _ _ _ hcost

/-! ## A limit the entry has left -/

/-- A hundred units per minute. -/
def minuteLimit : Limit ℕ := ⟨0, 100, 60000, by decide, by decide⟩

/-- Ten units per second. -/
def secondLimit : Limit ℕ := { tenUnits with name := 1 }

/-- Two limits, the longer first. -/
def minuteFirst : Config ℕ := ⟨[minuteLimit, secondLimit], by decide, by decide⟩

/-- The same two, the shorter first. -/
def secondFirst : Config ℕ := ⟨[secondLimit, minuteLimit], by decide, by decide⟩

/-- Request `7` has been admitted with five units at 1000 ms. -/
def afterFirst (cfg : Config ℕ) : Server ℕ ℕ :=
  ⟨1000, (exec cfg (.acquire 7 fun _ => 5) 1000 fun _ => LimitKeys.initial).2⟩

/-- Half a second later a resend of request `7` is free. -/
theorem resend_free_iff_soon :
    ResendFree minuteFirst 7 (fun _ => 5) ⟨1500, (afterFirst minuteFirst).store⟩ := by
  have hrun : (system minuteFirst).Run [] (⟨1000, fun _ => LimitKeys.initial⟩ : Server ℕ ℕ) :=
    .start rfl
  have hpath : (system minuteFirst).Path (afterFirst minuteFirst) [.wait 1500] _ :=
    System.Path.refl.step (Step.wait _ 1500 (by decide))
  refine (resend_free_iff hrun (by simp) (by decide) hpath (by simp [Unrelated])).mpr ?_
  decide

/-- Request `8` takes ten units at 2900 ms. It is now 3000 ms, and the entry of request `7` has left
the second but not the minute. -/
def beforeResend (cfg : Config ℕ) : Server ℕ ℕ :=
  ⟨3000, (exec cfg (.acquire 8 fun _ => 10) 2900 (afterFirst cfg).store).2⟩

/-- Between the admission and its resend the shorter window passes, and nobody else adjusts the
permit. -/
theorem path_beforeResend (cfg : Config ℕ) :
    ∃ tr, (system cfg).Path (afterFirst cfg) tr (beforeResend cfg) ∧ ∀ e ∈ tr, Unrelated 7 e := by
  have hwait := (System.Path.refl (M := system cfg) (s := afterFirst cfg)).step
    (Step.wait _ 2900 (by decide : (1000 : ℤ) ≤ 2900))
  have hother := hwait.step (Step.call _ (.acquire 8 fun _ => 10))
  have hnow := hother.step (Step.wait _ 3000 (by decide : (2900 : ℤ) ≤ 3000))
  exact ⟨_, hnow, by simp [Unrelated]⟩

/-- **A resend that is charged again, and one that is denied.** Nothing but request `8` comes
between the attempts of request `7`. With the longer window first the resend is admitted and puts
fifteen units into a second that allows ten; with the shorter window first it is denied. -/
theorem resend_not_free :
    (∀ cfg : Config ℕ, ∃ tr, (system cfg).Path (afterFirst cfg) tr (beforeResend cfg) ∧
      ∀ e ∈ tr, Unrelated 7 e) ∧
    (∀ cfg ∈ [minuteFirst, secondFirst],
      (exec cfg (.acquire 7 fun _ => 5) 1000 fun _ => LimitKeys.initial).1.admitted = true) ∧
    ¬ResendFree minuteFirst 7 (fun _ => 5) (beforeResend minuteFirst) ∧
    sumAfter 2000 ((exec minuteFirst (.acquire 7 fun _ => 5) 3000
      (beforeResend minuteFirst).store).2 1).log.value.entries = 15 ∧
    (exec secondFirst (.acquire 7 fun _ => 5) 3000
      (beforeResend secondFirst).store).1.admitted = false := by
  refine ⟨path_beforeResend, ?_, ?_, by decide, by decide⟩
  · intro cfg hcfg
    simp only [List.mem_cons, List.not_mem_nil, or_false] at hcfg
    rcases hcfg with rfl | rfl
    · decide
    · decide
  rintro ⟨-, hlogs⟩
  have heq := congrArg SortedSet.zcard (hlogs secondLimit (by simp [minuteFirst]))
  revert heq
  decide

end RedisSemaphore.RateLimiter

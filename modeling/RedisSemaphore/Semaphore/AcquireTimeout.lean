import RedisSemaphore.Semaphore.AcquireLoop

/-!
# A blocking acquire keeps to its deadline

`_check_timeout`, `_remaining_time` and `_blpop_timeout_for` against `start_time + acquire_timeout`.
Everything the loop asks for has a positive duration within the remaining time (`Within`), so the
`0` at which `_remaining_time` stops never reaches Redis or a sleep.
-/

namespace RedisSemaphore.AcquireLoop

open Transition Client

/-- Its duration is positive and no longer than the remaining time. -/
def Request.Within (remaining : ℚ) (request : Request) : Prop :=
  0 < request.duration ∧ request.duration ≤ remaining

/-! ## The waits -/

section Waits

variable {cfg : Config} {socketTimeout remaining : Option ℚ} {request : Request} {time : ℚ}
  {attempts attempts' : ℕ} {draw : ℚ}

/-- A sleep between two polls ends by the deadline. -/
theorem waitPolling_within
    (h : waitPolling cfg (some time) attempts draw = .ok (some request, attempts')) :
    request.Within time := by
  unfold waitPolling at h
  cases hnext : nextRetryInterval cfg attempts draw with
  | error => simp [hnext, bind, Except.bind] at h
  | ok next =>
    obtain ⟨interval, attempts''⟩ := next
    simp only [hnext, bind, Except.bind, pure, Except.pure, Except.ok.injEq, Prod.mk.injEq] at h
    obtain ⟨hrequest, -⟩ := h
    split at hrequest
    · cases hrequest
    · rename_i hpositive
      obtain rfl := Option.some.inj hrequest
      exact ⟨not_le.mp hpositive, min_le_right _ _⟩

/-- A wait in `BLPOP` is under the socket timeout. -/
theorem cappedTimeout_le {cap : ℚ} (h : cap ∈ blpopWaitCap socketTimeout) :
    cappedTimeout cfg socketTimeout ≤ cap := by
  rw [Option.mem_def] at h
  rw [cappedTimeout, h]
  exact min_le_right _ _

/-- What a `BLPOP` may be issued with. -/
structure Issued (socketTimeout remaining : Option ℚ) (timeout : ℚ) : Prop where
  within : ∀ time ∈ remaining, timeout ≤ time
  least : 1 / 100 ≤ timeout
  capped : ∀ cap ∈ blpopWaitCap socketTimeout, timeout ≤ cap ∨ cap < 1 / 100

/-- The three caps, the clamp to 10 ms and the skipped wait. -/
theorem blpopTimeoutFor_eq_zero_or (cfg : Config) (socketTimeout remaining : Option ℚ) :
    blpopTimeoutFor cfg socketTimeout remaining = 0 ∨
      Issued socketTimeout remaining (blpopTimeoutFor cfg socketTimeout remaining) := by
  have hcap : ∀ cap ∈ blpopWaitCap socketTimeout, cappedTimeout cfg socketTimeout ≤ cap :=
    fun cap => cappedTimeout_le
  have hclamp : ∀ cap ∈ blpopWaitCap socketTimeout, 1 / 100 ≤ cap ∨ cap < 1 / 100 :=
    fun cap _ => le_or_gt _ _
  cases remaining with
  | none =>
    right
    simp only [blpopTimeoutFor]
    split
    · exact ⟨fun time h => (nomatch h), le_rfl, hclamp⟩
    · rename_i hlong
      exact ⟨fun time h => (nomatch h), not_lt.mp hlong, fun cap h => Or.inl (hcap cap h)⟩
  | some time =>
    simp only [blpopTimeoutFor]
    split
    · split
      · exact Or.inl rfl
      · rename_i htime
        refine Or.inr ⟨fun time' h => ?_, le_rfl, hclamp⟩
        obtain rfl := Option.mem_some_iff.mp h
        exact not_lt.mp htime
    · rename_i hlong
      refine Or.inr ⟨fun time' h => ?_, not_lt.mp hlong, fun cap h => ?_⟩
      · obtain rfl := Option.mem_some_iff.mp h
        exact min_le_right _ _
      · exact Or.inl ((min_le_left _ _).trans (hcap cap h))

/-- What `_wait_blpop` issues. -/
theorem waitBlpop_issued (h : waitBlpop cfg socketTimeout remaining = some request) :
    ∃ timeout, request = .blpop timeout ∧ Issued socketTimeout remaining timeout := by
  unfold waitBlpop at h
  simp only at h
  split at h
  · cases h
  · rename_i hpositive
    obtain rfl := Option.some.inj h
    rcases blpopTimeoutFor_eq_zero_or cfg socketTimeout remaining with hzero | hissued
    · exact absurd hzero.le hpositive
    · exact ⟨_, rfl, hissued⟩

/-- The pause after a transient error ends by the deadline. -/
theorem transientPause_within (h : transientPause cfg (some time) = some request) :
    request.Within time := by
  unfold transientPause at h
  simp only at h
  split at h
  · rename_i hpositive
    obtain rfl := Option.some.inj h
    exact ⟨hpositive, min_le_right _ _⟩
  · cases h

/-- So does any wait, in either mode. -/
theorem waitForSlot_within
    (h : waitForSlot cfg socketTimeout (some time) attempts draw = .ok (some request, attempts')) :
    request.Within time := by
  unfold waitForSlot at h
  split at h
  · simp only [Except.ok.injEq, Prod.mk.injEq] at h
    obtain ⟨timeout, rfl, hissued⟩ := waitBlpop_issued h.1
    have hpositive : 0 < timeout := lt_of_lt_of_le (by norm_num) hissued.least
    exact ⟨hpositive, hissued.within time rfl⟩
  · exact waitPolling_within h

/-- A `BLPOP` comes from `_wait_blpop` only. -/
theorem waitForSlot_blpop {timeout : ℚ}
    (h : waitForSlot cfg socketTimeout remaining attempts draw =
      .ok (some (.blpop timeout), attempts')) :
    Issued socketTimeout remaining timeout := by
  unfold waitForSlot at h
  split at h
  · simp only [Except.ok.injEq, Prod.mk.injEq] at h
    obtain ⟨timeout', heq, hissued⟩ := waitBlpop_issued h.1
    obtain rfl := Request.blpop.inj heq
    exact hissued
  · unfold waitPolling at h
    cases hnext : nextRetryInterval cfg attempts draw with
    | error => simp [hnext, bind, Except.bind] at h
    | ok next =>
      cases remaining with
      | none => simp [hnext, bind, Except.bind, pure, Except.pure] at h
      | some time =>
        simp only [hnext, bind, Except.bind, pure, Except.pure, Except.ok.injEq,
          Prod.mk.injEq] at h
        obtain ⟨hrequest, -⟩ := h
        split at hrequest
        · cases hrequest
        · cases hrequest

/-- A request within `_remaining_time` ends by the deadline. -/
theorem Request.Within.le_deadline {timeout startTime clock : ℚ}
    (h : request.Within (max 0 (timeout - (clock - startTime)))) :
    request.duration ≤ startTime + timeout - clock := by
  rcases le_max_iff.mp h.2 with hzero | hle
  · exact absurd h.1 (not_lt.mpr hzero)
  · linarith

end Waits

/-! ## Runs -/

section Runs

variable {cfg : Config} {socketTimeout : Option ℚ} {api : Api} {blocking : Bool} {entry : ℕ}
  {tr : List Event} {s s' : State} {e : Event}

/-- The last segment of the call was a failed attempt. -/
def JustDenied (tr : List Event) : Prop :=
  ∃ since before, tr = since ++ .script .denied :: before ∧ ∀ e ∈ since, e.Passive

/-- What others do in between is not an answer. -/
theorem JustDenied.passive (h : JustDenied tr) (he : e.Passive) : JustDenied (e :: tr) := by
  obtain ⟨since, before, rfl, hpassive⟩ := h
  exact ⟨e :: since, before, rfl, List.forall_mem_cons.mpr ⟨he, hpassive⟩⟩

/-- A call that is about to look at its timeout has just been denied. -/
theorem justDenied_of_run (h : (system cfg socketTimeout api blocking entry).Run tr s)
    (hphase : s.phase = .denied) : JustDenied tr := by
  refine System.Run.invariant (I := fun tr s => s.phase = .denied → JustDenied tr) ?_ ?_ h hphase
  · rintro s ⟨-, -, -, hentering⟩ hdenied
    rw [hentering] at hdenied
    cases hdenied
  · intro tr s e s' _ ih hstep hdenied
    cases hstep with
    | advance | others => exact (ih hdenied).passive trivial
    | denied => exact ⟨[], tr, rfl, by simp⟩
    | wait draw request => cases request <;> simp [afterRequest] at hdenied
    | pause hphase =>
      cases hrequest : transientPause cfg (remainingTime cfg s.startTime s.clock) <;>
        simp [afterRequest, hrequest] at hdenied
    | _ => simp at hdenied

/-- The step asks for this. -/
def Requests (s s' : State) (request : Request) : Prop :=
  s'.phase = .requested request ∧ s.phase ≠ .requested request

/-- A request is made by `_wait_for_slot`, or is the pause after a failed `BLPOP`. -/
theorem requests_cases (hstep : Step cfg socketTimeout api blocking s e s') {request : Request}
    (h : Requests s s' request) :
    (∃ attempts draw attempts', waitForSlot cfg socketTimeout
        (remainingTime cfg s.startTime s.clock) attempts draw = .ok (some request, attempts')) ∨
      transientPause cfg (remainingTime cfg s.startTime s.clock) = some request := by
  obtain ⟨hrequested, hnew⟩ := h
  cases hstep with
  | advance | others => exact absurd hrequested hnew
  | wait draw request' attempts hphase hnonneg hle hwait =>
    cases request' with
    | none => cases hrequested
    | some request' =>
      obtain rfl := Phase.requested.inj hrequested
      exact Or.inl ⟨_, _, _, hwait⟩
  | pause hphase =>
    right
    cases hpause : transientPause cfg (remainingTime cfg s.startTime s.clock) with
    | none => simp [afterRequest, hpause] at hrequested
    | some request' => simpa [afterRequest, hpause] using hrequested
  | _ => simp at hrequested

/-- **A blocking acquire keeps to its deadline.** Whatever it asks for ends by
`start_time + acquire_timeout`; a `BLPOP` is issued with at least 10 ms and below the cap of the
socket timeout, unless that cap is below 10 ms; the `AcquireTimeoutError` comes at the deadline or
later, and directly after a failed attempt. -/
theorem keeps_deadline (h : (system cfg socketTimeout api blocking entry).Run tr s)
    (hstep : Step cfg socketTimeout api blocking s e s') {timeout : ℚ}
    (htimeout : cfg.acquireTimeout = some timeout) :
    (∀ request, Requests s s' request → request.duration ≤ s.startTime + timeout - s.clock) ∧
    (∀ blpopTimeout, Requests s s' (.blpop blpopTimeout) → 1 / 100 ≤ blpopTimeout ∧
      ∀ cap ∈ blpopWaitCap socketTimeout, blpopTimeout ≤ cap ∨ cap < 1 / 100) ∧
    (s'.phase = .ended .acquireTimeout → s.startTime + timeout ≤ s.clock ∧ JustDenied tr) := by
  have hremaining : remainingTime cfg s.startTime s.clock
      = some (max 0 (timeout - (s.clock - s.startTime))) := by
    rw [remainingTime, htimeout, Option.map_some]
  refine ⟨fun request hrequest => ?_, fun blpopTimeout hrequest => ?_, fun hended => ?_⟩
  · rcases requests_cases hstep hrequest with ⟨attempts, draw, attempts', hwait⟩ | hpause
    · rw [hremaining] at hwait
      exact (waitForSlot_within hwait).le_deadline
    · rw [hremaining] at hpause
      exact (transientPause_within hpause).le_deadline
  · rcases requests_cases hstep hrequest with ⟨attempts, draw, attempts', hwait⟩ | hpause
    · exact ⟨(waitForSlot_blpop hwait).least, (waitForSlot_blpop hwait).capped⟩
    · simp [transientPause] at hpause
  · cases hstep with
    | handleTimeout hphase hexpired =>
      simp only [checkTimeout, htimeout, decide_eq_true_eq] at hexpired
      exact ⟨by linarith, justDenied_of_run h hphase⟩
    | advance _ hactive | others _ _ hactive => exact absurd hended (hactive _)
    | granted started => cases started <;> simp at hended
    | wait draw request => cases request <;> simp [afterRequest] at hended
    | pause =>
      cases hpause : transientPause cfg (remainingTime cfg s.startTime s.clock) <;>
        simp [afterRequest, hpause] at hended
    | _ => simp at hended

end Runs

/-- One second in all, and `BLPOP`s of five. -/
def oneSecond : Config where
  acquireTimeout := some 1
  retryInterval := 1 / 10
  acquireMode := .blpop
  retryIntervalMax := none
  retryBackoffMultiplier := 2
  retryJitter := 1 / 10
  blpopTimeout := 5
  acquireTimeout_pos := by simp
  retryInterval_pos := by norm_num
  le_retryIntervalMax := by simp
  one_le_multiplier := by norm_num
  retryJitter_nonneg := by norm_num
  retryJitter_le_one := by norm_num
  blpopTimeout_pos := by norm_num

/-- A client with a socket timeout of 100 ms waits for 80. -/
theorem keeps_deadline_capped : ∃ s s', Requests s s' (.blpop (8 / 100)) ∧
    (Request.blpop (8 / 100)).duration ≤ s.startTime + 1 - s.clock := by
  have hwait : Step oneSecond (some (1 / 10)) .sync true ⟨0, 0, 0, true, 1, .toWait⟩ (.wait 0) _ :=
    .wait 0 (some (.blpop (8 / 100))) 0 rfl le_rfl zero_le_one (by
      norm_num [waitForSlot, waitBlpop, blpopTimeoutFor, cappedTimeout, blpopWaitCap,
        remainingTime, oneSecond])
  have hrequests : Requests ⟨0, 0, 0, true, 1, .toWait⟩
      ⟨0, 0, 0, true, 1, .requested (.blpop (8 / 100))⟩ (.blpop (8 / 100)) := ⟨rfl, by simp⟩
  exact ⟨_, _, hrequests, (keeps_deadline (run_toWait _ _ _) hwait rfl).1 _ hrequests⟩

end RedisSemaphore.AcquireLoop

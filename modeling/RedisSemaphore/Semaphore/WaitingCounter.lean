import RedisSemaphore.Semaphore.Backoff

/-!
# The waiting counter

`_increment_waiting` and `_decrement_waiting` around the wait loop. A call is counted from its first
failed attempt on; `_finalize_acquire` and `_handle_timeout` take it back. `Counted` says what the
counter is at every moment of a call, and every other exit leaves the call counted.

Other calls on the instance may change the counter between two segments; `drift` is what they added
and took back meanwhile.
-/

namespace RedisSemaphore.AcquireLoop

open Transition Client

/-- What an event of others adds to the counter. -/
def Event.delta : Event → ℤ
  | .others delta => delta
  | _ => 0

/-- What others have added to the counter since the call began. -/
def drift (tr : List Event) : ℤ := (tr.map Event.delta).sum

@[simp] theorem drift_cons (e : Event) (tr : List Event) :
    drift (e :: tr) = e.delta + drift tr := by
  simp [drift]

/-- The event ends the call with an exception other than the timeout: the script call or the wait
raises, or the task is cancelled. -/
def Fails (cfg : Config) (s : State) : Event → Prop
  | .script reply => reply = .error
  | .waitFailed transient => transient = false
  | .wait _ => cfg.acquireMode = .polling ∧ Overflows cfg s.attempts
  | .cancel => True
  | _ => False

section Runs

variable {cfg : Config} {socketTimeout : Option ℚ} {api : Api} {blocking : Bool} {entry : ℕ}
  {tr : List Event} {s s' : State} {e : Event}

/-- The call's own part of the counter. -/
def State.own (s : State) : ℕ := if s.registered then 1 else 0

/-- What the counter is while the call goes on. -/
structure Counted (blocking : Bool) (entry : ℕ) (tr : List Event) (s : State) : Prop where
  waiting : (s.waiting : ℤ) = entry + drift tr + s.own
  positive : s.registered = true → 0 < s.waiting
  registered : s.registered = true ↔ .script .denied ∈ tr
  blocking : s.registered = true → blocking = true
  entering : s.phase = .entering → s.registered = false

/-- A segment that does not look at the counter. -/
theorem Counted.frame (h : Counted blocking entry tr s) (hwaiting : s'.waiting = s.waiting)
    (hregistered : s'.registered = s.registered) (hdelta : e.delta = 0)
    (hdenied : e ≠ .script .denied) (hentering : s'.phase = .entering → s.phase = .entering) :
    Counted blocking entry (e :: tr) s' := by
  refine ⟨?_, ?_, ?_, ?_, ?_⟩
  · rw [hwaiting, drift_cons, hdelta, zero_add, State.own, hregistered]
    exact h.waiting
  · rw [hwaiting, hregistered]
    exact h.positive
  · rw [hregistered, h.registered, List.mem_cons, or_iff_right (Ne.symm hdenied)]
  · rw [hregistered]
    exact h.blocking
  · rw [hregistered]
    exact fun hphase => h.entering (hentering hphase)

/-- The first failed attempt of a blocking call. -/
theorem Counted.register (h : Counted blocking entry tr s) (hblocking : blocking = true) :
    Counted blocking entry (.script .denied :: tr) { s.register with phase := .denied } := by
  have hregister : s.register.registered = true ∧ 0 < s.register.waiting ∧
      (s.register.waiting : ℤ) = entry + drift tr + 1 := by
    have hwaiting := h.waiting
    unfold State.own at hwaiting
    unfold State.register
    split
    · rename_i hregistered
      rw [if_pos hregistered] at hwaiting
      exact ⟨hregistered, h.positive hregistered, hwaiting⟩
    · rename_i hregistered
      rw [if_neg hregistered] at hwaiting
      refine ⟨rfl, Nat.succ_pos _, ?_⟩
      push_cast
      omega
  obtain ⟨hregistered, hpositive, hwaiting⟩ := hregister
  refine ⟨?_, fun _ => hpositive, ?_, fun _ => hblocking, fun hphase => nomatch hphase⟩
  · simpa [State.own, hregistered, Event.delta] using hwaiting
  · simp [hregistered]

/-- **One segment** of a call that goes on. -/
theorem Counted.step (h : Counted blocking entry tr s)
    (hstep : Step cfg socketTimeout api blocking s e s') (hactive : s'.Active) :
    Counted blocking entry (e :: tr) s' := by
  cases hstep with
  | advance => exact h.frame rfl rfl rfl (by simp) id
  | others delta waiting _ hdelta hown =>
    have hwaiting := h.waiting
    refine ⟨?_, hown, ?_, h.blocking, h.entering⟩
    · show (waiting : ℤ) = entry + drift (.others delta :: tr) + s.own
      rw [drift_cons, hdelta, hwaiting, Event.delta]
      omega
    · rw [List.mem_cons, or_iff_right (by simp)]
      exact h.registered
  | denied hphase hblocking => exact h.register hblocking
  | checksPassed | inTime | woken | waitFailed => exact h.frame rfl rfl rfl (by simp) (by simp)
  | wait draw request =>
    exact h.frame rfl rfl rfl (by simp) (by cases request <;> simp [afterRequest])
  | pause =>
    refine h.frame rfl rfl rfl (by simp) ?_
    cases transientPause cfg (remainingTime cfg s.startTime s.clock) <;> simp [afterRequest]
  | _ => exact absurd rfl (hactive _)

theorem counted_of_run (h : (system cfg socketTimeout api blocking entry).Run tr s) :
    s.Active → Counted blocking entry tr s := by
  refine System.Run.invariant (I := fun tr s => s.Active → Counted blocking entry tr s) ?_ ?_ h
  · rintro s ⟨-, hregistered, hwaiting, -⟩ -
    refine ⟨?_, ?_, ?_, ?_, fun _ => hregistered⟩ <;>
      simp [hregistered, hwaiting, drift, State.own]
  · intro tr s e s' _ ih (hstep : Step cfg socketTimeout api blocking s e s') hactive
    exact (ih hstep.active).step hstep hactive

/-- The counter after `_finalize_acquire` or `_handle_timeout`. -/
theorem Counted.unregister (h : Counted blocking entry tr s) :
    (s.unregister.waiting : ℤ) = entry + drift tr := by
  have hwaiting := h.waiting
  unfold State.own at hwaiting
  unfold State.unregister
  split
  · rename_i hregistered
    have hpositive := h.positive hregistered
    rw [if_pos hregistered] at hwaiting
    simp only
    omega
  · rename_i hregistered
    rw [if_neg hregistered] at hwaiting
    omega

/-- Where the counter is left as it is, it is balanced for a call that has not been denied. -/
theorem Counted.waiting_iff (h : Counted blocking entry tr s) :
    (s.waiting : ℤ) = entry + drift tr ↔ .script .denied ∉ tr := by
  rw [← h.registered, h.waiting, State.own]
  split
  · rename_i hregistered
    simp [hregistered]
  · rename_i hregistered
    simp [hregistered]

/-- **The counter is balanced** after a call, but for what others did to it, exactly if the call was
not ended by an exception other than its timeout after a failed attempt. -/
theorem counter_balanced_iff (h : (system cfg socketTimeout api blocking entry).Run tr s)
    (hstep : Step cfg socketTimeout api blocking s e s') {outcome : Outcome}
    (hended : s'.phase = .ended outcome) :
    (s'.waiting : ℤ) = entry + drift (e :: tr) ↔ ¬(.script .denied ∈ tr ∧ Fails cfg s e) := by
  have hcounted := counted_of_run h hstep.active
  rw [drift_cons]
  cases hstep with
  | granted | handleTimeout =>
    exact iff_of_true (by simpa [Event.delta] using hcounted.unregister) (by simp [Fails])
  | checksFailed hphase =>
    have hunregistered := hcounted.entering hphase
    change (s.waiting : ℤ) = entry + (0 + drift tr) ↔ _
    rw [zero_add, hcounted.waiting_iff, ← hcounted.registered]
    simp [hunregistered]
  | busy hphase hblocking =>
    have hunregistered : ¬ s.registered = true := fun hregistered =>
      absurd (hcounted.blocking hregistered) (by simp [hblocking])
    change (s.waiting : ℤ) = entry + (0 + drift tr) ↔ _
    rw [zero_add, hcounted.waiting_iff, ← hcounted.registered]
    simp [hunregistered]
  | scriptError | waitError | cancel =>
    change (s.waiting : ℤ) = entry + (0 + drift tr) ↔ _
    rw [zero_add, hcounted.waiting_iff]
    simp [Fails]
  | overflow draw hphase hwait =>
    have hoverflows := waitForSlot_error_iff.mp hwait
    change (s.waiting : ℤ) = entry + (0 + drift tr) ↔ _
    rw [zero_add, hcounted.waiting_iff]
    simp [Fails, hoverflows]
  | advance _ hactive | others _ _ hactive => exact absurd hended (hactive _)
  | wait draw request => cases request <;> simp [afterRequest] at hended
  | pause =>
    cases hpause : transientPause cfg (remainingTime cfg s.startTime s.clock) <;>
      simp [afterRequest, hpause] at hended
  | _ => simp at hended

end Runs

/-- A poll every 100 ms, without a timeout. -/
def steady : Config :=
  { doubling with
    retryIntervalMax := none
    le_retryIntervalMax := by simp }

/-- A task in its first sleep. -/
theorem run_asleep : (system steady none .async true 0).Run
    [.wait 0, .checkTimeout, .script .denied, .checks true]
    ⟨0, 0, 1, true, 1, .requested (.sleep (1 / 10))⟩ := by
  refine (run_toWait steady none .async).step (.wait 0 (some _) _ rfl le_rfl zero_le_one ?_)
  norm_num [waitForSlot, waitPolling, nextRetryInterval, backoffInterval, steady, doubling,
    oneSecond, remainingTime, bind, Except.bind, pure, Except.pure]

/-- It is granted the slot afterwards, and the counter is back at zero. -/
theorem counter_balanced_iff_granted : ∃ s : State, s.phase = .ended (.returned true) ∧
    (s.waiting : ℤ) = (0 : ℕ) + 0 := by
  have h := run_asleep.step (.woken _ rfl)
  have hgranted : Step steady none .async true ⟨0, 0, 1, true, 1, .scriptInFlight⟩
      (.script (.granted true)) _ := .granted true rfl
  exact ⟨_, rfl, (counter_balanced_iff h hgranted rfl).mpr (by simp [Fails])⟩

/-- **A cancelled waiter stays counted.** -/
theorem counter_leaks : ∃ tr s, (system steady none .async true 0).Run tr s ∧
    s.phase = .ended .cancelled ∧ drift tr = 0 ∧ s.waiting = 1 :=
  ⟨_, _, run_asleep.step (.cancel rfl (Or.inr ⟨_, rfl⟩)), rfl, rfl, rfl⟩

end RedisSemaphore.AcquireLoop

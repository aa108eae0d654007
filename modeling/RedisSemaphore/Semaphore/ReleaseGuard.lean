import RedisSemaphore.Semaphore.Belief

/-!
# When a release is refused

`release` raises `NotAcquiredError` when the instance has no identifier. An acquire makes the
identifier before it asks the server and keeps it whatever the answer, so the guard knows of
attempts and not of successes.
-/

namespace RedisSemaphore.Client

open Transition

variable {ι C : Type*} {cfg : Config}

/-! ## What a trace says about the guard -/

/-- The event handles the reply of a release, which resets the instance. -/
def Event.resets : Event ι C → Bool
  | .proceed _ (.release _) => true
  | .leave _ (.release _) (.returned value) => !value
  | _ => false

/-- An acquire gets past its checks. -/
def Event.begins : Event ι C → Bool
  | .enter _ (.acquire _ _) => true
  | _ => false

/-- An acquire succeeds. -/
def Event.succeeds : Event ι C → Bool
  | .leave _ (.acquire _ _) (.returned value) => value
  | _ => false

/-- An event of the kind has happened since the instance was created or last released. -/
def sinceReset (kind : Event ι C → Bool) : List (Event ι C) → Bool
  | [] => false
  | e :: tr => !e.resets && (kind e || sinceReset kind tr)

/-! ## The identifier -/

section Step

variable [DecidableEq C] {m m' : Machine ι C} {e : Event ι C} {tr : List (Event ι C)}

/-- An acquire that begins leaves an identifier, a release that is answered leaves none, and every
other event leaves it as it is. -/
theorem isSome_identifier_step (h : Step cfg m e m') :
    m'.inst.identifier.isSome = (!e.resets && (e.begins || m.inst.identifier.isSome)) := by
  have hkept : m'.inst.identifier = m.inst.identifier → e.resets = false → e.begins = false →
      m'.inst.identifier.isSome = (!e.resets && (e.begins || m.inst.identifier.isSome)) := by
    intro hidentifier hresets hbegins
    rw [hidentifier, hresets, hbegins]
    rfl
  cases h with
  | acquireBegin c api blocking new => rfl
  | releaseUnheld c api => rfl
  | released c api => rfl
  | acquireWait | acquireTimeout => exact hkept (state_register ..).2 rfl rfl
  | acquireGranted | astartFailed => exact hkept (identifier_finalizeAcquire ..).2 rfl rfl
  | acquireReturns m₁ c blocking hcall hbeat =>
    exact hkept (state_startHeartbeat hbeat).2.1 rfl rfl
  | aacquireReturns m₁ c blocking registered fencingToken expiresAt hcall hbeat =>
    exact hkept ((state_startHeartbeat hbeat).2.1.trans (identifier_finalizeAcquire ..).2) rfl rfl
  | refreshGone c api => exact hkept rfl rfl rfl
  | stopRaised c op | stopItself c op => cases op <;> exact hkept rfl rfl rfl
  | unheld | declared => exact hkept (identifier_onLost _ _) rfl rfl
  | listen => exact hkept (state_listen _).2 rfl rfl
  | _ => exact hkept rfl rfl rfl

/-- The instance has an identifier exactly if an acquire has begun since it was created or last
released. -/
theorem isSome_identifier_of_run (h : (system cfg).Run tr m) :
    m.inst.identifier.isSome = sinceReset Event.begins tr := by
  refine System.Run.invariant
    (I := fun tr m => m.inst.identifier.isSome = sinceReset Event.begins tr) ?_ ?_ h
  · rintro m rfl
    rfl
  · intro tr m e m' _ ih hstep
    rw [isSome_identifier_step hstep, ih]
    rfl

/-! ## The guard -/

/-- A release is refused for want of an identifier, and for nothing else. -/
theorem release_refused_iff_identifier {c : C} (hidle : m.calls c = .idle) (api : Api) :
    (∃ m', Step cfg m (.leave c (.release api) (.raised .notAcquired)) m') ↔
      m.inst.identifier.isSome = false := by
  rw [Option.isSome_eq_false_iff, Option.isNone_iff_eq_none]
  constructor
  · rintro ⟨m', hstep⟩
    cases hstep with
    | releaseRefused _ _ _ _ hcheck =>
      by_contra hsome
      rw [Instance.releaseChecks, if_neg hsome, Instance.checkMode] at hcheck
      split at hcheck
      · cases hcheck
      · split at hcheck <;> cases hcheck
    | releaseFailed _ _ _ _ herr => rcases herr with herr | ⟨herr, -⟩ <;> cases herr
  · intro hnone
    exact ⟨m, .releaseRefused c api .notAcquired hidle (if_pos hnone)⟩

/-- **When a release without a slot is an error.** At every moment of every run, a release is
refused exactly if no acquire has succeeded since the instance was created or last released, if and
only if an acquire has succeeded since then as soon as one has begun. -/
theorem release_refused_iff (h : (system cfg).Run tr m) {c : C} (hidle : m.calls c = .idle)
    (api : Api) :
    ((∃ m', Step cfg m (.leave c (.release api) (.raised .notAcquired)) m') ↔
        sinceReset Event.succeeds tr = false) ↔
      sinceReset Event.begins tr = sinceReset Event.succeeds tr := by
  rw [release_refused_iff_identifier hidle, isSome_identifier_of_run h]
  cases sinceReset Event.begins tr with
  | false => cases sinceReset Event.succeeds tr <;> simp
  | true => cases sinceReset Event.succeeds tr <;> simp

end Step

/-! ## One call at a time -/

/-- The call is an acquire past its checks. -/
def Phase.Acquires : Phase → Prop
  | .acquiring _ _ _ => True
  | .waiting _ => True
  | .finalized _ => True
  | _ => False

section Sequential

variable {m m' : Machine ι Unit} {e : Event ι Unit} {tr : List (Event ι Unit)}

/-- An acquire past its checks has just begun, or was there before. -/
theorem acquires_of_step (h : Step cfg m e m') (hafter : (m'.calls ()).Acquires) :
    e.resets = false ∧ (e.begins = true ∨ (m.calls ()).Acquires) := by
  cases h with
  | acquireBegin c api blocking new => exact ⟨rfl, Or.inl rfl⟩
  | acquireWait c _ _ hcall | acquireRetry c _ hcall | acquireGranted c _ _ _ _ hcall =>
    refine ⟨rfl, Or.inr ?_⟩
    rw [show m.calls () = _ from hcall]
    trivial
  | acquireRefused | refreshUnheld | wake | renewed | tolerated | callbackDone | exited | unheld
  | declared | listen => exact ⟨rfl, Or.inr hafter⟩
  | releaseRefused => exact ⟨rfl, Or.inr hafter⟩
  | _ => simp [Phase.Acquires] at hafter

/-- A call that succeeds was an acquire past its checks. -/
theorem acquires_of_succeeds (h : Step cfg m e m') (hsucceeds : e.succeeds = true) :
    (m.calls ()).Acquires := by
  cases h with
  | acquireReturns m₁ c blocking hcall =>
    rw [show m.calls () = _ from hcall]
    trivial
  | aacquireReturns m₁ c blocking registered fencingToken expiresAt hcall =>
    rw [show m.calls () = _ from hcall]
    trivial
  | stopRaised c op | stopItself c op => cases op <;> cases hsucceeds
  | _ => cases hsucceeds

/-- With one call at a time an acquire that has succeeded since the last release has also begun
since, so a release is wrongly let through after attempts that failed, and wrongly refused never. -/
theorem begins_of_succeeds (h : (system cfg).Run tr m) :
    ((m.calls ()).Acquires → sinceReset Event.begins tr = true) ∧
      (sinceReset Event.succeeds tr = true → sinceReset Event.begins tr = true) := by
  refine System.Run.invariant
    (I := fun tr m => ((m.calls ()).Acquires → sinceReset Event.begins tr = true) ∧
      (sinceReset Event.succeeds tr = true → sinceReset Event.begins tr = true)) ?_ ?_ h
  · rintro m rfl
    exact ⟨False.elim, fun hsucceeds => hsucceeds⟩
  · rintro tr m e m' - ⟨hacquires, hsucceeds⟩ hstep
    constructor
    · intro hafter
      obtain ⟨hresets, hbefore⟩ := acquires_of_step hstep hafter
      rcases hbefore with hbegins | hbefore
      · simp [sinceReset, hresets, hbegins]
      · simp [sinceReset, hresets, hacquires hbefore]
    · intro hafter
      simp only [sinceReset, Bool.and_eq_true, Bool.or_eq_true] at hafter ⊢
      obtain ⟨hresets, hnow | hbefore⟩ := hafter
      · exact ⟨hresets, Or.inr (hacquires (acquires_of_succeeds hstep hnow))⟩
      · exact ⟨hresets, Or.inr (hsucceeds hbefore)⟩

end Sequential

/-! ### A busy semaphore -/

/-- An acquire that finds every slot taken. -/
def busyAcquire : List (Event ℕ Unit) :=
  [.leave () (.acquire .sync false) (.returned false), .enter () (.acquire .sync false)]

/-- An acquire that is granted. -/
def grantedAcquire : List (Event ℕ Unit) :=
  [.leave () (.acquire .sync true) (.returned true), .proceed () (.acquire .sync true),
    .enter () (.acquire .sync true)]

/-- A busy acquire after a granted one: the release is not refused, and it should not be. -/
theorem release_refused_granted : ∃ m : Machine ℕ Unit,
    (system strict).Run (busyAcquire ++ grantedAcquire) m ∧
    ((∃ m', Step strict m (.leave () (.release .sync) (.raised .notAcquired)) m') ↔
      sinceReset Event.succeeds (busyAcquire ++ grantedAcquire) = false) := by
  have h₀ : (system strict).Run [] (Machine.initial : Machine ℕ Unit) := .start rfl
  have h₁ := h₀.step (Step.acquireBegin () .sync true 7 rfl rfl)
  have h₂ := h₁.step (Step.acquireGranted () true false (some 1) (some 30000) rfl)
  have h₃ := h₂.step (Step.acquireReturns _ () true rfl rfl)
  have h₄ := h₃.step (Step.acquireBegin () .sync false 8 rfl rfl)
  have h₅ : (system strict).Run (busyAcquire ++ grantedAcquire) _ :=
    h₄.step (Step.acquireBusy () .sync false rfl)
  exact ⟨_, h₅, (release_refused_iff h₅ rfl .sync).mpr rfl⟩

/-- **After a busy acquire** a release is let through: nothing has succeeded, and it goes on to the
server with the identifier that the attempt has left. -/
theorem release_after_busy : ∃ m m' : Machine ℕ Unit, (system strict).Run busyAcquire m ∧
    sinceReset Event.succeeds busyAcquire = false ∧
    (¬ ∃ m', Step strict m (.leave () (.release .sync) (.raised .notAcquired)) m') ∧
    Step strict m (.enter () (.release .sync)) m' := by
  have h₀ : (system strict).Run [] (Machine.initial : Machine ℕ Unit) := .start rfl
  have h₁ := h₀.step (Step.acquireBegin () .sync false 7 rfl rfl)
  have h₂ : (system strict).Run busyAcquire _ := h₁.step (Step.acquireBusy () .sync false rfl)
  refine ⟨_, _, h₂, rfl, ?_, .releaseBegin () .sync rfl rfl rfl⟩
  rw [release_refused_iff_identifier rfl]
  simp [Machine.setCall, Instance.ensureIdentifier]

end RedisSemaphore.Client

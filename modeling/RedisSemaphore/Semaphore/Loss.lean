import RedisSemaphore.Semaphore.Belief
import RedisSemaphore.Semaphore.HeartbeatLife

/-!
# How a loss is told

Two ways of telling the user that the slot is gone: the event behind `wait_for_lock_lost` and
`await_lock_lost`, and the callback `on_lock_lost`. The event is cleared by `_reset_state` only, so
it outlives the loss when an acquire is granted to a lost instance (`signal_iff_lost`). The callback
is made by heartbeat loops only, with the identifier the loop was started with, so a loss that a
refresh finds is not reported (`reports_eq_losses`).
-/

namespace RedisSemaphore.Client

open Transition

variable {ι C : Type*} {cfg : Config}

/-! ## The signal -/

/-- What a listener sees: `wait_for_lock_lost` waits for the thread event, and `await_lock_lost` for
either, with a look at the thread event every second. -/
def Instance.signal (s : Instance ι) : Api → Bool
  | .sync => s.lockLostEvent
  | .async => s.lockLostEvent || s.asyncLockLostEvent.getD false

/-- The reply of an acquire that was granted is met. -/
def Finalizes (m m' : Machine ι C) : Prop :=
  ∃ c api blocking registered fencingToken expiresAt heartbeat,
    m.calls c = .acquiring api blocking registered ∧
      m'.inst = { m.inst.finalizeAcquire fencingToken expiresAt registered api with
        heartbeat := heartbeat }

/-- The ways of writing the state and the two events. -/
inductive Turn (m m' : Machine ι C) : Prop
  | kept (hstate : m'.inst.state = m.inst.state)
      (hthread : m'.inst.lockLostEvent = m.inst.lockLostEvent)
      (htask : m'.inst.asyncLockLostEvent = m.inst.asyncLockLostEvent) : Turn m m'
  | listened (hinst : m'.inst = m.inst.listen) : Turn m m'
  | finalized (hgrant : Finalizes m m') : Turn m m'
  | reset (hinst : m'.inst = m.inst.resetState) : Turn m m'
  | lost (api : Api) (hinst : m'.inst = m.inst.lose api) : Turn m m'

/-- A granted acquire leaves both events as they are. -/
theorem Finalizes.signs {m m' : Machine ι C} (h : Finalizes m m') :
    m'.inst.state = .acquired ∧ m'.inst.lockLostEvent = m.inst.lockLostEvent ∧
      m'.inst.asyncLockLostEvent = m.inst.asyncLockLostEvent := by
  obtain ⟨c, api, blocking, registered, fencingToken, expiresAt, heartbeat, -, hinst⟩ := h
  rw [hinst]
  cases registered with
  | false => exact ⟨rfl, rfl, rfl⟩
  | true => exact ⟨rfl, rfl, rfl⟩

/-- `_start_heartbeat` writes one field of the instance. -/
theorem inst_startHeartbeat {m m' : Machine ι C} {api : Api}
    (h : m.startHeartbeat api = some m') :
    ∃ heartbeat, m'.inst = { m.inst with heartbeat := heartbeat } := by
  unfold Machine.startHeartbeat at h
  split at h
  · obtain rfl := Option.some.inj h
    exact ⟨_, rfl⟩
  · split at h
    · cases h
    · obtain rfl := Option.some.inj h
      exact ⟨_, rfl⟩

/-- A heartbeat declares the loss. -/
theorem turn_markLost (m : Machine ι C) (k : ℕ) (api : Api) : Turn m (m.markLost k api) := by
  by_cases hstate : m.inst.state = .acquired
  · apply Turn.lost api
    show m.inst.onLost api = _
    rw [Instance.onLost, if_pos hstate]
  · have hsame : (m.markLost k api).inst = m.inst := by
      show m.inst.onLost api = _
      rw [Instance.onLost, if_neg hstate]
    apply Turn.kept
    all_goals rw [hsame]

/-- Each step is one of the turns. -/
theorem Step.turn [DecidableEq C] {m m' : Machine ι C} {e : Event ι C} (h : Step cfg m e m') :
    Turn m m' := by
  cases h with
  | acquireWait c api registered hcall =>
    cases registered with
    | false => exact .kept rfl rfl rfl
    | true => exact .kept rfl rfl rfl
  | acquireTimeout c api registered hcall =>
    cases registered with
    | false => exact .kept rfl rfl rfl
    | true => exact .kept rfl rfl rfl
  | acquireGranted c blocking registered fencingToken expiresAt hcall =>
    exact .finalized ⟨c, .sync, blocking, registered, fencingToken, expiresAt, _, hcall, rfl⟩
  | acquireReturns m₁ c blocking hcall hbeat =>
    obtain ⟨heartbeat, hinst⟩ := inst_startHeartbeat hbeat
    apply Turn.kept
    all_goals
      rw [inst_setCall, hinst]
  | aacquireReturns m₁ c blocking registered fencingToken expiresAt hcall hbeat =>
    obtain ⟨heartbeat, hinst⟩ := inst_startHeartbeat hbeat
    exact .finalized
      ⟨c, .async, blocking, registered, fencingToken, expiresAt, heartbeat, hcall, hinst⟩
  | astartFailed c blocking registered fencingToken expiresAt hcall hbeat =>
    exact .finalized ⟨c, .async, blocking, registered, fencingToken, expiresAt, _, hcall, rfl⟩
  | releaseUnheld c api hcall => exact .reset rfl
  | released c api hcall => exact .reset rfl
  | refreshHalt c api k hcall hbeat => exact .lost api rfl
  | refreshGone c api hcall hbeat => exact .lost api rfl
  | unheld k h hk hloop hstop hheld => exact turn_markLost m k h.api
  | declared k h hk hanswer => exact turn_markLost m k h.api
  | listen => exact .listened rfl
  | _ => exact .kept rfl rfl rfl

/-- The events agree with the state. -/
structure Instance.Told (s : Instance ι) : Prop where
  thread : s.lockLostEvent = true ↔ s.state = .lost
  task : s.asyncLockLostEvent = some true → s.state = .lost

/-- The signal of a lock is set just when the instance says it is lost. -/
theorem Instance.Told.signal {s : Instance ι} (h : s.Told) (api : Api) :
    s.signal api = true ↔ s.state = .lost := by
  cases api with
  | sync => exact h.thread
  | async =>
    unfold Instance.signal
    rw [Bool.or_eq_true, h.thread]
    constructor
    · intro hset
      rcases hset with hthread | htask
      · exact hthread
      · cases hevent : s.asyncLockLostEvent with
        | none => simp [hevent] at htask
        | some event =>
          obtain rfl : event = true := by simpa [hevent] using htask
          exact h.task hevent
    · exact Or.inl

/-- A listener that comes later is told the same. -/
theorem Instance.Told.listen {s : Instance ι} (h : s.Told) : s.listen.Told := by
  unfold Instance.listen
  by_cases hset : s.lockLostEvent = true
  · rw [if_pos hset]
    exact h
  · rw [if_neg hset]
    refine ⟨h.thread, fun htask => ?_⟩
    cases hevent : s.asyncLockLostEvent with
    | none => simp [hevent] at htask
    | some event =>
      obtain rfl : event = true := by simpa [hevent] using htask
      exact h.task hevent

/-- A reset clears the signals along with the belief. -/
theorem Instance.told_resetState (s : Instance ι) : s.resetState.Told := by
  unfold Instance.resetState
  refine ⟨by simp, fun htask => ?_⟩
  cases hevent : s.asyncLockLostEvent with
  | none => simp [hevent] at htask
  | some event => simp [hevent] at htask

/-- A loss sets them along with it. -/
theorem Instance.told_lose (s : Instance ι) (api : Api) : (s.lose api).Told := by
  unfold Instance.lose
  exact ⟨iff_of_true rfl rfl, fun _ => rfl⟩

section Signal

variable [DecidableEq C] {m m' : Machine ι C} {e : Event ι C}

/-- A step keeps the agreement, unless it is a grant that meets a lost instance. -/
theorem told_step_iff (h : m.inst.Told) (hstep : Step cfg m e m') :
    m'.inst.Told ↔ (Finalizes m m' → m.inst.state ≠ .lost) := by
  constructor
  · intro htold hgrant hlost
    obtain ⟨hstate, hthread, -⟩ := hgrant.signs
    rw [← h.thread, ← hthread, htold.thread, hstate] at hlost
    cases hlost
  · intro hok
    -- every turn but a granted acquire tells the listeners what it makes of the belief
    cases hstep.turn with
    | kept hstate hthread htask =>
      refine ⟨?_, ?_⟩
      · rw [hstate, hthread]
        exact h.thread
      · rw [hstate, htask]
        exact h.task
    | listened hinst =>
      rw [hinst]
      exact h.listen
    | finalized hgrant =>
      have hlost := hok hgrant
      obtain ⟨hstate, hthread, htask⟩ := hgrant.signs
      refine ⟨?_, ?_⟩
      · rw [hstate, hthread, h.thread]
        exact iff_of_false hlost (by simp)
      · rw [htask]
        intro hevent
        exact absurd (h.task hevent) hlost
    | reset hinst =>
      rw [hinst]
      exact m.inst.told_resetState
    | lost api hinst =>
      rw [hinst]
      exact m.inst.told_lose api

/-- **The signal means that the lock is lost now** in every run in which no acquire is granted to a
lost instance, and the first such grant is where it stops to. -/
theorem signal_iff_lost {tr : List (Event ι C)}
    (h : ((system cfg).within fun m _ m' => Finalizes m m' → m.inst.state ≠ .lost).Run tr m) :
    (∀ api, m.inst.signal api = true ↔ m.inst.state = .lost) ∧
      ∀ e m', Step cfg m e m' →
        ((∀ api, m'.inst.signal api = true ↔ m'.inst.state = .lost) ↔
          (Finalizes m m' → m.inst.state ≠ .lost)) := by
  have htold : m.inst.Told := by
    refine Transition.System.Run.invariant (I := fun _ m => m.inst.Told) ?_ ?_ h
    · rintro m rfl
      unfold Machine.initial Instance.initial
      exact ⟨by simp, by simp⟩
    · intro tr m e m' _ hm hstep
      exact (told_step_iff hm hstep.2).mpr hstep.1
  refine ⟨htold.signal, fun e m' hstep => ?_⟩
  rw [← told_step_iff htold hstep]
  constructor
  · intro hsignal
    refine ⟨hsignal .sync, fun htask => ?_⟩
    rw [← hsignal .async]
    simp [Instance.signal, htask]
  · exact Instance.Told.signal

end Signal

/-- A granted acquire, and a heartbeat that declares the loss. -/
theorem signal_iff_lost_declared : ∃ m : Machine ℕ Unit,
    ((system lenient).within fun m _ m' => Finalizes m m' → m.inst.state ≠ .lost).Run
      [.lost 0 .sync true (some 7), .beat 0, .leave () (.acquire .sync true) (.returned true),
        .proceed () (.acquire .sync true), .enter () (.acquire .sync true)] m ∧
    m.inst.signal .sync = true := by
  have h₀ : ((system lenient).within fun m _ m' => Finalizes m m' → m.inst.state ≠ .lost).Run []
    (Machine.initial : Machine ℕ Unit) := .start rfl
  have h₁ := h₀.step ⟨fun _ => by simp [Machine.initial, Instance.initial],
    Step.acquireBegin () .sync true 7 rfl rfl⟩
  have h₂ := h₁.step ⟨fun _ => by
      show LockState.released ≠ _
      simp,
    Step.acquireGranted () true false (some 1) (some 30000) rfl⟩
  have h₃ := h₂.step ⟨fun _ => by
      show LockState.acquired ≠ _
      simp,
    Step.acquireReturns _ () true rfl rfl⟩
  have h₄ := h₃.step ⟨fun _ => by
      show LockState.acquired ≠ _
      simp,
    Step.wake 0 beating rfl rfl rfl ⟨Option.some_ne_none 7, rfl⟩⟩
  have h₅ := h₄.step ⟨fun _ => by
      show LockState.acquired ≠ _
      simp,
    Step.declared 0 { beating with loop := .refreshing } rfl ⟨rfl, by simp [beating]⟩⟩
  exact ⟨_, h₅, ((signal_iff_lost h₅).1 .sync).mpr rfl⟩

/-- **Acquired, and signalled as lost.** The heartbeat declares the loss, and outside strict mode
the next acquire is granted. It holds a slot, and both events still say that it is lost. -/
theorem signal_outlives_loss : ∃ m : Machine ℕ Unit, (system lenient).Run
    [.leave () (.acquire .sync true) (.returned true), .proceed () (.acquire .sync true),
      .enter () (.acquire .sync true), .lost 0 .sync true (some 7), .beat 0,
      .leave () (.acquire .sync true) (.returned true), .proceed () (.acquire .sync true),
      .enter () (.acquire .sync true)] m ∧
    m.inst.state = .acquired ∧ m.inst.signal .sync = true ∧ m.inst.signal .async = true := by
  have h₀ : (system lenient).Run [] (Machine.initial : Machine ℕ Unit) := .start rfl
  have h₁ := h₀.step (Step.acquireBegin () .sync true 7 rfl rfl)
  have h₂ := h₁.step (Step.acquireGranted () true false (some 1) (some 30000) rfl)
  have h₃ := h₂.step (Step.acquireReturns _ () true rfl rfl)
  have h₄ := h₃.step (Step.wake 0 beating rfl rfl rfl ⟨Option.some_ne_none 7, rfl⟩)
  have h₅ := h₄.step (Step.declared 0 { beating with loop := .refreshing } rfl
    ⟨rfl, by simp [beating]⟩)
  have h₆ := h₅.step (Step.acquireBegin () .sync true 8 rfl rfl)
  have h₇ := h₆.step (Step.acquireGranted () true false (some 2) (some 60000) rfl)
  have h₈ := h₇.step (Step.acquireReturns _ () true rfl rfl)
  exact ⟨_, h₈, rfl, rfl, rfl⟩

/-! ## The report -/

/-- A loss: the instance goes from acquired to lost, and with it the identifier it had. -/
def lossOf (m : Machine ι C) (_ : Event ι C) (m' : Machine ι C) : List (Option ι) :=
  if m.inst.state = .acquired ∧ m'.inst.state = .lost then [m.inst.identifier] else []

/-- The identifiers `on_lock_lost` has been called with, newest first. -/
def reports : List (Event ι C) → List ι
  | [] => []
  | .lost _ _ _ report :: tr => report.toList ++ reports tr
  | .enter _ _ :: tr => reports tr
  | .proceed _ _ :: tr => reports tr
  | .leave _ _ _ :: tr => reports tr
  | .halt _ _ :: tr => reports tr
  | .dropped _ _ _ :: tr => reports tr
  | .beat _ :: tr => reports tr
  | .listen :: tr => reports tr

/-- The event is the reply to a refresh that the slot is gone. -/
def FindsGone (m : Machine ι C) : Event ι C → Prop
  | .halt c (.refresh api) => m.calls c = .refreshing api
  | .leave c (.refresh api) (.returned false) => m.calls c = .refreshing api
  | .leave c (.refresh api) (.raised .lockLost) => m.calls c = .refreshing api
  | _ => False

/-- No refresh finds the slot of an acquired instance gone, and a loop that declares the loss of an
acquired instance was started with the identifier the instance has. -/
structure Reported (m : Machine ι C) (e : Event ι C) : Prop where
  refresh : FindsGone m e → m.inst.state ≠ .acquired
  loop : ∀ k api owned report, e = .lost k api owned report → m.inst.state = .acquired →
    ∀ h, m.loops[k]? = some h → m.inst.identifier = some h.identifier

/-- What a loop that declares the loss leaves. -/
theorem lossOf_markLost (m : Machine ι C) (e : Event ι C) (k : ℕ) (api : Api) :
    lossOf m e (m.markLost k api) =
      if m.inst.state = .acquired then [m.inst.identifier] else [] := by
  unfold lossOf
  rw [state_markLost]
  by_cases hstate : m.inst.state = .acquired
  · simp [hstate]
  · simp [hstate]

/-- The callback of a loss reports the identifier of the heartbeat, if the instance believed it
had the slot. -/
theorem reports_lostEvent (m : Machine ι C) (k : ℕ) (h : Heartbeat ι) (tr : List (Event ι C)) :
    reports (m.lostEvent k h :: tr) =
      (if m.inst.state = .acquired then [h.identifier] else []) ++ reports tr := by
  unfold Machine.lostEvent
  show Option.toList _ ++ _ = _
  by_cases hstate : m.inst.state = .acquired
  · simp [hstate]
  · simp [hstate]

/-- Nothing else reports. -/
theorem reports_quiet {e : Event ι C} (hquiet : ∀ k api owned report, e ≠ .lost k api owned report)
    (tr : List (Event ι C)) : reports (e :: tr) = reports tr := by
  cases e with
  | lost k api owned report => exact absurd rfl (hquiet k api owned report)
  | _ => rfl

section Report

variable [DecidableEq C] {m m' : Machine ι C} {e : Event ι C}

/-- A loop that declares the loss. -/
theorem Step.lostEvent {k : ℕ} {api : Api} {owned : Bool} {report : Option ι}
    (h : Step cfg m (.lost k api owned report) m') :
    ∃ x, m.loops[k]? = some x ∧ Event.lost k api owned report = m.lostEvent k x ∧
      m' = m.markLost k x.api := by
  generalize he : Event.lost k api owned report = e at h
  cases h with
  | unheld k' x hk hloop hstop hheld =>
    obtain rfl : k = k' := (Event.lost.inj he).1
    exact ⟨x, hk, rfl, rfl⟩
  | declared k' x hk hanswer =>
    obtain rfl : k = k' := (Event.lost.inj he).1
    exact ⟨x, hk, rfl, rfl⟩
  | _ => cases he

/-- A refresh that finds the slot gone leaves the instance lost. -/
theorem Step.lost_of_findsGone (h : Step cfg m e m') (hgone : FindsGone m e) :
    m'.inst.state = .lost := by
  cases h with
  | refreshHalt c api k hcall hbeat => rfl
  | refreshGone c api hcall hbeat => rfl
  | refreshUnheld c api hcall hheld => cases hcall.symm.trans hgone
  | refreshFailed c api err hcall herr =>
    rcases herr with rfl | ⟨rfl, -⟩
    · exact hgone.elim
    · exact hgone.elim
  | stopRaised c op k x hcall hapi hk hloop => cases op <;> exact hgone.elim
  | stopItself c op k x hcall hapi hk hloop => cases op <;> exact hgone.elim
  | _ => exact hgone.elim

/-- How an instance comes to be lost. -/
theorem Step.was_lost (h : Step cfg m e m') (hlost : m'.inst.state = .lost) :
    m.inst.state = .lost ∨ FindsGone m e ∨ ∃ k api owned report, e = .lost k api owned report := by
  cases h.shift with
  | kept hstate hidentifier => exact Or.inl (hstate ▸ hlost)
  | named hstate hidentifier => exact Or.inl (hstate ▸ hlost)
  | granted hstate hidentifier hevent => cases hstate.symm.trans hlost
  | reset hstate hevent => cases hstate.symm.trans hlost
  | gone hcall hstate hidentifier hevent =>
    rcases hevent with rfl | rfl | rfl
    · exact Or.inr (Or.inl hcall)
    · exact Or.inr (Or.inl hcall)
    · exact Or.inr (Or.inl hcall)
  | declared hbefore hstate hidentifier => exact Or.inr (Or.inr ⟨_, _, _, _, rfl⟩)

/-- One step adds a report for every loss exactly if it is `Reported`. -/
theorem reports_step_iff {tr : List (Event ι C)} {losses : List (Option ι)}
    (h : losses = (reports tr).map some) (hstep : Step cfg m e m') :
    lossOf m e m' ++ losses = (reports (e :: tr)).map some ↔ Reported m e := by
  -- only a heartbeat reports; every other step reports nothing and must lose nothing
  by_cases hloop : ∃ k api owned report, e = .lost k api owned report
  · obtain ⟨k, api, owned, report, rfl⟩ := hloop
    obtain ⟨x, hk, he, rfl⟩ := hstep.lostEvent
    rw [lossOf_markLost, he, reports_lostEvent, List.map_append, h]
    constructor
    · intro heq
      refine ⟨fun hgone => hgone.elim, ?_⟩
      rintro k' api' owned' report' he' hacquired y hy
      obtain rfl : k = k' := (Event.lost.inj he').1
      rw [hk] at hy
      obtain rfl := Option.some.inj hy
      simpa [hacquired] using heq
    · intro hreported
      by_cases hacquired : m.inst.state = .acquired
      · simp [hacquired, hreported.loop k _ _ _ rfl hacquired x hk]
      · simp [hacquired]
  · have hquiet : ∀ k api owned report, e ≠ .lost k api owned report :=
      fun k api owned report he => hloop ⟨k, api, owned, report, he⟩
    rw [reports_quiet hquiet, h]
    constructor
    · intro heq
      refine ⟨fun hgone hacquired => ?_, fun k api owned report he => ?_⟩
      · -- the loss is one entry more, and the report is missing
        rw [lossOf, if_pos ⟨hacquired, hstep.lost_of_findsGone hgone⟩] at heq
        simpa using congrArg List.length heq
      · exact absurd he (hquiet k api owned report)
    · intro hreported
      rw [lossOf, if_neg, List.nil_append]
      rintro ⟨hacquired, hlost⟩
      rcases hstep.was_lost hlost with hwas | hgone | hdeclared
      · rw [hacquired] at hwas
        cases hwas
      · exact hreported.refresh hgone hacquired
      · exact hloop hdeclared

/-- **Every loss is reported once, with its identifier,** in every run in which no refresh finds the
slot of an acquired instance gone and no loop of an earlier identifier declares the loss. The first
step of another kind breaks it. -/
theorem reports_eq_losses {tr : List (Event ι C)} {losses : List (Option ι)}
    (h : (((system cfg).recording lossOf).restrict fun s => Reported s.1).Run tr (m, losses)) :
    losses = (reports tr).map some ∧
      ∀ e m', Step cfg m e m' →
        (lossOf m e m' ++ losses = (reports (e :: tr)).map some ↔ Reported m e) := by
  have htold : losses = (reports tr).map some := by
    refine Transition.System.Run.invariant
      (I := fun tr (s : Machine ι C × List (Option ι)) => s.2 = (reports tr).map some) ?_ ?_ h
    · rintro s ⟨-, hnil⟩
      exact hnil
    · intro tr s e t _ hs hstep
      obtain ⟨hreported, hmove, hlosses⟩ := hstep
      rw [hlosses]
      exact (reports_step_iff hs hmove).mpr hreported
  exact ⟨htold, fun e m' hstep => reports_step_iff htold hstep⟩

end Report

/-- A step that declares no loss and finds no slot gone owes no report. -/
theorem reported_quiet {m : Machine ι C} {e : Event ι C} (hgone : ¬ FindsGone m e)
    (hquiet : ∀ k api owned report, e ≠ .lost k api owned report) : Reported m e :=
  ⟨fun h => absurd h hgone, fun k api owned report he => absurd he (hquiet k api owned report)⟩

/-- A loss by the heartbeat of the current acquire is reported. -/
theorem reported_lostEvent {m : Machine ι C} {k : ℕ} {x : Heartbeat ι} (hk : m.loops[k]? = some x)
    (hown : m.inst.identifier = some x.identifier) :
    Reported m (m.lostEvent k x : Event ι C) := by
  refine ⟨fun hgone => hgone.elim, ?_⟩
  rintro k' api owned report he - y hy
  obtain rfl : k = k' := (Event.lost.inj he).1
  rw [hk] at hy
  obtain rfl := Option.some.inj hy
  exact hown

/-- A granted acquire, and its own heartbeat declares the loss. -/
theorem reports_eq_losses_declared : ∃ (tr : List (Event ℕ Unit)) (m : Machine ℕ Unit),
    (((system lenient).recording lossOf).restrict fun s => Reported s.1).Run tr (m, [some 7]) ∧
    [some 7] = (reports tr).map some := by
  have h₀ : (((system lenient).recording lossOf).restrict fun s => Reported s.1).Run []
    ((Machine.initial, []) : Machine ℕ Unit × List (Option ℕ)) := .start ⟨rfl, rfl⟩
  have h₁ := h₀.step (t := (_, _)) ⟨reported_quiet id (by simp),
    Step.acquireBegin () .sync true 7 rfl rfl, rfl⟩
  have h₂ := h₁.step (t := (_, _)) ⟨reported_quiet id (by simp),
    Step.acquireGranted () true false (some 1) (some 30000) rfl, rfl⟩
  have h₃ := h₂.step (t := (_, _)) ⟨reported_quiet id (by simp),
    Step.acquireReturns _ () true rfl rfl, rfl⟩
  have h₄ := h₃.step (t := (_, _)) ⟨reported_quiet id (by simp),
    Step.wake 0 beating rfl rfl rfl ⟨Option.some_ne_none 7, rfl⟩, rfl⟩
  have h₅ := h₄.step (t := (_, _)) ⟨reported_lostEvent rfl rfl,
    Step.declared 0 { beating with loop := .refreshing } rfl ⟨rfl, by simp [beating]⟩, rfl⟩
  exact ⟨_, _, h₅, (reports_eq_losses h₅).1⟩

/-- **Lost, and not reported.** A refresh finds the slot gone. The instance goes from acquired to
lost, and `on_lock_lost` is not called. -/
theorem unreported_loss : ∃ (tr : List (Event ℕ Unit)) (m : Machine ℕ Unit),
    ((system lenient).recording lossOf).Run tr (m, [some 7]) ∧ reports tr = [] := by
  have h₀ : ((system lenient).recording lossOf).Run []
    ((Machine.initial, []) : Machine ℕ Unit × List (Option ℕ)) := .start ⟨rfl, rfl⟩
  have h₁ := h₀.step (t := (_, _)) ⟨Step.acquireBegin () .sync true 7 rfl rfl, rfl⟩
  have h₂ := h₁.step (t := (_, _))
    ⟨Step.acquireGranted () true false (some 1) (some 30000) rfl, rfl⟩
  have h₃ := h₂.step (t := (_, _)) ⟨Step.acquireReturns _ () true rfl rfl, rfl⟩
  have h₄ := h₃.step (t := (_, _))
    ⟨Step.refreshBegin () .sync rfl ⟨Option.some_ne_none 7, rfl⟩, rfl⟩
  have h₅ := h₄.step (t := (_, _)) ⟨Step.refreshHalt () .sync 0 rfl rfl, rfl⟩
  exact ⟨_, _, h₅, rfl⟩

end RedisSemaphore.Client

import RedisSemaphore.Semaphore.Instance

/-!
# What an instance believes

`is_acquired` is the state field, and a release needs the identifier. Both are written by replies
that arrive when they arrive: a refused acquire writes nothing, and the reply of a refresh may find
an instance that a release has reset. `Shift` lists what a step can do to the two fields.
-/

namespace RedisSemaphore.Client

open Transition

variable {ι C : Type*} {cfg : Config}

/-! ## What a step does to the state and the identifier -/

/-- The ways of writing the two fields. -/
inductive Shift (m : Machine ι C) : Event ι C → Machine ι C → Prop
  | kept {e : Event ι C} {m' : Machine ι C} (hstate : m'.inst.state = m.inst.state)
      (hidentifier : m'.inst.identifier = m.inst.identifier) : Shift m e m'
  | named {c : C} {api : Api} {blocking : Bool} {m' : Machine ι C}
      (hstate : m'.inst.state = m.inst.state) (hidentifier : m'.inst.identifier ≠ none) :
      Shift m (.enter c (.acquire api blocking)) m'
  | granted {c : C} {api : Api} {blocking : Bool} {e : Event ι C} {m' : Machine ι C}
      (hstate : m'.inst.state = .acquired) (hidentifier : m'.inst.identifier = m.inst.identifier)
      (hevent : api = .sync ∧ e = .proceed c (.acquire api blocking) ∨
        e = .leave c (.acquire api blocking) (.returned true) ∨
        e = .leave c (.acquire api blocking) (.raised .noIdentifier)) : Shift m e m'
  | reset {c : C} {api : Api} {e : Event ι C} {m' : Machine ι C}
      (hstate : m'.inst.state = .released)
      (hevent : e = .proceed c (.release api) ∨ e = .leave c (.release api) (.returned false)) :
      Shift m e m'
  | gone {c : C} {api : Api} {e : Event ι C} {m' : Machine ι C}
      (hcall : m.calls c = .refreshing api)
      (hstate : m'.inst.state = .lost) (hidentifier : m'.inst.identifier = m.inst.identifier)
      (hevent : e = .halt c (.refresh api) ∨ e = .leave c (.refresh api) (.returned false) ∨
        e = .leave c (.refresh api) (.raised .lockLost)) : Shift m e m'
  | declared {k : ℕ} {api : Api} {owned : Bool} {identifier : ι} {m' : Machine ι C}
      (hbefore : m.inst.state = .acquired) (hstate : m'.inst.state = .lost)
      (hidentifier : m'.inst.identifier = m.inst.identifier) :
      Shift m (.lost k api owned (some identifier)) m'

/-- Registering the heartbeat changes neither belief nor identifier. -/
theorem state_register (s : Instance ι) (registered : Bool) :
    (s.register registered).state = s.state ∧
      (s.register registered).identifier = s.identifier := by
  cases registered <;> exact ⟨rfl, rfl⟩

/-- A granted acquire is believed, and keeps the identifier it was made with. -/
theorem identifier_finalizeAcquire (s : Instance ι) (fencingToken : Option ℕ)
    (expiresAt : Option ℤ) (registered : Bool) (mode : Api) :
    (s.finalizeAcquire fencingToken expiresAt registered mode).state = .acquired ∧
      (s.finalizeAcquire fencingToken expiresAt registered mode).identifier = s.identifier := by
  cases registered <;> exact ⟨rfl, rfl⟩

/-- A listener changes neither. -/
theorem state_listen (s : Instance ι) :
    s.listen.state = s.state ∧ s.listen.identifier = s.identifier := by
  rw [Instance.listen]
  split <;> exact ⟨rfl, rfl⟩

/-- `_start_heartbeat` writes neither field. -/
theorem state_startHeartbeat {m m' : Machine ι C} {api : Api}
    (h : m.startHeartbeat api = some m') :
    m'.inst.state = m.inst.state ∧ m'.inst.identifier = m.inst.identifier ∧ m'.calls = m.calls := by
  rw [Machine.startHeartbeat] at h
  split at h
  · obtain rfl := Option.some.inj h
    exact ⟨rfl, rfl, rfl⟩
  · split at h
    · cases h
    · obtain rfl := Option.some.inj h
      exact ⟨rfl, rfl, rfl⟩

/-- The callback changes no identifier. -/
theorem identifier_onLost (s : Instance ι) (api : Api) :
    (s.onLost api).identifier = s.identifier := by
  rw [Instance.onLost]
  split <;> rfl

/-- A loop that declares the loss is heard only while the instance is acquired. -/
theorem shift_markLost {m : Machine ι C} (k : ℕ) (h : Heartbeat ι) :
    Shift m (m.lostEvent k h) (m.markLost k h.api) := by
  by_cases hstate : m.inst.state = .acquired
  · rw [Machine.lostEvent, if_pos hstate]
    refine .declared hstate ?_ (identifier_onLost _ _)
    simp only [Machine.markLost, Instance.onLost, if_pos hstate, Instance.lose]
  · have hsame : m.inst.onLost h.api = m.inst := if_neg hstate
    refine .kept ?_ (identifier_onLost _ _)
    rw [Machine.markLost, hsame]

/-- A call that finds its slot gone returns `False` or raises, as `strict_mode` says. -/
theorem goneOutcome_eq (cfg : Config) (s : Instance ι) :
    s.goneOutcome cfg = .returned false ∨ s.goneOutcome cfg = .raised .lockLost := by
  rw [Instance.goneOutcome, Instance.checkLockLost]
  split <;> simp_all

/-- A refresh that found the slot gone returns `False` if it returns. -/
theorem value_of_goneOutcome {s : Instance ι} {value : Bool}
    (h : s.goneOutcome cfg = .returned value) : value = false := by
  rcases goneOutcome_eq cfg s with heq | heq
  · rw [heq] at h
    exact (Outcome.returned.inj h).symm
  · rw [heq] at h
    cases h

/-- Each step is one of the shifts. -/
theorem Step.shift [DecidableEq C] {m m' : Machine ι C} {e : Event ι C} (h : Step cfg m e m') :
    Shift m e m' := by
  cases h with
  | acquireBegin c api blocking new hcall hcheck => exact .named rfl (Option.some_ne_none _)
  | acquireWait c api registered hcall =>
    exact .kept (state_register ..).1 (state_register ..).2
  | acquireTimeout c api registered hcall =>
    exact .kept (state_register ..).1 (state_register ..).2
  | acquireGranted c blocking registered fencingToken expiresAt hcall =>
    exact .granted (identifier_finalizeAcquire ..).1 (identifier_finalizeAcquire ..).2
      (Or.inl ⟨rfl, rfl⟩)
  | acquireReturns m₁ c blocking hcall hbeat =>
    obtain ⟨hstate, hidentifier, -⟩ := state_startHeartbeat hbeat
    exact .kept hstate hidentifier
  -- the async API finalises and starts the heartbeat in one segment, without an `await` between
  | aacquireReturns m₁ c blocking registered fencingToken expiresAt hcall hbeat =>
    obtain ⟨hstate, hidentifier, -⟩ := state_startHeartbeat hbeat
    obtain ⟨hacquired, hsame⟩ :=
      identifier_finalizeAcquire m.inst fencingToken expiresAt registered .async
    exact .granted (hstate.trans hacquired) (hidentifier.trans hsame) (Or.inr (Or.inl rfl))
  | astartFailed c blocking registered fencingToken expiresAt hcall hbeat =>
    exact .granted (identifier_finalizeAcquire ..).1 (identifier_finalizeAcquire ..).2
      (Or.inr (Or.inr rfl))
  | releaseUnheld c api hcall => exact .reset rfl (Or.inr rfl)
  | released c api hcall => exact .reset rfl (Or.inl rfl)
  | refreshHalt c api k hcall hbeat => exact .gone hcall rfl rfl (Or.inl rfl)
  | refreshGone c api hcall hbeat =>
    refine .gone hcall rfl rfl (Or.inr ?_)
    rcases goneOutcome_eq cfg (m.inst.lose api) with heq | heq
    · exact Or.inl (by rw [heq])
    · exact Or.inr (by rw [heq])
  | unheld k h hk hloop hstop hheld => exact shift_markLost k h
  | declared k h hk hanswer => exact shift_markLost k h
  | listen => exact .kept (state_listen _).1 (state_listen _).2
  | _ => exact .kept rfl rfl

/-! ## Lost without an identifier -/

/-- The call an event belongs to. -/
def Event.op : Event ι C → Option Op
  | .enter _ op => some op
  | .proceed _ op => some op
  | .leave _ op _ => some op
  | .halt _ op => some op
  | .dropped _ op _ => some op
  | .beat _ => none
  | .lost _ _ _ _ => none
  | .listen => none

/-- The event meets the reply of an acquire that was granted, or of a refresh that found the slot
gone. -/
def Decides (m : Machine ι C) : Event ι C → Prop
  | .leave _ (.acquire _ _) (.returned true) => True
  | .leave _ (.acquire _ _) (.raised .noIdentifier) => True
  | .halt _ (.refresh _) => True
  | .leave c (.refresh api) (.returned false) => m.calls c = .refreshing api
  | .leave c (.refresh api) (.raised .lockLost) => m.calls c = .refreshing api
  | _ => False

/-- The call is one of the async API, and such a reply does not find that a release has taken the
identifier away. -/
structure Addressed (m : Machine ι C) (e : Event ι C) : Prop where
  async : ∀ op, e.op = some op → op.api = .async
  identifier : Decides m e → m.inst.identifier ≠ none

section Reset

variable [DecidableEq C] {m m' : Machine ι C} {e : Event ι C}

/-- An instance without an identifier is released, and stays so until the next acquire begins. -/
theorem released_step (h : m.inst.identifier = none → m.inst.state = .released)
    (haddressed : Addressed m e) (hstep : Step cfg m e m') :
    m'.inst.identifier = none → m'.inst.state = .released := by
  intro hnone
  cases hstep.shift with
  | kept hstate hidentifier =>
    rw [hstate]
    exact h (hidentifier ▸ hnone)
  | named hstate hidentifier => exact absurd hnone hidentifier
  -- a sync call cannot be the one that was answered here; the async ones still have their
  -- identifier
  | @granted c api blocking _ _ hstate hidentifier hevent =>
    rw [hidentifier] at hnone
    rcases hevent with ⟨hsync, rfl⟩ | rfl | rfl
    · have hasync : api = .async := haddressed.async _ rfl
      rw [hsync] at hasync
      cases hasync
    · exact absurd hnone (haddressed.identifier trivial)
    · exact absurd hnone (haddressed.identifier trivial)
  | reset hstate hevent => exact hstate
  | gone hcall hstate hidentifier hevent =>
    rw [hidentifier] at hnone
    rcases hevent with rfl | rfl | rfl
    · exact absurd hnone (haddressed.identifier trivial)
    · exact absurd hnone (haddressed.identifier hcall)
    · exact absurd hnone (haddressed.identifier hcall)
  -- only a believed slot is declared lost, and a released one is not believed
  | declared hbefore hstate hidentifier =>
    have hreleased := h (hidentifier ▸ hnone)
    rw [hbefore] at hreleased
    cases hreleased

/-- **A lost instance can be reset** in every run in which no grant and no loss is met by an
instance that a release has reset: it has an identifier, so a release of it is not refused. -/
theorem lost_has_identifier {tr : List (Event ι C)}
    (h : ((system cfg).restrict Addressed).Run tr m) :
    (m.inst.state = .lost → m.inst.identifier ≠ none ∧
        m.inst.releaseChecks .async ≠ some .notAcquired) ∧
      ¬ (m.inst.acquireChecks cfg .async = some .lockLost ∧
        m.inst.releaseChecks .async = some .notAcquired) := by
  have hreleased : m.inst.identifier = none → m.inst.state = .released := by
    refine Transition.System.Run.invariant
      (I := fun _ m => m.inst.identifier = none → m.inst.state = .released) ?_ ?_ h
    · rintro m rfl
      exact fun _ => rfl
    · intro tr m e m' _ hinv hstep
      exact released_step hinv hstep.1 hstep.2
  have hlost : m.inst.state = .lost → m.inst.identifier ≠ none := by
    intro hstate hnone
    have hstate' := hreleased hnone
    rw [hstate] at hstate'
    cases hstate'
  have hchecks : m.inst.identifier ≠ none → m.inst.releaseChecks .async ≠ some .notAcquired := by
    intro hsome
    rw [Instance.releaseChecks, if_neg hsome, Instance.checkMode]
    split
    · simp
    · split <;> simp
  -- an acquire is refused as lost only in the state `LOST`
  refine ⟨fun hstate => ⟨hlost hstate, hchecks (hlost hstate)⟩, fun ⟨hacquire, hrelease⟩ => ?_⟩
  refine hchecks (hlost ?_) hrelease
  by_contra hstate
  simp only [Instance.acquireChecks, Instance.checkLockLost, hstate, false_and, if_false,
    Instance.checkMode, Instance.checkReacquire] at hacquire
  split at hacquire
  · split at hacquire <;> simp at hacquire
  · split at hacquire
    · split at hacquire <;> simp at hacquire
    · simp at hacquire

end Reset

/-- Strict mode, and no ban on acquiring again. -/
def strict : Config := ⟨true, .renew⟩

/-- A heartbeat task of the first grant. -/
def beatingTask : Heartbeat ℕ := ⟨.async, 7, false, false, .sleeping⟩

/-- The heartbeat declares the loss. The instance keeps its identifier and can be released. -/
theorem lost_has_identifier_declared : ∃ m : Machine ℕ Bool,
    ((system strict).restrict Addressed).Run
      [.beat 0, .lost 0 .async true (some 7), .beat 0,
        .leave false (.acquire .async true) (.returned true),
        .enter false (.acquire .async true)] m ∧
    m.inst.state = .lost ∧ m.inst.identifier ≠ none ∧
    m.inst.releaseChecks .async ≠ some .notAcquired := by
  have h₀ : ((system strict).restrict Addressed).Run [] (Machine.initial : Machine ℕ Bool) :=
    .start rfl
  have h₁ := h₀.step ⟨⟨by rintro _ ⟨⟩; rfl, by rintro ⟨⟩⟩,
    Step.acquireBegin false .async true 7 rfl rfl⟩
  have h₂ := h₁.step ⟨⟨by rintro _ ⟨⟩; rfl, fun _ => Option.some_ne_none 7⟩,
    Step.aacquireReturns _ false true false (some 1) (some 30000) rfl rfl⟩
  have h₃ := h₂.step ⟨⟨by rintro _ ⟨⟩, by rintro ⟨⟩⟩,
    Step.wake 0 beatingTask rfl rfl rfl ⟨Option.some_ne_none 7, rfl⟩⟩
  have h₄ := h₃.step ⟨⟨by rintro _ ⟨⟩, by rintro ⟨⟩⟩,
    Step.declared 0 { beatingTask with loop := .refreshing } rfl ⟨rfl, fun _ => rfl⟩⟩
  have h₅ := h₄.step ⟨⟨by rintro _ ⟨⟩, by rintro ⟨⟩⟩,
    Step.callbackDone 0 { beatingTask with lockLost := true, loop := .declaring } false rfl rfl⟩
  exact ⟨_, h₅, rfl, (lost_has_identifier h₅).1 rfl⟩

/-! ### Stuck for ever -/

/-- Lost, without an identifier, and nothing in flight. -/
structure Stuck (m : Machine ι C) : Prop where
  state : m.inst.state = .lost
  identifier : m.inst.identifier = none
  mode : m.inst.acquireMode = none
  calls : ∀ c, m.calls c = .idle
  loops : ∀ (k : ℕ) (h : Heartbeat ι), m.loops[k]? = some h → ∃ raised, h.loop = .ended raised

/-- An acquire of a stuck instance is refused in strict mode: it has to be released first. -/
theorem Stuck.acquireChecks {m : Machine ι C} (h : Stuck m) (hstrict : cfg.strictMode = true)
    (api : Api) : m.inst.acquireChecks cfg api = some .lockLost := by
  simp [Instance.acquireChecks, Instance.checkMode, h.mode, Instance.checkLockLost, h.state,
    hstrict]

/-- A release of it is refused as well: there is nothing to release. -/
theorem Stuck.releaseChecks {m : Machine ι C} (h : Stuck m) (api : Api) :
    m.inst.releaseChecks api = some .notAcquired := by
  rw [Instance.releaseChecks, if_pos h.identifier]

/-- It holds no slot. -/
theorem Stuck.not_holds {m : Machine ι C} (h : Stuck m) : ¬ m.inst.Holds :=
  fun hholds => hholds.1 h.identifier

/-- In strict mode nothing gets a stuck instance out of its state. -/
theorem Stuck.step [DecidableEq C] {m m' : Machine ι C} {e : Event ι C} (h : Stuck m)
    (hstrict : cfg.strictMode = true) (hstep : Step cfg m e m') : Stuck m' := by
  have hbusy : ∀ c p, p ≠ .idle → m.calls c ≠ p := fun c p hp hcall =>
    hp (hcall.symm.trans (h.calls c))
  -- nothing is in flight, so only the checks at the head of a call are left; each of them refuses
  cases hstep with
  | acquireRefused c api blocking err hcall hcheck => exact h
  | releaseRefused c api err hcall hcheck => exact h
  | refreshUnheld c api hcall hheld => exact h
  | acquireBegin c api blocking new hcall hcheck =>
    rw [h.acquireChecks hstrict] at hcheck
    cases hcheck
  | releaseHalt c api k hcall hcheck hbeat =>
    rw [h.releaseChecks] at hcheck
    cases hcheck
  | releaseBegin c api hcall hcheck hbeat =>
    rw [h.releaseChecks] at hcheck
    cases hcheck
  | refreshBegin c api hcall hheld => exact absurd hheld h.not_holds
  | wake k x hk hloop hstop hheld => exact absurd hheld h.not_holds
  | unheld k x hk hloop hstop hheld =>
    obtain ⟨raised, hended⟩ := h.loops k x hk
    rw [hloop] at hended
    cases hended
  | renewed k x expiresAt hk hanswer hreply =>
    obtain ⟨raised, hended⟩ := h.loops k x hk
    rw [hanswer.1] at hended
    cases hended
  | tolerated k x hk hanswer =>
    obtain ⟨raised, hended⟩ := h.loops k x hk
    rw [hanswer.1] at hended
    cases hended
  | declared k x hk hanswer =>
    obtain ⟨raised, hended⟩ := h.loops k x hk
    rw [hanswer.1] at hended
    cases hended
  | callbackDone k x raised hk hloop =>
    obtain ⟨raised', hended⟩ := h.loops k x hk
    rw [hloop] at hended
    cases hended
  | exited k x hk hexit =>
    obtain ⟨raised, hended⟩ := h.loops k x hk
    have hloop := hexit.2
    split at hloop
    · rw [hended] at hloop
      cases hloop
    · exact absurd hended (hloop raised)
  | listen =>
    have hmode : m.inst.listen.acquireMode = none := by
      rw [Instance.listen]
      split <;> exact h.mode
    exact ⟨(state_listen _).1.trans h.state, (state_listen _).2.trans h.identifier, hmode,
      h.calls, h.loops⟩
  | _ => exact absurd ‹m.calls _ = _› (hbusy _ _ (by simp))

/-- A stuck instance refuses every acquire and every release from then on. -/
theorem Stuck.forever [DecidableEq C] {tr : List (Event ι C)} {m m' : Machine ι C} (h : Stuck m)
    (hstrict : cfg.strictMode = true) (hpath : (system cfg).Path m tr m') (api : Api) :
    m'.inst.state = .lost ∧ m'.inst.identifier = none ∧
      m'.inst.acquireChecks cfg api = some .lockLost ∧
      m'.inst.releaseChecks api = some .notAcquired := by
  have hstuck : Stuck m' := by
    refine Transition.System.Path.invariant (M := system cfg) (I := fun _ m => Stuck m) h ?_ hpath
    intro tr m e m' _ hm hstep
    exact hm.step hstrict hstep
  exact ⟨hstuck.state, hstuck.identifier, hstuck.acquireChecks hstrict api,
    hstuck.releaseChecks api⟩

/-- A refresh is in flight while a release resets the instance. Its reply, that the slot is gone,
leaves the instance lost without an identifier: every acquire and every release is refused from then
on. -/
theorem lost_without_identifier : ∃ m : Machine ℕ Bool, (system strict).Run
    [.leave true (.refresh .async) (.raised .lockLost),
      .leave false (.release .async) (.returned true), .proceed false (.release .async),
      .dropped false (.release .async) none, .beat 0, .halt false (.release .async),
      .enter true (.refresh .async), .leave false (.acquire .async true) (.returned true),
      .enter false (.acquire .async true)] m ∧
    m.inst.state = .lost ∧ m.inst.identifier = none ∧
    ∀ tr m', (system strict).Path m tr m' →
      m'.inst.acquireChecks strict .async = some .lockLost ∧
      m'.inst.releaseChecks .async = some .notAcquired := by
  have h₀ : (system strict).Run [] (Machine.initial : Machine ℕ Bool) := .start rfl
  have h₁ := h₀.step (Step.acquireBegin false .async true 7 rfl rfl)
  have h₂ := h₁.step (Step.aacquireReturns _ false true false (some 1) (some 30000) rfl rfl)
  have h₃ := h₂.step (Step.refreshBegin true .async rfl ⟨Option.some_ne_none 7, rfl⟩)
  have h₄ := h₃.step (Step.releaseHalt false .async 0 rfl rfl rfl)
  have h₅ := h₄.step (Step.exited 0 { beatingTask with stopEvent := true } rfl
    ⟨rfl, fun _ => by simp [beatingTask]⟩)
  have h₆ := h₅.step (Step.releaseSend false .async 0 rfl fun _ => ⟨_, rfl, rfl⟩)
  have h₇ := h₆.step (Step.released false .async rfl)
  have h₈ := h₇.step (Step.notified false .async rfl)
  have h₉ := h₈.step (Step.refreshGone true .async rfl rfl)
  refine ⟨_, h₉, rfl, rfl, fun tr m' hpath => ?_⟩
  refine (Stuck.forever ⟨rfl, rfl, rfl, ?_, ?_⟩ rfl hpath .async).2.2
  · intro c
    cases c <;> rfl
  · intro k x hk
    match k with
    | 0 =>
      obtain rfl := Option.some.inj hk
      exact ⟨false, rfl⟩
    | k + 1 => cases hk

/-! ## The answer to one call

A call is followed from an idle state to its return. Heartbeat loops of any age run on meanwhile.
-/

/-- An event of the call `c` before its end, of a heartbeat loop, or of a listener. -/
def During (c : C) : Event ι C → Prop
  | .enter c' _ => c' = c
  | .proceed c' _ => c' = c
  | .halt c' _ => c' = c
  | .dropped c' _ outcome => c' = c ∧ outcome = none
  | .leave _ _ _ => False
  | .beat _ => True
  | .lost _ _ _ _ => True
  | .listen => True

/-- The event ends the call `c` without an error. -/
def Returns (c : C) (op : Op) (value : Bool) (e : Event ι C) : Prop :=
  e = .leave c op (.returned value) ∨ e = .dropped c op (some (.returned value))

/-- A call that leaves with a value returns that value. -/
theorem returns_leave {c c' : C} {op op' : Op} {value : Bool} {outcome : Outcome}
    (h : Returns c op value (.leave c' op' outcome : Event ι C)) :
    c' = c ∧ op' = op ∧ outcome = .returned value := by
  rcases h with heq | heq
  · exact Event.leave.inj heq
  · cases heq

/-- So does one that drops its heartbeat on the way. -/
theorem returns_dropped {c c' : C} {op op' : Op} {value : Bool} {outcome : Option Outcome}
    (h : Returns c op value (.dropped c' op' outcome : Event ι C)) :
    c' = c ∧ op' = op ∧ outcome = some (.returned value) := by
  rcases h with heq | heq
  · cases heq
  · exact Event.dropped.inj heq

/-- The answer says that the identifier owns a slot now. -/
def Op.Owns : Op → Bool → Prop
  | .acquire _ _, value => value = true
  | .refresh _, value => value = true
  | .release _, _ => False

/-- A heartbeat loop has declared the loss to an acquired instance, after the last answer of the
call. -/
def reported : List (Event ι C) → Bool
  | [] => false
  | .proceed _ _ :: _ => false
  | .lost _ _ _ report :: tr => report.isSome || reported tr
  | .enter _ _ :: tr => reported tr
  | .leave _ _ _ :: tr => reported tr
  | .halt _ _ :: tr => reported tr
  | .dropped _ _ _ :: tr => reported tr
  | .beat _ :: tr => reported tr
  | .listen :: tr => reported tr

/-- A refused acquire does not meet an instance that is still acquired, and no loss is declared
between a grant and the return. `s` is the instance before the call. -/
def Heeded (s : Instance ι) (tr : List (Event ι C)) : Op → Bool → Prop
  | .acquire _ _, false => ¬ (s.state = .acquired ∧ reported tr = false)
  | .acquire .sync _, true => reported tr = false
  | .acquire .async _, true => True
  | .refresh _, true => reported tr = false
  | .refresh _, false => True
  | .release _, _ => True

/-- What the phase of the call says about the state. -/
def Believed (s : Instance ι) (tr : List (Event ι C)) (state : LockState) : Phase → Prop
  | .idle => state = .acquired ↔ s.state = .acquired ∧ reported tr = false
  | .acquiring _ false _ => state = .acquired ↔ s.state = .acquired ∧ reported tr = false
  | .acquiring _ true _ => True
  | .waiting _ => True
  | .finalized _ => state = .acquired ↔ reported tr = false
  | .refreshing _ => state = .acquired ↔ reported tr = false
  | .stopping (.refresh _) _ => state = .lost
  | .stopping (.acquire _ _) _ => False
  | .stopping (.release _) _ => True
  | .releasing _ => True
  | .notifying _ => state = .released

section Call

variable {s : Instance ι} {tr : List (Event ι C)} {state : LockState} {p : Phase}

/-- An event that reports nothing and answers nothing. -/
theorem Believed.quiet {e : Event ι C} (h : Believed s tr state p)
    (hquiet : reported (e :: tr) = reported tr) : Believed s (e :: tr) state p := by
  unfold Believed at h ⊢
  split <;> simp_all only

/-- A declared loss. -/
theorem Believed.lost (h : Believed s tr state p) (k : ℕ) (api : Api) (owned : Bool)
    (identifier : ι) :
    Believed s (.lost k api owned (if state = .acquired then some identifier else none) :: tr)
      (if state = .acquired then .lost else state) p := by
  by_cases hstate : state = .acquired
  · subst hstate
    simp only [if_true]
    unfold Believed at h ⊢
    split <;> simp_all [reported]
  · simp only [if_neg hstate]
    exact h.quiet (by simp [reported])

/-- A loss is believed by an instance that believed it had the slot; a released one stays
released. -/
theorem state_markLost (m : Machine ι C) (k : ℕ) (api : Api) :
    (m.markLost k api).inst.state = if m.inst.state = .acquired then .lost else m.inst.state := by
  simp only [Machine.markLost, Instance.onLost]
  split <;> rfl

variable {m m' : Machine ι C} {c : C} {e : Event ι C}

/-- What a loop that declares the loss leaves of the belief. -/
theorem believed_markLost (h : Believed s tr m.inst.state (m.calls c)) (k : ℕ)
    (x : Heartbeat ι) :
    Believed s (m.lostEvent k x :: tr) (m.markLost k x.api).inst.state
      ((m.markLost k x.api).calls c) := by
  rw [state_markLost]
  exact h.lost k x.api _ x.identifier

variable [DecidableEq C]

/-- The call is in its new phase. -/
@[simp] theorem calls_setCall (m : Machine ι C) (c : C) (p : Phase) : (m.setCall c p).calls c = p :=
  Function.update_self ..

/-- The phase of a call is not part of the instance. -/
@[simp] theorem inst_setCall (m : Machine ι C) (c : C) (p : Phase) :
    (m.setCall c p).inst = m.inst := rfl

/-- One step keeps the belief. -/
theorem Believed.step (h : Believed s tr m.inst.state (m.calls c)) (hduring : During c e)
    (hstep : Step cfg m e m') : Believed s (e :: tr) m'.inst.state (m'.calls c) := by
  -- the steps of the call itself, then those of a heartbeat, which may take the belief away
  cases hstep with
  | acquireBegin c' api blocking new hcall hcheck =>
    obtain rfl : c' = c := hduring
    rw [hcall] at h
    rw [calls_setCall]
    cases blocking with
    | true => trivial
    | false => exact h
  | acquireWait c' api registered hcall =>
    obtain rfl : c' = c := hduring
    rw [calls_setCall]
    trivial
  | acquireRetry c' api hcall =>
    obtain rfl : c' = c := hduring
    rw [calls_setCall]
    trivial
  | acquireGranted c' blocking registered fencingToken expiresAt hcall =>
    obtain rfl : c' = c := hduring
    rw [calls_setCall, inst_setCall, (identifier_finalizeAcquire ..).1]
    exact iff_of_true rfl rfl
  | releaseHalt c' api k hcall hcheck hbeat =>
    obtain rfl : c' = c := hduring
    rw [calls_setCall]
    trivial
  | releaseBegin c' api hcall hcheck hbeat =>
    obtain rfl : c' = c := hduring
    rw [calls_setCall]
    trivial
  | releaseSend c' api k hcall hstop =>
    obtain rfl : c' = c := hduring.1
    rw [calls_setCall]
    trivial
  | released c' api hcall =>
    obtain rfl : c' = c := hduring
    rw [calls_setCall]
    exact (rfl : LockState.released = _)
  | refreshBegin c' api hcall hheld =>
    obtain rfl : c' = c := hduring
    rw [hcall] at h
    have hacquired := hheld.2
    rw [calls_setCall]
    exact ⟨fun _ => (h.mp hacquired).2, fun _ => hacquired⟩
  | refreshHalt c' api k hcall hbeat =>
    obtain rfl : c' = c := hduring
    rw [calls_setCall]
    exact (rfl : LockState.lost = _)
  | unheld k x hk hloop hstop hheld => exact believed_markLost h k x
  | declared k x hk hanswer => exact believed_markLost h k x
  | listen =>
    rw [(state_listen m.inst).1]
    exact h.quiet rfl
  | wake k x hk hloop hstop hheld => exact h.quiet rfl
  | renewed k x expiresAt hk hanswer hreply => exact h.quiet rfl
  | tolerated k x hk hanswer => exact h.quiet rfl
  | callbackDone k x raised hk hloop => exact h.quiet rfl
  | exited k x hk hexit => exact h.quiet rfl
  | refreshStopped c' api k hcall hstop => cases hduring.2
  | _ => exact hduring.elim

/-- **Local belief follows the server's answer** exactly where the call heeds it: after a call that
reached Redis and returned, `is_acquired` agrees with the answer if and only if the acquire was not
refused to an acquired instance and no heartbeat declared a loss after the answer. -/
theorem belief_follows_answer_iff {m₀ : Machine ι C} {op : Op} {value : Bool}
    (hidle : m₀.calls c = .idle)
    (hpath : ((system cfg).restrict fun _ => During c).Path m₀ tr m)
    (hsent : m.calls c ≠ .idle) (hreturns : Returns c op value e) (hstep : Step cfg m e m') :
    (m'.inst.state = .acquired ↔ op.Owns value) ↔ Heeded m₀.inst tr op value := by
  have hbelieved : Believed m₀.inst tr m.inst.state (m.calls c) := by
    refine Transition.System.Path.invariant
      (I := fun tr m => Believed m₀.inst tr m.inst.state (m.calls c)) ?_ ?_ hpath
    · rw [hidle]
      exact ⟨fun h => ⟨h, rfl⟩, And.left⟩
    · intro tr m e m' _ hm hs
      exact hm.step hs.1 hs.2
  -- one case for each way in which a call returns a value
  cases hstep with
  | acquireBusy c' api registered hcall =>
    obtain ⟨rfl, rfl, hvalue⟩ := returns_leave hreturns
    cases hvalue
    rw [hcall] at hbelieved
    have hkept : m.inst.state = .acquired ↔ m₀.inst.state = .acquired ∧ reported tr = false :=
      hbelieved
    simp [Op.Owns, Heeded, hkept]
  | acquireReturns m₁ c' blocking hcall hbeat =>
    obtain ⟨rfl, rfl, hvalue⟩ := returns_leave hreturns
    cases hvalue
    rw [hcall] at hbelieved
    have hgranted : m.inst.state = .acquired ↔ reported tr = false := hbelieved
    rw [inst_setCall, (state_startHeartbeat hbeat).1, hgranted]
    simp [Op.Owns, Heeded]
  | aacquireReturns m₁ c' blocking registered fencingToken expiresAt hcall hbeat =>
    obtain ⟨rfl, rfl, hvalue⟩ := returns_leave hreturns
    cases hvalue
    rw [inst_setCall, (state_startHeartbeat hbeat).1, (identifier_finalizeAcquire ..).1]
    simp [Op.Owns, Heeded]
  | refreshed c' api expiresAt hcall hreply =>
    obtain ⟨rfl, rfl, hvalue⟩ := returns_leave hreturns
    cases hvalue
    rw [hcall] at hbelieved
    have hheld : m.inst.state = .acquired ↔ reported tr = false := hbelieved
    simp [Op.Owns, Heeded, hheld]
  | refreshGone c' api hcall hbeat =>
    obtain ⟨rfl, rfl, hgone⟩ := returns_leave hreturns
    obtain rfl := value_of_goneOutcome hgone
    simp [Op.Owns, Heeded, Instance.lose]
  | refreshStopped c' api k hcall hstop =>
    obtain ⟨rfl, rfl, hgone⟩ := returns_dropped hreturns
    obtain rfl := value_of_goneOutcome (Option.some.inj hgone)
    rw [hcall] at hbelieved
    have hlost : m.inst.state = .lost := hbelieved
    simp [Op.Owns, Heeded, hlost, Machine.dropHeartbeat]
  | releaseUnheld c' api hcall =>
    obtain ⟨rfl, rfl, -⟩ := returns_leave hreturns
    simp [Op.Owns, Heeded, Instance.resetState]
  | notified c' api hcall =>
    obtain ⟨rfl, rfl, -⟩ := returns_leave hreturns
    rw [hcall] at hbelieved
    have hreleased : m.inst.state = .released := hbelieved
    simp [Op.Owns, Heeded, hreleased]
  | refreshUnheld c' api hcall hheld =>
    obtain ⟨rfl, -, -⟩ := returns_leave hreturns
    exact absurd hcall hsent
  | _ => rcases hreturns with heq | heq <;> cases heq

end Call

/-- A first acquire that is granted. -/
theorem belief_follows_answer_granted : ∃ m m' : Machine ℕ Unit,
    ((system strict).restrict fun _ => During ()).Path Machine.initial
      [.proceed () (.acquire .sync true), .enter () (.acquire .sync true)] m ∧
    Step strict m (.leave () (.acquire .sync true) (.returned true)) m' ∧
    m'.inst.state = .acquired := by
  have h₀ : ((system strict).restrict fun _ => During ()).Path
    (Machine.initial : Machine ℕ Unit) [] Machine.initial := .refl
  have h₁ := h₀.step ⟨by exact rfl, Step.acquireBegin () .sync true 7 rfl rfl⟩
  have h₂ := h₁.step ⟨by exact rfl,
    Step.acquireGranted () true false (some 1) (some 30000) rfl⟩
  refine ⟨_, _, h₂, Step.acquireReturns _ () true rfl rfl, ?_⟩
  exact ((belief_follows_answer_iff rfl h₂ (by simp) (Or.inl rfl)
    (Step.acquireReturns _ () true rfl rfl)).mpr rfl).mpr rfl

/-- **Acquired, and refused.** The instance believes it holds a slot and acquires again without
blocking. The server refuses, so it does not own one. The call returns `False` and the instance
stays acquired. -/
theorem acquired_after_refusal : ∃ m : Machine ℕ Unit, (system strict).Run
    [.leave () (.acquire .sync false) (.returned false), .enter () (.acquire .sync false),
      .leave () (.acquire .sync true) (.returned true), .proceed () (.acquire .sync true),
      .enter () (.acquire .sync true)] m ∧ m.inst.state = .acquired := by
  have h₀ : (system strict).Run [] (Machine.initial : Machine ℕ Unit) := .start rfl
  have h₁ := h₀.step (Step.acquireBegin () .sync true 7 rfl rfl)
  have h₂ := h₁.step (Step.acquireGranted () true false (some 1) (some 30000) rfl)
  have h₃ := h₂.step (Step.acquireReturns _ () true rfl rfl)
  have h₄ := h₃.step (Step.acquireBegin () .sync false 8 rfl rfl)
  have h₅ := h₄.step (Step.acquireBusy () .sync false rfl)
  exact ⟨_, h₅, rfl⟩

end RedisSemaphore.Client

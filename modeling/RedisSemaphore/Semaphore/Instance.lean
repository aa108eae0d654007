import Mathlib.Data.Int.Notation
import Mathlib.Data.Nat.Notation
import Mathlib.Logic.Function.Basic
import RedisSemaphore.Transition

/-!
# One Semaphore instance

The client side of a semaphore: the fields of one `Semaphore` object, the calls in flight on it and
the heartbeat loops it has started. Redis is seen only through its replies, which are arbitrary
here.

A call is cut into the segments between its suspension points: a script in flight, the wait of a
blocking acquire, the wait for a heartbeat to stop. `C` names the calls in flight at one time, so
`C := Unit` is sequential use. Every heartbeat loop ever started stays in `loops`; the instance owns
the one that `_heartbeat` or `_async_heartbeat` points at, and a loop that outlived its stop goes on
without an owner.

The refresh interval of an accepted configuration is positive, so a granted acquire always reaches
`_start_heartbeat`. When a heartbeat gives up on errors (a permanent one, or the deadline) is left
open.
-/

namespace RedisSemaphore.Client

open Transition

/-! ## The fields -/

/-- `LockState`. -/
inductive LockState
  | released | acquired | lost
  deriving DecidableEq, Repr

/-- The two APIs of the instance; `_AcquireMode` is an optional one of them. -/
inductive Api
  | sync | async
  deriving DecidableEq, Repr

/-- `ReacquirePolicy`. -/
inductive ReacquirePolicy
  | renew | forbid
  deriving DecidableEq, Repr

/-- The part of `SemaphoreConfig` that decides which calls are refused. -/
structure Config where
  strictMode : Bool
  reacquirePolicy : ReacquirePolicy
  deriving DecidableEq, Repr

/-- What a call can raise. -/
inductive Error
  | mixedMode | lockLost | alreadyAcquired | notAcquired | acquireTimeout
  | noIdentifier -- the `AcquireError` of `_start_heartbeat`
  | backend | cancelled
  | callback -- what the user's `on_lock_lost` raised, met again when the task is awaited
  | awaitsItself -- the `RuntimeError` of a task that awaits itself
  deriving DecidableEq, Repr

/-- The fields of a `Semaphore`. Expiries stay in milliseconds. `heartbeat .sync` is `_heartbeat`
and `heartbeat .async` is `_async_heartbeat`, as positions in the list of loops. -/
structure Instance (ι : Type*) where
  state : LockState
  identifier : Option ι
  fencingToken : Option ℕ
  expiresAt : Option ℤ
  acquireMode : Option Api
  heartbeat : Api → Option ℕ
  lockLostEvent : Bool
  asyncLockLostEvent : Option Bool
  waiting : ℕ

/-- Where a heartbeat loop is: in its sleep, in a refresh, in the loss callback, or finished (with
an exception or not). -/
inductive Loop
  | sleeping
  | refreshing
  | declaring
  | ended (raised : Bool)
  deriving DecidableEq, Repr

/-- A `Heartbeat` that has been started. `stopEvent` is the event of a thread, and the cancellation
request of a task. -/
structure Heartbeat (ι : Type*) where
  api : Api
  identifier : ι
  stopEvent : Bool
  lockLost : Bool
  loop : Loop

/-- The loop has neither terminated nor been asked to, and goes on refreshing. -/
def Heartbeat.Running {ι : Type*} (h : Heartbeat ι) : Prop :=
  (h.loop = .sleeping ∨ h.loop = .refreshing) ∧ h.stopEvent = false

/-- A refresh in flight is answered, unless the task has been cancelled meanwhile. -/
def Heartbeat.Answers {ι : Type*} (h : Heartbeat ι) : Prop :=
  h.loop = .refreshing ∧ (h.api = .async → h.stopEvent = false)

/-- A thread sees its stop event when it sleeps; a task is cancelled wherever it is. -/
def Heartbeat.Exits {ι : Type*} (h : Heartbeat ι) : Prop :=
  h.stopEvent = true ∧
    match h.api with
    | .sync => h.loop = .sleeping
    | .async => ∀ raised, h.loop ≠ .ended raised

/-- The public calls. -/
inductive Op
  | acquire (api : Api) (blocking : Bool)
  | refresh (api : Api)
  | release (api : Api)
  deriving DecidableEq, Repr

/-- The API that a call belongs to. -/
def Op.api : Op → Api
  | .acquire api _ => api
  | .refresh api => api
  | .release api => api

/-- How a call ends. -/
inductive Outcome
  | returned (value : Bool)
  | raised (error : Error)
  deriving DecidableEq, Repr

/-- Where a call in flight is. `registered` is `_AcquireState.waiting_registered`. -/
inductive Phase
  | idle
  | acquiring (api : Api) (blocking registered : Bool)
  | waiting (api : Api)
  | finalized (blocking : Bool) -- a thread between `_finalize_acquire` and `_start_heartbeat`
  | refreshing (api : Api)
  | stopping (op : Op) (k : ℕ)
  | releasing (api : Api)
  | notifying (api : Api)
  deriving DecidableEq, Repr

/-- The instance, its loops and the calls in flight. -/
structure Machine (ι C : Type*) where
  inst : Instance ι
  loops : List (Heartbeat ι)
  calls : C → Phase

/-- What happens on the instance.

`halt` is the moment a release begins, or a refresh finds the slot gone, with a heartbeat to stop;
`dropped` is the moment that call clears the field, and carries the outcome if the call ends with
it. `lost` is a loop declaring the loss: whether it is the one the instance owns, and the identifier
handed to `on_lock_lost` if that was called. -/
inductive Event (ι C : Type*)
  | enter (c : C) (op : Op)
  | proceed (c : C) (op : Op)
  | leave (c : C) (op : Op) (outcome : Outcome)
  | halt (c : C) (op : Op)
  | dropped (c : C) (op : Op) (outcome : Option Outcome)
  | beat (k : ℕ)
  | lost (k : ℕ) (api : Api) (owned : Bool) (report : Option ι)
  | listen

variable {ι C : Type*} [DecidableEq C]

/-! ## The checks of a call -/

namespace Instance

/-- A fresh instance. -/
def initial : Instance ι :=
  ⟨.released, none, none, none, none, fun _ => none, false, none, 0⟩

/-- `_check_mode`. -/
def checkMode (s : Instance ι) (required : Api) : Option Error :=
  match s.acquireMode with
  | none => none
  | some mode => if mode = required then none else some .mixedMode

/-- `_check_lock_lost`. -/
def checkLockLost (cfg : Config) (s : Instance ι) : Option Error :=
  if s.state = .lost ∧ cfg.strictMode then some .lockLost else none

/-- `_check_reacquire`. -/
def checkReacquire (cfg : Config) (s : Instance ι) : Option Error :=
  if s.state = .acquired ∧ cfg.reacquirePolicy = .forbid then some .alreadyAcquired else none

/-- The checks at the head of `_acquire` and `_aacquire`, in their order. -/
def acquireChecks (cfg : Config) (s : Instance ι) (api : Api) : Option Error :=
  s.checkMode api <|> s.checkLockLost cfg <|> s.checkReacquire cfg

/-- The checks at the head of `_release` and `_arelease`. -/
def releaseChecks (s : Instance ι) (api : Api) : Option Error :=
  if s.identifier = none then some .notAcquired else s.checkMode api

/-- The guard of `_refresh` and of the heartbeat's refresh. -/
def Holds (s : Instance ι) : Prop :=
  s.identifier ≠ none ∧ s.state = .acquired

/-! ## The updates of a call -/

/-- An acquire generates an identifier only where there is none. -/
def ensureIdentifier (s : Instance ι) (new : ι) : Instance ι :=
  { s with identifier := some (s.identifier.getD new) }

/-- `_increment_waiting`, made once per call. -/
def register (s : Instance ι) (registered : Bool) : Instance ι :=
  if registered then s else { s with waiting := s.waiting + 1 }

/-- `_decrement_waiting`. -/
def decrementWaiting (s : Instance ι) : Instance ι :=
  { s with waiting := s.waiting - 1 }

/-- `_finalize_acquire`. A token or an expiry of zero counts as none. -/
def finalizeAcquire (s : Instance ι) (fencingToken : Option ℕ) (expiresAt : Option ℤ)
    (registered : Bool) (mode : Api) : Instance ι :=
  let s := if registered then s.decrementWaiting else s
  { s with
    fencingToken := fencingToken.filter (· ≠ 0)
    expiresAt := expiresAt.filter (· ≠ 0)
    state := .acquired
    acquireMode := some mode }

/-- `_reset_state`. -/
def resetState (s : Instance ι) : Instance ι :=
  { s with
    state := .released
    identifier := none
    fencingToken := none
    expiresAt := none
    acquireMode := none
    lockLostEvent := false
    asyncLockLostEvent := s.asyncLockLostEvent.map fun _ => false }

/-- A detected loss: the thread's side sets the thread event, the task's side both. -/
def lose (s : Instance ι) (api : Api) : Instance ι :=
  { s with
    state := .lost
    lockLostEvent := true
    asyncLockLostEvent :=
      match api with
      | .sync => s.asyncLockLostEvent
      | .async => s.asyncLockLostEvent.map fun _ => true }

/-- The closure `on_lost`, which ignores a stale signal. -/
def onLost (s : Instance ι) (api : Api) : Instance ι :=
  if s.state = .acquired then s.lose api else s

/-- `await_lock_lost` makes its event when the loss has not been signalled yet. -/
def listen (s : Instance ι) : Instance ι :=
  if s.lockLostEvent then s
  else { s with asyncLockLostEvent := some (s.asyncLockLostEvent.getD false) }

/-- How a refresh that found the slot gone ends. -/
def goneOutcome (cfg : Config) (s : Instance ι) : Outcome :=
  match s.checkLockLost cfg with
  | some err => .raised err
  | none => .returned false

end Instance

/-! ## The updates of the machine -/

namespace Machine

/-- Nothing has been called yet. -/
def initial : Machine ι C := ⟨.initial, [], fun _ => .idle⟩

/-- The call is in its next phase. -/
def setCall (m : Machine ι C) (c : C) (p : Phase) : Machine ι C :=
  { m with calls := Function.update m.calls c p }

/-- `_start_heartbeat` and `_start_heartbeat_async`: nothing to do while the field is set, and an
error where there is no identifier. -/
def startHeartbeat (m : Machine ι C) (api : Api) : Option (Machine ι C) :=
  match m.inst.heartbeat api with
  | some _ => some m
  | none =>
    match m.inst.identifier with
    | none => none
    | some identifier =>
      some { m with
        inst := { m.inst with
          heartbeat := Function.update m.inst.heartbeat api (some m.loops.length) }
        loops := m.loops ++ [⟨api, identifier, false, false, .sleeping⟩] }

/-- The first half of a stop: the event is set, or the task is cancelled. -/
def setStopEvent (m : Machine ι C) (k : ℕ) : Machine ι C :=
  { m with loops := m.loops.modify k fun h => { h with stopEvent := true } }

/-- The second half of a stop clears the field. -/
def dropHeartbeat (m : Machine ι C) (api : Api) : Machine ι C :=
  { m with inst := { m.inst with heartbeat := Function.update m.inst.heartbeat api none } }

/-- A heartbeat loop goes on. -/
def setLoop (m : Machine ι C) (k : ℕ) (loop : Loop) : Machine ι C :=
  { m with loops := m.loops.modify k fun h => { h with loop := loop } }

/-- `_mark_lost_sync` and `_mark_lost_async`, up to the call of the user's callback. -/
def markLost (m : Machine ι C) (k : ℕ) (api : Api) : Machine ι C :=
  { m with
    inst := m.inst.onLost api
    loops := m.loops.modify k fun h =>
      { h with
        lockLost := true
        loop := if m.inst.state = .acquired then .declaring else .ended false } }

/-- The label of a declared loss. -/
def lostEvent (m : Machine ι C) (k : ℕ) (h : Heartbeat ι) : Event ι C :=
  .lost k h.api (decide (m.inst.heartbeat h.api = some k))
    (if m.inst.state = .acquired then some h.identifier else none)

/-- A stop may go on: a join may time out, the await of a task ends with the task. -/
def Stopped (m : Machine ι C) (api : Api) (k : ℕ) : Prop :=
  api = .async → ∃ h, m.loops[k]? = some h ∧ h.loop = .ended false

end Machine

/-- What a script in flight or a wait may raise: only a task can be cancelled. -/
def Raises (api : Api) (err : Error) : Prop :=
  err = .backend ∨ err = .cancelled ∧ api = .async

/-! ## Steps -/

variable (cfg : Config)

/-- One segment of a call or of a heartbeat loop. -/
inductive Step (m : Machine ι C) : Event ι C → Machine ι C → Prop
  -- `_acquire` and `_aacquire`
  | acquireRefused (c : C) (api : Api) (blocking : Bool) (err : Error)
      (hcall : m.calls c = .idle) (hcheck : m.inst.acquireChecks cfg api = some err) :
      Step m (.leave c (.acquire api blocking) (.raised err)) m
  | acquireBegin (c : C) (api : Api) (blocking : Bool) (new : ι)
      (hcall : m.calls c = .idle) (hcheck : m.inst.acquireChecks cfg api = none) :
      Step m (.enter c (.acquire api blocking))
        ({ m with inst := m.inst.ensureIdentifier new }.setCall c (.acquiring api blocking false))
  | acquireBusy (c : C) (api : Api) (registered : Bool)
      (hcall : m.calls c = .acquiring api false registered) :
      Step m (.leave c (.acquire api false) (.returned false)) (m.setCall c .idle)
  | acquireWait (c : C) (api : Api) (registered : Bool)
      (hcall : m.calls c = .acquiring api true registered) :
      Step m (.proceed c (.acquire api true))
        ({ m with inst := m.inst.register registered }.setCall c (.waiting api))
  | acquireTimeout (c : C) (api : Api) (registered : Bool)
      (hcall : m.calls c = .acquiring api true registered) :
      Step m (.leave c (.acquire api true) (.raised .acquireTimeout))
        ({ m with inst := (m.inst.register registered).decrementWaiting }.setCall c .idle)
  | acquireRetry (c : C) (api : Api) (hcall : m.calls c = .waiting api) :
      Step m (.proceed c (.acquire api true)) (m.setCall c (.acquiring api true true))
  | acquireFailed (c : C) (api : Api) (blocking registered : Bool) (err : Error)
      (hcall : m.calls c = .acquiring api blocking registered) (herr : Raises api err) :
      Step m (.leave c (.acquire api blocking) (.raised err)) (m.setCall c .idle)
  | waitFailed (c : C) (api : Api) (err : Error)
      (hcall : m.calls c = .waiting api) (herr : Raises api err) :
      Step m (.leave c (.acquire api true) (.raised err)) (m.setCall c .idle)
  -- A heartbeat thread may run between the two halves of `_handle_acquire_success`.
  | acquireGranted (c : C) (blocking registered : Bool)
      (fencingToken : Option ℕ) (expiresAt : Option ℤ)
      (hcall : m.calls c = .acquiring .sync blocking registered) :
      Step m (.proceed c (.acquire .sync blocking))
        ({ m with inst := m.inst.finalizeAcquire fencingToken expiresAt registered .sync }.setCall c
          (.finalized blocking))
  | acquireReturns (m' : Machine ι C) (c : C) (blocking : Bool)
      (hcall : m.calls c = .finalized blocking) (hbeat : m.startHeartbeat .sync = some m') :
      Step m (.leave c (.acquire .sync blocking) (.returned true)) (m'.setCall c .idle)
  | startFailed (c : C) (blocking : Bool)
      (hcall : m.calls c = .finalized blocking) (hbeat : m.startHeartbeat .sync = none) :
      Step m (.leave c (.acquire .sync blocking) (.raised .noIdentifier)) (m.setCall c .idle)
  -- A task runs both halves without a suspension.
  | aacquireReturns (m' : Machine ι C) (c : C) (blocking registered : Bool)
      (fencingToken : Option ℕ) (expiresAt : Option ℤ)
      (hcall : m.calls c = .acquiring .async blocking registered)
      (hbeat : Machine.startHeartbeat
        { m with inst := m.inst.finalizeAcquire fencingToken expiresAt registered .async } .async
          = some m') :
      Step m (.leave c (.acquire .async blocking) (.returned true)) (m'.setCall c .idle)
  | astartFailed (c : C) (blocking registered : Bool)
      (fencingToken : Option ℕ) (expiresAt : Option ℤ)
      (hcall : m.calls c = .acquiring .async blocking registered)
      (hbeat : Machine.startHeartbeat
        { m with inst := m.inst.finalizeAcquire fencingToken expiresAt registered .async } .async
          = none) :
      Step m (.leave c (.acquire .async blocking) (.raised .noIdentifier))
        ({ m with inst := m.inst.finalizeAcquire fencingToken expiresAt registered .async }.setCall c
          .idle)
  -- `_release` and `_arelease`
  | releaseRefused (c : C) (api : Api) (err : Error)
      (hcall : m.calls c = .idle) (hcheck : m.inst.releaseChecks api = some err) :
      Step m (.leave c (.release api) (.raised err)) m
  | releaseHalt (c : C) (api : Api) (k : ℕ)
      (hcall : m.calls c = .idle) (hcheck : m.inst.releaseChecks api = none)
      (hbeat : m.inst.heartbeat api = some k) :
      Step m (.halt c (.release api))
        ((m.setStopEvent k).setCall c (.stopping (.release api) k))
  | releaseBegin (c : C) (api : Api)
      (hcall : m.calls c = .idle) (hcheck : m.inst.releaseChecks api = none)
      (hbeat : m.inst.heartbeat api = none) :
      Step m (.enter c (.release api)) (m.setCall c (.releasing api))
  | releaseSend (c : C) (api : Api) (k : ℕ)
      (hcall : m.calls c = .stopping (.release api) k) (hstop : m.Stopped api k) :
      Step m (.dropped c (.release api) none)
        ((m.dropHeartbeat api).setCall c (.releasing api))
  | releaseUnheld (c : C) (api : Api) (hcall : m.calls c = .releasing api) :
      Step m (.leave c (.release api) (.returned false))
        ({ m with inst := m.inst.resetState }.setCall c .idle)
  | released (c : C) (api : Api) (hcall : m.calls c = .releasing api) :
      Step m (.proceed c (.release api))
        ({ m with inst := m.inst.resetState }.setCall c (.notifying api))
  | releaseFailed (c : C) (api : Api) (err : Error)
      (hcall : m.calls c = .releasing api) (herr : Raises api err) :
      Step m (.leave c (.release api) (.raised err)) (m.setCall c .idle)
  | notified (c : C) (api : Api) (hcall : m.calls c = .notifying api) :
      Step m (.leave c (.release api) (.returned true)) (m.setCall c .idle)
  -- `_notify_waiters_async` swallows errors but not a cancellation.
  | notifyCancelled (c : C) (hcall : m.calls c = .notifying .async) :
      Step m (.leave c (.release .async) (.raised .cancelled)) (m.setCall c .idle)
  -- `_refresh` and `_arefresh`
  | refreshUnheld (c : C) (api : Api)
      (hcall : m.calls c = .idle) (hheld : ¬ m.inst.Holds) :
      Step m (.leave c (.refresh api) (.returned false)) m
  | refreshBegin (c : C) (api : Api)
      (hcall : m.calls c = .idle) (hheld : m.inst.Holds) :
      Step m (.enter c (.refresh api)) (m.setCall c (.refreshing api))
  | refreshed (c : C) (api : Api) (expiresAt : ℤ)
      (hcall : m.calls c = .refreshing api) (hreply : expiresAt ≠ 0) :
      Step m (.leave c (.refresh api) (.returned true))
        ({ m with inst := { m.inst with expiresAt := some expiresAt } }.setCall c .idle)
  | refreshFailed (c : C) (api : Api) (err : Error)
      (hcall : m.calls c = .refreshing api) (herr : Raises api err) :
      Step m (.leave c (.refresh api) (.raised err)) (m.setCall c .idle)
  | refreshHalt (c : C) (api : Api) (k : ℕ)
      (hcall : m.calls c = .refreshing api) (hbeat : m.inst.heartbeat api = some k) :
      Step m (.halt c (.refresh api))
        (({ m with inst := m.inst.lose api }.setStopEvent k).setCall c (.stopping (.refresh api) k))
  | refreshGone (c : C) (api : Api)
      (hcall : m.calls c = .refreshing api) (hbeat : m.inst.heartbeat api = none) :
      Step m (.leave c (.refresh api) ((m.inst.lose api).goneOutcome cfg))
        ({ m with inst := m.inst.lose api }.setCall c .idle)
  | refreshStopped (c : C) (api : Api) (k : ℕ)
      (hcall : m.calls c = .stopping (.refresh api) k) (hstop : m.Stopped api k) :
      Step m (.dropped c (.refresh api) (some (m.inst.goneOutcome cfg)))
        ((m.dropHeartbeat api).setCall c .idle)
  -- The await of the cancelled task raises what its callback raised, or finds itself in it.
  | stopRaised (c : C) (op : Op) (k : ℕ) (h : Heartbeat ι)
      (hcall : m.calls c = .stopping op k) (hapi : op.api = .async)
      (hk : m.loops[k]? = some h) (hloop : h.loop = .ended true) :
      Step m (.leave c op (.raised .callback)) (m.setCall c .idle)
  | stopItself (c : C) (op : Op) (k : ℕ) (h : Heartbeat ι)
      (hcall : m.calls c = .stopping op k) (hapi : op.api = .async)
      (hk : m.loops[k]? = some h) (hloop : h.loop = .declaring) :
      Step m (.leave c op (.raised .awaitsItself)) (m.setCall c .idle)
  -- `_heartbeat_loop` and `_heartbeat_loop_async`
  | wake (k : ℕ) (h : Heartbeat ι) (hk : m.loops[k]? = some h)
      (hloop : h.loop = .sleeping) (hstop : h.stopEvent = false) (hheld : m.inst.Holds) :
      Step m (.beat k) (m.setLoop k .refreshing)
  | unheld (k : ℕ) (h : Heartbeat ι) (hk : m.loops[k]? = some h)
      (hloop : h.loop = .sleeping) (hstop : h.stopEvent = false) (hheld : ¬ m.inst.Holds) :
      Step m (m.lostEvent k h) (m.markLost k h.api)
  | renewed (k : ℕ) (h : Heartbeat ι) (expiresAt : ℤ)
      (hk : m.loops[k]? = some h) (hanswer : h.Answers) (hreply : expiresAt ≠ 0) :
      Step m (.beat k)
        ({ m with inst := { m.inst with expiresAt := some expiresAt } }.setLoop k .sleeping)
  | tolerated (k : ℕ) (h : Heartbeat ι)
      (hk : m.loops[k]? = some h) (hanswer : h.Answers) :
      Step m (.beat k) (m.setLoop k .sleeping)
  -- The refresh answered zero, or raised an error the loop gives up on.
  | declared (k : ℕ) (h : Heartbeat ι)
      (hk : m.loops[k]? = some h) (hanswer : h.Answers) :
      Step m (m.lostEvent k h) (m.markLost k h.api)
  | callbackDone (k : ℕ) (h : Heartbeat ι) (raised : Bool)
      (hk : m.loops[k]? = some h) (hloop : h.loop = .declaring) :
      Step m (.beat k) (m.setLoop k (.ended raised))
  | exited (k : ℕ) (h : Heartbeat ι)
      (hk : m.loops[k]? = some h) (hexit : h.Exits) :
      Step m (.beat k) (m.setLoop k (.ended false))
  -- `await_lock_lost`
  | listen : Step m .listen { m with inst := m.inst.listen }

/-- The instance as a transition system. -/
def system : System (Machine ι C) (Event ι C) where
  start m := m = Machine.initial
  step := Step cfg

end RedisSemaphore.Client

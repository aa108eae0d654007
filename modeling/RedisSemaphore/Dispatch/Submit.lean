import Mathlib.Algebra.Order.Field.Rat
import Mathlib.Tactic.Linarith
import RedisSemaphore.Transition

/-!
# A submitter waits for its reply

The wait loop of `submit` and `asubmit`, which is the same in both, from the moment at which the job
is in its queue. The loop reads the reply list with `BLMOVE` back onto itself, rides out transient
errors for a while and gives up at the timeout. Redis is seen through the results of the `BLMOVE`,
which are arbitrary, and so are the moments at which they come.

Times are in seconds and exact. One read of `time.monotonic` and what is computed from it are one
step, and any time may pass between two steps.
-/

namespace RedisSemaphore.Dispatch.Submitter

open Transition

/-! ## `errors.py` -/

/-- The exceptions that `map_backend_error` tells apart. `otherRedis` is any other `RedisError`. -/
inductive ExceptionClass
  | noPermission | readOnly | response | connection | timeout | os | otherRedis
  deriving DecidableEq, Repr

/-- What a `BLMOVE` may raise: the class of the exception, the name of that class and the text. -/
structure Exc where
  cls : ExceptionClass
  clsName : String
  text : String

/-- What `map_backend_error` makes of an exception of the client. -/
inductive BackendErrorClass
  | redisConnection | commandDenied | permanentBackend
  deriving DecidableEq, Repr

/-- A `BackendError`; the exception it was made from is the `original`. -/
structure BackendError where
  cls : BackendErrorClass
  message : String
  operation : Option String
  name : Option String
  original : Exc

/-- Only a `TransientBackendError` is. -/
def BackendError.isTransient (error : BackendError) : Bool :=
  decide (error.cls = .redisConnection)

/-- `str(exc) or exc.__class__.__name__`. -/
def Exc.message (exc : Exc) : String := if exc.text = "" then exc.clsName else exc.text

/-- `map_backend_error`. -/
def mapBackendError (exc : Exc) (operation name : Option String) : BackendError :=
  let error := fun cls => BackendError.mk cls exc.message operation name exc
  match exc.cls with
  | .noPermission => error .commandDenied
  | .readOnly => error .redisConnection
  | .response =>
    -- a blocked command that the server has interrupted
    if exc.message.startsWith "UNBLOCKED" then error .redisConnection else error .commandDenied
  | .connection => error .redisConnection
  | .timeout => error .redisConnection
  | .os => error .redisConnection
  | .otherRedis => error .permanentBackend

/-- The class of the error does not depend on what it is reported for. -/
theorem isTransient_mapBackendError (exc : Exc) (operation name operation' name' : Option String) :
    (mapBackendError exc operation name).isTransient
      = (mapBackendError exc operation' name').isTransient := by
  unfold mapBackendError
  cases exc.cls with
  | response =>
    dsimp only
    split <;> rfl
  | noPermission | readOnly | connection | timeout | os | otherRedis => rfl

/-! ## One call -/

/-- What the wait of one submitted job depends on; `start` is the moment at which `give_up` is
computed. -/
structure Call where
  queue : String
  jobId : String
  timeout : Option ℚ
  socketTimeout : Option ℚ
  start : ℚ

/-- The dictionary in a reply. A missing `ok` counts as false. -/
structure ReplyData (π : Type) where
  ok : Bool
  result : Option π
  errorType : Option String
  message : Option String
  data : Option π

/-- How a call ends. -/
inductive Outcome (π : Type)
  | returned (result : Option π)
  | jobFailed (errorType message : String) (data : Option π)
  | jobTimeout (jobId queue : String) (timeout : Option ℚ)
  | backend (error : BackendError)

variable {π : Type} (call : Call)

/-- `give_up`. -/
def Call.giveUp : Option ℚ := call.timeout.map (call.start + ·)

/-- `_timed_out`. -/
def Call.timedOut : Outcome π := .jobTimeout call.jobId call.queue call.timeout

/-- `_parse_reply`. -/
def parseReply (data : ReplyData π) : Outcome π :=
  if data.ok then .returned data.result
  else .jobFailed (data.errorType.getD "Error") (data.message.getD "") data.data

/-- `_block_cap`: at most `_MAX_BLOCK`, and four fifths of the client's socket timeout. -/
def blockCap (socketTimeout : Option ℚ) : ℚ :=
  match socketTimeout with
  | none => 5
  | some timeout => if timeout ≤ 0 then 5 else min 5 (timeout * (8 / 10))

/-- The block time of the next `BLMOVE`, with the floor `_MIN_BLOCK`; `none` at the timeout. -/
def nextBlock (clock : ℚ) : Option ℚ :=
  let block := blockCap call.socketTimeout
  match call.giveUp with
  | none => some block
  | some giveUp =>
    let block := min block (giveUp - clock)
    if block ≤ 0 then none else some (max block (1 / 100))

/-- `_tolerate_wait_error`: the start of the failure streak, unless the error is permanent or the
streak exceeds `_WAIT_ERROR_BUDGET`. -/
def tolerateWaitError (exc : Exc) (queue : String) (failingSince : Option ℚ) (now : ℚ) :
    Except BackendError ℚ :=
  let mapped := mapBackendError exc (some "dispatch_wait") (some queue)
  let failingSince := failingSince.getD now
  if mapped.isTransient = false ∨ 10 ≤ now - failingSince then .error mapped else .ok failingSince

/-- `_wait_error_pause`: `_WAIT_ERROR_PAUSE`, but not past the timeout. -/
def waitErrorPause (giveUp : Option ℚ) (now : ℚ) : ℚ :=
  match giveUp with
  | none => 1 / 2
  | some giveUp => max 0 (min (1 / 2) (giveUp - now))

/-! ### What they compute -/

/-- A wait is never cut down to nothing. -/
theorem blockCap_pos (socketTimeout : Option ℚ) : 0 < blockCap socketTimeout := by
  unfold blockCap
  cases socketTimeout with
  | none => norm_num
  | some timeout =>
    dsimp only
    split
    · norm_num
    · rename_i hpositive
      refine lt_min (by norm_num) ?_
      linarith

section Computed

variable {call : Call} {clock block giveUp : ℚ} {exc : Exc} {queue : String}
  {failingSince : Option ℚ} {now since : ℚ} {error : BackendError}

/-- The loop gives up exactly at the timeout. -/
theorem nextBlock_eq_none :
    nextBlock call clock = none ↔ ∃ giveUp, call.giveUp = some giveUp ∧ giveUp ≤ clock := by
  have hcap := blockCap_pos call.socketTimeout
  unfold nextBlock
  cases call.giveUp with
  | none => simp
  | some giveUp =>
    have hover : min (blockCap call.socketTimeout) (giveUp - clock) ≤ 0 ↔ giveUp ≤ clock := by
      rw [min_le_iff, or_iff_right (not_le.mpr hcap), sub_nonpos]
    simp [hover]

/-- A block time is between the floor and the time remaining, where there is that much. -/
theorem nextBlock_bounds (h : nextBlock call clock = some block)
    (hgiveUp : call.giveUp = some giveUp) :
    1 / 100 ≤ block ∧ block ≤ max (1 / 100) (giveUp - clock) := by
  unfold nextBlock at h
  simp only [hgiveUp] at h
  split at h
  · cases h
  · obtain rfl := Option.some.inj h
    refine ⟨le_max_right _ _, max_le ?_ (le_max_left _ _)⟩
    exact (min_le_right _ _).trans (le_max_right _ _)

/-- The pause after an error does not go past the moment the call gives up. -/
theorem waitErrorPause_le : waitErrorPause (some giveUp) now ≤ max 0 (giveUp - now) :=
  max_le_max_left 0 (min_le_right _ _)

/-- An error is tolerated only if it is transient, and its streak counts from its first error. -/
theorem tolerateWaitError_ok (h : tolerateWaitError exc queue failingSince now = .ok since) :
    (mapBackendError exc none none).isTransient = true ∧ since = failingSince.getD now := by
  unfold tolerateWaitError at h
  dsimp only at h
  rw [isTransient_mapBackendError _ _ _ none none] at h
  split at h
  · cases h
  · rename_i htolerated
    rw [not_or, Bool.not_eq_false] at htolerated
    exact ⟨htolerated.1, (Except.ok.inj h).symm⟩

/-- An error that ends the call is not transient, or its streak has lasted ten seconds. -/
theorem tolerateWaitError_error
    (h : tolerateWaitError exc queue failingSince now = .error error) :
    error = mapBackendError exc (some "dispatch_wait") (some queue) ∧
      (error.isTransient = false ∨ 10 ≤ now - failingSince.getD now) := by
  unfold tolerateWaitError at h
  dsimp only at h
  split at h
  · rename_i hraised
    obtain rfl := Except.error.inj h
    exact ⟨rfl, hraised⟩
  · cases h

end Computed

/-! ## The loop -/

/-- Where the loop is. `deleting` is the clean-up after a reply, whose errors are suppressed. -/
inductive Phase (π : Type)
  | head
  | blocking (block : ℚ)
  | failing -- before the pause
  | sleeping (pause : ℚ)
  | deleting (data : ReplyData π)
  | ended (outcome : Outcome π)

/-- The clock, the start of the current streak of errors, and where the call is. -/
structure State (π : Type) where
  clock : ℚ
  failingSince : Option ℚ
  phase : Phase π

/-- The call goes on. -/
def State.Active (s : State π) : Prop := ∀ outcome, s.phase ≠ .ended outcome

/-- What happens to a call: time, the segments of the loop, and the results of its `BLMOVE`s. -/
inductive Event (π : Type)
  | advance (clock : ℚ)
  | next
  | answered (reply : Option (ReplyData π))
  | failed (clock : ℚ) (exc : Exc)
  | pause
  | woken
  | deleted (suppressed : Bool)

/-- One segment of the loop, or time between two of them. -/
inductive Step (s : State π) : Event π → State π → Prop
  | advance (clock : ℚ) (hactive : s.Active) (hle : s.clock ≤ clock) :
      Step s (.advance clock) { s with clock := clock }
  | timedOut (hphase : s.phase = .head) (hblock : nextBlock call s.clock = none) :
      Step s .next { s with phase := .ended call.timedOut }
  | issue (block : ℚ) (hphase : s.phase = .head) (hblock : nextBlock call s.clock = some block) :
      Step s .next { s with phase := .blocking block }
  | empty (block : ℚ) (hphase : s.phase = .blocking block) :
      Step s (.answered none) { s with failingSince := none, phase := .head }
  | reply (block : ℚ) (data : ReplyData π) (hphase : s.phase = .blocking block) :
      Step s (.answered (some data)) { s with failingSince := none, phase := .deleting data }
  | tolerated (block : ℚ) (exc : Exc) (since : ℚ) (hphase : s.phase = .blocking block)
      (hexc : tolerateWaitError exc call.queue s.failingSince s.clock = .ok since) :
      Step s (.failed s.clock exc) { s with failingSince := some since, phase := .failing }
  | raised (block : ℚ) (exc : Exc) (error : BackendError) (hphase : s.phase = .blocking block)
      (hexc : tolerateWaitError exc call.queue s.failingSince s.clock = .error error) :
      Step s (.failed s.clock exc) { s with phase := .ended (.backend error) }
  | pause (hphase : s.phase = .failing) :
      Step s .pause { s with phase := .sleeping (waitErrorPause call.giveUp s.clock) }
  | woken (pause : ℚ) (hphase : s.phase = .sleeping pause) :
      Step s .woken { s with phase := .head }
  | deleted (data : ReplyData π) (suppressed : Bool) (hphase : s.phase = .deleting data) :
      Step s (.deleted suppressed) { s with phase := .ended (parseReply data) }

/-- The wait of one call. -/
def system : System (State π) (Event π) where
  start s := s = ⟨call.start, none, .head⟩
  step := Step call

/-! ## What a trace says -/

/-- The reply an event brings. -/
def Event.reply : Event π → Option (ReplyData π)
  | .answered reply => reply
  | _ => none

/-- The first reply that was received. -/
def firstReply : List (Event π) → Option (ReplyData π)
  | [] => none
  | e :: tr => firstReply tr <|> e.reply

/-- What brings no reply leaves the first one as it is. -/
theorem firstReply_cons {tr : List (Event π)} {e : Event π} (he : e.reply = none) :
    firstReply (e :: tr) = firstReply tr := by
  rw [firstReply, he]
  cases firstReply tr <;> rfl

/-- The call gave up before a reply came. -/
def Outcome.GaveUp : Outcome π → Prop
  | .returned _ => False
  | .jobFailed _ _ _ => False
  | .jobTimeout _ _ _ => True
  | .backend _ => True

/-- Where the loop is once this reply, or none, has been received. -/
def Received : Option (ReplyData π) → Phase π → Prop
  | some data, phase => phase = .deleting data ∨ phase = .ended (parseReply data)
  | none, .deleting _ => False
  | none, .ended outcome => outcome.GaveUp
  | none, _ => True

/-- It does not interrupt a streak of transient errors. -/
def Event.Suffers : Event π → Prop
  | .answered _ => False
  | .failed _ exc => (mapBackendError exc none none).isTransient = true
  | _ => True

/-- An unbroken streak of transient errors began at `since`. -/
def Streak (since : ℚ) (tr : List (Event π)) : Prop :=
  ∃ recent exc earlier, tr = recent ++ .failed since exc :: earlier ∧
    ∀ e ∈ recent ++ [.failed since exc], e.Suffers

/-- One transient error is a streak. -/
theorem streak_singleton {since : ℚ} {exc : Exc} {tr : List (Event π)}
    (h : (mapBackendError exc none none).isTransient = true) :
    Streak since (.failed since exc :: tr) :=
  ⟨[], exc, tr, rfl, by simpa [Event.Suffers] using h⟩

/-- One more is a longer one. -/
theorem Streak.cons {since : ℚ} {tr : List (Event π)} {e : Event π} (h : Streak since tr)
    (he : e.Suffers) : Streak since (e :: tr) := by
  obtain ⟨recent, exc, earlier, rfl, hrecent⟩ := h
  exact ⟨e :: recent, exc, earlier, rfl, List.forall_mem_cons.mpr ⟨he, hrecent⟩⟩

/-! ## Runs -/

section Runs

variable {call : Call} {tr : List (Event π)} {s s' : State π} {e : Event π}

/-- What the trace says about the state. -/
structure Inv (tr : List (Event π)) (s : State π) : Prop where
  streak : s.Active → ∀ since, s.failingSince = some since → Streak since tr
  received : Received (firstReply tr) s.phase

/-- Before a reply is received there is none in the trace. -/
theorem Inv.unreplied (h : Inv tr s) (hactive : s.Active)
    (hdeleting : ∀ data, s.phase ≠ .deleting data) : firstReply tr = none := by
  have hreceived := h.received
  cases hreply : firstReply tr with
  | none => rfl
  | some data =>
    rw [hreply] at hreceived
    rcases hreceived with hphase | hphase
    · exact absurd hphase (hdeleting data)
    · exact absurd hphase (hactive _)

/-- A segment that neither answers nor fails a `BLMOVE`. -/
theorem Inv.quiet (h : Inv tr s) (hactive : s.Active) (hreply : e.reply = none)
    (hsuffers : e.Suffers) (hsince : s'.failingSince = s.failingSince)
    (hreceived : Received (firstReply tr) s'.phase) : Inv (e :: tr) s' := by
  refine ⟨fun _ since hfailing => ?_, ?_⟩
  · rw [hsince] at hfailing
    exact (h.streak hactive since hfailing).cons hsuffers
  · rw [firstReply_cons hreply]
    exact hreceived

/-- Nothing happens to a call that has ended. -/
theorem Step.active (h : Step call s e s') : s.Active := by
  intro outcome hended
  cases h with
  | advance _ hactive => exact hactive outcome hended
  | timedOut hphase | issue _ hphase | empty _ hphase | reply _ _ hphase | tolerated _ _ _ hphase
  | raised _ _ _ hphase | pause hphase | woken _ hphase | deleted _ _ hphase =>
    simp [hphase] at hended

/-- **One segment** keeps the invariant. -/
theorem Inv.step (h : Inv tr s) (hstep : Step call s e s') : Inv (e :: tr) s' := by
  have hactive := hstep.active
  have hunreplied := h.unreplied hactive
  have hreceived := h.received
  cases hstep with
  | advance clock => exact h.quiet hactive rfl trivial rfl hreceived
  | timedOut hphase | issue _ hphase | pause hphase | woken _ hphase =>
    refine h.quiet hactive rfl trivial rfl ?_
    rw [hunreplied (by simp [hphase])]
    trivial
  | empty block hphase =>
    refine ⟨fun _ since hfailing => ?_, ?_⟩
    · cases hfailing
    · rw [firstReply_cons rfl, hunreplied (by simp [hphase])]
      trivial
  | reply block data hphase =>
    refine ⟨fun _ since hfailing => ?_, ?_⟩
    · cases hfailing
    · rw [firstReply, hunreplied (by simp [hphase])]
      exact Or.inl rfl
  | tolerated block exc since hphase hexc =>
    obtain ⟨htransient, rfl⟩ := tolerateWaitError_ok hexc
    refine ⟨fun _ since hsince => ?_, ?_⟩
    · obtain rfl := Option.some.inj hsince
      cases hfailing : s.failingSince with
      | none => exact streak_singleton htransient
      | some first => exact (h.streak hactive first hfailing).cons htransient
    · rw [firstReply_cons rfl, hunreplied (by simp [hphase])]
      trivial
  | raised block exc error hphase =>
    refine ⟨fun hgoesOn => ?_, ?_⟩
    · exact absurd rfl (hgoesOn _)
    · rw [firstReply_cons rfl, hunreplied (by simp [hphase])]
      trivial
  | deleted data suppressed hphase =>
    refine h.quiet hactive rfl trivial rfl ?_
    rw [hphase] at hreceived
    cases hreply : firstReply tr with
    | none =>
      rw [hreply] at hreceived
      exact hreceived.elim
    | some data' =>
      rw [hreply] at hreceived
      rcases hreceived with hsame | hsame
      · obtain rfl := Phase.deleting.inj hsame
        exact Or.inr rfl
      · cases hsame

/-- The invariant holds in every run of the call. -/
theorem inv_of_run (h : (system call).Run tr s) : Inv tr s := by
  refine System.Run.invariant (I := Inv) ?_ (fun tr s e s' _ ih hstep => ih.step hstep) h
  rintro s rfl
  exact ⟨fun _ since hfailing => (by cases hfailing), trivial⟩

/-- A call raises a `BackendError` for a permanent error, or at the end of a streak. -/
theorem backend_cases (h : (system call).Run tr s) (hstep : Step call s e s') {error : BackendError}
    (hended : s'.phase = .ended (.backend error)) :
    ∃ exc, e = .failed s.clock exc ∧
      error = mapBackendError exc (some "dispatch_wait") (some call.queue) ∧
      (error.isTransient = false ∨ ∃ since, Streak since (e :: tr) ∧ 10 ≤ s.clock - since) := by
  have hactive := hstep.active
  cases hstep with
  | raised block exc error' hphase hexc =>
    obtain rfl := Outcome.backend.inj (Phase.ended.inj hended)
    obtain ⟨heq, hwhy⟩ := tolerateWaitError_error hexc
    refine ⟨exc, rfl, heq, ?_⟩
    rw [or_iff_not_imp_left, Bool.not_eq_false]
    intro htransient
    have hlong : 10 ≤ s.clock - s.failingSince.getD s.clock := by
      rcases hwhy with hpermanent | hlong
      · rw [htransient] at hpermanent
        cases hpermanent
      · exact hlong
    have hsuffers : Event.Suffers (.failed s.clock exc : Event π) := by
      rw [heq, isTransient_mapBackendError _ _ _ none none] at htransient
      exact htransient
    cases hfailing : s.failingSince with
    | none =>
      rw [hfailing, Option.getD_none, sub_self] at hlong
      norm_num at hlong
    | some since =>
      rw [hfailing] at hlong
      exact ⟨since, ((inv_of_run h).streak hactive since hfailing).cons hsuffers, hlong⟩
  | advance => exact absurd hended (hactive _)
  | timedOut => simp [Call.timedOut] at hended
  | deleted data =>
    simp only [Phase.ended.injEq, parseReply] at hended
    split at hended <;> cases hended
  | _ => simp at hended

/-- **A submitter neither gives up early nor waits too long.** Once a reply is received the call can
only end with its outcome, and without one it ends only by giving up: at the timeout or later, for a
permanent error, or when an unbroken streak of transient errors has lasted ten seconds. With a
timeout, a `BLMOVE` blocks for at least 10 ms and no longer than that or the time remaining, and no
pause exceeds the time remaining. -/
theorem submitter_waits (h : (system call).Run tr s) (hstep : Step call s e s') :
    (∀ data, firstReply (e :: tr) = some data →
      s'.phase = .deleting data ∨ s'.phase = .ended (parseReply data)) ∧
    (∀ outcome, s'.phase = .ended outcome → firstReply (e :: tr) = none → outcome.GaveUp) ∧
    (∀ jobId queue timeout, s'.phase = .ended (.jobTimeout jobId queue timeout) →
      ∃ giveUp, call.giveUp = some giveUp ∧ giveUp ≤ s.clock) ∧
    (∀ error, s'.phase = .ended (.backend error) →
      error.isTransient = false ∨ ∃ since, Streak since (e :: tr) ∧ 10 ≤ s.clock - since) ∧
    ∀ giveUp, call.giveUp = some giveUp →
      (∀ block, e = .next → s'.phase = .blocking block →
        1 / 100 ≤ block ∧ block ≤ max (1 / 100) (giveUp - s.clock)) ∧
      ∀ pause, e = .pause → s'.phase = .sleeping pause → pause ≤ max 0 (giveUp - s.clock) := by
  have hreceived := ((inv_of_run h).step hstep).received
  refine ⟨fun data hreply => ?_, fun outcome hended hnone => ?_,
    fun jobId queue timeout hended => ?_, fun error hended => ?_,
    fun giveUp hgiveUp => ⟨fun block he hphase => ?_, fun pause he hphase => ?_⟩⟩
  · rw [hreply] at hreceived
    exact hreceived
  · rw [hended, hnone] at hreceived
    exact hreceived
  · cases hstep with
    | timedOut hphase hblock => exact nextBlock_eq_none.mp hblock
    | advance _ hactive => exact absurd hended (hactive _)
    | deleted data =>
      simp only [Phase.ended.injEq, parseReply] at hended
      split at hended <;> cases hended
    | _ => simp at hended
  · obtain ⟨exc, -, -, hwhy⟩ := backend_cases h hstep hended
    exact hwhy
  · cases hstep with
    | issue block' hphase' hblock =>
      obtain rfl := Phase.blocking.inj hphase
      exact nextBlock_bounds hblock hgiveUp
    | timedOut => cases hphase
    | _ => cases he
  · cases hstep with
    | pause hphase' =>
      obtain rfl := Phase.sleeping.inj hphase
      rw [hgiveUp]
      exact waitErrorPause_le
    | _ => cases he

end Runs

/-- One second for a job. -/
def ask : Call := ⟨"q", "j", some 1, none, 0⟩

/-- The connection breaks. -/
def reset : Exc := ⟨.connection, "ConnectionError", "reset by peer"⟩

/-- The handler returned nothing. -/
def answer : ReplyData Unit := ⟨true, none, none, none, none⟩

/-- The first `BLMOVE` of a job fails, and the second one brings the reply. -/
def retried : List (Event Unit) :=
  [.answered (some answer), .next, .woken, .advance (1 / 2), .pause, .failed 0 reset, .next]

/-- A run in which the first wait fails and the second brings the reply. -/
theorem run_retried : (system ask).Run retried ⟨1 / 2, none, .deleting answer⟩ := by
  have hblock : nextBlock ask 0 = some 1 := by
    norm_num [nextBlock, ask, Call.giveUp, blockCap]
  have hlate : nextBlock ask (1 / 2) = some (1 / 2) := by
    norm_num [nextBlock, ask, Call.giveUp, blockCap]
  have hexc : tolerateWaitError reset "q" none 0 = .ok 0 := by
    norm_num [tolerateWaitError, mapBackendError, reset, BackendError.isTransient]
  have h₀ : (system ask).Run ([] : List (Event Unit)) ⟨0, none, .head⟩ := .start rfl
  have h₁ := h₀.step (.issue 1 rfl hblock)
  have h₂ := h₁.step (.tolerated 1 reset 0 rfl hexc)
  have h₃ := h₂.step (.pause rfl)
  have h₄ := h₃.step (.advance (1 / 2) (by simp [State.Active]) (by norm_num))
  have h₅ := h₄.step (.woken _ rfl)
  have h₆ := h₅.step (.issue (1 / 2) rfl hlate)
  exact h₆.step (.reply (1 / 2) answer rfl)

/-- The submitter gets what the handler has returned. -/
theorem submitter_waits_retried : ∃ s, (system ask).Run (.deleted false :: retried) s ∧
    s.phase = .ended (.returned none) := by
  have hdeleted : Step ask ⟨1 / 2, none, .deleting answer⟩ (.deleted false) _ :=
    .deleted answer false rfl
  rcases (submitter_waits run_retried hdeleted).1 answer rfl with hphase | hphase
  · cases hphase
  · exact ⟨_, run_retried.step hdeleted, hphase⟩

end RedisSemaphore.Dispatch.Submitter

import Mathlib.Data.Rat.Cast.Defs
import RedisSemaphore.Dispatch.Enqueue
import RedisSemaphore.Dispatch.Submit
import RedisSemaphore.Json

/-!
# What is written in a job and in its reply

A submitter prints the payload as JSON, and the worker decodes it from the stream entry; the worker
prints the reply, and the submitter parses it. `decode_jobFields` and `parse_reply_of_run` are the
two round trips.

An object of the user's is seen through `json.dumps`: as the value it is printed as, or as the
exception it raises. Numbers of a double's precision are exact here.
-/

namespace RedisSemaphore.Dispatch

open Redis

/-! ## Jobs -/

/-- The parsers of the standard library. -/
def python : Python Json := ⟨Json.loads, fun s => (toNumber s).map fun n : ℤ => (n : ℚ)⟩

/-- **The job comes back from its entry.** -/
theorem decode_jobFields {a : Producer.Submit} {payload : Json}
    (hpayload : a.payload = Json.dumps payload) (nowMs : ℤ) :
    decode python (Producer.jobFields a nowMs) =
      some ⟨a.jobId, payload, (nowMs : ℚ) / 1000,
        a.timeoutMs.map fun timeoutMs => ((nowMs + timeoutMs : ℤ) : ℚ) / 1000⟩ := by
  have hread (n : ℤ) : python.float n.repr = some (n : ℚ) := by
    show (toNumber (toString n)).map _ = _
    rw [toNumber_toString, Option.map_some]
  have hloads : python.jsonLoads a.payload = some payload := by
    rw [hpayload]
    exact Json.loads_dumps payload
  cases htimeout : a.timeoutMs with
  | none =>
    simp [decode, field, Producer.jobFields, List.lookup_cons, hread, hloads, htimeout]
  | some timeoutMs =>
    have hne : (nowMs + timeoutMs).repr ≠ "" := toString_ne_empty (nowMs + timeoutMs)
    simp [decode, field, Producer.jobFields, List.lookup_cons, hread, hloads, htimeout, hne]

/-! ## Handlers -/

/-- The class name of an exception, and its text. -/
structure Raised where
  typeName : String
  text : String
  deriving DecidableEq, Repr

/-- What `json.dumps` makes of an object: its text, a `TypeError` or a `ValueError`, or another
exception. -/
inductive Object
  | printed (j : Json)
  | refused (exc : Raised)
  | broken (exc : Raised)

/-- How a handler ends. `exits` is an exception that is not an `Exception`. -/
inductive HandlerEnd
  | returned (result : Object)
  | jobError (exc : Raised) (data : Object)
  | rateLimitTimeout (exc : Raised) (retryAfter : Json.Float)
  | raised (exc : Raised)
  | requeue (delay : ℚ)
  | cancelled
  | exits

/-- How `_run_job` goes on: to `_finish`, to `_requeue`, or it raises. The outcome is what
`_record_job` counts. -/
inductive JobEnd
  | finish (reply : String) (outcome : String)
  | requeue (delay : ℚ)
  | raises

/-- `_error_reply`; `none` where printing raises what it does not catch. -/
def errorReply (exc : Raised) (data : Object) : Option String :=
  let message : List (String × Json) :=
    [("ok", .bool false), ("error_type", .str exc.typeName), ("message", .str exc.text)]
  match data with
  | .printed j => some (Json.dumps (.dict (message ++ [("data", j)])))
  | .refused _ => some (Json.dumps (.dict message))
  | .broken _ => none

/-- A failed job: its error reply is pushed, where there is one. -/
def failed (exc : Raised) (data : Object) : JobEnd :=
  match errorReply exc data with
  | some reply => .finish reply "failed"
  | none => .raises

/-- `_run_job` from the end of the handler on. A result that cannot be printed is an exception of
the job. -/
def runJob : HandlerEnd → JobEnd
  | .returned (.printed j) =>
    .finish (Json.dumps (.dict [("ok", .bool true), ("result", j)])) "completed"
  | .returned (.refused exc) => failed exc (.printed (.dict []))
  | .returned (.broken exc) => failed exc (.printed (.dict []))
  | .jobError exc data => failed exc data
  | .rateLimitTimeout exc retryAfter =>
    failed exc (.printed (.dict [("retry_after", .float retryAfter)]))
  | .raised exc => failed exc (.printed (.dict []))
  | .requeue delay => .requeue delay
  | .cancelled => .raises
  | .exits => .raises

/-! ## Replies -/

/-- A string of an object; `none` is another value. -/
def getStr (key : String) (items : List (String × Json)) : Option (Option String) :=
  match Json.get key items with
  | none => some none
  | some (.str s) => some (some s)
  | some _ => none

/-- What `_parse_reply` looks up in a reply. `none` is a text that no worker pushes: it is no JSON
object, or its `error_type` or `message` is no string. -/
def readReply (raw : String) : Option (Submitter.ReplyData Json) :=
  match Json.loads raw with
  | some (.dict items) => do
    let errorType ← getStr "error_type" items
    let message ← getStr "message" items
    return {
      ok := ((Json.get "ok" items).map Json.truthy).getD false
      result := Json.get "result" items
      errorType := errorType
      message := message
      data := Json.get "data" items }
  | _ => none

/-- What the submitter of the job is told about this end. -/
def HandlerEnd.outcome : HandlerEnd → Option (Submitter.Outcome Json)
  | .returned (.printed j) => some (.returned (some j))
  | .returned (.refused exc) => some (.jobFailed exc.typeName exc.text (some (.dict [])))
  | .returned (.broken exc) => some (.jobFailed exc.typeName exc.text (some (.dict [])))
  | .jobError exc (.printed j) => some (.jobFailed exc.typeName exc.text (some j))
  | .jobError exc (.refused _) => some (.jobFailed exc.typeName exc.text none)
  | .jobError _ (.broken _) => none
  | .rateLimitTimeout exc retryAfter =>
    some (.jobFailed exc.typeName exc.text (some (.dict [("retry_after", .float retryAfter)])))
  | .raised exc => some (.jobFailed exc.typeName exc.text (some (.dict [])))
  | .requeue _ => none
  | .cancelled => none
  | .exits => none

/-- A result arrives as it was printed. -/
theorem readReply_result (j : Json) :
    readReply (Json.dumps (.dict [("ok", .bool true), ("result", j)])) =
      some ⟨true, some j, none, none, none⟩ := by
  rw [readReply, Json.loads_dumps]
  simp [getStr, Json.get, Json.truthy, List.lookup_cons]

/-- An error arrives with its class, its text and, where they can be printed, its details. -/
theorem readReply_error {exc : Raised} {data : Object} {reply : String}
    (h : errorReply exc data = some reply) : ∃ details,
    readReply reply = some ⟨false, none, some exc.typeName, some exc.text, details⟩ ∧
      (∀ j, data = .printed j → details = some j) ∧ ∀ e, data = .refused e → details = none := by
  cases data with
  | printed j =>
    obtain rfl := Option.some.inj h
    refine ⟨some j, ?_, ?_, ?_⟩
    · rw [readReply, Json.loads_dumps]
      simp [getStr, Json.get, Json.truthy, List.lookup_cons]
    · intro j' hj
      rw [Object.printed.inj hj]
    · intro e he
      cases he
  | refused exc' =>
    obtain rfl := Option.some.inj h
    refine ⟨none, ?_, ?_, fun _ _ => rfl⟩
    · rw [readReply, Json.loads_dumps]
      simp [getStr, Json.get, Json.truthy, List.lookup_cons]
    · intro j hj
      cases hj
  | broken exc' => cases h

/-- The reply of a failed job, read by its submitter. -/
theorem parse_failed {exc : Raised} {data : Object} {reply outcome : String}
    (h : failed exc data = .finish reply outcome) : outcome = "failed" ∧
    ∃ read details, readReply reply = some read ∧
      Submitter.parseReply read = .jobFailed exc.typeName exc.text details ∧
      (∀ j, data = .printed j → details = some j) ∧ ∀ e, data = .refused e → details = none := by
  rw [failed] at h
  cases hreply : errorReply exc data with
  | none =>
    rw [hreply] at h
    cases h
  | some text =>
    rw [hreply] at h
    obtain ⟨rfl, rfl⟩ := JobEnd.finish.inj h
    obtain ⟨details, hread, hdetails⟩ := readReply_error hreply
    exact ⟨rfl, _, details, hread, rfl, hdetails⟩

/-- **The submitter is told how the handler ended.** Whatever `_run_job` pushes can be read, and
parses to the outcome of the handler: to its result exactly where the job counts as completed, and
to its error otherwise. -/
theorem parse_reply_of_run {handler : HandlerEnd} {reply outcome : String}
    (h : runJob handler = .finish reply outcome) :
    ∃ data, readReply reply = some data ∧ handler.outcome = some (Submitter.parseReply data) ∧
      ((∃ j, handler = .returned (.printed j)) ∧ outcome = "completed" ∨
        (∀ j, handler ≠ .returned (.printed j)) ∧ outcome = "failed") := by
  have hprinted {exc : Raised} {j : Json}
      (hfailed : failed exc (.printed j) = .finish reply outcome) :
      ∃ data, readReply reply = some data ∧
        some (.jobFailed exc.typeName exc.text (some j)) = some (Submitter.parseReply data) ∧
        outcome = "failed" := by
    obtain ⟨houtcome, data, details, hread, hparse, hdetails, -⟩ := parse_failed hfailed
    rw [hdetails j rfl] at hparse
    exact ⟨data, hread, by rw [hparse], houtcome⟩
  cases handler with
  | returned result =>
    cases result with
    | printed j =>
      obtain ⟨rfl, rfl⟩ := JobEnd.finish.inj h
      exact ⟨_, readReply_result j, rfl, Or.inl ⟨⟨j, rfl⟩, rfl⟩⟩
    | refused exc =>
      obtain ⟨data, hread, hparse, houtcome⟩ := hprinted h
      exact ⟨data, hread, hparse, Or.inr ⟨by simp, houtcome⟩⟩
    | broken exc =>
      obtain ⟨data, hread, hparse, houtcome⟩ := hprinted h
      exact ⟨data, hread, hparse, Or.inr ⟨by simp, houtcome⟩⟩
  | jobError exc data =>
    have hfailed : failed exc data = .finish reply outcome := h
    obtain ⟨houtcome, read, details, hread, hparse, hprint, hrefuse⟩ := parse_failed hfailed
    refine ⟨read, hread, ?_, Or.inr ⟨by simp, houtcome⟩⟩
    rw [hparse]
    cases data with
    | printed j => rw [hprint j rfl, HandlerEnd.outcome]
    | refused e => rw [hrefuse e rfl, HandlerEnd.outcome]
    | broken e => cases h
  | rateLimitTimeout exc retryAfter =>
    obtain ⟨data, hread, hparse, houtcome⟩ := hprinted h
    exact ⟨data, hread, hparse, Or.inr ⟨by simp, houtcome⟩⟩
  | raised exc =>
    obtain ⟨data, hread, hparse, houtcome⟩ := hprinted h
    exact ⟨data, hread, hparse, Or.inr ⟨by simp, houtcome⟩⟩
  | requeue delay => cases h
  | cancelled => cases h
  | exits => cases h

end RedisSemaphore.Dispatch

import Mathlib.Data.Rat.Defs
import RedisSemaphore.Redis.Stream

/-!
# One dispatch queue on the server

The keys of one queue, the commands workers send about it and what each does when it executes. The
leadership Mutex is reduced to the identifier that owns it: a worker makes a new identifier for
every election, so an owner is a worker with the number of the election.
-/

namespace RedisSemaphore.Dispatch

open Redis

/-! ## Jobs -/

/-- The fields of a stream entry, as text. -/
abbrev Fields := List (String × String)

/-- The standard library's parsers that `_decode` calls. -/
structure Python (π : Type) where
  jsonLoads : String → Option π
  float : String → Option ℚ

/-- The part of a `Job` that comes out of its entry. -/
structure Job (π : Type) where
  id : String
  payload : π
  created : ℚ
  deadline : Option ℚ
  deriving DecidableEq

/-- A field of an entry. The client makes a `dict` of what Redis reports, so of a name that is
repeated the last value stays. -/
def field (fields : Fields) (name : String) : Option String := fields.reverse.lookup name

/-- `_decode`; a `KeyError` or a `ValueError` is `none`. -/
def decode {π : Type} (py : Python π) (fields : Fields) : Option (Job π) := do
  let id ← field fields "id"
  let payload ← py.jsonLoads (← field fields "payload")
  let created ← py.float (← field fields "created")
  let deadline ← field fields "deadline"
  if deadline = "" then
    return ⟨id, payload, created / 1000, none⟩
  else
    return ⟨id, payload, created / 1000, some ((← py.float deadline) / 1000)⟩

/-- The settings the workers share, and each worker's `max_admitted`. Times are in milliseconds;
`drops` is the server version's treatment of deleted pending entries. -/
structure Config (W : Type*) (π : Type) where
  python : Python π
  reclaimIdle : ℕ
  maxAdmitted : W → Option ℕ
  drops : Bool

/-! ## Commands -/

/-- What `XREADGROUP` and `XAUTOCLAIM` report of one entry; deleted entries lack the fields, and
from `XAUTOCLAIM` the identifier too. -/
abbrev Delivery := Option ℕ × Option Fields

/-- The commands of a worker. `release` and `acquire` name the election. -/
inductive Command (W : Type*)
  | acquire (mutex : ℕ)
  | release (mutex : ℕ)
  | ensureGroup
  | time
  | autoclaim (start : ℕ)
  | infoConsumers
  | delConsumer (name : W)
  | readOwn (count : ℕ)
  | readNew
  | ack (entry : ℕ)
  | del (entry : ℕ)
  | handBack (entries : Finset ℕ)
  | touch (entries : Finset ℕ)
  | finish (jobId : String) (entry : ℕ)

/-- What the server answers, as far as a worker reads it; `done` is any answer to the rest. -/
inductive Reply (W : Type*)
  | done
  | granted (success : Bool)
  | noGroup
  | entries (es : List Delivery)
  | claimed (es : List Delivery) (cursor : ℕ)
  | consumers (infos : List (ConsumerInfo W))

/-- The keys of the queue: its stream, the job identifiers whose reply list has been pushed to, the
owner of the leadership Mutex, and the server clock. -/
structure Server (W : Type*) where
  stream : StreamKey W Fields
  replies : List String
  lock : Option (W × ℕ)
  now : ℤ

variable {W : Type*} {π : Type} [DecidableEq W]

/-- The queue before anybody has used it. -/
def Server.initial : Server W := ⟨.missing, [], none, 0⟩

/-- One command of worker `w` executes.

`XREADGROUP` with `>` and `XAUTOCLAIM` register the consumer here, as Redis does from version 7 on,
even where they deliver nothing. Redis 6.2 registers it with its first delivery. A consumer without
a pending entry shows in `XINFO CONSUMERS` only, where it is one more name that `_reclaim` may
delete. -/
def exec (cfg : Config W π) (w : W) (s : Server W) : Command W → Server W × Reply W
  | .acquire mutex =>
    match s.lock with
    | none => ({ s with lock := some (w, mutex) }, .granted true)
    | some owner => (s, .granted (decide (owner = (w, mutex))))
  | .release mutex => (if s.lock = some (w, mutex) then { s with lock := none } else s, .done)
  | .ensureGroup => ({ s with stream := s.stream.createGroup }, .done)
  | .time => (s, .done)
  | .autoclaim start =>
    match StreamKey.autoclaim cfg.drops s.stream w cfg.reclaimIdle start 100 s.now with
    | none => (s, .noGroup)
    | some (stream, es, cursor) => ({ s with stream := stream }, .claimed es cursor)
  | .infoConsumers =>
    match s.stream.infoConsumers s.now with
    | none => (s, .noGroup)
    | some infos => (s, .consumers infos)
  | .delConsumer name => ({ s with stream := s.stream.delConsumer name }, .done)
  | .readOwn count =>
    match s.stream.readOwn w count s.now with
    | none => (s, .noGroup)
    | some (stream, es) =>
      ({ s with stream := stream }, .entries (es.map fun e => (some e.1, e.2)))
  | .readNew =>
    match s.stream.readNew w 1 s.now with
    | none => (s, .noGroup)
    | some (stream, es) =>
      ({ s with stream := stream }, .entries (es.map fun e => (some e.id, some e.fields)))
  | .ack entry => ({ s with stream := s.stream.ack entry }, .done)
  | .del entry => ({ s with stream := s.stream.del entry }, .done)
  | .handBack entries =>
    ({ s with stream := s.stream.claim cfg.drops w entries (s.now - cfg.reclaimIdle) s.now }, .done)
  | .touch entries =>
    ({ s with stream := s.stream.claim cfg.drops w entries s.now s.now }, .done)
  | .finish jobId entry =>
    -- one transaction: LPUSH, PEXPIRE, XACK, XDEL
    ({ s with
        replies := jobId :: s.replies
        stream := (s.stream.ack entry).del entry }, .done)

variable {cfg : Config W π} {w : W} {s : Server W}

/-- No command appends. -/
theorem advances_exec (cmd : Command W) : s.stream.Advances (exec cfg w s cmd).1.stream := by
  cases cmd with
  | acquire mutex =>
    rw [exec]
    split <;> exact .refl _
  | release mutex =>
    rw [exec]
    split <;> exact .refl _
  | ensureGroup => exact StreamKey.shrinks_createGroup.advances
  | time => exact .refl _
  | autoclaim start =>
    rw [exec]
    split
    · exact .refl _
    · rename_i hclaim
      exact (StreamKey.autoclaim_eq_some hclaim).1.advances
  | infoConsumers =>
    rw [exec]
    split <;> exact .refl _
  | delConsumer name => exact StreamKey.shrinks_delConsumer.advances
  | readOwn count =>
    rw [exec]
    split
    · exact .refl _
    · rename_i hread
      exact (StreamKey.readOwn_eq_some hread).1.advances
  | readNew =>
    rw [exec]
    split
    · exact .refl _
    · rename_i hread
      exact StreamKey.advances_readNew hread
  | ack entry => exact StreamKey.shrinks_ack.advances
  | del entry => exact (StreamKey.Advances.refl _).del
  | handBack entries => exact StreamKey.shrinks_claim.advances
  | touch entries => exact StreamKey.shrinks_claim.advances
  | finish jobId entry => exact StreamKey.shrinks_ack.advances.del

/-- Commands leave the clock alone. -/
theorem now_exec (w : W) (s : Server W) (cmd : Command W) :
    (exec cfg w s cmd).1.now = s.now := by
  cases cmd <;> rw [exec] <;> first
    | rfl
    | (split <;> rfl)

/-- A push is not taken back. -/
theorem mem_replies_exec {cmd : Command W} {jobId : String} (h : jobId ∈ s.replies) :
    jobId ∈ (exec cfg w s cmd).1.replies := by
  cases cmd <;> rw [exec] <;> first
    | exact h
    | exact List.mem_cons_of_mem _ h
    | (split <;> exact h)

/-! ## A small queue -/

/-- Parsers that accept any text. -/
def lax : Python Unit := ⟨fun _ => some (), fun _ => some 0⟩

/-- Workers without a cap on a recent server; an entry is abandoned after a second. -/
def plain : Config ℕ Unit := ⟨lax, 1000, fun _ => none, true⟩

/-- A job without a deadline. -/
def ping : Fields := [("id", "j"), ("payload", "{}"), ("created", "0"), ("deadline", "")]

theorem decode_ping : decode plain.python ping = some ⟨"j", (), 0, none⟩ := by
  simp [decode, field, plain, lax, ping, List.lookup_cons, Rat.div_def]

end RedisSemaphore.Dispatch

import RedisSemaphore.Dispatch.System

/-!
# The life of a `DispatchWorker`

A worker with all its queues over any number of successive calls of `run()`: the election loop, the
touch loop, one lead loop per queue, the tasks of the handlers and the shutdown. The lead loops and
the handler tasks are those of one queue (`LeadStep`, `TaskStep`); here they share the worker's
`_stopping` and its claim lock, and stand beside the fields that a run leaves behind.

`stop()` may be called at any moment, and a cancellation may reach `run()` at any of its `await`s. A
cancelled handler ends when it likes, or never, so cancelling it changes nothing here: every task
may end as a cancelled one at any moment.

Done-callbacks run in the order in which they were added. `_dispatch` adds the two that remove the
task from `_handlers` and `_stream_handlers`, and the `gather` of the shutdown comes after them.

Calls of `run()` follow one another: a call while a run is going on is refused (`again`), and the
next one comes after the run before has ended. What only `health()` reads is left out.

The server is seen queue by queue. Other workers, producers and the expiry of locks change it at any
moment (`elsewhere`), but only this worker's own commands make it an owner.
-/

namespace RedisSemaphore.Dispatch.Lifecycle

open Redis Transition

variable {κ W : Type*} {π : Type}

/-! ## Errors and settings -/

/-- A `BackendError`: whether its `original` is a `NoPermissionError`, and its text. -/
structure BackendError where
  noPermission : Bool
  text : String
  deriving DecidableEq, Repr

/-- `_is_fatal`. -/
def BackendError.isFatal (error : BackendError) : Bool :=
  error.noPermission || decide ("unknown command".toList <:+: error.text.toLower.toList)

/-- The queues of the worker and its `max_queues_per_worker`, beside what one queue needs. -/
structure Settings (κ W : Type*) (π : Type) extends Config W π where
  queues : List κ
  maxQueues : Option ℕ
  queues_ne_nil : queues ≠ []
  queues_nodup : queues.Nodup

/-! ## What the worker keeps of one queue -/

/-- The done-callbacks of a handler task. -/
inductive Callback
  | discard
  | discardStream
  | gathered
  deriving DecidableEq, Repr

/-- The queue's part of `_leading`, `_taken`, `_reclaim_now`, `_next_prune`, `_handlers` and
`_stream_handlers`, with its lead loop, its handler tasks and their callbacks. Handler tasks are
numbered in the order of their creation; a dictionary without the stream is `none` or `false`. -/
structure Part (W : Type*) where
  leading : Bool
  taken : Option (Finset ℕ)
  reclaimNow : Bool
  nextPrune : Bool
  handlers : Finset ℕ
  streamHandlers : Option (Finset ℕ)
  lead : Option (Lead W)
  tasks : List (Task W)
  callbacks : ℕ → List Callback

namespace Part

/-- A queue that was never led. -/
def initial : Part W := ⟨false, none, false, false, ∅, none, none, [], fun _ => []⟩

/-- The queue as its lead loop and its tasks see it. -/
def view (p : Part W) (stopping claimLock : Bool) : Worker W :=
  ⟨true, stopping, p.taken.getD ∅, p.reclaimNow, claimLock, 0, .idle, p.lead, p.tasks, .idle⟩

/-- `_taken[stream]` after a segment: the batch makes the key if there is none. -/
def takenAfter (p : Part W) (k : Worker W) : Option (Finset ℕ) :=
  if p.taken.isSome ∨ k.taken ≠ ∅ ∨ k.lead.any fun l => l.pc matches .batch _ then some k.taken
  else none

/-- What a segment of the lead loop leaves. -/
def afterLead (p : Part W) (note : Note W) (k : Worker W) : Part W :=
  let p' : Part W :=
    { p with
      taken := p.takenAfter k
      reclaimNow := k.reclaimNow
      nextPrune := p.nextPrune || k.lead.any fun l => l.pc matches .inspecting _
      lead := k.lead
      tasks := k.tasks }
  match note with
  | .start _ =>
    -- the task is created with its two callbacks
    { p' with
      handlers := insert p.tasks.length p.handlers
      streamHandlers := some (insert p.tasks.length (p.streamHandlers.getD ∅))
      callbacks := Function.update p.callbacks p.tasks.length [.discard, .discardStream] }
  | _ =>
    if k.lead.any fun l => l.pc matches .capping _ _ _ then
      { p' with streamHandlers := some (p.streamHandlers.getD ∅) }
    else p'

/-- The callbacks of a segment leave the lead loop alone. -/
@[simp] theorem lead_afterLead {p : Part W} {note : Note W} {k : Worker W} :
    (p.afterLead note k).lead = k.lead := by
  unfold afterLead
  split
  · rfl
  · split <;> rfl

/-- What a segment of a handler task leaves. -/
def afterTask (p : Part W) (k : Worker W) : Part W :=
  { p with taken := p.takenAfter k, reclaimNow := k.reclaimNow, tasks := k.tasks }

/-- A callback of task `t` runs. -/
def call (p : Part W) (t : ℕ) (rest : List Callback) : Callback → Part W
  | .discard =>
    { p with handlers := p.handlers.erase t, callbacks := Function.update p.callbacks t rest }
  | .discardStream =>
    { p with
      streamHandlers := p.streamHandlers.map fun running => running.erase t
      callbacks := Function.update p.callbacks t rest }
  | .gathered => { p with callbacks := Function.update p.callbacks t rest }

/-- `gather(*self._handlers)`. -/
def gather (p : Part W) : Part W :=
  { p with
    callbacks := fun t =>
      if t ∈ p.handlers then p.callbacks t ++ [.gathered] else p.callbacks t }

/-- The `gather` asks every handler to tell it when it is done. -/
theorem callbacks_gather {p : Part W} {t : ℕ} (ht : t ∈ p.handlers) :
    p.gather.callbacks t = p.callbacks t ++ [.gathered] :=
  if_pos ht

/-- The end of `_shutdown_steps`. -/
def clear (p : Part W) : Part W :=
  { p with
    leading := false
    taken := none
    reclaimNow := false
    nextPrune := false
    streamHandlers := none }

end Part

/-! ## The worker -/

/-- The touch loop: asleep, waiting for the claim lock for a queue, or with an `XCLAIM` in flight;
`rest` is the part of the round that is left. -/
inductive Touch (κ W : Type*)
  | asleep
  | locking (q : κ) (rest : List κ)
  | claiming (q : κ) (entries : Finset ℕ) (rest : List κ) (reply : Option (Reply W))

/-- The next queue of the round. -/
def Touch.next : List κ → Touch κ W
  | [] => .asleep
  | q :: rest => .locking q rest

/-- Where `_shutdown_steps` is: the `gather` of the lead loops, of the handlers, of the touch loop,
or over. -/
inductive Stage
  | leads | handlers | touch | done
  deriving DecidableEq, Repr

/-- Where `run()` is: not called, in an election, in the pause, or in `_shutdown`. There `raising`
says that a cancellation led to it, `cancelled` is the variable of that name. -/
inductive RunPc (κ W : Type*)
  | idle
  | asking (q : κ) (mutex : ℕ) (rest : List κ) (reply : Option (Reply W))
  | pausing
  | closing (stage : Stage) (raising cancelled : Bool)

/-- How a `run()` ends. -/
inductive Outcome
  | returned
  | cancelled
  | raised (error : BackendError)
  deriving DecidableEq, Repr

/-- The object and the coroutines of its runs. `touch` is the touch task while it is not over. -/
structure DispatchWorker (κ W : Type*) where
  running : Bool
  stopping : Bool
  claimLock : Bool
  fatal : Option BackendError
  requeued : Finset (κ × ℕ)
  parts : κ → Part W
  touch : Option (Touch κ W)
  nextMutex : ℕ
  pc : RunPc κ W

namespace DispatchWorker

/-- A worker that was just made. -/
def initial : DispatchWorker κ W :=
  ⟨false, false, false, none, ∅, fun _ => .initial, none, 0, .idle⟩

variable [DecidableEq κ]

/-- The queue as its lead loop and its tasks see it. -/
def view (d : DispatchWorker κ W) (q : κ) : Worker W := (d.parts q).view d.stopping d.claimLock

/-- One queue of the worker changes. -/
def setPart (d : DispatchWorker κ W) (q : κ) (p : Part W) : DispatchWorker κ W :=
  { d with parts := Function.update d.parts q p }

/-- The part that was set. -/
@[simp] theorem parts_setPart_self {d : DispatchWorker κ W} {q : κ} {p : Part W} :
    (d.setPart q p).parts q = p :=
  Function.update_self ..

/-- The other parts. -/
theorem parts_setPart_of_ne {d : DispatchWorker κ W} {q q' : κ} {p : Part W} (h : q' ≠ q) :
    (d.setPart q p).parts q' = d.parts q' :=
  Function.update_of_ne h ..

/-- The first lines of `_elect`: forget the lead loops that are over. -/
def dropDone (d : DispatchWorker κ W) : DispatchWorker κ W :=
  { d with
    parts := fun q =>
      { d.parts q with leading := (d.parts q).leading && (d.parts q).lead.isSome } }

/-- The queues `_elect` tries. -/
def free (settings : Settings κ W π) (d : DispatchWorker κ W) : List κ :=
  if ∃ cap ∈ settings.maxQueues, cap ≤ settings.queues.countP fun q => (d.parts q).leading then []
  else settings.queues.filter fun q => !(d.parts q).leading

/-- Send the acquire of a new Mutex. -/
def ask (d : DispatchWorker κ W) (q : κ) (rest : List κ) : DispatchWorker κ W :=
  { d with pc := .asking q d.nextMutex rest none, nextMutex := d.nextMutex + 1 }

/-- Enter the `finally` of `run()`. -/
def close (d : DispatchWorker κ W) (raising : Bool) : DispatchWorker κ W :=
  { d with stopping := true, pc := .closing .leads raising false }

/-- What `_elect` and `_lead` do about an error: `_stop_fatally` if it is fatal. -/
def failWith (d : DispatchWorker κ W) : Option BackendError → DispatchWorker κ W
  | some error =>
    if error.isFatal then { d with fatal := d.fatal.or (some error), stopping := true } else d
  | none => d

/-- `gather(*self._handlers)`. -/
def gatherHandlers (d : DispatchWorker κ W) : DispatchWorker κ W :=
  { d with parts := fun q => (d.parts q).gather }

/-- The end of `_shutdown_steps`. -/
def clear (d : DispatchWorker κ W) : DispatchWorker κ W :=
  { d with
    running := false
    stopping := false
    requeued := ∅
    parts := fun q => (d.parts q).clear }

/-- The end of `run()`: the cancellation is raised, or the fatal error is consumed. -/
def outcome (d : DispatchWorker κ W) (raising cancelled : Bool) : Outcome :=
  if raising || cancelled then .cancelled
  else match d.fatal with
    | some error => .raised error
    | none => .returned

/-- Leave `run()`. -/
def leave (d : DispatchWorker κ W) (raising cancelled : Bool) : DispatchWorker κ W :=
  { d with fatal := if raising || cancelled then d.fatal else none, pc := .idle }

end DispatchWorker

/-! ## Segments of the coroutines -/

/-- What happens to a worker and its queues. -/
inductive Event (κ W : Type*)
  | start
  | again
  | stop
  | cancel
  | elect
  | refused (error : Option BackendError)
  | failed (error : Option BackendError)
  | lead (q : κ) (note : Note W)
  | leadFailed (q : κ) (error : BackendError)
  | loseMutex (q : κ)
  | quiet
  | cleaned
  | ended (outcome : Outcome)
  | exec
  | late (q : κ) (cmd : Command W)
  | elsewhere (q : κ) (server : Server W)

/-- The error that an election or a lead loop hits. -/
def Event.error : Event κ W → Option BackendError
  | .refused error => error
  | .failed error => error
  | .leadFailed _ error => some error
  | _ => none

/-- An election or a lead loop hits a fatal error. -/
def Event.Hits (e : Event κ W) (error : BackendError) : Prop :=
  e.error = some error ∧ error.isFatal = true

/-- The trace since the latest event that meets `mark`. -/
def since (mark : Event κ W → Bool) (tr : List (Event κ W)) : List (Event κ W) :=
  tr.takeWhile fun e => !mark e

/-- A mark starts afresh. -/
theorem since_cons_of_pos {mark : Event κ W → Bool} {e : Event κ W} {tr : List (Event κ W)}
    (h : mark e = true) : since mark (e :: tr) = [] :=
  List.takeWhile_cons_of_neg (by simp [h])

/-- Anything else is one more event since the mark. -/
theorem since_cons_of_neg {mark : Event κ W → Bool} {e : Event κ W} {tr : List (Event κ W)}
    (h : mark e = false) : since mark (e :: tr) = e :: since mark tr :=
  List.takeWhile_cons_of_pos (by simp [h])

/-- The end of `_shutdown_steps`. -/
def Event.isCleaned (e : Event κ W) : Bool := e matches .cleaned

/-- The beginning of a run. -/
def Event.isStart (e : Event κ W) : Bool := e matches .start

variable [DecidableEq κ] [DecidableEq W] (settings : Settings κ W π) (me : W)

/-- From the head of the loop of `run()` to its next `await`. -/
inductive Head (d : DispatchWorker κ W) : DispatchWorker κ W → Prop
  | leave (hstop : d.stopping = true) : Head d (d.close false)
  | none (hgo : d.stopping = false) (hfree : d.dropDone.free settings = []) :
      Head d { d.dropDone with pc := .pausing }
  -- `shuffle`
  | ask (q : κ) (rest : List κ) (hgo : d.stopping = false)
      (horder : (q :: rest).Perm (d.dropDone.free settings)) : Head d (d.dropDone.ask q rest)

/-- One segment of `run()`, `_elect` and `_shutdown`, or a call of `stop()`. The list is what it
gives up. -/
inductive RunAct (d : DispatchWorker κ W) :
    Event κ W → List (κ × Command W) → DispatchWorker κ W → Prop
  | start {d' : DispatchWorker κ W} (hidle : d.pc = .idle) (hrunning : d.running = false)
      (hhead : Head settings { d with running := true, touch := some .asleep } d') :
      RunAct d .start [] d'
  -- "is already running"
  | again (hrunning : d.running = true) : RunAct d .again [] d
  | stop : RunAct d .stop [] { d with stopping := true }
  | won (q : κ) (mutex : ℕ) (rest : List κ)
      (hasking : d.pc = .asking q mutex rest (some (.granted true))) :
      RunAct d .elect []
        { d.setPart q
            { d.parts q with
              leading := true
              lead := some ⟨mutex, true, 0, .ensuring .top, none⟩ } with
          pc := .pausing }
  | lost (q q' : κ) (mutex : ℕ) (rest : List κ)
      (hasking : d.pc = .asking q mutex (q' :: rest) (some (.granted false))) :
      RunAct d .elect [] (d.ask q' rest)
  | lostLast (q : κ) (mutex : ℕ) (hasking : d.pc = .asking q mutex [] (some (.granted false))) :
      RunAct d .elect [] { d with pc := .pausing }
  -- the server answers with an error
  | refused (q : κ) (mutex : ℕ) (rest : List κ) (error : Option BackendError)
      (hasking : d.pc = .asking q mutex rest none) :
      RunAct d (.refused error) [] { d.failWith error with pc := .pausing }
  -- there is no answer
  | failed (q : κ) (mutex : ℕ) (rest : List κ) (reply : Option (Reply W))
      (error : Option BackendError) (hasking : d.pc = .asking q mutex rest reply) :
      RunAct d (.failed error) (if reply.isNone then [(q, .acquire mutex)] else [])
        { d.failWith error with pc := .pausing }
  -- the pause is over
  | woken {d' : DispatchWorker κ W} (hpausing : d.pc = .pausing) (hhead : Head settings d d') :
      RunAct d .quiet [] d'
  | cancelAsking (q : κ) (mutex : ℕ) (rest : List κ) (reply : Option (Reply W))
      (hasking : d.pc = .asking q mutex rest reply) :
      RunAct d .cancel (if reply.isNone then [(q, .acquire mutex)] else []) (d.close true)
  | cancelPausing (hpausing : d.pc = .pausing) : RunAct d .cancel [] (d.close true)
  -- `_shutdown` goes on, or has nothing left to wait for
  | cancelClosing (stage : Stage) (raising cancelled : Bool)
      (hclosing : d.pc = .closing stage raising cancelled) :
      RunAct d .cancel [] { d with pc := .closing stage raising true }
  | leadsOver (raising cancelled : Bool) (hclosing : d.pc = .closing .leads raising cancelled)
      (hover : ∀ q, (d.parts q).leading = true → (d.parts q).lead = none) :
      RunAct d .quiet [] { d.gatherHandlers with pc := .closing .handlers raising cancelled }
  | handlersOver (raising cancelled : Bool)
      (hclosing : d.pc = .closing .handlers raising cancelled)
      (hover : ∀ q t, .gathered ∉ (d.parts q).callbacks t) :
      RunAct d .quiet [] { d with pc := .closing .touch raising cancelled }
  | cleaned (raising cancelled : Bool) (hclosing : d.pc = .closing .touch raising cancelled)
      (hover : d.touch = none) :
      RunAct d .cleaned [] { d.clear with pc := .closing .done raising cancelled }
  | ended (raising cancelled : Bool) (hclosing : d.pc = .closing .done raising cancelled) :
      RunAct d (.ended (d.outcome raising cancelled)) [] (d.leave raising cancelled)

/-- One segment of a lead loop, or the loss of its Mutex. -/
inductive LeadAct (d : DispatchWorker κ W) :
    Event κ W → List (κ × Command W) → DispatchWorker κ W → Prop
  -- `_reclaim` forgets requeues: those it has found, and stale ones of any queue
  | step (q : κ) (l : Lead W) (note : Note W) (k : Worker W) (forgotten : Finset (κ × ℕ))
      (hlead : (d.parts q).lead = some l)
      (hstep : LeadStep settings.toConfig me (d.view q) l note k)
      (hforgotten : forgotten = ∅ ∨ ∃ snapshot, l.pc = .claiming snapshot) :
      LeadAct d (.lead q note) (note.lost.map (q, ·))
        { d.setPart q ((d.parts q).afterLead note k) with
          claimLock := k.claimLock
          requeued := d.requeued \ forgotten }
  | failed (q : κ) (l : Lead W) (cmd : Command W) (rest : List Delivery) (error : BackendError)
      (hlead : (d.parts q).lead = some l) (hcmd : l.command = some cmd)
      (hunwinds : l.pc.unwinds = some rest) (hfatal : error.isFatal = true) :
      LeadAct d (.leadFailed q error) [(q, cmd)]
        ((d.setPart q
            ((d.parts q).afterLead (.lose l.command.toList) ((d.view q).exit l rest))).failWith
          (some error))
  | loseMutex (q : κ) (l : Lead W) (hlead : (d.parts q).lead = some l) :
      LeadAct d (.loseMutex q) []
        (d.setPart q { d.parts q with lead := some { l with held := false } })

/-- One segment of a handler task, one of its callbacks, or a segment of the touch loop. -/
inductive SideAct (d : DispatchWorker κ W) : List (κ × Command W) → DispatchWorker κ W → Prop
  | task (q : κ) (t : ℕ) (task : Task W) (note : Note W) (k : Worker W)
      (htask : (d.parts q).tasks[t]? = some task) (hstep : TaskStep (d.view q) t task note k) :
      SideAct d (note.lost.map (q, ·))
        { d.setPart q ((d.parts q).afterTask k) with
          claimLock := k.claimLock
          requeued :=
            -- `_requeue`, once the delay is over
            if task.phase = .delaying ∧ (k.tasks[t]?).any fun t => t.phase = .handing false then
              insert (q, task.entry) d.requeued
            else d.requeued }
  | callback (q : κ) (t : ℕ) (task : Task W) (callback : Callback) (rest : List Callback)
      (htask : (d.parts q).tasks[t]? = some task) (hended : task.Ended)
      (hcallbacks : (d.parts q).callbacks t = callback :: rest) :
      SideAct d [] (d.setPart q ((d.parts q).call t rest callback))
  | wake (round : List κ) (hround : ∀ q ∈ round, (d.parts q).taken ≠ none)
      (hasleep : d.touch = some .asleep) : SideAct d [] { d with touch := some (.next round) }
  | nothing (q : κ) (rest : List κ) (hlocking : d.touch = some (.locking q rest))
      (hfree : d.claimLock = false) (hnone : (d.parts q).taken.getD ∅ = ∅) :
      SideAct d [] { d with touch := some (.next rest) }
  | locked (q : κ) (rest : List κ) (hlocking : d.touch = some (.locking q rest))
      (hfree : d.claimLock = false) (hsome : (d.parts q).taken.getD ∅ ≠ ∅) :
      SideAct d []
        { d with
          claimLock := true
          touch := some (.claiming q ((d.parts q).taken.getD ∅) rest none) }
  | touched (q : κ) (entries : Finset ℕ) (rest : List κ) (r : Reply W)
      (hclaiming : d.touch = some (.claiming q entries rest (some r))) :
      SideAct d [] { d with claimLock := false, touch := some (.next rest) }
  | touchFailed (q : κ) (entries : Finset ℕ) (rest : List κ) (reply : Option (Reply W))
      (hclaiming : d.touch = some (.claiming q entries rest reply)) :
      SideAct d [(q, .touch entries)] { d with claimLock := false, touch := some (.next rest) }
  -- `touch.cancel()`
  | touchOver (raising cancelled : Bool) (hclosing : d.pc = .closing .touch raising cancelled)
      (hwaits : ∀ q entries rest reply, d.touch ≠ some (.claiming q entries rest reply)) :
      SideAct d [] { d with touch := none }
  | touchCut (raising cancelled : Bool) (hclosing : d.pc = .closing .touch raising cancelled)
      (q : κ) (entries : Finset ℕ) (rest : List κ) (reply : Option (Reply W))
      (hclaiming : d.touch = some (.claiming q entries rest reply)) :
      SideAct d [(q, .touch entries)] { d with claimLock := false, touch := none }

/-- One segment of one coroutine. -/
inductive Act (d : DispatchWorker κ W) :
    Event κ W → List (κ × Command W) → DispatchWorker κ W → Prop
  | run {e : Event κ W} {given : List (κ × Command W)} {d' : DispatchWorker κ W}
      (h : RunAct settings d e given d') : Act d e given d'
  | lead {e : Event κ W} {given : List (κ × Command W)} {d' : DispatchWorker κ W}
      (h : LeadAct settings me d e given d') : Act d e given d'
  | side {given : List (κ × Command W)} {d' : DispatchWorker κ W} (h : SideAct d given d') :
      Act d .quiet given d'

/-! ## What a segment leaves alone -/

section Frame

variable {settings : Settings κ W π} {me : W} {d d' : DispatchWorker κ W} {e : Event κ W}
  {given : List (κ × Command W)}

/-- A segment of a lead loop needs the lead loop, and does not move `run()`. -/
theorem LeadAct.frame (h : LeadAct settings me d e given d') :
    (∃ q l, (d.parts q).lead = some l) ∧ d'.pc = d.pc := by
  cases h with
  | step q l note k forgotten hlead hstep hforgotten => exact ⟨⟨q, l, hlead⟩, rfl⟩
  | failed q l cmd rest error hlead hcmd hunwinds hfatal =>
    refine ⟨⟨q, l, hlead⟩, ?_⟩
    rw [DispatchWorker.failWith, if_pos hfatal]
    rfl
  | loseMutex q l hlead => exact ⟨⟨q, l, hlead⟩, rfl⟩

omit [DecidableEq W] in
/-- The handlers and the touch loop do not move `run()`, nor do they stop the worker. -/
theorem SideAct.frame (h : SideAct d given d') :
    d'.pc = d.pc ∧ d'.stopping = d.stopping ∧ d'.fatal = d.fatal := by
  cases h <;> exact ⟨rfl, rfl, rfl⟩

omit [DecidableEq W] in
/-- The handlers and the touch loop leave the lead loops alone. -/
theorem SideAct.lead (h : SideAct d given d') (q : κ) : (d'.parts q).lead = (d.parts q).lead := by
  have hpart : ∀ q₀ p, p.lead = (d.parts q₀).lead →
      ((d.setPart q₀ p).parts q).lead = (d.parts q).lead := by
    intro q₀ p hp
    rcases eq_or_ne q q₀ with rfl | hne
    · rw [DispatchWorker.parts_setPart_self, hp]
    · rw [DispatchWorker.parts_setPart_of_ne hne]
  cases h with
  | task q₀ t task note k htask hstep => exact hpart q₀ _ rfl
  | callback q₀ t task callback rest htask hended hcallbacks =>
    refine hpart q₀ _ ?_
    cases callback <;> rfl
  | _ => rfl

end Frame

/-! ## The worker and its queues -/

/-- The worker, the keys of the queues, and the commands that were given up but may still
execute. -/
structure World (κ W : Type*) where
  worker : DispatchWorker κ W
  server : κ → Server W
  stray : List (κ × Command W)

/-- A command about queue `q` executes. -/
def World.serve (s : World κ W) (q : κ) (cmd : Command W) : World κ W :=
  { s with
    server :=
      Function.update s.server q (Dispatch.exec settings.toConfig me (s.server q) cmd).1 }

/-- One step of the worker and the servers of its queues: the worker acts, a command of it is
executed and answered, one that it gave up is executed late, or others change a server. -/
inductive Step (s : World κ W) : Event κ W → World κ W → Prop
  | act {e : Event κ W} {given : List (κ × Command W)} {d : DispatchWorker κ W}
      (hact : Act settings me s.worker e given d) :
      Step s e { s with worker := d, stray := given ++ s.stray }
  | execAsk (q : κ) (mutex : ℕ) (rest : List κ) (reply : Option (Reply W))
      (hasking : s.worker.pc = .asking q mutex rest reply) :
      Step s .exec
        { s.serve settings me q (.acquire mutex) with
          worker :=
            { s.worker with
              pc := .asking q mutex rest
                (some (Dispatch.exec settings.toConfig me (s.server q) (.acquire mutex)).2) } }
  | execPart (q : κ) (co : Co) (cmd : Command W)
      (hcmd : (s.worker.view q).command co = some cmd) :
      Step s .exec
        { s.serve settings me q cmd with
          worker :=
            s.worker.setPart q
              { s.worker.parts q with
                lead := ((s.worker.view q).answer
                  (Dispatch.exec settings.toConfig me (s.server q) cmd).2 co).lead
                tasks := ((s.worker.view q).answer
                  (Dispatch.exec settings.toConfig me (s.server q) cmd).2 co).tasks } }
  | execTouch (q : κ) (entries : Finset ℕ) (rest : List κ) (reply : Option (Reply W))
      (hclaiming : s.worker.touch = some (.claiming q entries rest reply)) :
      Step s .exec
        { s.serve settings me q (.touch entries) with
          worker :=
            { s.worker with
              touch := some (.claiming q entries rest
                (some (Dispatch.exec settings.toConfig me (s.server q) (.touch entries)).2)) } }
  | late (q : κ) (cmd : Command W) (hstray : (q, cmd) ∈ s.stray) :
      Step s (.late q cmd) (s.serve settings me q cmd)
  -- only the worker itself takes a lock under its name
  | elsewhere (q : κ) (server : Server W)
      (hown : ∀ n, server.lock = some (me, n) → (s.server q).lock = some (me, n)) :
      Step s (.elsewhere q server) { s with server := Function.update s.server q server }

section Quiet

variable {settings : Settings κ W π} {me : W} {d d' : DispatchWorker κ W} {e : Event κ W}
  {server : κ → Server W} {stray : List (κ × Command W)}

/-- A segment of `run()` as a step. -/
theorem Step.of_run (h : RunAct settings d e [] d') :
    Step settings me ⟨d, server, stray⟩ e ⟨d', server, stray⟩ :=
  Step.act (s := ⟨d, server, stray⟩) (.run h)

/-- A segment beside `run()` as a step. -/
theorem Step.of_side (h : SideAct d [] d') :
    Step settings me ⟨d, server, stray⟩ .quiet ⟨d', server, stray⟩ :=
  Step.act (s := ⟨d, server, stray⟩) (.side h)

end Quiet

/-- Only `run()` itself ends. -/
theorem Step.of_ended {settings : Settings κ W π} {me : W} {s s' : World κ W} {outcome : Outcome}
    (h : Step settings me s (.ended outcome) s') :
    ∃ raising cancelled, s.worker.pc = .closing .done raising cancelled ∧
      outcome = s.worker.outcome raising cancelled ∧
      s' = { s with worker := s.worker.leave raising cancelled } := by
  cases h with
  | act hact =>
    cases hact with
    | run hact =>
      cases hact with
      | ended raising cancelled hclosing => exact ⟨raising, cancelled, hclosing, rfl, rfl⟩
    | lead hact => cases hact

/-- A worker over any number of runs. -/
def system : System (World κ W) (Event κ W) where
  start s := s = ⟨.initial, fun _ => .initial, []⟩
  step := Step settings me

end RedisSemaphore.Dispatch.Lifecycle

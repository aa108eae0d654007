import Mathlib.Data.Finset.Card
import Mathlib.Data.Finset.Dedup
import RedisSemaphore.Dispatch.Server

/-!
# A dispatch worker

One `DispatchWorker` as far as one queue goes: the run loop with its elections, the lead loop, the
tasks of the handlers it has started and the touch loop. Each is a program counter at an `await` or
at the head of a loop; between two of them a coroutine runs without interruption. A command in
flight has no reply until it has executed, and the coroutine goes on from the reply, or from an
exception at any moment.

Clocks are left open: a reclaim or a prune may be due at any time, a deadline may have passed
whenever the job has one, a wait may time out, and the heartbeat of the Mutex may give up at any
moment. Handlers may do anything at any moment. A coroutine that ends gives up the command it has in
flight; `Note.lose` records it, because such a command may still execute later.
-/

namespace RedisSemaphore.Dispatch

open Redis

variable {W : Type*} {π : Type}

/-! ## Handler tasks -/

/-- Where a task is: the user's handler, `_finish`, the delay and the hand-back of `_requeue`, or
over, cancelled or not. `locked` says that the claim lock is held and the `XCLAIM` in flight. -/
inductive TaskPhase
  | handler
  | finishing
  | delaying
  | handing (locked : Bool)
  | ended (cancelled : Bool)
  deriving DecidableEq, Repr

/-- A task running `_run_job`. -/
structure Task (W : Type*) where
  entry : ℕ
  jobId : String
  admitted : Bool
  phase : TaskPhase
  reply : Option (Reply W)

namespace Task

/-- The command a task has in flight. -/
def command (t : Task W) : Option (Command W) :=
  match t.phase with
  | .finishing => some (.finish t.jobId t.entry)
  | .handing true => some (.handBack {t.entry})
  | _ => none

/-- A task sends two commands, both of its own entry. -/
theorem command_eq {t : Task W} {cmd : Command W} (h : t.command = some cmd) :
    cmd = .finish t.jobId t.entry ∨ cmd = .handBack {t.entry} := by
  unfold command at h
  split at h <;> simp_all

/-- The task is over. -/
def Ended (t : Task W) : Prop := ∃ cancelled, t.phase = .ended cancelled

instance (t : Task W) : Decidable t.Ended :=
  match h : t.phase with
  | .ended cancelled => isTrue ⟨cancelled, h⟩
  | .handler | .finishing | .delaying | .handing _ =>
    isFalse fun ⟨_, h'⟩ => by rw [h] at h'; cases h'

/-- `_settled`: the handler called `admit()`, or the task is over. -/
def Settled (t : Task W) : Prop := t.admitted = true ∨ t.Ended

/-- The task was cancelled before admission: its entry goes back. -/
def GoesBack (t : Task W) : Prop := t.phase = .ended true ∧ t.admitted = false

end Task

/-! ## The lead loop -/

/-- What follows `_ensure_group`: the loop, the backlog scan or the read. -/
inductive Ret
  | top | backlog | read
  deriving DecidableEq, Repr

/-- What follows a `_hand_back`: the hand-back of the rest of the batch, or the exit of the loop. -/
inductive Next
  | handRest (rest : List Delivery)
  | exit (rest : List Delivery)

/-- Where the lead loop is. Snapshots are those of `_taken`; `rest` is the part of the batch that
has not been dispatched, `usable` what a reclaim has found. `abandoning` and `unwinding` are in the
`gather` of `_abandon`, the latter after a cancellation; `raising` says that `_abandon` was called
on the way out of a cancelled wait. -/
inductive LeadPc (W : Type*)
  | ensuring (ret : Ret)
  | top
  | timing (snapshot : Finset ℕ)
  | claiming (snapshot : Finset ℕ)
  | inspecting (usable : List Delivery)
  | pruning (dead : List W) (usable : List Delivery)
  | collecting (snapshot : Finset ℕ)
  | reading
  | batch (rest : List Delivery)
  | acking (entry : ℕ) (thenDel : Bool) (rest : List Delivery)
  | deleting (entry : ℕ) (rest : List Delivery)
  | capping (entry : ℕ) (jobId : String) (rest : List Delivery)
  | waiting (t : ℕ) (rest : List Delivery)
  | abandoning (t : ℕ) (raising : Bool) (rest : List Delivery)
  | unwinding (t : ℕ) (rest : List Delivery)
  | handing (entries : Finset ℕ) (locked : Bool) (next : Next)
  | releasing

/-- A running `_lead`: its Mutex, whether that is believed held, the cursor of the reclaim. -/
structure Lead (W : Type*) where
  mutex : ℕ
  held : Bool
  cursor : ℕ
  pc : LeadPc W
  reply : Option (Reply W)

namespace Lead

/-- The command the lead loop has in flight. -/
def command (l : Lead W) : Option (Command W) :=
  match l.pc with
  | .ensuring _ => some .ensureGroup
  | .timing _ => some .time
  | .claiming _ => some (.autoclaim l.cursor)
  | .inspecting _ => some .infoConsumers
  | .pruning (name :: _) _ => some (.delConsumer name)
  | .collecting snapshot => some (.readOwn (snapshot.card + 100))
  | .reading => some .readNew
  | .acking entry _ _ => some (.ack entry)
  | .deleting entry _ => some (.del entry)
  | .handing entries true _ => some (.handBack entries)
  | .releasing => some (.release l.mutex)
  | _ => none

/-- An acknowledgement of the loop is the first half of a drop. -/
theorem pc_of_command_ack {l : Lead W} {entry : ℕ} (h : l.command = some (.ack entry)) :
    ∃ thenDel rest, l.pc = .acking entry thenDel rest := by
  unfold command at h
  split at h <;> simp_all

/-- A deletion of the loop is the second half. -/
theorem pc_of_command_del {l : Lead W} {entry : ℕ} (h : l.command = some (.del entry)) :
    ∃ rest, l.pc = .deleting entry rest := by
  unfold command at h
  split at h <;> simp_all

/-- The loop releases its own claim mutex, on its way out. -/
theorem pc_of_command_release {l : Lead W} {n : ℕ} (h : l.command = some (.release n)) :
    l.pc = .releasing ∧ l.mutex = n := by
  unfold command at h
  split at h <;> simp_all

/-- New entries are asked for in one place. -/
theorem pc_of_command_readNew {l : Lead W} (h : l.command = some .readNew) : l.pc = .reading := by
  unfold command at h
  split at h <;> simp_all

/-- Finishing is for tasks. -/
theorem command_ne_finish {l : Lead W} {jobId : String} {entry : ℕ} :
    l.command ≠ some (.finish jobId entry) := by
  unfold command
  split <;> simp

/-- Go on to the next `await`. -/
def goto (l : Lead W) (pc : LeadPc W) : Lead W := { l with pc := pc, reply := none }

end Lead

/-- The identifiers of a batch. -/
def ids (es : List Delivery) : Finset ℕ := (es.filterMap Prod.fst).toFinset

/-- The filter of `_reclaim` and `_backlog`. -/
def usable (snapshot : Finset ℕ) (es : List Delivery) : List Delivery :=
  es.filter fun e =>
    match e.1 with
    | none => true
    | some id => id ∉ snapshot

/-- The part of the batch that is left where an exception leaves the loop. `none` where none can be
raised, or where the loop does not leave at once. -/
def LeadPc.unwinds : LeadPc W → Option (List Delivery)
  | .ensuring _ => some []
  | .timing _ => some []
  | .claiming _ => some []
  | .inspecting _ => some []
  | .pruning _ _ => some []
  | .collecting _ => some []
  | .reading => some []
  | .batch (_ :: rest) => some rest
  | .acking _ _ rest => some rest
  | .deleting _ rest => some rest
  | .capping _ _ rest => some rest
  | _ => none

/-- The rest of the batch, either way. -/
def Next.rest : Next → List Delivery
  | .handRest rest => rest
  | .exit rest => rest

/-! ## The worker -/

/-- An attempt of `_elect` on this queue. -/
inductive Election (W : Type*)
  | idle
  | asking (mutex : ℕ) (reply : Option (Reply W))

/-- The touch loop: asleep, waiting for the claim lock, or with an `XCLAIM` in flight. -/
inductive Touch (W : Type*)
  | idle
  | locking
  | claiming (entries : Finset ℕ) (reply : Option (Reply W))

/-- A worker process. `taken`, `reclaimNow` and `tasks` are the queue's part of `_taken`,
`_reclaim_now` and `_stream_handlers`. -/
structure Worker (W : Type*) where
  alive : Bool
  stopping : Bool
  taken : Finset ℕ
  reclaimNow : Bool
  claimLock : Bool
  nextMutex : ℕ
  election : Election W
  lead : Option (Lead W)
  tasks : List (Task W)
  touch : Touch W

/-- What a local step shows: the handler of an entry is started, an entry is judged past its
deadline, or commands are given up. -/
inductive Note (W : Type*)
  | quiet
  | start (entry : ℕ)
  | judge (entry : ℕ)
  | lose (commands : List (Command W))

namespace Worker

/-- A worker that has just started: no loop, no tasks, nothing taken. -/
def initial : Worker W := ⟨true, false, ∅, false, false, 0, .idle, none, [], .idle⟩

/-- A process that is gone. -/
def dead : Worker W := { initial with alive := false }

/-- Handler tasks that are not over. -/
def running (k : Worker W) : ℕ := k.tasks.countP fun t => ¬ t.Ended

/-- The loop goes to its next program counter. -/
def leadTo (k : Worker W) (l : Lead W) (pc : LeadPc W) : Worker W :=
  { k with lead := some (l.goto pc) }

/-- Touch the whole batch from now on, and dispatch it. -/
def takeBatch (k : Worker W) (l : Lead W) (es : List Delivery) : Worker W :=
  { k with taken := k.taken ∪ ids es }.leadTo l (.batch es)

/-- After `_reclaim`: dispatch what it found, or look at the own backlog. -/
def reclaimed (k : Worker W) (l : Lead W) (found : List Delivery) : Worker W :=
  if found = [] then k.leadTo l (.collecting k.taken) else k.takeBatch l found

/-- After `_backlog`: dispatch what it found, or read a new entry. -/
def collected (k : Worker W) (l : Lead W) (found : List Delivery) : Worker W :=
  if found = [] then k.leadTo l .reading else k.takeBatch l found

/-- The loop over the consumers to delete. -/
def prune (k : Worker W) (l : Lead W) (found : List Delivery) : List W → Worker W
  | [] => k.reclaimed l found
  | dead => k.leadTo l (.pruning dead found)

/-- Leave the lead loop: forget the rest of the batch, release the Mutex if it is believed held. -/
def exit (k : Worker W) (l : Lead W) (rest : List Delivery) : Worker W :=
  let k := { k with taken := k.taken \ ids rest }
  if l.held then k.leadTo l .releasing else { k with lead := none }

/-- Start `_hand_back` of one entry. -/
def handOne (k : Worker W) (l : Lead W) (entry : ℕ) (next : Next) : Worker W :=
  { k with taken := k.taken.erase entry }.leadTo l (.handing {entry} false next)

/-- Start `_hand_back` of the rest of the batch, then leave. -/
def handRest (k : Worker W) (l : Lead W) (rest : List Delivery) : Worker W :=
  if ids rest = ∅ then k.exit l rest
  else { k with taken := k.taken \ ids rest }.leadTo l (.handing (ids rest) false (.exit rest))

/-- Go on after a hand-back. -/
def goOn (k : Worker W) (l : Lead W) : Next → Worker W
  | .handRest rest => k.handRest l rest
  | .exit rest => k.exit l rest

/-- Create the task of a job and wait for it to settle. -/
def start (k : Worker W) (l : Lead W) (entry : ℕ) (jobId : String) (rest : List Delivery) :
    Worker W :=
  let task : Task W := ⟨entry, jobId, false, .handler, none⟩
  { k with taken := insert entry k.taken, tasks := k.tasks ++ [task] }.leadTo l
    (.waiting k.tasks.length rest)

/-- Change one task. -/
def setTask (k : Worker W) (t : ℕ) (task : Task W) : Worker W :=
  { k with tasks := k.tasks.set t task }

/-! ### Where the lead loop is then -/

section Place

variable {k : Worker W} {l l' : Lead W} {found rest : List Delivery}

/-- The way out leads to the release, if it leads anywhere. -/
theorem pc_exit (h : (k.exit l rest).lead = some l') : l'.pc = .releasing := by
  unfold exit at h
  split at h
  · obtain rfl := Option.some.inj h
    rfl
  · cases h

/-- After a hand-back the loop is on its way out or at the hand-back of the rest. -/
theorem pc_goOn {next : Next} (h : (k.goOn l next).lead = some l') :
    l'.pc = .releasing ∨ l'.pc = .handing (ids next.rest) false (.exit next.rest) := by
  cases next with
  | exit rest => exact Or.inl (pc_exit h)
  | handRest rest =>
    rw [goOn, handRest] at h
    split at h
    · exact Or.inl (pc_exit h)
    · obtain rfl := Option.some.inj h
      exact Or.inr rfl

/-- After a page it has a batch, or looks at its backlog. -/
theorem pc_reclaimed (h : (k.reclaimed l found).lead = some l') :
    l'.pc = .collecting k.taken ∨ l'.pc = .batch found := by
  unfold reclaimed at h
  split at h
  · obtain rfl := Option.some.inj h
    exact Or.inl rfl
  · obtain rfl := Option.some.inj h
    exact Or.inr rfl

/-- With dead consumers to remove, it does that first. -/
theorem pc_prune {dead : List W} (h : (k.prune l found dead).lead = some l') :
    l'.pc = .pruning dead found ∨ l'.pc = .collecting k.taken ∨ l'.pc = .batch found := by
  cases dead with
  | nil => exact Or.inr (pc_reclaimed h)
  | cons name dead =>
    obtain rfl := Option.some.inj h
    exact Or.inl rfl

/-- After the backlog it has a batch, or asks for new entries. -/
theorem pc_collected (h : (k.collected l found).lead = some l') :
    l'.pc = .reading ∨ l'.pc = .batch found := by
  unfold collected at h
  split at h
  · obtain rfl := Option.some.inj h
    exact Or.inl rfl
  · obtain rfl := Option.some.inj h
    exact Or.inr rfl

end Place

/-- The tasks after a start are the old ones and the new one. -/
theorem getElem?_start {k : Worker W} {l : Lead W} {entry : ℕ} {jobId : String}
    {rest : List Delivery} {t : ℕ} {task : Task W}
    (h : (k.start l entry jobId rest).tasks[t]? = some task) :
    k.tasks[t]? = some task ∨
      t = k.tasks.length ∧ task = ⟨entry, jobId, false, .handler, none⟩ := by
  rcases lt_trichotomy t k.tasks.length with hlt | rfl | hgt
  · exact Or.inl ((List.getElem?_append_left hlt).symm.trans h)
  · exact Or.inr ⟨rfl, Option.some.inj (h.symm.trans List.getElem?_concat_length)⟩
  · have hlt := (List.getElem?_eq_some_iff.mp h).1
    simp only [start, leadTo, List.length_append, List.length_singleton] at hlt
    omega

/-- The tasks after a change of one are that one and the others. -/
theorem getElem?_setTask {k : Worker W} {t t₁ : ℕ} {task₁ task' : Task W}
    (h : (k.setTask t task').tasks[t₁]? = some task₁) :
    t₁ = t ∧ task₁ = task' ∨ t₁ ≠ t ∧ k.tasks[t₁]? = some task₁ := by
  rw [setTask, List.getElem?_set] at h
  split at h
  · rename_i heq
    split at h
    · exact Or.inl ⟨heq.symm, (Option.some.inj h).symm⟩
    · cases h
  · rename_i hne
    exact Or.inr ⟨Ne.symm hne, h⟩

end Worker

/-! ## Steps of the lead loop -/

variable [DecidableEq W] (cfg : Config W π) (me : W)

/-- The consumers `_reclaim` deletes. -/
def deadConsumers (infos : List (ConsumerInfo W)) : List W :=
  (infos.filter fun c => c.name ≠ me ∧ c.pending = 0 ∧ (cfg.reclaimIdle : ℤ) < c.idle).map
    ConsumerInfo.name

/-- One segment of `_lead` with the functions it calls. -/
inductive LeadStep (k : Worker W) (l : Lead W) : Note W → Worker W → Prop
  | ensured (ret : Ret) (r : Reply W) (hpc : l.pc = .ensuring ret) (hreply : l.reply = some r) :
      LeadStep k l .quiet
        (match ret with
        | .top => k.leadTo l .top
        | .backlog => k.leadTo l (.collecting k.taken)
        | .read => k.leadTo l .reading)
  | leave (hpc : l.pc = .top) (hover : l.held = false ∨ k.stopping = true) :
      LeadStep k l .quiet (k.exit l [])
  -- a reclaim is due, or a requeue has asked for one
  | reclaim (hpc : l.pc = .top) (hheld : l.held = true) (hgo : k.stopping = false) :
      LeadStep k l .quiet
        ({ k with reclaimNow := false }.leadTo
          { l with cursor := if k.reclaimNow then 0 else l.cursor } (.timing k.taken))
  | skip (hpc : l.pc = .top) (hheld : l.held = true) (hgo : k.stopping = false)
      (hnow : k.reclaimNow = false) : LeadStep k l .quiet (k.leadTo l .reading)
  -- `_reclaim`
  | timed (snapshot : Finset ℕ) (r : Reply W) (hpc : l.pc = .timing snapshot)
      (hreply : l.reply = some r) : LeadStep k l .quiet (k.leadTo l (.claiming snapshot))
  | claimed (snapshot : Finset ℕ) (es : List Delivery) (cursor : ℕ)
      (hpc : l.pc = .claiming snapshot) (hreply : l.reply = some (.claimed es cursor)) :
      LeadStep k l .quiet (k.reclaimed { l with cursor := cursor } (usable snapshot es))
  | claimedNone (snapshot : Finset ℕ) (hpc : l.pc = .claiming snapshot)
      (hreply : l.reply = some .noGroup) :
      LeadStep k l .quiet (k.leadTo { l with cursor := 0 } (.ensuring .backlog))
  | inspect (snapshot : Finset ℕ) (es : List Delivery) (cursor : ℕ)
      (hpc : l.pc = .claiming snapshot) (hreply : l.reply = some (.claimed es cursor)) :
      LeadStep k l .quiet (k.leadTo { l with cursor := cursor } (.inspecting (usable snapshot es)))
  | inspected (found : List Delivery) (infos : List (ConsumerInfo W))
      (hpc : l.pc = .inspecting found) (hreply : l.reply = some (.consumers infos)) :
      LeadStep k l .quiet (k.prune l found (deadConsumers cfg me infos))
  | inspectedNone (found : List Delivery) (hpc : l.pc = .inspecting found)
      (hreply : l.reply = some .noGroup) : LeadStep k l .quiet (k.reclaimed l found)
  | pruned (name : W) (dead : List W) (found : List Delivery) (r : Reply W)
      (hpc : l.pc = .pruning (name :: dead) found) (hreply : l.reply = some r) :
      LeadStep k l .quiet (k.prune l found dead)
  -- `_backlog` and `_read`
  | collected (snapshot : Finset ℕ) (es : List Delivery) (hpc : l.pc = .collecting snapshot)
      (hreply : l.reply = some (.entries es)) :
      LeadStep k l .quiet (k.collected l (usable snapshot es))
  | collectedNone (snapshot : Finset ℕ) (hpc : l.pc = .collecting snapshot)
      (hreply : l.reply = some .noGroup) : LeadStep k l .quiet (k.leadTo l (.ensuring .read))
  | read (es : List Delivery) (hpc : l.pc = .reading) (hreply : l.reply = some (.entries es)) :
      LeadStep k l .quiet (k.takeBatch l es)
  | readNone (hpc : l.pc = .reading) (hreply : l.reply = some .noGroup) :
      LeadStep k l .quiet (k.leadTo l (.ensuring .top))
  -- `_dispatch`
  | batchDone (hpc : l.pc = .batch []) : LeadStep k l .quiet (k.leadTo l .top)
  | skipNil (fields : Option Fields) (rest : List Delivery)
      (hpc : l.pc = .batch ((none, fields) :: rest)) :
      LeadStep k l .quiet (k.leadTo l (.batch rest))
  | dropDeleted (entry : ℕ) (fields : Option Fields) (rest : List Delivery)
      (hpc : l.pc = .batch ((some entry, fields) :: rest)) (hempty : fields.getD [] = []) :
      LeadStep k l .quiet
        ({ k with taken := k.taken.erase entry }.leadTo l (.acking entry false rest))
  | dropMalformed (entry : ℕ) (fields : Fields) (rest : List Delivery)
      (hpc : l.pc = .batch ((some entry, some fields) :: rest)) (hfields : fields ≠ [])
      (hjob : decode cfg.python fields = none) :
      LeadStep k l .quiet
        ({ k with taken := k.taken.erase entry }.leadTo l (.acking entry true rest))
  -- whether the deadline has passed is up to the clocks: `Timely` in `Timeout`
  | dropExpired (entry : ℕ) (fields : Fields) (rest : List Delivery) (job : Job π)
      (hpc : l.pc = .batch ((some entry, some fields) :: rest)) (hfields : fields ≠ [])
      (hjob : decode cfg.python fields = some job) (hdeadline : job.deadline ≠ none) :
      LeadStep k l (.judge entry)
        ({ k with taken := k.taken.erase entry }.leadTo l (.acking entry true rest))
  | acked (entry : ℕ) (rest : List Delivery) (r : Reply W) (hpc : l.pc = .acking entry true rest)
      (hreply : l.reply = some r) : LeadStep k l .quiet (k.leadTo l (.deleting entry rest))
  | ackedDeleted (entry : ℕ) (rest : List Delivery) (r : Reply W)
      (hpc : l.pc = .acking entry false rest) (hreply : l.reply = some r) :
      LeadStep k l .quiet (k.leadTo l (.batch rest))
  | deleted (entry : ℕ) (rest : List Delivery) (r : Reply W) (hpc : l.pc = .deleting entry rest)
      (hreply : l.reply = some r) : LeadStep k l .quiet (k.leadTo l (.batch rest))
  | startUncapped (entry : ℕ) (fields : Fields) (rest : List Delivery) (job : Job π)
      (hpc : l.pc = .batch ((some entry, some fields) :: rest)) (hfields : fields ≠ [])
      (hjob : decode cfg.python fields = some job) (hcap : cfg.maxAdmitted me = none) :
      LeadStep k l (.start entry) (k.start l entry job.id rest)
  | cap (entry : ℕ) (fields : Fields) (rest : List Delivery) (job : Job π) (m : ℕ)
      (hpc : l.pc = .batch ((some entry, some fields) :: rest)) (hfields : fields ≠ [])
      (hjob : decode cfg.python fields = some job) (hcap : cfg.maxAdmitted me = some m) :
      LeadStep k l .quiet (k.leadTo l (.capping entry job.id rest))
  | startCapped (entry : ℕ) (jobId : String) (rest : List Delivery) (m : ℕ)
      (hpc : l.pc = .capping entry jobId rest) (hcap : cfg.maxAdmitted me = some m)
      (hroom : k.running < m) : LeadStep k l (.start entry) (k.start l entry jobId rest)
  | capLeft (entry : ℕ) (jobId : String) (rest : List Delivery)
      (hpc : l.pc = .capping entry jobId rest) (hover : l.held = false ∨ k.stopping = true) :
      LeadStep k l .quiet (k.handOne l entry (.handRest rest))
  | settled (t : ℕ) (task : Task W) (rest : List Delivery) (hpc : l.pc = .waiting t rest)
      (htask : k.tasks[t]? = some task) (hsettled : task.Settled) (hstays : ¬ task.GoesBack) :
      LeadStep k l .quiet (k.leadTo l (.batch rest))
  | cancelled (t : ℕ) (task : Task W) (rest : List Delivery) (hpc : l.pc = .waiting t rest)
      (htask : k.tasks[t]? = some task) (hback : task.GoesBack) :
      LeadStep k l .quiet (k.handOne l task.entry (.handRest rest))
  | abandon (t : ℕ) (task : Task W) (rest : List Delivery) (hpc : l.pc = .waiting t rest)
      (htask : k.tasks[t]? = some task) (hopen : task.admitted = false)
      (hover : l.held = false ∨ k.stopping = true) :
      LeadStep k l .quiet (k.leadTo l (.abandoning t false rest))
  -- a cancellation of the lead loop while it waits
  | waitCancelled (t : ℕ) (task : Task W) (rest : List Delivery) (hpc : l.pc = .waiting t rest)
      (htask : k.tasks[t]? = some task) (hsettled : task.Settled) :
      LeadStep k l .quiet (k.exit l rest)
  | waitAbandoned (t : ℕ) (task : Task W) (rest : List Delivery) (hpc : l.pc = .waiting t rest)
      (htask : k.tasks[t]? = some task) (hopen : task.admitted = false) :
      LeadStep k l .quiet (k.leadTo l (.abandoning t true rest))
  -- `_abandon`
  | abandoned (t : ℕ) (task : Task W) (raising : Bool) (rest : List Delivery)
      (hpc : l.pc = .abandoning t raising rest) (htask : k.tasks[t]? = some task)
      (hended : task.Ended) (hstays : ¬ task.GoesBack) :
      LeadStep k l .quiet (k.goOn l (if raising then .exit rest else .handRest rest))
  | abandonedBack (t : ℕ) (task : Task W) (raising : Bool) (rest : List Delivery)
      (hpc : l.pc = .abandoning t raising rest) (htask : k.tasks[t]? = some task)
      (hback : task.GoesBack) :
      LeadStep k l .quiet
        (k.handOne l task.entry (if raising then .exit rest else .handRest rest))
  -- its `gather` waits for the task even when the lead loop is cancelled, and raises only then
  | abandonCancelled (t : ℕ) (raising : Bool) (rest : List Delivery)
      (hpc : l.pc = .abandoning t raising rest) :
      LeadStep k l .quiet (k.leadTo l (.unwinding t rest))
  | unwound (t : ℕ) (task : Task W) (rest : List Delivery) (hpc : l.pc = .unwinding t rest)
      (htask : k.tasks[t]? = some task) (hended : task.Ended) :
      LeadStep k l .quiet (k.exit l rest)
  -- `_hand_back`
  | locked (entries : Finset ℕ) (next : Next) (hpc : l.pc = .handing entries false next)
      (hfree : k.claimLock = false) :
      LeadStep k l .quiet ({ k with claimLock := true }.leadTo l (.handing entries true next))
  | handed (entries : Finset ℕ) (next : Next) (r : Reply W)
      (hpc : l.pc = .handing entries true next) (hreply : l.reply = some r) :
      LeadStep k l .quiet ({ k with claimLock := false }.goOn l next)
  | handFailed (entries : Finset ℕ) (next : Next) (hpc : l.pc = .handing entries true next) :
      LeadStep k l (.lose l.command.toList) ({ k with claimLock := false }.goOn l next)
  | handCancelled (entries : Finset ℕ) (locked : Bool) (next : Next)
      (hpc : l.pc = .handing entries locked next) :
      LeadStep k l (.lose l.command.toList)
        ({ k with claimLock := k.claimLock && !locked }.exit l next.rest)
  -- the exits of `_lead`
  | failed (rest : List Delivery) (hpc : l.pc.unwinds = some rest) :
      LeadStep k l (.lose l.command.toList) (k.exit l rest)
  | released (r : Reply W) (hpc : l.pc = .releasing) (hreply : l.reply = some r) :
      LeadStep k l .quiet { k with lead := none }
  | releaseFailed (hpc : l.pc = .releasing) :
      LeadStep k l (.lose l.command.toList) { k with lead := none }

/-! ## Steps of the other coroutines -/

/-- One segment of `_run_job`, `_finish` and `_requeue`. -/
inductive TaskStep (k : Worker W) (t : ℕ) (task : Task W) : Note W → Worker W → Prop
  | admits : TaskStep k t task .quiet (k.setTask t { task with admitted := true })
  | finish (hphase : task.phase = .handler) :
      TaskStep k t task .quiet (k.setTask t { task with phase := .finishing, reply := none })
  | requeue (hphase : task.phase = .handler) :
      TaskStep k t task .quiet (k.setTask t { task with phase := .delaying })
  -- a cancellation, or an exception `_run_job` does not catch
  | handlerRaised (cancelled : Bool) (hphase : task.phase = .handler) :
      TaskStep k t task .quiet (k.setTask t { task with phase := .ended cancelled })
  | finished (r : Reply W) (hphase : task.phase = .finishing) (hreply : task.reply = some r) :
      TaskStep k t task .quiet
        ({ k with taken := k.taken.erase task.entry }.setTask t { task with phase := .ended false })
  | finishFailed (cancelled : Bool) (hphase : task.phase = .finishing) :
      TaskStep k t task (.lose task.command.toList)
        ({ k with taken := k.taken.erase task.entry }.setTask t
          { task with phase := .ended cancelled })
  | delayed (hphase : task.phase = .delaying) :
      TaskStep k t task .quiet
        ({ k with taken := k.taken.erase task.entry }.setTask t
          { task with phase := .handing false, reply := none })
  | delayCancelled (hphase : task.phase = .delaying) :
      TaskStep k t task .quiet (k.setTask t { task with phase := .ended true })
  | locked (hphase : task.phase = .handing false) (hfree : k.claimLock = false) :
      TaskStep k t task .quiet
        ({ k with claimLock := true }.setTask t { task with phase := .handing true, reply := none })
  | handed (r : Reply W) (hphase : task.phase = .handing true) (hreply : task.reply = some r) :
      TaskStep k t task .quiet
        ({ k with claimLock := false, reclaimNow := true }.setTask t
          { task with phase := .ended false })
  | handFailed (hphase : task.phase = .handing true) :
      TaskStep k t task (.lose task.command.toList)
        ({ k with claimLock := false, reclaimNow := true }.setTask t
          { task with phase := .ended false })
  | handCancelled (locked : Bool) (hphase : task.phase = .handing locked) :
      TaskStep k t task (.lose task.command.toList)
        ({ k with claimLock := k.claimLock && !locked }.setTask t
          { task with phase := .ended true })

/-- One segment of `run`, `_elect` and `_shutdown`, a call of `stop()`, or the Mutex being lost. -/
inductive RunStep (k : Worker W) : Note W → Worker W → Prop
  -- `_elect` goes through the free queues without looking at `_stopping` again
  | ask (hlead : k.lead = none) (hidle : k.election = .idle) :
      RunStep k .quiet
        { k with election := .asking k.nextMutex none, nextMutex := k.nextMutex + 1 }
  | won (mutex : ℕ) (hasking : k.election = .asking mutex (some (.granted true))) :
      RunStep k .quiet
        { k with election := .idle, lead := some ⟨mutex, true, 0, .ensuring .top, none⟩ }
  | lost (mutex : ℕ) (hasking : k.election = .asking mutex (some (.granted false))) :
      RunStep k .quiet { k with election := .idle }
  | askFailed (mutex : ℕ) (reply : Option (Reply W)) (hasking : k.election = .asking mutex reply) :
      RunStep k (.lose [.acquire mutex]) { k with election := .idle }
  | stop : RunStep k .quiet { k with stopping := true }
  | loseMutex (l : Lead W) (hlead : k.lead = some l) :
      RunStep k .quiet { k with lead := some { l with held := false } }
  -- the end of `_shutdown_steps`: every other coroutine of the run is over
  | clear (hlead : k.lead = none) (hidle : k.election = .idle) (htasks : ∀ t ∈ k.tasks, t.Ended)
      (htouch : k.touch = .idle) :
      RunStep k .quiet { k with taken := ∅, reclaimNow := false, stopping := false }

/-- One segment of `_touch_loop`. -/
inductive TouchStep (k : Worker W) : Note W → Worker W → Prop
  | wake (hidle : k.touch = .idle) : TouchStep k .quiet { k with touch := .locking }
  | nothing (hlocking : k.touch = .locking) (hfree : k.claimLock = false) (hnone : k.taken = ∅) :
      TouchStep k .quiet { k with touch := .idle }
  | locked (hlocking : k.touch = .locking) (hfree : k.claimLock = false) (hsome : k.taken ≠ ∅) :
      TouchStep k .quiet { k with claimLock := true, touch := .claiming k.taken none }
  | touched (entries : Finset ℕ) (r : Reply W) (hclaiming : k.touch = .claiming entries (some r)) :
      TouchStep k .quiet { k with claimLock := false, touch := .idle }
  | failed (entries : Finset ℕ) (reply : Option (Reply W))
      (hclaiming : k.touch = .claiming entries reply) :
      TouchStep k (.lose [.touch entries]) { k with claimLock := false, touch := .idle }
  | cancelled (hlocking : k.touch = .locking) : TouchStep k .quiet { k with touch := .idle }

/-- One segment of one coroutine of a worker. -/
inductive WorkerStep (k : Worker W) : Note W → Worker W → Prop
  | lead {l : Lead W} {note : Note W} {k' : Worker W} (hlead : k.lead = some l)
      (hstep : LeadStep cfg me k l note k') : WorkerStep k note k'
  | task {t : ℕ} {task : Task W} {note : Note W} {k' : Worker W} (htask : k.tasks[t]? = some task)
      (hstep : TaskStep k t task note k') : WorkerStep k note k'
  | run {note : Note W} {k' : Worker W} (hstep : RunStep k note k') : WorkerStep k note k'
  | touch {note : Note W} {k' : Worker W} (hstep : TouchStep k note k') : WorkerStep k note k'

/-! ## What a segment leaves alone -/

/-- The lead loop goes on under its Mutex, or ends; nothing of the other coroutines changes. -/
structure LeadFrame (k : Worker W) (l : Lead W) (k' : Worker W) : Prop where
  alive : k'.alive = k.alive
  nextMutex : k'.nextMutex = k.nextMutex
  election : k'.election = k.election
  tasks : k'.tasks = k.tasks
  mutex : ∀ l', k'.lead = some l' → l'.mutex = l.mutex

/-- One task changes, and is over only for good; nothing of the run and lead loops changes. -/
structure TaskFrame (k : Worker W) (t : ℕ) (task : Task W) (k' : Worker W) : Prop where
  alive : k'.alive = k.alive
  nextMutex : k'.nextMutex = k.nextMutex
  election : k'.election = k.election
  lead : k'.lead = k.lead
  tasks : ∃ task', k'.tasks = k.tasks.set t task' ∧ task'.entry = task.entry ∧
    (task.admitted = true → task'.admitted = true) ∧ (task.Ended → task'.Ended)

section Frame

variable {cfg : Config W π} {me : W} {k k₁ k' : Worker W} {l l₁ : Lead W} {note : Note W}

omit [DecidableEq W] in
/-- The loop goes on; nothing else of the worker changes. -/
theorem LeadFrame.leadTo {pc : LeadPc W} (h : LeadFrame k l k₁) (hmutex : l₁.mutex = l.mutex) :
    LeadFrame k l (k₁.leadTo l₁ pc) := by
  refine ⟨h.alive, h.nextMutex, h.election, h.tasks, fun l' hl' => ?_⟩
  obtain rfl := Option.some.inj hl'
  exact hmutex

omit [DecidableEq W] in
/-- The loop leaves; nothing else of the worker changes but `_taken`. -/
theorem LeadFrame.exit {rest : List Delivery} (h : LeadFrame k l k₁) (hmutex : l₁.mutex = l.mutex) :
    LeadFrame k l (k₁.exit l₁ rest) := by
  have h' : LeadFrame k l { k₁ with taken := k₁.taken \ ids rest } :=
    ⟨h.alive, h.nextMutex, h.election, h.tasks, h.mutex⟩
  rw [Worker.exit]
  split
  · exact h'.leadTo hmutex
  · exact ⟨h.alive, h.nextMutex, h.election, h.tasks, fun l' hl' => nomatch hl'⟩

omit [DecidableEq W] in
/-- The loop goes on after a hand-back. -/
theorem LeadFrame.goOn {next : Next} (h : LeadFrame k l k₁) (hmutex : l₁.mutex = l.mutex) :
    LeadFrame k l (k₁.goOn l₁ next) := by
  cases next with
  | exit rest => exact h.exit hmutex
  | handRest rest =>
    rw [Worker.goOn, Worker.handRest]
    split
    · exact h.exit hmutex
    · exact LeadFrame.leadTo ⟨h.alive, h.nextMutex, h.election, h.tasks, h.mutex⟩ hmutex

omit [DecidableEq W] in
/-- The loop takes a batch. -/
theorem LeadFrame.takeBatch {es : List Delivery} (h : LeadFrame k l k₁)
    (hmutex : l₁.mutex = l.mutex) : LeadFrame k l (k₁.takeBatch l₁ es) :=
  LeadFrame.leadTo ⟨h.alive, h.nextMutex, h.election, h.tasks, h.mutex⟩ hmutex

omit [DecidableEq W] in
/-- The loop looks at what a page found. -/
theorem LeadFrame.reclaimed {es : List Delivery} (h : LeadFrame k l k₁)
    (hmutex : l₁.mutex = l.mutex) : LeadFrame k l (k₁.reclaimed l₁ es) := by
  rw [Worker.reclaimed]
  split
  · exact h.leadTo hmutex
  · exact h.takeBatch hmutex

omit [DecidableEq W] in
/-- The loop removes a dead consumer. -/
theorem LeadFrame.prune {es : List Delivery} {dead : List W} (h : LeadFrame k l k₁)
    (hmutex : l₁.mutex = l.mutex) : LeadFrame k l (k₁.prune l₁ es dead) := by
  cases dead with
  | nil => exact h.reclaimed hmutex
  | cons name dead => exact h.leadTo hmutex

/-- A segment starts a handler, or leaves the rest of the worker alone. -/
theorem LeadStep.frame (hlead : k.lead = some l) (h : LeadStep cfg me k l note k') :
    (∃ entry jobId rest, note = .start entry ∧ k' = k.start l entry jobId rest) ∨
      LeadFrame k l k' := by
  have hrefl : ∀ k₁ : Worker W, k₁.alive = k.alive → k₁.nextMutex = k.nextMutex →
      k₁.election = k.election → k₁.tasks = k.tasks → k₁.lead = k.lead → LeadFrame k l k₁ := by
    intro k₁ h₁ h₂ h₃ h₄ h₅
    refine ⟨h₁, h₂, h₃, h₄, fun l' hl' => ?_⟩
    rw [h₅, hlead] at hl'
    rw [Option.some.inj hl']
  have hsame := hrefl k rfl rfl rfl rfl rfl
  cases h with
  | startUncapped entry fields rest job hpc hfields hjob hcap => exact Or.inl ⟨_, _, _, rfl, rfl⟩
  | startCapped entry jobId rest m hpc hcap hroom => exact Or.inl ⟨_, _, _, rfl, rfl⟩
  | ensured ret r hpc hreply => cases ret <;> exact Or.inr (hsame.leadTo rfl)
  | leave hpc hover => exact Or.inr (hsame.exit rfl)
  | claimed snapshot es cursor hpc hreply => exact Or.inr (hsame.reclaimed rfl)
  | inspected found infos hpc hreply => exact Or.inr (hsame.prune rfl)
  | inspectedNone found hpc hreply => exact Or.inr (hsame.reclaimed rfl)
  | pruned name dead found r hpc hreply => exact Or.inr (hsame.prune rfl)
  | collected snapshot es hpc hreply =>
    rw [Worker.collected]
    split
    · exact Or.inr (hsame.leadTo rfl)
    · exact Or.inr (hsame.takeBatch rfl)
  | read es hpc hreply => exact Or.inr (hsame.takeBatch rfl)
  | waitCancelled t task rest hpc htask hsettled => exact Or.inr (hsame.exit rfl)
  | abandoned t task raising rest hpc htask hended hstays => exact Or.inr (hsame.goOn rfl)
  | unwound t task rest hpc htask hended => exact Or.inr (hsame.exit rfl)
  | handed entries next r hpc hreply =>
    refine Or.inr (LeadFrame.goOn ?_ rfl)
    exact hrefl _ rfl rfl rfl rfl rfl
  | handFailed entries next hpc =>
    refine Or.inr (LeadFrame.goOn ?_ rfl)
    exact hrefl _ rfl rfl rfl rfl rfl
  | handCancelled entries locked next hpc =>
    refine Or.inr (LeadFrame.exit ?_ rfl)
    exact hrefl _ rfl rfl rfl rfl rfl
  | failed rest hpc => exact Or.inr (hsame.exit rfl)
  | released r hpc hreply => exact Or.inr ⟨rfl, rfl, rfl, rfl, fun l' hl' => nomatch hl'⟩
  | releaseFailed hpc => exact Or.inr ⟨rfl, rfl, rfl, rfl, fun l' hl' => nomatch hl'⟩
  | _ => exact Or.inr (LeadFrame.leadTo (hrefl _ rfl rfl rfl rfl rfl) rfl)

/-- From the release of its Mutex a lead loop only ends. -/
theorem LeadStep.ends_of_releasing (hpc : l.pc = .releasing) (h : LeadStep cfg me k l note k') :
    k'.lead = none := by
  cases h with
  | released r hpc' hreply => rfl
  | releaseFailed hpc' => rfl
  | failed rest hpc' => simp [hpc, LeadPc.unwinds] at hpc'
  | _ => simp_all

omit [DecidableEq W] in
/-- A segment of a task changes that task, and of the rest of the worker only what is in the
frame. -/
theorem TaskStep.frame {t : ℕ} {task : Task W} (h : TaskStep k t task note k') :
    TaskFrame k t task k' := by
  cases h with
  | admits => exact ⟨rfl, rfl, rfl, rfl, _, rfl, rfl, fun _ => rfl, id⟩
  | handlerRaised cancelled hphase =>
    exact ⟨rfl, rfl, rfl, rfl, _, rfl, rfl, id, fun _ => ⟨cancelled, rfl⟩⟩
  | finished r hphase hreply =>
    exact ⟨rfl, rfl, rfl, rfl, _, rfl, rfl, id, fun _ => ⟨false, rfl⟩⟩
  | finishFailed cancelled hphase =>
    exact ⟨rfl, rfl, rfl, rfl, _, rfl, rfl, id, fun _ => ⟨cancelled, rfl⟩⟩
  | delayCancelled hphase => exact ⟨rfl, rfl, rfl, rfl, _, rfl, rfl, id, fun _ => ⟨true, rfl⟩⟩
  | handed r hphase hreply => exact ⟨rfl, rfl, rfl, rfl, _, rfl, rfl, id, fun _ => ⟨false, rfl⟩⟩
  | handFailed hphase => exact ⟨rfl, rfl, rfl, rfl, _, rfl, rfl, id, fun _ => ⟨false, rfl⟩⟩
  | handCancelled locked hphase =>
    exact ⟨rfl, rfl, rfl, rfl, _, rfl, rfl, id, fun _ => ⟨true, rfl⟩⟩
  | _ =>
    refine ⟨rfl, rfl, rfl, rfl, _, rfl, rfl, id, ?_⟩
    rintro ⟨cancelled, hended⟩
    simp_all

omit [DecidableEq W] in
/-- A task that is over can only be told that it is admitted. -/
theorem TaskStep.of_ended {t : ℕ} {task : Task W} (h : TaskStep k t task note k')
    (hended : task.Ended) :
    note = .quiet ∧ k' = k.setTask t { task with admitted := true } := by
  obtain ⟨cancelled, hphase'⟩ := hended
  cases h with
  | admits => exact ⟨rfl, rfl⟩
  | _ => simp_all

end Frame

end RedisSemaphore.Dispatch

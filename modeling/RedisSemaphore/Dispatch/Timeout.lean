import Mathlib.Tactic.Linarith
import RedisSemaphore.Dispatch.Admission

/-!
# Jobs past their deadline

The clocks that `Worker` leaves open, for one worker `w`: its local clock, the offset to the server
clock it has measured, and the job `_dispatch` has decoded last. `_dispatch` compares the deadline
with the estimate of the server clock once, right after it has decoded the job. A job that is
started in that segment is in time. Under `max_admitted` the loop may wait for a slot between the
comparison and the start, and time passes there.
-/

namespace RedisSemaphore.Dispatch

open Redis Transition

variable {W : Type*} {π : Type}

/-- `Job.remaining`, at the estimate `now` of the server clock. -/
def Job.remaining (job : Job π) (now : ℚ) : Option ℚ := job.deadline.map (· - now)

/-- The submitter has given up. -/
def Job.Expired (job : Job π) (now : ℚ) : Prop := ∃ r, job.remaining now = some r ∧ r ≤ 0

/-- A job without a deadline never expires; others have until their deadline. -/
theorem Job.not_expired_iff {job : Job π} {now : ℚ} :
    ¬ job.Expired now ↔ ∀ deadline, job.deadline = some deadline → now < deadline := by
  unfold Expired remaining
  cases job.deadline with
  | none => simp
  | some deadline => simp

/-- What `_decode` makes of the head of the batch. -/
def LeadPc.decoded (cfg : Config W π) : LeadPc W → Option (Job π)
  | .batch ((some _, some fields) :: _) => decode cfg.python fields
  | _ => none

/-- The job at the head of the batch, as `_decode` reads it. -/
def Worker.decoded (cfg : Config W π) (k : Worker W) : Option (Job π) :=
  k.lead.bind fun l => l.pc.decoded cfg

/-- The lead loop waits for a handler slot. -/
def Worker.Capping (k : Worker W) : Prop :=
  ∃ l entry jobId rest, k.lead = some l ∧ l.pc = .capping entry jobId rest

/-! ## Time -/

/-- The queue with the clocks of one worker, and the job it has decoded last. Times are in seconds,
as the fields of a `Job` are. -/
structure Timed (W : Type*) (π : Type) where
  world : World W
  clock : ℚ
  offset : ℚ
  job : Option (Job π)

/-- The worker's estimate of the server clock. -/
def Timed.estimate (s : Timed W π) : ℚ := s.clock + s.offset

/-- Time passes or the clock is set; some lead loop of the worker measures the offset; or something
happens in the queue. -/
inductive TimedEvent (W : Type*)
  | tick (now : ℚ)
  | measure (server : ℚ)
  | event (e : Event W)

/-- A segment from `k` to `k'` at `now` keeps to the comparison: the job just decoded is judged
only past its deadline, and started, or left waiting for a slot, only before. -/
structure Timely (cfg : Config W π) (now : ℚ) (k : Worker W) (note : Note W) (k' : Worker W) :
    Prop where
  judged : ∀ entry job, note = .judge entry → k.decoded cfg = some job → job.Expired now
  started : ∀ entry job, note = .start entry → k.decoded cfg = some job → ¬ job.Expired now
  capped : ∀ job, k'.Capping → k.decoded cfg = some job → ¬ job.Expired now

variable [DecidableEq W] (cfg : Config W π) (w : W)

/-- The clock of the worker moves, or the queue takes a step. -/
inductive TimedStep (s : Timed W π) : TimedEvent W → Timed W π → Prop
  | tick (now : ℚ) : TimedStep s (.tick now) { s with clock := now }
  | measure (server : ℚ) : TimedStep s (.measure server) { s with offset := server - s.clock }
  | other (e : Event W) (world : World W) (hother : ∀ note, e ≠ .act w note)
      (hstep : Step cfg s.world e world) : TimedStep s (.event e) { s with world := world }
  | act (note : Note W) (world : World W) (hstep : Step cfg s.world (.act w note) world)
      (htimely : Timely cfg s.estimate (s.world.workers w) note (world.workers w)) :
      TimedStep s (.event (.act w note))
        { s with world := world, job := ((s.world.workers w).decoded cfg).or s.job }

/-- The queue with the clocks of `w`. Any time may have passed before. -/
def timed : System (Timed W π) (TimedEvent W) where
  start s := (system cfg).start s.world ∧ s.offset = 0 ∧ s.job = none
  step := TimedStep cfg w

/-- The events of the queue in a timed trace. -/
def queueTrace : List (TimedEvent W) → List (Event W) :=
  List.filterMap fun
    | .event e => some e
    | _ => none

variable {cfg w}

/-- The local clock after a trace, newest event first. -/
def clockAfter (s₀ : Timed W π) : List (TimedEvent W) → ℚ
  | [] => s₀.clock
  | .tick now :: _ => now
  | .measure _ :: tr => clockAfter s₀ tr
  | .event _ :: tr => clockAfter s₀ tr

/-- The offset to the server clock after a trace: the last `TIME` sets it against the local clock of
that moment. -/
def offsetAfter (s₀ : Timed W π) : List (TimedEvent W) → ℚ
  | [] => s₀.offset
  | .tick _ :: tr => offsetAfter s₀ tr
  | .measure server :: tr => server - clockAfter s₀ tr
  | .event _ :: tr => offsetAfter s₀ tr

/-- The worker's estimate of the server clock after a trace. -/
def estimateAfter (s₀ : Timed W π) (tr : List (TimedEvent W)) : ℚ :=
  clockAfter s₀ tr + offsetAfter s₀ tr

/-- The estimate in a run is what the ticks and measurements of its trace make of it. -/
theorem estimate_of_path {s₀ s : Timed W π} {tr : List (TimedEvent W)}
    (h : (timed cfg w).Path s₀ tr s) : s.estimate = estimateAfter s₀ tr := by
  suffices hboth : s.clock = clockAfter s₀ tr ∧ s.offset = offsetAfter s₀ tr by
    rw [Timed.estimate, estimateAfter, hboth.1, hboth.2]
  refine System.Path.invariant
    (I := fun tr s => s.clock = clockAfter s₀ tr ∧ s.offset = offsetAfter s₀ tr) ⟨rfl, rfl⟩ ?_ h
  rintro tr s e s' _ ⟨hclock, hoffset⟩ hstep
  cases hstep with
  | tick now => exact ⟨rfl, hoffset⟩
  | measure server => exact ⟨hclock, congrArg (server - ·) hclock⟩
  | other | act => exact ⟨hclock, hoffset⟩

/-- Without its clocks a timed run is a run of the queue. -/
theorem run_of_timed {tr : List (TimedEvent W)} {s : Timed W π} (h : (timed cfg w).Run tr s) :
    (system cfg).Run (queueTrace tr) s.world := by
  refine System.Run.invariant (I := fun tr s => (system cfg).Run (queueTrace tr) s.world) ?_ ?_ h
  · intro s hs
    exact .start hs.1
  · intro tr s e s' _ hrun hstep
    cases hstep with
    | tick | measure => exact hrun
    | other e world hother hstep => exact hrun.step hstep
    | act note world hstep htimely => exact hrun.step hstep

/-! ## One segment -/

section Segment

variable {k k' : Worker W} {l l' : Lead W} {note : Note W} {now : ℚ} {job : Job π} {entry : ℕ}
  {jobId : String} {rest : List Delivery}

omit [DecidableEq W] in
/-- A segment that has no job at the head of its batch compares nothing. -/
theorem timely_of_none {cfg : Config W π} {now : ℚ} {k k' : Worker W} {note : Note W}
    (hnone : k.decoded cfg = none) : Timely cfg now k note k' := by
  refine ⟨?_, ?_, ?_⟩
  · intro entry job _ hjob
    rw [hnone] at hjob
    cases hjob
  · intro entry job _ hjob
    rw [hnone] at hjob
    cases hjob
  · intro job _ hjob
    rw [hnone] at hjob
    cases hjob

omit [DecidableEq W] in
/-- A job past its deadline is judged, not started. -/
theorem timely_of_late {cfg : Config W π} {now : ℚ} {k k' : Worker W} {note : Note W} {job : Job π}
    (hsome : k.decoded cfg = some job) (hlate : job.Expired now)
    (hnote : ∀ entry, note ≠ .start entry) (hpc : ¬ k'.Capping) : Timely cfg now k note k' := by
  refine ⟨?_, ?_, ?_⟩
  · intro entry job' _ hjob
    rw [hsome] at hjob
    exact Option.some.inj hjob ▸ hlate
  · intro entry _ heq
    exact absurd heq (hnote entry)
  · exact fun job' hcapping => absurd hcapping hpc

omit [DecidableEq W] in
/-- A job in time is not judged to be late. -/
theorem timely_of_some {cfg : Config W π} {now : ℚ} {k k' : Worker W} {note : Note W} {job : Job π}
    (hsome : k.decoded cfg = some job) (hin : ¬ job.Expired now)
    (hnote : ∀ entry, note ≠ .judge entry) : Timely cfg now k note k' := by
  refine ⟨?_, ?_, ?_⟩
  · intro entry _ heq
    exact absurd heq (hnote entry)
  · intro entry job' _ hjob
    rw [hsome] at hjob
    exact Option.some.inj hjob ▸ hin
  · intro job' _ hjob
    rw [hsome] at hjob
    exact Option.some.inj hjob ▸ hin

omit [DecidableEq W] in
/-- What is at the head of the batch. -/
theorem decoded_of_pc {fields : Fields} (hlead : k.lead = some l)
    (hpc : l.pc = .batch ((some entry, some fields) :: rest)) :
    k.decoded cfg = decode cfg.python fields := by
  rw [Worker.decoded, hlead]
  show l.pc.decoded cfg = _
  rw [hpc]
  rfl

/-- A loop that waits for a slot did so before, or has just decoded the job. -/
theorem LeadStep.capping (h : LeadStep cfg w k l note k') (hlead : k.lead = some l)
    (hl' : k'.lead = some l') (hpc' : l'.pc = .capping entry jobId rest) :
    ∃ job, k.decoded cfg = some job ∧ job.id = jobId := by
  cases h with
  | cap entry' fields rest' job m hpc hfields hjob hcap =>
    obtain rfl := Option.some.inj hl'
    obtain ⟨-, rfl, -⟩ := LeadPc.capping.inj hpc'
    exact ⟨job, (decoded_of_pc hlead hpc).trans hjob, rfl⟩
  | ensured ret r hpc hreply =>
    cases ret <;>
    · obtain rfl := Option.some.inj hl'
      cases hpc'
  | leave | waitCancelled | unwound | handCancelled | failed =>
    rw [Worker.pc_exit hl'] at hpc'
    cases hpc'
  | abandoned | handed | handFailed =>
    rcases Worker.pc_goOn hl' with hpc | hpc <;>
    · rw [hpc] at hpc'
      cases hpc'
  | claimed | inspectedNone =>
    rcases Worker.pc_reclaimed hl' with hpc | hpc <;>
    · rw [hpc] at hpc'
      cases hpc'
  | inspected | pruned =>
    rcases Worker.pc_prune hl' with hpc | hpc | hpc <;>
    · rw [hpc] at hpc'
      cases hpc'
  | collected =>
    rcases Worker.pc_collected hl' with hpc | hpc <;>
    · rw [hpc] at hpc'
      cases hpc'
  | released | releaseFailed => cases hl'
  | _ =>
    obtain rfl := Option.some.inj hl'
    cases hpc'

/-- The same for any coroutine: it may have waited before. -/
theorem WorkerStep.capping (h : WorkerStep cfg w k note k') (hl' : k'.lead = some l')
    (hpc' : l'.pc = .capping entry jobId rest) :
    (∃ job, k.decoded cfg = some job ∧ job.id = jobId) ∨
      ∃ l, k.lead = some l ∧ l.pc = .capping entry jobId rest := by
  cases h with
  | lead hlead hstep => exact Or.inl (hstep.capping hlead hl' hpc')
  | task htask hstep => exact Or.inr ⟨l', hstep.frame.lead.symm.trans hl', hpc'⟩
  | run hstep =>
    cases hstep with
    | won mutex hasking =>
      obtain rfl := Option.some.inj hl'
      cases hpc'
    | loseMutex l hlead =>
      obtain rfl := Option.some.inj hl'
      exact Or.inr ⟨l, hlead, hpc'⟩
    | _ => exact Or.inr ⟨l', hl', hpc'⟩
  | touch hstep => cases hstep <;> exact Or.inr ⟨l', hl', hpc'⟩

/-- A started job has just been decoded, or has waited for a slot. -/
theorem WorkerStep.starting (h : WorkerStep cfg w k (.start entry) k') :
    ∃ l jobId rest, k.lead = some l ∧ k' = k.start l entry jobId rest ∧
      ((∃ job, k.decoded cfg = some job ∧ job.id = jobId) ∨
        (k.decoded cfg = none ∧ l.pc = .capping entry jobId rest)) := by
  cases h with
  | @lead l _ _ hlead hstep =>
    cases hstep with
    | startUncapped _ fields rest job hpc hfields hjob hcap =>
      exact ⟨l, job.id, rest, hlead, rfl, Or.inl ⟨job, (decoded_of_pc hlead hpc).trans hjob, rfl⟩⟩
    | startCapped _ jobId rest m hpc hcap hroom =>
      refine ⟨l, jobId, rest, hlead, rfl, Or.inr ⟨?_, hpc⟩⟩
      rw [Worker.decoded, hlead]
      show l.pc.decoded cfg = none
      rw [hpc]
      rfl
  | task htask hstep => cases hstep
  | run hstep => cases hstep
  | touch hstep => cases hstep

/-- From an expired job at the head of the batch the loop goes to its `XACK`, or leaves. -/
theorem LeadStep.expired {fields : Fields} (h : LeadStep cfg w k l note k')
    (hlead : k.lead = some l) (hpc : l.pc = .batch ((some entry, some fields) :: rest))
    (hjob : decode cfg.python fields = some job) (hexpired : job.Expired now)
    (htimely : Timely cfg now k note k') (hl' : k'.lead = some l') :
    l'.pc = .acking entry true rest ∨ l'.pc = .releasing := by
  have hdecoded := (decoded_of_pc hlead hpc).trans hjob
  cases h with
  | dropExpired entry' fields' rest' job' hpc' =>
    obtain ⟨heq, rfl⟩ := List.cons.inj (LeadPc.batch.inj (hpc.symm.trans hpc'))
    obtain ⟨heq, -⟩ := Prod.mk.inj heq
    obtain rfl := Option.some.inj heq
    obtain rfl := Option.some.inj hl'
    exact Or.inl rfl
  | dropDeleted entry' fields' rest' hpc' hempty =>
    obtain ⟨heq, rfl⟩ := List.cons.inj (LeadPc.batch.inj (hpc.symm.trans hpc'))
    obtain ⟨-, rfl⟩ := Prod.mk.inj heq
    obtain rfl : fields = [] := hempty
    cases hjob
  | dropMalformed entry' fields' rest' hpc' hfields hnone =>
    obtain ⟨heq, rfl⟩ := List.cons.inj (LeadPc.batch.inj (hpc.symm.trans hpc'))
    obtain ⟨-, heq⟩ := Prod.mk.inj heq
    obtain rfl := Option.some.inj heq
    rw [hjob] at hnone
    cases hnone
  | startUncapped entry' fields' rest' job' hpc' =>
    exact absurd hexpired (htimely.started _ job rfl hdecoded)
  | cap entry' fields' rest' job' m hpc' =>
    exact absurd hexpired (htimely.capped job ⟨_, _, _, _, rfl, rfl⟩ hdecoded)
  | failed rest' hpc' => exact Or.inr (Worker.pc_exit hl')
  | _ => simp_all

/-- The same for any coroutine: it may leave the loop where it is. -/
theorem WorkerStep.expired {fields : Fields} (h : WorkerStep cfg w k note k')
    (hserial : Serial cfg w k) (hlead : k.lead = some l)
    (hpc : l.pc = .batch ((some entry, some fields) :: rest))
    (hjob : decode cfg.python fields = some job) (hexpired : job.Expired now)
    (htimely : Timely cfg now k note k') (hl' : k'.lead = some l') :
    l'.pc = l.pc ∨ l'.pc = .acking entry true rest ∨ l'.pc = .releasing := by
  cases h with
  | lead hlead' hstep =>
    obtain rfl := Option.some.inj (hlead.symm.trans hlead')
    exact Or.inr (hstep.expired hlead hpc hjob hexpired htimely hl')
  | task htask hstep =>
    obtain rfl := Option.some.inj (hlead.symm.trans (hstep.frame.lead.symm.trans hl'))
    exact Or.inl rfl
  | run hstep =>
    cases hstep with
    | won mutex hasking =>
      rw [hserial.alone l hlead] at hasking
      cases hasking
    | loseMutex l₀ hlead' =>
      obtain rfl := Option.some.inj (hlead.symm.trans hlead')
      obtain rfl := Option.some.inj hl'
      exact Or.inl rfl
    | _ =>
      obtain rfl := Option.some.inj (hlead.symm.trans hl')
      exact Or.inl rfl
  | touch hstep =>
    have hsame : some l = some l' := by cases hstep <;> exact hlead.symm.trans hl'
    obtain rfl := Option.some.inj hsame
    exact Or.inl rfl

end Segment

/-! ## Runs -/

/-- While the loop waits for a slot, the estimate does not reach the deadline of the job. -/
def InTime (w : W) (s : Timed W π) (_ : TimedEvent W) (s' : Timed W π) : Prop :=
  ∀ job, (s.world.workers w).Capping → s.job = some job → ¬ job.Expired s'.estimate

/-- A job that waits for a slot is the one decoded last, and is in time. -/
def Waits (w : W) (s : Timed W π) : Prop :=
  ∀ l entry jobId rest, (s.world.workers w).lead = some l → l.pc = .capping entry jobId rest →
    ∃ job, s.job = some job ∧ job.id = jobId ∧ ¬ job.Expired s.estimate

section Run

variable {tr : List (TimedEvent W)} {s s' : Timed W π} {e : TimedEvent W}

/-- Where the lead loop of `w` is after a step in which `w` does not act. -/
theorem Step.pc_of_other {s s' : World W} {e : Event W} {l' : Lead W} (h : Step cfg s e s')
    (hother : ∀ note, e ≠ .act w note) (hl' : (s'.workers w).lead = some l') :
    ∃ l, (s.workers w).lead = some l ∧ l'.pc = l.pc := by
  refine h.worker
    (P := fun k => ∀ l', k.lead = some l' → ∃ l, (s.workers w).lead = some l ∧ l'.pc = l.pc)
    ?_ ?_ ?_ ?_ l' hl'
  · intro l hl
    exact ⟨l, hl, rfl⟩
  · intro r co l hl
    exact Worker.pc_of_answer hl
  · intro note k heq
    exact absurd heq (hother note)
  · intro l hl
    cases hl

/-- **One step.** A job is judged when its turn comes and admitted when a slot is free, both
before its deadline if the clock keeps `InTime`. -/
theorem Waits.step (h : Waits w s) (hok : InTime w s e s') (hstep : TimedStep cfg w s e s') :
    Waits w s' := by
  intro l' entry jobId rest hl' hpc'
  cases hstep with
  | tick now =>
    obtain ⟨job, hjob, hid, -⟩ := h l' entry jobId rest hl' hpc'
    exact ⟨job, hjob, hid, hok job ⟨l', entry, jobId, rest, hl', hpc'⟩ hjob⟩
  | measure server =>
    obtain ⟨job, hjob, hid, -⟩ := h l' entry jobId rest hl' hpc'
    exact ⟨job, hjob, hid, hok job ⟨l', entry, jobId, rest, hl', hpc'⟩ hjob⟩
  | other e world hother hstep =>
    obtain ⟨l, hl, hpc⟩ := hstep.pc_of_other hother hl'
    exact h l entry jobId rest hl (hpc.symm.trans hpc')
  | act note world hstep htimely =>
    obtain ⟨k, hown, hk⟩ : ∃ k, WorkerStep cfg w (s.world.workers w) note k ∧
        world.workers w = k := by
      cases hstep with
      | act _ _ k halive hown => exact ⟨k, hown, by simp only [Function.update_self]⟩
    subst hk
    rcases hown.capping hl' hpc' with ⟨job, hdecoded, hid⟩ | ⟨l, hl, hpc⟩
    · refine ⟨job, ?_, hid, htimely.capped job ⟨l', entry, jobId, rest, hl', hpc'⟩ hdecoded⟩
      rw [hdecoded]
      rfl
    · obtain ⟨job, hjob, hid, hin⟩ := h l entry jobId rest hl hpc
      refine ⟨job, ?_, hid, hin⟩
      rw [Worker.decoded, hl]
      show (l.pc.decoded cfg).or s.job = some job
      rw [hpc]
      exact hjob

/-- The invariant holds in every run in time. -/
theorem waits_of_run (h : ((timed cfg w).within (InTime w)).Run tr s) : Waits w s := by
  refine System.Run.invariant (I := fun _ s => Waits w s) ?_ ?_ h
  · rintro s ⟨hstart, -⟩
    intro l entry jobId rest hl
    rw [show s.world = ⟨.initial, fun _ => .initial, []⟩ from hstart] at hl
    cases hl
  · intro tr s e s' _ hwaits hstep
    exact hwaits.step hstep.1 hstep.2

/-- **No job is started after its deadline** in a run in which no deadline passes while its job
waits for a slot: the job of a handler that is started is before its deadline, at the worker's
estimate of the server clock; and from a job past its deadline at the head of the batch the loop
goes nowhere but to its `XACK` and `XDEL`, or out. -/
theorem started_before_deadline (h : ((timed cfg w).within (InTime w)).Run tr s)
    (hstep : TimedStep cfg w s e s') :
    (∀ entry, e = .event (.act w (.start entry)) → ∃ job, s'.job = some job ∧
      (s'.world.workers w).tasks =
        (s.world.workers w).tasks ++ [⟨entry, job.id, false, .handler, none⟩] ∧
      ∀ deadline, job.deadline = some deadline → s.estimate < deadline) ∧
    (∀ l l' entry fields rest job, (s.world.workers w).lead = some l →
      l.pc = .batch ((some entry, some fields) :: rest) →
      decode cfg.python fields = some job → job.Expired s.estimate →
      (s'.world.workers w).lead = some l' →
      l'.pc = l.pc ∨ l'.pc = .acking entry true rest ∨ l'.pc = .releasing) := by
  have hwaits := waits_of_run h
  have hserial := serial_of_run (run_of_timed (System.Run.of_within h)) w
  have hact {note : Note W} {world : World W} (hstep : Step cfg s.world (.act w note) world) :
      WorkerStep cfg w (s.world.workers w) note (world.workers w) := by
    cases hstep with
    | act _ _ k halive hown => simpa only [Function.update_self] using hown
  refine ⟨?_, ?_⟩
  · rintro entry rfl
    cases hstep with
    | other e world hother hstep => exact absurd rfl (hother _)
    | act note world hstep htimely =>
      obtain ⟨l, jobId, rest, hl, hk, ⟨job, hdecoded, rfl⟩ | ⟨hnone, hpc⟩⟩ := (hact hstep).starting
      · refine ⟨job, by rw [hdecoded]; rfl, by rw [hk]; rfl, ?_⟩
        exact Job.not_expired_iff.mp (htimely.started entry job rfl hdecoded)
      · obtain ⟨job, hjob, rfl, hin⟩ := hwaits l entry jobId rest hl hpc
        refine ⟨job, by rw [hnone]; exact hjob, by rw [hk]; rfl, ?_⟩
        exact Job.not_expired_iff.mp hin
  · intro l l' entry fields rest job hl hpc hjob hexpired hl'
    cases hstep with
    | tick | measure =>
      obtain rfl := Option.some.inj (hl.symm.trans hl')
      exact Or.inl rfl
    | other e world hother hstep =>
      obtain ⟨l₀, hl₀, hsame⟩ := hstep.pc_of_other hother hl'
      obtain rfl := Option.some.inj (hl.symm.trans hl₀)
      exact Or.inl hsame
    | act note world hstep htimely =>
      exact (hact hstep).expired hserial hl hpc hjob hexpired htimely hl'

end Run

section Steps

variable {s : Timed W π}

/-- A segment in which no job is decoded may run at any time. -/
theorem TimedStep.segment {note : Note W} {k : Worker W}
    (halive : (s.world.workers w).alive = true) (hnone : (s.world.workers w).decoded cfg = none)
    (hstep : WorkerStep cfg w (s.world.workers w) note k) :
    TimedStep cfg w s (.event (.act w note))
      { s with
        world := { s.world with
          workers := Function.update s.world.workers w k
          stray := note.lost.map (w, ·) ++ s.world.stray }
        job := ((s.world.workers w).decoded cfg).or s.job } :=
  .act _ _ (.act w _ _ halive hstep) (timely_of_none hnone)

/-- So may a command that is in flight. -/
theorem TimedStep.execute (w' : W) (co : Co) {cmd : Command W}
    (hcmd : (s.world.workers w').command co = some cmd) :
    TimedStep cfg w s (.event (.exec w' co cmd))
      { s with
        world := { s.world with
          server := (exec cfg w' s.world.server cmd).1
          workers := Function.update s.world.workers w'
            ((s.world.workers w').answer (exec cfg w' s.world.server cmd).2 co) } } :=
  .other _ _ (by simp) (.exec w' co _ hcmd)

end Steps

/-! ## A worker with one slot -/

section OneSlot

/-- One handler at a time. Of the numbers, the parser reads `2000` and `0`. -/
def oneSlot : Config ℕ Unit where
  python := ⟨fun _ => some (), fun text => if text = "2000" then some 2000 else some 0⟩
  reclaimIdle := 1000
  maxAdmitted _ := some 1
  drops := true

/-- A job whose deadline is two seconds after the epoch. -/
def bounded : Fields := [("id", "k"), ("payload", "{}"), ("created", "0"), ("deadline", "2000")]

/-- A job with a deadline of two seconds. -/
def boundedJob : Job Unit := ⟨"k", (), 0, some 2⟩

/-- Its entry decodes to it. -/
theorem decode_bounded : decode oneSlot.python bounded = some boundedJob := by
  simp [decode, field, oneSlot, bounded, boundedJob, List.lookup_cons]
  norm_num

/-- The entry of the job that takes the one slot. -/
theorem decode_ping_oneSlot : decode oneSlot.python ping = some ⟨"j", (), 0, none⟩ := by
  simp [decode, field, oneSlot, ping, List.lookup_cons]

/-- A job that waits for a slot for one second of its two. Worker `0` has one slot, and its handler
is admitted and busy with entry `1`; entry `2` is read and waits; one second passes; the first
handler finishes; and entry `2` is started before its deadline. -/
theorem started_before_deadline_after_wait : ∃ s s' : Timed ℕ Unit,
    ((timed oneSlot 0).within (InTime 0)).Run
      [.event (.act 0 .quiet), .event (.exec 0 (.task 0) (.finish "j" 1)), .event (.act 0 .quiet),
        .tick 1, .event (.act 0 .quiet), .event (.act 0 .quiet), .event (.exec 0 .lead .readNew),
        .event (.append 2 bounded), .event (.act 0 .quiet), .event (.act 0 .quiet),
        .event (.act 0 .quiet), .event (.act 0 .quiet), .event (.act 0 (.start 1)),
        .event (.act 0 .quiet), .event (.act 0 .quiet), .event (.exec 0 .lead .readNew),
        .event (.append 1 ping), .event (.act 0 .quiet), .event (.act 0 .quiet),
        .event (.exec 0 .lead .ensureGroup), .event (.act 0 .quiet),
        .event (.exec 0 .run (.acquire 0)), .event (.act 0 .quiet)] s ∧
    TimedStep oneSlot 0 s (.event (.act 0 (.start 2))) s' ∧ s.estimate = 1 ∧
    ∃ job, s'.job = some job ∧
      ∀ deadline, job.deadline = some deadline → s.estimate < deadline := by
  have hin {now : ℚ} (hnow : now < 2) : ¬ boundedJob.Expired now := by
    rw [Job.not_expired_iff]
    intro deadline heq
    obtain rfl := Option.some.inj heq
    exact hnow
  have hidle {s s' : Timed ℕ Unit} {e : TimedEvent ℕ} (hpc : ¬ (s.world.workers 0).Capping) :
      InTime 0 s e s' := by
    intro job hcapping
    exact absurd hcapping hpc
  -- entry `1` waits for its slot without a deadline, entry `2` with one
  have hopen {s s' : Timed ℕ Unit} {e : TimedEvent ℕ}
      (hjob : s.job = some (⟨"j", (), 0, none⟩ : Job Unit)) : InTime 0 s e s' := by
    intro job _ heq
    obtain rfl := Option.some.inj (hjob.symm.trans heq)
    rw [Job.not_expired_iff]
    simp
  have hwaits {s s' : Timed ℕ Unit} {e : TimedEvent ℕ} (hjob : s.job = some boundedJob)
      (hbefore : s'.estimate < 2) : InTime 0 s e s' := by
    intro job _ heq
    obtain rfl := Option.some.inj (hjob.symm.trans heq)
    exact hin hbefore
  have hconclude {tr : List (TimedEvent ℕ)} {s s' : Timed ℕ Unit}
      (h : ((timed oneSlot 0).within (InTime 0)).Run tr s) (hestimate : s.estimate = 1)
      (hstep : TimedStep oneSlot 0 s (.event (.act 0 (.start 2))) s') :
      ∃ s s' : Timed ℕ Unit, ((timed oneSlot 0).within (InTime 0)).Run tr s ∧
        TimedStep oneSlot 0 s (.event (.act 0 (.start 2))) s' ∧ s.estimate = 1 ∧
        ∃ job, s'.job = some job ∧
          ∀ deadline, job.deadline = some deadline → s.estimate < deadline := by
    obtain ⟨job, hjob, -, hin⟩ := (started_before_deadline h hstep).1 2 rfl
    exact ⟨s, s', h, hstep, hestimate, job, hjob, hin⟩
  have h : ((timed oneSlot 0).within (InTime 0)).Run []
      (⟨⟨.initial, fun _ => .initial, []⟩, 0, 0, none⟩ : Timed ℕ Unit) := .start ⟨rfl, rfl, rfl⟩
  have h := h.step ⟨hidle (by rintro ⟨_, _, _, _, ⟨⟩, ⟨⟩⟩),
    TimedStep.segment rfl rfl (.run (.ask rfl rfl))⟩
  have h := h.step ⟨hidle (by rintro ⟨_, _, _, _, ⟨⟩, ⟨⟩⟩), TimedStep.execute 0 .run rfl⟩
  have h := h.step ⟨hidle (by rintro ⟨_, _, _, _, ⟨⟩, ⟨⟩⟩),
    TimedStep.segment rfl rfl (.run (.won 0 rfl))⟩
  have h := h.step ⟨hidle (by rintro ⟨_, _, _, _, ⟨⟩, ⟨⟩⟩), TimedStep.execute 0 .lead rfl⟩
  have h := h.step ⟨hidle (by rintro ⟨_, _, _, _, ⟨⟩, ⟨⟩⟩),
    TimedStep.segment rfl rfl (.lead rfl (.ensured .top _ rfl rfl))⟩
  have h := h.step ⟨hidle (by rintro ⟨_, _, _, _, ⟨⟩, ⟨⟩⟩),
    TimedStep.segment rfl rfl (.lead rfl (.skip rfl rfl rfl rfl))⟩
  -- entry `1` has no deadline and takes the slot
  have h := h.step ⟨hidle (by rintro ⟨_, _, _, _, ⟨⟩, ⟨⟩⟩),
    TimedStep.other _ _ (by simp) (Step.append 1 ping (by decide))⟩
  have h := h.step ⟨hidle (by rintro ⟨_, _, _, _, ⟨⟩, ⟨⟩⟩), TimedStep.execute 0 .lead rfl⟩
  have h := h.step ⟨hidle (by rintro ⟨_, _, _, _, ⟨⟩, ⟨⟩⟩),
    TimedStep.segment rfl rfl (.lead rfl (.read [(some 1, some ping)] rfl rfl))⟩
  have hfirst : ¬ Job.Expired (⟨"j", (), 0, none⟩ : Job Unit) (0 + 0) := by
    rw [Job.not_expired_iff]
    simp
  have h := h.step ⟨hidle (by rintro ⟨_, _, _, _, ⟨⟩, ⟨⟩⟩), TimedStep.act _ _
    (Step.act 0 _ _ rfl (.lead rfl
      (.cap 1 ping [] _ 1 rfl (by simp [ping]) decode_ping_oneSlot rfl)))
    (timely_of_some decode_ping_oneSlot hfirst (by simp))⟩
  have h := h.step ⟨hopen (congrArg (Option.or · none) decode_ping_oneSlot),
    TimedStep.segment rfl rfl (.lead rfl (.startCapped 1 "j" [] 1 rfl rfl (by decide)))⟩
  have h := h.step ⟨hidle (by rintro ⟨_, _, _, _, ⟨⟩, ⟨⟩⟩),
    TimedStep.segment rfl rfl (.task (t := 0) rfl .admits)⟩
  have h := h.step ⟨hidle (by rintro ⟨_, _, _, _, ⟨⟩, ⟨⟩⟩), TimedStep.segment rfl rfl (.lead rfl
    (.settled 0 ⟨1, "j", true, .handler, none⟩ [] rfl rfl (Or.inl rfl)
      (by simp [Task.GoesBack])))⟩
  have h := h.step ⟨hidle (by rintro ⟨_, _, _, _, ⟨⟩, ⟨⟩⟩),
    TimedStep.segment rfl rfl (.lead rfl (.batchDone rfl))⟩
  have h := h.step ⟨hidle (by rintro ⟨_, _, _, _, ⟨⟩, ⟨⟩⟩),
    TimedStep.segment rfl rfl (.lead rfl (.skip rfl rfl rfl rfl))⟩
  -- entry `2` is in time when it is decoded, and waits for the slot
  have h := h.step ⟨hidle (by rintro ⟨_, _, _, _, ⟨⟩, ⟨⟩⟩),
    TimedStep.other _ _ (by simp) (Step.append 2 bounded (by decide))⟩
  have h := h.step ⟨hidle (by rintro ⟨_, _, _, _, ⟨⟩, ⟨⟩⟩), TimedStep.execute 0 .lead rfl⟩
  have h := h.step ⟨hidle (by rintro ⟨_, _, _, _, ⟨⟩, ⟨⟩⟩),
    TimedStep.segment rfl rfl (.lead rfl (.read [(some 2, some bounded)] rfl rfl))⟩
  have h := h.step ⟨hidle (by rintro ⟨_, _, _, _, ⟨⟩, ⟨⟩⟩), TimedStep.act _ _
    (Step.act 0 _ _ rfl (.lead rfl
      (.cap 2 bounded [] boundedJob 1 rfl (by simp [bounded]) decode_bounded rfl)))
    (timely_of_some decode_bounded (hin (by norm_num [Timed.estimate])) (by simp))⟩
  -- one second passes in the loop that waits, and the slot becomes free
  have hjob := congrArg (Option.or · ((decode oneSlot.python ping).or none)) decode_bounded
  have h := h.step ⟨hwaits hjob (by norm_num [Timed.estimate]), TimedStep.tick 1⟩
  have h := h.step ⟨hwaits hjob (by norm_num [Timed.estimate]),
    TimedStep.segment rfl rfl (.task (t := 0) rfl (.finish rfl))⟩
  have h := h.step ⟨hwaits hjob (by norm_num [Timed.estimate]), TimedStep.execute 0 (.task 0) rfl⟩
  have h := h.step ⟨hwaits hjob (by norm_num [Timed.estimate]),
    TimedStep.segment rfl rfl (.task (t := 0) rfl (.finished _ rfl rfl))⟩
  exact hconclude h (add_zero 1) (TimedStep.act _ _ (Step.act 0 (.start 2) _ rfl
    (.lead rfl (.startCapped 2 "k" [] 1 rfl rfl (by decide)))) (timely_of_none rfl))

/-- **Started too late.** Worker `0` has one slot, and its handler is admitted and busy with entry
`1`. Entry `2` is read in time and waits for the slot; its deadline passes; the first handler
finishes; and entry `2` is started one second after its deadline. -/
theorem started_after_deadline : ∃ s s' : Timed ℕ Unit,
    (timed oneSlot 0).Run
      [.event (.act 0 .quiet), .event (.exec 0 (.task 0) (.finish "j" 1)), .event (.act 0 .quiet),
        .tick 3, .event (.act 0 .quiet), .event (.act 0 .quiet), .event (.exec 0 .lead .readNew),
        .event (.append 2 bounded), .event (.act 0 .quiet), .event (.act 0 .quiet),
        .event (.act 0 .quiet), .event (.act 0 .quiet), .event (.act 0 (.start 1)),
        .event (.act 0 .quiet), .event (.act 0 .quiet), .event (.exec 0 .lead .readNew),
        .event (.append 1 ping), .event (.act 0 .quiet), .event (.act 0 .quiet),
        .event (.exec 0 .lead .ensureGroup), .event (.act 0 .quiet),
        .event (.exec 0 .run (.acquire 0)), .event (.act 0 .quiet)] s ∧
    TimedStep oneSlot 0 s (.event (.act 0 (.start 2))) s' ∧
    s'.job = some boundedJob ∧ boundedJob.deadline = some 2 ∧ s.estimate = 3 := by
  have h : (timed oneSlot 0).Run []
      (⟨⟨.initial, fun _ => .initial, []⟩, 0, 0, none⟩ : Timed ℕ Unit) := .start ⟨rfl, rfl, rfl⟩
  have h := h.step (TimedStep.segment rfl rfl (.run (.ask rfl rfl)))
  have h := h.step (TimedStep.execute 0 .run rfl)
  have h := h.step (TimedStep.segment rfl rfl (.run (.won 0 rfl)))
  have h := h.step (TimedStep.execute 0 .lead rfl)
  have h := h.step (TimedStep.segment rfl rfl (.lead rfl (.ensured .top _ rfl rfl)))
  have h := h.step (TimedStep.segment rfl rfl (.lead rfl (.skip rfl rfl rfl rfl)))
  -- entry `1` has no deadline and takes the slot
  have h := h.step (TimedStep.other _ _ (by simp) (Step.append 1 ping (by decide)))
  have h := h.step (TimedStep.execute 0 .lead rfl)
  have h := h.step (TimedStep.segment rfl rfl (.lead rfl (.read [(some 1, some ping)] rfl rfl)))
  have hfirst : ¬ Job.Expired (⟨"j", (), 0, none⟩ : Job Unit) (0 + 0) := by
    rw [Job.not_expired_iff]
    simp
  have h := h.step (TimedStep.act _ _
    (Step.act 0 _ _ rfl (.lead rfl
      (.cap 1 ping [] _ 1 rfl (by simp [ping]) decode_ping_oneSlot rfl)))
    (timely_of_some decode_ping_oneSlot hfirst (by simp)))
  have h := h.step
    (TimedStep.segment rfl rfl (.lead rfl (.startCapped 1 "j" [] 1 rfl rfl (by decide))))
  have h := h.step (TimedStep.segment rfl rfl (.task (t := 0) rfl .admits))
  have h := h.step (TimedStep.segment rfl rfl (.lead rfl
    (.settled 0 ⟨1, "j", true, .handler, none⟩ [] rfl rfl (Or.inl rfl)
      (by simp [Task.GoesBack]))))
  have h := h.step (TimedStep.segment rfl rfl (.lead rfl (.batchDone rfl)))
  have h := h.step (TimedStep.segment rfl rfl (.lead rfl (.skip rfl rfl rfl rfl)))
  -- entry `2` is in time when it is decoded
  have h := h.step (TimedStep.other _ _ (by simp) (Step.append 2 bounded (by decide)))
  have h := h.step (TimedStep.execute 0 .lead rfl)
  have h := h.step (TimedStep.segment rfl rfl (.lead rfl (.read [(some 2, some bounded)] rfl rfl)))
  have hsecond : ¬ boundedJob.Expired (0 + 0) := by
    rw [Job.not_expired_iff]
    intro deadline heq
    obtain rfl := Option.some.inj heq
    norm_num
  have h := h.step (TimedStep.act _ _
    (Step.act 0 _ _ rfl (.lead rfl
      (.cap 2 bounded [] boundedJob 1 rfl (by simp [bounded]) decode_bounded rfl)))
    (timely_of_some decode_bounded hsecond (by simp)))
  -- its deadline passes while the handler of entry `1` keeps the slot
  have h := h.step (TimedStep.tick 3)
  have h := h.step (TimedStep.segment rfl rfl (.task (t := 0) rfl (.finish rfl)))
  have h := h.step (TimedStep.execute 0 (.task 0) rfl)
  have h := h.step (TimedStep.segment rfl rfl (.task (t := 0) rfl (.finished _ rfl rfl)))
  refine ⟨_, _, h, TimedStep.act _ _ (Step.act 0 (.start 2) _ rfl
    (.lead rfl (.startCapped 2 "k" [] 1 rfl rfl (by decide)))) (timely_of_none rfl), ?_, rfl, ?_⟩
  swap
  · exact add_zero 3
  show (decode oneSlot.python bounded).or ((decode oneSlot.python ping).or none) = some boundedJob
  rw [decode_bounded]
  rfl

end OneSlot

end RedisSemaphore.Dispatch

import RedisSemaphore.Dispatch.Once

/-!
# A hand-back and what it gives up

`_hand_back` takes its entries out of `_taken` and then awaits the claim lock and an `XCLAIM` that
makes them look idle for `reclaim_idle`. Until that has executed they are pending at this worker and
not taken, which is just what `_backlog` looks for.

The lead loop waits for its own hand-backs, and for those of a requeue before admission. A requeue
after admission runs beside it. `hand_back_released` says that this is where a job can be made
reclaimable while its worker runs it: where the lead loop takes no batch with an entry that is being
requeued, every hand-back takes effect on entries that are neither taken nor worked on.
-/

namespace RedisSemaphore.Dispatch

open Redis Transition

variable {W : Type*} {π : Type} {cfg : Config W π}

/-! ## One worker -/

/-- A requeue of the entry is in its hand-back. -/
def Worker.Requeues (k : Worker W) (id : ℕ) : Prop :=
  ∃ (t : ℕ) (task : Task W) (locked : Bool),
    k.tasks[t]? = some task ∧ task.entry = id ∧ task.phase = .handing locked

/-- The entries of a lead loop's hand-back are not taken. -/
def Worker.LeadFrees (k : Worker W) : Prop :=
  ∀ l entries locked next, k.lead = some l → l.pc = .handing entries locked next →
    ∀ id ∈ entries, id ∉ k.taken

/-- Nothing that is being handed back is taken. -/
structure Worker.Frees (k : Worker W) : Prop where
  lead : k.LeadFrees
  tasks : ∀ id, k.Requeues id → id ∉ k.taken

section Worker

variable {w : W} {k k₁ k' : Worker W} {l : Lead W} {note : Note W} {id : ℕ}

/-- A program counter that hands back frees its entries as soon as they are out of `_taken`. -/
theorem leadFrees_leadTo {pc : LeadPc W}
    (hpc : ∀ entries locked next, pc = .handing entries locked next →
      ∀ id ∈ entries, id ∉ k.taken) : (k.leadTo l pc).LeadFrees := by
  intro l' entries locked next hl'
  obtain rfl := Option.some.inj hl'
  exact hpc entries locked next

/-- The way out of a lead loop takes the rest of the batch out of `_taken`. -/
theorem taken_exit {rest : List Delivery} : (k.exit l rest).taken = k.taken \ ids rest := by
  unfold Worker.exit
  split <;> rfl

/-- The way out begins no hand-back of its own: it releases the claim mutex. -/
theorem leadFrees_exit {rest : List Delivery} : (k.exit l rest).LeadFrees := by
  unfold Worker.exit
  split
  · apply leadFrees_leadTo
    intro entries locked next hpc
    cases hpc
  · intro l' entries locked next hl'
    cases hl'

/-- The hand-back of one entry begins with that entry taken out. -/
theorem leadFrees_handOne {entry : ℕ} {next : Next} : (k.handOne l entry next).LeadFrees := by
  apply leadFrees_leadTo
  intro entries locked next' hpc id hid
  obtain ⟨rfl, -, -⟩ := LeadPc.handing.inj hpc
  obtain rfl := Finset.mem_singleton.mp hid
  exact Finset.notMem_erase _ _

/-- The hand-back of the rest begins with the rest taken out. -/
theorem leadFrees_goOn {next : Next} : (k.goOn l next).LeadFrees := by
  cases next with
  | exit rest => exact leadFrees_exit
  -- `_hand_back` has subtracted the rest from `_taken` before it awaits the lock
  | handRest rest =>
    rw [Worker.goOn, Worker.handRest]
    split
    · exact leadFrees_exit
    · apply leadFrees_leadTo
      intro entries locked next' hpc id hid
      obtain ⟨rfl, -, -⟩ := LeadPc.handing.inj hpc
      exact fun hmem => (Finset.mem_sdiff.mp hmem).2 hid

/-- After a hand-back nothing is taken that was not taken before. -/
theorem taken_goOn {next : Next} : (k.goOn l next).taken ⊆ k.taken := by
  cases next with
  | exit rest =>
    show (k.exit l rest).taken ⊆ k.taken
    rw [taken_exit]
    exact Finset.sdiff_subset
  | handRest rest =>
    rw [Worker.goOn, Worker.handRest]
    split
    · rw [taken_exit]
      exact Finset.sdiff_subset
    · exact Finset.sdiff_subset

/-- What a page found is read, not handed back. -/
theorem leadFrees_reclaimed {found : List Delivery} : (k.reclaimed l found).LeadFrees := by
  unfold Worker.reclaimed
  split <;>
  · apply leadFrees_leadTo
    intro entries locked next hpc
    cases hpc

variable [DecidableEq W]

/-- A lead loop takes the entries of a hand-back out of `_taken` when it begins it. -/
theorem LeadStep.frees (hlead : k.lead = some l) (h : LeadStep cfg w k l note k')
    (hk : k.LeadFrees) : k'.LeadFrees := by
  -- a program counter that is no hand-back frees nothing
  have hother {k₁ : Worker W} {l₁ : Lead W} {pc : LeadPc W}
      (hpc : ∀ entries locked next, pc ≠ .handing entries locked next) :
      (k₁.leadTo l₁ pc).LeadFrees := by
    apply leadFrees_leadTo
    intro entries locked next heq
    exact absurd heq (hpc entries locked next)
  cases h with
  | ensured ret r hpc hreply => cases ret <;> exact hother (by simp)
  | leave | waitCancelled | unwound | handCancelled | failed => exact leadFrees_exit
  | claimed | inspectedNone => exact leadFrees_reclaimed
  | inspected found infos hpc hreply =>
    generalize deadConsumers cfg w infos = dead
    cases dead with
    | nil => exact leadFrees_reclaimed
    | cons name dead => exact hother (by simp)
  | pruned name dead found r hpc hreply =>
    cases dead with
    | nil => exact leadFrees_reclaimed
    | cons name dead => exact hother (by simp)
  | collected snapshot found hpc hreply =>
    unfold Worker.collected
    split <;> exact hother (by simp)
  | capLeft | cancelled | abandonedBack => exact leadFrees_handOne
  | abandoned | handed | handFailed => exact leadFrees_goOn
  -- the entries were freed when the hand-back began, before it waited for the lock
  | locked entries next hpc hfree =>
    apply leadFrees_leadTo
    intro entries' locked' next' heq id hid
    obtain ⟨rfl, -, -⟩ := LeadPc.handing.inj heq
    exact hk l entries false next hlead hpc id hid
  | released | releaseFailed =>
    intro l' entries locked next hl'
    cases hl'
  | _ => exact hother (by simp)

omit [DecidableEq W] in
/-- A task begins its hand-back by taking its entry out of `_taken`. -/
theorem TaskStep.requeues {t : ℕ} {task : Task W} (htask : k.tasks[t]? = some task)
    (h : TaskStep k t task note k') (hid : k'.Requeues id) : k.Requeues id ∨ id ∉ k'.taken := by
  obtain ⟨t₁, task₁, locked, htask₁, rfl, hphase₁⟩ := hid
  have hset {k₁ : Worker W} {task' : Task W} (htasks : k₁.tasks = k.tasks)
      (htask₁ : (k₁.setTask t task').tasks[t₁]? = some task₁) :
      task₁ = task' ∨ k.Requeues task₁.entry := by
    rcases Worker.getElem?_setTask htask₁ with ⟨-, heq⟩ | ⟨-, hsame⟩
    · exact Or.inl heq
    · exact Or.inr ⟨t₁, task₁, locked, htasks ▸ hsame, rfl, hphase₁⟩
  cases h with
  | admits =>
    rcases hset rfl htask₁ with rfl | hold
    · exact Or.inl ⟨t, task, locked, htask, rfl, hphase₁⟩
    · exact Or.inl hold
  -- the delay is over: this is the segment that begins the hand-back
  | delayed hphase =>
    rcases hset rfl htask₁ with rfl | hold
    · exact Or.inr (Finset.notMem_erase _ _)
    · exact Or.inl hold
  | locked hphase hfree =>
    rcases hset rfl htask₁ with rfl | hold
    · exact Or.inl ⟨t, task, false, htask, rfl, hphase⟩
    · exact Or.inl hold
  | _ =>
    rcases hset rfl htask₁ with rfl | hold
    · cases hphase₁
    · exact Or.inl hold

/-- A worker that takes nothing it is requeueing hands back only what it does not hold. -/
theorem Worker.Frees.step (hk : k.Frees) (h : WorkerStep cfg w k note k')
    (htakes : ∀ id ∈ k'.taken, id ∉ k.taken → ¬ k.Requeues id) : k'.Frees := by
  have hold {id : ℕ} (hid : k.Requeues id) : id ∉ k'.taken := by
    intro hmem
    exact htakes id hmem (hk.tasks id hid) hid
  cases h with
  -- a lead step can take a batch, which is where `htakes` is needed for the requeues
  | @lead l _ _ hlead hstep =>
    refine ⟨hstep.frees hlead hk.lead, ?_⟩
    intro id hid
    apply hold
    rcases hstep.frame hlead with ⟨entry, jobId, rest, -, rfl⟩ | hframe
    · obtain ⟨t, task, locked, htask, hentry, hphase⟩ := hid
      rcases Worker.getElem?_start htask with hsame | ⟨-, rfl⟩
      · exact ⟨t, task, locked, hsame, hentry, hphase⟩
      · cases hphase
    · obtain ⟨t, task, locked, htask, hentry, hphase⟩ := hid
      exact ⟨t, task, locked, hframe.tasks ▸ htask, hentry, hphase⟩
  | @task t task _ _ htask hstep =>
    refine ⟨?_, fun id hid => (hstep.requeues htask hid).elim hold fun hnot => hnot⟩
    intro l entries locked next hl hpc id hid hmem
    refine hk.lead l entries locked next (hstep.frame.lead.symm.trans hl) hpc id hid ?_
    cases hstep <;> first
      | exact hmem
      | exact Finset.mem_of_mem_erase hmem
  | run hstep =>
    cases hstep with
    | won mutex hasking =>
      refine ⟨?_, hk.tasks⟩
      intro l entries locked next hl hpc
      obtain rfl := Option.some.inj hl
      cases hpc
    | loseMutex l₀ hlead =>
      refine ⟨?_, hk.tasks⟩
      intro l entries locked next hl hpc
      obtain rfl := Option.some.inj hl
      exact hk.lead l₀ entries locked next hlead hpc
    | clear hlead hidle htasks htouch =>
      exact ⟨fun _ _ _ _ _ _ id _ => Finset.notMem_empty id, fun id _ => Finset.notMem_empty id⟩
    | _ => exact ⟨hk.lead, hk.tasks⟩
  | touch hstep => cases hstep <;> exact ⟨hk.lead, hk.tasks⟩

omit [DecidableEq W] in
/-- A reply moves no program counter and touches no `_taken`. -/
theorem Worker.Frees.answer {r : Reply W} {co : Co} (hk : k.Frees) : (k.answer r co).Frees := by
  refine ⟨?_, ?_⟩
  · intro l' entries locked next hl' hpc' id hid
    obtain ⟨l, hl, hpc⟩ := Worker.pc_of_answer hl'
    rw [Worker.answer_taken]
    exact hk.lead l entries locked next hl (hpc.symm.trans hpc') id hid
  · rintro id ⟨t, task', locked, htask', hentry', hphase'⟩
    obtain ⟨task, htask, hentry, hphase⟩ := Worker.phase_of_answer htask'
    rw [Worker.answer_taken]
    exact hk.tasks id
      ⟨t, task, locked, htask, hentry.symm.trans hentry', hphase.symm.trans hphase'⟩

omit [DecidableEq W] in
/-- The entries of a hand-back in flight are not taken. -/
theorem Worker.Frees.command (hk : k.Frees) {co : Co} {entries : Finset ℕ}
    (hcmd : k.command co = some (.handBack entries)) : ∀ id ∈ entries, id ∉ k.taken := by
  cases co with
  | lead =>
    obtain ⟨l, hl, hlcmd⟩ := Option.bind_eq_some_iff.mp hcmd
    unfold Lead.command at hlcmd
    split at hlcmd <;> cases hlcmd
    rename_i next hpc
    exact hk.lead l entries true next hl hpc
  | task t =>
    obtain ⟨task, htask, htcmd⟩ := Option.bind_eq_some_iff.mp hcmd
    unfold Task.command at htcmd
    split at htcmd <;> cases htcmd
    rename_i hphase
    intro id hid
    obtain rfl := Finset.mem_singleton.mp hid
    exact hk.tasks _ ⟨t, task, true, htask, rfl, hphase⟩
  | run =>
    rw [Worker.command] at hcmd
    split at hcmd <;> cases hcmd
  | touch =>
    rw [Worker.command] at hcmd
    split at hcmd <;> cases hcmd

/-- A coroutine that gives up a command takes nothing. -/
theorem WorkerStep.taken_of_lost (h : WorkerStep cfg w k note k') {cmd : Command W}
    (hcmd : cmd ∈ note.lost) : k'.taken ⊆ k.taken := by
  cases h with
  | @lead l _ _ hlead hstep =>
    cases hstep with
    | handFailed entries next hpc => exact taken_goOn
    | handCancelled entries locked next hpc =>
      rw [taken_exit]
      exact Finset.sdiff_subset
    | failed rest hpc =>
      rw [taken_exit]
      exact Finset.sdiff_subset
    | releaseFailed hpc => exact subset_rfl
    | _ => cases hcmd
  | task htask hstep =>
    cases hstep with
    | finishFailed cancelled hphase => exact Finset.erase_subset _ _
    | handFailed hphase => exact subset_rfl
    | handCancelled locked hphase => exact subset_rfl
    | _ => cases hcmd
  | run hstep =>
    cases hstep with
    | askFailed mutex reply hasking => exact subset_rfl
    | _ => cases hcmd
  | touch hstep =>
    cases hstep with
    | failed entries reply hclaiming => exact subset_rfl
    | _ => cases hcmd

end Worker

/-! ## Runs -/

/-- The worker `w` takes no entry while a hand-back of it may still take effect: no requeue of it is
in its hand-back, and none that `w` gave up is among the `lates`, the ones that execute later. -/
structure Patient (lates : Set (Finset ℕ)) (w : W) (s : World W) (e : Event W) (s' : World W) :
    Prop where
  requeues : ∀ id ∈ (s'.workers w).taken, id ∉ (s.workers w).taken → ¬ (s.workers w).Requeues id
  given : ∀ id ∈ (s'.workers w).taken, id ∉ (s.workers w).taken →
    ∀ entries ∈ lates, (w, .handBack entries) ∈ s.stray → id ∉ entries
  late : ∀ entries, e = .late w (.handBack entries) → entries ∈ lates

/-- What `w` hands back, or has given up handing back, is not taken. -/
structure Released (lates : Set (Finset ℕ)) (w : W) (s : World W) : Prop where
  worker : (s.workers w).Frees
  stray : ∀ entries ∈ lates, (w, .handBack entries) ∈ s.stray →
    ∀ id ∈ entries, id ∉ (s.workers w).taken

section Run

variable [DecidableEq W] {lates : Set (Finset ℕ)} {tr : List (Event W)} {s s' : World W}
  {e : Event W} {w : W}

/-- One step of the system. A hand-back can be sent by its coroutine, can be given up by it and
become stray, or can be under way while the worker moves on; in each case `Patient` keeps the
entry from being taken again before it has executed. -/
theorem Released.step (h : Released lates w s) (hok : Patient lates w s e s')
    (hstep : Step cfg s e s') : Released lates w s' := by
  have hdead : (Worker.dead : Worker W).Frees := by
    refine ⟨?_, ?_⟩
    · intro l entries locked next hl
      cases hl
    · intro id _
      exact Finset.notMem_empty id
  refine ⟨?_, ?_⟩
  · refine hstep.worker h.worker (fun r co => h.worker.answer) ?_ hdead
    rintro note k rfl hk hown
    apply h.worker.step hown
    rw [← hk]
    exact hok.requeues
  · intro entries hlate hstray id hid hmem
    cases hstep with
    | append | advance | expire => exact h.stray entries hlate hstray id hid hmem
    | late w' cmd hcmd => exact h.stray entries hlate hstray id hid hmem
    | exec w' co cmd hcmd =>
      refine h.stray entries hlate hstray id hid ?_
      by_cases heq : w = w'
      · subst heq
        simpa only [Function.update_self, Worker.answer_taken] using hmem
      · simpa only [Function.update_of_ne heq] using hmem
    -- a stray hand-back of `w` is new, given up by this segment, or an old one
    | act w' note k halive hown =>
      by_cases heq : w = w'
      · subst heq
        have hold : id ∉ (s.workers w).taken := by
          rcases List.mem_append.mp hstray with hnew | hstray
          · obtain ⟨cmd, hcmd, heq⟩ := List.mem_map.mp hnew
            obtain ⟨-, rfl⟩ := Prod.mk.inj heq
            obtain ⟨co, hco⟩ := hown.command_of_lost hcmd
            exact h.worker.command hco id hid
          · exact h.stray entries hlate hstray id hid
        rcases List.mem_append.mp hstray with hnew | hstray
        · obtain ⟨cmd, hcmd, -⟩ := List.mem_map.mp hnew
          simp only [Function.update_self] at hmem
          exact hold (hown.taken_of_lost hcmd hmem)
        · exact hok.given id hmem hold entries hlate hstray hid
      · simp only [Function.update_of_ne heq] at hmem
        exact h.stray entries hlate (mem_stray_of_ne heq hstray) id hid hmem
    | crash w' =>
      by_cases heq : w = w'
      · subst heq
        simp only [Function.update_self] at hmem
        exact absurd hmem (Finset.notMem_empty id)
      · simp only [Function.update_of_ne heq] at hmem
        exact h.stray entries hlate (mem_stray_of_ne heq hstray) id hid hmem

/-- In a patient run every hand-back is of entries that are not taken, whether it is in flight or
stray. -/
theorem released_of_run (h : ((system cfg).within (Patient lates w)).Run tr s) :
    Released lates w s := by
  refine System.Run.invariant (I := fun _ s => Released lates w s) ?_ ?_ h
  · rintro s rfl
    refine ⟨⟨?_, ?_⟩, ?_⟩
    · intro l entries locked next hl
      cases hl
    · intro id _
      exact Finset.notMem_empty id
    · intro entries _ hstray
      cases hstray
  · intro tr s e s' _ hreleased hstep
    exact hreleased.step hstep.1 hstep.2

/-- **A hand-back gives up what nobody here holds**, in a run in which the worker takes no entry
that it is still requeueing: when the `XCLAIM` takes effect, none of its entries is taken and no
handler, finish or delay of this worker is running for one. -/
theorem hand_back_released (h : ((system cfg).within (Patient lates w)).Run tr s)
    (hok : Patient lates w s e s') (hstep : Step cfg s e s') {entries : Finset ℕ}
    (hexec : e.executes = some (w, .handBack entries)) :
    ∀ id ∈ entries, id ∉ (s.workers w).taken ∧ ¬ (s.workers w).Works id := by
  have hreleased := released_of_run h
  have honce := onceAt_of_run (w := w) (System.Run.of_within h)
  intro id hid
  have hfree : id ∉ (s.workers w).taken := by
    cases hstep with
    | append | advance | expire | act | crash => cases hexec
    -- sent by its own coroutine, or given up and executed late
    | exec w' co cmd hcmd =>
      obtain ⟨rfl, rfl⟩ := Prod.mk.inj (Option.some.inj hexec)
      exact hreleased.worker.command hcmd id hid
    | late w' cmd hstray =>
      obtain ⟨rfl, rfl⟩ := Prod.mk.inj (Option.some.inj hexec)
      exact hreleased.stray entries (hok.late entries rfl) hstray id hid
  exact ⟨hfree, fun hworks => hfree (honce.worker.taken id hworks)⟩

end Run

/-! ## A requeue after admission -/

section Requeue

/-- A step of worker `0` that takes nothing is patient. `∅` says that no hand-back of it executes
late. -/
theorem patient_act {s : World ℕ} {note : Note ℕ} {k : Worker ℕ} {stray : List (ℕ × Command ℕ)}
    (hsub : k.taken ⊆ (s.workers 0).taken) : Patient ∅ 0 s (.act 0 note)
      { s with workers := Function.update s.workers 0 k, stray := stray } := by
  refine ⟨?_, ?_, ?_⟩
  · intro id hid hnot
    simp only [Function.update_self] at hid
    exact absurd (hsub hid) hnot
  · intro id _ _ entries hnone
    exact absurd hnone (Set.notMem_empty entries)
  · intro entries heq
    cases heq

/-- A command that executes in time takes nothing. -/
theorem patient_exec {s : World ℕ} {co : Co} {cmd : Command ℕ} {r : Reply ℕ} {server : Server ℕ} :
    Patient ∅ 0 s (.exec 0 co cmd) { s with
      server := server, workers := Function.update s.workers 0 ((s.workers 0).answer r co) } := by
  refine ⟨?_, ?_, ?_⟩
  · intro id hid hnot
    simp only [Function.update_self, Worker.answer_taken] at hid
    exact absurd hid hnot
  · intro id _ _ entries hnone
    exact absurd hnone (Set.notMem_empty entries)
  · intro entries heq
    cases heq

/-- With no handler there is no requeue to be patient about. -/
theorem patient_of_tasks {s s' : World ℕ} {e : Event ℕ} (htasks : (s.workers 0).tasks = [])
    (hlate : ∀ entries, e ≠ .late 0 (.handBack entries)) : Patient ∅ 0 s e s' := by
  refine ⟨?_, ?_, ?_⟩
  · rintro id - - ⟨t, task, locked, htask, -⟩
    rw [htasks] at htask
    cases htask
  · intro id _ _ entries hnone
    exact absurd hnone (Set.notMem_empty entries)
  · intro entries heq
    exact absurd heq (hlate entries)

/-- Worker `0` has started the handler of entry `1`. -/
def startedOne : List (Event ℕ) :=
  [.act 0 (.start 1), .act 0 .quiet, .exec 0 .lead .readNew, .append 1 ping, .act 0 .quiet,
    .act 0 .quiet, .exec 0 .lead .ensureGroup, .act 0 .quiet, .exec 0 .run (.acquire 0),
    .act 0 .quiet]

/-- The handler asks for a requeue before admission, so nobody takes the entry meanwhile. -/
theorem hand_back_released_waiting : ∃ s s' : World ℕ,
    ((system plain).within (Patient ∅ 0)).Run
      (.act 0 .quiet :: .act 0 .quiet :: .act 0 .quiet :: startedOne) s ∧
    Step plain s (.exec 0 (.task 0) (.handBack {1})) s' ∧
    1 ∉ (s.workers 0).taken ∧ ¬ (s.workers 0).Works 1 := by
  have hwaiting {tr : List (Event ℕ)} {s s' : World ℕ}
      (h : ((system plain).within (Patient ∅ 0)).Run tr s)
      (hstep : Patient ∅ 0 s (.exec 0 (.task 0) (.handBack {1})) s' ∧
        Step plain s (.exec 0 (.task 0) (.handBack {1})) s') :
      ∃ s s' : World ℕ, ((system plain).within (Patient ∅ 0)).Run tr s ∧
        Step plain s (.exec 0 (.task 0) (.handBack {1})) s' ∧
        1 ∉ (s.workers 0).taken ∧ ¬ (s.workers 0).Works 1 :=
    ⟨s, s', h, hstep.2, hand_back_released h hstep.1 hstep.2 rfl 1 (Finset.mem_singleton_self 1)⟩
  have h : ((system plain).within (Patient ∅ 0)).Run []
      (⟨.initial, fun _ => .initial, []⟩ : World ℕ) := .start rfl
  have h := h.step ⟨patient_of_tasks rfl (by simp), Step.act 0 _ _ rfl (.run (.ask rfl rfl))⟩
  have h := h.step ⟨patient_exec, Step.exec 0 .run _ rfl⟩
  have h := h.step ⟨patient_of_tasks rfl (by simp), Step.act 0 _ _ rfl (.run (.won 0 rfl))⟩
  have h := h.step ⟨patient_exec, Step.exec 0 .lead _ rfl⟩
  have h := h.step ⟨patient_of_tasks rfl (by simp),
    Step.act 0 _ _ rfl (.lead rfl (.ensured .top _ rfl rfl))⟩
  have h := h.step ⟨patient_of_tasks rfl (by simp),
    Step.act 0 _ _ rfl (.lead rfl (.skip rfl rfl rfl rfl))⟩
  have h := h.step ⟨patient_of_tasks rfl (by simp), Step.append 1 ping (by decide)⟩
  have h := h.step ⟨patient_exec, Step.exec 0 .lead _ rfl⟩
  have h := h.step ⟨patient_of_tasks rfl (by simp),
    Step.act 0 _ _ rfl (.lead rfl (.read [(some 1, some ping)] rfl rfl))⟩
  have h := h.step ⟨patient_of_tasks rfl (by simp), Step.act 0 _ _ rfl
    (.lead rfl (.startUncapped 1 ping [] _ rfl (by simp [ping]) decode_ping rfl))⟩
  have h := h.step ⟨patient_act (by exact subset_rfl),
    Step.act 0 _ _ rfl (.task (t := 0) rfl (.requeue rfl))⟩
  have h := h.step ⟨patient_act (by exact Finset.erase_subset _ _),
    Step.act 0 _ _ rfl (.task (t := 0) rfl (.delayed rfl))⟩
  have h := h.step ⟨patient_act (by exact subset_rfl),
    Step.act 0 _ _ rfl (.task (t := 0) rfl (.locked rfl rfl))⟩
  exact hwaiting h ⟨patient_exec, Step.exec 0 (.task 0) _ rfl⟩

/-- **Reclaimable and running.** The handler of entry `1` is admitted and asks for a requeue. While
the `XCLAIM` of its hand-back is under way the loop finds the entry in the backlog, as it is pending
here and not taken, and starts it again. Then the `XCLAIM` takes effect, and worker `1` can take the
entry over at once. -/
theorem handed_back_while_running : ∃ s s' : World ℕ, (system plain).Run
      ([.act 0 (.start 1), .act 0 .quiet, .exec 0 .lead (.readOwn 100), .act 0 .quiet,
        .exec 0 .lead (.autoclaim 0), .act 0 .quiet, .exec 0 .lead .time, .act 0 .quiet,
        .act 0 .quiet, .act 0 .quiet, .act 0 .quiet, .act 0 .quiet, .act 0 .quiet,
        .act 0 .quiet] ++ startedOne) s ∧
    Step plain s (.exec 0 (.task 0) (.handBack {1})) s' ∧
    1 ∈ (s.workers 0).taken ∧ (s.workers 0).Works 1 ∧
    (exec plain 1 s'.server (.autoclaim 0)).2 = .claimed [(some 1, some ping)] 0 := by
  have h : (system plain).Run [] (⟨.initial, fun _ => .initial, []⟩ : World ℕ) := .start rfl
  have h := h.step (Step.act 0 _ _ rfl (.run (.ask rfl rfl)))
  have h := h.step (Step.exec 0 .run _ rfl)
  have h := h.step (Step.act 0 _ _ rfl (.run (.won 0 rfl)))
  have h := h.step (Step.exec 0 .lead _ rfl)
  have h := h.step (Step.act 0 _ _ rfl (.lead rfl (.ensured .top _ rfl rfl)))
  have h := h.step (Step.act 0 _ _ rfl (.lead rfl (.skip rfl rfl rfl rfl)))
  have h := h.step (Step.append 1 ping (by decide))
  have h := h.step (Step.exec 0 .lead _ rfl)
  have h := h.step (Step.act 0 _ _ rfl (.lead rfl (.read [(some 1, some ping)] rfl rfl)))
  have h := h.step (Step.act 0 _ _ rfl
    (.lead rfl (.startUncapped 1 ping [] _ rfl (by decide) decode_ping rfl)))
  -- the handler is admitted and the loop goes on
  have h := h.step (Step.act 0 _ _ rfl (.task (t := 0) rfl .admits))
  have h := h.step (Step.act 0 _ _ rfl
    (.lead rfl (.settled 0 ⟨1, "j", true, .handler, none⟩ [] rfl rfl (Or.inl rfl) (by
      rintro ⟨hphase, -⟩; cases hphase))))
  have h := h.step (Step.act 0 _ _ rfl (.lead rfl (.batchDone rfl)))
  -- the requeue takes the entry out of `_taken` and sends its `XCLAIM`
  have h := h.step (Step.act 0 _ _ rfl (.task (t := 0) rfl (.requeue rfl)))
  have h := h.step (Step.act 0 _ _ rfl (.task (t := 0) rfl (.delayed rfl)))
  have h := h.step (Step.act 0 _ _ rfl (.task (t := 0) rfl (.locked rfl rfl)))
  -- a reclaim is due: it finds nothing abandoned, and the entry in the backlog
  have h := h.step (Step.act 0 _ _ rfl (.lead rfl (.reclaim rfl rfl rfl)))
  have h := h.step (Step.exec 0 .lead .time rfl)
  have h := h.step (Step.act 0 _ _ rfl (.lead rfl (.timed _ _ rfl rfl)))
  have h := h.step (Step.exec 0 .lead (.autoclaim 0) rfl)
  have h := h.step (Step.act 0 _ _ rfl (.lead rfl (.claimed _ [] 0 rfl rfl)))
  have h := h.step (Step.exec 0 .lead (.readOwn 100) rfl)
  have h := h.step (Step.act 0 _ _ rfl (.lead rfl (.collected _ [(some 1, some ping)] rfl rfl)))
  have h := h.step (Step.act 0 _ _ rfl
    (.lead rfl (.startUncapped 1 ping [] _ rfl (by decide) decode_ping rfl)))
  refine ⟨_, _, h, Step.exec 0 (.task 0) (.handBack {1}) rfl, by decide, ?_, rfl⟩
  exact ⟨1, ⟨1, "j", false, .handler, none⟩, rfl, rfl, Or.inl rfl⟩

end Requeue

end RedisSemaphore.Dispatch

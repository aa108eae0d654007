import RedisSemaphore.Dispatch.Admission

/-!
# The taken entries

`_taken` holds the entries the touch loop keeps alive. An entry enters it with its batch or with its
handler, and whoever is done with it takes it out: the handler's `_finish` or `_requeue`, the lead
loop that drops it, hands it back or leaves before it got to it. `Leak` lists the branches on which
nobody does. A handler that was admitted and ends with a `CancelledError` is one of them.
-/

namespace RedisSemaphore.Dispatch

open Redis Transition

variable {W : Type*} {π : Type} {cfg : Config W π}

/-! ## Who is responsible for an entry -/

/-- The task runs the handler, its `_finish` or the delay of its `_requeue`. -/
def Task.Working (t : Task W) : Prop :=
  t.phase = .handler ∨ t.phase = .finishing ∨ t.phase = .delaying

/-- The entries of the batch that the lead loop has not been through. -/
@[simp] def LeadPc.undispatched : LeadPc W → Finset ℕ
  | .batch rest => ids rest
  | .acking _ _ rest => ids rest
  | .deleting _ rest => ids rest
  | .capping entry _ rest => insert entry (ids rest)
  | .waiting _ rest => ids rest
  | .abandoning _ _ rest => ids rest
  | .unwinding _ rest => ids rest
  | .handing _ _ next => ids next.rest
  | _ => ∅

namespace Worker

/-- A handler task or a requeue delay is still running for the entry. -/
def Works (k : Worker W) (id : ℕ) : Prop :=
  ∃ (t : ℕ) (task : Task W), k.tasks[t]? = some task ∧ task.entry = id ∧ task.Working

/-- The entry belongs to the batch a lead loop is dispatching: it is still to be looked at, or it is
the one whose task the loop waits for. -/
def Dispatches (k : Worker W) (id : ℕ) : Prop :=
  ∃ l, k.lead = some l ∧ (id ∈ l.pc.undispatched ∨
    ∃ (t : ℕ) (task : Task W), l.pc.Watches t ∧ k.tasks[t]? = some task ∧ task.entry = id)

/-- The branches that leave an entry in `_taken` and nobody responsible for it. -/
inductive Leak (k : Worker W) : Worker W → Prop
  -- an exception that is not an `Exception`, or a cancellation of an admitted handler
  | raised (t : ℕ) (task : Task W) (cancelled : Bool) (htask : k.tasks[t]? = some task)
      (hphase : task.phase = .handler) (hkept : cancelled = false ∨ task.admitted = true) :
      Leak k (k.setTask t { task with phase := .ended cancelled })
  | delayCancelled (t : ℕ) (task : Task W) (htask : k.tasks[t]? = some task)
      (hphase : task.phase = .delaying) (hadmitted : task.admitted = true) :
      Leak k (k.setTask t { task with phase := .ended true })
  -- somebody calls `admit()` for a handler that was cancelled before, and whose entry the lead loop
  -- has not handed back yet
  | admits (l : Lead W) (t : ℕ) (task : Task W) (hlead : k.lead = some l) (hwatch : l.pc.Watches t)
      (htask : k.tasks[t]? = some task) (hback : task.GoesBack) :
      Leak k (k.setTask t { task with admitted := true })
  -- an exception of `_decode` that is neither a `KeyError` nor a `ValueError`
  | decoding (l : Lead W) (entry : ℕ) (fields : Option Fields) (rest : List Delivery)
      (hlead : k.lead = some l) (hpc : l.pc = .batch ((some entry, fields) :: rest)) :
      Leak k (k.exit l rest)
  -- a cancellation of the lead loop
  | cancelledCapping (l : Lead W) (entry : ℕ) (jobId : String) (rest : List Delivery)
      (hlead : k.lead = some l) (hpc : l.pc = .capping entry jobId rest) :
      Leak k (k.exit l rest)
  | cancelledWaiting (l : Lead W) (t : ℕ) (task : Task W) (rest : List Delivery)
      (hlead : k.lead = some l) (hpc : l.pc = .waiting t rest ∨ l.pc = .unwinding t rest)
      (htask : k.tasks[t]? = some task) (hback : task.GoesBack) : Leak k (k.exit l rest)

end Worker

/-- No step of the worker `w` takes a branch that leaks. -/
def Answered (w : W) (s : World W) (e : Event W) (s' : World W) : Prop :=
  ∀ note, e = .act w note → ¬ (s.workers w).Leak (s'.workers w)

/-! ## The invariant of one worker -/

/-- Somebody will take the entry out of `_taken`. A lead loop that waits for a task does so where
the task was cancelled before admission. -/
def Worker.Held (k : Worker W) (id : ℕ) : Prop :=
  k.Works id ∨ ∃ l, k.lead = some l ∧ (id ∈ l.pc.undispatched ∨
    ∃ (t : ℕ) (task : Task W), l.pc.Watches t ∧ k.tasks[t]? = some task ∧ task.GoesBack ∧
      task.entry = id)

/-- Every taken entry is held. -/
def Worker.Accounted (k : Worker W) : Prop := ∀ id ∈ k.taken, k.Held id

section Lead

variable {k k₁ k' : Worker W} {l l₁ : Lead W} {id : ℕ}

/-- The empty batch. -/
@[simp] theorem ids_nil : ids [] = ∅ := rfl

/-- An entry that still has an identifier. -/
@[simp] theorem ids_cons_some {entry : ℕ} {fields : Option Fields} {rest : List Delivery} :
    ids ((some entry, fields) :: rest) = insert entry (ids rest) := by
  simp [ids]

/-- An entry reported as nil twice has none. -/
@[simp] theorem ids_cons_none {fields : Option Fields} {rest : List Delivery} :
    ids ((none, fields) :: rest) = ids rest := by
  simp [ids]

/-- A lead loop that goes on keeps its batch, less what it takes out, and its watch. -/
theorem Worker.Accounted.leadTo {pc : LeadPc W} (h : k.Accounted) (hlead : k.lead = some l)
    (htasks : k₁.tasks = k.tasks)
    (htaken : ∀ id ∈ k₁.taken, id ∈ k.taken ∨ id ∈ pc.undispatched)
    (hbatch : ∀ id ∈ k₁.taken, id ∈ l.pc.undispatched → id ∈ pc.undispatched)
    (hwatch : ∀ (t : ℕ) (task : Task W), l.pc.Watches t → k.tasks[t]? = some task →
      task.GoesBack → task.entry ∈ k₁.taken → pc.Watches t) :
    (k₁.leadTo l₁ pc).Accounted := by
  intro id hid
  rcases htaken id hid with hold | hnew
  · rcases h id hold with ⟨t, task, htask, hentry, hworking⟩ | ⟨l₀, hl₀, hdispatch⟩
    · exact Or.inl ⟨t, task, htasks ▸ htask, hentry, hworking⟩
    · obtain rfl := Option.some.inj (hlead.symm.trans hl₀)
      refine Or.inr ⟨l₁.goto pc, rfl, ?_⟩
      rcases hdispatch with hundispatched | ⟨t, task, hw, htask, hback, rfl⟩
      · exact Or.inl (hbatch id hid hundispatched)
      · exact Or.inr ⟨t, task, hwatch t task hw htask hback hid, htasks ▸ htask, hback, rfl⟩
  · exact Or.inr ⟨l₁.goto pc, rfl, Or.inl hnew⟩

/-- A lead loop that leaves forgets the rest of its batch, and waits for nothing that goes back. -/
theorem Worker.Accounted.exit {rest : List Delivery} (h : k.Accounted) (hlead : k.lead = some l)
    (htasks : k₁.tasks = k.tasks) (htaken : k₁.taken ⊆ k.taken)
    (hbatch : ∀ id ∈ k₁.taken, id ∈ l.pc.undispatched → id ∈ ids rest)
    (hwatch : ∀ (t : ℕ) (task : Task W), l.pc.Watches t → k.tasks[t]? = some task →
      ¬ task.GoesBack) :
    (k₁.exit l₁ rest).Accounted := by
  have hworks : ∀ id ∈ k₁.taken \ ids rest, k.Works id := by
    intro id hid
    obtain ⟨hmem, hrest⟩ := Finset.mem_sdiff.mp hid
    rcases h id (htaken hmem) with
      hworks | ⟨l₀, hl₀, hundispatched | ⟨t, task, hw, htask, hback, -⟩⟩
    · exact hworks
    · obtain rfl := Option.some.inj (hlead.symm.trans hl₀)
      exact absurd (hbatch id hmem hundispatched) hrest
    · obtain rfl := Option.some.inj (hlead.symm.trans hl₀)
      exact absurd hback (hwatch t task hw htask)
  have hkept : ∀ id ∈ (k₁.exit l₁ rest).taken, k.Works id := by
    intro id hid
    rw [Worker.exit] at hid
    split at hid <;> exact hworks id hid
  intro id hid
  obtain ⟨t, task, htask, hentry, hworking⟩ := hkept id hid
  refine Or.inl ⟨t, task, ?_, hentry, hworking⟩
  rw [Worker.exit]
  split <;> exact htasks ▸ htask

/-- The end of a lead loop that has released its Mutex. -/
theorem Worker.Accounted.ends (h : k.Accounted) (hlead : k.lead = some l)
    (hpc : l.pc = .releasing) : Worker.Accounted { k with lead := none } := by
  intro id hid
  rcases h id hid with hworks | ⟨l₀, hl₀, hundispatched | ⟨t, task, hw, -⟩⟩
  · exact Or.inl hworks
  · obtain rfl := Option.some.inj (hlead.symm.trans hl₀)
    rw [hpc] at hundispatched
    exact absurd hundispatched (Finset.notMem_empty id)
  · obtain rfl := Option.some.inj (hlead.symm.trans hl₀)
    rw [hpc] at hw
    exact hw.elim

/-- Where an exception leaves the loop, what is left of the batch is forgotten, but for the entry
that is being decoded or waits for the cap. -/
theorem LeadPc.unwinds_cases {pc : LeadPc W} {rest : List Delivery} (h : pc.unwinds = some rest) :
    (∀ t, ¬ pc.Watches t) ∧ (pc.undispatched = ids rest ∨
      (∃ entry fields, pc = .batch ((some entry, fields) :: rest)) ∨
      ∃ entry jobId, pc = .capping entry jobId rest) := by
  cases pc with
  | batch es =>
    cases es with
    | nil => cases h
    | cons e es =>
      obtain rfl := Option.some.inj h
      refine ⟨fun _ => id, ?_⟩
      rcases e with ⟨_ | entry, fields⟩
      · exact Or.inl ids_cons_none
      · exact Or.inr (Or.inl ⟨entry, fields, rfl⟩)
  | capping entry jobId es =>
    obtain rfl := Option.some.inj h
    exact ⟨fun _ => id, Or.inr (Or.inr ⟨entry, jobId, rfl⟩)⟩
  | waiting | abandoning | unwinding | handing | top | releasing => cases h
  | _ =>
    obtain rfl := Option.some.inj h
    exact ⟨fun _ => id, Or.inl rfl⟩

/-- The same after a hand-back, with the rest of the batch still to be handed back or not. -/
theorem Worker.Accounted.goOn {next : Next} (h : k.Accounted) (hlead : k.lead = some l)
    (htasks : k₁.tasks = k.tasks) (htaken : k₁.taken ⊆ k.taken)
    (hbatch : ∀ id ∈ k₁.taken, id ∈ l.pc.undispatched → id ∈ ids next.rest)
    (hwatch : ∀ (t : ℕ) (task : Task W), l.pc.Watches t → k.tasks[t]? = some task →
      ¬ task.GoesBack) :
    (k₁.goOn l₁ next).Accounted := by
  cases next with
  | exit rest => exact h.exit hlead htasks htaken hbatch hwatch
  | handRest rest =>
    rw [Worker.goOn, Worker.handRest]
    split
    · exact h.exit hlead htasks htaken hbatch hwatch
    · refine h.leadTo hlead htasks ?_ ?_ ?_
      · intro id hid
        exact Or.inl (htaken (Finset.mem_sdiff.mp hid).1)
      · intro id hid hundispatched
        exact hbatch id (Finset.mem_sdiff.mp hid).1 hundispatched
      · intro t task hw htask hback
        exact absurd hback (hwatch t task hw htask)

/-- A new task is responsible for its entry. -/
theorem Worker.Accounted.start {entry : ℕ} {jobId : String} {rest : List Delivery}
    (h : k.Accounted) (hlead : k.lead = some l)
    (hbatch : l.pc.undispatched = insert entry (ids rest)) (hwatch : ∀ t, ¬ l.pc.Watches t) :
    (k.start l entry jobId rest).Accounted := by
  intro id hid
  have hold : ∀ (t : ℕ) (task : Task W), k.tasks[t]? = some task →
      (k.start l entry jobId rest).tasks[t]? = some task := by
    intro t task htask
    have hlt := (List.getElem?_eq_some_iff.mp htask).1
    exact (List.getElem?_append_left hlt).trans htask
  have hnew : (k.start l entry jobId rest).Works entry :=
    ⟨k.tasks.length, _, List.getElem?_concat_length, rfl, Or.inl rfl⟩
  rcases Finset.mem_insert.mp hid with rfl | hid
  · exact Or.inl hnew
  · rcases h id hid with ⟨t, task, htask, hentry, hworking⟩ | ⟨l₀, hl₀, hdispatch⟩
    · exact Or.inl ⟨t, task, hold t task htask, hentry, hworking⟩
    · obtain rfl := Option.some.inj (hlead.symm.trans hl₀)
      rcases hdispatch with hundispatched | ⟨t, task, hw, -⟩
      · rw [hbatch, Finset.mem_insert] at hundispatched
        rcases hundispatched with rfl | hrest
        · exact Or.inl hnew
        · exact Or.inr ⟨_, rfl, Or.inl hrest⟩
      · exact absurd hw (hwatch t)

/-- A lead loop that goes on with the batch it has. -/
theorem Worker.Accounted.goto {pc : LeadPc W} (h : k.Accounted) (hlead : k.lead = some l)
    (htasks : k₁.tasks = k.tasks) (htaken : k₁.taken ⊆ k.taken)
    (hbatch : l.pc.undispatched ⊆ pc.undispatched) (hwatch : ∀ t, l.pc.Watches t → pc.Watches t) :
    (k₁.leadTo l₁ pc).Accounted :=
  h.leadTo hlead htasks (fun _ hid => Or.inl (htaken hid)) (fun _ _ hid => hbatch hid)
    (fun t _ hw _ _ _ => hwatch t hw)

/-- A new batch replaces none. -/
theorem Worker.Accounted.takeBatch {es : List Delivery} (h : k.Accounted) (hlead : k.lead = some l)
    (hnone : l.pc.undispatched = ∅) (hwatch : ∀ t, ¬ l.pc.Watches t) :
    (k.takeBatch l₁ es).Accounted := by
  refine h.leadTo hlead rfl ?_ ?_ ?_
  · intro id hid
    exact Finset.mem_union.mp hid
  · intro id _ hid
    rw [hnone] at hid
    exact absurd hid (Finset.notMem_empty id)
  · intro t _ hw
    exact absurd hw (hwatch t)

/-- What a page found is taken when it becomes the batch. -/
theorem Worker.Accounted.reclaimed {es : List Delivery} (h : k.Accounted) (hlead : k.lead = some l)
    (hnone : l.pc.undispatched = ∅) (hwatch : ∀ t, ¬ l.pc.Watches t) :
    (k.reclaimed l₁ es).Accounted := by
  rw [Worker.reclaimed]
  split
  · refine h.goto hlead rfl subset_rfl (hnone ▸ Finset.empty_subset _) ?_
    exact fun t hw => absurd hw (hwatch t)
  · exact h.takeBatch hlead hnone hwatch

/-- Dead consumers are removed before anything is taken. -/
theorem Worker.Accounted.prune {es : List Delivery} {dead : List W} (h : k.Accounted)
    (hlead : k.lead = some l) (hnone : l.pc.undispatched = ∅) (hwatch : ∀ t, ¬ l.pc.Watches t) :
    (k.prune l₁ es dead).Accounted := by
  cases dead with
  | nil => exact h.reclaimed hlead hnone hwatch
  | cons name dead =>
    refine h.goto hlead rfl subset_rfl (hnone ▸ Finset.empty_subset _) ?_
    exact fun t hw => absurd hw (hwatch t)

/-- An entry that is dropped or handed back leaves `_taken`; the rest of the batch stays. -/
theorem Worker.Accounted.drop {pc : LeadPc W} {entry : ℕ} (h : k.Accounted)
    (rest : List Delivery) (hlead : k.lead = some l)
    (hbatch : l.pc.undispatched = insert entry (ids rest)) (hwatch : ∀ t, ¬ l.pc.Watches t)
    (hpc : pc.undispatched = ids rest) :
    ({ k with taken := k.taken.erase entry }.leadTo l₁ pc).Accounted := by
  refine h.leadTo hlead rfl ?_ ?_ ?_
  · intro id hid
    exact Or.inl (Finset.mem_of_mem_erase hid)
  · intro id hid hundispatched
    rw [hbatch, Finset.mem_insert] at hundispatched
    rw [hpc]
    exact hundispatched.resolve_left (Finset.ne_of_mem_erase hid)
  · intro t _ hw
    exact absurd hw (hwatch t)

/-- The hand-back of the entry whose task the loop has waited for. -/
theorem Worker.Accounted.handBack {t : ℕ} {task : Task W} {next : Next} (h : k.Accounted)
    (rest : List Delivery) (hlead : k.lead = some l) (htask : k.tasks[t]? = some task)
    (hbatch : l.pc.undispatched = ids rest) (hwatch : ∀ t', l.pc.Watches t' → t' = t)
    (hnext : next.rest = rest) : (k.handOne l₁ task.entry next).Accounted := by
  refine h.leadTo hlead rfl ?_ ?_ ?_
  · intro id hid
    exact Or.inl (Finset.mem_of_mem_erase hid)
  · intro id _ hundispatched
    show id ∈ ids next.rest
    rw [hnext, ← hbatch]
    exact hundispatched
  · intro t' task' hw htask' _ hid
    obtain rfl := hwatch t' hw
    obtain rfl := Option.some.inj (htask.symm.trans htask')
    exact absurd rfl (Finset.ne_of_mem_erase hid)

end Lead

/-! ## Steps -/

section Steps

variable {w : W} {k k' : Worker W} {note : Note W}

/-- The loop watches one task, so what is true of that one is true of every task it watches. -/
theorem Lead.stays_of_watched {l : Lead W} {pc : LeadPc W} {t : ℕ} {task : Task W}
    (hpc : l.pc = pc) (hwatch : pc.Watches t) (htask : k.tasks[t]? = some task)
    (hstays : ¬ task.GoesBack) (t' : ℕ) (task' : Task W) (hw : l.pc.Watches t')
    (htask' : k.tasks[t']? = some task') : ¬ task'.GoesBack := by
  obtain rfl : t' = t := hw.unique (hpc ▸ hwatch)
  obtain rfl := Option.some.inj (htask.symm.trans htask')
  exact hstays

/-- The lead loop keeps every entry accounted for, unless it leaks. -/
theorem Worker.Accounted.leadStep [DecidableEq W] {l : Lead W} (h : k.Accounted)
    (hlead : k.lead = some l) (hleak : ¬ k.Leak k') (hstep : LeadStep cfg w k l note k') :
    k'.Accounted := by
  have hbatch {pc : LeadPc W} {es : Finset ℕ} (hpc : l.pc = pc) (hes : pc.undispatched = es) :
      l.pc.undispatched = es := hpc ▸ hes
  have hfree {pc : LeadPc W} (hpc : l.pc = pc) (hnone : ∀ t, ¬ pc.Watches t) (t : ℕ) :
      ¬ l.pc.Watches t := hpc ▸ hnone t
  have hkept {pc : LeadPc W} {es taken : Finset ℕ} (hpc : l.pc = pc) (hes : pc.undispatched = es) :
      ∀ id ∈ taken, id ∈ l.pc.undispatched → id ∈ es := fun _ _ hid => hbatch hpc hes ▸ hid
  have hstay {pc : LeadPc W} (hpc : l.pc = pc) (hnone : ∀ t, ¬ pc.Watches t) (t : ℕ)
      (task : Task W) (hw : l.pc.Watches t) (_ : k.tasks[t]? = some task) : ¬ task.GoesBack :=
    absurd hw (hfree hpc hnone t)
  have hone {pc : LeadPc W} {t t' : ℕ} (hpc : l.pc = pc) (hwatch : pc.Watches t)
      (hw : l.pc.Watches t') : t' = t := hw.unique (hpc ▸ hwatch)
  have hgo {pc pc' : LeadPc W} {k₁ : Worker W} {l₁ : Lead W} (hpc : l.pc = pc)
      (htasks : k₁.tasks = k.tasks) (htaken : k₁.taken ⊆ k.taken)
      (hsame : pc.undispatched ⊆ pc'.undispatched) (hwatch : ∀ t, pc.Watches t → pc'.Watches t) :
      (k₁.leadTo l₁ pc').Accounted := by
    subst hpc
    exact h.goto hlead htasks htaken hsame hwatch
  have hnil {es : Finset ℕ} : (∅ : Finset ℕ) ⊆ es := Finset.empty_subset es
  cases hstep with
  -- between two batches there is nothing to be responsible for
  | ensured ret r hpc hreply =>
    cases ret with
    | top => exact hgo hpc rfl subset_rfl hnil fun t hw => hw.elim
    | backlog => exact hgo hpc rfl subset_rfl hnil fun t hw => hw.elim
    | read => exact hgo hpc rfl subset_rfl hnil fun t hw => hw.elim
  | leave hpc hover =>
    exact h.exit hlead rfl subset_rfl (hkept hpc rfl) (hstay hpc fun _ hw => hw)
  | reclaim hpc hheld hgoing => exact hgo hpc rfl subset_rfl hnil fun t hw => hw.elim
  | skip hpc hheld hgoing hnow => exact hgo hpc rfl subset_rfl hnil fun t hw => hw.elim
  | timed snapshot r hpc hreply => exact hgo hpc rfl subset_rfl hnil fun t hw => hw.elim
  | claimed snapshot es cursor hpc hreply =>
    exact h.reclaimed hlead (hbatch hpc rfl) (hfree hpc fun _ hw => hw)
  | claimedNone snapshot hpc hreply => exact hgo hpc rfl subset_rfl hnil fun t hw => hw.elim
  | inspect snapshot es cursor hpc hreply =>
    exact hgo hpc rfl subset_rfl hnil fun t hw => hw.elim
  | inspected found infos hpc hreply =>
    exact h.prune hlead (hbatch hpc rfl) (hfree hpc fun _ hw => hw)
  | inspectedNone found hpc hreply =>
    exact h.reclaimed hlead (hbatch hpc rfl) (hfree hpc fun _ hw => hw)
  | pruned name dead found r hpc hreply =>
    exact h.prune hlead (hbatch hpc rfl) (hfree hpc fun _ hw => hw)
  | collected snapshot es hpc hreply =>
    rw [Worker.collected]
    split
    · exact hgo hpc rfl subset_rfl hnil fun t hw => hw.elim
    · exact h.takeBatch hlead (hbatch hpc rfl) (hfree hpc fun _ hw => hw)
  | collectedNone snapshot hpc hreply => exact hgo hpc rfl subset_rfl hnil fun t hw => hw.elim
  | read es hpc hreply => exact h.takeBatch hlead (hbatch hpc rfl) (hfree hpc fun _ hw => hw)
  | readNone hpc hreply => exact hgo hpc rfl subset_rfl hnil fun t hw => hw.elim
  | batchDone hpc => exact hgo hpc rfl subset_rfl hnil fun t hw => hw.elim
  -- in a batch: an entry is dropped, started or handed back, and the rest stays in hand
  | skipNil fields rest hpc =>
    exact hgo hpc rfl subset_rfl ids_cons_none.subset fun t hw => hw.elim
  | dropDeleted entry fields rest hpc hempty =>
    exact h.drop rest hlead (hbatch hpc ids_cons_some) (hfree hpc fun _ hw => hw) rfl
  | dropMalformed entry fields rest hpc hfields hjob =>
    exact h.drop rest hlead (hbatch hpc ids_cons_some) (hfree hpc fun _ hw => hw) rfl
  | dropExpired entry fields rest job hpc hfields hjob hdeadline =>
    exact h.drop rest hlead (hbatch hpc ids_cons_some) (hfree hpc fun _ hw => hw) rfl
  | acked entry rest r hpc hreply => exact hgo hpc rfl subset_rfl subset_rfl fun t hw => hw.elim
  | ackedDeleted entry rest r hpc hreply =>
    exact hgo hpc rfl subset_rfl subset_rfl fun t hw => hw.elim
  | deleted entry rest r hpc hreply => exact hgo hpc rfl subset_rfl subset_rfl fun t hw => hw.elim
  | startUncapped entry fields rest job hpc hfields hjob hcap =>
    exact h.start hlead (hbatch hpc ids_cons_some) (hfree hpc fun _ hw => hw)
  | cap entry fields rest job m hpc hfields hjob hcap =>
    exact hgo hpc rfl subset_rfl ids_cons_some.subset fun t hw => hw.elim
  | startCapped entry jobId rest m hpc hcap hroom =>
    exact h.start hlead (hbatch hpc rfl) (hfree hpc fun _ hw => hw)
  | capLeft entry jobId rest hpc hover =>
    exact h.drop rest hlead (hbatch hpc rfl) (hfree hpc fun _ hw => hw) rfl
  -- a task is watched: it must not be going back where the loop stops watching it
  | settled t task rest hpc htask hsettled hstays =>
    refine h.leadTo hlead rfl (fun _ => Or.inl) (hkept hpc rfl) ?_
    intro t' task' hw htask' hback
    exact absurd hback (l.stays_of_watched hpc rfl htask hstays t' task' hw htask')
  | cancelled t task rest hpc htask hback =>
    exact h.handBack rest hlead htask (hbatch hpc rfl) (fun t' => hone hpc rfl) rfl
  | abandon t task rest hpc htask hopen hover => exact hgo hpc rfl subset_rfl subset_rfl fun _ => id
  | waitCancelled t task rest hpc htask hsettled =>
    have hstays : ¬ task.GoesBack := fun hback =>
      hleak (.cancelledWaiting l t task rest hlead (Or.inl hpc) htask hback)
    exact h.exit hlead rfl subset_rfl (hkept hpc rfl) (l.stays_of_watched hpc rfl htask hstays)
  | waitAbandoned t task rest hpc htask hopen => exact hgo hpc rfl subset_rfl subset_rfl fun _ => id
  | abandoned t task raising rest hpc htask hended hstays =>
    refine h.goOn hlead rfl subset_rfl ?_ (l.stays_of_watched hpc rfl htask hstays)
    intro id _ hid
    rw [hpc] at hid
    cases raising <;> exact hid
  | abandonedBack t task raising rest hpc htask hback =>
    refine h.handBack rest hlead htask (hbatch hpc rfl) (fun t' => hone hpc rfl) ?_
    cases raising <;> rfl
  | abandonCancelled t raising rest hpc => exact hgo hpc rfl subset_rfl subset_rfl fun _ => id
  | unwound t task rest hpc htask hended =>
    have hstays : ¬ task.GoesBack := fun hback =>
      hleak (.cancelledWaiting l t task rest hlead (Or.inr hpc) htask hback)
    exact h.exit hlead rfl subset_rfl (hkept hpc rfl) (l.stays_of_watched hpc rfl htask hstays)
  -- hand-backs and the way out: what is still in the batch goes along
  | locked entries next hpc hfree' => exact hgo hpc rfl subset_rfl subset_rfl fun t hw => hw.elim
  | handed entries next r hpc hreply =>
    exact h.goOn hlead rfl subset_rfl (hkept hpc rfl) (hstay hpc fun _ hw => hw)
  | handFailed entries next hpc =>
    exact h.goOn hlead rfl subset_rfl (hkept hpc rfl) (hstay hpc fun _ hw => hw)
  | handCancelled entries locked next hpc =>
    exact h.exit hlead rfl subset_rfl (hkept hpc rfl) (hstay hpc fun _ hw => hw)
  -- an error unwinds to the hand-back of the rest; the head of the batch is left out, which is
  -- one of the leaks
  | failed rest hpc =>
    obtain ⟨hwatch, hbatch | ⟨entry, fields, hdecoding⟩ | ⟨entry, jobId, hcapping⟩⟩ :=
      LeadPc.unwinds_cases hpc
    · refine h.exit hlead rfl subset_rfl (fun _ _ hid => hbatch ▸ hid) ?_
      exact fun t task hw => absurd hw (hwatch t)
    · exact absurd (.decoding l entry fields rest hlead hdecoding) hleak
    · exact absurd (.cancelledCapping l entry jobId rest hlead hcapping) hleak
  | released r hpc hreply => exact h.ends hlead hpc
  | releaseFailed hpc => exact h.ends hlead hpc

/-- One task changes: as long as it is responsible for its entry it goes on working, takes the entry
out, or leaves it to the lead loop that waits for it. -/
theorem Worker.Accounted.setTask {k₁ : Worker W} {t : ℕ} {task task' : Task W} (h : k.Accounted)
    (htask : k.tasks[t]? = some task) (htasks : k₁.tasks = k.tasks) (hlead : k₁.lead = k.lead)
    (htaken : k₁.taken ⊆ k.taken) (hentry : task'.entry = task.entry)
    (hworking : task.Working → task.entry ∈ k₁.taken → task'.Working ∨
      task'.GoesBack ∧ ∃ l, k.lead = some l ∧ l.pc.Watches t)
    (hback : ∀ l, k.lead = some l → l.pc.Watches t → task.GoesBack → task'.GoesBack) :
    (k₁.setTask t task').Accounted := by
  have hlt : t < k.tasks.length := (List.getElem?_eq_some_iff.mp htask).1
  have hself : (k₁.setTask t task').tasks[t]? = some task' := by
    rw [Worker.setTask, htasks]
    exact List.getElem?_set_self hlt
  have hother : ∀ t₁, t₁ ≠ t → (k₁.setTask t task').tasks[t₁]? = k.tasks[t₁]? := by
    intro t₁ hne
    rw [Worker.setTask, htasks]
    exact List.getElem?_set_ne hne.symm
  have hsame : (k₁.setTask t task').lead = k.lead := hlead
  intro id hid
  rcases h id (htaken hid) with ⟨t₁, task₁, htask₁, rfl, hworks⟩ | ⟨l, hl, hdispatch⟩
  · by_cases heq : t₁ = t
    · subst heq
      obtain rfl := Option.some.inj (htask.symm.trans htask₁)
      rcases hworking hworks hid with hworks' | ⟨hback', l, hl, hw⟩
      · exact Or.inl ⟨t₁, task', hself, hentry, hworks'⟩
      · exact Or.inr ⟨l, hsame.trans hl, Or.inr ⟨t₁, task', hw, hself, hback', hentry⟩⟩
    · exact Or.inl ⟨t₁, task₁, (hother t₁ heq).trans htask₁, rfl, hworks⟩
  · refine Or.inr ⟨l, hsame.trans hl, hdispatch.imp_right ?_⟩
    rintro ⟨t₁, task₁, hw, htask₁, hback₁, rfl⟩
    by_cases heq : t₁ = t
    · subst heq
      obtain rfl := Option.some.inj (htask.symm.trans htask₁)
      exact ⟨t₁, task', hw, hself, hback l hl hw hback₁, hentry⟩
    · exact ⟨t₁, task₁, hw, (hother t₁ heq).trans htask₁, hback₁, rfl⟩

/-- A task that is in some phase does not go back. -/
theorem Task.not_goesBack {task : Task W} {phase : TaskPhase} (hphase : task.phase = phase)
    (hne : phase ≠ .ended true) : ¬ task.GoesBack := by
  rintro ⟨hended, -⟩
  exact hne (hphase.symm.trans hended)

/-- A task keeps every entry accounted for, unless it leaks. Before it is admitted the lead loop
waits for it, so a cancellation then leaves the entry to the loop. -/
theorem Worker.Accounted.taskStep {t : ℕ} {task : Task W} (h : k.Accounted)
    (hserial : Serial cfg w k) (htask : k.tasks[t]? = some task) (hleak : ¬ k.Leak k')
    (hstep : TaskStep k t task note k') : k'.Accounted := by
  have hwatched (hadmitted : ¬ task.admitted = true) (hopen : ¬ task.Ended) :
      ∃ l, k.lead = some l ∧ l.pc.Watches t :=
    hserial.watched t task htask ⟨by simpa using hadmitted, hopen⟩
  cases hstep with
  | admits =>
    refine h.setTask htask rfl rfl subset_rfl rfl (fun hworks _ => Or.inl hworks) ?_
    exact fun l hl hw hback => absurd (.admits l t task hl hw htask hback) hleak
  | finish hphase =>
    exact h.setTask htask rfl rfl subset_rfl rfl (fun _ _ => Or.inl (Or.inr (Or.inl rfl)))
      (fun _ _ _ hback => absurd hback (Task.not_goesBack hphase (by simp)))
  | requeue hphase =>
    exact h.setTask htask rfl rfl subset_rfl rfl (fun _ _ => Or.inl (Or.inr (Or.inr rfl)))
      (fun _ _ _ hback => absurd hback (Task.not_goesBack hphase (by simp)))
  | handlerRaised cancelled hphase =>
    have hkept : ¬ (cancelled = false ∨ task.admitted = true) :=
      fun hkept => hleak (.raised t task cancelled htask hphase hkept)
    obtain ⟨hcancelled, hadmitted⟩ := not_or.mp hkept
    obtain rfl : cancelled = true := by simpa using hcancelled
    refine h.setTask htask rfl rfl subset_rfl rfl (fun _ _ => Or.inr ⟨⟨rfl, ?_⟩, ?_⟩)
      (fun _ _ _ hback => absurd hback (Task.not_goesBack hphase (by simp)))
    · simpa using hadmitted
    · exact hwatched hadmitted (by rintro ⟨c, hc⟩; rw [hphase] at hc; cases hc)
  | delayCancelled hphase =>
    have hadmitted : ¬ task.admitted = true :=
      fun hadmitted => hleak (.delayCancelled t task htask hphase hadmitted)
    refine h.setTask htask rfl rfl subset_rfl rfl (fun _ _ => Or.inr ⟨⟨rfl, ?_⟩, ?_⟩)
      (fun _ _ _ hback => absurd hback (Task.not_goesBack hphase (by simp)))
    · simpa using hadmitted
    · exact hwatched hadmitted (by rintro ⟨c, hc⟩; rw [hphase] at hc; cases hc)
  | finished r hphase hreply =>
    exact h.setTask htask rfl rfl (Finset.erase_subset _ _) rfl
      (fun _ hid => absurd hid (Finset.notMem_erase _ _))
      (fun _ _ _ hback => absurd hback (Task.not_goesBack hphase (by simp)))
  | finishFailed cancelled hphase =>
    exact h.setTask htask rfl rfl (Finset.erase_subset _ _) rfl
      (fun _ hid => absurd hid (Finset.notMem_erase _ _))
      (fun _ _ _ hback => absurd hback (Task.not_goesBack hphase (by simp)))
  | delayed hphase =>
    exact h.setTask htask rfl rfl (Finset.erase_subset _ _) rfl
      (fun _ hid => absurd hid (Finset.notMem_erase _ _))
      (fun _ _ _ hback => absurd hback (Task.not_goesBack hphase (by simp)))
  | locked hphase | handed _ hphase | handFailed hphase | handCancelled _ hphase =>
    -- a task that hands its entry back has taken it out before
    refine h.setTask htask rfl rfl subset_rfl rfl ?_
      (fun _ _ _ hback => absurd hback (Task.not_goesBack hphase (by simp)))
    rintro (hworks | hworks | hworks) <;> (rw [hphase] at hworks; cases hworks)

/-- The entries held do not depend on elections, on the touch loop or on replies. -/
theorem Worker.Accounted.congr (h : k.Accounted) (htaken : k'.taken = k.taken)
    (htasks : k'.tasks = k.tasks)
    (hlead : ∀ l, k.lead = some l → ∃ l', k'.lead = some l' ∧ l'.pc = l.pc) :
    k'.Accounted := by
  intro id hid
  rw [htaken] at hid
  rcases h id hid with ⟨t, task, htask, hworks⟩ | ⟨l, hl, hdispatch⟩
  · exact Or.inl ⟨t, task, htasks ▸ htask, hworks⟩
  · obtain ⟨l', hl', hpc⟩ := hlead l hl
    refine Or.inr ⟨l', hl', ?_⟩
    rw [hpc, htasks]
    exact hdispatch

/-- The elections take nothing. -/
theorem Worker.Accounted.runStep (h : k.Accounted) (hserial : Serial cfg w k)
    (hstep : RunStep k note k') : k'.Accounted := by
  cases hstep with
  | won mutex hasking =>
    refine h.congr rfl rfl ?_
    intro l hl
    have hidle := hserial.alone l hl
    rw [hasking] at hidle
    cases hidle
  | loseMutex l hlead =>
    refine h.congr rfl rfl ?_
    intro l₀ hl₀
    obtain rfl := Option.some.inj (hlead.symm.trans hl₀)
    exact ⟨_, rfl, rfl⟩
  | clear => exact fun id hid => absurd hid (Finset.notMem_empty id)
  | _ => exact h.congr rfl rfl fun l hl => ⟨l, hl, rfl⟩

/-- The touch loop takes nothing. -/
theorem Worker.Accounted.touchStep (h : k.Accounted) (hstep : TouchStep k note k') :
    k'.Accounted := by
  cases hstep <;> exact h.congr rfl rfl fun l hl => ⟨l, hl, rfl⟩

/-- A step that is none of the leaks keeps every taken entry accounted for. -/
theorem Worker.Accounted.step [DecidableEq W] (h : k.Accounted) (hserial : Serial cfg w k)
    (hleak : ¬ k.Leak k') (hstep : WorkerStep cfg w k note k') : k'.Accounted := by
  cases hstep with
  | lead hlead hstep => exact h.leadStep hlead hleak hstep
  | task htask hstep => exact h.taskStep hserial htask hleak hstep
  | run hstep => exact h.runStep hserial hstep
  | touch hstep => exact h.touchStep hstep

/-- A reply changes nothing of this. -/
theorem Worker.Accounted.answer {r : Reply W} {co : Co} (h : k.Accounted) :
    (k.answer r co).Accounted := by
  cases co with
  | run =>
    rw [Worker.answer]
    split
    · exact h.congr rfl rfl fun l hl => ⟨l, hl, rfl⟩
    · exact h
  | lead =>
    refine h.congr rfl rfl ?_
    intro l hl
    exact ⟨{ l with reply := some r }, by simp [Worker.answer, hl], rfl⟩
  | task t =>
    rcases Worker.answer_task (k := k) (r := r) (t := t) with heq | ⟨task, htask, heq⟩
    · rw [heq]
      exact h
    · rw [heq]
      exact h.setTask htask rfl rfl subset_rfl rfl (fun hworks _ => Or.inl hworks)
        fun _ _ _ hback => hback
  | touch =>
    rw [Worker.answer]
    split
    · exact h.congr rfl rfl fun l hl => ⟨l, hl, rfl⟩
    · exact h

end Steps

/-! ## Runs -/

section Run

variable [DecidableEq W] {tr : List (Event W)} {s : World W} {w : W}

/-- Both invariants of the worker `w` hold in every run in which it does not leak. -/
theorem accounted_of_run (h : ((system cfg).within (Answered w)).Run tr s) :
    Serial cfg w (s.workers w) ∧ (s.workers w).Accounted := by
  refine System.Run.invariant
    (I := fun _ s => Serial cfg w (s.workers w) ∧ (s.workers w).Accounted) ?_ ?_ h
  · rintro s rfl
    exact ⟨serial_initial, fun id hid => absurd hid (Finset.notMem_empty id)⟩
  · rintro tr s e s' - ⟨hserial, hheld⟩ ⟨hanswered, hstep⟩
    refine hstep.worker (P := fun k => Serial cfg w k ∧ k.Accounted) ⟨hserial, hheld⟩ ?_ ?_ ?_
    · exact fun r co => ⟨hserial.answer, hheld.answer⟩
    · intro note k he hk hown
      exact ⟨hserial.step hown, hheld.step hserial (hk ▸ hanswered note he) hown⟩
    · exact ⟨serial_dead, fun id hid => absurd hid (Finset.notMem_empty id)⟩

/-- **A taken entry has somebody responsible** in every run in which the worker takes no leaking
branch: a handler task or requeue delay still runs for it, or it belongs to the batch a lead loop is
dispatching. -/
theorem taken_responsible (h : ((system cfg).within (Answered w)).Run tr s) :
    ∀ id ∈ (s.workers w).taken, (s.workers w).Works id ∨ (s.workers w).Dispatches id := by
  intro id hid
  refine ((accounted_of_run h).2 id hid).imp_right ?_
  rintro ⟨l, hl, hundispatched | ⟨t, task, hw, htask, -, hentry⟩⟩
  · exact ⟨l, hl, Or.inl hundispatched⟩
  · exact ⟨l, hl, Or.inr ⟨t, task, hw, htask, hentry⟩⟩

end Run

/-! ## A handler that is cancelled after admission -/

/-- Without a task and without a batch nothing leaks. -/
theorem Worker.not_leak {k k' : Worker W} (htasks : k.tasks = [])
    (hbatch : ∀ l, k.lead = some l → l.pc.undispatched = ∅) : ¬ k.Leak k' := by
  have hnone : ∀ (t : ℕ) (task : Task W), k.tasks[t]? ≠ some task := by
    intro t task
    rw [htasks]
    simp
  intro hleak
  cases hleak with
  | raised t task cancelled htask => exact hnone t task htask
  | delayCancelled t task htask => exact hnone t task htask
  | admits l t task hlead hwatch htask => exact hnone t task htask
  | decoding l entry fields rest hlead hpc =>
    have hempty := hbatch l hlead
    rw [hpc] at hempty
    simp at hempty
  | cancelledCapping l entry jobId rest hlead hpc =>
    have hempty := hbatch l hlead
    rw [hpc] at hempty
    simp at hempty
  | cancelledWaiting l t task rest hlead hpc htask => exact hnone t task htask

/-- Worker `0` has been delivered an entry. -/
theorem taken_responsible_delivered : ∃ s : World ℕ, ((system plain).within (Answered 0)).Run
    [.act 0 .quiet, .exec 0 .lead .readNew, .append 1 ping, .act 0 .quiet, .act 0 .quiet,
      .exec 0 .lead .ensureGroup, .act 0 .quiet, .exec 0 .run (.acquire 0), .act 0 .quiet] s ∧
    1 ∈ (s.workers 0).taken ∧ ((s.workers 0).Works 1 ∨ (s.workers 0).Dispatches 1) := by
  have hquiet {s s' : World ℕ} {e : Event ℕ} (htasks : (s.workers 0).tasks = [])
      (hbatch : ∀ l, (s.workers 0).lead = some l → l.pc.undispatched = ∅) :
      Answered 0 s e s' := fun _ _ => Worker.not_leak htasks hbatch
  have h : ((system plain).within (Answered 0)).Run []
      (⟨.initial, fun _ => .initial, []⟩ : World ℕ) := .start rfl
  have h := h.step ⟨hquiet rfl (by rintro l ⟨⟩), Step.act 0 _ _ rfl (.run (.ask rfl rfl))⟩
  have h := h.step ⟨hquiet rfl (by rintro l ⟨⟩), Step.exec 0 .run _ rfl⟩
  have h := h.step ⟨hquiet rfl (by rintro l ⟨⟩), Step.act 0 _ _ rfl (.run (.won 0 rfl))⟩
  have h := h.step ⟨hquiet rfl (by rintro l ⟨⟩; rfl), Step.exec 0 .lead _ rfl⟩
  have h := h.step ⟨hquiet rfl (by rintro l ⟨⟩; rfl),
    Step.act 0 _ _ rfl (.lead rfl (.ensured .top _ rfl rfl))⟩
  have h := h.step ⟨hquiet rfl (by rintro l ⟨⟩; rfl),
    Step.act 0 _ _ rfl (.lead rfl (.skip rfl rfl rfl rfl))⟩
  have h := h.step ⟨hquiet rfl (by rintro l ⟨⟩; rfl), Step.append 1 ping (by decide)⟩
  have h := h.step ⟨hquiet rfl (by rintro l ⟨⟩; rfl), Step.exec 0 .lead _ rfl⟩
  have h := h.step ⟨hquiet rfl (by rintro l ⟨⟩; rfl),
    Step.act 0 _ _ rfl (.lead rfl (.read [(some 1, some ping)] rfl rfl))⟩
  exact ⟨_, h, by decide, taken_responsible h 1 (by decide)⟩

/-- **Touched, and nobody answers.** The handler of entry `1` calls `admit()` and ends with a
`CancelledError` of its own. The worker runs on, leads and has finished the batch, no task works on
the entry, and the touch loop keeps it alive. -/
theorem taken_abandoned : ∃ s : World ℕ, (system plain).Run
    [.act 0 .quiet, .act 0 .quiet, .act 0 .quiet, .act 0 .quiet, .act 0 .quiet, .act 0 .quiet,
      .act 0 (.start 1), .act 0 .quiet, .exec 0 .lead .readNew, .append 1 ping, .act 0 .quiet,
      .act 0 .quiet, .exec 0 .lead .ensureGroup, .act 0 .quiet, .exec 0 .run (.acquire 0),
      .act 0 .quiet] s ∧
    (s.workers 0).alive = true ∧ (s.workers 0).stopping = false ∧
    1 ∈ (s.workers 0).taken ∧ (s.workers 0).command .touch = some (.touch {1}) ∧
    ¬ ((s.workers 0).Works 1 ∨ (s.workers 0).Dispatches 1) := by
  have h : (system plain).Run [] (⟨.initial, fun _ => .initial, []⟩ : World ℕ) := .start rfl
  have h := h.step (Step.act 0 _ _ rfl (.run (.ask rfl rfl)))
  have h := h.step (Step.exec 0 .run _ rfl)
  have h := h.step (Step.act 0 _ _ rfl (.run (.won 0 rfl)))
  have h := h.step (Step.exec 0 .lead _ rfl)
  have h := h.step (Step.act 0 _ _ rfl (.lead rfl (.ensured .top _ rfl rfl)))
  have h := h.step (Step.act 0 _ _ rfl (.lead rfl (.skip rfl rfl rfl rfl)))
  have h := h.step (Step.append 1 ping (by decide))
  have h := h.step (Step.exec 0 .lead _ rfl)
  have h := h.step (Step.act 0 _ _ rfl (.lead rfl (.read [(some 1, some ping)] rfl rfl)))
  have h := h.step (Step.act 0 _ _ rfl
    (.lead rfl (.startUncapped 1 ping [] _ rfl (by decide) decode_ping rfl)))
  -- the handler is admitted, the loop goes on, the handler raises
  have h := h.step (Step.act 0 _ _ rfl (.task (t := 0) rfl .admits))
  have h := h.step (Step.act 0 _ _ rfl
    (.lead rfl (.settled 0 ⟨1, "j", true, .handler, none⟩ [] rfl rfl (Or.inl rfl) (by
      rintro ⟨hphase, -⟩; cases hphase))))
  have h := h.step (Step.act 0 _ _ rfl (.lead rfl (.batchDone rfl)))
  have h := h.step (Step.act 0 _ _ rfl (.task (t := 0) rfl (.handlerRaised true rfl)))
  have h := h.step (Step.act 0 _ _ rfl (.touch (.wake rfl)))
  have h := h.step (Step.act 0 _ _ rfl (.touch (.locked rfl rfl (by decide))))
  refine ⟨_, h, rfl, rfl, by decide, rfl, ?_⟩
  rintro (⟨t, task, htask, -, hworking⟩ | ⟨l, hl, hundispatched | ⟨t, task, hw, -⟩⟩)
  · have hmem : task ∈ [(⟨1, "j", true, .ended true, none⟩ : Task ℕ)] :=
      List.mem_of_getElem? htask
    obtain rfl := List.mem_singleton.mp hmem
    rcases hworking with hphase | hphase | hphase <;> cases hphase
  · cases hl
    exact absurd hundispatched (Finset.notMem_empty 1)
  · cases hl
    exact hw

end RedisSemaphore.Dispatch

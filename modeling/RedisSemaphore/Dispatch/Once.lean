import RedisSemaphore.Dispatch.Taken

/-!
# No job twice

`_reclaim` and `_backlog` filter what the server reports by a snapshot of `_taken` made before the
command is sent. A handler that runs at any later moment was started before, so its entry is in the
snapshot; an entry whose finish has executed is not pending any more when the command executes, and
one that finishes while the reply travels is in the snapshot too. So what the lead loop may still
start is neither worked on nor finished, as long as no command of the worker takes effect after its
call has returned or raised.
-/

namespace RedisSemaphore.Dispatch

open Redis Transition

variable {W : Type*} {π : Type} {cfg : Config W π}

/-! ## What the lead loop may still start -/

/-- The identifiers of a batch, in its order. -/
def idList (es : List Delivery) : List ℕ := es.filterMap Prod.fst

/-- The snapshot of `_taken` that will filter a reply. -/
def LeadPc.snapshot : LeadPc W → Option (Finset ℕ)
  | .timing snapshot => some snapshot
  | .claiming snapshot => some snapshot
  | .collecting snapshot => some snapshot
  | _ => none

/-- The deliveries the lead loop has in hand. -/
def LeadPc.rest : LeadPc W → List Delivery
  | .inspecting found => found
  | .pruning _ found => found
  | .batch rest => rest
  | .acking _ _ rest => rest
  | .deleting _ rest => rest
  | .capping _ _ rest => rest
  | .waiting _ rest => rest
  | .abandoning _ _ rest => rest
  | .unwinding _ rest => rest
  | .handing _ _ next => next.rest
  | _ => []

/-- The entries in hand that the loop may still start, in their order. -/
def LeadPc.inHand : LeadPc W → List ℕ
  | .capping entry _ rest => entry :: idList rest
  | pc => idList pc.rest

/-- The deliveries a reply brings, filtered by the snapshot. -/
def LeadPc.brought : LeadPc W → Reply W → List Delivery
  | .claiming snapshot, .claimed es _ => usable snapshot es
  | .collecting snapshot, .entries es => usable snapshot es
  | .reading, .entries es => es
  | _, _ => []

/-- The entries a reply brings. -/
def LeadPc.arriving (pc : LeadPc W) (r : Reply W) : List ℕ := idList (pc.brought r)

/-- The entries a lead loop may still start. -/
def Lead.coming (l : Lead W) : List ℕ := l.pc.inHand ++ (l.reply.map l.pc.arriving).getD []

/-- Each command of the worker `w` takes effect before its call returns or raises, if at all. -/
def Prompt (w : W) (_ : World W) (e : Event W) : Prop := ∀ cmd, e ≠ .late w cmd

/-- The entries whose finish, sent by `w`, has executed. -/
def finishedBy (w : W) (tr : List (Event W)) : Set ℕ :=
  {id | ∃ e ∈ tr, ∃ jobId, e.executes = some (w, .finish jobId id)}

/-! ## The invariant of one worker -/

/-- What a worker works on and what it may still start, when the finishes of `done` have executed
and `d` is the last identifier delivered. -/
structure Worker.Once (done : Set ℕ) (d : ℕ) (k : Worker W) : Prop where
  taken : ∀ id, k.Works id → id ∈ k.taken
  delivered : ∀ id, k.Works id → id ≤ d
  unique : ∀ (t t' : ℕ) (task task' : Task W), k.tasks[t]? = some task → k.tasks[t']? = some task' →
    task.Working → task'.Working → task'.entry = task.entry → t' = t
  watched : ∀ l (t t' : ℕ) (task task' : Task W), k.lead = some l → l.pc.Watches t →
    k.tasks[t]? = some task → k.tasks[t']? = some task' → task'.Working →
    task'.entry = task.entry → t' = t
  snapshot : ∀ l snapshot, k.lead = some l → l.pc.snapshot = some snapshot →
    ∀ id, k.Works id → id ∈ snapshot
  fresh : ∀ l, k.lead = some l → ∀ id ∈ l.coming, id ∉ done ∧ id ≤ d ∧ ¬ k.Works id
  nodup : ∀ l, k.lead = some l → l.coming.Nodup

section Lists

variable {snapshot : Finset ℕ} {es : List Delivery} {id : ℕ}

/-- The empty batch. -/
@[simp] theorem idList_nil : idList [] = [] := rfl

/-- An entry that still has an identifier. -/
@[simp] theorem idList_cons_some {entry : ℕ} {fields : Option Fields} :
    idList ((some entry, fields) :: es) = entry :: idList es := rfl

/-- An entry reported as nil twice has none. -/
@[simp] theorem idList_cons_none {fields : Option Fields} :
    idList ((none, fields) :: es) = idList es := rfl

/-- New entries come with their identifiers. -/
@[simp] theorem idList_entries {es : List (StreamEntry Fields)} :
    idList (es.map fun e => (some e.id, some e.fields)) = es.map StreamEntry.id := by
  simp [idList]

/-- The set of the identifiers of a batch. -/
theorem mem_ids : id ∈ ids es ↔ id ∈ idList es := List.mem_toFinset

/-- What passes the filter is in the report and not in the snapshot. -/
theorem idList_usable : idList (usable snapshot es) = (idList es).filter (· ∉ snapshot) := by
  induction es with
  | nil => rfl
  | cons e es ih =>
    rcases e with ⟨_ | entry, fields⟩
    · exact ih
    · by_cases hmem : entry ∈ snapshot
      · have hskip : usable snapshot ((some entry, fields) :: es) = usable snapshot es := by
          simp [usable, hmem]
        rw [hskip, ih, idList_cons_some, List.filter_cons_of_neg (by simpa using hmem)]
      · have hkeep : usable snapshot ((some entry, fields) :: es) =
            (some entry, fields) :: usable snapshot es := by
          simp [usable, hmem]
        rw [hkeep, idList_cons_some, ih, idList_cons_some,
          List.filter_cons_of_pos (by simpa using hmem)]

/-- The rest of the batch is in hand; at the cap so is the entry that waits for its place. -/
theorem LeadPc.rest_sublist {pc : LeadPc W} : (idList pc.rest).Sublist pc.inHand := by
  cases pc with
  | capping entry jobId rest => exact List.sublist_cons_self _ _
  | _ => exact .refl _

/-- What is left where an exception leaves the loop was in hand. -/
theorem LeadPc.unwinds_sublist {pc : LeadPc W} {rest : List Delivery} (h : pc.unwinds = some rest) :
    (idList rest).Sublist pc.inHand := by
  cases pc with
  | batch es =>
    cases es with
    | nil => cases h
    | cons e es =>
      obtain rfl := Option.some.inj h
      exact (List.sublist_cons_self e es).filterMap _
  | capping entry jobId es =>
    obtain rfl := Option.some.inj h
    exact List.sublist_cons_self _ _
  | waiting | abandoning | unwinding | handing | top | releasing => cases h
  | acking entry thenDel es =>
    obtain rfl := Option.some.inj h
    exact .refl _
  | deleting entry es =>
    obtain rfl := Option.some.inj h
    exact .refl _
  | _ =>
    obtain rfl := Option.some.inj h
    exact List.nil_sublist _

/-- A move of the program counter has read the reply. -/
@[simp] theorem Lead.coming_goto {l : Lead W} {pc : LeadPc W} : (l.goto pc).coming = pc.inHand := by
  simp [Lead.coming, Lead.goto]

/-- A reply that has not been read brings its entries. -/
theorem Lead.coming_answered {l : Lead W} {r : Reply W} :
    Lead.coming { l with reply := some r } = l.pc.inHand ++ l.pc.arriving r := rfl

/-- What is in hand may still be started. -/
theorem Lead.inHand_sublist (l : Lead W) : l.pc.inHand.Sublist l.coming :=
  List.sublist_append_left _ _

/-- What a reply has brought may still be started. -/
theorem Lead.arriving_sublist {l : Lead W} {r : Reply W} (hreply : l.reply = some r) :
    (l.pc.arriving r).Sublist l.coming := by
  rw [Lead.coming, hreply]
  exact List.sublist_append_right _ _

end Lists

section Lead

variable {done : Set ℕ} {d : ℕ} {k k₁ k' : Worker W} {l l₁ : Lead W} {id : ℕ} {note : Note W}

/-- What is worked on is said by the tasks. -/
theorem Worker.works_congr (htasks : k₁.tasks = k.tasks) : k₁.Works id ↔ k.Works id := by
  rw [Worker.Works, Worker.Works, htasks]

/-- The same tasks beside a lead loop that is as before, or new, or gone. -/
theorem Worker.Once.relead (h : k.Once done d) (htasks : k'.tasks = k.tasks)
    (htaken : ∀ id, k.Works id → id ∈ k.taken → id ∈ k'.taken)
    (hlead : ∀ l', k'.lead = some l' →
      (∃ l, k.lead = some l ∧ l'.pc = l.pc ∧ l'.coming = l.coming) ∨
        (l'.coming = [] ∧ (∀ t, ¬ l'.pc.Watches t) ∧ l'.pc.snapshot = none)) :
    k'.Once done d := by
  have hworks : ∀ id, k'.Works id → k.Works id := fun id => (Worker.works_congr htasks).mp
  refine ⟨?_, ?_, ?_, ?_, ?_, ?_, ?_⟩
  · exact fun id hw => htaken id (hworks id hw) (h.taken id (hworks id hw))
  · exact fun id hw => h.delivered id (hworks id hw)
  · rw [htasks]
    exact h.unique
  · rw [htasks]
    intro l' t t' task task' hl' hw
    rcases hlead l' hl' with ⟨l, hl, hpc, -⟩ | ⟨-, hnot, -⟩
    · exact h.watched l t t' task task' hl (hpc ▸ hw)
    · exact absurd hw (hnot t)
  · intro l' snapshot hl' hsome id hw
    rcases hlead l' hl' with ⟨l, hl, hpc, -⟩ | ⟨-, -, hnone⟩
    · exact h.snapshot l snapshot hl (hpc ▸ hsome) id (hworks id hw)
    · rw [hnone] at hsome
      cases hsome
  · intro l' hl' id hid
    rcases hlead l' hl' with ⟨l, hl, -, hcoming⟩ | ⟨hnil, -, -⟩
    · obtain ⟨hdone, hle, hfree⟩ := h.fresh l hl id (hcoming ▸ hid)
      exact ⟨hdone, hle, fun hw => hfree (hworks id hw)⟩
    · rw [hnil] at hid
      exact absurd hid List.not_mem_nil
  · intro l' hl'
    rcases hlead l' hl' with ⟨l, hl, -, hcoming⟩ | ⟨hnil, -, -⟩
    · exact hcoming ▸ h.nodup l hl
    · exact hnil ▸ List.nodup_nil

/-- A worker without a lead loop starts nothing. -/
theorem Worker.Once.off (h : k.Once done d) (htasks : k'.tasks = k.tasks)
    (htaken : ∀ id, k.Works id → id ∈ k.taken → id ∈ k'.taken) (hlead : k'.lead = none) :
    k'.Once done d := by
  refine h.relead htasks htaken ?_
  intro l hl
  rw [hlead] at hl
  cases hl

/-- A lead loop that goes on may start what it could start before, waits for the task it waited for,
and makes its snapshots of `_taken`. -/
theorem Worker.Once.leadTo {pc : LeadPc W} (h : k.Once done d) (hlead : k.lead = some l)
    (htasks : k₁.tasks = k.tasks) (htaken : ∀ id, k.Works id → id ∈ k.taken → id ∈ k₁.taken)
    (hwatch : ∀ t, pc.Watches t → l.pc.Watches t)
    (hsnapshot : ∀ snapshot, pc.snapshot = some snapshot → ∀ id, k.Works id → id ∈ snapshot)
    (hcoming : pc.inHand.Sublist l.coming) : (k₁.leadTo l₁ pc).Once done d := by
  have hworks : ∀ id, (k₁.leadTo l₁ pc).Works id → k.Works id := by
    intro id hw
    rwa [Worker.works_congr (show (k₁.leadTo l₁ pc).tasks = k.tasks from htasks)] at hw
  have htasks' : (k₁.leadTo l₁ pc).tasks = k.tasks := htasks
  refine ⟨?_, ?_, ?_, ?_, ?_, ?_, ?_⟩
  · intro id hw
    exact htaken id (hworks id hw) (h.taken id (hworks id hw))
  · intro id hw
    exact h.delivered id (hworks id hw)
  · rw [htasks']
    exact h.unique
  · rw [htasks']
    intro l' t t' task task' hl' hw
    obtain rfl := Option.some.inj hl'
    exact h.watched l t t' task task' hlead (hwatch t hw)
  · intro l' snapshot hl' hpc id hw
    obtain rfl := Option.some.inj hl'
    exact hsnapshot snapshot hpc id (hworks id hw)
  · intro l' hl' id hid
    obtain rfl := Option.some.inj hl'
    rw [Lead.coming_goto] at hid
    obtain ⟨hdone, hle, hfree⟩ := h.fresh l hlead id (hcoming.subset hid)
    exact ⟨hdone, hle, fun hw => hfree (hworks id hw)⟩
  · intro l' hl'
    obtain rfl := Option.some.inj hl'
    rw [Lead.coming_goto]
    exact (h.nodup l hlead).sublist hcoming

/-- What a lead loop could still start is not worked on, so it may leave `_taken`. -/
theorem Worker.Once.not_works (h : k.Once done d) (hlead : k.lead = some l) (hid : id ∈ l.coming) :
    ¬ k.Works id := (h.fresh l hlead id hid).2.2

/-- The task the loop waits for is the only one that may work on its entry. -/
theorem Worker.Once.not_works_of_goesBack {t : ℕ} {task : Task W} (h : k.Once done d)
    (hlead : k.lead = some l) (hw : l.pc.Watches t) (htask : k.tasks[t]? = some task)
    (hback : task.GoesBack) : ¬ k.Works task.entry := by
  rintro ⟨t', task', htask', hentry, hworking⟩
  obtain rfl := h.watched l t t' task task' hlead hw htask htask' hworking hentry
  obtain rfl := Option.some.inj (htask.symm.trans htask')
  rcases hworking with hphase | hphase | hphase <;> (rw [hback.1] at hphase; cases hphase)

/-- A lead loop that leaves forgets the rest of its batch. -/
theorem Worker.Once.exit {rest : List Delivery} (h : k.Once done d) (hlead : k.lead = some l)
    (htasks : k₁.tasks = k.tasks) (htaken : k₁.taken = k.taken)
    (hrest : (idList rest).Sublist l.coming) : (k₁.exit l₁ rest).Once done d := by
  have hkept : ∀ id, k.Works id → id ∈ k.taken → id ∈ k₁.taken \ ids rest := by
    intro id hw hid
    refine Finset.mem_sdiff.mpr ⟨htaken ▸ hid, fun hmem => ?_⟩
    exact h.not_works hlead (hrest.subset (mem_ids.mp hmem)) hw
  rw [Worker.exit]
  split
  · refine h.leadTo hlead htasks hkept ?_ ?_ ?_
    · exact fun t hw => hw.elim
    · intro snapshot hsome
      cases hsome
    · exact List.nil_sublist _
  · exact h.off htasks hkept rfl

/-- The same with the hand-back of the rest of the batch between. -/
theorem Worker.Once.goOn {next : Next} (h : k.Once done d) (hlead : k.lead = some l)
    (htasks : k₁.tasks = k.tasks) (htaken : k₁.taken = k.taken)
    (hrest : (idList next.rest).Sublist l.coming) : (k₁.goOn l₁ next).Once done d := by
  cases next with
  | exit rest => exact h.exit hlead htasks htaken hrest
  | handRest rest =>
    rw [Worker.goOn, Worker.handRest]
    split
    · exact h.exit hlead htasks htaken hrest
    · refine h.leadTo hlead htasks ?_ ?_ ?_ hrest
      · intro id hw hid
        refine Finset.mem_sdiff.mpr ⟨htaken ▸ hid, fun hmem => ?_⟩
        exact h.not_works hlead (hrest.subset (mem_ids.mp hmem)) hw
      · exact fun t hw => hw.elim
      · intro snapshot hsome
        cases hsome

/-- A lead loop that goes on without a new snapshot. -/
theorem Worker.Once.goto {pc : LeadPc W} (h : k.Once done d) (hlead : k.lead = some l)
    (htasks : k₁.tasks = k.tasks) (htaken : k₁.taken = k.taken)
    (hcoming : pc.inHand.Sublist l.coming) (hwatch : ∀ t, pc.Watches t → l.pc.Watches t)
    (hsnapshot : pc.snapshot = none) : (k₁.leadTo l₁ pc).Once done d := by
  refine h.leadTo hlead htasks (fun id _ hid => htaken ▸ hid) hwatch ?_ hcoming
  intro snapshot hsome
  rw [hsnapshot] at hsome
  cases hsome

/-- A lead loop that goes on with what it may still start becoming its batch. -/
theorem Worker.Once.takeBatch {es : List Delivery} (h : k.Once done d) (hlead : k.lead = some l)
    (hcoming : (idList es).Sublist l.coming) : (k.takeBatch l₁ es).Once done d := by
  refine h.leadTo hlead rfl ?_ ?_ ?_ hcoming
  · exact fun id _ hid => Finset.mem_union_left _ hid
  · exact fun t hw => hw.elim
  · intro snapshot hsome
    cases hsome

/-- A lead loop that makes a snapshot of `_taken`. -/
theorem Worker.Once.look {pc : LeadPc W} (h : k.Once done d) (hlead : k.lead = some l)
    (htasks : k₁.tasks = k.tasks) (htaken : k₁.taken = k.taken) (hpc : pc.snapshot = some k.taken)
    (hcoming : pc.inHand = []) (hwatch : ∀ t, ¬ pc.Watches t) : (k₁.leadTo l₁ pc).Once done d := by
  refine h.leadTo hlead htasks (fun id _ hid => htaken ▸ hid) ?_ ?_ ?_
  · exact fun t hw => absurd hw (hwatch t)
  · intro snapshot hsome id hw
    obtain rfl := Option.some.inj (hpc.symm.trans hsome)
    exact h.taken id hw
  · rw [hcoming]
    exact List.nil_sublist _

/-- What a page found was coming already, in its reply. -/
theorem Worker.Once.reclaimed {es : List Delivery} (h : k.Once done d) (hlead : k.lead = some l)
    (hcoming : (idList es).Sublist l.coming) : (k.reclaimed l₁ es).Once done d := by
  rw [Worker.reclaimed]
  split
  · exact h.look hlead rfl rfl rfl rfl fun t hw => hw
  · exact h.takeBatch hlead hcoming

/-- So it was while dead consumers are removed. -/
theorem Worker.Once.prune {es : List Delivery} {dead : List W} (h : k.Once done d)
    (hlead : k.lead = some l) (hcoming : (idList es).Sublist l.coming) :
    (k.prune l₁ es dead).Once done d := by
  cases dead with
  | nil => exact h.reclaimed hlead hcoming
  | cons name dead => exact h.goto hlead rfl rfl hcoming (fun t hw => hw.elim) rfl

/-- An entry that may still be started, or whose task goes back, is taken out. -/
theorem Worker.Once.drop {pc : LeadPc W} {entry : ℕ} (h : k.Once done d) (hlead : k.lead = some l)
    (hfree : ¬ k.Works entry) (hcoming : pc.inHand.Sublist l.coming) (hwatch : ∀ t, ¬ pc.Watches t)
    (hsnapshot : pc.snapshot = none) :
    ({ k with taken := k.taken.erase entry }.leadTo l₁ pc).Once done d := by
  refine h.leadTo hlead rfl ?_ (fun t hw => absurd hw (hwatch t)) ?_ hcoming
  · intro id hw hid
    refine Finset.mem_erase.mpr ⟨?_, hid⟩
    rintro rfl
    exact hfree hw
  · intro snapshot hsome
    rw [hsnapshot] at hsome
    cases hsome

/-- The head of what is in hand is taken out: dropped, or handed back before it was started. Nothing
works on it, as it could still be started. -/
theorem Worker.Once.dropHead {pc : LeadPc W} {entry : ℕ} (h : k.Once done d)
    (hlead : k.lead = some l) (hcoming : (entry :: pc.inHand).Sublist l.coming)
    (hwatch : ∀ t, ¬ pc.Watches t) (hsnapshot : pc.snapshot = none) :
    ({ k with taken := k.taken.erase entry }.leadTo l₁ pc).Once done d :=
  h.drop hlead (h.not_works hlead (hcoming.subset List.mem_cons_self))
    ((List.sublist_cons_self _ _).trans hcoming) hwatch hsnapshot

/-- A handler is started for an entry that was only to be started. -/
theorem Worker.Once.start {entry : ℕ} {jobId : String} {rest : List Delivery} (h : k.Once done d)
    (hlead : k.lead = some l) (hcoming : (entry :: idList rest).Sublist l.coming) :
    (k.start l entry jobId rest).Once done d := by
  have hentry : entry ∈ l.coming := hcoming.subset List.mem_cons_self
  obtain ⟨hdone, hle, hfree⟩ := h.fresh l hlead entry hentry
  obtain ⟨hnot, hrest⟩ := List.nodup_cons.mp ((h.nodup l hlead).sublist hcoming)
  have hworks : ∀ id, (k.start l entry jobId rest).Works id → k.Works id ∨ id = entry := by
    rintro id ⟨t, task, htask, hid, hworking⟩
    rcases Worker.getElem?_start htask with hold | ⟨-, rfl⟩
    · exact Or.inl ⟨t, task, hold, hid, hworking⟩
    · exact Or.inr hid.symm
  refine ⟨?_, ?_, ?_, ?_, ?_, ?_, ?_⟩
  · intro id hw
    rcases hworks id hw with hold | rfl
    · exact Finset.mem_insert_of_mem (h.taken id hold)
    · exact Finset.mem_insert_self _ _
  · intro id hw
    rcases hworks id hw with hold | rfl
    · exact h.delivered id hold
    · exact hle
  · intro t t' task task' htask htask' hworking hworking' heq
    rcases Worker.getElem?_start htask with hold | ⟨rfl, rfl⟩ <;>
      rcases Worker.getElem?_start htask' with hold' | ⟨rfl, rfl⟩
    · exact h.unique t t' task task' hold hold' hworking hworking' heq
    · exact absurd ⟨t, task, hold, heq.symm, hworking⟩ hfree
    · exact absurd ⟨t', task', hold', heq, hworking'⟩ hfree
    · rfl
  · intro l' t t' task task' hl' hw htask htask' hworking' heq
    obtain rfl := Option.some.inj hl'
    obtain rfl : k.tasks.length = t := hw
    rcases Worker.getElem?_start htask with hold | ⟨-, rfl⟩
    · exact absurd (List.getElem?_eq_some_iff.mp hold).1 (lt_irrefl _)
    rcases Worker.getElem?_start htask' with hold' | ⟨rfl, -⟩
    · exact absurd ⟨t', task', hold', heq, hworking'⟩ hfree
    · rfl
  · intro l' snapshot hl' hpc
    obtain rfl := Option.some.inj hl'
    cases hpc
  · intro l' hl' id hid
    obtain rfl := Option.some.inj hl'
    rw [Lead.coming_goto] at hid
    obtain ⟨hdone', hle', hfree'⟩ :=
      h.fresh l hlead id (hcoming.subset (List.mem_cons_of_mem _ hid))
    refine ⟨hdone', hle', fun hw => ?_⟩
    rcases hworks id hw with hold | rfl
    · exact hfree' hold
    · exact hnot hid
  · intro l' hl'
    obtain rfl := Option.some.inj hl'
    rw [Lead.coming_goto]
    exact hrest

/-- **The lead loop starts nothing twice**: each of its segments keeps the invariant. -/
theorem Worker.Once.leadStep [DecidableEq W] {w : W} (h : k.Once done d) (hlead : k.lead = some l)
    (hstep : LeadStep cfg w k l note k') : k'.Once done d := by
  have hin {pc : LeadPc W} {es : List ℕ} (hpc : l.pc = pc) (hes : pc.inHand = es) :
      es.Sublist l.coming := hes ▸ hpc ▸ l.inHand_sublist
  have harr {pc : LeadPc W} {r : Reply W} (hpc : l.pc = pc) (hreply : l.reply = some r) :
      (pc.arriving r).Sublist l.coming := hpc ▸ Lead.arriving_sublist hreply
  have hnil : ([] : List ℕ).Sublist l.coming := List.nil_sublist _
  -- what is in hand afterwards was in hand, or is what a reply has brought
  cases hstep with
  | ensured ret r hpc hreply =>
    cases ret with
    | top => exact h.goto hlead rfl rfl hnil (fun t hw => hw.elim) rfl
    | backlog => exact h.look hlead rfl rfl rfl rfl fun t hw => hw
    | read => exact h.goto hlead rfl rfl hnil (fun t hw => hw.elim) rfl
  | leave hpc hover => exact h.exit hlead rfl rfl hnil
  | reclaim hpc hheld hgo => exact h.look hlead rfl rfl rfl rfl fun t hw => hw
  | timed snapshot r hpc hreply =>
    refine h.leadTo hlead rfl (fun _ _ => id) (fun t hw => hw.elim) ?_ hnil
    intro snapshot' hsome
    exact h.snapshot l snapshot' hlead (hpc ▸ hsome)
  | claimed snapshot es cursor hpc hreply => exact h.reclaimed hlead (harr hpc hreply)
  | inspect snapshot es cursor hpc hreply =>
    exact h.goto hlead rfl rfl (harr hpc hreply) (fun t hw => hw.elim) rfl
  | inspected found infos hpc hreply => exact h.prune hlead (hin hpc rfl)
  | inspectedNone found hpc hreply => exact h.reclaimed hlead (hin hpc rfl)
  | pruned name dead found r hpc hreply => exact h.prune hlead (hin hpc rfl)
  | collected snapshot es hpc hreply =>
    rw [Worker.collected]
    split
    · exact h.goto hlead rfl rfl hnil (fun t hw => hw.elim) rfl
    · exact h.takeBatch hlead (harr hpc hreply)
  | read es hpc hreply => exact h.takeBatch hlead (harr hpc hreply)
  -- an entry leaves `_taken`, dropped or handed back: nothing works on it
  | dropDeleted entry fields rest hpc hempty =>
    exact h.dropHead hlead (hin hpc rfl) (fun t hw => hw) rfl
  | dropMalformed entry fields rest hpc hfields hjob =>
    exact h.dropHead hlead (hin hpc rfl) (fun t hw => hw) rfl
  | dropExpired entry fields rest job hpc hfields hjob hdeadline =>
    exact h.dropHead hlead (hin hpc rfl) (fun t hw => hw) rfl
  | startUncapped entry fields rest job hpc hfields hjob hcap => exact h.start hlead (hin hpc rfl)
  | startCapped entry jobId rest m hpc hcap hroom => exact h.start hlead (hin hpc rfl)
  | capLeft entry jobId rest hpc hover =>
    exact h.dropHead hlead (hin hpc rfl) (fun t hw => hw) rfl
  | cancelled t task rest hpc htask hback =>
    have hfree := h.not_works_of_goesBack hlead (show l.pc.Watches t from hpc ▸ rfl) htask hback
    exact h.drop hlead hfree (hin hpc rfl) (fun t hw => hw) rfl
  | abandonedBack t task raising rest hpc htask hback =>
    have hfree := h.not_works_of_goesBack hlead (show l.pc.Watches t from hpc ▸ rfl) htask hback
    refine h.drop hlead hfree ?_ (fun t hw => hw) rfl
    cases raising <;> exact hin hpc rfl
  | abandoned t task raising rest hpc htask hended hstays =>
    refine h.goOn hlead rfl rfl ?_
    cases raising <;> exact hin hpc rfl
  | waitCancelled t task rest hpc htask hsettled => exact h.exit hlead rfl rfl (hin hpc rfl)
  | unwound t task rest hpc htask hended => exact h.exit hlead rfl rfl (hin hpc rfl)
  | abandon t task rest hpc htask hopen hover =>
    exact h.goto hlead rfl rfl (hin hpc rfl) (fun t hw => hpc ▸ hw) rfl
  | waitAbandoned t task rest hpc htask hopen =>
    exact h.goto hlead rfl rfl (hin hpc rfl) (fun t hw => hpc ▸ hw) rfl
  | abandonCancelled t raising rest hpc =>
    exact h.goto hlead rfl rfl (hin hpc rfl) (fun t hw => hpc ▸ hw) rfl
  | handed entries next r hpc hreply => exact h.goOn hlead rfl rfl (hin hpc rfl)
  | handFailed entries next hpc => exact h.goOn hlead rfl rfl (hin hpc rfl)
  | handCancelled entries locked next hpc => exact h.exit hlead rfl rfl (hin hpc rfl)
  | failed rest hpc =>
    refine h.exit hlead rfl rfl (List.Sublist.trans ?_ l.inHand_sublist)
    exact LeadPc.unwinds_sublist hpc
  | released r hpc hreply => exact h.off rfl (fun _ _ => id) rfl
  | releaseFailed hpc => exact h.off rfl (fun _ _ => id) rfl
  -- the other segments only move on
  | claimedNone | collectedNone | skip | readNone | batchDone =>
    exact h.goto hlead rfl rfl hnil (fun t hw => hw.elim) rfl
  | skipNil fields rest hpc => exact h.goto hlead rfl rfl (hin hpc rfl) (fun t hw => hw.elim) rfl
  | acked entry rest r hpc hreply =>
    exact h.goto hlead rfl rfl (hin hpc rfl) (fun t hw => hw.elim) rfl
  | ackedDeleted entry rest r hpc hreply =>
    exact h.goto hlead rfl rfl (hin hpc rfl) (fun t hw => hw.elim) rfl
  | deleted entry rest r hpc hreply =>
    exact h.goto hlead rfl rfl (hin hpc rfl) (fun t hw => hw.elim) rfl
  | cap entry fields rest job m hpc hfields hjob hcap =>
    exact h.goto hlead rfl rfl (hin hpc rfl) (fun t hw => hw.elim) rfl
  | settled t task rest hpc htask hsettled hstays =>
    exact h.goto hlead rfl rfl (hin hpc rfl) (fun t hw => hw.elim) rfl
  | locked entries next hpc hfree =>
    exact h.goto hlead rfl rfl (hin hpc rfl) (fun t hw => hw.elim) rfl

end Lead

section Steps

variable {done : Set ℕ} {d : ℕ} {k k₁ k' : Worker W} {note : Note W} {w : W}

/-- One task changes: it stops working at the latest when its entry leaves `_taken`. -/
theorem Worker.Once.setTask {t : ℕ} {task task' : Task W} (h : k.Once done d)
    (htask : k.tasks[t]? = some task) (htasks : k₁.tasks = k.tasks) (hlead : k₁.lead = k.lead)
    (hentry : task'.entry = task.entry) (hworking : task'.Working → task.Working)
    (htaken : ∀ id ∈ k.taken, id ∈ k₁.taken ∨ id = task.entry ∧ task.Working ∧ ¬ task'.Working) :
    (k₁.setTask t task').Once done d := by
  have hold : ∀ {t₁ : ℕ} {task₁ : Task W}, (k₁.setTask t task').tasks[t₁]? = some task₁ →
      ∃ task₀ : Task W, k.tasks[t₁]? = some task₀ ∧ task₁.entry = task₀.entry ∧
        (task₁.Working → task₀.Working) := by
    intro t₁ task₁ htask₁
    rcases Worker.getElem?_setTask htask₁ with ⟨rfl, rfl⟩ | ⟨-, hsame⟩
    · exact ⟨task, htask, hentry, hworking⟩
    · exact ⟨task₁, htasks ▸ hsame, rfl, id⟩
  have hworks : ∀ id, (k₁.setTask t task').Works id → k.Works id := by
    rintro id ⟨t₁, task₁, htask₁, hid, hworks⟩
    obtain ⟨task₀, htask₀, hsame, hworks₀⟩ := hold htask₁
    exact ⟨t₁, task₀, htask₀, hsame.symm.trans hid, hworks₀ hworks⟩
  have hlead' : (k₁.setTask t task').lead = k.lead := hlead
  refine ⟨?_, ?_, ?_, ?_, ?_, ?_, ?_⟩
  · rintro id ⟨t₁, task₁, htask₁, hid, hworks₁⟩
    obtain ⟨task₀, htask₀, hsame, hworks₀⟩ := hold htask₁
    rcases htaken id (h.taken id ⟨t₁, task₀, htask₀, hsame.symm.trans hid, hworks₀ hworks₁⟩)
      with hkept | ⟨rfl, hworks', hover⟩
    · exact hkept
    · have hone : t₁ = t := h.unique t t₁ task task₀ htask htask₀ hworks' (hworks₀ hworks₁)
        (hsame.symm.trans hid)
      rcases Worker.getElem?_setTask htask₁ with ⟨-, rfl⟩ | ⟨hne, -⟩
      · exact absurd hworks₁ hover
      · exact absurd hone hne
  · exact fun id hw => h.delivered id (hworks id hw)
  · intro t₁ t₂ task₁ task₂ htask₁ htask₂ hworks₁ hworks₂ heq
    obtain ⟨task₁', htask₁', hsame₁, hworks₁'⟩ := hold htask₁
    obtain ⟨task₂', htask₂', hsame₂, hworks₂'⟩ := hold htask₂
    exact h.unique t₁ t₂ task₁' task₂' htask₁' htask₂' (hworks₁' hworks₁) (hworks₂' hworks₂)
      (hsame₂.symm.trans (heq.trans hsame₁))
  · intro l t₁ t₂ task₁ task₂ hl hw htask₁ htask₂ hworks₂ heq
    obtain ⟨task₁', htask₁', hsame₁, -⟩ := hold htask₁
    obtain ⟨task₂', htask₂', hsame₂, hworks₂'⟩ := hold htask₂
    exact h.watched l t₁ t₂ task₁' task₂' (hlead' ▸ hl) hw htask₁' htask₂' (hworks₂' hworks₂)
      (hsame₂.symm.trans (heq.trans hsame₁))
  · intro l snapshot hl hsome id hw
    exact h.snapshot l snapshot (hlead' ▸ hl) hsome id (hworks id hw)
  · intro l hl id hid
    obtain ⟨hdone, hle, hfree⟩ := h.fresh l (hlead' ▸ hl) id hid
    exact ⟨hdone, hle, fun hw => hfree (hworks id hw)⟩
  · exact fun l hl => h.nodup l (hlead' ▸ hl)

/-- A task takes its entry out of `_taken` when it stops working on it, and starts nothing. -/
theorem Worker.Once.taskStep {t : ℕ} {task : Task W} (h : k.Once done d)
    (htask : k.tasks[t]? = some task) (hstep : TaskStep k t task note k') : k'.Once done d := by
  have herase {p : Prop} (hworking : task.Working) (hover : ¬ p) :
      ∀ id ∈ k.taken, id ∈ k.taken.erase task.entry ∨ id = task.entry ∧ task.Working ∧ ¬ p := by
    intro id hid
    by_cases heq : id = task.entry
    · exact Or.inr ⟨heq, hworking, hover⟩
    · exact Or.inl (Finset.mem_erase.mpr ⟨heq, hid⟩)
  have hended {cancelled : Bool} :
      ¬ Task.Working { task with phase := .ended cancelled } := by
    rintro (hphase | hphase | hphase) <;> cases hphase
  have hhanding {locked : Bool} {reply : Option (Reply W)} :
      ¬ Task.Working { task with phase := .handing locked, reply := reply } := by
    rintro (hphase | hphase | hphase) <;> cases hphase
  cases hstep with
  | admits => exact h.setTask htask rfl rfl rfl id fun _ => Or.inl
  | finish hphase => exact h.setTask htask rfl rfl rfl (fun _ => Or.inl hphase) fun _ => Or.inl
  | requeue hphase => exact h.setTask htask rfl rfl rfl (fun _ => Or.inl hphase) fun _ => Or.inl
  | handlerRaised cancelled hphase =>
    exact h.setTask htask rfl rfl rfl (fun hw => absurd hw hended) fun _ => Or.inl
  | finished r hphase hreply =>
    exact h.setTask htask rfl rfl rfl (fun hw => absurd hw hended)
      (herase (Or.inr (Or.inl hphase)) hended)
  | finishFailed cancelled hphase =>
    exact h.setTask htask rfl rfl rfl (fun hw => absurd hw hended)
      (herase (Or.inr (Or.inl hphase)) hended)
  | delayed hphase =>
    exact h.setTask htask rfl rfl rfl (fun hw => absurd hw hhanding)
      (herase (Or.inr (Or.inr hphase)) hhanding)
  | delayCancelled hphase =>
    exact h.setTask htask rfl rfl rfl (fun hw => absurd hw hended) fun _ => Or.inl
  | locked hphase =>
    exact h.setTask htask rfl rfl rfl (fun hw => absurd hw hhanding) fun _ => Or.inl
  | handed r hphase hreply =>
    exact h.setTask htask rfl rfl rfl (fun hw => absurd hw hended) fun _ => Or.inl
  | handFailed hphase =>
    exact h.setTask htask rfl rfl rfl (fun hw => absurd hw hended) fun _ => Or.inl
  | handCancelled locked hphase =>
    exact h.setTask htask rfl rfl rfl (fun hw => absurd hw hended) fun _ => Or.inl

/-- The elections start no handler, and a new lead loop has nothing in hand. -/
theorem Worker.Once.runStep (h : k.Once done d) (hstep : RunStep k note k') : k'.Once done d := by
  cases hstep with
  | won mutex hasking =>
    refine h.relead rfl (fun _ _ => id) ?_
    intro l hl
    obtain rfl := Option.some.inj hl
    exact Or.inr ⟨rfl, fun t hw => hw, rfl⟩
  | loseMutex l hlead =>
    refine h.relead rfl (fun _ _ => id) ?_
    intro l' hl'
    obtain rfl := Option.some.inj hl'
    exact Or.inl ⟨l, hlead, rfl, rfl⟩
  | clear hlead hidle htasks htouch =>
    refine h.off rfl ?_ hlead
    rintro id ⟨t, task, htask, -, hworking⟩ -
    obtain ⟨cancelled, hended⟩ := htasks task (List.mem_of_getElem? htask)
    rcases hworking with hphase | hphase | hphase <;> (rw [hended] at hphase; cases hphase)
  | _ => exact h.relead rfl (fun _ _ => id) fun l hl => Or.inl ⟨l, hl, rfl, rfl⟩

/-- The touch loop starts no handler. -/
theorem Worker.Once.touchStep (h : k.Once done d) (hstep : TouchStep k note k') :
    k'.Once done d := by
  cases hstep <;> exact h.relead rfl (fun _ _ => id) fun l hl => Or.inl ⟨l, hl, rfl, rfl⟩

/-- A worker that does nothing. -/
theorem once_idle (htasks : k.tasks = []) (hlead : k.lead = none) : k.Once done d := by
  have hno : ∀ (t : ℕ) (task : Task W), k.tasks[t]? ≠ some task := by
    intro t task
    rw [htasks]
    simp
  have hworks : ∀ id, ¬ k.Works id := fun id ⟨t, task, htask, _⟩ => hno t task htask
  have hnone : ∀ l, k.lead ≠ some l := by
    intro l hl
    rw [hlead] at hl
    cases hl
  refine ⟨fun id hw => absurd hw (hworks id), fun id hw => absurd hw (hworks id), ?_, ?_, ?_, ?_,
    ?_⟩
  · exact fun t _ task _ htask => absurd htask (hno t task)
  · exact fun l _ _ _ _ hl => absurd hl (hnone l)
  · exact fun l _ hl => absurd hl (hnone l)
  · exact fun l hl => absurd hl (hnone l)
  · exact fun l hl => absurd hl (hnone l)

/-- A handler is started for an entry the lead loop may still start. -/
theorem WorkerStep.coming_of_start [DecidableEq W] {id : ℕ}
    (hstep : WorkerStep cfg w k (.start id) k') : ∃ l, k.lead = some l ∧ id ∈ l.coming := by
  cases hstep with
  | @lead l _ _ hlead hstep =>
    refine ⟨l, hlead, l.inHand_sublist.subset ?_⟩
    cases hstep with
    | startUncapped _ fields rest job hpc => exact hpc ▸ List.mem_cons_self
    | startCapped _ jobId rest m hpc => exact hpc ▸ List.mem_cons_self
  | task htask hstep => cases hstep
  | run hstep => cases hstep
  | touch hstep => cases hstep

/-- A worker that acts works on nothing twice. -/
theorem Worker.Once.step [DecidableEq W] (h : k.Once done d) (hstep : WorkerStep cfg w k note k') :
    k'.Once done d := by
  cases hstep with
  | lead hlead hstep => exact h.leadStep hlead hstep
  | task htask hstep => exact h.taskStep htask hstep
  | run hstep => exact h.runStep hstep
  | touch hstep => exact h.touchStep hstep

end Steps

/-! ## What replies bring -/

section Serve

variable {done : Set ℕ} {d : ℕ} {k : Worker W} {s : Server W} {w : W} {co : Co} {cmd : Command W}

/-- A report names some of the identifiers it is about: those of deleted entries are nil. -/
theorem idList_report_sublist (s : StreamKey W Fields) (ids : List ℕ) :
    (idList (ids.map s.report)).Sublist ids := by
  induction ids with
  | nil => exact .refl _
  | cons id ids ih =>
    rw [List.map_cons, StreamKey.report]
    split
    · exact ih.cons_cons id
    · exact ih.cons id

variable (cfg s w) in
/-- A reply brings pending entries that are not in the snapshot, or the next unread one. -/
theorem arriving_exec [DecidableEq W] {l : Lead W} (hcmd : l.command = some cmd) :
    l.pc.arriving (exec cfg w s cmd).2 = [] ∨
      (l.pc.inHand = [] ∧ ∃ snapshot, l.pc.snapshot = some snapshot ∧
        (l.pc.arriving (exec cfg w s cmd).2).Sublist
          (s.stream.pendingIds.filter (· ∉ snapshot))) ∨
      (l.pc = .reading ∧ ∃ stream, s.stream.readNew w 1 s.now = some (stream, s.stream.unread 1) ∧
        exec cfg w s cmd = ({ s with stream := stream },
          .entries ((s.stream.unread 1).map fun e => (some e.id, some e.fields)))) := by
  rw [Lead.command] at hcmd
  cases hpc : l.pc with
  | claiming snapshot =>
    rw [hpc] at hcmd
    obtain rfl := Option.some.inj hcmd
    rw [exec]
    split
    · exact Or.inl rfl
    · rename_i stream es cursor hclaim
      obtain ⟨-, -, ids, hids, rfl⟩ := StreamKey.autoclaim_eq_some hclaim
      refine Or.inr (Or.inl ⟨rfl, snapshot, rfl, ?_⟩)
      show (idList (usable snapshot _)).Sublist _
      rw [idList_usable]
      exact ((idList_report_sublist s.stream ids).trans hids).filter _
  | collecting snapshot =>
    rw [hpc] at hcmd
    obtain rfl := Option.some.inj hcmd
    rw [exec]
    split
    · exact Or.inl rfl
    · rename_i stream es hread
      obtain ⟨-, -, ids, hids, rfl⟩ := StreamKey.readOwn_eq_some hread
      refine Or.inr (Or.inl ⟨rfl, snapshot, rfl, ?_⟩)
      show (idList (usable snapshot _)).Sublist _
      rw [idList_usable]
      have hlist : idList ((ids.map fun id => (id, s.stream.fieldsOf id)).map
          fun e => (some e.1, e.2)) = ids := by
        simp [idList, List.filterMap_map, Function.comp_def]
      rw [hlist]
      exact hids.filter _
  | reading =>
    rw [hpc] at hcmd
    obtain rfl := Option.some.inj hcmd
    rw [exec]
    split
    · exact Or.inl rfl
    · rename_i stream es hread
      obtain ⟨rfl, -⟩ := StreamKey.readNew_eq_some hread
      exact Or.inr (Or.inr ⟨rfl, stream, hread, rfl⟩)
  | _ => exact Or.inl rfl

/-- The queue has more finishes behind it, and has delivered more. -/
theorem Worker.Once.mono {done' : Set ℕ} {d' : ℕ} (h : k.Once done d) (hd : d ≤ d')
    (hdone : ∀ id ∈ done', id ∈ done ∨ k.Works id) : k.Once done' d' := by
  refine ⟨h.taken, fun id hw => (h.delivered id hw).trans hd, h.unique, h.watched, h.snapshot, ?_,
    h.nodup⟩
  intro l hl id hid
  obtain ⟨hfresh, hle, hfree⟩ := h.fresh l hl id hid
  exact ⟨fun hmem => (hdone id hmem).elim hfresh hfree, hle.trans hd, hfree⟩

variable (cfg w) in
/-- What a reply brings is neither finished nor worked on. -/
theorem Worker.Once.arriving [DecidableEq W] {l : Lead W} (h : k.Once done s.stream.lastDelivered)
    (hacked : ∀ id ∈ done, id ≤ s.stream.lastDelivered ∧ id ∉ s.stream.pendingIds)
    (hlead : k.lead = some l) (hcmd : l.command = some cmd) :
    (l.pc.inHand ++ l.pc.arriving (exec cfg w s cmd).2).Nodup ∧
      ∀ id ∈ l.pc.inHand ++ l.pc.arriving (exec cfg w s cmd).2,
        id ∉ done ∧ id ≤ (exec cfg w s cmd).1.stream.lastDelivered ∧ ¬ k.Works id := by
  have hadvance : s.stream.lastDelivered ≤ (exec cfg w s cmd).1.stream.lastDelivered :=
    (advances_exec cmd).lastDelivered
  have hold : ∀ id ∈ l.pc.inHand,
      id ∉ done ∧ id ≤ (exec cfg w s cmd).1.stream.lastDelivered ∧ ¬ k.Works id := by
    intro id hid
    obtain ⟨hdone, hle, hfree⟩ := h.fresh l hlead id (l.inHand_sublist.subset hid)
    exact ⟨hdone, hle.trans hadvance, hfree⟩
  rcases arriving_exec cfg s w hcmd with
    hnil | ⟨hnone, snapshot, hpc, hsub⟩ | ⟨hpc, stream, hread, hexec⟩
  · rw [hnil, List.append_nil]
    exact ⟨(h.nodup l hlead).sublist l.inHand_sublist, hold⟩
  · rw [hnone, List.nil_append]
    refine ⟨(s.stream.nodup_pendingIds.sublist List.filter_sublist).sublist hsub, ?_⟩
    intro id hid
    obtain ⟨hpending, hfiltered⟩ := List.mem_filter.mp (hsub.subset hid)
    refine ⟨fun hdone => (hacked id hdone).2 hpending,
      (StreamKey.le_lastDelivered hpending).trans hadvance, fun hw => ?_⟩
    -- whoever works now worked when the snapshot was made
    have hmem := h.snapshot l snapshot hlead hpc id hw
    simp [hmem] at hfiltered
  · obtain ⟨-, -, -, -, hlast⟩ := StreamKey.readNew_eq_some hread
    have hids : l.pc.inHand ++ l.pc.arriving (exec cfg w s cmd).2 =
        (s.stream.unread 1).map StreamEntry.id := by
      rw [hexec, hpc]
      exact idList_entries
    rw [hids]
    refine ⟨?_, ?_⟩
    · exact (List.pairwise_map.mpr (s.stream.sorted_unread 1)).imp fun hlt => hlt.ne
    · intro id hid
      obtain ⟨e, he, rfl⟩ := List.mem_map.mp hid
      have hunread := (StreamKey.mem_of_mem_unread he).2
      have hle := (le_lastIdOf (s.stream.sorted_unread 1)
        (fun f hf => (StreamKey.mem_of_mem_unread hf).2)).2 e he
      refine ⟨fun hdone => ?_, ?_, fun hw => ?_⟩
      · exact absurd (hacked _ hdone).1 (Nat.not_le.mpr hunread)
      · rw [hexec]
        exact hlast ▸ hle
      · exact absurd (h.delivered _ hw) (Nat.not_le.mpr hunread)

/-- A reply to the lead loop brings what it may start. -/
theorem Worker.Once.answerLead [DecidableEq W] (h : k.Once done s.stream.lastDelivered)
    (hacked : ∀ id ∈ done, id ≤ s.stream.lastDelivered ∧ id ∉ s.stream.pendingIds)
    (hcmd : k.command .lead = some cmd) :
    (k.answer (exec cfg w s cmd).2 .lead).Once done (exec cfg w s cmd).1.stream.lastDelivered := by
  obtain ⟨l, hlead, hcmd⟩ := Option.bind_eq_some_iff.mp hcmd
  obtain ⟨hnodup, hfresh⟩ := h.arriving cfg w hacked hlead hcmd
  have hanswer := Worker.lead_answer (r := (exec cfg w s cmd).2) hlead
  have hadvance : s.stream.lastDelivered ≤ (exec cfg w s cmd).1.stream.lastDelivered :=
    (advances_exec cmd).lastDelivered
  refine ⟨h.taken, fun id hw => (h.delivered id hw).trans hadvance, h.unique, ?_, ?_, ?_, ?_⟩
  · intro l' t t' task task' hl' hw
    obtain rfl := Option.some.inj (hanswer.symm.trans hl')
    exact h.watched l t t' task task' hlead hw
  · intro l' snapshot hl' hsome
    obtain rfl := Option.some.inj (hanswer.symm.trans hl')
    exact h.snapshot l snapshot hlead hsome
  · intro l' hl' id hid
    obtain rfl := Option.some.inj (hanswer.symm.trans hl')
    exact hfresh id hid
  · intro l' hl'
    obtain rfl := Option.some.inj (hanswer.symm.trans hl')
    exact hnodup

/-- A reply to another coroutine brings nothing. -/
theorem Worker.Once.answer {r : Reply W} (h : k.Once done d) (hco : co ≠ .lead) :
    (k.answer r co).Once done d := by
  cases co with
  | run =>
    rw [Worker.answer]
    split
    · exact h.relead rfl (fun _ _ => id) fun l hl => Or.inl ⟨l, hl, rfl, rfl⟩
    · exact h
  | lead => exact absurd rfl hco
  | task t =>
    rcases Worker.answer_task (k := k) (r := r) (t := t) with heq | ⟨task, htask, heq⟩
    · rw [heq]
      exact h
    · rw [heq]
      exact h.setTask htask rfl rfl rfl id fun _ => Or.inl
  | touch =>
    rw [Worker.answer]
    split
    · exact h.relead rfl (fun _ _ => id) fun l hl => Or.inl ⟨l, hl, rfl, rfl⟩
    · exact h

/-- Who sends a finish is a task that finishes the entry. -/
theorem Worker.finishing_of_command {jobId : String} {id : ℕ}
    (hcmd : k.command co = some (.finish jobId id)) : co ≠ .lead ∧
      ∃ (t : ℕ) (task : Task W), k.tasks[t]? = some task ∧ task.entry = id ∧
        task.phase = .finishing := by
  cases co with
  | run =>
    rw [Worker.command] at hcmd
    split at hcmd <;> cases hcmd
  | lead =>
    obtain ⟨l, -, hl⟩ := Option.bind_eq_some_iff.mp hcmd
    exact absurd hl Lead.command_ne_finish
  | touch =>
    rw [Worker.command] at hcmd
    split at hcmd <;> cases hcmd
  | task t =>
    obtain ⟨task, htask, hfinish⟩ := Option.bind_eq_some_iff.mp hcmd
    refine ⟨by simp, t, task, htask, ?_⟩
    rw [Task.command] at hfinish
    split at hfinish
    · rename_i hphase
      cases hfinish
      exact ⟨rfl, hphase⟩
    · cases hfinish
    · cases hfinish

/-- It works on the entry. -/
theorem Worker.works_of_finish {jobId : String} {id : ℕ}
    (hcmd : k.command co = some (.finish jobId id)) : co ≠ .lead ∧ k.Works id := by
  obtain ⟨hco, t, task, htask, hentry, hphase⟩ := Worker.finishing_of_command hcmd
  exact ⟨hco, t, task, htask, hentry, Or.inr (Or.inl hphase)⟩

end Serve

/-! ## Runs -/

section Run

variable {done done' : Set ℕ} {tr : List (Event W)} {s s' : World W} {w : W} {e : Event W}

/-- The invariant of `w` beside the server: what it has finished is delivered and not pending. -/
structure OnceAt (w : W) (done : Set ℕ) (s : World W) : Prop where
  worker : (s.workers w).Once done s.server.stream.lastDelivered
  acked : ∀ id ∈ done, id ≤ s.server.stream.lastDelivered ∧ id ∉ s.server.stream.pendingIds

/-- Where fewer finishes count, the invariant holds too. -/
theorem OnceAt.subset (h : OnceAt w done s) (hsub : ∀ id ∈ done', id ∈ done) :
    OnceAt w done' s :=
  ⟨h.worker.mono le_rfl fun id hid => Or.inl (hsub id hid), fun id hid => h.acked id (hsub id hid)⟩

/-- The stream advances, and `w` does nothing. -/
theorem OnceAt.advances (h : OnceAt w done s) {stream : StreamKey W Fields}
    (hadvances : s.server.stream.Advances stream) :
    (s.workers w).Once done stream.lastDelivered ∧
      ∀ id ∈ done, id ≤ stream.lastDelivered ∧ id ∉ stream.pendingIds := by
  refine ⟨h.worker.mono hadvances.lastDelivered fun _ => Or.inl, fun id hid => ?_⟩
  obtain ⟨hle, hnot⟩ := h.acked id hid
  refine ⟨hle.trans hadvances.lastDelivered, fun hpending => ?_⟩
  rcases hadvances.pending id hpending with hold | hnew
  · exact hnot hold
  · exact absurd hle (Nat.not_le.mpr hnew)

/-- A command of `w` itself executes; it may be a finish. -/
theorem OnceAt.exec [DecidableEq W] (h : OnceAt w done s) {co : Co} {cmd : Command W}
    (hcmd : (s.workers w).command co = some cmd)
    (hdone : ∀ id ∈ done', id ∈ done ∨ ∃ jobId, cmd = .finish jobId id) :
    OnceAt w done' { s with
      server := (Dispatch.exec cfg w s.server cmd).1
      workers := Function.update s.workers w
        ((s.workers w).answer (Dispatch.exec cfg w s.server cmd).2 co) } := by
  have hadvances : s.server.stream.Advances (Dispatch.exec cfg w s.server cmd).1.stream :=
    advances_exec cmd
  refine ⟨?_, fun id hid => ?_⟩
  · simp only [Function.update_self]
    by_cases hco : co = .lead
    · subst hco
      refine (h.worker.answerLead h.acked hcmd).mono le_rfl fun id hid => Or.inl ?_
      refine (hdone id hid).resolve_right ?_
      rintro ⟨jobId, rfl⟩
      exact (Worker.works_of_finish hcmd).1 rfl
    · refine (h.worker.mono hadvances.lastDelivered fun id hid => ?_).answer hco
      refine (hdone id hid).imp_right ?_
      rintro ⟨jobId, rfl⟩
      exact (Worker.works_of_finish hcmd).2
  · rcases hdone id hid with hold | ⟨jobId, rfl⟩
    · exact (h.advances hadvances).2 id hold
    · have hle := h.worker.delivered id (Worker.works_of_finish hcmd).2
      refine ⟨hle.trans hadvances.lastDelivered, fun hpending => ?_⟩
      exact (StreamKey.mem_pendingIds_ack.mp hpending).2 rfl

/-- Any step keeps the invariant, when nothing is finished but by a command of `w` that executes. -/
theorem OnceAt.step [DecidableEq W] (h : OnceAt w done s) (hstep : Step cfg s e s')
    (hdone : ∀ id ∈ done', id ∈ done ∨ ∃ co jobId, e = .exec w co (.finish jobId id)) :
    OnceAt w done' s' := by
  have hserve (w' : W) (cmd : Command W) :
      s.server.stream.Advances (Dispatch.exec cfg w' s.server cmd).1.stream := advances_exec cmd
  by_cases hown : ∃ co cmd, e = .exec w co cmd
  · obtain ⟨co, cmd, rfl⟩ := hown
    cases hstep with
    | exec _ _ _ hcmd =>
      refine h.exec hcmd fun id hid => (hdone id hid).imp_right ?_
      rintro ⟨co', jobId, heq⟩
      obtain ⟨-, -, rfl⟩ := Event.exec.inj heq
      exact ⟨jobId, rfl⟩
  · have hsub : ∀ id ∈ done', id ∈ done := by
      intro id hid
      refine (hdone id hid).resolve_right ?_
      rintro ⟨co, jobId, rfl⟩
      exact hown ⟨co, _, rfl⟩
    refine OnceAt.subset ?_ hsub
    cases hstep with
    | append | advance | expire => exact ⟨h.worker, h.acked⟩
    | exec w' co cmd hcmd =>
      have hne : w ≠ w' := by
        rintro rfl
        exact hown ⟨co, cmd, rfl⟩
      obtain ⟨hworker, hacked⟩ := h.advances (hserve w' cmd)
      refine ⟨?_, hacked⟩
      simpa only [Function.update_of_ne hne] using hworker
    | late w' cmd hstray =>
      obtain ⟨hworker, hacked⟩ := h.advances (hserve w' cmd)
      exact ⟨hworker, hacked⟩
    | act w' note k halive hstep =>
      refine ⟨?_, h.acked⟩
      by_cases heq : w = w'
      · subst heq
        simpa only [Function.update_self] using h.worker.step hstep
      · simpa only [Function.update_of_ne heq] using h.worker
    | crash w' =>
      refine ⟨?_, h.acked⟩
      by_cases heq : w = w'
      · subst heq
        simpa only [Function.update_self] using once_idle rfl rfl
      · simpa only [Function.update_of_ne heq] using h.worker

/-- In every run, whatever happens to commands, a worker works on no entry twice at once. -/
theorem onceAt_of_run [DecidableEq W] (h : (system cfg).Run tr s) : OnceAt w ∅ s := by
  refine System.Run.invariant (I := fun _ s => OnceAt w ∅ s) ?_ ?_ h
  · rintro s rfl
    exact ⟨once_idle rfl rfl, fun id hid => hid.elim⟩
  · intro tr s e s' _ honce hstep
    exact honce.step hstep fun id hid => hid.elim

/-- In every run in which the commands of `w` take effect in time, it works on nothing it has
finished. -/
theorem onceAt_of_prompt [DecidableEq W] (h : ((system cfg).restrict (Prompt w)).Run tr s) :
    OnceAt w (finishedBy w tr) s := by
  refine System.Run.invariant (I := fun tr s => OnceAt w (finishedBy w tr) s) ?_ ?_ h
  · rintro s rfl
    refine ⟨once_idle rfl rfl, fun id hid => ?_⟩
    obtain ⟨e, he, -⟩ := hid
    exact absurd he List.not_mem_nil
  · rintro tr s e s' - honce ⟨hprompt, hstep⟩
    refine honce.step hstep ?_
    rintro id ⟨e', he', jobId, hexec⟩
    rcases List.mem_cons.mp he' with rfl | hold
    · right
      cases e' with
      | exec w' co cmd =>
        obtain ⟨rfl, rfl⟩ := Prod.mk.inj (Option.some.inj hexec)
        exact ⟨co, jobId, rfl⟩
      | late w' cmd =>
        obtain ⟨rfl, rfl⟩ := Prod.mk.inj (Option.some.inj hexec)
        exact absurd rfl (hprompt _)
      | append | advance | expire | act | crash => cases hexec
    · exact Or.inl ⟨e', hold, jobId, hexec⟩

/-- **No job twice.** When a worker starts a handler, no earlier handler of it for that entry is
still executing, and no finish of it for that entry has executed on the server. -/
theorem never_twice [DecidableEq W] {id : ℕ} (h : ((system cfg).restrict (Prompt w)).Run tr s)
    (hstart : Step cfg s (.act w (.start id)) s') :
    (∀ (t : ℕ) (task : Task W), (s.workers w).tasks[t]? = some task → task.entry = id →
      task.phase ≠ .handler) ∧
    ∀ e ∈ tr, ∀ jobId, e.executes ≠ some (w, .finish jobId id) := by
  have honce := onceAt_of_prompt h
  obtain ⟨l, hl, hcoming⟩ : ∃ l, (s.workers w).lead = some l ∧ id ∈ l.coming := by
    cases hstart with
    | act _ _ k halive hstep => exact hstep.coming_of_start
  obtain ⟨hdone, -, hfree⟩ := honce.worker.fresh l hl id hcoming
  refine ⟨fun t task htask hentry hphase => hfree ⟨t, task, htask, hentry, Or.inl hphase⟩, ?_⟩
  exact fun e he jobId hexec => hdone ⟨e, he, jobId, hexec⟩

/-- Worker `0` has run the handler of entry `1`, which has asked for a requeue, and the next reclaim
has found the entry. -/
def requeuedOnce : List (Event ℕ) :=
  [.act 0 .quiet, .exec 0 .lead (.autoclaim 0), .act 0 .quiet, .exec 0 .lead .time, .act 0 .quiet,
    .act 0 .quiet, .act 0 .quiet, .act 0 .quiet, .exec 0 (.task 0) (.handBack {1}), .act 0 .quiet,
    .act 0 .quiet, .act 0 .quiet, .act 0 (.start 1), .act 0 .quiet, .exec 0 .lead .readNew,
    .append 1 ping, .act 0 .quiet, .act 0 .quiet, .exec 0 .lead .ensureGroup, .act 0 .quiet,
    .exec 0 .run (.acquire 0), .act 0 .quiet]

/-- Worker `0` starts the entry a second time. The task of the first start is still there, and over;
no finish of the entry has executed. -/
theorem never_twice_requeued : ∃ s s' : World ℕ,
    ((system plain).restrict (Prompt 0)).Run requeuedOnce s ∧
    Step plain s (.act 0 (.start 1)) s' ∧
    (∃ task, (s.workers 0).tasks[0]? = some task ∧ task.entry = 1 ∧ task.phase ≠ .handler) ∧
    ∀ e ∈ requeuedOnce, ∀ jobId, e.executes ≠ some (0, .finish jobId 1) := by
  have htwice {s s' : World ℕ} (h : ((system plain).restrict (Prompt 0)).Run requeuedOnce s)
      (hstart : Step plain s (.act 0 (.start 1)) s') {task : Task ℕ}
      (htask : (s.workers 0).tasks[0]? = some task) (hentry : task.entry = 1) :
      ∃ s s' : World ℕ, ((system plain).restrict (Prompt 0)).Run requeuedOnce s ∧
        Step plain s (.act 0 (.start 1)) s' ∧
        (∃ task, (s.workers 0).tasks[0]? = some task ∧ task.entry = 1 ∧ task.phase ≠ .handler) ∧
        ∀ e ∈ requeuedOnce, ∀ jobId, e.executes ≠ some (0, .finish jobId 1) := by
    obtain ⟨hover, hunfinished⟩ := never_twice h hstart
    exact ⟨s, s', h, hstart, ⟨task, htask, hentry, hover 0 task htask hentry⟩, hunfinished⟩
  have h : ((system plain).restrict (Prompt 0)).Run []
      (⟨.initial, fun _ => .initial, []⟩ : World ℕ) := .start rfl
  have h := h.step ⟨by rintro _ ⟨⟩, Step.act 0 _ _ rfl (.run (.ask rfl rfl))⟩
  have h := h.step ⟨by rintro _ ⟨⟩, Step.exec 0 .run _ rfl⟩
  have h := h.step ⟨by rintro _ ⟨⟩, Step.act 0 _ _ rfl (.run (.won 0 rfl))⟩
  have h := h.step ⟨by rintro _ ⟨⟩, Step.exec 0 .lead _ rfl⟩
  have h := h.step ⟨by rintro _ ⟨⟩, Step.act 0 _ _ rfl (.lead rfl (.ensured .top _ rfl rfl))⟩
  have h := h.step ⟨by rintro _ ⟨⟩, Step.act 0 _ _ rfl (.lead rfl (.skip rfl rfl rfl rfl))⟩
  have h := h.step ⟨by rintro _ ⟨⟩, Step.append 1 ping (by decide)⟩
  have h := h.step ⟨by rintro _ ⟨⟩, Step.exec 0 .lead _ rfl⟩
  have h := h.step ⟨by rintro _ ⟨⟩,
    Step.act 0 _ _ rfl (.lead rfl (.read [(some 1, some ping)] rfl rfl))⟩
  have h := h.step ⟨by rintro _ ⟨⟩, Step.act 0 _ _ rfl
    (.lead rfl (.startUncapped 1 ping [] _ rfl (by decide) decode_ping rfl))⟩
  -- the handler raises `RequeueJob`, and the entry goes back
  have h := h.step ⟨by rintro _ ⟨⟩, Step.act 0 _ _ rfl (.task (t := 0) rfl (.requeue rfl))⟩
  have h := h.step ⟨by rintro _ ⟨⟩, Step.act 0 _ _ rfl (.task (t := 0) rfl (.delayed rfl))⟩
  have h := h.step ⟨by rintro _ ⟨⟩, Step.act 0 _ _ rfl (.task (t := 0) rfl (.locked rfl rfl))⟩
  have h := h.step ⟨by rintro _ ⟨⟩, Step.exec 0 (.task 0) _ rfl⟩
  have h := h.step ⟨by rintro _ ⟨⟩,
    Step.act 0 _ _ rfl (.task (t := 0) rfl (.handed .done rfl rfl))⟩
  -- so the loop goes on, and its reclaim finds the entry
  have h := h.step ⟨by rintro _ ⟨⟩, Step.act 0 _ _ rfl
    (.lead rfl (.settled 0 _ [] rfl rfl (Or.inr ⟨false, rfl⟩) (by simp [Task.GoesBack])))⟩
  have h := h.step ⟨by rintro _ ⟨⟩, Step.act 0 _ _ rfl (.lead rfl (.batchDone rfl))⟩
  have h := h.step ⟨by rintro _ ⟨⟩, Step.act 0 _ _ rfl (.lead rfl (.reclaim rfl rfl rfl))⟩
  have h := h.step ⟨by rintro _ ⟨⟩, Step.exec 0 .lead .time rfl⟩
  have h := h.step ⟨by rintro _ ⟨⟩, Step.act 0 _ _ rfl (.lead rfl (.timed _ .done rfl rfl))⟩
  have h := h.step ⟨by rintro _ ⟨⟩, Step.exec 0 .lead (.autoclaim 0) rfl⟩
  have h := h.step ⟨by rintro _ ⟨⟩,
    Step.act 0 _ _ rfl (.lead rfl (.claimed _ [(some 1, some ping)] 0 rfl rfl))⟩
  exact htwice h (Step.act 0 _ _ rfl
    (.lead rfl (.startUncapped 1 ping [] _ rfl (by decide) decode_ping rfl))) rfl rfl

end Run

end RedisSemaphore.Dispatch

import RedisSemaphore.Dispatch.Lifecycle

/-!
# The shutdown leaves nothing behind

However often a run is cancelled, its cleanup goes through the same four stages, and each of them
waits for tasks that nothing can create any more: no election follows the loop, no handler the lead
loops. The set `_handlers` is never cleared by the shutdown. It is empty because the callback that
removes a task runs before the one through which the `gather` hears of its end.
-/

namespace RedisSemaphore.Dispatch.Lifecycle

open Redis Transition

variable {κ W : Type*} {π : Type} {settings : Settings κ W π} {me : W}

/-! ## One queue -/

namespace Part

/-- What holds of a queue's part at any time: a lead loop is in `_leading`, a handler that is not
over is in `_handlers`, and a task in `_handlers` has its removal as the next callback. -/
structure Kept (p : Part W) : Prop where
  leading : ∀ l, p.lead = some l → p.leading = true
  handlers : ∀ t task, p.tasks[t]? = some task → task.Ended ∨ t ∈ p.handlers
  callbacks : ∀ t ∈ p.handlers, ∃ rest, p.callbacks t = .discard :: rest

/-- Nothing of a run is left. -/
structure Clean (p : Part W) : Prop where
  lead : p.lead = none
  tasks : ∀ task ∈ p.tasks, task.Ended
  leading : p.leading = false
  taken : p.taken = none
  reclaimNow : p.reclaimNow = false
  nextPrune : p.nextPrune = false
  handlers : p.handlers = ∅
  streamHandlers : p.streamHandlers = none

/-- The lead loop is over, and the `gather` waits for every handler. -/
def Waits (p : Part W) : Prop :=
  p.lead = none ∧ ∀ t ∈ p.handlers, .gathered ∈ p.callbacks t

/-- The lead loop and the handlers are over. -/
def Over (p : Part W) : Prop := p.lead = none ∧ p.handlers = ∅

variable {p p' : Part W} {stopping claimLock : Bool}

/-- A queue that was never led. -/
theorem kept_initial : (initial : Part W).Kept := by
  refine ⟨fun l h => (nomatch h), fun t task h => ?_, fun t h => ?_⟩
  · cases h
  · exact absurd h (Finset.notMem_empty t)

/-- A queue that was never led is clean. -/
theorem clean_initial : (initial : Part W).Clean :=
  ⟨rfl, fun _ h => (nomatch h), rfl, rfl, rfl, rfl, rfl, rfl⟩

/-- A lead loop keeps the part: the handler it starts is in `_handlers` from the beginning. -/
theorem Kept.afterLead [DecidableEq W] {cfg : Config W π} {l : Lead W} {note : Note W}
    {k : Worker W} (h : p.Kept) (hlead : p.lead = some l)
    (hstep : LeadStep cfg me (p.view stopping claimLock) l note k) :
    (p.afterLead note k).Kept := by
  have hleading : p.leading = true := h.leading l hlead
  have hinsert : ∀ t ∈ insert p.tasks.length p.handlers,
      ∃ rest, Function.update p.callbacks p.tasks.length [.discard, .discardStream] t
        = .discard :: rest := by
    intro t ht
    rcases eq_or_ne t p.tasks.length with rfl | hne
    · exact ⟨[.discardStream], Function.update_self ..⟩
    · rw [Function.update_of_ne hne]
      exact h.callbacks t ((Finset.mem_insert.mp ht).resolve_left hne)
  rcases hstep.frame hlead with ⟨entry, jobId, rest, rfl, rfl⟩ | hframe
  · refine ⟨fun _ _ => hleading, fun t task htask => ?_, hinsert⟩
    have hstart := @Worker.getElem?_start W (p.view stopping claimLock) l entry jobId rest t task
    rcases hstart htask with hold | ⟨rfl, -⟩
    · exact (h.handlers t task hold).imp_right Finset.mem_insert_of_mem
    · exact Or.inr (Finset.mem_insert_self _ _)
  · have htasks : k.tasks = p.tasks := hframe.tasks
    unfold Part.afterLead
    cases note with
    | start entry =>
      refine ⟨fun _ _ => hleading, fun t task htask => ?_, hinsert⟩
      rw [htasks] at htask
      exact (h.handlers t task htask).imp_right Finset.mem_insert_of_mem
    | _ =>
      dsimp only
      split
      all_goals
        refine ⟨fun _ _ => hleading, fun t task htask => ?_, h.callbacks⟩
        exact h.handlers t task (by rwa [htasks] at htask)

/-- A task keeps the part. -/
theorem Kept.afterTask {t : ℕ} {task : Task W} {note : Note W} {k : Worker W} (h : p.Kept)
    (htask : p.tasks[t]? = some task)
    (hstep : TaskStep (p.view stopping claimLock) t task note k) : (p.afterTask k).Kept := by
  obtain ⟨task', htasks, -, -, hended⟩ := hstep.frame.tasks
  refine ⟨h.leading, fun t₁ task₁ htask₁ => ?_, h.callbacks⟩
  replace htask₁ : k.tasks[t₁]? = some task₁ := htask₁
  rw [htasks] at htask₁
  rcases Worker.getElem?_setTask (k := p.view stopping claimLock) htask₁ with ⟨rfl, rfl⟩ | ⟨-, hold⟩
  · exact (h.handlers t₁ task htask).imp_left hended
  · exact h.handlers t₁ task₁ hold

/-- A callback keeps the part: the task is over, so it may leave `_handlers`. -/
theorem Kept.call {t : ℕ} {task : Task W} {callback : Callback} {rest : List Callback} (h : p.Kept)
    (htask : p.tasks[t]? = some task) (hended : task.Ended)
    (hcallbacks : p.callbacks t = callback :: rest) : (p.call t rest callback).Kept := by
  have hother : ∀ t' ∈ p.handlers, t' ≠ t →
      ∃ rest', Function.update p.callbacks t rest t' = .discard :: rest' := by
    intro t' ht' hne
    rw [Function.update_of_ne hne]
    exact h.callbacks t' ht'
  cases callback with
  | discard =>
    refine ⟨h.leading, fun t' task' htask' => ?_, fun t' ht' => ?_⟩
    · rcases eq_or_ne t' t with rfl | hne
      · obtain rfl := Option.some.inj (htask.symm.trans htask')
        exact Or.inl hended
      · exact (h.handlers t' task' htask').imp_right fun ht' => Finset.mem_erase.mpr ⟨hne, ht'⟩
    · exact hother t' (Finset.mem_of_mem_erase ht') (Finset.ne_of_mem_erase ht')
  | _ =>
    -- the removal comes first, so the task is no longer in `_handlers`
    refine ⟨h.leading, h.handlers, fun t' ht' => hother t' ht' ?_⟩
    rintro rfl
    obtain ⟨rest', hhead⟩ := h.callbacks t' ht'
    rw [hhead] at hcallbacks
    cases (List.cons.inj hcallbacks).1

/-- The `gather` appends its callback behind the one that is there. -/
theorem Kept.gather (h : p.Kept) : p.gather.Kept := by
  refine ⟨h.leading, h.handlers, fun t ht => ?_⟩
  obtain ⟨rest, hrest⟩ := h.callbacks t ht
  refine ⟨rest ++ [.gathered], ?_⟩
  rw [callbacks_gather (p := p) ht, hrest]
  rfl

/-- Clearing `_taken` and the rest of a run that is over keeps the part. -/
theorem Kept.clear (h : p.Kept) (hlead : p.lead = none) : p.clear.Kept := by
  refine ⟨fun l hl => ?_, h.handlers, h.callbacks⟩
  rw [show p.clear.lead = p.lead from rfl, hlead] at hl
  cases hl

/-- A reply keeps the part. -/
theorem Kept.answer {r : Reply W} {co : Co} (h : p.Kept) :
    ({ p with
        lead := ((p.view stopping claimLock).answer r co).lead
        tasks := ((p.view stopping claimLock).answer r co).tasks } : Part W).Kept := by
  refine ⟨fun l hl => ?_, fun t task htask => ?_, h.callbacks⟩
  · obtain ⟨l₀, hl₀, -⟩ := Worker.pc_of_answer hl
    exact h.leading l₀ hl₀
  · obtain ⟨task₀, htask₀, -, hphase⟩ := Worker.phase_of_answer htask
    refine (h.handlers t task₀ htask₀).imp_left ?_
    rintro ⟨cancelled, hended⟩
    exact ⟨cancelled, hphase.trans hended⟩

/-- The end of the cleanup. -/
theorem clean_clear (h : p.Kept) (hover : p.Over) : p.clear.Clean := by
  refine ⟨hover.1, fun task htask => ?_, rfl, rfl, rfl, rfl, hover.2, rfl⟩
  obtain ⟨t, ht⟩ := List.getElem?_of_mem htask
  refine (h.handlers t task ht).resolve_right fun hmem => ?_
  rw [hover.2] at hmem
  exact absurd hmem (Finset.notMem_empty t)

/-- Without a callback of the `gather` left, no handler is left. -/
theorem Waits.over (h : p.Waits) (hgathered : ∀ t, .gathered ∉ p.callbacks t) : p.Over :=
  ⟨h.1, Finset.eq_empty_of_forall_notMem fun t ht => hgathered t (h.2 t ht)⟩

/-- Once the lead loop is over, the `gather` waits for every handler there is. -/
theorem waits_gather (hlead : p.lead = none) : p.gather.Waits := by
  refine ⟨hlead, fun t ht => ?_⟩
  rw [callbacks_gather (p := p) ht]
  exact List.mem_append_right _ (List.mem_singleton_self _)

/-- What segments beside `run()` do to a part whose lead loop is over: nothing starts again. -/
structure Calms (p p' : Part W) : Prop where
  lead : p'.lead = none
  handlers : p'.handlers ⊆ p.handlers
  gathered : ∀ t ∈ p'.handlers, .gathered ∈ p.callbacks t → .gathered ∈ p'.callbacks t

/-- Nothing happens. -/
theorem Calms.refl (hlead : p.lead = none) : p.Calms p :=
  ⟨hlead, fun _ => id, fun _ _ => id⟩

/-- While the `gather` waits for every handler, handlers can only end. -/
theorem Calms.waits (h : p.Calms p') (hwaits : p.Waits) : p'.Waits :=
  ⟨h.lead, fun t ht => h.gathered t ht (hwaits.2 t (h.handlers ht))⟩

/-- What is over stays over. -/
theorem Calms.over (h : p.Calms p') (hover : p.Over) : p'.Over :=
  ⟨h.lead, Finset.subset_empty.mp (hover.2 ▸ h.handlers)⟩

/-- A reply starts no lead loop. -/
theorem lead_answer_eq_none {r : Reply W} {co : Co} (hlead : p.lead = none) :
    ((p.view stopping claimLock).answer r co).lead = none := by
  refine Option.eq_none_iff_forall_ne_some.mpr fun l hl => ?_
  obtain ⟨l₀, hl₀, -⟩ := Worker.pc_of_answer hl
  rw [show (p.view stopping claimLock).lead = p.lead from rfl, hlead] at hl₀
  cases hl₀

/-- A callback only takes tasks away, and that of the `gather` is not left in front of a removal. -/
theorem Kept.calms_call {t : ℕ} {callback : Callback} {rest : List Callback} (h : p.Kept)
    (hlead : p.lead = none) (hcallbacks : p.callbacks t = callback :: rest) :
    p.Calms (p.call t rest callback) := by
  cases callback with
  | discard =>
    refine ⟨hlead, Finset.erase_subset _ _, fun t' ht' hgathered => ?_⟩
    show _ ∈ Function.update p.callbacks t rest t'
    rwa [Function.update_of_ne (Finset.ne_of_mem_erase ht')]
  | _ =>
    refine ⟨hlead, fun _ => id, fun t' ht' hgathered => ?_⟩
    have hne : t' ≠ t := by
      rintro rfl
      obtain ⟨rest', hhead⟩ := h.callbacks t' ht'
      rw [hhead] at hcallbacks
      cases (List.cons.inj hcallbacks).1
    show _ ∈ Function.update p.callbacks t rest t'
    rwa [Function.update_of_ne hne]

/-- A callback leaves nothing behind where nothing was. -/
theorem Clean.call {t : ℕ} {callback : Callback} {rest : List Callback} (h : p.Clean) :
    (p.call t rest callback).Clean := by
  cases callback with
  | discard =>
    refine ⟨h.lead, h.tasks, h.leading, h.taken, h.reclaimNow, h.nextPrune, ?_, h.streamHandlers⟩
    show p.handlers.erase t = ∅
    rw [h.handlers, Finset.erase_empty]
  | discardStream =>
    refine ⟨h.lead, h.tasks, h.leading, h.taken, h.reclaimNow, h.nextPrune, h.handlers, ?_⟩
    show p.streamHandlers.map _ = none
    rw [h.streamHandlers]
    rfl
  | gathered =>
    exact ⟨h.lead, h.tasks, h.leading, h.taken, h.reclaimNow, h.nextPrune, h.handlers,
      h.streamHandlers⟩

/-- A task that is over leaves nothing behind. -/
theorem Clean.afterTask {t : ℕ} {task : Task W} {note : Note W} {k : Worker W} (h : p.Clean)
    (htask : p.tasks[t]? = some task)
    (hstep : TaskStep (p.view stopping claimLock) t task note k) : (p.afterTask k).Clean := by
  have hended : task.Ended := h.tasks task (List.mem_of_getElem? htask)
  obtain ⟨-, rfl⟩ := hstep.of_ended hended
  refine ⟨h.lead, fun task' htask' => ?_, h.leading, ?_, h.reclaimNow, h.nextPrune, h.handlers,
    h.streamHandlers⟩
  · rcases List.mem_or_eq_of_mem_set htask' with hold | rfl
    · exact h.tasks task' hold
    · exact hended
  · show p.takenAfter _ = none
    simp [takenAfter, Worker.setTask, view, h.taken, h.lead]

/-- A reply leaves nothing behind where nothing was. -/
theorem Clean.answer {r : Reply W} {co : Co} (h : p.Clean) :
    ({ p with
        lead := ((p.view stopping claimLock).answer r co).lead
        tasks := ((p.view stopping claimLock).answer r co).tasks } : Part W).Clean := by
  refine ⟨lead_answer_eq_none h.lead, fun task htask => ?_, h.leading, h.taken, h.reclaimNow,
    h.nextPrune, h.handlers, h.streamHandlers⟩
  obtain ⟨t, ht⟩ := List.getElem?_of_mem htask
  obtain ⟨task₀, htask₀, -, hphase⟩ := Worker.phase_of_answer ht
  obtain ⟨cancelled, hended⟩ := h.tasks task₀ (List.mem_of_getElem? htask₀)
  exact ⟨cancelled, hphase.trans hended⟩

end Part

/-! ## The worker -/

namespace DispatchWorker

/-- Nothing of a run is left. -/
structure Clean (d : DispatchWorker κ W) : Prop where
  parts : ∀ q, (d.parts q).Clean
  requeued : d.requeued = ∅
  touch : d.touch = none
  running : d.running = false

/-- How far the cleanup has come. -/
def Stands (d : DispatchWorker κ W) : Prop :=
  match d.pc with
  | .idle => d.Clean
  | .closing .handlers _ _ => ∀ q, (d.parts q).Waits
  | .closing .touch _ _ => ∀ q, (d.parts q).Over
  | .closing .done _ _ => d.Clean
  | _ => True

/-- **The invariant.** -/
structure Tidy (d : DispatchWorker κ W) : Prop where
  kept : ∀ q, (d.parts q).Kept
  stands : d.Stands

variable {d d' : DispatchWorker κ W}

/-- A worker that was never run. -/
theorem tidy_initial : (initial : DispatchWorker κ W).Tidy :=
  ⟨fun _ => Part.kept_initial, fun _ => Part.clean_initial, rfl, rfl, rfl⟩

/-- While a lead loop runs, the cleanup waits for it at most. -/
theorem Stands.of_lead (h : d.Stands) {q : κ} {l : Lead W} (hlead : (d.parts q).lead = some l)
    (hpc : d'.pc = d.pc) : d'.Stands := by
  have hnone : (d.parts q).lead ≠ none := by simp [hlead]
  unfold Stands at h ⊢
  rw [hpc]
  split at h
  · exact absurd (h.parts q).lead hnone
  · exact absurd (h q).1 hnone
  · exact absurd (h q).1 hnone
  · exact absurd (h.parts q).lead hnone
  · trivial

/-- What other coroutines do cannot set the cleanup back. -/
theorem Stands.calms (h : d.Stands) (hpc : d'.pc = d.pc)
    (hcalms : ∀ q, (d.parts q).lead = none → (d.parts q).Calms (d'.parts q))
    (hclean : d.Clean → d'.Clean) : d'.Stands := by
  unfold Stands at h ⊢
  rw [hpc]
  split at h
  · exact hclean h
  · exact fun q => (hcalms q (h q).1).waits (h q)
  · exact fun q => (hcalms q (h q).1).over (h q)
  · exact hclean h
  · trivial

section Parts

variable [DecidableEq κ]

/-- What holds of the part that changes and of all parts before, holds of all parts after. -/
theorem forall_setPart {P : κ → Part W → Prop} {q : κ} {p : Part W} (hq : P q p)
    (h : ∀ q', P q' (d.parts q')) (q' : κ) : P q' ((d.setPart q p).parts q') :=
  (Function.forall_update_iff d.parts P).mpr ⟨hq, fun q' _ => h q'⟩ q'

/-- A change of one part that keeps it and calms it keeps the worker tidy. -/
theorem Tidy.setPart {q : κ} {p : Part W} (h : d.Tidy) (hparts : d'.parts = (d.setPart q p).parts)
    (hkept : p.Kept) (hpc : d'.pc = d.pc)
    (hcalms : (d.parts q).lead = none → (d.parts q).Calms p)
    (hclean : d.Clean → p.Clean ∧ d'.requeued = ∅ ∧ d'.touch = none ∧ d'.running = false) :
    d'.Tidy := by
  constructor
  · rw [hparts]
    exact forall_setPart (P := fun _ p => p.Kept) hkept h.kept
  · refine h.stands.calms hpc ?_ fun hold => ?_
    · rw [hparts]
      exact forall_setPart (P := fun q' p => (d.parts q').lead = none → (d.parts q').Calms p) hcalms
        fun q' hlead => .refl hlead
    · obtain ⟨hp, hrequeued, htouch, hrunning⟩ := hclean hold
      refine ⟨?_, hrequeued, htouch, hrunning⟩
      rw [hparts]
      exact forall_setPart (P := fun _ p => p.Clean) hp hold.parts

end Parts

/-- A change of the touch loop keeps the worker tidy. -/
theorem Tidy.touch (h : d.Tidy) (hparts : d'.parts = d.parts) (hpc : d'.pc = d.pc)
    (hclean : d.Clean → d'.Clean) : d'.Tidy := by
  refine ⟨hparts ▸ h.kept, h.stands.calms hpc (fun q hlead => ?_) hclean⟩
  rw [hparts]
  exact .refl hlead

/-- Dropping the tasks of ended loops from `_leading` keeps every part. -/
theorem kept_dropDone (h : ∀ q, (d.parts q).Kept) (q : κ) : (d.dropDone.parts q).Kept := by
  refine ⟨fun l hl => ?_, (h q).handlers, (h q).callbacks⟩
  show ((d.parts q).leading && (d.parts q).lead.isSome) = true
  rw [(h q).leading l hl, show (d.parts q).lead = some l from hl]
  rfl

/-- A fatal error is noted for the worker and changes no part. -/
theorem kept_failWith {error : Option BackendError} (h : ∀ q, (d.parts q).Kept) (q : κ) :
    ((d.failWith error).parts q).Kept := by
  unfold failWith
  split
  · split <;> exact h q
  · exact h q

/-- What `run()` does at the head of its loop keeps the invariant. -/
theorem tidy_of_head (h : ∀ q, (d.parts q).Kept) (hhead : Head settings d d') : d'.Tidy := by
  cases hhead with
  | leave hstop => exact ⟨h, trivial⟩
  | none hgo hfree => exact ⟨kept_dropDone h, trivial⟩
  | ask q rest hgo horder => exact ⟨kept_dropDone h, trivial⟩

variable [DecidableEq κ] {e : Event κ W} {given : List (κ × Command W)}

/-- `run()` keeps the worker tidy. -/
theorem Tidy.run (h : d.Tidy) (hact : RunAct settings d e given d') : d'.Tidy := by
  cases hact with
  | start hidle hrunning hhead =>
    have hkept : ∀ q, (DispatchWorker.parts
        { d with running := true, touch := some .asleep } q).Kept := h.kept
    exact tidy_of_head hkept hhead
  | again hrunning => exact h
  | stop =>
    refine h.touch rfl rfl fun hclean => ?_
    exact ⟨hclean.parts, hclean.requeued, hclean.touch, hclean.running⟩
  | won q mutex rest hasking =>
    refine ⟨?_, trivial⟩
    exact forall_setPart (P := fun _ p => p.Kept)
      ⟨fun _ _ => rfl, (h.kept q).handlers, (h.kept q).callbacks⟩ h.kept
  | lost q q' mutex rest hasking => exact ⟨h.kept, trivial⟩
  | lostLast q mutex hasking => exact ⟨h.kept, trivial⟩
  | refused q mutex rest error hasking => exact ⟨kept_failWith h.kept, trivial⟩
  | failed q mutex rest reply error hasking => exact ⟨kept_failWith h.kept, trivial⟩
  | woken hpausing hhead => exact tidy_of_head h.kept hhead
  | cancelAsking q mutex rest reply hasking => exact ⟨h.kept, trivial⟩
  | cancelPausing hpausing => exact ⟨h.kept, trivial⟩
  | cancelClosing stage raising cancelled hclosing =>
    refine ⟨h.kept, ?_⟩
    have hstands := h.stands
    unfold Stands at hstands ⊢
    rw [hclosing] at hstands
    cases stage with
    | leads => trivial
    | handlers => exact hstands
    | touch => exact hstands
    | done => exact ⟨hstands.parts, hstands.requeued, hstands.touch, hstands.running⟩
  | leadsOver raising cancelled hclosing hover =>
    refine ⟨fun q => (h.kept q).gather, fun q => Part.waits_gather ?_⟩
    by_contra hlead
    obtain ⟨l, hl⟩ := Option.ne_none_iff_exists'.mp hlead
    exact hlead (hover q ((h.kept q).leading l hl))
  | handlersOver raising cancelled hclosing hover =>
    have hstands := h.stands
    unfold Stands at hstands
    rw [hclosing] at hstands
    exact ⟨h.kept, fun q => (hstands q).over (hover q)⟩
  | cleaned raising cancelled hclosing hover =>
    have hstands := h.stands
    unfold Stands at hstands
    rw [hclosing] at hstands
    exact ⟨fun q => (h.kept q).clear (hstands q).1,
      fun q => Part.clean_clear (h.kept q) (hstands q), rfl, hover, rfl⟩
  | ended raising cancelled hclosing =>
    have hstands := h.stands
    unfold Stands at hstands
    rw [hclosing] at hstands
    exact ⟨h.kept, hstands.parts, hstands.requeued, hstands.touch, hstands.running⟩

/-- The lead loops keep the worker tidy. -/
theorem Tidy.lead [DecidableEq W] (h : d.Tidy) (hact : LeadAct settings me d e given d') :
    d'.Tidy := by
  cases hact with
  | step q l note k forgotten hlead hstep hforgotten =>
    refine ⟨?_, h.stands.of_lead hlead rfl⟩
    exact forall_setPart (P := fun _ p => p.Kept) ((h.kept q).afterLead hlead hstep) h.kept
  | failed q l cmd rest error hlead hcmd hunwinds hfatal =>
    have hstep : LeadStep settings.toConfig me (d.view q) l (.lose l.command.toList)
        ((d.view q).exit l rest) := .failed rest hunwinds
    refine ⟨kept_failWith (forall_setPart (P := fun _ p => p.Kept) ?_ h.kept), ?_⟩
    · exact (h.kept q).afterLead hlead hstep
    · refine h.stands.of_lead hlead ?_
      rw [failWith, if_pos hfatal]
      rfl
  | loseMutex q l hlead =>
    refine ⟨?_, h.stands.of_lead hlead rfl⟩
    exact forall_setPart (P := fun _ p => p.Kept)
      ⟨fun _ _ => (h.kept q).leading l hlead, (h.kept q).handlers, (h.kept q).callbacks⟩ h.kept

/-- The handlers, their callbacks and the touch loop keep the worker tidy. -/
theorem Tidy.side (h : d.Tidy) (hact : SideAct d given d') : d'.Tidy := by
  cases hact with
  | task q t task note k htask hstep =>
    refine h.setPart rfl ((h.kept q).afterTask htask hstep) rfl
      (fun hlead => ⟨hlead, fun _ => id, fun _ _ => id⟩) fun hclean => ?_
    refine ⟨(hclean.parts q).afterTask htask hstep, ?_, hclean.touch, hclean.running⟩
    obtain ⟨cancelled, hended⟩ := (hclean.parts q).tasks task (List.mem_of_getElem? htask)
    rw [if_neg (by simp [hended])]
    exact hclean.requeued
  | callback q t task callback rest htask hended hcallbacks =>
    exact h.setPart rfl ((h.kept q).call htask hended hcallbacks) rfl
      (fun hlead => (h.kept q).calms_call hlead hcallbacks) fun hclean =>
      ⟨(hclean.parts q).call, hclean.requeued, hclean.touch, hclean.running⟩
  | touchOver raising cancelled hclosing hwaits =>
    exact h.touch rfl rfl fun hclean => ⟨hclean.parts, hclean.requeued, rfl, hclean.running⟩
  | touchCut raising cancelled hclosing q entries rest reply hclaiming =>
    exact h.touch rfl rfl fun hclean => ⟨hclean.parts, hclean.requeued, rfl, hclean.running⟩
  | wake round hround htouch | nothing q rest htouch hfree hnone | locked q rest htouch hfree hsome
  | touched q entries rest r htouch | touchFailed q entries rest reply htouch =>
    refine h.touch rfl rfl fun hclean => ?_
    rw [hclean.touch] at htouch
    cases htouch

end DispatchWorker

/-! ## Runs -/

variable [DecidableEq κ] [DecidableEq W]

/-- **Every step keeps the invariant.** The segments of `run()`, of a queue and of the touch loop
are the cases. -/
theorem tidy_of_step {s s' : World κ W} {e : Event κ W} (h : s.worker.Tidy)
    (hstep : Step settings me s e s') : s'.worker.Tidy := by
  cases hstep with
  | act hact =>
    cases hact with
    | run hact => exact h.run hact
    | lead hact => exact h.lead hact
    | side hact => exact h.side hact
  | execAsk q mutex rest reply hasking => exact ⟨h.kept, trivial⟩
  | execPart q co cmd hcmd =>
    refine h.setPart rfl (h.kept q).answer rfl
      (fun hlead => ⟨Part.lead_answer_eq_none hlead, fun _ => id, fun _ _ => id⟩) fun hclean => ?_
    exact ⟨(hclean.parts q).answer, hclean.requeued, hclean.touch, hclean.running⟩
  | execTouch q entries rest reply hclaiming =>
    refine h.touch rfl rfl fun hclean => ?_
    rw [hclean.touch] at hclaiming
    cases hclaiming
  | late q cmd hstray => exact h
  | elsewhere q server hown => exact h

/-- Every reachable worker is tidy. -/
theorem tidy_of_run {tr : List (Event κ W)} {s : World κ W}
    (h : (system settings me).Run tr s) : s.worker.Tidy := by
  refine System.Run.invariant (M := system settings me) (I := fun _ s => s.worker.Tidy) ?_ ?_ h
  · rintro s rfl
    exact DispatchWorker.tidy_initial
  · intro tr s e s' hrun hs hstep
    exact tidy_of_step hs hstep

/-! ## The flag -/

/-- Between the end of the cleanup and the end of the run only `stop()` sets `_stopping`. -/
theorem stopping_of_step {s s' : World κ W} {e : Event κ W} {raising cancelled : Bool}
    (hs : s.worker.Tidy) (hstep : Step settings me s e s')
    (hpc : s'.worker.pc = .closing .done raising cancelled) :
    e = .cleaned ∧ s'.worker.stopping = false ∨
      (∃ raising cancelled, s.worker.pc = .closing .done raising cancelled) ∧ e ≠ .cleaned ∧
        (s'.worker.stopping = true ↔ e = .stop ∨ s.worker.stopping = true) := by
  have hstays : s'.worker.pc = s.worker.pc → s'.worker.stopping = s.worker.stopping →
      e ≠ .cleaned → e ≠ .stop →
      (∃ raising cancelled, s.worker.pc = .closing .done raising cancelled) ∧ e ≠ .cleaned ∧
        (s'.worker.stopping = true ↔ e = .stop ∨ s.worker.stopping = true) := by
    intro hpc' hstopping hne hne'
    exact ⟨⟨_, _, hpc'.symm.trans hpc⟩, hne, by simp [hstopping, hne']⟩
  cases hstep with
  | act hact =>
    cases hact with
    | run hact =>
      cases hact with
      | start hidle hrunning hhead | woken hpausing hhead => cases hhead <;> cases hpc
      | again hrunning => exact Or.inr (hstays rfl rfl nofun nofun)
      | stop => exact Or.inr ⟨⟨_, _, hpc⟩, nofun, by simp⟩
      | cancelClosing stage raising' cancelled' hclosing =>
        obtain ⟨rfl, -, -⟩ := RunPc.closing.inj hpc
        exact Or.inr ⟨⟨_, _, hclosing⟩, nofun, by simp⟩
      | cleaned raising' cancelled' hclosing hover => exact Or.inl ⟨rfl, rfl⟩
      | _ => cases hpc
    | lead hact =>
      -- no lead loop is left
      obtain ⟨⟨q, l, hlead⟩, hpc'⟩ := hact.frame
      have hstands := hs.stands
      unfold DispatchWorker.Stands at hstands
      rw [← hpc', hpc] at hstands
      rw [(hstands.parts q).lead] at hlead
      cases hlead
    | side hact => exact Or.inr (hstays hact.frame.1 hact.frame.2.1 nofun nofun)
  | execAsk q mutex rest reply hasking => cases hpc
  | execPart | execTouch | late | elsewhere => exact Or.inr (hstays rfl rfl nofun nofun)

/-- Every run: while `run()` has not returned from its cleanup, `_stopping` tells whether `stop()`
was called since. -/
theorem stopping_iff_of_run {tr : List (Event κ W)} {s : World κ W} {raising cancelled : Bool}
    (h : (system settings me).Run tr s)
    (hpc : s.worker.pc = .closing .done raising cancelled) :
    s.worker.stopping = true ↔ .stop ∈ since Event.isCleaned tr := by
  have hinv : ∀ raising cancelled, s.worker.pc = .closing .done raising cancelled →
      (s.worker.stopping = true ↔ .stop ∈ since Event.isCleaned tr) := by
    refine System.Run.invariant (M := system settings me)
      (I := fun tr s => ∀ raising cancelled, s.worker.pc = .closing .done raising cancelled →
        (s.worker.stopping = true ↔ .stop ∈ since Event.isCleaned tr)) ?_ ?_ h
    · rintro s rfl raising cancelled hpc
      cases hpc
    · intro tr s e s' hrun ih hstep raising cancelled hpc
      rcases stopping_of_step (tidy_of_run hrun) hstep hpc with
        ⟨rfl, hclear⟩ | ⟨⟨raising', cancelled', hdone⟩, hne, hiff⟩
      · rw [since_cons_of_pos rfl, hclear]
        simp
      · have hmark : e.isCleaned = false := by
          cases e with
          | cleaned => exact absurd rfl hne
          | _ => rfl
        rw [since_cons_of_neg hmark, List.mem_cons, hiff, ih _ _ hdone, eq_comm]
  exact hinv _ _ hpc

/-! ## The end of a run -/

omit [DecidableEq κ] [DecidableEq W] in
/-- From the head of its loop `run()` always comes to an `await`. -/
theorem exists_head (settings : Settings κ W π) (d : DispatchWorker κ W) :
    ∃ d', Head settings d d' := by
  cases hstop : d.stopping with
  | true => exact ⟨_, .leave hstop⟩
  | false =>
    cases hfree : d.dropDone.free settings with
    | nil => exact ⟨_, .none hstop hfree⟩
    | cons q rest => exact ⟨_, .ask q rest hstop (hfree ▸ .refl _)⟩

/-- **The shutdown completes.** Whenever a run ends, however often it was stopped and cancelled and
whatever its handlers did, none of its tasks is left, its fields are empty, and the worker can be
run again. `_stopping` is clear unless `stop()` was called after the cleanup. -/
theorem shutdown_completes {tr : List (Event κ W)} {s : World κ W} {outcome : Outcome}
    (h : (system settings me).Run (.ended outcome :: tr) s) :
    s.worker.Clean ∧ (s.worker.stopping = true ↔ .stop ∈ since Event.isCleaned tr) ∧
      ∃ s', Step settings me s .start s' := by
  have htidy := tidy_of_run h
  obtain ⟨s₀, hrun, hstep⟩ := h.of_cons
  obtain ⟨raising, cancelled, hpc, -, rfl⟩ := hstep.of_ended
  have hclean := htidy.stands
  have hstopping := stopping_iff_of_run hrun hpc
  refine ⟨hclean, hstopping, ?_⟩
  obtain ⟨d, hhead⟩ := exists_head settings
    { s₀.worker.leave raising cancelled with running := true, touch := some .asleep }
  exact ⟨_, .act (.run (.start rfl hclean.running hhead))⟩

/-! ## A run without a job -/

/-- A worker of one queue. -/
def solo : Settings ℕ ℕ Unit :=
  { plain with
    queues := [0]
    maxQueues := none
    queues_ne_nil := List.cons_ne_nil _ _
    queues_nodup := List.nodup_singleton _ }

/-- A worker that has not led a queue yet. -/
def unled (running stopping : Bool) (fatal : Option BackendError) (touch : Option (Touch κ W))
    (nextMutex : ℕ) (pc : RunPc κ W) : DispatchWorker κ W :=
  ⟨running, stopping, false, fatal, ∅, fun _ => .initial, touch, nextMutex, pc⟩

section Unled

variable {running stopping raising cancelled : Bool} {fatal : Option BackendError}
  {touch : Option (Touch κ W)} {n : ℕ} {pc : RunPc κ W} {server : κ → Server W}
  {stray : List (κ × Command W)}

omit [DecidableEq κ] [DecidableEq W] in
/-- A worker that leads nothing has no handlers to wait for. -/
theorem gatherHandlers_unled : (unled running stopping fatal touch n pc).gatherHandlers =
    unled running stopping fatal touch n pc := by
  simp [unled, DispatchWorker.gatherHandlers, Part.gather, Part.initial]

/-- Without a handler the shutdown waits for nothing but the touch loop. -/
theorem path_cleaned :
    (system settings me).Path
      ⟨unled running stopping fatal (some .asleep) n (.closing .leads raising cancelled), server,
        stray⟩
      [.cleaned, .quiet, .quiet, .quiet]
      ⟨unled false false fatal none n (.closing .done raising cancelled), server, stray⟩ := by
  have hleads : RunAct settings
      (unled running stopping fatal (some .asleep) n (.closing .leads raising cancelled)) .quiet []
      (unled running stopping fatal (some .asleep) n (.closing .handlers raising cancelled)) := by
    have h : RunAct settings (unled running stopping fatal (some .asleep) n _) _ _ _ :=
      .leadsOver raising cancelled rfl fun _ _ => rfl
    rwa [gatherHandlers_unled] at h
  have hhandlers : RunAct settings
      (unled running stopping fatal (some .asleep) n (.closing .handlers raising cancelled)) .quiet
      [] (unled running stopping fatal (some .asleep) n (.closing .touch raising cancelled)) :=
    .handlersOver raising cancelled rfl nofun
  have htouch : SideAct (κ := κ) (W := W)
      (unled running stopping fatal (some .asleep) n (.closing .touch raising cancelled)) []
      (unled running stopping fatal none n (.closing .touch raising cancelled)) :=
    .touchOver raising cancelled rfl nofun
  have hcleaned : RunAct settings
      (unled running stopping fatal none n (.closing .touch raising cancelled)) .cleaned []
      (unled false false fatal none n (.closing .done raising cancelled)) :=
    .cleaned raising cancelled rfl rfl
  exact .step (.step (.step (.step .refl (Step.of_run hleads)) (Step.of_run hhandlers))
    (Step.of_side htouch)) (Step.of_run hcleaned)

/-- A run that was stopped before it starts. -/
theorem path_stopped :
    (system settings me).Path ⟨unled false false fatal none n .idle, server, stray⟩
      [.cleaned, .quiet, .quiet, .quiet, .start, .stop]
      ⟨unled false false fatal none n (.closing .done false false), server, stray⟩ := by
  have hstop : RunAct settings (unled false false fatal none n .idle) .stop []
      (unled false true fatal none n .idle) := .stop
  have hstart : RunAct settings (unled false true fatal none n .idle) .start []
      (unled true true fatal (some .asleep) n (.closing .leads false false)) :=
    .start rfl rfl (.leave rfl)
  have hfirst : (system settings me).Path ⟨unled false false fatal none n .idle, server, stray⟩
      [.start, .stop]
      ⟨unled true true fatal (some .asleep) n (.closing .leads false false), server, stray⟩ :=
    .step (.step .refl (Step.of_run hstop)) (Step.of_run hstart)
  exact hfirst.append path_cleaned

/-- An election of the worker of one queue. -/
theorem start_solo : RunAct solo (unled false false fatal none n .idle) .start []
    (unled true false fatal (some .asleep) (n + 1) (.asking 0 n [] (none : Option (Reply ℕ)))) := by
  refine .start rfl rfl (.ask 0 [] rfl ?_)
  simp [DispatchWorker.free, DispatchWorker.dropDone, solo, unled, Part.initial]

end Unled

/-- The run of `path_stopped`, up to the end of its cleanup. -/
theorem run_stopped : (system solo 0).Run [.cleaned, .quiet, .quiet, .quiet, .start, .stop]
    ⟨unled false false none none 0 (.closing .done false false), fun _ => .initial, []⟩ :=
  (System.Run.start rfl).append path_stopped

/-- A worker of one queue, the only one there is. -/
def only : Settings Unit ℕ Unit :=
  { plain with
    queues := [()]
    maxQueues := none
    queues_ne_nil := List.cons_ne_nil _ _
    queues_nodup := List.nodup_singleton _ }

/-- A queue with one job. -/
def posted : Server ℕ :=
  { Server.initial with stream := StreamKey.missing.add 1 ping Nat.zero_lt_one }

/-- The worker leads the queue and its handler of entry `1` is admitted. `run()` is cancelled, the
lead loop leaves and releases its Mutex, `run()` is cancelled once more while it waits for the
handler, and the handler ends as a cancelled one. -/
def cancelledTwice : List (Event Unit ℕ) :=
  [.ended .cancelled, .cleaned, .quiet, .quiet, .quiet, .quiet, .quiet, .quiet, .cancel, .quiet,
    .lead () .quiet, .exec, .lead () .quiet, .cancel, .lead () .quiet, .lead () .quiet, .quiet,
    .lead () (.start 1), .lead () .quiet, .exec, .lead () .quiet, .lead () .quiet, .exec, .elect,
    .exec, .start, .elsewhere () posted]

/-- After this run the worker is clean and can be run again. -/
theorem shutdown_completes_cancelled : ∃ s : World Unit ℕ,
    (system only 0).Run cancelledTwice s ∧ s.worker.Clean ∧ s.worker.stopping = false ∧
    ∃ s', Step only 0 s .start s' := by
  have hclean {s : World Unit ℕ} (h : (system only 0).Run cancelledTwice s)
      (hgo : s.worker.stopping = false) : ∃ s : World Unit ℕ,
      (system only 0).Run cancelledTwice s ∧ s.worker.Clean ∧ s.worker.stopping = false ∧
      ∃ s', Step only 0 s .start s' := by
    obtain ⟨hclean, -, hagain⟩ := shutdown_completes h
    exact ⟨s, h, hclean, hgo, hagain⟩
  have h : (system only 0).Run [] (⟨.initial, fun _ => .initial, []⟩ : World Unit ℕ) := .start rfl
  have h := h.step (.elsewhere () posted (by rintro n ⟨⟩))
  have h := h.step (.act (.run (.start rfl rfl (.ask () [] rfl (List.Perm.refl _)))))
  have h := h.step (.execAsk () 0 [] none rfl)
  have h := h.step (.act (.run (.won () 0 [] rfl)))
  have h := h.step (.execPart () .lead _ rfl)
  have h := h.step (.act (.lead (.step () _ _ _ ∅ rfl (.ensured .top _ rfl rfl) (.inl rfl))))
  have h := h.step (.act (.lead (.step () _ _ _ ∅ rfl (.skip rfl rfl rfl rfl) (.inl rfl))))
  have h := h.step (.execPart () .lead _ rfl)
  have h := h.step (.act (.lead
    (.step () _ _ _ ∅ rfl (.read [(some 1, some ping)] rfl rfl) (.inl rfl))))
  have h := h.step (.act (.lead (.step () _ _ _ ∅ rfl
    (.startUncapped 1 ping [] _ rfl (by decide) decode_ping rfl) (.inl rfl))))
  have h := h.step (.act (.side (.task () 0 _ _ _ rfl .admits)))
  have h := h.step (.act (.lead (.step () _ _ _ ∅ rfl
    (.settled 0 ⟨1, "j", true, .handler, none⟩ [] rfl rfl (Or.inl rfl) (by
      rintro ⟨hphase, -⟩; cases hphase)) (.inl rfl))))
  have h := h.step (.act (.lead (.step () _ _ _ ∅ rfl (.batchDone rfl) (.inl rfl))))
  -- the cancellation reaches `run()` between two elections
  have h := h.step (.act (.run (.cancelPausing rfl)))
  have h := h.step (.act (.lead (.step () _ _ _ ∅ rfl (.leave rfl (Or.inr rfl)) (.inl rfl))))
  have h := h.step (.execPart () .lead _ rfl)
  have h := h.step (.act (.lead (.step () _ _ _ ∅ rfl (.released _ rfl rfl) (.inl rfl))))
  have h := h.step (.act (.run (.leadsOver true false rfl fun _ _ => rfl)))
  -- the second one does not stop the `gather` of the handlers
  have h := h.step (.act (.run (.cancelClosing _ _ _ rfl)))
  have h := h.step (.act (.side (.task () 0 _ _ _ rfl (.handlerRaised true rfl))))
  have h := h.step (.act (.side
    (.callback () 0 _ .discard [.discardStream, .gathered] rfl ⟨true, rfl⟩ rfl)))
  have h := h.step (.act (.side (.callback () 0 _ .discardStream [.gathered] rfl ⟨true, rfl⟩ rfl)))
  have h := h.step (.act (.side (.callback () 0 _ .gathered [] rfl ⟨true, rfl⟩ rfl)))
  have h := h.step (.act (.run (.handlersOver true true rfl (by
    rintro ⟨⟩ t hmem
    cases t with
    | zero => cases hmem
    | succ t => cases hmem))))
  have h := h.step (.act (.side (.touchOver true true rfl (by rintro q entries rest reply ⟨⟩))))
  have h := h.step (.act (.run (.cleaned true true rfl rfl)))
  exact hclean (h.step (.act (.run (.ended true true rfl)))) rfl

/-- A `stop()` that comes after the cleanup, but before `run()` has returned, is not forgotten: it
is the next run that it stops. -/
theorem stop_outlives_run : ∃ (tr : List (Event ℕ ℕ)) (s : World ℕ ℕ),
    (system solo 0).Run (.ended .returned :: tr) s ∧ s.worker.stopping = true := by
  have hstop := run_stopped.step (Step.of_run .stop)
  exact ⟨_, _, hstop.step (Step.of_run (.ended false false rfl)), rfl⟩

end RedisSemaphore.Dispatch.Lifecycle

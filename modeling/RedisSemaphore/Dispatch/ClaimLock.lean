import RedisSemaphore.Dispatch.System

/-!
# The claim lock

Every `XCLAIM` of a worker is sent under its claim lock: the touches, the hand-backs of the lead
loop and those of the tasks. One coroutine holds it at a time, so a hand-back that has got the lock
has no touch in flight beside it.

The lock is one flag of the worker, `claimLock`, and does not say who set it. Who holds it is read
off the program counters instead (`Worker.Holds`): a coroutine holds the lock exactly while it is
inside its `async with`. `Worker.Locks` ties the two together, flag and holders, and every segment
keeps it. Two arguments recur and are lemmas about an arbitrary lock (`Sole`): a free lock is taken
by one party, and the one that holds it releases it for everybody.
-/

namespace RedisSemaphore.Dispatch

open Transition

/-! ## Locks -/

section Lock

variable {C : Type*} {holds holds' : C → Prop} {locked : Bool} {c : C}

/-- A lock is held by one party at most, and only while it is locked. -/
structure Sole (holds : C → Prop) (locked : Bool) : Prop where
  locked : ∀ c, holds c → locked = true
  unique : ∀ c c', holds c → holds c' → c' = c

/-- Nobody holds a lock that is free. -/
theorem Sole.not_holds (h : Sole holds false) : ¬ holds c := by
  intro hc
  cases h.locked c hc

/-- Where no party comes to hold the lock, it stays a lock. -/
theorem Sole.mono (h : Sole holds locked) (hsub : ∀ c, holds' c → holds c) :
    Sole holds' locked :=
  ⟨fun c hc => h.locked c (hsub c hc),
    fun c c' hc hc' => h.unique c c' (hsub c hc) (hsub c' hc')⟩

/-- Somebody takes a lock that is free. -/
theorem Sole.acquire (h : Sole holds false) (hsub : ∀ c', holds' c' → c' = c ∨ holds c') :
    Sole holds' true := by
  have honly : ∀ c', holds' c' → c' = c := fun c' hc' => (hsub c' hc').resolve_right h.not_holds
  refine ⟨fun _ _ => rfl, fun c₁ c₂ h₁ h₂ => ?_⟩
  rw [honly c₁ h₁, honly c₂ h₂]

/-- Its holder releases a lock. -/
theorem Sole.release (h : Sole holds locked) (hc : holds c)
    (hsub : ∀ c', holds' c' → c' ≠ c ∧ holds c') : Sole holds' false := by
  have hnone : ∀ c', ¬ holds' c' := by
    intro c' hc'
    obtain ⟨hne, hold⟩ := hsub c' hc'
    exact hne (h.unique c c' hc hold)
  exact ⟨fun c' hc' => absurd hc' (hnone c'), fun c' _ hc' => absurd hc' (hnone c')⟩

end Lock

/-! ## Its holders -/

variable {W : Type*} {π : Type} {cfg : Config W π}

/-- The coroutine has got the claim lock: its hand-back is past the `async with`, or its touch is
inside it. The elections never ask for it. -/
def Worker.Holds (k : Worker W) : Co → Prop
  | .run => False
  | .lead => ∃ l entries next, k.lead = some l ∧ l.pc = .handing entries true next
  | .task t => ∃ task, k.tasks[t]? = some task ∧ task.phase = .handing true
  | .touch => ∃ entries reply, k.touch = .claiming entries reply

/-- The claim lock works: one coroutine holds it at most, and only while the flag is set. -/
def Worker.Locks (k : Worker W) : Prop := Sole k.Holds k.claimLock

/-- `k'` has the tasks, the touch loop and the claim lock of `k`, and its lead loop does not hold
the lock. -/
structure Worker.Beside (k k' : Worker W) : Prop where
  tasks : k'.tasks = k.tasks
  touch : k'.touch = k.touch
  claimLock : k'.claimLock = k.claimLock
  lead : ¬ k'.Holds .lead

section Worker

variable {w : W} {k k₁ k' : Worker W} {l : Lead W} {note : Note W} {co : Co}

/-- The lead loop moves to a program counter that is not a hand-back with the lock. The locals it
keeps do not matter. -/
theorem beside_leadTo {pc : LeadPc W} (htasks : k₁.tasks = k.tasks) (htouch : k₁.touch = k.touch)
    (hlock : k₁.claimLock = k.claimLock)
    (hpc : ∀ entries next, pc ≠ .handing entries true next) : k.Beside (k₁.leadTo l pc) := by
  refine ⟨htasks, htouch, hlock, ?_⟩
  rintro ⟨l', entries, next, hl', hpc'⟩
  obtain rfl := Option.some.inj hl'
  exact hpc entries next hpc'

/-- The lead loop ends. -/
theorem beside_none (htasks : k'.tasks = k.tasks) (htouch : k'.touch = k.touch)
    (hlock : k'.claimLock = k.claimLock) (hlead : k'.lead = none) : k.Beside k' := by
  refine ⟨htasks, htouch, hlock, ?_⟩
  rintro ⟨l', entries, next, hl', -⟩
  rw [hlead] at hl'
  cases hl'

/-- Whatever is left of the batch, the way out of a lead loop starts without the lock: a hand-back
of the rest has still to ask for it. -/
theorem beside_exit {rest : List Delivery} : k.Beside (k.exit l rest) := by
  unfold Worker.exit
  split
  · exact beside_leadTo rfl rfl rfl (by simp)
  · exact beside_none rfl rfl rfl rfl

/-- After a hand-back, the loop leaves or asks for the lock again, for the rest. -/
theorem beside_goOn {next : Next} : k.Beside (k.goOn l next) := by
  cases next with
  | exit rest => exact beside_exit
  | handRest rest =>
    rw [Worker.goOn, Worker.handRest]
    split
    · exact beside_exit
    · exact beside_leadTo rfl rfl rfl (by simp)

/-- After a page, the loop goes to what it found or to the backlog. -/
theorem beside_reclaimed {found : List Delivery} : k.Beside (k.reclaimed l found) := by
  unfold Worker.reclaimed
  split <;> exact beside_leadTo rfl rfl rfl (by simp)

/-- Who holds the lock beside a lead loop that does not, held it before. -/
theorem Worker.Beside.holds (h : k.Beside k') (hco : k'.Holds co) : co ≠ .lead ∧ k.Holds co := by
  cases co with
  | run => exact hco.elim
  | lead => exact absurd hco h.lead
  | task t =>
    obtain ⟨task, htask, hphase⟩ := hco
    exact ⟨by simp, task, h.tasks ▸ htask, hphase⟩
  | touch =>
    obtain ⟨entries, reply, hclaiming⟩ := hco
    exact ⟨by simp, entries, reply, h.touch ▸ hclaiming⟩

/-- What a lead loop does away from the lock keeps the claim lock intact. -/
theorem Worker.Locks.beside (hk : k.Locks) (h : k.Beside k') : k'.Locks := by
  rw [Worker.Locks, h.claimLock]
  exact hk.mono fun co hco => (h.holds hco).2

/-- A hand-back of the lead loop ends. -/
theorem Worker.Locks.handed {entries : Finset ℕ} {next : Next} (hk : k.Locks)
    (hlead : k.lead = some l) (hpc : l.pc = .handing entries true next)
    (h : { k with claimLock := false }.Beside k') : k'.Locks := by
  rw [Worker.Locks, h.claimLock]
  exact hk.release (c := .lead) ⟨l, entries, next, hlead, hpc⟩ fun co hco => h.holds hco

/-- The lead loop takes the lock where it is free and gives it back when its hand-back ends, by a
reply, an error or a cancellation. -/
theorem LeadStep.locks [DecidableEq W] (hlead : k.lead = some l) (h : LeadStep cfg w k l note k')
    (hk : k.Locks) : k'.Locks := by
  -- most segments end away from the lock
  have hgoto {k₁ : Worker W} {l₁ : Lead W} {pc : LeadPc W} (htasks : k₁.tasks = k.tasks)
      (htouch : k₁.touch = k.touch) (hlock : k₁.claimLock = k.claimLock)
      (hpc : ∀ entries next, pc ≠ .handing entries true next) : (k₁.leadTo l₁ pc).Locks :=
    hk.beside (beside_leadTo htasks htouch hlock hpc)
  -- a new task starts with its handler, so it holds nothing
  have hstart (entry : ℕ) (jobId : String) (rest : List Delivery) :
      (k.start l entry jobId rest).Locks := by
    refine hk.mono fun co hco => ?_
    cases co with
    | run => exact hco.elim
    | lead =>
      obtain ⟨l', entries, next, hl', hpc⟩ := hco
      obtain rfl := Option.some.inj hl'
      cases hpc
    | task t =>
      obtain ⟨task, htask, hphase⟩ := hco
      rcases Worker.getElem?_start htask with hold | ⟨-, rfl⟩
      · exact ⟨task, hold, hphase⟩
      · cases hphase
    | touch => exact hco
  cases h with
  | ensured ret r hpc hreply => cases ret <;> exact hgoto rfl rfl rfl (by simp)
  | leave | waitCancelled | unwound | failed => exact hk.beside beside_exit
  | claimed | inspectedNone => exact hk.beside beside_reclaimed
  | inspected found infos hpc hreply =>
    generalize deadConsumers cfg w infos = dead
    cases dead with
    | nil => exact hk.beside beside_reclaimed
    | cons name dead => exact hgoto rfl rfl rfl (by simp)
  | pruned name dead found r hpc hreply =>
    cases dead with
    | nil => exact hk.beside beside_reclaimed
    | cons name dead => exact hgoto rfl rfl rfl (by simp)
  | collected snapshot found hpc hreply =>
    unfold Worker.collected
    split <;> exact hgoto rfl rfl rfl (by simp)
  | startUncapped | startCapped => exact hstart _ _ _
  | abandoned => exact hk.beside beside_goOn
  -- the one segment that takes the lock: it was free, so nobody else holds it
  | locked entries next hpc hfree =>
    have hnone : Sole k.Holds false := hfree ▸ hk
    refine hnone.acquire (c := .lead) fun co hco => ?_
    cases co with
    | lead => exact Or.inl rfl
    | _ => exact Or.inr hco
  | handed entries next r hpc hreply => exact hk.handed hlead hpc beside_goOn
  | handFailed entries next hpc => exact hk.handed hlead hpc beside_goOn
  -- a cancellation releases the lock only if the hand-back had got it
  | handCancelled entries locked next hpc =>
    have hbeside : { k with claimLock := k.claimLock && !locked }.Beside
        ({ k with claimLock := k.claimLock && !locked }.exit l next.rest) := beside_exit
    cases locked with
    | false =>
      simp only [Bool.not_false, Bool.and_true] at hbeside ⊢
      exact hk.beside hbeside
    | true =>
      simp only [Bool.not_true, Bool.and_false] at hbeside ⊢
      exact hk.handed hlead hpc hbeside
  | released | releaseFailed => exact hk.beside (beside_none rfl rfl rfl rfl)
  | _ => exact hgoto rfl rfl rfl (by simp)

/-- Who holds the lock after one task has changed. -/
theorem Worker.holds_setTask {t : ℕ} {task' : Task W} (htasks : k₁.tasks = k.tasks)
    (htouch : k₁.touch = k.touch) (hlead : k₁.lead = k.lead)
    (h : (k₁.setTask t task').Holds co) :
    (co = .task t ∧ task'.phase = .handing true) ∨ (co ≠ .task t ∧ k.Holds co) := by
  cases co with
  | run => exact h.elim
  | lead =>
    obtain ⟨l', entries, next, hl', hpc⟩ := h
    exact Or.inr ⟨by simp, l', entries, next, hlead ▸ hl', hpc⟩
  | touch =>
    obtain ⟨entries, reply, hclaiming⟩ := h
    exact Or.inr ⟨by simp, entries, reply, htouch ▸ hclaiming⟩
  | task t₁ =>
    obtain ⟨task₁, htask₁, hphase⟩ := h
    rcases Worker.getElem?_setTask htask₁ with ⟨rfl, rfl⟩ | ⟨hne, hold⟩
    · exact Or.inl ⟨rfl, hphase⟩
    · exact Or.inr ⟨by simpa using hne, task₁, htasks ▸ hold, hphase⟩

/-- A requeueing task takes and releases the lock around its `XCLAIM` in the same way. -/
theorem TaskStep.locks {t : ℕ} {task : Task W} (htask : k.tasks[t]? = some task)
    (h : TaskStep k t task note k') (hk : k.Locks) : k'.Locks := by
  -- the task does not come to hold the lock: who holds it afterwards held it before
  have hkeep {k₁ : Worker W} {task' : Task W} (htasks : k₁.tasks = k.tasks)
      (htouch : k₁.touch = k.touch) (hlead : k₁.lead = k.lead)
      (hlock : k₁.claimLock = k.claimLock)
      (hphase : task'.phase = .handing true → task.phase = .handing true) :
      (k₁.setTask t task').Locks := by
    have hsub : ∀ co, (k₁.setTask t task').Holds co → k.Holds co := by
      intro co hco
      rcases Worker.holds_setTask htasks htouch hlead hco with ⟨rfl, hp⟩ | ⟨-, hold⟩
      · exact ⟨task, htask, hphase hp⟩
      · exact hold
    rw [Worker.Locks, show (k₁.setTask t task').claimLock = k.claimLock from hlock]
    exact hk.mono hsub
  -- the task held the lock and lets it go
  have hrelease {k₁ : Worker W} {task' : Task W} (hphase : task.phase = .handing true)
      (htasks : k₁.tasks = k.tasks) (htouch : k₁.touch = k.touch) (hlead : k₁.lead = k.lead)
      (hlock : k₁.claimLock = false) (hphase' : task'.phase ≠ .handing true) :
      (k₁.setTask t task').Locks := by
    rw [Worker.Locks, show (k₁.setTask t task').claimLock = false from hlock]
    refine hk.release (c := .task t) ⟨task, htask, hphase⟩ fun co hco => ?_
    exact (Worker.holds_setTask htasks htouch hlead hco).resolve_left fun h => hphase' h.2
  cases h with
  | admits => exact hkeep rfl rfl rfl rfl id
  | locked hphase hfree =>
    have hnone : Sole k.Holds false := hfree ▸ hk
    refine hnone.acquire (c := .task t) fun co hco => ?_
    exact (Worker.holds_setTask rfl rfl rfl hco).imp And.left And.right
  | handed r hphase hreply => exact hrelease hphase rfl rfl rfl rfl (by simp)
  | handFailed hphase => exact hrelease hphase rfl rfl rfl rfl (by simp)
  | handCancelled locked hphase =>
    cases locked with
    | false =>
      simp only [Bool.not_false, Bool.and_true]
      exact hkeep rfl rfl rfl rfl (by simp)
    | true =>
      simp only [Bool.not_true, Bool.and_false]
      exact hrelease hphase rfl rfl rfl rfl (by simp)
  | _ => exact hkeep rfl rfl rfl rfl (by simp)

/-- The elections never take the lock, and a new lead loop starts without it. -/
theorem RunStep.locks (h : RunStep k note k') (hk : k.Locks) : k'.Locks := by
  cases h with
  -- the loop that a granted election starts is at its first command
  | won mutex hasking =>
    refine hk.beside ⟨rfl, rfl, rfl, ?_⟩
    rintro ⟨l', entries, next, hl', hpc⟩
    obtain rfl := Option.some.inj hl'
    cases hpc
  | loseMutex l hlead =>
    refine hk.mono fun co hco => ?_
    cases co with
    | lead =>
      obtain ⟨l', entries, next, hl', hpc⟩ := hco
      obtain rfl := Option.some.inj hl'
      exact ⟨l, entries, next, hlead, hpc⟩
    | _ => exact hco
  | _ => exact hk.mono fun co hco => by cases co <;> exact hco

/-- The touch loop holds the lock from its first look at `_taken` to the end of its `XCLAIM`. -/
theorem TouchStep.locks (h : TouchStep k note k') (hk : k.Locks) : k'.Locks := by
  have hrelease {entries : Finset ℕ} {reply : Option (Reply W)}
      (hclaiming : k.touch = .claiming entries reply) :
      ({ k with claimLock := false, touch := .idle } : Worker W).Locks := by
    refine hk.release (c := .touch) ⟨entries, reply, hclaiming⟩ fun co hco => ?_
    cases co with
    | touch =>
      obtain ⟨entries', reply', hidle⟩ := hco
      cases hidle
    | _ => exact ⟨by simp, hco⟩
  cases h with
  | locked hlocking hfree hsome =>
    have hnone : Sole k.Holds false := hfree ▸ hk
    refine hnone.acquire (c := .touch) fun co hco => ?_
    cases co with
    | touch => exact Or.inl rfl
    | _ => exact Or.inr hco
  | touched entries r hclaiming => exact hrelease hclaiming
  | failed entries reply hclaiming => exact hrelease hclaiming
  | _ =>
    refine hk.mono fun co hco => ?_
    cases co with
    | touch =>
      obtain ⟨entries', reply', hother⟩ := hco
      cases hother
    | _ => exact hco

/-- Every segment of every coroutine keeps the claim lock intact. -/
theorem WorkerStep.locks [DecidableEq W] (h : WorkerStep cfg w k note k') (hk : k.Locks) :
    k'.Locks := by
  cases h with
  | lead hlead hstep => exact hstep.locks hlead hk
  | task htask hstep => exact hstep.locks htask hk
  | run hstep => exact hstep.locks hk
  | touch hstep => exact hstep.locks hk

/-- A reply changes no holder. -/
theorem Worker.Locks.answer {r : Reply W} (hk : k.Locks) : (k.answer r co).Locks := by
  have hlock : (k.answer r co).claimLock = k.claimLock := by
    cases co with
    | lead | task => rfl
    | run | touch =>
      rw [Worker.answer]
      split <;> rfl
  rw [Worker.Locks, hlock]
  refine hk.mono fun co' hco' => ?_
  cases co' with
  | run => exact hco'.elim
  | lead =>
    obtain ⟨l', entries, next, hl', hpc'⟩ := hco'
    obtain ⟨l, hl, hpc⟩ := Worker.pc_of_answer hl'
    exact ⟨l, entries, next, hl, hpc.symm.trans hpc'⟩
  | task t =>
    obtain ⟨task', htask', hphase'⟩ := hco'
    obtain ⟨task, htask, -, hphase⟩ := Worker.phase_of_answer htask'
    exact ⟨task, htask, hphase.symm.trans hphase'⟩
  | touch =>
    obtain ⟨entries, reply, hclaiming⟩ := hco'
    obtain ⟨reply', hold⟩ := Worker.touch_of_answer hclaiming
    exact ⟨entries, reply', hold⟩

end Worker

/-- In every run one coroutine of a worker holds its claim lock at a time. -/
theorem locks_of_run [DecidableEq W] {tr : List (Event W)} {s : World W}
    (h : (system cfg).Run tr s) (w : W) : (s.workers w).Locks := by
  -- at the start and after a crash there is no coroutine that could hold it
  have hidle {k : Worker W} (hlead : k.lead = none) (htasks : k.tasks = [])
      (htouch : k.touch = .idle) : k.Locks := by
    have hnone : ∀ co, ¬ k.Holds co := by
      intro co hco
      cases co with
      | run => exact hco.elim
      | lead =>
        obtain ⟨l, entries, next, hl, -⟩ := hco
        simp [hlead] at hl
      | task t =>
        obtain ⟨task, htask, -⟩ := hco
        simp [htasks] at htask
      | touch =>
        obtain ⟨entries, reply, hclaiming⟩ := hco
        simp [htouch] at hclaiming
    exact ⟨fun co hco => absurd hco (hnone co), fun co _ hco => absurd hco (hnone co)⟩
  refine System.Run.invariant (I := fun _ s => (s.workers w).Locks) ?_ ?_ h
  · rintro s rfl
    exact hidle rfl rfl rfl
  · intro tr s e s' _ hlocks hstep
    exact hstep.worker hlocks (fun r co => hlocks.answer)
      (fun note k _ _ hlocal => hlocal.locks hlocks) (hidle rfl rfl rfl)

end RedisSemaphore.Dispatch

import RedisSemaphore.Dispatch.System

/-!
# Admission is serialized

The lead loop starts a handler and then watches it until it is admitted or over, on every way out of
the loop: after a lost Mutex, a stop, an error or a cancellation it leaves only through a `gather`
that ends with the task. The Mutex is released after that. So as long as the Mutex does not expire
under a lead loop, every handler that has not been admitted is watched by the one loop that owns it.
-/

namespace RedisSemaphore.Dispatch

open Redis Transition

variable {W : Type*} {π : Type} {cfg : Config W π}

/-- The handler has been started, has not called `admit()`, and its task is not over. -/
def Task.Open (t : Task W) : Prop := t.admitted = false ∧ ¬ t.Ended

/-- An open task has not been admitted, and has not ended. -/
theorem Task.Open.not_settled {t : Task W} (h : t.Open) : ¬ t.Settled := by
  rintro (hadmitted | hended)
  · rw [h.1] at hadmitted
    cases hadmitted
  · exact h.2 hended

/-- The lead loop waits for task `t`. -/
def LeadPc.Watches (t : ℕ) : LeadPc W → Prop
  | .waiting t' _ => t' = t
  | .abandoning t' _ _ => t' = t
  | .unwinding t' _ => t' = t
  | _ => False

/-- The loop watches one task at a time. -/
theorem LeadPc.Watches.unique {t t' : ℕ} {pc : LeadPc W} (h : pc.Watches t) (h' : pc.Watches t') :
    t = t' := by
  cases pc with
  | waiting t₀ rest => exact h.symm.trans h'
  | abandoning t₀ raising rest => exact h.symm.trans h'
  | unwinding t₀ rest => exact h.symm.trans h'
  | _ => exact h.elim

/-- The worker has taken the Mutex in election `n` and not begun to release it: the election was won
and the lead loop is about to start, or it runs. -/
def Worker.Owns (k : Worker W) (n : ℕ) : Prop :=
  (∃ l, k.lead = some l ∧ l.mutex = n ∧ l.pc ≠ .releasing) ∨
    k.election = .asking n (some (.granted true))

/-- The Mutex does not expire under a lead loop that still holds it. -/
def KeepsMutex (s : World W) (e : Event W) : Prop :=
  e = .expire → ∀ w n, s.server.lock = some (w, n) → ¬ (s.workers w).Owns n

/-! ## One worker -/

/-- What holds of one worker on its own. -/
structure Serial (cfg : Config W π) (w : W) (k : Worker W) : Prop where
  alone : ∀ l, k.lead = some l → k.election = .idle
  leadNumber : ∀ l, k.lead = some l → l.mutex < k.nextMutex
  electionNumber : ∀ n r, k.election = .asking n r → n < k.nextMutex
  watched : ∀ t task, k.tasks[t]? = some task → task.Open →
    ∃ l, k.lead = some l ∧ l.pc.Watches t
  cap : ∀ m, cfg.maxAdmitted w = some m → k.running ≤ m

section Worker

variable {w : W} {k k' : Worker W} {note : Note W}

/-- The lead loop stops watching only a task that is admitted or over. -/
theorem LeadStep.watches [DecidableEq W] {l : Lead W} {t : ℕ} {task : Task W}
    (h : LeadStep cfg w k l note k') (hw : l.pc.Watches t) (htask : k.tasks[t]? = some task)
    (hopen : task.Open) : ∃ l', k'.lead = some l' ∧ l'.pc.Watches t := by
  have hmet : ∀ task', k.tasks[t]? = some task' → task' = task := fun task' h' =>
    Option.some.inj (h'.symm.trans htask)
  -- the loop stops watching a task only where that task has settled or ended, which an open one
  -- has not
  cases h with
  | settled t' task' rest hpc htask' hsettled hstays =>
    rw [hpc] at hw
    obtain rfl : t' = t := hw
    obtain rfl := hmet _ htask'
    exact absurd hsettled hopen.not_settled
  | cancelled t' task' rest hpc htask' hback =>
    rw [hpc] at hw
    obtain rfl : t' = t := hw
    obtain rfl := hmet _ htask'
    exact absurd ⟨true, hback.1⟩ hopen.2
  | abandon t' task' rest hpc htask' hopen' hover =>
    rw [hpc] at hw
    exact ⟨_, rfl, hw⟩
  | waitCancelled t' task' rest hpc htask' hsettled =>
    rw [hpc] at hw
    obtain rfl : t' = t := hw
    obtain rfl := hmet _ htask'
    exact absurd hsettled hopen.not_settled
  | waitAbandoned t' task' rest hpc htask' hopen' =>
    rw [hpc] at hw
    exact ⟨_, rfl, hw⟩
  | abandoned t' task' raising rest hpc htask' hended hstays =>
    rw [hpc] at hw
    obtain rfl : t' = t := hw
    obtain rfl := hmet _ htask'
    exact absurd hended hopen.2
  | abandonedBack t' task' raising rest hpc htask' hback =>
    rw [hpc] at hw
    obtain rfl : t' = t := hw
    obtain rfl := hmet _ htask'
    exact absurd ⟨true, hback.1⟩ hopen.2
  | abandonCancelled t' raising rest hpc =>
    rw [hpc] at hw
    exact ⟨_, rfl, hw⟩
  | unwound t' task' rest hpc htask' hended =>
    rw [hpc] at hw
    obtain rfl : t' = t := hw
    obtain rfl := hmet _ htask'
    exact absurd hended hopen.2
  -- an error unwinds from no program counter that watches
  | failed rest hpc =>
    cases hl : l.pc with
    | waiting t' rest => simp [hl, LeadPc.unwinds] at hpc
    | abandoning t' raising rest => simp [hl, LeadPc.unwinds] at hpc
    | unwinding t' rest => simp [hl, LeadPc.unwinds] at hpc
    | _ => rw [hl] at hw; exact hw.elim
  | _ =>
    have hpc : ∀ pc, l.pc = pc → pc.Watches t := fun _ heq => heq ▸ hw
    have hfalse := hpc _ ‹l.pc = _›
    exact False.elim hfalse

/-- The lead loop starts a handler only below the cap. -/
theorem LeadStep.room [DecidableEq W] {l : Lead W} {entry m : ℕ}
    (h : LeadStep cfg w k l (.start entry) k') (hm : cfg.maxAdmitted w = some m) :
    k.running < m := by
  cases h with
  | startUncapped _ fields rest job hpc hfields hjob hcap =>
    rw [hcap] at hm
    cases hm
  | startCapped _ jobId rest m' hpc hcap hroom =>
    rw [hcap] at hm
    obtain rfl := Option.some.inj hm
    exact hroom

/-- The lead loop keeps the worker serial. -/
theorem Serial.lead [DecidableEq W] {l : Lead W} (h : Serial cfg w k) (hlead : k.lead = some l)
    (hstep : LeadStep cfg w k l note k') : Serial cfg w k' := by
  have hwatched : ∀ t task, k.tasks[t]? = some task → task.Open →
      ∃ l', k'.lead = some l' ∧ l'.pc.Watches t := by
    intro t task htask hopen
    obtain ⟨l₀, hl₀, hw⟩ := h.watched t task htask hopen
    obtain rfl := Option.some.inj (hlead.symm.trans hl₀)
    exact hstep.watches hw htask hopen
  -- a new handler is started, or the tasks stay as they are
  rcases hstep.frame hlead with ⟨entry, jobId, rest, rfl, rfl⟩ | hframe
  · refine ⟨fun l' _ => h.alone l hlead, fun l' hl' => ?_, h.electionNumber, ?_, fun m hm => ?_⟩
    · obtain rfl := Option.some.inj hl'
      exact h.leadNumber l hlead
    · intro t task htask hopen
      rcases Worker.getElem?_start htask with hold | ⟨rfl, -⟩
      · exact hwatched t task hold hopen
      · exact ⟨_, rfl, rfl⟩
    -- the new handler is the one there was room for
    · have hroom := hstep.room hm
      have hone : (k.start l entry jobId rest).running ≤ k.running + 1 := by
        simp only [Worker.running, Worker.start, Worker.leadTo, List.countP_append]
        exact Nat.add_le_add_left List.countP_le_length _
      omega
  · refine ⟨fun l' _ => ?_, fun l' hl' => ?_, fun n r hn => ?_, fun t task htask => ?_, ?_⟩
    · rw [hframe.election]
      exact h.alone l hlead
    · rw [hframe.mutex l' hl', hframe.nextMutex]
      exact h.leadNumber l hlead
    · rw [hframe.nextMutex]
      exact h.electionNumber n r (hframe.election ▸ hn)
    · exact hwatched t task (hframe.tasks ▸ htask)
    · rw [Worker.running, hframe.tasks]
      exact h.cap

/-- A task that changes opens nothing. -/
theorem Serial.task {t : ℕ} {task : Task W} (h : Serial cfg w k) (htask : k.tasks[t]? = some task)
    (hframe : TaskFrame k t task k') : Serial cfg w k' := by
  obtain ⟨task', htasks, -, hadmitted, hended⟩ := hframe.tasks
  have hlt : t < k.tasks.length := (List.getElem?_eq_some_iff.mp htask).1
  refine ⟨fun l hl => ?_, fun l hl => ?_, fun n r hn => ?_, fun t' task₁ htask₁ hopen => ?_,
    fun m hm => (?_ : _ ≤ k.running).trans (h.cap m hm)⟩
  · rw [hframe.election]
    exact h.alone l (hframe.lead ▸ hl)
  · rw [hframe.nextMutex]
    exact h.leadNumber l (hframe.lead ▸ hl)
  · rw [hframe.nextMutex]
    exact h.electionNumber n r (hframe.election ▸ hn)
  · rw [hframe.lead]
    rw [htasks, List.getElem?_set] at htask₁
    split at htask₁
    · rename_i heq
      -- an open task was open before: neither admission nor end is taken back
      subst heq
      obtain rfl := Option.some.inj htask₁
      refine h.watched t task htask ⟨?_, fun hend => hopen.2 (hended hend)⟩
      by_contra hnot
      have hadm := hadmitted (by simpa using hnot)
      rw [hopen.1] at hadm
      cases hadm
    · exact h.watched t' task₁ htask₁ hopen
  -- the number of handlers that run can only go down
  · have htask' : k.tasks[t] = task := (List.getElem?_eq_some_iff.mp htask).2
    rw [Worker.running, Worker.running, htasks, List.countP_set hlt, htask']
    by_cases hend : task.Ended
    · simp [hend, hended hend]
    · have hpos : 0 < k.tasks.countP fun t => ¬ t.Ended := by
        refine List.countP_pos_iff.mpr ⟨task, List.mem_of_getElem? htask, ?_⟩
        simpa using hend
      simp only [hend, not_false_eq_true, decide_true, if_true]
      split <;> omega

/-- Elections and the run loop start no handler. -/
theorem Serial.run (h : Serial cfg w k) (hstep : RunStep k note k') : Serial cfg w k' := by
  cases hstep with
  | ask hlead hidle =>
    refine ⟨fun l hl => ?_, fun l hl => ?_, fun n r hn => ?_, h.watched, h.cap⟩
    · exact absurd (hlead.symm.trans hl) nofun
    · exact absurd (hlead.symm.trans hl) nofun
    · cases hn
      exact Nat.lt_succ_self _
  -- an election is only held while no lead loop is there to watch a task
  | won mutex hasking =>
    refine ⟨fun _ _ => rfl, fun l hl => ?_, fun _ _ hn => (nomatch hn), ?_, h.cap⟩
    · obtain rfl := Option.some.inj hl
      exact h.electionNumber mutex _ hasking
    · intro t task htask hopen
      obtain ⟨l, hl, -⟩ := h.watched t task htask hopen
      exact absurd (hasking.symm.trans (h.alone l hl)) nofun
  | lost mutex hasking =>
    exact ⟨fun _ _ => rfl, h.leadNumber, fun _ _ hn => (nomatch hn), h.watched, h.cap⟩
  | askFailed mutex reply hasking =>
    exact ⟨fun _ _ => rfl, h.leadNumber, fun _ _ hn => (nomatch hn), h.watched, h.cap⟩
  | stop => exact ⟨h.alone, h.leadNumber, h.electionNumber, h.watched, h.cap⟩
  | loseMutex l hlead =>
    refine ⟨fun _ _ => h.alone l hlead, fun l' hl' => ?_, h.electionNumber, ?_, h.cap⟩
    · obtain rfl := Option.some.inj hl'
      exact h.leadNumber l hlead
    · intro t task htask hopen
      obtain ⟨l₀, hl₀, hw⟩ := h.watched t task htask hopen
      obtain rfl := Option.some.inj (hlead.symm.trans hl₀)
      exact ⟨_, rfl, hw⟩
  | clear hlead hidle htasks htouch =>
    exact ⟨h.alone, h.leadNumber, h.electionNumber, h.watched, h.cap⟩

/-- The touch loop starts no handler. -/
theorem Serial.touch (h : Serial cfg w k) (hstep : TouchStep k note k') : Serial cfg w k' := by
  cases hstep <;> exact ⟨h.alone, h.leadNumber, h.electionNumber, h.watched, h.cap⟩

/-- A worker stays serial. -/
theorem Serial.step [DecidableEq W] (h : Serial cfg w k) (hstep : WorkerStep cfg w k note k') :
    Serial cfg w k' := by
  cases hstep with
  | lead hlead hstep => exact h.lead hlead hstep
  | task htask hstep => exact h.task htask hstep.frame
  | run hstep => exact h.run hstep
  | touch hstep => exact h.touch hstep

/-- Replies change no worker's place. -/
theorem Serial.answer {r : Reply W} {co : Co} (h : Serial cfg w k) :
    Serial cfg w (k.answer r co) := by
  cases co with
  -- an answer to an election is only awaited where no lead loop runs
  | run =>
    rw [Worker.answer]
    split
    · rename_i mutex reply hasking
      refine ⟨fun l hl => ?_, h.leadNumber, fun n r hn => ?_, h.watched, h.cap⟩
      · exact absurd (hasking.symm.trans (h.alone l hl)) (by simp)
      · cases hn
        exact h.electionNumber mutex reply hasking
    · exact h
  | lead =>
    refine ⟨fun l hl => ?_, fun l hl => ?_, h.electionNumber, fun t task htask hopen => ?_, h.cap⟩
    · obtain ⟨l₀, hl₀, -⟩ := Option.map_eq_some_iff.mp hl
      exact h.alone l₀ hl₀
    · obtain ⟨l₀, hl₀, rfl⟩ := Option.map_eq_some_iff.mp hl
      exact h.leadNumber l₀ hl₀
    · obtain ⟨l₀, hl₀, hw⟩ := h.watched t task htask hopen
      exact ⟨{ l₀ with reply := some r }, Option.map_eq_some_iff.mpr ⟨l₀, hl₀, rfl⟩, hw⟩
  | task t =>
    rcases Worker.answer_task (k := k) (r := r) (t := t) with heq | ⟨task, htask, heq⟩
    · rw [heq]
      exact h
    · rw [heq]
      exact h.task htask ⟨rfl, rfl, rfl, rfl, _, rfl, rfl, id, id⟩
  | touch =>
    rw [Worker.answer]
    split
    · exact ⟨h.alone, h.leadNumber, h.electionNumber, h.watched, h.cap⟩
    · exact h

/-- A worker that has just started. -/
theorem serial_initial : Serial cfg w .initial :=
  ⟨fun _ hl => (nomatch hl), fun _ hl => (nomatch hl), fun _ _ hn => (nomatch hn),
    fun _ _ ht => (nomatch ht), fun _ _ => Nat.zero_le _⟩

/-- A worker that has crashed. -/
theorem serial_dead : Serial cfg w .dead :=
  ⟨fun _ hl => (nomatch hl), fun _ hl => (nomatch hl), fun _ _ hn => (nomatch hn),
    fun _ _ ht => (nomatch ht), fun _ _ => Nat.zero_le _⟩

/-- Every worker is serial, whatever happens. -/
theorem serial_of_run [DecidableEq W] {tr : List (Event W)} {s : World W}
    (h : (system cfg).Run tr s) (w : W) : Serial cfg w (s.workers w) := by
  refine System.Run.invariant (I := fun _ s => Serial cfg w (s.workers w)) ?_ ?_ h
  · rintro s rfl
    exact serial_initial
  · rintro tr s e s' - hserial hstep
    exact hstep.worker hserial (fun r co => hserial.answer) (fun note k _ _ hk => hserial.step hk)
      serial_dead

end Worker

/-! ## The Mutex -/

/-- The worker is done with election `n`. -/
structure Worker.Past (k : Worker W) (n : ℕ) : Prop where
  lead : ∀ l, k.lead = some l → l.mutex ≠ n
  election : ∀ r, k.election ≠ .asking n r
  old : k.alive = true → n < k.nextMutex

section Mutex

variable {w : W} {k k' : Worker W} {note : Note W} {n : ℕ}

/-- A Mutex that is past owns no lock. -/
theorem Worker.Past.not_owns (h : k.Past n) : ¬ k.Owns n := by
  rintro (⟨l, hl, hmutex, -⟩ | hasking)
  · exact h.lead l hl hmutex
  · exact h.election _ hasking

/-- Whoever watches a handler owns the Mutex. -/
theorem owns_of_watches {l : Lead W} {t : ℕ} (hlead : k.lead = some l) (hw : l.pc.Watches t) :
    k.Owns l.mutex := by
  refine Or.inl ⟨l, hlead, rfl, fun hpc => ?_⟩
  rw [hpc] at hw
  exact hw

/-- A worker takes the Mutex over only from its own election. -/
theorem WorkerStep.owns [DecidableEq W] (h : WorkerStep cfg w k note k') (hk : Serial cfg w k)
    (hown : k'.Owns n) : k.Owns n := by
  cases h with
  | @lead l _ _ hlead hstep =>
    -- the release is the last segment of a loop: after it nobody owns the Mutex
    have hpc : l.pc ≠ .releasing := fun hpc => by
      have hnone := hstep.ends_of_releasing hpc
      rcases hstep.frame hlead with ⟨_, _, _, -, rfl⟩ | hframe
      · cases hnone
      · rcases hown with ⟨l', hl', -⟩ | hasking
        · exact absurd (hnone.symm.trans hl') nofun
        · rw [hframe.election, hk.alone l hlead] at hasking
          cases hasking
    refine Or.inl ⟨l, hlead, ?_, hpc⟩
    rcases hstep.frame hlead with ⟨_, _, _, -, rfl⟩ | hframe
    · rcases hown with ⟨l', hl', hmutex, -⟩ | hasking
      · obtain rfl := Option.some.inj hl'
        exact hmutex
      · exact absurd ((hk.alone l hlead).symm.trans hasking) nofun
    · rcases hown with ⟨l', hl', hmutex, -⟩ | hasking
      · rw [← hframe.mutex l' hl', hmutex]
      · rw [hframe.election, hk.alone l hlead] at hasking
        cases hasking
  | task htask hstep =>
    have hframe := hstep.frame
    rw [Worker.Owns, hframe.lead, hframe.election] at hown
    exact hown
  | run hstep =>
    cases hstep with
    | ask hlead hidle =>
      rcases hown with hown | hasking
      · exact Or.inl hown
      · cases hasking
    -- the loop inherits the Mutex of the election
    | won mutex hasking =>
      rcases hown with ⟨l, hl, rfl, -⟩ | hidle
      · obtain rfl := Option.some.inj hl
        exact Or.inr hasking
      · cases hidle
    | lost mutex hasking =>
      rcases hown with hown | hidle
      · exact Or.inl hown
      · cases hidle
    | askFailed mutex reply hasking =>
      rcases hown with hown | hidle
      · exact Or.inl hown
      · cases hidle
    | stop => exact hown
    | loseMutex l hlead =>
      rcases hown with ⟨l', hl', hmutex, hpc⟩ | hasking
      · obtain rfl := Option.some.inj hl'
        exact Or.inl ⟨l, hlead, hmutex, hpc⟩
      · exact Or.inr hasking
    | clear hlead hidle htasks htouch => exact hown
  | touch hstep => cases hstep <;> exact hown

/-- What is past stays past. -/
theorem Worker.Past.step [DecidableEq W] (h : k.Past n) (halive : k.alive = true)
    (hstep : WorkerStep cfg w k note k') : k'.Past n := by
  cases hstep with
  | @lead l _ _ hlead hstep =>
    rcases hstep.frame hlead with ⟨_, _, _, -, rfl⟩ | hframe
    · refine ⟨fun l' hl' => ?_, h.election, h.old⟩
      obtain rfl := Option.some.inj hl'
      exact h.lead l hlead
    · refine ⟨fun l' hl' => ?_, fun r => ?_, fun _ => ?_⟩
      · rw [hframe.mutex l' hl']
        exact h.lead l hlead
      · rw [hframe.election]
        exact h.election r
      · rw [hframe.nextMutex]
        exact h.old halive
  | task htask hstep =>
    have hframe := hstep.frame
    refine ⟨fun l hl => h.lead l (hframe.lead ▸ hl), fun r => ?_, fun _ => ?_⟩
    · rw [hframe.election]
      exact h.election r
    · rw [hframe.nextMutex]
      exact h.old halive
  | run hstep =>
    cases hstep with
    -- a new election has a new number, so it is not the one that is past
    | ask hlead hidle =>
      refine ⟨h.lead, fun r hr => ?_, fun _ => Nat.lt_succ_of_lt (h.old halive)⟩
      obtain ⟨rfl, -⟩ := Election.asking.inj hr
      exact absurd (h.old halive) (lt_irrefl _)
    | won mutex hasking =>
      refine ⟨fun l hl => ?_, fun r hr => (nomatch hr), h.old⟩
      obtain rfl := Option.some.inj hl
      rintro rfl
      exact h.election _ hasking
    | lost mutex hasking => exact ⟨h.lead, fun r hr => (nomatch hr), h.old⟩
    | askFailed mutex reply hasking => exact ⟨h.lead, fun r hr => (nomatch hr), h.old⟩
    | stop => exact ⟨h.lead, h.election, h.old⟩
    | loseMutex l hlead =>
      refine ⟨fun l' hl' => ?_, h.election, h.old⟩
      obtain rfl := Option.some.inj hl'
      exact h.lead l hlead
    | clear hlead hidle htasks htouch => exact ⟨h.lead, h.election, h.old⟩
  | touch hstep => cases hstep <;> exact ⟨h.lead, h.election, h.old⟩

/-- A reply brings no Mutex back. -/
theorem Worker.Past.answer {r : Reply W} {co : Co} (h : k.Past n) : (k.answer r co).Past n := by
  cases co with
  | run =>
    rw [Worker.answer]
    split
    · rename_i mutex reply hasking
      refine ⟨h.lead, fun r' hr' => ?_, h.old⟩
      obtain ⟨rfl, -⟩ := Election.asking.inj hr'
      exact h.election reply hasking
    · exact h
  | lead =>
    refine ⟨fun l hl => ?_, h.election, h.old⟩
    obtain ⟨l₀, hl₀, rfl⟩ := Option.map_eq_some_iff.mp hl
    exact h.lead l₀ hl₀
  | task t => exact ⟨h.lead, h.election, h.old⟩
  | touch =>
    rw [Worker.answer]
    split
    · exact ⟨h.lead, h.election, h.old⟩
    · exact h

/-- A lead loop that gives up its release is over. -/
theorem WorkerStep.past_of_lost [DecidableEq W] (h : WorkerStep cfg w k note k')
    (hk : Serial cfg w k) (hlost : .release n ∈ note.lost) : k'.Past n := by
  cases h with
  | @lead l _ _ hlead hstep =>
    have hnumber := hk.leadNumber l hlead
    cases hstep with
    -- the only segment that gives up a release, and it ends the loop
    | releaseFailed hpc =>
      obtain ⟨-, rfl⟩ := Lead.pc_of_command_release (Option.mem_toList.mp hlost)
      refine ⟨fun l' hl' => (nomatch hl'), fun r hr => ?_, fun _ => hnumber⟩
      exact absurd ((hk.alone l hlead).symm.trans hr) nofun
    | failed rest hpc =>
      obtain ⟨hpc', -⟩ := Lead.pc_of_command_release (Option.mem_toList.mp hlost)
      simp [hpc', LeadPc.unwinds] at hpc
    | handFailed entries next hpc =>
      obtain ⟨hpc', -⟩ := Lead.pc_of_command_release (Option.mem_toList.mp hlost)
      rw [hpc] at hpc'
      cases hpc'
    | handCancelled entries locked next hpc =>
      obtain ⟨hpc', -⟩ := Lead.pc_of_command_release (Option.mem_toList.mp hlost)
      rw [hpc] at hpc'
      cases hpc'
    | _ => cases hlost
  | task htask hstep =>
    cases hstep <;> first
      | cases hlost
      | rcases Task.command_eq (Option.mem_toList.mp hlost) with heq | heq <;> cases heq
  | run hstep =>
    cases hstep with
    | askFailed mutex reply hasking => cases List.mem_singleton.mp hlost
    | _ => cases hlost
  | touch hstep =>
    cases hstep with
    | failed entries reply hclaiming => cases List.mem_singleton.mp hlost
    | _ => cases hlost

/-- A reply gives the Mutex only to who asked for it. -/
theorem owns_of_answer {r : Reply W} {co : Co} (h : (k.answer r co).Owns n) :
    k.Owns n ∨ k.command co = some (.acquire n) ∧ r = .granted true := by
  cases co with
  | run =>
    rw [Worker.answer] at h
    split at h
    · rename_i mutex reply hasking
      rcases h with hlead | hgranted
      · exact Or.inl (Or.inl hlead)
      · obtain ⟨rfl, hr⟩ := Election.asking.inj hgranted
        exact Or.inr ⟨by rw [Worker.command, hasking], Option.some.inj hr⟩
    · exact Or.inl h
  | lead =>
    rcases h with ⟨l, hl, hmutex, hpc⟩ | hasking
    · obtain ⟨l₀, hl₀, rfl⟩ := Option.map_eq_some_iff.mp hl
      exact Or.inl (Or.inl ⟨l₀, hl₀, hmutex, hpc⟩)
    · exact Or.inl (Or.inr hasking)
  | task t => exact Or.inl h
  | touch =>
    rw [Worker.answer] at h
    split at h <;> exact Or.inl h

/-- A worker that has sent its release owns nothing. -/
theorem not_owns_of_release {co : Co} {m : ℕ} (hk : Serial cfg w k)
    (hcmd : k.command co = some (.release m)) : ¬ k.Owns n := by
  have hlead : co = .lead := by
    cases co with
    | run => rw [Worker.command] at hcmd; split at hcmd <;> cases hcmd
    | lead => rfl
    | task t =>
      obtain ⟨task, -, htask⟩ := Option.bind_eq_some_iff.mp hcmd
      rcases Task.command_eq htask with heq | heq <;> cases heq
    | touch => rw [Worker.command] at hcmd; split at hcmd <;> cases hcmd
  subst hlead
  obtain ⟨l, hl, hrelease⟩ := Option.bind_eq_some_iff.mp hcmd
  obtain ⟨hpc, -⟩ := Lead.pc_of_command_release hrelease
  rintro (⟨l', hl', -, hpc'⟩ | hasking)
  · obtain rfl := Option.some.inj (hl.symm.trans hl')
    exact hpc' hpc
  · exact absurd ((hk.alone l hl).symm.trans hasking) (by simp)

/-! ### The server's side -/

variable {s : Server W} {cmd : Command W}

/-- Only its owner releases the Mutex. -/
theorem exec_lock [DecidableEq W] {owner : W × ℕ} (h : s.lock = some owner)
    (hothers : ∀ m, cmd = .release m → owner ≠ (w, m)) :
    (exec cfg w s cmd).1.lock = some owner := by
  cases cmd with
  | acquire m =>
    rw [exec, h]
    exact h
  | release m =>
    have hne : s.lock ≠ some (w, m) := fun heq =>
      hothers m rfl (Option.some.inj (h.symm.trans heq))
    rw [exec, if_neg hne]
    exact h
  | _ =>
    rw [exec]
    first
    | exact h
    | split <;> exact h

/-- Who is told that it has the Mutex has it. -/
theorem exec_granted [DecidableEq W] {m : ℕ}
    (h : (exec cfg w s (.acquire m)).2 = .granted true) :
    (exec cfg w s (.acquire m)).1.lock = some (w, m) := by
  rw [exec] at h ⊢
  split at h
  · rfl
  · rename_i owner hlock
    have hgranted := Reply.granted.inj h
    rw [of_decide_eq_true hgranted] at hlock
    simp only [hlock]

end Mutex

/-! ## All workers -/

/-- The invariant: every owner owns the Mutex on the server, and releases in flight are past. -/
structure Exclusive (cfg : Config W π) (s : World W) : Prop where
  workers : ∀ w, Serial cfg w (s.workers w)
  owner : ∀ w n, (s.workers w).Owns n → s.server.lock = some (w, n)
  released : ∀ w n, (w, .release n) ∈ s.stray → (s.workers w).Past n

section Run

variable [DecidableEq W] {s s' : World W} {e : Event W}

/-- A command executes: owners stay owners. -/
theorem Exclusive.lock (h : Exclusive cfg s) {w : W} {cmd : Command W}
    (hrelease : ∀ m, cmd = .release m → ¬ (s.workers w).Owns m) {w' : W} {n : ℕ}
    (hown : (s.workers w').Owns n) : (exec cfg w s.server cmd).1.lock = some (w', n) := by
  refine exec_lock (h.owner w' n hown) ?_
  rintro m hcmd heq
  obtain ⟨rfl, rfl⟩ := Prod.mk.inj heq
  exact hrelease n hcmd hown

/-- A command executes: the lock is taken only where it is free, and released only by the Mutex
that has it. -/
theorem Exclusive.exec (h : Exclusive cfg s) {w : W} {co : Co} {cmd : Command W}
    (hcmd : (s.workers w).command co = some cmd) :
    Exclusive cfg { s with
      server := (Dispatch.exec cfg w s.server cmd).1
      workers := Function.update s.workers w
        ((s.workers w).answer (Dispatch.exec cfg w s.server cmd).2 co) } := by
  have hrelease : ∀ m, cmd = .release m → ¬ (s.workers w).Owns m := by
    rintro m rfl
    exact not_owns_of_release (h.workers w) hcmd
  -- the worker that is answered, and the others; then the releases that were given up
  refine ⟨fun w' => ?_, fun w' n hown => ?_, fun w' n hstray => ?_⟩
  · rcases eq_or_ne w' w with rfl | hne
    · simpa only [Function.update_self] using (h.workers w').answer
    · simpa only [Function.update_of_ne hne] using h.workers w'
  · rcases eq_or_ne w' w with rfl | hne
    · simp only [Function.update_self] at hown
      rcases owns_of_answer hown with hown | ⟨hacquire, hgranted⟩
      · exact h.lock hrelease hown
      · obtain rfl := Option.some.inj (hcmd.symm.trans hacquire)
        exact exec_granted hgranted
    · simp only [Function.update_of_ne hne] at hown
      exact h.lock hrelease hown
  · rcases eq_or_ne w' w with rfl | hne
    · simpa only [Function.update_self] using (h.released w' n hstray).answer
    · simpa only [Function.update_of_ne hne] using h.released w' n hstray

/-- A worker acts: it makes a new Mutex for every election, and gives the old one up with its lead
loop. -/
theorem Exclusive.act (h : Exclusive cfg s) {w : W} {note : Note W} {k : Worker W}
    (halive : (s.workers w).alive = true) (hstep : WorkerStep cfg w (s.workers w) note k) :
    Exclusive cfg { s with
      workers := Function.update s.workers w k
      stray := note.lost.map (w, ·) ++ s.stray } := by
  refine ⟨fun w' => ?_, fun w' n hown => ?_, fun w' n hstray => ?_⟩
  · rcases eq_or_ne w' w with rfl | hne
    · simpa only [Function.update_self] using (h.workers w').step hstep
    · simpa only [Function.update_of_ne hne] using h.workers w'
  · rcases eq_or_ne w' w with rfl | hne
    · simp only [Function.update_self] at hown
      exact h.owner w' n (hstep.owns (h.workers w') hown)
    · simp only [Function.update_of_ne hne] at hown
      exact h.owner w' n hown
  · rcases List.mem_append.mp hstray with hlost | hold
    · obtain ⟨cmd, hlost, heq⟩ := List.mem_map.mp hlost
      obtain ⟨rfl, rfl⟩ := Prod.mk.inj heq
      simpa only [Function.update_self] using hstep.past_of_lost (h.workers w) hlost
    · rcases eq_or_ne w' w with rfl | hne
      · simpa only [Function.update_self] using (h.released w' n hold).step halive hstep
      · simpa only [Function.update_of_ne hne] using h.released w' n hold

/-- A crash gives up a Mutex; its lock stays until it expires. -/
theorem Exclusive.crash (h : Exclusive cfg s) {w : W} :
    Exclusive cfg { s with
      workers := Function.update s.workers w .dead
      stray := (s.workers w).inFlight.map (w, ·) ++ s.stray } := by
  have hdead : ∀ n, (Worker.dead : Worker W).Past n := fun n =>
    ⟨fun _ hl => (nomatch hl), fun _ hr => (nomatch hr), fun halive => (nomatch halive)⟩
  refine ⟨fun w' => ?_, fun w' n hown => ?_, fun w' n hstray => ?_⟩
  · rcases eq_or_ne w' w with rfl | hne
    · simpa only [Function.update_self] using serial_dead
    · simpa only [Function.update_of_ne hne] using h.workers w'
  · rcases eq_or_ne w' w with rfl | hne
    · simp only [Function.update_self] at hown
      exact absurd hown (hdead n).not_owns
    · simp only [Function.update_of_ne hne] at hown
      exact h.owner w' n hown
  · rcases eq_or_ne w' w with rfl | hne
    · simpa only [Function.update_self] using hdead n
    · rcases List.mem_append.mp hstray with hlost | hstray
      · obtain ⟨cmd, -, heq⟩ := List.mem_map.mp hlost
        exact absurd (Prod.mk.inj heq).1.symm hne
      · simpa only [Function.update_of_ne hne] using h.released w' n hstray

/-- One step keeps the invariant. -/
theorem Exclusive.step (h : Exclusive cfg s) (hkeeps : KeepsMutex s e) (hstep : Step cfg s e s') :
    Exclusive cfg s' := by
  cases hstep with
  | append id fields hnew => exact ⟨h.workers, h.owner, h.released⟩
  | advance now hnow => exact ⟨h.workers, h.owner, h.released⟩
  | expire =>
    refine ⟨h.workers, fun w n hown => ?_, h.released⟩
    exact absurd hown (hkeeps rfl w n (h.owner w n hown))
  | exec w co cmd hcmd => exact h.exec hcmd
  | late w cmd hstray =>
    refine ⟨h.workers, fun w' n hown => h.lock ?_ hown, h.released⟩
    rintro m rfl
    exact (h.released w m hstray).not_owns
  | act w note k halive hstep => exact h.act halive hstep
  | crash w => exact h.crash

/-- The invariant holds in every run in which no Mutex expires under its lead loop. -/
theorem exclusive_of_run {tr : List (Event W)}
    (h : ((system cfg).restrict KeepsMutex).Run tr s) : Exclusive cfg s := by
  refine Transition.System.Run.invariant (I := fun _ s => Exclusive cfg s) ?_ ?_ h
  · rintro s rfl
    refine ⟨fun w => serial_initial, fun w n hown => ?_, fun _ _ hstray => (nomatch hstray)⟩
    rcases hown with ⟨l, hl, -⟩ | hasking
    · cases hl
    · cases hasking
  · intro tr s e s' _ hexclusive hstep
    exact hexclusive.step hstep.1 hstep.2

end Run

/-- **Admission is serialized.** Over all workers together at most one handler has been started and
has neither called `admit()` nor ended, and no worker runs more handlers than its cap. -/
theorem admission_serialized [DecidableEq W] {tr : List (Event W)} {s : World W}
    (h : ((system cfg).restrict KeepsMutex).Run tr s) :
    (∀ w w' (t t' : ℕ) (task task' : Task W), (s.workers w).tasks[t]? = some task →
        (s.workers w').tasks[t']? = some task' →
        task.admitted = false → ¬ task.Ended → task'.admitted = false → ¬ task'.Ended →
        w = w' ∧ t = t') ∧
      ∀ w m, cfg.maxAdmitted w = some m → (s.workers w).running ≤ m := by
  have hexclusive := exclusive_of_run h
  refine ⟨fun w w' t t' task task' htask htask' hadm hend hadm' hend' => ?_,
    fun w => (hexclusive.workers w).cap⟩
  obtain ⟨l, hl, hw⟩ := (hexclusive.workers w).watched t task htask ⟨hadm, hend⟩
  obtain ⟨l', hl', hw'⟩ := (hexclusive.workers w').watched t' task' htask' ⟨hadm', hend'⟩
  have hlock := hexclusive.owner w _ (owns_of_watches hl hw)
  have hlock' := hexclusive.owner w' _ (owns_of_watches hl' hw')
  obtain ⟨rfl, -⟩ := Prod.mk.inj (Option.some.inj (hlock.symm.trans hlock'))
  obtain rfl := Option.some.inj (hl.symm.trans hl')
  exact ⟨rfl, hw.unique hw'⟩

/-- Every worker may run one handler at a time. -/
def capped : Config ℕ Unit := { plain with maxAdmitted := fun _ => some 1 }

/-- Worker `0` has started its one handler. -/
theorem admission_serialized_started : ∃ s : World ℕ,
    ((system capped).restrict KeepsMutex).Run
      [.act 0 (.start 1), .act 0 .quiet, .act 0 .quiet, .exec 0 .lead .readNew, .append 1 ping,
        .act 0 .quiet, .act 0 .quiet, .exec 0 .lead .ensureGroup, .act 0 .quiet,
        .exec 0 .run (.acquire 0), .act 0 .quiet] s ∧
    (s.workers 0).running ≤ 1 ∧
    ∃ task, (s.workers 0).tasks[0]? = some task ∧ task.admitted = false ∧ ¬ task.Ended ∧
      ∀ w (t : ℕ) (task' : Task ℕ), (s.workers w).tasks[t]? = some task' → task'.admitted = false →
        ¬ task'.Ended → 0 = w ∧ 0 = t := by
  have h : ((system capped).restrict KeepsMutex).Run []
      (⟨.initial, fun _ => .initial, []⟩ : World ℕ) := .start rfl
  have h := h.step ⟨by rintro ⟨⟩, Step.act 0 _ _ rfl (.run (.ask rfl rfl))⟩
  have h := h.step ⟨by rintro ⟨⟩, Step.exec 0 .run _ rfl⟩
  have h := h.step ⟨by rintro ⟨⟩, Step.act 0 _ _ rfl (.run (.won 0 rfl))⟩
  have h := h.step ⟨by rintro ⟨⟩, Step.exec 0 .lead _ rfl⟩
  have h := h.step ⟨by rintro ⟨⟩, Step.act 0 _ _ rfl (.lead rfl (.ensured .top _ rfl rfl))⟩
  have h := h.step ⟨by rintro ⟨⟩, Step.act 0 _ _ rfl (.lead rfl (.skip rfl rfl rfl rfl))⟩
  have h := h.step ⟨by rintro ⟨⟩, Step.append 1 ping (by decide)⟩
  have h := h.step ⟨by rintro ⟨⟩, Step.exec 0 .lead _ rfl⟩
  have h := h.step ⟨by rintro ⟨⟩, Step.act 0 _ _ rfl
    (.lead rfl (.read [(some 1, some ping)] rfl rfl))⟩
  have h := h.step ⟨by rintro ⟨⟩, Step.act 0 _ _ rfl
    (.lead rfl (.cap 1 ping [] _ 1 rfl (by decide) decode_ping rfl))⟩
  have h := h.step ⟨by rintro ⟨⟩, Step.act 0 _ _ rfl
    (.lead rfl (.startCapped 1 "j" [] 1 rfl rfl (by decide)))⟩
  have hserial := admission_serialized h
  refine ⟨_, h, hserial.2 0 1 rfl, ⟨1, "j", false, .handler, none⟩, rfl, rfl, by decide, ?_⟩
  intro w t task' htask' hadm' hend'
  exact hserial.1 0 w 0 t _ task' rfl htask' rfl (by decide) hadm' hend'

end RedisSemaphore.Dispatch

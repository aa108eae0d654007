import RedisSemaphore.Dispatch.Shutdown

/-!
# A run reports its own failure

`_stop_fatally` stores the error in `_fatal`, and the last lines of `run()` consume it. A cancelled
run raises before it comes to them. If it had hit a fatal error, the error stays and is raised by a
later run, which may have met none. That is the only way: as long as no run that has hit a fatal
error ends by a cancellation, `_fatal` is empty between runs.
-/

namespace RedisSemaphore.Dispatch.Lifecycle

open Redis Transition

variable {κ W : Type*} {π : Type} {settings : Settings κ W π} {me : W}

/-- A run that has hit a fatal error does not end by a cancellation. -/
def Reports (s : World κ W) (e : Event κ W) : Prop :=
  e = .ended .cancelled → s.worker.fatal = none

namespace DispatchWorker

variable {d d' : DispatchWorker κ W} {e : Event κ W} {given : List (κ × Command W)}
  {error : BackendError}

theorem fatal_failWith {found : Option BackendError}
    (h : (d.failWith found).fatal = some error) :
    found = some error ∧ error.isFatal = true ∨ d.fatal = some error := by
  unfold failWith at h
  split at h
  · split at h
    · rename_i hfatal
      rcases Option.or_eq_some_iff.mp h with hold | ⟨-, hnew⟩
      · exact Or.inr hold
      · obtain rfl := Option.some.inj hnew
        exact Or.inl ⟨rfl, hfatal⟩
    · exact Or.inr h
  · exact Or.inr h

theorem fatal_of_head (h : Head settings d d') : d'.fatal = d.fatal := by
  cases h <;> rfl

variable [DecidableEq κ]

/-- `run()` has a fatal error only where it meets one. -/
theorem fatal_of_run (hact : RunAct settings d e given d') (h : d'.fatal = some error) :
    e.Hits error ∨ d.fatal = some error := by
  cases hact with
  | start hidle hrunning hhead =>
    rw [fatal_of_head hhead] at h
    exact Or.inr h
  | woken hpausing hhead =>
    rw [fatal_of_head hhead] at h
    exact Or.inr h
  | refused q mutex rest found hasking => exact fatal_failWith h
  | failed q mutex rest reply found hasking => exact fatal_failWith h
  | ended raising cancelled hclosing =>
    right
    replace h : (if raising || cancelled then d.fatal else none) = some error := h
    split at h
    · exact h
    · cases h
  | _ => exact Or.inr h

/-- A lead loop has a fatal error only where it meets one. -/
theorem fatal_of_lead [DecidableEq W] (hact : LeadAct settings me d e given d')
    (h : d'.fatal = some error) : e.Hits error ∨ d.fatal = some error := by
  cases hact with
  | failed q l cmd rest found hlead hcmd hunwinds hfatal =>
    have hmet := fatal_failWith h
    exact hmet
  | _ => exact Or.inr h

/-- Between two runs `_fatal` does not change. -/
theorem fatal_of_idle (hact : RunAct settings d e given d') (hidle : d'.pc = .idle)
    (hgo : ∀ outcome, e ≠ .ended outcome) : d.pc = .idle ∧ d'.fatal = d.fatal := by
  cases hact with
  | start hidle' hrunning hhead | woken hpausing hhead => cases hhead <;> cases hidle
  | again hrunning => exact ⟨hidle, rfl⟩
  | stop => exact ⟨hidle, rfl⟩
  | ended raising cancelled hclosing => exact absurd rfl (hgo _)
  | _ => cases hidle

end DispatchWorker

variable [DecidableEq κ] [DecidableEq W] {s s' : World κ W} {e : Event κ W} {error : BackendError}

/-- A step leaves a fatal error only where it meets one, or where there was one before. -/
theorem fatal_of_step (hstep : Step settings me s e s') (h : s'.worker.fatal = some error) :
    e.Hits error ∨ s.worker.fatal = some error := by
  cases hstep with
  | act hact =>
    cases hact with
    | run hact => exact DispatchWorker.fatal_of_run hact h
    | lead hact => exact DispatchWorker.fatal_of_lead hact h
    | side hact => exact Or.inr (hact.frame.2.2.symm.trans h)
  | _ => exact Or.inr h

/-- A step between two runs leaves `_fatal` alone. -/
theorem fatal_of_idle_step (hs : s.worker.Tidy) (hstep : Step settings me s e s')
    (hidle : s'.worker.pc = .idle) (hgo : ∀ outcome, e ≠ .ended outcome) :
    s.worker.pc = .idle ∧ s'.worker.fatal = s.worker.fatal := by
  cases hstep with
  | act hact =>
    cases hact with
    | run hact => exact DispatchWorker.fatal_of_idle hact hidle hgo
    | lead hact =>
      obtain ⟨⟨q, l, hlead⟩, hpc⟩ := hact.frame
      have hstands := hs.stands
      unfold DispatchWorker.Stands at hstands
      rw [← hpc, hidle] at hstands
      rw [(hstands.parts q).lead] at hlead
      cases hlead
    | side hact => exact ⟨hact.frame.1.symm.trans hidle, hact.frame.2.2⟩
  | execAsk q mutex rest reply hasking => cases hidle
  | _ => exact ⟨hidle, rfl⟩

/-- A run starts where none is going on. -/
theorem Step.of_start (h : Step settings me s .start s') : s.worker.pc = .idle := by
  cases h with
  | act hact =>
    cases hact with
    | run hact =>
      cases hact with
      | start hidle hrunning hhead => exact hidle
    | lead hact => cases hact

/-- **The invariant.** A stored error was met in this run, and between runs there is none. -/
structure Own (tr : List (Event κ W)) (s : World κ W) : Prop where
  hit : ∀ error, s.worker.fatal = some error → ∃ e ∈ since Event.isStart tr, e.Hits error
  idle : s.worker.pc = .idle → s.worker.fatal = none

theorem Own.step {tr : List (Event κ W)} (h : Own tr s) (hs : s.worker.Tidy)
    (hok : Reports s e) (hstep : Step settings me s e s') : Own (e :: tr) s' := by
  constructor
  · intro error hfatal
    cases hmark : e.isStart with
    | true =>
      -- a new run: there is nothing to report yet
      obtain rfl : e = .start := by
        cases e with
        | start => rfl
        | _ => cases hmark
      rcases fatal_of_step hstep hfatal with hhit | hold
      · cases hhit.1
      · rw [h.idle hstep.of_start] at hold
        cases hold
    | false =>
      rw [since_cons_of_neg hmark]
      rcases fatal_of_step hstep hfatal with hhit | hold
      · exact ⟨e, List.mem_cons_self, hhit⟩
      · obtain ⟨e', hmem, hhit⟩ := h.hit error hold
        exact ⟨e', List.mem_cons_of_mem _ hmem, hhit⟩
  · intro hidle
    by_cases hgo : ∀ outcome, e ≠ .ended outcome
    · obtain ⟨hpc, hfatal⟩ := fatal_of_idle_step hs hstep hidle hgo
      exact hfatal.trans (h.idle hpc)
    · obtain ⟨outcome, rfl⟩ := not_forall_not.mp hgo
      obtain ⟨raising, cancelled, -, houtcome, rfl⟩ := hstep.of_ended
      show (if raising || cancelled then s.worker.fatal else none) = none
      split
      · rename_i hcancelled
        refine hok ?_
        rw [houtcome, DispatchWorker.outcome, if_pos hcancelled]
      · rfl

theorem own_of_run {tr : List (Event κ W)}
    (h : ((system settings me).restrict Reports).Run tr s) : Own tr s := by
  have hboth : (system settings me).Run tr s ∧ Own tr s := by
    refine System.Run.invariant (M := (system settings me).restrict Reports)
      (I := fun tr s => (system settings me).Run tr s ∧ Own tr s) ?_ ?_ h
    · rintro s rfl
      exact ⟨.start rfl, fun error hfatal => (nomatch hfatal), fun _ => rfl⟩
    · rintro tr s e s' - ⟨hrun, hown⟩ ⟨hok, hstep⟩
      exact ⟨hrun.step hstep, hown.step (tidy_of_run hrun) hok hstep⟩
  exact hboth.2

/-- **A run reports only its own failure**, as long as no run that has hit a fatal error ends by a
cancellation: the error that `run()` raises was met by an election or a lead loop of that run. -/
theorem fatal_reported {tr : List (Event κ W)}
    (h : ((system settings me).restrict Reports).Run (.ended (.raised error) :: tr) s) :
    ∃ e ∈ since Event.isStart tr, e.Hits error := by
  obtain ⟨s₀, hrun, -, hstep⟩ := h.of_cons
  obtain ⟨raising, cancelled, -, houtcome, -⟩ := hstep.of_ended
  refine (own_of_run hrun).hit error ?_
  unfold DispatchWorker.outcome at houtcome
  split at houtcome
  · cases houtcome
  · split at houtcome
    · rename_i hfatal
      obtain rfl := Outcome.raised.inj houtcome
      exact hfatal
    · cases houtcome

/-! ## A denied election -/

/-- The user may not run the acquire script. -/
def denied : BackendError := ⟨true, "NOPERM"⟩

/-- The election is denied, and the run stops. -/
theorem path_denied : (system solo 0).Path ⟨.initial, fun _ => .initial, []⟩
    [.quiet, .refused (some denied), .start]
    ⟨unled true true (some denied) (some .asleep) 1 (.closing .leads false false),
      fun _ => .initial, []⟩ := by
  have hrefused : RunAct solo (unled true false none (some .asleep) 1 (.asking 0 0 [] none))
      (.refused (some denied)) [] (unled true true (some denied) (some .asleep) 1 .pausing) :=
    .refused 0 0 [] (some denied) rfl
  have hwoken : RunAct solo (unled true true (some denied) (some .asleep) 1 .pausing) .quiet []
      (unled true true (some denied) (some (.asleep : Touch ℕ ℕ)) 1
        (.closing .leads false false)) :=
    .woken rfl (.leave rfl)
  exact .step (.step (.step .refl (Step.of_run start_solo)) (Step.of_run hrefused))
    (Step.of_run hwoken)

/-- A run that is not cancelled raises the error it has met. -/
theorem fatal_reported_denied :
    ∃ e ∈ since Event.isStart
        ([.cleaned, .quiet, .quiet, .quiet, .quiet, .refused (some denied), .start] :
          List (Event ℕ ℕ)), e.Hits denied := by
  have hpath := path_denied.append path_cleaned
  have hrun : ((system solo 0).restrict Reports).Run _ _ :=
    (System.Run.start rfl).append (hpath.restrict (by simp [Reports]))
  exact fatal_reported (hrun.step ⟨nofun, Step.of_run (.ended false false rfl)⟩)

/-- **A stale error.** The worker is denied, its run is cancelled while it shuts down, and the next
run, stopped before it has done anything, raises the error of the first. -/
theorem stale_error_raised : ∃ (tr : List (Event ℕ ℕ)) (s : World ℕ ℕ),
    (system solo 0).Run (.ended (.raised denied) :: tr) s ∧
    ∀ e ∈ since Event.isStart tr, ∀ error, ¬ e.Hits error := by
  have hdenied : (system solo 0).Run _ _ := (System.Run.start rfl).append path_denied
  have hcancelled := hdenied.step (Step.of_run (.cancelClosing .leads false false rfl))
  have hended := (hcancelled.append path_cleaned).step (Step.of_run (.ended false true rfl))
  have hstopped := hended.append path_stopped
  refine ⟨_, _, hstopped.step (Step.of_run (.ended false false rfl)), ?_⟩
  simp [since, Event.isStart, Event.Hits, Event.error]

end RedisSemaphore.Dispatch.Lifecycle

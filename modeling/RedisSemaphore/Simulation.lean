import RedisSemaphore.Transition

/-!
# Forward simulations

A system *refines* another if each of its runs, as far as it can be observed, is a run of the other.
`obs` says what can be observed of an event, where `none` hides it, and `ok` what callers promise
about it, given the events before. `Simulation` is the usual proof obligation, one step at a time
and along a relation; `Simulation.run` is its conclusion about runs.
-/

namespace Transition.System

variable {σ τ ε δ : Type*}

/-- `A` follows `C` along `R` while callers keep to `ok`: it makes the observable steps of `C` and
stays put at the hidden ones. -/
structure Simulation (C : System σ ε) (A : System τ δ) (obs : ε → Option δ) (ok : List ε → ε → Prop)
    (R : σ → τ → Prop) : Prop where
  start : ∀ s, C.start s → ∃ t, A.start t ∧ R s t
  step : ∀ tr s t e s', C.Run tr s → A.Run (tr.filterMap obs) t → R s t → ok tr e → C.step s e s' →
    ∃ t', A.Path t (obs e).toList t' ∧ R s' t'

variable {C : System σ ε} {A : System τ δ} {obs : ε → Option δ} {ok : List ε → ε → Prop}
  {R : σ → τ → Prop}

theorem Path.single {M : System σ ε} {s t : σ} {e : ε} (h : M.step s e t) : M.Path s [e] t :=
  Path.refl.step h

theorem filterMap_cons_toList (obs : ε → Option δ) (e : ε) (tr : List ε) :
    (e :: tr).filterMap obs = (obs e).toList ++ tr.filterMap obs := by
  rw [List.filterMap_cons]
  cases obs e <;> rfl

/-- **Refinement.** What is observed of a run of `C` is a run of `A`, which ends in a related
state. -/
theorem Simulation.run (h : Simulation C A obs ok R) {tr : List ε} {s : σ} (hrun : C.Run tr s)
    (hok : Guarded ok tr) : ∃ t, A.Run (tr.filterMap obs) t ∧ R s t := by
  refine Run.invariant (M := C)
    (I := fun tr s => Guarded ok tr → ∃ t, A.Run (tr.filterMap obs) t ∧ R s t) ?_ ?_ hrun hok
  · intro s hs _
    obtain ⟨t, ht, hrel⟩ := h.start s hs
    exact ⟨t, .start ht, hrel⟩
  · rintro tr s e s' hrun ih hstep ⟨hok, hguard⟩
    obtain ⟨t, ht, hrel⟩ := ih hguard
    obtain ⟨t', hpath, hrel'⟩ := h.step tr s t e s' hrun ht hrel hok hstep
    refine ⟨t', ?_, hrel'⟩
    rw [filterMap_cons_toList]
    exact ht.append hpath

end Transition.System

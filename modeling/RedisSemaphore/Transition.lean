import Mathlib.Tactic.TypeStar

/-!
# Runs of labelled transition systems

A system is a set of start states and a labelled step relation. A *path* leads from one state to
another and carries the labels it went through, newest first; a *run* is a path from a start state.
Newest first is the order in which histories are asked about ("the latest grant of `i`"), and it
makes the head of the trace the event that has just happened.

`Run.invariant` and `Path.invariant` are the induction rules: a property of the trace and the state
that holds at the start and survives a step holds at every moment of every run.
-/

namespace Transition

/-- A labelled transition system over states `σ` and labels `ε`. -/
structure System (σ ε : Type*) where
  start : σ → Prop
  step : σ → ε → σ → Prop

namespace System

variable {σ ε : Type*} (M : System σ ε)

/-- `M.Path s tr t`: the system can go from `s` to `t` through the labels `tr` (newest first). -/
inductive Path (s : σ) : List ε → σ → Prop
  | refl : Path s [] s
  | step {tr : List ε} {t u : σ} {e : ε} : Path s tr t → M.step t e u → Path s (e :: tr) u

/-- A path from a start state. -/
def Run (tr : List ε) (t : σ) : Prop :=
  ∃ s, M.start s ∧ M.Path s tr t

variable {M}

theorem Run.start {s : σ} (h : M.start s) : M.Run [] s :=
  ⟨s, h, .refl⟩

theorem Run.step {tr : List ε} {s t : σ} {e : ε} (h : M.Run tr s) (hstep : M.step s e t) :
    M.Run (e :: tr) t := by
  obtain ⟨s₀, hstart, hpath⟩ := h
  exact ⟨s₀, hstart, hpath.step hstep⟩

/-- The last step of a run. -/
theorem Run.of_cons {tr : List ε} {t : σ} {e : ε} (h : M.Run (e :: tr) t) :
    ∃ s, M.Run tr s ∧ M.step s e t := by
  obtain ⟨s₀, hstart, hpath⟩ := h
  cases hpath with
  | step hp hs => exact ⟨_, ⟨s₀, hstart, hp⟩, hs⟩

/-- **The invariant rule for paths.** -/
theorem Path.invariant {s : σ} {I : List ε → σ → Prop} (hrefl : I [] s)
    (hstep : ∀ tr t e u, M.Path s tr t → I tr t → M.step t e u → I (e :: tr) u)
    {tr : List ε} {t : σ} (h : M.Path s tr t) : I tr t := by
  induction h with
  | refl => exact hrefl
  | step hpath hs ih => exact hstep _ _ _ _ hpath ih hs

/-- **The invariant rule for runs.** -/
theorem Run.invariant {I : List ε → σ → Prop} (hstart : ∀ s, M.start s → I [] s)
    (hstep : ∀ tr s e t, M.Run tr s → I tr s → M.step s e t → I (e :: tr) t)
    {tr : List ε} {t : σ} (h : M.Run tr t) : I tr t := by
  obtain ⟨s₀, hs₀, hpath⟩ := h
  refine Path.invariant (M := M) (I := I) (hstart s₀ hs₀) ?_ hpath
  intro tr t e u hp ih hs
  exact hstep tr t e u ⟨s₀, hs₀, hp⟩ ih hs

/-- Two paths in a row. -/
theorem Path.append {tr tr' : List ε} {s t u : σ} (h : M.Path s tr t) (h' : M.Path t tr' u) :
    M.Path s (tr' ++ tr) u := by
  induction h' with
  | refl => exact h
  | step _ hs ih => exact ih.step hs

/-- A path from the end of a run continues the run. -/
theorem Run.append {tr tr' : List ε} {s t : σ} (h : M.Run tr s) (hp : M.Path s tr' t) :
    M.Run (tr' ++ tr) t := by
  obtain ⟨s₀, hstart, hpath⟩ := h
  exact ⟨s₀, hstart, hpath.append hp⟩

/-! ## Restricted systems -/

/-- The system that takes only the steps that meet `ok` in the state before them. -/
def restrict (M : System σ ε) (ok : σ → ε → Prop) : System σ ε where
  start := M.start
  step s e t := ok s e ∧ M.step s e t

/-- The system that takes only the steps that meet `ok`, which may look at the state after them. -/
def within (M : System σ ε) (ok : σ → ε → σ → Prop) : System σ ε where
  start := M.start
  step s e t := ok s e t ∧ M.step s e t

/-- A permitted step goes on with a restricted run. -/
theorem Run.permit {ok : σ → ε → Prop} {s t : σ} {e : ε} {tr : List ε}
    (h : (M.restrict ok).Run tr s) (hstep : M.step s e t) (hok : ok s e) :
    (M.restrict ok).Run (e :: tr) t :=
  h.step ⟨hok, hstep⟩

/-- A path through labels that are permitted anywhere is a restricted path. -/
theorem Path.restrict {ok : σ → ε → Prop} {tr : List ε} {s t : σ} (h : M.Path s tr t)
    (hok : ∀ e ∈ tr, ∀ s, ok s e) : (M.restrict ok).Path s tr t := by
  induction h with
  | refl => exact .refl
  | step _ hs ih =>
    refine (ih fun e he => hok e (List.mem_cons_of_mem _ he)).step ⟨?_, hs⟩
    exact hok _ List.mem_cons_self _

/-- Runs of the restricted system are runs. -/
theorem Run.of_restrict {ok : σ → ε → Prop} {tr : List ε} {s : σ}
    (h : (M.restrict ok).Run tr s) : M.Run tr s := by
  refine Run.invariant (M := M.restrict ok) (I := fun tr s => M.Run tr s) ?_ ?_ h
  · exact fun s hs => .start hs
  · exact fun tr s e t _ ih hs => ih.step hs.2

/-- Restricted paths are paths. -/
theorem Path.of_within {M : System σ ε} {ok : σ → ε → σ → Prop} {s t : σ} {tr : List ε}
    (h : (M.within ok).Path s tr t) : M.Path s tr t := by
  induction h with
  | refl => exact .refl
  | step _ hs ih => exact ih.step hs.2

/-- Restricted runs are runs. -/
theorem Run.of_within {M : System σ ε} {ok : σ → ε → σ → Prop} {s : σ} {tr : List ε}
    (h : (M.within ok).Run tr s) : M.Run tr s := by
  obtain ⟨s₀, hstart, hpath⟩ := h
  exact ⟨s₀, hstart, hpath.of_within⟩

/-! ## History variables -/

variable {γ : Type*} (f : σ → ε → σ → List γ)

/-- The system with a history beside the state. A step adds what `f` notes about it, newest
first. -/
def recording (M : System σ ε) : System (σ × List γ) ε where
  start s := M.start s.1 ∧ s.2 = []
  step s e t := M.step s.1 e t.1 ∧ t.2 = f s.1 e t.1 ++ s.2

/-- Every run has a history. -/
theorem Run.recording {tr : List ε} {s : σ} (h : M.Run tr s) :
    ∃ l, (M.recording f).Run tr (s, l) := by
  refine Run.invariant (M := M) (I := fun tr s => ∃ l, (M.recording f).Run tr (s, l)) ?_ ?_ h
  · intro s hs
    exact ⟨[], .start ⟨hs, rfl⟩⟩
  · rintro tr s e t - ⟨l, hrun⟩ hstep
    exact ⟨f s e t ++ l, hrun.step ⟨hstep, rfl⟩⟩

end System

/-! ## Guards on the events of a trace -/

/-- Every event of the trace meets `ok`, given the events before it. -/
def Guarded {ε : Type*} (ok : List ε → ε → Prop) : List ε → Prop
  | [] => True
  | e :: tr => ok tr e ∧ Guarded ok tr

theorem guarded_of_forall {ε : Type*} {ok : List ε → ε → Prop} (h : ∀ tr e, ok tr e)
    {tr : List ε} : Guarded ok tr := by
  induction tr with
  | nil => trivial
  | cons e tr ih => exact ⟨h tr e, ih⟩

end Transition

import RedisSemaphore.Transition

/-!
# Two runs of one system, side by side

To compare a run with the same run after something has been inserted into it, the two traces are
written into one list. An entry says which events belong together (`both`), and which happen in the
first or in the second run alone. `two_runs` is the induction rule for a relation between the states
the two runs have reached.
-/

namespace Transition

variable {σ ε : Type*}

/-- One entry of two traces that are read side by side. -/
inductive Paired (ε : Type*)
  | both (e e' : ε)
  | first (e : ε)
  | second (e : ε)

namespace Paired

/-- The event of the first run. -/
def left : Paired ε → Option ε
  | .both e _ => some e
  | .first e => some e
  | .second _ => none

/-- The event of the second run. -/
def right : Paired ε → Option ε
  | .both _ e' => some e'
  | .first _ => none
  | .second e' => some e'

end Paired

/-- The first trace, newest first. -/
def lefts (w : List (Paired ε)) : List ε := w.filterMap Paired.left

/-- The second trace, newest first. -/
def rights (w : List (Paired ε)) : List ε := w.filterMap Paired.right

variable {w : List (Paired ε)} {e e' : ε}

/-- An event of both runs, seen from the first. -/
@[simp] theorem lefts_both : lefts (.both e e' :: w) = e :: lefts w := rfl

/-- An event of the first run alone. -/
@[simp] theorem lefts_first : lefts (.first e :: w) = e :: lefts w := rfl

/-- An event of the second run is not in the first. -/
@[simp] theorem lefts_second : lefts (.second e' :: w) = lefts w := rfl

/-- An event of both runs, seen from the second. -/
@[simp] theorem rights_both : rights (.both e e' :: w) = e' :: rights w := rfl

/-- An event of the first run is not in the second. -/
@[simp] theorem rights_first : rights (.first e :: w) = rights w := rfl

/-- An event of the second run alone. -/
@[simp] theorem rights_second : rights (.second e' :: w) = e' :: rights w := rfl

variable {M : System σ ε} {R : List (Paired ε) → σ → σ → Prop}

/-- **The induction rule for two runs.** A relation that holds of any two start states and survives
a step of both, of the first and of the second run holds of the states they have reached. -/
theorem two_runs (hstart : ∀ s s', M.start s → M.start s' → R [] s s')
    (hboth : ∀ w s s' e e' t t', M.Run (lefts w) s → M.Run (rights w) s' → R w s s' →
      M.step s e t → M.step s' e' t' → R (.both e e' :: w) t t')
    (hfirst : ∀ w s s' e t, M.Run (lefts w) s → M.Run (rights w) s' → R w s s' →
      M.step s e t → R (.first e :: w) t s')
    (hsecond : ∀ w s s' e t', M.Run (lefts w) s → M.Run (rights w) s' → R w s s' →
      M.step s' e t' → R (.second e :: w) s t')
    (s s' : σ) (h : M.Run (lefts w) s) (h' : M.Run (rights w) s') : R w s s' := by
  induction w generalizing s s' with
  | nil =>
    obtain ⟨s₀, hs, hpath⟩ := h
    obtain ⟨s₀', hs', hpath'⟩ := h'
    cases hpath
    cases hpath'
    exact hstart _ _ hs hs'
  | cons x w ih =>
    cases x with
    | both e e' =>
      obtain ⟨t, ht, hstep⟩ := h.of_cons
      obtain ⟨t', ht', hstep'⟩ := h'.of_cons
      exact hboth _ _ _ _ _ _ _ ht ht' (ih t t' ht ht') hstep hstep'
    | first e =>
      obtain ⟨t, ht, hstep⟩ := h.of_cons
      exact hfirst _ _ _ _ _ ht h' (ih t s' ht h') hstep
    | second e =>
      obtain ⟨t', ht', hstep'⟩ := h'.of_cons
      exact hsecond _ _ _ _ _ h ht' (ih s t' h ht') hstep'

end Transition

import Mathlib.Data.Set.Card
import Mathlib.Logic.Function.Basic

/-!
# Counting the parties of a system that are in a phase

A system with a party for every index, of which only finitely many are ever busy, is described by a
function from indices to phases. `population p f` counts the parties whose phase satisfies `p`.
One party moves at a time, and `population_update` says how the count moves with it.
-/

namespace Population

variable {ι β : Type*} {p : β → Prop} {f : ι → β}

/-- The number of parties in a phase that satisfies `p`, when they are finitely many. -/
noncomputable def population (p : β → Prop) (f : ι → β) : ℕ :=
  {i | p (f i)}.ncard

/-- A population that is not empty has a member. -/
theorem exists_of_population_pos (h : 0 < population p f) : ∃ i, p (f i) :=
  Set.nonempty_of_ncard_ne_zero h.ne'

/-- A party in the phase is one more than the others. -/
theorem population_eq_of_pos {i : ι} (hfin : {j | p (f j)}.Finite) (h : p (f i)) :
    population p f = ({j | p (f j)} \ {i}).ncard + 1 := by
  have hmem : i ∈ {j | p (f j)} := h
  exact (Set.ncard_sdiff_singleton_add_one hmem hfin).symm

/-- A party outside the phase is not counted. -/
theorem population_eq_of_neg {i : ι} (h : ¬ p (f i)) :
    population p f = ({j | p (f j)} \ {i}).ncard := by
  have hnot : i ∉ {j | p (f j)} := h
  rw [population, Set.sdiff_singleton_eq_self hnot]

section Update

variable [DecidableEq ι] {i : ι} {b : β}

/-- Only finitely many parties are in the phase after one has moved. -/
theorem finite_update (hfin : {j | p (f j)}.Finite) : {j | p (Function.update f i b j)}.Finite := by
  refine (hfin.insert i).subset ?_
  intro j hj
  rw [Set.mem_insert_iff]
  by_cases hji : j = i
  · exact Or.inl hji
  · refine Or.inr ?_
    rwa [Set.mem_ofPred_eq, Function.update_of_ne hji] at hj

/-- The parties other than `i` are the same after `i` has moved. -/
theorem diff_update :
    {j | p (Function.update f i b j)} \ {i} = {j | p (f j)} \ {i} := by
  ext j
  simp only [Set.mem_sdiff, Set.mem_ofPred_eq, Set.mem_singleton_iff]
  refine and_congr_left fun hji => ?_
  rw [Function.update_of_ne hji]

/-- **One party moves**: the count loses the old phase and gains the new one. -/
theorem population_update [DecidablePred p] (hfin : {j | p (f j)}.Finite) :
    population p (Function.update f i b) + (if p (f i) then 1 else 0)
      = population p f + if p b then 1 else 0 := by
  have hself : Function.update f i b i = b := Function.update_self ..
  have hold : population p f
      = ({j | p (f j)} \ {i}).ncard + if p (f i) then 1 else 0 := by
    split
    · exact population_eq_of_pos hfin ‹_›
    · exact population_eq_of_neg ‹_›
  have hnew : population p (Function.update f i b)
      = ({j | p (f j)} \ {i}).ncard + if p b then 1 else 0 := by
    rw [← diff_update (b := b)]
    split
    · exact population_eq_of_pos (finite_update hfin) (by rwa [hself])
    · exact population_eq_of_neg (by rwa [hself])
  omega

end Update

end Population

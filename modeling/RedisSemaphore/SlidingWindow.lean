import Mathlib.Algebra.Order.BigOperators.Group.List
import Mathlib.Algebra.Order.Group.Defs
import Mathlib.Data.List.Perm.Subperm

/-!
# Sums over a sliding window

Items carry a stamp and a weight. `windowSum width s` adds the weights of the items stamped in
`(s - width, s]`. A log that is only ever extended at its latest end keeps every such sum below a
bound if each extension was checked at the window that ends with it: `windowSum_cons_le` is the step
of that argument, and `windowSum_map_le` covers a later lowering of weights.
-/

namespace SlidingWindow

variable {α T M : Type*} [AddCommGroup T] [LinearOrder T] [IsOrderedAddMonoid T]
  [AddCommMonoid M] [PartialOrder M] [IsOrderedAddMonoid M]

/-- The total weight of the items stamped in `(s - width, s]`. -/
def windowSum (stamp : α → T) (weight : α → M) (width s : T) (items : List α) : M :=
  ((items.filter fun a => s - width < stamp a ∧ stamp a ≤ s).map weight).sum

variable {stamp : α → T} {weight : α → M} {width : T} {items : List α}

/-- Fewer items weigh less. -/
theorem sum_filter_le_sum_filter {p q : α → Bool} (hpos : ∀ a, 0 ≤ weight a)
    (h : ∀ a ∈ items, p a = true → q a = true) :
    ((items.filter p).map weight).sum ≤ ((items.filter q).map weight).sum := by
  induction items with
  | nil => exact le_rfl
  | cons a rest ih =>
    rw [List.forall_mem_cons] at h
    have ih := ih h.2
    by_cases hp : p a = true
    · rw [List.filter_cons_of_pos hp, List.filter_cons_of_pos (h.1 hp), List.map_cons,
        List.map_cons, List.sum_cons, List.sum_cons]
      exact add_le_add_right ih _
    · rw [List.filter_cons_of_neg hp]
      by_cases hq : q a = true
      · rw [List.filter_cons_of_pos hq, List.map_cons, List.sum_cons]
        exact le_add_of_nonneg_of_le (hpos a) ih
      · rw [List.filter_cons_of_neg hq]
        exact ih

/-- **A checked extension keeps every window below the bound.** The new item is stamped last, and it
fits the window that ends at its stamp. -/
theorem windowSum_cons_le {bound : M} {b : α} (hpos : ∀ a, 0 ≤ weight a)
    (hlast : ∀ a ∈ items, stamp a ≤ stamp b)
    (hold : ∀ s, windowSum stamp weight width s items ≤ bound)
    (hfit : weight b + windowSum stamp weight width (stamp b) items ≤ bound) (s : T) :
    windowSum stamp weight width s (b :: items) ≤ bound := by
  rw [windowSum]
  by_cases hin : s - width < stamp b ∧ stamp b ≤ s
  · rw [List.filter_cons_of_pos (by simpa using hin), List.map_cons, List.sum_cons]
    refine le_trans (add_le_add_right ?_ _) hfit
    refine sum_filter_le_sum_filter hpos fun a ha hwin => ?_
    simp only [decide_eq_true_eq] at hwin ⊢
    exact ⟨lt_of_le_of_lt (sub_le_sub_right hin.2 width) hwin.1, hlast a ha⟩
  · rw [List.filter_cons_of_neg (by simpa using hin)]
    exact hold s

omit [IsOrderedAddMonoid T] in
/-- Lowering weights lowers every window. -/
theorem windowSum_map_le {f : α → α} (hstamp : ∀ a, stamp (f a) = stamp a)
    (hweight : ∀ a ∈ items, weight (f a) ≤ weight a) (s : T) :
    windowSum stamp weight width s (items.map f) ≤ windowSum stamp weight width s items := by
  rw [windowSum, windowSum, List.filter_map, List.map_map]
  have hsame : (items.filter ((fun a => decide (s - width < stamp a ∧ stamp a ≤ s)) ∘ f))
      = items.filter fun a => decide (s - width < stamp a ∧ stamp a ≤ s) :=
    List.filter_congr fun a _ => by simp only [Function.comp, hstamp]
  rw [hsame]
  refine List.sum_le_sum fun a ha => ?_
  exact hweight a (List.mem_of_mem_filter ha)

omit [IsOrderedAddMonoid T] [PartialOrder M] [IsOrderedAddMonoid M] in
/-- A window over items that are changed in place. -/
theorem windowSum_map {f : α → α} (hstamp : ∀ a, stamp (f a) = stamp a) (s : T) :
    windowSum stamp weight width s (items.map f) =
      windowSum stamp (fun a => weight (f a)) width s items := by
  rw [windowSum, windowSum, List.filter_map, List.map_map]
  congr 2
  exact List.filter_congr fun a _ => by simp only [Function.comp, hstamp]

omit [IsOrderedAddMonoid T] in
/-- Lighter items weigh less. -/
theorem windowSum_le_windowSum {weight' : α → M} (h : ∀ a ∈ items, weight a ≤ weight' a) (s : T) :
    windowSum stamp weight width s items ≤ windowSum stamp weight' width s items :=
  List.sum_le_sum fun a ha => h a (List.mem_of_mem_filter ha)

omit [PartialOrder M] [IsOrderedAddMonoid M] in
/-- Weightless items do not count. -/
theorem sum_filter_ne_zero [DecidableEq M] (items : List α) :
    ((items.filter fun a => weight a ≠ 0).map weight).sum = (items.map weight).sum := by
  induction items with
  | nil => rfl
  | cons a rest ih =>
    by_cases h : weight a = 0
    · rw [List.filter_cons_of_neg (by simpa using h), ih, List.map_cons, List.sum_cons, h, zero_add]
    · rw [List.filter_cons_of_pos (by simpa using h), List.map_cons, List.sum_cons, ih,
        List.map_cons, List.sum_cons]

omit [IsOrderedAddMonoid T] in
/-- If the weighty items of a window have distinct records, the window weighs no more than the
records do. -/
theorem windowSum_le_records {β : Type*} {records : List β} {g : α → β} {v : β → M} {s : T}
    (hpos : ∀ b, 0 ≤ v b) (hdistinct : (items.map g).Nodup)
    (h : ∀ a ∈ items, s - width < stamp a → weight a ≠ 0 → g a ∈ records ∧ v (g a) = weight a) :
    windowSum stamp weight width s items ≤ (records.map v).sum := by
  classical
  rw [windowSum, ← sum_filter_ne_zero]
  set kept := (items.filter fun a => s - width < stamp a ∧ stamp a ≤ s).filter
    fun a => weight a ≠ 0 with hkept
  have hmem : ∀ a ∈ kept, g a ∈ records ∧ v (g a) = weight a := by
    intro a ha
    simp only [hkept, List.mem_filter, decide_eq_true_eq] at ha
    exact h a ha.1.1 ha.1.2.1 ha.2
  have hnodup : (kept.map g).Nodup :=
    hdistinct.sublist ((List.filter_sublist.trans List.filter_sublist).map g)
  obtain ⟨sub, hperm, hsub⟩ := List.subperm_of_subset hnodup fun b hb => by
    obtain ⟨a, ha, rfl⟩ := List.mem_map.mp hb
    exact (hmem a ha).1
  calc (kept.map weight).sum = ((kept.map g).map v).sum := by
        rw [List.map_map]
        exact congrArg List.sum (List.map_congr_left fun a ha => ((hmem a ha).2).symm)
    _ = (sub.map v).sum := ((hperm.map v).sum_eq).symm
    _ ≤ (records.map v).sum := (hsub.map v).sum_le_sum fun x hx => by
        obtain ⟨b, -, rfl⟩ := List.mem_map.mp hx
        exact hpos b

end SlidingWindow

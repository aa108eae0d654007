import Mathlib.Logic.Function.Basic
import Mathlib.Data.List.Nodup
import Mathlib.Data.List.Forall2

/-!
# Loops that visit one key at a time

A loop over a list of items, each with a key, that replaces the content of the item's key by a
function of that content and collects an answer. Over items with distinct keys no iteration sees
what another wrote: every answer and every new content is that of the iteration run alone.
-/

namespace KeyedLoop

variable {α β ρ κ : Type*} [DecidableEq κ]

/-- Visit the items in order: `f a` maps the content of `a`'s key to an answer and a new content. -/
def loop (key : α → κ) (f : α → β → ρ × β) : List α → (κ → β) → List ρ × (κ → β)
  | [], st => ([], st)
  | a :: rest, st =>
    let (answer, content) := f a (st (key a))
    let (answers, st) := loop key f rest (Function.update st (key a) content)
    (answer :: answers, st)

variable {key : α → κ} {f : α → β → ρ × β} {items : List α} {st : κ → β}

/-- A key no item has keeps its content. -/
theorem loop_notMem {k : κ} (h : ∀ a ∈ items, key a ≠ k) : (loop key f items st).2 k = st k := by
  induction items generalizing st with
  | nil => rfl
  | cons a rest ih =>
    rw [List.forall_mem_cons] at h
    simp only [loop]
    rw [ih h.2, Function.update_of_ne h.1.symm]

/-- The content of an item's key after a loop over distinct keys. -/
theorem loop_mem (hnodup : (items.map key).Nodup) {a : α} (ha : a ∈ items) :
    (loop key f items st).2 (key a) = (f a (st (key a))).2 := by
  induction items generalizing st with
  | nil => cases ha
  | cons b rest ih =>
    rw [List.map_cons, List.nodup_cons] at hnodup
    have hfresh : ∀ c ∈ rest, key c ≠ key b := fun c hc heq =>
      hnodup.1 (heq ▸ List.mem_map_of_mem hc)
    simp only [loop]
    rcases List.mem_cons.mp ha with rfl | ha
    · rw [loop_notMem hfresh, Function.update_self]
    · rw [ih hnodup.2 ha, Function.update_of_ne (hfresh a ha)]

/-- The answers of a loop over distinct keys. -/
theorem loop_answers (hnodup : (items.map key).Nodup) :
    (loop key f items st).1 = items.map fun a => (f a (st (key a))).1 := by
  induction items generalizing st with
  | nil => rfl
  | cons b rest ih =>
    rw [List.map_cons, List.nodup_cons] at hnodup
    simp only [loop, ih hnodup.2, List.map_cons, List.cons.injEq, true_and]
    refine List.map_congr_left fun c hc => ?_
    rw [Function.update_of_ne]
    exact fun heq => hnodup.1 (heq ▸ List.mem_map_of_mem hc)

/-- A relation between an item, its answer and its new content holds of every item that the loop
visits when each iteration establishes it. -/
theorem loop_forall₂ {P : α → ρ → β → Prop} (hnodup : (items.map key).Nodup)
    (h : ∀ a ∈ items, P a (f a (st (key a))).1 (f a (st (key a))).2) :
    List.Forall₂ (fun a answer => P a answer ((loop key f items st).2 (key a))) items
      (loop key f items st).1 := by
  rw [loop_answers hnodup, List.forall₂_map_right_iff, List.forall₂_same]
  intro a ha
  rw [loop_mem hnodup ha]
  exact h a ha

/-- One answer for each item. -/
theorem length_loop : (loop key f items st).1.length = items.length := by
  induction items generalizing st with
  | nil => rfl
  | cons a rest ih => simp only [loop, List.length_cons, ih]

/-- A loop over mapped items. -/
theorem loop_map {γ : Type*} (g : γ → α) (items : List γ) :
    loop key f (items.map g) st = loop (fun c => key (g c)) (fun c => f (g c)) items st := by
  induction items generalizing st with
  | nil => rfl
  | cons c rest ih => simp only [List.map_cons, loop, ih]

/-- A loop that appends its answers to those of the iterations before. -/
theorem loop_eq_foldl (before : List ρ) :
    items.foldl (fun (s : List ρ × (κ → β)) a =>
        (s.1 ++ [(f a (s.2 (key a))).1], Function.update s.2 (key a) (f a (s.2 (key a))).2))
      (before, st) = (before ++ (loop key f items st).1, (loop key f items st).2) := by
  induction items generalizing before st with
  | nil => simp [loop]
  | cons a rest ih =>
    rw [List.foldl_cons, ih]
    simp [loop]

variable (st) in
/-- **Two loops over the same distinct keys** are one loop: the second pass, which is handed the
answers of the first, may run on each key right after the first. -/
theorem loop_zip {ρ' : Type*} {g : α → ρ → β → ρ' × β} (hnodup : (items.map key).Nodup) :
    loop (fun p => key p.1) (fun p => g p.1 p.2) (items.zip (loop key f items st).1)
        (loop key f items st).2 =
      loop key (fun a b => g a (f a b).1 (f a b).2) items st := by
  have hzip : items.zip (loop key f items st).1 =
      items.map fun a => (a, (f a (st (key a))).1) := by
    rw [loop_answers hnodup, List.zip_map_right]
    simp [List.zip_eq_zipWith]
  have hstore : ∀ a ∈ items, (loop key f items st).2 (key a) = (f a (st (key a))).2 :=
    fun a ha => loop_mem hnodup ha
  rw [hzip, loop_map]
  refine Prod.ext ?_ (funext fun k => ?_)
  · rw [loop_answers hnodup, loop_answers hnodup]
    exact List.map_congr_left fun a ha => by rw [hstore a ha]
  · by_cases hk : ∃ a ∈ items, key a = k
    · obtain ⟨a, ha, rfl⟩ := hk
      rw [loop_mem hnodup ha, hstore a ha]
      exact (loop_mem (f := fun a b => g a (f a b).1 (f a b).2) hnodup ha).symm
    · push Not at hk
      rw [loop_notMem hk, loop_notMem hk, loop_notMem hk]

/-! ## Loops that may fail -/

/-- A loop whose iterations may fail. Nothing is rolled back: a failure leaves what the iterations
before it wrote, and the content that the failing one left. -/
def tryLoop (key : α → κ) (g : α → β → Except β β) :
    List α → (κ → β) → Except (κ → β) (κ → β)
  | [], st => .ok st
  | a :: rest, st =>
    match g a (st (key a)) with
    | .error content => .error (Function.update st (key a) content)
    | .ok content => tryLoop key g rest (Function.update st (key a) content)

variable {g : α → β → Except β β} {st' : κ → β}

/-- A loop over distinct keys fails where one of its iterations fails alone. -/
theorem tryLoop_error (hnodup : (items.map key).Nodup) (h : tryLoop key g items st = .error st') :
    ∃ a ∈ items, g a (st (key a)) = .error (st' (key a)) := by
  induction items generalizing st with
  | nil => cases h
  | cons b rest ih =>
    rw [List.map_cons, List.nodup_cons] at hnodup
    simp only [tryLoop] at h
    cases hg : g b (st (key b)) with
    | error content =>
      rw [hg] at h
      obtain rfl := Except.error.inj h
      refine ⟨b, List.mem_cons_self .., ?_⟩
      rw [Function.update_self]
      exact hg
    | ok content =>
      rw [hg] at h
      obtain ⟨a, ha, hfail⟩ := ih hnodup.2 h
      have hne : key a ≠ key b := fun heq => hnodup.1 (heq ▸ List.mem_map_of_mem ha)
      rw [Function.update_of_ne hne] at hfail
      exact ⟨a, List.mem_cons_of_mem _ ha, hfail⟩

/-- It ends well when every iteration does. -/
theorem tryLoop_ok (hnodup : (items.map key).Nodup)
    (h : ∀ a ∈ items, ∃ content, g a (st (key a)) = .ok content) :
    ∃ st', tryLoop key g items st = .ok st' := by
  cases hloop : tryLoop key g items st with
  | ok st' => exact ⟨st', rfl⟩
  | error st' =>
    obtain ⟨a, ha, hfail⟩ := tryLoop_error hnodup hloop
    obtain ⟨content, hok⟩ := h a ha
    rw [hok] at hfail
    cases hfail

/-- An iteration of a loop that ended well has ended well. -/
theorem tryLoop_ok_mem (hnodup : (items.map key).Nodup) (h : tryLoop key g items st = .ok st')
    {a : α} (ha : a ∈ items) : ∃ content, g a (st (key a)) = .ok content := by
  induction items generalizing st with
  | nil => cases ha
  | cons b rest ih =>
    rw [List.map_cons, List.nodup_cons] at hnodup
    simp only [tryLoop] at h
    cases hg : g b (st (key b)) with
    | error content =>
      rw [hg] at h
      cases h
    | ok content =>
      rw [hg] at h
      rcases List.mem_cons.mp ha with rfl | ha
      · exact ⟨content, hg⟩
      · obtain ⟨content', hok⟩ := ih hnodup.2 h ha
        have hne : key a ≠ key b := fun heq => hnodup.1 (heq ▸ List.mem_map_of_mem ha)
        rw [Function.update_of_ne hne] at hok
        exact ⟨content', hok⟩

end KeyedLoop

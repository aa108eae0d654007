import Mathlib.Data.Set.Subsingleton

/-!
# The hash input of a key in a cluster

A Redis Cluster picks the slot of a key by hashing a part of it: the text between the first opening
symbol and the first closing symbol after that, if there is such a pair with something in between,
and the whole key otherwise. Commands on several keys need them in one slot.

Keys are lists over any type of symbols.
-/

namespace Redis.HashTag

variable {α : Type*} [DecidableEq α]

/-- The part of a key that is hashed. -/
def hashInput (opening closing : α) (key : List α) : List α :=
  match key.dropWhile (· ≠ opening) with
  | [] => key
  | _ :: behind =>
    let tag := behind.takeWhile (· ≠ closing)
    if closing ∈ behind ∧ tag ≠ [] then tag else key

/-- Keys with one hash input, and so in one slot. -/
def CoLocated (opening closing : α) (keys : Set (List α)) : Prop :=
  ∀ a ∈ keys, ∀ b ∈ keys, hashInput opening closing a = hashInput opening closing b

variable {opening closing : α}

/-- A closing symbol ends what stands before it, wherever else closing symbols are. -/
theorem takeWhile_append_closing (tag rest : List α) :
    (tag ++ closing :: rest).takeWhile (· ≠ closing) = tag.takeWhile (· ≠ closing) := by
  induction tag with
  | nil => simp
  | cons a tag ih =>
    rw [List.cons_append, List.takeWhile_cons, List.takeWhile_cons, ih]

/-- The hash input of a key that starts with the opening symbol. -/
theorem hashInput_opening (behind : List α) :
    hashInput opening closing (opening :: behind) =
      if closing ∈ behind ∧ behind.takeWhile (· ≠ closing) ≠ [] then
        behind.takeWhile (· ≠ closing)
      else opening :: behind := by
  have hdrop : (opening :: behind).dropWhile (· ≠ opening) = opening :: behind := by simp
  rw [hashInput, hdrop]

/-- A closing symbol right behind the opening one leaves no tag. -/
theorem hashInput_closed (rest : List α) :
    hashInput opening closing (opening :: closing :: rest) = opening :: closing :: rest := by
  rw [hashInput_opening, if_neg]
  rintro ⟨-, htag⟩
  apply htag
  simp

/-- Otherwise the tag does not depend on what stands behind it. -/
theorem hashInput_tagged {tag : List α} (hne : tag ≠ []) (hhead : tag.head? ≠ some closing)
    (rest : List α) :
    hashInput opening closing (opening :: (tag ++ closing :: rest)) =
      tag.takeWhile (· ≠ closing) := by
  rw [hashInput_opening, takeWhile_append_closing, if_pos]
  refine ⟨by simp, ?_⟩
  cases tag with
  | nil => exact absurd rfl hne
  | cons a tag =>
    have ha : a ≠ closing := fun h => hhead (congrArg some h)
    rw [List.takeWhile_cons, if_pos (by simpa using ha)]
    exact List.cons_ne_nil a _

/-- Different keys that all start with one tag are in one slot exactly if the tag does not start
with the closing symbol. -/
theorem coLocated_iff {tag : List α} (hne : tag ≠ []) {keys : Set (List α)}
    (hkeys : ∀ key ∈ keys, ∃ rest, key = opening :: (tag ++ closing :: rest))
    (hdistinct : keys.Nontrivial) :
    CoLocated opening closing keys ↔ tag.head? ≠ some closing := by
  constructor
  · intro h hhead
    obtain ⟨a, ha, b, hb, hab⟩ := hdistinct
    obtain ⟨resta, rfl⟩ := hkeys a ha
    obtain ⟨restb, rfl⟩ := hkeys b hb
    have heq := h _ ha _ hb
    cases tag with
    | nil => exact hne rfl
    | cons c tag =>
      obtain rfl : c = closing := Option.some.inj hhead
      rw [List.cons_append, List.cons_append, hashInput_closed, hashInput_closed] at heq
      exact hab heq
  · intro hhead a ha b hb
    obtain ⟨resta, rfl⟩ := hkeys a ha
    obtain ⟨restb, rfl⟩ := hkeys b hb
    rw [hashInput_tagged hne hhead, hashInput_tagged hne hhead]

end Redis.HashTag

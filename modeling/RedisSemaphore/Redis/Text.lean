import Mathlib.Data.Int.Notation
import Mathlib.Data.Nat.Notation
import Mathlib.Data.List.TakeWhile

/-!
# Numbers as text

Arguments of a script, and the text of a key, are strings. Integers are printed in decimal by the
client and by Redis alike; `tonumber` and Python's `int` read them back. The other spellings that
either accepts are not printed by anybody.
-/

namespace Redis

/-! ## Natural numbers -/

/-- A nonempty sequence of digits. -/
def readDigits (cs : List Char) : Option ℕ :=
  if !cs.isEmpty && cs.all Char.isDigit then some (Nat.ofDigitChars 10 cs 0) else none

/-- A printed number consists of digits. -/
theorem isDigit_of_mem_toDigits {n : ℕ} {c : Char} (h : c ∈ Nat.toDigits 10 n) : c.isDigit :=
  Nat.isDigit_of_mem_toDigits (by decide) (by decide) h

/-- Reading the digits that were printed. -/
@[simp] theorem readDigits_toDigits (n : ℕ) : readDigits (Nat.toDigits 10 n) = some n := by
  have hdigits : (Nat.toDigits 10 n).all Char.isDigit :=
    List.all_eq_true.mpr fun c hc => isDigit_of_mem_toDigits hc
  rw [readDigits, hdigits, Nat.ofDigitChars_ten_toDigits, if_pos]
  simp [Nat.toDigits_ne_nil]

/-- The characters of a printed number. -/
theorem toList_toString (n : ℕ) : (toString n).toList = Nat.toDigits 10 n := Nat.toList_repr

/-! ## Integers -/

/-- `tonumber` of an integer, and Python's `int`. -/
def toNumber (s : String) : Option ℤ :=
  match s.toList with
  | '-' :: cs => (readDigits cs).map fun n : ℕ => -(n : ℤ)
  | cs => (readDigits cs).map fun n : ℕ => (n : ℤ)

/-- An empty text is no number. -/
theorem toNumber_empty : toNumber "" = none := rfl

/-- Reading a natural number that was printed. -/
@[simp] theorem toNumber_toString_nat (n : ℕ) : toNumber (toString n) = some (n : ℤ) := by
  rw [toNumber, toList_toString]
  split
  · rename_i cs hminus
    have hdigit := isDigit_of_mem_toDigits (n := n) (hminus ▸ List.mem_cons_self)
    exact absurd hdigit (by decide)
  · rw [readDigits_toDigits]
    rfl

/-- **Printed integers are read back.** -/
@[simp] theorem toNumber_toString (n : ℤ) : toNumber (toString n) = some n := by
  cases n with
  | ofNat n => exact toNumber_toString_nat n
  | negSucc n =>
    have htext : (toString (Int.negSucc n)).toList = '-' :: Nat.toDigits 10 (n + 1) := by
      show ("-" ++ (n + 1).repr).toList = _
      rw [String.toList_append, Nat.toList_repr]
      rfl
    rw [toNumber, htext]
    simp only [readDigits_toDigits, Option.map_some, Option.some.injEq]
    exact (Int.negSucc_eq n).symm

/-- A printed number is not empty. -/
theorem toString_ne_empty (n : ℤ) : toString n ≠ "" := by
  intro h
  have hread := toNumber_toString n
  rw [h, toNumber_empty] at hread
  cases hread

/-! ## A number before a separator -/

/-- The digits before the first character `c`, when there is nothing else before it. -/
def leadingDigits (c : Char) (s : String) : Option String :=
  let digits := s.toList.takeWhile Char.isDigit
  if digits ≠ [] ∧ (s.toList.dropWhile Char.isDigit).head? = some c then some (.ofList digits)
  else none

/-- The number comes back whatever follows the separator. -/
theorem leadingDigits_append {c : Char} (hc : c.isDigit = false) (n : ℕ) (rest : String) :
    leadingDigits c (toString n ++ .singleton c ++ rest) = some (toString n) := by
  have htext : (toString n ++ String.singleton c ++ rest).toList =
      Nat.toDigits 10 n ++ c :: rest.toList := by
    simp [String.toList_append]
  have hall : ∀ d ∈ Nat.toDigits 10 n, d.isDigit = true := fun d hd => isDigit_of_mem_toDigits hd
  have htake : (Nat.toDigits 10 n ++ c :: rest.toList).takeWhile Char.isDigit =
      Nat.toDigits 10 n := by
    rw [List.takeWhile_append_of_pos hall, List.takeWhile_cons_of_neg (by simp [hc]),
      List.append_nil]
  have hdrop : (Nat.toDigits 10 n ++ c :: rest.toList).dropWhile Char.isDigit =
      c :: rest.toList := by
    rw [List.dropWhile_append_of_pos hall, List.dropWhile_cons_of_neg (by simp [hc])]
  rw [leadingDigits, htext, htake, hdrop, if_pos ⟨Nat.toDigits_ne_nil, rfl⟩, ← toList_toString,
    String.ofList_toList]

/-- A number and what follows it behind a separator are determined by the text. -/
theorem toString_append_inj {c : Char} (hc : c.isDigit = false) {m n : ℕ} {s t : String}
    (h : toString m ++ .singleton c ++ s = toString n ++ .singleton c ++ t) : m = n ∧ s = t := by
  have hdigits := leadingDigits_append hc m s
  rw [h, leadingDigits_append hc n t] at hdigits
  have hread := toNumber_toString_nat m
  rw [← Option.some.inj hdigits, toNumber_toString_nat] at hread
  have hmn : n = m := Int.ofNat.inj (Option.some.inj hread)
  subst hmn
  exact ⟨rfl, (String.append_right_inj _).mp h⟩

end Redis

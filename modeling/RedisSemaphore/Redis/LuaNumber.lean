import Mathlib.Data.Int.Notation
import Mathlib.Data.Nat.Notation
import Mathlib.Tactic.NormNum

/-!
# Lua numbers and the counters a script keeps

A script computes with doubles. Here they hold integers: `LuaNumber` is such a double or the
infinity that a literal or a sum may run into. Up to `2 ^ 53` they are exact.

`INCRBY` and `DECRBY` are handed the text of a Lua number and read it as a signed 64-bit integer.
What they read is a parameter, as the format of numbers is the server's; so is what they find in a
key that `SET` filled with a Lua number.
-/

namespace Redis

/-- A double that holds an integer, or infinity. -/
inductive LuaNumber
  | finite (value : ℤ)
  | inf
  deriving DecidableEq, Repr

namespace LuaNumber

instance : Zero LuaNumber := ⟨.finite 0⟩

/-- `<`. -/
protected def Lt : LuaNumber → LuaNumber → Prop
  | .finite a, .finite b => a < b
  | .finite _, .inf => True
  | .inf, _ => False

instance : LT LuaNumber := ⟨LuaNumber.Lt⟩

instance (a b : LuaNumber) : Decidable (a < b) :=
  match a, b with
  | .finite a, .finite b => inferInstanceAs (Decidable (a < b))
  | .finite _, .inf => isTrue trivial
  | .inf, .finite _ => isFalse id
  | .inf, .inf => isFalse id

/-- Two finite numbers compare as integers. -/
@[simp] theorem finite_lt_finite {a b : ℤ} : finite a < finite b ↔ a < b := Iff.rfl

/-- No number is below itself, not even the infinity. -/
theorem lt_irrefl : ∀ a : LuaNumber, ¬a < a
  | .finite _ => Int.lt_irrefl _
  | .inf => id

/-- Zero is finite. -/
@[simp] theorem zero_eq : (0 : LuaNumber) = finite 0 := rfl

/-- Round to a significand of 53 bits, ties to even. -/
def roundNat (n : ℕ) : ℕ :=
  let unit := 2 ^ (n.log2 - 52)
  let significand := n / unit
  let rest := n % unit
  (if unit < 2 * rest ∨ unit = 2 * rest ∧ significand % 2 = 1 then significand + 1
    else significand) * unit

/-- `tonumber` of a decimal literal. From `2 ^ 1024` on it is infinity. -/
def ofNat (n : ℕ) : LuaNumber :=
  if (roundNat n).log2 < 1024 then .finite (roundNat n) else .inf

/-- The number of a Redis integer, or of the sum of two doubles. -/
def ofInt : ℤ → LuaNumber
  | .ofNat n => ofNat n
  | .negSucc n => .finite (-(roundNat (n + 1) : ℤ))

/-- `+`. -/
def add : LuaNumber → LuaNumber → LuaNumber
  | .finite a, .finite b => ofInt (a + b)
  | _, _ => .inf

/-- Every integer up to `2 ^ 53` is a double. -/
theorem roundNat_of_le {n : ℕ} (h : n ≤ 2 ^ 53) : roundNat n = n := by
  rcases h.eq_or_lt with rfl | hlt
  · decide
  · have hlog : n.log2 - 52 = 0 := by
      rcases Nat.eq_zero_or_pos n with rfl | hpos
      · rfl
      · have := (Nat.log2_lt hpos.ne').mpr hlt
        omega
    simp [roundNat, hlog, Nat.mod_one]

/-- A literal up to `2 ^ 53` is exact. -/
theorem ofNat_of_le {n : ℕ} (h : n ≤ 2 ^ 53) : ofNat n = finite n := by
  have hlog : n.log2 < 1024 := by
    rcases Nat.eq_zero_or_pos n with rfl | hpos
    · decide
    · have hlt : n < 2 ^ 54 := by omega
      have := (Nat.log2_lt hpos.ne').mpr hlt
      omega
  rw [ofNat, roundNat_of_le h, if_pos hlog]

/-- A sum up to `2 ^ 53` is exact. -/
theorem add_of_le {m n : ℕ} (h : m + n ≤ 2 ^ 53) :
    (finite m).add (finite n) = finite (m + n : ℕ) := by
  show ofInt ((m : ℤ) + n) = _
  rw [← Nat.cast_add]
  exact ofNat_of_le h

end LuaNumber

/-- The text of a counter: what `INCRBY` and `DECRBY` left, or a Lua number that `SET` has
printed. -/
inductive CounterText
  | int (value : ℤ)
  | printed (number : LuaNumber)

namespace CounterText

/-- `tonumber` of its text. -/
def number : CounterText → LuaNumber
  | .int value => .ofInt value
  | .printed number => number

variable (read : LuaNumber → Option ℤ)

/-- Its text as the integer that `INCRBY` starts from. -/
def asInt : CounterText → Option ℤ
  | .int value => some value
  | .printed number => read number

/-- A signed 64-bit integer, or the overflow that makes the command fail. -/
def int64 (value : ℤ) : Option ℤ :=
  if -2 ^ 63 ≤ value ∧ value < 2 ^ 63 then some value else none

/-- `INCRBY` on a key that may be missing; `none` is its error. -/
def incrby (key : Option CounterText) (amount : LuaNumber) : Option ℤ := do
  let old ← key.elim (some 0) (asInt read)
  let amount ← read amount
  int64 (old + amount)

/-- `DECRBY`. -/
def decrby (key : Option CounterText) (amount : LuaNumber) : Option ℤ := do
  let old ← key.elim (some 0) (asInt read)
  let amount ← read amount
  int64 (old - amount)

end CounterText

end Redis

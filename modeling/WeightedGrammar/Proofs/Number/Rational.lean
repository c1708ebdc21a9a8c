import Mathlib.Algebra.BigOperators.Ring.List
import Mathlib.Algebra.Order.BigOperators.Group.List
import Mathlib.Algebra.Order.Field.Rat
import WeightedGrammar.Number.Scalar

/-!
Weights, chances and draws without rounding: rational numbers, with the residue that sums are
allowed kept as it is.
-/

namespace WeightedGrammar

/-- What numerals stand for among the rational numbers, and how these are written. A numeral may
stand for the number that it spells or for a double next to it. -/
class RationalNotation where
  value : Decimal.Numeral → ℚ
  text : ℚ → String

instance [RationalNotation] : Scalar ℚ where
  decLt := inferInstance
  decLe := inferInstance
  ofNat n := n
  tolerance := 1 / 10 ^ 9
  ofNumeral := RationalNotation.value
  text := RationalNotation.text

/-- The number that a numeral spells; zero if it is none. -/
def Decimal.Numeral.toRat : Decimal.Numeral → ℚ
  | finite negative mantissa exponent => (if negative then -1 else 1) * mantissa * 10 ^ exponent
  | infinite _ => 0
  | notANumber => 0

instance : RationalNotation where
  value := Decimal.Numeral.toRat
  text q := toString q

variable [RationalNotation]

theorem total_eq_sum (xs : List ℚ) : Scalar.total xs = xs.sum := by
  have total : Scalar.total xs = xs.foldl (· + ·) ((0 : ℕ) : ℚ) := rfl
  rw [total, Nat.cast_zero]
  exact List.sum_eq_foldl.symm

theorem hundred_eq : (Scalar.hundred : ℚ) = 100 := by
  show ((100 : ℕ) : ℚ) = 100
  rw [Nat.cast_ofNat]

theorem aboveHundred_iff {w : ℚ} : Scalar.aboveHundred w = true ↔ 100 + 1 / 10 ^ 9 < w := by
  show decide (((100 : ℕ) : ℚ) + 1 / 10 ^ 9 < w) = true ↔ _
  rw [decide_eq_true_iff, Nat.cast_ofNat]

theorem usesHundred_iff {w : ℚ} : Scalar.usesHundred w = true ↔ 100 - 1 / 10 ^ 9 ≤ w := by
  show decide (((100 : ℕ) : ℚ) - 1 / 10 ^ 9 ≤ w) = true ↔ _
  rw [decide_eq_true_iff, Nat.cast_ofNat]

end WeightedGrammar

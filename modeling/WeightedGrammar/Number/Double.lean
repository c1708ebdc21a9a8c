import WeightedGrammar.Decimal.Double
import WeightedGrammar.Number.Scalar

/-!
Doubles as weights and draws.
-/

namespace WeightedGrammar

/-- Doubles round after every operation, and their sums are allowed a residue of `1e-9`. -/
instance : Scalar Float where
  decLt := inferInstance
  decLe := inferInstance
  ofNat := Float.ofNat
  tolerance := 1e-9
  ofNumeral := Decimal.Numeral.toFloat
  text := Decimal.weightText

end WeightedGrammar

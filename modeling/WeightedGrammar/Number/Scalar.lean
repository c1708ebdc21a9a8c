import WeightedGrammar.Decimal.Numeral

/-!
The numbers that weights, chances and draws are made of. Selection is written over any `Scalar`, so
that one definition is run on doubles, rounding after every operation, and can be reasoned about on
exact numbers.
-/

namespace WeightedGrammar

/-- Numbers that can weigh items: arithmetic, an order that can be decided, the reading of numerals
and a written form. -/
class Scalar (ω : Type) extends Add ω, Sub ω, Mul ω, Div ω, LT ω, LE ω, BEq ω where
  decLt : DecidableLT ω
  decLe : DecidableLE ω
  /-- The number that counts so many. -/
  ofNat : Nat → ω
  /-- The residue of rounding that sums are allowed. -/
  tolerance : ω
  /-- The value of a numeral. -/
  ofNumeral : Decimal.Numeral → ω
  /-- The written form. -/
  text : ω → String

namespace Scalar
variable {ω : Type} [Scalar ω]

instance : DecidableLT ω := Scalar.decLt
instance : DecidableLE ω := Scalar.decLe

def total (ws : List ω) : ω := ws.foldl (· + ·) (ofNat 0)

def hundred : ω := ofNat 100

/-- More than a hundred percent, by more than rounding explains. -/
def aboveHundred (w : ω) : Bool := decide (hundred + tolerance < w)

/-- A hundred percent or more, up to rounding. -/
def usesHundred (w : ω) : Bool := decide (hundred - tolerance ≤ w)

end Scalar

end WeightedGrammar

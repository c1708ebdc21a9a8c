/-!
Shortest decimals. A binary floating-point number stands for every real that rounds to it; among
the decimals in that interval `shortest` takes one with the fewest digits, and of those the nearest
to the number itself. The search runs over the decimal grids `10 ^ k`, coarse ones first: if a grid
has a point in the interval, one of the number's two neighbours on the grid is such a point.
-/

namespace WeightedGrammar.Decimal

/-- The positive number `significand * 2 ^ exponent`. `atBinade` says that the next smaller number
is half as far away as the next larger one. -/
structure Binary where
  significand : Nat
  exponent : Int
  atBinade : Bool
  deriving DecidableEq, Repr

/-- The decimal `digits * 10 ^ power`. -/
structure Point where
  digits : Nat
  power : Int
  deriving DecidableEq, Repr

/-- The product `n * 2 ^ twos * 10 ^ tens`. A negative power counts as none here: its factor goes to
the other side of a comparison, where its opposite is positive. -/
def scaledUp (n : Nat) (twos tens : Int) : Nat := n * Nat.pow 2 twos.toNat * Nat.pow 10 tens.toNat

/-- The number itself and the ends of its interval, in quarters of its last place. -/
def Binary.quarters (b : Binary) : Nat × Nat × Nat :=
  (4 * b.significand, 4 * b.significand - (if b.atBinade then 1 else 2), 4 * b.significand + 2)

/-- The neighbour of the number on the grid `10 ^ power` that its interval takes, nearer one first;
of two equally near ones the even. An end of the interval counts if the significand is even. -/
def Binary.onGrid? (b : Binary) (power : Int) : Option Point :=
  let (value, low, high) := b.quarters
  let twos := b.exponent - 2
  let unit := scaledUp 1 (-twos) power
  let scale := fun n => scaledUp n twos (-power)
  let below := scale value / unit
  let fits := fun (n : Nat) =>
    if b.significand % 2 = 0 then scale low ≤ n * unit && n * unit ≤ scale high
    else scale low < n * unit && n * unit < scale high
  let left := scale value - below * unit
  let right := (below + 1) * unit - scale value
  let lowerFirst := left < right || (left == right && below % 2 == 0)
  match fits below, fits (below + 1) with
  | false, false => none
  | true, false => some ⟨below, power⟩
  | false, true => some ⟨below + 1, power⟩
  | true, true => some ⟨if lowerFirst then below else below + 1, power⟩

/-- The first hit on the grids from `10 ^ power` downwards, at most `tries` of them. -/
def Binary.search (b : Binary) (power : Int) : Nat → Option Point
  | 0 => none
  | tries + 1 =>
    match b.onGrid? power with
    | some p => some p
    | none => b.search (power - 1) tries

/-- An exponent of ten above the number: its count of binary places is multiplied by a little more
than the logarithm of two. -/
def Binary.decimalBound (b : Binary) : Int :=
  (((b.significand.log2 : Int) + 1 + b.exponent) * 30103).fdiv 100000 + 2

/-- A decimal with the fewest digits among those that round to the number. Seventeen digits always
suffice, so the search ends within the grids tried. -/
def Binary.shortest (b : Binary) : Point :=
  (b.search b.decimalBound 24).getD ⟨0, 0⟩

end WeightedGrammar.Decimal

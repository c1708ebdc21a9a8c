import WeightedGrammar.Decimal.Numeral
import WeightedGrammar.Decimal.Shortest

/-!
Numerals and doubles. `Numeral.toFloat` is the double nearest to a numeral. `weightText` writes a
double as weights are written: a whole number in full, any other in its shortest decimal,
positionally from `0.0001` on and with a power of ten below that.
-/

namespace WeightedGrammar.Decimal

/-! ### From numerals -/

/-- The double nearest to `mantissa * 10 ^ exponent`. Beyond four hundred places on either side of
the point the result is infinite or zero, and the power is not computed. -/
def nearestFloat (mantissa : Nat) (exponent : Int) : Float :=
  let places := ((Nat.toDigits 10 mantissa).length : Int) + exponent
  if mantissa = 0 || places < -400 then 0.0
  else if 400 < places then 1.0 / 0.0
  else Float.ofScientific mantissa (exponent < 0) exponent.natAbs

def Numeral.toFloat : Numeral → Float
  | .finite negative mantissa exponent =>
    let magnitude := nearestFloat mantissa exponent
    if negative then -magnitude else magnitude
  | .infinite negative => if negative then -1.0 / 0.0 else 1.0 / 0.0
  | .notANumber => 0.0 / 0.0

/-! ### Parts of a double -/

/-- A double taken apart: a sign with a multiple of a power of two, an infinity, or no number. -/
inductive DoubleParts where
  | finite (negative : Bool) (magnitude : Binary)
  | infinite (negative : Bool)
  | notANumber
  deriving DecidableEq, Repr

def signBit : Nat := 0x8000000000000000

def leadingOne : Nat := 0x10000000000000

/-- The parts that a row of 64 bits encodes: a sign bit, eleven bits of exponent, and 52 bits of
fraction under a leading one, which only the lowest exponent goes without. -/
def DoubleParts.ofBits (bits : Nat) : DoubleParts :=
  let negative := bits / signBit % 2 == 1
  let field := bits / leadingOne % 0x800
  let fraction := bits % leadingOne
  if field = 2047 then if fraction = 0 then .infinite negative else .notANumber
  else if field = 0 then .finite negative ⟨fraction, -1074, false⟩
  else .finite negative ⟨leadingOne + fraction, (field : Int) - 1075, fraction = 0 && 1 < field⟩

def Binary.whole? (b : Binary) : Option Nat :=
  if 0 ≤ b.exponent then some (b.significand * Nat.pow 2 b.exponent.toNat)
  else
    let parts := Nat.pow 2 (-b.exponent).toNat
    if b.significand % parts = 0 then some (b.significand / parts) else none

/-! ### Text of a weight -/

/-- The lowest position of the point that is written without a power of ten: three zeros behind
the point. -/
def lowestPosition : Int := -3

def twoDigits (n : Nat) : String := if n < 10 then "0" ++ toString n else toString n

def Point.text (p : Point) : String :=
  let digits := Nat.toDigits 10 p.digits
  let position := (digits.length : Int) + p.power
  if 0 < position then
    String.ofList (digits.take position.toNat ++ '.' :: digits.drop position.toNat)
  else if lowestPosition ≤ position then
    String.ofList ('0' :: '.' :: List.replicate (-position).toNat '0' ++ digits)
  else
    let fraction := if digits.length = 1 then [] else '.' :: digits.drop 1
    String.ofList (digits.take 1 ++ fraction) ++ "e-" ++ twoDigits (1 - position).toNat

def Binary.weightText (b : Binary) : String :=
  match b.whole? with
  | some n => toString n
  | none => b.shortest.text

/-- The text of a weight. Zero has no sign. -/
def weightText (x : Float) : String :=
  match DoubleParts.ofBits x.toBits.toNat with
  | .notANumber => "nan"
  | .infinite negative => if negative then "-inf" else "inf"
  | .finite negative magnitude =>
    (if negative && magnitude.significand != 0 then "-" else "") ++ magnitude.weightText

example : weightText 33.3 = "33.3" := by decide +kernel

example : weightText 0.0001 = "0.0001" := by decide +kernel

example : weightText 0.000015 = "1.5e-05" := by decide +kernel

example : weightText 1e22 = "10000000000000000000000" := by decide +kernel

end WeightedGrammar.Decimal

import WeightedGrammar.Text.Digit

/-!
Decimal numerals as a text may spell them: an optional sign, digits of any script with at most one
point among them, and an optional power of ten; or a word for infinity or for no number at all.
An underscore may separate two digits. `Numeral.read?` gives the number that a text denotes.
-/

namespace WeightedGrammar.Decimal
open Text

/-- What a numeral denotes: `mantissa * 10 ^ exponent` with a sign, an infinity, or no number. -/
inductive Numeral where
  | finite (negative : Bool) (mantissa : Nat) (exponent : Int)
  | infinite (negative : Bool)
  | notANumber
  deriving DecidableEq, Repr

/-- The ASCII digit with the value of a digit; other characters stay. -/
def plainDigit (c : Char) : Char :=
  match digitValue? c with
  | some d => Nat.digitChar d
  | none => c

/-- The text without its separators; none if one does not stand between two digits. The first
argument says whether a digit stands in front. -/
def dropSeparators (afterDigit : Bool) : List Char → Option (List Char)
  | [] => some []
  | '_' :: c :: cs =>
    if afterDigit && c.isDigit then (dropSeparators true cs).map (c :: ·) else none
  | c :: cs => if c == '_' then none else (dropSeparators c.isDigit cs).map (c :: ·)

def digitsValue (cs : List Char) : Nat :=
  cs.foldl (fun n c => 10 * n + (c.toNat - '0'.toNat)) 0

def takeSign : List Char → Bool × List Char
  | '-' :: cs => (true, cs)
  | '+' :: cs => (false, cs)
  | cs => (false, cs)

/-- The power of ten at the end of a numeral: nothing, or a mark and a signed row of digits. -/
def readExponent? : List Char → Option Int
  | [] => some 0
  | c :: cs =>
    let (negative, digits) := takeSign cs
    if (c == 'e' || c == 'E') && !digits.isEmpty && digits.all Char.isDigit then
      some (if negative then -(digitsValue digits : Int) else digitsValue digits)
    else none

/-- An unsigned numeral made of digits. -/
def readDigits? (negative : Bool) (cs : List Char) : Option Numeral :=
  let whole := cs.takeWhile Char.isDigit
  let rest := cs.dropWhile Char.isDigit
  let (fraction, tail) := match rest with
    | '.' :: more => (more.takeWhile Char.isDigit, more.dropWhile Char.isDigit)
    | _ => ([], rest)
  if whole.isEmpty && fraction.isEmpty then none
  else
    (readExponent? tail).map fun power =>
      .finite negative (digitsValue (whole ++ fraction)) (power - fraction.length)

/-- An unsigned numeral: a word in either case of letters, or digits. -/
def readUnsigned? (negative : Bool) (cs : List Char) : Option Numeral :=
  let word := String.ofList (cs.map (·.toLower))
  if word = "inf" || word = "infinity" then some (.infinite negative)
  else if word = "nan" then some .notANumber
  else readDigits? negative cs

/-- The number that a text spells, if it is a numeral. -/
def Numeral.read? (text : String) : Option Numeral :=
  (dropSeparators false (text.toList.map plainDigit)).bind fun cs =>
    let (negative, rest) := takeSign cs
    readUnsigned? negative rest

end WeightedGrammar.Decimal

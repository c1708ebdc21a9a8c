import WeightedGrammar.Text.Printable

/-!
Quoted text, as messages show it: between single quotes, or between double quotes when the text
holds a single quote and no double quote. Backslash, the enclosing quote and whatever is not
printable are escaped.
-/

namespace WeightedGrammar.Text

/-- The lower-case hexadecimal digits of a number, with zeros in front up to the width. -/
def hexDigits (width n : Nat) : List Char :=
  let digits := Nat.toDigits 16 n
  List.replicate (width - digits.length) '0' ++ digits

/-- The quote that encloses the text. -/
def quoteMark (cs : List Char) : Char :=
  if cs.contains '\'' && !cs.contains '"' then '"' else '\''

/-- A character as it stands between two marks. -/
def quotedChar (mark c : Char) : List Char :=
  if c == mark || c == '\\' then ['\\', c]
  else if c == '\n' then ['\\', 'n']
  else if c == '\r' then ['\\', 'r']
  else if c == '\t' then ['\\', 't']
  else if isPrintable c then [c]
  else if c.toNat < 0x100 then '\\' :: 'x' :: hexDigits 2 c.toNat
  else if c.toNat < 0x10000 then '\\' :: 'u' :: hexDigits 4 c.toNat
  else '\\' :: 'U' :: hexDigits 8 c.toNat

def quoted (text : String) : String :=
  let cs := text.toList
  let mark := quoteMark cs
  String.ofList (mark :: cs.flatMap (quotedChar mark) ++ [mark])

example : quoted "it's" = "\"it's\"" := by decide +kernel

example : quoted "a'\"\n" = "'a\\'\"\\n'" := by decide +kernel

example : quoted "\u00ad\u00e9" = "'\\xad\u00e9'" := by decide +kernel

end WeightedGrammar.Text

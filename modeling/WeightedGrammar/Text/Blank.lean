import WeightedGrammar.Text.Range

/-!
Blank characters: the Unicode white space, with the four separators U+001C to U+001F counted in.
-/

namespace WeightedGrammar.Text

def blankTable : List CodeRange :=
  [(0x9, 0xd), (0x1c, 0x20), (0x85, 0x85), (0xa0, 0xa0), (0x1680, 0x1680), (0x2000, 0x200a),
   (0x2028, 0x2029), (0x202f, 0x202f), (0x205f, 0x205f), (0x3000, 0x3000)]

/-- A blank character, of any width. -/
def isBlank (c : Char) : Bool := inTable blankTable c

/-- The characters without the blanks at either end. -/
def trimmed (cs : List Char) : List Char :=
  ((cs.dropWhile isBlank).reverse.dropWhile isBlank).reverse

end WeightedGrammar.Text

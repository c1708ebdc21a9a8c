/-!
Character classes given by tables of code point ranges. A table is a list of closed ranges in
increasing order; `inTable` asks whether a code point lies in one of them.
-/

namespace WeightedGrammar.Text

/-- A closed range of code points, first and last. -/
abbrev CodeRange := Nat × Nat

def CodeRange.holds (r : CodeRange) (code : Nat) : Bool := r.1 ≤ code && code ≤ r.2

def inTable (table : List CodeRange) (c : Char) : Bool := table.any (·.holds c.toNat)

end WeightedGrammar.Text

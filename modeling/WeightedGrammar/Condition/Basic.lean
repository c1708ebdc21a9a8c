/-!
Condition trees over rule names. A name is true when its rule has fired; `evaluate` reads a tree
against the set of fired rules, `toText` writes it, and `names` lists its leaves.
-/

namespace WeightedGrammar

/-- A boolean expression over rule names. Parentheses are kept as `group`, so that the text of a
tree is the text that it was read from, up to blanks. -/
inductive Condition where
  | fired (rule : String)
  | conj (left right : Condition)
  | disj (left right : Condition)
  | neg (child : Condition)
  | group (child : Condition)
  deriving DecidableEq, Repr

namespace Condition

def evaluate (hasFired : String → Bool) : Condition → Bool
  | fired rule => hasFired rule
  | conj left right => left.evaluate hasFired && right.evaluate hasFired
  | disj left right => left.evaluate hasFired || right.evaluate hasFired
  | neg child => !child.evaluate hasFired
  | group child => child.evaluate hasFired

def names : Condition → List String
  | fired rule => [rule]
  | conj left right => left.names ++ right.names
  | disj left right => left.names ++ right.names
  | neg child => child.names
  | group child => child.names

/-- The written form. Only a `group` writes parentheses. -/
def toText : Condition → String
  | fired rule => rule
  | conj left right => left.toText ++ " && " ++ right.toText
  | disj left right => left.toText ++ " || " ++ right.toText
  | neg child => "!" ++ child.toText
  | group child => "(" ++ child.toText ++ ")"

end Condition

end WeightedGrammar

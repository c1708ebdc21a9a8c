import WeightedGrammar.Condition.Basic
import WeightedGrammar.Number.Scalar

/-!
Grammars: rules, the items a rule chooses among, and what an item holds. Two rules are equal when
their written parts are; the chances of a rule follow from those and do not count. Nor does the
name of a grammar.
-/

namespace WeightedGrammar

/-- What an item expands to: a terminal text, or a rule with its place in the grammar. -/
inductive Element where
  | literal (text : String)
  | ref (name : String) (index : Nat)
  deriving DecidableEq, Repr

/-- The assignment of a state. Without a value it takes one from where it stands. -/
structure StateExpr where
  key : String
  value : Option String := none
  deriving DecidableEq, Repr

/-- One of the alternatives of a rule. The weight is a percentage; the condition gates the item in a
conditional rule. -/
structure Item (ω : Type) where
  elements : List Element := []
  weight : Option ω := none
  condition : Option Condition := none
  states : List StateExpr := []
  deriving BEq, Repr

/-- A rule. `chances` holds, for an unconditional rule, the chance of every item. -/
structure Rule (ω : Type) where
  name : String
  conditional : Bool := false
  items : List (Item ω) := []
  states : List StateExpr := []
  chances : List ω := []
  deriving Repr

/-- Rules in the order of the text; the first one is the top rule. -/
structure Grammar (ω : Type) where
  rules : List (Rule ω)
  name : String := ""
  deriving Repr

/-- The value for a state: the text of a literal, the name of a rule. -/
def Element.value : Element → String
  | literal text => text
  | ref name _ => name

/-- The value that a state of the item takes without one of its own: that of the first element. -/
def Item.impliedValue? {ω : Type} (item : Item ω) : Option String :=
  item.elements.head?.map (·.value)

/-- Equality of the written parts. -/
instance {ω : Type} [BEq ω] : BEq (Rule ω) where
  beq a b :=
    a.name == b.name && a.conditional == b.conditional && a.items == b.items && a.states == b.states

/-- Equality of the rules. -/
instance {ω : Type} [BEq ω] : BEq (Grammar ω) where
  beq a b := a.rules == b.rules

namespace Grammar
variable {ω : Type}

def top? (g : Grammar ω) : Option (Rule ω) := g.rules.head?

def names (g : Grammar ω) : List String := g.rules.map (·.name)

/-- The rule of a name; the last one if several have it. -/
def lookup? (g : Grammar ω) (name : String) : Option (Rule ω) :=
  g.rules.reverse.find? (·.name == name)

def contains (g : Grammar ω) (name : String) : Bool := g.rules.any (·.name == name)

theorem lookup?_eq_none_iff {g : Grammar ω} {name : String} :
    g.lookup? name = none ↔ g.contains name = false := by
  simp [lookup?, contains]

end Grammar

end WeightedGrammar

import WeightedGrammar.Grammar.Basic
import WeightedGrammar.Selection.Draw
import WeightedGrammar.Selection.Percent

/-!
Which items of a rule compete, and with what chances. All items of an unconditional rule do, with
the chances computed when it was loaded. In a conditional rule those compete whose condition holds;
when the weights of several conditions together leave no room, they become relative to their sum and
items without a weight drop out.
-/

namespace WeightedGrammar

/-- Competing items by their place in the rule, and the chance of each. -/
structure Ballot (ω : Type) where
  items : List Nat
  chances : List ω

/-- The places and weights of the items whose condition holds. -/
def Rule.satisfied {ω : Type} (rule : Rule ω) (hasFired : String → Bool) :
    List (Nat × Option ω) :=
  rule.items.zipIdx.filterMap fun (item, place) =>
    if item.condition.any (·.evaluate hasFired) then some (place, item.weight) else none

variable {ω : Type} [Scalar ω]

namespace Ballot
open Scalar Selection

/-- The weights that are given leave no room: they exceed a hundred, or use it up beside an item
without a weight. -/
def isCrowded (weights : List (Option ω)) : Bool :=
  aboveHundred (explicitTotal weights) ||
    (weights.any (·.isNone) && usesHundred (explicitTotal weights))

/-- The weights that are given, each as a percentage of their sum. -/
def relative (weights : List (Option ω)) : List (Option ω) :=
  (weights.filterMap id).map fun w => some (w * hundred / explicitTotal weights)

/-- The ballot of items under conditions that hold. -/
def ofSatisfied (candidates : List (Nat × Option ω)) : Ballot ω :=
  let weights := candidates.map (·.2)
  if isCrowded weights then
    ⟨(candidates.filter (·.2.isSome)).map (·.1), normalize (relative weights)⟩
  else ⟨candidates.map (·.1), normalize weights⟩

/-- The item that a draw chooses. -/
def pick (b : Ballot ω) (draw : ω) : Option Nat := (choose b.chances draw).bind (b.items[·]?)

end Ballot

/-- The ballot of a rule; none if no item of a conditional rule may compete. -/
def Rule.ballot? (rule : Rule ω) (hasFired : String → Bool) : Option (Ballot ω) :=
  if rule.conditional then
    let candidates := rule.satisfied hasFired
    if candidates.isEmpty then none else some (.ofSatisfied candidates)
  else some ⟨List.range rule.chances.length, rule.chances⟩

end WeightedGrammar

import WeightedGrammar.Number.Scalar

/-!
From percentages to chances. Entries without a percentage share evenly what the others leave of a
hundred; with no such entry the remainder belongs to nobody.
-/

namespace WeightedGrammar.Selection
open Scalar
variable {ω : Type} [Scalar ω]

/-- The sum of the percentages that are given. -/
def explicitTotal (weights : List (Option ω)) : ω := total (weights.filterMap id)

def freeCount (weights : List (Option ω)) : Nat := weights.countP (·.isNone)

def atLeastZero (x : ω) : ω := if x < ofNat 0 then ofNat 0 else x

def freeShare (weights : List (Option ω)) : ω :=
  if freeCount weights = 0 then ofNat 0
  else atLeastZero (hundred - explicitTotal weights) / ofNat (freeCount weights)

def normalize (weights : List (Option ω)) : List ω :=
  weights.map fun w => w.getD (freeShare weights) / hundred

@[simp] theorem length_normalize (weights : List (Option ω)) :
    (normalize weights).length = weights.length := by
  simp [normalize]

end WeightedGrammar.Selection

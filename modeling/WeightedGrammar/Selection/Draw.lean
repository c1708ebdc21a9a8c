import WeightedGrammar.Number.Scalar

/-!
Picking an entry of a row of chances with one draw. The chances are laid end to end from zero;
`pick` gives the entry under the draw, or the length of the row when the draw lies beyond all of
them. `choose` reads that last outcome as "nothing", unless the chances add up to one.
-/

namespace WeightedGrammar.Selection
open Scalar
variable {ω : Type} [Scalar ω]

/-- The place of the first entry whose running sum is above the draw, from a sum on. -/
def pickFrom (draw sum : ω) : List ω → Nat
  | [] => 0
  | p :: ps => if draw < sum + p then 0 else pickFrom draw (sum + p) ps + 1

/-- The place of the entry that a draw falls on. -/
def pick (chances : List ω) (draw : ω) : Nat := pickFrom draw (ofNat 0) chances

/-- Chances that leave no room for nothing, up to rounding. -/
def isFull (chances : List ω) : Bool :=
  !chances.isEmpty && decide (ofNat 1 - tolerance ≤ total chances)

/-- The entry that a draw chooses. When the chances are full, the last entry takes what rounding
leaves over. -/
def choose (chances : List ω) (draw : ω) : Option Nat :=
  let place := pick chances draw
  if place < chances.length then some place
  else if isFull chances then some (chances.length - 1)
  else none

theorem pickFrom_le (draw sum : ω) (chances : List ω) :
    pickFrom draw sum chances ≤ chances.length := by
  induction chances generalizing sum with
  | nil => exact Nat.le_refl _
  | cons p ps ih =>
    unfold pickFrom
    split
    · exact Nat.zero_le _
    · exact Nat.succ_le_succ (ih _)

theorem choose_lt {chances : List ω} {draw : ω} {i : Nat} (h : choose chances draw = some i) :
    i < chances.length := by
  unfold choose at h
  dsimp only at h
  split at h
  · rename_i inside
    cases h
    exact inside
  · split at h
    · rename_i full
      cases h
      cases chances with
      | nil => simp [isFull] at full
      | cons p ps => exact Nat.lt_succ_self _
    · cases h

end WeightedGrammar.Selection

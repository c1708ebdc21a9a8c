import WeightedGrammar.Condition.Basic

/-!
What the truth of a condition depends on: the names in it (`evaluate_congr`). Without a negation it
depends on them monotonically (`evaluate_mono`).
-/

namespace WeightedGrammar.Condition

/-- Nothing in the condition is negated. -/
def isPositive : Condition → Bool
  | fired _ => true
  | conj left right => left.isPositive && right.isPositive
  | disj left right => left.isPositive && right.isPositive
  | neg _ => false
  | group child => child.isPositive

variable {hasFired later : String → Bool} {c : Condition}

theorem evaluate_congr (same : ∀ name ∈ c.names, later name = hasFired name) :
    c.evaluate later = c.evaluate hasFired := by
  induction c with
  | fired rule => exact same rule List.mem_cons_self
  | conj left right leftIh rightIh =>
    rw [names, List.forall_mem_append] at same
    rw [evaluate, evaluate, leftIh same.1, rightIh same.2]
  | disj left right leftIh rightIh =>
    rw [names, List.forall_mem_append] at same
    rw [evaluate, evaluate, leftIh same.1, rightIh same.2]
  | neg child ih => rw [evaluate, evaluate, ih same]
  | group child ih => exact ih same

/-- A condition has its value changed by one of its names. -/
theorem exists_of_evaluate_ne (changed : c.evaluate later ≠ c.evaluate hasFired) :
    ∃ name ∈ c.names, later name ≠ hasFired name := by
  refine Decidable.byContradiction fun unchanged => changed (evaluate_congr fun name isName => ?_)
  exact Decidable.byContradiction fun differs => unchanged ⟨name, isName, differs⟩

theorem evaluate_mono (grows : ∀ name, hasFired name = true → later name = true)
    (positive : c.isPositive = true) (holds : c.evaluate hasFired = true) :
    c.evaluate later = true := by
  induction c with
  | fired rule => exact grows rule holds
  | conj left right leftIh rightIh =>
    rw [isPositive, Bool.and_eq_true] at positive
    rw [evaluate, Bool.and_eq_true] at holds ⊢
    exact ⟨leftIh positive.1 holds.1, rightIh positive.2 holds.2⟩
  | disj left right leftIh rightIh =>
    rw [isPositive, Bool.and_eq_true] at positive
    rw [evaluate, Bool.or_eq_true] at holds ⊢
    exact holds.imp (leftIh positive.1) (rightIh positive.2)
  | neg child => cases positive
  | group child ih => exact ih positive holds

end WeightedGrammar.Condition

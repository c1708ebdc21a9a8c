import WeightedGrammar.Token.Basic
import WeightedGrammar.Condition.Basic

/-!
The grammar of conditions: `||` over `&&` over `!` over names and parentheses, where both binary
signs group to the left. `Expresses` derives an expression together with what it means. Read as
trees, it derives exactly the precedence-normal ones (`expresses_tree_iff`).
-/

namespace WeightedGrammar.Condition

/-! ### Trees and their lexemes -/

def flatten : Condition → List Lexeme
  | fired rule => [.name rule]
  | conj left right => left.flatten ++ .andSign :: right.flatten
  | disj left right => left.flatten ++ .orSign :: right.flatten
  | neg child => .notSign :: child.flatten
  | group child => .openParen :: (child.flatten ++ [.closeParen])

def isConj : Condition → Bool
  | conj _ _ => true
  | _ => false

def isDisj : Condition → Bool
  | disj _ _ => true
  | _ => false

/-- No `||` is the right child of an `||` or any child of an `&&`, no `&&` is the right child of an
`&&`, and neither of them is the child of a `!`. A group may hold anything. -/
def isNormal : Condition → Bool
  | fired _ => true
  | conj left right =>
    left.isNormal && right.isNormal && !left.isDisj && !right.isDisj && !right.isConj
  | disj left right => left.isNormal && right.isNormal && !right.isDisj
  | neg child => child.isNormal && !child.isDisj && !child.isConj
  | group child => child.isNormal

def nameOf? : Lexeme → Option String
  | .name rule => some rule
  | _ => none

theorem names_eq_filterMap (c : Condition) : c.names = c.flatten.filterMap nameOf? := by
  induction c with
  | fired rule => rfl
  | conj left right ihLeft ihRight =>
    simp [names, flatten, List.filterMap_cons, nameOf?, ihLeft, ihRight]
  | disj left right ihLeft ihRight =>
    simp [names, flatten, List.filterMap_cons, nameOf?, ihLeft, ihRight]
  | neg child ih => simp [names, flatten, List.filterMap_cons, nameOf?, ih]
  | group child ih => simp [names, flatten, List.filterMap_cons, nameOf?, ih]

theorem endOfInput_not_mem_flatten (c : Condition) : .endOfInput ∉ c.flatten := by
  induction c with
  | fired rule => simp [flatten]
  | conj left right ihLeft ihRight => simp [flatten, ihLeft, ihRight]
  | disj left right ihLeft ihRight => simp [flatten, ihLeft, ihRight]
  | neg child ih => simp [flatten, ih]
  | group child ih => simp [flatten, ih]

/-! ### Expressions -/

/-- The levels of precedence, tightest first. -/
inductive Level where
  | operand
  | conjunction
  | disjunction
  deriving DecidableEq, Repr

/-- What names, signs and parentheses stand for. -/
structure Meaning (α : Type) where
  fired : String → α
  conj : α → α → α
  disj : α → α → α
  neg : α → α
  group : α → α

def Meaning.tree : Meaning Condition := ⟨.fired, .conj, .disj, .neg, .group⟩

/-- Expressions stand for truth values, given which rules have fired. -/
def Meaning.truth (hasFired : String → Bool) : Meaning Bool :=
  ⟨hasFired, (· && ·), (· || ·), (! ·), id⟩

/-- The lexemes are an expression of the level, and this is what it means. -/
inductive Expresses {α : Type} (m : Meaning α) : Level → List Lexeme → α → Prop where
  | name (rule : String) : Expresses m .operand [.name rule] (m.fired rule)
  | group {ts : List Lexeme} {a : α} (inner : Expresses m .disjunction ts a) :
      Expresses m .operand (.openParen :: (ts ++ [.closeParen])) (m.group a)
  | neg {ts : List Lexeme} {a : α} (child : Expresses m .operand ts a) :
      Expresses m .operand (.notSign :: ts) (m.neg a)
  | operand {ts : List Lexeme} {a : α} (alone : Expresses m .operand ts a) :
      Expresses m .conjunction ts a
  | conj {ls rs : List Lexeme} {a b : α} (left : Expresses m .conjunction ls a)
      (right : Expresses m .operand rs b) :
      Expresses m .conjunction (ls ++ .andSign :: rs) (m.conj a b)
  | conjunction {ts : List Lexeme} {a : α} (alone : Expresses m .conjunction ts a) :
      Expresses m .disjunction ts a
  | disj {ls rs : List Lexeme} {a b : α} (left : Expresses m .disjunction ls a)
      (right : Expresses m .conjunction rs b) :
      Expresses m .disjunction (ls ++ .orSign :: rs) (m.disj a b)

theorem Expresses.ofOperand {α : Type} {m : Meaning α} {ts : List Lexeme} {a : α}
    (h : Expresses m .operand ts a) : ∀ level, Expresses m level ts a
  | .operand => h
  | .conjunction => .operand h
  | .disjunction => .conjunction (.operand h)

/-! ### Expressions and normal trees -/

/-- The tree may stand at the level without parentheses. -/
def fits (c : Condition) : Level → Bool
  | .operand => !c.isDisj && !c.isConj
  | .conjunction => !c.isDisj
  | .disjunction => true

theorem normal_of_expresses {level : Level} {ts : List Lexeme} {c : Condition}
    (h : Expresses .tree level ts c) :
    c.isNormal = true ∧ c.flatten = ts ∧ c.fits level = true := by
  induction h with
  | name rule => exact ⟨rfl, rfl, rfl⟩
  | group _ ih => exact ⟨ih.1, by simp [Meaning.tree, flatten, ih.2.1], rfl⟩
  | neg _ ih =>
    obtain ⟨normal, flat, fit⟩ := ih
    refine ⟨?_, by simp [Meaning.tree, flatten, flat], rfl⟩
    simp only [fits, Bool.and_eq_true] at fit
    simp [Meaning.tree, isNormal, normal, fit]
  | operand _ ih =>
    obtain ⟨normal, flat, fit⟩ := ih
    simp only [fits, Bool.and_eq_true] at fit
    exact ⟨normal, flat, fit.1⟩
  | conj _ _ left right =>
    obtain ⟨normalLeft, flatLeft, fitLeft⟩ := left
    obtain ⟨normalRight, flatRight, fitRight⟩ := right
    refine ⟨?_, by simp [Meaning.tree, flatten, flatLeft, flatRight], rfl⟩
    simp only [fits, Bool.and_eq_true] at fitLeft fitRight
    simp [Meaning.tree, isNormal, normalLeft, normalRight, fitLeft, fitRight]
  | conjunction _ ih => exact ⟨ih.1, ih.2.1, rfl⟩
  | disj _ _ left right =>
    obtain ⟨normalLeft, flatLeft, -⟩ := left
    obtain ⟨normalRight, flatRight, fitRight⟩ := right
    refine ⟨?_, by simp [Meaning.tree, flatten, flatLeft, flatRight], rfl⟩
    simp only [fits] at fitRight
    simp [Meaning.tree, isNormal, normalLeft, normalRight, fitRight]

theorem expresses_of_normal {c : Condition} (normal : c.isNormal = true) :
    ∀ level, c.fits level = true → Expresses .tree level c.flatten c := by
  induction c with
  | fired rule => exact fun level _ => (Expresses.name rule).ofOperand level
  | conj left right ihLeft ihRight =>
    simp only [isNormal, Bool.and_eq_true, Bool.not_eq_true'] at normal
    obtain ⟨⟨⟨⟨normalLeft, normalRight⟩, leftFits⟩, rightNoDisj⟩, rightNoConj⟩ := normal
    have derived : Expresses .tree .conjunction (conj left right).flatten (conj left right) :=
      .conj (ihLeft normalLeft .conjunction (by simp [fits, leftFits]))
        (ihRight normalRight .operand (by simp [fits, rightNoDisj, rightNoConj]))
    intro level fit
    cases level with
    | operand => simp [fits, isConj] at fit
    | conjunction => exact derived
    | disjunction => exact .conjunction derived
  | disj left right ihLeft ihRight =>
    simp only [isNormal, Bool.and_eq_true, Bool.not_eq_true'] at normal
    obtain ⟨⟨normalLeft, normalRight⟩, rightFits⟩ := normal
    intro level fit
    cases level with
    | operand => simp [fits, isDisj] at fit
    | conjunction => simp [fits, isDisj] at fit
    | disjunction =>
      exact .disj (ihLeft normalLeft .disjunction rfl)
        (ihRight normalRight .conjunction (by simp [fits, rightFits]))
  | neg child ih =>
    simp only [isNormal, Bool.and_eq_true, Bool.not_eq_true'] at normal
    obtain ⟨⟨normalChild, noDisj⟩, noConj⟩ := normal
    intro level _
    exact (Expresses.neg (ih normalChild .operand (by simp [fits, noDisj, noConj]))).ofOperand level
  | group child ih =>
    intro level _
    exact (Expresses.group (ih normal .disjunction rfl)).ofOperand level

/-- The trees of expressions are the normal trees over the same lexemes. -/
theorem expresses_tree_iff {ts : List Lexeme} {c : Condition} :
    Expresses .tree .disjunction ts c ↔ c.isNormal = true ∧ c.flatten = ts := by
  constructor
  · intro h
    obtain ⟨normal, flat, -⟩ := normal_of_expresses h
    exact ⟨normal, flat⟩
  · rintro ⟨normal, rfl⟩
    exact expresses_of_normal normal .disjunction rfl

/-! ### What trees mean -/

def Meaning.of {α : Type} (m : Meaning α) : Condition → α
  | .fired rule => m.fired rule
  | .conj left right => m.conj (m.of left) (m.of right)
  | .disj left right => m.disj (m.of left) (m.of right)
  | .neg child => m.neg (m.of child)
  | .group child => m.group (m.of child)

theorem truth_of (hasFired : String → Bool) (c : Condition) :
    (Meaning.truth hasFired).of c = c.evaluate hasFired := by
  induction c with
  | fired rule => rfl
  | conj left right ihLeft ihRight =>
    simp only [Meaning.of, evaluate, ← ihLeft, ← ihRight, Meaning.truth]
  | disj left right ihLeft ihRight =>
    simp only [Meaning.of, evaluate, ← ihLeft, ← ihRight, Meaning.truth]
  | neg child ih => simp only [Meaning.of, evaluate, ← ih, Meaning.truth]
  | group child ih => simp only [Meaning.of, evaluate, ← ih, Meaning.truth, id]

/-- What an expression means is what its tree means, and nothing else. -/
theorem expresses_iff_tree {α : Type} {m : Meaning α} {level : Level} {ts : List Lexeme} {a : α} :
    Expresses m level ts a ↔ ∃ c, Expresses .tree level ts c ∧ m.of c = a := by
  constructor
  · intro h
    induction h with
    | name rule => exact ⟨_, .name rule, rfl⟩
    | group _ ih =>
      obtain ⟨c, tree, rfl⟩ := ih
      exact ⟨_, .group tree, rfl⟩
    | neg _ ih =>
      obtain ⟨c, tree, rfl⟩ := ih
      exact ⟨_, .neg tree, rfl⟩
    | operand _ ih =>
      obtain ⟨c, tree, rfl⟩ := ih
      exact ⟨c, .operand tree, rfl⟩
    | conj _ _ ihLeft ihRight =>
      obtain ⟨left, treeLeft, rfl⟩ := ihLeft
      obtain ⟨right, treeRight, rfl⟩ := ihRight
      exact ⟨_, .conj treeLeft treeRight, rfl⟩
    | conjunction _ ih =>
      obtain ⟨c, tree, rfl⟩ := ih
      exact ⟨c, .conjunction tree, rfl⟩
    | disj _ _ ihLeft ihRight =>
      obtain ⟨left, treeLeft, rfl⟩ := ihLeft
      obtain ⟨right, treeRight, rfl⟩ := ihRight
      exact ⟨_, .disj treeLeft treeRight, rfl⟩
  · rintro ⟨c, tree, rfl⟩
    induction tree with
    | name rule => exact .name rule
    | group _ ih => exact .group ih
    | neg _ ih => exact .neg ih
    | operand _ ih => exact .operand ih
    | conj _ _ ihLeft ihRight => exact .conj ihLeft ihRight
    | conjunction _ ih => exact .conjunction ih
    | disj _ _ ihLeft ihRight => exact .disj ihLeft ihRight

end WeightedGrammar.Condition

import Mathlib.Logic.ExistsUnique
import WeightedGrammar.Generator

/-!
Derivation forests. A tree is a rule that fires, the item that it chooses, and the trees of the
rules that the item refers to. `Generator.IsDerivation` says what a pass is: its choices are made
along the forest in preorder, and all that it produces is read off the forest.
-/

namespace WeightedGrammar

/-! ### Writing a register -/

def Register.setAll {ν : Type} (r : Register ν) (writes : List (String × ν)) : Register ν :=
  writes.foldl (fun r w => r.set w.1 w.2) r

theorem Register.setAll_append {ν : Type} (r : Register ν) (first second : List (String × ν)) :
    r.setAll (first ++ second) = (r.setAll first).setAll second :=
  List.foldl_append

theorem Register.names_set {ν : Type} (r : Register ν) (name : String) (value : ν) :
    (r.set name value).names = if name ∈ r.names then r.names else r.names ++ [name] := by
  unfold Register.names
  rw [entries_set]
  generalize r.entries = es
  induction es with
  | nil => simp [put]
  | cons e es ih =>
    by_cases here : e.1 = name
    · simp [put, here]
    · simp only [put, here, if_false, List.map_cons, ih, List.mem_cons, Ne.symm here, false_or]
      split <;> rfl

/-- Names stand in the order of the first write of each. -/
theorem Register.names_setAll {ν : Type} (writes : List (String × ν)) :
    (({} : Register ν).setAll writes).names = (writes.map (·.1)).eraseDups := by
  rw [← List.reverse_reverse writes]
  induction writes.reverse with
  | nil => rfl
  | cons w ws ih =>
    rw [List.reverse_cons, setAll_append, List.map_append, List.eraseDups_append, ← ih]
    show ((_ : Register ν).set w.1 w.2).names = _
    rw [names_set]
    have known : w.1 ∈ (({} : Register ν).setAll ws.reverse).names ↔
        w.1 ∈ ws.reverse.map (·.1) := by
      rw [ih, List.mem_eraseDups]
    by_cases old : w.1 ∈ ws.reverse.map (·.1)
    · have gone : [w.1].removeAll (ws.reverse.map (·.1)) = [] := by
        rw [List.removeAll, List.filter_cons_of_neg (by simpa using old), List.filter_nil]
      rw [if_pos (known.mpr old), List.map_singleton, gone, List.eraseDups_nil, List.append_nil]
    · have kept : [w.1].removeAll (ws.reverse.map (·.1)) = [w.1] := by
        rw [List.removeAll, List.filter_cons_of_pos (by simpa using old), List.filter_nil]
      rw [if_neg fun found => old (known.mp found), List.map_singleton, kept]
      rfl

theorem Register.get?_setAll {ν : Type} (writes : List (String × ν)) (name : String) :
    (({} : Register ν).setAll writes).get? name = writes.reverse.lookup name := by
  rw [← List.reverse_reverse writes]
  induction writes.reverse with
  | nil => rfl
  | cons w ws ih =>
    rw [List.reverse_cons, setAll_append, List.reverse_append]
    show ((_ : Register ν).set w.1 w.2).get? name = (w :: _).lookup name
    rw [get?_set, List.lookup_cons, ih]
    by_cases same : name = w.1
    · simp [same]
    · simp [same, beq_eq_false_iff_ne.mpr same]

/-! ### Firings -/

variable {ω σ : Type}

/-- A rule that fires at a depth, and the place of the item that it chooses. -/
structure Firing (ω : Type) where
  depth : Nat
  rule : Rule ω
  choice : Option Nat

def Rule.chosen? (rule : Rule ω) (choice : Option Nat) : Option (Item ω) :=
  choice.bind (rule.items[·]?)

/-- The elements to expand behind a choice; none behind nothing. -/
def Rule.elementsOf (rule : Rule ω) (choice : Option Nat) : List Element :=
  ((rule.chosen? choice).map (·.elements)).getD []

/-- The value of a state of an item: its own, or else, in an unconditional rule, that of the first
element. -/
def Rule.stateValue? (rule : Rule ω) (item : Item ω) (s : StateExpr) : Option String :=
  s.value <|> if rule.conditional then none else item.impliedValue?

def Rule.stateWarning (rule : Rule ω) (s : StateExpr) : Warning :=
  if rule.conditional then .conditionalItem rule.name s.key else .noElement rule.name s.key

/-- The states that the rule itself sets: one without a value takes the name of the rule. -/
def Rule.ownAssignments (rule : Rule ω) : List (String × String) :=
  rule.states.map fun s => (s.key, s.value.getD rule.name)

def Rule.itemAssignments (rule : Rule ω) (item : Item ω) : List (String × String) :=
  item.states.filterMap fun s => (rule.stateValue? item s).map (s.key, ·)

def Rule.itemWarnings (rule : Rule ω) (item : Item ω) : List Warning :=
  (item.states.filter fun s => (rule.stateValue? item s).isNone).map rule.stateWarning

namespace Firing

def write (f : Firing ω) : String × Option Nat := (f.rule.name, f.choice)

/-- The states set: those of the rule, whatever it chose, and then those of the item. -/
def assignments (f : Firing ω) : List (String × String) :=
  f.rule.ownAssignments ++ ((f.rule.chosen? f.choice).map f.rule.itemAssignments).getD []

def warnings (f : Firing ω) : List Warning :=
  ((f.rule.chosen? f.choice).map f.rule.itemWarnings).getD []

/-- The notes taken: the firing itself if the pass is traced, and each warning. -/
def notes (trace : Bool) (f : Firing ω) : List Note :=
  (if trace then [.fired f.depth f.rule.name f.choice] else []) ++ f.warnings.map .warned

end Firing

/-! ### Forests -/

/-- Trees in order. The first one has a rule at its root, and the item that it chose. -/
inductive Forest (ω : Type) where
  | nil
  | tree (rule : Rule ω) (choice : Option Nat) (children siblings : Forest ω)

def Grammar.referred (g : Grammar ω) : List Element → List (Option (Rule ω))
  | [] => []
  | .literal _ :: es => g.referred es
  | .ref _ index :: es => g.rules[index]? :: g.referred es

/-- One row of literals, with a row from `ys` in place of every rule. -/
def weave {α : Type} (leaf : String → α) : List Element → List (List α) → List α
  | .literal text :: es, ys => leaf text :: weave leaf es ys
  | .ref _ _ :: es, y :: ys => y ++ weave leaf es ys
  | _, _ => []

namespace Forest

def roots : Forest ω → List (Rule ω)
  | nil => []
  | tree rule _ _ siblings => rule :: siblings.roots

/-- The firings in preorder; the roots are at the given depth. -/
def firings : Nat → Forest ω → List (Firing ω)
  | _, nil => []
  | depth, tree rule choice children siblings =>
    ⟨depth, rule, choice⟩ :: (children.firings (depth + 1) ++ siblings.firings depth)

/-- The literals below each root, from left to right. -/
def yields : Forest ω → List (List String)
  | nil => []
  | tree rule choice children siblings =>
    weave id (rule.elementsOf choice) children.yields :: siblings.yields

def height : Forest ω → Nat
  | nil => 0
  | tree _ _ children siblings => max (children.height + 1) siblings.height

/-- Every choice is that of an item of the rule, and the children of a root are the rules that the
item refers to. -/
def IsShaped (g : Grammar ω) : Forest ω → Prop
  | nil => True
  | tree rule choice children siblings =>
    (∀ place ∈ choice, place < rule.items.length) ∧
      children.roots.map some = g.referred (rule.elementsOf choice) ∧
      children.IsShaped g ∧ siblings.IsShaped g

end Forest

/-- A forest is no higher than the room if and only if all its firings are above the bottom. -/
theorem Forest.height_le_iff {forest : Forest ω} {room : Nat} (depth : Nat) :
    forest.height ≤ room ↔ ∀ f ∈ forest.firings depth, f.depth < depth + room := by
  induction forest generalizing room depth with
  | nil => simp [height, firings]
  | tree rule choice children siblings ihChildren ihSiblings =>
    rw [height, firings, Nat.max_le, List.forall_mem_cons, List.forall_mem_append, ← ihSiblings depth]
    cases room with
    | zero => simp
    | succ room =>
      rw [Nat.add_le_add_iff_right, ihChildren (depth + 1), Nat.succ_add_eq_add_succ]
      simp

/-! ### Guards -/

/-- A rule may fire at the depth. -/
def Settings.Permits (s : Settings) (depth : Nat) : Prop :=
  ∀ limit ∈ s.maxDepth, (depth : Int) < limit

theorem Settings.permits_of_lt_room {s : Settings} {unguarded depth : Nat}
    (h : depth < s.room unguarded) : s.Permits depth := by
  intro limit guarded
  simp only [Settings.room, Option.mem_def.mp guarded] at h
  omega

/-- A forest has room in a pass if the guard permits all its firings; without a guard, if it is no
higher than what the pass is given. -/
theorem Settings.height_le_room_iff {s : Settings} {unguarded : Nat} {forest : Forest ω} :
    forest.height ≤ s.room unguarded ↔
      (∀ f ∈ forest.firings 0, s.Permits f.depth) ∧
        (s.maxDepth = none → forest.height ≤ unguarded) := by
  cases guard : s.maxDepth with
  | none => simp [Settings.room, Settings.Permits, guard]
  | some limit =>
    have bottom : s.room unguarded = limit.toNat := by simp only [Settings.room, guard]
    have permits : ∀ depth, s.Permits depth ↔ depth < limit.toNat := by
      intro depth
      simp only [Settings.Permits, guard, Option.mem_some_iff, forall_eq', Int.lt_toNat]
    rw [bottom, Forest.height_le_iff 0]
    simp [permits]

/-! ### Choices -/

def Rule.IsGated (rule : Rule ω) : Prop :=
  rule.conditional = true → ∀ item ∈ rule.items, item.condition.isSome = true

variable [Scalar ω] [Supply σ ω]

/-- The rule chooses among the items that compete, by the next draw; it takes no draw when none
does. The number of draws taken stands before the supply that is left. -/
inductive Rule.Chooses (rule : Rule ω) (hasFired : String → Bool) (supply : σ) :
    Option Nat → Nat → σ → Prop where
  | nothing (idle : rule.ballot? hasFired = none) : Chooses rule hasFired supply none 0 supply
  | drawn {ballot : Ballot ω} (competing : rule.ballot? hasFired = some ballot) :
      Chooses rule hasFired supply (ballot.pick (Supply.draw supply).1) 1 (Supply.draw supply).2

/-- Firings one after the other, each with the choice that its rule makes when the rules in front
have fired, and with the next draw. -/
inductive Chosen : List String → σ → List (Firing ω) → Nat → σ → Prop where
  | nil (earlier : List String) (supply : σ) : Chosen earlier supply [] 0 supply
  | cons {earlier : List String} {supply mid after : σ} {f : Firing ω} {fs : List (Firing ω)}
      {taken more : Nat} (gated : f.rule.IsGated)
      (chooses : f.rule.Chooses (earlier.contains ·) supply f.choice taken mid)
      (rest : Chosen (earlier ++ [f.rule.name]) mid fs more after) :
      Chosen earlier supply (f :: fs) (taken + more) after

/-! ### Derivations -/

/-- The rules of the names, or the top rule if there is no name. -/
def Grammar.starts (g : Grammar ω) (start : List String) : List (Option (Rule ω)) :=
  if start.isEmpty then [g.top?] else start.map g.lookup?

/-- The record and the generator after a pass are those of the forest. -/
structure Generator.IsDerivation (gen : Generator σ ω) (start : List String) (forest : Forest ω)
    (record : Record) (after : Generator σ ω) : Prop where
  roots : forest.roots.map some = gen.grammar.starts start
  shaped : forest.IsShaped gen.grammar
  permitted : ∀ f ∈ forest.firings 0, gen.settings.Permits f.depth
  chosen : Chosen [] gen.supply (forest.firings 0) record.draws after.supply
  tokens : record.tokens.toList = forest.yields.flatten
  fired : record.fired = ({} : Register (Option Nat)).setAll ((forest.firings 0).map (·.write))
  states : record.states =
    ({} : Register String).setAll ((forest.firings 0).flatMap (·.assignments))
  warnings : record.warnings.toList = (forest.firings 0).flatMap (·.warnings)
  notes : record.notes.toList = (forest.firings 0).flatMap (·.notes gen.settings.trace)
  unchanged : after = { gen with supply := after.supply }

end WeightedGrammar

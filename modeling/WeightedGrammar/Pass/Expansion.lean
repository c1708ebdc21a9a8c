import WeightedGrammar.Grammar.Basic
import WeightedGrammar.Pass.Record
import WeightedGrammar.Random.Supply
import WeightedGrammar.Selection.Ballot

/-!
Generation passes. A rule fires: it chooses an item, its own states and those of the item are set,
and the elements of the item are expanded in order, each rule among them firing in turn one level
deeper. The number of levels is bounded by the room that a pass is given; `Grammar.run` is a whole
pass.
-/

namespace WeightedGrammar

/-- What a grammar that was not loaded from text can lack. -/
inductive GrammarFault where
  | noCondition
  | noItem (place : Nat)
  | noRule (place : Nat)
  deriving DecidableEq, Repr

inductive PassError where
  | unknownStart (name : String)
  | noRules
  | depthExceeded (rule : String) (limit : Int)
  | roomExhausted (rule : String)
  | illFormed (rule : String) (fault : GrammarFault)
  deriving DecidableEq, Repr

def PassError.message : PassError → String
  | unknownStart name => s!"no rule named '{name}'"
  | noRules => "grammar has no rules"
  | depthExceeded rule limit => s!"expansion of '{rule}' exceeded max depth {limit}"
  | roomExhausted rule => s!"expansion of '{rule}' ran out of room"
  | illFormed rule .noCondition => s!"rule '{rule}' has an item without a condition"
  | illFormed rule (.noItem place) => s!"rule '{rule}' has no item {place}"
  | illFormed rule (.noRule place) => s!"there is no rule {place} for a reference to '{rule}'"

/-- How passes are run: the guard on the depth of rules, if any, and whether firings are noted. -/
structure Settings where
  maxDepth : Option Int := some 50
  trace : Bool := false
  deriving DecidableEq, Repr

/-- The levels of rules that a guard allows; without a guard the pass has what it is given. -/
def Settings.room (s : Settings) (unguarded : Nat) : Nat :=
  match s.maxDepth with
  | some limit => limit.toNat
  | none => unguarded

def Settings.cut (s : Settings) (rule : String) : PassError :=
  match s.maxDepth with
  | some limit => .depthExceeded rule limit
  | none => .roomExhausted rule

/-- The state of a pass: what it has produced, and the draws it has left. -/
structure Progress (σ : Type) where
  record : Record
  supply : σ

/-- Steps of a pass. An aborted pass keeps its state up to the error. -/
abbrev PassM (σ : Type) := EStateM PassError (Progress σ)

namespace PassM
variable {σ : Type}

def update (f : Record → Record) : PassM σ Unit := modify fun p => { p with record := f p.record }

def liftExcept {α : Type} : Except PassError α → PassM σ α
  | .ok a => pure a
  | .error e => throw e

def draw {ω : Type} [Supply σ ω] : PassM σ ω := fun p =>
  let (value, rest) := Supply.draw p.supply
  .ok value ⟨p.record.countDraw, rest⟩

end PassM

/-! ### Firing -/

variable {ω σ : Type}

/-- Chooses an item of a rule, or nothing. Nothing is drawn when no item competes. -/
def Rule.chooseItem [Scalar ω] [Supply σ ω] (rule : Rule ω) : PassM σ (Option Nat) := do
  if rule.conditional && rule.items.any (·.condition.isNone) then
    throw (.illFormed rule.name .noCondition)
  match rule.ballot? (← get).record.hasFired with
  | none => return none
  | some ballot => return ballot.pick (← PassM.draw)

/-- The effect of a state expression of a rule, or of an item of it. Without a value of its own, a
state of the rule takes the name of the rule, and a state of an item the value of its first element.
Items of conditional rules have none to give. -/
def Record.setState (rule : Rule ω) (item : Option (Item ω)) (r : Record) (s : StateExpr) :
    Record :=
  match s.value, item with
  | some value, _ => r.assign s.key value
  | none, none => r.assign s.key rule.name
  | none, some it =>
    if rule.conditional then r.warn (.conditionalItem rule.name s.key)
    else
      match it.impliedValue? with
      | some value => r.assign s.key value
      | none => r.warn (.noElement rule.name s.key)

def PassM.setStates (rule : Rule ω) (item : Option (Item ω)) (states : List StateExpr) :
    PassM σ Unit :=
  PassM.update fun r => states.foldl (Record.setState rule item) r

/-- Opens a rule at a depth: chooses an item, records the firing, and sets the states of the rule
and of the item. Gives the elements that are left to expand. -/
def Rule.enter [Scalar ω] [Supply σ ω] (rule : Rule ω) (s : Settings) (depth : Nat) :
    PassM σ (List Element) := do
  let choice ← rule.chooseItem
  PassM.update (·.fire rule.name choice)
  if s.trace then PassM.update (·.note (.fired depth rule.name choice))
  PassM.setStates rule none rule.states
  match choice with
  | none => return []
  | some place =>
    match rule.items[place]? with
    | none => throw (.illFormed rule.name (.noItem place))
    | some item =>
      PassM.setStates rule (some item) item.states
      return item.elements

/-- Expands an element: a literal is a token, a rule fires in the way given. -/
def Grammar.expand (g : Grammar ω) (fire : Rule ω → PassM σ Unit) : Element → PassM σ Unit
  | .literal text => PassM.update (·.emit text)
  | .ref name index =>
    match g.rules[index]? with
    | none => throw (.illFormed name (.noRule index))
    | some rule => fire rule

/-- Fires a rule at a depth, with room for so many levels. The rule counts as fired before its item
is expanded, and the rules of the item fire one level deeper. -/
def Grammar.fire [Scalar ω] [Supply σ ω] (g : Grammar ω) (s : Settings) :
    Nat → Nat → Rule ω → PassM σ Unit
  | 0, _, rule => throw (s.cut rule.name)
  | room + 1, depth, rule => do
    let elements ← rule.enter s depth
    elements.forM (g.expand (g.fire s room (depth + 1)))

/-! ### Whole passes -/

/-- The rules that a pass starts from: those named, or else the top rule. -/
def Grammar.startRules (g : Grammar ω) (start : List String) :
    Except PassError (List (Rule ω)) :=
  if start.isEmpty then
    match g.top? with
    | some rule => .ok [rule]
    | none => .error .noRules
  else
    start.mapM fun name =>
      match g.lookup? name with
      | some rule => .ok rule
      | none => .error (.unknownStart name)

def Grammar.run [Scalar ω] [Supply σ ω] (g : Grammar ω) (s : Settings) (room : Nat)
    (start : List String) : PassM σ Unit := do
  let rules ← PassM.liftExcept (g.startRules start)
  rules.forM (g.fire s room 0)

end WeightedGrammar

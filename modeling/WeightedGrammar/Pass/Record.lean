import WeightedGrammar.Register

/-!
What a generation pass produces: tokens, states, the item that each rule fired with, warnings, and
notes for a log.
-/

namespace WeightedGrammar

/-- Why a state expression without a value was skipped. -/
inductive Warning where
  | conditionalItem (rule state : String)
  | noElement (rule state : String)
  deriving DecidableEq, Repr

def Warning.message : Warning → String
  | conditionalItem rule state =>
    s!"rule '{rule}': state '{state}' on a conditional item needs an explicit value "
      ++ s!"(={state}=Value); skipped"
  | noElement rule state =>
    s!"rule '{rule}': state '{state}' has no element to take its value from; skipped"

/-- A line of the log: a rule that fired at some depth, with its item or with nothing; or a
warning. -/
inductive Note where
  | fired (depth : Nat) (rule : String) (choice : Option Nat)
  | warned (warning : Warning)
  deriving DecidableEq, Repr

def choiceText : Option Nat → String
  | none => "nothing"
  | some item => s!"item {item}"

/-- The text of a note. Firings are indented by two blanks a level. -/
def Note.text : Note → String
  | fired depth rule choice =>
    String.ofList (List.replicate (2 * depth) ' ') ++ s!"fire {rule} -> " ++ choiceText choice
  | warned warning => warning.message

/-- What a pass has produced so far. `fired` holds every rule that fired, with the item it last
fired with; `draws` counts the draws taken. -/
structure Record where
  tokens : Array String := #[]
  states : Register String := {}
  fired : Register (Option Nat) := {}
  warnings : Array Warning := #[]
  notes : Array Note := #[]
  draws : Nat := 0
  deriving DecidableEq, Repr

namespace Record

def text (r : Record) : String := " ".intercalate r.tokens.toList

def hasFired (r : Record) (rule : String) : Bool := r.fired.contains rule

def firedItem? (r : Record) (rule : String) : Option Nat := (r.fired.get? rule).join

def emit (r : Record) (token : String) : Record := { r with tokens := r.tokens.push token }

def assign (r : Record) (state value : String) : Record :=
  { r with states := r.states.set state value }

/-- Adds a warning, which is also noted. -/
def warn (r : Record) (warning : Warning) : Record :=
  { r with warnings := r.warnings.push warning, notes := r.notes.push (.warned warning) }

def fire (r : Record) (rule : String) (choice : Option Nat) : Record :=
  { r with fired := r.fired.set rule choice }

def note (r : Record) (n : Note) : Record := { r with notes := r.notes.push n }

def countDraw (r : Record) : Record := { r with draws := r.draws + 1 }

end Record

end WeightedGrammar

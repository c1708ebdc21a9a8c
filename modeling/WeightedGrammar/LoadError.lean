import WeightedGrammar.Condition.Basic
import WeightedGrammar.Token.Basic

/-!
What can be wrong with rule text. A `LoadError` holds the line and the cause; the wording of every
cause is in `LoadCause.message`.
-/

namespace WeightedGrammar

/-- Where a rule is mentioned: among the elements of a rule or in one of its conditions. -/
inductive MentionPlace where
  | element
  | condition
  deriving DecidableEq, Repr

/-- The cause of a rejection. `rule` is the rule being read, `found` a lexeme that does not fit. -/
inductive LoadCause where
  | unterminatedLiteral
  | unexpectedCharacter (c : Char)
  | noRuleName (found : Lexeme)
  | noBrace (rule : String) (found : Lexeme)
  | unclosedRule (rule : String)
  | strayInBlock (rule : String) (found : Lexeme)
  | strayInItem (rule : String) (found : Lexeme)
  | statesNotLast (rule : String)
  | emptyItem (rule : String)
  | emptyBlock (rule : String) (condition : Condition)
  | invalidWeight (rule : String) (text : String)
  | weightNotPositive (rule : String) (text : String)
  | duplicateRule (rule : String) (firstLine : Nat)
  | undefinedRule (name : String) (place : MentionPlace) (rule : String)
  | weightAboveHundred (rule : String) (text : String)
  | weightsAboveHundred (rule : String) (sum : String)
  | nothingLeft (rule : String) (unweighted : Nat)
  | emptyCondition
  | noOperand
  | operandExpected (found : Lexeme)
  | unclosedGroup (found : Lexeme)
  | unopenedGroup
  | trailing (found : Lexeme)
  | noCondition (rule : String) (found : Lexeme)
  | itemWithoutCondition (rule : String)
  | conditionWithoutItem (rule : String) (condition : Condition)
  deriving DecidableEq, Repr

inductive LoadErrorKind where
  | structural | duplicateName | undefinedName | weightSum | malformedCondition | missingCondition
  deriving DecidableEq, Repr

def LoadCause.kind : LoadCause → LoadErrorKind
  | unterminatedLiteral | unexpectedCharacter _ | noRuleName _ | noBrace _ _ | unclosedRule _
  | strayInBlock _ _ | strayInItem _ _ | statesNotLast _ | emptyItem _ | emptyBlock _ _
  | invalidWeight _ _ | weightNotPositive _ _ => .structural
  | duplicateRule _ _ => .duplicateName
  | undefinedRule _ _ _ => .undefinedName
  | weightAboveHundred _ _ | weightsAboveHundred _ _ | nothingLeft _ _ => .weightSum
  | emptyCondition | noOperand | operandExpected _ | unclosedGroup _ | unopenedGroup | trailing _
  | noCondition _ _ => .malformedCondition
  | itemWithoutCondition _ | conditionWithoutItem _ _ => .missingCondition

/-- The wording for a name that is no rule, with the context of the mention if there is one. -/
def undefinedRuleMessage (name context : String) : String :=
  let place := if context.isEmpty then "" else " in " ++ context
  s!"undefined rule '{name}'" ++ place

def MentionPlace.context (rule : String) : MentionPlace → String
  | element => s!"rule '{rule}'"
  | condition => s!"condition of rule '{rule}'"

def LoadCause.message : LoadCause → String
  | unterminatedLiteral => "unterminated literal"
  | unexpectedCharacter c => "unexpected character " ++ Text.quoted (String.singleton c)
  | noRuleName found => "expected a rule name but found " ++ found.describe
  | noBrace rule found => s!"expected '\x7b' after rule '{rule}' but found " ++ found.describe
  | unclosedRule rule => s!"missing '\x7d' to close rule '{rule}'"
  | strayInBlock rule found =>
    "unexpected " ++ found.describe ++ s!" in rule '{rule}': conditions need a conditional rule "
      ++ s!"('{rule} ? \x7b')"
  | strayInItem rule found => "unexpected " ++ found.describe ++ s!" in item of rule '{rule}'"
  | statesNotLast rule => s!"state expressions must come last in an item of rule '{rule}'"
  | emptyItem rule => s!"empty item in rule '{rule}'"
  | emptyBlock rule condition =>
    "block '" ++ condition.toText ++ s!" \x7b \x7d' in rule '{rule}' has no items"
  | invalidWeight rule text => s!"invalid weight '%{text}' in rule '{rule}'"
  | weightNotPositive rule text => s!"weight '%{text}' in rule '{rule}' must be greater than 0"
  | duplicateRule rule firstLine => s!"rule '{rule}' already defined on line {firstLine}"
  | undefinedRule name place rule => undefinedRuleMessage name (place.context rule)
  | weightAboveHundred rule text => s!"weight '%{text}' in rule '{rule}' is above 100"
  | weightsAboveHundred rule sum => s!"weights of rule '{rule}' sum to {sum}, above 100"
  | nothingLeft rule unweighted =>
    s!"weights of rule '{rule}' sum to 100, leaving nothing for its {unweighted} unweighted item(s)"
  | emptyCondition => "empty expression"
  | noOperand => "empty expression or unbalanced ')'"
  | operandExpected found => "expected a rule name but found " ++ found.describe
  | unclosedGroup found => "unbalanced parentheses: expected ')' but found " ++ found.describe
  | unopenedGroup => "unbalanced parentheses: unexpected ')'"
  | trailing found => "unexpected " ++ found.describe ++ " after expression"
  | noCondition rule found =>
    s!"expected a condition in rule '{rule}' but found " ++ found.describe
  | itemWithoutCondition rule => s!"item in conditional rule '{rule}' has no condition"
  | conditionWithoutItem rule condition =>
    "'" ++ condition.toText ++ s!"' in conditional rule '{rule}' has no item; "
      ++ "write 'condition item' or 'condition \x7b items \x7d'"

/-- A cause and the line that it is found on. -/
structure LoadError where
  line : Nat
  cause : LoadCause
  deriving DecidableEq, Repr

/-- A message with its line in front; line zero stands for no line. -/
def located (line : Int) (message : String) : String :=
  if line = 0 then message else s!"line {line}: " ++ message

def LoadError.text (e : LoadError) : String := located e.line e.cause.message

end WeightedGrammar

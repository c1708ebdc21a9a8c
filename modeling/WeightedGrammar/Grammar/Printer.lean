import WeightedGrammar.Grammar.Basic
import WeightedGrammar.Token.Lexer

/-!
The written form of grammars. Blocks of a conditional rule are written item by item, each with its
condition; a text stands between double quotes if it holds a single quote.
-/

namespace WeightedGrammar

/-- A text between quotes: double ones if it holds a single one. Nothing is escaped. -/
def enquote (text : String) : String :=
  if text.toList.contains '\'' then "\"" ++ text ++ "\"" else "'" ++ text ++ "'"

def isPlainChar (c : Char) : Bool :=
  Lexeme.isValueChar c && c != '#' && c != '/' && c != '%'

/-- A value that is written without quotes: plain characters, and perhaps a line feed at the end. -/
def isPlainValue (value : String) : Bool :=
  let cs := value.toList
  let body := if cs.getLast? == some '\n' then cs.dropLast else cs
  !body.isEmpty && body.all isPlainChar

def Element.toText : Element → String
  | literal text => enquote text
  | ref name _ => name

def StateExpr.toText (s : StateExpr) : String :=
  match s.value with
  | none => "=" ++ s.key
  | some value => "=" ++ s.key ++ "=" ++ (if isPlainValue value then value else enquote value)

variable {ω : Type} [Scalar ω]

/-- The parts of an item, in the order of writing: condition, weight, elements, states. -/
def Item.parts (item : Item ω) : List String :=
  (item.condition.map (·.toText)).toList ++
    (item.weight.map fun w => "%" ++ Scalar.text w).toList ++
    item.elements.map (·.toText) ++ item.states.map (·.toText)

def Item.toText (item : Item ω) : String := " ".intercalate item.parts

/-- The lines of a rule. States of the rule share one line. -/
def Rule.lines (rule : Rule ω) : List String :=
  let head := rule.name ++ (if rule.conditional then " ? \x7b" else " \x7b")
  let states := " ".intercalate (rule.states.map (·.toText))
  head :: (if rule.states.isEmpty then [] else ["    " ++ states]) ++
    rule.items.map (fun item => "    " ++ item.toText) ++ ["\x7d"]

def Rule.toText (rule : Rule ω) : String := "\n".intercalate rule.lines

namespace Grammar

/-- The written form of a grammar: its rules with an empty line between them. -/
def toText (g : Grammar ω) : String := "\n\n".intercalate (g.rules.map (·.toText)) ++ "\n"

def summary {ω : Type} (g : Grammar ω) : String :=
  "Grammar(name=" ++ Text.quoted g.name ++ ", rules=["
    ++ ", ".intercalate (g.names.map Text.quoted) ++ "])"

def loadedMessage {ω : Type} (g : Grammar ω) : String :=
  "Loaded grammar " ++ Text.quoted g.name ++ s!" with {g.rules.length} rules"

end Grammar

end WeightedGrammar

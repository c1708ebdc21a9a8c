import WeightedGrammar.Text.Quoted

/-!
Lexemes of rule text, and tokens: lexemes with the line that they stand on.
-/

namespace WeightedGrammar

/-- The character that breaks a line. -/
inductive LineMark where
  | feed
  | semicolon
  deriving DecidableEq, Repr

/-- A unit of rule text. A literal and a state value are held without their quotes, a weight
without its percent sign. -/
inductive Lexeme where
  | name (text : String)
  | literal (text : String)
  | weight (text : String)
  | state (key : String) (value : Option String)
  | openBrace
  | closeBrace
  | question
  | andSign
  | orSign
  | notSign
  | openParen
  | closeParen
  | lineBreak (mark : LineMark)
  | endOfInput
  deriving DecidableEq, Repr

inductive LexemeKind where
  | name | literal | weight | state
  | openBrace | closeBrace | question | andSign | orSign | notSign | openParen | closeParen
  | lineBreak | endOfInput
  deriving DecidableEq, Repr

def LexemeKind.all : List LexemeKind :=
  [name, literal, weight, state, openBrace, closeBrace, question, andSign, orSign, notSign,
   openParen, closeParen, lineBreak, endOfInput]

/-- The label of a kind; a sign is its own. -/
def LexemeKind.label : LexemeKind → String
  | name => "name"
  | literal => "literal"
  | weight => "weight"
  | state => "state"
  | openBrace => "\x7b"
  | closeBrace => "\x7d"
  | question => "?"
  | andSign => "&&"
  | orSign => "||"
  | notSign => "!"
  | openParen => "("
  | closeParen => ")"
  | lineBreak => "newline"
  | endOfInput => "eof"

namespace Lexeme

def kind : Lexeme → LexemeKind
  | name _ => .name
  | literal _ => .literal
  | weight _ => .weight
  | state _ _ => .state
  | openBrace => .openBrace
  | closeBrace => .closeBrace
  | question => .question
  | andSign => .andSign
  | orSign => .orSign
  | notSign => .notSign
  | openParen => .openParen
  | closeParen => .closeParen
  | lineBreak _ => .lineBreak
  | endOfInput => .endOfInput

/-- How messages name the lexeme. -/
def describe : Lexeme → String
  | name text => text
  | literal text => Text.quoted text
  | weight text => "%" ++ text
  | state key none => "=" ++ key
  | state key (some value) => "=" ++ key ++ "=" ++ value
  | lineBreak _ => "end of line"
  | endOfInput => "end of input"
  | sign => sign.kind.label

def lineAfter (line : Nat) : Lexeme → Nat
  | lineBreak .feed => line + 1
  | _ => line

end Lexeme

/-- A lexeme and the line that it stands on, counted from one. -/
structure Token where
  lexeme : Lexeme
  line : Nat
  deriving DecidableEq, Repr

namespace Token

/-- The token at the front of a row of tokens. Behind the last one there is the end of input. -/
def front (ts : List Token) : Token := ts.headD ⟨.endOfInput, 0⟩

def skipBreaks : List Token → List Token
  | ⟨.lineBreak _, _⟩ :: ts => skipBreaks ts
  | ts => ts

end Token

end WeightedGrammar

import WeightedGrammar.Token.Basic

/-!
A cursor over tokens, with one token of lookahead. It stands on the end of input at the latest and
stays there.
-/

namespace WeightedGrammar

/-- A place in a row of tokens: how many are behind it, and those ahead. -/
structure Cursor where
  position : Nat
  ahead : List Token
  deriving DecidableEq, Repr

namespace Cursor

def ofTokens (ts : List Token) : Cursor := ⟨0, ts⟩

def peek? (c : Cursor) : Option Token := c.ahead.head?

/-- The cursor behind the current token; it does not leave the end of input. -/
def advance (c : Cursor) : Cursor :=
  match c.ahead with
  | [] => c
  | t :: rest => if t.lexeme = .endOfInput then c else ⟨c.position + 1, rest⟩

/-- Takes a token of the given kind, if the cursor stands on one. -/
def accept (kind : LexemeKind) (c : Cursor) : Option Token × Cursor :=
  match c.peek? with
  | some t => if t.lexeme.kind = kind then (some t, c.advance) else (none, c)
  | none => (none, c)

/-- The cursor on the first token that is not a line break. -/
def skipBreaks (c : Cursor) : Cursor :=
  let rest := Token.skipBreaks c.ahead
  ⟨c.position + (c.ahead.length - rest.length), rest⟩

end Cursor

end WeightedGrammar

import WeightedGrammar.Token.Lexer

/-!
Reading a condition off a row of tokens. `!` binds tighter than `&&`, which binds tighter than
`||`; both group to the left. The reader goes over the tokens once and keeps, for every open
parenthesis, what stands to its left. It stops at the first token that cannot go on with the
expression and leaves that token (`length_of_read`: it takes at least one).
-/

namespace WeightedGrammar.Condition

/-- What stands to the left of an operand within its parentheses: the operand of a waiting `||`,
that of a waiting `&&`, and a number of `!`. -/
structure Pending where
  disjunct : Option Condition := none
  conjunct : Option Condition := none
  negations : Nat := 0
  deriving DecidableEq, Repr

def Pending.conjoin (p : Pending) (operand : Condition) : Condition :=
  let negated := Nat.repeat neg p.negations operand
  match p.conjunct with
  | none => negated
  | some left => conj left negated

def disjoin (disjunct : Option Condition) (operand : Condition) : Condition :=
  match disjunct with
  | none => operand
  | some left => disj left operand

mutual

/-- Goes on where an operand is due. -/
def readOperand (here : Pending) (outer : List Pending) :
    List Token → Except LoadError (Condition × List Token)
  | [] => .error ⟨0, .operandExpected .endOfInput⟩
  | t :: ts =>
    match t.lexeme with
    | .name rule => readOperator here.disjunct (here.conjoin (fired rule)) outer ts
    | .notSign => readOperand { here with negations := here.negations + 1 } outer ts
    | .openParen => readOperand {} (here :: outer) ts
    | .closeParen => .error ⟨t.line, .noOperand⟩
    | found => .error ⟨t.line, .operandExpected found⟩

/-- Goes on behind an operand, which completes the conjunction `current`. -/
def readOperator (disjunct : Option Condition) (current : Condition) (outer : List Pending) :
    List Token → Except LoadError (Condition × List Token)
  | [] =>
    match outer with
    | [] => .ok (disjoin disjunct current, [])
    | _ :: _ => .error ⟨0, .unclosedGroup .endOfInput⟩
  | t :: ts =>
    match t.lexeme, outer with
    | .andSign, _ => readOperand ⟨disjunct, some current, 0⟩ outer ts
    | .orSign, _ => readOperand ⟨some (disjoin disjunct current), none, 0⟩ outer ts
    | .closeParen, p :: outer' =>
      readOperator p.disjunct (p.conjoin (group (disjoin disjunct current))) outer' ts
    | found, _ :: _ => .error ⟨t.line, .unclosedGroup found⟩
    | _, [] => .ok (disjoin disjunct current, t :: ts)

end

/-- Reads a condition from the front of a row of tokens; also gives the tokens behind it. -/
def read (ts : List Token) : Except LoadError (Condition × List Token) := readOperand {} [] ts

/-- The condition that a text holds, and nothing but it. -/
def ofText (text : String) : Except LoadError Condition := do
  let ts := Token.skipBreaks (← Token.ofText text)
  if (Token.front ts).lexeme = .endOfInput then
    throw ⟨(Token.front ts).line, .emptyCondition⟩
  let (condition, behind) ← read ts
  let next := Token.front (Token.skipBreaks behind)
  match next.lexeme with
  | .endOfInput => return condition
  | .closeParen => throw ⟨next.line, .unopenedGroup⟩
  | found => throw ⟨next.line, .trailing found⟩

/-! ### What reading leaves -/

mutual

theorem length_of_readOperand {here : Pending} {outer : List Pending} :
    ∀ {ts rest : List Token} {c : Condition}, readOperand here outer ts = .ok (c, rest) →
      rest.length < ts.length
  | [], _, _, h => by simp [readOperand] at h
  | t :: ts, rest, c, h => by
    simp only [readOperand] at h
    split at h
    · exact Nat.lt_succ_of_le (length_of_readOperator h)
    · exact Nat.lt_succ_of_lt (length_of_readOperand h)
    · exact Nat.lt_succ_of_lt (length_of_readOperand h)
    · simp at h
    · simp at h

theorem length_of_readOperator {disjunct : Option Condition} {current : Condition}
    {outer : List Pending} :
    ∀ {ts rest : List Token} {c : Condition},
      readOperator disjunct current outer ts = .ok (c, rest) → rest.length ≤ ts.length
  | [], rest, c, h => by
    simp only [readOperator] at h
    split at h
    · simp only [Except.ok.injEq, Prod.mk.injEq] at h
      exact h.2 ▸ Nat.le_refl _
    · simp at h
  | t :: ts, rest, c, h => by
    simp only [readOperator] at h
    split at h
    · exact Nat.le_succ_of_le (Nat.le_of_lt (length_of_readOperand h))
    · exact Nat.le_succ_of_le (Nat.le_of_lt (length_of_readOperand h))
    · exact Nat.le_succ_of_le (length_of_readOperator h)
    · simp at h
    · simp only [Except.ok.injEq, Prod.mk.injEq] at h
      exact h.2 ▸ Nat.le_refl _

end

theorem length_of_read {ts rest : List Token} {c : Condition} (h : read ts = .ok (c, rest)) :
    rest.length < ts.length :=
  length_of_readOperand h

end WeightedGrammar.Condition

import WeightedGrammar.Condition.Reader
import WeightedGrammar.Grammar.Basic

/-!
Rules as they are read from tokens, before their names are looked up. `readItem` reads one item. A
reader takes a row of tokens and gives what it read with the tokens behind it; `length_of_readItem`
says that those are fewer.
-/

namespace WeightedGrammar

/-- An element that is not yet looked up: a literal, or a rule name and its line. -/
inductive Mention where
  | literal (text : String)
  | rule (name : String) (line : Nat)
  deriving DecidableEq, Repr

/-- An item before its mentions are looked up, with the line that it begins on. -/
structure ItemDraft (ω : Type) where
  line : Nat
  weight : Option ω
  mentions : List Mention
  condition : Option Condition
  states : List StateExpr

structure BodyDraft (ω : Type) where
  items : List (ItemDraft ω) := []
  states : List StateExpr := []

/-- A rule before its mentions are looked up, with the line of its name. -/
structure RuleDraft (ω : Type) where
  name : String
  conditional : Bool
  line : Nat
  body : BodyDraft ω

def BodyDraft.withItems {ω : Type} (items : List (ItemDraft ω)) (b : BodyDraft ω) : BodyDraft ω :=
  { b with items := items ++ b.items }

def BodyDraft.withState {ω : Type} (s : StateExpr) (b : BodyDraft ω) : BodyDraft ω :=
  { b with states := s :: b.states }

/-! ### Runs of tokens -/

def takeStates : List Token → List StateExpr × List Token
  | ⟨.state key value, _⟩ :: ts =>
    let (states, rest) := takeStates ts; (⟨key, value⟩ :: states, rest)
  | ts => ([], ts)

def takeMentions : List Token → List Mention × List Token
  | ⟨.name name, line⟩ :: ts =>
    let (mentions, rest) := takeMentions ts; (.rule name line :: mentions, rest)
  | ⟨.literal text, _⟩ :: ts =>
    let (mentions, rest) := takeMentions ts; (.literal text :: mentions, rest)
  | ts => ([], ts)

theorem length_takeStates (ts : List Token) :
    (takeStates ts).1.length + (takeStates ts).2.length = ts.length := by
  fun_induction takeStates ts with
  | case1 _ _ _ _ _ _ taken ih => simp only [taken] at ih; simp only [List.length_cons]; omega
  | case2 => simp

theorem length_takeMentions (ts : List Token) :
    (takeMentions ts).1.length + (takeMentions ts).2.length = ts.length := by
  fun_induction takeMentions ts with
  | case1 _ _ _ _ _ taken ih => simp only [taken] at ih; simp only [List.length_cons]; omega
  | case2 _ _ _ _ _ taken ih => simp only [taken] at ih; simp only [List.length_cons]; omega
  | case3 => simp

/-! ### Items -/

def Lexeme.endsItem : Lexeme → Bool
  | lineBreak _ | closeBrace | endOfInput => true
  | _ => false

def Lexeme.isMention : Lexeme → Bool
  | name _ | literal _ => true
  | _ => false

/-- An item must hold an element or a state, and the token behind it must end it. -/
def checkItem {ω : Type} (rule : String) (item : ItemDraft ω) (next : Token) :
    Except LoadError Unit :=
  if next.lexeme.endsItem then
    if item.mentions.isEmpty && item.states.isEmpty then .error ⟨item.line, .emptyItem rule⟩
    else .ok ()
  else if next.lexeme.isMention then .error ⟨next.line, .statesNotLast rule⟩
  else .error ⟨next.line, .strayInItem rule next.lexeme⟩

theorem filled_of_checkItem {ω : Type} {rule : String} {item : ItemDraft ω} {next : Token}
    (h : checkItem rule item next = .ok ()) : item.mentions.length + item.states.length ≠ 0 := by
  unfold checkItem at h
  split at h
  · split at h
    · cases h
    · rename_i filled
      simp only [Bool.and_eq_true, List.isEmpty_iff, not_and] at filled
      intro length
      exact filled (List.eq_nil_of_length_eq_zero (by omega))
        (List.eq_nil_of_length_eq_zero (by omega))
  · split at h <;> cases h

variable {ω : Type} [Scalar ω]

/-- The weight that a text denotes: above zero, and a hundred at most. -/
def weightOf (rule : String) (line : Nat) (text : String) : Except LoadError ω :=
  match Decimal.Numeral.read? text with
  | none => .error ⟨line, .invalidWeight rule text⟩
  | some numeral =>
    let w : ω := Scalar.ofNumeral numeral
    if Scalar.ofNat 0 < w then
      if Scalar.aboveHundred w then .error ⟨line, .weightAboveHundred rule text⟩ else .ok w
    else .error ⟨line, .weightNotPositive rule text⟩

def readWeight (rule : String) (ts : List Token) : Except LoadError (Option ω × List Token) :=
  match ts with
  | ⟨.weight text, line⟩ :: rest => (weightOf rule line text).map fun w => (some w, rest)
  | _ => .ok (none, ts)

/-- Reads the item of a line: a weight, then elements, then states, each of them optional. -/
def readItem (rule : String) (condition : Option Condition) (ts : List Token) :
    Except LoadError (ItemDraft ω × List Token) := do
  let (weight, afterWeight) ← readWeight rule ts
  let (mentions, afterMentions) := takeMentions afterWeight
  let (states, behind) := takeStates afterMentions
  let item := ⟨(Token.front ts).line, weight, mentions, condition, states⟩
  checkItem rule item (Token.front behind)
  return (item, behind)

theorem length_of_readWeight {rule : String} {ts rest : List Token} {w : Option ω}
    (h : readWeight rule ts = .ok (w, rest)) : rest.length ≤ ts.length := by
  unfold readWeight at h
  split at h
  · rename_i text line tail
    cases read : weightOf (ω := ω) rule line text with
    | error e => simp [read, Except.map] at h
    | ok w =>
      simp only [read, Except.map, Except.ok.injEq, Prod.mk.injEq] at h
      rw [← h.2]
      exact Nat.le_succ _
  · simp only [Except.ok.injEq, Prod.mk.injEq] at h
    exact h.2 ▸ Nat.le_refl _

theorem length_of_readItem {rule : String} {condition : Option Condition} {ts rest : List Token}
    {item : ItemDraft ω} (h : readItem rule condition ts = .ok (item, rest)) :
    rest.length < ts.length := by
  unfold readItem at h
  cases weighed : readWeight (ω := ω) rule ts with
  | error e => simp [weighed, bind, Except.bind] at h
  | ok pair =>
    obtain ⟨weight, afterWeight⟩ := pair
    simp only [weighed, bind, Except.bind] at h
    split at h
    · cases h
    · rename_i checked
      simp only [pure, Except.pure, Except.ok.injEq, Prod.mk.injEq] at h
      have filled := filled_of_checkItem checked
      have shorter := length_of_readWeight weighed
      have mentions := length_takeMentions afterWeight
      have states := length_takeStates (takeMentions afterWeight).2
      rw [← h.2]
      dsimp only at filled
      omega

end WeightedGrammar

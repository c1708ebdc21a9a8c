import WeightedGrammar.Grammar.Draft

/-!
Reading whole rules. A rule is a name, a question mark if it is conditional, and a body between
braces: lines of items and lines of states, in a conditional rule each item or block of items behind
a condition. `readRules` reads all rules of a text.
-/

namespace WeightedGrammar

theorem map_eq_ok {ε α β : Type} {f : α → β} {m : Except ε α} {b : β} (h : m.map f = .ok b) :
    ∃ a, m = .ok a ∧ f a = b := by
  cases m with
  | error e => cases h
  | ok a => exact ⟨a, rfl, Except.ok.inj h⟩

/-! ### States of a block -/

def StateExpr.orValue (value : String) (s : StateExpr) : StateExpr :=
  { s with value := some (s.value.getD value) }

def ItemDraft.withStates {ω : Type} (states : List StateExpr) (item : ItemDraft ω) : ItemDraft ω :=
  { item with states := states ++ item.states }

variable {ω : Type} [Scalar ω]

/-! ### Blocks of items -/

/-- A lexeme that may only stand in a condition or open a block behind one. -/
def Lexeme.gates : Lexeme → Bool
  | notSign | andSign | orSign | openParen | closeParen | openBrace => true
  | _ => false

/-- Reads lines of items up to the closing brace, under a condition or none. The rule and its line
serve messages. -/
def readBlock (rule : String) (ruleLine : Nat) (condition : Option Condition) (ts : List Token) :
    Except LoadError (BodyDraft ω × List Token) :=
  match ts with
  | [] => .error ⟨ruleLine, .unclosedRule rule⟩
  | t :: rest =>
    match t.lexeme with
    | .lineBreak _ => readBlock rule ruleLine condition rest
    | .closeBrace => .ok ({}, rest)
    | .endOfInput => .error ⟨ruleLine, .unclosedRule rule⟩
    | .state key value =>
      (readBlock rule ruleLine condition rest).map fun (body, behind) =>
        (body.withState ⟨key, value⟩, behind)
    | found =>
      if found.gates then .error ⟨t.line, .strayInBlock rule found⟩
      else
        match _item : readItem rule condition (t :: rest) with
        | .error e => .error e
        | .ok (item, afterItem) =>
          (readBlock rule ruleLine condition afterItem).map fun (body, behind) =>
            (body.withItems [item], behind)
termination_by ts.length
decreasing_by
  · exact Nat.lt_succ_self _
  · exact Nat.lt_succ_self _
  · exact length_of_readItem _item

theorem length_of_readBlock {rule : String} {ruleLine : Nat} {condition : Option Condition}
    {ts rest : List Token} {body : BodyDraft ω}
    (h : readBlock rule ruleLine condition ts = .ok (body, rest)) : rest.length < ts.length := by
  fun_induction readBlock (ω := ω) rule ruleLine condition ts generalizing body rest with
  | case1 => cases h
  | case2 t tail mark isBreak ih => exact Nat.lt_succ_of_lt (ih h)
  | case3 t tail isClose =>
    simp only [Except.ok.injEq, Prod.mk.injEq] at h
    rw [← h.2]
    exact Nat.lt_succ_self _
  | case4 => cases h
  | case5 t tail key value isState ih =>
    obtain ⟨⟨body', behind⟩, read, same⟩ := map_eq_ok h
    simp only [Prod.mk.injEq] at same
    rw [← same.2]
    exact Nat.lt_succ_of_lt (ih read)
  | case6 => cases h
  | case7 => cases h
  | case8 t tail item afterItem isItem _ _ _ _ _ ih =>
    obtain ⟨⟨body', behind⟩, read, same⟩ := map_eq_ok h
    simp only [Prod.mk.injEq] at same
    rw [← same.2]
    exact Nat.lt_trans (ih read) (length_of_readItem isItem)

/-! ### Bodies of conditional rules -/

/-- Reads what a condition gates: a block, whose states go to each of its items and take the name of
the rule for want of a value, or a single item. `line` is the line of the condition. -/
def readGated (rule : String) (ruleLine line : Nat) (condition : Condition) (ts : List Token) :
    Except LoadError (List (ItemDraft ω) × List Token) :=
  match (Token.front ts).lexeme with
  | .closeParen => .error ⟨(Token.front ts).line, .unopenedGroup⟩
  | .openBrace =>
    match readBlock rule ruleLine (some condition) ts.tail with
    | .error e => .error e
    | .ok (body, behind) =>
      if body.items.isEmpty then .error ⟨line, .emptyBlock rule condition⟩
      else .ok (body.items.map (·.withStates (body.states.map (·.orValue rule))), behind)
  | found =>
    if found.endsItem then .error ⟨line, .conditionWithoutItem rule condition⟩
    else (readItem rule (some condition) ts).map fun (item, behind) => ([item], behind)

theorem length_of_readGated {rule : String} {ruleLine line : Nat} {condition : Condition}
    {ts rest : List Token} {items : List (ItemDraft ω)}
    (h : readGated rule ruleLine line condition ts = .ok (items, rest)) :
    rest.length ≤ ts.length := by
  unfold readGated at h
  split at h
  · cases h
  · split at h
    · cases h
    · rename_i body behind read
      split at h
      · cases h
      · simp only [Except.ok.injEq, Prod.mk.injEq] at h
        have shorter := length_of_readBlock read
        rw [← h.2]
        simp only [List.length_tail] at shorter
        omega
  · split at h
    · cases h
    · obtain ⟨⟨item, behind⟩, read, same⟩ := map_eq_ok h
      simp only [Prod.mk.injEq] at same
      rw [← same.2]
      exact Nat.le_of_lt (length_of_readItem read)

def Lexeme.startsCondition : Lexeme → Bool
  | name _ | notSign | openParen => true
  | _ => false

def Lexeme.startsBareItem : Lexeme → Bool
  | literal _ | weight _ => true
  | _ => false

/-- Reads the body of a conditional rule up to its closing brace. -/
def readGatedBody (rule : String) (ruleLine : Nat) (ts : List Token) :
    Except LoadError (BodyDraft ω × List Token) :=
  match ts with
  | [] => .error ⟨ruleLine, .unclosedRule rule⟩
  | t :: rest =>
    match t.lexeme with
    | .lineBreak _ => readGatedBody rule ruleLine rest
    | .closeBrace => .ok ({}, rest)
    | .endOfInput => .error ⟨ruleLine, .unclosedRule rule⟩
    | .state key value =>
      (readGatedBody rule ruleLine rest).map fun (body, behind) =>
        (body.withState ⟨key, value⟩, behind)
    | found =>
      if found.startsBareItem then .error ⟨t.line, .itemWithoutCondition rule⟩
      else if found.startsCondition then
        match _condition : Condition.read (t :: rest) with
        | .error e => .error e
        | .ok (condition, afterCondition) =>
          match _gated : readGated rule ruleLine t.line condition afterCondition with
          | .error e => .error e
          | .ok (items, afterItems) =>
            (readGatedBody rule ruleLine afterItems).map fun (body, behind) =>
              (body.withItems items, behind)
      else .error ⟨t.line, .noCondition rule found⟩
termination_by ts.length
decreasing_by
  · exact Nat.lt_succ_self _
  · exact Nat.lt_succ_self _
  · exact Nat.lt_of_le_of_lt (length_of_readGated _gated) (Condition.length_of_read _condition)

theorem length_of_readGatedBody {rule : String} {ruleLine : Nat} {ts rest : List Token}
    {body : BodyDraft ω} (h : readGatedBody rule ruleLine ts = .ok (body, rest)) :
    rest.length < ts.length := by
  fun_induction readGatedBody (ω := ω) rule ruleLine ts generalizing body rest with
  | case1 => cases h
  | case2 t tail mark isBreak ih => exact Nat.lt_succ_of_lt (ih h)
  | case3 t tail isClose =>
    simp only [Except.ok.injEq, Prod.mk.injEq] at h
    rw [← h.2]
    exact Nat.lt_succ_self _
  | case4 => cases h
  | case5 t tail key value isState ih =>
    obtain ⟨⟨body', behind⟩, read, same⟩ := map_eq_ok h
    simp only [Prod.mk.injEq] at same
    rw [← same.2]
    exact Nat.lt_succ_of_lt (ih read)
  | case6 => cases h
  | case7 => cases h
  | case8 => cases h
  | case9 t tail condition afterCondition isCondition items afterItems gated _ _ _ _ _ _ ih =>
    obtain ⟨⟨body', behind⟩, read, same⟩ := map_eq_ok h
    simp only [Prod.mk.injEq] at same
    rw [← same.2]
    have gatedShorter := length_of_readGated gated
    have conditionShorter := Condition.length_of_read isCondition
    have := ih read
    omega
  | case10 => cases h

/-! ### Rules -/

def readBody (rule : String) (ruleLine : Nat) (conditional : Bool) (ts : List Token) :
    Except LoadError (BodyDraft ω × List Token) :=
  if conditional then readGatedBody rule ruleLine ts else readBlock rule ruleLine none ts

def takeQuestion : List Token → Bool × List Token
  | ⟨.question, _⟩ :: ts => (true, ts)
  | ts => (false, ts)

/-- Reads a rule. `seen` holds the names of the rules in front, with their lines. -/
def readRule (seen : List (String × Nat)) (ts : List Token) :
    Except LoadError (RuleDraft ω × List Token) :=
  match ts with
  | ⟨.name rule, line⟩ :: rest =>
    match seen.lookup rule with
    | some firstLine => .error ⟨line, .duplicateRule rule firstLine⟩
    | none =>
      let (conditional, afterHead) := takeQuestion rest
      match (Token.front afterHead).lexeme with
      | .openBrace =>
        (readBody rule line conditional afterHead.tail).map fun (body, behind) =>
          (⟨rule, conditional, line, body⟩, behind)
      | found => .error ⟨(Token.front afterHead).line, .noBrace rule found⟩
  | _ => .error ⟨(Token.front ts).line, .noRuleName (Token.front ts).lexeme⟩

theorem length_of_readBody {rule : String} {ruleLine : Nat} {conditional : Bool}
    {ts rest : List Token} {body : BodyDraft ω}
    (h : readBody rule ruleLine conditional ts = .ok (body, rest)) : rest.length < ts.length := by
  unfold readBody at h
  split at h
  · exact length_of_readGatedBody h
  · exact length_of_readBlock h

theorem length_takeQuestion_le (ts : List Token) : (takeQuestion ts).2.length ≤ ts.length := by
  unfold takeQuestion
  split
  · exact Nat.le_succ _
  · exact Nat.le_refl _

theorem length_of_readRule {seen : List (String × Nat)} {ts rest : List Token} {rule : RuleDraft ω}
    (h : readRule seen ts = .ok (rule, rest)) : rest.length < ts.length := by
  unfold readRule at h
  split at h
  · rename_i name line tail
    split at h
    · cases h
    · have head := length_takeQuestion_le tail
      dsimp only at h
      split at h
      · obtain ⟨⟨body, behind⟩, read, same⟩ := map_eq_ok h
        simp only [Prod.mk.injEq] at same
        have shorter := length_of_readBody read
        rw [← same.2]
        simp only [List.length_tail, List.length_cons] at shorter ⊢
        omega
      · cases h
  · cases h

def readRules (seen : List (String × Nat)) (ts : List Token) :
    Except LoadError (List (RuleDraft ω)) :=
  match ts with
  | [] => .ok []
  | t :: rest =>
    match t.lexeme with
    | .lineBreak _ => readRules seen rest
    | .endOfInput => .ok []
    | _ =>
      match _rule : readRule seen (t :: rest) with
      | .error e => .error e
      | .ok (rule, afterRule) =>
        (readRules ((rule.name, rule.line) :: seen) afterRule).map (rule :: ·)
termination_by ts.length
decreasing_by
  · exact Nat.lt_succ_self _
  · exact length_of_readRule _rule

end WeightedGrammar

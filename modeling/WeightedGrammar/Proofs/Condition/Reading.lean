import WeightedGrammar.Condition.Reader
import WeightedGrammar.Proofs.Condition.Grammar

/-!
What `read` accepts. A reader that stands somewhere within an expression has taken the lexemes of
what is pending; `taken` lists them, and `Took` says how they go on. `readOperand_flatten` is the
converse, one equation for each level of a normal tree. Together they say that `read` takes the
longest expression at the front of a row, and gives its tree (`read_iff_isReading`).
-/

namespace WeightedGrammar.Condition

/-! ### What is pending -/

def leftOf (sign : Lexeme) : Option Condition → List Lexeme
  | none => []
  | some left => left.flatten ++ [sign]

/-- The lexemes behind the last open parenthesis. -/
def Pending.taken (p : Pending) : List Lexeme :=
  leftOf .orSign p.disjunct ++ leftOf .andSign p.conjunct ++ List.replicate p.negations .notSign

/-- The lexemes up to the last open parenthesis. -/
def takenOutside : List Pending → List Lexeme
  | [] => []
  | p :: outer => takenOutside outer ++ p.taken ++ [.openParen]

/-- Both left sides may stand where they wait. -/
def Pending.isNormal (p : Pending) : Bool :=
  p.disjunct.all (·.isNormal) && p.conjunct.all (fun c => c.isNormal && c.fits .conjunction)

theorem repeat_neg_succ (n : Nat) (c : Condition) :
    Nat.repeat neg (n + 1) c = Nat.repeat neg n (neg c) := by
  induction n with
  | zero => rfl
  | succ n ih => exact congrArg neg ih

theorem flatten_repeat_neg (n : Nat) (c : Condition) :
    (Nat.repeat neg n c).flatten = List.replicate n .notSign ++ c.flatten := by
  induction n with
  | zero => rfl
  | succ n ih => simp [Nat.repeat, flatten, ih, List.replicate_succ]

theorem flatten_conjoin (p : Pending) (c : Condition) :
    (p.conjoin c).flatten =
      leftOf .andSign p.conjunct ++ (List.replicate p.negations .notSign ++ c.flatten) := by
  unfold Pending.conjoin
  cases p.conjunct <;> simp [flatten, leftOf, flatten_repeat_neg]

theorem flatten_disjoin (disjunct : Option Condition) (c : Condition) :
    (disjoin disjunct c).flatten = leftOf .orSign disjunct ++ c.flatten := by
  cases disjunct <;> simp [disjoin, flatten, leftOf]

theorem normal_repeat_neg {c : Condition} (normal : c.isNormal = true)
    (fit : c.fits .operand = true) (n : Nat) :
    (Nat.repeat neg n c).isNormal = true ∧ (Nat.repeat neg n c).fits .operand = true := by
  induction n with
  | zero => exact ⟨normal, fit⟩
  | succ n ih =>
    obtain ⟨normalBelow, fitBelow⟩ := ih
    simp only [fits, Bool.and_eq_true] at fitBelow
    exact ⟨by simp [Nat.repeat, isNormal, normalBelow, fitBelow], rfl⟩

theorem normal_conjoin {p : Pending} {c : Condition} (pending : p.isNormal = true)
    (normal : c.isNormal = true) (fit : c.fits .operand = true) :
    (p.conjoin c).isNormal = true ∧ (p.conjoin c).fits .conjunction = true := by
  obtain ⟨normalNegated, fitNegated⟩ := normal_repeat_neg normal fit p.negations
  simp only [Pending.isNormal, Bool.and_eq_true] at pending
  simp only [fits, Bool.and_eq_true] at fitNegated
  unfold Pending.conjoin
  cases left : p.conjunct with
  | none => exact ⟨normalNegated, fitNegated.1⟩
  | some left =>
    simp only [left, Option.all_some, Bool.and_eq_true, fits] at pending
    exact ⟨by simp [isNormal, normalNegated, fitNegated, pending.2], rfl⟩

theorem normal_disjoin {disjunct : Option Condition} {c : Condition}
    (left : disjunct.all (·.isNormal) = true) (normal : c.isNormal = true)
    (fit : c.fits .conjunction = true) : (disjoin disjunct c).isNormal = true := by
  cases disjunct with
  | none => exact normal
  | some d =>
    simp only [Option.all_some] at left
    simp only [fits] at fit
    simp [disjoin, isNormal, left, normal, fit]

/-! ### What is read is an expression -/

def goesOn (ts : List Token) : Bool :=
  (Token.front ts).lexeme == .andSign || (Token.front ts).lexeme == .orSign

/-- Behind the lexemes `front`, a normal tree takes tokens of `ts` up to `rest` and stops there. -/
structure Took (front : List Lexeme) (ts : List Token) (c : Condition) (rest : List Token) :
    Prop where
  flat : ∃ more, ts = more ++ rest ∧ c.flatten = front ++ more.map (·.lexeme)
  normal : c.isNormal = true
  stops : goesOn rest = false

theorem Took.cons {front : List Lexeme} {t : Token} {ts rest : List Token} {c : Condition}
    (took : Took (front ++ [t.lexeme]) ts c rest) : Took front (t :: ts) c rest := by
  obtain ⟨⟨more, same, flat⟩, normal, stops⟩ := took
  exact ⟨⟨t :: more, by simp [same], by simp [flat]⟩, normal, stops⟩

-- The readers go down the tokens together. What they keep is that all that is pending is normal and
-- may stand where it waits, so whatever completes it is normal too.
mutual

theorem took_of_readOperand {here : Pending} {outer : List Pending}
    (pending : here.isNormal = true) (outside : ∀ p ∈ outer, p.isNormal = true) :
    ∀ {ts rest : List Token} {c : Condition}, readOperand here outer ts = .ok (c, rest) →
      Took (takenOutside outer ++ here.taken) ts c rest
  | [], _, _, h => by simp [readOperand] at h
  | t :: ts, rest, c, h => by
    simp only [readOperand] at h
    have left : here.disjunct.all (·.isNormal) = true := by
      simp only [Pending.isNormal, Bool.and_eq_true] at pending
      exact pending.1
    apply Took.cons
    split at h
    · rename_i rule isName
      obtain ⟨normal, fit⟩ := normal_conjoin (c := fired rule) pending rfl rfl
      simpa [isName, flatten_conjoin, Pending.taken, flatten]
        using took_of_readOperator left normal fit outside h
    · rename_i isNot
      have negated : Pending.isNormal { here with negations := here.negations + 1 } = true :=
        pending
      simpa [isNot, Pending.taken, List.replicate_succ']
        using took_of_readOperand negated outside h
    · rename_i isOpen
      have inside : ∀ p ∈ here :: outer, p.isNormal = true := by
        simpa using ⟨pending, outside⟩
      simpa [isOpen, Pending.taken, leftOf, takenOutside] using took_of_readOperand rfl inside h
    · simp at h
    · simp at h

theorem took_of_readOperator {disjunct : Option Condition} {current : Condition}
    {outer : List Pending} (left : disjunct.all (·.isNormal) = true)
    (normal : current.isNormal = true) (fit : current.fits .conjunction = true)
    (outside : ∀ p ∈ outer, p.isNormal = true) :
    ∀ {ts rest : List Token} {c : Condition},
      readOperator disjunct current outer ts = .ok (c, rest) →
        Took (takenOutside outer ++ leftOf .orSign disjunct ++ current.flatten) ts c rest
  | [], rest, c, h => by
    simp only [readOperator] at h
    split at h
    · simp only [Except.ok.injEq, Prod.mk.injEq] at h
      obtain ⟨rfl, rfl⟩ := h
      exact ⟨⟨[], rfl, by simp [flatten_disjoin, takenOutside]⟩, normal_disjoin left normal fit,
        rfl⟩
    · simp at h
  | t :: ts, rest, c, h => by
    simp only [readOperator] at h
    have joined := normal_disjoin left normal fit
    split at h
    · rename_i isAnd
      apply Took.cons
      have pending : Pending.isNormal ⟨disjunct, some current, 0⟩ = true := by
        simp [Pending.isNormal, left, normal, fit]
      simpa [isAnd, Pending.taken, leftOf] using took_of_readOperand pending outside h
    · rename_i isOr
      apply Took.cons
      have pending : Pending.isNormal ⟨some (disjoin disjunct current), none, 0⟩ = true := by
        simp [Pending.isNormal, joined]
      simpa [isOr, Pending.taken, leftOf, flatten_disjoin]
        using took_of_readOperand pending outside h
    · rename_i p outer' isClose
      apply Took.cons
      have pending := outside p List.mem_cons_self
      have leftOutside : p.disjunct.all (·.isNormal) = true := by
        simp only [Pending.isNormal, Bool.and_eq_true] at pending
        exact pending.1
      obtain ⟨normalOperand, fitOperand⟩ :=
        normal_conjoin (c := group (disjoin disjunct current)) pending joined rfl
      have took := took_of_readOperator leftOutside normalOperand fitOperand
        (fun q member => outside q (List.mem_cons_of_mem p member)) h
      simpa [isClose, takenOutside, Pending.taken, flatten_conjoin, flatten, flatten_disjoin]
        using took
    · simp at h
    · rename_i notAnd notOr
      simp only [Except.ok.injEq, Prod.mk.injEq] at h
      obtain ⟨rfl, rfl⟩ := h
      refine ⟨⟨[], rfl, by simp [flatten_disjoin, takenOutside]⟩, joined, ?_⟩
      simp only [goesOn, Token.front, List.headD_cons, Bool.or_eq_false_iff, beq_eq_false_iff_ne]
      exact ⟨notAnd, notOr⟩

end

/-! ### Every expression is read -/

/-- How the reader goes over an expression: an operand joins what is pending, a conjunction becomes
the current one, and the last conjunction of a disjunction does, with the others to its left. -/
def ReadAs : Level → List Lexeme → Condition → Prop
  | .operand, ls, c => ∀ ts : List Token, ts.map (·.lexeme) = ls → ∀ here outer rest,
      readOperand here outer (ts ++ rest) = readOperator here.disjunct (here.conjoin c) outer rest
  | .conjunction, ls, c => ∀ ts : List Token, ts.map (·.lexeme) = ls → ∀ disjunct outer rest,
      readOperand ⟨disjunct, none, 0⟩ outer (ts ++ rest) = readOperator disjunct c outer rest
  | .disjunction, ls, c => ∃ disjunct current, disjoin disjunct current = c ∧
      ∀ ts : List Token, ts.map (·.lexeme) = ls → ∀ outer rest,
        readOperand {} outer (ts ++ rest) = readOperator disjunct current outer rest

theorem readAs_of_expresses {level : Level} {ls : List Lexeme} {c : Condition}
    (h : Expresses .tree level ls c) : ReadAs level ls c := by
  induction h with
  | name rule =>
    intro ts same here outer rest
    obtain ⟨t, ts, rfl, isName, same⟩ := List.map_eq_cons_iff.mp same
    obtain rfl := List.map_eq_nil_iff.mp same
    simp [readOperand, isName, Meaning.tree]
  | group _ ih =>
    obtain ⟨disjunct, current, rfl, read⟩ := ih
    intro ts same here outer rest
    obtain ⟨t, ts, rfl, isOpen, same⟩ := List.map_eq_cons_iff.mp same
    obtain ⟨inner, last, rfl, sameInner, closed⟩ := List.map_eq_append_iff.mp same
    obtain ⟨close, tail, rfl, isClose, closed⟩ := List.map_eq_cons_iff.mp closed
    obtain rfl := List.map_eq_nil_iff.mp closed
    simp [readOperand, readOperator, isOpen, isClose, read inner sameInner, Meaning.tree]
  | neg _ ih =>
    intro ts same here outer rest
    obtain ⟨t, ts, rfl, isNot, same⟩ := List.map_eq_cons_iff.mp same
    have read := ih ts same { here with negations := here.negations + 1 } outer rest
    simp only [Pending.conjoin, repeat_neg_succ] at read
    simp [readOperand, isNot, read, Pending.conjoin, Meaning.tree]
  | operand _ ih =>
    exact fun ts same disjunct outer rest => ih ts same ⟨disjunct, none, 0⟩ outer rest
  | conj _ _ ihLeft ihRight =>
    intro ts same disjunct outer rest
    obtain ⟨left, more, rfl, sameLeft, same⟩ := List.map_eq_append_iff.mp same
    obtain ⟨t, right, rfl, isAnd, sameRight⟩ := List.map_eq_cons_iff.mp same
    rw [List.append_assoc, ihLeft left sameLeft]
    simp [readOperator, isAnd, ihRight right sameRight, Pending.conjoin, Nat.repeat, Meaning.tree]
  | conjunction _ ih => exact ⟨none, _, rfl, fun ts same outer rest => ih ts same none outer rest⟩
  | disj _ _ ihLeft ihRight =>
    -- The last conjunction of the left side waits as `current` until the sign completes it.
    obtain ⟨disjunct, current, rfl, read⟩ := ihLeft
    refine ⟨some (disjoin disjunct current), _, rfl, ?_⟩
    intro ts same outer rest
    obtain ⟨left, more, rfl, sameLeft, same⟩ := List.map_eq_append_iff.mp same
    obtain ⟨t, right, rfl, isOr, sameRight⟩ := List.map_eq_cons_iff.mp same
    rw [List.append_assoc, read left sameLeft]
    simp [readOperator, isOr, ihRight right sameRight]

theorem readOperator_stops {disjunct : Option Condition} {current : Condition} {rest : List Token}
    (stops : goesOn rest = false) :
    readOperator disjunct current [] rest = .ok (disjoin disjunct current, rest) := by
  cases rest with
  | nil => rfl
  | cons t ts =>
    simp only [goesOn, Token.front, List.headD_cons, Bool.or_eq_false_iff,
      beq_eq_false_iff_ne] at stops
    unfold readOperator
    split <;> simp_all

theorem read_append {c : Condition} {ts rest : List Token} (normal : c.isNormal = true)
    (flat : ts.map (·.lexeme) = c.flatten) (stops : goesOn rest = false) :
    read (ts ++ rest) = .ok (c, rest) := by
  obtain ⟨disjunct, current, rfl, same⟩ :=
    readAs_of_expresses (expresses_of_normal normal .disjunction rfl)
  rw [read, same ts flat, readOperator_stops stops]

theorem took_of_read {ts rest : List Token} {c : Condition} (h : read ts = .ok (c, rest)) :
    Took [] ts c rest :=
  took_of_readOperand rfl (by simp) h

theorem eq_of_flatten_eq {c d : Condition} (normal : c.isNormal = true)
    (normal' : d.isNormal = true) (same : c.flatten = d.flatten) : c = d := by
  let ts : List Token := c.flatten.map (⟨·, 0⟩)
  have flat : ts.map (·.lexeme) = c.flatten := by simp [ts, Function.comp_def]
  have read := (read_append normal flat rfl).symm.trans
    (read_append normal' (flat.trans same) (show goesOn [] = false from rfl))
  rw [Except.ok.injEq, Prod.mk.injEq] at read
  exact read.1

theorem expresses_truth_iff {c : Condition} (normal : c.isNormal = true)
    {hasFired : String → Bool} {value : Bool} :
    Expresses (.truth hasFired) .disjunction c.flatten value ↔ c.evaluate hasFired = value := by
  rw [expresses_iff_tree]
  constructor
  · rintro ⟨d, derived, rfl⟩
    obtain ⟨normal', same⟩ := expresses_tree_iff.mp derived
    rw [eq_of_flatten_eq normal normal' same.symm, truth_of]
  · rintro rfl
    exact ⟨c, expresses_of_normal normal .disjunction rfl, truth_of hasFired c⟩

/-! ### Errors -/

mutual

theorem malformed_of_readOperand {here : Pending} {outer : List Pending} :
    ∀ {ts : List Token} {e : LoadError}, readOperand here outer ts = .error e →
      e.cause.kind = .malformedCondition
  | [], e, h => by
    simp only [readOperand, Except.error.injEq] at h
    exact h ▸ rfl
  | t :: ts, e, h => by
    simp only [readOperand] at h
    split at h
    · exact malformed_of_readOperator h
    · exact malformed_of_readOperand h
    · exact malformed_of_readOperand h
    · exact Except.error.inj h ▸ rfl
    · exact Except.error.inj h ▸ rfl

theorem malformed_of_readOperator {disjunct : Option Condition} {current : Condition}
    {outer : List Pending} :
    ∀ {ts : List Token} {e : LoadError}, readOperator disjunct current outer ts = .error e →
      e.cause.kind = .malformedCondition
  | [], e, h => by
    simp only [readOperator] at h
    split at h
    · cases h
    · exact Except.error.inj h ▸ rfl
  | t :: ts, e, h => by
    simp only [readOperator] at h
    split at h
    · exact malformed_of_readOperand h
    · exact malformed_of_readOperand h
    · exact malformed_of_readOperator h
    · exact Except.error.inj h ▸ rfl
    · cases h

end

/-! ### Readings -/

/-- The `count` tokens from `position` are those of the normal tree `c`, and the token behind them
is neither `&&` nor `||`. -/
structure IsReading (tokens : List Token) (position : Nat) (c : Condition) (count : Nat) :
    Prop where
  normal : c.isNormal = true
  flat : ((tokens.drop position).take count).map (·.lexeme) = c.flatten
  stops : ∃ next, tokens[position + count]? = some next ∧
    next.lexeme ≠ .andSign ∧ next.lexeme ≠ .orSign

theorem IsReading.goesOn_eq_false {tokens : List Token} {position count : Nat} {c : Condition}
    (reading : IsReading tokens position c count) :
    goesOn (tokens.drop (position + count)) = false := by
  obtain ⟨next, found, notAnd, notOr⟩ := reading.stops
  simp [goesOn, Token.front, List.headD_eq_head?_getD, List.head?_drop, found, notAnd, notOr]

theorem IsReading.read_eq {tokens : List Token} {position count : Nat} {c : Condition}
    (reading : IsReading tokens position c count) :
    read (tokens.drop position) = .ok (c, tokens.drop (position + count)) := by
  have split : (tokens.drop position).take count ++ tokens.drop (position + count)
      = tokens.drop position := by
    rw [← List.drop_drop, List.take_append_drop]
  rw [← split]
  exact read_append reading.normal reading.flat reading.goesOn_eq_false

/-- A row that ends with the end of input is never taken to its end. -/
theorem isReading_of_read {tokens : List Token} {position : Nat} {c : Condition}
    {rest : List Token} (ends : tokens.getLast?.map (·.lexeme) = some .endOfInput)
    (inside : position < tokens.length) (h : read (tokens.drop position) = .ok (c, rest)) :
    ∃ count, rest = tokens.drop (position + count) ∧ IsReading tokens position c count := by
  obtain ⟨⟨more, same, flat⟩, normal, stops⟩ := took_of_read h
  have behind : rest = tokens.drop (position + more.length) := by
    rw [← List.drop_drop, same, List.drop_left]
  have left : rest ≠ [] := by
    intro none
    rw [none, List.append_nil] at same
    have last : tokens.getLast? = more.getLast? := by
      rw [← same, List.getLast?_drop, if_neg (Nat.not_le.mpr inside)]
    rw [last, Option.map_eq_some_iff] at ends
    obtain ⟨t, isLast, isEnd⟩ := ends
    have member := List.mem_map_of_mem (f := (·.lexeme)) (List.mem_of_getLast? isLast)
    rw [isEnd, ← List.nil_append (more.map _), ← flat] at member
    exact endOfInput_not_mem_flatten c member
  obtain ⟨next, tail, isRest⟩ := List.exists_cons_of_ne_nil left
  refine ⟨more.length, behind, normal, ?_, next, ?_, ?_⟩
  · rw [same, List.take_left, flat, List.nil_append]
  · rw [← List.head?_drop, ← behind, isRest, List.head?_cons]
  · simpa [isRest, goesOn, Token.front] using stops

theorem IsReading.eq_of_read {tokens : List Token} {position count count' : Nat} {c c' : Condition}
    (reading : IsReading tokens position c count)
    (h : read (tokens.drop position) = .ok (c', tokens.drop (position + count'))) :
    c = c' ∧ count = count' := by
  rw [reading.read_eq, Except.ok.injEq, Prod.mk.injEq] at h
  obtain ⟨next, found, -⟩ := reading.stops
  have inside := (List.getElem?_eq_some_iff.mp found).1
  have lengths := congrArg List.length h.2
  simp only [List.length_drop] at lengths
  exact ⟨h.1, by omega⟩

/-- From any place in a row that ends with the end of input, `read` gives a tree and goes `count`
tokens on exactly when these are a reading of the tree. There is at most one reading, and without
one the condition is malformed. The tree names the rules that the tokens name, in order, and its
truth value is the one that the expression means. -/
theorem read_iff_isReading {tokens : List Token} {position : Nat}
    (ends : tokens.getLast?.map (·.lexeme) = some .endOfInput) (inside : position < tokens.length) :
    (∀ c count, read (tokens.drop position) = .ok (c, tokens.drop (position + count)) ↔
      IsReading tokens position c count) ∧
    (∀ c c' count count', IsReading tokens position c count → IsReading tokens position c' count' →
      c = c' ∧ count = count') ∧
    ((¬∃ c count, IsReading tokens position c count) →
      ∃ e, read (tokens.drop position) = .error e ∧ e.cause.kind = .malformedCondition) ∧
    ∀ c count, IsReading tokens position c count →
      let lexemes := ((tokens.drop position).take count).map (·.lexeme)
      c.names = lexemes.filterMap nameOf? ∧
        ∀ hasFired value,
          Expresses (.truth hasFired) .disjunction lexemes value ↔ c.evaluate hasFired = value := by
  refine ⟨fun c count => ⟨fun h => ?_, (·.read_eq)⟩,
    fun c c' count count' reading reading' => reading.eq_of_read reading'.read_eq, ?_, ?_⟩
  · obtain ⟨count', same, reading⟩ := isReading_of_read ends inside h
    obtain ⟨-, rfl⟩ := reading.eq_of_read h
    exact reading
  · intro none
    cases h : read (tokens.drop position) with
    | error e => exact ⟨e, rfl, malformed_of_readOperand h⟩
    | ok pair =>
      obtain ⟨count, -, reading⟩ := isReading_of_read ends inside h
      exact absurd ⟨pair.1, count, reading⟩ none
  · intro c count reading lexemes
    have flat : lexemes = c.flatten := reading.flat
    rw [flat]
    exact ⟨names_eq_filterMap c, fun _ _ => expresses_truth_iff reading.normal⟩

/-- The expression `A || !B && C` in front of a literal. -/
theorem read_iff_isReading_between_braces :
    let tokens : List Token := [.openBrace, .name "A", .orSign, .notSign, .name "B", .andSign,
      .name "C", .literal "x", .closeBrace, .endOfInput].map (⟨·, 1⟩)
    tokens.getLast?.map (·.lexeme) = some .endOfInput ∧ 1 < tokens.length ∧
      read (tokens.drop 1) =
        .ok (disj (fired "A") (conj (neg (fired "B")) (fired "C")), tokens.drop (1 + 6)) :=
  ⟨rfl, by decide,
    ((read_iff_isReading rfl (by decide)).1 _ _).mpr ⟨rfl, rfl, ⟨.literal "x", 1⟩, rfl, by decide⟩⟩

end WeightedGrammar.Condition

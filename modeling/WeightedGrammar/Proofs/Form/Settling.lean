import Mathlib.Data.List.Basic
import WeightedGrammar.Proofs.Form.Loading

/-!
Readers on a row of tokens that ends with the end of input. They settle in front of that end: what
would stand behind it changes nothing, and where they fail they do so at a token of the row, one
that the cause is about (`readRules_settles`).
-/

namespace WeightedGrammar

/-! ### Where errors are -/

/-- The lexeme is what the cause is about: one that does not fit, or the one that the part at fault
begins with. -/
def LoadCause.Concerns (l : Lexeme) : LoadCause → Prop
  | noRuleName found | noBrace _ found | strayInBlock _ found | strayInItem _ found
  | operandExpected found | unclosedGroup found | trailing found | noCondition _ found => l = found
  | unclosedRule rule | duplicateRule rule _ | weightsAboveHundred rule _ | nothingLeft rule _ =>
    l = .name rule
  | statesNotLast _ => l.isMention = true
  | emptyItem _ => ∃ text, l = .weight text
  | invalidWeight _ text | weightNotPositive _ text | weightAboveHundred _ text => l = .weight text
  | emptyBlock _ _ | conditionWithoutItem _ _ => l.startsCondition = true
  | noOperand | unopenedGroup => l = .closeParen
  | itemWithoutCondition _ => l.startsBareItem = true
  | undefinedRule name .element _ => l = .name name
  | undefinedRule _ .condition _ => l.startsItem = true ∨ l.isState = true
  | unterminatedLiteral | unexpectedCharacter _ | emptyCondition => False

/-- The error is on the line of a token of the row, one that the cause is about. -/
def LoadError.IsAt (e : LoadError) (ts : List Token) : Prop :=
  ∃ t ∈ ts, e.line = t.line ∧ e.cause.Concerns t.lexeme

theorem LoadError.IsAt.mono {e : LoadError} {ts ts' : List Token} (isAt : e.IsAt ts)
    (subset : ts ⊆ ts') : e.IsAt ts' := by
  obtain ⟨t, member, line, concerns⟩ := isAt
  exact ⟨t, subset member, line, concerns⟩

theorem append_subset_of_suffix (sites : List Token) {ts mid : List Token} (suffix : mid <:+ ts) :
    sites ++ mid ⊆ sites ++ ts :=
  List.append_subset_of_subset_of_subset (List.subset_append_left ..)
    (List.Subset.trans suffix.subset (List.subset_append_right ..))

/-- The row of tokens ends with the end of input. -/
def Token.Ends (ts : List Token) : Prop := EndsInput (ts.map (·.lexeme))

theorem not_ends_nil : ¬Token.Ends [] := by
  rintro ⟨front, same, -⟩
  cases front <;> cases same

theorem Token.Ends.tail {t : Token} {ts : List Token} (ends : Token.Ends (t :: ts))
    (notEnd : t.lexeme ≠ .endOfInput) : Token.Ends ts := by
  have row : EndsInput ([t.lexeme] ++ ts.map (·.lexeme)) := ends
  exact row.of_append (by simpa using notEnd.symm)

theorem Token.Ends.eq_cons {ts : List Token} (ends : Token.Ends ts) :
    ∃ tail, ts = Token.front ts :: tail := by
  cases ts with
  | nil => exact absurd ends not_ends_nil
  | cons t tail => exact ⟨tail, rfl⟩

theorem Token.Ends.front_mem {ts : List Token} (ends : Token.Ends ts) : Token.front ts ∈ ts := by
  obtain ⟨tail, same⟩ := ends.eq_cons
  rw [same]
  exact List.mem_cons_self

theorem Token.Ends.front_append {ts : List Token} (ends : Token.Ends ts) (more : List Token) :
    Token.front (ts ++ more) = Token.front ts := by
  obtain ⟨tail, same⟩ := ends.eq_cons
  rw [same]
  rfl

/-! ### Settling -/

/-- What stands behind the row does not matter to the reader. It leaves the end of the row, or it
fails at a token of the row or at one of the sites in front. -/
structure Settles {α : Type} (read : List Token → Except LoadError (α × List Token))
    (sites ts : List Token) : Prop where
  append : ∀ more, read (ts ++ more) = (read ts).map fun (a, rest) => (a, rest ++ more)
  leaves : ∀ a rest, read ts = .ok (a, rest) → rest <:+ ts ∧ Token.Ends rest
  isAt : ∀ e, read ts = .error e → e.IsAt (sites ++ ts)

section
variable {α β : Type} {read : List Token → Except LoadError (α × List Token)}
  {read' : List Token → Except LoadError (β × List Token)} {sites ts mid : List Token}

theorem Settles.stops (a : α) {rest : List Token}
    (reads : ∀ more, read (ts ++ more) = .ok (a, rest ++ more)) (suffix : rest <:+ ts)
    (ends : Token.Ends rest) : Settles read sites ts := by
  have here : read ts = .ok (a, rest) := by simpa using reads []
  refine ⟨fun more => ?_, fun a' rest' h => ?_, fun e h => ?_⟩
  · rw [reads, here]
    rfl
  · rw [here] at h
    cases h
    exact ⟨suffix, ends⟩
  · rw [here] at h
    cases h

theorem Settles.fails {e : LoadError} (fails : ∀ more, read (ts ++ more) = .error e)
    (isAt : e.IsAt (sites ++ ts)) : Settles read sites ts := by
  have here : read ts = .error e := by simpa using fails []
  refine ⟨fun more => ?_, fun a rest h => ?_, fun e' h => ?_⟩
  · rw [fails, here]
    rfl
  · rw [here] at h
    cases h
  · rw [here] at h
    cases h
    exact isAt

theorem Settles.map (settles : Settles read sites ts) (f : α → β) :
    Settles (fun ts => (read ts).map fun (a, rest) => (f a, rest)) sites ts := by
  refine ⟨fun more => ?_, fun b rest h => ?_, fun e h => ?_⟩
  · dsimp only
    rw [settles.append]
    cases read ts <;> rfl
  · obtain ⟨⟨a, behind⟩, isRead, same⟩ := map_eq_ok h
    cases same
    exact settles.leaves a rest isRead
  · exact settles.isAt e (map_eq_error h)

/-- The reader goes on as another one does on the end of the row. -/
theorem Settles.after (settles : Settles read' sites mid)
    {read : List Token → Except LoadError (β × List Token)}
    (step : ∀ more, read (ts ++ more) = read' (mid ++ more)) (suffix : mid <:+ ts) :
    Settles read sites ts := by
  have here : read ts = read' mid := by simpa using step []
  refine ⟨fun more => ?_, fun a rest h => ?_, fun e h => ?_⟩
  · rw [step, settles.append, here]
  · rw [here] at h
    obtain ⟨inside, ends⟩ := settles.leaves a rest h
    exact ⟨inside.trans suffix, ends⟩
  · rw [here] at h
    exact (settles.isAt e h).mono (append_subset_of_suffix sites suffix)

/-- Sites may be taken from the row itself. -/
theorem Settles.mono (settles : Settles read sites ts) {sites' : List Token}
    (subset : sites ⊆ sites' ++ ts) : Settles read sites' ts := by
  refine ⟨settles.append, settles.leaves, fun e h => (settles.isAt e h).mono ?_⟩
  exact List.append_subset_of_subset_of_subset subset (List.subset_append_right ..)

/-- One reader goes on where another one has stopped. -/
theorem Settles.bind {next : α × List Token → Except LoadError (β × List Token)}
    (settles : Settles read sites ts)
    (goesOn : ∀ a rest, read ts = .ok (a, rest) → rest <:+ ts → Token.Ends rest →
      Settles (fun ts => next (a, ts)) (sites ++ ts) rest) :
    Settles (fun ts => read ts >>= next) sites ts := by
  cases isRead : read ts with
  | error e =>
    refine .fails (fun more => ?_) (settles.isAt e isRead)
    rw [settles.append, isRead]
    rfl
  | ok p =>
    obtain ⟨a, rest⟩ := p
    obtain ⟨suffix, ends⟩ := settles.leaves a rest isRead
    have step : ∀ more, (read (ts ++ more) >>= next) = next (a, rest ++ more) := by
      intro more
      rw [settles.append, isRead]
      rfl
    exact ((goesOn a rest isRead suffix ends).after step suffix).mono (List.Subset.refl _)

end

/-! ### Conditions -/

namespace Condition

mutual

theorem settles_readOperand (here : Pending) (outer : List Pending) :
    ∀ {ts : List Token}, Token.Ends ts → Settles (readOperand here outer) [] ts
  | [], ends => absurd ends not_ends_nil
  | t :: ts, ends => by
    cases isLexeme : t.lexeme with
    | name rule =>
      have behind := ends.tail (by simp [isLexeme])
      exact (settles_readOperator here.disjunct (here.conjoin (fired rule)) outer behind).after
        (fun more => by simp [readOperand, isLexeme]) (List.suffix_cons t ts)
    | notSign =>
      have behind := ends.tail (by simp [isLexeme])
      exact (settles_readOperand { here with negations := here.negations + 1 } outer behind).after
        (fun more => by simp [readOperand, isLexeme]) (List.suffix_cons t ts)
    | openParen =>
      have behind := ends.tail (by simp [isLexeme])
      exact (settles_readOperand {} (here :: outer) behind).after
        (fun more => by simp [readOperand, isLexeme]) (List.suffix_cons t ts)
    | closeParen =>
      exact .fails (e := ⟨t.line, .noOperand⟩) (fun more => by simp [readOperand, isLexeme])
        ⟨t, List.mem_cons_self, rfl, isLexeme⟩
    | _ =>
      exact .fails (e := ⟨t.line, .operandExpected t.lexeme⟩)
        (fun more => by simp [readOperand, isLexeme]) ⟨t, List.mem_cons_self, rfl, rfl⟩

theorem settles_readOperator (disjunct : Option Condition) (current : Condition)
    (outer : List Pending) :
    ∀ {ts : List Token}, Token.Ends ts → Settles (readOperator disjunct current outer) [] ts
  | [], ends => absurd ends not_ends_nil
  | t :: ts, ends => by
    cases isLexeme : t.lexeme with
    | andSign =>
      have behind := ends.tail (by simp [isLexeme])
      exact (settles_readOperand ⟨disjunct, some current, 0⟩ outer behind).after
        (fun more => by simp [readOperator, isLexeme]) (List.suffix_cons t ts)
    | orSign =>
      have behind := ends.tail (by simp [isLexeme])
      exact (settles_readOperand ⟨some (disjoin disjunct current), none, 0⟩ outer behind).after
        (fun more => by simp [readOperator, isLexeme]) (List.suffix_cons t ts)
    | closeParen =>
      cases outer with
      | nil =>
        exact .stops _ (fun more => readOperator_stops (by simp [goesOn, Token.front, isLexeme]))
          (List.suffix_refl _) ends
      | cons p outer' =>
        have behind := ends.tail (by simp [isLexeme])
        exact (settles_readOperator p.disjunct (p.conjoin (group (disjoin disjunct current))) outer'
          behind).after (fun more => by simp [readOperator, isLexeme]) (List.suffix_cons t ts)
    | _ =>
      cases outer with
      | nil =>
        exact .stops _ (fun more => readOperator_stops (by simp [goesOn, Token.front, isLexeme]))
          (List.suffix_refl _) ends
      | cons p outer' =>
        exact .fails (e := ⟨t.line, .unclosedGroup t.lexeme⟩)
          (fun more => by simp [readOperator, isLexeme]) ⟨t, List.mem_cons_self, rfl, rfl⟩

end

theorem settles_read {ts : List Token} (ends : Token.Ends ts) : Settles read [] ts :=
  settles_readOperand {} [] ends

end Condition

/-! ### Items -/

theorem settles_takeMentions {ts : List Token} (ends : Token.Ends ts) :
    Settles (fun ts => .ok (takeMentions ts)) [] ts := by
  induction ts with
  | nil => exact absurd ends not_ends_nil
  | cons t ts ih =>
    obtain ⟨l, line⟩ := t
    cases l with
    | name name =>
      exact ((ih (ends.tail (by simp))).map (.rule name line :: ·)).after
        (fun more => by simp [takeMentions, Except.map]) (List.suffix_cons _ ts)
    | literal text =>
      exact ((ih (ends.tail (by simp))).map (.literal text :: ·)).after
        (fun more => by simp [takeMentions, Except.map]) (List.suffix_cons _ ts)
    | _ => exact .stops [] (fun more => by simp [takeMentions]) (List.suffix_refl _) ends

theorem settles_takeStates {ts : List Token} (ends : Token.Ends ts) :
    Settles (fun ts => .ok (takeStates ts)) [] ts := by
  induction ts with
  | nil => exact absurd ends not_ends_nil
  | cons t ts ih =>
    obtain ⟨l, line⟩ := t
    cases l with
    | state key value =>
      exact ((ih (ends.tail (by simp))).map (⟨key, value⟩ :: ·)).after
        (fun more => by simp [takeStates, Except.map]) (List.suffix_cons _ ts)
    | _ => exact .stops [] (fun more => by simp [takeStates]) (List.suffix_refl _) ends

variable {ω : Type} [Scalar ω]

theorem concerns_of_weightOf {rule text : String} {line : Nat} {e : LoadError}
    (h : weightOf (ω := ω) rule line text = .error e) :
    e.line = line ∧ e.cause.Concerns (.weight text) := by
  unfold weightOf at h
  split at h
  · cases h
    exact ⟨rfl, rfl⟩
  · dsimp only at h
    split at h
    · split at h <;> cases h
      exact ⟨rfl, rfl⟩
    · cases h
      exact ⟨rfl, rfl⟩

theorem settles_readWeight (rule : String) {ts : List Token} (ends : Token.Ends ts) :
    Settles (readWeight (ω := ω) rule) [] ts := by
  cases ts with
  | nil => exact absurd ends not_ends_nil
  | cons t tail =>
    obtain ⟨l, line⟩ := t
    cases l with
    | weight text =>
      cases weighs : weightOf (ω := ω) rule line text with
      | error e =>
        obtain ⟨there, concerns⟩ := concerns_of_weightOf weighs
        exact .fails (fun more => by simp [readWeight, weighs, Except.map])
          ⟨_, List.mem_cons_self, there, concerns⟩
      | ok w =>
        have behind : Token.Ends tail := ends.tail (by simp)
        exact .stops (some w) (fun more => by simp [readWeight, weighs, Except.map])
          (List.suffix_cons _ tail) behind
    | _ => exact .stops none (fun more => by simp [readWeight]) (List.suffix_refl _) ends

/-- An item without elements and states is a weight and nothing else. -/
theorem exists_weight_of_empty {rule : String} {ts afterWeight afterMentions behind : List Token}
    {weight : Option ω} (weighed : readWeight rule ts = .ok (weight, afterWeight))
    (opens : (Token.front ts).lexeme.endsItem = false)
    (mentioned : takeMentions afterWeight = ([], afterMentions))
    (stated : takeStates afterMentions = ([], behind))
    (ends : (Token.front behind).lexeme.endsItem = true) :
    ∃ t tail text, ts = t :: tail ∧ t.lexeme = .weight text := by
  obtain ⟨ms, rfl, mentionLexemes⟩ := takeMentions_taken mentioned
  obtain ⟨ss, rfl, stateLexemes⟩ := takeStates_taken stated
  obtain rfl := List.map_eq_nil_iff.mp mentionLexemes
  obtain rfl := List.map_eq_nil_iff.mp stateLexemes
  obtain ⟨ws, text, rfl, weightLexemes, -⟩ := readWeight_taken weighed
  cases text with
  | none =>
    obtain rfl := List.map_eq_nil_iff.mp weightLexemes
    rw [List.nil_append, List.nil_append, List.nil_append, ends] at opens
    cases opens
  | some text =>
    obtain ⟨t, tail, rfl, isWeight, -⟩ := List.map_eq_cons_iff.mp weightLexemes
    exact ⟨t, _, text, rfl, isWeight⟩

omit [Scalar ω] in
theorem isAt_of_checkItem {rule : String} {item : ItemDraft ω} {next : Token} {ts : List Token}
    {e : LoadError} (h : checkItem rule item next = .error e) (isNext : next ∈ ts)
    (weight : item.mentions = [] → item.states = [] → next.lexeme.endsItem = true →
      ∃ t ∈ ts, item.line = t.line ∧ ∃ text, t.lexeme = .weight text) : e.IsAt ts := by
  unfold checkItem at h
  split at h
  · rename_i endsItem
    split at h
    · rename_i empty
      cases h
      rw [Bool.and_eq_true, List.isEmpty_iff, List.isEmpty_iff] at empty
      exact weight empty.1 empty.2 endsItem
    · cases h
  · split at h
    · rename_i isMention
      cases h
      exact ⟨next, isNext, rfl, isMention⟩
    · cases h
      exact ⟨next, isNext, rfl, rfl⟩

omit [Scalar ω] in
theorem settles_checkItem (rule : String) {item : ItemDraft ω} {sites ts : List Token}
    (ends : Token.Ends ts)
    (weight : item.mentions = [] → item.states = [] → (Token.front ts).lexeme.endsItem = true →
      ∃ t ∈ sites, item.line = t.line ∧ ∃ text, t.lexeme = .weight text) :
    Settles (fun ts => (checkItem rule item (Token.front ts)).map fun _ => (item, ts))
      sites ts := by
  cases checked : checkItem rule item (Token.front ts) with
  | ok _ =>
    refine .stops item (fun more => ?_) (List.suffix_refl ts) ends
    rw [ends.front_append, checked]
    rfl
  | error e =>
    refine .fails (e := e) (fun more => ?_) ?_
    · rw [ends.front_append, checked]
      rfl
    · refine isAt_of_checkItem checked (List.mem_append_right sites ends.front_mem) ?_
      intro noMentions noStates endsItem
      obtain ⟨t, isSite, begins⟩ := weight noMentions noStates endsItem
      exact ⟨t, List.mem_append_left ts isSite, begins⟩

theorem settles_readItem (rule : String) (condition : Option Condition) {ts : List Token}
    (ends : Token.Ends ts) (opens : (Token.front ts).lexeme.endsItem = false) :
    Settles (readItem (ω := ω) rule condition) [] ts := by
  have parts : Settles (fun rest => readWeight (ω := ω) rule rest >>= fun w =>
      .ok (takeMentions w.2) >>= fun m => .ok (takeStates m.2) >>= fun s =>
        let item : ItemDraft ω := ⟨(Token.front ts).line, w.1, m.1, condition, s.1⟩
        (checkItem rule item (Token.front s.2)).map fun _ => (item, s.2)) [] ts := by
    refine (settles_readWeight (ω := ω) rule ends).bind
      fun weight afterWeight weighed _ endsWeight => ?_
    dsimp only
    refine ((settles_takeMentions endsWeight).mono (List.nil_subset _)).bind
      fun mentions afterMentions mentioned _ endsMentions => ?_
    dsimp only
    refine ((settles_takeStates endsMentions).mono (List.nil_subset _)).bind
      fun states behind stated _ endsStates => ?_
    dsimp only
    refine settles_checkItem rule endsStates fun noMentions noStates endsItem => ?_
    obtain rfl : mentions = [] := noMentions
    obtain rfl : states = [] := noStates
    obtain ⟨t, tail, text, rfl, isWeight⟩ := exists_weight_of_empty weighed opens
      (Except.ok.inj mentioned) (Except.ok.inj stated) endsItem
    exact ⟨t, by simp, rfl, text, isWeight⟩
  refine parts.after (fun more => ?_) (List.suffix_refl ts)
  rw [readItem, ends.front_append]
  rfl

/-! ### Bodies -/

theorem endsItem_eq_false {l : Lexeme} (notBreak : ∀ mark, l ≠ .lineBreak mark)
    (notClose : l ≠ .closeBrace) (notEnd : l ≠ .endOfInput) : l.endsItem = false := by
  cases l with
  | lineBreak mark => exact absurd rfl (notBreak mark)
  | closeBrace => exact absurd rfl notClose
  | endOfInput => exact absurd rfl notEnd
  | _ => rfl

section
variable {rule : String} {ruleLine : Nat} {sites ts : List Token}

/-- A line of a block that is no state, that no condition begins and that does not end the block is
an item. -/
theorem readBlock_eq_bind (condition : Option Condition) {t : Token}
    (notBreak : ∀ mark, t.lexeme ≠ .lineBreak mark) (notClose : t.lexeme ≠ .closeBrace)
    (notEnd : t.lexeme ≠ .endOfInput) (notState : ∀ key value, t.lexeme ≠ .state key value)
    (notGate : ¬t.lexeme.gates = true) (ts : List Token) :
    readBlock (ω := ω) rule ruleLine condition (t :: ts) =
      readItem rule condition (t :: ts) >>= fun item =>
        (readBlock rule ruleLine condition item.2).map fun (body, rest) =>
          (body.withItems [item.1], rest) := by
  rw [readBlock]
  split
  · exact absurd ‹_› (notBreak _)
  · exact absurd ‹_› notClose
  · exact absurd ‹_› notEnd
  · exact absurd ‹_› (notState _ _)
  · rw [if_neg notGate]
    split
    · rename_i failed
      rw [failed]
      rfl
    · rename_i read
      rw [read]
      rfl

theorem settles_itemLine {condition : Option Condition} {t : Token} {tail : List Token}
    (notBreak : ∀ mark, t.lexeme ≠ .lineBreak mark) (notClose : t.lexeme ≠ .closeBrace)
    (notEnd : t.lexeme ≠ .endOfInput) (notState : ∀ key value, t.lexeme ≠ .state key value)
    (notGate : ¬t.lexeme.gates = true) (ends : Token.Ends (t :: tail))
    (goesOn : ∀ item behind, readItem (ω := ω) rule condition (t :: tail) = .ok (item, behind) →
      Token.Ends behind → Settles (readBlock (ω := ω) rule ruleLine condition) sites behind) :
    Settles (readBlock (ω := ω) rule ruleLine condition) sites (t :: tail) := by
  have item : Settles (readItem (ω := ω) rule condition) sites (t :: tail) :=
    (settles_readItem rule condition ends (endsItem_eq_false notBreak notClose notEnd)).mono
      (List.nil_subset _)
  have parts : Settles (fun rest => readItem rule condition rest >>= fun item =>
      (readBlock (ω := ω) rule ruleLine condition item.2).map fun (body, rest) =>
        (body.withItems [item.1], rest)) sites (t :: tail) := by
    refine item.bind fun item behind isItem _ endsBehind => ?_
    exact ((goesOn item behind isItem endsBehind).map (·.withItems [item])).mono (by simp)
  exact parts.after (fun more => readBlock_eq_bind condition notBreak notClose notEnd notState
    notGate (tail ++ more)) (List.suffix_refl _)

theorem settles_readBlock (condition : Option Condition) (head : ⟨.name rule, ruleLine⟩ ∈ sites)
    (ends : Token.Ends ts) : Settles (readBlock (ω := ω) rule ruleLine condition) sites ts := by
  have unclosed : ∀ ts, LoadError.IsAt ⟨ruleLine, .unclosedRule rule⟩ (sites ++ ts) :=
    fun ts => ⟨_, List.mem_append_left ts head, rfl, rfl⟩
  fun_induction readBlock (ω := ω) rule ruleLine condition ts with
  | case1 => exact absurd ends not_ends_nil
  | case2 t tail mark isBreak ih =>
    exact (ih (ends.tail (by simp [isBreak]))).after (fun more => by simp [readBlock, isBreak])
      (List.suffix_cons t tail)
  | case3 t tail isClose =>
    have behind := ends.tail (by simp [isClose])
    exact .stops {} (fun more => by simp [readBlock, isClose]) (List.suffix_cons t tail) behind
  | case4 t tail isEnd =>
    exact .fails (fun more => by simp [readBlock, isEnd]) (unclosed _)
  | case5 t tail key value isState ih =>
    exact ((ih (ends.tail (by simp [isState]))).map (·.withState ⟨key, value⟩)).after
      (fun more => by simp [readBlock, isState]) (List.suffix_cons t tail)
  | case6 t tail notBreak notClose notEnd notState gates =>
    refine .fails (e := ⟨t.line, .strayInBlock rule t.lexeme⟩) (fun more => ?_)
      ⟨t, List.mem_append_right sites List.mem_cons_self, rfl, rfl⟩
    cases isLexeme : t.lexeme <;> simp_all [readBlock, Lexeme.gates]
  | case7 t tail e failed notBreak notClose notEnd notState notGate =>
    refine settles_itemLine notBreak notClose notEnd notState notGate ends ?_
    intro item behind isItem
    rw [failed] at isItem
    cases isItem
  | case8 t tail item afterItem isItem notBreak notClose notEnd notState notGate ih =>
    refine settles_itemLine notBreak notClose notEnd notState notGate ends ?_
    intro item behind again endsBehind
    cases isItem.symm.trans again
    exact ih endsBehind

/-! ### Bodies of conditional rules -/

theorem settles_readGated {line : Nat} (c : Condition) (head : ⟨.name rule, ruleLine⟩ ∈ sites)
    {gate : Token} (isSite : gate ∈ sites) (line_eq : line = gate.line)
    (starts : gate.lexeme.startsCondition = true) (ends : Token.Ends ts) :
    Settles (readGated (ω := ω) rule ruleLine line c) sites ts := by
  cases ts with
  | nil => exact absurd ends not_ends_nil
  | cons t tail =>
    have gateIn : gate ∈ sites ++ t :: tail := List.mem_append_left _ isSite
    have bare : t.lexeme.endsItem = true →
        Settles (readGated (ω := ω) rule ruleLine line c) sites (t :: tail) := by
      intro endsItem
      refine .fails (e := ⟨line, .conditionWithoutItem rule c⟩) (fun more => ?_)
        ⟨gate, gateIn, line_eq, starts⟩
      cases isLexeme : t.lexeme <;> simp_all [readGated, Token.front, Lexeme.endsItem]
    cases isLexeme : t.lexeme with
    | closeParen =>
      exact .fails (e := ⟨t.line, .unopenedGroup⟩)
        (fun more => by simp [readGated, Token.front, isLexeme])
        ⟨t, List.mem_append_right sites List.mem_cons_self, rfl, isLexeme⟩
    | openBrace =>
      have block := settles_readBlock (ω := ω) (some c) head (ends.tail (by simp [isLexeme]))
      have inside : sites ++ tail ⊆ sites ++ t :: tail :=
        append_subset_of_suffix sites (List.suffix_cons t tail)
      cases read : readBlock (ω := ω) rule ruleLine (some c) tail with
      | error e =>
        exact .fails
          (fun more => by simp [readGated, Token.front, isLexeme, block.append, read, Except.map])
          ((block.isAt e read).mono inside)
      | ok pair =>
        obtain ⟨body, behind⟩ := pair
        obtain ⟨suffix, endsBehind⟩ := block.leaves body behind read
        by_cases empty : body.items = []
        · exact .fails (e := ⟨line, .emptyBlock rule c⟩)
            (fun more => by
              simp [readGated, Token.front, isLexeme, block.append, read, Except.map, empty])
            ⟨gate, gateIn, line_eq, starts⟩
        · exact .stops (body.items.map (·.withStates (body.states.map (·.orValue rule))))
            (fun more => by
              simp [readGated, Token.front, isLexeme, block.append, read, Except.map, empty])
            (suffix.trans (List.suffix_cons t tail)) endsBehind
    | lineBreak mark => exact bare (by rw [isLexeme]; rfl)
    | closeBrace => exact bare (by rw [isLexeme]; rfl)
    | endOfInput => exact bare (by rw [isLexeme]; rfl)
    | _ =>
      have opens : (Token.front (t :: tail)).lexeme.endsItem = false := by
        simp [Token.front, isLexeme, Lexeme.endsItem]
      have item := (settles_readItem (ω := ω) rule (some c) ends opens).map ([·])
      exact (item.mono (List.nil_subset _)).after
        (fun more => by simp [readGated, Token.front, isLexeme, Lexeme.endsItem])
        (List.suffix_refl _)

/-- A line that a condition begins is that condition and what it gates. -/
theorem readGatedBody_eq_bind {t : Token} (starts : t.lexeme.startsCondition = true)
    (ts : List Token) :
    readGatedBody (ω := ω) rule ruleLine (t :: ts) =
      Condition.read (t :: ts) >>= fun c =>
        readGated rule ruleLine t.line c.1 c.2 >>= fun items =>
          (readGatedBody rule ruleLine items.2).map fun (body, rest) =>
            (body.withItems items.1, rest) := by
  rw [readGatedBody]
  split
  · rename_i isBreak
    simp [isBreak, Lexeme.startsCondition] at starts
  · rename_i isClose
    simp [isClose, Lexeme.startsCondition] at starts
  · rename_i isEnd
    simp [isEnd, Lexeme.startsCondition] at starts
  · rename_i isState
    simp [isState, Lexeme.startsCondition] at starts
  · split
    · rename_i bare
      revert starts bare
      cases t.lexeme <;> simp [Lexeme.startsCondition, Lexeme.startsBareItem]
    · split
      · rename_i failed
        rw [failed]
        rfl
      · rename_i read
        rw [read]
        simp only [bind, Except.bind]
        split
        · rename_i failed
          rw [failed]
        · rename_i gated
          rw [gated]

theorem settles_gatedLine {t : Token} {tail : List Token} (head : ⟨.name rule, ruleLine⟩ ∈ sites)
    (starts : t.lexeme.startsCondition = true) (ends : Token.Ends (t :: tail))
    (goesOn : ∀ c afterCondition items behind,
      Condition.read (t :: tail) = .ok (c, afterCondition) →
      readGated (ω := ω) rule ruleLine t.line c afterCondition = .ok (items, behind) →
      Token.Ends behind → Settles (readGatedBody (ω := ω) rule ruleLine) sites behind) :
    Settles (readGatedBody (ω := ω) rule ruleLine) sites (t :: tail) := by
  have parts : Settles (fun rest => Condition.read rest >>= fun c =>
      readGated (ω := ω) rule ruleLine t.line c.1 c.2 >>= fun items =>
        (readGatedBody rule ruleLine items.2).map fun (body, rest) =>
          (body.withItems items.1, rest)) sites (t :: tail) := by
    refine ((Condition.settles_read ends).mono (List.nil_subset _)).bind
      fun c afterCondition isCondition _ endsAfter => ?_
    refine (settles_readGated c (List.mem_append_left _ head)
      (List.mem_append_right _ List.mem_cons_self) rfl starts endsAfter).bind
      fun items behind isGated _ endsBehind => ?_
    have more := goesOn c afterCondition items behind isCondition isGated endsBehind
    exact (more.map (·.withItems items)).mono (by simp)
  exact parts.after (fun more => readGatedBody_eq_bind starts (tail ++ more)) (List.suffix_refl _)

theorem settles_readGatedBody (head : ⟨.name rule, ruleLine⟩ ∈ sites) (ends : Token.Ends ts) :
    Settles (readGatedBody (ω := ω) rule ruleLine) sites ts := by
  have unclosed : ∀ ts, LoadError.IsAt ⟨ruleLine, .unclosedRule rule⟩ (sites ++ ts) :=
    fun ts => ⟨_, List.mem_append_left ts head, rfl, rfl⟩
  fun_induction readGatedBody (ω := ω) rule ruleLine ts with
  | case1 => exact absurd ends not_ends_nil
  | case2 t tail mark isBreak ih =>
    exact (ih (ends.tail (by simp [isBreak]))).after (fun more => by simp [readGatedBody, isBreak])
      (List.suffix_cons t tail)
  | case3 t tail isClose =>
    have behind := ends.tail (by simp [isClose])
    exact .stops {} (fun more => by simp [readGatedBody, isClose]) (List.suffix_cons t tail) behind
  | case4 t tail isEnd =>
    exact .fails (fun more => by simp [readGatedBody, isEnd]) (unclosed _)
  | case5 t tail key value isState ih =>
    exact ((ih (ends.tail (by simp [isState]))).map (·.withState ⟨key, value⟩)).after
      (fun more => by simp [readGatedBody, isState]) (List.suffix_cons t tail)
  | case6 t tail notBreak notClose notEnd notState bare =>
    refine .fails (e := ⟨t.line, .itemWithoutCondition rule⟩) (fun more => ?_)
      ⟨t, List.mem_append_right sites List.mem_cons_self, rfl, bare⟩
    cases isLexeme : t.lexeme <;> simp_all [readGatedBody, Lexeme.startsBareItem]
  | case7 t tail e failed _ _ _ _ _ starts =>
    refine settles_gatedLine head starts ends ?_
    intro c afterCondition items behind isCondition
    rw [failed] at isCondition
    cases isCondition
  | case8 t tail c afterCondition isCondition e failed _ _ _ _ _ starts =>
    refine settles_gatedLine head starts ends ?_
    intro c afterCondition items behind again isGated
    cases isCondition.symm.trans again
    rw [failed] at isGated
    cases isGated
  | case9 t tail c afterCondition isCondition items afterItems isGated _ _ _ _ _ starts ih =>
    refine settles_gatedLine head starts ends ?_
    intro c afterCondition items behind again againGated endsBehind
    cases isCondition.symm.trans again
    cases isGated.symm.trans againGated
    exact ih endsBehind
  | case10 t tail notBreak notClose notEnd notState notBare notStarts =>
    refine .fails (e := ⟨t.line, .noCondition rule t.lexeme⟩) (fun more => ?_)
      ⟨t, List.mem_append_right sites List.mem_cons_self, rfl, rfl⟩
    cases isLexeme : t.lexeme <;>
      simp_all [readGatedBody, Lexeme.startsBareItem, Lexeme.startsCondition]

/-! ### Rules -/

theorem settles_readBody (conditional : Bool) (head : ⟨.name rule, ruleLine⟩ ∈ sites)
    (ends : Token.Ends ts) : Settles (readBody (ω := ω) rule ruleLine conditional) sites ts := by
  cases conditional with
  | true => exact (settles_readGatedBody head ends).after (fun _ => rfl) (List.suffix_refl ts)
  | false => exact (settles_readBlock none head ends).after (fun _ => rfl) (List.suffix_refl ts)

omit [Scalar ω] in
theorem settles_takeQuestion (ends : Token.Ends ts) :
    Settles (fun ts => .ok (takeQuestion ts)) [] ts := by
  cases ts with
  | nil => exact absurd ends not_ends_nil
  | cons t tail =>
    obtain ⟨l, line⟩ := t
    cases l with
    | question =>
      have behind : Token.Ends tail := ends.tail (by simp)
      exact .stops true (fun more => rfl) (List.suffix_cons _ tail) behind
    | _ => exact .stops false (fun more => rfl) (List.suffix_refl _) ends

theorem readRule_of_openBrace {seen : List (String × Nat)} {line : Nat} {tail inner : List Token}
    {conditional : Bool} {t : Token} (fresh : seen.lookup rule = none)
    (head : takeQuestion tail = (conditional, t :: inner)) (isOpen : t.lexeme = .openBrace) :
    readRule (ω := ω) seen (⟨.name rule, line⟩ :: tail) =
      (readBody rule line conditional inner).map fun (body, behind) =>
        (⟨rule, conditional, line, body⟩, behind) := by
  simp [readRule, fresh, head, Token.front, isOpen]

theorem readRule_of_noBrace {seen : List (String × Nat)} {line : Nat} {tail inner : List Token}
    {conditional : Bool} {t : Token} (fresh : seen.lookup rule = none)
    (head : takeQuestion tail = (conditional, t :: inner)) (notOpen : t.lexeme ≠ .openBrace) :
    readRule (ω := ω) seen (⟨.name rule, line⟩ :: tail) =
      .error ⟨t.line, .noBrace rule t.lexeme⟩ := by
  simp only [readRule, fresh, head]
  split
  · exact absurd ‹_› notOpen
  · rfl

theorem settles_readRule_of_fresh {seen : List (String × Nat)} (fresh : seen.lookup rule = none)
    (line : Nat) (ends : Token.Ends ts) :
    Settles (readRule (ω := ω) seen) [] (⟨.name rule, line⟩ :: ts) := by
  have question := settles_takeQuestion ends
  obtain ⟨conditional, afterHead, head⟩ :
      ∃ conditional afterHead, takeQuestion ts = (conditional, afterHead) := ⟨_, _, rfl⟩
  obtain ⟨suffix, endsHead⟩ := question.leaves conditional afterHead (congrArg _ head)
  cases afterHead with
  | nil => exact absurd endsHead not_ends_nil
  | cons t inner =>
    have inside : t :: inner <:+ ⟨.name rule, line⟩ :: ts := suffix.trans (List.suffix_cons _ ts)
    have moreHead : ∀ more, takeQuestion (ts ++ more) = (conditional, t :: (inner ++ more)) := by
      intro more
      have again := Except.ok.inj (question.append more)
      rwa [head] at again
    by_cases isOpen : t.lexeme = .openBrace
    · have body : Settles (readBody (ω := ω) rule line conditional) [⟨.name rule, line⟩] inner :=
        settles_readBody conditional (List.mem_singleton_self _)
          (endsHead.tail (by simp [isOpen]))
      have reads := (body.map (⟨rule, conditional, line, ·⟩ : _ → RuleDraft ω)).after
        (fun more => readRule_of_openBrace fresh (moreHead more) isOpen)
        ((List.suffix_cons t inner).trans inside)
      exact reads.mono (List.cons_subset.mpr ⟨List.mem_cons_self, List.nil_subset _⟩)
    · exact .fails (fun more => readRule_of_noBrace fresh (moreHead more) isOpen)
        ⟨t, inside.subset List.mem_cons_self, rfl, rfl⟩

theorem settles_readRule (seen : List (String × Nat)) (ends : Token.Ends ts) :
    Settles (readRule (ω := ω) seen) [] ts := by
  cases ts with
  | nil => exact absurd ends not_ends_nil
  | cons t tail =>
    obtain ⟨l, line⟩ := t
    cases l with
    | name rule =>
      cases found : seen.lookup rule with
      | some firstLine =>
        exact .fails (e := ⟨line, .duplicateRule rule firstLine⟩)
          (fun more => by simp [readRule, found]) ⟨_, List.mem_cons_self, rfl, rfl⟩
      | none =>
        have behind : Token.Ends tail := ends.tail (by simp)
        exact settles_readRule_of_fresh found line behind
    | _ =>
      exact .fails (e := ⟨line, .noRuleName _⟩) (fun more => rfl) ⟨_, List.mem_cons_self, rfl, rfl⟩

/-- Behind line breaks and in front of the end, what is left is a rule and the rules behind it. -/
theorem readRules_eq_bind {seen : List (String × Nat)} {t : Token}
    (notBreak : ∀ mark, t.lexeme ≠ .lineBreak mark) (notEnd : t.lexeme ≠ .endOfInput)
    (ts : List Token) :
    readRules (ω := ω) seen (t :: ts) =
      readRule seen (t :: ts) >>= fun (draft, behind) =>
        (readRules ((draft.name, draft.line) :: seen) behind).map (draft :: ·) := by
  rw [readRules]
  split
  · exact absurd ‹_› (notBreak _)
  · exact absurd ‹_› notEnd
  · split
    · rename_i failed
      rw [failed]
      rfl
    · rename_i read
      rw [read]
      rfl

/-- Nothing is read that would stand behind the end of input, and errors are at tokens. -/
theorem readRules_settles {seen : List (String × Nat)} (ends : Token.Ends ts) :
    (∀ more, readRules (ω := ω) seen (ts ++ more) = readRules seen ts) ∧
      ∀ e, readRules (ω := ω) seen ts = .error e → e.IsAt ts := by
  fun_induction readRules (ω := ω) seen ts with
  | case1 => exact absurd ends not_ends_nil
  | case2 seen t tail mark isBreak ih =>
    obtain ⟨same, isAt⟩ := ih (ends.tail (by simp [isBreak]))
    refine ⟨fun more => ?_, fun e h => (isAt e h).mono (List.subset_cons_self t tail)⟩
    rw [← same more]
    simp [readRules, isBreak]
  | case3 seen t tail isEnd =>
    refine ⟨fun more => ?_, fun e h => by cases h⟩
    simp [readRules, isEnd]
  | case4 seen t tail e failed notBreak notEnd =>
    have rule := settles_readRule (ω := ω) seen ends
    refine ⟨fun more => ?_, fun e' h => ?_⟩
    · rw [List.cons_append, readRules_eq_bind notBreak notEnd, ← List.cons_append, rule.append,
        failed]
      rfl
    · cases h
      exact rule.isAt e failed
  | case5 seen t tail draft afterRule isRule notBreak notEnd ih =>
    have rule := settles_readRule (ω := ω) seen ends
    obtain ⟨suffix, endsAfter⟩ := rule.leaves draft afterRule isRule
    obtain ⟨same, isAt⟩ := ih endsAfter
    refine ⟨fun more => ?_, fun e h => (isAt e (map_eq_error h)).mono suffix.subset⟩
    rw [List.cons_append, readRules_eq_bind notBreak notEnd, ← List.cons_append, rule.append,
      isRule, ← same more]
    rfl

end

end WeightedGrammar

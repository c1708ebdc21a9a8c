import WeightedGrammar.Number.Double
import WeightedGrammar.Proofs.Grammar.Printed

/-!
Round trips. A grammar that was loaded is loaded again from its printed text, weights being read
back as they are written (`Grammar.ofText_toText`).
-/

namespace WeightedGrammar
open Text Lexeme
variable {ω : Type}

/-! ### Forms that were derived -/

/-- The item may stand in the body of a rule, where a conditional rule wants a normal condition and
another one wants none. -/
def ItemForm.Stands (conditional : Bool) (f : ItemForm ω) : Prop :=
  f.isFilled = true ∧
    if conditional then ∃ c, f.condition = some c ∧ c.isNormal = true
    else f.condition = none ∧ f.opensLine = true

theorem isName_of_expresses {ls : List Lexeme} {c : Condition}
    (gate : Condition.Expresses .tree .disjunction ls c) (writable : ∀ l ∈ ls, l.IsWritable) :
    ∀ name ∈ c.names, IsName name := by
  intro name member
  rw [Condition.names_eq_filterMap, (Condition.expresses_tree_iff.mp gate).2,
    List.mem_filterMap] at member
  obtain ⟨l, isLexeme, isName⟩ := member
  cases l with
  | name text =>
    obtain rfl := Option.some.inj isName
    exact writable _ isLexeme
  | _ => cases isName

theorem isWritable_of_lexemes {f : ItemForm String}
    (condition : ∀ c ∈ f.condition, ∀ name ∈ c.names, IsName name)
    (writable : ∀ l ∈ f.lexemes, l.IsWritable) : f.IsWritable := by
  simp only [ItemForm.lexemes, List.forall_mem_append, List.forall_mem_map] at writable
  exact ⟨condition, writable.1.2, writable.2⟩

/-- The body is made of items that may stand in it, and all of it can be written. -/
structure BodyForm.Stands (conditional : Bool) (b : BodyForm String) : Prop where
  states : ∀ s ∈ b.states, s.lexeme.IsWritable
  items : ∀ f ∈ b.items, f.Stands conditional ∧ f.IsWritable

theorem BodyForm.stands_empty (conditional : Bool) : ({} : BodyForm String).Stands conditional :=
  ⟨by simp, by simp⟩

theorem BodyForm.Stands.withState {conditional : Bool} {s : StateExpr} {b : BodyForm String}
    (writable : s.lexeme.IsWritable) (stands : b.Stands conditional) :
    (b.withState s).Stands conditional :=
  ⟨List.forall_mem_cons.mpr ⟨writable, stands.states⟩, stands.items⟩

theorem BodyForm.Stands.withItems {conditional : Bool} {items : List (ItemForm String)}
    {b : BodyForm String} (front : ∀ f ∈ items, f.Stands conditional ∧ f.IsWritable)
    (stands : b.Stands conditional) : (b.withItems items).Stands conditional :=
  ⟨stands.states, List.forall_mem_append.mpr ⟨front, stands.items⟩⟩

theorem items_of_block {condition : Option Condition} {ls : List Lexeme} {body : BodyForm String}
    (h : Block condition ls body) (names : ∀ c ∈ condition, ∀ name ∈ c.names, IsName name)
    (writable : ∀ l ∈ ls, l.IsWritable) :
    (∀ s ∈ body.states, s.lexeme.IsWritable) ∧
      ∀ f ∈ body.items, f.isFilled = true ∧ f.condition = condition ∧ f.opensLine = true ∧
        f.IsWritable := by
  induction h with
  | close => exact ⟨by simp, by simp⟩
  | lineBreak mark _ ih => exact ih (List.forall_mem_cons.mp writable).2
  | state s _ ih =>
    obtain ⟨first, rest⟩ := List.forall_mem_cons.mp writable
    obtain ⟨states, items⟩ := ih rest
    exact ⟨List.forall_mem_cons.mpr ⟨first, states⟩, items⟩
  | item under opens filled _ _ ih =>
    obtain ⟨first, rest⟩ := List.forall_mem_append.mp writable
    obtain ⟨states, items⟩ := ih rest
    have canWrite := isWritable_of_lexemes (under ▸ names) first
    exact ⟨states, List.forall_mem_cons.mpr ⟨⟨filled, under, opens, canWrite⟩, items⟩⟩

theorem isWritable_withStates {rule : String} (isName : IsName rule) {states : List StateExpr}
    {f : ItemForm String} (writableStates : ∀ s ∈ states, s.lexeme.IsWritable)
    (writable : f.IsWritable) : (f.withStates (states.map (·.orValue rule))).IsWritable := by
  refine ⟨writable.condition, writable.words, List.forall_mem_append.mpr ⟨?_, writable.states⟩⟩
  rw [List.forall_mem_map]
  intro s member
  obtain ⟨isKey, enclosable⟩ := writableStates s member
  refine ⟨isKey, ?_⟩
  rintro _ ⟨⟩
  cases value : s.value with
  | none => exact isEnclosable_of_isName isName
  | some text => exact enclosable text value

theorem stands_of_gatedBody {rule : String} (isName : IsName rule) {ls : List Lexeme}
    {body : BodyForm String} (h : GatedBody rule ls body) (writable : ∀ l ∈ ls, l.IsWritable) :
    body.Stands true := by
  induction h with
  | close => exact BodyForm.stands_empty true
  | lineBreak mark _ ih => exact ih (List.forall_mem_cons.mp writable).2
  | state s _ ih =>
    obtain ⟨first, rest⟩ := List.forall_mem_cons.mp writable
    exact .withState first (ih rest)
  | @block c cs bs ls block body gate lines _ _ ih =>
    obtain ⟨writableGate, others⟩ := List.forall_mem_append.mp writable
    obtain ⟨writableBlock, rest⟩ :=
      List.forall_mem_append.mp (List.forall_mem_cons.mp others).2
    have names := isName_of_expresses gate writableGate
    have normal := (Condition.expresses_tree_iff.mp gate).1
    obtain ⟨states, items⟩ := items_of_block lines (by simpa using names) writableBlock
    refine .withItems ?_ (ih rest)
    rw [BodyForm.spread, List.forall_mem_map]
    intro f member
    obtain ⟨filled, under, -, canWrite⟩ := items f member
    refine ⟨⟨?_, c, under, normal⟩, isWritable_withStates isName states canWrite⟩
    revert filled
    simp only [ItemForm.isFilled, ItemForm.withStates, Bool.not_eq_true', Bool.and_eq_false_iff,
      List.isEmpty_eq_false_iff, ne_eq, List.append_eq_nil_iff, not_and]
    tauto
  | @item c cs ls f body gate under filled _ _ ih =>
    obtain ⟨writableGate, others⟩ := List.forall_mem_append.mp writable
    obtain ⟨writableItem, rest⟩ := List.forall_mem_append.mp others
    have names := isName_of_expresses gate writableGate
    have normal := (Condition.expresses_tree_iff.mp gate).1
    have canWrite := isWritable_of_lexemes (by simpa [under] using names) writableItem
    refine .withItems ?_ (ih rest)
    rw [List.forall_mem_singleton]
    exact ⟨⟨filled, c, under, normal⟩, canWrite⟩

theorem stands_of_ruleText {ls : List Lexeme} {form : RuleForm String} (h : RuleText ls form)
    (writable : ∀ l ∈ ls, l.IsWritable) :
    IsName form.name ∧ form.body.Stands form.conditional := by
  cases h with
  | plain name lines =>
    obtain ⟨isName, others⟩ := List.forall_mem_cons.mp writable
    obtain ⟨states, items⟩ :=
      items_of_block lines (by simp) (List.forall_mem_cons.mp others).2
    refine ⟨isName, states, ?_⟩
    intro f member
    obtain ⟨filled, under, opens, canWrite⟩ := items f member
    exact ⟨⟨filled, under, opens⟩, canWrite⟩
  | gated name lines =>
    obtain ⟨isName, others⟩ := List.forall_mem_cons.mp writable
    have inner := (List.forall_mem_cons.mp (List.forall_mem_cons.mp others).2).2
    exact ⟨isName, stands_of_gatedBody isName lines inner⟩

theorem stands_of_rulesText {ls : List Lexeme} {forms : List (RuleForm String)}
    (h : RulesText ls forms) (writable : ∀ l ∈ ls, l.IsWritable) :
    ∀ r ∈ forms, IsName r.name ∧ r.body.Stands r.conditional := by
  induction h with
  | endOfInput => simp
  | lineBreak mark _ ih => exact ih (List.forall_mem_cons.mp writable).2
  | rule first _ ih =>
    obtain ⟨writableFirst, rest⟩ := List.forall_mem_append.mp writable
    exact List.forall_mem_cons.mpr ⟨stands_of_ruleText first writableFirst, ih rest⟩

/-! ### Printed lexemes derive their form -/

theorem Block.line_of_stands {f : ItemForm String} {ls : List Lexeme} {body : BodyForm String}
    (stands : f.Stands false) (ends : endsLine ls = true) (more : Block none ls body) :
    Block none (f.line ++ ls) (body.withItems [f]) := by
  obtain ⟨filled, under, opens⟩ := stands
  have noGate : f.line = f.lexemes := by simp [ItemForm.line, under]
  rw [noGate]
  exact .item under opens filled ends more

theorem GatedBody.line_of_stands {rule : String} {f : ItemForm String} {ls : List Lexeme}
    {body : BodyForm String} (stands : f.Stands true) (ends : endsLine ls = true)
    (more : GatedBody rule ls body) : GatedBody rule (f.line ++ ls) (body.withItems [f]) := by
  obtain ⟨filled, c, under, normal⟩ := stands
  have gate : Condition.Expresses .tree .disjunction c.flatten c :=
    Condition.expresses_tree_iff.mpr ⟨normal, rfl⟩
  have gated : f.line ++ ls = c.flatten ++ (f.lexemes ++ ls) := by simp [ItemForm.line, under]
  rw [gated]
  exact .item gate under filled ends more

section Lines
variable {derives : List Lexeme → BodyForm String → Prop} {items : List (ItemForm String)}

theorem derives_items (lines : DerivesLines derives)
    (item : ∀ f ∈ items, ∀ {ls body}, endsLine ls = true → derives ls body →
      derives (f.line ++ ls) (body.withItems [f])) :
    derives (items.flatMap (fun f => f.line ++ [.lineBreak .feed]) ++ [.closeBrace])
      ⟨items, []⟩ := by
  induction items with
  | nil => exact lines.close
  | cons f items ih =>
    obtain ⟨one, others⟩ := List.forall_mem_cons.mp item
    have whole := one rfl (lines.lineBreak .feed (ih others))
    simpa [BodyForm.withItems] using whole

theorem derives_statesLine (lines : DerivesLines derives) {ls : List Lexeme}
    (h : derives ls ⟨items, []⟩) (states : List StateExpr) :
    derives ((if states.isEmpty then [] else [states.map (·.lexeme)]).flatMap
      (· ++ [.lineBreak .feed]) ++ ls) ⟨items, states⟩ := by
  -- A break stands only behind a line that is written, hence the induction over other states.
  have spread : ∀ states : List StateExpr,
      derives (states.map (·.lexeme) ++ .lineBreak .feed :: ls) ⟨items, states⟩ := by
    intro states
    induction states with
    | nil => exact lines.lineBreak .feed h
    | cons s states ih => exact lines.state s ih
  cases states with
  | nil => exact h
  | cons s states => simpa using spread (s :: states)

end Lines

theorem ruleText_of_stands {r : RuleForm String}
    (stand : ∀ f ∈ r.body.items, f.Stands r.conditional) : RuleText r.lexemes r := by
  obtain ⟨name, conditional, items, states⟩ := r
  cases conditional with
  | false =>
    have lines := Block.derivesLines none
    have written := derives_items lines fun f member => Block.line_of_stands (stand f member)
    have whole := RuleText.plain name
      (lines.lineBreak .feed (derives_statesLine lines written states))
    simpa [RuleForm.lexemes, RuleForm.lines, List.flatMap_map] using whole
  | true =>
    have lines := GatedBody.derivesLines name
    have written := derives_items lines fun f member => GatedBody.line_of_stands (stand f member)
    have whole := RuleText.gated name
      (lines.lineBreak .feed (derives_statesLine lines written states))
    simpa [RuleForm.lexemes, RuleForm.lines, List.flatMap_map] using whole

/-! ### Printed grammars -/

section Printing
variable [Scalar ω]

theorem toText_ofForms (name : String) (rs : List (RuleForm ω)) :
    (Grammar.ofForms name rs).toText =
      "\n\n".intercalate (rs.map fun r => (r.rule (rs.map (·.name))).toText) ++ "\n" := by
  rw [Grammar.toText, Grammar.ofForms, List.map_map]
  rfl

theorem lexed_rules (weights : WritesWeights ω) (names : List String) {rs : List (RuleForm ω)}
    (writable : ∀ r ∈ rs, r.IsWritable)
    (stand : ∀ r ∈ rs, ∀ f ∈ r.written.body.items, f.Stands r.conditional) :
    ∃ ls, Lexed (("\n\n".intercalate (rs.map fun r => (r.rule names).toText) ++ "\n").toList) ls ∧
      RulesText ls (rs.map (·.written)) := by
  induction rs with
  | nil =>
    refine ⟨[.lineBreak .feed, .endOfInput], ?_, .lineBreak .feed .endOfInput⟩
    simpa using lexed_feed lexed_nil
  | cons r rs ih =>
    obtain ⟨writableFirst, writableRest⟩ := List.forall_mem_cons.mp writable
    obtain ⟨standFirst, standRest⟩ := List.forall_mem_cons.mp stand
    have first : RuleText r.written.lexemes r.written := ruleText_of_stands standFirst
    -- An empty line stands between two rules, but only the end of the line behind the last one.
    cases rs with
    | nil =>
      refine ⟨r.written.lexemes ++ [.lineBreak .feed, .endOfInput], ?_,
        .rule first (.lineBreak .feed .endOfInput)⟩
      simpa using lexed_rule weights names writableFirst (lexed_feed lexed_nil)
    | cons next rs =>
      obtain ⟨ls, lexed, derives⟩ := ih writableRest standRest
      refine ⟨r.written.lexemes ++ .lineBreak .feed :: .lineBreak .feed :: ls, ?_,
        .rule first (.lineBreak .feed (.lineBreak .feed derives))⟩
      have whole := lexed_rule weights names writableFirst (lexed_feed (lexed_feed lexed))
      rw [List.map_cons, List.map_cons, String.intercalate_cons_cons]
      simpa using whole

/-! ### Weights that are read back -/

def ItemForm.ReadsBack (f : ItemForm ω) : Prop :=
  ∀ w ∈ f.weight, Scalar.ofText? (Scalar.text w) = some w

theorem valued_written_item {f : ItemForm ω} (readsBack : f.ReadsBack) :
    (f.written.valued : ItemForm ω) = f := by
  obtain ⟨weight, words, condition, states⟩ := f
  cases weight with
  | none => rfl
  | some w => simp [ItemForm.written, ItemForm.valued, readsBack w rfl]

theorem valued_written {r : RuleForm ω} (readsBack : ∀ f ∈ r.body.items, f.ReadsBack) :
    (r.written.valued : RuleForm ω) = r := by
  have items : (r.body.items.map (·.written)).map (·.valued (ω := ω)) = r.body.items := by
    rw [List.map_map]
    exact (List.map_congr_left fun f member => valued_written_item (readsBack f member)).trans
      (List.map_id' r.body.items)
  obtain ⟨name, conditional, body, states⟩ := r
  simp only [RuleForm.written, RuleForm.valued, BodyForm.valued, items]

theorem valued_written_valued {r : RuleForm String}
    (readsBack : ∀ f ∈ r.body.items, (f.valued : ItemForm ω).ReadsBack) :
    ((r.valued : RuleForm ω).written.valued : RuleForm ω) = r.valued := by
  refine valued_written ?_
  rw [RuleForm.valued, BodyForm.valued, List.forall_mem_map]
  exact readsBack

theorem map_valued_written {forms : List (RuleForm String)}
    (readsBack : ∀ r ∈ forms, ∀ f ∈ r.body.items, (f.valued : ItemForm ω).ReadsBack) :
    (forms.map fun r => (r.valued : RuleForm ω).written).map (·.valued (ω := ω)) =
      forms.map (·.valued) := by
  rw [List.map_map]
  exact List.map_congr_left fun r isRule => valued_written_valued (readsBack r isRule)

theorem forall_mem_written_valued {r : RuleForm String} {meets : ItemForm String → Prop} :
    (∀ f ∈ (r.valued : RuleForm ω).written.body.items, meets f) ↔
      ∀ f ∈ r.body.items, meets (f.valued : ItemForm ω).written := by
  simp [RuleForm.written, RuleForm.valued, BodyForm.valued]

theorem weight_valued {f : ItemForm String} (fits : f.WeightFits ω) :
    (f.valued : ItemForm ω).weight.isSome = f.weight.isSome := by
  cases weight : f.weight with
  | none => simp [ItemForm.valued, weight]
  | some text =>
    obtain ⟨w, denotes, -⟩ := fits text weight
    simp [ItemForm.valued, weight, denotes]

theorem stands_written {conditional : Bool} {f : ItemForm String} (fits : f.WeightFits ω)
    (stands : f.Stands conditional) : (f.valued : ItemForm ω).written.Stands conditional := by
  have opens : (f.valued : ItemForm ω).written.opensLine = f.opensLine := by
    simp only [ItemForm.opensLine, ItemForm.written, Option.isSome_map, weight_valued fits]
    rfl
  obtain ⟨filled, under⟩ := stands
  refine ⟨filled, ?_⟩
  rw [opens]
  exact under

theorem weightFits_written {f : ItemForm String} (fits : f.WeightFits ω)
    (readsBack : (f.valued : ItemForm ω).ReadsBack) :
    (f.valued : ItemForm ω).written.WeightFits ω := by
  intro text member
  obtain ⟨w, isWeight, rfl⟩ := Option.map_eq_some_iff.mp member
  have again := readsBack w isWeight
  obtain ⟨source, isSource, denotes⟩ := Option.bind_eq_some_iff.mp isWeight
  obtain ⟨value, denotes', positive, small⟩ := fits source isSource
  obtain rfl := Option.some.inj (denotes.symm.trans denotes')
  exact ⟨w, again, positive, small⟩

theorem isLoadable_written {forms : List (RuleForm String)} (loadable : IsLoadable ω forms)
    (readsBack : ∀ r ∈ forms, ∀ f ∈ r.body.items, (f.valued : ItemForm ω).ReadsBack) :
    IsLoadable ω (forms.map fun r => (r.valued : RuleForm ω).written) := by
  have sameNames : (forms.map fun r => (r.valued : RuleForm ω).written).map (·.name) =
      forms.map (·.name) := by
    simp [Function.comp_def, RuleForm.written, RuleForm.valued]
  refine ⟨sameNames ▸ loadable.distinct, ?_, ?_, ?_⟩
  · rw [List.forall_mem_map]
    intro r member
    refine forall_mem_written_valued.mpr fun f isItem => ?_
    exact weightFits_written (loadable.fits r member f isItem) (readsBack r member f isItem)
  · rw [List.forall_mem_map]
    intro r member
    have same : ((r.valued : RuleForm ω).written.body.valued : BodyForm ω) = r.body.valued :=
      congrArg RuleForm.body (valued_written_valued (readsBack r member))
    rw [same]
    exact loadable.balanced r member
  · rw [List.forall_mem_map, sameNames]
    intro r member
    exact forall_mem_written_valued.mpr (loadable.known r member)

theorem isWritable_valued {r : RuleForm String} (isName : IsName r.name)
    (stands : r.body.Stands r.conditional) : (r.valued : RuleForm ω).IsWritable := by
  refine ⟨isName, stands.states, ?_⟩
  show ∀ f ∈ List.map _ r.body.items, ItemForm.IsWritable f
  rw [List.forall_mem_map]
  intro f member
  obtain ⟨-, condition, words, states⟩ := stands.items f member
  exact ⟨condition, words, states⟩

/-- A loaded grammar is loaded again from its printed text, if its weights are read back. -/
theorem ofText_toText_of_readsBack (weights : WritesWeights ω) {text name : String} {g : Grammar ω}
    (loaded : Grammar.ofText text name = .ok g)
    (readsBack : ∀ r ∈ g.rules, ∀ item ∈ r.items, ∀ w ∈ item.weight,
      Scalar.ofText? (Scalar.text w) = some w) (other : String) :
    Grammar.ofText g.toText other = .ok { g with name := other } := by
  obtain ⟨tokens, forms, lexed, derives, loadable, rfl⟩ := Grammar.ofText_eq_ok_iff.mp loaded
  have readsBackForms : ∀ r ∈ forms, ∀ f ∈ r.body.items, (f.valued : ItemForm ω).ReadsBack := by
    intro r isRule f isItem w isWeight
    exact readsBack _ (List.mem_map_of_mem (List.mem_map_of_mem isRule)) _
      (List.mem_map_of_mem (List.mem_map_of_mem isItem)) w isWeight
  have writableTokens : ∀ l ∈ tokens.map (·.lexeme), l.IsWritable := by
    rw [List.forall_mem_map]
    exact isWritable_of_tokensFrom lexed
  have stands := stands_of_rulesText derives writableTokens
  have writable : ∀ r ∈ forms.map (·.valued (ω := ω)), r.IsWritable := by
    rw [List.forall_mem_map]
    exact fun r isRule => isWritable_valued (stands r isRule).1 (stands r isRule).2
  have stand : ∀ r ∈ forms.map (·.valued (ω := ω)), ∀ f ∈ r.written.body.items,
      f.Stands r.conditional := by
    rw [List.forall_mem_map]
    intro r isRule
    refine forall_mem_written_valued.mpr fun f isItem => ?_
    exact stands_written (loadable.fits r isRule f isItem) ((stands r isRule).2.items f isItem).1
  obtain ⟨ls, lexedAgain, derivesAgain⟩ :=
    lexed_rules weights ((forms.map (·.valued (ω := ω))).map (·.name)) writable stand
  obtain ⟨tokensAgain, read, same⟩ := lexedAgain 1
  rw [Grammar.ofText_eq_ok_iff]
  refine ⟨tokensAgain, _, ?_, ?_, isLoadable_written loadable readsBackForms, ?_⟩
  · rw [Token.ofText, toText_ofForms]
    exact read
  · rw [same]
    simpa [Function.comp_def] using derivesAgain
  · rw [map_valued_written readsBackForms]
    rfl

end Printing

/-! ### Doubles -/

theorem isWeightChar_of_isDigit {c : Char} (digit : c.isDigit = true) : isWeightChar c = true := by
  have word : isWord c = true := by
    simp only [Char.isDigit, Bool.and_eq_true, decide_eq_true_eq, ge_iff_le, UInt32.le_iff_toNat_le]
      at digit
    have low : 48 ≤ c.toNat := digit.1
    have high : c.toNat ≤ 57 := digit.2
    have ascii : c.toNat < 128 := by omega
    simp only [isWord, ascii, if_true, inTable, asciiWordTable, List.any_cons, List.any_nil,
      CodeRange.holds, Bool.or_eq_true, Bool.and_eq_true, decide_eq_true_eq, Bool.or_false]
    omega
  simp [isWeightChar, isBlank_of_isWord word, not_isQuote_of_isWord word,
    ne_of_isWord word (show isWord '\x7b' = false by decide),
    ne_of_isWord word (show isWord '\x7d' = false by decide),
    ne_of_isWord word (show isWord '(' = false by decide),
    ne_of_isWord word (show isWord ')' = false by decide)]

theorem isWeightChar_toDigits (n : Nat) : ∀ c ∈ Nat.toDigits 10 n, isWeightChar c = true :=
  fun _ member =>
    isWeightChar_of_isDigit (Nat.isDigit_of_mem_toDigits (by decide) (by decide) member)

theorem isWeightChar_toString (n : Nat) : ∀ c ∈ (toString n).toList, isWeightChar c = true := by
  rw [Nat.toString_eq_ofList_toDigits, String.toList_ofList]
  exact isWeightChar_toDigits n

theorem isWeightChar_twoDigits (n : Nat) :
    ∀ c ∈ (Decimal.twoDigits n).toList, isWeightChar c = true := by
  unfold Decimal.twoDigits
  split
  · rw [String.toList_append]
    exact List.forall_mem_append.mpr ⟨List.all_eq_true.mp (by decide), isWeightChar_toString n⟩
  · exact isWeightChar_toString n

theorem isWeightChar_pointText (p : Decimal.Point) :
    ∀ c ∈ p.text.toList, isWeightChar c = true := by
  have digits := isWeightChar_toDigits p.digits
  have front : ∀ n, ∀ c ∈ (Nat.toDigits 10 p.digits).take n, isWeightChar c = true :=
    fun n c member => digits c (List.mem_of_mem_take member)
  have back : ∀ n, ∀ c ∈ (Nat.toDigits 10 p.digits).drop n, isWeightChar c = true :=
    fun n c member => digits c (List.mem_of_mem_drop member)
  have point : isWeightChar '.' = true := by decide
  have zero : isWeightChar '0' = true := by decide
  unfold Decimal.Point.text
  dsimp only
  split
  · rw [String.toList_ofList, List.forall_mem_append, List.forall_mem_cons]
    exact ⟨front _, point, back _⟩
  · split
    · rw [String.toList_ofList, List.forall_mem_append, List.forall_mem_cons, List.forall_mem_cons]
      refine ⟨⟨zero, point, ?_⟩, digits⟩
      intro c member
      exact (List.eq_of_mem_replicate member) ▸ zero
    · rw [String.toList_append, String.toList_append, String.toList_ofList, List.forall_mem_append,
        List.forall_mem_append, List.forall_mem_append]
      refine ⟨⟨⟨front 1, ?_⟩, List.all_eq_true.mp (by decide)⟩, isWeightChar_twoDigits _⟩
      split
      · simp
      · exact List.forall_mem_cons.mpr ⟨point, back 1⟩

theorem writesWeights_float : WritesWeights Float := by
  intro w
  show ∀ c ∈ (Decimal.weightText w).toList, isWeightChar c = true
  unfold Decimal.weightText
  split
  · exact List.all_eq_true.mp (by decide)
  · split <;> exact List.all_eq_true.mp (by decide)
  · rename_i negative magnitude _
    rw [String.toList_append, List.forall_mem_append]
    refine ⟨?_, ?_⟩
    · split <;> exact List.all_eq_true.mp (by decide)
    · unfold Decimal.Binary.weightText
      split
      · exact isWeightChar_toString _
      · exact isWeightChar_pointText _

/-- The round trip. A grammar that was loaded is loaded again from its printed text, with the same
rules and chances, and is printed as the same text. That the texts of its weights are read back as
the same doubles is assumed. -/
theorem Grammar.ofText_toText {text name : String} {g : Grammar Float}
    (loaded : Grammar.ofText text name = .ok g)
    (readsBack : ∀ r ∈ g.rules, ∀ item ∈ r.items, ∀ w ∈ item.weight,
      Scalar.ofText? (Scalar.text w) = some w) (other : String) :
    ∃ again : Grammar Float, Grammar.ofText g.toText other = .ok again ∧
      again = { g with name := other } ∧ again.toText = g.toText :=
  ⟨_, ofText_toText_of_readsBack writesWeights_float loaded readsBack other, rfl, rfl⟩

/-- Some rules with weights, conditions, a block and states. -/
def sampleText : String :=
  "Top \x7b %33.3 Side \"it's\" =mood; %0.015 'b' =k='x y'; =t\n\x7d\n" ++
    "Side ? \x7b Top && !(Side||Top) \x7b =in; 'c'; %5 Top =key=/v\n \x7d\n Top =s=1 \x7d"

theorem Grammar.ofText_toText_sample :
    ∃ g : Grammar Float, Grammar.ofText sampleText = .ok g ∧
      (∀ r ∈ g.rules, ∀ item ∈ r.items, ∀ w ∈ item.weight,
        Scalar.ofText? (Scalar.text w) = some w) ∧
      ∃ again : Grammar Float, Grammar.ofText g.toText "again" = .ok again ∧
        again = { g with name := "again" } ∧ again.toText = g.toText := by
  have checked : (match (Grammar.ofText sampleText : Except LoadError (Grammar Float)) with
      | .ok g => g.rules.all fun r => r.items.all fun item => item.weight.all fun w =>
          decide (Scalar.ofText? (Scalar.text w) = some w)
      | .error _ => false) = true := by decide +kernel
  cases loaded : (Grammar.ofText sampleText : Except LoadError (Grammar Float)) with
  | error e =>
    rw [loaded] at checked
    cases checked
  | ok g =>
    rw [loaded] at checked
    simp only [List.all_eq_true, Option.all_eq_true, decide_eq_true_eq] at checked
    exact ⟨g, rfl, checked, Grammar.ofText_toText loaded checked "again"⟩

end WeightedGrammar

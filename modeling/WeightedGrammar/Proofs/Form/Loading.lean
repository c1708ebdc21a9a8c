import WeightedGrammar.Grammar.Loader
import WeightedGrammar.Proofs.Except
import WeightedGrammar.Proofs.Form.Reading
import WeightedGrammar.Proofs.Token.Scanned

/-!
From forms to a grammar. A text loads exactly if its tokens derive forms that meet `IsLoadable`, and
the grammar is then that of the forms (`Grammar.ofText_eq_ok_iff`). `Grammar.accepts_iff` reads it
as the language of grammar texts.
-/

namespace WeightedGrammar

variable {ω : Type} [Scalar ω]

/-! ### Rules -/

theorem takeQuestion_cases (ts : List Token) :
    (∃ t tail, ts = t :: tail ∧ t.lexeme = .question ∧ takeQuestion ts = (true, tail)) ∨
      takeQuestion ts = (false, ts) := by
  unfold takeQuestion
  split
  · exact .inl ⟨_, _, rfl, rfl, rfl⟩
  · exact .inr rfl

theorem ruleText_of_readRule {seen : List (String × Nat)} {ts rest : List Token}
    {draft : RuleDraft ω} (h : readRule seen ts = .ok (draft, rest)) :
    seen.lookup draft.name = none ∧ ∃ taken form, ts = taken ++ rest ∧
      RuleText (taken.map (·.lexeme)) form ∧ form.body.WeightsFit ω ∧
      draft.form = form.valued := by
  unfold readRule at h
  split at h
  · rename_i rule line tail
    split at h
    · cases h
    · rename_i fresh
      dsimp only at h
      split at h
      · rename_i isOpen
        obtain ⟨⟨body, behind⟩, read, same⟩ := map_eq_ok h
        simp only [Prod.mk.injEq] at same
        obtain ⟨rfl, rfl⟩ := same
        refine ⟨fresh, ?_⟩
        rcases takeQuestion_cases tail with ⟨mark, more, rfl, isMark, taken⟩ | taken
        · rw [taken] at isOpen read
          obtain ⟨open', inner, rfl, opens⟩ := exists_cons_of_front isOpen (by simp)
          obtain ⟨bs, form, split, lines, fits, written⟩ := gatedBody_of_readGatedBody read
          rw [List.tail_cons] at split
          refine ⟨⟨.name rule, line⟩ :: mark :: open' :: bs, ⟨rule, true, form⟩, by simp [split],
            ?_, fits, ?_⟩
          · rw [List.map_cons, List.map_cons, List.map_cons, isMark, opens]
            exact .gated rule lines
          · simp [RuleDraft.form, RuleForm.valued, written, taken]
        · rw [taken] at isOpen read
          obtain ⟨open', inner, rfl, opens⟩ := exists_cons_of_front isOpen (by simp)
          obtain ⟨bs, form, split, lines, fits, written⟩ := block_of_readBlock read
          rw [List.tail_cons] at split
          refine ⟨⟨.name rule, line⟩ :: open' :: bs, ⟨rule, false, form⟩, by simp [split], ?_,
            fits, ?_⟩
          · rw [List.map_cons, List.map_cons, opens]
            exact .plain rule lines
          · simp [RuleDraft.form, RuleForm.valued, written, taken]
      · cases h
  · cases h

theorem readRule_of_ruleText {seen : List (String × Nat)} {ls : List Lexeme}
    {form : RuleForm String} (h : RuleText ls form) (fits : form.body.WeightsFit ω)
    (fresh : seen.lookup form.name = none) {ts : List Token} (rest : List Token)
    (same : ts.map (·.lexeme) = ls) :
    ∃ draft : RuleDraft ω, readRule seen (ts ++ rest) = .ok (draft, rest) ∧
      draft.form = form.valued := by
  cases h with
  | @plain name ls form lines =>
    obtain ⟨⟨_, line⟩, head, rfl, rfl, sameHead⟩ := List.map_eq_cons_iff.mp same
    obtain ⟨⟨_, openLine⟩, inner, rfl, rfl, sameInner⟩ := List.map_eq_cons_iff.mp sameHead
    obtain ⟨body, read, written⟩ :=
      readBlock_of_block name line lines fits rest sameInner
    refine ⟨⟨name, false, line, body⟩, ?_, by simp [RuleDraft.form, RuleForm.valued, written]⟩
    simp only [List.cons_append, readRule, fresh, takeQuestion, Token.front, List.headD_cons,
      readBody, List.tail_cons, Bool.false_eq_true, if_false, read]
    rfl
  | @gated name ls form lines =>
    obtain ⟨⟨_, line⟩, head, rfl, rfl, sameHead⟩ := List.map_eq_cons_iff.mp same
    obtain ⟨⟨_, markLine⟩, opening, rfl, rfl, sameOpening⟩ := List.map_eq_cons_iff.mp sameHead
    obtain ⟨⟨_, openLine⟩, inner, rfl, rfl, sameInner⟩ := List.map_eq_cons_iff.mp sameOpening
    obtain ⟨body, read, written⟩ :=
      readGatedBody_of_gatedBody line lines fits rest sameInner
    refine ⟨⟨name, true, line, body⟩, ?_, by simp [RuleDraft.form, RuleForm.valued, written]⟩
    simp only [List.cons_append, readRule, fresh, takeQuestion, Token.front, List.headD_cons,
      readBody, List.tail_cons, if_true, read]
    rfl

theorem exists_cons_of_ruleText {ls : List Lexeme} {form : RuleForm String} (h : RuleText ls form)
    {ts : List Token} (same : ts.map (·.lexeme) = ls) :
    ∃ t tail, ts = t :: tail ∧ t.lexeme = .name form.name := by
  cases h <;>
    obtain ⟨t, tail, rfl, isName, -⟩ := List.map_eq_cons_iff.mp same <;>
    exact ⟨t, tail, rfl, isName⟩

theorem readRules_rule {seen : List (String × Nat)} {ls : List Lexeme} {form : RuleForm String}
    {front more : List Token} {draft : RuleDraft ω} (first : RuleText ls form)
    (same : front.map (·.lexeme) = ls) (read : readRule seen (front ++ more) = .ok (draft, more)) :
    readRules seen (front ++ more) =
      (readRules ((draft.name, draft.line) :: seen) more).map (draft :: ·) := by
  obtain ⟨t, tail, rfl, isName⟩ := exists_cons_of_ruleText first same
  rw [List.cons_append] at read ⊢
  rw [readRules]
  simp only [isName]
  split
  · rename_i failed
    rw [read] at failed
    cases failed
  · rename_i again
    rw [read, Except.ok.injEq, Prod.mk.injEq] at again
    obtain ⟨rfl, rfl⟩ := again
    rfl

theorem lookup_cons_eq_none_iff {seen : List (String × Nat)} {name other : String} {line : Nat} :
    ((name, line) :: seen).lookup other = none ↔ name ≠ other ∧ seen.lookup other = none := by
  rw [List.lookup_cons]
  by_cases same : other = name
  · simp [same]
  · simp [beq_eq_false_iff_ne.mpr same, Ne.symm same]

/-- The tokens that are read as rules derive forms with weights that fit and names that differ. -/
theorem rulesText_of_readRules {seen : List (String × Nat)} {ts : List Token}
    {drafts : List (RuleDraft ω)} (h : readRules seen ts = .ok drafts)
    (ends : EndsInput (ts.map (·.lexeme))) :
    ∃ forms, RulesText (ts.map (·.lexeme)) forms ∧ drafts.map (·.form) = forms.map (·.valued) ∧
      (∀ r ∈ forms, r.body.WeightsFit ω) ∧ (forms.map (·.name)).Nodup ∧
      ∀ r ∈ forms, seen.lookup r.name = none := by
  fun_induction readRules (ω := ω) seen ts generalizing drafts with
  | case1 =>
    obtain ⟨front, same, -⟩ := ends
    simp at same
  | case2 seen t tail mark isBreak ih =>
    rw [List.map_cons, isBreak] at ends ⊢
    obtain ⟨forms, derives, rest⟩ := ih h (@EndsInput.of_append [_] _ ends (by simp))
    exact ⟨forms, .lineBreak mark derives, rest⟩
  | case3 seen t tail isEnd =>
    cases h
    rw [List.map_cons, isEnd] at ends ⊢
    refine ⟨[], ?_, by simp⟩
    rw [ends.eq_nil_of_cons]
    exact .endOfInput
  | case4 => cases h
  | case5 seen t tail draft afterRule isRule _ _ ih =>
    obtain ⟨drafts, read, rfl⟩ := map_eq_ok h
    obtain ⟨fresh, taken, form, split, first, fits, written⟩ := ruleText_of_readRule isRule
    rw [split, List.map_append] at ends ⊢
    obtain ⟨forms, derives, writtenRest, fitRest, distinct, freshRest⟩ :=
      ih read (ends.of_append first.endOfInput_not_mem)
    have sameName : draft.name = form.name := congrArg RuleForm.name written
    simp only [lookup_cons_eq_none_iff, sameName] at freshRest fresh
    refine ⟨form :: forms, .rule first derives, by simp [written, writtenRest], ?_, ?_, ?_⟩
    · simpa using ⟨fits, fitRest⟩
    · rw [List.map_cons, List.nodup_cons, List.mem_map]
      refine ⟨?_, distinct⟩
      rintro ⟨r, isRest, same⟩
      exact (freshRest r isRest).1 same.symm
    · exact List.forall_mem_cons.mpr ⟨fresh, fun r isRest => (freshRest r isRest).2⟩

theorem readRules_of_rulesText {ls : List Lexeme} {forms : List (RuleForm String)}
    (h : RulesText ls forms) (fits : ∀ r ∈ forms, r.body.WeightsFit ω)
    (distinct : (forms.map (·.name)).Nodup) :
    ∀ {seen : List (String × Nat)} {ts : List Token}, (∀ r ∈ forms, seen.lookup r.name = none) →
      ts.map (·.lexeme) = ls →
      ∃ drafts : List (RuleDraft ω), readRules seen ts = .ok drafts ∧
        drafts.map (·.form) = forms.map (·.valued) := by
  induction h with
  | endOfInput =>
    intro seen ts _ same
    obtain ⟨t, tail, rfl, isEnd, -⟩ := List.map_eq_cons_iff.mp same
    exact ⟨[], by simp [readRules, isEnd], rfl⟩
  | lineBreak mark _ ih =>
    intro seen ts fresh same
    obtain ⟨t, tail, rfl, isBreak, sameTail⟩ := List.map_eq_cons_iff.mp same
    obtain ⟨drafts, read, written⟩ := ih fits distinct fresh sameTail
    exact ⟨drafts, by simp [readRules, isBreak, read], written⟩
  | @rule rs ls form forms first more ih =>
    intro seen ts fresh same
    obtain ⟨front, tail, rfl, sameFront, sameTail⟩ := List.map_eq_append_iff.mp same
    rw [List.map_cons, List.nodup_cons] at distinct
    rw [List.forall_mem_cons] at fits fresh
    obtain ⟨draft, readFirst, writtenFirst⟩ :=
      readRule_of_ruleText first fits.1 fresh.1 tail sameFront
    have sameName : draft.name = form.name := congrArg RuleForm.name writtenFirst
    have freshRest : ∀ r ∈ forms, ((draft.name, draft.line) :: seen).lookup r.name = none := by
      intro r isRest
      refine lookup_cons_eq_none_iff.mpr ⟨?_, fresh.2 r isRest⟩
      intro same
      exact distinct.1 (List.mem_map.mpr ⟨r, isRest, same.symm.trans sameName⟩)
    obtain ⟨drafts, read, written⟩ := ih fits.2 distinct.2 freshRest sameTail
    refine ⟨draft :: drafts, ?_, by simp [written, writtenFirst]⟩
    rw [readRules_rule first sameFront readFirst, read]
    rfl

/-! ### Tokens -/

theorem endsInput_of_tokensFrom {line : Nat} {cs : List Char} {ts : List Token}
    (h : Token.tokensFrom line cs = .ok ts) : EndsInput (ts.map (·.lexeme)) := by
  fun_induction Token.tokensFrom line cs generalizing ts with
  | case1 line =>
    cases h
    exact ⟨[], rfl, by simp⟩
  | case2 => cases h
  | case3 line c cs rest scanned ih => exact ih h
  | case4 line c cs l rest scanned ih =>
    obtain ⟨more, read, rfl⟩ := map_eq_ok h
    obtain ⟨front, same, absent⟩ := ih read
    refine ⟨l :: front, by simp [same], ?_⟩
    simp [absent, (found_of_scan scanned).2.symm]

/-! ### Weights that compete -/

/-- Weights that leave room for each other: their sum does not exceed a hundred, nor use it up when
there is an entry without a weight. -/
def Balanced (weights : List (Option ω)) : Prop :=
  Scalar.aboveHundred (Selection.explicitTotal weights) = false ∧
    (none ∈ weights → Scalar.usesHundred (Selection.explicitTotal weights) = false)

theorem freeCount_ne_zero_iff {ω : Type} {weights : List (Option ω)} :
    Selection.freeCount weights ≠ 0 ↔ none ∈ weights := by
  simp [Selection.freeCount]

theorem checkGroup_eq_ok_iff {rule : String} {line : Nat} {weights : List (Option ω)} :
    checkGroup rule line weights = .ok () ↔ Balanced weights := by
  unfold checkGroup Balanced
  rw [← freeCount_ne_zero_iff]
  dsimp only
  split
  · rename_i above
    simp [above]
  · split
    · rename_i notAbove uses
      simp [uses]
    · rename_i notAbove notUses
      simpa [notAbove] using notUses

def BodyForm.weightsUnder (c : Option Condition) (b : BodyForm ω) : List (Option ω) :=
  (b.items.filter (·.condition == c)).map (·.weight)

/-- The weights of every group of items that compete are balanced. -/
def BodyForm.IsBalanced (b : BodyForm ω) : Prop :=
  ∀ f ∈ b.items, Balanced (b.weightsUnder f.condition)

theorem checkWeights_eq_ok_iff {draft : RuleDraft ω} :
    checkWeights draft = .ok () ↔ draft.body.form.IsBalanced := by
  have sameWeights : ∀ c, ((draft.body.items.filter (·.condition == c)).map (·.weight)) =
      draft.body.form.weightsUnder c := by
    intro c
    simp [BodyForm.weightsUnder, BodyDraft.form, List.filter_map, Function.comp_def, ItemDraft.form]
  unfold checkWeights competitors
  rw [forM_eq_ok_iff]
  simp only [List.forall_mem_map, List.mem_eraseDups, checkGroup_eq_ok_iff, sameWeights]
  simp only [BodyForm.IsBalanced, BodyDraft.form, List.forall_mem_map, ItemDraft.form]

/-! ### Names -/

def Word.element (names : List String) : Word → Element
  | literal text => .literal text
  | name rule => .ref rule (names.idxOf rule)

def ItemForm.item {α : Type} (names : List String) (f : ItemForm α) : Item α :=
  ⟨f.words.map (·.element names), f.weight, f.condition, f.states⟩

/-- All names in the item, those in its condition too, are among the given ones. -/
def ItemForm.IsKnown {α : Type} (names : List String) (f : ItemForm α) : Prop :=
  (∀ rule, .name rule ∈ f.words → rule ∈ names) ∧ ∀ c ∈ f.condition, ∀ rule ∈ c.names, rule ∈ names

theorem idxOf?_eq_some_of_mem {names : List String} {name : String} (h : name ∈ names) :
    names.idxOf? name = some (names.idxOf name) := by
  induction names with
  | nil => cases h
  | cons first names ih =>
    rw [List.idxOf?_cons, List.idxOf_cons]
    by_cases same : first = name
    · simp [same]
    · have later : name ∈ names := by simpa [Ne.symm same] using h
      simp [beq_eq_false_iff_ne.mpr same, ih later]

omit [Scalar ω] in
theorem mention_resolve_eq_ok_iff {names : List String} {rule : String} {m : Mention}
    {e : Element} :
    m.resolve names rule = .ok e ↔
      (∀ name, m.word = .name name → name ∈ names) ∧ e = m.word.element names := by
  cases m with
  | literal text => simp [Mention.resolve, Mention.word, Word.element, eq_comm]
  | rule name line =>
    simp only [Mention.resolve, Mention.word, Word.element, Word.name.injEq, forall_eq']
    by_cases known : name ∈ names
    · simp [idxOf?_eq_some_of_mem known, known, eq_comm]
    · simp [List.idxOf?_eq_none_iff.mpr known, known]

theorem checkCondition_eq_ok_iff {names : List String} {rule : String} {line : Nat}
    {c : Condition} :
    checkCondition names rule line c = .ok () ↔ ∀ name ∈ c.names, name ∈ names := by
  unfold checkCondition
  split
  · rename_i name found
    have isName := List.mem_of_find?_eq_some found
    have unknown := List.find?_some found
    simp only [reduceCtorEq, false_iff]
    intro known
    simp [known name isName] at unknown
  · rename_i absent
    simpa using absent

omit [Scalar ω] in
theorem mentions_resolve_eq_ok_iff {names : List String} {rule : String} {draft : ItemDraft ω}
    {es : List Element} :
    draft.mentions.mapM (·.resolve names rule) = .ok es ↔
      (∀ name, .name name ∈ draft.form.words → name ∈ names) ∧
        es = draft.form.words.map (·.element names) := by
  rw [mapM_eq_ok_iff fun _ _ => mention_resolve_eq_ok_iff]
  simp only [ItemDraft.form, List.mem_map, List.map_map, Function.comp_def]
  refine and_congr_left fun _ => ⟨?_, ?_⟩
  · rintro known name ⟨m, isMention, isName⟩
    exact known m isMention name isName
  · intro known m isMention name isName
    exact known name ⟨m, isMention, isName⟩

omit [Scalar ω] in
theorem itemDraft_resolve_eq_ok_iff {names : List String} {rule : String} {draft : ItemDraft ω}
    {item : Item ω} :
    draft.resolve names rule = .ok item ↔
      draft.form.IsKnown names ∧ item = draft.form.item names := by
  have sameCondition : draft.form.condition = draft.condition := rfl
  unfold ItemDraft.resolve ItemForm.IsKnown
  simp only [bind_eq_ok_iff, mentions_resolve_eq_ok_iff, sameCondition]
  cases condition : draft.condition with
  | none =>
    simp only [pure, Except.pure, Except.ok.injEq]
    constructor
    · rintro ⟨es, ⟨known, rfl⟩, ⟨⟩⟩
      exact ⟨⟨known, by simp⟩, by rw [ItemForm.item, sameCondition, condition]; rfl⟩
    · rintro ⟨⟨known, -⟩, rfl⟩
      exact ⟨_, ⟨known, rfl⟩, by rw [ItemForm.item, sameCondition, condition]; rfl⟩
  | some c =>
    simp only [bind_eq_ok_iff, pure, Except.pure, Except.ok.injEq]
    constructor
    · rintro ⟨es, ⟨known, rfl⟩, ⟨⟩, checked, rfl⟩
      exact ⟨⟨known, by simpa using checkCondition_eq_ok_iff.mp checked⟩,
        by rw [ItemForm.item, sameCondition, condition]; rfl⟩
    · rintro ⟨⟨known, knownCondition⟩, rfl⟩
      exact ⟨_, ⟨known, rfl⟩, (), checkCondition_eq_ok_iff.mpr (by simpa using knownCondition),
        by rw [ItemForm.item, sameCondition, condition]; rfl⟩

/-! ### Grammars -/

def RuleForm.IsKnown {α : Type} (names : List String) (r : RuleForm α) : Prop :=
  ∀ f ∈ r.body.items, f.IsKnown names

def RuleForm.rule (names : List String) (r : RuleForm ω) : Rule ω :=
  let items := r.body.items.map (·.item names)
  ⟨r.name, r.conditional, items, r.body.states, chancesOf r.conditional items⟩

def Grammar.ofForms (name : String) (forms : List (RuleForm ω)) : Grammar ω :=
  ⟨forms.map (·.rule (forms.map (·.name))), name⟩

theorem Grammar.names_ofForms (name : String) (forms : List (RuleForm ω)) :
    (Grammar.ofForms name forms).names = forms.map (·.name) := by
  simp [Grammar.names, Grammar.ofForms, RuleForm.rule]

theorem ruleDraft_resolve_eq_ok_iff {names : List String} {draft : RuleDraft ω} {rule : Rule ω} :
    draft.resolve names = .ok rule ↔
      (draft.form.body.IsBalanced ∧ draft.form.IsKnown names) ∧ rule = draft.form.rule names := by
  unfold RuleDraft.resolve
  simp only [bind_eq_ok_iff,
    mapM_eq_ok_iff fun _ _ => itemDraft_resolve_eq_ok_iff, pure, Except.pure, Except.ok.injEq]
  have sameItems : (draft.body.items.map fun d => d.form.item names) =
      draft.form.body.items.map (·.item names) := by simp [RuleDraft.form, BodyDraft.form]
  have sameKnown : (∀ d ∈ draft.body.items, d.form.IsKnown names) ↔ draft.form.IsKnown names := by
    simp [RuleForm.IsKnown, RuleDraft.form, BodyDraft.form]
  rw [sameItems, sameKnown]
  constructor
  · rintro ⟨⟨⟩, checked, items, ⟨known, rfl⟩, rfl⟩
    exact ⟨⟨checkWeights_eq_ok_iff.mp checked, known⟩, rfl⟩
  · rintro ⟨⟨balanced, known⟩, rfl⟩
    exact ⟨(), checkWeights_eq_ok_iff.mpr balanced, _, ⟨known, rfl⟩, rfl⟩

theorem ofDrafts_eq_ok_iff {name : String} {drafts : List (RuleDraft ω)} {g : Grammar ω} :
    Grammar.ofDrafts name drafts = .ok g ↔
      (∀ r ∈ drafts.map (·.form),
        r.body.IsBalanced ∧ r.IsKnown ((drafts.map (·.form)).map (·.name))) ∧
      g = .ofForms name (drafts.map (·.form)) := by
  have sameNames : (drafts.map (·.form)).map (·.name) = drafts.map (·.name) := by
    simp [Function.comp_def, RuleDraft.form]
  unfold Grammar.ofDrafts Grammar.ofForms
  rw [bind_eq_ok_iff, sameNames]
  simp only [mapM_eq_ok_iff fun _ _ => ruleDraft_resolve_eq_ok_iff, pure, Except.pure,
    Except.ok.injEq, List.forall_mem_map, List.map_map, Function.comp_def]
  constructor
  · rintro ⟨rules, ⟨meets, rfl⟩, rfl⟩
    exact ⟨meets, rfl⟩
  · rintro ⟨meets, rfl⟩
    exact ⟨_, ⟨meets, rfl⟩, rfl⟩

variable (ω) in
/-- What forms must meet: their names differ, their weights fit and leave room for each other, and
the names in them are those of the forms. -/
structure IsLoadable (forms : List (RuleForm String)) : Prop where
  distinct : (forms.map (·.name)).Nodup
  fits : ∀ r ∈ forms, r.body.WeightsFit ω
  balanced : ∀ r ∈ forms, (r.body.valued : BodyForm ω).IsBalanced
  known : ∀ r ∈ forms, r.IsKnown (forms.map (·.name))

theorem isKnown_valued {names : List String} {r : RuleForm String} :
    (r.valued : RuleForm ω).IsKnown names ↔ r.IsKnown names := by
  simp [RuleForm.IsKnown, RuleForm.valued, BodyForm.valued, ItemForm.valued, ItemForm.IsKnown]

theorem map_name_valued (forms : List (RuleForm String)) :
    (forms.map (·.valued (ω := ω))).map (·.name) = forms.map (·.name) := by
  simp [Function.comp_def, RuleForm.valued]

theorem Grammar.ofText_eq_ok_iff {text name : String} {g : Grammar ω} :
    Grammar.ofText text name = .ok g ↔
      ∃ tokens forms, Token.ofText text = .ok tokens ∧ RulesText (tokens.map (·.lexeme)) forms ∧
        IsLoadable ω forms ∧ g = .ofForms name (forms.map (·.valued)) := by
  unfold Grammar.ofText
  simp only [bind_eq_ok_iff, ofDrafts_eq_ok_iff]
  constructor
  · rintro ⟨tokens, lexed, drafts, read, meets, rfl⟩
    obtain ⟨forms, derives, written, fits, distinct, -⟩ :=
      rulesText_of_readRules read (endsInput_of_tokensFrom lexed)
    rw [written, map_name_valued] at meets
    simp only [List.forall_mem_map, isKnown_valued] at meets
    exact ⟨tokens, forms, lexed, derives,
      ⟨distinct, fits, fun r isRule => (meets r isRule).1, fun r isRule => (meets r isRule).2⟩,
      by rw [written]⟩
  · rintro ⟨tokens, forms, lexed, derives, ⟨distinct, fits, balanced, known⟩, rfl⟩
    obtain ⟨drafts, read, written⟩ :=
      readRules_of_rulesText derives fits distinct
        (show ∀ r ∈ forms, [].lookup r.name = none from fun _ _ => rfl) rfl
    refine ⟨tokens, lexed, drafts, read, ?_, by rw [written]⟩
    rw [written, map_name_valued]
    simp only [List.forall_mem_map, isKnown_valued]
    exact fun r isRule => ⟨balanced r isRule, known r isRule⟩

variable (ω) in
/-- The language of grammar texts: a text is accepted if and only if it has tokens that derive forms
of differing names, with weights that fit and leave room for each other, and with no name that is
not one of theirs. -/
theorem Grammar.accepts_iff (text name : String) :
    (∃ g : Grammar ω, Grammar.ofText text name = .ok g) ↔
      ∃ tokens forms, Token.ofText text = .ok tokens ∧ RulesText (tokens.map (·.lexeme)) forms ∧
        IsLoadable ω forms := by
  constructor
  · rintro ⟨g, loaded⟩
    obtain ⟨tokens, forms, lexed, derives, loadable, -⟩ := Grammar.ofText_eq_ok_iff.mp loaded
    exact ⟨tokens, forms, lexed, derives, loadable⟩
  · rintro ⟨tokens, forms, lexed, derives, loadable⟩
    exact ⟨_, Grammar.ofText_eq_ok_iff.mpr ⟨tokens, forms, lexed, derives, loadable, rfl⟩⟩

end WeightedGrammar

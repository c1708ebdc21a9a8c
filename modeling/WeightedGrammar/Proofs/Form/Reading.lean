import WeightedGrammar.Proofs.Condition.Reading
import WeightedGrammar.Proofs.Form.Basic

/-!
The readers and the derivations agree on items and bodies. A draft without its lines is a form.
`readBlock` and `readGatedBody` give drafts exactly for rows of tokens that derive forms with
weights that fit, and the drafts have the numbers of these forms.
-/

namespace WeightedGrammar

/-! ### Drafts and forms -/

def Mention.word : Mention → Word
  | literal text => .literal text
  | rule name _ => .name name

/-- The form of an item that was read. -/
def ItemDraft.form {ω : Type} (d : ItemDraft ω) : ItemForm ω :=
  ⟨d.weight, d.mentions.map (·.word), d.condition, d.states⟩

def BodyDraft.form {ω : Type} (d : BodyDraft ω) : BodyForm ω := ⟨d.items.map (·.form), d.states⟩

def RuleDraft.form {ω : Type} (d : RuleDraft ω) : RuleForm ω := ⟨d.name, d.conditional, d.body.form⟩

variable {ω : Type}

@[simp] theorem BodyDraft.form_withState (s : StateExpr) (d : BodyDraft ω) :
    (d.withState s).form = d.form.withState s := rfl

@[simp] theorem BodyDraft.form_withItems (items : List (ItemDraft ω)) (d : BodyDraft ω) :
    (d.withItems items).form = d.form.withItems (items.map (·.form)) := by
  simp [BodyDraft.withItems, BodyForm.withItems, BodyDraft.form]

theorem BodyDraft.map_form_spread (rule : String) (d : BodyDraft ω) :
    (d.items.map (·.withStates (d.states.map (·.orValue rule)))).map (·.form) =
      d.form.spread rule := by
  simp [BodyForm.spread, form, Function.comp_def, ItemDraft.form, ItemDraft.withStates,
    ItemForm.withStates]

variable [Scalar ω]

def Scalar.ofText? (text : String) : Option ω :=
  (Decimal.Numeral.read? text).map Scalar.ofNumeral

/-- The item with the number that its weight denotes. -/
def ItemForm.valued (f : ItemForm String) : ItemForm ω :=
  ⟨f.weight.bind Scalar.ofText?, f.words, f.condition, f.states⟩

def BodyForm.valued (b : BodyForm String) : BodyForm ω := ⟨b.items.map (·.valued), b.states⟩

def RuleForm.valued (r : RuleForm String) : RuleForm ω := ⟨r.name, r.conditional, r.body.valued⟩

@[simp] theorem BodyForm.valued_withState (s : StateExpr) (b : BodyForm String) :
    (b.withState s).valued = (b.valued : BodyForm ω).withState s := rfl

@[simp] theorem BodyForm.valued_withItems (items : List (ItemForm String)) (b : BodyForm String) :
    (b.withItems items).valued = (b.valued : BodyForm ω).withItems (items.map (·.valued)) := by
  simp [BodyForm.withItems, BodyForm.valued]

theorem BodyForm.map_valued_spread (rule : String) (b : BodyForm String) :
    (b.spread rule).map (·.valued) = (b.valued : BodyForm ω).spread rule := by
  simp [spread, valued, Function.comp_def, ItemForm.valued, ItemForm.withStates]

/-! ### Weights -/

variable (ω) in
/-- The text denotes a number above zero, and a hundred at most. -/
def WeightFits (text : String) : Prop :=
  ∃ w : ω, Scalar.ofText? text = some w ∧ Scalar.ofNat 0 < w ∧ Scalar.aboveHundred w = false

variable (ω) in
def ItemForm.WeightFits (f : ItemForm String) : Prop :=
  ∀ text ∈ f.weight, WeightedGrammar.WeightFits ω text

variable (ω) in
def BodyForm.WeightsFit (b : BodyForm String) : Prop := ∀ f ∈ b.items, f.WeightFits ω

theorem BodyForm.weightsFit_withItems {items : List (ItemForm String)} {b : BodyForm String} :
    (b.withItems items).WeightsFit ω ↔ (∀ f ∈ items, f.WeightFits ω) ∧ b.WeightsFit ω := by
  simp [WeightsFit, withItems, or_imp, forall_and]

theorem BodyForm.weightsFit_spread {rule : String} {b : BodyForm String} :
    (∀ f ∈ b.spread rule, f.WeightFits ω) ↔ b.WeightsFit ω := by
  simp [WeightsFit, spread, ItemForm.WeightFits, ItemForm.withStates]

theorem weightOf_eq_ok_iff {rule text : String} {line : Nat} {w : ω} :
    weightOf rule line text = .ok w ↔
      Scalar.ofText? text = some w ∧ Scalar.ofNat 0 < w ∧ Scalar.aboveHundred w = false := by
  unfold weightOf Scalar.ofText?
  cases Decimal.Numeral.read? text with
  | none => simp
  | some numeral =>
    dsimp only [Option.map_some]
    split
    · split
      · rename_i above
        simp only [reduceCtorEq, Option.some.injEq, false_iff, not_and]
        rintro rfl -
        simp [above]
      · rename_i positive notAbove
        simp only [Except.ok.injEq, Option.some.injEq]
        constructor
        · rintro rfl
          exact ⟨rfl, positive, by simpa using notAbove⟩
        · exact fun h => h.1
    · rename_i notPositive
      simp only [reduceCtorEq, Option.some.injEq, false_iff, not_and]
      rintro rfl positive
      exact absurd positive notPositive

/-! ### Runs of tokens -/

theorem front_append {ts : List Token} (rest : List Token) {ls : List Lexeme}
    (same : ts.map (·.lexeme) = ls) :
    (Token.front (ts ++ rest)).lexeme = ls.headD (Token.front rest).lexeme := by
  subst same
  cases ts <;> rfl

theorem exists_cons_of_front {ts : List Token} {l : Lexeme} (isFront : (Token.front ts).lexeme = l)
    (notEnd : l ≠ .endOfInput) : ∃ t tail, ts = t :: tail ∧ t.lexeme = l := by
  cases ts with
  | nil => exact absurd isFront.symm notEnd
  | cons t tail => exact ⟨t, tail, rfl, isFront⟩

theorem takeStates_taken {ts rest : List Token} {states : List StateExpr}
    (h : takeStates ts = (states, rest)) :
    ∃ taken, ts = taken ++ rest ∧ taken.map (·.lexeme) = states.map (·.lexeme) := by
  fun_induction takeStates ts generalizing states with
  | case1 key value line ts states' rest' taken ih =>
    simp only [Prod.mk.injEq] at h
    obtain ⟨rfl, rfl⟩ := h
    obtain ⟨more, same, lexemes⟩ := ih taken
    exact ⟨⟨.state key value, line⟩ :: more, by simp [same], by simp [lexemes, StateExpr.lexeme]⟩
  | case2 ts notState =>
    simp only [Prod.mk.injEq] at h
    obtain ⟨rfl, rfl⟩ := h
    exact ⟨[], rfl, rfl⟩

theorem takeStates_append {ts rest : List Token} {states : List StateExpr}
    (same : ts.map (·.lexeme) = states.map (·.lexeme))
    (stops : ∀ s : StateExpr, (Token.front rest).lexeme ≠ s.lexeme) :
    takeStates (ts ++ rest) = (states, rest) := by
  induction states generalizing ts with
  | nil =>
    obtain rfl := List.map_eq_nil_iff.mp same
    rw [List.nil_append]
    unfold takeStates
    split
    · rename_i key value _ _
      exact absurd rfl (stops ⟨key, value⟩)
    · rfl
  | cons s states ih =>
    obtain ⟨⟨_, line⟩, more, rfl, rfl, sameMore⟩ := List.map_eq_cons_iff.mp same
    simp [takeStates, StateExpr.lexeme, ih sameMore]

theorem takeMentions_taken {ts rest : List Token} {mentions : List Mention}
    (h : takeMentions ts = (mentions, rest)) :
    ∃ taken, ts = taken ++ rest ∧
      taken.map (·.lexeme) = (mentions.map (·.word)).map (·.lexeme) := by
  fun_induction takeMentions ts generalizing mentions with
  | case1 name line ts mentions' rest' taken ih =>
    simp only [Prod.mk.injEq] at h
    obtain ⟨rfl, rfl⟩ := h
    obtain ⟨more, same, lexemes⟩ := ih taken
    exact ⟨⟨.name name, line⟩ :: more, by simp [same],
      by simp [lexemes, Mention.word, Word.lexeme]⟩
  | case2 text line ts mentions' rest' taken ih =>
    simp only [Prod.mk.injEq] at h
    obtain ⟨rfl, rfl⟩ := h
    obtain ⟨more, same, lexemes⟩ := ih taken
    exact ⟨⟨.literal text, line⟩ :: more, by simp [same],
      by simp [lexemes, Mention.word, Word.lexeme]⟩
  | case3 ts notName notLiteral =>
    simp only [Prod.mk.injEq] at h
    obtain ⟨rfl, rfl⟩ := h
    exact ⟨[], rfl, rfl⟩

theorem takeMentions_append {ts rest : List Token} {words : List Word}
    (same : ts.map (·.lexeme) = words.map (·.lexeme))
    (stops : (Token.front rest).lexeme.isMention = false) :
    ∃ mentions, takeMentions (ts ++ rest) = (mentions, rest) ∧ mentions.map (·.word) = words := by
  induction words generalizing ts with
  | nil =>
    obtain rfl := List.map_eq_nil_iff.mp same
    refine ⟨[], ?_, rfl⟩
    rw [List.nil_append]
    unfold takeMentions
    split
    · exact absurd stops (by simp [Token.front, Lexeme.isMention])
    · exact absurd stops (by simp [Token.front, Lexeme.isMention])
    · rfl
  | cons word words ih =>
    obtain ⟨⟨_, line⟩, more, rfl, rfl, sameMore⟩ := List.map_eq_cons_iff.mp same
    obtain ⟨mentions, read, written⟩ := ih sameMore
    cases word with
    | literal text =>
      exact ⟨.literal text :: mentions, by simp [takeMentions, Word.lexeme, read],
        by rw [List.map_cons, written]; rfl⟩
    | name rule =>
      exact ⟨.rule rule line :: mentions, by simp [takeMentions, Word.lexeme, read],
        by rw [List.map_cons, written]; rfl⟩

/-! ### Items -/

theorem readWeight_taken {rule : String} {ts rest : List Token} {w : Option ω}
    (h : readWeight rule ts = .ok (w, rest)) :
    ∃ taken weight, ts = taken ++ rest ∧
      taken.map (·.lexeme) = (Option.map Lexeme.weight weight).toList ∧
      (∀ text ∈ weight, WeightFits ω text) ∧ w = weight.bind Scalar.ofText? := by
  unfold readWeight at h
  split at h
  · rename_i text line tail
    obtain ⟨value, read, same⟩ := map_eq_ok h
    simp only [Prod.mk.injEq] at same
    obtain ⟨rfl, rfl⟩ := same
    have denotes := weightOf_eq_ok_iff.mp read
    exact ⟨[⟨.weight text, line⟩], some text, rfl, rfl, by simpa using ⟨value, denotes⟩,
      denotes.1.symm⟩
  · simp only [Except.ok.injEq, Prod.mk.injEq] at h
    obtain ⟨rfl, rfl⟩ := h
    exact ⟨[], none, rfl, rfl, by simp, rfl⟩

theorem readWeight_append {rule : String} {ts rest : List Token} {weight : Option String}
    (same : ts.map (·.lexeme) = (Option.map Lexeme.weight weight).toList)
    (fits : ∀ text ∈ weight, WeightFits ω text)
    (stops : ∀ text, (Token.front rest).lexeme ≠ .weight text) :
    readWeight rule (ts ++ rest) = .ok ((weight.bind Scalar.ofText? : Option ω), rest) := by
  cases weight with
  | none =>
    obtain rfl := List.map_eq_nil_iff.mp same
    rw [List.nil_append]
    unfold readWeight
    split
    · exact absurd rfl (stops _)
    · rfl
  | some text =>
    obtain ⟨⟨_, line⟩, more, rfl, rfl, sameMore⟩ := List.map_eq_cons_iff.mp same
    obtain rfl := List.map_eq_nil_iff.mp sameMore
    obtain ⟨w, denotes⟩ := fits text rfl
    have read : weightOf rule line text = .ok w := weightOf_eq_ok_iff.mpr denotes
    simp [readWeight, read, Except.map, denotes.1]

omit [Scalar ω] in
theorem checkItem_eq_ok_iff {rule : String} {item : ItemDraft ω} {next : Token} :
    checkItem rule item next = .ok () ↔
      next.lexeme.endsItem = true ∧ item.form.isFilled = true := by
  unfold checkItem ItemForm.isFilled
  split
  · rename_i ends
    rw [ItemDraft.form]
    cases item.mentions <;> cases item.states <;> simp [ends]
  · rename_i ends
    split <;> simp [ends]

theorem readItem_eq_ok_iff {rule : String} {condition : Option Condition} {ts rest : List Token}
    {item : ItemDraft ω} :
    readItem rule condition ts = .ok (item, rest) ↔
      ∃ weight afterWeight mentions afterMentions states,
        readWeight rule ts = .ok (weight, afterWeight) ∧
        takeMentions afterWeight = (mentions, afterMentions) ∧
        takeStates afterMentions = (states, rest) ∧
        item = ⟨(Token.front ts).line, weight, mentions, condition, states⟩ ∧
        checkItem rule item (Token.front rest) = .ok () := by
  unfold readItem
  constructor
  · intro h
    cases weighed : readWeight (ω := ω) rule ts with
    | error e => simp [weighed, bind, Except.bind] at h
    | ok pair =>
      obtain ⟨weight, afterWeight⟩ := pair
      simp only [weighed, bind, Except.bind] at h
      split at h
      · cases h
      · rename_i checked
        simp only [pure, Except.pure, Except.ok.injEq, Prod.mk.injEq] at h
        obtain ⟨rfl, rfl⟩ := h
        exact ⟨weight, afterWeight, _, _, _, rfl, rfl, rfl, rfl, checked⟩
  · rintro ⟨weight, afterWeight, mentions, afterMentions, states, weighed, mentioned, stated, rfl,
      checked⟩
    simp [weighed, mentioned, stated, checked, bind, Except.bind, pure, Except.pure]

theorem readItem_taken {rule : String} {condition : Option Condition} {ts rest : List Token}
    {item : ItemDraft ω} (h : readItem rule condition ts = .ok (item, rest)) :
    ∃ (taken : List Token) (f : ItemForm String), ts = taken ++ rest ∧
      taken.map (·.lexeme) = f.lexemes ∧ f.condition = condition ∧ f.isFilled = true ∧
      (Token.front rest).lexeme.endsItem = true ∧ f.WeightFits ω ∧ item.form = f.valued := by
  obtain ⟨w, afterWeight, mentions, afterMentions, states, weighed, mentioned, stated, rfl,
    checked⟩ := readItem_eq_ok_iff.mp h
  obtain ⟨ends, filled⟩ := checkItem_eq_ok_iff.mp checked
  obtain ⟨ws, weight, rfl, weightLexemes, fits, rfl⟩ := readWeight_taken weighed
  obtain ⟨ms, rfl, mentionLexemes⟩ := takeMentions_taken mentioned
  obtain ⟨ss, rfl, stateLexemes⟩ := takeStates_taken stated
  let f : ItemForm String := ⟨weight, mentions.map (·.word), condition, states⟩
  refine ⟨ws ++ (ms ++ ss), f, ?_, ?_, rfl, filled, ends, fits, rfl⟩
  · simp
  · simp [f, ItemForm.lexemes, weightLexemes, mentionLexemes, stateLexemes]

theorem readItem_append (rule : String) {f : ItemForm String} {ts rest : List Token}
    (same : ts.map (·.lexeme) = f.lexemes) (filled : f.isFilled = true)
    (ends : (Token.front rest).lexeme.endsItem = true) (fits : f.WeightFits ω) :
    ∃ item : ItemDraft ω, readItem rule f.condition (ts ++ rest) = .ok (item, rest) ∧
      item.form = f.valued := by
  rw [ItemForm.lexemes, List.append_assoc] at same
  obtain ⟨ws, more, rfl, weightLexemes, same⟩ := List.map_eq_append_iff.mp same
  obtain ⟨ms, ss, rfl, mentionLexemes, stateLexemes⟩ := List.map_eq_append_iff.mp same
  have noState : ∀ s : StateExpr, (Token.front rest).lexeme ≠ s.lexeme := by
    intro s isState
    rw [isState] at ends
    cases ends
  have noMention : (Token.front (ss ++ rest)).lexeme.isMention = false := by
    rw [front_append _ stateLexemes]
    cases f.states with
    | nil =>
      revert ends
      cases (Token.front rest).lexeme <;> simp [Lexeme.endsItem, Lexeme.isMention]
    | cons s states => rfl
  have noWeight : ∀ text, (Token.front (ms ++ (ss ++ rest))).lexeme ≠ .weight text := by
    intro text isWeight
    rw [front_append _ mentionLexemes, front_append _ stateLexemes] at isWeight
    cases words : f.words with
    | nil =>
      cases states : f.states with
      | nil => simp [words, states, ItemForm.isFilled] at filled
      | cons s states' => simp [words, states, StateExpr.lexeme] at isWeight
    | cons word words' => cases word <;> simp [words, Word.lexeme] at isWeight
  obtain ⟨mentions, mentioned, words⟩ := takeMentions_append mentionLexemes noMention
  have stated := takeStates_append stateLexemes noState
  have weighed : readWeight rule (ws ++ (ms ++ (ss ++ rest))) = .ok (f.valued.weight, _) :=
    readWeight_append (ω := ω) weightLexemes fits noWeight
  let item : ItemDraft ω := ⟨(Token.front (ws ++ (ms ++ ss) ++ rest)).line,
    f.valued.weight, mentions, f.condition, f.states⟩
  have written : item.form = f.valued := by simp [item, ItemDraft.form, words, ItemForm.valued]
  refine ⟨item, ?_, written⟩
  rw [readItem_eq_ok_iff]
  refine ⟨_, _, _, _, _, ?_, mentioned, stated, rfl, checkItem_eq_ok_iff.mpr ⟨ends, ?_⟩⟩
  · simpa using weighed
  · rw [written]
    exact filled

/-! ### Bodies -/

/-- The tokens of `ts` up to `rest` derive the form of the body that was read, and the weights of
the form fit. -/
def Spells (derives : List Lexeme → BodyForm String → Prop) (ts rest : List Token)
    (body : BodyDraft ω) : Prop :=
  ∃ taken form, ts = taken ++ rest ∧ derives (taken.map (·.lexeme)) form ∧
    form.WeightsFit ω ∧ body.form = form.valued

section Lines
variable {derives : List Lexeme → BodyForm String → Prop} {t : Token} {ts rest : List Token}
  {body : BodyDraft ω}

theorem Spells.close (lines : DerivesLines derives) (isClose : t.lexeme = .closeBrace) :
    Spells derives (t :: rest) rest ({} : BodyDraft ω) := by
  refine ⟨[t], {}, rfl, ?_, by simp [BodyForm.WeightsFit], rfl⟩
  rw [List.map_singleton, isClose]
  exact lines.close

theorem Spells.lineBreak (lines : DerivesLines derives) {mark : LineMark}
    (isBreak : t.lexeme = .lineBreak mark) (spells : Spells derives ts rest body) :
    Spells derives (t :: ts) rest body := by
  obtain ⟨taken, form, rfl, derived, fits, same⟩ := spells
  refine ⟨t :: taken, form, rfl, ?_, fits, same⟩
  rw [List.map_cons, isBreak]
  exact lines.lineBreak mark derived

theorem Spells.state (lines : DerivesLines derives) {s : StateExpr} (isState : t.lexeme = s.lexeme)
    (spells : Spells derives ts rest body) : Spells derives (t :: ts) rest (body.withState s) := by
  obtain ⟨taken, form, rfl, derived, fits, same⟩ := spells
  refine ⟨t :: taken, form.withState s, rfl, ?_, fits, by simp [same]⟩
  rw [List.map_cons, isState]
  exact lines.state s derived

/-- How a reader of bodies goes over what `DerivesLines` lets stand in front of a body. -/
structure ReadsLines (read : List Token → Except LoadError (BodyDraft ω × List Token)) : Prop where
  close {t : Token} (ts : List Token) : t.lexeme = .closeBrace → read (t :: ts) = .ok ({}, ts)
  lineBreak {t : Token} {mark : LineMark} (ts : List Token) :
    t.lexeme = .lineBreak mark → read (t :: ts) = read ts
  state {t : Token} {s : StateExpr} {ts rest : List Token} {body : BodyDraft ω} :
    t.lexeme = s.lexeme → read ts = .ok (body, rest) →
      read (t :: ts) = .ok (body.withState s, rest)

/-- Tokens of the lexemes `ls` are read as the form, whatever follows. -/
def ReadsAs (read : List Token → Except LoadError (BodyDraft ω × List Token)) (ls : List Lexeme)
    (form : BodyForm String) : Prop :=
  ∀ ⦃ts : List Token⦄ (rest : List Token), ts.map (·.lexeme) = ls →
    ∃ body : BodyDraft ω, read (ts ++ rest) = .ok (body, rest) ∧ body.form = form.valued

variable {read : List Token → Except LoadError (BodyDraft ω × List Token)} {ls : List Lexeme}
  {form : BodyForm String}

theorem ReadsAs.close (lines : ReadsLines read) : ReadsAs read [.closeBrace] {} := by
  intro ts rest same
  obtain ⟨t, tail, rfl, isClose, none⟩ := List.map_eq_cons_iff.mp same
  obtain rfl := List.map_eq_nil_iff.mp none
  exact ⟨{}, lines.close rest isClose, rfl⟩

theorem ReadsAs.lineBreak (lines : ReadsLines read) (mark : LineMark)
    (more : ReadsAs read ls form) : ReadsAs read (.lineBreak mark :: ls) form := by
  intro ts rest same
  obtain ⟨t, tail, rfl, isBreak, sameTail⟩ := List.map_eq_cons_iff.mp same
  obtain ⟨body, isRead, written⟩ := more rest sameTail
  exact ⟨body, (lines.lineBreak _ isBreak).trans isRead, written⟩

theorem ReadsAs.state (lines : ReadsLines read) (s : StateExpr) (more : ReadsAs read ls form) :
    ReadsAs read (s.lexeme :: ls) (form.withState s) := by
  intro ts rest same
  obtain ⟨t, tail, rfl, isState, sameTail⟩ := List.map_eq_cons_iff.mp same
  obtain ⟨body, isRead, written⟩ := more rest sameTail
  exact ⟨body.withState s, lines.state isState isRead, by simp [written]⟩

end Lines

theorem endsLine_of_endsItem {ts rest : List Token} {ls : List Lexeme}
    (same : ts.map (·.lexeme) = ls) (filled : ls ≠ []) (noEnd : .endOfInput ∉ ls)
    (ends : (Token.front (ts ++ rest)).lexeme.endsItem = true) : endsLine ls = true := by
  rw [front_append _ same] at ends
  cases ls with
  | nil => exact absurd rfl filled
  | cons l ls => cases l <;> simp_all [Lexeme.endsItem, endsLine]

theorem endsItem_of_endsLine {ts rest : List Token} {ls : List Lexeme}
    (same : ts.map (·.lexeme) = ls) (ends : endsLine ls = true) :
    (Token.front (ts ++ rest)).lexeme.endsItem = true := by
  rw [front_append _ same]
  cases ls with
  | nil => cases ends
  | cons l ls => cases l <;> simp_all [Lexeme.endsItem, endsLine]

theorem Block.ne_nil {condition : Option Condition} {ls : List Lexeme} {body : BodyForm String}
    (h : Block condition ls body) : ls ≠ [] := by
  induction h with
  | item _ _ _ _ _ ih => simp [ih]
  | _ => simp

theorem GatedBody.ne_nil {rule : String} {ls : List Lexeme} {body : BodyForm String}
    (h : GatedBody rule ls body) : ls ≠ [] := by
  induction h with
  | item _ _ _ _ _ ih => simp [ih]
  | _ => simp

def Lexeme.startsItem : Lexeme → Bool
  | name _ | literal _ | weight _ => true
  | _ => false

theorem ItemForm.lexemes_cases (f : ItemForm String) :
    (f.opensLine = true ∧ ∃ l ls, f.lexemes = l :: ls ∧ l.startsItem = true) ∨
      (f.opensLine = false ∧ f.words = [] ∧ f.lexemes = f.states.map (·.lexeme)) := by
  cases weight : f.weight with
  | some text =>
    exact .inl ⟨by simp [opensLine, weight], .weight text, _, by simp [lexemes, weight]; rfl, rfl⟩
  | none =>
    cases words : f.words with
    | cons word words' =>
      have starts : word.lexeme.startsItem = true := by cases word <;> rfl
      exact .inl ⟨by simp [opensLine, words], word.lexeme, _,
        by simp [lexemes, weight, words]; rfl, starts⟩
    | nil => exact .inr ⟨by simp [opensLine, weight, words], rfl, by simp [lexemes, weight, words]⟩

theorem ItemForm.states_ne_nil {f : ItemForm String} (filled : f.isFilled = true)
    (noWords : f.words = []) : ∃ s states, f.states = s :: states := by
  cases states : f.states with
  | nil => simp [isFilled, noWords, states] at filled
  | cons s states' => exact ⟨s, states', rfl⟩

theorem ItemForm.head_of_isFilled {f : ItemForm String} (filled : f.isFilled = true) :
    ∃ l ls, f.lexemes = l :: ls ∧ (l.startsItem = true ∨ ∃ s : StateExpr, l = s.lexeme) := by
  rcases f.lexemes_cases with ⟨-, l, ls, same, starts⟩ | ⟨-, noWords, same⟩
  · exact ⟨l, ls, same, .inl starts⟩
  · obtain ⟨s, states, isStates⟩ := f.states_ne_nil filled noWords
    exact ⟨s.lexeme, _, by rw [same, isStates]; rfl, .inr ⟨s, rfl⟩⟩

theorem ItemForm.lexemes_ne_nil {f : ItemForm String} (filled : f.isFilled = true) :
    f.lexemes ≠ [] := by
  obtain ⟨l, ls, same, -⟩ := f.head_of_isFilled filled
  simp [same]

theorem ItemForm.opensLine_of_head {f : ItemForm String} (filled : f.isFilled = true)
    (notState : ∀ s : StateExpr, f.lexemes.head? ≠ some s.lexeme) : f.opensLine = true := by
  rcases f.lexemes_cases with ⟨opens, -⟩ | ⟨-, noWords, same⟩
  · exact opens
  · obtain ⟨s, states, isStates⟩ := f.states_ne_nil filled noWords
    exact absurd (by rw [same, isStates]; rfl) (notState s)

theorem block_of_readBlock {rule : String} {ruleLine : Nat} {condition : Option Condition}
    {ts rest : List Token} {body : BodyDraft ω}
    (h : readBlock rule ruleLine condition ts = .ok (body, rest)) :
    Spells (Block condition) ts rest body := by
  fun_induction readBlock (ω := ω) rule ruleLine condition ts generalizing body rest with
  | case1 => cases h
  | case2 t tail mark isBreak ih => exact .lineBreak (Block.derivesLines condition) isBreak (ih h)
  | case3 t tail isClose =>
    simp only [Except.ok.injEq, Prod.mk.injEq] at h
    obtain ⟨rfl, rfl⟩ := h
    exact .close (Block.derivesLines condition) isClose
  | case4 => cases h
  | case5 t tail key value isState ih =>
    obtain ⟨⟨body', behind⟩, read, same⟩ := map_eq_ok h
    simp only [Prod.mk.injEq] at same
    obtain ⟨rfl, rfl⟩ := same
    exact .state (Block.derivesLines condition) isState (ih read)
  | case6 => cases h
  | case7 => cases h
  | case8 t tail item afterItem isItem notBreak notClose notEnd notState notGate ih =>
    obtain ⟨⟨body', behind⟩, read, same⟩ := map_eq_ok h
    simp only [Prod.mk.injEq] at same
    obtain ⟨rfl, rfl⟩ := same
    obtain ⟨taken, form, rfl, lines, fits, same⟩ := ih read
    obtain ⟨front, f, split, lexemes, under, filled, ends, weightFits, written⟩ :=
      readItem_taken isItem
    -- A state in front would have been read as one of the body, so the item cannot begin with it.
    have opens : f.opensLine = true := by
      refine f.opensLine_of_head filled fun s isFirst => ?_
      rw [← lexemes, List.head?_map, Option.map_eq_some_iff] at isFirst
      obtain ⟨first, found, isState⟩ := isFirst
      have first : (front ++ (taken ++ behind)).head? = some first := by simp [found]
      rw [← split, List.head?_cons, Option.some.injEq] at first
      exact notState s.key s.value (first ▸ isState)
    refine ⟨front ++ taken, form.withItems [f], by simp [split], ?_, ?_, by simp [same, written]⟩
    · rw [List.map_append, lexemes]
      exact .item under opens filled
        (endsLine_of_endsItem rfl lines.ne_nil lines.endOfInput_not_mem ends) lines
    · simpa [BodyForm.weightsFit_withItems] using ⟨weightFits, fits⟩

theorem readBlock_item {rule : String} {ruleLine : Nat} {condition : Option Condition}
    {f : ItemForm String} {front more : List Token} {item : ItemDraft ω}
    (opens : f.opensLine = true) (same : front.map (·.lexeme) = f.lexemes)
    (read : readItem rule condition (front ++ more) = .ok (item, more)) :
    readBlock rule ruleLine condition (front ++ more) =
      (readBlock rule ruleLine condition more).map fun (body, behind) =>
        (body.withItems [item], behind) := by
  obtain ⟨t, tail, rfl, starts⟩ : ∃ t tail, front = t :: tail ∧ t.lexeme.startsItem = true := by
    rcases f.lexemes_cases with ⟨-, l, ls, isFirst, starts⟩ | ⟨notOpens, -⟩
    · obtain ⟨t, tail, rfl, isLexeme, -⟩ := List.map_eq_cons_iff.mp (same.trans isFirst)
      exact ⟨t, tail, rfl, isLexeme ▸ starts⟩
    · rw [opens] at notOpens
      cases notOpens
  rw [List.cons_append] at read ⊢
  rw [readBlock]
  split
  · rename_i isBreak
    simp [isBreak, Lexeme.startsItem] at starts
  · rename_i isClose
    simp [isClose, Lexeme.startsItem] at starts
  · rename_i isEnd
    simp [isEnd, Lexeme.startsItem] at starts
  · rename_i isState
    simp [isState, Lexeme.startsItem] at starts
  · split
    · rename_i gates
      revert starts gates
      cases t.lexeme <;> simp [Lexeme.startsItem, Lexeme.gates]
    · split
      · rename_i failed
        rw [read] at failed
        cases failed
      · rename_i again
        rw [read, Except.ok.injEq, Prod.mk.injEq] at again
        obtain ⟨rfl, rfl⟩ := again
        rfl

theorem readBlock_readsLines (rule : String) (ruleLine : Nat) (condition : Option Condition) :
    ReadsLines (readBlock (ω := ω) rule ruleLine condition) where
  close _ isClose := by simp [readBlock, isClose]
  lineBreak _ isBreak := by simp [readBlock, isBreak]
  state isState isRead := by simp [readBlock, isState, StateExpr.lexeme, isRead, Except.map]

theorem readBlock_of_block (rule : String) (ruleLine : Nat) {condition : Option Condition}
    {ls : List Lexeme} {form : BodyForm String} (h : Block condition ls form)
    (fits : form.WeightsFit ω) : ReadsAs (readBlock (ω := ω) rule ruleLine condition) ls form := by
  have lines := readBlock_readsLines (ω := ω) rule ruleLine condition
  induction h with
  | close => exact .close lines
  | lineBreak mark _ ih => exact .lineBreak lines mark (ih fits)
  | state s _ ih => exact .state lines s (ih fits)
  | @item f ls _ under opens filled ends more ih =>
    intro ts rest same
    obtain ⟨front, tail, rfl, sameFront, sameTail⟩ := List.map_eq_append_iff.mp same
    obtain ⟨fitsItem, fitsRest⟩ := BodyForm.weightsFit_withItems.mp fits
    obtain ⟨body, read, written⟩ := ih fitsRest rest sameTail
    obtain ⟨item, readItem, writtenItem⟩ := readItem_append rule sameFront filled
      (endsItem_of_endsLine sameTail ends) (fitsItem f (List.mem_singleton_self f))
    refine ⟨body.withItems [item], ?_, by simp [written, writtenItem]⟩
    rw [List.append_assoc, readBlock_item opens sameFront (under ▸ readItem), read]
    rfl

/-! ### Bodies of conditional rules -/

theorem readGated_cases {rule : String} {ruleLine line : Nat} {c : Condition}
    {ts rest : List Token} {items : List (ItemDraft ω)}
    (h : readGated rule ruleLine line c ts = .ok (items, rest)) :
    (∃ t tail body, ts = t :: tail ∧ t.lexeme = .openBrace ∧
      readBlock rule ruleLine (some c) tail = .ok (body, rest) ∧ body.items ≠ [] ∧
      items = body.items.map (·.withStates (body.states.map (·.orValue rule)))) ∨
    ∃ item, readItem rule (some c) ts = .ok (item, rest) ∧ items = [item] := by
  unfold readGated at h
  split at h
  · cases h
  · rename_i isOpen
    split at h
    · cases h
    · rename_i body behind read
      split at h
      · cases h
      · rename_i holds
        simp only [Except.ok.injEq, Prod.mk.injEq] at h
        obtain ⟨rfl, rfl⟩ := h
        obtain ⟨t, tail, rfl, opens⟩ := exists_cons_of_front isOpen (by simp)
        exact .inl ⟨t, tail, body, rfl, opens, read, by simpa using holds, rfl⟩
  · split at h
    · cases h
    · obtain ⟨⟨item, behind⟩, read, same⟩ := map_eq_ok h
      simp only [Prod.mk.injEq] at same
      obtain ⟨rfl, rfl⟩ := same
      exact .inr ⟨item, read, rfl⟩

theorem expresses_of_read {ts rest : List Token} {c : Condition}
    (h : Condition.read ts = .ok (c, rest)) :
    ∃ taken, ts = taken ++ rest ∧
      Condition.Expresses .tree .disjunction (taken.map (·.lexeme)) c := by
  obtain ⟨⟨taken, same, flat⟩, normal, -⟩ := Condition.took_of_read h
  exact ⟨taken, same, Condition.expresses_tree_iff.mpr ⟨normal, flat⟩⟩

theorem gatedBody_of_readGatedBody {rule : String} {ruleLine : Nat} {ts rest : List Token}
    {body : BodyDraft ω} (h : readGatedBody rule ruleLine ts = .ok (body, rest)) :
    Spells (GatedBody rule) ts rest body := by
  fun_induction readGatedBody (ω := ω) rule ruleLine ts generalizing body rest with
  | case1 => cases h
  | case2 t tail mark isBreak ih => exact .lineBreak (GatedBody.derivesLines rule) isBreak (ih h)
  | case3 t tail isClose =>
    simp only [Except.ok.injEq, Prod.mk.injEq] at h
    obtain ⟨rfl, rfl⟩ := h
    exact .close (GatedBody.derivesLines rule) isClose
  | case4 => cases h
  | case5 t tail key value isState ih =>
    obtain ⟨⟨body', behind⟩, read, same⟩ := map_eq_ok h
    simp only [Prod.mk.injEq] at same
    obtain ⟨rfl, rfl⟩ := same
    exact .state (GatedBody.derivesLines rule) isState (ih read)
  | case6 => cases h
  | case7 => cases h
  | case8 => cases h
  | case9 t tail c afterCondition isCondition items afterItems gated _ _ _ _ _ _ ih =>
    obtain ⟨⟨body', behind⟩, read, same⟩ := map_eq_ok h
    simp only [Prod.mk.injEq] at same
    obtain ⟨rfl, rfl⟩ := same
    obtain ⟨taken, form, rfl, lines, fits, same⟩ := ih read
    obtain ⟨cs, splitCondition, gate⟩ := expresses_of_read isCondition
    rcases readGated_cases gated with
      ⟨open', more, block, rfl, isOpen, readLines, holds, rfl⟩ | ⟨item, readItem, rfl⟩
    · obtain ⟨bs, blockForm, rfl, blockLines, blockFits, written⟩ :=
        block_of_readBlock readLines
      have holdsForm : blockForm.items ≠ [] := by
        intro none
        have items := congrArg BodyForm.items written
        simp only [BodyDraft.form, BodyForm.valued, none, List.map_nil] at items
        exact holds (List.map_eq_nil_iff.mp items)
      refine ⟨cs ++ open' :: (bs ++ taken), form.withItems (blockForm.spread rule),
        by simp [splitCondition], ?_, ?_, ?_⟩
      · rw [List.map_append, List.map_cons, isOpen, List.map_append]
        exact .block gate blockLines holdsForm lines
      · rw [BodyForm.weightsFit_withItems, BodyForm.weightsFit_spread]
        exact ⟨blockFits, fits⟩
      · rw [BodyDraft.form_withItems, BodyDraft.map_form_spread, BodyForm.valued_withItems,
          BodyForm.map_valued_spread, same, written]
    · obtain ⟨front, f, split, lexemes, under, filled, ends, weightFits, written⟩ :=
        readItem_taken readItem
      subst split
      refine ⟨cs ++ (front ++ taken), form.withItems [f], by simp [splitCondition], ?_, ?_,
        by simp [same, written]⟩
      · rw [List.map_append, List.map_append, lexemes]
        exact .item gate under filled
          (endsLine_of_endsItem rfl lines.ne_nil lines.endOfInput_not_mem ends) lines
      · simpa [BodyForm.weightsFit_withItems] using ⟨weightFits, fits⟩
  | case10 => cases h

theorem startsCondition_of_expresses {ls : List Lexeme} {c : Condition} {level : Condition.Level}
    (h : Condition.Expresses .tree level ls c) :
    ∃ l more, ls = l :: more ∧ l.startsCondition = true := by
  induction h with
  | name rule => exact ⟨_, _, rfl, rfl⟩
  | group _ _ => exact ⟨_, _, rfl, rfl⟩
  | neg _ _ => exact ⟨_, _, rfl, rfl⟩
  | operand _ ih => exact ih
  | conj _ _ left _ =>
    obtain ⟨l, more, rfl, starts⟩ := left
    exact ⟨l, _, rfl, starts⟩
  | conjunction _ ih => exact ih
  | disj _ _ left _ =>
    obtain ⟨l, more, rfl, starts⟩ := left
    exact ⟨l, _, rfl, starts⟩

theorem readGatedBody_gate {rule : String} {ruleLine : Nat} {c : Condition} {ls : List Lexeme}
    {front more behind : List Token} {items : List (ItemDraft ω)}
    (gate : Condition.Expresses .tree .disjunction ls c) (same : front.map (·.lexeme) = ls)
    (stops : Condition.goesOn more = false)
    (read : ∀ line, readGated rule ruleLine line c more = .ok (items, behind)) :
    readGatedBody rule ruleLine (front ++ more) =
      (readGatedBody rule ruleLine behind).map fun (body, rest) =>
        (body.withItems items, rest) := by
  obtain ⟨normal, flat⟩ := Condition.expresses_tree_iff.mp gate
  have readCondition := Condition.read_append normal (same.trans flat.symm) stops
  obtain ⟨t, tail, rfl, starts⟩ :
      ∃ t tail, front = t :: tail ∧ t.lexeme.startsCondition = true := by
    obtain ⟨l, more, isFirst, starts⟩ := startsCondition_of_expresses gate
    obtain ⟨t, tail, rfl, isLexeme, -⟩ := List.map_eq_cons_iff.mp (same.trans isFirst)
    exact ⟨t, tail, rfl, isLexeme ▸ starts⟩
  rw [List.cons_append] at readCondition ⊢
  rw [readGatedBody]
  split
  · rename_i isBreak
    simp [isBreak, Lexeme.startsCondition] at starts
  · rename_i isClose
    simp [isClose, Lexeme.startsCondition] at starts
  · rename_i isEnd
    simp [isEnd, Lexeme.startsCondition] at starts
  · rename_i isState
    simp [isState, Lexeme.startsCondition] at starts
  · rw [if_pos starts]
    split
    · rename_i bare
      revert starts bare
      cases t.lexeme <;> simp [Lexeme.startsCondition, Lexeme.startsBareItem]
    · split
      · rename_i failed
        rw [readCondition] at failed
        cases failed
      · rename_i again
        rw [readCondition, Except.ok.injEq, Prod.mk.injEq] at again
        obtain ⟨rfl, rfl⟩ := again
        split
        · rename_i failed
          rw [read] at failed
          cases failed
        · rename_i again
          rw [read, Except.ok.injEq, Prod.mk.injEq] at again
          obtain ⟨rfl, rfl⟩ := again
          rfl

theorem readGated_block {rule : String} {ruleLine line : Nat} {c : Condition} {t : Token}
    {ts rest : List Token} {body : BodyDraft ω} (isOpen : t.lexeme = .openBrace)
    (read : readBlock rule ruleLine (some c) ts = .ok (body, rest)) (holds : body.items ≠ []) :
    readGated rule ruleLine line c (t :: ts) =
      .ok (body.items.map (·.withStates (body.states.map (·.orValue rule))), rest) := by
  simp [readGated, Token.front, isOpen, read, holds]

theorem readGated_item {rule : String} {ruleLine line : Nat} {c : Condition}
    {f : ItemForm String} {front more : List Token} {item : ItemDraft ω}
    (filled : f.isFilled = true) (same : front.map (·.lexeme) = f.lexemes)
    (read : readItem rule (some c) (front ++ more) = .ok (item, more)) :
    readGated rule ruleLine line c (front ++ more) = .ok ([item], more) := by
  obtain ⟨l, ls, isFirst, starts⟩ := f.head_of_isFilled filled
  have isFront := front_append more (same.trans isFirst)
  rw [List.headD_cons] at isFront
  unfold readGated
  rw [isFront, read]
  rcases starts with starts | ⟨s, rfl⟩
  · cases l <;> simp_all [Lexeme.startsItem, Lexeme.endsItem, Except.map]
  · rfl

theorem goesOn_of_filled {f : ItemForm String} {front more : List Token}
    (filled : f.isFilled = true) (same : front.map (·.lexeme) = f.lexemes) :
    Condition.goesOn (front ++ more) = false := by
  obtain ⟨l, ls, isFirst, starts⟩ := f.head_of_isFilled filled
  have isFront := front_append more (same.trans isFirst)
  rw [List.headD_cons] at isFront
  unfold Condition.goesOn
  rw [isFront]
  rcases starts with starts | ⟨s, rfl⟩
  · cases l <;> simp_all [Lexeme.startsItem]
  · rfl

theorem readGatedBody_readsLines (rule : String) (ruleLine : Nat) :
    ReadsLines (readGatedBody (ω := ω) rule ruleLine) where
  close _ isClose := by simp [readGatedBody, isClose]
  lineBreak _ isBreak := by simp [readGatedBody, isBreak]
  state isState isRead := by simp [readGatedBody, isState, StateExpr.lexeme, isRead, Except.map]

theorem readGatedBody_of_gatedBody {rule : String} (ruleLine : Nat) {ls : List Lexeme}
    {form : BodyForm String} (h : GatedBody rule ls form) (fits : form.WeightsFit ω) :
    ReadsAs (readGatedBody (ω := ω) rule ruleLine) ls form := by
  have lines := readGatedBody_readsLines (ω := ω) rule ruleLine
  induction h with
  | close => exact .close lines
  | lineBreak mark _ ih => exact .lineBreak lines mark (ih fits)
  | state s _ ih => exact .state lines s (ih fits)
  | @block c cs bs ls block form gate inside holds more ih =>
    intro ts rest same
    obtain ⟨front, tail, rfl, sameFront, same⟩ := List.map_eq_append_iff.mp same
    obtain ⟨open', tail, rfl, isOpen, same⟩ := List.map_eq_cons_iff.mp same
    obtain ⟨inner, tail, rfl, sameInner, sameTail⟩ := List.map_eq_append_iff.mp same
    obtain ⟨fitsBlock, fitsRest⟩ := BodyForm.weightsFit_withItems.mp fits
    obtain ⟨body, read, written⟩ := ih fitsRest rest sameTail
    obtain ⟨draft, readLines, writtenBlock⟩ := readBlock_of_block rule ruleLine
      inside (BodyForm.weightsFit_spread.mp fitsBlock) (tail ++ rest) sameInner
    have holdsDraft : draft.items ≠ [] := by
      intro none
      have items := congrArg BodyForm.items writtenBlock
      simp only [BodyDraft.form, BodyForm.valued, none, List.map_nil] at items
      exact holds (List.map_eq_nil_iff.mp items.symm)
    refine ⟨body.withItems (draft.items.map (·.withStates (draft.states.map (·.orValue rule)))),
      ?_, ?_⟩
    · have stops : Condition.goesOn (open' :: (inner ++ (tail ++ rest))) = false := by
        simp [Condition.goesOn, Token.front, isOpen]
      rw [List.append_assoc, List.cons_append, List.append_assoc, readGatedBody_gate gate sameFront
        stops fun _ => readGated_block isOpen readLines holdsDraft, read]
      rfl
    · rw [BodyDraft.form_withItems, BodyDraft.map_form_spread, BodyForm.valued_withItems,
        BodyForm.map_valued_spread, written, writtenBlock]
  | @item c cs ls f form gate under filled ends more ih =>
    intro ts rest same
    obtain ⟨front, tail, rfl, sameFront, same⟩ := List.map_eq_append_iff.mp same
    obtain ⟨inner, tail, rfl, sameInner, sameTail⟩ := List.map_eq_append_iff.mp same
    obtain ⟨fitsItem, fitsRest⟩ := BodyForm.weightsFit_withItems.mp fits
    obtain ⟨body, read, written⟩ := ih fitsRest rest sameTail
    obtain ⟨item, readItem, writtenItem⟩ := readItem_append rule sameInner filled
      (endsItem_of_endsLine sameTail ends) (fitsItem f (List.mem_singleton_self f))
    refine ⟨body.withItems [item], ?_, by simp [written, writtenItem]⟩
    rw [List.append_assoc, List.append_assoc, readGatedBody_gate gate sameFront
      (goesOn_of_filled filled sameInner)
      fun _ => readGated_item filled sameInner (under ▸ readItem), read]
    rfl

end WeightedGrammar

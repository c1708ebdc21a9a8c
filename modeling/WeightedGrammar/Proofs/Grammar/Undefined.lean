import WeightedGrammar.Number.Double
import WeightedGrammar.Proofs.Form.Places
import WeightedGrammar.Proofs.Grammar.Joined
import WeightedGrammar.Proofs.Token.Lines

/-!
Names that are no rules. Lexer and readers report other causes (`isEarly_of_readRules`), so an
undefined name is one that an item mentions, and where the item stands gives the line of the error:
that of the mention among the elements, and that of the item for a mention in the condition
(`Grammar.undefined_of_ofText`).
-/

namespace WeightedGrammar
open Lexeme

/-! ### Errors of the readers -/

/-- The error is found without looking names up. -/
@[simp]
def LoadError.IsEarly (e : LoadError) : Prop := e.cause.kind ≠ .undefinedName

theorem kind_of_scan {c : Char} {cs : List Char} {cause : LoadCause}
    (scanned : scan c cs = .fault cause) : cause.kind = .structural := by
  unfold scan at scanned
  split at scanned
  · cases scanned
  split at scanned
  · cases scanned
  split at scanned
  · cases scanned
  split at scanned
  · cases scanned
  split at scanned
  · split at scanned <;> cases scanned
    rfl
  split at scanned
  · cases scanned
  split at scanned
  · unfold scanState at scanned
    dsimp only at scanned
    split at scanned
    · cases scanned
      rfl
    · split at scanned
      · split at scanned <;> cases scanned
      · cases scanned
  split at scanned
  · cases scanned
  · unfold scanSign at scanned
    split at scanned <;> cases scanned
    rfl

theorem isEarly_of_ofText {text : String} {e : LoadError} (h : Token.ofText text = .error e) :
    e.IsEarly := by
  obtain ⟨ls, c, cs, -, faulty⟩ := comesTo_of_error h
  simp [kind_of_scan faulty]

section Readers
variable {ω : Type} [Scalar ω] {rule : String} {ruleLine : Nat} {ts : List Token} {e : LoadError}

theorem isEarly_of_readWeight (h : readWeight (ω := ω) rule ts = .error e) : e.IsEarly := by
  unfold readWeight at h
  split at h
  · have failed := map_eq_error h
    unfold weightOf at failed
    split at failed
    · cases failed
      simp [LoadCause.kind]
    · dsimp only at failed
      split at failed
      · split at failed <;> cases failed
        simp [LoadCause.kind]
      · cases failed
        simp [LoadCause.kind]
  · cases h

omit [Scalar ω] in
theorem isEarly_of_checkItem {item : ItemDraft ω} {next : Token}
    (h : checkItem rule item next = .error e) : e.IsEarly := by
  unfold checkItem at h
  split at h
  · split at h <;> cases h
    simp [LoadCause.kind]
  · split at h <;> cases h <;> simp [LoadCause.kind]

theorem isEarly_of_readItem {condition : Option Condition}
    (h : readItem (ω := ω) rule condition ts = .error e) : e.IsEarly := by
  unfold readItem at h
  rcases bind_eq_error_iff.mp h with failed | ⟨⟨weight, afterWeight⟩, -, h⟩
  · exact isEarly_of_readWeight failed
  · rcases bind_eq_error_iff.mp h with failed | ⟨_, -, h⟩
    · exact isEarly_of_checkItem failed
    · cases h

theorem isEarly_of_readBlock {condition : Option Condition}
    (h : readBlock (ω := ω) rule ruleLine condition ts = .error e) : e.IsEarly := by
  fun_induction readBlock (ω := ω) rule ruleLine condition ts with
  | case1 =>
    cases h
    simp [LoadCause.kind]
  | case2 t tail mark isBreak ih => exact ih h
  | case3 => cases h
  | case4 =>
    cases h
    simp [LoadCause.kind]
  | case5 t tail key value isState ih => exact ih (map_eq_error h)
  | case6 =>
    cases h
    simp [LoadCause.kind]
  | case7 t tail e' failed =>
    cases h
    exact isEarly_of_readItem failed
  | case8 t tail item afterItem isItem _ _ _ _ _ ih => exact ih (map_eq_error h)

theorem isEarly_of_readGated {line : Nat} {c : Condition}
    (h : readGated (ω := ω) rule ruleLine line c ts = .error e) : e.IsEarly := by
  unfold readGated at h
  split at h
  · cases h
    simp [LoadCause.kind]
  · split at h
    · rename_i failed
      cases h
      exact isEarly_of_readBlock failed
    · split at h <;> cases h
      simp [LoadCause.kind]
  · split at h
    · cases h
      simp [LoadCause.kind]
    · exact isEarly_of_readItem (map_eq_error h)

theorem isEarly_of_readGatedBody (h : readGatedBody (ω := ω) rule ruleLine ts = .error e) :
    e.IsEarly := by
  fun_induction readGatedBody (ω := ω) rule ruleLine ts with
  | case1 =>
    cases h
    simp [LoadCause.kind]
  | case2 t tail mark isBreak ih => exact ih h
  | case3 => cases h
  | case4 =>
    cases h
    simp [LoadCause.kind]
  | case5 t tail key value isState ih => exact ih (map_eq_error h)
  | case6 =>
    cases h
    simp [LoadCause.kind]
  | case7 t tail e' failed =>
    cases h
    simp [Condition.malformed_of_readOperand failed]
  | case8 t tail c afterCondition isCondition e' failed =>
    cases h
    exact isEarly_of_readGated failed
  | case9 t tail c afterCondition isCondition items afterItems gated _ _ _ _ _ _ ih =>
    exact ih (map_eq_error h)
  | case10 =>
    cases h
    simp [LoadCause.kind]

theorem isEarly_of_readRule {seen : List (String × Nat)}
    (h : readRule (ω := ω) seen ts = .error e) : e.IsEarly := by
  unfold readRule at h
  split at h
  · split at h
    · cases h
      simp [LoadCause.kind]
    · dsimp only at h
      split at h
      · have failed := map_eq_error h
        unfold readBody at failed
        split at failed
        · exact isEarly_of_readGatedBody failed
        · exact isEarly_of_readBlock failed
      · cases h
        simp [LoadCause.kind]
  · cases h
    simp [LoadCause.kind]

theorem isEarly_of_readRules {seen : List (String × Nat)}
    (h : readRules (ω := ω) seen ts = .error e) : e.IsEarly := by
  fun_induction readRules (ω := ω) seen ts with
  | case1 => cases h
  | case2 seen t tail mark isBreak ih => exact ih h
  | case3 => cases h
  | case4 seen t tail e' failed =>
    cases h
    exact isEarly_of_readRule failed
  | case5 seen t tail draft afterRule isRule _ _ ih => exact ih (map_eq_error h)

end Readers

/-! ### Errors of the lookup -/

section Lookup
variable {ω : Type} {names : List String} {rule : String} {e : LoadError}

theorem undefined_of_mention {m : Mention} (h : m.resolve names rule = .error e) :
    ∃ n line, m = .rule n line ∧ n ∉ names ∧ e = ⟨line, .undefinedRule n .element rule⟩ := by
  cases m with
  | literal text => cases h
  | rule n line =>
    simp only [Mention.resolve] at h
    split at h
    · cases h
    · rename_i absent
      cases h
      exact ⟨n, line, rfl, List.idxOf?_eq_none_iff.mp absent, rfl⟩

theorem undefined_of_checkCondition {line : Nat} {c : Condition}
    (h : checkCondition names rule line c = .error e) :
    ∃ n ∈ c.names, n ∉ names ∧ e = ⟨line, .undefinedRule n .condition rule⟩ := by
  unfold checkCondition at h
  split at h
  · rename_i n found
    cases h
    have unknown := List.find?_some found
    exact ⟨n, List.mem_of_find?_eq_some found, by simpa using unknown, rfl⟩
  · cases h

theorem undefined_of_item {d : ItemDraft ω} (h : d.resolve names rule = .error e) :
    ∃ n, n ∉ names ∧
      ((∃ line, .rule n line ∈ d.mentions ∧ e = ⟨line, .undefinedRule n .element rule⟩) ∨
        ∃ c, d.condition = some c ∧ n ∈ c.names ∧
          e = ⟨d.line, .undefinedRule n .condition rule⟩) := by
  unfold ItemDraft.resolve at h
  rcases bind_eq_error_iff.mp h with failed | ⟨elements, -, h⟩
  · obtain ⟨m, isMention, failed⟩ := exists_mem_of_mapM_eq_error failed
    obtain ⟨n, line, rfl, unknown, rfl⟩ := undefined_of_mention failed
    exact ⟨n, unknown, .inl ⟨line, isMention, rfl⟩⟩
  · cases condition : d.condition with
    | none =>
      rw [condition] at h
      cases h
    | some c =>
      rw [condition] at h
      rcases bind_eq_error_iff.mp h with failed | ⟨_, -, h⟩
      · obtain ⟨n, isName, unknown, rfl⟩ := undefined_of_checkCondition failed
        exact ⟨n, unknown, .inr ⟨c, rfl, isName, rfl⟩⟩
      · cases h

variable [Scalar ω]

theorem isEarly_of_checkWeights {draft : RuleDraft ω} (h : checkWeights draft = .error e) :
    e.IsEarly := by
  obtain ⟨group, -, failed⟩ := exists_mem_of_forM_eq_error h
  unfold checkGroup at failed
  dsimp only at failed
  split at failed
  · cases failed
    simp [LoadCause.kind]
  · split at failed <;> cases failed
    simp [LoadCause.kind]

theorem exists_item_of_ofDrafts {name : String} {drafts : List (RuleDraft ω)}
    (h : Grammar.ofDrafts name drafts = .error e) (late : ¬e.IsEarly) :
    ∃ draft ∈ drafts, ∃ d ∈ draft.body.items,
      d.resolve (drafts.map (·.name)) draft.name = .error e := by
  unfold Grammar.ofDrafts at h
  rcases bind_eq_error_iff.mp h with failed | ⟨rules, -, h⟩
  · obtain ⟨draft, isDraft, failed⟩ := exists_mem_of_mapM_eq_error failed
    unfold RuleDraft.resolve at failed
    rcases bind_eq_error_iff.mp failed with failed | ⟨_, -, failed⟩
    · exact absurd (isEarly_of_checkWeights failed) late
    · rcases bind_eq_error_iff.mp failed with failed | ⟨items, -, failed⟩
      · obtain ⟨d, isItem, failed⟩ := exists_mem_of_mapM_eq_error failed
        exact ⟨draft, isDraft, d, isItem, failed⟩
      · cases failed
  · cases h

end Lookup

/-! ### Where the name stands -/

theorem exists_token_of_names {gate : List Token} {c : Condition} {n : String}
    (isGate : Condition.Expresses .tree .disjunction (gate.map (·.lexeme)) c)
    (isName : n ∈ c.names) : ∃ there, ⟨.name n, there⟩ ∈ gate := by
  rw [Condition.names_eq_filterMap, (Condition.expresses_tree_iff.mp isGate).2] at isName
  obtain ⟨l, isLexeme, named⟩ := List.mem_filterMap.mp isName
  obtain ⟨t, member, rfl⟩ := List.mem_map.mp isLexeme
  obtain ⟨l, there⟩ := t
  obtain rfl : l = .name n := by
    cases l <;> first | cases named; rfl | cases named
  exact ⟨there, member⟩

-- A condition has no feed of its own, so only those between it and the item count.
theorem line_of_site {tokens gate between own : List Token} {c : Condition} {t : Token}
    (follows : Follows tokens) (part : gate ++ (between ++ own) <:+: tokens)
    (site : IsSite (some c) gate between own) (member : t ∈ gate) :
    (Token.front own).line = t.line + lineFeeds between := by
  obtain ⟨front, back, rfl⟩ := List.append_of_mem member
  obtain ⟨u, own, rfl⟩ := List.exists_cons_of_ne_nil site.item.ne_nil
  have noFeed : lineFeeds (t :: back) = 0 := by
    refine lineFeeds_eq_zero fun isFeed => ?_
    have isPart := isItemPart_of_expresses site.gate (.lineBreak .feed)
      (by rw [List.map_append]; exact List.mem_append_right _ isFeed)
    cases isPart
  have row : t :: (back ++ between ++ [u]) <:+: tokens := by
    refine List.IsInfix.trans ⟨front, own, ?_⟩ part
    simp
  have apart : lineFeeds (t :: (back ++ between)) = lineFeeds (t :: back) + lineFeeds between :=
    lineFeeds_append (t :: back) between
  rw [← Nat.zero_add (lineFeeds between), ← noFeed, ← apart]
  have rowFollows : Follows _ := List.IsChain.infix follows row
  exact line_of_follows rowFollows

theorem mem_of_mention {own : List Token} {n : String} {line : Nat}
    (isMention : .rule n line ∈ own.filterMap Token.mention?) : ⟨.name n, line⟩ ∈ own := by
  obtain ⟨⟨l, there⟩, member, mentions⟩ := List.mem_filterMap.mp isMention
  obtain ⟨rfl, rfl⟩ : l = .name n ∧ there = line := by
    cases l <;> simp_all [Token.mention?]
  exact member

variable {ω : Type} [Scalar ω]

/-- The error for an undefined name is about no rule of the text. Where the name is an element, the
line is its own; where it is in a condition, the line is that of the item, so many feeds further
down as stand between the condition and the item in its block. -/
theorem Grammar.undefined_of_ofText {text name n rule : String} {line : Nat} {place : MentionPlace}
    (failed : (Grammar.ofText text name : Except LoadError (Grammar ω)) =
      .error ⟨line, .undefinedRule n place rule⟩) :
    n ∉ (ruleHeads text).map (·.1) ∧ rule ∈ (ruleHeads text).map (·.1) ∧
      ∃ tokens condition gate between own, Token.ofText text = .ok tokens ∧
        gate ++ (between ++ own) <:+: tokens ∧ IsSite condition gate between own ∧
        match place with
        | .element => ⟨.name n, line⟩ ∈ own
        | .condition => ∃ there, ⟨.name n, there⟩ ∈ gate ∧ line = there + lineFeeds between := by
  have late : ¬LoadError.IsEarly ⟨line, .undefinedRule n place rule⟩ := fun early => early rfl
  unfold Grammar.ofText at failed
  rcases bind_eq_error_iff.mp failed with failed | ⟨tokens, lexed, failed⟩
  · exact absurd (isEarly_of_ofText failed) late
  rcases bind_eq_error_iff.mp failed with failed | ⟨drafts, read, failed⟩
  · exact absurd (isEarly_of_readRules failed) late
  obtain ⟨draft, isDraft, d, isItem, failed⟩ := exists_item_of_ofDrafts failed late
  obtain ⟨gate, between, own, part, site, isOf⟩ := standsIn_of_readRules read draft isDraft d isItem
  have names : (ruleHeads text).map (·.1) = drafts.map (·.name) := by
    rw [ruleHeads_of_readRules lexed read, List.map_map]
    rfl
  have isRule := List.mem_map_of_mem (f := (·.name)) isDraft
  rw [names]
  obtain ⟨n', unknown, ⟨line', isMention, same⟩ | ⟨c, under, isName, same⟩⟩ :=
    undefined_of_item failed
  · cases same
    rw [← isOf.mentions] at isMention
    exact ⟨unknown, isRule, tokens, d.condition, gate, between, own, lexed, part, site,
      mem_of_mention isMention⟩
  · cases same
    rw [under] at site
    obtain ⟨there, member⟩ := exists_token_of_names site.gate isName
    refine ⟨unknown, isRule, tokens, some c, gate, between, own, lexed, part, site, there, member,
      ?_⟩
    rw [← isOf.line]
    exact line_of_site (follows_of_tokensFrom lexed).2 part site member

/-- A block below a condition over a name that is no rule. -/
def ghostText : String := "B ? \x7b\n Ghost \x7b\n 'b'\n \x7d\n\x7d"

def ghostTokens : List Token :=
  [⟨.name "B", 1⟩, ⟨.question, 1⟩, ⟨.openBrace, 1⟩, ⟨.lineBreak .feed, 1⟩, ⟨.name "Ghost", 2⟩,
    ⟨.openBrace, 2⟩, ⟨.lineBreak .feed, 2⟩, ⟨.literal "b", 3⟩, ⟨.lineBreak .feed, 3⟩,
    ⟨.closeBrace, 4⟩, ⟨.lineBreak .feed, 4⟩, ⟨.closeBrace, 5⟩, ⟨.endOfInput, 5⟩]

theorem ofText_ghostText : Token.ofText ghostText = .ok ghostTokens := by decide +kernel

theorem undefined_ghostText : (Grammar.ofText ghostText : Except LoadError (Grammar Float)) =
    .error ⟨3, .undefinedRule "Ghost" .condition "B"⟩ := by
  refine map_eq_error (f := fun _ => ()) ?_
  decide +kernel

theorem Grammar.undefined_of_ofText_ghost :
    "Ghost" ∉ (ruleHeads ghostText).map (·.1) ∧
      ∃ gate between own, gate ++ (between ++ own) <:+: ghostTokens ∧
        ⟨.name "Ghost", 2⟩ ∈ gate ∧ lineFeeds between = 1 := by
  obtain ⟨unknown, -, tokens, condition, gate, between, own, lexed, part, -, there, member, line⟩ :=
    Grammar.undefined_of_ofText undefined_ghostText
  obtain rfl : ghostTokens = tokens := Except.ok.inj (ofText_ghostText.symm.trans lexed)
  have isToken := part.subset (List.mem_append_left _ member)
  obtain rfl : there = 2 := by simpa [ghostTokens] using isToken
  exact ⟨unknown, gate, between, own, part, member, by omega⟩

/-- The line of the error may be one without the name. -/
theorem Grammar.exists_undefined_elsewhere :
    ¬∀ (text n rule : String) (line : Nat) (place : MentionPlace) (tokens : List Token),
      (Grammar.ofText text : Except LoadError (Grammar Float)) =
        .error ⟨line, .undefinedRule n place rule⟩ →
      Token.ofText text = .ok tokens → ⟨.name n, line⟩ ∈ tokens := by
  intro onLine
  have member := onLine ghostText "Ghost" "B" 3 .condition ghostTokens undefined_ghostText
    ofText_ghostText
  exact absurd member (by decide +kernel)

end WeightedGrammar

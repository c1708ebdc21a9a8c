import WeightedGrammar.Proofs.Form.Settling
import WeightedGrammar.Proofs.Grammar.Undefined

/-!
Errors are located. One of the lexer is at the character that no lexeme begins with, one of the
readers or of the lookup is at a token that the cause is about; either way the line is one of the
text (`Grammar.located_of_ofText`).
-/

namespace WeightedGrammar
open Lexeme

/-! ### Tokens of rules -/

theorem mem_of_mem_heads {depth : Nat} {ts : List Token} {rule : String} {line : Nat}
    (isHead : (rule, line) ∈ heads depth ts) : ⟨.name rule, line⟩ ∈ ts := by
  fun_induction heads depth ts with
  | case1 => cases isHead
  | case2 depth t ts isOpen ih => exact List.mem_cons_of_mem t (ih isHead)
  | case3 depth t ts isClose ih => exact List.mem_cons_of_mem t (ih isHead)
  | case4 t ts name isName ih =>
    rcases List.mem_cons.mp isHead with same | later
    · obtain ⟨rfl, rfl⟩ := Prod.mk.inj same
      rw [← isName]
      exact List.mem_cons_self
    · exact List.mem_cons_of_mem t (ih later)
  | case5 depth t ts name isName inside ih => exact List.mem_cons_of_mem t (ih isHead)
  | case6 depth t ts notOpen notClose notName ih => exact List.mem_cons_of_mem t (ih isHead)

section Lookup
variable {ω : Type} {ts own : List Token} {d : ItemDraft ω} {rule : String} {e : LoadError}

/-- The token that an item begins with. -/
theorem ItemDraft.IsOf.exists_first (isOf : d.IsOf own) (isItem : IsItem own) :
    ∃ t ∈ own, t.line = d.line ∧ (t.lexeme.startsItem = true ∨ t.lexeme.isState = true) := by
  obtain ⟨f, filled, lexemes⟩ := isItem
  obtain ⟨l, ls, first, starts⟩ := f.head_of_isFilled filled
  rw [first] at lexemes
  obtain ⟨t, tail, rfl, rfl, -⟩ := List.map_eq_cons_iff.mp lexemes
  refine ⟨t, List.mem_cons_self, isOf.line, starts.imp_right ?_⟩
  rintro ⟨s, isState⟩
  rw [isState]
  rfl

theorem isAt_of_item {names : List String} (stands : d.StandsIn ts)
    (failed : d.resolve names rule = .error e) : e.IsAt ts := by
  obtain ⟨gate, between, own, part, site, isOf⟩ := stands
  have inside : own ⊆ ts := fun t member =>
    part.subset (List.mem_append_right gate (List.mem_append_right between member))
  obtain ⟨n, -, ⟨line, isMention, rfl⟩ | ⟨c, -, -, rfl⟩⟩ := undefined_of_item failed
  · rw [← isOf.mentions] at isMention
    exact ⟨_, inside (mem_of_mention isMention), rfl, rfl⟩
  · obtain ⟨t, isToken, line, starts⟩ := isOf.exists_first site.item
    exact ⟨t, inside isToken, line.symm, starts⟩

variable [Scalar ω]

theorem isAt_of_checkWeights {draft : RuleDraft ω} (isName : ⟨.name draft.name, draft.line⟩ ∈ ts)
    (failed : checkWeights draft = .error e) : e.IsAt ts := by
  obtain ⟨group, -, failed⟩ := exists_mem_of_forM_eq_error failed
  unfold checkGroup at failed
  dsimp only at failed
  split at failed
  · cases failed
    exact ⟨_, isName, rfl, rfl⟩
  · split at failed <;> cases failed
    exact ⟨_, isName, rfl, rfl⟩

/-- What fails in the lookup is a rule, of which the name is a token, or an item, of which the
tokens stand together. -/
theorem isAt_of_ofDrafts {name : String} {drafts : List (RuleDraft ω)}
    (named : ∀ draft ∈ drafts, ⟨.name draft.name, draft.line⟩ ∈ ts)
    (stands : ∀ draft ∈ drafts, ∀ d ∈ draft.body.items, d.StandsIn ts)
    (failed : Grammar.ofDrafts name drafts = .error e) : e.IsAt ts := by
  unfold Grammar.ofDrafts at failed
  rcases bind_eq_error_iff.mp failed with failed | ⟨rules, -, failed⟩
  · obtain ⟨draft, isDraft, failed⟩ := exists_mem_of_mapM_eq_error failed
    unfold RuleDraft.resolve at failed
    rcases bind_eq_error_iff.mp failed with failed | ⟨_, -, failed⟩
    · exact isAt_of_checkWeights (named draft isDraft) failed
    · rcases bind_eq_error_iff.mp failed with failed | ⟨items, -, failed⟩
      · obtain ⟨d, isItem, failed⟩ := exists_mem_of_mapM_eq_error failed
        exact isAt_of_item (stands draft isDraft d isItem) failed
      · cases failed
  · cases failed

end Lookup

/-! ### Lines of errors -/

/-- The place of an error in a text: the character that no lexeme begins with, or a token that the
cause is about. -/
def LoadError.IsIn (e : LoadError) (text : String) : Prop :=
  (∃ ls c cs, ComesTo 1 text.toList ls (c :: cs) e.line ∧ scan c cs = .fault e.cause) ∨
    ∃ tokens, Token.ofText text = .ok tokens ∧ e.IsAt tokens

theorem ComesTo.line_bounds {text behind : List Char} {ls : List Lexeme} {there : Nat}
    (comes : ComesTo 1 text ls behind there) : 1 ≤ there ∧ there ≤ 1 + text.count '\n' := by
  obtain ⟨before, rfl, -, rfl⟩ := comes
  rw [List.count_append]
  omega

theorem LoadError.IsIn.line_bounds {e : LoadError} {text : String} (isIn : e.IsIn text) :
    1 ≤ e.line ∧ e.line ≤ 1 + feeds text := by
  rcases isIn with ⟨ls, c, cs, comes, -⟩ | ⟨tokens, lexed, t, isToken, line, -⟩
  · exact comes.line_bounds
  · obtain ⟨front, back, rfl⟩ := List.append_of_mem isToken
    obtain ⟨behind, comes, -⟩ := comesTo_of_tokensFrom lexed
    rw [line]
    exact comes.line_bounds

theorem LoadError.text_of_line_pos {e : LoadError} (pos : 1 ≤ e.line) :
    e.text = "line " ++ toString e.line ++ ": " ++ e.cause.message := by
  have notZero : (e.line : Int) ≠ 0 := by omega
  rw [LoadError.text, located, if_neg notZero]
  rfl

/-! ### Loading -/

variable {ω : Type} [Scalar ω]

theorem isIn_of_ofText {text name : String} {e : LoadError}
    (failed : (Grammar.ofText text name : Except LoadError (Grammar ω)) = .error e) :
    e.IsIn text := by
  unfold Grammar.ofText at failed
  rcases bind_eq_error_iff.mp failed with failed | ⟨tokens, lexed, failed⟩
  · exact .inl (comesTo_of_error failed)
  refine .inr ⟨tokens, lexed, ?_⟩
  rcases bind_eq_error_iff.mp failed with failed | ⟨drafts, read, failed⟩
  · exact (readRules_settles (endsInput_of_tokensFrom lexed)).2 e failed
  · refine isAt_of_ofDrafts (fun draft isDraft => ?_) (standsIn_of_readRules read) failed
    have isHead : (draft.name, draft.line) ∈ ruleHeads text := by
      rw [ruleHeads_of_readRules lexed read]
      exact List.mem_map_of_mem isDraft
    rw [ruleHeads_eq lexed] at isHead
    exact mem_of_mem_heads isHead

/-- Every text gives a grammar or an error that has its place and its line in the text, and begins
with that line. The readers of a text stop in front of the end of its tokens, wherever they fail:
what would stand behind changes nothing. -/
theorem Grammar.located_of_ofText (text name : String) :
    ((∃ g : Grammar ω, Grammar.ofText text name = .ok g) ∨
      ∃ e, (Grammar.ofText text name : Except LoadError (Grammar ω)) = .error e ∧ e.IsIn text ∧
        1 ≤ e.line ∧ e.line ≤ 1 + feeds text ∧
        e.text = "line " ++ toString e.line ++ ": " ++ e.cause.message) ∧
    ∀ tokens, Token.ofText text = .ok tokens → Token.Ends tokens ∧
      ∀ more, readRules (ω := ω) [] (tokens ++ more) = readRules [] tokens := by
  refine ⟨?_, fun tokens lexed => ?_⟩
  · cases loaded : (Grammar.ofText text name : Except LoadError (Grammar ω)) with
    | ok g => exact .inl ⟨g, rfl⟩
    | error e =>
      have isIn := isIn_of_ofText loaded
      obtain ⟨pos, le⟩ := isIn.line_bounds
      exact .inr ⟨e, rfl, isIn, pos, le, LoadError.text_of_line_pos pos⟩
  · have ends : Token.Ends tokens := endsInput_of_tokensFrom lexed
    exact ⟨ends, (readRules_settles ends).1⟩

/-- A conditional rule that breaks off behind a condition. -/
def cutText : String := "A \x7b 'a' \x7d\nB ? \x7b\n A && (!A"

theorem Grammar.located_of_ofText_cut :
    ∃ e, (Grammar.ofText cutText : Except LoadError (Grammar Float)) = .error e ∧ e.IsIn cutText ∧
      e.text = "line 3: unbalanced parentheses: expected ')' but found end of input" := by
  have failed : (Grammar.ofText cutText : Except LoadError (Grammar Float)) =
      .error ⟨3, .unclosedGroup .endOfInput⟩ := by
    refine map_eq_error (f := fun _ => ()) ?_
    decide +kernel
  rcases (Grammar.located_of_ofText (ω := Float) cutText "").1 with
    ⟨g, loaded⟩ | ⟨e, again, isIn, -, -, text⟩
  · rw [failed] at loaded
    cases loaded
  · obtain rfl := Except.error.inj (failed.symm.trans again)
    refine ⟨_, again, isIn, text.trans ?_⟩
    decide +kernel

end WeightedGrammar

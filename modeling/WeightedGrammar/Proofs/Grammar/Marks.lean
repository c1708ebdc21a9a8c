import WeightedGrammar.Proofs.Form.Loading
import WeightedGrammar.Number.Double
import WeightedGrammar.Proofs.Token.Marks

/-!
Line breaks in a grammar text. No item ends behind its weight (`RulesText.weightsApart`), and the
derivations take one mark of a line break for the other (`RulesText.remark`). So a text with other
marks at its line breaks has the same grammar (`Grammar.ofText_of_rebroken`).
-/

namespace WeightedGrammar
open Lexeme

/-! ### Lexemes of items and conditions -/

section Parts
variable {ls : List Lexeme} {c : Condition} {f : ItemForm String}

theorem isLineBreak_of_isItemPart {l : Lexeme} (part : l.isItemPart = true) :
    l.isLineBreak = false := by
  cases l <;> first | rfl | cases part

theorem isLineBreak_of_expresses (h : Condition.Expresses .tree .disjunction ls c) :
    ∀ l ∈ ls, l.isLineBreak = false :=
  fun l member => isLineBreak_of_isItemPart (isItemPart_of_expresses h l member)

theorem isWeight_of_expresses (h : Condition.Expresses .tree .disjunction ls c) :
    ∀ l ∈ ls, l.isWeight = false := by
  rw [← (Condition.expresses_tree_iff.mp h).2]
  clear h
  induction c with
  | fired rule => simp [Condition.flatten, Lexeme.isWeight]
  | conj left right ihLeft ihRight => simp_all [Condition.flatten, Lexeme.isWeight, or_imp]
  | disj left right ihLeft ihRight => simp_all [Condition.flatten, Lexeme.isWeight, or_imp]
  | neg child ih => simpa [Condition.flatten, Lexeme.isWeight] using ih
  | group child ih => simpa [Condition.flatten, Lexeme.isWeight, or_imp, forall_and] using ih

theorem ItemForm.isLineBreak_of_mem : ∀ l ∈ f.lexemes, l.isLineBreak = false := by
  intro l member
  rcases f.part_of_mem l member with part | isState
  · exact isLineBreak_of_isItemPart part
  · cases l <;> first | rfl | cases isState

theorem ItemForm.isWeight_of_mem (noWeight : f.weight = none) :
    ∀ l ∈ f.lexemes, l.isWeight = false := by
  have word : ∀ w ∈ f.words, w.lexeme.isWeight = false := by
    intro w _
    cases w <;> rfl
  rw [lexemes, noWeight]
  exact List.forall_mem_append.mpr
    ⟨List.forall_mem_map.mpr word, List.forall_mem_map.mpr fun s _ => rfl⟩

theorem ItemForm.lexemes_of_weight {text : String} (weight : f.weight = some text) :
    f.lexemes = .weight text :: { f with weight := none }.lexemes := by
  simp [ItemForm.lexemes, weight]

end Parts

/-! ### Weights -/

section Weights
variable {l : Lexeme} {front ls tail : List Lexeme}

theorem WeightsApart.cons (notWeight : l.isWeight = false) (apart : WeightsApart ls) :
    WeightsApart (l :: ls) := by
  refine List.isChain_cons.mpr ⟨fun _ _ isWeight => ?_, apart⟩
  rw [notWeight] at isWeight
  cases isWeight

theorem WeightsApart.append (noWeight : ∀ l ∈ front, l.isWeight = false)
    (apart : WeightsApart ls) : WeightsApart (front ++ ls) := by
  induction front with
  | nil => exact apart
  | cons l front ih =>
    obtain ⟨first, others⟩ := List.forall_mem_cons.mp noWeight
    exact (ih others).cons first

/-- An item that is filled goes on behind its weight. -/
theorem ItemForm.weightsApart {f : ItemForm String} (filled : f.isFilled = true)
    (apart : WeightsApart ls) : WeightsApart (f.lexemes ++ ls) := by
  cases weight : f.weight with
  | none => exact apart.append (ItemForm.isWeight_of_mem weight)
  | some text =>
    rw [ItemForm.lexemes_of_weight weight]
    refine List.isChain_cons.mpr ⟨fun l isHead _ => ?_, apart.append (isWeight_of_mem rfl)⟩
    obtain ⟨l', more, first, -⟩ := ItemForm.head_of_isFilled (f := { f with weight := none }) filled
    rw [first] at isHead
    cases isHead
    exact ItemForm.isLineBreak_of_mem _ (first ▸ List.mem_cons_self)

theorem Block.weightsApart {condition : Option Condition} {body : BodyForm String}
    (h : Block condition ls body) (apart : WeightsApart tail) : WeightsApart (ls ++ tail) := by
  induction h with
  | close => exact apart.cons rfl
  | lineBreak mark _ ih => exact ih.cons rfl
  | state s _ ih => exact ih.cons rfl
  | item _ _ filled _ _ ih =>
    rw [List.append_assoc]
    exact ItemForm.weightsApart filled ih

theorem GatedBody.weightsApart {rule : String} {body : BodyForm String}
    (h : GatedBody rule ls body) (apart : WeightsApart tail) : WeightsApart (ls ++ tail) := by
  induction h with
  | close => exact apart.cons rfl
  | lineBreak mark _ ih => exact ih.cons rfl
  | state s _ ih => exact ih.cons rfl
  | block gate lines _ _ ih =>
    rw [List.append_assoc, List.cons_append, List.append_assoc]
    exact ((lines.weightsApart ih).cons rfl).append (isWeight_of_expresses gate)
  | item gate _ filled _ _ ih =>
    rw [List.append_assoc, List.append_assoc]
    exact (ItemForm.weightsApart filled ih).append (isWeight_of_expresses gate)

theorem RulesText.weightsApart {forms : List (RuleForm String)} (h : RulesText ls forms) :
    WeightsApart ls := by
  induction h with
  | endOfInput => exact .singleton _
  | lineBreak mark _ ih => exact ih.cons rfl
  | rule first _ ih =>
    cases first with
    | plain name lines => exact ((lines.weightsApart ih).cons rfl).cons rfl
    | gated name lines => exact (((lines.weightsApart ih).cons rfl).cons rfl).cons rfl

end Weights

/-! ### Marks -/

/-- The lexemes are the same up to the marks of line breaks. -/
def SameUnmarked (ls' ls : List Lexeme) : Prop := ls'.map unmarked = ls.map unmarked

theorem Lexeme.unmarked_of_plain {l : Lexeme} (plain : l.isLineBreak = false) : l.unmarked = l := by
  cases l <;> first | rfl | cases plain

theorem Lexeme.eq_of_unmarked {l l' : Lexeme} (plain : l.isLineBreak = false)
    (same : l'.unmarked = l) : l' = l := by
  cases l' with
  | lineBreak mark =>
    subst same
    cases plain
  | _ => exact same

section Marks
variable {front ls ls' : List Lexeme}

theorem SameUnmarked.of_cons {l : Lexeme} (same : SameUnmarked ls' (l :: ls))
    (plain : l.isLineBreak = false) : ∃ rest, ls' = l :: rest ∧ SameUnmarked rest ls := by
  obtain ⟨l', rest, rfl, first, others⟩ := List.map_eq_cons_iff.mp same
  rw [unmarked_of_plain plain] at first
  exact ⟨rest, by rw [eq_of_unmarked plain first], others⟩

theorem SameUnmarked.of_lineBreak {mark : LineMark}
    (same : SameUnmarked ls' (.lineBreak mark :: ls)) :
    ∃ mark' rest, ls' = .lineBreak mark' :: rest ∧ SameUnmarked rest ls := by
  obtain ⟨l', rest, rfl, first, others⟩ := List.map_eq_cons_iff.mp same
  cases l' with
  | lineBreak mark' => exact ⟨mark', rest, rfl, others⟩
  | _ => cases first

theorem SameUnmarked.of_append (same : SameUnmarked ls' (front ++ ls)) :
    ∃ front' rest, ls' = front' ++ rest ∧ SameUnmarked front' front ∧ SameUnmarked rest ls := by
  unfold SameUnmarked at same
  rw [List.map_append] at same
  exact List.map_eq_append_iff.mp same

theorem SameUnmarked.of_plain_append (same : SameUnmarked ls' (front ++ ls))
    (plain : ∀ l ∈ front, l.isLineBreak = false) :
    ∃ rest, ls' = front ++ rest ∧ SameUnmarked rest ls := by
  induction front generalizing ls' with
  | nil => exact ⟨ls', rfl, same⟩
  | cons l front ih =>
    obtain ⟨first, others⟩ := List.forall_mem_cons.mp plain
    obtain ⟨behind, rfl, sameBehind⟩ := same.of_cons first
    obtain ⟨rest, rfl, sameRest⟩ := ih sameBehind others
    exact ⟨rest, rfl, sameRest⟩

theorem SameUnmarked.endsLine (same : SameUnmarked ls' ls)
    (ends : WeightedGrammar.endsLine ls = true) : WeightedGrammar.endsLine ls' = true := by
  unfold WeightedGrammar.endsLine at ends
  split at ends
  · obtain ⟨mark', rest, rfl, -⟩ := same.of_lineBreak
    rfl
  · obtain ⟨rest, rfl, -⟩ := same.of_cons rfl
    rfl
  · cases ends

theorem Block.remark {condition : Option Condition} {body : BodyForm String}
    (h : Block condition ls body) (same : SameUnmarked ls' ls) : Block condition ls' body := by
  induction h generalizing ls' with
  | close =>
    obtain ⟨rest, rfl, nothing⟩ := same.of_cons rfl
    obtain rfl := List.map_eq_nil_iff.mp nothing
    exact .close
  | lineBreak mark _ ih =>
    obtain ⟨mark', rest, rfl, behind⟩ := same.of_lineBreak
    exact .lineBreak mark' (ih behind)
  | state s _ ih =>
    obtain ⟨rest, rfl, behind⟩ := same.of_cons rfl
    exact .state s (ih behind)
  | item under opens filled ends _ ih =>
    obtain ⟨rest, rfl, behind⟩ := same.of_plain_append ItemForm.isLineBreak_of_mem
    exact .item under opens filled (behind.endsLine ends) (ih behind)

theorem GatedBody.remark {rule : String} {body : BodyForm String} (h : GatedBody rule ls body)
    (same : SameUnmarked ls' ls) : GatedBody rule ls' body := by
  induction h generalizing ls' with
  | close =>
    obtain ⟨rest, rfl, nothing⟩ := same.of_cons rfl
    obtain rfl := List.map_eq_nil_iff.mp nothing
    exact .close
  | lineBreak mark _ ih =>
    obtain ⟨mark', rest, rfl, behind⟩ := same.of_lineBreak
    exact .lineBreak mark' (ih behind)
  | state s _ ih =>
    obtain ⟨rest, rfl, behind⟩ := same.of_cons rfl
    exact .state s (ih behind)
  | block gate lines holds _ ih =>
    obtain ⟨opened, rfl, sameOpened⟩ := same.of_plain_append (isLineBreak_of_expresses gate)
    obtain ⟨inside, rfl, sameInside⟩ := sameOpened.of_cons rfl
    obtain ⟨block, rest, rfl, sameBlock, behind⟩ := sameInside.of_append
    exact .block gate (lines.remark sameBlock) holds (ih behind)
  | item gate under filled ends _ ih =>
    obtain ⟨gated, rfl, sameGated⟩ := same.of_plain_append (isLineBreak_of_expresses gate)
    obtain ⟨rest, rfl, behind⟩ := sameGated.of_plain_append ItemForm.isLineBreak_of_mem
    exact .item gate under filled (behind.endsLine ends) (ih behind)

theorem RuleText.remark {form : RuleForm String} (h : RuleText ls form)
    (same : SameUnmarked ls' ls) : RuleText ls' form := by
  cases h with
  | plain name lines =>
    obtain ⟨opened, rfl, sameOpened⟩ := same.of_cons rfl
    obtain ⟨inside, rfl, sameInside⟩ := sameOpened.of_cons rfl
    exact .plain name (lines.remark sameInside)
  | gated name lines =>
    obtain ⟨marked, rfl, sameMarked⟩ := same.of_cons rfl
    obtain ⟨opened, rfl, sameOpened⟩ := sameMarked.of_cons rfl
    obtain ⟨inside, rfl, sameInside⟩ := sameOpened.of_cons rfl
    exact .gated name (lines.remark sameInside)

theorem RulesText.remark {forms : List (RuleForm String)} (h : RulesText ls forms)
    (same : SameUnmarked ls' ls) : RulesText ls' forms := by
  induction h generalizing ls' with
  | endOfInput =>
    obtain ⟨rest, rfl, nothing⟩ := same.of_cons rfl
    obtain rfl := List.map_eq_nil_iff.mp nothing
    exact .endOfInput
  | lineBreak mark _ ih =>
    obtain ⟨mark', rest, rfl, behind⟩ := same.of_lineBreak
    exact .lineBreak mark' (ih behind)
  | rule first _ ih =>
    obtain ⟨front, rest, rfl, sameFirst, behind⟩ := same.of_append
    exact .rule (first.remark sameFirst) (ih behind)

end Marks

/-! ### Loading -/

/-- A text that is loaded gives the same grammar with other marks at any of its line breaks, those
behind comments excepted. -/
theorem Grammar.ofText_of_rebroken {ω : Type} [Scalar ω] {text text' name : String}
    {g : Grammar ω} (loaded : Grammar.ofText text name = .ok g)
    (rebroken : Rebroken text.toList text'.toList) : Grammar.ofText text' name = .ok g := by
  obtain ⟨tokens, forms, lexed, derives, loadable, rfl⟩ := Grammar.ofText_eq_ok_iff.mp loaded
  obtain ⟨ls, lexed', same⟩ := lexed_of_rebroken rebroken lexed derives.weightsApart
  obtain ⟨tokens', read, rfl⟩ := lexed' 1
  exact Grammar.ofText_eq_ok_iff.mpr
    ⟨tokens', forms, read, derives.remark same, loadable, rfl⟩

/-- Line breaks of both marks; the semicolons in the literal and in the comment are none. -/
def marksText : String := "A\x7b'a;'\n%5 'b'//;\n\x7d;B\x7bA\x7d"

def otherMarksText : String := "A\x7b'a;';%5 'b'//;\n\x7d\nB\x7bA\x7d"

theorem rebroken_marksText : Rebroken marksText.toList otherMarksText.toList := by
  have chars : marksText.toList =
      ['A', '\x7b', '\'', 'a', ';', '\'', '\n', '%', '5', ' ', '\'', 'b', '\'', '/', '/', ';',
        '\n', '\x7d', ';', 'B', '\x7b', 'A', '\x7d'] := by
    decide +kernel
  have others : otherMarksText.toList =
      ['A', '\x7b', '\'', 'a', ';', '\'', ';', '%', '5', ' ', '\'', 'b', '\'', '/', '/', ';',
        '\n', '\x7d', '\n', 'B', '\x7b', 'A', '\x7d'] := by
    decide +kernel
  -- Behind the last change the texts are the same.
  obtain ⟨ts, lexed⟩ : ∃ ts, Token.tokensFrom 1 ['B', '\x7b', 'A', '\x7d'] = .ok ts :=
    exists_ok_of_isOk (by decide +kernel)
  rw [chars, others]
  refine @Rebroken.lexeme 'A' [] _ _ (.name "A") (scan_of_isNameStart (by decide)) ?_
  refine @Rebroken.lexeme '\x7b' [] _ _ .openBrace rfl ?_
  refine @Rebroken.lexeme '\'' ['a', ';', '\''] _ _ (.literal "a;") rfl ?_
  refine .lineBreak .feed .semicolon ?_
  refine @Rebroken.lexeme '%' ['5'] _ _ (.weight "5") rfl (.blank rfl ?_)
  refine @Rebroken.lexeme '\'' ['b', '\''] _ _ (.literal "b") rfl ?_
  refine @Rebroken.comment ['/', '/', ';'] _ _ ⟨[';'], by decide, .inr rfl⟩ (.inr ⟨_, rfl⟩)
    (.inr ⟨_, rfl⟩) (.lineBreak .feed .feed ?_)
  refine @Rebroken.lexeme '\x7d' [] _ _ .closeBrace rfl ?_
  exact .lineBreak .semicolon .feed (rebroken_self lexed)

theorem Grammar.ofText_of_rebroken_marks :
    ∃ g : Grammar Float, Grammar.ofText marksText = .ok g ∧ Grammar.ofText otherMarksText = .ok g := by
  obtain ⟨g, loaded⟩ : ∃ g, (Grammar.ofText marksText : Except LoadError (Grammar Float)) = .ok g :=
    exists_ok_of_isOk (by decide +kernel)
  exact ⟨g, loaded, Grammar.ofText_of_rebroken loaded rebroken_marksText⟩

end WeightedGrammar

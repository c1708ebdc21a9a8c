import Mathlib.Data.List.Forall2
import WeightedGrammar.Proofs.Form.Loading
import WeightedGrammar.Proofs.Token.Written

/-!
The lexemes of printed grammars. Each piece of the printed text, in front of what follows it, has
the lexemes of its form: conditions, items, and the lines of a rule (`lexed_rule`).
-/

namespace WeightedGrammar
open Text Lexeme

/-! ### Joined texts -/

theorem toList_intercalate_concat (sep last : String) (texts : List String) :
    (sep.intercalate (texts ++ [last])).toList =
      texts.flatMap (fun text => text.toList ++ sep.toList) ++ last.toList := by
  induction texts with
  | nil => simp
  | cons first texts ih =>
    rw [List.cons_append, String.intercalate_cons_of_ne_nil (by simp), String.toList_append,
      String.toList_append, ih]
    simp

/-- The text has the lexemes in front of a blank or the end of the line. -/
def Writes (text : String) (ls : List Lexeme) : Prop :=
  ∀ rest after, Separated rest → Lexed rest after → Lexed (text.toList ++ rest) (ls ++ after)

theorem writes_join {texts : List String} {lss : List (List Lexeme)}
    (each : List.Forall₂ Writes texts lss) : Writes (" ".intercalate texts) lss.flatten := by
  induction each with
  | nil => exact fun rest after _ lexed => lexed
  | @cons text lexemes texts lss one more ih =>
    cases more with
    | nil => simpa using one
    | @cons next _ others _ =>
      intro rest after separated lexed
      have behind := lexed_space (ih rest after separated lexed)
      have blank : Separated (' ' :: ((" ".intercalate (next :: others)).toList ++ rest)) :=
        ⟨' ', _, rfl, .inl rfl⟩
      have whole := one _ _ blank behind
      rw [String.intercalate_cons_cons]
      simpa using whole

/-! ### Conditions -/

theorem lexed_condition {c : Condition} (names : ∀ name ∈ c.names, IsName name) {rest : List Char}
    {ls : List Lexeme} (stops : Stops isWord rest) (h : Lexed rest ls) :
    Lexed (c.toText.toList ++ rest) (c.flatten ++ ls) := by
  induction c generalizing rest ls with
  | fired rule => exact lexed_name (names rule (by simp [Condition.names])) stops h
  | conj left right ihLeft ihRight =>
    simp only [Condition.names, List.mem_append, or_imp, forall_and] at names
    have second := lexed_space (ihRight names.2 stops h)
    have sign := lexed_space (lexed_andSign second)
    have first := ihLeft names.1 (by simp [Stops]; decide) sign
    simpa [Condition.toText, Condition.flatten] using first
  | disj left right ihLeft ihRight =>
    simp only [Condition.names, List.mem_append, or_imp, forall_and] at names
    have second := lexed_space (ihRight names.2 stops h)
    have sign := lexed_space (lexed_orSign second)
    have first := ihLeft names.1 (by simp [Stops]; decide) sign
    simpa [Condition.toText, Condition.flatten] using first
  | neg child ih =>
    have sign := lexed_notSign (ih names stops h)
    simpa [Condition.toText, Condition.flatten] using sign
  | group child ih =>
    have inner := ih names (by simp [Stops]; decide) (lexed_closeParen h)
    have opened := lexed_openParen inner
    simpa [Condition.toText, Condition.flatten] using opened

/-! ### Items -/

variable {ω : Type}

/-- The lexemes of an item with its condition in front. -/
def ItemForm.line (f : ItemForm String) : List Lexeme :=
  ((f.condition.map (·.flatten)).toList).flatten ++ f.lexemes

/-- All that the item holds besides its weight can be written. -/
structure ItemForm.IsWritable (f : ItemForm ω) : Prop where
  condition : ∀ c ∈ f.condition, ∀ name ∈ c.names, IsName name
  words : ∀ w ∈ f.words, w.lexeme.IsWritable
  states : ∀ s ∈ f.states, s.lexeme.IsWritable

theorem writes_word (names : List String) {w : Word} (writable : w.lexeme.IsWritable) :
    Writes (w.element names).toText [w.lexeme] := by
  intro rest after separated lexed
  cases w with
  | literal text => exact lexed_literal writable lexed
  | name rule => exact lexed_name writable (separated.stops (by decide) (by decide)) lexed

theorem writes_state {s : StateExpr} (writable : s.lexeme.IsWritable) :
    Writes s.toText [s.lexeme] :=
  fun _ _ separated lexed => lexed_state writable separated lexed

theorem forall₂_writes_map {α : Type} (text : α → String) (lexemes : α → List Lexeme) {l : List α}
    (each : ∀ a ∈ l, Writes (text a) (lexemes a)) :
    List.Forall₂ Writes (l.map text) (l.map lexemes) := by
  rw [List.forall₂_map_left_iff, List.forall₂_map_right_iff, List.forall₂_same]
  exact each

theorem writes_states {states : List StateExpr} (writable : ∀ s ∈ states, s.lexeme.IsWritable) :
    Writes (" ".intercalate (states.map (·.toText))) (states.map (·.lexeme)) := by
  have joined := writes_join (forall₂_writes_map StateExpr.toText (fun s => [s.lexeme])
    fun s member => writes_state (writable s member))
  simpa [← List.flatMap_def, ← List.map_eq_flatMap] using joined

variable [Scalar ω]

def ItemForm.written (f : ItemForm ω) : ItemForm String :=
  ⟨f.weight.map Scalar.text, f.words, f.condition, f.states⟩

variable (ω) in
/-- Weights are written in characters that a weight may hold. -/
def WritesWeights : Prop := ∀ w : ω, ∀ c ∈ (Scalar.text w).toList, isWeightChar c = true

theorem writes_weight (weights : WritesWeights ω) (w : ω) :
    Writes ("%" ++ Scalar.text w) [.weight (Scalar.text w)] := by
  intro rest after separated lexed
  have stops : Stops isWeightChar rest := separated.stops (by decide) (by decide)
  simpa using lexed_weight (weights w) stops lexed

theorem writes_item (weights : WritesWeights ω) (names : List String) {f : ItemForm ω}
    (writable : f.IsWritable) : Writes (f.item names).toText f.written.line := by
  have condition : List.Forall₂ Writes (f.condition.map (·.toText)).toList
      (f.condition.map (·.flatten)).toList := by
    cases isCondition : f.condition with
    | none => exact .nil
    | some c =>
      refine .cons ?_ .nil
      intro rest after separated lexed
      exact lexed_condition (writable.condition c isCondition)
        (separated.stops (by decide) (by decide)) lexed
  have weight : List.Forall₂ Writes (f.weight.map fun w => "%" ++ Scalar.text w).toList
      (f.weight.map fun w => [.weight (Scalar.text w)]).toList := by
    cases f.weight with
    | none => exact .nil
    | some w => exact .cons (writes_weight weights w) .nil
  have words := forall₂_writes_map (fun w : Word => (w.element names).toText) (fun w => [w.lexeme])
    fun w member => writes_word names (writable.words w member)
  have states := forall₂_writes_map StateExpr.toText (fun s => [s.lexeme])
    fun s member => writes_state (writable.states s member)
  have joined := writes_join
    (List.rel_append (List.rel_append (List.rel_append condition weight) words) states)
  have text : (f.item names).toText = " ".intercalate ((f.condition.map (·.toText)).toList ++
      (f.weight.map fun w => "%" ++ Scalar.text w).toList ++
      f.words.map (fun w => (w.element names).toText) ++ f.states.map (·.toText)) := by
    simp [Item.toText, Item.parts, ItemForm.item, Function.comp_def]
  have lexemes : f.written.line = ((f.condition.map Condition.flatten).toList ++
      (f.weight.map fun w => [Lexeme.weight (Scalar.text w)]).toList ++
      f.words.map (fun w : Word => [w.lexeme]) ++
      f.states.map (fun s : StateExpr => [s.lexeme])).flatten := by
    cases weight : f.weight <;>
      simp [ItemForm.line, ItemForm.written, ItemForm.lexemes, weight, ← List.flatMap_def,
        ← List.map_eq_flatMap]
  rw [text, lexemes]
  exact joined

/-! ### Rules -/

structure RuleForm.IsWritable (r : RuleForm ω) : Prop where
  name : IsName r.name
  states : ∀ s ∈ r.body.states, s.lexeme.IsWritable
  items : ∀ f ∈ r.body.items, f.IsWritable

def RuleForm.written (r : RuleForm ω) : RuleForm String :=
  ⟨r.name, r.conditional, r.body.items.map (·.written), r.body.states⟩

/-- The lexemes of the lines of the rule but the last: its head, its states if it has any, and its
items. -/
def RuleForm.lines (r : RuleForm String) : List (List Lexeme) :=
  (.name r.name :: ((if r.conditional then [.question] else []) ++ [.openBrace])) ::
    ((if r.body.states.isEmpty then [] else [r.body.states.map (·.lexeme)]) ++
      r.body.items.map (·.line))

def RuleForm.lexemes (r : RuleForm String) : List Lexeme :=
  r.lines.flatMap (· ++ [.lineBreak .feed]) ++ [.closeBrace]

omit [Scalar ω] in
theorem writes_indented {text : String} {ls : List Lexeme} (h : Writes text ls) :
    Writes ("    " ++ text) ls := by
  intro rest after separated lexed
  simpa using lexed_space (lexed_space (lexed_space (lexed_space (h rest after separated lexed))))

theorem lexed_lines {texts : List String} {lss : List (List Lexeme)}
    (each : List.Forall₂ Writes texts lss) {rest : List Char} {ls : List Lexeme}
    (h : Lexed rest ls) :
    Lexed (texts.flatMap (fun text => text.toList ++ "\n".toList) ++ rest)
      (lss.flatMap (· ++ [.lineBreak .feed]) ++ ls) := by
  induction each with
  | nil => exact h
  | @cons text lexemes texts lss one _ ih =>
    have line := one _ _ ⟨'\n', _, rfl, .inr rfl⟩ (lexed_feed ih)
    simpa using line

theorem lexed_rule (weights : WritesWeights ω) (names : List String) {r : RuleForm ω}
    (writable : r.IsWritable) {rest : List Char} {ls : List Lexeme} (h : Lexed rest ls) :
    Lexed ((r.rule names).toText.toList ++ rest) (r.written.lexemes ++ ls) := by
  have head : Writes (r.name ++ (if r.conditional then " ? \x7b" else " \x7b"))
      (.name r.name :: ((if r.conditional then [.question] else []) ++ [.openBrace])) := by
    intro rest after separated lexed
    have blank : ∀ more, Stops isWord (' ' :: more) := fun more => by simp [Stops]; decide
    have opened := lexed_space (lexed_openBrace lexed)
    cases r.conditional with
    | true =>
      simpa using lexed_name writable.name (blank _) (lexed_space (lexed_question opened))
    | false => simpa using lexed_name writable.name (blank _) opened
  have states : List.Forall₂ Writes
      (if r.body.states.isEmpty then []
        else ["    " ++ " ".intercalate (r.body.states.map (·.toText))])
      (if r.body.states.isEmpty then [] else [r.body.states.map (·.lexeme)]) := by
    split
    · exact .nil
    · exact .cons (writes_indented (writes_states writable.states)) .nil
  have items := forall₂_writes_map (fun f : ItemForm ω => "    " ++ (f.item names).toText)
    (fun f => f.written.line)
    fun f member => writes_indented (writes_item weights names (writable.items f member))
  have lines := lexed_lines (.cons head (List.rel_append states items)) (lexed_closeBrace h)
  have itemTexts : ((r.rule names).items.map fun item => "    " ++ item.toText) =
      r.body.items.map fun f => "    " ++ (f.item names).toText := by
    simp [RuleForm.rule]
  have itemLines : r.written.body.items.map (·.line) = r.body.items.map (·.written.line) := by
    simp [RuleForm.written]
  unfold Rule.toText Rule.lines RuleForm.lexemes RuleForm.lines
  rw [toList_intercalate_concat, itemTexts, itemLines, List.append_assoc, List.append_assoc]
  exact lines

end WeightedGrammar

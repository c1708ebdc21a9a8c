import WeightedGrammar.Proofs.Grammar.Joined
import WeightedGrammar.Selection.Draw

/-!
Openers. The opener of some rules is a rule of one item, which refers to them in turn. Written on a
line of its own below a text that is loaded, it stands behind the rules of the text and leaves them
as they are (`Grammar.ofText_opener`).
-/

namespace WeightedGrammar
open Text Lexeme

/-! ### Writing an opener -/

/-- The opener of the name for rules of other names, as it is written. -/
def openerText (opener : String) (start : List String) : String :=
  opener ++ " \x7b " ++ " ".intercalate start ++ " \x7d"

def openerItem (start : List String) : ItemForm String := { words := start.map .name }

def openerForm (opener : String) (start : List String) : RuleForm String :=
  ⟨opener, false, { items := [openerItem start] }⟩

section Writing
variable {opener : String} {start : List String}

theorem writes_name {name : String} (isName : IsName name) : Writes name [.name name] :=
  fun _ _ separated lexed => lexed_name isName (separated.stops (by decide) (by decide)) lexed

theorem lexed_openerText (isName : IsName opener) (names : ∀ name ∈ start, IsName name) :
    Lexed (openerText opener start).toList
      (.name opener :: .openBrace :: (start.map .name ++ [.closeBrace, .endOfInput])) := by
  have closing : Lexed [' ', '\x7d'] [.closeBrace, .endOfInput] :=
    lexed_space (lexed_closeBrace lexed_nil)
  have written := writes_join (forall₂_writes_map id (fun name => [.name name])
    fun name isStart => writes_name (names name isStart))
  have inside := written _ _ ⟨' ', _, rfl, .inl rfl⟩ closing
  have opening := lexed_space (lexed_openBrace (lexed_space inside))
  have whole := lexed_name isName (by simp [Stops]; decide) opening
  simpa [openerText, ← List.flatMap_def, ← List.map_eq_flatMap] using whole

theorem exists_tokens_openerText (isName : IsName opener) (names : ∀ name ∈ start, IsName name)
    (inhabited : start ≠ []) :
    ∃ tokens, Token.ofText (openerText opener start) = .ok tokens ∧
      RulesText (tokens.map (·.lexeme)) [openerForm opener start] := by
  obtain ⟨tokens, lexed, same⟩ := lexed_openerText isName names 1
  have lexemes : (openerItem start).lexemes = start.map .name := by
    simp [openerItem, ItemForm.lexemes, Word.lexeme, Function.comp_def]
  have opens : (openerItem start).opensLine = true := by
    simp [openerItem, ItemForm.opensLine, inhabited]
  have filled : (openerItem start).isFilled = true := by
    simp [openerItem, ItemForm.isFilled, inhabited]
  have line : Block none (start.map .name ++ [.closeBrace]) (openerForm opener start).body := by
    rw [← lexemes]
    exact .item rfl opens filled rfl .close
  have rule : RuleText _ (openerForm opener start) := .plain opener line
  refine ⟨tokens, lexed, ?_⟩
  rw [same]
  simpa using RulesText.rule rule .endOfInput

end Writing

/-! ### Loading an opener -/

variable {ω : Type} [Scalar ω]

variable (ω) in
/-- An item without a weight has all the room when it is alone, and takes it on any draw. -/
structure FillsAlone : Prop where
  balanced : Balanced ([none] : List (Option ω))
  full : Selection.isFull (Selection.normalize ([none] : List (Option ω))) = true

theorem fillsAlone_float : FillsAlone Float :=
  ⟨⟨by decide +kernel, fun _ => by decide +kernel⟩, by decide +kernel⟩

/-- The opener in the grammar. -/
def Grammar.opener (g : Grammar ω) (opener : String) (start : List String) : Rule ω where
  name := opener
  items := [{ elements := start.map fun name => .ref name (g.names.idxOf name) }]
  chances := Selection.normalize [none]

/-- The grammar with the opener behind its rules. -/
def Grammar.withOpener (g : Grammar ω) (name opener : String) (start : List String) : Grammar ω :=
  ⟨g.rules ++ [g.opener opener start], name⟩

section Loading
variable {opener : String} {start : List String} {forms : List (RuleForm String)}

theorem isLoadable_concat {form : RuleForm String} (loadable : IsLoadable ω forms)
    (fresh : form.name ∉ forms.map (·.name)) (fits : form.body.WeightsFit ω)
    (balanced : (form.body.valued : BodyForm ω).IsBalanced)
    (known : form.IsKnown (forms.map (·.name))) : IsLoadable ω (forms ++ [form]) := by
  constructor
  case distinct =>
    rw [List.map_append, List.map_singleton, List.nodup_append]
    refine ⟨loadable.distinct, List.pairwise_singleton _ _, ?_⟩
    rintro rule isRule _ isLast rfl
    exact fresh (List.mem_singleton.mp isLast ▸ isRule)
  case fits =>
    exact List.forall_mem_append.mpr ⟨loadable.fits, List.forall_mem_singleton.mpr fits⟩
  case balanced =>
    exact List.forall_mem_append.mpr ⟨loadable.balanced, List.forall_mem_singleton.mpr balanced⟩
  case known =>
    rw [List.map_append, List.forall_mem_append, List.forall_mem_singleton]
    exact ⟨fun r isRule => (loadable.known r isRule).mono (List.subset_append_left ..),
      known.mono (List.subset_append_left ..)⟩

/-- An opener has no weight and no condition, and only the names of its rules. -/
theorem isLoadable_openerForm (loadable : IsLoadable ω forms)
    (alone : FillsAlone ω) (fresh : opener ∉ forms.map (·.name))
    (defined : ∀ name ∈ start, name ∈ forms.map (·.name)) :
    IsLoadable ω (forms ++ [openerForm opener start]) := by
  refine isLoadable_concat loadable fresh ?_ ?_ ?_
  · simp [openerForm, openerItem, BodyForm.WeightsFit, ItemForm.WeightFits]
  · simpa [openerForm, openerItem, BodyForm.IsBalanced, BodyForm.weightsUnder, BodyForm.valued,
      ItemForm.valued] using alone.balanced
  · simpa [openerForm, openerItem, RuleForm.IsKnown, ItemForm.IsKnown] using defined

theorem rule_openerForm {names : List String} (defined : ∀ name ∈ start, name ∈ names) :
    ((openerForm opener start).valued : RuleForm ω).rule (names ++ [opener]) =
      { name := opener
        items := [{ elements := start.map fun name => .ref name (names.idxOf name) }]
        chances := Selection.normalize [none] } := by
  have elements : (start.map Word.name).map (·.element (names ++ [opener])) =
      start.map fun name => .ref name (names.idxOf name) := by
    rw [List.map_map]
    refine List.map_congr_left fun name isStart => ?_
    rw [Function.comp_apply, Word.element, List.idxOf_append, if_pos (defined name isStart)]
  simp [openerForm, openerItem, RuleForm.rule, RuleForm.valued, BodyForm.valued, ItemForm.valued,
    ItemForm.item, elements, chancesOf]

theorem ofForms_openerForm (loadable : IsLoadable ω forms)
    (defined : ∀ name ∈ start, name ∈ forms.map (·.name)) (name other : String) :
    Grammar.ofForms other ((forms ++ [openerForm opener start]).map (·.valued (ω := ω))) =
      (Grammar.ofForms name (forms.map (·.valued))).withOpener other opener start := by
  have names : ((forms ++ [openerForm opener start]).map (·.valued (ω := ω))).map (·.name) =
      forms.map (·.name) ++ [opener] := by
    rw [map_name_valued, List.map_append]
    rfl
  have front : (forms.map (·.valued (ω := ω))).map (·.rule (forms.map (·.name) ++ [opener])) =
      (forms.map (·.valued (ω := ω))).map (·.rule (forms.map (·.name))) := by
    refine List.map_congr_left fun r isRule => r.rule_append ?_
    have known := loadable.known_valued r isRule
    rwa [map_name_valued] at known
  rw [Grammar.ofForms, names, List.map_append, List.map_append, front, List.map_singleton,
    List.map_singleton, rule_openerForm defined, Grammar.withOpener, Grammar.opener,
    Grammar.names_ofForms, map_name_valued, Grammar.ofForms, map_name_valued]

end Loading

/-- The rules of a loaded grammar have the names that can be written. -/
theorem Grammar.isName_of_ofText {text name : String} {g : Grammar ω}
    (loaded : Grammar.ofText text name = .ok g) : ∀ n ∈ g.names, IsName n := by
  obtain ⟨tokens, forms, lexed, derives, -, rfl⟩ := Grammar.ofText_eq_ok_iff.mp loaded
  have writable : ∀ l ∈ tokens.map (·.lexeme), l.IsWritable := by
    rw [List.forall_mem_map]
    exact isWritable_of_tokensFrom lexed
  rw [Grammar.names_ofForms, map_name_valued, List.forall_mem_map]
  intro r isRule
  exact (stands_of_rulesText derives writable r isRule).1

/-- Below a text that is loaded, the opener of rules of it stands behind them, and nothing else
changes. -/
theorem Grammar.ofText_opener {text name opener : String} {g : Grammar ω} {start : List String}
    (loaded : Grammar.ofText text name = .ok g) (alone : FillsAlone ω) (inhabited : start ≠ [])
    (defined : ∀ n ∈ start, n ∈ g.names) (isName : IsName opener) (fresh : opener ∉ g.names)
    (other : String) :
    Grammar.ofText (text ++ "\n" ++ openerText opener start) other =
      .ok (g.withOpener other opener start) := by
  have names : ∀ n ∈ start, IsName n := fun n isStart =>
    Grammar.isName_of_ofText loaded n (defined n isStart)
  obtain ⟨tokens', lexed', derives'⟩ := exists_tokens_openerText isName names inhabited
  obtain ⟨tokens, forms, lexed, derives, loadable, rfl⟩ := Grammar.ofText_eq_ok_iff.mp loaded
  rw [Grammar.names_ofForms, map_name_valued] at defined fresh
  obtain ⟨joined, lexedJoined, derivesJoined, -⟩ :=
    exists_tokens_joined lexed lexed' derives derives'
  exact Grammar.ofText_eq_ok_iff.mpr ⟨joined, _, lexedJoined, derivesJoined,
    isLoadable_openerForm loadable alone fresh defined,
    (ofForms_openerForm loadable defined name other).symm⟩

end WeightedGrammar

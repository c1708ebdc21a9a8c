import WeightedGrammar.Grammar.Draft.Rules
import WeightedGrammar.Proofs.Condition.Grammar

/-!
Rules as they are written, without lines. The derivations `Block`, `GatedBody`, `RuleText` and
`RulesText` are the grammar of rule text over lexemes; each gives the form of what it derives.
-/

namespace WeightedGrammar

/-! ### Forms -/

/-- An element as it is written: a literal or the name of a rule. -/
inductive Word where
  | literal (text : String)
  | name (rule : String)
  deriving DecidableEq, Repr

/-- An item as it is written. The weight is a text, or the number that the text denotes. -/
structure ItemForm (α : Type) where
  weight : Option α := none
  words : List Word := []
  condition : Option Condition := none
  states : List StateExpr := []

structure BodyForm (α : Type) where
  items : List (ItemForm α) := []
  states : List StateExpr := []

structure RuleForm (α : Type) where
  name : String
  conditional : Bool
  body : BodyForm α

def BodyForm.withItems {α : Type} (items : List (ItemForm α)) (b : BodyForm α) : BodyForm α :=
  { b with items := items ++ b.items }

def BodyForm.withState {α : Type} (s : StateExpr) (b : BodyForm α) : BodyForm α :=
  { b with states := s :: b.states }

def ItemForm.withStates {α : Type} (states : List StateExpr) (f : ItemForm α) : ItemForm α :=
  { f with states := states ++ f.states }

/-- The items of a block, each with the states of the block in front; these take the name of the
rule for want of a value. -/
def BodyForm.spread {α : Type} (rule : String) (b : BodyForm α) : List (ItemForm α) :=
  b.items.map (·.withStates (b.states.map (·.orValue rule)))

/-! ### Lexemes of an item -/

def Word.lexeme : Word → Lexeme
  | literal text => .literal text
  | name rule => .name rule

def StateExpr.lexeme (s : StateExpr) : Lexeme := .state s.key s.value

/-- The lexemes of an item: a weight, elements and states, but not its condition. -/
def ItemForm.lexemes (f : ItemForm String) : List Lexeme :=
  (f.weight.map .weight).toList ++ f.words.map (·.lexeme) ++ f.states.map (·.lexeme)

def ItemForm.isFilled {α : Type} (f : ItemForm α) : Bool :=
  !(f.words.isEmpty && f.states.isEmpty)

def ItemForm.opensLine {α : Type} (f : ItemForm α) : Bool := f.weight.isSome || !f.words.isEmpty

/-- An item in front of the lexemes is at its end. -/
def endsLine : List Lexeme → Bool
  | .lineBreak _ :: _ | .closeBrace :: _ => true
  | _ => false

/-! ### Derivations -/

/-- Lines of items and of states under a condition or none, up to the closing brace. -/
inductive Block (condition : Option Condition) : List Lexeme → BodyForm String → Prop where
  | close : Block condition [.closeBrace] {}
  | lineBreak (mark : LineMark) {ls : List Lexeme} {body : BodyForm String}
      (more : Block condition ls body) : Block condition (.lineBreak mark :: ls) body
  | state (s : StateExpr) {ls : List Lexeme} {body : BodyForm String}
      (more : Block condition ls body) : Block condition (s.lexeme :: ls) (body.withState s)
  | item {f : ItemForm String} {ls : List Lexeme} {body : BodyForm String}
      (under : f.condition = condition) (opens : f.opensLine = true) (filled : f.isFilled = true)
      (ends : endsLine ls = true) (more : Block condition ls body) :
      Block condition (f.lexemes ++ ls) (body.withItems [f])

/-- The body of the conditional rule of the name, up to the closing brace. Behind a condition there
is a block that holds an item, or an item, which may begin with a state. -/
inductive GatedBody (rule : String) : List Lexeme → BodyForm String → Prop where
  | close : GatedBody rule [.closeBrace] {}
  | lineBreak (mark : LineMark) {ls : List Lexeme} {body : BodyForm String}
      (more : GatedBody rule ls body) : GatedBody rule (.lineBreak mark :: ls) body
  | state (s : StateExpr) {ls : List Lexeme} {body : BodyForm String}
      (more : GatedBody rule ls body) : GatedBody rule (s.lexeme :: ls) (body.withState s)
  | block {c : Condition} {cs bs ls : List Lexeme} {block body : BodyForm String}
      (gate : Condition.Expresses .tree .disjunction cs c) (lines : Block (some c) bs block)
      (holds : block.items ≠ []) (more : GatedBody rule ls body) :
      GatedBody rule (cs ++ .openBrace :: (bs ++ ls)) (body.withItems (block.spread rule))
  | item {c : Condition} {cs ls : List Lexeme} {f : ItemForm String} {body : BodyForm String}
      (gate : Condition.Expresses .tree .disjunction cs c) (under : f.condition = some c)
      (filled : f.isFilled = true) (ends : endsLine ls = true) (more : GatedBody rule ls body) :
      GatedBody rule (cs ++ (f.lexemes ++ ls)) (body.withItems [f])

/-- A body ends with a closing brace, and line breaks and states may stand in front of one. -/
structure DerivesLines (derives : List Lexeme → BodyForm String → Prop) : Prop where
  close : derives [.closeBrace] {}
  lineBreak (mark : LineMark) {ls : List Lexeme} {body : BodyForm String} :
    derives ls body → derives (.lineBreak mark :: ls) body
  state (s : StateExpr) {ls : List Lexeme} {body : BodyForm String} :
    derives ls body → derives (s.lexeme :: ls) (body.withState s)

theorem Block.derivesLines (condition : Option Condition) : DerivesLines (Block condition) :=
  ⟨.close, .lineBreak, .state⟩

theorem GatedBody.derivesLines (rule : String) : DerivesLines (GatedBody rule) :=
  ⟨.close, .lineBreak, .state⟩

inductive RuleText : List Lexeme → RuleForm String → Prop where
  | plain (name : String) {ls : List Lexeme} {body : BodyForm String} (lines : Block none ls body) :
      RuleText (.name name :: .openBrace :: ls) ⟨name, false, body⟩
  | gated (name : String) {ls : List Lexeme} {body : BodyForm String}
      (lines : GatedBody name ls body) :
      RuleText (.name name :: .question :: .openBrace :: ls) ⟨name, true, body⟩

/-- Rules with line breaks around them, up to the end of input. -/
inductive RulesText : List Lexeme → List (RuleForm String) → Prop where
  | endOfInput : RulesText [.endOfInput] []
  | lineBreak (mark : LineMark) {ls : List Lexeme} {forms : List (RuleForm String)}
      (more : RulesText ls forms) : RulesText (.lineBreak mark :: ls) forms
  | rule {rs ls : List Lexeme} {form : RuleForm String} {forms : List (RuleForm String)}
      (first : RuleText rs form) (more : RulesText ls forms) : RulesText (rs ++ ls) (form :: forms)

/-! ### Parts of items -/

/-- A part of an item or of its condition, but no state. -/
def Lexeme.isItemPart : Lexeme → Bool
  | name _ | literal _ | weight _ | andSign | orSign | notSign | openParen | closeParen => true
  | _ => false

def Lexeme.isState : Lexeme → Bool
  | state _ _ => true
  | _ => false

def ItemForm.core (f : ItemForm String) : List Lexeme :=
  (f.weight.map .weight).toList ++ f.words.map (·.lexeme)

theorem ItemForm.lexemes_eq (f : ItemForm String) :
    f.lexemes = f.core ++ f.states.map (·.lexeme) := rfl

theorem ItemForm.isItemPart_of_mem_core {f : ItemForm String} :
    ∀ l ∈ f.core, l.isItemPart = true := by
  have word : ∀ w : Word, w.lexeme.isItemPart = true := by
    intro w
    cases w <;> rfl
  simp only [core, List.forall_mem_append, List.forall_mem_map]
  refine ⟨?_, fun w _ => word w⟩
  cases f.weight <;> simp [Lexeme.isItemPart]

theorem ItemForm.part_of_mem (f : ItemForm String) :
    ∀ l ∈ f.lexemes, l.isItemPart = true ∨ l.isState = true := by
  rw [lexemes_eq, List.forall_mem_append, List.forall_mem_map]
  exact ⟨fun l member => .inl (isItemPart_of_mem_core l member), fun s _ => .inr rfl⟩

theorem isItemPart_of_expresses {level : Condition.Level} {ls : List Lexeme} {c : Condition}
    (h : Condition.Expresses .tree level ls c) : ∀ l ∈ ls, l.isItemPart = true := by
  induction h with
  | name rule => simp [Lexeme.isItemPart]
  | group _ ih => simpa [Lexeme.isItemPart, or_imp, forall_and] using ih
  | neg _ ih => simpa [Lexeme.isItemPart] using ih
  | operand _ ih => exact ih
  | conj _ _ ihLeft ihRight =>
    simpa [Lexeme.isItemPart, or_imp, forall_and] using And.intro ihLeft ihRight
  | conjunction _ ih => exact ih
  | disj _ _ ihLeft ihRight =>
    simpa [Lexeme.isItemPart, or_imp, forall_and] using And.intro ihLeft ihRight

/-! ### Where the end of input stands -/

theorem ItemForm.endOfInput_not_mem (f : ItemForm String) : .endOfInput ∉ f.lexemes := by
  intro member
  rcases f.part_of_mem _ member with part | isState
  · cases part
  · cases isState

theorem Block.endOfInput_not_mem {condition : Option Condition} {ls : List Lexeme}
    {body : BodyForm String} (h : Block condition ls body) : .endOfInput ∉ ls := by
  induction h with
  | close => simp
  | lineBreak mark _ ih => simp [ih]
  | state s _ ih => simp [StateExpr.lexeme, ih]
  | item _ _ _ _ _ ih => simp [ItemForm.endOfInput_not_mem, ih]

theorem endOfInput_not_mem_of_expresses {ls : List Lexeme} {c : Condition}
    (h : Condition.Expresses .tree .disjunction ls c) : .endOfInput ∉ ls := by
  rw [← (Condition.expresses_tree_iff.mp h).2]
  exact Condition.endOfInput_not_mem_flatten c

theorem GatedBody.endOfInput_not_mem {rule : String} {ls : List Lexeme} {body : BodyForm String}
    (h : GatedBody rule ls body) : .endOfInput ∉ ls := by
  induction h with
  | close => simp
  | lineBreak mark _ ih => simp [ih]
  | state s _ ih => simp [StateExpr.lexeme, ih]
  | block gate lines _ _ ih =>
    simp [endOfInput_not_mem_of_expresses gate, lines.endOfInput_not_mem, ih]
  | item gate _ _ _ _ ih =>
    simp [endOfInput_not_mem_of_expresses gate, ItemForm.endOfInput_not_mem, ih]

theorem RuleText.endOfInput_not_mem {ls : List Lexeme} {form : RuleForm String}
    (h : RuleText ls form) : .endOfInput ∉ ls := by
  cases h with
  | plain name lines => simp [lines.endOfInput_not_mem]
  | gated name lines => simp [lines.endOfInput_not_mem]

/-- The end of input stands at the end and nowhere else. -/
def EndsInput (ls : List Lexeme) : Prop :=
  ∃ front, ls = front ++ [.endOfInput] ∧ .endOfInput ∉ front

theorem EndsInput.of_append {front back : List Lexeme} (h : EndsInput (front ++ back))
    (absent : .endOfInput ∉ front) : EndsInput back := by
  induction front with
  | nil => exact h
  | cons l front ih =>
    obtain ⟨before, same, none⟩ := h
    simp only [List.mem_cons, not_or] at absent
    refine ih ?_ absent.2
    cases before with
    | nil => exact absurd (List.cons.inj same).1.symm absent.1
    | cons l' before =>
      simp only [List.mem_cons, not_or] at none
      exact ⟨before, (List.cons.inj same).2, none.2⟩

theorem EndsInput.eq_nil_of_cons {ls : List Lexeme} (h : EndsInput (.endOfInput :: ls)) :
    ls = [] := by
  obtain ⟨front, same, absent⟩ := h
  cases front with
  | nil => exact (List.cons.inj same).2
  | cons l front => exact absurd (List.mem_cons.mpr (.inl (List.cons.inj same).1)) absent

end WeightedGrammar

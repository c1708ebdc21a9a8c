import WeightedGrammar.Grammar.Draft.Rules
import WeightedGrammar.Selection.Percent

/-!
From drafts to a grammar. The weights of items that compete, those under one condition, must leave
room for each other; every name that is mentioned must be that of a rule and becomes a reference to
its place. `Grammar.ofText` goes all the way from a text.
-/

namespace WeightedGrammar
variable {ω : Type}

/-! ### Weights -/

/-- The items that compete with each other: those of one condition, in the order in which the
conditions first occur. -/
def competitors (items : List (ItemDraft ω)) : List (List (ItemDraft ω)) :=
  (items.map (·.condition)).eraseDups.map fun c => items.filter (·.condition == c)

/-- Weights that compete must not exceed a hundred, nor use it up when there is an item without a
weight. -/
def checkGroup [Scalar ω] (rule : String) (ruleLine : Nat) (weights : List (Option ω)) :
    Except LoadError Unit :=
  let sum := Selection.explicitTotal weights
  let free := Selection.freeCount weights
  if Scalar.aboveHundred sum then
    .error ⟨ruleLine, .weightsAboveHundred rule (Scalar.text sum)⟩
  else if free ≠ 0 ∧ Scalar.usesHundred sum then .error ⟨ruleLine, .nothingLeft rule free⟩
  else .ok ()

def checkWeights [Scalar ω] (draft : RuleDraft ω) : Except LoadError Unit :=
  (competitors draft.body.items).forM fun group =>
    checkGroup draft.name draft.line (group.map (·.weight))

/-! ### Names -/

/-- The element for a mention; `names` are those of the rules, in order. -/
def Mention.resolve (names : List String) (rule : String) : Mention → Except LoadError Element
  | literal text => .ok (.literal text)
  | .rule name line =>
    match names.idxOf? name with
    | some index => .ok (.ref name index)
    | none => .error ⟨line, .undefinedRule name .element rule⟩

def checkCondition (names : List String) (rule : String) (line : Nat) (condition : Condition) :
    Except LoadError Unit :=
  match condition.names.find? (!names.contains ·) with
  | some name => .error ⟨line, .undefinedRule name .condition rule⟩
  | none => .ok ()

def ItemDraft.resolve (names : List String) (rule : String) (draft : ItemDraft ω) :
    Except LoadError (Item ω) := do
  let elements ← draft.mentions.mapM (·.resolve names rule)
  if let some condition := draft.condition then checkCondition names rule draft.line condition
  return ⟨elements, draft.weight, draft.condition, draft.states⟩

/-- The chances of the items of an unconditional rule; those of a conditional one depend on what
has fired. -/
def chancesOf [Scalar ω] (conditional : Bool) (items : List (Item ω)) : List ω :=
  if conditional then [] else Selection.normalize (items.map (·.weight))

def RuleDraft.resolve [Scalar ω] (names : List String) (draft : RuleDraft ω) :
    Except LoadError (Rule ω) := do
  checkWeights draft
  let items ← draft.body.items.mapM (·.resolve names draft.name)
  return ⟨draft.name, draft.conditional, items, draft.body.states,
    chancesOf draft.conditional items⟩

/-! ### Grammars -/

def Grammar.ofDrafts [Scalar ω] (name : String) (drafts : List (RuleDraft ω)) :
    Except LoadError (Grammar ω) := do
  let rules ← drafts.mapM (·.resolve (drafts.map (·.name)))
  return ⟨rules, name⟩

/-- The grammar that a text holds, under a name of its own. -/
def Grammar.ofText [Scalar ω] (text : String) (name : String := "") :
    Except LoadError (Grammar ω) := do
  let tokens ← Token.ofText text
  let drafts ← readRules [] tokens
  Grammar.ofDrafts name drafts

end WeightedGrammar

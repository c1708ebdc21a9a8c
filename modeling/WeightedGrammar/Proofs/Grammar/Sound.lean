import WeightedGrammar.Proofs.Grammar.RoundTrip

/-!
Loaded grammars. `Grammar.IsSound` is what the loading of a text leaves behind for passes to rely
on: references stand at the place of the rule of their name, the items of conditional rules have
conditions, and weights leave room for each other (`Grammar.isSound_of_ofText`).
-/

namespace WeightedGrammar
variable {ω : Type}

/-! ### What holds of a loaded grammar -/

/-- The weights of the items under a condition, or of those under none. -/
def Rule.weightsUnder (rule : Rule ω) (c : Option Condition) : List (Option ω) :=
  (rule.items.filter (·.condition == c)).map (·.weight)

/-- References lead to the rules of their names, and the weight is above zero and not above a
hundred. -/
structure Item.IsSound [Scalar ω] (names : List String) (item : Item ω) : Prop where
  refs : ∀ rule index, .ref rule index ∈ item.elements → names[index]? = some rule
  weight : ∀ w ∈ item.weight, Scalar.ofNat 0 < w ∧ Scalar.aboveHundred w = false

structure Rule.IsSound [Scalar ω] (names : List String) (rule : Rule ω) : Prop where
  gated : ∀ item ∈ rule.items, item.condition.isSome = rule.conditional
  items : ∀ item ∈ rule.items, item.IsSound names
  balanced : ∀ item ∈ rule.items, Balanced (rule.weightsUnder item.condition)
  chances : rule.chances = chancesOf rule.conditional rule.items

structure Grammar.IsSound [Scalar ω] (g : Grammar ω) : Prop where
  distinct : g.names.Nodup
  rules : ∀ rule ∈ g.rules, rule.IsSound g.names

/-! ### Forms that can be loaded -/

theorem refs_item {names : List String} {f : ItemForm ω} (known : f.IsKnown names) {rule : String}
    {index : Nat} (member : .ref rule index ∈ (f.item names).elements) :
    names[index]? = some rule := by
  obtain ⟨word, isWord, same⟩ := List.mem_map.mp member
  cases word with
  | literal text => cases same
  | name name =>
    simp only [Word.element, Element.ref.injEq] at same
    obtain ⟨rfl, rfl⟩ := same
    exact List.getElem?_idxOf (known.1 name isWord)

theorem weightsUnder_rule [Scalar ω] (names : List String) (r : RuleForm ω)
    (c : Option Condition) : (r.rule names).weightsUnder c = r.body.weightsUnder c := by
  simp only [Rule.weightsUnder, RuleForm.rule, BodyForm.weightsUnder, List.filter_map,
    List.map_map]
  rfl

theorem isSound_item [Scalar ω] {names : List String} {f : ItemForm String}
    (fits : f.WeightFits ω) (known : f.IsKnown names) :
    ((f.valued : ItemForm ω).item names).IsSound names := by
  refine ⟨fun rule index => refs_item (f := (f.valued : ItemForm ω)) known, ?_⟩
  intro w isWeight
  obtain ⟨text, isText, denotes⟩ := Option.bind_eq_some_iff.mp isWeight
  obtain ⟨value, denotes', positive, small⟩ := fits text isText
  obtain rfl := Option.some.inj (denotes.symm.trans denotes')
  exact ⟨positive, small⟩

theorem isSome_condition_of_stands {conditional : Bool} {f : ItemForm ω}
    (stands : f.Stands conditional) : f.condition.isSome = conditional := by
  cases conditional with
  | false => simp [stands.2.1]
  | true =>
    obtain ⟨c, under, -⟩ := stands.2
    simp [under]

theorem isSound_rule [Scalar ω] {names : List String} {r : RuleForm String}
    (stands : r.body.Stands r.conditional) (fits : r.body.WeightsFit ω)
    (balanced : (r.body.valued : BodyForm ω).IsBalanced) (known : r.IsKnown names) :
    ((r.valued : RuleForm ω).rule names).IsSound names := by
  have items : ((r.valued : RuleForm ω).rule names).items =
      r.body.items.map fun f => (f.valued : ItemForm ω).item names := by
    simp [RuleForm.rule, RuleForm.valued, BodyForm.valued]
  refine ⟨?_, ?_, ?_, rfl⟩
  · rw [items, List.forall_mem_map]
    intro f isItem
    exact isSome_condition_of_stands (f := f) (stands.items f isItem).1
  · rw [items, List.forall_mem_map]
    intro f isItem
    exact isSound_item (fits f isItem) (known f isItem)
  · rw [items, List.forall_mem_map]
    intro f isItem
    rw [weightsUnder_rule]
    exact balanced _ (List.mem_map_of_mem isItem)

/-- The rules of a loaded grammar are those of forms that can be loaded. -/
theorem Grammar.exists_forms_of_ofText [Scalar ω] {text name : String} {g : Grammar ω}
    (loaded : Grammar.ofText text name = .ok g) :
    ∃ forms, IsLoadable ω forms ∧ (∀ r ∈ forms, r.body.Stands r.conditional) ∧
      g.names = forms.map (·.name) ∧
      g.rules = forms.map fun r => (r.valued : RuleForm ω).rule g.names := by
  obtain ⟨tokens, forms, lexed, derives, loadable, rfl⟩ := Grammar.ofText_eq_ok_iff.mp loaded
  have writable : ∀ l ∈ tokens.map (·.lexeme), l.IsWritable := by
    rw [List.forall_mem_map]
    exact isWritable_of_tokensFrom lexed
  have names : (Grammar.ofForms name (forms.map (·.valued (ω := ω)))).names =
      forms.map (·.name) := by
    rw [Grammar.names_ofForms, map_name_valued]
  refine ⟨forms, loadable, fun r isRule => (stands_of_rulesText derives writable r isRule).2, names,
    ?_⟩
  rw [names, Grammar.ofForms, map_name_valued, List.map_map]
  rfl

/-- Every grammar that is loaded from a text is sound. -/
theorem Grammar.isSound_of_ofText [Scalar ω] {text name : String} {g : Grammar ω}
    (loaded : Grammar.ofText text name = .ok g) : g.IsSound := by
  obtain ⟨forms, loadable, stands, names, rules⟩ := Grammar.exists_forms_of_ofText loaded
  refine ⟨names ▸ loadable.distinct, ?_⟩
  rw [rules, List.forall_mem_map]
  intro r isRule
  exact isSound_rule (stands r isRule) (loadable.fits r isRule) (loadable.balanced r isRule)
    (names ▸ loadable.known r isRule)

/-! ### Consequences -/

section
variable [Scalar ω]

theorem Grammar.IsSound.exists_rule {g : Grammar ω} (sound : g.IsSound) {rule : Rule ω}
    (isRule : rule ∈ g.rules) {item : Item ω} (isItem : item ∈ rule.items) {name : String}
    {index : Nat} (member : .ref name index ∈ item.elements) :
    ∃ next, g.rules[index]? = some next ∧ next ∈ g.rules := by
  have found := ((sound.rules rule isRule).items item isItem).refs name index member
  rw [Grammar.names, List.getElem?_map] at found
  obtain ⟨next, isNext, -⟩ := Option.map_eq_some_iff.mp found
  exact ⟨next, isNext, List.mem_of_getElem? isNext⟩

/-- All items of an unconditional rule compete with each other. -/
theorem Rule.IsSound.balanced_weights {names : List String} {rule : Rule ω}
    (sound : rule.IsSound names) (plain : rule.conditional = false) (inhabited : rule.items ≠ []) :
    Balanced (rule.items.map (·.weight)) := by
  have none_of_mem : ∀ item ∈ rule.items, item.condition = none := by
    intro item isItem
    simpa [plain] using sound.gated item isItem
  obtain ⟨item, isItem⟩ := List.exists_mem_of_ne_nil _ inhabited
  have balanced := sound.balanced item isItem
  rw [none_of_mem item isItem] at balanced
  have all : rule.items.filter (·.condition == none) = rule.items := by
    rw [List.filter_eq_self]
    intro other isOther
    simp [none_of_mem other isOther]
  rwa [Rule.weightsUnder, all] at balanced

end

/-! ### An example -/

/-- A conditional rule whose items compete with those under another condition, and a rule that can
come back to itself. -/
def taleText : String :=
  "Hero ? \x7b !Tale \x7b %80 'bold' Tale; 'shy' \x7d\n !Hero %60 'old' Tale \x7d\n" ++
    "Tale \x7b %70 Hero Tale; 'end' \x7d"

/-- The grammar of the tale. -/
def tale (ω : Type) [Scalar ω] : Grammar ω :=
  match Grammar.ofText taleText with
  | .ok g => g
  | .error _ => ⟨[], ""⟩

theorem ofText_tale_of_isOk [Scalar ω]
    (loads : (Grammar.ofText taleText : Except LoadError (Grammar ω)).isOk = true) :
    Grammar.ofText taleText = .ok (tale ω) := by
  obtain ⟨g, loaded⟩ := exists_ok_of_isOk loads
  rw [tale, loaded]

theorem ofText_tale : Grammar.ofText taleText = .ok (tale Float) :=
  ofText_tale_of_isOk (by decide +kernel)

end WeightedGrammar

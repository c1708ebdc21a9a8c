import WeightedGrammar.Proofs.Grammar.References
import WeightedGrammar.Proofs.Number.Double
import WeightedGrammar.Proofs.Pass.Ending

/-!
What a loaded grammar looks like. `Grammar.IsWellFormed` collects what reading, looking up and
weighing have established for every rule and item of it. Since its weights are above zero, and
chances follow from weights, grammars that compare equal have the same rules, chances included, and
passes over them come out alike (`Grammar.isWellFormed_of_ofText`).
-/

namespace WeightedGrammar
variable {ω σ : Type}

/-! ### Well-formed grammars -/

section WellFormed
variable [Scalar ω]

/-- An item of a rule, in a grammar. -/
structure Item.IsWellFormed (g : Grammar ω) (conditional : Bool) (item : Item ω) : Prop where
  /-- It has a condition exactly in a conditional rule. -/
  gated : item.condition.isSome = conditional
  /-- References stand at the place of the rule of their name. -/
  refs : ∀ name index, .ref name index ∈ item.elements →
    ∃ rule, g.rules[index]? = some rule ∧ rule.name = name
  /-- Conditions are over names of rules. -/
  known : ∀ c ∈ item.condition, ∀ name ∈ c.names, name ∈ g.names
  filled : item.elements ≠ [] ∨ item.states ≠ []
  /-- Without a condition and without elements it has a weight. -/
  weighed : item.elements = [] → conditional = false → item.weight.isSome = true
  weight : ∀ w ∈ item.weight, Scalar.ofNat 0 < w ∧ Scalar.aboveHundred w = false
  literals : ∀ text, .literal text ∈ item.elements → IsEnclosable text
  values : ∀ s ∈ item.states, ∀ value ∈ s.value, IsEnclosable value

structure Rule.IsWellFormed (g : Grammar ω) (rule : Rule ω) : Prop where
  items : ∀ item ∈ rule.items, item.IsWellFormed g rule.conditional
  values : ∀ s ∈ rule.states, ∀ value ∈ s.value, IsEnclosable value
  /-- Nothing is computed for a conditional rule. -/
  noChances : rule.conditional = true → rule.chances = []
  chances : rule.conditional = false →
    rule.chances = Selection.normalize (rule.items.map (·.weight)) ∧
      rule.chances.length = rule.items.length

structure Grammar.IsWellFormed (g : Grammar ω) : Prop where
  distinct : g.names.Nodup
  /-- Every rule is found under its name. -/
  lookup : ∀ rule ∈ g.rules, g.lookup? rule.name = some rule
  rules : ∀ rule ∈ g.rules, rule.IsWellFormed g

theorem isWellFormed_item {g : Grammar ω} {conditional : Bool} {f : ItemForm String}
    (stands : f.Stands conditional) (writable : f.IsWritable) (fits : f.WeightFits ω)
    (known : f.IsKnown g.names) :
    ((f.valued : ItemForm ω).item g.names).IsWellFormed g conditional := by
  have sound := isSound_item fits known
  have elements : ((f.valued : ItemForm ω).item g.names).elements = [] → f.words = [] :=
    List.map_eq_nil_iff.mp
  refine ⟨isSome_condition_of_stands (f := f) stands, ?_, known.2, ?_, ?_, sound.weight, ?_, ?_⟩
  · intro name index isRef
    have found := sound.refs name index isRef
    rw [Grammar.names, List.getElem?_map] at found
    exact Option.map_eq_some_iff.mp found
  · have filled := stands.1
    rw [ItemForm.isFilled, Bool.not_eq_true', Bool.and_eq_false_iff] at filled
    rcases filled with words | states
    · exact .inl (mt elements (List.isEmpty_eq_false_iff.mp words))
    · exact .inr (List.isEmpty_eq_false_iff.mp states)
  · rintro none rfl
    have opens : f.opensLine = true := stands.2.2
    rw [ItemForm.opensLine, elements none, List.isEmpty_nil] at opens
    have weighed := weight_valued (ω := ω) fits
    simpa [weighed, ItemForm.item] using opens
  · intro text isLiteral
    obtain ⟨word, isWord, same⟩ := List.mem_map.mp isLiteral
    cases word with
    | literal =>
      obtain rfl := Element.literal.inj same
      exact writable.words _ isWord
    | name => cases same
  · exact fun s isState => (writable.states s isState).2

theorem isWellFormed_rule {g : Grammar ω} {r : RuleForm String}
    (stands : r.body.Stands r.conditional) (fits : r.body.WeightsFit ω)
    (known : r.IsKnown g.names) : ((r.valued : RuleForm ω).rule g.names).IsWellFormed g := by
  have computed : ((r.valued : RuleForm ω).rule g.names).chances =
      chancesOf r.conditional ((r.valued : RuleForm ω).rule g.names).items := rfl
  refine ⟨?_, fun s isState => (stands.states s isState).2, ?_, ?_⟩
  · intro item isItem
    obtain ⟨_, isValued, rfl⟩ := List.mem_map.mp isItem
    obtain ⟨f, isForm, rfl⟩ := List.mem_map.mp isValued
    obtain ⟨itemStands, writable⟩ := stands.items f isForm
    exact isWellFormed_item itemStands writable (fits f isForm) (known f isForm)
  · intro conditional
    rw [computed, show r.conditional = true from conditional]
    rfl
  · intro plain
    have chances : ((r.valued : RuleForm ω).rule g.names).chances =
        Selection.normalize (((r.valued : RuleForm ω).rule g.names).items.map (·.weight)) := by
      rw [computed, show r.conditional = false from plain]
      rfl
    exact ⟨chances, by rw [chances, Selection.length_normalize, List.length_map]⟩

theorem wellFormed_of_ofText {text name : String} {g : Grammar ω}
    (loaded : Grammar.ofText text name = .ok g) : g.IsWellFormed := by
  obtain ⟨forms, loadable, stands, names, rules⟩ := Grammar.exists_forms_of_ofText loaded
  have distinct : g.names.Nodup := names ▸ loadable.distinct
  refine ⟨distinct, fun rule isRule => Grammar.lookup?_eq_some_of_mem distinct isRule, ?_⟩
  intro rule isRule
  rw [rules] at isRule
  obtain ⟨r, isForm, rfl⟩ := List.mem_map.mp isRule
  exact isWellFormed_rule (stands r isForm) (loadable.fits r isForm)
    (names ▸ loadable.known r isForm)

end WellFormed

/-! ### Grammars that compare equal -/

variable (ω) in
/-- Numbers above zero are equal only if they are the same. -/
def EqualsAboveZero [Scalar ω] : Prop :=
  ∀ x y : ω, Scalar.ofNat 0 < x → (x == y) = true → x = y

theorem equalsAboveZero_float : EqualsAboveZero Float := fun _ _ => eq_of_beq_of_pos

theorem list_eq_of_beq {α : Type} [BEq α] {l l' : List α}
    (each : ∀ a ∈ l, ∀ b ∈ l', (a == b) = true → a = b) (equal : (l == l') = true) : l = l' := by
  induction l generalizing l' with
  | nil =>
    cases l' with
    | nil => rfl
    | cons b l' => cases equal
  | cons a l ih =>
    cases l' with
    | nil => cases equal
    | cons b l' =>
      rw [List.cons_beq_cons, Bool.and_eq_true] at equal
      obtain rfl := each a List.mem_cons_self b List.mem_cons_self equal.1
      have rest : ∀ x ∈ l, ∀ y ∈ l', (x == y) = true → x = y := fun x isX y isY =>
        each x (List.mem_cons_of_mem a isX) y (List.mem_cons_of_mem a isY)
      rw [ih rest equal.2]

section Equal
variable [Scalar ω]

theorem item_eq_of_beq (equals : EqualsAboveZero ω) {item other : Item ω}
    (positive : ∀ w ∈ item.weight, Scalar.ofNat 0 < w) (equal : (item == other) = true) :
    item = other := by
  obtain ⟨elements, weight, condition, states⟩ := item
  obtain ⟨elements', weight', condition', states'⟩ := other
  have parts : (elements == elements' && (weight == weight' &&
      (condition == condition' && states == states'))) = true := equal
  simp only [Bool.and_eq_true, beq_iff_eq] at parts
  obtain ⟨rfl, sameWeight, rfl, rfl⟩ := parts
  obtain rfl : weight = weight' := by
    cases weight with
    | none =>
      cases weight' with
      | none => rfl
      | some w' => cases sameWeight
    | some w =>
      cases weight' with
      | none => cases sameWeight
      | some w' => exact congrArg some (equals w w' (positive w rfl) sameWeight)
  rfl

/-- The written parts are equal and so the same, and chances follow from them. -/
theorem rule_eq_of_beq (equals : EqualsAboveZero ω) {names names' : List String}
    {rule other : Rule ω} (sound : rule.IsSound names) (sound' : other.IsSound names')
    (equal : (rule == other) = true) : rule = other := by
  have positive : ∀ item ∈ rule.items, ∀ w ∈ item.weight, Scalar.ofNat 0 < w :=
    fun item isItem w isWeight => ((sound.items item isItem).weight w isWeight).1
  have chances := sound.chances
  have chances' := sound'.chances
  obtain ⟨name, conditional, items, states, _⟩ := rule
  obtain ⟨name', conditional', items', states', _⟩ := other
  have parts : (name == name' && conditional == conditional' && items == items' &&
      states == states') = true := equal
  simp only [Bool.and_eq_true, beq_iff_eq] at parts
  obtain ⟨⟨⟨rfl, rfl⟩, sameItems⟩, rfl⟩ := parts
  obtain rfl : items = items' := list_eq_of_beq
    (fun item isItem _ _ same => item_eq_of_beq equals (positive item isItem) same) sameItems
  dsimp only at chances chances'
  rw [chances, chances']

theorem rules_eq_of_beq (equals : EqualsAboveZero ω) {g g' : Grammar ω} (sound : g.IsSound)
    (sound' : g'.IsSound) (equal : (g == g') = true) : g.rules = g'.rules := by
  have rules : (g.rules == g'.rules) = true := equal
  exact list_eq_of_beq (fun rule isRule other isOther same =>
    rule_eq_of_beq equals (sound.rules rule isRule) (sound'.rules other isOther) same) rules

end Equal

/-! ### Passes over grammars that agree -/

/-- The grammars have the same rules at some places, and those refer to no other places. -/
structure Grammar.AgreesOn (g g' : Grammar ω) (P : Nat → Prop) : Prop where
  rules : ∀ place, P place → g'.rules[place]? = g.rules[place]?
  closed : ∀ place, P place → ∀ next ∈ g.references place, P next

section Passes
variable [Scalar ω] [Supply σ ω] {g g' : Grammar ω} {P : Nat → Prop} {start : List String}

/-- A rule that refers to places where the grammars agree fires alike in both. -/
theorem fire_congr (agrees : g.AgreesOn g' P) (s : Settings) (room depth : Nat) {rule : Rule ω}
    (among : ∀ next ∈ rule.references, P next) :
    (g.fire s room depth rule : PassM σ Unit) = g'.fire s room depth rule := by
  induction room generalizing depth rule with
  | zero => rfl
  | succ room ih =>
    funext p
    show EStateM.bind (rule.enter s depth)
        (fun elements => elements.forM (g.expand (g.fire s room (depth + 1)))) p =
      EStateM.bind (rule.enter s depth)
        (fun elements => elements.forM (g'.expand (g'.fire s room (depth + 1)))) p
    unfold EStateM.bind
    cases entered : rule.enter s depth p with
    | error e q => rfl
    | ok elements q =>
      obtain ⟨choice, -, -, -, rfl, -⟩ := enter_eq_ok_iff.mp entered
      have expands : ∀ element ∈ rule.elementsOf choice,
          (g.expand (g.fire s room (depth + 1)) element : PassM σ Unit) =
            g'.expand (g'.fire s room (depth + 1)) element := by
        intro element isElement
        cases element with
        | literal text => rfl
        | ref name index =>
          have isPlace : P index := among index (mem_references_of_elementsOf isElement)
          rw [Grammar.expand, Grammar.expand, agrees.rules index isPlace]
          cases found : g.rules[index]? with
          | none => rfl
          | some next =>
            refine ih (depth + 1) fun further isReference => ?_
            rw [← references_of_getElem? found] at isReference
            exact agrees.closed index isPlace further isReference
      exact congrFun (forM_congr expands) q

theorem run_congr (agrees : g.AgreesOn g' P) (started : g'.startRules start = g.startRules start)
    (among : ∀ rules, g.startRules start = .ok rules → ∀ rule ∈ rules,
      ∀ next ∈ rule.references, P next) (s : Settings) (room : Nat) :
    (g.run s room start : PassM σ Unit) = g'.run s room start := by
  rw [Grammar.run, Grammar.run, started]
  cases starts : g.startRules start with
  | error e => rfl
  | ok rules =>
    exact forM_congr fun rule isRoot => fire_congr agrees s room 0 (among rules starts rule isRoot)

end Passes

/-- Passes over both grammars come out alike and leave the same draws, however they are run. -/
def Grammar.PassAlike (g g' : Grammar Float) : Prop :=
  ∀ {σ : Type} [Supply σ Float] (supply : σ) (settings : Settings) (unguarded : Nat)
    (start : List String),
    let pass := fun grammar : Grammar Float =>
      (⟨grammar, supply, settings⟩ : Generator σ Float).generateWithin unguarded start
    (pass g).1 = (pass g').1 ∧ (pass g).2.supply = (pass g').2.supply

theorem passAlike_of_rules {g g' : Grammar Float} (rules : g.rules = g'.rules) :
    g.PassAlike g' := by
  intro σ _ supply settings unguarded start
  have agrees : g.AgreesOn g' fun _ => True :=
    ⟨fun _ _ => by rw [rules], fun _ _ _ _ => trivial⟩
  -- The name of a grammar does not matter to a pass.
  have started : g'.startRules start = g.startRules start := by
    simp only [Grammar.startRules, Grammar.top?, Grammar.lookup?, rules]
  have among : ∀ roots, g.startRules start = .ok roots → ∀ rule ∈ roots,
      ∀ next ∈ rule.references, True := fun _ _ _ _ _ _ => trivial
  simp only [Generator.generateWithin, run_congr agrees started among]
  split <;> exact ⟨rfl, rfl⟩

/-- A loaded grammar is well-formed. Another one that compares equal with it, chances and the name
not counting, generates alike. -/
theorem Grammar.isWellFormed_of_ofText {text name : String} {g : Grammar Float}
    (loaded : Grammar.ofText text name = .ok g) :
    g.IsWellFormed ∧
      ∀ (text' name' : String) (g' : Grammar Float), Grammar.ofText text' name' = .ok g' →
        (g == g') = true → g.PassAlike g' := by
  refine ⟨wellFormed_of_ofText loaded, ?_⟩
  intro text' name' g' loaded' equal
  exact passAlike_of_rules (rules_eq_of_beq equalsAboveZero_float
    (Grammar.isSound_of_ofText loaded) (Grammar.isSound_of_ofText loaded') equal)

/-- The tale in other words: its blocks item by item, and weights written in another way. -/
def retoldText : String :=
  "# again\nHero? \x7b !Tale %80.0 'bold' Tale\n!Tale \"shy\"\n !Hero %6e1 'old' Tale \x7d" ++
    "Tale \x7b %70 Hero Tale\n'end' \x7d // end"

theorem Grammar.isWellFormed_of_ofText_tale :
    (tale Float).IsWellFormed ∧
      ∃ g : Grammar Float, Grammar.ofText retoldText "again" = .ok g ∧ (tale Float == g) = true ∧
        (tale Float).PassAlike g := by
  have checked : (match (Grammar.ofText retoldText "again" : Except LoadError (Grammar Float)) with
      | .ok g => tale Float == g
      | .error _ => false) = true := by decide +kernel
  obtain ⟨wellFormed, alike⟩ := Grammar.isWellFormed_of_ofText ofText_tale
  cases loaded : (Grammar.ofText retoldText "again" : Except LoadError (Grammar Float)) with
  | error e =>
    rw [loaded] at checked
    cases checked
  | ok g =>
    rw [loaded] at checked
    exact ⟨wellFormed, g, rfl, checked, alike retoldText "again" g loaded checked⟩

end WeightedGrammar

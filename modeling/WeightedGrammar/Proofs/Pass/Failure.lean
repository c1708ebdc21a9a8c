import WeightedGrammar.Proofs.Number.Double
import WeightedGrammar.Proofs.Pass.Ending

/-!
How a pass over a loaded grammar can fail: at its start, for want of a rule, or at its guard
(`Generator.isSafe_of_ofText`). Choices and references always lead to an item and to a rule, and no
number is divided by zero.
-/

namespace WeightedGrammar
variable {σ : Type} [Supply σ Float]

/-- The ways in which passes from the names fail, and what cannot go wrong in them. -/
structure Generator.IsSafe (gen : Generator σ Float) (start : List String) : Prop where
  /-- The first name that no rule has is refused, before anything is drawn or fired. -/
  unknownStart (name : String) (record : Record) (after : Generator σ Float) :
    gen.Ends start ⟨record, some (.unknownStart name)⟩ after ↔
      start.find? (!gen.grammar.contains ·) = some name ∧ record = {} ∧ after = gen
  /-- An empty grammar has no rule to start from without a name. -/
  noRules (record : Record) (after : Generator σ Float) :
    gen.Ends start ⟨record, some .noRules⟩ after ↔
      (start = [] ∧ gen.grammar.rules = []) ∧ record = {} ∧ after = gen
  /-- Only a guard aborts a pass that has its start rules. -/
  guarded (e : PassError) (record : Record) (after : Generator σ Float) :
    gen.Ends start ⟨record, some e⟩ after →
      (∃ name, e = .unknownStart name) ∨ e = .noRules ∨
        ∃ rule limit, e = .depthExceeded rule limit ∧ gen.settings.maxDepth = some limit
  /-- Whatever room it is given, a pass comes out with no other error, but for want of room where
  there is no guard: no rule, no item and no condition is missing. -/
  wellFormed (unguarded : Nat) (e : PassError) :
    (gen.generateWithin unguarded start).1.error = some e →
      (∃ name, e = .unknownStart name) ∨ e = .noRules ∨
        (∃ rule limit, e = .depthExceeded rule limit ∧ gen.settings.maxDepth = some limit) ∨
        ∃ rule, e = .roomExhausted rule ∧ gen.settings.maxDepth = none
  /-- Every entry of the chances that a draw can choose is that of an item on the ballot, which is
  an item of the rule. -/
  drawn : ∀ rule ∈ gen.grammar.rules, ∀ hasFired ballot draw i,
    rule.ballot? hasFired = some ballot → Selection.choose ballot.chances draw = some i →
      ∃ place item, ballot.items[i]? = some place ∧ rule.items[place]? = some item
  /-- All items of a conditional rule have a condition to evaluate. -/
  gated : ∀ rule ∈ gen.grammar.rules, rule.conditional = true →
    ∀ item ∈ rule.items, item.condition.isSome = true
  referred : ∀ rule ∈ gen.grammar.rules, ∀ item ∈ rule.items, ∀ name index,
    .ref name index ∈ item.elements → ∃ next, gen.grammar.rules[index]? = some next
  /-- What is left is shared among a number of items that is not zero, and weights become relative
  to a sum that is not zero. -/
  divided : ∀ rule ∈ gen.grammar.rules, ∀ hasFired,
    let weights := (rule.contenders hasFired).map (·.2)
    (none ∈ weights → Selection.freeCount weights ≠ 0) ∧
      (Ballot.isCrowded weights = true →
        (Selection.explicitTotal weights == Scalar.ofNat 0) = false)
  /-- With a guard the pass ends. -/
  ends (unguarded : Nat) : gen.settings.maxDepth ≠ none →
    gen.Ends start (gen.generateWithin unguarded start).1 (gen.generateWithin unguarded start).2

/-! ### Failing to start -/

section Start
variable {ω σ : Type} [Scalar ω] [Supply σ ω] {gen after : Generator σ ω} {start : List String}
  {record : Record} {e : PassError}

/-- A pass that has no start ends at once, and nothing else ends with the errors of the start. -/
theorem ends_start_error_iff (sound : gen.grammar.IsSound)
    (ofStart : ∀ name limit, e ≠ .depthExceeded name limit) :
    gen.Ends start ⟨record, some e⟩ after ↔
      gen.grammar.startRules start = .error e ∧ record = {} ∧ after = gen := by
  constructor
  · intro ends
    rcases ends_error_cases sound ends with failed | ⟨name, limit, cut, -⟩
    · exact failed
    · exact absurd cut (ofStart name limit)
  · rintro ⟨failed, rfl, rfl⟩
    exact ⟨0, fun unguarded _ => generateWithin_of_startRules_eq_error failed unguarded⟩

omit [Scalar ω] in
theorem startRules_error_cases {g : Grammar ω} (h : g.startRules start = .error e) :
    (∃ name, e = .unknownStart name) ∨ e = .noRules := by
  rcases startRules_eq_error_iff.mp h with ⟨name, -, rfl⟩ | ⟨-, -, rfl⟩
  · exact .inl ⟨name, rfl⟩
  · exact .inr rfl

/-- The errors with which a pass over a sound grammar comes out of its room. -/
theorem generateWithin_error_cases (sound : gen.grammar.IsSound) {unguarded : Nat}
    (h : (gen.generateWithin unguarded start).1.error = some e) :
    gen.grammar.startRules start = .error e ∨ ∃ rule, e = gen.settings.cut rule := by
  rcases generateWithin_cases sound start unguarded with
    ⟨e, failed, comesOut⟩ | ⟨es, left, q, -, -, rfl | ⟨rule, others, rfl⟩, comesOut⟩
  · rw [comesOut] at h
    cases h
    exact .inl failed
  · rw [comesOut] at h
    cases h
  · rw [comesOut] at h
    cases h
    exact .inr ⟨rule.name, rfl⟩

end Start

/-! ### Choosing -/

section Choosing
variable {ω : Type} [Scalar ω] {names : List String} {rule : Rule ω} {hasFired : String → Bool}

/-- A chosen entry of the chances is that of an item of the rule. -/
theorem Rule.IsSound.exists_item_of_choose (sound : rule.IsSound names) {ballot : Ballot ω}
    (competing : rule.ballot? hasFired = some ballot) {draw : ω} {i : Nat}
    (chosen : Selection.choose ballot.chances draw = some i) :
    ∃ place item, ballot.items[i]? = some place ∧ rule.items[place]? = some item := by
  obtain ⟨sameLength, contenders⟩ := sound.of_ballot? competing
  have inside : i < ballot.items.length := by
    rw [sameLength]
    exact Selection.choose_lt chosen
  obtain ⟨weight, contender⟩ := contenders _ (List.getElem_mem inside)
  obtain ⟨item, found, -⟩ := getElem?_of_mem_contenders contender
  exact ⟨_, item, List.getElem?_eq_getElem inside, found⟩

end Choosing

theorem explicitTotal_ne_zero_of_isCrowded {weights : List (Option Float)}
    (crowded : Ballot.isCrowded weights = true) :
    (Selection.explicitTotal weights == Scalar.ofNat 0) = false := by
  rw [Ballot.isCrowded, Bool.or_eq_true, Bool.and_eq_true] at crowded
  rcases crowded with above | ⟨-, uses⟩
  · exact ne_zero_of_aboveHundred above
  · exact ne_zero_of_usesHundred uses

/-! ### Loaded grammars -/

/-- Passes over a loaded grammar are safe, from any names, with any guard or none, and on any supply
of draws. -/
theorem Generator.isSafe_of_ofText {text name : String} {gen : Generator σ Float}
    (loaded : Grammar.ofText text name = .ok gen.grammar) (start : List String) :
    gen.IsSafe start := by
  have sound := Grammar.isSound_of_ofText loaded
  constructor
  case unknownStart =>
    intro name record after
    rw [ends_start_error_iff sound (by simp), startRules_eq_error_iff]
    simp
  case noRules =>
    intro record after
    rw [ends_start_error_iff sound (by simp), startRules_eq_error_iff]
    simp
  case guarded =>
    intro e record after ends
    rcases ends_error_cases sound ends with ⟨failed, -, -⟩ | cut
    · exact (startRules_error_cases failed).imp_right .inl
    · exact .inr (.inr cut)
  case wellFormed =>
    intro unguarded e comesOut
    rcases generateWithin_error_cases sound comesOut with failed | ⟨rule, rfl⟩
    · exact (startRules_error_cases failed).imp_right .inl
    · cases guard : gen.settings.maxDepth with
      | none => exact .inr (.inr (.inr ⟨rule, by simp [Settings.cut, guard], rfl⟩))
      | some limit => exact .inr (.inr (.inl ⟨rule, limit, by simp [Settings.cut, guard], rfl⟩))
  case drawn =>
    intro rule isRule hasFired ballot draw i competing chosen
    exact (sound.rules rule isRule).exists_item_of_choose competing chosen
  case gated =>
    intro rule isRule
    exact (sound.rules rule isRule).isGated
  case referred =>
    intro rule isRule item isItem name index member
    obtain ⟨next, found, -⟩ := sound.exists_rule isRule isItem member
    exact ⟨next, found⟩
  case divided =>
    intro rule isRule hasFired
    exact ⟨freeCount_ne_zero_iff.mpr, explicitTotal_ne_zero_of_isCrowded⟩
  case ends =>
    intro unguarded guarded
    obtain ⟨limit, isLimit⟩ := Option.ne_none_iff_exists'.mp guarded
    exact ends_of_guarded isLimit unguarded start

/-- Passes over the tale, the second start of which is unknown. -/
theorem Generator.isSafe_of_ofText_tale :
    Grammar.ofText taleText = .ok (tale Float) ∧
      (⟨tale Float, ⟨#[0.25], Nat.one_pos, 0⟩, {}⟩ :
        Generator (Cycle Float) Float).IsSafe ["Tale", "Nobody"] :=
  ⟨ofText_tale, Generator.isSafe_of_ofText ofText_tale _⟩

end WeightedGrammar

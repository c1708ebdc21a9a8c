import WeightedGrammar.Proofs.Pass.Ending

/-!
Conditional rules choose among the items whose condition holds. Wherever a pass fires such a rule,
the condition of the item that it chooses is true on the rules that fired before, and the item has a
weight if the weights of such items leave no room. This is said of every moment of a pass, also of
one that never ends (`Generator.Comes.mindsConditions`), and of every run in any room
(`generateWithin_mindsConditions`).
-/

namespace WeightedGrammar
variable {ω σ : Type}

/-- The items whose condition holds. -/
def Rule.satisfiedItems (rule : Rule ω) (hasFired : String → Bool) : List (Item ω) :=
  rule.items.filter (·.condition.any (·.evaluate hasFired))

/-- What is said of the candidates by their places and weights is said of the items there. -/
theorem map_satisfied {β : Type} {rule : Rule ω} {hasFired : String → Bool}
    {ofCandidate : Nat × Option ω → β} {ofItem : Item ω → β}
    (agree : ∀ place item, rule.items[place]? = some item →
      ofCandidate (place, item.weight) = ofItem item) :
    (rule.satisfied hasFired).map ofCandidate = (rule.satisfiedItems hasFired).map ofItem := by
  have overItems : (rule.satisfied hasFired).map ofCandidate =
      (rule.items.zipIdx.map (·.1)).filterMap fun item =>
        if item.condition.any (·.evaluate hasFired) then some (ofItem item) else none := by
    rw [Rule.satisfied, List.map_filterMap, List.filterMap_map]
    refine List.filterMap_congr fun ⟨item, place⟩ member => ?_
    have same := agree place item (List.mk_mem_zipIdx_iff_getElem?.mp member)
    dsimp only [Function.comp_apply]
    split
    · rw [Option.map_some, same]
    · rfl
  rw [overItems, List.zipIdx_map_fst, Rule.satisfiedItems, ← List.filterMap_eq_map,
    ← List.filterMap_eq_filter, List.filterMap_filterMap]
  congr 1
  funext item
  by_cases holds : item.condition.any (·.evaluate hasFired) = true
  · simp [holds, Option.guard]
  · simp [holds, Option.guard]

theorem map_snd_satisfied (rule : Rule ω) (hasFired : String → Bool) :
    (rule.satisfied hasFired).map (·.2) = (rule.satisfiedItems hasFired).map (·.weight) :=
  map_satisfied fun _ _ _ => rfl

theorem satisfied_eq_nil_iff {rule : Rule ω} {hasFired : String → Bool} :
    rule.satisfied hasFired = [] ↔ rule.satisfiedItems hasFired = [] := by
  rw [← List.map_eq_nil_iff, map_snd_satisfied, List.map_eq_nil_iff]

section Choice
variable [Scalar ω] {rule : Rule ω} {hasFired : String → Bool}

theorem exists_satisfied_of_pick (conditional : rule.conditional = true) {ballot : Ballot ω}
    (competing : rule.ballot? hasFired = some ballot) {draw : ω} {place : Nat}
    (picked : ballot.pick draw = some place) :
    ∃ item, rule.items[place]? = some item ∧
      item.condition.any (·.evaluate hasFired) = true ∧
      (Ballot.isCrowded ((rule.satisfiedItems hasFired).map (·.weight)) = true →
        item.weight.isSome = true) := by
  rw [ballot?_of_conditional conditional] at competing
  split at competing
  · cases competing
  · cases competing
    obtain ⟨weight, isCandidate, weighted⟩ :=
      mem_candidates_of_mem_items (mem_items_of_pick picked)
    obtain ⟨item, found, holds, rfl⟩ := mem_satisfied_iff.mp isCandidate
    rw [map_snd_satisfied] at weighted
    exact ⟨item, found, holds, weighted⟩

variable [Supply σ ω] {supply after : σ} {choice : Option Nat} {taken : Nat}

/-- An item that a conditional rule chooses is one whose condition holds, and one with a weight if
the weights of such items leave no room. -/
theorem Rule.Chooses.exists_satisfied (h : rule.Chooses hasFired supply choice taken after)
    (conditional : rule.conditional = true) {place : Nat} (chosen : place ∈ choice) :
    ∃ item, rule.items[place]? = some item ∧
      item.condition.any (·.evaluate hasFired) = true ∧
      (Ballot.isCrowded ((rule.satisfiedItems hasFired).map (·.weight)) = true →
        item.weight.isSome = true) := by
  cases h with
  | nothing => cases chosen
  | drawn competing => exact exists_satisfied_of_pick conditional competing chosen

theorem Rule.Chooses.eq_of_satisfiedItems (h : rule.Chooses hasFired supply choice taken after)
    (conditional : rule.conditional = true) (nothing : rule.satisfiedItems hasFired = []) :
    choice = none ∧ taken = 0 ∧ after = supply := by
  have idle : rule.ballot? hasFired = none := by
    rw [ballot?_of_conditional conditional, if_pos (satisfied_eq_nil_iff.mpr nothing)]
  exact (chooses_iff_of_none idle).mp h

end Choice

/-! ### Moments of a pass -/

variable [Scalar ω] [Supply σ ω] {gen : Generator σ ω} {start : List String} {es : List (Event ω)}
  {left left' : List (Task ω)} {p q : Progress σ} {s : Settings}

/-- The rules that have fired after some events are those that had fired before and those of the
events. -/
theorem Plays.hasFired (h : Plays s p es q) {earlier : List String}
    (same : ∀ n, p.record.hasFired n = earlier.contains n) (n : String) :
    q.record.hasFired n =
      (earlier ++ (es.filterMap Event.firing?).map (·.rule.name)).contains n := by
  induction h generalizing earlier with
  | nil p =>
    rw [List.filterMap_nil, List.map_nil, List.append_nil]
    exact same n
  | token rest ih => exact ih same
  | @firing p mid q f es chooses rest ih =>
    have fired := ih (hasFired_enter chooses same s.trace)
    rwa [List.append_assoc] at fired

theorem Generator.Comes.hasFired (h : gen.Comes start es left p) :
    p.record.hasFired = (((es.filterMap Event.firing?).map (·.rule.name)).contains ·) := by
  obtain ⟨⟨rules, -, proceeds⟩, -⟩ := h
  funext n
  exact proceeds.plays.hasFired hasFired_nothing n

/-- A firing that a pass goes through is a choice in the state in front of it. -/
theorem Generator.Comes.exists_chooseItem {f : Firing ω} (before : gen.Comes start es left p)
    (fires : gen.Comes start (es ++ [.firing f]) left' q) :
    ∃ mid, f.rule.chooseItem p = .ok f.choice mid ∧
      q = ⟨mid.record.enter gen.settings.trace f, mid.supply⟩ := by
  obtain ⟨⟨rules, started, proceeds⟩, -⟩ := fires
  obtain ⟨between, r, first, second⟩ := exists_proceeds_of_append proceeds
  obtain ⟨rfl, rfl⟩ := (before.proceeds started).functional first
  cases second with
  | fire chooses rest =>
    obtain ⟨-, rfl⟩ := proceeds_nil_iff.mp rest
    exact ⟨_, chooses, rfl⟩

/-! ### Firings of conditional rules -/

/-- What the firing of a conditional rule keeps to, which takes a pass from one state to another
when rules of the given names have fired. -/
structure Firing.MindsConditions (f : Firing ω) (earlier : List String) (p q : Progress σ) : Prop where
  /-- The condition of the item that is chosen is true. -/
  holds : ∀ place ∈ f.choice, ∃ item c, f.rule.items[place]? = some item ∧
    item.condition = some c ∧ c.evaluate (earlier.contains ·) = true
  /-- Nothing is chosen, and no draw made, where no condition is true. -/
  idle : f.rule.satisfiedItems (earlier.contains ·) = [] →
    f.choice = none ∧ q.supply = p.supply ∧ q.record.draws = p.record.draws
  /-- The item that is chosen has a weight if the weights of the items whose condition is true
  exceed a hundred, or use it up beside such an item without a weight. -/
  weighted : let weights := (f.rule.satisfiedItems (earlier.contains ·)).map (·.weight)
    Scalar.aboveHundred (Selection.explicitTotal weights) = true ∨
        (none ∈ weights ∧ Scalar.usesHundred (Selection.explicitTotal weights) = true) →
      ∀ place ∈ f.choice, ∃ item w, f.rule.items[place]? = some item ∧ item.weight = some w

/-- A choice keeps to the conditions on the rules that have fired in the state it is made in. -/
theorem mindsConditions_of_chooseItem {f : Firing ω} {earlier : List String} {p mid : Progress σ}
    (fired : p.record.hasFired = (earlier.contains ·))
    (chooses : f.rule.chooseItem p = .ok f.choice mid) (conditional : f.rule.conditional = true)
    (trace : Bool) : f.MindsConditions earlier p ⟨mid.record.enter trace f, mid.supply⟩ := by
  obtain ⟨-, taken, choice, record⟩ := chooseItem_eq_ok_iff.mp chooses
  rw [fired] at choice
  constructor
  case holds =>
    intro place chosen
    obtain ⟨item, found, holds, -⟩ := choice.exists_satisfied conditional chosen
    obtain ⟨c, under, evaluates⟩ := (Option.any_eq_true ..).mp holds
    exact ⟨item, c, found, under, evaluates⟩
  case idle =>
    intro nothing
    obtain ⟨chosen, rfl, same⟩ := choice.eq_of_satisfiedItems conditional nothing
    refine ⟨chosen, same, ?_⟩
    rw [Record.enter_eq, record]
    rfl
  case weighted =>
    intro weights leaves place chosen
    have crowded : Ballot.isCrowded weights = true := by
      rw [Ballot.isCrowded, Bool.or_eq_true, Bool.and_eq_true, List.any_eq_true]
      exact leaves.imp_right fun full => ⟨⟨none, full.1, rfl⟩, full.2⟩
    obtain ⟨item, found, -, weighted⟩ := choice.exists_satisfied conditional chosen
    obtain ⟨w, isWeight⟩ := Option.isSome_iff_exists.mp (weighted crowded)
    exact ⟨item, w, found, isWeight⟩

/-- Wherever a pass fires a conditional rule, it keeps to the conditions on the rules that fired
before. -/
theorem Generator.Comes.mindsConditions {f : Firing ω} (before : gen.Comes start es left p)
    (fires : gen.Comes start (es ++ [.firing f]) left' q)
    (conditional : f.rule.conditional = true) :
    f.MindsConditions ((es.filterMap Event.firing?).map (·.rule.name)) p q := by
  obtain ⟨mid, chooses, rfl⟩ := before.exists_chooseItem fires
  exact mindsConditions_of_chooseItem before.hasFired chooses conditional gen.settings.trace

/-- The first firing of the tale: an item is chosen beside another one with a weight, and a third
one without a weight has dropped out. -/
theorem Generator.Comes.mindsConditions_tale :
    let gen : Generator (Cycle Float) Float := ⟨tale Float, ⟨#[0.25], Nat.one_pos, 0⟩, {}⟩
    ∃ (hero : Rule Float) (left left' : List (Task Float)) (q : Progress (Cycle Float)),
      gen.Comes [] [] left ⟨{}, gen.supply⟩ ∧
        gen.Comes [] [.firing ⟨0, hero, some 0⟩] left' q ∧ hero.conditional = true ∧
        Firing.MindsConditions ⟨0, hero, some 0⟩ [] ⟨{}, gen.supply⟩ q := by
  intro gen
  have checked : ((tale Float).top?.any fun hero => hero.conditional &&
      match hero.chooseItem (⟨{}, gen.supply⟩ : Progress (Cycle Float)) with
      | .ok choice _ => choice == some 0
      | .error _ _ => false) = true := by decide +kernel
  obtain ⟨hero, isTop, kept⟩ := (Option.any_eq_true ..).mp checked
  obtain ⟨conditional, chosen⟩ := Bool.and_eq_true_iff.mp kept
  split at chosen
  · rename_i choice mid chooses
    obtain rfl : choice = some 0 := eq_of_beq chosen
    have started : [hero].map some = gen.grammar.starts [] := by
      simp [gen, Grammar.starts, isTop]
    have before : gen.Comes [] [] [.fire 0 hero] ⟨{}, gen.supply⟩ :=
      ⟨⟨[hero], started, .nil _ _⟩, by simp⟩
    have permitted : gen.settings.Permits 0 := by
      simp [gen, Settings.Permits]
    have fires : gen.Comes [] [.firing ⟨0, hero, some 0⟩] _ _ :=
      ⟨⟨[hero], started, .fire chooses (.nil _ _)⟩, by simpa using permitted⟩
    exact ⟨hero, _, _, _, before, fires, conditional, before.mindsConditions fires conditional⟩
  · cases chosen

/-- A run that has its start rules keeps to the conditions at every firing of a conditional rule,
whatever its room and however it comes out. -/
theorem generateWithin_mindsConditions (sound : gen.grammar.IsSound) (start : List String)
    (unguarded : Nat) :
    (∃ e, gen.grammar.startRules start = .error e ∧
        gen.generateWithin unguarded start = (⟨{}, some e⟩, gen)) ∨
      ∃ es, gen.RunsThrough unguarded start es ∧
        ∀ earlier f, earlier ++ [.firing f] <+: es → f.rule.conditional = true →
          ∃ left p left' q, gen.Comes start earlier left p ∧
            gen.Comes start (earlier ++ [.firing f]) left' q ∧
            f.MindsConditions ((earlier.filterMap Event.firing?).map (·.rule.name)) p q := by
  refine (generateWithin_cases sound start unguarded).imp_right ?_
  rintro ⟨es, runs⟩
  refine ⟨es, runs, fun earlier f part conditional => ?_⟩
  obtain ⟨left, p, before⟩ := runs.exists_comes ((List.prefix_append earlier _).trans part)
  obtain ⟨left', q, fires⟩ := runs.exists_comes part
  obtain ⟨mid, chooses, rfl⟩ := before.exists_chooseItem fires
  exact ⟨left, p, left', _, before, fires,
    mindsConditions_of_chooseItem before.hasFired chooses conditional gen.settings.trace⟩

end WeightedGrammar

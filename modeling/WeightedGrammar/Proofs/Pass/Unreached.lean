import WeightedGrammar.Proofs.Grammar.WellFormed
import WeightedGrammar.Proofs.Pass.Gating
import WeightedGrammar.Proofs.Pass.Ways

/-!
Rules that references do not lead to from the start have no part in a pass. They never count as
fired, so that conditions on them are false; and passes come out alike over grammars that differ in
such rules only (`Generator.ignoresUnreached_of_ofText`).
-/

namespace WeightedGrammar
variable {ω σ : Type}

/-- References lead from the start to a rule of the name. -/
def Grammar.ReachesName (g : Grammar ω) (start : List String) (name : String) : Prop :=
  ∃ place, g.Reaches start place ∧ g.names[place]? = some name

theorem Grammar.IsOnWay.reachesName {g : Grammar ω} {start : List String} {depth : Nat}
    {rule : Rule ω} (onWay : g.IsOnWay start depth rule) : g.ReachesName start rule.name := by
  obtain ⟨place, path, found, way, -⟩ := onWay
  refine ⟨place, way.reaches place List.mem_cons_self, ?_⟩
  rw [Grammar.names, List.getElem?_map, found, Option.map_some]

/-! ### What fires -/

section
variable [Scalar ω] [Supply σ ω] {gen : Generator σ ω} {start : List String} {es : List (Event ω)}
  {left : List (Task ω)} {q : Progress σ} {n : String}

/-- At every moment of a pass, references lead to all rules that have fired. -/
theorem Generator.Comes.reachesName (distinct : gen.grammar.names.Nodup)
    (h : gen.Comes start es left q) (fired : q.record.hasFired n = true) :
    gen.grammar.ReachesName start n := by
  rw [h.hasFired, List.contains_iff_mem] at fired
  obtain ⟨f, fires, rfl⟩ := List.mem_map.mp fired
  exact ((h.onWays distinct).1 f fires).reachesName

/-- So they do in the outcome, also in that of a pass that is aborted. -/
theorem reachesName_of_generateWithin (sound : gen.grammar.IsSound) {unguarded : Nat}
    (fired : (gen.generateWithin unguarded start).1.record.hasFired n = true) :
    gen.grammar.ReachesName start n := by
  rcases generateWithin_cases sound start unguarded with
    ⟨e, -, out⟩ | ⟨es, left, q, comes, -, -, out⟩
  · rw [out] at fired
    cases fired
  · rw [out, record_outcomeAt] at fired
    exact comes.reachesName sound.distinct fired

end

/-! ### What does not matter -/

/-- The other grammar has the same start places, and the same rules at all places that references
lead to from there. -/
structure Grammar.AgreesFrom (g g' : Grammar ω) (start : List String) : Prop where
  starts : g'.startPlaces start = g.startPlaces start
  rules : ∀ place, g.Reaches start place → g'.rules[place]? = g.rules[place]?

section
variable {g g' : Grammar ω} {start : List String}

theorem Grammar.AgreesFrom.agreesOn (agrees : g.AgreesFrom g' start) :
    g.AgreesOn g' (g.Reaches start) :=
  ⟨agrees.rules, fun _ reached _ refers => reached.step refers⟩

theorem Grammar.AgreesFrom.startRules (distinct : g.names.Nodup) (distinct' : g'.names.Nodup)
    (agrees : g.AgreesFrom g' start) : g'.startRules start = g.startRules start := by
  have starts : g'.starts start = g.starts start := by
    rw [Grammar.starts_eq_map_startPlaces distinct, Grammar.starts_eq_map_startPlaces distinct',
      agrees.starts]
    refine List.map_congr_left fun root? isStart => ?_
    cases root? with
    | none => rfl
    | some root => exact agrees.rules root ⟨root, isStart, .refl⟩
  unfold Grammar.starts at starts
  unfold Grammar.startRules
  split
  · rename_i empty
    rw [if_pos empty, if_pos empty] at starts
    rw [(List.singleton_inj.mp starts : g'.top? = g.top?)]
  · rename_i inhabited
    rw [if_neg inhabited, if_neg inhabited, List.map_inj_left] at starts
    exact mapM_congr fun name isName => by rw [starts name isName]

/-- References lead from a start rule to all that it refers to. -/
theorem reaches_of_startRules (distinct : g.names.Nodup) {roots : List (Rule ω)}
    (started : g.startRules start = .ok roots) {rule : Rule ω} (isRoot : rule ∈ roots) :
    ∀ next ∈ rule.references, g.Reaches start next := by
  intro next refers
  obtain ⟨root, isStart, found⟩ :=
    exists_startPlace distinct (startRules_eq_ok_iff.mp started) isRoot
  refine ⟨root, isStart, .single ?_⟩
  rwa [Grammar.Refers, references_of_getElem? found]

end

variable [Scalar ω] [Supply σ ω] {gen : Generator σ ω}

def Generator.withGrammar (gen : Generator σ ω) (g : Grammar ω) : Generator σ ω :=
  { gen with grammar := g }

/-- In a pass over a loaded grammar, all rules that count as fired are rules that references lead to
from the start, at every moment and in the outcome; and conditions on other names are false. Over
another loaded grammar that differs in other rules only, the pass has the same outcome and leaves
the same draws. -/
theorem Generator.ignoresUnreached_of_ofText {text name : String}
    (loaded : Grammar.ofText text name = .ok gen.grammar) (start : List String) :
    (∀ es left q, gen.Comes start es left q → ∀ n,
      (q.record.hasFired n = true → gen.grammar.ReachesName start n) ∧
      (¬gen.grammar.ReachesName start n →
        (Condition.fired n).evaluate q.record.hasFired = false)) ∧
    (∀ unguarded n, (gen.generateWithin unguarded start).1.record.hasFired n = true →
      gen.grammar.ReachesName start n) ∧
    ∀ (text' name' : String) (g' : Grammar ω), Grammar.ofText text' name' = .ok g' →
      gen.grammar.AgreesFrom g' start → ∀ unguarded,
        ((gen.withGrammar g').generateWithin unguarded start).1 =
            (gen.generateWithin unguarded start).1 ∧
          ((gen.withGrammar g').generateWithin unguarded start).2.supply =
            (gen.generateWithin unguarded start).2.supply := by
  have sound : gen.grammar.IsSound := Grammar.isSound_of_ofText loaded
  refine ⟨?_, fun unguarded n => reachesName_of_generateWithin sound, ?_⟩
  · intro es left q comes n
    refine ⟨comes.reachesName sound.distinct, fun unreached => ?_⟩
    rw [← Bool.not_eq_true]
    exact fun holds => unreached (comes.reachesName sound.distinct holds)
  · intro text' name' g' loaded' agrees unguarded
    have sound' : g'.IsSound := Grammar.isSound_of_ofText loaded'
    have started := agrees.startRules sound.distinct sound'.distinct
    have runs := run_congr (σ := σ) agrees.agreesOn started
      (fun roots starts rule isRoot => reaches_of_startRules sound.distinct starts isRoot)
    simp only [Generator.generateWithin, Generator.withGrammar, runs]
    split <;> exact ⟨rfl, rfl⟩

/-- The house with other rules in place of the mirror. -/
def atticText : String :=
  houseText "Mirror \x7b %30 'glass' Attic; 'dust' \x7d\nAttic \x7b Hall \x7d"

theorem Generator.ignoresUnreached_of_ofText_house :
    let gen : Generator (Cycle Float) Float := ⟨mirrorHouse, ⟨#[0.25], Nat.one_pos, 0⟩, {}⟩
    Grammar.ofText mirrorText = .ok gen.grammar ∧
      ¬gen.grammar.ReachesName ["Hall"] "Mirror" ∧
      (∀ unguarded,
        (gen.generateWithin unguarded ["Hall"]).1.record.hasFired "Mirror" = false) ∧
      ∃ g : Grammar Float, Grammar.ofText atticText = .ok g ∧
        gen.grammar.AgreesFrom g ["Hall"] ∧ ∀ unguarded,
          ((gen.withGrammar g).generateWithin unguarded ["Hall"]).1 =
            (gen.generateWithin unguarded ["Hall"]).1 := by
  intro gen
  have hidden : ¬gen.grammar.ReachesName ["Hall"] "Mirror" := by
    rintro ⟨place, reached, named⟩
    have four : gen.grammar.names.take 4 = ["Hall", "Door", "Window", "Key"] := by decide +kernel
    rw [← List.getElem?_take_of_lt (lt_of_mirrorHouse_reaches reached), four] at named
    simpa using List.mem_of_getElem? named
  have checked : (match (Grammar.ofText atticText : Except LoadError (Grammar Float)) with
      | .ok g => g.rules.take 4 == mirrorHouse.rules.take 4 &&
          g.startPlaces ["Hall"] == mirrorHouse.startPlaces ["Hall"]
      | .error _ => false) = true := by decide +kernel
  obtain ⟨moments, outcome, others⟩ :=
    gen.ignoresUnreached_of_ofText ofText_mirrorText ["Hall"]
  refine ⟨ofText_mirrorText, hidden, ?_, ?_⟩
  · intro unguarded
    rw [← Bool.not_eq_true]
    exact fun fired => hidden (outcome unguarded "Mirror" fired)
  · cases loaded : (Grammar.ofText atticText : Except LoadError (Grammar Float)) with
    | error e =>
      rw [loaded] at checked
      cases checked
    | ok g =>
      rw [loaded] at checked
      obtain ⟨equal, starts⟩ := Bool.and_eq_true_iff.mp checked
      have sound := Grammar.isSound_of_ofText ofText_mirrorText
      have sound' := Grammar.isSound_of_ofText loaded
      have four : g.rules.take 4 = mirrorHouse.rules.take 4 :=
        list_eq_of_beq (fun rule isRule other isOther same =>
          rule_eq_of_beq equalsAboveZero_float (sound'.rules rule (List.mem_of_mem_take isRule))
            (sound.rules other (List.mem_of_mem_take isOther)) same) equal
      have agrees : mirrorHouse.AgreesFrom g ["Hall"] := by
        refine ⟨eq_of_beq starts, fun place reached => ?_⟩
        have inside := lt_of_mirrorHouse_reaches reached
        rw [← List.getElem?_take_of_lt inside, four, List.getElem?_take_of_lt inside]
      exact ⟨g, rfl, agrees, fun unguarded => (others atticText "" g loaded agrees unguarded).1⟩

end WeightedGrammar

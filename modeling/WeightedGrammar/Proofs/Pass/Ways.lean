import WeightedGrammar.Proofs.Grammar.References
import WeightedGrammar.Proofs.Pass.Ending

/-!
Passes along references. A rule that a pass comes to stands at the end of a way along references,
and its depth is the number of those (`Generator.Comes.onWays`). So a pass comes no deeper than the
longest way; where references make no cycle it ends with a result, without a guard or under one
that allows as many levels as there are rules (`Generator.ends_of_isAcyclic`).
-/

namespace WeightedGrammar
variable {ω σ : Type}

/-- The rule stands at the end of a way of so many references. -/
def Grammar.IsOnWay (g : Grammar ω) (start : List String) (depth : Nat) (rule : Rule ω) : Prop :=
  ∃ place path, g.rules[place]? = some rule ∧ g.Way start (place :: path) ∧ path.length = depth

/-- Without cycles the rules at the end of ways are less deep than the grammar has rules. -/
theorem Grammar.IsOnWay.depth_lt {g : Grammar ω} {start : List String} {depth : Nat}
    {rule : Rule ω} (onWay : g.IsOnWay start depth rule) (acyclic : g.IsAcyclicFrom start) :
    depth < g.rules.length := by
  obtain ⟨place, path, found, way, rfl⟩ := onWay
  exact way.length_lt acyclic (List.getElem?_eq_some_iff.mp found).1

variable [Scalar ω] [Supply σ ω] {gen : Generator σ ω} {start : List String} {es : List (Event ω)}
  {left : List (Task ω)} {q : Progress σ}

/-- All rules that a pass fires, and all that it has left to fire, stand at the end of ways of as
many references as they are deep. -/
theorem Generator.Comes.onWays (distinct : gen.grammar.names.Nodup)
    (h : gen.Comes start es left q) :
    (∀ f ∈ es.filterMap Event.firing?, gen.grammar.IsOnWay start f.depth f.rule) ∧
      ∀ depth rule, .fire depth rule ∈ left → gen.grammar.IsOnWay start depth rule := by
  obtain ⟨⟨roots, started, proceeds⟩, -⟩ := h
  apply proceeds.forall_rules
  · rintro f - ⟨place, path, found, way, length⟩ next fresh
    obtain ⟨-, name, index, isRef, foundNext⟩ := exists_ref_of_mem_tasks fresh
    have refers : gen.grammar.Refers place index := by
      rw [Grammar.Refers, references_of_getElem? found]
      exact mem_references_of_elementsOf isRef
    exact ⟨index, place :: path, foundNext, way.step refers, congrArg (· + 1) length⟩
  · intro depth rule isTask
    obtain ⟨root, isRoot, same⟩ := List.mem_map.mp isTask
    cases same
    obtain ⟨place, isStart, found⟩ := exists_startPlace distinct started isRoot
    exact ⟨place, [], found, .root isStart, rfl⟩

/-- A pass that has room for all rules at once does not come to the bottom of it if references make
no cycle. -/
theorem left_eq_nil_of_isAcyclic (distinct : gen.grammar.names.Nodup)
    (acyclic : gen.grammar.IsAcyclicFrom start) (h : gen.Comes start es left q) {bottom : Nat}
    (roomy : gen.grammar.rules.length ≤ bottom) (rests : RestsAt bottom left) : left = [] := by
  rcases rests with cleared | ⟨rule, others, rfl⟩
  · exact cleared
  · have onWay := (h.onWays distinct).2 bottom rule List.mem_cons_self
    have above : bottom < gen.grammar.rules.length := onWay.depth_lt acyclic
    omega

/-- A pass over a loaded grammar whose references make no cycle that its start leads to ends with a
result, without a guard or under one that is no lower than the number of rules. The result is that
of every run, if only those without a guard have room for so many levels. -/
theorem Generator.ends_of_isAcyclic {text name : String}
    (loaded : Grammar.ofText text name = .ok gen.grammar) {roots : List (Rule ω)}
    (started : gen.grammar.startRules start = .ok roots)
    (acyclic : gen.grammar.IsAcyclicFrom start)
    (guarded : ∀ limit ∈ gen.settings.maxDepth, (gen.grammar.rules.length : Int) ≤ limit) :
    ∃ record after, ∀ unguarded,
      (gen.settings.maxDepth = none → gen.grammar.rules.length ≤ unguarded) →
        gen.generateWithin unguarded start = (⟨record, none⟩, after) := by
  have sound : gen.grammar.IsSound := Grammar.isSound_of_ofText loaded
  have roomy : ∀ unguarded,
      (gen.settings.maxDepth = none → gen.grammar.rules.length ≤ unguarded) →
        gen.grammar.rules.length ≤ gen.settings.room unguarded := by
    intro unguarded enough
    cases guard : gen.settings.maxDepth with
    | none => simpa only [Settings.room, guard] using enough guard
    | some limit =>
      have le := guarded limit guard
      simp only [Settings.room, guard]
      omega
  -- The run with just enough room clears its agenda, and so do those with more.
  obtain ⟨es, left, q, comes, below, rests⟩ :=
    exists_comes sound started gen.grammar.rules.length
  obtain rfl := left_eq_nil_of_isAcyclic sound.distinct acyclic comes
    (roomy _ fun _ => Nat.le_refl _) rests
  refine ⟨q.record, { gen with supply := q.supply }, fun unguarded enough => ?_⟩
  have belowRoom : Below (gen.settings.room unguarded) es := by
    intro f fires
    have onWay := (comes.onWays sound.distinct).1 f fires
    exact Nat.lt_of_lt_of_le (onWay.depth_lt acyclic) (roomy unguarded enough)
  exact generateWithin_of_comes sound comes trivial belowRoom

/-- The house under a guard of as many levels as it has rules: the mirror would come back to itself,
but the hall does not lead to it. -/
theorem Generator.ends_of_isAcyclic_house :
    let gen : Generator (Cycle Float) Float :=
      ⟨mirrorHouse, ⟨#[0.25], Nat.one_pos, 0⟩, { maxDepth := some 5 }⟩
    Grammar.ofText mirrorText = .ok gen.grammar ∧ gen.grammar.IsAcyclicFrom ["Hall"] ∧
      ∃ record after, ∀ unguarded,
        gen.generateWithin unguarded ["Hall"] = (⟨record, none⟩, after) := by
  intro gen
  obtain ⟨roots, started⟩ : ∃ roots, gen.grammar.startRules ["Hall"] = .ok roots :=
    exists_ok_of_isOk (by decide +kernel)
  have guarded : ∀ limit ∈ gen.settings.maxDepth, (gen.grammar.rules.length : Int) ≤ limit := by
    decide +kernel
  obtain ⟨record, after, ends⟩ :=
    gen.ends_of_isAcyclic ofText_mirrorText started isAcyclicFrom_mirrorHouse guarded
  refine ⟨ofText_mirrorText, isAcyclicFrom_mirrorHouse, record, after, fun unguarded => ?_⟩
  exact ends unguarded fun noGuard => absurd noGuard (by simp [gen])

end WeightedGrammar

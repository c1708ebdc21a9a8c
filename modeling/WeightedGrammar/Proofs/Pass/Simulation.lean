import WeightedGrammar.Proofs.Pass.Ending

/-!
Passes side by side. Two passes over a grammar, with different draws or with different logs, do the
same tasks as long as their rules make the same choices: a relation between their states that every
task keeps holds at all of their moments (`Generator.Comes.simulate`), and between the states that
they come out in (`Generator.Simulates.generateWithin_cases`).
-/

namespace WeightedGrammar
variable {ω σ σ' : Type} [Scalar ω] [Supply σ ω] [Supply σ' ω]

/-- The second generator has passes of its own over the grammar of the first one, under its guard.
The relation holds between the states that passes begin in, and every task keeps it: a rule that
fires makes the same choice in both. -/
structure Generator.Simulates (gen : Generator σ ω) (gen' : Generator σ' ω)
    (related : Progress σ → Progress σ' → Prop) : Prop where
  grammar : gen'.grammar = gen.grammar
  guard : gen'.settings.maxDepth = gen.settings.maxDepth
  opens : related ⟨{}, gen.supply⟩ ⟨{}, gen'.supply⟩
  emit : ∀ p p' text, related p p' →
    related { p with record := p.record.emit text } { p' with record := p'.record.emit text }
  fire : ∀ p p' mid rule choice depth, rule ∈ gen.grammar.rules → related p p' →
    rule.chooseItem p = .ok choice mid → ∃ mid', rule.chooseItem p' = .ok choice mid' ∧
      related ⟨mid.record.enter gen.settings.trace ⟨depth, rule, choice⟩, mid.supply⟩
        ⟨mid'.record.enter gen'.settings.trace ⟨depth, rule, choice⟩, mid'.supply⟩

variable {gen : Generator σ ω} {gen' : Generator σ' ω}
  {related : Progress σ → Progress σ' → Prop} {start : List String} {agenda left : List (Task ω)}
  {es : List (Event ω)} {p q : Progress σ} {p' : Progress σ'}

theorem Proceeds.simulate (h : Proceeds gen.grammar gen.settings agenda p es left q)
    (simulates : gen.Simulates gen' related) (known : Known gen.grammar agenda)
    (holds : related p p') :
    ∃ q', Proceeds gen.grammar gen'.settings agenda p' es left q' ∧ related q q' := by
  -- Over the tasks that the first pass does. The choices leave the same tasks for the second one.
  induction h generalizing p' with
  | nil => exact ⟨p', .nil _ _, holds⟩
  | emit _ ih =>
    have knownRest := fun depth rule member => known depth rule (List.mem_cons_of_mem _ member)
    obtain ⟨q', proceeds, holds⟩ := ih knownRest (simulates.emit _ _ _ holds)
    exact ⟨q', .emit proceeds, holds⟩
  | @fire depth rule choice agenda _ _ _ _ _ chooses _ ih =>
    obtain ⟨isRule, knownNext⟩ := known.fire (rule.elementsOf choice)
    obtain ⟨mid', chooses', holds⟩ := simulates.fire _ _ _ _ _ depth isRule holds chooses
    obtain ⟨q', proceeds, holds⟩ := ih knownNext holds
    exact ⟨q', .fire chooses' proceeds, holds⟩

/-- Every moment of the one pass is a moment of the other one, after the same events and with the
same agenda. -/
theorem Generator.Comes.simulate (h : gen.Comes start es left q)
    (simulates : gen.Simulates gen' related) :
    ∃ q', gen'.Comes start es left q' ∧ related q q' := by
  obtain ⟨⟨rules, started, proceeds⟩, permitted⟩ := h
  obtain ⟨q', proceeds', holds⟩ :=
    proceeds.simulate simulates (known_of_starts started) simulates.opens
  refine ⟨q', ⟨⟨rules, ?_, ?_⟩, ?_⟩, holds⟩
  · rwa [simulates.grammar]
  · rwa [simulates.grammar]
  · intro f fires limit guarded
    exact permitted f fires limit (simulates.guard ▸ guarded)

/-- The passes have the same start, or none, and come out after the same events in states that are
related. -/
theorem Generator.Simulates.generateWithin_cases (simulates : gen.Simulates gen' related)
    (sound : gen.grammar.IsSound) (start : List String) (unguarded : Nat) :
    (∃ e, gen.grammar.startRules start = .error e ∧
        gen.generateWithin unguarded start = (⟨{}, some e⟩, gen) ∧
        gen'.generateWithin unguarded start = (⟨{}, some e⟩, gen')) ∨
      ∃ es left q q', gen.Comes start es left q ∧ related q q' ∧
        RestsAt (gen.settings.room unguarded) left ∧
        gen.generateWithin unguarded start =
          (gen.settings.outcomeAt q.record left, { gen with supply := q.supply }) ∧
        gen'.generateWithin unguarded start =
          (gen.settings.outcomeAt q'.record left, { gen' with supply := q'.supply }) := by
  rcases WeightedGrammar.generateWithin_cases sound start unguarded with
    ⟨e, failed, out⟩ | ⟨es, left, q, comes, below, rests, out⟩
  · have failed' : gen'.grammar.startRules start = .error e := simulates.grammar ▸ failed
    exact .inl ⟨e, failed, out, generateWithin_of_startRules_eq_error failed' unguarded⟩
  · obtain ⟨q', comes', holds⟩ := comes.simulate simulates
    have sound' : gen'.grammar.IsSound := simulates.grammar ▸ sound
    have sameRoom : gen'.settings.room unguarded = gen.settings.room unguarded := by
      rw [Settings.room, Settings.room, simulates.guard]
    refine .inr ⟨es, left, q, q', comes, holds, rests, out, ?_⟩
    rw [← outcomeAt_congr simulates.guard]
    exact generateWithin_of_comes sound' comes' (sameRoom ▸ rests.atBottom) (sameRoom ▸ below)

end WeightedGrammar

import WeightedGrammar.Proofs.Condition.Truth
import WeightedGrammar.Proofs.Pass.Gating

/-!
The history of a pass only grows. A rule that has fired stays fired, with an item or with nothing,
whatever fires after it; so a condition without a negation stays true, and a condition changes its
value only when one of its names fires for the first time. This is said of any two moments of a pass
(`Generator.Comes.remembers`), and of those of every run in any room (`generateWithin_remembers`).
-/

namespace WeightedGrammar
variable {ω σ : Type}

/-- The event is a firing of a rule of the name. -/
def Event.fires (name : String) (e : Event ω) : Bool := e.firing?.any (·.rule.name == name)

theorem exists_firing_of_fires {name : String} {e : Event ω} (h : e.fires name = true) :
    ∃ f : Firing ω, e = .firing f ∧ f.rule.name = name := by
  cases e with
  | token text => cases h
  | firing f => exact ⟨f, rfl, eq_of_beq h⟩

/-- Among events that fire a rule there is a first one that does. -/
theorem exists_first {es : List (Event ω)} {name : String} (h : es.any (·.fires name) = true) :
    ∃ between f, f.rule.name = name ∧ (between ++ [.firing f]) <+: es ∧
      between.any (·.fires name) = false := by
  rw [List.any_eq_true, ← List.find?_isSome, Option.isSome_iff_exists] at h
  obtain ⟨e, first⟩ := h
  obtain ⟨fires, between, rest, rfl, none⟩ := List.find?_eq_some_iff_append.mp first
  obtain ⟨f, rfl, named⟩ := exists_firing_of_fires fires
  refine ⟨between, f, named, ⟨rest, by simp⟩, ?_⟩
  simpa [List.any_eq_false] using none

variable [Scalar ω] [Supply σ ω] {gen : Generator σ ω} {start : List String}
  {es es' : List (Event ω)} {left left' : List (Task ω)} {p q : Progress σ}

/-! ### Moments in order -/

/-- Of two moments of a pass the one with fewer events comes first. -/
theorem Generator.Comes.prefix_of_length_le (h : gen.Comes start es left p)
    (h' : gen.Comes start es' left' q) (le : es.length ≤ es'.length) : es <+: es' := by
  obtain ⟨⟨rules, started, proceeds⟩, -⟩ := h
  rcases proceeds.comparable (h'.proceeds started) with ⟨more, rfl, -⟩ | ⟨more, rfl, -⟩
  · rw [List.length_append] at le
    obtain rfl : more = [] := List.eq_nil_of_length_eq_zero (by omega)
    exact ⟨[], by simp⟩
  · exact List.prefix_append es more

/-- What has fired at a moment is what the events up to it fire. -/
theorem Generator.Comes.hasFired_eq_any (h : gen.Comes start es left p) (name : String) :
    p.record.hasFired name = es.any (·.fires name) := by
  rw [h.hasFired, Bool.eq_iff_iff, List.contains_iff_mem, List.any_eq_true]
  simp only [List.mem_map, List.mem_filterMap, Event.fires, Option.any_eq_true, beq_iff_eq]
  constructor
  · rintro ⟨f, ⟨e, isEvent, isFiring⟩, named⟩
    exact ⟨e, isEvent, f, isFiring, named⟩
  · rintro ⟨e, isEvent, f, isFiring, named⟩
    exact ⟨f, ⟨e, isEvent, isFiring⟩, named⟩

/-! ### What changes -/

/-- How the history at one moment of a pass, after some events, is kept until another one. -/
structure Generator.Remembers (es es' : List (Event ω)) (p q : Progress σ) : Prop where
  /-- What has fired are the rules that events have fired, whether they chose an item or not. -/
  fired (name : String) : p.record.hasFired name = true ↔
    ∃ f : Firing ω, .firing f ∈ es ∧ f.rule.name = name
  grows (name : String) : p.record.hasFired name = true → q.record.hasFired name = true
  /-- A condition without a negation stays true. -/
  holds (c : Condition) : c.isPositive = true →
    c.evaluate p.record.hasFired = true → c.evaluate q.record.hasFired = true
  /-- The negation of such a condition stays false. -/
  fails (c : Condition) : c.isPositive = true →
    c.neg.evaluate p.record.hasFired = false → c.neg.evaluate q.record.hasFired = false
  /-- A condition that changes its value has a name that fires in between, and not before. -/
  changes (c : Condition) : c.evaluate q.record.hasFired ≠ c.evaluate p.record.hasFired →
    ∃ name ∈ c.names, ∃ between f, f.rule.name = name ∧
      (es ++ between ++ [.firing f]) <+: es' ∧
      ∀ earlier : Firing ω, .firing earlier ∈ es ++ between → earlier.rule.name ≠ name

omit [Scalar ω] [Supply σ ω] in
theorem remembers_of_hasFired {more : List (Event ω)}
    (earlierFired : ∀ name, p.record.hasFired name = es.any (·.fires name))
    (allFired : ∀ name, q.record.hasFired name = (es ++ more).any (·.fires name)) :
    Generator.Remembers es (es ++ more) p q := by
  have laterFired : ∀ name, q.record.hasFired name =
      (p.record.hasFired name || more.any (·.fires name)) := by
    intro name
    rw [allFired, List.any_append, earlierFired]
  have grows : ∀ name, p.record.hasFired name = true → q.record.hasFired name = true := by
    intro name fired
    rw [laterFired, fired, Bool.true_or]
  constructor
  case fired =>
    intro name
    rw [earlierFired, List.any_eq_true]
    constructor
    · rintro ⟨e, isEvent, fires⟩
      obtain ⟨f, rfl, named⟩ := exists_firing_of_fires fires
      exact ⟨f, isEvent, named⟩
    · rintro ⟨f, isEvent, named⟩
      exact ⟨.firing f, isEvent, beq_iff_eq.mpr named⟩
  case grows => exact grows
  case holds =>
    intro c positive holds
    exact Condition.evaluate_mono grows positive holds
  case fails =>
    intro c positive fails
    rw [Condition.evaluate, Bool.not_eq_false'] at fails ⊢
    exact Condition.evaluate_mono grows positive fails
  case changes =>
    intro c changed
    obtain ⟨name, isName, differs⟩ := Condition.exists_of_evaluate_ne changed
    rw [laterFired] at differs
    -- The name has fired at the later moment only, so that it fires in between.
    obtain ⟨unfired, fires⟩ :
        p.record.hasFired name = false ∧ more.any (·.fires name) = true := by
      cases fired : p.record.hasFired name with
      | true => simp [fired] at differs
      | false => simpa [fired] using differs
    obtain ⟨between, f, named, ⟨rest, split⟩, none⟩ := exists_first fires
    refine ⟨name, isName, between, f, named, ⟨rest, ?_⟩, ?_⟩
    · rw [← split]
      simp only [List.append_assoc]
    · intro earlier member named'
      have fires : (es ++ between).any (·.fires name) = true :=
        List.any_eq_true.mpr ⟨_, member, beq_iff_eq.mpr named'⟩
      rw [List.any_append, ← earlierFired, unfired, none] at fires
      cases fires

theorem Generator.Comes.remembers (before : gen.Comes start es left p)
    (later : gen.Comes start es' left' q) (notLater : es.length ≤ es'.length) :
    Generator.Remembers es es' p q := by
  obtain ⟨more, rfl⟩ := before.prefix_of_length_le later notLater
  exact remembers_of_hasFired before.hasFired_eq_any later.hasFired_eq_any

/-- The first firing of the tale turns the condition of an item of the same rule false. -/
theorem Generator.Comes.remembers_tale :
    let gen : Generator (Cycle Float) Float := ⟨tale Float, ⟨#[0.25], Nat.one_pos, 0⟩, {}⟩
    let unmet : Condition := .neg (.fired "Hero")
    ∃ (hero : Rule Float) (left left' : List (Task Float)) (q : Progress (Cycle Float)),
      gen.Comes [] [] left ⟨{}, gen.supply⟩ ∧
        gen.Comes [] [.firing ⟨0, hero, some 0⟩] left' q ∧
        unmet.evaluate ({} : Record).hasFired = true ∧ unmet.evaluate q.record.hasFired = false ∧
        Generator.Remembers [] [.firing ⟨0, hero, some 0⟩] ⟨{}, gen.supply⟩ q := by
  intro gen unmet
  have checked : ((tale Float).top?.any fun hero => hero.name == "Hero" &&
      match hero.chooseItem (⟨{}, gen.supply⟩ : Progress (Cycle Float)) with
      | .ok choice _ => choice == some 0
      | .error _ _ => false) = true := by decide +kernel
  obtain ⟨hero, isTop, kept⟩ := (Option.any_eq_true ..).mp checked
  obtain ⟨named, chosen⟩ := Bool.and_eq_true_iff.mp kept
  split at chosen
  · rename_i choice mid chooses
    obtain rfl : choice = some 0 := eq_of_beq chosen
    have started : [hero].map some = gen.grammar.starts [] := by
      simp [gen, Grammar.starts, isTop]
    have permitted : gen.settings.Permits 0 := by
      simp [gen, Settings.Permits]
    have before := comes_nil started
    have later := before.fire permitted chooses
    refine ⟨hero, _, _, _, before, later, rfl, ?_, before.remembers later (Nat.zero_le 1)⟩
    have fired := later.hasFired_eq_any "Hero"
    simp only [unmet, Condition.evaluate, fired]
    simpa [Event.fires, Event.firing?] using named
  · cases chosen

/-- A run that has its start rules keeps its history from each of its moments to every later one,
whatever its room and however it comes out. -/
theorem generateWithin_remembers (sound : gen.grammar.IsSound) (start : List String)
    (unguarded : Nat) :
    (∃ e, gen.grammar.startRules start = .error e ∧
        gen.generateWithin unguarded start = (⟨{}, some e⟩, gen)) ∨
      ∃ es, gen.RunsThrough unguarded start es ∧
        ∀ earlier more, earlier ++ more <+: es →
          ∃ left p left' q, gen.Comes start earlier left p ∧
            gen.Comes start (earlier ++ more) left' q ∧
            Generator.Remembers earlier (earlier ++ more) p q := by
  refine (generateWithin_cases sound start unguarded).imp_right ?_
  rintro ⟨es, runs⟩
  refine ⟨es, runs, fun earlier more part => ?_⟩
  obtain ⟨left, p, before⟩ := runs.exists_comes ((List.prefix_append earlier more).trans part)
  obtain ⟨left', q, later⟩ := runs.exists_comes part
  exact ⟨left, p, left', q, before, later,
    remembers_of_hasFired before.hasFired_eq_any later.hasFired_eq_any⟩

end WeightedGrammar

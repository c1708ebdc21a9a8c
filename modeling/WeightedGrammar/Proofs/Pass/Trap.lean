import WeightedGrammar.Proofs.Grammar.References
import WeightedGrammar.Proofs.Pass.Ending

/-!
Rules that recursion never leaves. Where every item of some rules refers to one of them, and they
always choose an item, a pass that starts with one of them has one left to fire at every moment
(`Generator.Comes.trapped`). So it never ends with a result, and a guard always cuts it
(`Generator.depthExceeded_of_isTrap`).
-/

namespace WeightedGrammar
variable {ω σ : Type} [Scalar ω] [Supply σ ω]

/-- Rules of a grammar that lead to each other by whatever they choose, and that never choose
nothing. -/
structure Grammar.IsTrap (g : Grammar ω) (σ : Type) [Supply σ ω] (trap : Rule ω → Prop) :
    Prop where
  isRule : ∀ rule, trap rule → rule ∈ g.rules
  leads : ∀ rule, trap rule → ∀ item ∈ rule.items, ∃ name index next,
    .ref name index ∈ item.elements ∧ g.rules[index]? = some next ∧ trap next
  /-- Whatever has fired and whatever the supply gives, an item is chosen. -/
  chooses : ∀ rule, trap rule → ∀ p : Progress σ,
    ∃ place q, rule.chooseItem p = .ok (some place) q

/-- An unconditional rule whose chances are full always chooses an item. -/
theorem Rule.IsGated.exists_chooseItem_of_isFull {rule : Rule ω} (gated : rule.IsGated)
    (plain : rule.conditional = false) (full : Selection.isFull rule.chances = true)
    (p : Progress σ) : ∃ place q, rule.chooseItem p = .ok (some place) q := by
  obtain ⟨choice, q, chosen⟩ := gated.exists_chooseItem p
  obtain ⟨-, taken, chooses, -⟩ := chooseItem_eq_ok_iff.mp chosen
  obtain ⟨picks, -, -⟩ := (chooses_iff_of_some (ballot?_of_plain plain _)).mp chooses
  obtain ⟨place, -, picked⟩ := exists_pick_of_isFull full (Supply.draw p.supply).1
  rw [picked] at picks
  exact ⟨place, q, picks ▸ chosen⟩

/-! ### What is always left -/

section
variable {g : Grammar ω} {s : Settings} {trap : Rule ω → Prop} {agenda left : List (Task ω)}
  {es : List (Event ω)} {p q : Progress σ}

/-- A rule of the trap is left to fire. -/
def Trapped (trap : Rule ω → Prop) (agenda : List (Task ω)) : Prop :=
  ∃ depth rule, .fire depth rule ∈ agenda ∧ trap rule

omit [Scalar ω] in
theorem Trapped.of_subset {more : List (Task ω)} (h : Trapped trap agenda)
    (subset : agenda ⊆ more) : Trapped trap more := by
  obtain ⟨depth, rule, isTask, trapped⟩ := h
  exact ⟨depth, rule, subset isTask, trapped⟩

omit [Scalar ω] in
theorem mem_tasks_of_ref {depth : Nat} {rule : Rule ω} {name : String} {index : Nat}
    {elements : List Element} (member : .ref name index ∈ elements)
    (found : g.rules[index]? = some rule) : .fire depth rule ∈ g.tasks depth elements := by
  refine List.mem_flatMap.mpr ⟨_, member, ?_⟩
  simp [Grammar.elementTasks, found]

/-- A rule of the trap leaves another one to fire. -/
theorem Grammar.IsTrap.trapped_tasks (h : g.IsTrap σ trap) (sound : g.IsSound) {rule : Rule ω}
    (trapped : trap rule) {choice : Option Nat} (chosen : rule.chooseItem p = .ok choice q)
    (depth : Nat) : Trapped trap (g.tasks depth (rule.elementsOf choice)) := by
  obtain ⟨place, q', chooses⟩ := h.chooses rule trapped p
  rw [chosen] at chooses
  cases chooses
  have isSound := sound.rules rule (h.isRule rule trapped)
  have inside : place < rule.items.length := isSound.lt_of_chooseItem chosen place rfl
  obtain ⟨name, index, next, member, found, trappedNext⟩ :=
    h.leads rule trapped rule.items[place] (List.getElem_mem inside)
  have left : .ref name index ∈ rule.elementsOf (some place) := by
    simpa [Rule.elementsOf, Rule.chosen?, inside] using member
  exact ⟨depth, next, mem_tasks_of_ref left found, trappedNext⟩

theorem Proceeds.trapped (h : Proceeds g s agenda p es left q) (isTrap : g.IsTrap σ trap)
    (sound : g.IsSound) (trapped : Trapped trap agenda) : Trapped trap left := by
  -- Over the stretch: a task of the trap is either passed on or replaced by another one.
  induction h with
  | nil => exact trapped
  | emit _ ih =>
    obtain ⟨depth, rule, isTask, isTrapped⟩ := trapped
    rw [List.mem_cons, or_iff_right (by simp)] at isTask
    exact ih ⟨depth, rule, isTask, isTrapped⟩
  | fire chooses _ ih =>
    obtain ⟨depth, rule, isTask, isTrapped⟩ := trapped
    rcases List.mem_cons.mp isTask with first | later
    · cases first
      exact ih ((isTrap.trapped_tasks sound isTrapped chooses _).of_subset
        (List.subset_append_left ..))
    · exact ih ⟨depth, rule, List.mem_append_right _ later, isTrapped⟩

end

variable {gen : Generator σ ω} {start : List String} {es : List (Event ω)}
  {left : List (Task ω)} {q : Progress σ} {trap : Rule ω → Prop}

/-- At every moment of a pass that starts with a rule of the trap there is one left to fire. -/
theorem Generator.Comes.trapped (h : gen.Comes start es left q)
    (isTrap : gen.grammar.IsTrap σ trap) (sound : gen.grammar.IsSound) {rule : Rule ω}
    (trapped : trap rule) (isStart : rule.name ∈ start) : Trapped trap left := by
  obtain ⟨⟨rules, started, proceeds⟩, -⟩ := h
  refine proceeds.trapped isTrap sound ⟨0, rule, ?_, trapped⟩
  have found := Grammar.lookup?_eq_some_of_mem sound.distinct (isTrap.isRule rule trapped)
  have isRoot : some rule ∈ rules.map some := by
    rw [started, Grammar.starts, if_neg (by simp [List.ne_nil_of_mem isStart]), ← found]
    exact List.mem_map_of_mem isStart
  obtain ⟨root, isRoot, same⟩ := List.mem_map.mp isRoot
  cases same
  exact List.mem_map_of_mem isRoot

/-- A pass over a loaded grammar that starts with a rule of a trap never ends with a result, with or
without a guard, and fails at its guard if it has one. -/
theorem Generator.depthExceeded_of_isTrap {text name : String}
    (loaded : Grammar.ofText text name = .ok gen.grammar) (isTrap : gen.grammar.IsTrap σ trap)
    (defined : ∀ n ∈ start, n ∈ gen.grammar.names)
    (inside : ∃ rule, trap rule ∧ rule.name ∈ start) :
    (∀ record after, ¬gen.Ends start ⟨record, none⟩ after) ∧
      ∀ limit, gen.settings.maxDepth = some limit → ∃ rule, ∀ unguarded,
        (gen.generateWithin unguarded start).1.error = some (.depthExceeded rule limit) := by
  have sound : gen.grammar.IsSound := Grammar.isSound_of_ofText loaded
  obtain ⟨rule, trapped, isStart⟩ := inside
  have uncleared : ∀ es left q, gen.Comes start es left q → left ≠ [] := by
    rintro es left q comes rfl
    obtain ⟨_, _, isTask, -⟩ := comes.trapped isTrap sound trapped isStart
    exact List.not_mem_nil isTask
  constructor
  · intro record after ends
    obtain ⟨⟨es, comes⟩, -⟩ := (ends_ok_iff sound).mp ends
    exact uncleared es [] _ comes rfl
  · intro limit guarded
    obtain ⟨rules, started⟩ := exists_startRules (List.ne_nil_of_mem isStart) defined
    obtain ⟨es, left, q, comes, -, rests, comesOut⟩ := exists_runsThrough sound started 0
    rcases rests with cleared | ⟨cut, others, rfl⟩
    · exact absurd cleared (uncleared es left q comes)
    · refine ⟨cut.name, fun unguarded => ?_⟩
      rw [generateWithin_of_guarded guarded unguarded 0, comesOut]
      simp only [Settings.outcomeAt, Settings.cut, guarded]

/-- A clock that ticks on and on between two rules. What pauses it may stop at once. -/
def clockText : String :=
  "Tick \x7b %40 Pause Tock; Tock 'tick' \x7d\nTock \x7b Tick; Pause Tock \x7d\n" ++
    "Pause ? \x7b Tock 'rest' Pause \x7d"

def clock : Grammar Float := (Grammar.ofText clockText).toOption.getD ⟨[], ""⟩

theorem ofText_clockText : Grammar.ofText clockText = .ok clock :=
  eq_ok_getD_of_isOk (by decide +kernel) _

/-- The element refers to a rule of the clock that ticks. -/
def leadsOn : Element → Bool
  | .literal _ => false
  | .ref _ index => clock.rules[index]?.any (·.name != "Pause")

theorem isTrap_clock :
    clock.IsTrap (Cycle Float) fun rule => rule ∈ clock.rules ∧ rule.name ≠ "Pause" := by
  have sound := Grammar.isSound_of_ofText ofText_clockText
  have checked : clock.rules.all (fun rule => rule.name == "Pause" ||
      !rule.conditional && Selection.isFull rule.chances &&
        rule.items.all (·.elements.any leadsOn)) = true := by decide +kernel
  simp only [List.all_eq_true, Bool.or_eq_true, beq_iff_eq, Bool.and_eq_true,
    Bool.not_eq_true', List.any_eq_true] at checked
  constructor
  case isRule => exact fun rule ticks => ticks.1
  case leads =>
    rintro rule ⟨isRule, ticks⟩ item isItem
    obtain ⟨-, leads⟩ := (checked rule isRule).resolve_left ticks
    obtain ⟨element, isElement, leads⟩ := leads item isItem
    cases element with
    | literal text => cases leads
    | ref name index =>
      obtain ⟨next, found, nextTicks⟩ := (Option.any_eq_true ..).mp leads
      exact ⟨name, index, next, isElement, found, List.mem_of_getElem? found,
        bne_iff_ne.mp nextTicks⟩
  case chooses =>
    rintro rule ⟨isRule, ticks⟩ p
    obtain ⟨⟨plain, full⟩, -⟩ := (checked rule isRule).resolve_left ticks
    exact (sound.rules rule isRule).isGated.exists_chooseItem_of_isFull plain full p

/-- The clock under the guard that is set by default. -/
theorem Generator.depthExceeded_of_isTrap_clock :
    let gen : Generator (Cycle Float) Float := ⟨clock, ⟨#[0.25, 0.75], Nat.two_pos, 0⟩, {}⟩
    Grammar.ofText clockText = .ok gen.grammar ∧
      ∃ rule, ∀ unguarded, (gen.generateWithin unguarded ["Pause", "Tick"]).1.error =
        some (.depthExceeded rule 50) := by
  intro gen
  have defined : ∀ n ∈ ["Pause", "Tick"], n ∈ gen.grammar.names := by decide +kernel
  have inside : ∃ rule, (rule ∈ clock.rules ∧ rule.name ≠ "Pause") ∧
      rule.name ∈ ["Pause", "Tick"] := by
    have checked : clock.top?.any (·.name == "Tick") = true := by decide +kernel
    obtain ⟨tick, isTop, named⟩ := (Option.any_eq_true ..).mp checked
    rw [beq_iff_eq] at named
    exact ⟨tick, ⟨List.mem_of_head? isTop, by simp [named]⟩, by simp [named]⟩
  refine ⟨ofText_clockText, ?_⟩
  exact (gen.depthExceeded_of_isTrap ofText_clockText isTrap_clock defined inside).2 50 rfl

end WeightedGrammar

import WeightedGrammar.Proofs.Except
import WeightedGrammar.Proofs.Pass.Forest

/-!
A pass is a derivation. A pass is a row of events, firings and tokens; `Plays` plays them one after
the other. `fire_eq_ok_iff` relates the recursion over the grammar to the events of a forest,
`isDerivation_of_plays` reads the record off it, and `Generator.generates_iff` joins the two.
-/

namespace WeightedGrammar
variable {ω σ : Type}

/-! ### Steps of a pass -/

theorem PassM.bind_eq_ok_iff {α β : Type} {m : PassM σ α} {f : α → PassM σ β} {p q : Progress σ}
    {b : β} : (m >>= f) p = .ok b q ↔ ∃ a mid, m p = .ok a mid ∧ f a mid = .ok b q := by
  show EStateM.bind m f p = _ ↔ _
  unfold EStateM.bind
  cases m p with
  | error e r => simp
  | ok a r =>
    constructor
    · exact fun h => ⟨a, r, rfl, h⟩
    · rintro ⟨_, _, same, h⟩
      cases same
      exact h

theorem PassM.pure_eq_ok_iff {α : Type} {a b : α} {p q : Progress σ} :
    (pure a : PassM σ α) p = .ok b q ↔ a = b ∧ p = q := by
  show EStateM.pure a p = _ ↔ _
  simp [EStateM.pure]

theorem PassM.get_bind_eq_ok_iff {β : Type} {f : Progress σ → PassM σ β} {p q : Progress σ}
    {b : β} : (get >>= f) p = .ok b q ↔ f p p = .ok b q :=
  Iff.rfl

theorem PassM.update_eq_ok_iff {f : Record → Record} {p q : Progress σ} {u : Unit} :
    PassM.update f p = .ok u q ↔ q = { p with record := f p.record } := by
  show EStateM.Result.ok () _ = _ ↔ _
  simp [eq_comm]

theorem PassM.throw_ne_ok {α : Type} {e : PassError} {p q : Progress σ} {a : α} :
    (throw e : PassM σ α) p ≠ .ok a q := by
  intro h
  cases h

section Choice
variable [Scalar ω] [Supply σ ω]

theorem chooses_iff_of_none {rule : Rule ω} {hasFired : String → Bool} {supply after : σ}
    {choice : Option Nat} {taken : Nat} (idle : rule.ballot? hasFired = none) :
    rule.Chooses hasFired supply choice taken after ↔
      choice = none ∧ taken = 0 ∧ after = supply := by
  constructor
  · intro h
    cases h with
    | nothing => exact ⟨rfl, rfl, rfl⟩
    | drawn competing => exact absurd (idle.symm.trans competing) (by simp)
  · rintro ⟨rfl, rfl, rfl⟩
    exact .nothing idle

theorem chooses_iff_of_some {rule : Rule ω} {hasFired : String → Bool} {supply after : σ}
    {choice : Option Nat} {taken : Nat} {ballot : Ballot ω}
    (competing : rule.ballot? hasFired = some ballot) :
    rule.Chooses hasFired supply choice taken after ↔
      choice = ballot.pick (Supply.draw supply).1 ∧ taken = 1 ∧
        after = (Supply.draw supply).2 := by
  constructor
  · intro h
    cases h with
    | nothing idle => exact absurd (idle.symm.trans competing) (by simp)
    | drawn competing' =>
      obtain rfl := Option.some.inj (competing'.symm.trans competing)
      exact ⟨rfl, rfl, rfl⟩
  · rintro ⟨rfl, rfl, rfl⟩
    exact .drawn competing

theorem chooses_unique {rule : Rule ω} {hasFired : String → Bool} {supply after after' : σ}
    {choice choice' : Option Nat} {taken taken' : Nat}
    (h : rule.Chooses hasFired supply choice taken after)
    (h' : rule.Chooses hasFired supply choice' taken' after') :
    choice = choice' ∧ after = after' := by
  cases ballot : rule.ballot? hasFired with
  | none =>
    obtain ⟨rfl, -, rfl⟩ := (chooses_iff_of_none ballot).mp h
    obtain ⟨rfl, -, rfl⟩ := (chooses_iff_of_none ballot).mp h'
    exact ⟨rfl, rfl⟩
  | some b =>
    obtain ⟨rfl, -, rfl⟩ := (chooses_iff_of_some ballot).mp h
    obtain ⟨rfl, -, rfl⟩ := (chooses_iff_of_some ballot).mp h'
    exact ⟨rfl, rfl⟩

theorem chooseItem_eq_ok_iff {rule : Rule ω} {p q : Progress σ} {choice : Option Nat} :
    rule.chooseItem p = .ok choice q ↔
      rule.IsGated ∧ ∃ taken, rule.Chooses p.record.hasFired p.supply choice taken q.supply ∧
        q.record = { p.record with draws := p.record.draws + taken } := by
  have gated :
      rule.IsGated ↔ ¬(rule.conditional && rule.items.any (·.condition.isNone)) = true := by
    simp [Rule.IsGated, Option.isSome_iff_ne_none]
  obtain ⟨before, supply⟩ := p
  obtain ⟨record, after⟩ := q
  unfold Rule.chooseItem
  by_cases incomplete : (rule.conditional && rule.items.any (·.condition.isNone)) = true
  · rw [if_pos incomplete]
    constructor
    · intro h
      obtain ⟨_, _, thrown, -⟩ := PassM.bind_eq_ok_iff.mp h
      exact absurd thrown PassM.throw_ne_ok
    · rintro ⟨isGated, -⟩
      exact absurd incomplete (gated.mp isGated)
  · rw [if_neg incomplete]
    simp only [PassM.get_bind_eq_ok_iff]
    cases ballot : rule.ballot? before.hasFired with
    | none =>
      simp only [PassM.pure_eq_ok_iff, chooses_iff_of_none ballot, Progress.mk.injEq]
      constructor
      · rintro ⟨rfl, rfl, rfl⟩
        exact ⟨gated.mpr incomplete, 0, ⟨rfl, rfl, rfl⟩, rfl⟩
      · rintro ⟨-, _, ⟨rfl, rfl, rfl⟩, rfl⟩
        exact ⟨rfl, rfl, rfl⟩
    | some b =>
      simp only [chooses_iff_of_some ballot]
      show EStateM.Result.ok (b.pick (Supply.draw supply).1)
        (⟨before.countDraw, (Supply.draw supply).2⟩ : Progress σ) = _ ↔ _
      simp only [EStateM.Result.ok.injEq, Progress.mk.injEq]
      constructor
      · rintro ⟨rfl, rfl, rfl⟩
        exact ⟨gated.mpr incomplete, 1, ⟨rfl, rfl, rfl⟩, rfl⟩
      · rintro ⟨-, _, ⟨rfl, rfl, rfl⟩, rfl⟩
        exact ⟨rfl, rfl, rfl⟩

end Choice

/-! ### Firings -/

/-- The record after a firing, as far as its states. -/
def Record.enter (trace : Bool) (f : Firing ω) (r : Record) : Record :=
  let fired := r.fire f.rule.name f.choice
  let noted := if trace then fired.note (.fired f.depth f.rule.name f.choice) else fired
  let ruled := f.rule.states.foldl (Record.setState f.rule none) noted
  match f.rule.chosen? f.choice with
  | none => ruled
  | some item => item.states.foldl (Record.setState f.rule (some item)) ruled

theorem foldl_setState_rule (rule : Rule ω) (states : List StateExpr) (r : Record) :
    states.foldl (Record.setState rule none) r =
      { r with
        states := r.states.setAll (states.map fun s => (s.key, s.value.getD rule.name)) } := by
  induction states generalizing r with
  | nil => rfl
  | cons s states ih =>
    rw [List.foldl_cons, ih]
    cases value : s.value <;> simp [Record.setState, Record.assign, Register.setAll, value]

theorem setState_item (rule : Rule ω) (item : Item ω) (r : Record) (s : StateExpr) :
    Record.setState rule (some item) r s =
      match rule.stateValue? item s with
      | some value => r.assign s.key value
      | none => r.warn (rule.stateWarning s) := by
  unfold Record.setState Rule.stateValue? Rule.stateWarning
  cases s.value with
  | some value => rfl
  | none =>
    by_cases conditional : rule.conditional = true
    · simp [conditional]
    · cases implied : item.impliedValue? <;> simp [conditional, implied]

theorem foldl_setState_item (rule : Rule ω) (item : Item ω) (states : List StateExpr) (r : Record) :
    states.foldl (Record.setState rule (some item)) r =
      let kept := states.filterMap fun s => (rule.stateValue? item s).map (s.key, ·)
      let skipped := (states.filter fun s => (rule.stateValue? item s).isNone).map rule.stateWarning
      { r with
        states := r.states.setAll kept
        warnings := r.warnings ++ skipped.toArray
        notes := r.notes ++ (skipped.map .warned).toArray } := by
  induction states generalizing r with
  | nil => simp [Register.setAll]
  | cons s states ih =>
    rw [List.foldl_cons, ih, setState_item]
    cases value : rule.stateValue? item s with
    | some v => simp [Record.assign, Register.setAll, value]
    | none => simp [Record.warn, value]

theorem Record.enter_eq (trace : Bool) (f : Firing ω) (r : Record) :
    r.enter trace f =
      { r with
        fired := r.fired.set f.rule.name f.choice
        states := r.states.setAll f.assignments
        warnings := r.warnings ++ f.warnings.toArray
        notes := r.notes ++ (f.notes trace).toArray } := by
  unfold Record.enter
  dsimp only
  rw [foldl_setState_rule]
  cases chosen : f.rule.chosen? f.choice with
  | none =>
    cases trace <;> simp [Record.fire, Record.note, Firing.assignments, Firing.notes,
      Firing.warnings, Rule.ownAssignments, chosen]
  | some item =>
    dsimp only
    rw [foldl_setState_item]
    cases trace <;> simp [Record.fire, Record.note, Firing.assignments, Firing.notes,
      Firing.warnings, Rule.ownAssignments, Rule.itemAssignments, Rule.itemWarnings,
      Register.setAll_append, chosen]

theorem enter_eq_ok_iff [Scalar ω] [Supply σ ω] {rule : Rule ω} {s : Settings} {depth : Nat}
    {p q : Progress σ} {elements : List Element} :
    rule.enter s depth p = .ok elements q ↔
      ∃ choice mid, rule.chooseItem p = .ok choice mid ∧
        (∀ place ∈ choice, place < rule.items.length) ∧ elements = rule.elementsOf choice ∧
        q = ⟨mid.record.enter s.trace ⟨depth, rule, choice⟩, mid.supply⟩ := by
  unfold Rule.enter
  rw [PassM.bind_eq_ok_iff]
  refine exists_congr fun choice => exists_congr fun mid => and_congr_right fun _ => ?_
  unfold Record.enter Rule.elementsOf Rule.chosen?
  cases choice with
  | none =>
    cases trace : s.trace <;>
      · show EStateM.Result.ok [] _ = _ ↔ _
        simp [eq_comm]
  | some place =>
    cases trace : s.trace <;>
      · show (match rule.items[place]? with
          | none => throw (.illFormed rule.name (.noItem place))
          | some item => do
            PassM.setStates rule (some item) item.states
            return item.elements : PassM σ (List Element)) ⟨_, mid.supply⟩ = _ ↔ _
        cases found : rule.items[place]? with
        | none =>
          have outside : ¬place < rule.items.length := by simpa using found
          simp [PassM.throw_ne_ok, outside]
        | some item =>
          obtain ⟨inside, rfl⟩ := List.getElem?_eq_some_iff.mp found
          show EStateM.Result.ok _ _ = _ ↔ _
          simp [inside, eq_comm]

/-! ### Events -/

inductive Event (ω : Type) where
  | firing (f : Firing ω)
  | token (text : String)

def Event.token? : Event ω → Option String
  | token text => some text
  | firing _ => none

def Event.firing? : Event ω → Option (Firing ω)
  | token _ => none
  | firing f => some f

@[simp] theorem Event.token?_token (text : String) (es : List (Event ω)) :
    (token text :: es).filterMap token? = text :: es.filterMap token? := rfl

@[simp] theorem Event.token?_firing (f : Firing ω) (es : List (Event ω)) :
    (firing f :: es).filterMap token? = es.filterMap token? := rfl

@[simp] theorem Event.firing?_token (text : String) (es : List (Event ω)) :
    (token text :: es).filterMap firing? = es.filterMap firing? := rfl

@[simp] theorem Event.firing?_firing (f : Firing ω) (es : List (Event ω)) :
    (firing f :: es).filterMap firing? = f :: es.filterMap firing? := rfl

/-- The events below each root, the roots being at the given depth. -/
def Forest.events : Nat → Forest ω → List (List (Event ω))
  | _, nil => []
  | depth, tree rule choice children siblings =>
    (.firing ⟨depth, rule, choice⟩ ::
        weave .token (rule.elementsOf choice) (children.events (depth + 1))) ::
      siblings.events depth

section Play
variable [Scalar ω] [Supply σ ω]

/-- The events take the pass from one state to another. -/
inductive Plays (s : Settings) : Progress σ → List (Event ω) → Progress σ → Prop where
  | nil (p : Progress σ) : Plays s p [] p
  | token {p q : Progress σ} {text : String} {es : List (Event ω)}
      (rest : Plays s { p with record := p.record.emit text } es q) :
      Plays s p (.token text :: es) q
  | firing {p mid q : Progress σ} {f : Firing ω} {es : List (Event ω)}
      (chooses : f.rule.chooseItem p = .ok f.choice mid)
      (rest : Plays s ⟨mid.record.enter s.trace f, mid.supply⟩ es q) :
      Plays s p (.firing f :: es) q

theorem plays_nil_iff {s : Settings} {p q : Progress σ} :
    Plays s p ([] : List (Event ω)) q ↔ q = p := by
  constructor
  · intro h
    cases h
    rfl
  · rintro rfl
    exact .nil q

theorem plays_append_iff {s : Settings} {p q : Progress σ} {xs ys : List (Event ω)} :
    Plays s p (xs ++ ys) q ↔ ∃ mid, Plays s p xs mid ∧ Plays s mid ys q := by
  induction xs generalizing p with
  | nil => simp [plays_nil_iff]
  | cons e xs ih =>
    constructor
    · intro h
      cases h with
      | token rest =>
        obtain ⟨mid, first, second⟩ := ih.mp rest
        exact ⟨mid, .token first, second⟩
      | firing chooses rest =>
        obtain ⟨mid, first, second⟩ := ih.mp rest
        exact ⟨mid, .firing chooses first, second⟩
    · rintro ⟨mid, first, second⟩
      cases first with
      | token rest => exact .token (ih.mpr ⟨mid, rest, second⟩)
      | firing chooses rest => exact .firing chooses (ih.mpr ⟨mid, rest, second⟩)

/-! ### Growing a forest -/

/-- The forest has the rules at its roots, and follows the grammar down to so many levels. -/
structure Forest.Fits (g : Grammar ω) (room : Nat) (rules : List (Option (Rule ω)))
    (forest : Forest ω) : Prop where
  roots : forest.roots.map some = rules
  shaped : forest.IsShaped g
  bounded : forest.height ≤ room

/-- The rules grow into a forest whose events take the pass from one state to another. -/
def Grows (g : Grammar ω) (s : Settings) (room depth : Nat) (rules : List (Rule ω))
    (p q : Progress σ) : Prop :=
  ∃ forest : Forest ω, forest.Fits g room (rules.map some) ∧
    Plays s p (forest.events depth).flatten q

/-- The rules among the elements grow into a forest whose events, with the literals in between,
take the pass from one state to another. -/
def Expands (g : Grammar ω) (s : Settings) (room depth : Nat) (elements : List Element)
    (p q : Progress σ) : Prop :=
  ∃ forest : Forest ω, forest.Fits g room (g.referred elements) ∧
    Plays s p (weave .token elements (forest.events depth)) q

variable {g : Grammar ω} {s : Settings} {room depth : Nat} {p q : Progress σ}

omit [Scalar ω] [Supply σ ω] in
theorem fits_nil_iff {forest : Forest ω} : forest.Fits g room [] ↔ forest = .nil := by
  constructor
  · intro fits
    cases forest with
    | nil => rfl
    | tree => cases fits.roots
  · rintro rfl
    exact ⟨rfl, trivial, Nat.zero_le _⟩

omit [Scalar ω] [Supply σ ω] in
theorem fits_singleton_iff {rule : Option (Rule ω)} {forest : Forest ω} :
    forest.Fits g (room + 1) [rule] ↔
      ∃ root choice children, forest = .tree root choice children .nil ∧ rule = some root ∧
        (∀ place ∈ choice, place < root.items.length) ∧
        children.Fits g room (g.referred (root.elementsOf choice)) := by
  constructor
  · rintro ⟨roots, shaped, bounded⟩
    cases forest with
    | nil => cases roots
    | tree root choice children siblings =>
      obtain ⟨rfl, noMore⟩ := List.cons.inj roots
      obtain ⟨inRange, referred, shapedChildren, -⟩ := shaped
      have shorter := (Nat.max_le.mp bounded).1
      cases siblings with
      | tree => cases noMore
      | nil => exact ⟨root, choice, children, rfl, rfl, inRange, referred, shapedChildren, by omega⟩
  · rintro ⟨root, choice, children, rfl, rfl, inRange, referred, shaped, bounded⟩
    exact ⟨rfl, ⟨inRange, referred, shaped, trivial⟩, Nat.max_le.mpr ⟨by omega, Nat.zero_le _⟩⟩

omit [Scalar ω] [Supply σ ω] in
theorem exists_fits_cons_iff {rule : Option (Rule ω)} {rules : List (Option (Rule ω))}
    (meets : List (List (Event ω)) → Prop) :
    (∃ forest : Forest ω, forest.Fits g room (rule :: rules) ∧ meets (forest.events depth)) ↔
      ∃ first others : Forest ω, first.Fits g room [rule] ∧ others.Fits g room rules ∧
        meets ((first.events depth).flatten :: others.events depth) := by
  constructor
  · rintro ⟨forest, ⟨roots, shaped, bounded⟩, met⟩
    cases forest with
    | nil => cases roots
    | tree root choice children siblings =>
      obtain ⟨rfl, rfl⟩ := List.cons.inj roots
      obtain ⟨inRange, referred, shapedChildren, shapedSiblings⟩ := shaped
      obtain ⟨boundedChildren, boundedSiblings⟩ := Nat.max_le.mp bounded
      refine ⟨.tree root choice children .nil, siblings,
        ⟨rfl, ⟨inRange, referred, shapedChildren, trivial⟩,
          Nat.max_le.mpr ⟨boundedChildren, Nat.zero_le _⟩⟩,
        ⟨rfl, shapedSiblings, boundedSiblings⟩, ?_⟩
      simpa [Forest.events] using met
  · rintro ⟨first, siblings, ⟨roots, shaped, bounded⟩, ⟨rfl, shapedSiblings, boundedSiblings⟩, met⟩
    cases first with
    | nil => cases roots
    | tree root choice children none =>
      obtain ⟨rfl, noMore⟩ := List.cons.inj roots
      obtain ⟨inRange, referred, shapedChildren, -⟩ := shaped
      have boundedChildren := (Nat.max_le.mp bounded).1
      cases none with
      | tree => cases noMore
      | nil =>
        refine ⟨.tree root choice children siblings,
          ⟨rfl, ⟨inRange, referred, shapedChildren, shapedSiblings⟩,
            Nat.max_le.mpr ⟨boundedChildren, boundedSiblings⟩⟩, ?_⟩
        simpa [Forest.events] using met

theorem grows_nil_iff : Grows g s room depth [] p q ↔ q = p := by
  simp [Grows, fits_nil_iff, Forest.events, plays_nil_iff]

theorem grows_cons_iff {rule : Rule ω} {rules : List (Rule ω)} :
    Grows g s room depth (rule :: rules) p q ↔
      ∃ mid, Grows g s room depth [rule] p mid ∧ Grows g s room depth rules mid q := by
  refine (exists_fits_cons_iff fun events => Plays s p events.flatten q).trans ?_
  simp only [List.flatten_cons, plays_append_iff]
  constructor
  · rintro ⟨first, others, fitsFirst, fitsOthers, mid, playsFirst, playsOthers⟩
    exact ⟨mid, ⟨first, fitsFirst, playsFirst⟩, others, fitsOthers, playsOthers⟩
  · rintro ⟨mid, ⟨first, fitsFirst, playsFirst⟩, others, fitsOthers, playsOthers⟩
    exact ⟨first, others, fitsFirst, fitsOthers, mid, playsFirst, playsOthers⟩

theorem not_grows_zero {rule : Rule ω} : ¬Grows g s 0 depth [rule] p q := by
  rintro ⟨forest, ⟨roots, -, bounded⟩, -⟩
  cases forest with
  | nil => cases roots
  | tree rule choice children siblings =>
    have := (Nat.max_le.mp bounded).1
    omega

theorem grows_succ_iff {rule : Rule ω} :
    Grows g s (room + 1) depth [rule] p q ↔
      ∃ elements mid, rule.enter s depth p = .ok elements mid ∧
        Expands g s room (depth + 1) elements mid q := by
  constructor
  · rintro ⟨forest, fits, plays⟩
    obtain ⟨root, choice, children, rfl, same, inRange, fits⟩ := fits_singleton_iff.mp fits
    obtain rfl := Option.some.inj same
    simp only [Forest.events, List.flatten_cons, List.flatten_nil, List.append_nil] at plays
    cases plays with
    | firing chooses rest =>
      exact ⟨_, _, enter_eq_ok_iff.mpr ⟨choice, _, chooses, inRange, rfl, rfl⟩, children, fits,
        rest⟩
  · rintro ⟨elements, mid, entered, children, fits, plays⟩
    obtain ⟨choice, chosen, chooses, inRange, rfl, rfl⟩ := enter_eq_ok_iff.mp entered
    refine ⟨_, fits_singleton_iff.mpr ⟨rule, choice, children, rfl, rfl, inRange, fits⟩, ?_⟩
    simp only [Forest.events, List.flatten_cons, List.flatten_nil, List.append_nil]
    exact .firing chooses plays

theorem expands_nil_iff : Expands g s room depth [] p q ↔ q = p := by
  simp [Expands, Grammar.referred, fits_nil_iff, weave, plays_nil_iff]

theorem expands_literal_iff {text : String} {es : List Element} :
    Expands g s room depth (.literal text :: es) p q ↔
      Expands g s room depth es { p with record := p.record.emit text } q := by
  refine exists_congr fun forest => and_congr_right fun _ => ?_
  rw [weave]
  constructor
  · intro h
    cases h with
    | token rest => exact rest
  · exact .token

theorem expands_ref_iff {name : String} {index : Nat} {es : List Element} :
    Expands g s room depth (.ref name index :: es) p q ↔
      ∃ rule mid, g.rules[index]? = some rule ∧ Grows g s room depth [rule] p mid ∧
        Expands g s room depth es mid q := by
  refine (exists_fits_cons_iff fun events =>
    Plays s p (weave .token (.ref name index :: es) events) q).trans ?_
  simp only [weave, plays_append_iff]
  constructor
  · rintro ⟨first, others, fitsFirst, fitsOthers, mid, playsFirst, playsOthers⟩
    obtain ⟨rule, root⟩ : ∃ rule, g.rules[index]? = some rule := by
      have roots := fitsFirst.roots
      cases first with
      | nil => cases roots
      | tree root => exact ⟨root, (List.cons.inj roots).1.symm⟩
    rw [root] at fitsFirst
    exact ⟨rule, mid, root, ⟨first, fitsFirst, playsFirst⟩, others, fitsOthers, playsOthers⟩
  · rintro ⟨rule, mid, root, ⟨first, fitsFirst, playsFirst⟩, others, fitsOthers, playsOthers⟩
    refine ⟨first, others, ?_, fitsOthers, mid, playsFirst, playsOthers⟩
    rw [root]
    exact fitsFirst

/-! ### The recursion over the grammar -/

omit [Scalar ω] [Supply σ ω] in
theorem expand_ref_eq_ok_iff {fire : Rule ω → PassM σ Unit} {name : String} {index : Nat} :
    g.expand fire (.ref name index) p = .ok () q ↔
      ∃ rule, g.rules[index]? = some rule ∧ fire rule p = .ok () q := by
  cases root : g.rules[index]? with
  | none => simp [Grammar.expand, root, PassM.throw_ne_ok]
  | some rule => simp [Grammar.expand, root]

theorem expand_forM_eq_ok_iff
    (one : ∀ {rule : Rule ω} {p q : Progress σ},
      g.fire s room depth rule p = .ok () q ↔ Grows g s room depth [rule] p q)
    {elements : List Element} :
    elements.forM (g.expand (g.fire s room depth)) p = .ok () q ↔
      Expands g s room depth elements p q := by
  induction elements generalizing p with
  | nil =>
    rw [expands_nil_iff]
    exact PassM.pure_eq_ok_iff.trans (by simp [eq_comm])
  | cons e es ih =>
    rw [List.forM_eq_forM, List.forM_cons, PassM.bind_eq_ok_iff, ← List.forM_eq_forM]
    cases e with
    | literal text =>
      rw [expands_literal_iff, ← ih]
      constructor
      · rintro ⟨⟨⟩, mid, emitted, rest⟩
        have emits : PassM.update (·.emit text) p = .ok () mid := emitted
        rw [PassM.update_eq_ok_iff] at emits
        exact emits ▸ rest
      · intro rest
        exact ⟨(), _, rfl, rest⟩
    | ref name index =>
      rw [expands_ref_iff]
      constructor
      · rintro ⟨⟨⟩, mid, expanded, rest⟩
        obtain ⟨rule, root, fired⟩ := expand_ref_eq_ok_iff.mp expanded
        exact ⟨rule, mid, root, one.mp fired, ih.mp rest⟩
      · rintro ⟨rule, mid, root, grows, rest⟩
        exact ⟨(), mid, expand_ref_eq_ok_iff.mpr ⟨rule, root, one.mpr grows⟩, ih.mpr rest⟩

/-- A rule fires exactly by growing into a tree. -/
theorem fire_eq_ok_iff {rule : Rule ω} :
    g.fire s room depth rule p = .ok () q ↔ Grows g s room depth [rule] p q := by
  -- The elements of the item fire with one level less, where the equivalence is known.
  induction room generalizing depth rule p q with
  | zero =>
    constructor
    · intro h
      exact absurd h PassM.throw_ne_ok
    · intro h
      exact absurd h not_grows_zero
  | succ room ih =>
    rw [Grammar.fire, PassM.bind_eq_ok_iff, grows_succ_iff]
    refine exists_congr fun elements => exists_congr fun mid => and_congr_right fun _ => ?_
    exact expand_forM_eq_ok_iff ih

theorem fire_forM_eq_ok_iff {rules : List (Rule ω)} :
    rules.forM (g.fire s room depth) p = .ok () q ↔ Grows g s room depth rules p q := by
  induction rules generalizing p with
  | nil =>
    rw [grows_nil_iff]
    exact PassM.pure_eq_ok_iff.trans (by simp [eq_comm])
  | cons rule rules ih =>
    rw [List.forM_eq_forM, List.forM_cons, PassM.bind_eq_ok_iff, ← List.forM_eq_forM,
      grows_cons_iff]
    constructor
    · rintro ⟨⟨⟩, mid, fired, rest⟩
      exact ⟨mid, fire_eq_ok_iff.mp fired, ih.mp rest⟩
    · rintro ⟨mid, grows, rest⟩
      exact ⟨(), mid, fire_eq_ok_iff.mpr grows, ih.mpr rest⟩

omit [Scalar ω] in
theorem lookup_mapM_eq_ok_iff {start : List String} {rules : List (Rule ω)} :
    start.mapM (fun name => match g.lookup? name with
        | some rule => Except.ok rule
        | none => .error (PassError.unknownStart name)) = .ok rules ↔
      rules.map some = start.map g.lookup? := by
  induction start generalizing rules with
  | nil => cases rules <;> simp [pure, Except.pure]
  | cons name start ih =>
    rw [List.mapM_cons, List.map_cons]
    cases found : g.lookup? name with
    | none => cases rules <;> simp [bind, Except.bind]
    | some rule =>
      simp only [bind_eq_ok_iff, ih, Except.ok.injEq, pure, Except.pure]
      constructor
      · rintro ⟨_, rfl, rest, same, rfl⟩
        rw [List.map_cons, same]
      · intro same
        cases rules with
        | nil => cases same
        | cons first rest =>
          obtain ⟨isFirst, isRest⟩ := List.cons.inj same
          exact ⟨first, (Option.some.inj isFirst).symm, rest, isRest, rfl⟩

omit [Scalar ω] in
theorem startRules_eq_ok_iff {start : List String} {rules : List (Rule ω)} :
    g.startRules start = .ok rules ↔ rules.map some = g.starts start := by
  unfold Grammar.startRules Grammar.starts
  split
  · cases g.top? with
    | none => cases rules <;> simp
    | some rule =>
      rw [Except.ok.injEq, show [some rule] = [rule].map some from rfl,
        List.map_inj_right fun _ _ => Option.some.inj]
      exact eq_comm
  · exact lookup_mapM_eq_ok_iff

/-- A pass plays the events of a forest over its start rules. -/
theorem run_eq_ok_iff {start : List String} :
    g.run s room start p = .ok () q ↔
      ∃ forest : Forest ω, forest.Fits g room (g.starts start) ∧
        Plays s p (forest.events 0).flatten q := by
  unfold Grammar.run
  rw [PassM.bind_eq_ok_iff]
  cases started : g.startRules start with
  | error e =>
    constructor
    · rintro ⟨rules, mid, thrown, -⟩
      exact absurd thrown PassM.throw_ne_ok
    · rintro ⟨forest, fits, -⟩
      rw [startRules_eq_ok_iff.mpr fits.roots] at started
      cases started
  | ok rules =>
    have roots := startRules_eq_ok_iff.mp started
    constructor
    · rintro ⟨_, _, same, fired⟩
      obtain ⟨rfl, rfl⟩ := PassM.pure_eq_ok_iff.mp same
      obtain ⟨forest, fits, plays⟩ := fire_forM_eq_ok_iff.mp fired
      exact ⟨forest, roots ▸ fits, plays⟩
    · rintro ⟨forest, fits, plays⟩
      exact ⟨rules, p, rfl, fire_forM_eq_ok_iff.mpr ⟨forest, roots ▸ fits, plays⟩⟩

/-! ### Reading events -/

omit [Scalar ω] [Supply σ ω] in
theorem token?_weave (es : List Element) (ys : List (List (Event ω))) :
    (weave .token es ys).filterMap Event.token? =
      weave id es (ys.map (·.filterMap Event.token?)) := by
  induction es generalizing ys with
  | nil => simp [weave]
  | cons e es ih =>
    cases e with
    | literal text => simp [weave, ih]
    | ref name index => cases ys <;> simp [weave, ih]

omit [Scalar ω] [Supply σ ω] in
theorem firing?_weave (g : Grammar ω) {es : List Element} {ys : List (List (Event ω))}
    (paired : ys.length = (g.referred es).length) :
    (weave .token es ys).filterMap Event.firing? = ys.flatten.filterMap Event.firing? := by
  induction es generalizing ys with
  | nil =>
    obtain rfl := List.eq_nil_of_length_eq_zero paired
    simp [weave]
  | cons e es ih =>
    cases e with
    | literal text =>
      rw [weave, Event.firing?_token]
      exact ih paired
    | ref name index =>
      cases ys with
      | nil => simp [Grammar.referred] at paired
      | cons y ys =>
        have pairedRest : ys.length = (g.referred es).length := by
          simpa [Grammar.referred] using paired
        simp [weave, ih pairedRest]

omit [Scalar ω] [Supply σ ω] in
theorem Forest.length_events (depth : Nat) (forest : Forest ω) :
    (forest.events depth).length = forest.roots.length := by
  induction forest generalizing depth with
  | nil => rfl
  | tree rule choice children siblings _ ih => simp [events, roots, ih]

omit [Scalar ω] [Supply σ ω] in
theorem Forest.token?_events (depth : Nat) (forest : Forest ω) :
    (forest.events depth).map (·.filterMap Event.token?) = forest.yields := by
  induction forest generalizing depth with
  | nil => rfl
  | tree rule choice children siblings ihChildren ihSiblings =>
    simp [events, yields, token?_weave, ihChildren, ihSiblings]

omit [Scalar ω] [Supply σ ω] in
theorem Forest.firing?_events (depth : Nat) {forest : Forest ω} (shaped : forest.IsShaped g) :
    (forest.events depth).flatten.filterMap Event.firing? = forest.firings depth := by
  induction forest generalizing depth with
  | nil => rfl
  | tree rule choice children siblings ihChildren ihSiblings =>
    obtain ⟨-, referred, shapedChildren, shapedSiblings⟩ := shaped
    have paired : (children.events (depth + 1)).length =
        (g.referred (rule.elementsOf choice)).length := by
      rw [length_events, ← referred, List.length_map]
    rw [events, firings, List.flatten_cons, List.filterMap_append, ihSiblings depth shapedSiblings,
      Event.firing?_firing, firing?_weave g paired, ihChildren (depth + 1) shapedChildren,
      List.cons_append]

theorem Plays.record_eq {es : List (Event ω)} (h : Plays s p es q) :
    let firings := es.filterMap Event.firing?
    q.record.tokens = p.record.tokens ++ (es.filterMap Event.token?).toArray ∧
      q.record.fired = p.record.fired.setAll (firings.map (·.write)) ∧
      q.record.states = p.record.states.setAll (firings.flatMap (·.assignments)) ∧
      q.record.warnings = p.record.warnings ++ (firings.flatMap (·.warnings)).toArray ∧
      q.record.notes = p.record.notes ++ (firings.flatMap (·.notes s.trace)).toArray := by
  induction h with
  | nil p => simp [Register.setAll]
  | token rest ih =>
    simpa [Record.emit] using ih
  | @firing p mid q f es chooses rest ih =>
    obtain ⟨-, taken, -, same⟩ := chooseItem_eq_ok_iff.mp chooses
    simp only [Record.enter_eq, same] at ih
    simpa [Register.setAll, Firing.write] using ih

theorem hasFired_nothing (n : String) :
    ({} : Record).hasFired n = ([] : List String).contains n :=
  rfl

theorem hasFired_set {r : Register (Option Nat)} {earlier : List String} {name : String}
    {choice : Option Nat} (same : ∀ n, r.contains n = earlier.contains n) (n : String) :
    (r.set name choice).contains n = (earlier ++ [name]).contains n := by
  rw [Register.contains_set, same, List.contains_append, Bool.or_comm, List.contains_cons,
    List.contains_nil, Bool.or_false, BEq.comm]

/-- A rule counts as fired once it has chosen. -/
theorem hasFired_enter {f : Firing ω} {mid : Progress σ}
    (chooses : f.rule.chooseItem p = .ok f.choice mid) {earlier : List String}
    (same : ∀ n, p.record.hasFired n = earlier.contains n) (trace : Bool) (n : String) :
    (mid.record.enter trace f).hasFired n = (earlier ++ [f.rule.name]).contains n := by
  obtain ⟨-, taken, -, record⟩ := chooseItem_eq_ok_iff.mp chooses
  rw [Record.enter_eq, record]
  exact hasFired_set same n

/-- The firings that are played are chosen one after the other. -/
theorem Plays.chosen {es : List (Event ω)} (h : Plays s p es q) {earlier : List String}
    (same : ∀ n, p.record.hasFired n = earlier.contains n) :
    ∃ taken, q.record.draws = p.record.draws + taken ∧
      Chosen earlier p.supply (es.filterMap Event.firing?) taken q.supply := by
  induction h generalizing earlier with
  | nil p => exact ⟨0, rfl, .nil earlier p.supply⟩
  | token rest ih => exact ih same
  | @firing p mid q f es chooses rest ih =>
    obtain ⟨gated, taken, choice, record⟩ := chooseItem_eq_ok_iff.mp chooses
    obtain ⟨more, draws, chosen⟩ := ih (hasFired_enter chooses same s.trace)
    refine ⟨taken + more, ?_, ?_⟩
    · rw [draws, Record.enter_eq, record]
      exact Nat.add_assoc ..
    · rw [Event.firing?_firing]
      exact .cons gated (funext same ▸ choice) chosen

/-- Firings that are chosen one after the other can be played, with tokens anywhere between. -/
theorem plays_of_chosen {es : List (Event ω)} {earlier : List String} {taken : Nat} {after : σ}
    (h : Chosen earlier p.supply (es.filterMap Event.firing?) taken after)
    (same : ∀ n, p.record.hasFired n = earlier.contains n) :
    ∃ q, Plays s p es q ∧ q.supply = after ∧ q.record.draws = p.record.draws + taken := by
  -- Over the events, since `Chosen` does not say where the tokens stand.
  induction es generalizing p earlier taken with
  | nil =>
    cases h
    exact ⟨p, .nil p, rfl, rfl⟩
  | cons e es ih =>
    cases e with
    | token text =>
      obtain ⟨q, plays, supply⟩ := ih (p := { p with record := p.record.emit text }) h same
      exact ⟨q, .token plays, supply⟩
    | firing f =>
      rw [Event.firing?_firing] at h
      cases h with
      | @cons _ _ mid _ _ _ taken more gated choice rest =>
        let chosen : Progress σ := ⟨{ p.record with draws := p.record.draws + taken }, mid⟩
        have chooses : f.rule.chooseItem p = .ok f.choice chosen :=
          chooseItem_eq_ok_iff.mpr ⟨gated, taken, funext same ▸ choice, rfl⟩
        obtain ⟨q, plays, supply, draws⟩ :=
          ih (p := ⟨chosen.record.enter s.trace f, mid⟩) rest
            (hasFired_enter chooses same s.trace)
        refine ⟨q, .firing chooses plays, supply, ?_⟩
        rw [draws, Record.enter_eq]
        exact Nat.add_assoc ..

omit [Scalar ω] [Supply σ ω] in
theorem map_some_inj {rules rules' : List (Rule ω)} (h : rules.map some = rules'.map some) :
    rules = rules' :=
  (List.map_inj_right fun _ _ => Option.some.inj).mp h

/-- Choices made one after the other leave one forest for the rules at the roots. The firings behind
the forests are part of the statement: those of the siblings stand behind the children. -/
theorem forest_unique {forest forest' : Forest ω} (shaped : forest.IsShaped g)
    (shaped' : forest'.IsShaped g) (roots : forest.roots = forest'.roots) {earlier : List String}
    {supply after after' : σ} {rest rest' : List (Firing ω)} {taken taken' : Nat}
    (h : Chosen earlier supply (forest.firings depth ++ rest) taken after)
    (h' : Chosen earlier supply (forest'.firings depth ++ rest') taken' after') :
    forest = forest' ∧ ∃ earlier mid more more',
      Chosen earlier mid rest more after ∧ Chosen earlier mid rest' more' after' := by
  induction forest generalizing forest' depth earlier supply rest rest' taken taken' with
  | nil =>
    cases forest' with
    | nil => exact ⟨rfl, earlier, supply, taken, taken', h, h'⟩
    | tree => cases roots
  | tree rule choice children siblings ihChildren ihSiblings =>
    cases forest' with
    | nil => cases roots
    | tree rule' choice' children' siblings' =>
      obtain ⟨rfl, sameRoots⟩ := List.cons.inj roots
      obtain ⟨-, referred, shapedChildren, shapedSiblings⟩ := shaped
      obtain ⟨-, referred', shapedChildren', shapedSiblings'⟩ := shaped'
      rw [Forest.firings, List.cons_append, List.append_assoc] at h h'
      cases h with
      | cons _ chooses chosen =>
        cases h' with
        | cons _ chooses' chosen' =>
          obtain ⟨sameChoice, rfl⟩ := chooses_unique chooses chooses'
          obtain rfl : choice = choice' := sameChoice
          have sameChildren : children.roots = children'.roots :=
            map_some_inj (referred.trans referred'.symm)
          obtain ⟨rfl, _, _, _, _, chosen, chosen'⟩ :=
            ihChildren shapedChildren shapedChildren' sameChildren chosen chosen'
          obtain ⟨rfl, remaining⟩ :=
            ihSiblings shapedSiblings shapedSiblings' sameRoots chosen chosen'
          exact ⟨rfl, remaining⟩

end Play

/-! ### Passes -/

variable [Scalar ω] [Supply σ ω]

/-- The pass ends with the outcome, whatever room beyond some bound it is given. -/
def Generator.Ends (gen : Generator σ ω) (start : List String) (outcome : Outcome)
    (after : Generator σ ω) : Prop :=
  ∃ enough, ∀ unguarded, enough ≤ unguarded →
    gen.generateWithin unguarded start = (outcome, after)

variable {gen after : Generator σ ω} {start : List String} {record : Record} {unguarded : Nat}
  {forest forest' : Forest ω}

theorem generateWithin_eq_ok_iff :
    gen.generateWithin unguarded start = (⟨record, none⟩, after) ↔
      gen.grammar.run gen.settings (gen.settings.room unguarded) start ⟨{}, gen.supply⟩ =
          .ok () ⟨record, after.supply⟩ ∧
        after = { gen with supply := after.supply } := by
  unfold Generator.generateWithin EStateM.run
  cases gen.grammar.run gen.settings (gen.settings.room unguarded) start ⟨{}, gen.supply⟩ with
  | error e p => simp
  | ok u p =>
    obtain ⟨record', supply⟩ := p
    constructor
    · intro h
      simp only [Prod.mk.injEq, Outcome.mk.injEq, and_true] at h
      obtain ⟨rfl, rfl⟩ := h
      exact ⟨rfl, rfl⟩
    · rintro ⟨same, unchanged⟩
      simp only [EStateM.Result.ok.injEq, Progress.mk.injEq, true_and] at same
      obtain ⟨rfl, rfl⟩ := same
      rw [unchanged]

theorem isDerivation_of_plays
    (fits : forest.Fits gen.grammar (gen.settings.room unguarded) (gen.grammar.starts start))
    (plays : Plays gen.settings ⟨{}, gen.supply⟩ (forest.events 0).flatten ⟨record, after.supply⟩)
    (unchanged : after = { gen with supply := after.supply }) :
    gen.IsDerivation start forest record after := by
  obtain ⟨taken, draws, chosen⟩ := plays.chosen hasFired_nothing
  have record_eq := plays.record_eq
  simp only [forest.firing?_events 0 fits.shaped, List.filterMap_flatten,
    forest.token?_events] at chosen record_eq
  obtain ⟨tokens, fired, states, warnings, notes⟩ := record_eq
  have allDraws : record.draws = taken := draws.trans (Nat.zero_add taken)
  have permitted := (Settings.height_le_room_iff.mp fits.bounded).1
  refine ⟨fits.roots, fits.shaped, permitted, allDraws ▸ chosen, ?_, fired, states, ?_, ?_,
    unchanged⟩
  · simp [tokens]
  · simp [warnings]
  · simp [notes]

theorem plays_of_isDerivation (h : gen.IsDerivation start forest record after) :
    Plays gen.settings ⟨{}, gen.supply⟩ (forest.events 0).flatten ⟨record, after.supply⟩ := by
  have chosen := h.chosen
  rw [← forest.firing?_events 0 h.shaped] at chosen
  obtain ⟨q, plays, supply, draws⟩ :=
    plays_of_chosen (s := gen.settings) (p := ⟨{}, gen.supply⟩) chosen hasFired_nothing
  have record_eq := plays.record_eq
  simp only [forest.firing?_events 0 h.shaped, List.filterMap_flatten,
    forest.token?_events] at record_eq
  obtain ⟨tokens, fired, states, warnings, notes⟩ := record_eq
  obtain ⟨⟨tokens', states', fired', warnings', notes', draws'⟩, supply'⟩ := q
  have same : Record.mk tokens' states' fired' warnings' notes' draws' = record := by
    obtain ⟨_, _, _, _, _, _⟩ := record
    obtain ⟨-, -, -, -, hTokens, hFired, hStates, hWarnings, hNotes, -⟩ := h
    dsimp only at *
    rw [Record.mk.injEq]
    refine ⟨?_, states.trans hStates.symm, fired.trans hFired.symm, ?_, ?_,
      draws.trans (Nat.zero_add _)⟩
    · rw [tokens, ← hTokens]
      simp
    · rw [warnings, ← hWarnings]
      simp
    · rw [notes, ← hNotes]
      simp
  rw [← same, ← show supply' = after.supply from supply]
  exact plays

/-- Passes have one derivation: the choices made one after the other leave no other forest. -/
theorem isDerivation_unique (h : gen.IsDerivation start forest record after)
    (h' : gen.IsDerivation start forest' record after) : forest' = forest := by
  have sameRoots : forest'.roots = forest.roots :=
    map_some_inj (h'.roots.trans h.roots.symm)
  have chosen := h.chosen
  have chosen' := h'.chosen
  rw [← List.append_nil (Forest.firings 0 _)] at chosen chosen'
  exact (forest_unique h'.shaped h.shaped sameRoots chosen' chosen).1

/-- A run gives the record of a derivation that it has room for. -/
theorem generateWithin_eq_ok_iff_isDerivation :
    gen.generateWithin unguarded start = (⟨record, none⟩, after) ↔
      ∃ forest : Forest ω, gen.IsDerivation start forest record after ∧
        (gen.settings.maxDepth = none → forest.height ≤ unguarded) := by
  rw [generateWithin_eq_ok_iff, run_eq_ok_iff]
  constructor
  · rintro ⟨⟨forest, fits, plays⟩, unchanged⟩
    exact ⟨forest, isDerivation_of_plays fits plays unchanged,
      (Settings.height_le_room_iff.mp fits.bounded).2⟩
  · rintro ⟨forest, derivation, roomy⟩
    have bounded : forest.height ≤ gen.settings.room unguarded :=
      Settings.height_le_room_iff.mpr ⟨derivation.permitted, roomy⟩
    exact ⟨⟨forest, ⟨derivation.roots, derivation.shaped, bounded⟩,
      plays_of_isDerivation derivation⟩, derivation.unchanged⟩

end WeightedGrammar

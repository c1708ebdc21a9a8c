import WeightedGrammar.Proofs.Number.Double
import WeightedGrammar.Proofs.Pass.Simulation
import WeightedGrammar.Random.Source

/-!
Grammars that leave nothing to chance. Where every rule has at most one item, without a weight or
with all of a hundred, a rule that fires chooses that item or nothing by what has fired alone
(`Rule.IsDetermined.chooseItem_congr`). So the draws of a pass are counted but do not matter: its
outcome is the same with any supply (`Generator.ignoresDraws_of_ofText`).
-/

namespace WeightedGrammar
open Selection

/-! ### One item -/

section
variable {ω : Type} [Scalar ω]

/-- At most one item, without a weight or with a hundred. -/
structure Rule.IsDetermined (rule : Rule ω) : Prop where
  single : rule.items.length ≤ 1
  whole : ∀ item ∈ rule.items, ∀ w ∈ item.weight, (w == Scalar.hundred) = true

def Grammar.IsDetermined (g : Grammar ω) : Prop := ∀ rule ∈ g.rules, rule.IsDetermined

theorem pick_ofSatisfied_nil (draw : ω) : (Ballot.ofSatisfied []).pick draw = none := by
  unfold Ballot.ofSatisfied
  dsimp only
  split <;> rfl

end

/-! ### Choosing over doubles -/

/-- An item that is alone on its ballot is chosen whatever is drawn. -/
theorem pick_ofSatisfied_singleton (place : Nat) {weight : Option Float}
    (whole : ∀ w ∈ weight, w = Scalar.hundred) (draw : Float) :
    (Ballot.ofSatisfied [(place, weight)]).pick draw = some place := by
  have alone : Ballot.isCrowded [weight] = false ∧ isFull (normalize [weight]) = true := by
    cases weight with
    | none => decide +kernel
    | some w =>
      obtain rfl : w = Scalar.hundred := whole w rfl
      decide +kernel
  obtain ⟨roomy, full⟩ := alone
  have ballot : Ballot.ofSatisfied [(place, weight)] = ⟨[place], normalize [weight]⟩ := by
    simp [Ballot.ofSatisfied, roomy]
  obtain ⟨i, inside, chosen⟩ := exists_choose_of_isFull full draw
  obtain rfl : i = 0 := by simpa using inside
  rw [ballot, Ballot.pick, chosen]
  rfl

section
variable {names : List String} {rule : Rule Float} {σ σ' : Type} [Supply σ Float]
  [Supply σ' Float] {p q : Progress σ} {p' : Progress σ'} {choice : Option Nat}

theorem Rule.IsDetermined.weight_eq (determined : rule.IsDetermined) (sound : rule.IsSound names)
    {item : Item Float} (isItem : item ∈ rule.items) : ∀ w ∈ item.weight, w = Scalar.hundred := by
  intro w isWeight
  have positive := (((sound.items item isItem).weight) w isWeight).1
  exact eq_of_beq_of_pos positive (determined.whole item isItem w isWeight)

/-- A ballot of a determined rule gives the same for any two draws. -/
theorem Rule.IsDetermined.pick_eq (determined : rule.IsDetermined) (sound : rule.IsSound names)
    {hasFired : String → Bool} {ballot : Ballot Float}
    (competing : rule.ballot? hasFired = some ballot) (draw draw' : Float) :
    ballot.pick draw = ballot.pick draw' := by
  have few : (rule.contenders hasFired).length ≤ 1 :=
    Nat.le_trans (length_contenders_le rule hasFired) determined.single
  rw [sound.eq_ofSatisfied competing]
  -- Chances that were computed when the rule was loaded are covered as well: its ballot, too, is
  -- that of its contenders.
  match contenders : rule.contenders hasFired, few with
  | [], _ => rw [pick_ofSatisfied_nil, pick_ofSatisfied_nil]
  | [(place, weight)], _ =>
    have isContender : (place, weight) ∈ rule.contenders hasFired := by
      rw [contenders]
      exact List.mem_singleton_self _
    obtain ⟨item, found, rfl⟩ := getElem?_of_mem_contenders isContender
    have whole := determined.weight_eq sound (List.mem_of_getElem? found)
    rw [pick_ofSatisfied_singleton place whole, pick_ofSatisfied_singleton place whole]

/-- With the same record a determined rule chooses the same from any supply. -/
theorem Rule.IsDetermined.chooseItem_congr (determined : rule.IsDetermined)
    (sound : rule.IsSound names) (same : p'.record = p.record)
    (h : rule.chooseItem p = .ok choice q) :
    ∃ q', rule.chooseItem p' = .ok choice q' ∧ q'.record = q.record := by
  obtain ⟨gated, taken, chooses, record⟩ := chooseItem_eq_ok_iff.mp h
  have chooses' : ∃ after, rule.Chooses p.record.hasFired p'.supply choice taken after := by
    cases competing : rule.ballot? p.record.hasFired with
    | none =>
      obtain ⟨rfl, rfl, -⟩ := (chooses_iff_of_none competing).mp chooses
      exact ⟨p'.supply, .nothing competing⟩
    | some ballot =>
      obtain ⟨rfl, rfl, -⟩ := (chooses_iff_of_some competing).mp chooses
      rw [determined.pick_eq sound competing _ (Supply.draw p'.supply).1]
      exact ⟨_, .drawn competing⟩
  obtain ⟨after, chooses'⟩ := chooses'
  refine ⟨⟨q.record, after⟩, chooseItem_eq_ok_iff.mpr ⟨gated, taken, ?_, ?_⟩, rfl⟩
  · rwa [same]
  · rw [same, record]

end

/-! ### Passes with other draws -/

variable {σ : Type} [Supply σ Float] {gen : Generator σ Float} {start : List String}
  {unguarded : Nat}

def Generator.withSupply {σ σ' ω : Type} (gen : Generator σ ω) (supply : σ') : Generator σ' ω :=
  ⟨gen.grammar, supply, gen.settings⟩

/-- The generator after a pass from each start, one after the other. -/
def Generator.after (gen : Generator σ Float) (unguarded : Nat) (starts : List (List String)) :
    Generator σ Float :=
  starts.foldl (fun gen start => (gen.generateWithin unguarded start).2) gen

/-- Passes change nothing of a generator but its supply. -/
theorem after_eq_withSupply (gen : Generator σ Float) (unguarded : Nat)
    (starts : List (List String)) :
    gen.after unguarded starts = gen.withSupply (gen.after unguarded starts).supply := by
  induction starts generalizing gen with
  | nil => rfl
  | cons start starts ih =>
    have unchanged : ∀ supply : σ,
        (gen.generateWithin unguarded start).2.withSupply supply = gen.withSupply supply := by
      rw [generateWithin_snd]
      exact fun _ => rfl
    exact (ih (gen.generateWithin unguarded start).2).trans (unchanged _)

theorem simulates_withSupply {σ' : Type} [Supply σ' Float] (sound : gen.grammar.IsSound)
    (determined : gen.grammar.IsDetermined) (supply : σ') :
    gen.Simulates (gen.withSupply supply) fun p p' => p'.record = p.record := by
  refine ⟨rfl, rfl, rfl, ?_, ?_⟩
  · intro p p' text same
    dsimp only
    rw [same]
  · intro p p' mid rule choice depth isRule same chooses
    obtain ⟨mid', chooses', same'⟩ :=
      (determined rule isRule).chooseItem_congr (sound.rules rule isRule) same chooses
    refine ⟨mid', chooses', ?_⟩
    dsimp only
    rw [same']
    rfl

/-- With other draws the outcome is the same, the count of draws included. -/
theorem generateWithin_withSupply {σ' : Type} [Supply σ' Float] (sound : gen.grammar.IsSound)
    (determined : gen.grammar.IsDetermined) (supply : σ') (unguarded : Nat)
    (start : List String) :
    ((gen.withSupply supply).generateWithin unguarded start).1 =
      (gen.generateWithin unguarded start).1 := by
  rcases (simulates_withSupply sound determined supply).generateWithin_cases sound start unguarded
    with ⟨e, -, out, out'⟩ | ⟨es, left, q, q', -, same, -, out, out'⟩
  · rw [out, out']
  · rw [out, out', same]

/-- Draws do not matter to the passes of a generator. -/
structure Generator.IgnoresDraws (gen : Generator σ Float) : Prop where
  /-- From any other supply the pass comes to the same result or the same error, and takes as many
  draws. -/
  same : ∀ (σ' : Type) [Supply σ' Float] (supply : σ') (unguarded : Nat) (start : List String),
    ((gen.withSupply supply).generateWithin unguarded start).1 =
      (gen.generateWithin unguarded start).1
  /-- Nor does it matter what passes have drawn before. -/
  repeats : ∀ (earlier : List (List String)) (unguarded : Nat) (start : List String),
    ((gen.after unguarded earlier).generateWithin unguarded start).1 =
      (gen.generateWithin unguarded start).1

theorem Generator.ignoresDraws_of_ofText {text name : String}
    (loaded : Grammar.ofText text name = .ok gen.grammar)
    (determined : gen.grammar.IsDetermined) : gen.IgnoresDraws := by
  have sound : gen.grammar.IsSound := Grammar.isSound_of_ofText loaded
  constructor
  case same =>
    intro σ' _ supply unguarded start
    exact generateWithin_withSupply sound determined supply unguarded start
  case repeats =>
    intro earlier unguarded start
    rw [after_eq_withSupply]
    exact generateWithin_withSupply sound determined _ unguarded start

/-- A cottage in which the second room has nothing left to find. -/
def cottageText : String :=
  "Hall \x7b %100 'hall' Room Room \x7d\nRoom ? \x7b !Attic 'bed' Attic \x7d\n" ++
    "Attic \x7b =Dusty \x7d"

def cottage : Grammar Float := (Grammar.ofText cottageText).toOption.getD ⟨[], ""⟩

theorem ofText_cottageText : Grammar.ofText cottageText = .ok cottage :=
  eq_ok_getD_of_isOk (by decide +kernel) _

theorem isDetermined_cottage : cottage.IsDetermined := by
  have checked : cottage.rules.all (fun rule => decide (rule.items.length ≤ 1) &&
      rule.items.all (·.weight.all (· == Scalar.hundred))) = true := by decide +kernel
  simp only [List.all_eq_true, Bool.and_eq_true, decide_eq_true_eq, Option.all_eq_true] at checked
  intro rule isRule
  obtain ⟨single, whole⟩ := checked rule isRule
  exact ⟨single, whole⟩

/-- What is found in the cottage does not depend on the seed. -/
theorem Generator.ignoresDraws_of_ofText_cottage :
    let gen : Generator (Cycle Float) Float := ⟨cottage, ⟨#[0.25], Nat.one_pos, 0⟩, {}⟩
    Grammar.ofText cottageText = .ok gen.grammar ∧ gen.grammar.IsDetermined ∧
      ∀ seed, ((gen.withSupply (Source.seeded (.ofSeed seed))).generateWithin 0 []).1.record.text =
        "hall bed" := by
  intro gen
  refine ⟨ofText_cottageText, isDetermined_cottage, fun seed => ?_⟩
  have ignores : gen.IgnoresDraws :=
    Generator.ignoresDraws_of_ofText ofText_cottageText isDetermined_cottage
  rw [ignores.same Source _ 0 []]
  decide +kernel

end WeightedGrammar

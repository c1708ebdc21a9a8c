import WeightedGrammar.Proofs.Grammar.Sound
import WeightedGrammar.Selection.Ballot

/-!
Who may compete when a rule fires. A contender is an item by its place, with its weight: in a
conditional rule one whose condition holds, in any other rule every item. The ballot of a sound rule
is that of its contenders (`Rule.IsSound.eq_ofSatisfied`), and where their weights leave no room only
those with a weight stand on it (`mem_candidates_of_mem_items`).
-/

namespace WeightedGrammar
open Selection
variable {ω : Type}

/-! ### Contenders -/

theorem mem_satisfied_iff {rule : Rule ω} {hasFired : String → Bool} {place : Nat}
    {weight : Option ω} :
    (place, weight) ∈ rule.satisfied hasFired ↔
      ∃ item, rule.items[place]? = some item ∧
        item.condition.any (·.evaluate hasFired) = true ∧ item.weight = weight := by
  unfold Rule.satisfied
  rw [List.mem_filterMap]
  constructor
  · rintro ⟨⟨item, position⟩, member, kept⟩
    rw [List.mk_mem_zipIdx_iff_getElem?] at member
    dsimp only at kept
    split at kept
    · rename_i holds
      simp only [Option.some.injEq, Prod.mk.injEq] at kept
      obtain ⟨rfl, rfl⟩ := kept
      exact ⟨item, member, holds, rfl⟩
    · cases kept
  · rintro ⟨item, found, holds, rfl⟩
    refine ⟨(item, place), List.mk_mem_zipIdx_iff_getElem?.mpr found, ?_⟩
    simp [holds]

/-- The places and weights of the items that may compete. -/
def Rule.contenders (rule : Rule ω) (hasFired : String → Bool) : List (Nat × Option ω) :=
  if rule.conditional then rule.satisfied hasFired
  else rule.items.zipIdx.map fun (item, place) => (place, item.weight)

theorem getElem?_of_mem_contenders {rule : Rule ω} {hasFired : String → Bool} {place : Nat}
    {weight : Option ω} (h : (place, weight) ∈ rule.contenders hasFired) :
    ∃ item, rule.items[place]? = some item ∧ item.weight = weight := by
  unfold Rule.contenders at h
  split at h
  · obtain ⟨item, found, -, same⟩ := mem_satisfied_iff.mp h
    exact ⟨item, found, same⟩
  · obtain ⟨⟨item, position⟩, member, same⟩ := List.mem_map.mp h
    simp only [Prod.mk.injEq] at same
    obtain ⟨rfl, rfl⟩ := same
    exact ⟨item, List.mk_mem_zipIdx_iff_getElem?.mp member, rfl⟩

theorem contenders_of_conditional {rule : Rule ω} (conditional : rule.conditional = true)
    (hasFired : String → Bool) : rule.contenders hasFired = rule.satisfied hasFired :=
  if_pos conditional

theorem contenders_of_plain {rule : Rule ω} (plain : rule.conditional = false)
    (hasFired : String → Bool) :
    (rule.contenders hasFired).map (·.1) = List.range rule.items.length ∧
      (rule.contenders hasFired).map (·.2) = rule.items.map (·.weight) := by
  have contenders : rule.contenders hasFired =
      rule.items.zipIdx.map fun (item, place) => (place, item.weight) := by
    simp [Rule.contenders, plain]
  rw [contenders, List.map_map, List.map_map]
  constructor
  · rw [List.range_eq_range', ← List.zipIdx_map_snd 0 rule.items]
    rfl
  · conv => rhs; rw [← List.zipIdx_map_fst 0 rule.items, List.map_map]
    rfl

theorem length_contenders_le (rule : Rule ω) (hasFired : String → Bool) :
    (rule.contenders hasFired).length ≤ rule.items.length := by
  rw [← List.length_zipIdx (l := rule.items) (i := 0)]
  unfold Rule.contenders
  split
  · exact List.length_filterMap_le _ _
  · exact Nat.le_of_eq (List.length_map _)

/-! ### Ballots -/

variable [Scalar ω]

theorem length_items_ofSatisfied (candidates : List (Nat × Option ω)) :
    (Ballot.ofSatisfied candidates).items.length =
      (Ballot.ofSatisfied candidates).chances.length := by
  have weighted : ∀ cs : List (Nat × Option ω), (cs.filter (·.2.isSome)).length =
      ((cs.map (·.2)).filterMap id).length := by
    intro cs
    induction cs with
    | nil => rfl
    | cons c cs ih => cases weight : c.2 <;> simp [weight, ih]
  unfold Ballot.ofSatisfied
  dsimp only
  split
  · simp [Ballot.relative, weighted]
  · simp

/-- The items on a ballot are candidates. Where the weights leave no room, they have a weight. -/
theorem mem_candidates_of_mem_items {candidates : List (Nat × Option ω)} {place : Nat}
    (h : place ∈ (Ballot.ofSatisfied candidates).items) :
    ∃ weight, (place, weight) ∈ candidates ∧
      (Ballot.isCrowded (candidates.map (·.2)) = true → weight.isSome = true) := by
  unfold Ballot.ofSatisfied at h
  dsimp only at h
  split at h
  · obtain ⟨⟨position, weight⟩, member, rfl⟩ := List.mem_map.mp h
    obtain ⟨isCandidate, weighted⟩ := List.mem_filter.mp member
    exact ⟨weight, isCandidate, fun _ => weighted⟩
  · rename_i roomy
    obtain ⟨⟨position, weight⟩, member, rfl⟩ := List.mem_map.mp h
    exact ⟨weight, member, fun crowded => absurd crowded roomy⟩

theorem ballot?_of_conditional {rule : Rule ω} (conditional : rule.conditional = true)
    (hasFired : String → Bool) :
    rule.ballot? hasFired =
      if rule.satisfied hasFired = [] then none
      else some (.ofSatisfied (rule.satisfied hasFired)) := by
  simp [Rule.ballot?, conditional]

theorem ballot?_of_plain {rule : Rule ω} (plain : rule.conditional = false)
    (hasFired : String → Bool) :
    rule.ballot? hasFired = some ⟨List.range rule.chances.length, rule.chances⟩ := by
  simp [Rule.ballot?, plain]

theorem contenders_eq_nil_of_ballot? {rule : Rule ω} {hasFired : String → Bool}
    (idle : rule.ballot? hasFired = none) : rule.contenders hasFired = [] := by
  cases kind : rule.conditional with
  | true =>
    rw [ballot?_of_conditional kind] at idle
    split at idle
    · rename_i nobody
      rw [contenders_of_conditional kind, nobody]
    · cases idle
  | false =>
    rw [ballot?_of_plain kind] at idle
    cases idle

theorem Rule.IsSound.length_chances {names : List String} {rule : Rule ω}
    (sound : rule.IsSound names) (plain : rule.conditional = false) :
    rule.chances.length = rule.items.length := by
  simp [sound.chances, chancesOf, plain]

theorem isCrowded_of_balanced {weights : List (Option ω)} (balanced : Balanced weights) :
    Ballot.isCrowded weights = false := by
  obtain ⟨notAbove, notUsed⟩ := balanced
  rw [Ballot.isCrowded, notAbove, Bool.false_or, Bool.and_eq_false_imp, List.any_eq_true]
  intro free
  obtain ⟨weight, isWeight, isNone⟩ := free
  rw [Option.isNone_iff_eq_none] at isNone
  exact notUsed (isNone ▸ isWeight)

/-- Items of an unconditional rule stand on a ballot as if they were under conditions that hold: the
weights that are loaded leave room. -/
theorem Rule.IsSound.eq_ofSatisfied {names : List String} {rule : Rule ω}
    (sound : rule.IsSound names) {hasFired : String → Bool} {ballot : Ballot ω}
    (h : rule.ballot? hasFired = some ballot) :
    ballot = .ofSatisfied (rule.contenders hasFired) := by
  cases kind : rule.conditional with
  | true =>
    rw [ballot?_of_conditional kind] at h
    split at h
    · cases h
    · rw [contenders_of_conditional kind]
      exact (Option.some.inj h).symm
  | false =>
    obtain ⟨places, weights⟩ := contenders_of_plain kind hasFired
    have chances : rule.chances = Selection.normalize (rule.items.map (·.weight)) := by
      simp [sound.chances, chancesOf, kind]
    rw [ballot?_of_plain kind, sound.length_chances kind] at h
    unfold Ballot.ofSatisfied
    dsimp only
    rw [places, weights, ← Option.some.inj h, chances]
    by_cases inhabited : rule.items = []
    · have nobody : rule.contenders hasFired = [] := by
        rw [← List.map_eq_nil_iff, places, inhabited]
        rfl
      rw [nobody, inhabited]
      split <;> rfl
    · have roomy : Ballot.isCrowded (rule.items.map (·.weight)) = false :=
        isCrowded_of_balanced (sound.balanced_weights kind inhabited)
      rw [roomy]
      rfl

/-- The ballot of a sound rule has a chance for every item on it, and the items on it are
contenders. -/
theorem Rule.IsSound.of_ballot? {names : List String} {rule : Rule ω} (sound : rule.IsSound names)
    {hasFired : String → Bool} {ballot : Ballot ω} (h : rule.ballot? hasFired = some ballot) :
    ballot.items.length = ballot.chances.length ∧
      ∀ place ∈ ballot.items, ∃ weight, (place, weight) ∈ rule.contenders hasFired := by
  rw [sound.eq_ofSatisfied h]
  refine ⟨length_items_ofSatisfied _, ?_⟩
  intro place member
  obtain ⟨weight, isContender, -⟩ := mem_candidates_of_mem_items member
  exact ⟨weight, isContender⟩

theorem mem_items_of_pick {ballot : Ballot ω} {draw : ω} {place : Nat}
    (h : ballot.pick draw = some place) : place ∈ ballot.items := by
  obtain ⟨i, -, found⟩ := Option.bind_eq_some_iff.mp h
  exact List.mem_of_getElem? found

/-- Chances that are full choose an entry on every draw. -/
theorem exists_choose_of_isFull {chances : List ω} (full : Selection.isFull chances = true)
    (draw : ω) : ∃ place < chances.length, Selection.choose chances draw = some place := by
  obtain ⟨place, chosen⟩ : ∃ place, Selection.choose chances draw = some place := by
    unfold Selection.choose
    rw [if_pos full]
    dsimp only
    split <;> exact ⟨_, rfl⟩
  exact ⟨place, Selection.choose_lt chosen, chosen⟩

theorem exists_pick_of_isFull {chances : List ω} (full : Selection.isFull chances = true)
    (draw : ω) :
    ∃ place < chances.length,
      Ballot.pick ⟨List.range chances.length, chances⟩ draw = some place := by
  obtain ⟨place, inside, chosen⟩ := exists_choose_of_isFull full draw
  refine ⟨place, inside, ?_⟩
  rw [Ballot.pick, chosen, Option.bind_some, List.getElem?_range inside]

end WeightedGrammar

import Mathlib.Tactic.FieldSimp
import Mathlib.Tactic.Linarith
import Mathlib.Tactic.NormNum
import Mathlib.Tactic.Ring
import WeightedGrammar.Proofs.Number.Rational
import WeightedGrammar.Proofs.Pass.Agenda

/-!
Chances without rounding. Whatever has fired, the chances on the ballot of a loaded rule are a
distribution of at most one, and of exactly one unless the weights of the items that compete leave
something over; only then, or where no item competes, can a draw choose nothing
(`Rule.isDistribution_of_ofText`).
-/

namespace WeightedGrammar
open Selection hiding normalize

section Exact
variable [RationalNotation]

/-! ### Percentages -/

section Percent
variable {weights : List (Option ℚ)}

/-- The weights that are given. -/
def givenWeights (weights : List (Option ℚ)) : List ℚ := weights.filterMap id

omit [RationalNotation] in
theorem mem_givenWeights_iff {w : ℚ} : w ∈ givenWeights weights ↔ some w ∈ weights := by
  simp [givenWeights]

theorem explicitTotal_eq_sum : explicitTotal weights = (givenWeights weights).sum :=
  total_eq_sum _

omit [RationalNotation] in
theorem sum_getD (weights : List (Option ℚ)) (share : ℚ) :
    (weights.map (·.getD share)).sum =
      (givenWeights weights).sum + freeCount weights * share := by
  induction weights with
  | nil => simp [givenWeights, freeCount]
  | cons weight weights ih =>
    rw [List.map_cons, List.sum_cons, ih]
    cases weight with
    | none =>
      have given : givenWeights (none :: weights) = givenWeights weights := rfl
      have count : freeCount (none :: weights) = freeCount weights + 1 :=
        List.countP_cons_of_pos rfl
      rw [given, count, Option.getD_none, Nat.cast_succ]
      ring
    | some w =>
      have given : givenWeights (some w :: weights) = w :: givenWeights weights := rfl
      have count : freeCount (some w :: weights) = freeCount weights :=
        List.countP_cons_of_neg (by simp)
      rw [given, count, Option.getD_some, List.sum_cons]
      ring

theorem normalize_eq (weights : List (Option ℚ)) :
    Selection.normalize weights = weights.map fun w => w.getD (freeShare weights) / 100 := by
  unfold Selection.normalize
  rw [hundred_eq]

/-- What is left over is shared by the entries without a weight. -/
theorem freeShare_eq (free : none ∈ weights) (room : (givenWeights weights).sum < 100) :
    freeShare weights = (100 - (givenWeights weights).sum) / freeCount weights := by
  have count : freeCount weights ≠ 0 := freeCount_ne_zero_iff.mpr free
  have left : (Scalar.hundred : ℚ) - explicitTotal weights =
      100 - (givenWeights weights).sum := by
    rw [hundred_eq, explicitTotal_eq_sum]
  have notBelow : ¬(100 - (givenWeights weights).sum < 0) := by linarith
  have share : freeShare weights =
      atLeastZero ((Scalar.hundred : ℚ) - explicitTotal weights) / freeCount weights :=
    if_neg count
  have same : atLeastZero (100 - (givenWeights weights).sum) =
      100 - (givenWeights weights).sum := if_neg notBelow
  rw [share, left, same]

theorem sum_normalize (weights : List (Option ℚ)) :
    (Selection.normalize weights).sum =
      ((givenWeights weights).sum + freeCount weights * freeShare weights) / 100 := by
  rw [normalize_eq, ← sum_getD, div_eq_mul_inv, ← List.sum_map_mul_right]
  simp only [div_eq_mul_inv]

theorem sum_normalize_of_free (free : none ∈ weights) (room : (givenWeights weights).sum < 100) :
    (Selection.normalize weights).sum = 1 := by
  have count : (freeCount weights : ℚ) ≠ 0 := Nat.cast_ne_zero.mpr (freeCount_ne_zero_iff.mpr free)
  rw [sum_normalize, freeShare_eq free room]
  field_simp
  ring

theorem sum_normalize_of_given (given : none ∉ weights) :
    (Selection.normalize weights).sum = (givenWeights weights).sum / 100 := by
  have count : freeCount weights = 0 := not_not.mp (mt freeCount_ne_zero_iff.mp given)
  rw [sum_normalize, count, Nat.cast_zero, zero_mul, add_zero]

theorem normalize_pos (positive : ∀ w, some w ∈ weights → 0 < w)
    (room : none ∈ weights → (givenWeights weights).sum < 100) :
    ∀ c ∈ Selection.normalize weights, 0 < c := by
  intro c member
  rw [normalize_eq] at member
  obtain ⟨weight, isWeight, rfl⟩ := List.mem_map.mp member
  apply div_pos _ (by norm_num)
  cases weight with
  | some w => exact positive w isWeight
  | none =>
    have count : 0 < (freeCount weights : ℚ) :=
      Nat.cast_pos.mpr (Nat.pos_of_ne_zero (freeCount_ne_zero_iff.mpr isWeight))
    rw [Option.getD_none, freeShare_eq isWeight (room isWeight)]
    exact div_pos (by linarith [room isWeight]) count

theorem normalize_relative (weights : List (Option ℚ)) :
    Selection.normalize (Ballot.relative weights) =
      (givenWeights weights).map (· / (givenWeights weights).sum) := by
  have relative : Ballot.relative weights =
      (givenWeights weights).map fun w => some (w * 100 / (givenWeights weights).sum) := by
    unfold Ballot.relative
    rw [hundred_eq, explicitTotal_eq_sum]
    rfl
  rw [normalize_eq, relative, List.map_map]
  refine List.map_congr_left fun w _ => ?_
  rw [Function.comp_apply, Option.getD_some]
  ring

end Percent

/-! ### Draws -/

section Draw
variable {chances : List ℚ} {draw : ℚ}

/-- A draw passes all chances if it is not below their sum. -/
theorem pickFrom_eq_length_iff (nonneg : ∀ c ∈ chances, 0 ≤ c) {sum : ℚ} (le : sum ≤ draw) :
    pickFrom draw sum chances = chances.length ↔ sum + chances.sum ≤ draw := by
  -- Over the chances; the sum of those passed so far grows on the way.
  induction chances generalizing sum with
  | nil => simpa [pickFrom] using le
  | cons c chances ih =>
    obtain ⟨-, others⟩ := List.forall_mem_cons.mp nonneg
    have rest : 0 ≤ chances.sum := List.sum_nonneg others
    rw [List.sum_cons, ← add_assoc, List.length_cons]
    by_cases here : draw < sum + c
    · have picked : pickFrom draw sum (c :: chances) = 0 := if_pos here
      rw [picked]
      constructor
      · intro none
        omega
      · intro passed
        linarith
    · have passed : pickFrom draw sum (c :: chances) = pickFrom draw (sum + c) chances + 1 :=
        if_neg here
      rw [passed, Nat.add_right_cancel_iff]
      exact ih others (not_lt.mp here)

theorem isFull_eq_false_iff : isFull chances = false ↔ chances.sum < 1 - 1 / 10 ^ 9 := by
  have full : isFull chances =
      (!chances.isEmpty && decide (((1 : ℕ) : ℚ) - 1 / 10 ^ 9 ≤ Scalar.total chances)) := rfl
  rw [full, total_eq_sum, Nat.cast_one, Bool.and_eq_false_imp, decide_eq_false_iff_not, not_le]
  cases chances with
  | nil => norm_num
  | cons c chances => simp

theorem choose_eq_none_iff (nonneg : ∀ c ∈ chances, 0 ≤ c) (start : 0 ≤ draw) :
    choose chances draw = none ↔ chances.sum ≤ draw ∧ chances.sum < 1 - 1 / 10 ^ 9 := by
  have picked : pick chances draw = chances.length ↔ chances.sum ≤ draw := by
    have fromZero : pick chances draw = pickFrom draw 0 chances := rfl
    rw [fromZero, pickFrom_eq_length_iff nonneg start, zero_add]
  have inside : pick chances draw ≤ chances.length := pickFrom_le ..
  have notFull : isFull chances = false ↔ chances.sum < 1 - 1 / 10 ^ 9 := isFull_eq_false_iff
  unfold choose
  dsimp only
  by_cases passed : chances.sum ≤ draw
  · have beyond : ¬pick chances draw < chances.length := by
      rw [picked.mpr passed]
      exact lt_irrefl _
    rw [if_neg beyond, ← notFull]
    cases isFull chances <;> simp [passed]
  · have below : pick chances draw < chances.length :=
      lt_of_le_of_ne inside (mt picked.mp passed)
    rw [if_pos below]
    simp [passed]

/-- Chances that leave something over are those that some draw passes. -/
theorem exists_choose_eq_none_iff (nonneg : ∀ c ∈ chances, 0 ≤ c) :
    (∃ draw, 0 ≤ draw ∧ draw < 1 ∧ choose chances draw = none) ↔
      chances.sum < 1 - 1 / 10 ^ 9 := by
  constructor
  · rintro ⟨draw, start, -, nothing⟩
    exact ((choose_eq_none_iff nonneg start).mp nothing).2
  · intro left
    have start : 0 ≤ chances.sum := List.sum_nonneg nonneg
    refine ⟨chances.sum, start, by linarith, ?_⟩
    exact (choose_eq_none_iff nonneg start).mpr ⟨le_refl _, left⟩

end Draw

/-! ### Ballots -/

section Ballots
variable {contenders : List (Nat × Option ℚ)} {weights : List (Option ℚ)}

theorem isCrowded_iff :
    Ballot.isCrowded weights = true ↔
      100 + 1 / 10 ^ 9 < (givenWeights weights).sum ∨
        none ∈ weights ∧ 100 - 1 / 10 ^ 9 ≤ (givenWeights weights).sum := by
  rw [Ballot.isCrowded, Bool.or_eq_true, Bool.and_eq_true, aboveHundred_iff, usesHundred_iff,
    explicitTotal_eq_sum]
  simp

/-- The chances of a ballot are those of a distribution over the contenders that compete. -/
structure Ballot.IsDistribution (ballot : Ballot ℚ) (contenders : List (Nat × Option ℚ)) :
    Prop where
  /-- All contenders compete, or those with a weight where the weights leave no room. -/
  items : ballot.items =
    if Ballot.isCrowded (contenders.map (·.2)) then (contenders.filter (·.2.isSome)).map (·.1)
    else contenders.map (·.1)
  length : ballot.chances.length = ballot.items.length
  positive : ∀ chance ∈ ballot.chances, 0 < chance
  bounded : ballot.chances.sum ≤ 1 + 1 / 10 ^ 11
  full : none ∈ contenders.map (·.2) ∨ Ballot.isCrowded (contenders.map (·.2)) = true →
    ballot.chances.sum = 1
  /-- Where the weights leave no room, they become relative to their sum. -/
  relative : Ballot.isCrowded (contenders.map (·.2)) = true →
    let given := givenWeights (contenders.map (·.2))
    ballot.chances = given.map (· / given.sum)

theorem ofSatisfied_of_isCrowded (crowded : Ballot.isCrowded (contenders.map (·.2)) = true) :
    Ballot.ofSatisfied contenders = ⟨(contenders.filter (·.2.isSome)).map (·.1),
      Selection.normalize (Ballot.relative (contenders.map (·.2)))⟩ := by
  unfold Ballot.ofSatisfied
  exact if_pos crowded

theorem ofSatisfied_of_not_isCrowded (roomy : ¬Ballot.isCrowded (contenders.map (·.2)) = true) :
    Ballot.ofSatisfied contenders =
      ⟨contenders.map (·.1), Selection.normalize (contenders.map (·.2))⟩ := by
  unfold Ballot.ofSatisfied
  exact if_neg roomy

theorem sum_pos_of_isCrowded (crowded : Ballot.isCrowded weights = true) :
    0 < (givenWeights weights).sum := by
  rcases isCrowded_iff.mp crowded with above | ⟨-, uses⟩ <;> linarith

theorem sum_relative (crowded : Ballot.isCrowded weights = true) :
    (Selection.normalize (Ballot.relative weights)).sum = 1 := by
  have positive : 0 < (givenWeights weights).sum := sum_pos_of_isCrowded crowded
  simp only [normalize_relative, div_eq_mul_inv]
  rw [List.sum_map_mul_right, List.map_id']
  exact mul_inv_cancel₀ positive.ne'

theorem isDistribution_of_isCrowded (positive : ∀ w, some w ∈ contenders.map (·.2) → 0 < w)
    (crowded : Ballot.isCrowded (contenders.map (·.2)) = true) :
    (Ballot.ofSatisfied contenders).IsDistribution contenders := by
  have total : 0 < (givenWeights (contenders.map (·.2))).sum := sum_pos_of_isCrowded crowded
  have sum : (Selection.normalize (Ballot.relative (contenders.map (·.2)))).sum = 1 :=
    sum_relative crowded
  have sameLength := length_items_ofSatisfied contenders
  rw [ofSatisfied_of_isCrowded crowded] at sameLength ⊢
  refine ⟨(if_pos crowded).symm, sameLength.symm, ?_, ?_, fun _ => sum,
    fun _ => normalize_relative _⟩
  · intro chance member
    rw [normalize_relative] at member
    obtain ⟨w, isGiven, rfl⟩ := List.mem_map.mp member
    exact div_pos (positive w (mem_givenWeights_iff.mp isGiven)) total
  · rw [sum]
    norm_num

theorem isDistribution_of_not_isCrowded (positive : ∀ w, some w ∈ contenders.map (·.2) → 0 < w)
    (notCrowded : ¬Ballot.isCrowded (contenders.map (·.2)) = true) :
    (Ballot.ofSatisfied contenders).IsDistribution contenders := by
  obtain ⟨notAbove, notUsed⟩ := not_or.mp (mt isCrowded_iff.mpr notCrowded)
  have room : none ∈ contenders.map (·.2) →
      (givenWeights (contenders.map (·.2))).sum < 100 := by
    intro free
    have below := not_le.mp fun uses => notUsed ⟨free, uses⟩
    linarith
  rw [ofSatisfied_of_not_isCrowded notCrowded]
  refine ⟨(if_neg notCrowded).symm, by simp, normalize_pos positive room, ?_, ?_,
    fun crowded => absurd crowded notCrowded⟩
  · by_cases free : none ∈ contenders.map (·.2)
    · rw [sum_normalize_of_free free (room free)]
      norm_num
    · have atMost := not_lt.mp notAbove
      rw [sum_normalize_of_given free]
      linarith
  · intro full
    exact sum_normalize_of_free (full.resolve_right notCrowded)
      (room (full.resolve_right notCrowded))

/-- Weights that are positive make a distribution. -/
theorem isDistribution_ofSatisfied (positive : ∀ w, some w ∈ contenders.map (·.2) → 0 < w) :
    (Ballot.ofSatisfied contenders).IsDistribution contenders := by
  by_cases crowded : Ballot.isCrowded (contenders.map (·.2)) = true
  · exact isDistribution_of_isCrowded positive crowded
  · exact isDistribution_of_not_isCrowded positive crowded

/-- Something is left over exactly if all contenders have weights that leave it. -/
theorem sum_ofSatisfied_lt_iff (positive : ∀ w, some w ∈ contenders.map (·.2) → 0 < w) :
    (Ballot.ofSatisfied contenders).chances.sum < 1 - 1 / 10 ^ 9 ↔
      none ∉ contenders.map (·.2) ∧
        (givenWeights (contenders.map (·.2))).sum < 100 * (1 - 1 / 10 ^ 9) := by
  have distribution := isDistribution_ofSatisfied positive
  by_cases full : none ∈ contenders.map (·.2) ∨ Ballot.isCrowded (contenders.map (·.2)) = true
  · rw [distribution.full full]
    constructor
    · intro less
      norm_num at less
    · rintro ⟨given, less⟩
      rcases full with free | crowded
      · exact absurd free given
      · rcases isCrowded_iff.mp crowded with above | ⟨free, -⟩
        · linarith
        · exact absurd free given
  · obtain ⟨given, roomy⟩ := not_or.mp full
    rw [ofSatisfied_of_not_isCrowded roomy, sum_normalize_of_given given,
      div_lt_iff₀' (by norm_num)]
    simp [given]

end Ballots

/-! ### Choosing nothing -/

section Nothing
variable {ω σ : Type} [Scalar ω] [Supply σ ω] {rule : Rule ω}

omit [RationalNotation] in
theorem exists_chooseItem_none_iff (gated : rule.IsGated) {p : Progress σ} :
    (∃ after, rule.chooseItem p = .ok none after) ↔
      ∀ ballot, rule.ballot? p.record.hasFired = some ballot →
        ballot.pick (Supply.draw p.supply).1 = none := by
  obtain ⟨choice, after, chooses⟩ := gated.exists_chooseItem p
  obtain ⟨-, taken, chosen, -⟩ := chooseItem_eq_ok_iff.mp chooses
  have nothing : (∃ after, rule.chooseItem p = .ok none after) ↔ choice = none := by
    rw [chooses]
    simp
  rw [nothing]
  cases competing : rule.ballot? p.record.hasFired with
  | none => simp [((chooses_iff_of_none competing).mp chosen).1]
  | some ballot => simp [((chooses_iff_of_some competing).mp chosen).1]

omit [RationalNotation] in
theorem pick_eq_none_iff {ballot : Ballot ω} (paired : ballot.items.length = ballot.chances.length)
    {draw : ω} : ballot.pick draw = none ↔ choose ballot.chances draw = none := by
  unfold Ballot.pick
  rw [Option.bind_eq_none_iff]
  constructor
  · intro missing
    cases chosen : choose ballot.chances draw with
    | none => rfl
    | some i =>
      have inside : i < ballot.items.length := paired ▸ choose_lt chosen
      have outside := List.getElem?_eq_none_iff.mp (missing i chosen)
      omega
  · intro nothing i chosen
    rw [nothing] at chosen
    cases chosen

end Nothing

/-! ### Loaded rules -/

theorem Rule.IsSound.pos_of_mem {names : List String} {rule : Rule ℚ} (sound : rule.IsSound names)
    {hasFired : String → Bool} {w : ℚ} (h : some w ∈ (rule.contenders hasFired).map (·.2)) :
    0 < w := by
  obtain ⟨⟨place, weight⟩, isContender, rfl⟩ := List.mem_map.mp h
  obtain ⟨item, found, isWeight⟩ := getElem?_of_mem_contenders isContender
  have positive : ((0 : ℕ) : ℚ) < w :=
    ((sound.items item (List.mem_of_getElem? found)).weight w isWeight).1
  rwa [Nat.cast_zero] at positive

theorem Rule.IsSound.isDistribution {names : List String} {rule : Rule ℚ}
    (sound : rule.IsSound names) {hasFired : String → Bool} {ballot : Ballot ℚ}
    (competing : rule.ballot? hasFired = some ballot) :
    ballot.IsDistribution (rule.contenders hasFired) := by
  rw [sound.eq_ofSatisfied competing]
  exact isDistribution_ofSatisfied fun w => sound.pos_of_mem

/-- Some draw picks nothing from the ballot of a sound rule exactly if the contenders have weights
that leave something over. -/
theorem Rule.IsSound.exists_pick_eq_none_iff {names : List String} {rule : Rule ℚ}
    (sound : rule.IsSound names) {hasFired : String → Bool} {ballot : Ballot ℚ}
    (competing : rule.ballot? hasFired = some ballot) :
    (∃ draw, 0 ≤ draw ∧ draw < 1 ∧ ballot.pick draw = none) ↔
      let weights := (rule.contenders hasFired).map (·.2)
      none ∉ weights ∧ (givenWeights weights).sum < 100 * (1 - 1 / 10 ^ 9) := by
  have distribution := sound.isDistribution competing
  have nonneg : ∀ chance ∈ ballot.chances, 0 ≤ chance :=
    fun chance member => (distribution.positive chance member).le
  simp only [pick_eq_none_iff distribution.length.symm]
  rw [exists_choose_eq_none_iff nonneg, sound.eq_ofSatisfied competing]
  exact sum_ofSatisfied_lt_iff fun w => sound.pos_of_mem

/-- Whatever has fired, a rule of a loaded grammar chooses by a distribution. Some draw chooses
nothing exactly if no item may compete, or if all items that may have weights which leave something
over. -/
theorem Rule.isDistribution_of_ofText {text name : String} {g : Grammar ℚ}
    (loaded : Grammar.ofText text name = .ok g) {rule : Rule ℚ} (isRule : rule ∈ g.rules)
    (record : Record) :
    (∀ ballot, rule.ballot? record.hasFired = some ballot →
      ballot.IsDistribution (rule.contenders record.hasFired)) ∧
    ((∃ draw : ℚ, 0 ≤ draw ∧ draw < 1 ∧ ∃ after : Progress (Cycle ℚ),
        rule.chooseItem ⟨record, ⟨#[draw], Nat.one_pos, 0⟩⟩ = .ok none after) ↔
      rule.contenders record.hasFired = [] ∨
        let weights := (rule.contenders record.hasFired).map (·.2)
        none ∉ weights ∧ (givenWeights weights).sum < 100 * (1 - 1 / 10 ^ 9)) := by
  have sound : rule.IsSound g.names := (Grammar.isSound_of_ofText loaded).rules rule isRule
  refine ⟨fun ballot competing => sound.isDistribution competing, ?_⟩
  simp only [exists_chooseItem_none_iff sound.isGated]
  cases competing : rule.ballot? record.hasFired with
  | none =>
    have nobody : rule.contenders record.hasFired = [] := contenders_eq_nil_of_ballot? competing
    constructor
    · intro chosen
      exact .inl nobody
    · intro left
      exact ⟨0, le_refl 0, one_pos, by simp⟩
  | some ballot =>
    have drawn : ∀ draw : ℚ, (Supply.draw (⟨#[draw], Nat.one_pos, 0⟩ : Cycle ℚ)).1 = draw :=
      fun _ => rfl
    simp only [Option.some.injEq, forall_eq', drawn]
    rw [sound.exists_pick_eq_none_iff competing]
    constructor
    · intro left
      exact .inr left
    · rintro (nobody | left)
      · rw [nobody]
        norm_num [givenWeights]
      · exact left

end Exact

/-- The first rule of the tale, before anything has fired: two weights of eighty and sixty beside
an item without one. -/
theorem Rule.isDistribution_of_ofText_tale :
    Grammar.ofText taleText = .ok (tale ℚ) ∧
      ∃ hero ∈ (tale ℚ).rules, ∃ ballot, hero.ballot? ({} : Record).hasFired = some ballot ∧
        ballot.IsDistribution (hero.contenders ({} : Record).hasFired) ∧
        ballot.chances = [4 / 7, 3 / 7] := by
  have loaded : Grammar.ofText taleText = .ok (tale ℚ) := ofText_tale_of_isOk (by decide +kernel)
  have checked : ((tale ℚ).top?.any fun hero =>
      (hero.ballot? ({} : Record).hasFired).any fun ballot =>
        decide (ballot.chances = [4 / 7, 3 / 7])) = true := by decide +kernel
  obtain ⟨hero, isTop, kept⟩ := (Option.any_eq_true ..).mp checked
  obtain ⟨ballot, competing, chances⟩ := (Option.any_eq_true ..).mp kept
  have isRule : hero ∈ (tale ℚ).rules := List.mem_of_head? isTop
  exact ⟨loaded, hero, isRule, ballot, competing,
    (Rule.isDistribution_of_ofText loaded isRule {}).1 ballot competing,
    of_decide_eq_true chances⟩

end WeightedGrammar

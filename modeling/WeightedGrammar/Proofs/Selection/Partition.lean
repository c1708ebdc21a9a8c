import Mathlib.Order.Interval.Set.Defs
import WeightedGrammar.Proofs.Selection.Distribution

/-!
How draws are divided among chances, without rounding. The chances lie end to end from zero, and an
entry is chosen by the draws that lie on it; where the chances are full up to rounding, the last one
reaches to one. So each draw has one outcome, and the draws of an entry make an interval of its width
(`Selection.dividesDraws_of_nonneg`).
-/

namespace WeightedGrammar
open Selection hiding normalize

/-! ### Where entries lie -/

/-- The sum of the chances in front of a place. -/
def Selection.sumBefore (chances : List ℚ) (place : Nat) : ℚ := (chances.take place).sum

/-- The last entry takes what rounding leaves over of chances that add up to one. -/
def Selection.TakesRest (chances : List ℚ) (place : Nat) : Prop :=
  place + 1 = chances.length ∧ 1 - 1 / 10 ^ 9 ≤ chances.sum

instance (chances : List ℚ) (place : Nat) : Decidable (TakesRest chances place) :=
  inferInstanceAs (Decidable (_ ∧ _))

/-- The outcomes that draws lie on: an entry, or nothing behind all of them. -/
def Selection.FallsOn (chances : List ℚ) (draw : ℚ) : Option Nat → Prop
  | some place =>
    (place < chances.length ∧ sumBefore chances place ≤ draw ∧
        draw < sumBefore chances (place + 1)) ∨
      (chances.sum ≤ draw ∧ TakesRest chances place)
  | none => chances.sum ≤ draw ∧ (chances.length = 0 ∨ chances.sum < 1 - 1 / 10 ^ 9)

/-- Where the draws of an entry end, those below one. -/
def Selection.stopOf (chances : List ℚ) (place : Nat) : ℚ :=
  if TakesRest chances place then 1 else min (sumBefore chances (place + 1)) 1

section Lying
variable {chances : List ℚ} {place : Nat} {draw : ℚ}

theorem sumBefore_cons (c : ℚ) (chances : List ℚ) (place : Nat) :
    sumBefore (c :: chances) (place + 1) = c + sumBefore chances place := by
  simp [sumBefore]

theorem sumBefore_succ (inside : place < chances.length) :
    sumBefore chances (place + 1) = sumBefore chances place + chances[place] :=
  List.sum_take_succ chances place inside

theorem sumBefore_length : sumBefore chances chances.length = chances.sum := by
  rw [sumBefore, List.take_length]

theorem Selection.TakesRest.sumBefore_succ (takes : TakesRest chances place) :
    sumBefore chances (place + 1) = chances.sum := by
  rw [takes.1, sumBefore_length]

theorem sumBefore_nonneg (nonneg : ∀ c ∈ chances, 0 ≤ c) (place : Nat) :
    0 ≤ sumBefore chances place :=
  List.sum_nonneg fun c member => nonneg c (List.mem_of_mem_take member)

theorem sumBefore_le_sum (nonneg : ∀ c ∈ chances, 0 ≤ c) (place : Nat) :
    sumBefore chances place ≤ chances.sum := by
  have behind : 0 ≤ (chances.drop place).sum :=
    List.sum_nonneg fun c member => nonneg c (List.mem_of_mem_drop member)
  have split := List.sum_take_add_sum_drop chances place
  rw [sumBefore]
  linarith

theorem length_pos_of_full (full : 1 - 1 / 10 ^ 9 ≤ chances.sum) : 0 < chances.length := by
  cases chances with
  | nil => norm_num at full
  | cons c chances => exact Nat.succ_pos _

theorem stopOf_le_one : stopOf chances place ≤ 1 := by
  unfold stopOf
  split
  · exact le_refl 1
  · exact min_le_right ..

end Lying

section Exact
variable [RationalNotation] {chances : List ℚ} {place : Nat} {draw : ℚ}

/-! ### What a draw picks -/

/-- A draw passes the entries in front of the one that it picks, and not this one. -/
theorem pickFrom_eq_iff (nonneg : ∀ c ∈ chances, 0 ≤ c) {sum : ℚ} (le : sum ≤ draw)
    (inside : place < chances.length) :
    pickFrom draw sum chances = place ↔
      sum + sumBefore chances place ≤ draw ∧ draw < sum + sumBefore chances (place + 1) := by
  -- Over the chances, as in `pickFrom_eq_length_iff`; the place comes closer with each one passed.
  induction chances generalizing sum place with
  | nil => cases inside
  | cons c chances ih =>
    obtain ⟨-, others⟩ := List.forall_mem_cons.mp nonneg
    rw [sumBefore_cons, ← add_assoc]
    by_cases here : draw < sum + c
    · have picked : pickFrom draw sum (c :: chances) = 0 := if_pos here
      rw [picked]
      cases place with
      | zero => simpa [sumBefore, le] using here
      | succ place =>
        rw [sumBefore_cons, ← add_assoc]
        have front := sumBefore_nonneg others place
        constructor
        · intro none
          cases none
        · rintro ⟨passed, -⟩
          linarith
    · have passed : pickFrom draw sum (c :: chances) = pickFrom draw (sum + c) chances + 1 :=
        if_neg here
      rw [passed]
      cases place with
      | zero =>
        have behind : ¬draw < sum + c := here
        simp [sumBefore, behind]
      | succ place =>
        rw [sumBefore_cons, ← add_assoc, Nat.add_right_cancel_iff]
        exact ih others (not_lt.mp here) (Nat.lt_of_succ_lt_succ inside)

theorem pick_eq_iff (nonneg : ∀ c ∈ chances, 0 ≤ c) (start : 0 ≤ draw)
    (inside : place < chances.length) :
    pick chances draw = place ↔
      sumBefore chances place ≤ draw ∧ draw < sumBefore chances (place + 1) := by
  have fromZero : pick chances draw = pickFrom draw 0 chances := rfl
  rw [fromZero, pickFrom_eq_iff nonneg start inside, zero_add, zero_add]

theorem pick_lt_length_iff (nonneg : ∀ c ∈ chances, 0 ≤ c) (start : 0 ≤ draw) :
    pick chances draw < chances.length ↔ draw < chances.sum := by
  have fromZero : pick chances draw = pickFrom draw 0 chances := rfl
  have inside : pick chances draw ≤ chances.length := pickFrom_le ..
  rw [inside.lt_iff_ne, fromZero, Ne, pickFrom_eq_length_iff nonneg start, zero_add, not_le]

/-! ### What a draw chooses -/

theorem choose_of_lt (below : pick chances draw < chances.length) :
    choose chances draw = some (pick chances draw) := by
  unfold choose
  exact if_pos below

theorem choose_of_not_lt (beyond : ¬pick chances draw < chances.length) :
    choose chances draw = if isFull chances then some (chances.length - 1) else none := by
  unfold choose
  exact if_neg beyond

theorem isFull_eq_true_iff : isFull chances = true ↔ 1 - 1 / 10 ^ 9 ≤ chances.sum := by
  rw [← not_lt, ← isFull_eq_false_iff, Bool.not_eq_false]

theorem choose_eq_some_iff (nonneg : ∀ c ∈ chances, 0 ≤ c) (start : 0 ≤ draw) :
    choose chances draw = some place ↔ FallsOn chances draw (some place) := by
  have below := pick_lt_length_iff nonneg start
  unfold FallsOn
  by_cases inside : pick chances draw < chances.length
  · have notBeyond : ¬chances.sum ≤ draw := not_le.mpr (below.mp inside)
    rw [choose_of_lt inside, Option.some.injEq]
    constructor
    · rintro rfl
      exact .inl ⟨inside, (pick_eq_iff nonneg start inside).mp rfl⟩
    · rintro (⟨isPlace, lies⟩ | ⟨beyond, -⟩)
      · exact (pick_eq_iff nonneg start isPlace).mpr lies
      · exact absurd beyond notBeyond
  · have beyond : chances.sum ≤ draw := not_lt.mp (mt below.mpr inside)
    rw [choose_of_not_lt inside]
    constructor
    · intro chosen
      split at chosen
      · rename_i full
        have sum := isFull_eq_true_iff.mp full
        have positive := length_pos_of_full sum
        rw [Option.some.injEq] at chosen
        exact .inr ⟨beyond, by omega, sum⟩
      · cases chosen
    · rintro (⟨isPlace, -, lies⟩ | ⟨-, last, sum⟩)
      · have within := sumBefore_le_sum nonneg (place + 1)
        linarith
      · rw [if_pos (isFull_eq_true_iff.mpr sum), Option.some.injEq]
        omega

theorem choose_eq_iff (nonneg : ∀ c ∈ chances, 0 ≤ c) (start : 0 ≤ draw) (outcome : Option Nat) :
    choose chances draw = outcome ↔ FallsOn chances draw outcome := by
  cases outcome with
  | some place => exact choose_eq_some_iff nonneg start
  | none =>
    rw [choose_eq_none_iff nonneg start]
    refine and_congr_right fun _ => ⟨.inr, ?_⟩
    rintro (empty | less)
    · rw [List.eq_nil_of_length_eq_zero empty]
      norm_num
    · exact less

/-- A row of chances is chosen from with one draw. -/
theorem chooseItem_of_chances {σ : Type} [Supply σ ℚ] {rule : Rule ℚ}
    (plain : rule.conditional = false) (p : Progress σ) :
    rule.chooseItem p = .ok (choose rule.chances (Supply.draw p.supply).1)
      ⟨p.record.countDraw, (Supply.draw p.supply).2⟩ := by
  have gated : rule.IsGated := by
    intro conditional
    rw [plain] at conditional
    cases conditional
  have picked : Ballot.pick ⟨List.range rule.chances.length, rule.chances⟩
      (Supply.draw p.supply).1 = choose rule.chances (Supply.draw p.supply).1 := by
    unfold Ballot.pick
    cases chosen : choose rule.chances (Supply.draw p.supply).1 with
    | none => rfl
    | some place => simp [choose_lt chosen]
  refine chooseItem_eq_ok_iff.mpr ⟨gated, 1, ?_, rfl⟩
  rw [← picked]
  exact .drawn (ballot?_of_plain plain _)

/-! ### The division -/

/-- How the draws from zero up to one are divided among chances. -/
structure Selection.DividesDraws (chances : List ℚ) : Prop where
  /-- A draw chooses what it lies on. -/
  outcome (draw : ℚ) (start : 0 ≤ draw) (below : draw < 1) (outcome : Option Nat) :
    choose chances draw = outcome ↔ FallsOn chances draw outcome
  /-- It lies on one outcome and no other. -/
  unique (draw : ℚ) (start : 0 ≤ draw) (below : draw < 1) : ∃! outcome, FallsOn chances draw outcome
  /-- The draws of an entry make an interval. -/
  interval (place : Nat) (inside : place < chances.length) :
    {draw : ℚ | 0 ≤ draw ∧ draw < 1 ∧ choose chances draw = some place} =
      Set.Ico (sumBefore chances place) (stopOf chances place)
  /-- The interval is as wide as the chance, -/
  width (place : Nat) (inside : place < chances.length) (fits : sumBefore chances (place + 1) ≤ 1)
    (leaves : ¬TakesRest chances place) :
    stopOf chances place - sumBefore chances place = chances[place]
  /-- but for the last one, which is wider by the residue of rounding. -/
  residue (place : Nat) (inside : place < chances.length) (fits : sumBefore chances (place + 1) ≤ 1)
    (takes : TakesRest chances place) :
    stopOf chances place - sumBefore chances place = chances[place] + (1 - chances.sum) ∧
      0 ≤ 1 - chances.sum ∧ 1 - chances.sum ≤ 1 / 10 ^ 9
  /-- Chances that add up to one leave nothing over. -/
  full (sum : chances.sum = 1) (draw : ℚ) (start : 0 ≤ draw) (below : draw < 1) :
    choose chances draw ≠ none ∧ pick chances draw < chances.length
  /-- A rule with these chances takes one draw to choose. -/
  oneDraw {σ : Type} [Supply σ ℚ] (rule : Rule ℚ) (plain : rule.conditional = false)
    (same : rule.chances = chances) (p : Progress σ) :
    rule.chooseItem p = .ok (choose chances (Supply.draw p.supply).1)
      ⟨p.record.countDraw, (Supply.draw p.supply).2⟩

/-- The draws that choose an entry are those from the sum in front of it up to its stop. -/
theorem setOf_choose_eq (nonneg : ∀ c ∈ chances, 0 ≤ c) (inside : place < chances.length) :
    {draw : ℚ | 0 ≤ draw ∧ draw < 1 ∧ choose chances draw = some place} =
      Set.Ico (sumBefore chances place) (stopOf chances place) := by
  ext draw
  rw [Set.mem_Ico]
  constructor
  · rintro ⟨start, below, chosen⟩
    rw [choose_eq_some_iff nonneg start] at chosen
    rcases chosen with ⟨-, begins, upTo⟩ | ⟨beyond, takes⟩
    · refine ⟨begins, ?_⟩
      unfold stopOf
      split
      · exact below
      · exact lt_min upTo below
    · rw [stopOf, if_pos takes]
      exact ⟨(sumBefore_le_sum nonneg place).trans beyond, below⟩
  · rintro ⟨begins, upTo⟩
    have start : 0 ≤ draw := (sumBefore_nonneg nonneg place).trans begins
    refine ⟨start, lt_of_lt_of_le upTo stopOf_le_one, ?_⟩
    rw [choose_eq_some_iff nonneg start]
    by_cases lies : draw < sumBefore chances (place + 1)
    · exact .inl ⟨inside, begins, lies⟩
    · by_cases takes : TakesRest chances place
      · rw [takes.sumBefore_succ, not_lt] at lies
        exact .inr ⟨lies, takes⟩
      · rw [stopOf, if_neg takes] at upTo
        exact absurd (lt_of_lt_of_le upTo (min_le_left ..)) lies

/-- Chances that are not negative divide the draws among themselves. -/
theorem Selection.dividesDraws_of_nonneg (nonneg : ∀ c ∈ chances, 0 ≤ c) :
    DividesDraws chances := by
  constructor
  case outcome =>
    intro draw start _ outcome
    exact choose_eq_iff nonneg start outcome
  case unique =>
    intro draw start _
    refine ⟨choose chances draw, (choose_eq_iff nonneg start _).mp rfl, ?_⟩
    intro other falls
    exact ((choose_eq_iff nonneg start other).mpr falls).symm
  case interval =>
    intro place inside
    exact setOf_choose_eq nonneg inside
  case width =>
    intro place inside fits leaves
    rw [stopOf, if_neg leaves, min_eq_left fits, sumBefore_succ inside]
    ring
  case residue =>
    intro place inside fits takes
    have sum := sumBefore_succ inside
    have full := takes.2
    rw [takes.sumBefore_succ] at fits sum
    rw [stopOf, if_pos takes]
    refine ⟨?_, ?_, ?_⟩ <;> linarith
  case full =>
    intro sum draw start below
    have passes : draw < chances.sum := by rwa [sum]
    refine ⟨?_, (pick_lt_length_iff nonneg start).mpr passes⟩
    rw [Ne, choose_eq_none_iff nonneg start]
    rintro ⟨beyond, -⟩
    linarith
  case oneDraw =>
    intro σ _ rule plain same p
    rw [← same]
    exact chooseItem_of_chances plain p

end Exact

/-- Two halves with an empty entry between them, the second one short by less than rounding allows:
it takes the draws up to one. -/
theorem Selection.dividesDraws_of_nonneg_halves :
    let chances : List ℚ := [1 / 2, 0, 1 / 2 - 1 / 10 ^ 10]
    (∀ c ∈ chances, 0 ≤ c) ∧ DividesDraws chances ∧
      {draw : ℚ | 0 ≤ draw ∧ draw < 1 ∧ choose chances draw = some 2} = Set.Ico (1 / 2) 1 := by
  intro chances
  have nonneg : ∀ c ∈ chances, 0 ≤ c := by decide +kernel
  have divides : DividesDraws chances := Selection.dividesDraws_of_nonneg nonneg
  have start : sumBefore chances 2 = 1 / 2 := by decide +kernel
  have stop : stopOf chances 2 = 1 := by decide +kernel
  refine ⟨nonneg, divides, ?_⟩
  rw [divides.interval 2 (by decide), start, stop]

end WeightedGrammar

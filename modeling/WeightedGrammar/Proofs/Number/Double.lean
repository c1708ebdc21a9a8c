import Mathlib.Algebra.Group.Int.Defs
import Mathlib.Algebra.Group.Nat.Defs
import WeightedGrammar.Number.Double

/-!
Doubles and their equality. A sum of weights that leaves no room does not equal zero
(`ne_zero_of_usesHundred`, `ne_zero_of_aboveHundred`), so it can be divided by. Doubles above zero
are equal only if they are the same (`eq_of_beq_of_pos`).
-/

namespace WeightedGrammar
open Float.Model Float.Model.UnpackedFloat

/-! ### Zero -/

theorem float_lt_iff {x y : Float} :
    x < y ↔ x.toModel.unpack.lt y.toModel.unpack = true := by
  show decide (x.toModel.unpack.lt y.toModel.unpack = true) = true ↔ _
  exact decide_eq_true_iff

theorem float_le_iff {x y : Float} :
    x ≤ y ↔ x.toModel.unpack.le y.toModel.unpack = true := by
  show decide (x.toModel.unpack.le y.toModel.unpack = true) = true ↔ _
  exact decide_eq_true_iff

/-- A double equals zero if it is a zero of either sign. -/
theorem exists_zero_of_beq {x : Float} (h : (x == Scalar.ofNat 0) = true) :
    ∃ sign, x.toModel.unpack = .zero sign := by
  have same : x.toModel.unpack.beq (.zero .positive) = true := h
  unfold UnpackedFloat.beq at same
  cases unpacked : x.toModel.unpack with
  | zero sign => exact ⟨sign, rfl⟩
  | notANumber =>
    rw [unpacked] at same
    cases same
  | infinity sign =>
    rw [unpacked] at same
    cases sign <;> cases same
  | finite sign mantissa exponent positive =>
    rw [unpacked] at same
    cases sign <;> cases same

theorem ne_zero_of_aboveHundred {x : Float} (h : Scalar.aboveHundred x = true) :
    (x == Scalar.ofNat 0) = false := by
  rw [Bool.eq_false_iff]
  intro zero
  obtain ⟨sign, unpacked⟩ := exists_zero_of_beq zero
  have above := float_lt_iff.mp (decide_eq_true_iff.mp h)
  rw [unpacked] at above
  revert above
  cases sign <;> decide +kernel

theorem ne_zero_of_usesHundred {x : Float} (h : Scalar.usesHundred x = true) :
    (x == Scalar.ofNat 0) = false := by
  rw [Bool.eq_false_iff]
  intro zero
  obtain ⟨sign, unpacked⟩ := exists_zero_of_beq zero
  have uses := float_le_iff.mp (decide_eq_true_iff.mp h)
  rw [unpacked] at uses
  revert uses
  cases sign <;> decide +kernel

/-! ### Doubles above zero -/

section Bits
variable {b b' : BitVec Format.binary64.numBits}

theorem toNat_eq_fields (b : BitVec Format.binary64.numBits) :
    b.toNat = (unpackSign b).toNat * 2 ^ 63 + (unpackExponent b).toNat * 2 ^ 52 +
      (unpackMantissa b).toNat := by
  have width : b.toNat < 2 ^ 64 := b.isLt
  unfold unpackSign unpackExponent unpackMantissa
  simp only [BitVec.toNat_cast, BitVec.extractLsb_toNat, Nat.shiftRight_eq_div_pow]
  omega

theorem toNat_of_positive {sign : BitVec 1} (h : Sign.ofBitVec sign = .positive) :
    sign.toNat = 0 := by
  unfold Sign.ofBitVec at h
  split at h
  · rename_i zero
    rw [zero]
    rfl
  · cases h

theorem toNat_leading (mantissa : BitVec 52) :
    (1#1 ++ mantissa).toNat = 2 ^ 52 + mantissa.toNat := by
  rw [BitVec.toNat_append, ← Nat.shiftLeft_add_eq_or_of_lt mantissa.isLt, Nat.shiftLeft_eq,
    BitVec.toNat_ofNat, Nat.one_mod_two_pow_eq_one.mpr Nat.one_pos, Nat.one_mul]

/-- What bits stand for: an infinity or no number if the exponent field is all ones, a zero or a
subnormal number if it is zero, and a normal number otherwise. -/
theorem unpack_cases (b : BitVec Format.binary64.numBits) :
    (unpackExponent b = -1#11 ∧ unpackMantissa b = 0#52 ∧
      unpack .binary64 b = .infinity (.ofBitVec (unpackSign b))) ∨
    unpack .binary64 b = .notANumber ∨ unpack .binary64 b = .zero (.ofBitVec (unpackSign b)) ∨
    (unpackExponent b = 0#11 ∧ ∃ filled, unpack .binary64 b =
      .finite (.ofBitVec (unpackSign b)) (unpackMantissa b).toNat (-1074) filled) ∨
    ∃ filled, unpack .binary64 b = .finite (.ofBitVec (unpackSign b))
      (1#1 ++ unpackMantissa b).toNat ((unpackExponent b).toNat - 1075) filled := by
  unfold UnpackedFloat.unpack
  dsimp only
  by_cases allOnes : unpackExponent b = -1#11
  · rw [if_pos allOnes]
    by_cases noMantissa : unpackMantissa b = 0#52
    · exact .inl ⟨allOnes, noMantissa, if_pos noMantissa⟩
    · exact .inr (.inl (if_neg noMantissa))
  · rw [if_neg allOnes]
    by_cases noExponent : unpackExponent b = 0#11
    · rw [if_pos noExponent]
      by_cases noMantissa : unpackMantissa b = 0#52
      · exact .inr (.inr (.inl (dif_pos noMantissa)))
      · have filled : 0 < (unpackMantissa b).toNat :=
          Nat.pos_of_ne_zero fun none => noMantissa (BitVec.eq_of_toNat_eq none)
        refine .inr (.inr (.inr (.inl ⟨noExponent, filled, ?_⟩)))
        rw [dif_neg noMantissa, noExponent]
        rfl
    · have filled : 0 < (1#1 ++ unpackMantissa b).toNat := by
        rw [toNat_leading]
        exact Nat.add_pos_left (Nat.two_pow_pos 52) _
      rw [if_neg noExponent]
      exact .inr (.inr (.inr (.inr ⟨filled, rfl⟩)))

theorem toNat_of_infinity (h : unpack .binary64 b = .infinity .positive) :
    b.toNat = 2047 * 2 ^ 52 := by
  obtain ⟨allOnes, noMantissa, same⟩ | same | same | ⟨-, _, same⟩ | ⟨_, same⟩ := unpack_cases b
  · rw [same] at h
    injection h with positive
    rw [toNat_eq_fields, toNat_of_positive positive, allOnes, noMantissa]
    rfl
  all_goals
    rw [same] at h
    cases h

/-- The bits of a number above zero, normal or not: the leading bit of a normal mantissa adds one to
the exponent field, which a subnormal number has at zero. -/
theorem toNat_of_finite {mantissa : Nat} {exponent : Int} {filled : 0 < mantissa}
    (h : unpack .binary64 b = .finite .positive mantissa exponent filled) :
    (b.toNat : Int) = (exponent + 1074) * 2 ^ 52 + mantissa := by
  have fields := toNat_eq_fields b
  obtain ⟨-, -, same⟩ | same | same | ⟨noExponent, _, same⟩ | ⟨_, same⟩ := unpack_cases b
  · rw [same] at h
    cases h
  · rw [same] at h
    cases h
  · rw [same] at h
    cases h
  · rw [same] at h
    injection h with positive isMantissa isExponent
    rw [toNat_of_positive positive, noExponent] at fields
    simp only [BitVec.toNat_ofNat, Nat.zero_mod] at fields
    omega
  · rw [same] at h
    injection h with positive isMantissa isExponent
    rw [toNat_of_positive positive] at fields
    have leading := toNat_leading (unpackMantissa b)
    omega

theorem cases_of_pos {u : UnpackedFloat}
    (positive : (UnpackedFloat.zero .positive).lt u = true) :
    u = .infinity .positive ∨
      ∃ mantissa exponent filled, u = .finite .positive mantissa exponent filled := by
  cases u with
  | notANumber => cases positive
  | zero sign => cases positive
  | infinity sign =>
    cases sign with
    | positive => exact .inl rfl
    | negative => cases positive
  | finite sign mantissa exponent filled =>
    cases sign with
    | positive => exact .inr ⟨mantissa, exponent, filled, rfl⟩
    | negative => cases positive

theorem unpacked_eq_of_beq {u v : UnpackedFloat}
    (positive : (UnpackedFloat.zero .positive).lt u = true) (equal : u.beq v = true) : v = u := by
  rcases cases_of_pos positive with rfl | ⟨mantissa, exponent, filled, rfl⟩
  · cases v with
    | infinity sign =>
      cases sign with
      | positive => rfl
      | negative => cases equal
    | _ => cases equal
  · cases v with
    | finite sign mantissa' exponent' filled' =>
      cases sign with
      | positive =>
        have same : (compare exponent exponent').then (compare mantissa mantissa') = .eq := by
          unfold UnpackedFloat.beq at equal
          exact Option.some.inj (beq_iff_eq.mp equal)
        rw [Ordering.then_eq_eq, Int.compare_eq_eq, Nat.compare_eq_eq] at same
        obtain ⟨rfl, rfl⟩ := same
        rfl
      | negative => cases equal
    | infinity sign => cases sign <;> cases equal
    | _ => cases equal

theorem bits_eq_of_beq
    (positive : (UnpackedFloat.zero .positive).lt (unpack .binary64 b) = true)
    (equal : (unpack .binary64 b).beq (unpack .binary64 b') = true) : b = b' := by
  have same := unpacked_eq_of_beq positive equal
  apply BitVec.eq_of_toNat_eq
  rcases cases_of_pos positive with infinite | ⟨mantissa, exponent, filled, finite⟩
  · rw [toNat_of_infinity infinite, toNat_of_infinity (same.trans infinite)]
  · have bits := toNat_of_finite finite
    have bits' := toNat_of_finite (same.trans finite)
    omega

end Bits

theorem eq_of_beq_of_pos {x y : Float} (positive : Scalar.ofNat 0 < x) (equal : (x == y) = true) :
    x = y := by
  have bits := bits_eq_of_beq (float_lt_iff.mp positive) equal
  obtain ⟨⟨bitsX, validX⟩⟩ := x
  obtain ⟨⟨bitsY, validY⟩⟩ := y
  obtain rfl : bitsX = bitsY := UInt64.toBitVec_inj.mp bits
  rfl

end WeightedGrammar

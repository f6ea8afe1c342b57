import Acetone.Cypher.Comparison
import Acetone.Lib.FloatOrder

/-!
# Integers among the floats

An integer is compared with a float through the nearest float.  The nearest
float keeps the order of the integers, but it identifies integers that lie
closer together than the floats do.
-/

namespace Acetone.Cypher

open Acetone.Lib Acetone.Model

theorem floatOfMagnitude_sign (sign magnitude : Nat) :
    floatOfMagnitude sign magnitude = sign * 2 ^ 63 + floatOfMagnitude 0 magnitude := by
  have layout : binary64.exponentBits + binary64.fractionBits = 63 := rfl
  simp only [floatOfMagnitude, FloatLayout.pack, layout]
  split <;> omega

private theorem pack_unsigned (exponent : Nat) :
    binary64.pack 0 exponent 0 = exponent * 2 ^ 52 := by
  have width : binary64.fractionBits = 52 := rfl
  rw [FloatLayout.pack, width]
  omega

/-- The rounded significand of a positive whole number: 53 bits, and one more
where the rounding carries. -/
private def significandOf (magnitude : Nat) : Nat :=
  if magnitude.log2 ≤ 52 then magnitude * 2 ^ (52 - magnitude.log2)
  else roundShift magnitude (magnitude.log2 - 52)

private theorem floatOfMagnitude_fields {magnitude : Nat} (positive : magnitude ≠ 0) :
    floatOfMagnitude 0 magnitude =
      (magnitude.log2 + 1022) * 2 ^ 52 + significandOf magnitude := by
  simp only [floatOfMagnitude, if_neg positive, pack_unsigned, significandOf]

private theorem significandOf_bounds {magnitude : Nat} (positive : magnitude ≠ 0) :
    2 ^ 52 ≤ significandOf magnitude ∧ significandOf magnitude ≤ 2 ^ 53 := by
  have low := Nat.log2_self_le positive
  have high := @Nat.lt_log2_self magnitude
  rw [significandOf]
  split
  · next exact =>
      constructor
      · calc
          2 ^ 52 = 2 ^ magnitude.log2 * 2 ^ (52 - magnitude.log2) := by
            rw [← pow_add, Nat.add_sub_cancel' exact]
          _ ≤ magnitude * 2 ^ (52 - magnitude.log2) := Nat.mul_le_mul_right _ low
      · calc
          magnitude * 2 ^ (52 - magnitude.log2)
              ≤ 2 ^ (magnitude.log2 + 1) * 2 ^ (52 - magnitude.log2) :=
                Nat.mul_le_mul_right _ (Nat.le_of_lt high)
          _ = 2 ^ 53 := by
            rw [← pow_add]
            congr 1
            omega
  · next wide =>
      obtain ⟨below, above⟩ := roundShift_bounds magnitude (magnitude.log2 - 52)
      have least : 2 ^ 52 ≤ magnitude / 2 ^ (magnitude.log2 - 52) := by
        rw [Nat.le_div_iff_mul_le (Nat.two_pow_pos _), ← pow_add]
        have whole : 52 + (magnitude.log2 - 52) = magnitude.log2 := by omega
        rw [whole]
        exact low
      have most : magnitude / 2 ^ (magnitude.log2 - 52) < 2 ^ 53 := by
        rw [Nat.div_lt_iff_lt_mul (Nat.two_pow_pos _), ← pow_add]
        have whole : 53 + (magnitude.log2 - 52) = magnitude.log2 + 1 := by omega
        rw [whole]
        exact high
      exact ⟨least.trans below, above.trans (Nat.succ_le_of_lt most)⟩

private theorem significandOf_mono {low high : Nat} (le : low ≤ high)
    (sameTop : low.log2 = high.log2) : significandOf low ≤ significandOf high := by
  rw [significandOf, significandOf, sameTop]
  split
  · exact Nat.mul_le_mul_right _ le
  · exact roundShift_mono le _

theorem floatOfMagnitude_mono {low high : Nat} (le : low ≤ high) :
    floatOfMagnitude 0 low ≤ floatOfMagnitude 0 high := by
  by_cases zero : low = 0
  · subst zero
    exact Nat.zero_le _
  · have positive : high ≠ 0 := by omega
    have lowBounds := significandOf_bounds zero
    have highBounds := significandOf_bounds positive
    rw [floatOfMagnitude_fields zero, floatOfMagnitude_fields positive]
    have tops : low.log2 ≤ high.log2 :=
      (Nat.le_log2 positive).mpr ((Nat.log2_self_le zero).trans le)
    rcases Nat.lt_or_eq_of_le tops with less | same
    · omega
    · have significands := significandOf_mono le same
      rw [same]
      omega

theorem floatOfMagnitude_lt {magnitude : Nat} (bound : magnitude < 2 ^ 64) :
    floatOfMagnitude 0 magnitude < 2047 * 2 ^ 52 := by
  by_cases zero : magnitude = 0
  · subst zero
    decide
  · have bounds := significandOf_bounds zero
    have topBound := (Nat.log2_lt zero).mpr bound
    rw [floatOfMagnitude_fields zero]
    omega

private theorem log2_mul_pow {number : Nat} (positive : number ≠ 0) (shift : Nat) :
    (number * 2 ^ shift).log2 = number.log2 + shift := by
  have power := Nat.two_pow_pos shift
  have low := Nat.log2_self_le positive
  have high := @Nat.lt_log2_self number
  rw [Nat.log2_eq_iff (Nat.mul_ne_zero positive (by omega)), pow_add]
  refine ⟨Nat.mul_le_mul_right _ low, ?_⟩
  calc
    number * 2 ^ shift < 2 ^ (number.log2 + 1) * 2 ^ shift :=
      Nat.mul_lt_mul_of_pos_right high power
    _ = 2 ^ (number.log2 + shift + 1) := by
      rw [← pow_add]
      congr 1
      omega

private theorem leading {fraction : Nat} (fits : fraction < 2 ^ 52) :
    (2 ^ 52 + fraction).log2 = 52 :=
  (Nat.log2_eq_iff (by omega)).mpr ⟨by omega, by omega⟩

/-- A whole number that some word stands for rounds to that word. -/
theorem floatOfMagnitude_of_scaled {magnitude word : Nat}
    (value : scaled word = magnitude * wholeUnit) : floatOfMagnitude 0 magnitude = word := by
  by_cases zero : magnitude = 0
  · subst zero
    rw [Nat.zero_mul, ← scaled_zero] at value
    exact (scaled_strictMono.injective value).symm
  · apply scaled_strictMono.injective
    have bounds := significandOf_bounds zero
    have unit : unitExponent = 1074 := rfl
    rw [floatOfMagnitude_fields zero, scaled_significand bounds.1 bounds.2, value, significandOf]
    split
    · next exact =>
        have total : 52 - magnitude.log2 + (magnitude.log2 + 1022) = unitExponent := by omega
        rw [Nat.mul_assoc, ← pow_add, total, wholeUnit]
    · next wide =>
        obtain ⟨exponent, fraction, fits, rfl⟩ :
            ∃ exponent fraction, fraction < 2 ^ 52 ∧ word = exponent * 2 ^ 52 + fraction :=
          ⟨word / 2 ^ 52, word % 2 ^ 52, Nat.mod_lt _ (by decide), by omega⟩
        rw [scaled_fields fits] at value
        have normal : exponent ≠ 0 := by
          intro subnormal
          rw [if_pos subnormal] at value
          have large : 2 ^ 52 ≤ magnitude * wholeUnit :=
            calc
              2 ^ 52 ≤ wholeUnit := Nat.pow_le_pow_right (by decide) (by omega)
              _ ≤ magnitude * wholeUnit := Nat.le_mul_of_pos_left _ (by omega)
          omega
        rw [if_neg normal] at value
        have top : magnitude.log2 + unitExponent = 52 + (exponent - 1) := by
          have product : (magnitude * wholeUnit).log2 = magnitude.log2 + unitExponent :=
            log2_mul_pow zero unitExponent
          rw [← value, log2_mul_pow (by omega), leading fits] at product
          exact product.symm
        have cut : exponent - 1 = magnitude.log2 - 52 + unitExponent := by omega
        have whole : magnitude = (2 ^ 52 + fraction) * 2 ^ (magnitude.log2 - 52) := by
          rw [cut, pow_add, ← Nat.mul_assoc] at value
          exact (Nat.eq_of_mul_eq_mul_right wholeUnit_pos value).symm
        have total : magnitude.log2 - 52 + unitExponent = magnitude.log2 + 1022 := by omega
        have rounded : roundShift magnitude (magnitude.log2 - 52) = 2 ^ 52 + fraction := by
          conv_lhs => rw [whole]
          have kept : ((2 ^ 52 + fraction) * 2 ^ (magnitude.log2 - 52)).log2 = magnitude.log2 := by
            rw [← whole]
          rw [kept, roundShift_mul]
        rw [rounded, ← total, pow_add, ← Nat.mul_assoc, ← whole, wholeUnit]

def placeOfInt (number : Int) : Int := number.sign * floatOfMagnitude 0 number.natAbs

theorem placeOfInt_neg (number : Int) : placeOfInt (-number) = -placeOfInt number := by
  rw [placeOfInt, placeOfInt, Int.sign_neg, Int.natAbs_neg, Int.neg_mul]

theorem placeOfInt_of_nonneg {number : Int} (nonneg : 0 ≤ number) :
    placeOfInt number = floatOfMagnitude 0 number.natAbs := by
  rcases Int.lt_or_eq_of_le nonneg with positive | zero
  · rw [placeOfInt, Int.sign_eq_one_of_pos positive, Int.one_mul]
  · rw [← zero]
    rfl

theorem placeOfInt_of_nonpos {number : Int} (nonpos : number ≤ 0) :
    placeOfInt number = -(floatOfMagnitude 0 number.natAbs : Int) := by
  have opposite := placeOfInt_of_nonneg (by omega : 0 ≤ -number)
  rw [placeOfInt_neg, Int.natAbs_neg] at opposite
  omega

theorem placeOfInt_mono {low high : Int} (le : low ≤ high) : placeOfInt low ≤ placeOfInt high := by
  rcases Int.le_total 0 low with nonneg | nonpos
  · have wider := floatOfMagnitude_mono (by omega : low.natAbs ≤ high.natAbs)
    rw [placeOfInt_of_nonneg nonneg, placeOfInt_of_nonneg (by omega)]
    omega
  · rw [placeOfInt_of_nonpos nonpos]
    rcases Int.le_total 0 high with above | below
    · rw [placeOfInt_of_nonneg above]
      omega
    · have wider := floatOfMagnitude_mono (by omega : high.natAbs ≤ low.natAbs)
      rw [placeOfInt_of_nonpos below]
      omega

theorem natAbs_placeOfInt (number : Int) :
    (placeOfInt number).natAbs = floatOfMagnitude 0 number.natAbs := by
  rcases Int.le_total 0 number with nonneg | nonpos
  · rw [placeOfInt_of_nonneg nonneg, Int.natAbs_natCast]
  · rw [placeOfInt_of_nonpos nonpos, Int.natAbs_neg, Int.natAbs_natCast]

/-- The only place that an integer can stand in exactly is the one it is rounded to. -/
theorem placeOfInt_of_units {number place : Int} (value : units place = number * wholeUnit) :
    placeOfInt number = place := by
  have positive : (0 : Int) < wholeUnit := Int.natCast_pos.mpr wholeUnit_pos
  rcases Int.le_total 0 place with nonneg | nonpos
  · rw [units_of_nonneg nonneg] at value
    have above : 0 ≤ number := by
      by_contra below
      have negative := Int.mul_neg_of_neg_of_pos (Int.not_le.mp below) positive
      omega
    have scaledValue : scaled place.natAbs = number.natAbs * wholeUnit := by
      have lifted : (number.natAbs : Int) = number := Int.natAbs_of_nonneg above
      rw [← lifted] at value
      exact_mod_cast value
    rw [placeOfInt_of_nonneg above, floatOfMagnitude_of_scaled scaledValue]
    exact Int.natAbs_of_nonneg nonneg
  · rw [units_of_nonpos nonpos] at value
    have below : number ≤ 0 := by
      by_contra above
      have product := Int.mul_pos (Int.not_le.mp above) positive
      omega
    have scaledValue : scaled place.natAbs = number.natAbs * wholeUnit := by
      have lifted : (number.natAbs : Int) = -number := Int.ofNat_natAbs_of_nonpos below
      have negated : (scaled place.natAbs : Int) = -number * wholeUnit := by
        rw [Int.neg_mul]
        omega
      rw [← lifted] at negated
      exact_mod_cast negated
    rw [placeOfInt_of_nonpos below, floatOfMagnitude_of_scaled scaledValue]
    omega

theorem toNat_unsigned (bits : UInt64) :
    (bits &&& 0x7fffffffffffffff).toNat = bits.toNat % 2 ^ 63 := by
  rw [UInt64.toNat_and]
  exact Nat.and_two_pow_sub_one_eq_mod bits.toNat 63

theorem natAbs_floatPlace (bits : UInt64) :
    (floatPlace bits).natAbs = bits.toNat % 2 ^ 63 := by
  have bound := bits.toNat_lt
  have sign : signBit.toNat = 2 ^ 63 := rfl
  rw [floatPlace]
  split
  · next below =>
      rw [UInt64.lt_iff_toNat_lt] at below
      omega
  · next above =>
      rw [UInt64.lt_iff_toNat_lt] at above
      omega

/-- The NaNs stand beyond the infinities. -/
theorem isNan_iff_floatPlace {bits : UInt64} :
    isNan bits = true ↔ 2047 * 2 ^ 52 < (floatPlace bits).natAbs := by
  have infinity : infinityBits.toNat = 2047 * 2 ^ 52 := rfl
  rw [isNan, decide_eq_true_eq, UInt64.lt_iff_toNat_lt, toNat_unsigned, natAbs_floatPlace,
    infinity]

private theorem toNat_floatOfInt (number : Int64) :
    (floatOfInt number).toNat = (if number.toInt < 0 then 2 ^ 63 else 0) +
      floatOfMagnitude 0 number.toInt.natAbs := by
  have low := number.le_toInt
  have high := number.toInt_lt
  have small := floatOfMagnitude_lt (by omega : number.toInt.natAbs < 2 ^ 64)
  rw [floatOfInt, floatOfMagnitude_sign, UInt64.toNat_ofNat']
  split <;> omega

theorem floatPlace_floatOfInt (number : Int64) :
    floatPlace (floatOfInt number) = placeOfInt number.toInt := by
  have low := number.le_toInt
  have high := number.toInt_lt
  have small := floatOfMagnitude_lt (by omega : number.toInt.natAbs < 2 ^ 64)
  have word := toNat_floatOfInt number
  have sign : signBit.toNat = 2 ^ 63 := rfl
  rw [floatPlace]
  simp only [UInt64.lt_iff_toNat_lt]
  by_cases negative : number.toInt < 0
  · rw [if_pos negative] at word
    rw [placeOfInt_of_nonpos (Int.le_of_lt negative), if_neg (by omega)]
    omega
  · rw [if_neg negative] at word
    rw [placeOfInt_of_nonneg (by omega), if_pos (by omega)]
    omega

theorem isNan_floatOfInt (number : Int64) : isNan (floatOfInt number) = false := by
  have low := number.le_toInt
  have high := number.toInt_lt
  have small := floatOfMagnitude_lt (by omega : number.toInt.natAbs < 2 ^ 64)
  rw [← Bool.not_eq_true, isNan_iff_floatPlace, floatPlace_floatOfInt, natAbs_placeOfInt]
  omega

/-- `fract() == 0.0`; an infinity has no fraction, not even zero. -/
def fractIsZero (bits : UInt64) : Bool :=
  (floatPlace bits).natAbs < 2047 * 2 ^ 52 && isWhole (floatPlace bits)

/-- `as i64`: the fraction is cut off, the range saturates and NaN is zero. -/
def asI64 (bits : UInt64) : Int64 :=
  if isNan bits then 0
  else .ofInt (max (-2 ^ 63) (min (2 ^ 63 - 1) (truncated (floatPlace bits))))

def floatGe (left right : UInt64) : Bool := (floatCmp left right).elim false Ordering.isGE

def floatLt (left right : UInt64) : Bool := (floatCmp left right).elim false Ordering.isLT

def floatLe (left right : UInt64) : Bool := (floatCmp left right).elim false Ordering.isLE

/-- The float `2 ^ 63`, just beyond the 64-bit integers. -/
def twoPow63 : UInt64 := 0x43e0000000000000

def negTwoPow63 : UInt64 := 0xc3e0000000000000

theorem floatGe_eq {left right : UInt64} (leftNumber : isNan left = false)
    (rightNumber : isNan right = false) :
    floatGe left right = decide (floatPlace right ≤ floatPlace left) := by
  rw [floatGe, floatCmp, leftNumber, rightNumber, Bool.or_self, if_neg Bool.false_ne_true,
    Option.elim_some, Bool.eq_iff_iff, Ordering.isGE_iff_ne_lt, compare_lt_iff_lt, not_lt,
    decide_eq_true_eq]

theorem floatLe_eq {left right : UInt64} (leftNumber : isNan left = false)
    (rightNumber : isNan right = false) :
    floatLe left right = decide (floatPlace left ≤ floatPlace right) := by
  rw [floatLe, floatCmp, leftNumber, rightNumber, Bool.or_self, if_neg Bool.false_ne_true,
    Option.elim_some, Bool.eq_iff_iff, Ordering.isLE_iff_ne_gt, compare_gt_iff_gt, not_lt, decide_eq_true_eq]

theorem floatLt_eq {left right : UInt64} (leftNumber : isNan left = false)
    (rightNumber : isNan right = false) :
    floatLt left right = decide (floatPlace left < floatPlace right) := by
  rw [floatLt, floatCmp, leftNumber, rightNumber, Bool.or_self, if_neg Bool.false_ne_true,
    Option.elim_some, Bool.eq_iff_iff, Ordering.isLT_iff_eq_lt, compare_lt_iff_lt,
    decide_eq_true_eq]

/-- An integer that is a float: rounding does not change it. -/
def Representable (number : Int64) : Prop :=
  units (placeOfInt number.toInt) = number.toInt * wholeUnit

instance decidableRepresentable (number : Int64) : Decidable (Representable number) :=
  inferInstanceAs (Decidable (_ = _))

private theorem wholeUnit_cast_pos : (0 : Int) < wholeUnit := Int.natCast_pos.mpr wholeUnit_pos

/-- Representable integers are told apart by their floats. -/
theorem Representable.eq_of_place {left right : Int64} (leftExact : Representable left)
    (rightExact : Representable right)
    (same : placeOfInt left.toInt = placeOfInt right.toInt) : left = right := by
  rw [Representable, same, rightExact] at leftExact
  exact Int64.toInt_inj.mp (Int.eq_of_mul_eq_mul_right (by have := wholeUnit_cast_pos; omega)
    leftExact).symm

private theorem units_twoPow63 : units (1086 * 2 ^ 52) = 2 ^ 63 * wholeUnit := by
  have word : scaled (1085 * 2 ^ 52 + 2 ^ 52) = 2 ^ 52 * 2 ^ 1085 :=
    scaled_significand (by decide) (by decide)
  have unit : 2 ^ 52 * 2 ^ 1085 = 2 ^ 63 * wholeUnit := by
    have total : 52 + 1085 = 63 + unitExponent := rfl
    rw [wholeUnit, ← pow_add, ← pow_add, total]
  have place : units (1086 * 2 ^ 52) = scaled (1085 * 2 ^ 52 + 2 ^ 52) :=
    units_of_nonneg (by decide)
  rw [place, word, unit, Nat.cast_mul]
  rfl

private theorem floatPlace_bounds :
    floatPlace negTwoPow63 = -(1086 * 2 ^ 52) ∧ floatPlace twoPow63 = 1086 * 2 ^ 52 := by
  decide

/-- Which floats are cast to an integer without a change: those whose place is
that of an integer. -/
theorem asI64_spec {bits : UInt64} (number : isNan bits = false) (whole : fractIsZero bits)
    (low : floatGe bits negTwoPow63) (high : floatLt bits twoPow63) :
    Representable (asI64 bits) ∧ placeOfInt (asI64 bits).toInt = floatPlace bits := by
  rw [floatGe_eq number (by decide), floatPlace_bounds.1, decide_eq_true_eq] at low
  rw [floatLt_eq number (by decide), floatPlace_bounds.2, decide_eq_true_eq] at high
  rw [fractIsZero, Bool.and_eq_true] at whole
  have value := units_of_isWhole whole.2
  have above : -(2 ^ 63) ≤ truncated (floatPlace bits) := by
    have bound := units_le low
    rw [units_neg, units_twoPow63, value, ← Int.neg_mul] at bound
    exact Int.le_of_mul_le_mul_right bound wholeUnit_cast_pos
  have below : truncated (floatPlace bits) < 2 ^ 63 := by
    have bound := units_lt high
    rw [units_twoPow63, value] at bound
    exact Int.lt_of_mul_lt_mul_right bound (Int.le_of_lt wholeUnit_cast_pos)
  have cast : (asI64 bits).toInt = truncated (floatPlace bits) := by
    rw [asI64, number, if_neg Bool.false_ne_true, Int64.toInt_ofInt_of_le] <;> omega
  have place : placeOfInt (asI64 bits).toInt = floatPlace bits := by
    rw [cast]
    exact placeOfInt_of_units value
  refine ⟨?_, place⟩
  rw [Representable, place, cast]
  exact value

/-- A float in the place of a representable integer is whole and within the
64-bit integers. -/
theorem whole_of_representable {integer : Int64} {bits : UInt64} (exact_ : Representable integer)
    (number : isNan bits = false) (same : placeOfInt integer.toInt = floatPlace bits) :
    fractIsZero bits = true ∧ floatGe bits negTwoPow63 = true ∧
      floatLt bits twoPow63 = true := by
  have low := integer.le_toInt
  have high := integer.toInt_lt
  rw [Representable, same] at exact_
  refine ⟨?_, ?_, ?_⟩
  · have small := floatOfMagnitude_lt (by omega : integer.toInt.natAbs < 2 ^ 64)
    rw [fractIsZero, Bool.and_eq_true, decide_eq_true_eq, ← same, natAbs_placeOfInt, same]
    exact ⟨small, isWhole_of_units exact_⟩
  · rw [floatGe_eq number (by decide), floatPlace_bounds.1, decide_eq_true_eq]
    by_contra below
    have bound := units_lt (not_le.mp below)
    rw [units_neg, units_twoPow63, exact_, ← Int.neg_mul] at bound
    exact absurd (Int.lt_of_mul_lt_mul_right bound (Int.le_of_lt wholeUnit_cast_pos))
      (by omega)
  · rw [floatLt_eq number (by decide), floatPlace_bounds.2, decide_eq_true_eq]
    by_contra above
    have bound := units_le (not_lt.mp above)
    rw [units_twoPow63, exact_] at bound
    exact absurd (Int.le_of_mul_le_mul_right bound wholeUnit_cast_pos) (by omega)

/-- Floats in one place are one float, but for the two zeros. -/
theorem eq_of_floatPlace {left right : UInt64} (same : floatPlace left = floatPlace right)
    (nonzero : floatPlace left ≠ 0) : left = right := by
  have sign : signBit.toNat = 2 ^ 63 := rfl
  have leftBound := left.toNat_lt
  have rightBound := right.toNat_lt
  rw [floatPlace] at nonzero
  rw [floatPlace, floatPlace] at same
  simp only [UInt64.lt_iff_toNat_lt] at same nonzero
  apply UInt64.toNat_inj.mp
  split at nonzero <;> split at same <;> split at same <;> omega

end Acetone.Cypher

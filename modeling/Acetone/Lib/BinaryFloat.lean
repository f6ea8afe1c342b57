import Mathlib.Algebra.Order.Ring.Nat
import Mathlib.Data.Nat.Log
import Mathlib.Tactic.Ring
import Mathlib.Tactic.Positivity

/-!
# Words of the binary interchange formats

A floating-point word is a natural number with three fields.  Widening is
exact; narrowing rounds to nearest, ties to even.  A widened number narrows
back to the word it came from (`toBinary32_ofBinary32`), which is all that a
test of exactness by a round trip relies on.
-/

namespace Acetone.Lib

structure FloatLayout where
  exponentBits : Nat
  fractionBits : Nat

def binary16 : FloatLayout := ⟨5, 10⟩
def binary32 : FloatLayout := ⟨8, 23⟩
def binary64 : FloatLayout := ⟨11, 52⟩

namespace FloatLayout

variable (layout : FloatLayout)

def signOf (word : Nat) : Nat :=
  word / 2 ^ (layout.exponentBits + layout.fractionBits)

def exponentOf (word : Nat) : Nat :=
  word / 2 ^ layout.fractionBits % 2 ^ layout.exponentBits

def fractionOf (word : Nat) : Nat := word % 2 ^ layout.fractionBits

/-- The fields do not overlap, so their bitwise union is a sum. -/
def pack (sign exponent fraction : Nat) : Nat :=
  sign * 2 ^ (layout.exponentBits + layout.fractionBits) +
    exponent * 2 ^ layout.fractionBits + fraction

/-- The exponent field of infinities and NaNs. -/
def topExponent : Nat := 2 ^ layout.exponentBits - 1

def IsNan (word : Nat) : Prop :=
  layout.exponentOf word = layout.topExponent ∧ layout.fractionOf word ≠ 0

instance decidableIsNan (word : Nat) : Decidable (layout.IsNan word) :=
  instDecidableAnd

theorem exponentOf_lt (word : Nat) :
    layout.exponentOf word < 2 ^ layout.exponentBits :=
  Nat.mod_lt _ (by positivity)

theorem fractionOf_lt (word : Nat) :
    layout.fractionOf word < 2 ^ layout.fractionBits :=
  Nat.mod_lt _ (by positivity)

theorem signOf_lt {word : Nat}
    (bound : word < 2 ^ (1 + layout.exponentBits + layout.fractionBits)) :
    layout.signOf word < 2 := by
  apply Nat.div_lt_of_lt_mul
  rw [Nat.mul_comm, ← pow_succ']
  simpa [Nat.add_comm, Nat.add_left_comm, Nat.add_assoc] using bound

theorem pack_fields (word : Nat) :
    layout.pack (layout.signOf word) (layout.exponentOf word)
      (layout.fractionOf word) = word := by
  have low := Nat.div_add_mod' word (2 ^ layout.fractionBits)
  have high := Nat.div_add_mod' (word / 2 ^ layout.fractionBits)
    (2 ^ layout.exponentBits)
  have sign : layout.signOf word =
      word / 2 ^ layout.fractionBits / 2 ^ layout.exponentBits := by
    rw [signOf, Nat.div_div_eq_div_mul, ← pow_add, Nat.add_comm]
  calc
    layout.pack (layout.signOf word) (layout.exponentOf word)
        (layout.fractionOf word)
        = (word / 2 ^ layout.fractionBits / 2 ^ layout.exponentBits *
              2 ^ layout.exponentBits +
            word / 2 ^ layout.fractionBits % 2 ^ layout.exponentBits) *
            2 ^ layout.fractionBits + word % 2 ^ layout.fractionBits := by
          rw [pack, sign, exponentOf, fractionOf, pow_add]
          ring
    _ = word := by rw [high, low]

variable {layout} {sign exponent fraction : Nat}

theorem fractionOf_pack (fractionBound : fraction < 2 ^ layout.fractionBits) :
    layout.fractionOf (layout.pack sign exponent fraction) = fraction := by
  have split : layout.pack sign exponent fraction =
      fraction + 2 ^ layout.fractionBits *
        (sign * 2 ^ layout.exponentBits + exponent) := by
    rw [pack, pow_add]
    ring
  rw [fractionOf, split, Nat.add_mul_mod_self_left, Nat.mod_eq_of_lt fractionBound]

theorem exponentOf_pack (exponentBound : exponent < 2 ^ layout.exponentBits)
    (fractionBound : fraction < 2 ^ layout.fractionBits) :
    layout.exponentOf (layout.pack sign exponent fraction) = exponent := by
  have split : layout.pack sign exponent fraction =
      fraction + 2 ^ layout.fractionBits *
        (sign * 2 ^ layout.exponentBits + exponent) := by
    rw [pack, pow_add]
    ring
  rw [exponentOf, split, Nat.add_mul_div_left _ _ (by positivity),
    Nat.div_eq_of_lt fractionBound, Nat.zero_add, Nat.add_comm,
    Nat.add_mul_mod_self_right, Nat.mod_eq_of_lt exponentBound]

theorem signOf_pack (exponentBound : exponent < 2 ^ layout.exponentBits)
    (fractionBound : fraction < 2 ^ layout.fractionBits) :
    layout.signOf (layout.pack sign exponent fraction) = sign := by
  have split : layout.pack sign exponent fraction =
      fraction + 2 ^ layout.fractionBits *
        (exponent + 2 ^ layout.exponentBits * sign) := by
    rw [pack, pow_add]
    ring
  rw [signOf, split, Nat.add_comm layout.exponentBits, pow_add,
    ← Nat.div_div_eq_div_mul, Nat.add_mul_div_left _ _ (by positivity),
    Nat.div_eq_of_lt fractionBound, Nat.zero_add,
    Nat.add_mul_div_left _ _ (by positivity),
    Nat.div_eq_of_lt exponentBound, Nat.zero_add]

theorem pack_lt (signBound : sign < 2)
    (exponentBound : exponent < 2 ^ layout.exponentBits)
    (fractionBound : fraction < 2 ^ layout.fractionBits) :
    layout.pack sign exponent fraction <
      2 ^ (1 + layout.exponentBits + layout.fractionBits) := by
  have low : exponent * 2 ^ layout.fractionBits + fraction <
      2 ^ layout.exponentBits * 2 ^ layout.fractionBits := by
    calc
      exponent * 2 ^ layout.fractionBits + fraction
          < (exponent + 1) * 2 ^ layout.fractionBits := by
            rw [Nat.add_mul]
            omega
      _ ≤ 2 ^ layout.exponentBits * 2 ^ layout.fractionBits :=
            Nat.mul_le_mul_right _ exponentBound
  have high : sign * (2 ^ layout.exponentBits * 2 ^ layout.fractionBits) ≤
      1 * (2 ^ layout.exponentBits * 2 ^ layout.fractionBits) :=
    Nat.mul_le_mul_right _ (Nat.le_of_lt_succ signBound)
  have double : 2 ^ (1 + layout.exponentBits + layout.fractionBits) =
      2 * (2 ^ layout.exponentBits * 2 ^ layout.fractionBits) := by
    rw [Nat.add_assoc, pow_add, pow_add, pow_one]
  rw [pack, double, pow_add]
  omega

theorem pack_zero_add (low : Nat) :
    layout.pack sign exponent 0 + low = layout.pack sign exponent low := by
  rw [pack, pack, Nat.add_zero]

/-- A fraction that overflows its field carries into the exponent. -/
theorem pack_carry :
    layout.pack sign exponent (2 ^ layout.fractionBits + fraction) =
      layout.pack sign (exponent + 1) fraction := by
  rw [pack, pack, Nat.succ_mul]
  omega

end FloatLayout

/-- The binary64 word of `± significand * 2 ^ exponent`, for a significand of
at most 53 bits and a product in the normal range. -/
def ofScaled (sign significand : Nat) (exponent : Int) : Nat :=
  if significand = 0 then binary64.pack sign 0 0
  else binary64.pack sign (significand.log2 + exponent + 1023).toNat
    ((significand - 2 ^ significand.log2) * 2 ^ (52 - significand.log2))

/-- The fields of the word of a number whose leading bit is known. -/
theorem ofScaled_of_top {sign significand top : Nat} {exponent : Int}
    (low : 2 ^ top ≤ significand) (high : significand < 2 ^ (top + 1)) :
    ofScaled sign significand exponent =
      binary64.pack sign (top + exponent + 1023).toNat
        ((significand - 2 ^ top) * 2 ^ (52 - top)) := by
  have nonzero : significand ≠ 0 := by
    have := Nat.two_pow_pos top
    omega
  have isTop : significand.log2 = top := (Nat.log2_eq_iff nonzero).mpr ⟨low, high⟩
  rw [ofScaled, if_neg nonzero, isTop]

/-- Dropping the leading bit and shifting up fits the fraction field. -/
theorem shiftedFraction_lt {significand top : Nat} (fits : top ≤ 52)
    (high : significand < 2 ^ (top + 1)) :
    (significand - 2 ^ top) * 2 ^ (52 - top) < 2 ^ 52 := by
  have positive := Nat.two_pow_pos top
  have less : significand - 2 ^ top < 2 ^ top := by
    rw [pow_succ] at high
    omega
  calc
    (significand - 2 ^ top) * 2 ^ (52 - top)
        < 2 ^ top * 2 ^ (52 - top) :=
          Nat.mul_lt_mul_of_pos_right less (by positivity)
    _ = 2 ^ 52 := by rw [← pow_add, Nat.add_sub_cancel' fits]

/-- With its leading bit restored, the fraction is the significand shifted
up. -/
theorem restored_fraction {significand top : Nat} (fits : top ≤ 52)
    (low : 2 ^ top ≤ significand) :
    2 ^ 52 + (significand - 2 ^ top) * 2 ^ (52 - top) =
      significand * 2 ^ (52 - top) := by
  rw [Nat.sub_mul, ← pow_add, Nat.add_sub_cancel' fits]
  have larger : 2 ^ 52 ≤ significand * 2 ^ (52 - top) := by
    calc
      2 ^ 52 = 2 ^ top * 2 ^ (52 - top) := by
        rw [← pow_add, Nat.add_sub_cancel' fits]
      _ ≤ significand * 2 ^ (52 - top) := Nat.mul_le_mul_right _ low
  omega

/-- An exact word in range: a valid word, and a number. -/
theorem ofScaled_spec {sign significand : Nat} {exponent : Int}
    (signBound : sign < 2) (fits : significand < 2 ^ 53)
    (inRange : significand ≠ 0 → 1 ≤ significand.log2 + exponent + 1023 ∧
      significand.log2 + exponent + 1023 ≤ 2046) :
    ofScaled sign significand exponent < 2 ^ 64 ∧
      ¬ binary64.IsNan (ofScaled sign significand exponent) := by
  by_cases zero : significand = 0
  · rw [ofScaled, if_pos zero]
    refine ⟨@FloatLayout.pack_lt binary64 _ _ _ signBound (by decide) (by decide), ?_⟩
    rintro ⟨-, nonzero⟩
    exact nonzero (@FloatLayout.fractionOf_pack binary64 _ _ _ (by decide))
  · obtain ⟨above, below⟩ := inRange zero
    have topBound : significand.log2 < 53 := (Nat.log2_lt zero).mpr fits
    have fractionBound := shiftedFraction_lt (by omega : significand.log2 ≤ 52)
      Nat.lt_log2_self
    have exponentBound : (significand.log2 + exponent + 1023).toNat < 2 ^ 11 := by omega
    rw [ofScaled, if_neg zero]
    refine ⟨@FloatLayout.pack_lt binary64 _ _ _ signBound exponentBound fractionBound, ?_⟩
    rintro ⟨isTop, -⟩
    rw [@FloatLayout.exponentOf_pack binary64 _ _ _ exponentBound fractionBound] at isTop
    have top : binary64.topExponent = 2047 := rfl
    omega

/-- Widening, `f64::from(f32)`.  A NaN is made quiet and keeps its payload. -/
def ofBinary32 (word : Nat) : Nat :=
  let sign := binary32.signOf word
  let exponent := binary32.exponentOf word
  let fraction := binary32.fractionOf word
  if exponent = 255 then
    if fraction = 0 then binary64.pack sign 2047 0
    else binary64.pack sign 2047 ((fraction % 2 ^ 22 + 2 ^ 22) * 2 ^ 29)
  else if exponent = 0 then ofScaled sign fraction (-149)
  else ofScaled sign (2 ^ 23 + fraction) (exponent - 150)

/-- `value / 2 ^ shift`, rounded to nearest, ties to even. -/
def roundShift (value shift : Nat) : Nat :=
  let quotient := value / 2 ^ shift
  let remainder := value % 2 ^ shift
  if 2 ^ shift < 2 * remainder ∨ (2 * remainder = 2 ^ shift ∧ quotient % 2 = 1)
  then quotient + 1 else quotient

/-- Narrowing, `f64 as f32`.  Below the normal range the significand is
shifted further; a carry out of the rounding moves into the exponent field,
and past the largest exponent that makes an infinity. -/
def toBinary32 (word : Nat) : Nat :=
  let sign := binary64.signOf word
  let exponent := binary64.exponentOf word
  let fraction := binary64.fractionOf word
  if exponent = 2047 then
    if fraction = 0 then binary32.pack sign 255 0
    else binary32.pack sign 255 (fraction / 2 ^ 29 % 2 ^ 22 + 2 ^ 22)
  else
    let significand := if exponent = 0 then fraction else 2 ^ 52 + fraction
    let scale := max exponent 1
    if 1151 ≤ scale then binary32.pack sign 255 0
    else binary32.pack sign (scale - 897) 0 +
      roundShift significand (29 + (897 - scale))

theorem ofBinary32_spec {word : Nat} (bound : word < 2 ^ 32) :
    ofBinary32 word < 2 ^ 64 ∧
      (binary64.IsNan (ofBinary32 word) ↔ binary32.IsNan word) := by
  have signBound : binary32.signOf word < 2 := binary32.signOf_lt bound
  have exponentBound : binary32.exponentOf word < 256 := binary32.exponentOf_lt word
  have fractionBound : binary32.fractionOf word < 2 ^ 23 := binary32.fractionOf_lt word
  by_cases isTop : binary32.exponentOf word = 255
  · by_cases noFraction : binary32.fractionOf word = 0
    · have finite : ¬ binary32.IsNan word := fun nan => nan.2 noFraction
      simp only [ofBinary32, if_pos isTop, if_pos noFraction, finite, iff_false]
      refine ⟨@FloatLayout.pack_lt binary64 _ _ _ signBound (by decide) (by decide), ?_⟩
      rintro ⟨-, nonzero⟩
      exact nonzero (@FloatLayout.fractionOf_pack binary64 _ _ _ (by decide))
    · have nan : binary32.IsNan word := ⟨isTop, noFraction⟩
      have payload : (binary32.fractionOf word % 2 ^ 22 + 2 ^ 22) * 2 ^ 29 < 2 ^ 52 := by
        omega
      simp only [ofBinary32, if_pos isTop, if_neg noFraction, nan, iff_true]
      refine ⟨@FloatLayout.pack_lt binary64 _ _ _ signBound (by decide) payload,
        @FloatLayout.exponentOf_pack binary64 _ _ _ (by decide) payload, ?_⟩
      rw [@FloatLayout.fractionOf_pack binary64 _ _ _ payload]
      omega
  · have finite : ¬ binary32.IsNan word := fun nan => isTop nan.1
    rw [iff_false_intro finite, iff_false]
    simp only [ofBinary32, if_neg isTop]
    split
    · apply ofScaled_spec signBound (by omega)
      intro nonzero
      have topBound : (binary32.fractionOf word).log2 < 23 :=
        (Nat.log2_lt nonzero).mpr fractionBound
      omega
    · apply ofScaled_spec signBound (by omega)
      intro nonzero
      have top : (2 ^ 23 + binary32.fractionOf word).log2 = 23 :=
        (Nat.log2_eq_iff nonzero).mpr (by omega)
      omega

theorem roundShift_mul (quotient shift : Nat) :
    roundShift (quotient * 2 ^ shift) shift = quotient := by
  have positive := Nat.two_pow_pos shift
  simp only [roundShift, Nat.mul_mod_left, Nat.mul_div_cancel _ positive]
  rw [if_neg (by omega)]

/-- Narrowing an exact word takes its significand apart again. -/
private theorem toBinary32_ofScaled {sign significand top : Nat} {exponent : Int}
    (fits : top ≤ 52) (low : 2 ^ top ≤ significand)
    (high : significand < 2 ^ (top + 1))
    (above : 1 ≤ top + exponent + 1023) (below : top + exponent + 1023 < 1151) :
    toBinary32 (ofScaled sign significand exponent) =
      binary32.pack sign ((top + exponent + 1023).toNat - 897) 0 +
        roundShift (significand * 2 ^ (52 - top))
          (29 + (897 - (top + exponent + 1023).toNat)) := by
  have fractionBound := shiftedFraction_lt fits high
  have exponentBound : (top + exponent + 1023).toNat < 2 ^ 11 := by omega
  have sameSign := @FloatLayout.signOf_pack binary64 sign _ _ exponentBound fractionBound
  have sameExponent := @FloatLayout.exponentOf_pack binary64 sign _ _ exponentBound
    fractionBound
  have sameFraction := @FloatLayout.fractionOf_pack binary64 sign
    (top + exponent + 1023).toNat _ fractionBound
  simp only [ofScaled_of_top low high, toBinary32, sameSign, sameExponent, sameFraction]
  rw [if_neg (by omega), if_neg (by omega), if_neg (by omega),
    max_eq_left (by omega), restored_fraction fits low]

theorem toBinary32_ofBinary32 {word : Nat} (number : ¬ binary32.IsNan word) :
    toBinary32 (ofBinary32 word) = word := by
  have fields := binary32.pack_fields word
  have exponentBound : binary32.exponentOf word < 256 := binary32.exponentOf_lt word
  have fractionBound : binary32.fractionOf word < 2 ^ 23 := binary32.fractionOf_lt word
  by_cases isTop : binary32.exponentOf word = 255
  · have noFraction : binary32.fractionOf word = 0 := by
      by_contra nonzero
      exact number ⟨isTop, nonzero⟩
    have sameSign := @FloatLayout.signOf_pack binary64 (binary32.signOf word) 2047 0
      (by decide) (by decide)
    have sameExponent := @FloatLayout.exponentOf_pack binary64 (binary32.signOf word)
      2047 0 (by decide) (by decide)
    have sameFraction := @FloatLayout.fractionOf_pack binary64 (binary32.signOf word)
      2047 0 (by decide)
    rw [isTop, noFraction] at fields
    simp only [ofBinary32, isTop, noFraction, if_true, toBinary32, sameSign,
      sameExponent, sameFraction, fields]
  · by_cases subnormal : binary32.exponentOf word = 0
    · by_cases zero : binary32.fractionOf word = 0
      · have sameSign := @FloatLayout.signOf_pack binary64 (binary32.signOf word) 0 0
          (by decide) (by decide)
        have sameExponent := @FloatLayout.exponentOf_pack binary64
          (binary32.signOf word) 0 0 (by decide) (by decide)
        have sameFraction := @FloatLayout.fractionOf_pack binary64
          (binary32.signOf word) 0 0 (by decide)
        have widened : ofBinary32 word = binary64.pack (binary32.signOf word) 0 0 := by
          simp only [ofBinary32, if_neg isTop, if_pos subnormal, zero, ofScaled, if_true]
        rw [subnormal, zero] at fields
        have rounded : roundShift 0 (29 + (897 - max 0 1)) = 0 := by
          have exact := roundShift_mul 0 (29 + (897 - max 0 1))
          rwa [Nat.zero_mul] at exact
        rw [widened]
        simp only [toBinary32, sameSign, sameExponent, sameFraction, if_true]
        rw [if_neg (by omega), if_neg (by omega), rounded, Nat.add_zero]
        exact fields
      · have low := Nat.log2_self_le zero
        have high := @Nat.lt_log2_self (binary32.fractionOf word)
        have topBound : (binary32.fractionOf word).log2 < 23 :=
          (Nat.log2_lt zero).mpr fractionBound
        have shift : 29 + (897 - ((binary32.fractionOf word).log2 + (-149) + 1023 : Int).toNat) =
            52 - (binary32.fractionOf word).log2 := by omega
        have base : ((binary32.fractionOf word).log2 + (-149) + 1023 : Int).toNat - 897 = 0 := by
          omega
        simp only [ofBinary32, if_neg isTop, if_pos subnormal]
        rw [toBinary32_ofScaled (by omega) low high (by omega) (by omega), shift, base,
          roundShift_mul]
        rw [subnormal] at fields
        rw [FloatLayout.pack_zero_add]
        exact fields
    · have low : 2 ^ 23 ≤ 2 ^ 23 + binary32.fractionOf word := Nat.le_add_right _ _
      have high : 2 ^ 23 + binary32.fractionOf word < 2 ^ (23 + 1) := by omega
      have shift : 29 + (897 - ((23 : Nat) + (binary32.exponentOf word - 150 : Int) + 1023).toNat) =
          52 - 23 := by omega
      have base : ((23 : Nat) + (binary32.exponentOf word - 150 : Int) + 1023).toNat - 897 =
          binary32.exponentOf word - 1 := by omega
      simp only [ofBinary32, if_neg isTop, if_neg subnormal]
      have raised : binary32.exponentOf word - 1 + 1 = binary32.exponentOf word := by omega
      have carried := @FloatLayout.pack_carry binary32 (binary32.signOf word)
        (binary32.exponentOf word - 1) (binary32.fractionOf word)
      rw [raised, fields] at carried
      rw [toBinary32_ofScaled (by omega) low high (by omega) (by omega), shift, base,
        roundShift_mul, FloatLayout.pack_zero_add]
      exact carried

end Acetone.Lib

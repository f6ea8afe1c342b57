import Mathlib.Algebra.Order.Ring.Int
import Mathlib.Order.Monotone.Basic
import Mathlib.Tactic.Ring
import Acetone.Lib.BinaryFloat

/-!
# The order of binary64 numbers

The place of a number counts the words between it and zero, down below zero.
A number is a whole multiple of the least positive one, and its place orders it
as that multiple does.  Rounding to a fixed number of places keeps the order.
-/

namespace Acetone.Lib

/-- The multiple of the least positive number that a word without sign stands
for.  The words past the finite ones continue the scale. -/
def scaled (word : Nat) : Nat :=
  if word / 2 ^ 52 = 0 then word % 2 ^ 52
  else (2 ^ 52 + word % 2 ^ 52) * 2 ^ (word / 2 ^ 52 - 1)

def unitExponent : Nat := 1074

/-- The multiple that is one. -/
def wholeUnit : Nat := 2 ^ unitExponent

theorem wholeUnit_pos : 0 < wholeUnit := Nat.two_pow_pos unitExponent

theorem scaled_zero : scaled 0 = 0 := rfl

theorem scaled_fields {exponent fraction : Nat} (fits : fraction < 2 ^ 52) :
    scaled (exponent * 2 ^ 52 + fraction) =
      if exponent = 0 then fraction else (2 ^ 52 + fraction) * 2 ^ (exponent - 1) := by
  have high : (exponent * 2 ^ 52 + fraction) / 2 ^ 52 = exponent := by omega
  have low : (exponent * 2 ^ 52 + fraction) % 2 ^ 52 = fraction := by omega
  rw [scaled, high, low]

/-- A significand that is added above the exponent field raises the exponent. -/
theorem scaled_significand {exponent significand : Nat} (low : 2 ^ 52 ≤ significand)
    (high : significand ≤ 2 ^ 53) :
    scaled (exponent * 2 ^ 52 + significand) = significand * 2 ^ exponent := by
  rcases Nat.lt_or_ge significand (2 ^ 53) with below | full
  · have split : exponent * 2 ^ 52 + significand =
        (exponent + 1) * 2 ^ 52 + (significand - 2 ^ 52) := by omega
    have restored : 2 ^ 52 + (significand - 2 ^ 52) = significand := by omega
    rw [split, scaled_fields (by omega), if_neg (Nat.succ_ne_zero exponent), restored,
      Nat.add_sub_cancel]
  · obtain rfl : significand = 2 ^ 53 := Nat.le_antisymm high full
    have split : exponent * 2 ^ 52 + 2 ^ 53 = (exponent + 2) * 2 ^ 52 + 0 := by omega
    have raised : exponent + 2 - 1 = exponent + 1 := rfl
    rw [split, scaled_fields (by omega), if_neg (by omega), raised, Nat.add_zero, pow_succ]
    ring

theorem scaled_strictMono : StrictMono scaled := by
  apply strictMono_nat_of_lt_succ
  intro word
  obtain ⟨exponent, fraction, fits, rfl⟩ :
      ∃ exponent fraction, fraction < 2 ^ 52 ∧ word = exponent * 2 ^ 52 + fraction :=
    ⟨word / 2 ^ 52, word % 2 ^ 52, Nat.mod_lt _ (by decide), by omega⟩
  rw [scaled_fields fits]
  by_cases last : fraction + 1 = 2 ^ 52
  · rw [Nat.add_assoc, last, scaled_significand (Nat.le_refl _) (by decide)]
    by_cases subnormal : exponent = 0
    · rw [if_pos subnormal, subnormal]
      omega
    · rw [if_neg subnormal]
      have positive := Nat.two_pow_pos (exponent - 1)
      calc
        (2 ^ 52 + fraction) * 2 ^ (exponent - 1)
            < (2 ^ 52 + 2 ^ 52) * 2 ^ (exponent - 1) :=
              Nat.mul_lt_mul_of_pos_right (by omega) positive
        _ = 2 ^ 52 * 2 ^ (exponent - 1 + 1) := by ring
        _ = 2 ^ 52 * 2 ^ exponent := by rw [Nat.sub_add_cancel (by omega)]
  · rw [Nat.add_assoc, scaled_fields (by omega)]
    by_cases subnormal : exponent = 0
    · rw [if_pos subnormal, if_pos subnormal]
      omega
    · rw [if_neg subnormal, if_neg subnormal]
      exact Nat.mul_lt_mul_of_pos_right (by omega) (Nat.two_pow_pos _)

theorem roundShift_bounds (value shift : Nat) :
    value / 2 ^ shift ≤ roundShift value shift ∧
      roundShift value shift ≤ value / 2 ^ shift + 1 := by
  simp only [roundShift]
  split <;> omega

theorem roundShift_mono {low high : Nat} (le : low ≤ high) (shift : Nat) :
    roundShift low shift ≤ roundShift high shift := by
  have quotients : low / 2 ^ shift ≤ high / 2 ^ shift := Nat.div_le_div_right le
  rcases Nat.lt_or_eq_of_le quotients with less | same
  · exact (roundShift_bounds low shift).2.trans
      (Nat.succ_le_of_lt less |>.trans (roundShift_bounds high shift).1)
  · have lowParts := Nat.div_add_mod low (2 ^ shift)
    have highParts := Nat.div_add_mod high (2 ^ shift)
    have remainders : low % 2 ^ shift ≤ high % 2 ^ shift := by
      rw [same] at lowParts
      omega
    simp only [roundShift, same]
    split
    · rw [if_pos (by omega)]
    · split <;> omega

/-- The multiple of the least positive number that stands in a place. -/
def units (place : Int) : Int := place.sign * scaled place.natAbs

theorem units_of_nonneg {place : Int} (nonneg : 0 ≤ place) :
    units place = scaled place.natAbs := by
  rcases Int.lt_or_eq_of_le nonneg with positive | zero
  · rw [units, Int.sign_eq_one_of_pos positive, Int.one_mul]
  · rw [← zero]
    rfl

theorem units_neg (place : Int) : units (-place) = -units place := by
  rw [units, units, Int.sign_neg, Int.natAbs_neg, Int.neg_mul]

theorem units_of_nonpos {place : Int} (nonpos : place ≤ 0) :
    units place = -scaled place.natAbs := by
  have nonneg : 0 ≤ -place := by omega
  have opposite := units_of_nonneg nonneg
  rw [units_neg, Int.natAbs_neg] at opposite
  omega

theorem units_lt {first second : Int} (less : first < second) : units first < units second := by
  rcases Int.lt_or_le first 0 with negative | nonneg
  · rw [units_of_nonpos (Int.le_of_lt negative)]
    have downward : 0 < scaled first.natAbs := by
      rw [← scaled_zero]
      exact scaled_strictMono (by omega)
    rcases Int.lt_or_le second 0 with alsoNegative | upward
    · rw [units_of_nonpos (Int.le_of_lt alsoNegative)]
      have further := scaled_strictMono (by omega : second.natAbs < first.natAbs)
      omega
    · rw [units_of_nonneg upward]
      omega
  · rw [units_of_nonneg nonneg, units_of_nonneg (by omega)]
    have further := scaled_strictMono (by omega : first.natAbs < second.natAbs)
    omega

theorem units_le {first second : Int} (upTo : first ≤ second) : units first ≤ units second :=
  (show StrictMono units from fun _ _ => units_lt).monotone upTo

/-- The integer part of the number in a place, towards zero. -/
def truncated (place : Int) : Int := (units place).tdiv wholeUnit

def isWhole (place : Int) : Bool := units place % wholeUnit = 0

theorem units_of_isWhole {place : Int} (whole : isWhole place) :
    units place = truncated place * wholeUnit := by
  rw [isWhole, decide_eq_true_eq] at whole
  exact (Int.tdiv_mul_cancel (Int.dvd_of_emod_eq_zero whole)).symm

theorem isWhole_of_units {place number : Int} (value : units place = number * wholeUnit) :
    isWhole place = true := by
  rw [isWhole, decide_eq_true_eq, value]
  exact Int.mul_emod_left _ _

end Acetone.Lib

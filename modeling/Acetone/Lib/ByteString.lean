import Mathlib.Data.List.Lex
import Mathlib.Order.Lattice
import Mathlib.Tactic.Positivity
import Mathlib.Tactic.Ring
import Mathlib.Algebra.Order.Ring.Nat

/-!
# Byte strings, their order and big-endian digits

Byte strings are lists of `UInt8`.  They carry two presentations of the same
order: `lexCmp`, which computes an `Ordering`, and the linear order that lists
inherit from their elements.  `Below` names the case of `lexCmp` in which both
strings still have a byte at the first difference; it is the only case that
survives appending arbitrary suffixes, so order-preserving codes are built
from it.
-/

namespace Acetone.Lib

abbrev Bytes := List UInt8

instance byteLinearOrder : LinearOrder UInt8 where
  le_refl := UInt8.le_refl
  le_trans := fun _ _ _ => UInt8.le_trans
  le_antisymm := fun _ _ => UInt8.le_antisymm
  le_total := UInt8.le_total
  lt_iff_le_not_ge := by
    intro left right
    simp only [UInt8.lt_iff_toNat_lt, UInt8.le_iff_toNat_le]
    omega
  toDecidableLE := inferInstance
  toDecidableEq := inferInstance
  toDecidableLT := inferInstance
  compare_eq_compareOfLessAndEq := fun _ _ => rfl

instance bytesMemDecidable (bytes : Bytes) (strings : List Bytes) :
    Decidable (bytes ∈ strings) :=
  List.instDecidableMemOfLawfulBEq bytes strings

/-- Unsigned lexicographic byte order; a proper prefix sorts first. -/
def lexCmp : Bytes → Bytes → Ordering
  | [], [] => .eq
  | [], _ :: _ => .lt
  | _ :: _, [] => .gt
  | left :: lefts, right :: rights =>
      (compare left right).then (lexCmp lefts rights)

/-- The strings differ at a byte both of them have, and `left` is smaller
there. -/
inductive Below : Bytes → Bytes → Prop where
  | head {left right : UInt8} {lefts rights : Bytes} :
      left < right → Below (left :: lefts) (right :: rights)
  | tail {byte : UInt8} {lefts rights : Bytes} :
      Below lefts rights → Below (byte :: lefts) (byte :: rights)

/-- `order` describes how two code words relate, in the sense that survives
concatenation. -/
def Agrees (order : Ordering) (left right : Bytes) : Prop :=
  match order with
  | .lt => Below left right
  | .eq => left = right
  | .gt => Below right left

namespace Below

theorem append {left right : Bytes} (below : Below left right)
    (leftRest rightRest : Bytes) :
    Below (left ++ leftRest) (right ++ rightRest) := by
  induction below with
  | head less => exact .head less
  | tail _ ih => exact .tail ih

theorem append_left {left right : Bytes} (below : Below left right)
    (shared : Bytes) : Below (shared ++ left) (shared ++ right) := by
  induction shared with
  | nil => exact below
  | cons byte shared ih => exact .tail ih

theorem lexCmp_eq_lt {left right : Bytes} (below : Below left right) :
    lexCmp left right = .lt := by
  induction below with
  | head less =>
      simp [lexCmp, compare_lt_iff_lt.mpr less]
  | tail _ ih => simpa [lexCmp] using ih

theorem lexCmp_eq_gt {left right : Bytes} (below : Below left right) :
    lexCmp right left = .gt := by
  induction below with
  | head less =>
      simp [lexCmp, compare_gt_iff_gt.mpr less]
  | tail _ ih => simpa [lexCmp] using ih

end Below

namespace Agrees

theorem lexCmp_eq {order : Ordering} {left right : Bytes}
    (agrees : Agrees order left right) : lexCmp left right = order := by
  cases order with
  | lt => exact Below.lexCmp_eq_lt agrees
  | eq =>
      cases agrees
      induction left with
      | nil => rfl
      | cons byte left ih => simpa [lexCmp] using ih
  | gt => exact Below.lexCmp_eq_gt agrees

theorem append {first second : Ordering}
    {left right leftRest rightRest : Bytes}
    (head : Agrees first left right)
    (rest : first = .eq → Agrees second leftRest rightRest) :
    Agrees (first.then second) (left ++ leftRest) (right ++ rightRest) := by
  cases first with
  | lt => exact Below.append head _ _
  | gt => exact Below.append head _ _
  | eq =>
      have same : left = right := head
      subst same
      have tail := rest rfl
      cases second with
      | lt => exact Below.append_left tail left
      | eq => exact congrArg (left ++ ·) tail
      | gt => exact Below.append_left tail left

theorem cons {order : Ordering} {left right : Bytes} (byte : UInt8)
    (agrees : Agrees order left right) :
    Agrees order (byte :: left) (byte :: right) := by
  cases order with
  | lt => exact .tail agrees
  | eq => exact congrArg (byte :: ·) agrees
  | gt => exact .tail agrees

theorem head_lt {left right : UInt8} (less : left < right)
    (lefts rights : Bytes) :
    Agrees .lt (left :: lefts) (right :: rights) :=
  Below.head less

theorem lexCmp_append {order : Ordering} {left right : Bytes}
    (agrees : Agrees order left right) (leftRest rightRest : Bytes) :
    lexCmp (left ++ leftRest) (right ++ rightRest) =
      order.then (lexCmp leftRest rightRest) := by
  cases order with
  | lt => exact (Below.append agrees leftRest rightRest).lexCmp_eq_lt
  | eq =>
      cases agrees
      induction left with
      | nil => rfl
      | cons byte left ih => simpa [lexCmp] using ih
  | gt => exact (Below.append agrees rightRest leftRest).lexCmp_eq_gt

end Agrees

theorem lexCmp_self (bytes : Bytes) : lexCmp bytes bytes = .eq :=
  @Agrees.lexCmp_eq .eq bytes bytes rfl

theorem lexCmp_swap (left right : Bytes) :
    (lexCmp left right).swap = lexCmp right left := by
  induction left generalizing right with
  | nil => cases right <;> rfl
  | cons byte left ih =>
      cases right with
      | nil => rfl
      | cons other right =>
          rw [lexCmp, lexCmp, Ordering.swap_then, ih,
            ← Std.OrientedOrd.eq_swap]

theorem lexCmp_eq_compareLex : lexCmp = List.compareLex compare := by
  funext left right
  induction left generalizing right with
  | nil => cases right <;> rfl
  | cons byte left ih =>
      cases right with
      | nil => rfl
      | cons other right =>
          rw [lexCmp, ih, List.compareLex_cons_cons]

instance lexCmpTrans : Std.TransCmp lexCmp := by
  rw [lexCmp_eq_compareLex]
  infer_instance

instance lexCmpLawful : Std.LawfulEqCmp lexCmp := by
  rw [lexCmp_eq_compareLex]
  infer_instance

/-- The `width` big-endian bytes of `value`, as `to_be_bytes` writes them. -/
def beBytes : Nat → Nat → Bytes
  | 0, _ => []
  | width + 1, value =>
      UInt8.ofNat (value / 256 ^ width) :: beBytes width (value % 256 ^ width)

/-- The value of a big-endian digit string, as `from_be_bytes` reads it. -/
def ofBeBytes : Bytes → Nat
  | [] => 0
  | byte :: rest => byte.toNat * 256 ^ rest.length + ofBeBytes rest

@[simp] theorem beBytes_length (width value : Nat) :
    (beBytes width value).length = width := by
  induction width generalizing value with
  | zero => rfl
  | succ width ih => simp [beBytes, ih]

theorem ofBeBytes_lt (bytes : Bytes) :
    ofBeBytes bytes < 256 ^ bytes.length := by
  induction bytes with
  | nil => simp [ofBeBytes]
  | cons byte rest ih =>
      have bound : byte.toNat < 256 := byte.toNat_lt
      calc
        ofBeBytes (byte :: rest)
            < byte.toNat * 256 ^ rest.length + 256 ^ rest.length := by
              simp only [ofBeBytes]; omega
        _ = (byte.toNat + 1) * 256 ^ rest.length := by ring
        _ ≤ 256 * 256 ^ rest.length := Nat.mul_le_mul_right _ bound
        _ = 256 ^ (byte :: rest).length := by
              rw [List.length_cons, pow_succ, Nat.mul_comm]

private theorem digit_lt {width value : Nat}
    (bound : value < 256 ^ (width + 1)) : value / 256 ^ width < 256 := by
  rw [Nat.div_lt_iff_lt_mul (by positivity), Nat.mul_comm, ← pow_succ]
  exact bound

theorem ofBeBytes_beBytes {width value : Nat} (bound : value < 256 ^ width) :
    ofBeBytes (beBytes width value) = value := by
  induction width generalizing value with
  | zero =>
      have : value = 0 := by simpa using bound
      simp [beBytes, ofBeBytes, this]
  | succ width ih =>
      have digit := digit_lt bound
      have rest : value % 256 ^ width < 256 ^ width :=
        Nat.mod_lt _ (by positivity)
      simp only [beBytes, ofBeBytes, beBytes_length, ih rest,
        UInt8.toNat_ofNat_of_lt' digit]
      exact Nat.div_add_mod' value (256 ^ width)

theorem beBytes_ofBeBytes (bytes : Bytes) :
    beBytes bytes.length (ofBeBytes bytes) = bytes := by
  induction bytes with
  | nil => rfl
  | cons byte rest ih =>
      have bound := ofBeBytes_lt rest
      have positive : 0 < 256 ^ rest.length := by positivity
      have quotient :
          (byte.toNat * 256 ^ rest.length + ofBeBytes rest) /
            256 ^ rest.length = byte.toNat := by
        rw [Nat.mul_comm, Nat.mul_add_div positive,
          Nat.div_eq_of_lt bound, Nat.add_zero]
      have remainder :
          (byte.toNat * 256 ^ rest.length + ofBeBytes rest) %
            256 ^ rest.length = ofBeBytes rest := by
        rw [Nat.mul_comm, Nat.mul_add_mod, Nat.mod_eq_of_lt bound]
      simp only [List.length_cons, beBytes, ofBeBytes, quotient, remainder,
        ih, UInt8.ofNat_toNat]

/-- Equal-width big-endian strings order as the numbers they denote. -/
theorem agrees_beBytes {width left right : Nat}
    (leftBound : left < 256 ^ width) (rightBound : right < 256 ^ width) :
    Agrees (compare left right) (beBytes width left) (beBytes width right) := by
  induction width generalizing left right with
  | zero =>
      have leftZero : left = 0 := by simpa using leftBound
      have rightZero : right = 0 := by simpa using rightBound
      subst leftZero rightZero
      exact rfl
  | succ width ih =>
      have leftDigit := digit_lt leftBound
      have rightDigit := digit_lt rightBound
      have positive : 0 < 256 ^ width := by positivity
      have leftSplit := Nat.div_add_mod left (256 ^ width)
      have rightSplit := Nat.div_add_mod right (256 ^ width)
      have leftRest := Nat.mod_lt left positive
      have rightRest := Nat.mod_lt right positive
      rcases Nat.lt_trichotomy (left / 256 ^ width) (right / 256 ^ width)
        with less | same | greater
      · have order : left < right := by
          by_contra notLess
          exact absurd (Nat.div_le_div_right (c := 256 ^ width)
            (Nat.le_of_not_lt notLess)) (Nat.not_le_of_lt less)
        rw [compare_lt_iff_lt.mpr order]
        apply Agrees.head_lt
        rw [UInt8.lt_iff_toNat_lt, UInt8.toNat_ofNat_of_lt' leftDigit,
          UInt8.toNat_ofNat_of_lt' rightDigit]
        exact less
      · have order : compare left right =
            compare (left % 256 ^ width) (right % 256 ^ width) := by
          rw [same] at leftSplit
          rcases Nat.lt_trichotomy (left % 256 ^ width)
            (right % 256 ^ width) with less | equal | greater
          · rw [compare_lt_iff_lt.mpr less, compare_lt_iff_lt.mpr (by omega)]
          · rw [compare_eq_iff_eq.mpr equal, compare_eq_iff_eq.mpr (by omega)]
          · rw [compare_gt_iff_gt.mpr greater,
              compare_gt_iff_gt.mpr (by omega)]
        rw [order]
        simp only [beBytes, same]
        exact Agrees.cons _ (ih leftRest rightRest)
      · have order : right < left := by
          by_contra notLess
          exact absurd (Nat.div_le_div_right (c := 256 ^ width)
            (Nat.le_of_not_lt notLess)) (Nat.not_le_of_lt greater)
        rw [compare_gt_iff_gt.mpr order]
        show Below _ _
        apply Below.head
        rw [UInt8.lt_iff_toNat_lt, UInt8.toNat_ofNat_of_lt' leftDigit,
          UInt8.toNat_ofNat_of_lt' rightDigit]
        exact greater

end Acetone.Lib

import Mathlib.Tactic.IntervalCases
import Acetone.Model.Keys

/-!
# Byte order of encoded keys is logical order

Every element is a code word: two elements that differ logically differ at a
byte both encodings have.  That is the `Agrees` relation, and it composes over
concatenation, so the tuple statement follows by induction.  The terminator of
a list is smaller than every type tag, which settles the case of a list that
is a prefix of another.
-/

namespace Acetone.Model

open Acetone.Lib

/-- Flipping the top bit of an `n + 1`-bit word adds half the modulus. -/
theorem xor_topBit {width value : Nat}
    (bound : value < 2 ^ (width + 1)) :
    value ^^^ 2 ^ width =
      if value < 2 ^ width then value + 2 ^ width else value - 2 ^ width := by
  have positive : 0 < 2 ^ width := Nat.two_pow_pos width
  have split := Nat.div_add_mod (value ^^^ 2 ^ width) (2 ^ width)
  rw [Nat.xor_div_two_pow, Nat.xor_mod_two_pow, Nat.div_self positive,
    Nat.mod_self, Nat.xor_zero] at split
  have valueSplit := Nat.div_add_mod value (2 ^ width)
  have quotient : value / 2 ^ width < 2 := by
    rw [Nat.div_lt_iff_lt_mul positive, Nat.mul_comm, ← pow_succ]
    exact bound
  split
  · next small =>
      rw [Nat.div_eq_of_lt small, Nat.mod_eq_of_lt small] at split
      simp at split
      omega
  · next large =>
      have one : value / 2 ^ width = 1 := by
        have : 1 ≤ value / 2 ^ width :=
          (Nat.one_le_div_iff positive).mpr (Nat.le_of_not_lt large)
        omega
      rw [one] at split valueSplit
      simp at split
      omega

private theorem flipSign_toNat (value : Int64) :
    ((value.toUInt64 ^^^ signBit).toNat : Int) = value.toInt + 2 ^ 63 := by
  have bound := value.toUInt64.toNat_lt
  have word : value.toInt =
      if 2 * value.toUInt64.toNat < 2 ^ 64 then
        (value.toUInt64.toNat : Int)
      else (value.toUInt64.toNat : Int) - (2 ^ 64 : Nat) :=
    BitVec.toInt_eq_toNat_cond value.toBitVec
  have flipped : (value.toUInt64 ^^^ signBit).toNat =
      value.toUInt64.toNat ^^^ 2 ^ 63 := UInt64.toNat_xor _ _
  rw [flipped, xor_topBit bound, word]
  split <;> split <;> omega

private theorem flipOffset_toNat (value : Int16) :
    ((value.toUInt16 ^^^ 0x8000).toNat : Int) = value.toInt + 2 ^ 15 := by
  have bound := value.toUInt16.toNat_lt
  have word : value.toInt =
      if 2 * value.toUInt16.toNat < 2 ^ 16 then
        (value.toUInt16.toNat : Int)
      else (value.toUInt16.toNat : Int) - (2 ^ 16 : Nat) :=
    BitVec.toInt_eq_toNat_cond value.toBitVec
  have flipped : (value.toUInt16 ^^^ 0x8000).toNat =
      value.toUInt16.toNat ^^^ 2 ^ 15 := UInt16.toNat_xor _ _
  rw [flipped, xor_topBit bound, word]
  split <;> split <;> omega

private theorem agrees_word {left right : UInt64} :
    Agrees (compare left.toNat right.toNat)
      (beBytes 8 left.toNat) (beBytes 8 right.toNat) :=
  @agrees_beBytes 8 _ _ left.toNat_lt right.toNat_lt

private theorem compare_ofInt {α : Type} [Ord α] (toInt : α → Int)
    (left right : α) (leftWord rightWord bias : Nat)
    (transport : compare left right = compare (toInt left) (toInt right))
    (leftFlip : (leftWord : Int) = toInt left + bias)
    (rightFlip : (rightWord : Int) = toInt right + bias) :
    compare left right = compare leftWord rightWord := by
  rw [transport]
  rcases lt_trichotomy (toInt left) (toInt right) with less | same | greater
  · rw [compare_lt_iff_lt.mpr less, compare_lt_iff_lt.mpr (by omega)]
  · rw [compare_eq_iff_eq.mpr same, compare_eq_iff_eq.mpr (by omega)]
  · rw [compare_gt_iff_gt.mpr greater, compare_gt_iff_gt.mpr (by omega)]

private theorem compare_i64 (left right : Int64) :
    compare left right = compare left.toInt right.toInt := by
  show compareOfLessAndEq left right = compareOfLessAndEq left.toInt right.toInt
  simp [compareOfLessAndEq, Int64.lt_iff_toInt_lt, Int64.toInt_inj]

private theorem compare_i16 (left right : Int16) :
    compare left right = compare left.toInt right.toInt := by
  show compareOfLessAndEq left right = compareOfLessAndEq left.toInt right.toInt
  simp [compareOfLessAndEq, Int16.lt_iff_toInt_lt, Int16.toInt_inj]

private theorem compare_u64 (left right : UInt64) :
    compare left right = compare left.toNat right.toNat := by
  show compareOfLessAndEq left right = compareOfLessAndEq left.toNat right.toNat
  simp [compareOfLessAndEq, UInt64.lt_iff_toNat_lt, UInt64.toNat_inj]

private theorem agrees_flipSignI64 (left right : Int64) :
    Agrees (compare left right) (flipSignI64 left) (flipSignI64 right) := by
  rw [compare_ofInt Int64.toInt left right _ _ (2 ^ 63)
    (compare_i64 left right) (flipSign_toNat left) (flipSign_toNat right)]
  exact agrees_word

private theorem agrees_offset (left right : Int16) :
    Agrees (compare left right)
      (beBytes 2 (left.toUInt16 ^^^ 0x8000).toNat)
      (beBytes 2 (right.toUInt16 ^^^ 0x8000).toNat) := by
  rw [compare_ofInt Int16.toInt left right _ _ (2 ^ 15)
    (compare_i16 left right) (flipOffset_toNat left) (flipOffset_toNat right)]
  exact @agrees_beBytes 2 _ _ (UInt16.toNat_lt _) (UInt16.toNat_lt _)

theorem and_signBit_ne_zero (bits : UInt64) :
    bits &&& signBit ≠ 0 ↔ 2 ^ 63 ≤ bits.toNat := by
  have bound := bits.toNat_lt
  have masked : (bits &&& signBit).toNat = bits.toNat &&& 2 ^ 63 :=
    UInt64.toNat_and _ _
  have quotient : bits.toNat / 2 ^ 63 < 2 := by omega
  have selected : bits.toNat &&& 2 ^ 63 = 2 ^ 63 * (bits.toNat / 2 ^ 63) := by
    have split := Nat.div_add_mod (bits.toNat &&& 2 ^ 63) (2 ^ 63)
    rw [Nat.and_div_two_pow, Nat.and_mod_two_pow] at split
    simp only [Nat.div_self (Nat.two_pow_pos 63), Nat.mod_self,
      Nat.and_zero, Nat.add_zero] at split
    rw [← split]
    have small : bits.toNat / 2 ^ 63 = 0 ∨ bits.toNat / 2 ^ 63 = 1 := by omega
    rcases small with zero | one
    · rw [zero]; rfl
    · rw [one]; rfl
  rw [Ne, ← UInt64.toNat_inj, masked, selected, UInt64.toNat_zero]
  omega

theorem or_eq_xor_of_and_eq_zero {left right : UInt64}
    (disjoint : left &&& right = 0) : left ||| right = left ^^^ right := by
  have bits := congrArg (·.toBitVec) disjoint
  refine UInt64.eq_of_toBitVec_eq (BitVec.eq_of_getElem_eq fun index bound => ?_)
  have bit := congrArg (·[index]) bits
  simp only [UInt64.toBitVec_and, UInt64.toBitVec_or, UInt64.toBitVec_xor, BitVec.getElem_and,
    BitVec.getElem_or, BitVec.getElem_xor, UInt64.toBitVec_zero, BitVec.getElem_zero] at bit ⊢
  grind

private theorem not_eq_xor_ones (bits : UInt64) :
    ~~~bits = bits ^^^ 0xffffffffffffffff := by
  apply UInt64.eq_of_toBitVec_eq
  rw [UInt64.toBitVec_not, UInt64.toBitVec_xor]
  exact (BitVec.xor_allOnes (x := bits.toBitVec)).symm

/-- The encoded float word is the signed total-order key, shifted by half the
modulus. -/
private theorem encodeFloat_toNat (bits : UInt64) :
    ((encodeFloat bits).toNat : Int) = (totalOrderKey bits).toInt + 2 ^ 63 := by
  unfold encodeFloat totalOrderKey
  by_cases negative : bits &&& signBit ≠ 0
  · rw [if_pos negative, if_pos negative, ← flipSign_toNat,
      UInt64.toUInt64_toInt64, UInt64.xor_assoc, not_eq_xor_ones]
    rfl
  · rw [if_neg negative, if_neg negative, ← flipSign_toNat,
      UInt64.toUInt64_toInt64,
      or_eq_xor_of_and_eq_zero (Decidable.not_not.mp negative)]

private theorem agrees_float (left right : UInt64) :
    Agrees (totalCmp left right)
      (beBytes 8 (encodeFloat left).toNat)
      (beBytes 8 (encodeFloat right).toNat) := by
  rw [totalCmp, compare_ofInt Int64.toInt _ _ _ _ (2 ^ 63)
    (compare_i64 _ _) (encodeFloat_toNat left) (encodeFloat_toNat right)]
  exact agrees_word

/-- A group padded to full width. -/
def padded (width : Nat) (data : Bytes) : Bytes :=
  data ++ List.replicate (width - data.length) 0

private theorem padded_length {width : Nat} {data : Bytes}
    (short : data.length ≤ width) : (padded width data).length = width := by
  simp [padded]
  omega

/-- Every group is a padded window, a marker that counts its meaningful bytes,
and more groups exactly when the window was full. -/
theorem writeChunked_eq (data : Bytes) :
    writeChunked data =
      padded group (data.take group) ++
        ([markerBase + UInt8.ofNat (data.take group).length] ++
          if group ≤ data.length then writeChunked (data.drop group) else []) := by
  fun_cases writeChunked data with
  | case1 => simp [group, padded, markerBase, markerContinue]
  | case2 =>
      rename_i short
      have bound : data.length < 8 := by
        match data, short with
        | [], _ | [_], _ | [_, _], _ | [_, _, _], _ | [_, _, _, _], _
        | [_, _, _, _, _], _ | [_, _, _, _, _, _], _
        | [_, _, _, _, _, _, _], _ => simp
        | _ :: _ :: _ :: _ :: _ :: _ :: _ :: _ :: _, short =>
            exact absurd rfl (short _ _ _ _ _ _ _ _ _)
      have whole : data.take group = data :=
        List.take_of_length_le (Nat.le_of_lt bound)
      rw [whole, if_neg (by simpa [group] using bound)]
      simp [padded]

private theorem agrees_of_length_eq {left right : Bytes}
    (same : left.length = right.length) :
    Agrees (lexCmp left right) left right := by
  induction left generalizing right with
  | nil =>
      cases right with
      | nil => exact rfl
      | cons byte right => simp at same
  | cons byte left ih =>
      cases right with
      | nil => simp at same
      | cons other right =>
          have rest := @ih right (by simpa using same)
          have first : Agrees (compare byte other) [byte] [other] := by
            rcases lt_trichotomy byte other with less | equal | greater
            · rw [compare_lt_iff_lt.mpr less]
              exact Below.head less
            · rw [compare_eq_iff_eq.mpr equal, equal]
              exact rfl
            · rw [compare_gt_iff_gt.mpr greater]
              exact Below.head greater
          exact Agrees.append first (fun _ => rest)

private theorem lexCmp_zeros_ne_gt (width : Nat) (data : Bytes)
    (length : data.length = width) :
    lexCmp (List.replicate width 0) data ≠ .gt := by
  induction width generalizing data with
  | zero =>
      cases data with
      | nil => simp [lexCmp]
      | cons byte data => simp at length
  | succ width ih =>
      cases data with
      | nil => simp at length
      | cons byte data =>
          have least : (0 : UInt8) ≤ byte := UInt8.zero_le
          rcases lt_or_eq_of_le least with less | equal
          · simp [List.replicate_succ, lexCmp, compare_lt_iff_lt.mpr less]
          · have rest := ih data (by simpa using length)
            simpa [List.replicate_succ, lexCmp, ← equal] using rest

private theorem then_lt_of_ne_gt {order : Ordering} (notGreater : order ≠ .gt) :
    order.then .lt = .lt := by
  cases order with
  | lt => rfl
  | eq => rfl
  | gt => exact absurd rfl notGreater

private theorem lexCmp_nil_padded {width : Nat} {byte : UInt8} {data : Bytes}
    (short : (byte :: data).length ≤ width) :
    (lexCmp (padded width []) (padded width (byte :: data))).then
      (compare 0 (byte :: data).length) = .lt := by
  have shorter : compare 0 (byte :: data).length = .lt :=
    compare_lt_iff_lt.mpr (by simp)
  rw [shorter]
  apply then_lt_of_ne_gt
  have zeros : padded width [] = List.replicate width 0 := by simp [padded]
  rw [zeros]
  exact lexCmp_zeros_ne_gt width _ (padded_length short)

/-- The padding loses no information that the length does not restore. -/
private theorem lexCmp_padded {width : Nat} {left right : Bytes}
    (leftShort : left.length ≤ width) (rightShort : right.length ≤ width) :
    (lexCmp (padded width left) (padded width right)).then
      (compare left.length right.length) = lexCmp left right := by
  induction left generalizing width right with
  | nil =>
      cases right with
      | nil => simp [lexCmp, lexCmp_self]
      | cons byte right => exact lexCmp_nil_padded rightShort
  | cons byte left ih =>
      cases right with
      | nil =>
          have mirrored := congrArg Ordering.swap (lexCmp_nil_padded leftShort)
          rw [Ordering.swap_then, lexCmp_swap, ← Std.OrientedOrd.eq_swap]
            at mirrored
          exact mirrored
      | cons other right =>
          cases width with
          | zero => simp at leftShort
          | succ width =>
              have rest := @ih width right
                (by simpa using leftShort) (by simpa using rightShort)
              have lengths :
                  compare (byte :: left).length (other :: right).length =
                    compare left.length right.length := by
                simp [Nat.compare_eq_ite_lt]
              rw [lengths]
              simp only [padded, List.cons_append, lexCmp, List.length_cons,
                Nat.add_sub_add_right, Ordering.then_assoc]
              simp only [padded] at rest
              rw [rest]

private theorem lexCmp_take_drop (count : Nat) (left right : Bytes) :
    lexCmp left right =
      (lexCmp (left.take count) (right.take count)).then
        (lexCmp (left.drop count) (right.drop count)) := by
  induction count generalizing left right with
  | zero => simp [lexCmp]
  | succ count ih =>
      cases left with
      | nil => cases right <;> simp [lexCmp]
      | cons byte left =>
          cases right with
          | nil => simp [lexCmp]
          | cons other right =>
              simp only [lexCmp, List.take_succ_cons, List.drop_succ_cons,
                Ordering.then_assoc]
              rw [ih left right]

private theorem agrees_marker {left right : Nat}
    (leftShort : left ≤ group) (rightShort : right ≤ group) :
    Agrees (compare left right)
      [markerBase + UInt8.ofNat left] [markerBase + UInt8.ofNat right] := by
  simp only [group] at leftShort rightShort
  interval_cases left <;> interval_cases right <;>
    first
    | exact Eq.refl _
    | exact Below.head (by decide)

private theorem agrees_writeChunked (left right : Bytes) :
    Agrees (lexCmp left right) (writeChunked left) (writeChunked right) := by
  induction size : left.length using Nat.strong_induction_on
    generalizing left right with
  | _ size' ih =>
      subst size
      rw [writeChunked_eq left, writeChunked_eq right,
        lexCmp_take_drop group left right,
        ← lexCmp_padded (List.length_take_le group left)
          (List.length_take_le group right), Ordering.then_assoc]
      apply Agrees.append
      · apply agrees_of_length_eq
        rw [padded_length (List.length_take_le _ _),
          padded_length (List.length_take_le _ _)]
      intro _
      apply Agrees.append
      · exact agrees_marker (List.length_take_le _ _) (List.length_take_le _ _)
      intro equalLengths
      have taken := compare_eq_iff_eq.mp equalLengths
      simp only [List.length_take] at taken
      by_cases more : group ≤ left.length
      · rw [if_pos more, if_pos (by omega)]
        apply ih (left.drop group).length _ _ _ rfl
        rw [List.length_drop]
        have : 0 < group := by decide
        omega
      · rw [if_neg more, if_neg (by omega),
          List.drop_eq_nil_of_le (by omega), List.drop_eq_nil_of_le (by omega)]
        exact rfl

theorem writeElement_depth {value : Value} {depth : Nat} {bytes : Bytes}
    (encoded : writeElement value depth = .ok bytes) : depth ≤ maxDepth := by
  rw [writeElement.eq_def, guard_eq_ok] at encoded
  exact Nat.le_of_not_lt encoded.1

theorem writeElement_list {items : List Value} {depth : Nat} {bytes : Bytes}
    (encoded : writeElement (.list items) depth = .ok bytes) :
    ∃ body, writeElements items (depth + 1) = .ok body ∧
      bytes = tagList :: (body ++ [tagListEnd]) := by
  rw [writeElement.eq_def, guard_eq_ok, bind_eq_ok] at encoded
  obtain ⟨-, body, written, ⟨⟩⟩ := encoded
  exact ⟨body, written, rfl⟩

theorem writeElements_cons {value : Value} {values : List Value}
    {depth : Nat} {bytes : Bytes}
    (encoded : writeElements (value :: values) depth = .ok bytes) :
    ∃ head rest, writeElement value depth = .ok head ∧
      writeElements values depth = .ok rest ∧ bytes = head ++ rest := by
  simp only [writeElements, bind_eq_ok] at encoded
  obtain ⟨head, first, rest, others, ⟨⟩⟩ := encoded
  exact ⟨head, rest, first, others, rfl⟩

theorem writeElement_rank {value : Value} {depth : Nat} {bytes : Bytes}
    (encoded : writeElement value depth = .ok bytes) :
    ∃ body, bytes = rank value :: body := by
  cases value with
  | list items =>
      obtain ⟨body, -, rfl⟩ := writeElement_list encoded
      exact ⟨_, rfl⟩
  | bool flag =>
      have shallow := writeElement_depth encoded
      rw [writeElement.eq_def, if_neg (Nat.not_lt_of_le shallow)] at encoded
      cases flag <;> cases encoded <;> exact ⟨_, rfl⟩
  | _ =>
      have shallow := writeElement_depth encoded
      rw [writeElement.eq_def, if_neg (Nat.not_lt_of_le shallow)] at encoded
      first
      | cases encoded
        exact ⟨_, rfl⟩
      | simp only at encoded
        split at encoded
        · cases encoded
        · cases encoded
          exact ⟨_, rfl⟩

theorem tagListEnd_lt_rank (value : Value) : tagListEnd < rank value := by
  cases value with
  | bool flag => cases flag <;> decide
  | _ => simp only [rank]; decide

/-- The pairs of values that share a type tag. -/
private inductive SameTag : Value → Value → Prop where
  | null : SameTag .null .null
  | bool (flag : Bool) : SameTag (.bool flag) (.bool flag)
  | int (x y : Int64) : SameTag (.int x) (.int y)
  | float (x y : UInt64) : SameTag (.float x) (.float y)
  | string (x y : String) : SameTag (.string x) (.string y)
  | bytes (x y : Bytes) : SameTag (.bytes x) (.bytes y)
  | date (x y : Date) : SameTag (.date x) (.date y)
  | time (x y : Time) : SameTag (.time x) (.time y)
  | dateTime (x y : DateTime) : SameTag (.dateTime x) (.dateTime y)
  | duration (x y : Duration) : SameTag (.duration x) (.duration y)
  | list (xs ys : List Value) : SameTag (.list xs) (.list ys)

private theorem sameTag_of_rank_eq {left right : Value}
    (same : rank left = rank right) : SameTag left right := by
  cases left with
  | bool flag =>
      cases right with
      | bool other => cases flag <;> cases other <;> cases same <;> constructor
      | _ => cases flag <;> cases same
  | _ =>
      cases right with
      | bool other => cases other <;> cases same
      | _ => first | constructor | cases same

private theorem valueCmp_of_rank_lt {left right : Value}
    (less : rank left < rank right) : valueCmp left right = .lt := by
  rw [valueCmp.eq_def, compare_lt_iff_lt.mpr less]

private theorem valueCmp_of_rank_gt {left right : Value}
    (greater : rank right < rank left) : valueCmp left right = .gt := by
  rw [valueCmp.eq_def, compare_gt_iff_gt.mpr greater]

private theorem agrees_scalar {depth : Nat} {left right : Value}
    (scalar : ∀ items, left ≠ .list items) (same : rank left = rank right)
    {leftBytes rightBytes : Bytes}
    (leftEncoded : writeElement left depth = .ok leftBytes)
    (rightEncoded : writeElement right depth = .ok rightBytes) :
    Agrees (valueCmp left right) leftBytes rightBytes := by
  have shallow := Nat.not_lt_of_le (writeElement_depth leftEncoded)
  rw [writeElement.eq_def, if_neg shallow] at leftEncoded rightEncoded
  rw [valueCmp.eq_def, compare_eq_iff_eq.mpr same]
  cases sameTag_of_rank_eq same with
  | null =>
      cases leftEncoded
      cases rightEncoded
      exact rfl
  | bool flag =>
      cases flag <;> cases leftEncoded <;> cases rightEncoded <;> exact rfl
  | int x y =>
      cases leftEncoded
      cases rightEncoded
      exact Agrees.cons _ (agrees_flipSignI64 x y)
  | float x y =>
      obtain ⟨-, ⟨⟩⟩ := guard_eq_ok.mp leftEncoded
      obtain ⟨-, ⟨⟩⟩ := guard_eq_ok.mp rightEncoded
      exact Agrees.cons _ (agrees_float _ _)
  | string x y =>
      cases leftEncoded
      cases rightEncoded
      exact Agrees.cons _ (agrees_writeChunked _ _)
  | bytes x y =>
      cases leftEncoded
      cases rightEncoded
      exact Agrees.cons _ (agrees_writeChunked _ _)
  | date x y =>
      cases leftEncoded
      cases rightEncoded
      exact Agrees.cons _ (agrees_flipSignI64 _ _)
  | time x y =>
      obtain ⟨-, ⟨⟩⟩ := guard_eq_ok.mp leftEncoded
      obtain ⟨-, ⟨⟩⟩ := guard_eq_ok.mp rightEncoded
      simp only [compare_u64]
      exact Agrees.cons _ agrees_word
  | dateTime x y =>
      obtain ⟨-, ⟨⟩⟩ := guard_eq_ok.mp leftEncoded
      obtain ⟨-, ⟨⟩⟩ := guard_eq_ok.mp rightEncoded
      exact Agrees.cons _ (Agrees.append (agrees_flipSignI64 _ _)
        (fun _ => agrees_offset _ _))
  | duration x y =>
      cases leftEncoded
      cases rightEncoded
      simp only [List.cons_append, List.append_assoc]
      apply Agrees.cons
      apply Agrees.append (agrees_flipSignI64 _ _)
      intro _
      exact Agrees.append (agrees_flipSignI64 _ _)
        (fun _ => agrees_flipSignI64 _ _)
  | list xs ys => exact absurd rfl (scalar xs)

mutual

/-- Two elements whose tags differ are ordered by the tag; otherwise by their
bodies, which are code words of the same kind. -/
private theorem agrees_writeElement {depth : Nat} (left right : Value)
    {leftBytes rightBytes : Bytes}
    (leftEncoded : writeElement left depth = .ok leftBytes)
    (rightEncoded : writeElement right depth = .ok rightBytes) :
    Agrees (valueCmp left right) leftBytes rightBytes := by
  rcases lt_trichotomy (rank left) (rank right) with less | same | greater
  · obtain ⟨leftBody, rfl⟩ := writeElement_rank leftEncoded
    obtain ⟨rightBody, rfl⟩ := writeElement_rank rightEncoded
    rw [valueCmp_of_rank_lt less]
    exact Below.head less
  · cases sameTag_of_rank_eq same with
    | list lefts rights =>
        obtain ⟨leftBody, leftItems, rfl⟩ := writeElement_list leftEncoded
        obtain ⟨rightBody, rightItems, rfl⟩ := writeElement_list rightEncoded
        rw [valueCmp]
        exact Agrees.cons _
          (agrees_writeElements lefts rights leftItems rightItems)
    | _ => exact agrees_scalar (by rintro _ ⟨⟩) same leftEncoded rightEncoded
  · obtain ⟨leftBody, rfl⟩ := writeElement_rank leftEncoded
    obtain ⟨rightBody, rfl⟩ := writeElement_rank rightEncoded
    rw [valueCmp_of_rank_gt greater]
    exact Below.head greater

/-- With their terminators, the elements of two lists are ordered as the
lists are. -/
private theorem agrees_writeElements {depth : Nat} (lefts rights : List Value)
    {leftBytes rightBytes : Bytes}
    (leftEncoded : writeElements lefts depth = .ok leftBytes)
    (rightEncoded : writeElements rights depth = .ok rightBytes) :
    Agrees (keyCmp lefts rights)
      (leftBytes ++ [tagListEnd]) (rightBytes ++ [tagListEnd]) := by
  cases lefts with
  | nil =>
      cases leftEncoded
      cases rights with
      | nil =>
          cases rightEncoded
          exact rfl
      | cons value values =>
          obtain ⟨head, rest, first, -, rfl⟩ := writeElements_cons rightEncoded
          obtain ⟨body, rfl⟩ := writeElement_rank first
          exact Below.head (tagListEnd_lt_rank value)
  | cons value values =>
      obtain ⟨head, rest, first, others, rfl⟩ := writeElements_cons leftEncoded
      cases rights with
      | nil =>
          cases rightEncoded
          obtain ⟨body, rfl⟩ := writeElement_rank first
          exact Below.head (tagListEnd_lt_rank value)
      | cons other rights =>
          obtain ⟨head', rest', first', others', rfl⟩ := writeElements_cons rightEncoded
          rw [keyCmp, List.append_assoc, List.append_assoc]
          exact Agrees.append (agrees_writeElement value other first first')
            (fun _ => agrees_writeElements values rights others others')

end

private theorem lexCmp_writeElements {depth : Nat} (lefts rights : List Value)
    {leftBytes rightBytes : Bytes}
    (leftEncoded : writeElements lefts depth = .ok leftBytes)
    (rightEncoded : writeElements rights depth = .ok rightBytes) :
    lexCmp leftBytes rightBytes = keyCmp lefts rights := by
  induction lefts generalizing rights leftBytes rightBytes with
  | nil =>
      cases leftEncoded
      cases rights with
      | nil =>
          cases rightEncoded
          rfl
      | cons value values =>
          obtain ⟨head, rest, first, -, rfl⟩ := writeElements_cons rightEncoded
          obtain ⟨body, rfl⟩ := writeElement_rank first
          rfl
  | cons value values ih =>
      obtain ⟨head, rest, first, others, rfl⟩ := writeElements_cons leftEncoded
      cases rights with
      | nil =>
          cases rightEncoded
          obtain ⟨body, rfl⟩ := writeElement_rank first
          rfl
      | cons other rights =>
          obtain ⟨head', rest', first', others', rfl⟩ :=
            writeElements_cons rightEncoded
          rw [keyCmp, ← ih rights others others']
          exact (agrees_writeElement value other first first').lexCmp_append _ _

private theorem writeElements_prefix {depth : Nat} (values more : List Value)
    {bytes longer : Bytes} (encoded : writeElements values depth = .ok bytes)
    (extended : writeElements (values ++ more) depth = .ok longer) :
    bytes <+: longer := by
  induction values generalizing bytes longer with
  | nil =>
      cases encoded
      exact List.nil_prefix
  | cons value values ih =>
      obtain ⟨head, rest, first, others, rfl⟩ := writeElements_cons encoded
      obtain ⟨head', rest', first', others', rfl⟩ := writeElements_cons extended
      rw [first] at first'
      cases first'
      exact (List.prefix_append_right_inj head).mpr (ih others others')

/-- The byte order of encoded keys is the logical order of their tuples, and a
tuple prefix encodes to a byte prefix. -/
theorem encodeKey_orderEmbedding (left right : List Value)
    {leftBytes rightBytes : Bytes}
    (leftEncoded : encodeKey left = .ok leftBytes)
    (rightEncoded : encodeKey right = .ok rightBytes) :
    lexCmp leftBytes rightBytes = keyCmp left right ∧
      (left <+: right → leftBytes <+: rightBytes) := by
  constructor
  · exact lexCmp_writeElements left right leftEncoded rightEncoded
  · rintro ⟨more, rfl⟩
    exact writeElements_prefix left more leftEncoded rightEncoded

theorem encodeKey_orderEmbedding_list :
    lexCmp [tagList, tagTrue, tagListEnd]
        [tagList, tagTrue, tagListEnd, tagNull] = .lt ∧
      [tagList, tagTrue, tagListEnd] <+:
        [tagList, tagTrue, tagListEnd, tagNull] := by
  have order := @encodeKey_orderEmbedding
    [.list [.bool true]] [.list [.bool true], .null]
    [tagList, tagTrue, tagListEnd] [tagList, tagTrue, tagListEnd, tagNull]
    (by decide) (by decide)
  exact ⟨order.1.trans (by decide), order.2 ⟨[.null], rfl⟩⟩

end Acetone.Model

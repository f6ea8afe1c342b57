import Acetone.Model.Cbor

/-!
# Each primitive reader accepts exactly what its writer produces

A reader succeeds with a value and a remainder when, and only when, its input
is the canonical form of the value followed by the remainder.
-/

namespace Acetone.Model.Cbor

open Acetone.Lib

theorem readU8_eq_ok {input rest : Bytes} {byte : UInt8} :
    readU8 input = .ok (byte, rest) ↔ input = byte :: rest := by
  cases input with
  | nil => simp [readU8]
  | cons first input => simp [readU8]

theorem readExact_eq_ok {count : Nat} {input bytes rest : Bytes} :
    readExact count input = .ok (bytes, rest) ↔
      input = bytes ++ rest ∧ bytes.length = count := by
  rw [readExact, guard_eq_ok, Except.ok.injEq, Prod.mk.injEq]
  constructor
  · rintro ⟨enough, rfl, rfl⟩
    refine ⟨(List.take_append_drop count input).symm, ?_⟩
    rw [List.length_take]
    omega
  · rintro ⟨rfl, rfl⟩
    simp

theorem readBeU64_eq_ok {width value : Nat} {input rest : Bytes} :
    readBeU64 width input = .ok (value, rest) ↔
      value < 256 ^ width ∧ input = beBytes width value ++ rest := by
  rw [readBeU64, bind_eq_ok]
  constructor
  · rintro ⟨⟨word, after⟩, read, done⟩
    obtain ⟨rfl, rfl⟩ := readExact_eq_ok.mp read
    cases done
    exact ⟨ofBeBytes_lt word, by rw [beBytes_ofBeBytes]⟩
  · rintro ⟨bound, rfl⟩
    refine ⟨(beBytes width value, rest),
      readExact_eq_ok.mpr ⟨rfl, beBytes_length _ _⟩, ?_⟩
    simp only [ofBeBytes_beBytes bound]

private theorem readArgument_eq_ok {width limit value : Nat} {input rest : Bytes} :
    readArgument width limit input = .ok (value, rest) ↔
      limit < value ∧ value < 256 ^ width ∧
        input = beBytes width value ++ rest := by
  simp only [readArgument, bind_eq_ok, Prod.exists, guard_eq_ok, readBeU64_eq_ok,
    Except.ok.injEq, Prod.mk.injEq]
  constructor
  · rintro ⟨found, after, ⟨bound, split⟩, long, rfl, rfl⟩
    exact ⟨by omega, bound, split⟩
  · rintro ⟨long, bound, split⟩
    exact ⟨value, rest, ⟨bound, split⟩, by omega, rfl, rfl⟩

def headInfo (value : Nat) : Nat :=
  if value < 24 then value
  else if value ≤ 0xff then 24
  else if value ≤ 0xffff then 25
  else if value ≤ 0xffffffff then 26
  else 27

def headBody (value : Nat) : Bytes :=
  if value < 24 then []
  else if value ≤ 0xff then beBytes 1 value
  else if value ≤ 0xffff then beBytes 2 value
  else if value ≤ 0xffffffff then beBytes 4 value
  else beBytes 8 value

theorem writeHead_eq (major value : Nat) :
    writeHead major value = headByte major (headInfo value) :: headBody value := by
  simp only [writeHead, headInfo, headBody]
  repeat' split
  all_goals rfl

theorem headInfo_lt (value : Nat) : headInfo value < 32 := by
  simp only [headInfo]
  repeat' split
  all_goals omega

theorem headByte_toNat {major info : Nat} (small : major < 8) (fits : info < 32) :
    (headByte major info).toNat = major * 32 + info :=
  UInt8.toNat_ofNat_of_lt' (show major * 32 + info < 256 by omega)

/-- Every byte is the first byte of a head, in one way. -/
theorem headByte_of_byte (byte : UInt8) :
    byte = headByte (byte.toNat / 32) (byte.toNat % 32) := by
  rw [headByte, Nat.div_add_mod', UInt8.ofNat_toNat]

theorem headByte_major {major info : Nat} (small : major < 8) (fits : info < 32) :
    (headByte major info).toNat / 32 = major := by
  rw [headByte_toNat small fits]
  omega

theorem headByte_info {major info : Nat} (small : major < 8) (fits : info < 32) :
    (headByte major info).toNat % 32 = info := by
  rw [headByte_toNat small fits]
  omega

theorem readHeadValue_eq_ok {info value : Nat} {input rest : Bytes}
    (fits : info < 32) :
    readHeadValue info input = .ok (value, rest) ↔
      value < 2 ^ 64 ∧ info = headInfo value ∧ input = headBody value ++ rest := by
  constructor
  · intro read
    rw [readHeadValue] at read
    by_cases short : info < 24
    · rw [if_pos short] at read
      cases read
      simp only [headInfo, headBody, if_pos short]
      exact ⟨by omega, trivial, rfl⟩
    rw [if_neg short] at read
    by_cases one : info = 24
    · rw [if_pos one, readArgument_eq_ok] at read
      obtain ⟨long, bound, split⟩ := read
      simp only [headInfo, headBody, if_neg (show ¬ value < 24 by omega),
        if_pos (show value ≤ 0xff by omega)]
      exact ⟨by omega, one, split⟩
    rw [if_neg one] at read
    by_cases two : info = 25
    · rw [if_pos two, readArgument_eq_ok] at read
      obtain ⟨long, bound, split⟩ := read
      simp only [headInfo, headBody, if_neg (show ¬ value < 24 by omega),
        if_neg (show ¬ value ≤ 0xff by omega), if_pos (show value ≤ 0xffff by omega)]
      exact ⟨by omega, two, split⟩
    rw [if_neg two] at read
    by_cases four : info = 26
    · rw [if_pos four, readArgument_eq_ok] at read
      obtain ⟨long, bound, split⟩ := read
      simp only [headInfo, headBody, if_neg (show ¬ value < 24 by omega),
        if_neg (show ¬ value ≤ 0xff by omega), if_neg (show ¬ value ≤ 0xffff by omega),
        if_pos (show value ≤ 0xffffffff by omega)]
      exact ⟨by omega, four, split⟩
    rw [if_neg four] at read
    by_cases eight : info = 27
    · rw [if_pos eight, readArgument_eq_ok] at read
      obtain ⟨long, bound, split⟩ := read
      simp only [headInfo, headBody, if_neg (show ¬ value < 24 by omega),
        if_neg (show ¬ value ≤ 0xff by omega), if_neg (show ¬ value ≤ 0xffff by omega),
        if_neg (show ¬ value ≤ 0xffffffff by omega)]
      exact ⟨by omega, eight, split⟩
    rw [if_neg eight] at read
    split at read <;> cases read
  · rintro ⟨bound, rfl, rfl⟩
    simp only [headInfo, headBody]
    by_cases short : value < 24
    · simp only [if_pos short, readHeadValue, List.nil_append]
    by_cases one : value ≤ 0xff
    · simp only [if_neg short, if_pos one]
      exact readArgument_eq_ok.mpr ⟨by omega, by omega, rfl⟩
    by_cases two : value ≤ 0xffff
    · simp only [if_neg short, if_neg one, if_pos two]
      exact readArgument_eq_ok.mpr ⟨by omega, by omega, rfl⟩
    by_cases four : value ≤ 0xffffffff
    · simp only [if_neg short, if_neg one, if_neg two, if_pos four]
      exact readArgument_eq_ok.mpr ⟨by omega, by omega, rfl⟩
    · simp only [if_neg short, if_neg one, if_neg two, if_neg four]
      exact readArgument_eq_ok.mpr ⟨by omega, by omega, rfl⟩

/-- A head is read from its first byte and the argument that follows. -/
theorem readHeadValue_of_writeHead {value : Nat} (bound : value < 2 ^ 64)
    (rest : Bytes) :
    readHeadValue (headInfo value) (headBody value ++ rest) = .ok (value, rest) :=
  (readHeadValue_eq_ok (headInfo_lt value)).mpr ⟨bound, rfl, rfl⟩

theorem writeHead_of_readHeadValue {byte : UInt8} {major value : Nat}
    {input rest : Bytes} (isMajor : byte.toNat / 32 = major)
    (read : readHeadValue (byte.toNat % 32) input = .ok (value, rest)) :
    value < 2 ^ 64 ∧ byte :: input = writeHead major value ++ rest := by
  obtain ⟨bound, isInfo, split⟩ :=
    (readHeadValue_eq_ok (Nat.mod_lt _ (by decide))).mp read
  refine ⟨bound, ?_⟩
  rw [writeHead_eq, ← isInfo, ← isMajor, ← headByte_of_byte, split]
  rfl

theorem readHead_eq_ok {major value : Nat} {input rest : Bytes}
    (small : major < 8) :
    readHead major input = .ok (value, rest) ↔
      value < 2 ^ 64 ∧ input = writeHead major value ++ rest := by
  simp only [readHead, bind_eq_ok, Prod.exists, readU8_eq_ok, guard_eq_ok,
    ne_eq, not_not]
  constructor
  · rintro ⟨byte, after, rfl, isMajor, read⟩
    exact writeHead_of_readHeadValue isMajor read
  · rintro ⟨bound, rfl⟩
    refine ⟨headByte major (headInfo value), headBody value ++ rest, ?_, ?_, ?_⟩
    · rw [writeHead_eq]
      rfl
    · exact headByte_major small (headInfo_lt value)
    · rw [headByte_info small (headInfo_lt value)]
      exact readHeadValue_of_writeHead bound rest

theorem readBody_eq_ok {declared : Nat} {input bytes rest : Bytes} :
    readBody declared input = .ok (bytes, rest) ↔
      input = bytes ++ rest ∧ bytes.length = declared := by
  simp only [readBody, checkLen, bind_eq_ok, guard_eq_ok, Except.ok.injEq,
    readExact_eq_ok]
  constructor
  · rintro ⟨length, ⟨-, rfl⟩, split⟩
    exact split
  · rintro ⟨rfl, rfl⟩
    exact ⟨bytes.length, ⟨by simp, rfl⟩, rfl, rfl⟩

theorem decodeUtf8_eq_ok {bytes : Bytes} {text : String} :
    decodeUtf8 bytes = .ok text ↔ bytes = utf8 text := by
  rw [decodeUtf8]
  constructor
  · intro decoded
    split at decoded
    · next found valid =>
        cases decoded
        exact (utf8_of_fromUtf8 valid).symm
    · cases decoded
  · rintro rfl
    rw [fromUtf8_utf8]

theorem readText_eq_ok {input rest : Bytes} {text : String} :
    readText input = .ok (text, rest) ↔
      (utf8 text).length < 2 ^ 64 ∧ input = writeText text ++ rest := by
  simp only [readText, bind_eq_ok, Prod.exists, Except.ok.injEq, Prod.mk.injEq,
    readHead_eq_ok (by decide : majorText < 8), readBody_eq_ok, decodeUtf8_eq_ok]
  constructor
  · rintro ⟨declared, between, ⟨bound, rfl⟩, bytes, after, ⟨rfl, rfl⟩, found, rfl,
      rfl, rfl⟩
    exact ⟨bound, by rw [writeText, List.append_assoc]⟩
  · rintro ⟨bound, rfl⟩
    exact ⟨_, _, ⟨bound, by rw [writeText, List.append_assoc]⟩, utf8 text, rest,
      ⟨rfl, rfl⟩, text, rfl, rfl, rfl⟩

private theorem toInt_word (n : Int64) :
    n.toInt = if n.toUInt64.toNat < 2 ^ 63 then (n.toUInt64.toNat : Int)
      else (n.toUInt64.toNat : Int) - 2 ^ 64 := by
  have word : n.toInt =
      if 2 * n.toUInt64.toNat < 2 ^ 64 then (n.toUInt64.toNat : Int)
      else (n.toUInt64.toNat : Int) - (2 ^ 64 : Nat) :=
    BitVec.toInt_eq_toNat_cond n.toBitVec
  rw [word]
  split <;> split <;> omega

private theorem nonneg_iff (n : Int64) : 0 ≤ n ↔ n.toUInt64.toNat < 2 ^ 63 := by
  have bound := n.toUInt64.toNat_lt
  rw [Int64.le_iff_toInt_le, toInt_word n]
  have zero : (0 : Int64).toInt = 0 := rfl
  split <;> omega

private theorem complement_toNat (n : Int64) :
    (~~~n.toUInt64).toNat = 2 ^ 64 - 1 - n.toUInt64.toNat := by
  rw [UInt64.toNat_not]
  rfl

theorem unsignedToI64_eq_ok {value : Nat} {n : Int64} :
    unsignedToI64 value = .ok n ↔ 0 ≤ n ∧ n.toUInt64.toNat = value := by
  rw [unsignedToI64, guard_eq_ok, Except.ok.injEq, nonneg_iff]
  have word := toInt_word n
  constructor
  · rintro ⟨small, rfl⟩
    rw [Int64.toInt_ofNat_of_lt (by omega)] at word
    have bound := (Int64.ofNat value).toUInt64.toNat_lt
    split at word <;> omega
  · rintro ⟨small, rfl⟩
    refine ⟨by omega, ?_⟩
    rw [← Int64.toInt_inj, Int64.toInt_ofNat_of_lt small, word, if_pos small]

theorem negativeToI64_eq_ok {value : Nat} {n : Int64} :
    negativeToI64 value = .ok n ↔ ¬ 0 ≤ n ∧ (~~~n.toUInt64).toNat = value := by
  have word := toInt_word n
  have bound := n.toUInt64.toNat_lt
  rw [negativeToI64, guard_eq_ok, Except.ok.injEq, nonneg_iff, complement_toNat]
  have minusOne : (-1 : Int64).toInt = -1 := rfl
  constructor
  · rintro ⟨small, rfl⟩
    rw [Int64.toInt_sub, Int64.toInt_ofNat_of_lt (by omega), minusOne,
      Int.bmod_eq_of_le (by omega) (by omega)] at word
    split at word <;> omega
  · rintro ⟨large, rfl⟩
    refine ⟨by omega, ?_⟩
    rw [← Int64.toInt_inj, Int64.toInt_sub, Int64.toInt_ofNat_of_lt (by omega),
      minusOne, word, if_neg large, Int.bmod_eq_of_le (by omega) (by omega)]
    omega

theorem readI64_eq_ok {input rest : Bytes} {n : Int64} :
    readI64 input = .ok (n, rest) ↔ input = writeInt n ++ rest := by
  simp only [readI64, bind_eq_ok, Prod.exists, readU8_eq_ok]
  constructor
  · rintro ⟨byte, after, rfl, value, remainder, read, decided⟩
    by_cases unsigned : byte.toNat / 32 = majorUnsigned
    · rw [if_pos unsigned] at decided
      simp only [bind_eq_ok, Except.ok.injEq, Prod.mk.injEq,
        unsignedToI64_eq_ok] at decided
      obtain ⟨found, ⟨nonneg, rfl⟩, rfl, rfl⟩ := decided
      rw [writeInt, if_pos nonneg]
      exact (writeHead_of_readHeadValue unsigned read).2
    rw [if_neg unsigned] at decided
    by_cases negative : byte.toNat / 32 = majorNegative
    · rw [if_pos negative] at decided
      simp only [bind_eq_ok, Except.ok.injEq, Prod.mk.injEq,
        negativeToI64_eq_ok] at decided
      obtain ⟨found, ⟨below, rfl⟩, rfl, rfl⟩ := decided
      rw [writeInt, if_neg below]
      exact (writeHead_of_readHeadValue negative read).2
    rw [if_neg negative] at decided
    cases decided
  · rintro rfl
    rw [writeInt]
    by_cases nonneg : 0 ≤ n
    · have small := (nonneg_iff n).mp nonneg
      rw [if_pos nonneg, writeHead_eq]
      refine ⟨_, _, rfl, n.toUInt64.toNat, rest, ?_, ?_⟩
      · rw [headByte_info (by decide) (headInfo_lt _)]
        exact readHeadValue_of_writeHead (by omega) rest
      · rw [headByte_major (by decide) (headInfo_lt _), if_pos rfl,
          unsignedToI64_eq_ok.mpr ⟨nonneg, rfl⟩, ok_bind]
    · have bound := (~~~n.toUInt64).toNat_lt
      rw [if_neg nonneg, writeHead_eq]
      refine ⟨_, _, rfl, (~~~n.toUInt64).toNat, rest, ?_, ?_⟩
      · rw [headByte_info (by decide) (headInfo_lt _)]
        exact readHeadValue_of_writeHead bound rest
      · rw [headByte_major (by decide) (headInfo_lt _), if_neg (by decide),
          if_pos rfl, negativeToI64_eq_ok.mpr ⟨nonneg, rfl⟩, ok_bind]

theorem isNan_iff (bits : UInt64) : isNan bits = true ↔ binary64.IsNan bits.toNat := by
  have bound := bits.toNat_lt
  have masked : (bits &&& 0x7fffffffffffffff).toNat = bits.toNat % 2 ^ 63 := by
    rw [UInt64.toNat_and]
    exact Nat.and_two_pow_sub_one_eq_mod bits.toNat 63
  have infinity : infinityBits.toNat = 2047 * 2 ^ 52 := rfl
  rw [isNan, decide_eq_true_iff, UInt64.lt_iff_toNat_lt, masked, infinity]
  simp only [FloatLayout.IsNan, FloatLayout.exponentOf, FloatLayout.fractionOf,
    FloatLayout.topExponent, binary64]
  omega

private theorem half_fields {sign exponent fraction : Nat} (signBound : sign < 2)
    (exponentBound : exponent < 2 ^ 5) (fractionBound : fraction < 2 ^ 10) :
    let word := (UInt16.ofNat (binary16.pack sign exponent fraction)).toNat
    binary16.signOf word = sign ∧ binary16.exponentOf word = exponent ∧
      binary16.fractionOf word = fraction := by
  have bound := @FloatLayout.pack_lt binary16 _ _ _ signBound exponentBound fractionBound
  rw [UInt16.toNat_ofNat_of_lt' bound]
  exact ⟨@FloatLayout.signOf_pack binary16 _ _ _ exponentBound fractionBound,
    @FloatLayout.exponentOf_pack binary16 _ _ _ exponentBound fractionBound,
    @FloatLayout.fractionOf_pack binary16 _ _ _ fractionBound⟩

private theorem double_fields {sign exponent fraction : Nat} (signBound : sign < 2)
    (exponentBound : exponent < 2 ^ 11) (fractionBound : fraction < 2 ^ 52) :
    let word := (UInt64.ofNat (binary64.pack sign exponent fraction)).toNat
    binary64.signOf word = sign ∧ binary64.exponentOf word = exponent ∧
      binary64.fractionOf word = fraction := by
  have bound := @FloatLayout.pack_lt binary64 _ _ _ signBound exponentBound fractionBound
  rw [UInt64.toNat_ofNat_of_lt' bound]
  exact ⟨@FloatLayout.signOf_pack binary64 _ _ _ exponentBound fractionBound,
    @FloatLayout.exponentOf_pack binary64 _ _ _ exponentBound fractionBound,
    @FloatLayout.fractionOf_pack binary64 _ _ _ fractionBound⟩

private theorem half_of_fields (half : UInt16) :
    UInt16.ofNat (binary16.pack (binary16.signOf half.toNat)
      (binary16.exponentOf half.toNat) (binary16.fractionOf half.toNat)) = half := by
  rw [FloatLayout.pack_fields, UInt16.ofNat_toNat]

private theorem double_of_fields (bits : UInt64) :
    UInt64.ofNat (binary64.pack (binary64.signOf bits.toNat)
      (binary64.exponentOf bits.toNat) (binary64.fractionOf bits.toNat)) = bits := by
  rw [FloatLayout.pack_fields, UInt64.ofNat_toNat]

/-- A half-width number is found again from its wide form. -/
theorem f16FromF64Exact_f16BitsToF64 {half : UInt16}
    (number : ¬ binary16.IsNan half.toNat) :
    f16FromF64Exact (f16BitsToF64 half) = some half := by
  have signBound : binary16.signOf half.toNat < 2 :=
    binary16.signOf_lt half.toNat_lt
  have exponentBound : binary16.exponentOf half.toNat < 32 :=
    binary16.exponentOf_lt half.toNat
  have fractionBound : binary16.fractionOf half.toNat < 1024 :=
    binary16.fractionOf_lt half.toNat
  have whole := half_of_fields half
  rw [f16BitsToF64]
  by_cases subnormal : binary16.exponentOf half.toNat = 0
  · rw [subnormal] at whole
    simp only [if_pos subnormal]
    by_cases zero : binary16.fractionOf half.toNat = 0
    · obtain ⟨sameSign, sameExponent, sameFraction⟩ :=
        @double_fields _ 0 0 signBound (by decide) (by decide)
      rw [zero] at whole ⊢
      simp only [ofScaled, if_true, f16FromF64Exact, sameSign, sameExponent,
        sameFraction, and_self, whole]
    · have low := Nat.log2_self_le zero
      have high := @Nat.lt_log2_self (binary16.fractionOf half.toNat)
      have topBound : (binary16.fractionOf half.toNat).log2 < 10 :=
        (Nat.log2_lt zero).mpr fractionBound
      generalize binary16.fractionOf half.toNat = fraction at *
      generalize fraction.log2 = top at *
      obtain ⟨sameSign, sameExponent, sameFraction⟩ := @double_fields
        (binary16.signOf half.toNat) (top + (-24) + 1023 : Int).toNat
        ((fraction - 2 ^ top) * 2 ^ (52 - top)) signBound (by omega)
        (shiftedFraction_lt (by omega) high)
      have shift : (28 - (((top + (-24) + 1023 : Int).toNat : Int) - 1023)).toNat =
          52 - top := by omega
      rw [ofScaled_of_top low high]
      simp only [f16FromF64Exact, sameSign, sameExponent, sameFraction]
      rw [if_neg (by omega), if_neg (by omega), if_neg (by omega), if_pos (by omega),
        shift, restored_fraction (by omega) low, if_pos (Nat.mul_mod_left _ _),
        Nat.mul_div_cancel _ (Nat.two_pow_pos _), whole]
  · simp only [if_neg subnormal]
    by_cases isTop : binary16.exponentOf half.toNat = 31
    · have noFraction : binary16.fractionOf half.toNat = 0 := by
        by_contra nonzero
        exact number ⟨isTop, nonzero⟩
      obtain ⟨sameSign, sameExponent, sameFraction⟩ :=
        @double_fields _ 2047 0 signBound (by decide) (by decide)
      rw [isTop, noFraction] at whole
      simp only [isTop, noFraction, if_true, f16FromF64Exact, sameSign, sameExponent,
        sameFraction, and_true, whole]
      rw [if_neg (by omega)]
    · have low : 2 ^ 10 ≤ 1024 + binary16.fractionOf half.toNat := by omega
      have high : 1024 + binary16.fractionOf half.toNat < 2 ^ (10 + 1) := by omega
      generalize binary16.fractionOf half.toNat = fraction at *
      generalize binary16.exponentOf half.toNat = exponent at *
      obtain ⟨sameSign, sameExponent, sameFraction⟩ := @double_fields
        (binary16.signOf half.toNat) ((10 : Nat) + (exponent - 25 : Int) + 1023).toNat
        ((1024 + fraction - 2 ^ 10) * 2 ^ (52 - 10)) signBound (by omega)
        (shiftedFraction_lt (by omega) high)
      have field : (((10 : Nat) + (exponent - 25 : Int) + 1023).toNat - 1023 + 15 : Int).toNat =
          exponent := by omega
      have dropped : 1024 + fraction - 2 ^ 10 = fraction := by omega
      simp only [if_neg isTop]
      rw [ofScaled_of_top low high]
      simp only [f16FromF64Exact, sameSign, sameExponent, sameFraction]
      rw [if_neg (by omega), if_neg (by omega), if_pos (by omega), field, dropped,
        if_pos (Nat.mul_mod_left _ _), Nat.mul_div_cancel _ (Nat.two_pow_pos _), whole]

theorem isNan_f16BitsToF64 {half : UInt16} (number : ¬ binary16.IsNan half.toNat) :
    ¬ isNan (f16BitsToF64 half) = true := by
  have signBound : binary16.signOf half.toNat < 2 :=
    binary16.signOf_lt half.toNat_lt
  have exponentBound : binary16.exponentOf half.toNat < 32 :=
    binary16.exponentOf_lt half.toNat
  have fractionBound : binary16.fractionOf half.toNat < 1024 :=
    binary16.fractionOf_lt half.toNat
  have exact : ∀ significand (exponent : Int), significand < 2 ^ 53 →
      (significand ≠ 0 → 1 ≤ significand.log2 + exponent + 1023 ∧
        significand.log2 + exponent + 1023 ≤ 2046) →
      ¬ isNan (UInt64.ofNat (ofScaled (binary16.signOf half.toNat) significand
        exponent)) = true := by
    intro significand exponent fits inRange
    obtain ⟨bound, finite⟩ := ofScaled_spec signBound fits inRange
    rw [isNan_iff, UInt64.toNat_ofNat_of_lt' bound]
    exact finite
  rw [f16BitsToF64]
  by_cases subnormal : binary16.exponentOf half.toNat = 0
  · simp only [if_pos subnormal]
    apply exact _ _ (by omega)
    intro nonzero
    have topBound : (binary16.fractionOf half.toNat).log2 < 10 :=
      (Nat.log2_lt nonzero).mpr fractionBound
    omega
  · simp only [if_neg subnormal]
    by_cases isTop : binary16.exponentOf half.toNat = 31
    · have noFraction : binary16.fractionOf half.toNat = 0 := by
        by_contra nonzero
        exact number ⟨isTop, nonzero⟩
      obtain ⟨-, -, sameFraction⟩ :=
        @double_fields _ 2047 0 signBound (by decide) (by decide)
      simp only [if_pos isTop, if_pos noFraction, isNan_iff]
      intro nan
      exact nan.2 sameFraction
    · simp only [if_neg isTop]
      apply exact _ _ (by omega)
      intro nonzero
      have top : (1024 + binary16.fractionOf half.toNat).log2 = 10 :=
        (Nat.log2_eq_iff nonzero).mpr (by omega)
      omega

/-- A number that has a half-width form is what that form widens to. -/
theorem f16BitsToF64_of_exact {bits : UInt64} {half : UInt16}
    (found : f16FromF64Exact bits = some half) :
    f16BitsToF64 half = bits ∧ ¬ binary16.IsNan half.toNat := by
  have signBound : binary64.signOf bits.toNat < 2 := binary64.signOf_lt bits.toNat_lt
  have exponentBound : binary64.exponentOf bits.toNat < 2048 :=
    binary64.exponentOf_lt bits.toNat
  have fractionBound : binary64.fractionOf bits.toNat < 2 ^ 52 :=
    binary64.fractionOf_lt bits.toNat
  have whole := double_of_fields bits
  have half31 : binary16.topExponent = 31 := rfl
  rw [f16FromF64Exact] at found
  generalize binary64.signOf bits.toNat = sign at *
  generalize binary64.exponentOf bits.toNat = field at *
  generalize binary64.fractionOf bits.toNat = fraction at *
  simp only at found
  by_cases zero : field = 0 ∧ fraction = 0
  · obtain ⟨rfl, rfl⟩ := zero
    obtain ⟨sameSign, sameExponent, sameFraction⟩ :=
      @half_fields sign 0 0 signBound (by decide) (by decide)
    rw [if_pos ⟨rfl, rfl⟩] at found
    cases found
    refine ⟨?_, fun nan => nan.2 sameFraction⟩
    simp only [f16BitsToF64, sameSign, sameExponent, sameFraction, ofScaled, if_true]
    exact whole
  rw [if_neg zero] at found
  by_cases infinite : field = 2047 ∧ fraction = 0
  · obtain ⟨rfl, rfl⟩ := infinite
    obtain ⟨sameSign, sameExponent, sameFraction⟩ :=
      @half_fields sign 31 0 signBound (by decide) (by decide)
    rw [if_pos ⟨rfl, rfl⟩] at found
    obtain rfl := Option.some.inj found
    refine ⟨?_, fun nan => nan.2 sameFraction⟩
    simp only [f16BitsToF64, sameSign, sameExponent, sameFraction, if_true]
    rw [if_neg (by decide)]
    exact whole
  rw [if_neg infinite] at found
  by_cases normal : -14 ≤ (field : Int) - 1023 ∧ (field : Int) - 1023 ≤ 15
  · rw [if_pos normal] at found
    split at found
    · next aligned =>
        cases found
        obtain ⟨sameSign, sameExponent, sameFraction⟩ :=
          @half_fields sign ((field : Int) - 1023 + 15).toNat (fraction / 2 ^ 42)
            signBound (by omega) (by omega)
        refine ⟨?_, fun nan => ?_⟩
        · simp only [f16BitsToF64, sameSign, sameExponent, sameFraction]
          rw [if_neg (by omega), if_neg (by omega)]
          have low : 2 ^ 10 ≤ 1024 + fraction / 2 ^ 42 := by omega
          have high : 1024 + fraction / 2 ^ 42 < 2 ^ (10 + 1) := by omega
          have sameField : ((10 : Nat) +
              ((((field : Int) - 1023 + 15).toNat : Int) - 25) + 1023).toNat = field := by
            omega
          have dropped : 1024 + fraction / 2 ^ 42 - 2 ^ 10 = fraction / 2 ^ 42 := by omega
          have shifted : (1024 + fraction / 2 ^ 42 - 2 ^ 10) * 2 ^ (52 - 10) = fraction := by
            rw [dropped]
            exact Nat.div_mul_cancel (Nat.dvd_of_mod_eq_zero aligned)
          rw [ofScaled_of_top low high, sameField, shifted, whole]
        · have isTop := nan.1
          omega
    · cases found
  rw [if_neg normal] at found
  by_cases subnormal : -24 ≤ (field : Int) - 1023 ∧ (field : Int) - 1023 ≤ -15
  · rw [if_pos subnormal] at found
    split at found
    · next aligned =>
        cases found
        obtain ⟨top, topBound, fieldEq⟩ : ∃ top, top < 10 ∧ field = top + 999 :=
          ⟨field - 999, by omega, by omega⟩
        have shift : (28 - ((field : Int) - 1023)).toNat = 52 - top := by omega
        rw [shift] at aligned ⊢
        have quotient := Nat.div_add_mod' (2 ^ 52 + fraction) (2 ^ (52 - top))
        rw [aligned, Nat.add_zero] at quotient
        have power : 2 ^ top * 2 ^ (52 - top) = 2 ^ 52 := by
          rw [← pow_add]
          congr 1
          omega
        have positive := Nat.two_pow_pos (52 - top)
        have low : 2 ^ top ≤ (2 ^ 52 + fraction) / 2 ^ (52 - top) := by
          rw [Nat.le_div_iff_mul_le positive, power]
          omega
        have high : (2 ^ 52 + fraction) / 2 ^ (52 - top) < 2 ^ (top + 1) := by
          have double : 2 ^ (top + 1) * 2 ^ (52 - top) = 2 * 2 ^ 52 := by
            rw [pow_succ, Nat.mul_right_comm, power, Nat.mul_comm]
          rw [Nat.div_lt_iff_lt_mul positive, double]
          omega
        have small : 2 ^ (top + 1) ≤ 2 ^ 10 := Nat.pow_le_pow_right (by decide) topBound
        obtain ⟨sameSign, sameExponent, sameFraction⟩ :=
          @half_fields sign 0 ((2 ^ 52 + fraction) / 2 ^ (52 - top)) signBound
            (by decide) (by omega)
        refine ⟨?_, fun nan => ?_⟩
        · simp only [f16BitsToF64, sameSign, sameExponent, sameFraction, if_true]
          have sameField : ((top : Int) + (-24) + 1023).toNat = field := by omega
          have shifted : ((2 ^ 52 + fraction) / 2 ^ (52 - top) - 2 ^ top) *
              2 ^ (52 - top) = fraction := by
            rw [Nat.sub_mul, quotient, power]
            omega
          rw [ofScaled_of_top low high, sameField, shifted, whole]
        · have isTop := nan.1
          omega
    · cases found
  rw [if_neg subnormal] at found
  cases found

theorem f32FromF64Exact_eq_some {bits : UInt64} {single : UInt32} :
    f32FromF64Exact bits = some single ↔
      UInt32.ofNat (toBinary32 bits.toNat) = single ∧
        UInt64.ofNat (ofBinary32 single.toNat) = bits := by
  simp only [f32FromF64Exact]
  constructor
  · intro found
    split at found
    · next same =>
        cases found
        exact ⟨rfl, same⟩
    · cases found
  · rintro ⟨rfl, same⟩
    rw [if_pos same]

theorem f32FromF64Exact_widened {single : UInt32}
    (number : ¬ binary32.IsNan single.toNat) :
    f32FromF64Exact (UInt64.ofNat (ofBinary32 single.toNat)) = some single := by
  have bound := (ofBinary32_spec single.toNat_lt).1
  rw [f32FromF64Exact_eq_some, UInt64.toNat_ofNat_of_lt' bound,
    toBinary32_ofBinary32 number, UInt32.ofNat_toNat]
  exact ⟨rfl, rfl⟩

theorem isNan_widened (single : UInt32) :
    isNan (UInt64.ofNat (ofBinary32 single.toNat)) = true ↔
      binary32.IsNan single.toNat := by
  obtain ⟨bound, preserved⟩ := ofBinary32_spec single.toNat_lt
  rw [isNan_iff, UInt64.toNat_ofNat_of_lt' bound, preserved]

end Acetone.Model.Cbor

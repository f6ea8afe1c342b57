import Acetone.Model.Values

/-!
# The value codec is a bijection on its image

Writing and then reading a value returns it with its NaNs made canonical, and
whatever is read is written back byte for byte.  Both directions follow the
value's structure; at the leaves they are the characterisations of the
primitive readers.
-/

namespace Acetone.Model.Cbor

open Acetone.Lib

private theorem headF16_eq : headF16 = headByte majorSimple 25 := rfl

private theorem read_writeFloat (bits : UInt64) (rest : Bytes) :
    ∃ info body, info < 32 ∧ writeFloat bits = headByte majorSimple info :: body ∧
      readSimpleOrFloat info (body ++ rest) =
        .ok (.float (storeFloat bits), rest) := by
  rw [writeFloat]
  by_cases nan : isNan bits = true
  · have word : readBeU64 2 (beBytes 2 0x7e00 ++ rest) = .ok (0x7e00, rest) :=
      readBeU64_eq_ok.mpr ⟨by decide, rfl⟩
    rw [if_pos nan, headF16_eq, storeFloat, if_pos nan]
    refine ⟨25, beBytes 2 0x7e00, by decide, rfl, ?_⟩
    show readF16 (beBytes 2 0x7e00 ++ rest) = _
    rw [readF16, word, ok_bind]
    rfl
  rw [if_neg nan, storeFloat, if_neg nan]
  cases half : f16FromF64Exact bits with
  | some found =>
      obtain ⟨same, number⟩ := f16BitsToF64_of_exact half
      have word : readBeU64 2 (beBytes 2 found.toNat ++ rest) =
          .ok (found.toNat, rest) :=
        readBeU64_eq_ok.mpr ⟨found.toNat_lt, rfl⟩
      refine ⟨25, beBytes 2 found.toNat, by decide, rfl, ?_⟩
      show readF16 (beBytes 2 found.toNat ++ rest) = _
      simp only [readF16, word, ok_bind]
      rw [if_neg number, UInt16.ofNat_toNat, same]
  | none =>
      cases single : f32FromF64Exact bits with
      | some found =>
          obtain ⟨-, same⟩ := f32FromF64Exact_eq_some.mp single
          have number : ¬ binary32.IsNan found.toNat := by
            rw [← isNan_widened, same]
            exact nan
          have word : readBeU64 4 (beBytes 4 found.toNat ++ rest) =
              .ok (found.toNat, rest) :=
            readBeU64_eq_ok.mpr ⟨found.toNat_lt, rfl⟩
          refine ⟨26, beBytes 4 found.toNat, by decide, rfl, ?_⟩
          show readF32 (beBytes 4 found.toNat ++ rest) = _
          simp only [readF32, word, ok_bind]
          rw [if_neg number, same, half, if_neg (by decide)]
      | none =>
          have word : readBeU64 8 (beBytes 8 bits.toNat ++ rest) =
              .ok (bits.toNat, rest) :=
            readBeU64_eq_ok.mpr ⟨bits.toNat_lt, rfl⟩
          refine ⟨27, beBytes 8 bits.toNat, by decide, rfl, ?_⟩
          show readF64 (beBytes 8 bits.toNat ++ rest) = _
          simp only [readF64, word, ok_bind]
          rw [UInt64.ofNat_toNat, if_neg nan, half, single, if_neg (by decide)]

private theorem write_of_readF16 {input rest : Bytes} {value : Value}
    (read : readF16 input = .ok (value, rest)) :
    ∃ bits, value = .float bits ∧ headF16 :: input = writeFloat bits ++ rest := by
  simp only [readF16, bind_eq_ok, Prod.exists, readBeU64_eq_ok] at read
  obtain ⟨word, after, ⟨bound, rfl⟩, decided⟩ := read
  have back : (UInt16.ofNat word).toNat = word := UInt16.toNat_ofNat_of_lt' bound
  by_cases nan : binary16.IsNan word
  · rw [if_pos nan] at decided
    obtain ⟨canonicalWord, done⟩ := guard_eq_ok.mp decided
    cases done
    refine ⟨canonicalNanBits, rfl, ?_⟩
    rw [not_not.mp canonicalWord]
    rfl
  · rw [if_neg nan] at decided
    cases decided
    have number : ¬ binary16.IsNan (UInt16.ofNat word).toNat := by rwa [back]
    refine ⟨_, rfl, ?_⟩
    rw [writeFloat, if_neg (isNan_f16BitsToF64 number),
      f16FromF64Exact_f16BitsToF64 number]
    simp only [back, List.cons_append]

private theorem write_of_readF32 {input rest : Bytes} {value : Value}
    (read : readF32 input = .ok (value, rest)) :
    ∃ bits, value = .float bits ∧ headF32 :: input = writeFloat bits ++ rest := by
  simp only [readF32, bind_eq_ok, Prod.exists, readBeU64_eq_ok, guard_eq_ok] at read
  obtain ⟨word, after, ⟨bound, rfl⟩, number, wide, done⟩ := read
  cases done
  have back : (UInt32.ofNat word).toNat = word := UInt32.toNat_ofNat_of_lt' bound
  have single := @f32FromF64Exact_widened (UInt32.ofNat word) (by rwa [back])
  have notNan := isNan_widened (UInt32.ofNat word)
  rw [back] at single notNan
  rw [Bool.not_eq_true, Option.isSome_eq_false_iff, Option.isNone_iff_eq_none] at wide
  refine ⟨_, rfl, ?_⟩
  rw [writeFloat, if_neg (fun nan => number (notNan.mp nan)), wide]
  simp only [single, back, List.cons_append]

private theorem write_of_readF64 {input rest : Bytes} {value : Value}
    (read : readF64 input = .ok (value, rest)) :
    ∃ bits, value = .float bits ∧ headF64 :: input = writeFloat bits ++ rest := by
  simp only [readF64, bind_eq_ok, Prod.exists, readBeU64_eq_ok, guard_eq_ok,
    not_or, Bool.not_eq_true, Option.isSome_eq_false_iff,
    Option.isNone_iff_eq_none] at read
  obtain ⟨word, after, ⟨bound, rfl⟩, number, ⟨notHalf, notSingle⟩, done⟩ := read
  cases done
  refine ⟨_, rfl, ?_⟩
  rw [writeFloat, if_neg (by rw [number]; decide), notHalf]
  simp only [notSingle, UInt64.toNat_ofNat_of_lt' bound, List.cons_append]

private theorem expectArray_eq_ok {count tag : Nat} {input rest : Bytes}
    (small : count < 2 ^ 64) :
    expectArray count tag input = .ok rest ↔
      input = writeHead majorArray count ++ rest := by
  simp only [expectArray, bind_eq_ok, Prod.exists, mapError_eq_ok, guard_eq_ok,
    readHead_eq_ok (by decide : majorArray < 8), ne_eq, not_not, Except.ok.injEq]
  constructor
  · rintro ⟨declared, after, ⟨-, rfl⟩, rfl, rfl⟩
    rfl
  · rintro rfl
    exact ⟨count, rest, ⟨small, rfl⟩, rfl, rfl⟩

private theorem offset_back (minutes : Int16) :
    ¬ (minutes.toInt64.toInt < -2 ^ 15 ∨ 2 ^ 15 ≤ minutes.toInt64.toInt) ∧
      minutes.toInt64.toInt16 = minutes := by
  have low := minutes.le_toInt
  have high := minutes.toInt_lt
  rw [Int16.toInt_toInt64]
  refine ⟨by omega, ?_⟩
  rw [← Int16.toInt_inj, Int64.toInt_toInt16, Int16.toInt_toInt64]
  exact Int16.toInt_bmod minutes

private theorem offset_forth {offset : Int64}
    (inRange : ¬ (offset.toInt < -2 ^ 15 ∨ 2 ^ 15 ≤ offset.toInt)) :
    offset.toInt16.toInt64 = offset := by
  rw [← Int64.toInt_inj, Int16.toInt_toInt64, Int64.toInt_toInt16]
  exact Int.bmod_eq_of_le (by omega) (by omega)

/-- What follows a tag is read exactly when it is the body that the tagged
value is written with. -/
private theorem readTagged_eq_ok {tag : Nat} {input rest : Bytes} {value : Value} :
    readTagged tag input = .ok (value, rest) ↔
      (∃ date, value = .date date ∧ tag = tagDate ∧
        input = writeInt date.days ++ rest) ∨
      (∃ time, value = .time time ∧ tag = tagTime ∧ ¬ time.nanos ≥ nanosPerDay ∧
        input = writeHead majorUnsigned time.nanos.toNat ++ rest) ∨
      (∃ stamp, value = .dateTime stamp ∧ tag = tagDateTime ∧
        ¬ stamp.offsetMinutes.toInt.natAbs > maxOffsetMinutes ∧
        input = writeHead majorArray 2 ++ (writeInt stamp.epochNanos ++
          writeInt stamp.offsetMinutes.toInt64) ++ rest) ∨
      (∃ span, value = .duration span ∧ tag = tagDuration ∧
        input = writeHead majorArray 3 ++ (writeInt span.months ++
          (writeInt span.days ++ writeInt span.nanos)) ++ rest) := by
  constructor
  · intro read
    rw [readTagged] at read
    by_cases isDate : tag = tagDate
    · rw [if_pos isDate] at read
      simp only [bind_eq_ok, Prod.exists, mapError_eq_ok, readI64_eq_ok,
        Except.ok.injEq, Prod.mk.injEq] at read
      obtain ⟨days, after, rfl, rfl, rfl⟩ := read
      exact .inl ⟨⟨days⟩, rfl, isDate, rfl⟩
    rw [if_neg isDate] at read
    by_cases isTime : tag = tagTime
    · rw [if_pos isTime] at read
      simp only [bind_eq_ok, Prod.exists, readU8_eq_ok, guard_eq_ok, ne_eq, not_not,
        Except.ok.injEq, Prod.mk.injEq] at read
      obtain ⟨first, after, rfl, unsigned, nanos, remainder, head, inDay, rfl, rfl⟩ := read
      obtain ⟨bound, split⟩ := writeHead_of_readHeadValue unsigned head
      have back : (UInt64.ofNat nanos).toNat = nanos := UInt64.toNat_ofNat_of_lt' bound
      refine .inr (.inl ⟨⟨UInt64.ofNat nanos⟩, rfl, isTime, ?_, ?_⟩)
      · rw [ge_iff_le, UInt64.le_iff_toNat_le, back]
        exact inDay
      · rw [back]
        exact split
    rw [if_neg isTime] at read
    by_cases isStamp : tag = tagDateTime
    · rw [if_pos isStamp] at read
      simp only [bind_eq_ok, Prod.exists, readI64_eq_ok, guard_eq_ok, Except.ok.injEq,
        Prod.mk.injEq, expectArray_eq_ok (show 2 < 2 ^ 64 by decide)] at read
      obtain ⟨body, rfl, epochNanos, after, rfl, offset, remainder, rfl, inWord, inRange,
        rfl, rfl⟩ := read
      refine .inr (.inr (.inl ⟨⟨epochNanos, offset.toInt16⟩, rfl, isStamp, inRange, ?_⟩))
      simp only [offset_forth inWord, List.append_assoc]
    rw [if_neg isStamp] at read
    by_cases isSpan : tag = tagDuration
    · rw [if_pos isSpan] at read
      simp only [bind_eq_ok, Prod.exists, readI64_eq_ok, Except.ok.injEq,
        Prod.mk.injEq, expectArray_eq_ok (show 3 < 2 ^ 64 by decide)] at read
      obtain ⟨body, rfl, months, after, rfl, days, later, rfl, nanos, remainder, rfl, rfl,
        rfl⟩ := read
      refine .inr (.inr (.inr ⟨⟨months, days, nanos⟩, rfl, isSpan, ?_⟩))
      simp only [List.append_assoc]
    rw [if_neg isSpan] at read
    cases read
  · rintro (⟨date, rfl, rfl, rfl⟩ | ⟨time, rfl, rfl, inDay, rfl⟩ |
      ⟨stamp, rfl, rfl, inRange, rfl⟩ | ⟨span, rfl, rfl, rfl⟩)
    · rw [readTagged, if_pos rfl]
      simp only [bind_eq_ok, Prod.exists, mapError_eq_ok, readI64_eq_ok]
      exact ⟨date.days, rest, rfl, rfl⟩
    · rw [ge_iff_le, UInt64.le_iff_toNat_le] at inDay
      rw [readTagged, if_neg (by decide), if_pos rfl, writeHead_eq]
      simp only [List.cons_append, readU8, ok_bind]
      rw [headByte_major (by decide) (headInfo_lt _), if_neg (by simp),
        headByte_info (by decide) (headInfo_lt _),
        readHeadValue_of_writeHead time.nanos.toNat_lt rest, ok_bind]
      simp only [if_neg inDay, UInt64.ofNat_toNat]
    · obtain ⟨inWord, back⟩ := offset_back stamp.offsetMinutes
      rw [readTagged, if_neg (by decide), if_neg (by decide), if_pos rfl]
      simp only [bind_eq_ok, Prod.exists, readI64_eq_ok, guard_eq_ok,
        expectArray_eq_ok (show 2 < 2 ^ 64 by decide)]
      refine ⟨_, by rw [List.append_assoc], stamp.epochNanos, _,
        by rw [List.append_assoc], stamp.offsetMinutes.toInt64, rest, rfl, inWord, ?_⟩
      rw [back]
      exact ⟨inRange, rfl⟩
    · rw [readTagged, if_neg (by decide), if_neg (by decide), if_neg (by decide),
        if_pos rfl]
      simp only [bind_eq_ok, Prod.exists, readI64_eq_ok,
        expectArray_eq_ok (show 3 < 2 ^ 64 by decide)]
      exact ⟨_, by rw [List.append_assoc], span.months, _, by rw [List.append_assoc],
        span.days, _, by rw [List.append_assoc], span.nanos, rest, rfl, rfl⟩

mutual

def canonicalNans : Value → Value
  | .float bits => .float (storeFloat bits)
  | .list items => .list (canonicalNansAll items)
  | value => value

def canonicalNansAll : List Value → List Value
  | [] => []
  | value :: values => canonicalNans value :: canonicalNansAll values

end

private theorem writeHead_length (major value : Nat) :
    1 ≤ (writeHead major value).length := by
  rw [writeHead_eq, List.length_cons]
  omega

private theorem writeInt_length (n : Int64) : 1 ≤ (writeInt n).length := by
  rw [writeInt]
  split
  · exact writeHead_length _ _
  · exact writeHead_length _ _

private theorem writeFloat_length (bits : UInt64) : 1 ≤ (writeFloat bits).length := by
  obtain ⟨info, body, -, shape, -⟩ := read_writeFloat bits []
  rw [shape, List.length_cons]
  omega

private theorem writeValue_within {value : Value} {depth : Nat} {bytes : Bytes}
    (written : writeValue value depth = .ok bytes) : ¬ depth > maxDepth := by
  intro tooDeep
  rw [writeValue.eq_def, if_pos tooDeep] at written
  cases written

/-- Every item takes at least one byte. -/
private theorem writeValue_length {value : Value} {depth : Nat} {bytes : Bytes}
    (written : writeValue value depth = .ok bytes) : 1 ≤ bytes.length := by
  have within := writeValue_within written
  have headed : ∀ major argument (body : Bytes),
      1 ≤ (writeHead major argument ++ body).length := by
    intro major argument body
    have positive := writeHead_length major argument
    rw [List.length_append]
    omega
  rw [writeValue.eq_def, if_neg within] at written
  cases value with
  | null => cases written; decide
  | bool flag => cases flag <;> (cases written; decide)
  | int n => cases written; exact writeInt_length n
  | float bits => cases written; exact writeFloat_length bits
  | string text => cases written; exact headed _ _ _
  | bytes data => cases written; exact headed _ _ _
  | date date => cases written; exact headed _ _ _
  | time time =>
      cases (guard_eq_ok.mp written).2
      exact headed _ _ _
  | dateTime stamp =>
      cases (guard_eq_ok.mp written).2
      exact headed _ _ _
  | duration span => cases written; exact headed _ _ _
  | list items =>
      obtain ⟨body, -, done⟩ := bind_eq_ok.mp written
      cases done
      exact headed _ _ _

private theorem writeValues_length {values : List Value} {depth : Nat} {bytes : Bytes}
    (written : writeValues values depth = .ok bytes) :
    values.length ≤ bytes.length := by
  induction values generalizing bytes with
  | nil => exact Nat.zero_le _
  | cons value values ih =>
      rw [writeValues] at written
      simp only [bind_eq_ok] at written
      obtain ⟨head, first, tail, others, done⟩ := written
      cases done
      have positive := writeValue_length first
      have rest := ih others
      rw [List.length_cons, List.length_append]
      omega

/-- One item, by the major type and the additional information of its first
byte. -/
private theorem readValue_head {fuel depth major info : Nat} {input : Bytes}
    (within : ¬ depth > maxDepth) (small : major < 8) (fits : info < 32) :
    readValue (fuel + 1) (headByte major info :: input) depth =
      if major = majorUnsigned then do
        let (value, rest) ← readHeadValue info input
        let n ← unsignedToI64 value
        .ok (.int n, rest)
      else if major = majorNegative then do
        let (value, rest) ← readHeadValue info input
        let n ← negativeToI64 value
        .ok (.int n, rest)
      else if major = majorBytes then do
        let (declared, input) ← readHeadValue info input
        let (data, rest) ← readBody declared input
        .ok (.bytes data, rest)
      else if major = majorText then do
        let (declared, input) ← readHeadValue info input
        let (bytes, rest) ← readBody declared input
        let text ← decodeUtf8 bytes
        .ok (.string text, rest)
      else if major = majorArray then do
        let (count, input) ← readHeadValue info input
        if input.length < count then .error (.lengthOverrun count input.length)
        else do
          let (items, rest) ← readItems (readValue fuel · (depth + 1)) count input
          .ok (.list items, rest)
      else if major = majorMap then .error (.unsupported "map")
      else if major = majorTag then do
        let (tag, input) ← readHeadValue info input
        readTagged tag input
      else readSimpleOrFloat info input := by
  rw [readValue, if_neg within]
  simp only [readU8, ok_bind, headByte_major small fits, headByte_info small fits]

private theorem readValue_writeInt {fuel depth : Nat} (within : ¬ depth > maxDepth)
    (n : Int64) (rest : Bytes) :
    readValue (fuel + 1) (writeInt n ++ rest) depth = .ok (.int n, rest) := by
  rw [writeInt]
  by_cases nonneg : 0 ≤ n
  · rw [if_pos nonneg, writeHead_eq, List.cons_append,
      readValue_head within (by decide) (headInfo_lt _), if_pos rfl,
      readHeadValue_of_writeHead n.toUInt64.toNat_lt rest, ok_bind]
    simp only [unsignedToI64_eq_ok.mpr ⟨nonneg, rfl⟩, ok_bind]
  · rw [if_neg nonneg, writeHead_eq, List.cons_append,
      readValue_head within (by decide) (headInfo_lt _), if_neg (by decide), if_pos rfl,
      readHeadValue_of_writeHead (~~~n.toUInt64).toNat_lt rest, ok_bind]
    simp only [negativeToI64_eq_ok.mpr ⟨nonneg, rfl⟩, ok_bind]

private theorem readValue_tagged {fuel depth tag : Nat} (within : ¬ depth > maxDepth)
    (bound : tag < 2 ^ 64) (input : Bytes) :
    readValue (fuel + 1) (writeHead majorTag tag ++ input) depth =
      readTagged tag input := by
  rw [writeHead_eq, List.cons_append, readValue_head within (by decide) (headInfo_lt _),
    if_neg (by decide), if_neg (by decide), if_neg (by decide), if_neg (by decide),
    if_neg (by decide), if_neg (by decide), if_pos rfl,
    readHeadValue_of_writeHead bound input, ok_bind]

private theorem readValue_simple {fuel depth info : Nat} (within : ¬ depth > maxDepth)
    (fits : info < 32) (input : Bytes) :
    readValue (fuel + 1) (headByte majorSimple info :: input) depth =
      readSimpleOrFloat info input := by
  rw [readValue_head within (by decide) fits,
    if_neg (by decide), if_neg (by decide), if_neg (by decide), if_neg (by decide),
    if_neg (by decide), if_neg (by decide), if_neg (by decide)]

private theorem readValue_string {fuel depth : Nat} (within : ¬ depth > maxDepth)
    {text : String} (bound : (utf8 text).length < 2 ^ 64) (rest : Bytes) :
    readValue (fuel + 1) (writeText text ++ rest) depth = .ok (.string text, rest) := by
  have body : readBody (utf8 text).length (utf8 text ++ rest) = .ok (utf8 text, rest) :=
    readBody_eq_ok.mpr ⟨rfl, rfl⟩
  rw [writeText, writeHead_eq, List.append_assoc, List.cons_append,
    readValue_head within (by decide) (headInfo_lt _),
    if_neg (by decide), if_neg (by decide), if_neg (by decide), if_pos rfl,
    readHeadValue_of_writeHead bound, ok_bind]
  simp only [body, ok_bind, decodeUtf8_eq_ok.mpr rfl]

private theorem readValue_bytes {fuel depth : Nat} (within : ¬ depth > maxDepth)
    {data : Bytes} (bound : data.length < 2 ^ 64) (rest : Bytes) :
    readValue (fuel + 1) (writeHead majorBytes data.length ++ data ++ rest) depth =
      .ok (.bytes data, rest) := by
  have body : readBody data.length (data ++ rest) = .ok (data, rest) :=
    readBody_eq_ok.mpr ⟨rfl, rfl⟩
  rw [writeHead_eq, List.append_assoc, List.cons_append,
    readValue_head within (by decide) (headInfo_lt _),
    if_neg (by decide), if_neg (by decide), if_pos rfl,
    readHeadValue_of_writeHead bound, ok_bind]
  simp only [body, ok_bind]

private theorem readValue_list {fuel depth : Nat} (within : ¬ depth > maxDepth)
    {items read : List Value} {body : Bytes} (bound : items.length < 2 ^ 64)
    (enough : items.length ≤ body.length) (rest : Bytes)
    (each : readItems (readValue fuel · (depth + 1)) items.length (body ++ rest) =
      .ok (read, rest)) :
    readValue (fuel + 1) (writeHead majorArray items.length ++ body ++ rest) depth =
      .ok (.list read, rest) := by
  have present : ¬ (body ++ rest).length < items.length := by
    rw [List.length_append]
    omega
  rw [writeHead_eq, List.append_assoc, List.cons_append,
    readValue_head within (by decide) (headInfo_lt _),
    if_neg (by decide), if_neg (by decide), if_neg (by decide), if_neg (by decide),
    if_pos rfl, readHeadValue_of_writeHead bound, ok_bind]
  simp only [if_neg present, each, ok_bind]

mutual

/-- A written value is read back, up to its NaNs, and nothing after it is
touched. -/
theorem readValue_writeValue (value : Value) {depth fuel : Nat} {bytes : Bytes}
    (written : writeValue value depth = .ok bytes) (fits : bytes.length < 2 ^ 64)
    (enough : maxDepth + 2 ≤ depth + fuel) (rest : Bytes) :
    readValue fuel (bytes ++ rest) depth = .ok (canonicalNans value, rest) := by
  have within := writeValue_within written
  obtain ⟨fuel, rfl⟩ : ∃ less, fuel = less + 1 := ⟨fuel - 1, by omega⟩
  rw [writeValue.eq_def, if_neg within] at written
  cases value with
  | null =>
      cases written
      exact @readValue_simple _ _ 22 within (by decide) rest
  | bool flag =>
      cases flag with
      | false =>
          cases written
          exact @readValue_simple _ _ 20 within (by decide) rest
      | true =>
          cases written
          exact @readValue_simple _ _ 21 within (by decide) rest
  | int n =>
      cases written
      exact readValue_writeInt within n rest
  | float bits =>
      cases written
      obtain ⟨info, body, small, shape, read⟩ := read_writeFloat bits rest
      rw [shape, List.cons_append, readValue_simple within small, read]
      rfl
  | string text =>
      cases written
      rw [writeText, List.length_append] at fits
      exact readValue_string within (by omega) rest
  | bytes data =>
      cases written
      rw [List.length_append] at fits
      exact readValue_bytes within (by omega) rest
  | date date =>
      cases written
      rw [List.append_assoc, readValue_tagged within (by decide)]
      exact readTagged_eq_ok.mpr (.inl ⟨date, rfl, rfl, rfl⟩)
  | time time =>
      obtain ⟨inDay, done⟩ := guard_eq_ok.mp written
      cases done
      rw [List.append_assoc, readValue_tagged within (by decide)]
      exact readTagged_eq_ok.mpr (.inr (.inl ⟨time, rfl, rfl, inDay, rfl⟩))
  | dateTime stamp =>
      obtain ⟨inRange, done⟩ := guard_eq_ok.mp written
      cases done
      rw [List.append_assoc, readValue_tagged within (by decide)]
      exact readTagged_eq_ok.mpr (.inr (.inr (.inl ⟨stamp, rfl, rfl, inRange, rfl⟩)))
  | duration span =>
      cases written
      rw [List.append_assoc, readValue_tagged within (by decide)]
      exact readTagged_eq_ok.mpr (.inr (.inr (.inr ⟨span, rfl, rfl, rfl⟩)))
  | list items =>
      obtain ⟨body, others, done⟩ := bind_eq_ok.mp written
      cases done
      rw [List.length_append] at fits
      have present := writeValues_length others
      exact readValue_list within (by omega) present rest
        (readItems_writeValues items others (by omega) (by omega) rest)

private theorem readItems_writeValues (values : List Value) {depth fuel : Nat}
    {bytes : Bytes} (written : writeValues values depth = .ok bytes)
    (fits : bytes.length < 2 ^ 64) (enough : maxDepth + 2 ≤ depth + fuel)
    (rest : Bytes) :
    readItems (readValue fuel · depth) values.length (bytes ++ rest) =
      .ok (canonicalNansAll values, rest) := by
  cases values with
  | nil =>
      cases written
      rfl
  | cons value values =>
      rw [writeValues] at written
      simp only [bind_eq_ok] at written
      obtain ⟨head, first, tail, others, done⟩ := written
      cases done
      rw [List.length_append] at fits
      have readFirst := readValue_writeValue value first (by omega) enough (tail ++ rest)
      have readOthers := readItems_writeValues values others (by omega) enough rest
      rw [List.length_cons, readItems, List.append_assoc]
      simp only [readFirst, readOthers, ok_bind, canonicalNansAll]

end

private theorem write_of_readSimple {info depth : Nat} {input rest : Bytes}
    {value : Value} (within : ¬ depth > maxDepth)
    (read : readSimpleOrFloat info input = .ok (value, rest)) :
    ∃ bytes, writeValue value depth = .ok bytes ∧
      headByte majorSimple info :: input = bytes ++ rest := by
  rw [readSimpleOrFloat] at read
  by_cases isFalse : info = 20
  · rw [if_pos isFalse] at read
    cases read
    exact ⟨[simpleFalse], by simp only [writeValue, if_neg within], by rw [isFalse]; rfl⟩
  rw [if_neg isFalse] at read
  by_cases isTrue : info = 21
  · rw [if_pos isTrue] at read
    cases read
    exact ⟨[simpleTrue], by simp only [writeValue, if_neg within], by rw [isTrue]; rfl⟩
  rw [if_neg isTrue] at read
  by_cases isNull : info = 22
  · rw [if_pos isNull] at read
    cases read
    exact ⟨[simpleNull], by simp only [writeValue, if_neg within], by rw [isNull]; rfl⟩
  rw [if_neg isNull, guard_eq_ok, guard_eq_ok] at read
  obtain ⟨-, -, read⟩ := read
  have float : ∀ bits, writeValue (.float bits) depth = .ok (writeFloat bits) := by
    intro bits
    simp only [writeValue, if_neg within]
  by_cases isHalf : info = 25
  · rw [if_pos isHalf] at read
    obtain ⟨bits, rfl, split⟩ := write_of_readF16 read
    exact ⟨_, float bits, by rw [isHalf]; exact split⟩
  rw [if_neg isHalf] at read
  by_cases isSingle : info = 26
  · rw [if_pos isSingle] at read
    obtain ⟨bits, rfl, split⟩ := write_of_readF32 read
    exact ⟨_, float bits, by rw [isSingle]; exact split⟩
  rw [if_neg isSingle] at read
  by_cases isDouble : info = 27
  · rw [if_pos isDouble] at read
    obtain ⟨bits, rfl, split⟩ := write_of_readF64 read
    exact ⟨_, float bits, by rw [isDouble]; exact split⟩
  rw [if_neg isDouble] at read
  split at read <;> cases read

private theorem write_of_readTagged {tag depth : Nat} {input rest : Bytes}
    {value : Value} (within : ¬ depth > maxDepth)
    (read : readTagged tag input = .ok (value, rest)) :
    ∃ bytes, writeValue value depth = .ok bytes ∧
      writeHead majorTag tag ++ input = bytes ++ rest := by
  rcases readTagged_eq_ok.mp read with ⟨date, rfl, rfl, rfl⟩ |
    ⟨time, rfl, rfl, inDay, rfl⟩ | ⟨stamp, rfl, rfl, inRange, rfl⟩ | ⟨span, rfl, rfl, rfl⟩
  · refine ⟨writeHead majorTag tagDate ++ writeInt date.days, ?_, ?_⟩
    · simp only [writeValue, if_neg within]
    · rw [List.append_assoc]
  · refine ⟨writeHead majorTag tagTime ++ writeHead majorUnsigned time.nanos.toNat, ?_, ?_⟩
    · simp only [writeValue, if_neg within, if_neg inDay]
    · rw [List.append_assoc]
  · refine ⟨writeHead majorTag tagDateTime ++ (writeHead majorArray 2 ++
      (writeInt stamp.epochNanos ++ writeInt stamp.offsetMinutes.toInt64)), ?_, ?_⟩
    · simp only [writeValue, if_neg within, if_neg inRange]
    · exact (List.append_assoc _ _ _).symm
  · refine ⟨writeHead majorTag tagDuration ++ (writeHead majorArray 3 ++
      (writeInt span.months ++ (writeInt span.days ++ writeInt span.nanos))), ?_, ?_⟩
    · simp only [writeValue, if_neg within]
    · exact (List.append_assoc _ _ _).symm

/-- A reader of single values that returns only what is written back. -/
def Strict (read : Bytes → Except ValueDecodeError (Value × Bytes))
    (depth : Nat) : Prop :=
  ∀ {input rest : Bytes} {value : Value}, read input = .ok (value, rest) →
    ∃ bytes, writeValue value depth = .ok bytes ∧ input = bytes ++ rest

private theorem write_of_readItems {read : Bytes → Except ValueDecodeError (Value × Bytes)}
    {depth count : Nat} (strict : Strict read depth) {input rest : Bytes}
    {values : List Value} (done : readItems read count input = .ok (values, rest)) :
    values.length = count ∧
      ∃ bytes, writeValues values depth = .ok bytes ∧ input = bytes ++ rest := by
  induction count generalizing input values with
  | zero =>
      cases done
      exact ⟨rfl, [], rfl, rfl⟩
  | succ count ih =>
      rw [readItems] at done
      simp only [bind_eq_ok, Prod.exists, Except.ok.injEq, Prod.mk.injEq] at done
      obtain ⟨item, between, first, items, after, others, rfl, rfl⟩ := done
      obtain ⟨head, written, rfl⟩ := strict first
      obtain ⟨length, tail, writtenRest, rfl⟩ := ih others
      refine ⟨by rw [List.length_cons, length], head ++ tail, ?_, ?_⟩
      · rw [writeValues, written, ok_bind, writtenRest, ok_bind]
      · rw [List.append_assoc]

/-- What a successful read consumed is what the writer produces. -/
theorem writeValue_of_readValue (fuel depth : Nat) :
    Strict (readValue fuel · depth) depth := by
  induction fuel generalizing depth with
  | zero =>
      intro input rest value read
      cases read
  | succ fuel ih =>
      intro input rest value read
      cases input with
      | nil =>
          simp only [readValue, readU8] at read
          split at read <;> cases read
      | cons first input =>
          have within : ¬ depth > maxDepth := by
            simp only [readValue] at read
            exact (guard_eq_ok.mp read).1
          have small : first.toNat / 32 < 8 := by
            have bound := first.toNat_lt
            omega
          have fits : first.toNat % 32 < 32 := Nat.mod_lt _ (by decide)
          have head {major argument : Nat} {after : Bytes}
              (isMajor : first.toNat / 32 = major)
              (argued : readHeadValue (first.toNat % 32) input = .ok (argument, after)) :
              first :: input = writeHead major argument ++ after :=
            (writeHead_of_readHeadValue isMajor argued).2
          have shape := headByte_of_byte first
          simp only at read
          rw [shape, readValue_head within small fits] at read
          by_cases unsigned : first.toNat / 32 = majorUnsigned
          · simp only [if_pos unsigned, bind_eq_ok, Prod.exists, unsignedToI64_eq_ok,
              Except.ok.injEq, Prod.mk.injEq] at read
            obtain ⟨argument, after, argued, n, ⟨nonneg, rfl⟩, rfl, rfl⟩ := read
            refine ⟨writeInt n, by simp only [writeValue, if_neg within], ?_⟩
            rw [writeInt, if_pos nonneg]
            exact head unsigned argued
          rw [if_neg unsigned] at read
          by_cases negative : first.toNat / 32 = majorNegative
          · simp only [if_pos negative, bind_eq_ok, Prod.exists, negativeToI64_eq_ok,
              Except.ok.injEq, Prod.mk.injEq] at read
            obtain ⟨argument, after, argued, n, ⟨below, rfl⟩, rfl, rfl⟩ := read
            refine ⟨writeInt n, by simp only [writeValue, if_neg within], ?_⟩
            rw [writeInt, if_neg below]
            exact head negative argued
          rw [if_neg negative] at read
          by_cases isBytes : first.toNat / 32 = majorBytes
          · simp only [if_pos isBytes, bind_eq_ok, Prod.exists, readBody_eq_ok,
              Except.ok.injEq, Prod.mk.injEq] at read
            obtain ⟨declared, after, argued, data, remainder, ⟨rfl, rfl⟩, rfl, rfl⟩ := read
            refine ⟨writeHead majorBytes data.length ++ data,
              by simp only [writeValue, if_neg within], ?_⟩
            rw [head isBytes argued, List.append_assoc]
          rw [if_neg isBytes] at read
          by_cases isText : first.toNat / 32 = majorText
          · simp only [if_pos isText, bind_eq_ok, Prod.exists, readBody_eq_ok,
              decodeUtf8_eq_ok, Except.ok.injEq, Prod.mk.injEq] at read
            obtain ⟨declared, after, argued, bytes, remainder, ⟨rfl, rfl⟩, text, rfl, rfl,
              rfl⟩ := read
            refine ⟨writeText text, by simp only [writeValue, if_neg within], ?_⟩
            rw [head isText argued, writeText, List.append_assoc]
          rw [if_neg isText] at read
          by_cases isArray : first.toNat / 32 = majorArray
          · simp only [if_pos isArray, bind_eq_ok, Prod.exists, guard_eq_ok,
              Except.ok.injEq, Prod.mk.injEq] at read
            obtain ⟨count, after, argued, -, items, remainder, each, rfl, rfl⟩ := read
            obtain ⟨rfl, body, written, rfl⟩ := write_of_readItems (ih (depth + 1)) each
            refine ⟨writeHead majorArray items.length ++ body, ?_, ?_⟩
            · simp only [writeValue, if_neg within, written, ok_bind]
            · rw [head isArray argued, List.append_assoc]
          rw [if_neg isArray, guard_eq_ok] at read
          obtain ⟨notMap, read⟩ := read
          by_cases isTag : first.toNat / 32 = majorTag
          · simp only [if_pos isTag, bind_eq_ok, Prod.exists] at read
            obtain ⟨tag, after, argued, tagged⟩ := read
            obtain ⟨bytes, written, split⟩ := write_of_readTagged within tagged
            exact ⟨bytes, written, by rw [head isTag argued, split]⟩
          rw [if_neg isTag] at read
          have isSimple : first.toNat / 32 = majorSimple := by
            simp only [majorUnsigned, majorNegative, majorBytes, majorText, majorArray,
              majorMap, majorTag, majorSimple] at *
            omega
          obtain ⟨bytes, written, split⟩ := write_of_readSimple within read
          refine ⟨bytes, written, ?_⟩
          rw [← split, ← isSimple, ← shape]

theorem decodeValue_of_encodeValue {value : Value} {bytes : Bytes}
    (encoded : Cbor.encodeValue value = .ok bytes) (fits : bytes.length < 2 ^ 64) :
    decodeValue bytes = .ok (canonicalNans value) := by
  have read := @readValue_writeValue value 0 (maxDepth + 2) bytes encoded fits (by omega) []
  rw [List.append_nil] at read
  rw [decodeValue, read]
  rfl

theorem encodeValue_of_decodeValue {bytes : Bytes} {value : Value}
    (decoded : decodeValue bytes = .ok value) : Cbor.encodeValue value = .ok bytes := by
  simp only [decodeValue, bind_eq_ok, Prod.exists, guard_eq_ok, Except.ok.injEq] at decoded
  obtain ⟨found, rest, read, empty, rfl⟩ := decoded
  obtain ⟨written, encoded, split⟩ := writeValue_of_readValue _ _ read
  have none : rest = [] := by simpa using empty
  rw [none, List.append_nil] at split
  rw [split]
  exact encoded

mutual

/-- A value is refused exactly where its stored form is undefined, and the
stored form is what the decoder returns for it. -/
theorem storeValue_eq (value : Value) (depth : Nat) :
    storeValue value depth = (writeValue value depth).map fun _ => canonicalNans value := by
  rw [storeValue.eq_def, writeValue.eq_def]
  by_cases tooDeep : depth > maxDepth
  · rw [if_pos tooDeep, if_pos tooDeep]
    rfl
  rw [if_neg tooDeep, if_neg tooDeep]
  cases value with
  | bool flag => cases flag <;> rfl
  | time time =>
      simp only
      split <;> rfl
  | dateTime stamp =>
      simp only
      split <;> rfl
  | list items =>
      simp only [storeValues_eq items (depth + 1)]
      cases writeValues items (depth + 1) <;> rfl
  | _ => rfl

theorem storeValues_eq (values : List Value) (depth : Nat) :
    storeValues values depth =
      (writeValues values depth).map fun _ => canonicalNansAll values := by
  cases values with
  | nil => rfl
  | cons value values =>
      rw [storeValues, writeValues, storeValue_eq value depth, storeValues_eq values depth]
      cases writeValue value depth with
      | error cause => rfl
      | ok head =>
          cases writeValues values depth <;> rfl

end

/-- A byte vector; an allocation never exceeds `isize::MAX` bytes. -/
structure ByteVec where
  bytes : Bytes
  bounded : bytes.length < 2 ^ 63

/-- Decoding inverts encoding up to the payload of NaNs, and a byte string that
decodes is the encoding of what it decodes to. -/
theorem valueCodec_bijective :
    (∀ value (out : ByteVec), Cbor.encodeValue value = .ok out.bytes →
      decodeValue out.bytes = .ok (canonicalNans value)) ∧
    (∀ bytes value, decodeValue bytes = .ok value →
      Cbor.encodeValue value = .ok bytes) := by
  refine ⟨?roundTrip, ?strict⟩
  case roundTrip =>
    intro value out encoded
    have bounded := out.bounded
    exact decodeValue_of_encodeValue encoded (by omega)
  case strict =>
    intro bytes value decoded
    exact encodeValue_of_decodeValue decoded

/-- A signalling NaN comes back quiet, a subnormal half and a negative zero
unchanged. -/
theorem valueCodec_bijective_sample :
    decodeValue [0x84, 0xf9, 0x7e, 0x00, 0xf9, 0x00, 0x01, 0xf9, 0x80, 0x00, 0x20] =
      .ok (.list [.float canonicalNanBits, .float 0x3e70000000000000, .float signBit,
        .int (-1)]) :=
  valueCodec_bijective.1
    (.list [.float 0xfff0000000000001, .float 0x3e70000000000000, .float signBit,
      .int (-1)]) ⟨_, by decide⟩ (by decide +kernel)

end Acetone.Model.Cbor

import Acetone.Model.KeyOrder

/-!
# The key codec is a bijection on its image

Each reader is characterised by the one input that makes it succeed: a word,
a chunked string or an element is read exactly when the input starts with the
bytes its writer produces.  Strictness of the decoder is the direction from
the reader to the writer; the round trip is the other one.
-/

namespace Acetone.Model

open Acetone.Lib

private theorem readArray_eq_ok {count : Nat} {input word rest : Bytes} :
    readArray count input = .ok (word, rest) ↔
      input = word ++ rest ∧ word.length = count := by
  rw [readArray, guard_eq_ok, Except.ok.injEq, Prod.mk.injEq]
  constructor
  · rintro ⟨enough, rfl, rfl⟩
    refine ⟨(List.take_append_drop count input).symm, ?_⟩
    rw [List.length_take]
    omega
  · rintro ⟨rfl, rfl⟩
    simp

private theorem ofNat_ofBeBytes_eq {word : Bytes} {value : UInt64}
    (length : word.length = 8) :
    UInt64.ofNat (ofBeBytes word) = value ↔ word = beBytes 8 value.toNat := by
  have bound : ofBeBytes word < 2 ^ 64 := by
    simpa [length] using ofBeBytes_lt word
  constructor
  · rintro rfl
    rw [UInt64.toNat_ofNat_of_lt' bound, ← length, beBytes_ofBeBytes]
  · rintro rfl
    rw [ofBeBytes_beBytes (show value.toNat < 256 ^ 8 from value.toNat_lt),
      UInt64.ofNat_toNat]

private theorem readU64_eq_ok {input rest : Bytes} {value : UInt64} :
    readU64 input = .ok (value, rest) ↔
      input = beBytes 8 value.toNat ++ rest := by
  rw [readU64, bind_eq_ok]
  constructor
  · rintro ⟨⟨word, after⟩, read, done⟩
    obtain ⟨rfl, length⟩ := readArray_eq_ok.mp read
    cases done
    rw [← (ofNat_ofBeBytes_eq length).mp rfl]
  · rintro rfl
    refine ⟨(beBytes 8 value.toNat, rest),
      readArray_eq_ok.mpr ⟨rfl, beBytes_length _ _⟩, ?_⟩
    simp only [(ofNat_ofBeBytes_eq (beBytes_length _ _)).mpr rfl]

private theorem xor_signBit_eq {word : UInt64} {value : Int64} :
    (word ^^^ signBit).toInt64 = value ↔ word = value.toUInt64 ^^^ signBit := by
  constructor
  · rintro rfl
    rw [UInt64.toUInt64_toInt64, UInt64.xor_assoc, UInt64.xor_self,
      UInt64.xor_zero]
  · rintro rfl
    rw [UInt64.xor_assoc, UInt64.xor_self, UInt64.xor_zero,
      Int64.toInt64_toUInt64]

private theorem readI64_eq_ok {input rest : Bytes} {value : Int64} :
    readI64 input = .ok (value, rest) ↔ input = flipSignI64 value ++ rest := by
  rw [readI64, bind_eq_ok]
  constructor
  · rintro ⟨⟨word, after⟩, read, done⟩
    rw [readU64_eq_ok] at read
    simp only [Except.ok.injEq, Prod.mk.injEq] at done
    obtain ⟨same, rfl⟩ := done
    rw [read, xor_signBit_eq.mp same, flipSignI64]
  · rintro rfl
    refine ⟨(value.toUInt64 ^^^ signBit, rest), readU64_eq_ok.mpr rfl, ?_⟩
    simp only [xor_signBit_eq.mpr rfl]

private theorem readOffset_eq {word : Bytes} {value : Int16}
    (length : word.length = 2) :
    (UInt16.ofNat (ofBeBytes word) ^^^ 0x8000).toInt16 = value ↔
      word = beBytes 2 (value.toUInt16 ^^^ 0x8000).toNat := by
  have bound : ofBeBytes word < 2 ^ 16 := by
    simpa [length] using ofBeBytes_lt word
  constructor
  · rintro rfl
    rw [UInt16.toUInt16_toInt16, UInt16.xor_assoc, UInt16.xor_self,
      UInt16.xor_zero, UInt16.toNat_ofNat_of_lt' bound, ← length,
      beBytes_ofBeBytes]
  · rintro rfl
    rw [ofBeBytes_beBytes (show _ < 256 ^ 2 from UInt16.toNat_lt _),
      UInt16.ofNat_toNat, UInt16.xor_assoc, UInt16.xor_self, UInt16.xor_zero,
      Int16.toInt16_toUInt16]

private theorem xor_signBit_toNat (bits : UInt64) :
    (bits ^^^ signBit).toNat =
      if bits.toNat < 2 ^ 63 then bits.toNat + 2 ^ 63
      else bits.toNat - 2 ^ 63 := by
  have flipped : (bits ^^^ signBit).toNat = bits.toNat ^^^ 2 ^ 63 :=
    UInt64.toNat_xor _ _
  rw [flipped]
  exact xor_topBit bits.toNat_lt

private theorem not_toNat (bits : UInt64) :
    (~~~bits).toNat = 2 ^ 64 - 1 - bits.toNat := by
  rw [UInt64.toNat_not]
  rfl

private theorem decodeFloat_encodeFloat (bits : UInt64) :
    decodeFloat (encodeFloat bits) = bits := by
  have bound := bits.toNat_lt
  rw [encodeFloat]
  split
  · next negative =>
      rw [and_signBit_ne_zero] at negative
      have cleared : ¬(~~~bits) &&& signBit ≠ 0 := by
        rw [and_signBit_ne_zero, not_toNat]
        omega
      rw [decodeFloat, if_neg cleared, UInt64.not_not]
  · next positive =>
      rw [or_eq_xor_of_and_eq_zero (Decidable.not_not.mp positive)]
      rw [and_signBit_ne_zero] at positive
      have set : (bits ^^^ signBit) &&& signBit ≠ 0 := by
        rw [and_signBit_ne_zero, xor_signBit_toNat]
        split <;> omega
      rw [decodeFloat, if_pos set, UInt64.xor_assoc, UInt64.xor_self,
        UInt64.xor_zero]

private theorem encodeFloat_decodeFloat (word : UInt64) :
    encodeFloat (decodeFloat word) = word := by
  have bound := word.toNat_lt
  rw [decodeFloat]
  split
  · next set =>
      rw [and_signBit_ne_zero] at set
      have cleared : ¬(word ^^^ signBit) &&& signBit ≠ 0 := by
        rw [and_signBit_ne_zero, xor_signBit_toNat]
        split <;> omega
      rw [encodeFloat, if_neg cleared,
        or_eq_xor_of_and_eq_zero (Decidable.not_not.mp cleared),
        UInt64.xor_assoc, UInt64.xor_self, UInt64.xor_zero]
  · next cleared =>
      rw [and_signBit_ne_zero] at cleared
      have set : (~~~word) &&& signBit ≠ 0 := by
        rw [and_signBit_ne_zero, not_toNat]
        omega
      rw [encodeFloat, if_pos set, UInt64.not_not]

private theorem normaliseZero_of_ne {bits : UInt64}
    (notNegative : bits ≠ signBit) : normaliseZero bits = bits := by
  rw [normaliseZero]
  split
  · next zero =>
      rcases zero with rfl | rfl
      · rfl
      · exact absurd rfl notNegative
  · rfl

private theorem normaliseZero_ne_signBit (bits : UInt64) :
    normaliseZero bits ≠ signBit := by
  rw [normaliseZero]
  split
  · decide
  · next nonzero => exact fun same => nonzero (.inr same)

theorem isNan_normaliseZero {bits : UInt64} (number : ¬isNan bits) :
    ¬isNan (normaliseZero bits) := by
  rw [normaliseZero]
  split
  · decide
  · exact number

private theorem readChunked_writeChunked (data rest : Bytes) :
    readChunked (writeChunked data ++ rest) = .ok (data, rest) := by
  induction size : data.length using Nat.strong_induction_on
    generalizing data with
  | _ size' ih =>
      subst size
      match data with
      | b0 :: b1 :: b2 :: b3 :: b4 :: b5 :: b6 :: b7 :: tail =>
          have smaller := ih tail.length (by simp; omega) tail rfl
          simp [writeChunked, readChunked, smaller]
      | [] | [_] | [_, _] | [_, _, _] | [_, _, _, _] | [_, _, _, _, _]
      | [_, _, _, _, _, _] | [_, _, _, _, _, _, _] =>
          simp [writeChunked, readChunked, group, markerBase, markerContinue]

/-- A final group is the only spelling of its meaningful bytes. -/
private theorem writeChunked_take {window : Bytes} {meaningful : Nat}
    (full : window.length = group) (partly : meaningful < group)
    (padding : ∀ byte ∈ window.drop meaningful, byte = 0) :
    writeChunked (window.take meaningful) =
      window ++ [markerBase + UInt8.ofNat meaningful] := by
  have length : (window.take meaningful).length = meaningful := by
    rw [List.length_take]
    omega
  have zeros : window.drop meaningful =
      List.replicate (group - meaningful) 0 := by
    rw [List.eq_replicate_iff, List.length_drop, full]
    exact ⟨rfl, padding⟩
  have whole : (window.take meaningful).take group = window.take meaningful :=
    List.take_of_length_le (by omega)
  rw [writeChunked_eq, whole, if_neg (by omega), length, List.append_nil]
  simp only [padded, length]
  rw [← zeros, List.take_append_drop]

private theorem marker_meaningful {marker : UInt8}
    (notContinue : ¬marker = markerContinue) (inRange : ¬marker < markerBase) :
    (marker - markerBase).toNat < group ∧
      markerBase + UInt8.ofNat (marker - markerBase).toNat = marker := by
  have notLast : marker.toNat ≠ 255 := by
    intro last
    exact notContinue (UInt8.toNat_inj.mp last)
  have bound := marker.toNat_lt
  have least : 247 ≤ marker.toNat := by
    simpa [UInt8.lt_iff_toNat_lt, markerBase] using inRange
  have difference : (marker - markerBase).toNat = marker.toNat - 247 :=
    UInt8.toNat_sub_of_le marker markerBase (UInt8.le_iff_toNat_le.mpr least)
  refine ⟨by rw [difference, group]; omega, ?_⟩
  rw [UInt8.ofNat_toNat, UInt8.add_comm, UInt8.sub_add_cancel]

private theorem writeChunked_of_readChunked {input data rest : Bytes}
    (read : readChunked input = .ok (data, rest)) :
    input = writeChunked data ++ rest := by
  fun_induction readChunked input generalizing data with
  | case1 b0 b1 b2 b3 b4 b5 b6 b7 tail ih =>
      rw [bind_eq_ok] at read
      obtain ⟨⟨inner, after⟩, readTail, ⟨⟩⟩ := read
      have tailEq := ih readTail
      simp [writeChunked, tailEq]
  | case2 => cases read
  | case3 => cases read
  | case4 b0 b1 b2 b3 b4 b5 b6 b7 marker tail notContinue inRange window
      meaningful =>
      rename_i padding
      cases read
      obtain ⟨partly, markerEq⟩ := marker_meaningful notContinue inRange
      rw [writeChunked_take rfl partly (by simpa using padding), markerEq]
      simp [window]
  | case5 => cases read

mutual

/-- The value with every negative zero replaced by the positive one; the only
identification the encoding makes. -/
def canonical : Value → Value
  | .float bits => .float (normaliseZero bits)
  | .list items => .list (canonicalAll items)
  | value => value

def canonicalAll : List Value → List Value
  | [] => []
  | value :: values => canonical value :: canonicalAll values

end

theorem canonical_eq_null {value : Value} : canonical value = .null ↔ value = .null := by
  cases value <;> simp [canonical]

private theorem readElement_scalar {value : Value} {depth fuel : Nat}
    {bytes : Bytes} (scalar : ∀ items, value ≠ .list items)
    (encoded : writeElement value depth = .ok bytes) (rest : Bytes) :
    readElement (fuel + 1) (bytes ++ rest) depth =
      .ok (canonical value, rest) := by
  have shallow := Nat.not_lt_of_le (writeElement_depth encoded)
  rw [writeElement.eq_def, if_neg shallow] at encoded
  rw [readElement.eq_def]
  simp only [if_neg shallow]
  cases value with
  | null => cases encoded; rfl
  | bool flag => cases flag <;> cases encoded <;> rfl
  | int n =>
      cases encoded
      exact bind_eq_ok.mpr ⟨(n, rest), readI64_eq_ok.mpr rfl, rfl⟩
  | float bits =>
      obtain ⟨number, ⟨⟩⟩ := guard_eq_ok.mp encoded
      refine bind_eq_ok.mpr
        ⟨(encodeFloat (normaliseZero bits), rest), readU64_eq_ok.mpr rfl, ?_⟩
      simp only [decodeFloat_encodeFloat]
      rw [if_neg (isNan_normaliseZero number),
        if_neg (normaliseZero_ne_signBit bits), canonical]
  | string text =>
      cases encoded
      refine bind_eq_ok.mpr
        ⟨(utf8 text, rest), readChunked_writeChunked _ _, ?_⟩
      simp only [fromUtf8_utf8, canonical]
  | bytes data =>
      cases encoded
      exact bind_eq_ok.mpr ⟨(data, rest), readChunked_writeChunked _ _, rfl⟩
  | date date =>
      cases encoded
      exact bind_eq_ok.mpr ⟨(date.days, rest), readI64_eq_ok.mpr rfl, rfl⟩
  | time time =>
      obtain ⟨inDay, ⟨⟩⟩ := guard_eq_ok.mp encoded
      exact bind_eq_ok.mpr ⟨(time.nanos, rest), readU64_eq_ok.mpr rfl,
        guard_eq_ok.mpr ⟨inDay, rfl⟩⟩
  | dateTime stamp =>
      obtain ⟨inRange, ⟨⟩⟩ := guard_eq_ok.mp encoded
      have offset := (readOffset_eq (beBytes_length _ _)).mpr
        (Eq.refl (beBytes 2 (stamp.offsetMinutes.toUInt16 ^^^ 0x8000).toNat))
      refine bind_eq_ok.mpr ⟨(stamp.epochNanos, _),
        readI64_eq_ok.mpr (List.append_assoc _ _ _), ?_⟩
      refine bind_eq_ok.mpr
        ⟨(_, rest), readArray_eq_ok.mpr ⟨rfl, beBytes_length _ _⟩, ?_⟩
      simp only [offset]
      exact guard_eq_ok.mpr ⟨inRange, rfl⟩
  | duration span =>
      cases encoded
      simp only [List.cons_append, List.append_assoc]
      refine bind_eq_ok.mpr ⟨(span.months, _), readI64_eq_ok.mpr rfl, ?_⟩
      refine bind_eq_ok.mpr ⟨(span.days, _), readI64_eq_ok.mpr rfl, ?_⟩
      exact bind_eq_ok.mpr ⟨(span.nanos, rest), readI64_eq_ok.mpr rfl, rfl⟩
  | list items => exact absurd rfl (scalar items)

private theorem writeElement_pos {value : Value} {depth : Nat} {bytes : Bytes}
    (encoded : writeElement value depth = .ok bytes) : 0 < bytes.length := by
  obtain ⟨body, rfl⟩ := writeElement_rank encoded
  exact Nat.succ_pos _

mutual

/-- Two units of fuel per encoded byte suffice to read an element back. -/
private theorem readElement_writeElement (value : Value) {depth : Nat} (fuel : Nat)
    {bytes : Bytes} (encoded : writeElement value depth = .ok bytes)
    (enough : 2 * bytes.length ≤ fuel) (rest : Bytes) :
    readElement fuel (bytes ++ rest) depth = .ok (canonical value, rest) := by
  have positive := writeElement_pos encoded
  obtain ⟨fuel, rfl⟩ : ∃ less, fuel = less + 1 := ⟨fuel - 1, by omega⟩
  cases value with
  | list items =>
      have shallow := Nat.not_lt_of_le (writeElement_depth encoded)
      obtain ⟨body, written, rfl⟩ := writeElement_list encoded
      have read := readItems_writeElements items fuel written
        (by simp at enough; omega) rest
      rw [readElement.eq_def]
      simp only [if_neg shallow]
      exact bind_eq_ok.mpr ⟨(canonicalAll items, rest), by simpa using read, rfl⟩
  | _ => exact readElement_scalar (by rintro _ ⟨⟩) encoded rest

private theorem readItems_writeElements (values : List Value)
    {depth : Nat} (fuel : Nat) {bytes : Bytes}
    (encoded : writeElements values depth = .ok bytes)
    (enough : 2 * bytes.length + 1 ≤ fuel) (rest : Bytes) :
    readItems fuel (bytes ++ tagListEnd :: rest) depth =
      .ok (canonicalAll values, rest) := by
  obtain ⟨fuel, rfl⟩ : ∃ less, fuel = less + 1 := ⟨fuel - 1, by omega⟩
  cases values with
  | nil =>
      cases encoded
      rfl
  | cons value values =>
      obtain ⟨head, tail, first, others, rfl⟩ := writeElements_cons encoded
      have positive := writeElement_pos first
      rw [List.length_append] at enough
      have readHead := readElement_writeElement value fuel first
        (by omega) (tail ++ tagListEnd :: rest)
      have readTail := readItems_writeElements values fuel others
        (by omega) rest
      obtain ⟨body, rfl⟩ := writeElement_rank first
      have different : rank value ≠ tagListEnd :=
        (tagListEnd_lt_rank value).ne'
      simp only [List.cons_append, List.append_assoc] at readHead ⊢
      rw [readItems, if_neg different, canonicalAll]
      exact bind_eq_ok.mpr ⟨_, readHead, bind_eq_ok.mpr ⟨_, readTail, rfl⟩⟩

end

private theorem readTuple_writeElements (values : List Value)
    {fuel : Nat} {bytes : Bytes}
    (encoded : writeElements values 0 = .ok bytes)
    (enough : 2 * bytes.length + 1 ≤ fuel) :
    readTuple fuel bytes = .ok (canonicalAll values) := by
  induction values generalizing fuel bytes with
  | nil =>
      cases encoded
      obtain ⟨fuel, rfl⟩ : ∃ less, fuel = less + 1 := ⟨fuel - 1, by omega⟩
      rfl
  | cons value values ih =>
      obtain ⟨fuel, rfl⟩ : ∃ less, fuel = less + 1 := ⟨fuel - 1, by omega⟩
      obtain ⟨head, tail, first, others, rfl⟩ := writeElements_cons encoded
      have positive := writeElement_pos first
      rw [List.length_append] at enough
      have readHead := readElement_writeElement value fuel first
        (by omega) tail
      have readTail := @ih fuel tail others (by omega)
      obtain ⟨body, rfl⟩ := writeElement_rank first
      rw [List.cons_append] at readHead ⊢
      rw [readTuple, canonicalAll]
      exact bind_eq_ok.mpr ⟨_, readHead, bind_eq_ok.mpr ⟨_, readTail, rfl⟩⟩

/-- The bytes after the tag of an element that is read are the body its writer
produces. -/
private theorem writeElement_of_body {fuel depth : Nat} {tag : UInt8}
    {input rest : Bytes} {value : Value}
    (itemsStrict : ∀ {input rest : Bytes} {depth : Nat} {values : List Value},
      readItems fuel input depth = .ok (values, rest) →
      ∃ bytes, writeElements values depth = .ok bytes ∧
        input = bytes ++ tagListEnd :: rest)
    (read : readElement (fuel + 1) (tag :: input) depth = .ok (value, rest)) :
    ∃ bytes, writeElement value depth = .ok bytes ∧
      tag :: input = bytes ++ rest := by
  rw [readElement, guard_eq_ok] at read
  obtain ⟨shallow, read⟩ := read
  rw [writeElement.eq_def, if_neg shallow]
  by_cases isNull : tag = tagNull
  · rw [if_pos isNull] at read
    cases read
    exact ⟨_, rfl, by rw [isNull]; rfl⟩
  rw [if_neg isNull] at read
  by_cases isFalse : tag = tagFalse
  · rw [if_pos isFalse] at read
    cases read
    exact ⟨_, rfl, by rw [isFalse]; rfl⟩
  rw [if_neg isFalse] at read
  by_cases isTrue : tag = tagTrue
  · rw [if_pos isTrue] at read
    cases read
    exact ⟨_, rfl, by rw [isTrue]; rfl⟩
  rw [if_neg isTrue] at read
  by_cases isInt : tag = tagInt
  · rw [if_pos isInt] at read
    simp only [bind_eq_ok, Prod.exists] at read
    obtain ⟨n, after, word, ⟨⟩⟩ := read
    exact ⟨_, rfl, by rw [isInt, readI64_eq_ok.mp word]; rfl⟩
  rw [if_neg isInt] at read
  by_cases isFloat : tag = tagFloat
  · rw [if_pos isFloat] at read
    simp only [bind_eq_ok, Prod.exists, guard_eq_ok] at read
    obtain ⟨word, after, body, number, notNegative, ⟨⟩⟩ := read
    refine ⟨_, if_neg number, ?_⟩
    rw [isFloat, normaliseZero_of_ne notNegative, encodeFloat_decodeFloat,
      readU64_eq_ok.mp body]
    rfl
  rw [if_neg isFloat] at read
  by_cases isString : tag = tagString
  · rw [if_pos isString] at read
    simp only [bind_eq_ok, Prod.exists] at read
    obtain ⟨data, after, body, decoded⟩ := read
    split at decoded
    · next text valid =>
        cases decoded
        refine ⟨_, rfl, ?_⟩
        rw [isString, utf8_of_fromUtf8 valid, writeChunked_of_readChunked body]
        rfl
    · cases decoded
  rw [if_neg isString] at read
  by_cases isBytes : tag = tagBytes
  · rw [if_pos isBytes] at read
    simp only [bind_eq_ok, Prod.exists] at read
    obtain ⟨data, after, body, ⟨⟩⟩ := read
    exact ⟨_, rfl, by rw [isBytes, writeChunked_of_readChunked body]; rfl⟩
  rw [if_neg isBytes] at read
  by_cases isDate : tag = tagDate
  · rw [if_pos isDate] at read
    simp only [bind_eq_ok, Prod.exists] at read
    obtain ⟨days, after, word, ⟨⟩⟩ := read
    exact ⟨_, rfl, by rw [isDate, readI64_eq_ok.mp word]; rfl⟩
  rw [if_neg isDate] at read
  by_cases isTime : tag = tagTime
  · rw [if_pos isTime] at read
    simp only [bind_eq_ok, Prod.exists, guard_eq_ok] at read
    obtain ⟨nanos, after, word, inDay, ⟨⟩⟩ := read
    exact ⟨_, if_neg inDay, by rw [isTime, readU64_eq_ok.mp word]; rfl⟩
  rw [if_neg isTime] at read
  by_cases isDateTime : tag = tagDateTime
  · rw [if_pos isDateTime] at read
    simp only [bind_eq_ok, Prod.exists, guard_eq_ok] at read
    obtain ⟨epochNanos, between, instant, word, after, offset, inRange, ⟨⟩⟩ := read
    obtain ⟨rfl, length⟩ := readArray_eq_ok.mp offset
    refine ⟨_, if_neg inRange, ?_⟩
    rw [isDateTime, readI64_eq_ok.mp instant, ← (readOffset_eq length).mp rfl]
    simp only [List.cons_append, List.append_assoc]
  rw [if_neg isDateTime] at read
  by_cases isDuration : tag = tagDuration
  · rw [if_pos isDuration] at read
    simp only [bind_eq_ok, Prod.exists] at read
    obtain ⟨months, first, word, days, second, word', nanos, after, word'', ⟨⟩⟩ :=
      read
    refine ⟨_, rfl, ?_⟩
    rw [isDuration, readI64_eq_ok.mp word, readI64_eq_ok.mp word',
      readI64_eq_ok.mp word'']
    simp only [List.cons_append, List.append_assoc]
  rw [if_neg isDuration] at read
  by_cases isList : tag = tagList
  · rw [if_pos isList] at read
    simp only [bind_eq_ok, Prod.exists] at read
    obtain ⟨items, after, readRest, ⟨⟩⟩ := read
    obtain ⟨body, written, rfl⟩ := itemsStrict readRest
    refine ⟨_, bind_eq_ok.mpr ⟨body, written, rfl⟩, ?_⟩
    rw [isList]
    simp
  rw [if_neg isList] at read
  cases read

/-- What a successful read consumed is what the writer produces. -/
private theorem writeElement_of_readElement (fuel : Nat) :
    (∀ {input rest : Bytes} {depth : Nat} {value : Value},
      readElement fuel input depth = .ok (value, rest) →
      ∃ bytes, writeElement value depth = .ok bytes ∧ input = bytes ++ rest) ∧
    (∀ {input rest : Bytes} {depth : Nat} {values : List Value},
      readItems fuel input depth = .ok (values, rest) →
      ∃ bytes, writeElements values depth = .ok bytes ∧
        input = bytes ++ tagListEnd :: rest) := by
  induction fuel with
  | zero => exact ⟨nofun, nofun⟩
  | succ fuel ih =>
      constructor
      · intro input rest depth value read
        cases input with
        | nil =>
            rw [readElement, guard_eq_ok] at read
            cases read.2
        | cons tag input => exact writeElement_of_body ih.2 read
      · intro input rest depth values read
        cases input with
        | nil => cases read
        | cons byte input =>
            rw [readItems] at read
            split at read
            · next last =>
                cases read
                exact ⟨[], rfl, by rw [last]; rfl⟩
            · simp only [bind_eq_ok, Prod.exists] at read
              obtain ⟨item, between, readItem, items, after, readRest, ⟨⟩⟩ := read
              obtain ⟨head, first, split⟩ := ih.1 readItem
              obtain ⟨tail, others, rfl⟩ := ih.2 readRest
              refine ⟨head ++ tail, ?_, by rw [split, List.append_assoc]⟩
              rw [writeElements, first, ok_bind, others, ok_bind]

private theorem writeElements_of_readTuple {fuel : Nat} {input : Bytes}
    {tuple : List Value} (read : readTuple fuel input = .ok tuple) :
    writeElements tuple 0 = .ok input := by
  induction fuel generalizing input tuple with
  | zero => cases read
  | succ fuel ih =>
      cases input with
      | nil =>
          cases read
          rfl
      | cons byte input =>
          simp only [readTuple, bind_eq_ok, Prod.exists] at read
          obtain ⟨value, between, first, values, others, ⟨⟩⟩ := read
          obtain ⟨head, written, split⟩ :=
            (writeElement_of_readElement fuel).1 first
          rw [writeElements, written, ok_bind, ih others, ok_bind, split]

/-- Where two elements start one byte string they are one element, and what
follows them is the same. -/
theorem writeElement_selfDelimiting {left right : Value} {depth : Nat}
    {leftBytes rightBytes leftRest rightRest : Bytes}
    (leftEncoded : writeElement left depth = .ok leftBytes)
    (rightEncoded : writeElement right depth = .ok rightBytes)
    (same : leftBytes ++ leftRest = rightBytes ++ rightRest) :
    canonical left = canonical right ∧ leftRest = rightRest := by
  have leftRead := readElement_writeElement left
    (2 * (leftBytes.length + rightBytes.length)) leftEncoded (by omega) leftRest
  have rightRead := readElement_writeElement right
    (2 * (leftBytes.length + rightBytes.length)) rightEncoded (by omega) rightRest
  rw [same, rightRead, Except.ok.injEq, Prod.mk.injEq] at leftRead
  exact ⟨leftRead.1.symm, leftRead.2.symm⟩

/-- The bytes of an element depend on its canonical form only. -/
theorem writeElement_canonical {value : Value} {depth : Nat} {bytes : Bytes}
    (encoded : writeElement value depth = .ok bytes) :
    writeElement (canonical value) depth = .ok bytes := by
  have read := readElement_writeElement value (2 * bytes.length) encoded
    (Nat.le_refl _) []
  obtain ⟨again, written, split⟩ := (writeElement_of_readElement _).1 read
  rw [written, ← List.append_cancel_right split]

theorem decodeKey_of_encodeKey {tuple : List Value} {bytes : Bytes}
    (encoded : encodeKey tuple = .ok bytes) :
    decodeKey bytes = .ok (canonicalAll tuple) :=
  readTuple_writeElements tuple encoded (Nat.le_refl _)

theorem encodeKey_of_decodeKey {bytes : Bytes} {tuple : List Value}
    (decoded : decodeKey bytes = .ok tuple) : encodeKey tuple = .ok bytes :=
  writeElements_of_readTuple decoded

theorem canonicalAll_of_decodeKey {bytes : Bytes} {tuple : List Value}
    (decoded : decodeKey bytes = .ok tuple) : canonicalAll tuple = tuple := by
  have again := decodeKey_of_encodeKey (encodeKey_of_decodeKey decoded)
  rw [decoded] at again
  exact (Except.ok.inj again).symm

/-- Decoding inverts encoding up to the sign of zero, and a byte string that
decodes is the encoding of what it decodes to. -/
theorem keyCodec_bijective :
    (∀ tuple bytes, encodeKey tuple = .ok bytes →
      decodeKey bytes = .ok (canonicalAll tuple)) ∧
    (∀ bytes tuple, decodeKey bytes = .ok tuple →
      encodeKey tuple = .ok bytes) ∧
    (∀ left right tuple, decodeKey left = .ok tuple →
      decodeKey right = .ok tuple → left = right) := by
  refine ⟨?roundTrip, ?strict, ?injective⟩
  case roundTrip =>
    intro tuple bytes encoded
    exact decodeKey_of_encodeKey encoded
  case strict =>
    intro bytes tuple decoded
    exact encodeKey_of_decodeKey decoded
  case injective =>
    intro left right tuple leftDecoded rightDecoded
    have leftEncoded := encodeKey_of_decodeKey leftDecoded
    rw [encodeKey_of_decodeKey rightDecoded] at leftEncoded
    exact (Except.ok.inj leftEncoded).symm

/-- Negative zero comes back positive; the rest of the tuple is unchanged. -/
theorem keyCodec_bijective_zero :
    decodeKey ([tagFloat, 0x80, 0, 0, 0, 0, 0, 0, 0] ++ [tagList, tagListEnd]) =
      .ok [.float 0, .list []] :=
  keyCodec_bijective.1 [.float signBit, .list []] _ (by decide)

end Acetone.Model

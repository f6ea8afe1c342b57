import Acetone.Model.CborReaders

/-!
# The canonical value codec

Values as deterministic CBOR items: shortest heads, the shortest exact float,
tagged temporal values, definite lengths.  The decoder accepts no other form.

The decoder recurses only into lists, one level deeper each time, and refuses
a level beyond `maxDepth`; its fuel counts the levels that are left.
-/

namespace Acetone.Model.Cbor

open Acetone.Lib

def tagDate : Nat := 100
def tagTime : Nat := 74100
def tagDateTime : Nat := 74101
def tagDuration : Nat := 74102

/-- Shortest exact form; every NaN is written as the canonical half-width one. -/
def writeFloat (bits : UInt64) : Bytes :=
  if isNan bits then headF16 :: beBytes 2 0x7e00
  else
    match f16FromF64Exact bits with
    | some half => headF16 :: beBytes 2 half.toNat
    | none =>
        match f32FromF64Exact bits with
        | some single => headF32 :: beBytes 4 single.toNat
        | none => headF64 :: beBytes 8 bits.toNat

mutual

def writeValue (value : Value) (depth : Nat) : Except ValueEncodeError Bytes :=
  if depth > maxDepth then .error .depthExceeded
  else
    match value with
    | .null => .ok [simpleNull]
    | .bool false => .ok [simpleFalse]
    | .bool true => .ok [simpleTrue]
    | .int n => .ok (writeInt n)
    | .float bits => .ok (writeFloat bits)
    | .string text => .ok (writeText text)
    | .bytes data => .ok (writeHead majorBytes data.length ++ data)
    | .date date => .ok (writeHead majorTag tagDate ++ writeInt date.days)
    | .time time =>
        if time.nanos ≥ nanosPerDay then .error (.timeOutOfRange time.nanos)
        else
          .ok (writeHead majorTag tagTime ++
            writeHead majorUnsigned time.nanos.toNat)
    | .dateTime stamp =>
        if stamp.offsetMinutes.toInt.natAbs > maxOffsetMinutes then
          .error (.offsetOutOfRange stamp.offsetMinutes)
        else
          .ok (writeHead majorTag tagDateTime ++ (writeHead majorArray 2 ++
            (writeInt stamp.epochNanos ++
              writeInt stamp.offsetMinutes.toInt64)))
    | .duration span =>
        .ok (writeHead majorTag tagDuration ++ (writeHead majorArray 3 ++
          (writeInt span.months ++ (writeInt span.days ++ writeInt span.nanos))))
    | .list items => do
        let body ← writeValues items (depth + 1)
        .ok (writeHead majorArray items.length ++ body)

def writeValues (values : List Value) (depth : Nat) :
    Except ValueEncodeError Bytes :=
  match values with
  | [] => .ok []
  | value :: values => do
      let head ← writeValue value depth
      let rest ← writeValues values depth
      .ok (head ++ rest)

end

/-- Encode a value in canonical deterministic CBOR. -/
def encodeValue (value : Value) : Except ValueEncodeError Bytes :=
  writeValue value 0

/-- Only the wrong-shape error of `read_i64` is reclassified. -/
def dateError : ValueDecodeError → ValueDecodeError
  | .unsupported "expected integer" =>
      .invalidTagContent tagDate "expected integer days"
  | other => other

def arrayError (tag : Nat) : ValueDecodeError → ValueDecodeError
  | .unsupported "unexpected major type" => .invalidTagContent tag "expected array"
  | other => other

def expectArray (count tag : Nat) (input : Bytes) :
    Except ValueDecodeError Bytes := do
  let (declared, rest) ← (readHead majorArray input).mapError (arrayError tag)
  if declared ≠ count then .error (.invalidTagContent tag "wrong array length")
  else .ok rest

def readTagged (tag : Nat) (input : Bytes) :
    Except ValueDecodeError (Value × Bytes) :=
  if tag = tagDate then do
    let (days, rest) ← (readI64 input).mapError dateError
    .ok (.date ⟨days⟩, rest)
  else if tag = tagTime then do
    let (first, input) ← readU8 input
    if first.toNat / 32 ≠ majorUnsigned then
      .error (.invalidTagContent tagTime "expected unsigned integer nanoseconds")
    else do
      let (nanos, rest) ← readHeadValue (first.toNat % 32) input
      if nanosPerDay.toNat ≤ nanos then .error .timeOutOfRange
      else .ok (.time ⟨UInt64.ofNat nanos⟩, rest)
  else if tag = tagDateTime then do
    let input ← expectArray 2 tagDateTime input
    let (epochNanos, input) ← readI64 input
    let (offset, rest) ← readI64 input
    if offset.toInt < -2 ^ 15 ∨ 2 ^ 15 ≤ offset.toInt then .error .offsetOutOfRange
    else if offset.toInt16.toInt.natAbs > maxOffsetMinutes then
      .error .offsetOutOfRange
    else .ok (.dateTime ⟨epochNanos, offset.toInt16⟩, rest)
  else if tag = tagDuration then do
    let input ← expectArray 3 tagDuration input
    let (months, input) ← readI64 input
    let (days, input) ← readI64 input
    let (nanos, rest) ← readI64 input
    .ok (.duration ⟨months, days, nanos⟩, rest)
  else .error (.unknownTag tag)

/-- Of the half-width NaNs only the canonical quiet one is accepted. -/
def readF16 (input : Bytes) : Except ValueDecodeError (Value × Bytes) := do
  let (word, rest) ← readBeU64 2 input
  if binary16.IsNan word then
    if word ≠ 0x7e00 then .error (.nonCanonical "non-canonical NaN")
    else .ok (.float canonicalNanBits, rest)
  else .ok (.float (f16BitsToF64 (UInt16.ofNat word)), rest)

def readF32 (input : Bytes) : Except ValueDecodeError (Value × Bytes) := do
  let (word, rest) ← readBeU64 4 input
  if binary32.IsNan word then .error (.nonCanonical "non-canonical NaN")
  else if (f16FromF64Exact (UInt64.ofNat (ofBinary32 word))).isSome then
    .error (.nonCanonical "float not in shortest form")
  else .ok (.float (UInt64.ofNat (ofBinary32 word)), rest)

def readF64 (input : Bytes) : Except ValueDecodeError (Value × Bytes) := do
  let (word, rest) ← readBeU64 8 input
  if isNan (UInt64.ofNat word) then .error (.nonCanonical "non-canonical NaN")
  else if (f16FromF64Exact (UInt64.ofNat word)).isSome ∨
      (f32FromF64Exact (UInt64.ofNat word)).isSome then
    .error (.nonCanonical "float not in shortest form")
  else .ok (.float (UInt64.ofNat word), rest)

def readSimpleOrFloat (info : Nat) (input : Bytes) :
    Except ValueDecodeError (Value × Bytes) :=
  if info = 20 then .ok (.bool false, input)
  else if info = 21 then .ok (.bool true, input)
  else if info = 22 then .ok (.null, input)
  else if info = 23 then .error (.unsupported "undefined")
  else if info ≤ 19 ∨ info = 24 then .error (.unsupported "simple value")
  else if info = 25 then readF16 input
  else if info = 26 then readF32 input
  else if info = 27 then readF64 input
  else if info < 31 then .error .malformedHead
  else .error (.unsupported "break")

def readItems (read : Bytes → Except ValueDecodeError (Value × Bytes)) :
    Nat → Bytes → Except ValueDecodeError (List Value × Bytes)
  | 0, input => .ok ([], input)
  | count + 1, input => do
      let (item, input) ← read input
      let (items, rest) ← readItems read count input
      .ok (item :: items, rest)

def readValue : Nat → Bytes → Nat → Except ValueDecodeError (Value × Bytes)
  | 0, _, _ => .error .depthExceeded
  | fuel + 1, input, depth =>
      if depth > maxDepth then .error .depthExceeded
      else do
        let (first, input) ← readU8 input
        let major := first.toNat / 32
        let info := first.toNat % 32
        if major = majorUnsigned then do
          let (value, rest) ← readHeadValue info input
          let n ← unsignedToI64 value
          .ok (.int n, rest)
        else if major = majorNegative then do
          let (value, rest) ← readHeadValue info input
          let n ← negativeToI64 value
          .ok (.int n, rest)
        else if major = majorBytes then do
          let (declared, input) ← readHeadValue info input
          let (data, rest) ← readBody declared input
          .ok (.bytes data, rest)
        else if major = majorText then do
          let (declared, input) ← readHeadValue info input
          let (bytes, rest) ← readBody declared input
          let text ← decodeUtf8 bytes
          .ok (.string text, rest)
        else if major = majorArray then do
          let (count, input) ← readHeadValue info input
          if input.length < count then
            .error (.lengthOverrun count input.length)
          else do
            let (items, rest) ← readItems (readValue fuel · (depth + 1)) count input
            .ok (.list items, rest)
        else if major = majorMap then .error (.unsupported "map")
        else if major = majorTag then do
          let (tag, input) ← readHeadValue info input
          readTagged tag input
        else readSimpleOrFloat info input

/-- Decode a canonical CBOR value, consuming the whole input. -/
def decodeValue (bytes : Bytes) : Except ValueDecodeError Value := do
  let (value, rest) ← readValue (maxDepth + 2) bytes 0
  if rest.length ≠ 0 then .error .trailingBytes else .ok value

end Acetone.Model.Cbor

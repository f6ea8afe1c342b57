import Acetone.Lib.Outcome
import Acetone.Model.Value

/-!
# Order-preserving key tuples

A key is a tuple of values.  Every element is written as a type tag followed
by a self-delimiting body, and a tuple is the concatenation of its elements.
This file embeds the encoder, the strict decoder and the logical order; the
two files that import it relate them.

The decoder's recursion is bounded by a fuel argument.  Reading an element or
the rest of a list costs one unit each, and an element consumes at least one
byte, so two units per input byte are always enough.
-/

namespace Acetone.Model

open Acetone.Lib

/-- Maximum list nesting depth accepted by encoder and decoder. -/
def maxDepth : Nat := 128

def tagListEnd : UInt8 := 0x00
def tagNull : UInt8 := 0x01
def tagFalse : UInt8 := 0x02
def tagTrue : UInt8 := 0x03
def tagInt : UInt8 := 0x04
def tagFloat : UInt8 := 0x05
def tagString : UInt8 := 0x06
def tagBytes : UInt8 := 0x07
def tagDate : UInt8 := 0x08
def tagTime : UInt8 := 0x09
def tagDateTime : UInt8 := 0x0a
def tagDuration : UInt8 := 0x0b
def tagList : UInt8 := 0x0c

/-- Marker for a final chunk group with zero meaningful bytes. -/
def markerBase : UInt8 := 0xf7
/-- Marker for a full group with more data following. -/
def markerContinue : UInt8 := 0xff
def group : Nat := 8

inductive KeyEncodeError where
  | nanNotPermitted
  | timeOutOfRange (nanos : UInt64)
  | offsetOutOfRange (minutes : Int16)
  | depthExceeded
deriving DecidableEq, Repr

inductive KeyDecodeError where
  | unexpectedEnd
  | unknownTag (tag : UInt8)
  | invalidChunkMarker (marker : UInt8)
  | nonCanonical (reason : String)
  | invalidUtf8
  | depthExceeded
deriving DecidableEq, Repr

def rank : Value → UInt8
  | .null => tagNull
  | .bool false => tagFalse
  | .bool true => tagTrue
  | .int _ => tagInt
  | .float _ => tagFloat
  | .string _ => tagString
  | .bytes _ => tagBytes
  | .date _ => tagDate
  | .time _ => tagTime
  | .dateTime _ => tagDateTime
  | .duration _ => tagDuration
  | .list _ => tagList

/-- The signed word `f64::total_cmp` compares: the bits below the sign are
inverted when the sign is set. -/
def totalOrderKey (bits : UInt64) : Int64 :=
  if bits &&& signBit ≠ 0 then
    (bits ^^^ 0x7fffffffffffffff).toInt64
  else
    bits.toInt64

def totalCmp (left right : UInt64) : Ordering :=
  compare (totalOrderKey left) (totalOrderKey right)

mutual

/-- The logical order of two elements: by type tag first, then by value. -/
def valueCmp (left right : Value) : Ordering :=
  match compare (rank left) (rank right) with
  | .lt => .lt
  | .gt => .gt
  | .eq =>
      match left, right with
      | .bool x, .bool y => compare x y
      | .int x, .int y => compare x y
      | .float x, .float y => totalCmp (normaliseZero x) (normaliseZero y)
      | .string x, .string y => lexCmp (utf8 x) (utf8 y)
      | .bytes x, .bytes y => lexCmp x y
      | .date x, .date y => compare x.days y.days
      | .time x, .time y => compare x.nanos y.nanos
      | .dateTime x, .dateTime y =>
          (compare x.epochNanos y.epochNanos).then
            (compare x.offsetMinutes y.offsetMinutes)
      | .duration x, .duration y =>
          (compare x.months y.months).then
            ((compare x.days y.days).then (compare x.nanos y.nanos))
      | .list xs, .list ys => keyCmp xs ys
      | _, _ => .eq

/-- Elementwise lexicographic; a proper prefix sorts first. -/
def keyCmp : List Value → List Value → Ordering
  | [], [] => .eq
  | [], _ :: _ => .lt
  | _ :: _, [] => .gt
  | x :: xs, y :: ys => (valueCmp x y).then (keyCmp xs ys)

end

/-- `(n as u64) ^ SIGN_BIT`, big-endian. -/
def flipSignI64 (value : Int64) : Bytes :=
  beBytes 8 (value.toUInt64 ^^^ signBit).toNat

/-- The order-preserving word of a float that is not NaN. -/
def encodeFloat (bits : UInt64) : UInt64 :=
  if bits &&& signBit ≠ 0 then ~~~bits else bits ||| signBit

/-- Chunked framing: eight-byte groups, each closed by a marker.  At least one
group is always written. -/
def writeChunked (data : Bytes) : Bytes :=
  match data with
  | b0 :: b1 :: b2 :: b3 :: b4 :: b5 :: b6 :: b7 :: rest =>
      b0 :: b1 :: b2 :: b3 :: b4 :: b5 :: b6 :: b7 :: markerContinue ::
        writeChunked rest
  | rem =>
      rem ++ List.replicate (group - rem.length) 0 ++
        [markerBase + UInt8.ofNat rem.length]

mutual

/-- The bytes `write_element` appends for `value` at nesting `depth`. -/
def writeElement (value : Value) (depth : Nat) : Except KeyEncodeError Bytes :=
  if depth > maxDepth then
    .error .depthExceeded
  else
    match value with
    | .null => .ok [tagNull]
    | .bool false => .ok [tagFalse]
    | .bool true => .ok [tagTrue]
    | .int n => .ok (tagInt :: flipSignI64 n)
    | .float bits =>
        if isNan bits then
          .error .nanNotPermitted
        else
          .ok (tagFloat ::
            beBytes 8 (encodeFloat (normaliseZero bits)).toNat)
    | .string text => .ok (tagString :: writeChunked (utf8 text))
    | .bytes data => .ok (tagBytes :: writeChunked data)
    | .date date => .ok (tagDate :: flipSignI64 date.days)
    | .time time =>
        if time.nanos ≥ nanosPerDay then
          .error (.timeOutOfRange time.nanos)
        else
          .ok (tagTime :: beBytes 8 time.nanos.toNat)
    | .dateTime stamp =>
        if stamp.offsetMinutes.toInt.natAbs > maxOffsetMinutes then
          .error (.offsetOutOfRange stamp.offsetMinutes)
        else
          .ok (tagDateTime :: flipSignI64 stamp.epochNanos ++
            beBytes 2 (stamp.offsetMinutes.toUInt16 ^^^ 0x8000).toNat)
    | .duration span =>
        .ok (tagDuration :: flipSignI64 span.months ++
          flipSignI64 span.days ++ flipSignI64 span.nanos)
    | .list items => do
        let body ← writeElements items (depth + 1)
        .ok (tagList :: body ++ [tagListEnd])

def writeElements (values : List Value) (depth : Nat) :
    Except KeyEncodeError Bytes :=
  match values with
  | [] => .ok []
  | value :: values => do
      let head ← writeElement value depth
      let rest ← writeElements values depth
      .ok (head ++ rest)

end

def encodeKey (tuple : List Value) : Except KeyEncodeError Bytes :=
  writeElements tuple 0

/-- The opening of a list element, without its terminator. -/
def encodeListPrefix (elems : List Value) : Except KeyEncodeError Bytes := do
  let body ← writeElements elems 1
  .ok (tagList :: body)

/-- `read_array::<N>`. -/
def readArray (count : Nat) (input : Bytes) :
    Except KeyDecodeError (Bytes × Bytes) :=
  if input.length < count then
    .error .unexpectedEnd
  else
    .ok (input.take count, input.drop count)

def readU64 (input : Bytes) : Except KeyDecodeError (UInt64 × Bytes) := do
  let (word, rest) ← readArray 8 input
  .ok (UInt64.ofNat (ofBeBytes word), rest)

def readI64 (input : Bytes) : Except KeyDecodeError (Int64 × Bytes) := do
  let (word, rest) ← readU64 input
  .ok ((word ^^^ signBit).toInt64, rest)

/-- One group and its marker per step; a final group must be zero-padded. -/
def readChunked (input : Bytes) : Except KeyDecodeError (Bytes × Bytes) :=
  match input with
  | b0 :: b1 :: b2 :: b3 :: b4 :: b5 :: b6 :: b7 :: marker :: rest =>
      if marker = markerContinue then do
        let (data, rest) ← readChunked rest
        .ok (b0 :: b1 :: b2 :: b3 :: b4 :: b5 :: b6 :: b7 :: data, rest)
      else if marker < markerBase then
        .error (.invalidChunkMarker marker)
      else
        let window := [b0, b1, b2, b3, b4, b5, b6, b7]
        let meaningful := (marker - markerBase).toNat
        if (window.drop meaningful).any (· ≠ 0) then
          .error (.nonCanonical "non-zero chunk padding")
        else
          .ok (window.take meaningful, rest)
  | _ => .error .unexpectedEnd

/-- A float word back to its bits. -/
def decodeFloat (word : UInt64) : UInt64 :=
  if word &&& signBit ≠ 0 then word ^^^ signBit else ~~~word

mutual

def readElement (fuel : Nat) (input : Bytes) (depth : Nat) :
    Except KeyDecodeError (Value × Bytes) :=
  match fuel with
  | 0 => .error .unexpectedEnd
  | fuel + 1 =>
  if depth > maxDepth then
    .error .depthExceeded
  else
    match input with
    | [] => .error .unexpectedEnd
    | tag :: input =>
        if tag = tagNull then .ok (.null, input)
        else if tag = tagFalse then .ok (.bool false, input)
        else if tag = tagTrue then .ok (.bool true, input)
        else if tag = tagInt then do
          let (n, rest) ← readI64 input
          .ok (.int n, rest)
        else if tag = tagFloat then do
          let (word, rest) ← readU64 input
          let bits := decodeFloat word
          if isNan bits then
            .error (.nonCanonical "NaN float body")
          else if bits = signBit then
            .error (.nonCanonical "negative-zero float body")
          else
            .ok (.float bits, rest)
        else if tag = tagString then do
          let (data, rest) ← readChunked input
          match fromUtf8 data with
          | some text => .ok (.string text, rest)
          | none => .error .invalidUtf8
        else if tag = tagBytes then do
          let (data, rest) ← readChunked input
          .ok (.bytes data, rest)
        else if tag = tagDate then do
          let (days, rest) ← readI64 input
          .ok (.date ⟨days⟩, rest)
        else if tag = tagTime then do
          let (nanos, rest) ← readU64 input
          if nanos ≥ nanosPerDay then
            .error (.nonCanonical "time of day out of range")
          else
            .ok (.time ⟨nanos⟩, rest)
        else if tag = tagDateTime then do
          let (epochNanos, rest) ← readI64 input
          let (word, rest) ← readArray 2 rest
          let offset := (UInt16.ofNat (ofBeBytes word) ^^^ 0x8000).toInt16
          if offset.toInt.natAbs > maxOffsetMinutes then
            .error (.nonCanonical "UTC offset out of range")
          else
            .ok (.dateTime ⟨epochNanos, offset⟩, rest)
        else if tag = tagDuration then do
          let (months, rest) ← readI64 input
          let (days, rest) ← readI64 rest
          let (nanos, rest) ← readI64 rest
          .ok (.duration ⟨months, days, nanos⟩, rest)
        else if tag = tagList then do
          let (items, rest) ← readItems fuel input (depth + 1)
          .ok (.list items, rest)
        else .error (.unknownTag tag)

/-- Elements up to and including the list terminator. -/
def readItems (fuel : Nat) (input : Bytes) (depth : Nat) :
    Except KeyDecodeError (List Value × Bytes) :=
  match fuel with
  | 0 => .error .unexpectedEnd
  | fuel + 1 =>
    match input with
    | [] => .error .unexpectedEnd
    | byte :: rest =>
        if byte = tagListEnd then
          .ok ([], rest)
        else do
          let (item, rest) ← readElement fuel input depth
          let (items, rest) ← readItems fuel rest depth
          .ok (item :: items, rest)

end

def readTuple (fuel : Nat) (input : Bytes) :
    Except KeyDecodeError (List Value) :=
  match fuel with
  | 0 => .error .unexpectedEnd
  | fuel + 1 =>
    match input with
    | [] => .ok []
    | _ :: _ => do
        let (value, rest) ← readElement fuel input 0
        let tuple ← readTuple fuel rest
        .ok (value :: tuple)

/-- Decode a key back into its tuple, consuming the whole input. -/
def decodeKey (bytes : Bytes) : Except KeyDecodeError (List Value) :=
  readTuple (2 * bytes.length + 1) bytes

end Acetone.Model

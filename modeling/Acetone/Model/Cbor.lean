import Acetone.Lib.BinaryFloat
import Acetone.Model.Records

/-!
# Canonical CBOR primitives

Heads, integers, text and floats in their one canonical form.  A head packs
the major type into the high three bits of its first byte and the additional
information into the low five; its argument follows in the fewest bytes that
hold it.  A reader is the input that remains.
-/

namespace Acetone.Model

open Acetone.Lib

inductive ValueDecodeError where
  | unexpectedEnd
  | trailingBytes
  | unsupported (item : String)
  | nonCanonical (reason : String)
  | malformedHead
  | intOutOfRange
  | lengthOverrun (declared remaining : Nat)
  | invalidUtf8
  | unknownTag (tag : Nat)
  | invalidTagContent (tag : Nat) (reason : String)
  | timeOutOfRange
  | offsetOutOfRange
  | depthExceeded
deriving DecidableEq, Repr

namespace Cbor

def majorUnsigned : Nat := 0
def majorNegative : Nat := 1
def majorBytes : Nat := 2
def majorText : Nat := 3
def majorArray : Nat := 4
def majorMap : Nat := 5
def majorTag : Nat := 6
def majorSimple : Nat := 7

def simpleFalse : UInt8 := 0xf4
def simpleTrue : UInt8 := 0xf5
def simpleNull : UInt8 := 0xf6
def headF16 : UInt8 := 0xf9
def headF32 : UInt8 := 0xfa
def headF64 : UInt8 := 0xfb

def headByte (major info : Nat) : UInt8 := UInt8.ofNat (major * 32 + info)

def writeHead (major value : Nat) : Bytes :=
  if value < 24 then [headByte major value]
  else if value ≤ 0xff then headByte major 24 :: beBytes 1 value
  else if value ≤ 0xffff then headByte major 25 :: beBytes 2 value
  else if value ≤ 0xffffffff then headByte major 26 :: beBytes 4 value
  else headByte major 27 :: beBytes 8 value

/-- A negative integer is written as its complement, `-1 - n`. -/
def writeInt (n : Int64) : Bytes :=
  if 0 ≤ n then writeHead majorUnsigned n.toUInt64.toNat
  else writeHead majorNegative (~~~n.toUInt64).toNat

def writeText (text : String) : Bytes :=
  writeHead majorText (utf8 text).length ++ utf8 text

def readU8 : Bytes → Except ValueDecodeError (UInt8 × Bytes)
  | [] => .error .unexpectedEnd
  | byte :: rest => .ok (byte, rest)

def readExact (count : Nat) (input : Bytes) :
    Except ValueDecodeError (Bytes × Bytes) :=
  if input.length < count then .error .unexpectedEnd
  else .ok (input.take count, input.drop count)

def readBeU64 (width : Nat) (input : Bytes) :
    Except ValueDecodeError (Nat × Bytes) := do
  let (bytes, rest) ← readExact width input
  .ok (ofBeBytes bytes, rest)

/-- An argument of `width` bytes, refused when it fits `limit`. -/
def readArgument (width limit : Nat) (input : Bytes) :
    Except ValueDecodeError (Nat × Bytes) := do
  let (value, rest) ← readBeU64 width input
  if value ≤ limit then .error (.nonCanonical "overlong head")
  else .ok (value, rest)

def readHeadValue (info : Nat) (input : Bytes) :
    Except ValueDecodeError (Nat × Bytes) :=
  if info < 24 then .ok (info, input)
  else if info = 24 then readArgument 1 23 input
  else if info = 25 then readArgument 2 0xff input
  else if info = 26 then readArgument 4 0xffff input
  else if info = 27 then readArgument 8 0xffffffff input
  else if info < 31 then .error .malformedHead
  else .error (.unsupported "indefinite length")

def readHead (expectedMajor : Nat) (input : Bytes) :
    Except ValueDecodeError (Nat × Bytes) := do
  let (first, rest) ← readU8 input
  if first.toNat / 32 ≠ expectedMajor then
    .error (.unsupported "unexpected major type")
  else readHeadValue (first.toNat % 32) rest

def checkLen (declared : Nat) (input : Bytes) : Except ValueDecodeError Nat :=
  if input.length < declared then .error (.lengthOverrun declared input.length)
  else .ok declared

def readBody (declared : Nat) (input : Bytes) :
    Except ValueDecodeError (Bytes × Bytes) := do
  let length ← checkLen declared input
  readExact length input

def decodeUtf8 (bytes : Bytes) : Except ValueDecodeError String :=
  match fromUtf8 bytes with
  | some text => .ok text
  | none => .error .invalidUtf8

def readText (input : Bytes) : Except ValueDecodeError (String × Bytes) := do
  let (declared, input) ← readHead majorText input
  let (bytes, rest) ← readBody declared input
  let text ← decodeUtf8 bytes
  .ok (text, rest)

def unsignedToI64 (value : Nat) : Except ValueDecodeError Int64 :=
  if 2 ^ 63 ≤ value then .error .intOutOfRange else .ok (Int64.ofNat value)

/-- The argument `value` stands for `-1 - value`. -/
def negativeToI64 (value : Nat) : Except ValueDecodeError Int64 :=
  if 2 ^ 63 - 1 < value then .error .intOutOfRange
  else .ok (-1 - Int64.ofNat value)

def readI64 (input : Bytes) : Except ValueDecodeError (Int64 × Bytes) := do
  let (first, input) ← readU8 input
  let (value, rest) ← readHeadValue (first.toNat % 32) input
  if first.toNat / 32 = majorUnsigned then do
    let n ← unsignedToI64 value
    .ok (n, rest)
  else if first.toNat / 32 = majorNegative then do
    let n ← negativeToI64 value
    .ok (n, rest)
  else .error (.unsupported "expected integer")

/-- Binary16 to binary64.  The product of a small integer and a power of two is
exact, and negation sets the sign. -/
def f16BitsToF64 (bits : UInt16) : UInt64 :=
  let sign := binary16.signOf bits.toNat
  let exp := binary16.exponentOf bits.toNat
  let frac := binary16.fractionOf bits.toNat
  if exp = 0 then UInt64.ofNat (ofScaled sign frac (-24))
  else if exp = 31 then
    if frac = 0 then UInt64.ofNat (binary64.pack sign 2047 0)
    else canonicalNanBits
  else UInt64.ofNat (ofScaled sign (1024 + frac) (exp - 25))

/-- The binary16 word of a number, where there is one. -/
def f16FromF64Exact (bits : UInt64) : Option UInt16 :=
  let sign := binary64.signOf bits.toNat
  let field := binary64.exponentOf bits.toNat
  let frac := binary64.fractionOf bits.toNat
  if field = 0 ∧ frac = 0 then some (UInt16.ofNat (binary16.pack sign 0 0))
  else if field = 2047 ∧ frac = 0 then
    some (UInt16.ofNat (binary16.pack sign 31 0))
  else
    let exp : Int := field - 1023
    if -14 ≤ exp ∧ exp ≤ 15 then
      if frac % 2 ^ 42 = 0 then
        some (UInt16.ofNat (binary16.pack sign (exp + 15).toNat (frac / 2 ^ 42)))
      else none
    else if -24 ≤ exp ∧ exp ≤ -15 then
      let significand := 2 ^ 52 + frac
      let shift := (28 - exp).toNat
      if significand % 2 ^ shift = 0 then
        some (UInt16.ofNat (binary16.pack sign 0 (significand / 2 ^ shift)))
      else none
    else none

/-- The binary32 word of a number, when converting there and back keeps every
bit. -/
def f32FromF64Exact (bits : UInt64) : Option UInt32 :=
  let narrowed := UInt32.ofNat (toBinary32 bits.toNat)
  if UInt64.ofNat (ofBinary32 narrowed.toNat) = bits then some narrowed
  else none

end Cbor

end Acetone.Model

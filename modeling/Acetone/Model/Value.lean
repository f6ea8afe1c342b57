import Acetone.Lib.ByteString

/-!
# Property values

The value vocabulary of the data model.  Floats are IEEE-754 bit patterns, so
that every statement about them is a statement about 64-bit words.  Strings
are compared and stored through their UTF-8 bytes.
-/

namespace Acetone.Model

open Acetone.Lib

def nanosPerDay : UInt64 := 86400000000000

/-- Largest permitted UTC offset magnitude in minutes. -/
def maxOffsetMinutes : Nat := 18 * 60

structure Date where
  days : Int64
deriving DecidableEq, Repr

/-- Nanoseconds since midnight. -/
structure Time where
  nanos : UInt64
deriving DecidableEq, Repr

/-- An instant together with the civil offset it was written with. -/
structure DateTime where
  epochNanos : Int64
  offsetMinutes : Int16
deriving DecidableEq, Repr

/-- Independent calendar components; nothing is normalised between them. -/
structure Duration where
  months : Int64
  days : Int64
  nanos : Int64
deriving DecidableEq, Repr

inductive Value where
  | null
  | bool (value : Bool)
  | int (value : Int64)
  | float (bits : UInt64)
  | string (value : String)
  | bytes (value : Bytes)
  | date (value : Date)
  | time (value : Time)
  | dateTime (value : DateTime)
  | duration (value : Duration)
  | list (items : List Value)
deriving Inhabited, Repr

namespace Value

mutual

/-- Structural equality; floats are equal when their bit patterns are. -/
def beq : Value → Value → Bool
  | .null, .null => true
  | .bool left, .bool right => left == right
  | .int left, .int right => left == right
  | .float left, .float right => left == right
  | .string left, .string right => left == right
  | .bytes left, .bytes right => left == right
  | .date left, .date right => left == right
  | .time left, .time right => left == right
  | .dateTime left, .dateTime right => left == right
  | .duration left, .duration right => left == right
  | .list left, .list right => beqList left right
  | _, _ => false

def beqList : List Value → List Value → Bool
  | [], [] => true
  | left :: lefts, right :: rights => beq left right && beqList lefts rights
  | _, _ => false

end

mutual

theorem beq_iff_eq (left right : Value) : beq left right = true ↔ left = right := by
  cases left with
  | list items =>
      cases right with
      | list others => simpa [beq] using beqList_iff_eq items others
      | _ => simp [beq]
  | _ => cases right <;> simp [beq]

theorem beqList_iff_eq (left right : List Value) :
    beqList left right = true ↔ left = right := by
  cases left with
  | nil => cases right <;> simp [beqList]
  | cons value values =>
      cases right with
      | nil => simp [beqList]
      | cons other others =>
          simp [beqList, beq_iff_eq value other, beqList_iff_eq values others]

end

instance : DecidableEq Value := fun left right =>
  decidable_of_iff (beq left right = true) (beq_iff_eq left right)

end Value

/-- The bytes of a string, in the order `str::cmp` compares them. -/
def utf8 (text : String) : Bytes := text.toUTF8.data.toList

/-- `String::from_utf8`. -/
def fromUtf8 (bytes : Bytes) : Option String :=
  String.fromUTF8? ⟨bytes.toArray⟩

@[simp] theorem fromUtf8_utf8 (text : String) :
    fromUtf8 (utf8 text) = some text := by
  simp only [fromUtf8, utf8, String.fromUTF8?, Array.toArray_toList,
    String.toUTF8_eq_toByteArray, dif_pos text.isValidUTF8]
  rfl

theorem utf8_of_fromUtf8 {bytes : Bytes} {text : String}
    (decoded : fromUtf8 bytes = some text) : utf8 text = bytes := by
  simp only [fromUtf8, String.fromUTF8?] at decoded
  split at decoded
  · cases decoded
    rfl
  · cases decoded

theorem utf8_injective : Function.Injective utf8 := by
  intro left right same
  have decoded := fromUtf8_utf8 left
  rw [same, fromUtf8_utf8] at decoded
  exact (Option.some.inj decoded).symm

def signBit : UInt64 := 0x8000000000000000

/-- The mask below the sign bit at which a float's exponent is all ones. -/
def infinityBits : UInt64 := 0x7ff0000000000000

/-- `f64::is_nan` on the bit pattern: an all-ones exponent with a non-zero
mantissa. -/
def isNan (bits : UInt64) : Bool :=
  infinityBits < (bits &&& 0x7fffffffffffffff)

/-- `if x == 0.0 { 0.0 } else { x }`: both zeros become the positive one. -/
def normaliseZero (bits : UInt64) : UInt64 :=
  if bits = 0 ∨ bits = signBit then 0 else bits

end Acetone.Model

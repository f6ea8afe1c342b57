import Acetone.Cypher.Value

/-!
# Comparing runtime values

Numbers compare as binary64 numbers as soon as one of them is a float, and a
carrier of a stored value compares as the string it renders to.
-/

namespace Acetone.Cypher

open Acetone.Lib Acetone.Model

/-- Ternary logic result. -/
abbrev Ternary := Option Bool

/-- An integer as a float, rounded to nearest, ties to even.  A carry out of the
rounding moves into the exponent field. -/
def floatOfMagnitude (sign magnitude : Nat) : Nat :=
  if magnitude = 0 then binary64.pack sign 0 0
  else
    let exponent := magnitude.log2
    let significand :=
      if exponent ≤ 52 then magnitude * 2 ^ (52 - exponent)
      else roundShift magnitude (exponent - 52)
    binary64.pack sign (exponent + 1022) 0 + significand

def floatOfInt (number : Int64) : UInt64 :=
  .ofNat (floatOfMagnitude (if number.toInt < 0 then 1 else 0) number.toInt.natAbs)

/-- The place of a float among the numbers: its magnitude counts down below
zero, and both zeros stand in one place. -/
def floatPlace (bits : UInt64) : Int :=
  if bits < signBit then bits.toNat else -(bits.toNat - signBit.toNat : Int)

/-- `==` on floats. -/
def floatEq (left right : UInt64) : Bool :=
  !isNan left && !isNan right && floatPlace left == floatPlace right

/-- `f64::partial_cmp`. -/
def floatCmp (left right : UInt64) : Option Ordering :=
  if isNan left || isNan right then none
  else some (compare (floatPlace left) (floatPlace right))

private def hexDigitOf (digit : Nat) : Char :=
  if digit < 10 then Char.ofNat (48 + digit) else Char.ofNat (87 + digit)

def hex (bytes : Bytes) : String :=
  String.ofList (bytes.flatMap fun byte =>
    [hexDigitOf (byte.toNat / 16), hexDigitOf (byte.toNat % 16)])

/-- The string a carrier presents.  Byte strings and temporal values are the
only ones that travel as carriers. -/
def renderStored : Model.Value → String
  | .bytes value => hex value
  | .date value => "Date(Date \x7b days: " ++ toString value.days.toInt ++ " \x7d)"
  | .time value => "Time(Time \x7b nanos: " ++ toString value.nanos.toNat ++ " \x7d)"
  | .dateTime value =>
      "DateTime(DateTime \x7b epoch_nanos: " ++ toString value.epochNanos.toInt ++
        ", offset_minutes: " ++ toString value.offsetMinutes.toInt ++ " \x7d)"
  | .duration value =>
      "Duration(Duration \x7b months: " ++ toString value.months.toInt ++
        ", days: " ++ toString value.days.toInt ++
        ", nanos: " ++ toString value.nanos.toInt ++ " \x7d)"
  | _ => ""

namespace Value

def typeName : Value → String
  | .null => "Null"
  | .bool _ => "Boolean"
  | .int _ => "Integer"
  | .float _ => "Float"
  | .string _ => "String"
  | .list _ => "List"
  | .map _ => "Map"
  | .node _ _ _ => "Node"
  | .relationship _ _ _ _ _ => "Relationship"
  | .path _ _ => "Path"
  | .stored _ => "String"

def entityId : Value → Option EntityId
  | .node id _ _ => some id
  | .relationship id _ _ _ _ => some id
  | _ => none

end Value

end Acetone.Cypher

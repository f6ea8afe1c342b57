import Mathlib.Algebra.Ring.Nat
import Mathlib.Data.List.Basic

/-!
# JSON documents

Documents as a parser hands them over: an object lists its members, one for
each name.  Numbers are integers or the words of binary floats.  `size` is the
length of a document's compact text.
-/

namespace Acetone.Lib

inductive Json where
  | null
  | bool (value : Bool)
  | int (value : Int)
  | float (bits : UInt64)
  | string (value : String)
  | array (items : List Json)
  | object (members : List (String × Json))
deriving Inhabited, Repr

namespace Json

/-- A member of an object; nothing else has members. -/
def get (document : Json) (name : String) : Option Json :=
  match document with
  | .object members => members.lookup name
  | _ => none

def asStr : Json → Option String
  | .string value => some value
  | _ => none

def asBool : Json → Option Bool
  | .bool value => some value
  | _ => none

def asU64 : Json → Option Nat
  | .int value => if 0 ≤ value then some value.toNat else none
  | _ => none

/-- The bytes of a character inside a string. -/
def charSize (letter : Char) : Nat :=
  if letter = '"' ∨ letter = '\\' then 2
  else if letter.toNat ∈ [8, 9, 10, 12, 13] then 2
  else if letter.toNat < 32 then 6
  else letter.utf8Size

def textSize (text : String) : Nat := 2 + (text.toList.map charSize).sum

variable (digits : UInt64 → Nat)

mutual

/-- The length of the compact text; `digits` is the length of a float's. -/
def size : Json → Nat
  | .null => 4
  | .bool value => if value then 4 else 5
  | .int value => (toString value).length
  | .float bits => digits bits
  | .string value => textSize value
  | .array items => 2 + (items.length - 1) + itemsSize items
  | .object members => 2 + (members.length - 1) + membersSize members

def itemsSize : List Json → Nat
  | [] => 0
  | item :: items => size item + itemsSize items

def membersSize : List (String × Json) → Nat
  | [] => 0
  | (name, value) :: members => textSize name + 1 + size value + membersSize members

end

end Json

end Acetone.Lib

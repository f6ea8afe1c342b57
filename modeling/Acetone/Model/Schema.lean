import Mathlib.Data.String.Basic
import Acetone.Model.Cbor
import Acetone.Model.GraphKeys

/-!
# Schema entries

Declarations of labels, relationship types and indexes, each row of the
`schema` map under the tuple of its kind and name.  A definition in existence
has passed its constructor, so it carries what the constructor checks.
-/

namespace Acetone.Model

open Acetone.Lib

inductive SchemaError where
  | emptyName (context : String)
  | invalidKey (reason : String)
  | invalidConstraint (reason : String)
  | cbor (cause : ValueDecodeError)
  | keyDecode (cause : KeyDecodeError)
  | shape (reason : String)
  | notCanonical (reason : String)
  | unknownKind (kind : String)
  | unknownType (name : String)
deriving DecidableEq, Repr

inductive PropertyType where
  | bool
  | int
  | float
  | string
  | bytes
  | date
  | time
  | dateTime
  | duration
  | list
deriving DecidableEq, Repr

namespace PropertyType

/-- Whether a value satisfies a declared type.  Null satisfies every type, and
`float` admits an integer. -/
def admits : PropertyType → Value → Bool
  | _, .null => true
  | .bool, .bool _ => true
  | .int, .int _ => true
  | .float, .float _ => true
  | .float, .int _ => true
  | .string, .string _ => true
  | .bytes, .bytes _ => true
  | .date, .date _ => true
  | .time, .time _ => true
  | .dateTime, .dateTime _ => true
  | .duration, .duration _ => true
  | .list, .list _ => true
  | _, _ => false

/-- The type of a stored value; null has none. -/
def ofValue : Value → Option PropertyType
  | .null => none
  | .bool _ => some .bool
  | .int _ => some .int
  | .float _ => some .float
  | .string _ => some .string
  | .bytes _ => some .bytes
  | .date _ => some .date
  | .time _ => some .time
  | .dateTime _ => some .dateTime
  | .duration _ => some .duration
  | .list _ => some .list

end PropertyType

/-- Shorter strings first, equal lengths bytewise. -/
def canonicalStrCmp (left right : String) : Ordering :=
  (compare (utf8 left).length (utf8 right).length).then
    (lexCmp (utf8 left) (utf8 right))

def normaliseNames (names : List String) (context : String) :
    Except SchemaError (List String) :=
  if names.any (· = "") then .error (.emptyName context)
  else .ok (names.insertionSort fun left right =>
    canonicalStrCmp left right ≠ .gt).dedup

abbrev Types := SortedMap String PropertyType

def checkTypes (types : Types) : Except SchemaError Unit :=
  if types.entries.any (fun entry => entry.1 = "") then
    .error (.emptyName "typed property name")
  else .ok ()

def surrogateKeyProperty : String := "_id"

/-- A label's key declaration, shape and constraints. -/
structure LabelDef where
  key : List String
  surrogate : Bool
  types : Types
  existence : List String
  unique : List String
  keyed : key ≠ []
  distinct : key.Nodup
  apart : ∀ name ∈ unique, name ∉ key
deriving DecidableEq

namespace LabelDef

def build (key : List String) (surrogate : Bool) (types : Types)
    (existence unique : List String) : Except SchemaError LabelDef :=
  if empty : key = [] then
    .error (.invalidKey "key tuple must be non-empty")
  else if key.any (· = "") then .error (.emptyName "key property")
  else if repeated : ¬ key.Nodup then
    .error (.invalidKey "key properties must be distinct")
  else if surrogate ∧ key ≠ [surrogateKeyProperty] then
    .error (.invalidKey "surrogate labels key on exactly [\"_id\"]")
  else do
    checkTypes types
    let existence ← normaliseNames existence "existence-constraint property"
    let unique ← normaliseNames unique "unique-constraint property"
    if apart : ∀ name ∈ unique, name ∉ key then
      .ok ⟨key, surrogate, types, existence, unique, empty,
        not_not.mp repeated, apart⟩
    else
      .error (.invalidConstraint "UNIQUE applies to non-key properties only")

def new (key : List String) (types : Types) (existence unique : List String) :
    Except SchemaError LabelDef :=
  build key false types existence unique

end LabelDef

structure RelTypeDef where
  discriminator : Option String
  types : Types
  existence : List String
deriving DecidableEq

def RelTypeDef.new (discriminator : Option String) (types : Types)
    (existence : List String) : Except SchemaError RelTypeDef := do
  if discriminator = some "" then
    .error (.emptyName "discriminator property")
  checkTypes types
  let existence ← normaliseNames existence "existence-constraint property"
  .ok ⟨discriminator, types, existence⟩

/-- A declared property index; composite when it has several properties. -/
structure IndexDef where
  label : String
  properties : List String
  named : label ≠ ""
  filled : properties ≠ []
  allNamed : ¬ properties.any (· = "")
deriving DecidableEq

def IndexDef.new (label : String) (properties : List String) :
    Except SchemaError IndexDef :=
  if unnamed : label = "" then .error (.emptyName "index label")
  else if empty : properties = [] then .error (.emptyName "index property")
  else if blank : properties.any (· = "") then
    .error (.emptyName "index property")
  else .ok ⟨label, properties, unnamed, empty, blank⟩

inductive SchemaEntry where
  | label (name : String) (decl : LabelDef)
  | relType (name : String) (decl : RelTypeDef)
  | index (name : String) (decl : IndexDef)
deriving DecidableEq

def kindLabel : String := "label"
def kindRtype : String := "rtype"
def kindIndex : String := "index"

def entryKey (kind name : String) : Bytes :=
  match encodeKey [.string kind, .string name] with
  | .ok bytes => bytes
  | .error _ => []

def SchemaEntry.mapKey : SchemaEntry → Bytes
  | .label name _ => entryKey kindLabel name
  | .relType name _ => entryKey kindRtype name
  | .index name _ => entryKey kindIndex name

theorem encodeKey_entryKey (kind name : String) :
    encodeKey [.string kind, .string name] = .ok (entryKey kind name) := by
  rfl

theorem entryKey_injective {kind other name another : String}
    (same : entryKey kind name = entryKey other another) :
    kind = other ∧ name = another := by
  have left := decodeKey_of_encodeKey (encodeKey_entryKey kind name)
  rw [same, decodeKey_of_encodeKey (encodeKey_entryKey other another)] at left
  simp only [canonicalAll, canonical, Except.ok.injEq, List.cons.injEq,
    Value.string.injEq, and_true] at left
  exact ⟨left.1.symm, left.2.symm⟩

end Acetone.Model

import Mathlib.Data.Finset.Sort
import Acetone.Graph.Manifest
import Acetone.Lib.MapValues

/-!
# Runtime values

The values a query computes with, and how stored nodes and edges appear among
them.  Byte strings and temporal values have no runtime form of their own: they
travel as carriers of the stored value.
-/

namespace Acetone.Cypher

open Acetone.Lib Acetone.Model

def maxValueDepth : Nat := 256

/-- A storage key, or the bytes of an overlay id. -/
abbrev EntityId := Bytes

/-- A runtime value.  The property maps of entities and the entries of a map
are listed in the order of their names. -/
inductive Value where
  | null
  | bool (value : Bool)
  | int (value : Int64)
  | float (bits : UInt64)
  | string (value : String)
  | list (items : List Value)
  | map (entries : List (String × Value))
  | node (id : EntityId) (labels : List String) (properties : List (String × Value))
  | relationship (id : EntityId) (relType : String) (start stop : EntityId)
      (properties : List (String × Value))
  | path (nodes rels : List Value)
  | stored (value : Model.Value)

abbrev PropertyMap := SortedMap String Value

structure NodeValue where
  id : EntityId
  labels : List String
  properties : PropertyMap

structure RelValue where
  id : EntityId
  relType : String
  start : EntityId
  stop : EntityId
  properties : PropertyMap

def NodeValue.toValue (node : NodeValue) : Value :=
  .node node.id node.labels node.properties.entries

def RelValue.toValue (rel : RelValue) : Value :=
  .relationship rel.id rel.relType rel.start rel.stop rel.properties.entries

structure Catalogue where
  labels : SortedMap String LabelDef
  relTypes : SortedMap String RelTypeDef
  indexes : SortedMap String IndexDef

namespace Catalogue

def fromEntries (entries : List SchemaEntry) : Catalogue where
  labels := .ofList (entries.filterMap Graph.labelPair?)
  relTypes := .ofList (entries.filterMap Graph.relTypePair?)
  indexes := .ofList (entries.filterMap Graph.indexPair?)

def label (catalogue : Catalogue) (name : String) : Option LabelDef :=
  catalogue.labels.get name

def relType (catalogue : Catalogue) (name : String) : Option RelTypeDef :=
  catalogue.relTypes.get name

/-- The first declared index over this one property of the label. -/
def indexOn (catalogue : Catalogue) (label property : String) : Option (String × IndexDef) :=
  catalogue.indexes.entries.find? fun row =>
    row.2.label = label ∧ row.2.properties = [property]

def discriminator (catalogue : Catalogue) (rtype : String) : Option String :=
  (catalogue.relType rtype).bind RelTypeDef.discriminator

end Catalogue

namespace Adapter

mutual

/-- A stored value as the runtime sees it.  Nesting beyond the cap is cut off;
no value that decodes reaches it. -/
def convertValueAt (value : Model.Value) (depth : Nat) : Value :=
  if depth ≥ maxValueDepth then .null
  else
    match value with
    | .null => .null
    | .bool flag => .bool flag
    | .int number => .int number
    | .float bits => .float bits
    | .string text => .string text
    | .list items => .list (convertValuesAt items (depth + 1))
    | deferred => .stored deferred

def convertValuesAt (values : List Model.Value) (depth : Nat) : List Value :=
  match values with
  | [] => []
  | value :: values => convertValueAt value depth :: convertValuesAt values depth

end

def convertValue (value : Model.Value) : Value := convertValueAt value 0

def convertMap (properties : Properties) : PropertyMap :=
  properties.mapValues fun value => convertValue value.val

def nodeEntityId (key : NodeKey) : EntityId := key.encode.toOption.getD []

def relEntityId (key : EdgeKey) : EntityId := key.encodeFwd.toOption.getD []

def secondaryList (record : NodeRecord) : List String :=
  (record.secondaryLabels.sort (· ≤ ·)).insertionSort fun left right =>
    canonicalStrCmp left right ≠ .gt

/-- A stored node.  The key values appear under their declared names, unless
the record has a property of that name. -/
def nodeValue (catalogue : Catalogue) (key : NodeKey) (record : NodeRecord) : NodeValue where
  id := nodeEntityId key
  labels := key.label :: secondaryList record
  properties :=
    match catalogue.label key.label with
    | none => convertMap record.properties
    | some decl => (decl.key.zip key.key).foldl (fun properties (name, value) =>
        if (properties.get name).isSome then properties
        else properties.put name (convertValue value)) (convertMap record.properties)

/-- A stored edge.  The discriminator appears under its declared name, before
a property of that name. -/
def relValue (catalogue : Catalogue) (key : EdgeKey) (record : EdgeRecord) : RelValue where
  id := relEntityId key
  relType := key.rtype
  start := nodeEntityId key.src
  stop := nodeEntityId key.dst
  properties :=
    match catalogue.discriminator key.rtype with
    | none => convertMap record.properties
    | some name => (convertMap record.properties).put name (convertValue key.disc)

end Adapter

end Acetone.Cypher

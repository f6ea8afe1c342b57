import Mathlib.Data.Prod.Lex
import Acetone.Lib.Grouping
import Acetone.Model.RecordCodec
import Acetone.Model.SchemaCodec
import Acetone.Graph.Surfaces

/-!
# The reports of the constraint checks

The check of a whole node set and the two checks that stream one label, over
the rows of a snapshot as they are stored: with the values as the records hold
them, the order of the violations, and the members and the value that each
collision shows.
-/

namespace Acetone.Graph.Reports

open Acetone.Lib Acetone.Model

inductive ReportError where
  | key (cause : GraphKeyError)
  | schema (cause : SchemaError)
  | decode (cause : Cbor.RecordDecodeError)
  | encode (cause : Cbor.RecordEncodeError)
deriving DecidableEq

inductive ConstraintViolation where
  | missingRequired (node : NodeKey) (property : String)
  | wrongType (node : NodeKey) (property : String) (declared actual : PropertyType)
  | unique (label property : String) (value : Value) (nodes : List NodeKey)
deriving DecidableEq

/-- Every declared-type breach of a node.  A key property's value comes from
the key tuple by position, anything else from the record. -/
def typeViolations (key : NodeKey) (record : Cbor.NodeRecord) (decl : LabelDef) :
    List TypeViolation :=
  decl.types.entries.filterMap fun (property, declared) =>
    let value := match decl.key.findIdx? (· = property) with
      | some position => key.key[position]?
      | none => record.properties.get property
    value.bind (mistyped property declared)

def nodeViolations (key : NodeKey) (record : Cbor.NodeRecord) (decl : LabelDef) :
    List ConstraintViolation :=
  (decl.existence.filter fun property =>
      ¬ (property ∈ decl.key ∨ (record.properties.get property).isSome)).map
        (.missingRequired key) ++
    (typeViolations key record decl).map fun (property, declared, actual) =>
      .wrongType key property declared actual

def encodedProperty (record : Cbor.NodeRecord) (property : String) :
    Except ReportError (Option (Value × Bytes)) :=
  match record.properties.get property with
  | none => .ok none
  | some value => do
      let bytes ← (Cbor.encodeValue value).mapError fun cause => .encode (.value cause)
      .ok (some (value, bytes))

abbrev NodeSet := SortedMap Bytes (NodeKey × Cbor.NodeRecord)

abbrev NodeRow := Bytes × (NodeKey × Cbor.NodeRecord)

abbrev GroupKey := String ×ₗ (String ×ₗ Bytes)

/-- A member of a group: its encoded key and its key. -/
abbrev Member := Bytes × NodeKey

def groupKey (label property : String) (bytes : Bytes) : GroupKey :=
  toLex (label, toLex (property, bytes))

def claimOf (encoded : Bytes) (key : NodeKey) (record : Cbor.NodeRecord) (property : String) :
    Except ReportError (List (Grouped GroupKey Value Member)) := do
  let held ← encodedProperty record property
  .ok (held.toList.map fun (value, bytes) =>
    ⟨groupKey key.label property bytes, value, (encoded, key)⟩)

def claimsOf (labels : SortedMap String LabelDef) (row : NodeRow) :
    Except ReportError (List (Grouped GroupKey Value Member)) :=
  match labels.get row.2.1.label with
  | none => .ok []
  | some decl => gather (claimOf row.1 row.2.1 row.2.2) decl.unique

def groupViolation (inFocus : Bytes → Bool) (key : GroupKey) (group : Group Value Member) :
    Option ConstraintViolation :=
  if group.2.length < 2 ∨ ¬ group.2.any fun member => inFocus member.1 then none
  else some (.unique (ofLex key).1 (ofLex (ofLex key).2).1 group.1 (group.2.map Prod.snd))

def inFocus (focus : Option (List Bytes)) (encoded : Bytes) : Bool :=
  focus.all fun keys => decide (encoded ∈ keys)

/-- Check a final node state; with a focus, only what involves a focus key. -/
def checkNodes (labels : SortedMap String LabelDef) (nodes : NodeSet)
    (focus : Option (List Bytes)) : Except ReportError (List ConstraintViolation) := do
  let violations := nodes.entries.flatMap fun (encoded, key, record) =>
    if ¬ inFocus focus encoded then []
    else match labels.get key.label with
      | none => []
      | some decl => nodeViolations key record decl
  let claims ← gather (claimsOf labels) nodes.entries
  .ok (violations ++ reportsOf (groupAll claims) (groupViolation (inFocus focus)))

/-- The rows of the schema map and of the node map. -/
structure Snapshot where
  schema : SortedMap Bytes Bytes
  nodes : SortedMap Bytes Bytes

def schemaEntries (snapshot : Snapshot) : Except ReportError (List SchemaEntry) :=
  snapshot.schema.entries.mapM fun (key, value) =>
    (Cbor.decodeEntry key value).mapError .schema

def labelDefs (snapshot : Snapshot) : Except ReportError (SortedMap String LabelDef) := do
  let entries ← schemaEntries snapshot
  .ok (.ofList (entries.filterMap labelPair?))

def decodeKey (bytes : Bytes) : Except ReportError NodeKey :=
  (NodeKey.decode bytes).mapError .key

def decodeRecord (bytes : Bytes) : Except ReportError Cbor.NodeRecord :=
  (Cbor.NodeRecord.decode bytes).mapError .decode

def decodeRow (row : Bytes × Bytes) : Except ReportError NodeRow := do
  let key ← decodeKey row.1
  let record ← decodeRecord row.2
  .ok (row.1, key, record)

def nodeSet (snapshot : Snapshot) : Except ReportError NodeSet := do
  let rows ← snapshot.nodes.entries.mapM decodeRow
  .ok (.ofList rows)

def labelRows (snapshot : Snapshot) (label : String) : List (Bytes × Bytes) :=
  scanPrefix snapshot.nodes (nodeLabelPrefix label)

/-- A property and the encoding of the value it is to have. -/
abbrev WantedKey := String ×ₗ Bytes

/-- A holder of a wanted value: its encoded key, its key and its own value. -/
abbrev Holder := Bytes × (NodeKey × Value)

/-- The UNIQUE values of a record, without holders yet. -/
def wantedGroups (decl : LabelDef) (record : Cbor.NodeRecord) :
    Except ReportError (List (WantedKey × List Holder)) := do
  let keys ← gather (fun property => do
    let held ← encodedProperty record property
    .ok (held.toList.map fun (_, bytes) => (toLex (property, bytes), []))) decl.unique
  .ok (SortedMap.ofList keys).entries

def joinHeld (encoded : Bytes) (group : WantedKey × List Holder) :
    Option (Value × Bytes) → Except ReportError (WantedKey × List Holder)
  | none => .ok group
  | some (value, bytes) =>
      if bytes ≠ (ofLex group.1).2 then .ok group
      else do
        let key ← decodeKey encoded
        .ok (group.1, group.2 ++ [(encoded, key, value)])

def joinGroup (encoded : Bytes) (other : Cbor.NodeRecord) (group : WantedKey × List Holder) :
    Except ReportError (WantedKey × List Holder) := do
  let held ← encodedProperty other (ofLex group.1).1
  joinHeld encoded group held

/-- One row of the scan.  The stored version of the written node is skipped:
the write replaces it. -/
def joinRow (own : Bytes) (wanted : List (WantedKey × List Holder)) (row : Bytes × Bytes) :
    Except ReportError (List (WantedKey × List Holder)) :=
  if row.1 = own then .ok wanted
  else do
    let other ← decodeRecord row.2
    wanted.mapM (joinGroup row.1 other)

def withFocus (own : Bytes) (key : NodeKey) (value : Value) (holders : List Holder) :
    List Holder :=
  holders.takeWhile (fun holder => holder.1 < own) ++
    (own, key, value) :: holders.dropWhile fun holder => holder.1 < own

def holdersViolation (label property : String) (holders : List Holder) :
    Option ConstraintViolation :=
  holders.head?.map fun first =>
    .unique label property first.2.2 (holders.map fun holder => holder.2.1)

def wantedViolation (own : Bytes) (key : NodeKey) (record : Cbor.NodeRecord) (wanted : WantedKey)
    (holders : List Holder) : Option ConstraintViolation :=
  if holders = [] then none
  else (record.properties.get (ofLex wanted).1).bind fun value =>
    holdersViolation key.label (ofLex wanted).1 (withFocus own key value holders)

def checkUpsert (snapshot : Snapshot) (key : NodeKey) (record : Cbor.NodeRecord) :
    Except ReportError (List ConstraintViolation) := do
  let entries ← schemaEntries snapshot
  match (entries.filterMap labelPair?).lookup key.label with
  | none => .ok []
  | some decl =>
      if unconstrained decl then .ok []
      else do
        let own ← key.encode.mapError .key
        let wanted ← wantedGroups decl record
        let wanted ← if wanted.isEmpty then .ok wanted
          else (labelRows snapshot key.label).foldlM (joinRow own) wanted
        .ok (nodeViolations key record decl ++
          wanted.filterMap fun (wantedKey, holders) =>
            wantedViolation own key record wantedKey holders)

def labelClaim (key : NodeKey) (record : Cbor.NodeRecord) (property : String) :
    Except ReportError (List (Grouped WantedKey Value NodeKey)) := do
  let held ← encodedProperty record property
  .ok (held.toList.map fun (value, bytes) => ⟨toLex (property, bytes), value, key⟩)

/-- The breaches of one row of the label, and its entries. -/
def judgeRow (decl : LabelDef) (row : Bytes × Bytes) :
    Except ReportError (List ConstraintViolation × List (Grouped WantedKey Value NodeKey)) := do
  let key ← decodeKey row.1
  let record ← decodeRecord row.2
  let claims ← gather (labelClaim key record) decl.unique
  .ok (nodeViolations key record decl, claims)

def labelViolation (label : String) (key : WantedKey) (group : Group Value NodeKey) :
    Option ConstraintViolation :=
  if group.2.length < 2 then none
  else some (.unique label (ofLex key).1 group.1 group.2)

def checkLabel (snapshot : Snapshot) (label : String) (decl : LabelDef) :
    Except ReportError (List ConstraintViolation) :=
  if unconstrained decl then .ok []
  else do
    let judged ← (labelRows snapshot label).mapM (judgeRow decl)
    .ok (judged.flatMap Prod.fst ++
      reportsOf (groupAll (judged.flatMap Prod.snd)) (labelViolation label))

end Acetone.Graph.Reports

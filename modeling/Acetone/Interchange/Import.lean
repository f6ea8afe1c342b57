import Mathlib.Algebra.Order.Group.Nat
import Acetone.Interchange.Export
import Acetone.Graph.Surfaces
import Acetone.Graph.Transaction

/-!
# Import

From the objects of a source to a changed workspace: each object becomes a row,
each row a record under a mapping, each record a node or an edge under the
schema, and the records are checked and saved in batches.
-/

namespace Acetone.Interchange

open Acetone.Lib Acetone.Model Acetone.Graph

inductive ImportFailure where
  | flags (reason : String)
  | endpointSpec (spec reason : String)
  | lineTooLong
  | notAnObject
  | nested
  | missingEndpointField (field label : String)
  | undeclaredLabel (label : String)
  | missingKeyProperty (label name : String)
  | endpointArity (label : String) (got wanted : Nat)
  | needlessDiscriminator (rtype : String)
  | missingDiscriminator (rtype name : String)
  | shadowedDiscriminator (rtype name : String)
  | deferredDiscriminator (rtype name : String) (type : PropertyType)
  | cannotCoerce (kind : Option PropertyType) (declared : PropertyType)
  | unparsable (text : String) (declared : PropertyType)
  | record (cause : ValueEncodeError)
  | constraints (violations : List ConstraintViolation)
  | tracker (cause : ImportError)
  | graph (cause : GraphError)

/-- How the standard library reads trimmed texts as numbers, and integers as
floats. -/
structure Numerals where
  parseInt : String → Option Int64
  parseFloat : String → Option UInt64
  trim : String → String
  floatOf : Int → UInt64

section

variable (numerals : Numerals)

/-- A scalar; objects and lists are refused. -/
def jsonScalar : Json → Except ImportFailure Value
  | .null => .ok .null
  | .bool value => .ok (.bool value)
  | .int value =>
      if -2 ^ 63 ≤ value ∧ value < 2 ^ 63 then .ok (.int (.ofInt value))
      else .ok (.float (numerals.floatOf value))
  | .float bits => .ok (.float bits)
  | .string value => .ok (.string value)
  | .array _ | .object _ => .error .nested

/-- A scalar or a list of scalars. -/
def jsonToValue : Json → Except ImportFailure Value
  | .array items => do
      let items ← items.mapM (jsonScalar numerals)
      return .list items
  | scalar => jsonScalar numerals scalar

def jsonObjectToRow : Json → Except ImportFailure Row
  | .object members => (SortedMap.ofList members).mapValuesM (jsonToValue numerals)
  | _ => .error .notAnObject

/-- An endpoint by its label and the fields of its key. -/
structure EndpointSpec where
  label : String
  fields : List String

inductive Mapping where
  | node (label : String)
  | edge (rtype : String) (source target : EndpointSpec) (disc : Option String)

structure EndpointRef where
  label : String
  key : List Value

inductive ImportRecord where
  | node (label : String) (properties : Row)
  | edge (rtype : String) (src dst : EndpointRef) (discriminator : Value) (properties : Row)

def takeFields (label : String) (row : Row) : List String → Except ImportFailure (List Value × Row)
  | [] => .ok ([], row)
  | field :: fields =>
      match row.get field with
      | none => .error (.missingEndpointField field label)
      | some value => do
          let (values, row) ← takeFields label (row.delete field) fields
          return (value :: values, row)

def takeEndpoint (row : Row) (spec : EndpointSpec) : Except ImportFailure (EndpointRef × Row) := do
  let (key, row) ← takeFields spec.label row spec.fields
  return (⟨spec.label, key⟩, row)

def mapRow (row : Row) : Mapping → Except ImportFailure ImportRecord
  | .node label => .ok (.node label row)
  | .edge rtype source target disc => do
      let (src, row) ← takeEndpoint row source
      let (dst, row) ← takeEndpoint row target
      match disc with
      | some field => return .edge rtype src dst ((row.get field).getD .null) (row.delete field)
      | none => return .edge rtype src dst .null row

def parseScalar {α : Type} (text : String) (declared : PropertyType) (parsed : Option α)
    (make : α → Value) : Except ImportFailure Value :=
  match parsed with
  | some value => .ok (make value)
  | none => .error (.unparsable text declared)

def parseBool (text : String) : Option Bool :=
  if text = "true" then some true else if text = "false" then some false else none

def coerceTo : PropertyType → Value → Except ImportFailure Value
  | _, .null => .ok .null
  | .string, .string text => .ok (.string text)
  | .int, .int value => .ok (.int value)
  | .int, .string text =>
      parseScalar text .int (numerals.parseInt (numerals.trim text)) .int
  | .float, .float bits => .ok (.float bits)
  | .float, .int value => .ok (.float (numerals.floatOf value.toInt))
  | .float, .string text =>
      parseScalar text .float (numerals.parseFloat (numerals.trim text)) .float
  | .bool, .bool value => .ok (.bool value)
  | .bool, .string text => parseScalar text .bool (parseBool (numerals.trim text)) .bool
  | .bytes, .bytes value => .ok (.bytes value)
  | .date, .date value => .ok (.date value)
  | .time, .time value => .ok (.time value)
  | .dateTime, .dateTime value => .ok (.dateTime value)
  | .duration, .duration value => .ok (.duration value)
  | .list, .list items => .ok (.list items)
  | declared, value => .error (.cannotCoerce (PropertyType.ofValue value) declared)

def coerce (value : Value) : Option PropertyType → Except ImportFailure Value
  | none => .ok value
  | some declared => coerceTo numerals declared value

def coerceProps (properties : Row) (types : Types) : Except ImportFailure Row :=
  properties.mapEntriesM fun name value => coerce numerals value (types.get name)

/-- The values of a record are written, and read back as they are stored. -/
def storeProperties (properties : Row) : Except ImportFailure Properties :=
  properties.mapValuesM fun value => (encodeValue value).mapError .record

def keyValue (label : String) (properties : Row) (name : String) : Except ImportFailure Value :=
  match properties.get name with
  | some value => .ok value
  | none => .error (.missingKeyProperty label name)

/-- The key properties leave the record; an imported node has no secondary
labels. -/
def nodeKeyAndRecord (label : String) (decl : LabelDef) (properties : Row) :
    Except ImportFailure (NodeKey × NodeRecord) := do
  let properties ← coerceProps numerals properties decl.types
  let keyValues ← decl.key.mapM (keyValue label properties)
  let key ← (liftKey (NodeKey.new label keyValues)).mapError .graph
  let rest ← storeProperties (properties.filterKeys fun name => name ∉ decl.key)
  return (key, ⟨∅, rest⟩)

def endpointKey (endpoint : EndpointRef) (labels : SortedMap String LabelDef) :
    Except ImportFailure NodeKey :=
  match labels.get endpoint.label with
  | none => .error (.undeclaredLabel endpoint.label)
  | some decl =>
      if endpoint.key.length ≠ decl.key.length then
        .error (.endpointArity endpoint.label endpoint.key.length decl.key.length)
      else do
        let values ← (decl.key.zip endpoint.key).mapM fun entry =>
          coerce numerals entry.2 (decl.types.get entry.1)
        (liftKey (NodeKey.new endpoint.label values)).mapError .graph

/-- The types that form no relationship identity. -/
def deferredTypes : List PropertyType := [.bytes, .date, .time, .dateTime, .duration]

def edgeDiscriminator (rtype : String) (decl : Option RelTypeDef) (discriminator : Value)
    (properties : Row) : Except ImportFailure Value :=
  match decl.bind RelTypeDef.discriminator with
  | none =>
      if discriminator = .null then .ok .null else .error (.needlessDiscriminator rtype)
  | some name =>
      if discriminator = .null then .error (.missingDiscriminator rtype name)
      else if (properties.get name).isSome then .error (.shadowedDiscriminator rtype name)
      else do
        let value ← coerce numerals discriminator (decl.bind fun decl => decl.types.get name)
        match (PropertyType.ofValue value).filter (· ∈ deferredTypes) with
        | some type => .error (.deferredDiscriminator rtype name type)
        | none => return value

def coerceEdgeProps (properties : Row) : Option RelTypeDef → Except ImportFailure Row
  | some decl => coerceProps numerals properties decl.types
  | none => .ok properties

/-- A record in the form it is staged in. -/
inductive Put where
  | node (key : NodeKey) (record : NodeRecord)
  | edge (key : EdgeKey) (record : EdgeRecord)

def canonical (labels : SortedMap String LabelDef) (rtypes : SortedMap String RelTypeDef) :
    ImportRecord → Except ImportFailure Put
  | .node label properties =>
      match labels.get label with
      | none => .error (.undeclaredLabel label)
      | some decl => do
          let (key, record) ← nodeKeyAndRecord numerals label decl properties
          return .node key record
  | .edge rtype src dst discriminator properties => do
      let src ← endpointKey numerals src labels
      let dst ← endpointKey numerals dst labels
      let disc ← edgeDiscriminator numerals rtype (rtypes.get rtype) discriminator properties
      let properties ← coerceEdgeProps numerals properties (rtypes.get rtype)
      let key ← (liftKey (EdgeKey.new src rtype dst disc)).mapError .graph
      let properties ← storeProperties properties
      return .edge key ⟨properties⟩

def Put.node? : Put → Option (NodeKey × NodeRecord)
  | .node key record => some (key, record)
  | .edge _ _ => none

def Put.edge? : Put → Option (EdgeKey × EdgeRecord)
  | .node _ _ => none
  | .edge key record => some (key, record)

/-- Nodes are staged before edges. -/
def stageBatch (base : Workspace) (batch : List Put) : Except GraphError Transaction := do
  let txn ← (batch.filterMap Put.node?).foldlM (fun txn put => txn.putNode put.1 put.2)
    (Transaction.beginWrite base)
  (batch.filterMap Put.edge?).foldlM (fun txn put => txn.putEdge put.1 put.2) txn

def saveBatch (labels : SortedMap String LabelDef) (state : UniqueTracker × Workspace)
    (batch : List Put) : Except ImportFailure (UniqueTracker × Workspace) := do
  let (violations, tracker) ←
    (state.1.applyBatch labels (batch.filterMap Put.node?)).mapError .tracker
  if violations ≠ [] then throw (.constraints violations)
  let txn ← (stageBatch state.2 batch).mapError .graph
  let workspace ← (txn.saveInPlace false).mapError .graph
  return (tracker, workspace)

def defaultImportBatch : Nat := 8192

/-- Map, canonicalise, check and save the objects of a source, a batch at a
time. -/
def streamBatches (workspace : Workspace) (mapping : Mapping) (objects : List Json)
    (batchSize : Option Nat) : Except ImportFailure Workspace := do
  let entries ← (readSchema workspace.manifest.schema).mapError .graph
  let labels := SortedMap.ofList (entries.filterMap labelPair?)
  let rtypes := SortedMap.ofList (entries.filterMap relTypePair?)
  let tracker ← (UniqueTracker.seed labels workspace.manifest.nodes).mapError .tracker
  let size := max (batchSize.getD defaultImportBatch) 1
  let puts ← objects.mapM fun object => do
    let row ← jsonObjectToRow numerals object
    let record ← mapRow row mapping
    canonical numerals labels rtypes record
  let state ← (puts.toChunks size).foldlM (saveBatch labels) (tracker, workspace)
  return state.2

end

end Acetone.Interchange

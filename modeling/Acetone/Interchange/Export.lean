import Acetone.Graph.Index
import Acetone.Lib.Json
import Acetone.Lib.MapValues

/-!
# Export

A version as one table for each label and one for each relationship type.  A
node's row re-exposes its key under the declared names; an edge's row names its
endpoints and its discriminator in reserved columns.  The JSON formats print a
row as an object of what it has.
-/

namespace Acetone.Interchange

open Acetone.Lib Acetone.Model Acetone.Graph

abbrev Row := SortedMap String Value

structure Table where
  columns : List String
  rows : List Row

inductive ExportError where
  | compositeEndpoint (rtype : String)
  | severalEndpoints (rtype : String) (seen other : String × String)
  | reservedProperty (rtype name : String)
  | graph (cause : GraphError)

def plainProperties (properties : Properties) : Row :=
  properties.mapValues fun stored : StoredValue => stored.val

def keyNames (schema : List SchemaEntry) : LabelKeys := labelKeys schema

/-- A key property is added unless the record has one of that name. -/
def orInsert (row : Row) (entry : String × Value) : Row :=
  match row.get entry.1 with
  | some _ => row
  | none => row.put entry.1 entry.2

def nodeProperties (key : NodeKey) (record : NodeRecord) (keyNames : LabelKeys) : Row :=
  let properties := plainProperties record.properties
  match keyNames.get key.label with
  | some names => (names.zip key.key).foldl orInsert properties
  | none => properties

def otherNames (columns : List String) (rows : List Row) : List String :=
  (KeySet.ofKeys ((rows.flatMap SortedMap.keys).filter fun name => name ∉ columns)).keys

def nodeTable (nodes : List (NodeKey × NodeRecord)) (keyNames : LabelKeys) (label : String) :
    Table :=
  let keyColumns := (keyNames.get label).getD []
  let rows := (nodes.filter fun row => row.1.label = label).map fun row =>
    nodeProperties row.1 row.2 keyNames
  ⟨keyColumns ++ otherNames keyColumns rows, rows⟩

def reservedColumns : List String := ["src", "dst", "disc"]

/-- What the rows of an edge table so far amount to. -/
structure EdgeScan where
  hasDisc : Bool
  endpoints : Option (String × String)
  rows : List Row

def edgeRow (key : EdgeKey) (source target : Value) (properties : Properties) : Row :=
  let ends := (SortedMap.empty.put "src" source).put "dst" target
  let named := if key.disc = .null then ends else ends.put "disc" key.disc
  (plainProperties properties).entries.foldl (fun row entry => row.put entry.1 entry.2) named

def scanEdge (rtype : String) (scan : EdgeScan) (edge : EdgeKey × EdgeRecord) :
    Except ExportError EdgeScan :=
  match edge.1.src.key, edge.1.dst.key with
  | [source], [target] =>
      let pair := (edge.1.src.label, edge.1.dst.label)
      match scan.endpoints.filter (· ≠ pair) with
      | some seen => .error (.severalEndpoints rtype seen pair)
      | none =>
          match edge.2.properties.keys.find? (· ∈ reservedColumns) with
          | some name => .error (.reservedProperty rtype name)
          | none => .ok {
              hasDisc := scan.hasDisc || edge.1.disc ≠ .null
              endpoints := some pair
              rows := scan.rows ++ [edgeRow edge.1 source target edge.2.properties] }
  | _, _ => .error (.compositeEndpoint rtype)

def edgeTable (edges : List (EdgeKey × EdgeRecord)) (rtype : String) :
    Except ExportError Table := do
  let scan ← (edges.filter fun edge => edge.1.rtype = rtype).foldlM (scanEdge rtype)
    ⟨false, none, []⟩
  let reserved := if scan.hasDisc then ["src", "dst", "disc"] else ["src", "dst"]
  return ⟨reserved ++ otherNames reservedColumns scan.rows, scan.rows⟩

def tableNames (schema : List SchemaEntry) (nodes : List (NodeKey × NodeRecord))
    (edges : List (EdgeKey × EdgeRecord)) : List String × List String :=
  ((KeySet.ofKeys ((schema.filterMap labelPair?).map Prod.fst ++
      nodes.map fun node => node.1.label)).keys,
    (KeySet.ofKeys ((schema.filterMap relTypePair?).map Prod.fst ++
      edges.map fun edge => edge.1.rtype)).keys)

def hexDigit (digit : Nat) : Char := "0123456789abcdef".toList.getD digit '0'

def hex (bytes : Bytes) : String :=
  .ofList (bytes.flatMap fun byte => [hexDigit (byte.toNat / 16), hexDigit (byte.toNat % 16)])

/-- Whether a float is neither infinite nor a NaN. -/
def isFinite (bits : UInt64) : Bool := bits &&& ~~~ signBit < infinityBits

/-- The `{:?}` text of a temporal value. -/
def debugText : Value → String
  | .date date => "Date(Date \x7b days: " ++ toString date.days.toInt ++ " \x7d)"
  | .time time => "Time(Time \x7b nanos: " ++ toString time.nanos.toNat ++ " \x7d)"
  | .dateTime stamp => "DateTime(DateTime \x7b epoch_nanos: " ++
      toString stamp.epochNanos.toInt ++ ", offset_minutes: " ++
      toString stamp.offsetMinutes.toInt ++ " \x7d)"
  | .duration duration => "Duration(Duration \x7b months: " ++
      toString duration.months.toInt ++ ", days: " ++ toString duration.days.toInt ++
      ", nanos: " ++ toString duration.nanos.toInt ++ " \x7d)"
  | _ => ""

mutual

/-- Byte strings and temporal values are printed as strings, NaN as null. -/
def jsonOf : Value → Json
  | .null => .null
  | .bool value => .bool value
  | .int value => .int value.toInt
  | .float bits => if isFinite bits then .float bits else .null
  | .string value => .string value
  | .bytes value => .string (hex value)
  | .list items => .array (jsonOfAll items)
  | other => .string (debugText other)

def jsonOfAll : List Value → List Json
  | [] => []
  | item :: items => jsonOf item :: jsonOfAll items

end

def rowObject (columns : List String) (row : Row) : Json :=
  .object (SortedMap.ofList (columns.filterMap fun column =>
    (row.get column).map fun value => (column, jsonOf value))).entries

/-- The objects of a table: a JSON array of them, or one on each line. -/
def toJson (table : Table) : List Json := table.rows.map (rowObject table.columns)

end Acetone.Interchange

import Acetone.Graph.Manifest

/-!
# Declared property indexes

The index maps are derived from `nodes`.  Building one from scratch and
maintaining one over the nodes a transaction touched both go through
`indexEntryKey`.
-/

namespace Acetone.Graph

open Acetone.Lib Acetone.Model

abbrev LabelKeys := SortedMap String (List String)

/-- The declared indexes of a schema. -/
def indexDefs (entries : List SchemaEntry) : List (String × IndexDef) :=
  entries.filterMap indexPair?

def labelKeys (entries : List SchemaEntry) : LabelKeys :=
  .ofList ((entries.filterMap labelPair?).map fun (name, decl) => (name, decl.key))

/-- The value of an indexed property: a key property's by position from the
key tuple, any other from the record. -/
def indexedValue (node : NodeKey) (record : NodeRecord) (keys : LabelKeys)
    (property : String) : Option Value :=
  match (keys.get node.label).bind
      fun declared => declared.findIdx? (· = property) with
  | some position => node.key[position]?
  | none => (record.properties.get property).map Subtype.val

def indexedValues (node : NodeKey) (record : NodeRecord) (keys : LabelKeys) :
    List String → Option (List Value)
  | [] => some []
  | property :: properties => do
      let value ← indexedValue node record keys property
      if value = .null then none
      else do
        let values ← indexedValues node record keys properties
        some (value :: values)

def bears (node : NodeKey) (record : NodeRecord) (label : String) : Bool :=
  node.label = label ∨ label ∈ record.secondaryLabels

/-- The map key a node contributes to an index, if any. -/
def indexEntryKey (node : NodeKey) (record : Option NodeRecord) (decl : IndexDef)
    (keys : LabelKeys) : Option Bytes := do
  let record ← record
  if ¬ bears node record decl.label then none
  else do
    let values ← indexedValues node record keys decl.properties
    match IndexEntry.new decl.label decl.properties values node with
    | .error _ => none
    | .ok entry =>
        match entry.encode with
        | .ok bytes => some bytes
        | .error _ => none

def buildFull (nodes : NodeMap) (decl : IndexDef) (keys : LabelKeys) :
    Except GraphError (KeySet Bytes) := do
  let found ← gather (fun (key, record) => do
    let node ← liftKey (NodeKey.decode key)
    .ok (indexEntryKey node (some record) decl keys).toList) nodes.entries
  .ok (.ofKeys found)

def rebuildAll (nodes : NodeMap) (entries : List SchemaEntry) :
    Except GraphError Indexes := do
  let built ← (indexDefs entries).mapM fun (name, decl) => do
    let map ← buildFull nodes decl (labelKeys entries)
    .ok (name, map)
  .ok (.ofList built)

structure TouchedState where
  node : NodeKey
  before : Option NodeRecord
  after : Option NodeRecord

def touchedStates (baseNodes newNodes : NodeMap) (touched : List Bytes) :
    Except GraphError (List TouchedState) :=
  (sortDedupe id touched).mapM fun key => do
    let node ← liftKey (NodeKey.decode key)
    .ok ⟨node, baseNodes.get key, newNodes.get key⟩

def maintainOps (decl : IndexDef) (keys : LabelKeys) (state : TouchedState) :
    List (MapOp Bytes Unit) :=
  let oldEntry := indexEntryKey state.node state.before decl keys
  let newEntry := indexEntryKey state.node state.after decl keys
  if oldEntry = newEntry then []
  else oldEntry.toList.map .delete ++ newEntry.toList.map (.put · ())

/-- The index maps after a transaction: one that had a map before is updated
over the touched nodes, the others are built. -/
def maintain (baseNodes newNodes : NodeMap) (touched : List Bytes)
    (baseIndexes : Indexes) (defs : List (String × IndexDef)) (keys : LabelKeys) :
    Except GraphError Indexes := do
  let states ← touchedStates baseNodes newNodes touched
  let maintained ← defs.mapM fun (name, decl) =>
    match baseIndexes.get name with
    | some base =>
        .ok (name, base.applyAll (states.flatMap (maintainOps decl keys)))
    | none => do
        let map ← buildFull newNodes decl keys
        .ok (name, map)
  .ok (.ofList maintained)

end Acetone.Graph

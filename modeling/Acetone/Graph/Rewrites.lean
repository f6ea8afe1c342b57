import Acetone.Graph.Commits
import Acetone.Graph.EdgeMaps

/-!
# Rewrites of the workspace

Rekeying a node and renaming a relationship type stage deletes and puts for
every edge they move.  Resolving a merge takes each disputed cell from one
side, a whole record or single properties of it.
-/

namespace Acetone.Graph

open Acetone.Lib Acetone.Model

/-- Stage a sequence of writes, or fail at the first one refused. -/
def Transaction.writeAll (txn : Transaction) : List Write → Except GraphError Transaction
  | [] => .ok txn
  | write :: writes => do
      let next ← txn.write write
      next.writeAll writes

def allEdges (edges : EdgeMap) : Except GraphError (List (EdgeKey × EdgeRecord)) :=
  edges.entries.mapM fun (key, record) => do
    let edge ← liftKey (EdgeKey.decodeFwd key)
    .ok (edge, record)

instance sameDecidable (left right : NodeKey) : Decidable (left.Same right) :=
  inferInstanceAs (Decidable (_ ∧ _))

/-- The writes that move one edge from the old key to the new one, if it has
the old node as an endpoint. -/
def rekeyEdge (old new : NodeKey) (edge : EdgeKey) (record : EdgeRecord) :
    Except GraphError (List Write) :=
  if ¬ edge.src.Same old ∧ ¬ edge.dst.Same old then .ok []
  else do
    let src := if edge.src.Same old then new else edge.src
    let dst := if edge.dst.Same old then new else edge.dst
    let rekeyed ← liftKey (EdgeKey.new src edge.rtype dst edge.disc)
    .ok [.deleteEdge edge, .putEdge rekeyed record]

def rekeyWrites (manifest : Manifest) (old new : NodeKey) :
    Except RepositoryError (List Write) :=
  if old.Same new then .error (.rekeyConflict new)
  else do
    let oldKey ← liftGraph (liftKey old.encode)
    match manifest.nodes.get oldKey with
    | none => .error (.noSuchNode old)
    | some record => do
        let newKey ← liftGraph (liftKey new.encode)
        if manifest.nodes.get newKey ≠ none then .error (.rekeyConflict new)
        else do
          let edges ← liftGraph (allEdges manifest.edgesFwd)
          let moved ← liftGraph (gather (fun (edge, record) => rekeyEdge old new edge record)
            edges)
          .ok (moved ++ [.deleteNode old, .putNode new record])

inductive RenamePolicy where
  | refuse
  | merge
deriving DecidableEq

def renameCollisionSample : Nat := 8

mutual

/-- Whether a value holds a NaN, which no value equals. -/
def hasNan : Value → Bool
  | .float bits => isNan bits
  | .list items => anyNan items
  | _ => false

def anyNan : List Value → Bool
  | [] => false
  | value :: values => hasNan value || anyNan values

end

/-- Equality of values as the code compares them: both zeros are equal, no NaN
is equal to anything. -/
def sameValue (left right : Value) : Bool :=
  canonical left = canonical right ∧ ¬ hasNan left

/-- The union of two records; a property they disagree on is refused. -/
def mergeEdgeRecords (edge : EdgeKey) (old existing : EdgeRecord) :
    Except RepositoryError EdgeRecord := do
  let properties ← old.properties.entries.foldlM (fun merged (property, value) =>
    match merged.get property with
    | some current =>
        if sameValue current.1 value.1 then .ok (merged.put property value)
        else .error (.relTypeRenameConflict (.properties edge property))
    | none => .ok (merged.put property value)) existing.properties
  .ok ⟨properties⟩

def renamedKey (new : String) (edge : EdgeKey) : Except GraphError EdgeKey :=
  liftKey (EdgeKey.new edge.src new edge.dst edge.disc)

/-- Both types declared: they must agree on the discriminator and on every
type they share. -/
def uniteDefs (old new : RelTypeDef) : Except RepositoryError RelTypeDef :=
  if old.discriminator ≠ new.discriminator then
    .error (.relTypeRenameConflict (.discriminators old.discriminator new.discriminator))
  else do
    let types ← old.types.entries.foldlM (fun types (property, declared) =>
      match types.get property with
      | some existing =>
          if existing = declared then .ok (types.put property declared)
          else .error (.relTypeRenameConflict (.types property))
      | none => .ok (types.put property declared)) new.types
    match RelTypeDef.new old.discriminator types (new.existence ++ old.existence) with
    | .ok decl => .ok decl
    | .error cause => .error (.relTypeRenameConflict (.invalid cause))

/-- One type declared: its discriminator must not be laid on edges that were
keyed without one. -/
def carryDef (decl : RelTypeDef) (declared undeclared : String) (hasEdges : Bool) :
    Except RepositoryError RelTypeDef :=
  match decl.discriminator with
  | some discriminator =>
      if hasEdges then
        .error (.relTypeRenameConflict (.undeclaredEdges declared undeclared discriminator))
      else .ok decl
  | none => .ok decl

/-- The entry to write under the new name, if either type is declared. -/
def reconcileRelTypeEntries (entries : List SchemaEntry) (old new : String)
    (oldHasEdges newHasEdges : Bool) : Except RepositoryError (Option SchemaEntry) := do
  let find := fun want =>
    ((entries.filterMap relTypePair?).find? fun pair => pair.1 = want).map Prod.snd
  match find old, find new with
  | none, none => .ok none
  | some decl, none => do
      let decl ← carryDef decl old new newHasEdges
      .ok (some (.relType new decl))
  | none, some decl => do
      let decl ← carryDef decl new old oldHasEdges
      .ok (some (.relType new decl))
  | some oldDecl, some newDecl => do
      let decl ← uniteDefs oldDecl newDecl
      .ok (some (.relType new decl))

def renameEdge (new : String) (existing : EdgeMap) (edge : EdgeKey) (record : EdgeRecord) :
    Except RepositoryError (List Write) := do
  let renamed ← liftGraph (renamedKey new edge)
  let key ← liftGraph (liftKey renamed.encodeFwd)
  match existing.get key with
  | some other => do
      let united ← mergeEdgeRecords edge record other
      .ok [.deleteEdge edge, .putEdge renamed united]
  | none => .ok [.deleteEdge edge, .putEdge renamed record]

def renameWrites (manifest : Manifest) (old new : String) (policy : RenamePolicy) :
    Except RepositoryError (List Write) :=
  if old = new then .error (.relTypeRenameConflict (.sameType old))
  else do
    let edges ← liftGraph (allEdges manifest.edgesFwd)
    let existing ← liftGraph ((edges.filter fun (edge, _) => edge.rtype = new).mapM
      fun (edge, record) => do
        let key ← liftKey edge.encodeFwd
        .ok (key, record))
    let existing : EdgeMap := .ofList existing
    let toRename := edges.filter fun (edge, _) => edge.rtype = old
    let entries ← liftGraph (readSchema manifest.schema)
    if toRename = [] ∧ (entries.filterMap relTypePair?).all (fun pair => pair.1 ≠ old) then
      .error (.noSuchRelType old)
    else do
      let collisions ← liftGraph (gather (fun (edge, _) => do
        let renamed ← renamedKey new edge
        let key ← liftKey renamed.encodeFwd
        .ok (if existing.get key ≠ none then [edge] else [])) toRename)
      if collisions ≠ [] ∧ policy ≠ .merge then
        .error (.relTypeRenameConflict (.collapse collisions.length
          (collisions.take renameCollisionSample)))
      else do
        let entry ← reconcileRelTypeEntries entries old new (toRename ≠ [])
          (¬ existing.entries.isEmpty)
        let moved ← gather (fun (edge, record) => renameEdge new existing edge record) toRename
        .ok (moved ++ .deleteSchemaEntry old ::
          entry.toList.map .putSchema)

/-- The records under dispute. -/
def conflictKeys (cells : List ConflictCell) : List (ConflictMap × Bytes) :=
  (cells.map fun cell => (cell.map, cell.key)).dedup

def disputedProperties (cells : List ConflictCell) (map : ConflictMap) (key : Bytes) :
    List (Option String) :=
  (cells.filter fun cell => cell.map = map ∧ cell.key = key).map ConflictCell.property

/-- Take over what a side holds. -/
def takeOp {V : Type} (key : Bytes) : Option V → MapOp Bytes V
  | some value => .put key value
  | none => .delete key

def resolveWholeRecord (source : Manifest) (txn : Transaction) (map : ConflictMap)
    (key : Bytes) : Except GraphError Transaction :=
  match map with
  | .schema => .ok { txn with schema := txn.schema ++ [takeOp key (source.schema.get key)] }
  | .nodes => .ok { txn with nodes := txn.nodes ++ [takeOp key (source.nodes.get key)] }
  | .edges => do
      let backward ← reverseKey key
      .ok { txn with
        edgesFwd := txn.edgesFwd ++ [takeOp key (source.edgesFwd.get key)]
        edgesRev := txn.edgesRev ++
          [takeOp backward ((source.edgesFwd.get key).map fun _ => ())] }

def overwrite (merged : Properties) (side : Option Properties) (names : List String) :
    Properties :=
  names.foldl (fun properties name =>
    match side.bind fun held => held.get name with
    | some value => properties.put name value
    | none => properties.delete name) merged

/-- Only the forward map is written: the edge's key stays. -/
def resolveProperties (source : Manifest) (txn : Transaction) (map : ConflictMap)
    (key : Bytes) (names : List String) : Except GraphError Transaction :=
  match map with
  | .schema => .error (.mergeState "schema conflicts have no per-property form")
  | .nodes =>
      let merged := (txn.base.manifest.nodes.get key).getD ⟨∅, .empty⟩
      let properties := overwrite merged.properties
        ((source.nodes.get key).map NodeRecord.properties) names
      .ok { txn with nodes := txn.nodes ++ [.put key ⟨merged.secondaryLabels, properties⟩] }
  | .edges =>
      let merged := (txn.base.manifest.edgesFwd.get key).getD ⟨.empty⟩
      let properties := overwrite merged.properties
        ((source.edgesFwd.get key).map EdgeRecord.properties) names
      .ok { txn with edgesFwd := txn.edgesFwd ++ [.put key ⟨properties⟩] }

def resolveRecord (source : Manifest) (cells : List ConflictCell) (txn : Transaction)
    (record : ConflictMap × Bytes) : Except GraphError Transaction :=
  let properties := disputedProperties cells record.1 record.2
  if none ∈ properties then resolveWholeRecord source txn record.1 record.2
  else resolveProperties source txn record.1 record.2 (properties.filterMap id)

/-- Stage the resolution of every cell from one side, and drop the conflicts.
Violations cannot be resolved by picking a side. -/
def resolveConflictsFrom (source : Manifest) (txn : Transaction) :
    Except GraphError (Nat × Transaction) :=
  match txn.base.conflicts with
  | none => .error (.mergeState "no conflicts to resolve")
  | some conflicts =>
      if conflicts.graphMarkers ≠ [] then
        .error (.mergeState ("graph-level violations must be resolved by editing the " ++
          "graph, not by picking a side"))
      else do
        let resolved ← (conflictKeys conflicts.cells).foldlM
          (resolveRecord source conflicts.cells) txn
        .ok (conflicts.cells.length,
          { resolved with base := { resolved.base with conflicts := none } })

end Acetone.Graph

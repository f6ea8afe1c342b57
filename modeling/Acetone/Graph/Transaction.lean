import Acetone.Graph.Merge
import Acetone.Graph.Scans
import Acetone.Model.SchemaCodec

/-!
# Write transactions

A transaction stages updates of the four maps against the workspace it began
from.  A save applies them in order, checks what they touched against the
resulting maps and the resulting schema, and maintains the indexes; it is
refused as a whole or becomes the new workspace.
-/

namespace Acetone.Graph

open Acetone.Lib Acetone.Model

/-- A key disputed by a merge, or one property of its record. -/
structure ConflictCell where
  map : ConflictMap
  key : Bytes
  property : Option String
deriving DecidableEq

/-- The `conflicts` map of a merge in progress.  Graph violations are kept as
markers only. -/
structure Conflicts where
  cells : List ConflictCell
  graphMarkers : List GraphViolation
deriving DecidableEq

structure Workspace where
  manifest : Manifest
  conflicts : Option Conflicts
deriving DecidableEq

/-- The state that `init` writes. -/
def blank : Workspace := ⟨⟨.empty, .empty, .empty, .empty, .empty⟩, none⟩

/-- Drop every cell whose record was written; nothing is left of a map without
entries. -/
def clearWritten (conflicts : Conflicts) (written : List (ConflictMap × Bytes)) :
    Option Conflicts :=
  let cells := conflicts.cells.filter fun cell => (cell.map, cell.key) ∉ written
  if cells = [] ∧ conflicts.graphMarkers = [] then none
  else some ⟨cells, conflicts.graphMarkers⟩

structure Transaction where
  base : Workspace
  schema : List (MapOp Bytes SchemaEntry)
  nodes : List (MapOp Bytes NodeRecord)
  edgesFwd : List (MapOp Bytes EdgeRecord)
  edgesRev : List (MapOp Bytes Unit)
deriving DecidableEq

namespace Transaction

def beginWrite (base : Workspace) : Transaction := ⟨base, [], [], [], []⟩

def putNode (txn : Transaction) (key : NodeKey) (record : NodeRecord) :
    Except GraphError Transaction := do
  let bytes ← liftKey key.encode
  .ok { txn with nodes := txn.nodes ++ [.put bytes record] }

def deleteNode (txn : Transaction) (key : NodeKey) : Except GraphError Transaction := do
  let bytes ← liftKey key.encode
  .ok { txn with nodes := txn.nodes ++ [.delete bytes] }

def putEdge (txn : Transaction) (key : EdgeKey) (record : EdgeRecord) :
    Except GraphError Transaction := do
  let forward ← liftKey key.encodeFwd
  let backward ← liftKey key.encodeRev
  .ok { txn with
    edgesFwd := txn.edgesFwd ++ [.put forward record]
    edgesRev := txn.edgesRev ++ [.put backward ()] }

def deleteEdge (txn : Transaction) (key : EdgeKey) : Except GraphError Transaction := do
  let forward ← liftKey key.encodeFwd
  let backward ← liftKey key.encodeRev
  .ok { txn with
    edgesFwd := txn.edgesFwd ++ [.delete forward]
    edgesRev := txn.edgesRev ++ [.delete backward] }

def putSchema (txn : Transaction) (entry : SchemaEntry) : Transaction :=
  { txn with schema := txn.schema ++ [.put entry.mapKey entry] }

def deleteSchemaEntry (txn : Transaction) (mapKey : Bytes) : Transaction :=
  { txn with schema := txn.schema ++ [.delete mapKey] }

def isDirty (txn : Transaction) : Bool :=
  ¬ (txn.schema.isEmpty ∧ txn.nodes.isEmpty ∧ txn.edgesFwd.isEmpty ∧
    txn.edgesRev.isEmpty)

end Transaction

/-- What is staged.  A rename alone deletes a schema entry, that of the old type. -/
inductive Write where
  | putNode (key : NodeKey) (record : NodeRecord)
  | deleteNode (key : NodeKey)
  | putEdge (key : EdgeKey) (record : EdgeRecord)
  | deleteEdge (key : EdgeKey)
  | putSchema (entry : SchemaEntry)
  | deleteSchemaEntry (rtype : String)
deriving DecidableEq

def Transaction.write (txn : Transaction) : Write → Except GraphError Transaction
  | .putNode key record => txn.putNode key record
  | .deleteNode key => txn.deleteNode key
  | .putEdge key record => txn.putEdge key record
  | .deleteEdge key => txn.deleteEdge key
  | .putSchema entry => .ok (txn.putSchema entry)
  | .deleteSchemaEntry rtype => .ok (txn.deleteSchemaEntry (entryKey kindRtype rtype))

/-- Stage a sequence of writes; one that is refused stages nothing. -/
def Transaction.stage (txn : Transaction) (writes : List Write) : Transaction :=
  writes.foldl (fun txn write => (txn.write write).toOption.getD txn) txn

/-- Decode every row of a schema map; a row without a name does not decode. -/
def readSchema (schema : SchemaMap) : Except GraphError (List SchemaEntry) := do
  checkEach (fun entry =>
    if entry.name = "" then .error (.schema (.emptyName "schema entry name"))
    else .ok ()) (schemaEntries schema)
  .ok (schemaEntries schema)

section

variable {K R D : Type}

/-- How the records of a map are judged against the declarations that govern
them. -/
structure TypeRules (K R D : Type) where
  decode : Bytes → Except GraphError K
  pair? : SchemaEntry → Option (String × D)
  types : D → Types
  governs : K → String
  violations : K → R → D → List TypeViolation
  refusal : K → TypeViolation → GraphError

def refuseFirst (rules : TypeRules K R D) (key : K) :
    Option TypeViolation → Except GraphError Unit
  | none => .ok ()
  | some violation => .error (rules.refusal key violation)

def typedDefs (rules : TypeRules K R D) (entries : List SchemaEntry) :
    SortedMap String D :=
  .ofList ((entries.filterMap rules.pair?).filter
    fun (_, decl) => ¬ (rules.types decl).entries.isEmpty)

def checkStagedOp (rules : TypeRules K R D) (typed : SortedMap String D) :
    MapOp Bytes R → Except GraphError Unit
  | .delete _ => .ok ()
  | .put bytes record => do
      let key ← rules.decode bytes
      match typed.get (rules.governs key) with
      | none => .ok ()
      | some decl => refuseFirst rules key (rules.violations key record decl).head?

/-- Only staged puts are examined, and only if something declares a type. -/
def checkStagedTypes (rules : TypeRules K R D) (schema : SchemaMap)
    (staged : List (MapOp Bytes R)) : Except GraphError Unit :=
  if staged.all fun op => op.outcome.isNone then .ok ()
  else do
    let entries ← readSchema schema
    let typed := typedDefs rules entries
    if typed.entries.isEmpty then .ok ()
    else checkEach (checkStagedOp rules typed) staged

def changedTypes (previous : Option Types) (types : Types) : List String :=
  (types.entries.filter fun (property, declared) =>
    previous.bind (·.get property) ≠ some declared).map Prod.fst

def retyped (rules : TypeRules K R D) (oldEntries newEntries : List SchemaEntry) :
    List (String × D × List String) :=
  let previous := SortedMap.ofList (oldEntries.filterMap rules.pair?)
  (newEntries.filterMap rules.pair?).filterMap fun (name, decl) =>
    let changed := changedTypes ((previous.get name).map rules.types) (rules.types decl)
    if changed.isEmpty then none else some (name, decl, changed)

def judgeChanged (rules : TypeRules K R D) (key : K) (record : R) (decl : D)
    (changed : List String) : Except GraphError Unit :=
  refuseFirst rules key
    ((rules.violations key record decl).find? fun violation => violation.1 ∈ changed)

end

def nodeTypeRules : TypeRules NodeKey NodeRecord LabelDef where
  decode bytes := liftKey (NodeKey.decode bytes)
  pair? := labelPair?
  types := LabelDef.types
  governs := NodeKey.label
  violations := typeViolations
  refusal node violation :=
    .propertyTypeViolation node violation.1 violation.2.1 violation.2.2

def edgeTypeRules : TypeRules EdgeKey EdgeRecord RelTypeDef where
  decode bytes := liftKey (EdgeKey.decodeFwd bytes)
  pair? := relTypePair?
  types := RelTypeDef.types
  governs := EdgeKey.rtype
  violations := relTypeViolations
  refusal edge violation :=
    .edgePropertyTypeViolation edge violation.1 violation.2.1 violation.2.2

def checkStagedNodeTypes (schema : SchemaMap) (staged : List (MapOp Bytes NodeRecord)) :
    Except GraphError Unit :=
  checkStagedTypes nodeTypeRules schema staged

def checkStagedEdgeTypes (schema : SchemaMap) (staged : List (MapOp Bytes EdgeRecord)) :
    Except GraphError Unit :=
  checkStagedTypes edgeTypeRules schema staged

/-- A label's key tuple must not change while the base has nodes of the
label. -/
def checkLabelKeyStability (baseNodes : NodeMap) (oldKeys newKeys : LabelKeys) :
    Except GraphError Unit :=
  checkEach (fun (label, newKey) =>
    match oldKeys.get label with
    | none => .ok ()
    | some oldKey =>
        if oldKey ≠ newKey ∧
            (firstWithPrefix baseNodes (nodeLabelPrefix label)).isSome then
          .error (.labelKeyChanged label)
        else .ok ()) newKeys.entries

/-- A type's discriminator must not change while an edge of the type is kept
from the base. -/
def checkRelDiscStability (baseEdges newEdges : EdgeMap)
    (oldEntries newEntries : List SchemaEntry) : Except GraphError Unit :=
  let discs := fun entries => SortedMap.ofList
    ((entries.filterMap relTypePair?).map fun (name, decl) => (name, decl.discriminator))
  let effective := fun (map : SortedMap String (Option String)) name =>
    (map.get name).join
  let changed := ((discs oldEntries).keys ++ (discs newEntries).keys).filter
    fun name => effective (discs oldEntries) name ≠ effective (discs newEntries) name
  if changed.isEmpty then .ok ()
  else checkEach (fun (bytes, _) => do
    let edge ← liftKey (EdgeKey.decodeFwd bytes)
    if edge.rtype ∈ changed ∧ baseEdges.get bytes ≠ none then
      .error (.relDiscriminatorChanged edge.rtype)
    else .ok ()) newEdges.entries

def checkRetypedLabels (baseNodes : NodeMap) (oldEntries newEntries : List SchemaEntry)
    (touched : List Bytes) : Except GraphError Unit :=
  checkEach (fun (name, decl, changed) =>
    checkEach (fun (bytes, record) =>
      if bytes ∈ touched then .ok ()
      else do
        let node ← nodeTypeRules.decode bytes
        judgeChanged nodeTypeRules node record decl changed)
      (scanPrefix baseNodes (nodeLabelPrefix name)))
    (retyped nodeTypeRules oldEntries newEntries)

/-- Every retyped relationship type is judged in one pass over the base. -/
def checkRetypedRelTypes (baseEdges : EdgeMap) (oldEntries newEntries : List SchemaEntry)
    (touched : List Bytes) : Except GraphError Unit :=
  let found := SortedMap.ofList (retyped edgeTypeRules oldEntries newEntries)
  if found.entries.isEmpty then .ok ()
  else checkEach (fun (bytes, record) =>
    if bytes ∈ touched then .ok ()
    else do
      let edge ← edgeTypeRules.decode bytes
      match found.get edge.rtype with
      | none => .ok ()
      | some (decl, changed) =>
          judgeChanged edgeTypeRules edge record decl changed)
    baseEdges.entries

def checkEndpoints (nodes : NodeMap) (raw : Bytes) : Except GraphError Unit := do
  let edge ← liftKey (EdgeKey.decodeFwd raw)
  checkEach (fun (role, endpoint) => do
    let key ← liftKey (NodeKey.encode endpoint)
    if nodes.get key = none then .error (.danglingEdge edge.rtype role endpoint)
    else .ok ()) [("source", edge.src), ("target", edge.dst)]

def checkUnreferenced (nodes : NodeMap) (edgesFwd : EdgeMap) (edgesRev : KeySet Bytes)
    (key : Bytes) : Except GraphError Unit :=
  if nodes.get key ≠ none then .ok ()
  else do
    let node ← liftKey (NodeKey.decode key)
    match firstWithPrefix edgesFwd key with
    | some hit => do
        let edge ← liftKey (EdgeKey.decodeFwd hit)
        .error (.danglingEdge edge.rtype "source" node)
    | none =>
        match firstWithPrefix edgesRev key with
        | some hit => do
            let edge ← liftKey (EdgeKey.decodeRev hit)
            .error (.danglingEdge edge.rtype "target" node)
        | none => .ok ()

def checkReferentialIntegrity (nodes : NodeMap) (edgesFwd : EdgeMap)
    (edgesRev : KeySet Bytes) (putEdgeKeys deletedNodeKeys : List Bytes) :
    Except GraphError Unit := do
  checkEach (checkEndpoints nodes) putEdgeKeys
  checkEach (checkUnreferenced nodes edgesFwd edgesRev) deletedNodeKeys

section

variable {V : Type}

def putKeys (ops : List (MapOp Bytes V)) : List Bytes :=
  (ops.filter fun op => op.outcome.isSome).map MapOp.key

def deleteKeys (ops : List (MapOp Bytes V)) : List Bytes :=
  (ops.filter fun op => op.outcome.isNone).map MapOp.key

end

namespace Transaction

variable (txn : Transaction)

/-- The maps with the staged updates applied; the indexes are still those of
the base. -/
def applied : Manifest where
  schema := txn.base.manifest.schema.applyAll txn.schema
  nodes := txn.base.manifest.nodes.applyAll txn.nodes
  edgesFwd := txn.base.manifest.edgesFwd.applyAll txn.edgesFwd
  edgesRev := txn.base.manifest.edgesRev.applyAll txn.edgesRev
  indexes := txn.base.manifest.indexes

/-- While a merge is in progress, writing a disputed key resolves it. -/
def remainingConflicts : Option Conflicts :=
  let written := txn.schema.map (fun op => (ConflictMap.schema, op.key)) ++
    txn.nodes.map (fun op => (ConflictMap.nodes, op.key)) ++
    txn.edgesFwd.map (fun op => (ConflictMap.edges, op.key))
  match txn.base.conflicts with
  | some conflicts => if written = [] then some conflicts else clearWritten conflicts written
  | none => none

def checkSchemaChange : Except GraphError Unit :=
  if txn.schema.isEmpty then .ok ()
  else do
    let base := txn.base.manifest
    let oldEntries ← readSchema base.schema
    let newEntries ← readSchema txn.applied.schema
    checkLabelKeyStability base.nodes (labelKeys oldEntries) (labelKeys newEntries)
    checkRelDiscStability base.edgesFwd txn.applied.edgesFwd oldEntries newEntries
    checkRetypedLabels base.nodes oldEntries newEntries (txn.nodes.map MapOp.key)
    checkRetypedRelTypes base.edgesFwd oldEntries newEntries (txn.edgesFwd.map MapOp.key)

/-- The indexes that are maintained: on a schema change, those whose definition
is unchanged. -/
def baseForMaintain (oldEntries newEntries : List SchemaEntry) : Indexes :=
  if txn.schema.isEmpty then txn.base.manifest.indexes
  else .ofList (txn.base.manifest.indexes.entries.filter fun (name, _) =>
    (SortedMap.ofList (indexDefs oldEntries)).get name =
      (SortedMap.ofList (indexDefs newEntries)).get name)

def maintainIndexes : Except GraphError Indexes :=
  if txn.base.manifest.indexes.entries.isEmpty ∧ txn.schema.isEmpty then
    .ok txn.base.manifest.indexes
  else do
    let newEntries ← readSchema txn.applied.schema
    let oldEntries ← readSchema txn.base.manifest.schema
    maintain txn.base.manifest.nodes txn.applied.nodes (txn.nodes.map MapOp.key)
      (txn.baseForMaintain oldEntries newEntries) (indexDefs newEntries)
      (labelKeys newEntries)

def checkIntegrity : Except GraphError Unit :=
  if (putKeys txn.edgesFwd).isEmpty ∧ (deleteKeys txn.nodes).isEmpty then .ok ()
  else checkReferentialIntegrity txn.applied.nodes txn.applied.edgesFwd
    txn.applied.edgesRev (putKeys txn.edgesFwd) (deleteKeys txn.nodes)

/-- Apply the staged updates.  `merging` says that MERGE_HEAD is set. -/
def saveInPlace (merging : Bool) : Except GraphError Workspace :=
  if ¬ txn.isDirty then .ok txn.base
  else if txn.base.conflicts.isSome ∧ ¬ merging then
    .error (.mergeState ("an interrupted merge or merge abort left conflicts without " ++
      "MERGE_HEAD: run `merge --abort` to finish backing out"))
  else do
    checkStagedNodeTypes txn.applied.schema txn.nodes
    checkStagedEdgeTypes txn.applied.schema txn.edgesFwd
    checkSchemaChange txn
    let indexes ← maintainIndexes txn
    checkIntegrity txn
    .ok ⟨{ txn.applied with indexes := indexes }, txn.remainingConflicts⟩

end Transaction

end Acetone.Graph

import Acetone.Lib.ThreeWay
import Acetone.Graph.CellMerge
import Acetone.Graph.Constraints
import Acetone.Graph.Index

/-!
# Graph-level three-way merge

The schema, the nodes and the forward edges are merged map by map; the reverse
edges and the indexes are rebuilt.  A merge without cell conflicts is then
validated as a graph, over the keys it changed and the constraints it
tightened.
-/

namespace Acetone.Graph

open Acetone.Lib Acetone.Model

inductive ConflictMap where
  | schema
  | nodes
  | edges
deriving DecidableEq

/-- A side of a conflict: a whole record or one property's value. -/
inductive CellValue where
  | schema (entry : SchemaEntry)
  | node (record : NodeRecord)
  | edge (record : EdgeRecord)
  | property (value : StoredValue)
deriving DecidableEq

/-- One key changed incompatibly on both sides; without a property the whole
record is disputed. -/
structure CellConflict where
  map : ConflictMap
  key : Bytes
  property : Option String
  base : Option CellValue
  ours : Option CellValue
  theirs : Option CellValue
deriving DecidableEq

inductive Endpoint where
  | src
  | dst
deriving DecidableEq

/-- A breach that a merge without cell conflicts introduces. -/
inductive GraphViolation where
  | danglingEdge (edge endpoint : Bytes) (role : Endpoint)
  | missingRequired (node : Bytes) (property : String)
  | wrongType (node : Bytes) (property : String) (declared actual : PropertyType)
  | edgeWrongType (edge : Bytes) (property : String)
      (declared actual : PropertyType)
  | staleDiscriminator (edge : Bytes) (declared minted : Option String)
  | uniqueViolation (label property : String) (value : StoredValue)
      (nodes : List Bytes)
deriving DecidableEq

inductive MergeConflict where
  | cell (conflict : CellConflict)
  | graph (violation : GraphViolation)
deriving DecidableEq

inductive ManifestMerge where
  | clean (merged : Manifest)
  | conflicts (merged : Manifest) (found : List MergeConflict)
deriving DecidableEq

def wholeConflict {R : Type} (map : ConflictMap) (wrap : R → CellValue)
    (conflict : Conflict Bytes R) : CellConflict :=
  ⟨map, conflict.key, none, conflict.base.map wrap, conflict.ours.map wrap,
    conflict.theirs.map wrap⟩

def cellConflict (map : ConflictMap) (key : Bytes) (conflict : PropertyConflict) :
    CellConflict :=
  ⟨map, key, some conflict.property, conflict.base.map .property,
    conflict.ours.map .property, conflict.theirs.map .property⟩

/-- The schema map: a disputed entry is opaque. -/
def mergeSchema (base ours theirs : SchemaMap) : SchemaMap × List CellConflict :=
  (threeWay base ours theirs,
    (conflicts base ours theirs).map (wholeConflict .schema .schema))

section

variable {R : Type} [DecidableEq R]

/-- How the records of a map are merged cell by cell; a key both sides added
is merged against the empty record. -/
structure CellRules (R : Type) where
  map : ConflictMap
  wrap : R → CellValue
  empty : R
  merge : R → R → R → R × List PropertyConflict

/-- A record both sides modified is merged cell by cell; one that a side
deleted is disputed as a whole. -/
def refine (rules : CellRules R) (conflict : Conflict Bytes R) :
    Option (Bytes × R) × List CellConflict :=
  match conflict.ours, conflict.theirs with
  | some ours, some theirs =>
      let (merged, found) :=
        rules.merge (conflict.base.getD rules.empty) ours theirs
      (some (conflict.key, merged), found.map (cellConflict rules.map conflict.key))
  | _, _ => (none, [wholeConflict rules.map rules.wrap conflict])

/-- The nodes or the forward edges: conflicts are refined, and the records
merged cell by cell are written back. -/
def mergeOne (rules : CellRules R) (base ours theirs : SortedMap Bytes R) :
    SortedMap Bytes R × List CellConflict :=
  let refined := (conflicts base ours theirs).map (refine rules)
  ((threeWay base ours theirs).applyAll
      ((refined.filterMap Prod.fst).map fun (key, record) => .put key record),
    refined.flatMap Prod.snd)

end

def nodeRules : CellRules NodeRecord :=
  ⟨.nodes, .node, ⟨∅, .empty⟩, mergeNodeRecord⟩

def edgeRules : CellRules EdgeRecord :=
  ⟨.edges, .edge, ⟨.empty⟩, mergeEdgeRecord⟩

def rebuildReverse (edgesFwd : EdgeMap) : Except GraphError (KeySet Bytes) := do
  let keys ← edgesFwd.entries.mapM fun (key, _) => do
    let edge ← liftKey (EdgeKey.decodeFwd key)
    liftKey edge.encodeRev
  .ok (.ofKeys keys)

section

variable {R : Type} [DecidableEq R] (base merged : SortedMap Bytes R)

def deletedKeys : List Bytes :=
  (changes base.entries merged.entries).filterMap fun change =>
    match change.before, change.after with
    | some _, none => some change.key
    | _, _ => none

def changedKeys : List Bytes :=
  (changes base.entries merged.entries).filterMap fun change =>
    match change.after with
    | some _ => some change.key
    | none => none

def addedKeys : List Bytes :=
  (changes base.entries merged.entries).filterMap fun change =>
    match change.before, change.after with
    | none, some _ => some change.key
    | _, _ => none

end

def Endpoint.of (role : Endpoint) (edge : EdgeKey) : NodeKey :=
  match role with
  | .src => edge.src
  | .dst => edge.dst

section

variable (base merged : Manifest)

/-- The forward edges with an absent endpoint, where the edge was added or the
endpoint deleted. -/
def danglingEdges : Except GraphError (List GraphViolation) :=
  gather (fun (key, _) => do
    let edge ← liftKey (EdgeKey.decodeFwd key)
    gather (fun role => do
      let endpoint ← liftKey (Endpoint.of role edge).encode
      .ok (if merged.nodes.get endpoint = none ∧
          (key ∈ addedKeys base.edgesFwd merged.edgesFwd ∨
            endpoint ∈ deletedKeys base.nodes merged.nodes) then
        [.danglingEdge key endpoint role] else []))
      [.src, .dst]) merged.edgesFwd.entries

def allNodes (nodes : NodeMap) :
    Except GraphError (List (Bytes × NodeKey × NodeRecord)) :=
  nodes.entries.mapM fun (key, record) => do
    let node ← liftKey (NodeKey.decode key)
    .ok (key, node, record)

theorem allNodes_keys {map : NodeMap} {nodes : List (Bytes × NodeKey × NodeRecord)}
    (read : allNodes map = .ok nodes) : nodes.map Prod.fst = map.keys := by
  rw [SortedMap.keys]
  rw [allNodes, mapM_eq_ok] at read
  generalize map.entries = rows at read ⊢
  induction read with
  | nil => rfl
  | cons isRow _ ih =>
      obtain ⟨node, -, ⟨⟩⟩ := bind_eq_ok.mp isRow
      rw [List.map_cons, List.map_cons, ih]

theorem mem_allNodes {map : NodeMap} {nodes : List (Bytes × NodeKey × NodeRecord)}
    (read : allNodes map = .ok nodes) {key : Bytes} {node : NodeKey} {record : NodeRecord} :
    (key, node, record) ∈ nodes ↔
      map.get key = some record ∧ NodeKey.decode key = .ok node := by
  rw [SortedMap.get_eq_some_iff]
  constructor
  · intro member
    obtain ⟨row, isRow, made⟩ := exists_of_mem_mapM read member
    obtain ⟨node, decodes, ⟨⟩⟩ := bind_eq_ok.mp made
    exact ⟨isRow, liftKey_eq_ok.mp decodes⟩
  · rintro ⟨isRow, decodes⟩
    obtain ⟨row, inside, made⟩ := mem_of_mapM_eq_ok read isRow
    simp only [decodes, liftKey, ok_bind, Except.ok.injEq] at made
    exact made ▸ inside

def missingRequiredOf (nodes : List (Bytes × NodeKey × NodeRecord)) :
    List GraphViolation :=
  nodes.flatMap fun (key, node, record) =>
    match (labelDefs merged.schema).get node.label with
    | none => []
    | some decl =>
        (missingRequired decl record).filterMap fun property =>
          let newlyRequired := ((labelDefs base.schema).get node.label).all
            fun before => decide (property ∉ before.existence)
          if key ∈ changedKeys base.nodes merged.nodes ∨ newlyRequired then
            some (.missingRequired key property)
          else none

/-- Mistyped properties, of a changed node or newly declared. -/
def wrongTypes (nodes : List (Bytes × NodeKey × NodeRecord)) :
    List GraphViolation :=
  nodes.flatMap fun (key, node, record) =>
    match (labelDefs merged.schema).get node.label with
    | none => []
    | some decl =>
        (typeViolations node record decl).filterMap
          fun (property, declared, actual) =>
            let newlyDeclared := ((labelDefs base.schema).get node.label).all
              fun before => decide (before.types.get property ≠ some declared)
            if key ∈ changedKeys base.nodes merged.nodes ∨ newlyDeclared then
              some (.wrongType key property declared actual)
            else none

def edgeWrongTypes : Except GraphError (List GraphViolation) :=
  if (relTypeDefs merged.schema).entries.any
      (fun (_, decl) => ¬ decl.types.entries.isEmpty) then
    gather (fun (key, record) => do
      let edge ← liftKey (EdgeKey.decodeFwd key)
      match (relTypeDefs merged.schema).get edge.rtype with
      | none => .ok []
      | some decl =>
          .ok ((relTypeViolations edge record decl).filterMap
            fun (property, declared, actual) =>
              let newlyDeclared := ((relTypeDefs base.schema).get edge.rtype).all
                fun before => decide (before.types.get property ≠ some declared)
              if key ∈ changedKeys base.edgesFwd merged.edgesFwd ∨
                  newlyDeclared then
                some (.edgeWrongType key property declared actual)
              else none)) merged.edgesFwd.entries
  else .ok []

/-- The discriminator a schema declares for a type; an undeclared type
declares none. -/
def discriminatorOf (schema : SchemaMap) (rtype : String) : Option String :=
  ((relTypeDefs schema).get rtype).bind RelTypeDef.discriminator

def disagreeing (side merged : SchemaMap) : List (String × Option String) :=
  ((relTypeDefs side).entries.filterMap fun (name, decl) =>
      if decl.discriminator ≠ discriminatorOf merged name then
        some (name, decl.discriminator)
      else none) ++
    (relTypeDefs merged).entries.filterMap fun (name, _) =>
      if (relTypeDefs side).get name = none ∧
          discriminatorOf merged name ≠ none then
        some (name, none)
      else none

/-- A side's edges of a disagreeing type that the merged graph still holds. -/
def staleOf (side : Manifest) : Except GraphError (List (Bytes × GraphViolation)) :=
  let types := SortedMap.ofList (disagreeing side.schema merged.schema)
  if types.entries.isEmpty then .ok []
  else gather (fun (key, _) => do
    let edge ← liftKey (EdgeKey.decodeFwd key)
    match types.get edge.rtype with
    | none => .ok []
    | some minted =>
        if merged.edgesFwd.get key = none then .ok []
        else .ok [(key, .staleDiscriminator key
          (discriminatorOf merged.schema edge.rtype) minted)])
    side.edgesFwd.entries

/-- Every merged edge written under another discriminator than the merged one;
each edge once, the first side's report standing. -/
def staleDiscriminators (ours theirs : Manifest) :
    Except GraphError (List GraphViolation) := do
  let fromOurs ← staleOf merged ours
  let fromTheirs ← staleOf merged theirs
  .ok ((SortedMap.ofList (fromTheirs ++ fromOurs)).entries.map Prod.snd)

/-- Values shared by two nodes or more, where a node changed or the constraint
is newly declared.  The source lists the groups by encoded value. -/
def uniqueViolations (nodes : List (Bytes × NodeKey × NodeRecord)) :
    List GraphViolation :=
  (collisions (allClaims (labelDefs merged.schema) nodes)).filterMap
    fun ((label, property, value), members) =>
      let newlyUnique := ((labelDefs base.schema).get label).all
        fun before => decide (property ∉ before.unique)
      let touched := members.any
        fun key => decide (key ∈ changedKeys base.nodes merged.nodes)
      if newlyUnique ∨ touched then
        some (.uniqueViolation label property value members)
      else none

/-- The breaches a merge without cell conflicts introduces, by category. -/
def validateMerged (base ours theirs merged : Manifest) :
    Except GraphError (List GraphViolation) := do
  let dangling ← danglingEdges base merged
  let nodes ← allNodes merged.nodes
  let edgeTypes ← edgeWrongTypes base merged
  let stale ← staleDiscriminators merged ours theirs
  .ok (dangling ++ missingRequiredOf base merged nodes ++
    wrongTypes base merged nodes ++ edgeTypes ++ stale ++
    uniqueViolations base merged nodes)

end

/-- Three-way merge of two versions against their common base. -/
def mergeManifests (base ours theirs : Manifest) :
    Except GraphError ManifestMerge := do
  let (schema, schemaCells) := mergeSchema base.schema ours.schema theirs.schema
  let (nodes, nodeCells) := mergeOne nodeRules base.nodes ours.nodes theirs.nodes
  let (edgesFwd, edgeCells) :=
    mergeOne edgeRules base.edgesFwd ours.edgesFwd theirs.edgesFwd
  let edgesRev ← rebuildReverse edgesFwd
  let indexes ← rebuildAll nodes (schemaEntries schema)
  let merged : Manifest := ⟨schema, nodes, edgesFwd, edgesRev, indexes⟩
  let cells := schemaCells ++ nodeCells ++ edgeCells
  if cells ≠ [] then .ok (.conflicts merged (cells.map .cell))
  else do
    let violations ← validateMerged base ours theirs merged
    if violations ≠ [] then .ok (.conflicts merged (violations.map .graph))
    else .ok (.clean merged)

end Acetone.Graph

import Acetone.Cypher.GraphSource

/-!
# The write overlay

The graph a statement writes to: a base that is only read, and tables of what
the statement created, changed and deleted.  Reads merge the two, so that later
clauses see earlier writes; the net changes are read off the tables at the end.
-/

namespace Acetone.Cypher

open Acetone.Lib

structure MutableGraph where
  base : GraphSource
  createdNodes : List NodeValue
  createdRels : List RelValue
  nodeOverrides : SortedMap EntityId NodeValue
  relOverrides : SortedMap EntityId RelValue
  deletedNodes : KeySet EntityId
  deletedRels : SortedMap EntityId RelValue
  nextId : Nat

def overlayId (number : Nat) : EntityId := Persist.overlayIdTag :: beBytes 8 number

def setProperty (properties : PropertyMap) (key : String) : Option Value → PropertyMap
  | some value => properties.put key value
  | none => properties.delete key

/-- Replace a property map, or merge into it.  A null removes its key. -/
def setProperties (properties written : PropertyMap) (merge : Bool) : PropertyMap :=
  written.entries.foldl (fun properties entry =>
    match entry.2 with
    | .null => properties.delete entry.1
    | value => properties.put entry.1 value) (if merge then properties else .empty)

namespace MutableGraph

def new (base : GraphSource) : MutableGraph where
  base := base
  createdNodes := []
  createdRels := []
  nodeOverrides := .empty
  relOverrides := .empty
  deletedNodes := .empty
  deletedRels := .empty
  nextId := 0

variable (graph : MutableGraph)

def nodeDeleted (id : EntityId) : Bool := (graph.deletedNodes.get id).isSome

def relDeleted (id : EntityId) : Bool := (graph.deletedRels.get id).isSome

def createNode (labels : List String) (properties : PropertyMap) : NodeValue × MutableGraph :=
  let node : NodeValue := ⟨overlayId graph.nextId, labels, properties⟩
  (node, { graph with
    createdNodes := graph.createdNodes ++ [node]
    nextId := graph.nextId + 1 })

def createRel (start : EntityId) (relType : String) (stop : EntityId)
    (properties : PropertyMap) : RelValue × MutableGraph :=
  let rel : RelValue := ⟨overlayId graph.nextId, relType, start, stop, properties⟩
  (rel, { graph with
    createdRels := graph.createdRels ++ [rel]
    nextId := graph.nextId + 1 })

/-- A deleted node is gone; else an override wins, then a created node, then
the base. -/
def currentNode (id : EntityId) : Option NodeValue :=
  if graph.nodeDeleted id then none
  else (graph.nodeOverrides.get id).or
    ((KeyedView.findAt NodeValue.id id graph.createdNodes).or (graph.base.node id))

/-- An override wins, then a created relationship, then the value the caller
holds. -/
def currentRel (rel : RelValue) : RelValue :=
  ((graph.relOverrides.get rel.id).or
    (KeyedView.findAt RelValue.id rel.id graph.createdRels)).getD rel

def storeNode (node : NodeValue) : MutableGraph :=
  { graph with nodeOverrides := graph.nodeOverrides.put node.id node }

def storeRel (rel : RelValue) : MutableGraph :=
  { graph with relOverrides := graph.relOverrides.put rel.id rel }

/-- Change a live node; without one nothing happens. -/
def changeNode (id : EntityId) (change : NodeValue → NodeValue) :
    Option NodeValue × MutableGraph :=
  match graph.currentNode id with
  | none => (none, graph)
  | some node => (some (change node), graph.storeNode (change node))

def setNodeProperty (id : EntityId) (key : String) (value : Option Value) :
    Option NodeValue × MutableGraph :=
  graph.changeNode id fun node => { node with properties := setProperty node.properties key value }

def setNodeProperties (id : EntityId) (properties : PropertyMap) (merge : Bool) :
    Option NodeValue × MutableGraph :=
  graph.changeNode id fun node =>
    { node with properties := setProperties node.properties properties merge }

/-- A label the node has is not added again, and the node is then not
stored. -/
def addNodeLabel (id : EntityId) (label : String) : Option NodeValue × MutableGraph :=
  match graph.currentNode id with
  | none => (none, graph)
  | some node =>
      if label ∈ node.labels then (some node, graph)
      else graph.changeNode id fun node => { node with labels := node.labels ++ [label] }

/-- The first occurrence of the label is removed; a node without it is not
stored. -/
def removeNodeLabel (id : EntityId) (label : String) : Option NodeValue × MutableGraph :=
  match graph.currentNode id with
  | none => (none, graph)
  | some node =>
      if label ∈ node.labels then
        graph.changeNode id fun node => { node with labels := node.labels.erase label }
      else (some node, graph)

def changeRel (held : RelValue) (change : RelValue → RelValue) : RelValue × MutableGraph :=
  let rel := change (graph.currentRel held)
  (rel, graph.storeRel rel)

def setRelProperty (held : RelValue) (key : String) (value : Option Value) :
    RelValue × MutableGraph :=
  graph.changeRel held fun rel => { rel with properties := setProperty rel.properties key value }

def setRelProperties (held : RelValue) (properties : PropertyMap) (merge : Bool) :
    RelValue × MutableGraph :=
  graph.changeRel held fun rel =>
    { rel with properties := setProperties rel.properties properties merge }

/-- Whether any write of a node has landed: the seeks of the base are then not
authoritative. -/
def overlayDirty : Bool :=
  !graph.createdNodes.isEmpty || !graph.nodeOverrides.entries.isEmpty ||
    !graph.deletedNodes.entries.isEmpty

def overlayNode (node : NodeValue) : NodeValue :=
  KeyedView.current NodeValue.id graph.nodeOverrides node

def overlayRel (rel : RelValue) : RelValue :=
  KeyedView.current RelValue.id graph.relOverrides rel

def allNodes : List NodeValue :=
  (graph.base.allNodes.filter fun node => !graph.nodeDeleted node.id).map graph.overlayNode ++
    (graph.createdNodes.filter fun node => !graph.nodeDeleted node.id).map graph.overlayNode

/-- A deleted node has no edges.  Edges of the base appear with the overrides of
both ends of the read, deleted ones and those to deleted neighbours do not;
created edges follow. -/
def expand (node : EntityId) (direction : Direction) (types : List String) :
    List (RelValue × NodeValue) :=
  if graph.nodeDeleted node then []
  else
    (((graph.base.expand node direction types).filter fun pair =>
      !graph.relDeleted pair.1.id && !graph.nodeDeleted pair.2.id).map fun pair =>
        (graph.overlayRel pair.1, graph.overlayNode pair.2)) ++
    expandOver graph.currentNode
      ((graph.createdRels.filter fun rel => !graph.relDeleted rel.id).map graph.overlayRel)
      node direction types

def toSource : GraphSource where
  allNodes := graph.allNodes
  nodesByIndex name properties values :=
    if graph.overlayDirty then none else graph.base.nodesByIndex name properties values
  nodesByIndexRange name property lower upper :=
    if graph.overlayDirty then none else graph.base.nodesByIndexRange name property lower upper
  nodesByKey label values :=
    if graph.overlayDirty then none else graph.base.nodesByKey label values
  expand := graph.expand
  node := graph.currentNode
  seekCount probe := if graph.overlayDirty then none else graph.base.seekCount probe

def hasIncidentRels (id : EntityId) : Bool := !(graph.expand id .undirected []).isEmpty

/-- The first deletion of a relationship keeps its value. -/
def deleteRel (rel : RelValue) : MutableGraph :=
  if graph.relDeleted rel.id then graph
  else { graph with deletedRels := graph.deletedRels.put rel.id rel }

def deleteNode (id : EntityId) : MutableGraph :=
  { graph with deletedNodes := graph.deletedNodes.put id () }

def detachDeleteNode (id : EntityId) : MutableGraph :=
  (((graph.expand id .undirected []).map Prod.fst).foldl deleteRel graph).deleteNode id

/-- The items of a list whose keys were not seen before, and the keys seen
then. -/
def unseen {α : Type} (key : α → EntityId) (items : List α) (seen : List EntityId) :
    List α × List EntityId :=
  items.foldl (fun (state : List α × List EntityId) item =>
    if key item ∈ state.2 then state else (state.1 ++ [item], key item :: state.2)) ([], seen)

/-- The net effect of the statement in final states.  A created entity that was
deleted again contributes nothing. -/
def changes : WriteChanges :=
  let (createdNodes, seen) := unseen NodeValue.id
    (graph.createdNodes.filter fun node => !graph.nodeDeleted node.id) []
  let (changedNodes, _) := unseen Prod.fst
    (graph.nodeOverrides.entries.filter fun entry => !graph.nodeDeleted entry.1) seen
  let (createdRels, seenRels) := unseen RelValue.id
    (graph.createdRels.filter fun rel => !graph.relDeleted rel.id) []
  let (changedRels, _) := unseen Prod.fst
    (graph.relOverrides.entries.filter fun entry => !graph.relDeleted entry.1) seenRels
  { upsertedNodes :=
      createdNodes.filterMap (fun node => graph.currentNode node.id) ++ changedNodes.map Prod.snd
    deletedNodes := graph.deletedNodes.keys.filter fun id =>
      id ∉ graph.createdNodes.map NodeValue.id
    createdRels := createdRels.map graph.overlayRel
    modifiedRels := changedRels.map Prod.snd
    deletedRels := (graph.deletedRels.entries.filter fun entry =>
      entry.1 ∉ graph.createdRels.map RelValue.id).map Prod.snd }

end MutableGraph

/-- What a clause can ask of the graph.  Relationships are named by the value
the row holds. -/
inductive Mutation where
  | createNode (labels : List String) (properties : PropertyMap)
  | createRel (start : EntityId) (relType : String) (stop : EntityId) (properties : PropertyMap)
  | setNodeProperty (id : EntityId) (key : String) (value : Option Value)
  | setNodeProperties (id : EntityId) (properties : PropertyMap) (merge : Bool)
  | addNodeLabel (id : EntityId) (label : String)
  | removeNodeLabel (id : EntityId) (label : String)
  | setRelProperty (held : RelValue) (key : String) (value : Option Value)
  | setRelProperties (held : RelValue) (properties : PropertyMap) (merge : Bool)
  | deleteRel (rel : RelValue)
  | deleteNode (id : EntityId)
  | detachDeleteNode (id : EntityId)

def MutableGraph.perform (graph : MutableGraph) : Mutation → MutableGraph
  | .createNode labels properties => (graph.createNode labels properties).2
  | .createRel start relType stop properties => (graph.createRel start relType stop properties).2
  | .setNodeProperty id key value => (graph.setNodeProperty id key value).2
  | .setNodeProperties id properties merge => (graph.setNodeProperties id properties merge).2
  | .addNodeLabel id label => (graph.addNodeLabel id label).2
  | .removeNodeLabel id label => (graph.removeNodeLabel id label).2
  | .setRelProperty held key value => (graph.setRelProperty held key value).2
  | .setRelProperties held properties merge => (graph.setRelProperties held properties merge).2
  | .deleteRel rel => graph.deleteRel rel
  | .deleteNode id => graph.deleteNode id
  | .detachDeleteNode id => graph.detachDeleteNode id

namespace MutableGraph

theorem base_changeNode (graph : MutableGraph) (id : EntityId)
    (change : NodeValue → NodeValue) : (graph.changeNode id change).2.base = graph.base := by
  rw [changeNode]
  cases graph.currentNode id <;> rfl

theorem base_deleteRel (graph : MutableGraph) (rel : RelValue) :
    (graph.deleteRel rel).base = graph.base := by
  rw [deleteRel]
  split <;> rfl

theorem base_perform (graph : MutableGraph) (mutation : Mutation) :
    (graph.perform mutation).base = graph.base := by
  cases mutation with
  | setNodeProperty id key value => exact base_changeNode graph id _
  | setNodeProperties id properties merge => exact base_changeNode graph id _
  | addNodeLabel id label =>
      rw [perform, addNodeLabel]
      split
      · rfl
      · split
        · rfl
        · exact base_changeNode graph id _
  | removeNodeLabel id label =>
      rw [perform, removeNodeLabel]
      split
      · rfl
      · split
        · exact base_changeNode graph id _
        · rfl
  | deleteRel rel => exact base_deleteRel graph rel
  | detachDeleteNode id =>
      have kept : ∀ (rels : List RelValue) (graph : MutableGraph),
          (rels.foldl deleteRel graph).base = graph.base := by
        intro rels
        induction rels with
        | nil => exact fun _ => rfl
        | cons rel rels induction =>
            exact fun graph => (induction _).trans (base_deleteRel graph rel)
      exact kept _ graph
  | createNode | createRel | setRelProperty | setRelProperties | deleteNode => rfl

end MutableGraph

end Acetone.Cypher

import Acetone.Cypher.Persist
import Acetone.Lib.KeyedView

/-!
# Graph sources

The executor's view of a graph: all nodes, lookup, expansion along
relationships, and seeks a source may decline.  A property graph says what the
reads of a source return; the in-memory graph is one, and folds the changes of a
statement into itself.
-/

namespace Acetone.Cypher

open Acetone.Lib

inductive Direction where
  | outgoing
  | incoming
  | undirected
deriving DecidableEq

/-- The other end of a relationship at a node.  An undirected self-loop has one
other end. -/
def Direction.neighbour (direction : Direction) (rel : RelValue) (node : EntityId) :
    Option EntityId :=
  match direction with
  | .outgoing => if rel.start = node then some rel.stop else none
  | .incoming => if rel.stop = node then some rel.start else none
  | .undirected =>
      if rel.start = node then some rel.stop
      else if rel.stop = node then some rel.start
      else none

/-- The type filter of an expansion: no types admit every relationship. -/
def typeAdmits (types : List String) (rel : RelValue) : Bool :=
  types.isEmpty || types.contains rel.relType

def expandOver (lookup : EntityId → Option NodeValue) (rels : List RelValue) (node : EntityId)
    (direction : Direction) (types : List String) : List (RelValue × NodeValue) :=
  rels.filterMap fun rel =>
    if typeAdmits types rel then
      ((direction.neighbour rel node).bind lookup).map fun neighbour => (rel, neighbour)
    else none

inductive SeekProbe where
  | key (label : String) (values : List Value)
  | index (name : String) (properties : List String) (values : List Value)
  | range (name property : String) (lower upper : Option (Value × Bool))

/-- Read access to one graph state.  A seek that is declined answers `none`. -/
structure GraphSource where
  allNodes : List NodeValue
  nodesByIndex : String → List String → List Value → Option (List NodeValue)
  nodesByIndexRange : String → String → Option (Value × Bool) → Option (Value × Bool) →
    Option (List NodeValue)
  nodesByKey : String → List Value → Option (List NodeValue)
  expand : EntityId → Direction → List String → List (RelValue × NodeValue)
  node : EntityId → Option NodeValue
  seekCount : SeekProbe → Option Nat

structure PropertyGraph where
  nodes : List NodeValue
  rels : List RelValue

namespace PropertyGraph

def node (graph : PropertyGraph) (id : EntityId) : Option NodeValue :=
  KeyedView.findAt NodeValue.id id graph.nodes

def expand (graph : PropertyGraph) (node : EntityId) (direction : Direction)
    (types : List String) : List (RelValue × NodeValue) :=
  expandOver graph.node graph.rels node direction types

/-- The ids are distinct and every relationship joins nodes of the graph. -/
structure WellFormed (graph : PropertyGraph) : Prop where
  nodeIds : (graph.nodes.map NodeValue.id).Nodup
  relIds : (graph.rels.map RelValue.id).Nodup
  start : ∀ rel ∈ graph.rels, rel.start ∈ graph.nodes.map NodeValue.id
  stop : ∀ rel ∈ graph.rels, rel.stop ∈ graph.nodes.map NodeValue.id

end PropertyGraph

/-- The source reads a property graph; relationships may come in any order. -/
structure GraphSource.Reads (source : GraphSource) (graph : PropertyGraph) : Prop where
  allNodes : source.allNodes = graph.nodes
  node : ∀ id, source.node id = graph.node id
  expand : ∀ node direction types,
    (source.expand node direction types).Perm (graph.expand node direction types)

/-- Whether an id was made for an entity that a running statement created. -/
def isOverlay (id : EntityId) : Bool := id.head? = some Persist.overlayIdTag

/-- A simple in-memory property graph, with the counter of the stable ids it
gives to created entities. -/
structure MemoryGraph extends PropertyGraph where
  nextId : Nat

namespace MemoryGraph

def toSource (graph : MemoryGraph) : GraphSource where
  allNodes := graph.nodes
  nodesByIndex _ _ _ := none
  nodesByIndexRange _ _ _ _ := none
  nodesByKey _ _ := none
  expand := graph.expand
  node := graph.node
  seekCount _ := none

theorem toSource_reads (graph : MemoryGraph) : graph.toSource.Reads graph.toPropertyGraph where
  allNodes := rfl
  node _ := rfl
  expand _ _ _ := .refl _

def stableId (number : Nat) : EntityId := Model.utf8 ("s" ++ toString number)

/-- The stable ids given out so far, and the next number. -/
structure Remap where
  table : SortedMap EntityId EntityId
  next : Nat

/-- Overlay ids are replaced by stable ones, the same id always by the same. -/
def stable (remap : Remap) (old : EntityId) : EntityId × Remap :=
  if isOverlay old then
    match remap.table.get old with
    | some id => (id, remap)
    | none =>
        let id := stableId remap.next
        (id, ⟨remap.table.put old id, remap.next + 1⟩)
  else (old, remap)

def stableNode (remap : Remap) (node : NodeValue) : NodeValue × Remap :=
  let (id, remap) := stable remap node.id
  (⟨id, node.labels, node.properties⟩, remap)

def stableRel (remap : Remap) (rel : RelValue) : RelValue × Remap :=
  let (id, remap) := stable remap rel.id
  let (start, remap) := stable remap rel.start
  let (stop, remap) := stable remap rel.stop
  (⟨id, rel.relType, start, stop, rel.properties⟩, remap)

def upsertAll {α : Type} (key : α → EntityId) (rename : Remap → α → α × Remap)
    (items written : List α) (remap : Remap) : List α × Remap :=
  written.foldl (fun (state : List α × Remap) item =>
    let (renamed, remap) := rename state.2 item
    (KeyedView.upsert key state.1 renamed, remap)) (items, remap)

/-- Fold the net changes of a statement into the graph: deletions first, then
nodes, then relationships. -/
def apply (graph : MemoryGraph) (changes : WriteChanges) : MemoryGraph :=
  let keptNodes := graph.nodes.filter fun node => node.id ∉ changes.deletedNodes
  let keptRels := graph.rels.filter fun rel => rel.id ∉ changes.deletedRels.map RelValue.id
  let (nodes, remap) := upsertAll NodeValue.id stableNode keptNodes changes.upsertedNodes
    ⟨.empty, graph.nextId⟩
  let (rels, remap) := upsertAll RelValue.id stableRel keptRels
    (changes.createdRels ++ changes.modifiedRels) remap
  ⟨⟨nodes, rels⟩, remap.next⟩

end MemoryGraph

end Acetone.Cypher

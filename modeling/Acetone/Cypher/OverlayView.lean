import Acetone.Cypher.Overlay

/-!
# What the overlay shows

The tables of the overlay stand for a property graph: the entities of the base
and the created ones, as overridden, without the deleted ones.  Each mutation
edits the tables so that the graph shown is the one that performing the mutation
on a plain graph gives, provided a relationship is set through a value that the
overlay or the base knows.
-/

namespace Acetone.Cypher

open Acetone.Lib Acetone.Lib.KeyedView

namespace PropertyGraph

variable (graph : PropertyGraph)

def changeNode (id : EntityId) (change : NodeValue → NodeValue) : PropertyGraph :=
  { graph with nodes := updateAt NodeValue.id id change graph.nodes }

def changeRel (id : EntityId) (change : RelValue → RelValue) : PropertyGraph :=
  { graph with rels := updateAt RelValue.id id change graph.rels }

def dropNode (id : EntityId) : PropertyGraph :=
  { graph with nodes := dropAt NodeValue.id id graph.nodes }

def dropRel (id : EntityId) : PropertyGraph :=
  { graph with rels := dropAt RelValue.id id graph.rels }

def detach (id : EntityId) : PropertyGraph :=
  { graph with rels := graph.rels.filter fun rel => rel.start ≠ id ∧ rel.stop ≠ id }

/-- Perform a mutation in place; a created entity gets the fresh id. -/
def perform (fresh : EntityId) : Mutation → PropertyGraph
  | .createNode labels properties =>
      { graph with nodes := graph.nodes ++ [⟨fresh, labels, properties⟩] }
  | .createRel start relType stop properties =>
      { graph with rels := graph.rels ++ [⟨fresh, relType, start, stop, properties⟩] }
  | .setNodeProperty id key value =>
      graph.changeNode id fun node =>
        { node with properties := setProperty node.properties key value }
  | .setNodeProperties id properties merge =>
      graph.changeNode id fun node =>
        { node with properties := setProperties node.properties properties merge }
  | .addNodeLabel id label =>
      graph.changeNode id fun node =>
        if label ∈ node.labels then node else { node with labels := node.labels ++ [label] }
  | .removeNodeLabel id label =>
      graph.changeNode id fun node => { node with labels := node.labels.erase label }
  | .setRelProperty held key value =>
      graph.changeRel held.id fun rel =>
        { rel with properties := setProperty rel.properties key value }
  | .setRelProperties held properties merge =>
      graph.changeRel held.id fun rel =>
        { rel with properties := setProperties rel.properties properties merge }
  | .deleteRel rel => graph.dropRel rel.id
  | .deleteNode id => graph.dropNode id
  | .detachDeleteNode id => (graph.detach id).dropNode id

end PropertyGraph

/-- A graph with no entity that looks as if a statement had created it. -/
structure PropertyGraph.Stored (graph : PropertyGraph) : Prop extends graph.WellFormed where
  storedNodes : ∀ node ∈ graph.nodes, isOverlay node.id = false
  storedRels : ∀ rel ∈ graph.rels, isOverlay rel.id = false

/-- Two relationships differ only in their properties. -/
structure RelValue.SameShape (left right : RelValue) : Prop where
  id : left.id = right.id
  relType : left.relType = right.relType
  start : left.start = right.start
  stop : left.stop = right.stop

theorem RelValue.SameShape.refl (rel : RelValue) : rel.SameShape rel := ⟨rfl, rfl, rfl, rfl⟩

theorem RelValue.SameShape.trans {first second third : RelValue} (left : first.SameShape second)
    (right : second.SameShape third) : first.SameShape third :=
  ⟨left.id.trans right.id, left.relType.trans right.relType, left.start.trans right.start,
    left.stop.trans right.stop⟩

namespace MutableGraph

def shown (base : PropertyGraph) (graph : MutableGraph) : PropertyGraph where
  nodes := view NodeValue.id (base.nodes ++ graph.createdNodes) graph.nodeOverrides
    graph.nodeDeleted
  rels := view RelValue.id (base.rels ++ graph.createdRels) graph.relOverrides graph.relDeleted

/-- The tables are consistent with each other and with the base. -/
structure Consistent (base : PropertyGraph) (graph : MutableGraph) : Prop where
  reads : graph.base.Reads base
  nodeIds : ((base.nodes ++ graph.createdNodes).map NodeValue.id).Nodup
  relIds : ((base.rels ++ graph.createdRels).map RelValue.id).Nodup
  numbered : graph.nextId ≤ 2 ^ 64
  createdNodes : ∀ node ∈ graph.createdNodes, ∃ number < graph.nextId, node.id = overlayId number
  createdRels : ∀ rel ∈ graph.createdRels, ∃ number < graph.nextId, rel.id = overlayId number
  deletedNodes : ∀ number, graph.nextId ≤ number → number < 2 ^ 64 →
    graph.nodeDeleted (overlayId number) = false
  deletedRels : ∀ number, graph.nextId ≤ number → number < 2 ^ 64 →
    graph.relDeleted (overlayId number) = false
  nodeProper : Proper NodeValue.id graph.nodeOverrides
  relProper : Proper RelValue.id graph.relOverrides
  deletedProper : Proper RelValue.id graph.deletedRels
  nodeKnown : ∀ id, graph.nodeOverrides.get id ≠ none →
    id ∈ (base.nodes ++ graph.createdNodes).map NodeValue.id
  relKnown : ∀ id, graph.relOverrides.get id ≠ none →
    graph.relDeleted id ∨ id ∈ (base.rels ++ graph.createdRels).map RelValue.id
  shape : ∀ rel ∈ base.rels ++ graph.createdRels, graph.relDeleted rel.id = false →
    (graph.overlayRel rel).SameShape rel
  start : ∀ rel ∈ (graph.shown base).rels, rel.start ∈ (graph.shown base).nodes.map NodeValue.id
  stop : ∀ rel ∈ (graph.shown base).rels, rel.stop ∈ (graph.shown base).nodes.map NodeValue.id

variable {base : PropertyGraph} {graph : MutableGraph}

theorem Consistent.wellFormed (consistent : graph.Consistent base) :
    (graph.shown base).WellFormed where
  nodeIds := nodup_view consistent.nodeProper consistent.nodeIds
  relIds := nodup_view consistent.relProper consistent.relIds
  start := consistent.start
  stop := consistent.stop

theorem shown_new (source : GraphSource) : (MutableGraph.new source).shown base = base := by
  have nodes : view NodeValue.id base.nodes .empty (MutableGraph.new source).nodeDeleted =
      base.nodes := view_empty fun _ => rfl
  have rels : view RelValue.id base.rels .empty (MutableGraph.new source).relDeleted =
      base.rels := view_empty fun _ => rfl
  rw [shown, new, List.append_nil, List.append_nil]
  exact congrArg₂ PropertyGraph.mk nodes rels

theorem Consistent.new {source : GraphSource} (reads : source.Reads base)
    (stored : base.Stored) : (MutableGraph.new source).Consistent base where
  reads := reads
  nodeIds := by simpa [MutableGraph.new] using stored.nodeIds
  relIds := by simpa [MutableGraph.new] using stored.relIds
  numbered := Nat.zero_le _
  createdNodes _ member := by cases member
  createdRels _ member := by cases member
  deletedNodes _ _ _ := rfl
  deletedRels _ _ _ := rfl
  nodeProper := .empty
  relProper := .empty
  deletedProper := .empty
  nodeKnown _ found := absurd rfl found
  relKnown _ found := absurd rfl found
  shape rel _ _ := .refl rel
  start := by
    rw [shown_new]
    exact stored.start
  stop := by
    rw [shown_new]
    exact stored.stop

theorem allNodes_shown (consistent : graph.Consistent base) :
    graph.allNodes = (graph.shown base).nodes := by
  rw [allNodes, consistent.reads.allNodes, shown, view_append]
  rfl

theorem currentNode_shown (consistent : graph.Consistent base) (id : EntityId) :
    graph.currentNode id = (graph.shown base).node id := by
  rw [currentNode, PropertyGraph.node, shown,
    findAt_view consistent.nodeProper consistent.nodeIds, consistent.reads.node,
    PropertyGraph.node, findAt_append]
  by_cases gone : graph.nodeDeleted id
  · rw [if_pos gone, if_pos gone]
  · rw [if_neg gone, if_neg gone]
    have swapped : (findAt NodeValue.id id graph.createdNodes).or
        (findAt NodeValue.id id base.nodes) =
          (findAt NodeValue.id id base.nodes).or
            (findAt NodeValue.id id graph.createdNodes) := by
      cases inBase : findAt NodeValue.id id base.nodes with
      | none => rw [Option.or_none, Option.none_or]
      | some node =>
          have absent : findAt NodeValue.id id graph.createdNodes = none := by
            apply findAt_eq_none.mpr
            intro created
            have distinct := consistent.nodeIds
            rw [List.map_append] at distinct
            obtain ⟨member, isId⟩ := findAt_some inBase
            exact (List.disjoint_of_nodup_append distinct)
              (List.mem_map.mpr ⟨node, member, isId⟩) created
          rw [absent, Option.none_or, Option.or_none]
    rw [swapped, ← findAt_append]
    cases override : graph.nodeOverrides.get id with
    | some changed =>
        have known := consistent.nodeKnown id (by rw [override]; exact Option.some_ne_none _)
        obtain ⟨node, found⟩ := Option.isSome_iff_exists.mp (isSome_findAt.mpr known)
        have isId := (findAt_some found).2
        rw [found, Option.map_some, Option.some_or, current, isId, override, Option.getD_some]
    | none =>
        rw [Option.none_or]
        cases found : findAt NodeValue.id id (base.nodes ++ graph.createdNodes) with
        | none => rfl
        | some node =>
            rw [Option.map_some, current, (findAt_some found).2, override, Option.getD_none]

theorem shown_node_of_base (consistent : graph.Consistent base) {id : EntityId}
    {node : NodeValue} (found : base.node id = some node) :
    (graph.shown base).node id =
      if graph.nodeDeleted id then none else some (graph.overlayNode node) := by
  rw [PropertyGraph.node] at found
  rw [PropertyGraph.node, shown, findAt_view consistent.nodeProper consistent.nodeIds,
    findAt_append, found, Option.some_or, Option.map_some]
  rfl

end MutableGraph

theorem neighbour_congr {left right : RelValue} (same : left.SameShape right)
    (direction : Direction) (node : EntityId) :
    direction.neighbour left node = direction.neighbour right node := by
  cases direction with
  | outgoing => rw [Direction.neighbour, Direction.neighbour, same.start, same.stop]
  | incoming => rw [Direction.neighbour, Direction.neighbour, same.start, same.stop]
  | undirected => rw [Direction.neighbour, Direction.neighbour, same.start, same.stop]

theorem typeAdmits_congr {left right : RelValue} (same : left.SameShape right)
    (types : List String) : typeAdmits types left = typeAdmits types right := by
  rw [typeAdmits, typeAdmits, same.relType]

theorem neighbour_eq_some {direction : Direction} {rel : RelValue} {node other : EntityId}
    (found : direction.neighbour rel node = some other) :
    (rel.start = node ∧ rel.stop = other) ∨ (rel.stop = node ∧ rel.start = other) := by
  cases direction with
  | outgoing =>
      rw [Direction.neighbour] at found
      split at found
      · next isStart => exact .inl ⟨isStart, Option.some.inj found⟩
      · cases found
  | incoming =>
      rw [Direction.neighbour] at found
      split at found
      · next isStop => exact .inr ⟨isStop, Option.some.inj found⟩
      · cases found
  | undirected =>
      rw [Direction.neighbour] at found
      split at found
      · next isStart => exact .inl ⟨isStart, Option.some.inj found⟩
      · split at found
        · next isStop => exact .inr ⟨isStop, Option.some.inj found⟩
        · cases found

theorem expandOver_append (lookup : EntityId → Option NodeValue) (rels more : List RelValue)
    (node : EntityId) (direction : Direction) (types : List String) :
    expandOver lookup (rels ++ more) node direction types =
      expandOver lookup rels node direction types ++
        expandOver lookup more node direction types :=
  List.filterMap_append

namespace MutableGraph

variable {base : PropertyGraph} {graph : MutableGraph}

/-- Expanding the base and applying the tables to what is found is expanding
what the overlay shows of the base. -/
private theorem expand_base (stored : base.WellFormed) (consistent : graph.Consistent base)
    (node : EntityId) (direction : Direction) (types : List String) :
    (((base.expand node direction types).filter fun pair =>
      !graph.relDeleted pair.1.id && !graph.nodeDeleted pair.2.id).map fun pair =>
        (graph.overlayRel pair.1, graph.overlayNode pair.2)) =
      expandOver (graph.shown base).node
        (view RelValue.id base.rels graph.relOverrides graph.relDeleted) node direction types := by
  rw [PropertyGraph.expand, expandOver, List.filter_filterMap, List.map_filterMap, expandOver,
    view, List.filterMap_map, List.filterMap_filter]
  apply List.filterMap_congr
  intro rel member
  have inAll : rel ∈ base.rels ++ graph.createdRels := List.mem_append_left _ member
  by_cases gone : graph.relDeleted rel.id
  · cases typeAdmits types rel with
    | false => simp [gone]
    | true => cases (direction.neighbour rel node).bind base.node <;> simp [gone]
  · have same := consistent.shape rel inAll (Bool.eq_false_iff.mpr gone)
    have types' : typeAdmits types (current RelValue.id graph.relOverrides rel) =
        typeAdmits types rel := typeAdmits_congr same types
    have neighbour' : direction.neighbour (current RelValue.id graph.relOverrides rel) node =
        direction.neighbour rel node := neighbour_congr same direction node
    rw [Function.comp_apply, types', neighbour']
    cases typeAdmits types rel with
    | false => simp
    | true =>
        cases found : direction.neighbour rel node with
        | none => simp
        | some other =>
            have isNode : other ∈ base.nodes.map NodeValue.id := by
              rcases neighbour_eq_some found with ⟨-, rfl⟩ | ⟨-, rfl⟩
              · exact stored.stop rel member
              · exact stored.start rel member
            obtain ⟨target, isTarget⟩ := Option.isSome_iff_exists.mp (isSome_findAt.mpr isNode)
            have targetId : target.id = other := (findAt_some isTarget).2
            have lookup : base.node other = some target := isTarget
            have shownLookup := shown_node_of_base consistent lookup
            cases dropped : graph.nodeDeleted other with
            | true => simp [lookup, shownLookup, dropped, targetId, gone]
            | false =>
                simp [lookup, shownLookup, dropped, targetId, gone, overlayRel]

/-- Nothing the overlay shows is incident to a deleted node. -/
private theorem expand_deleted (consistent : graph.Consistent base) {node : EntityId}
    (gone : graph.nodeDeleted node) (direction : Direction) (types : List String) :
    (graph.shown base).expand node direction types = [] := by
  have absent : node ∉ (graph.shown base).nodes.map NodeValue.id := by
    rw [shown, map_key_view consistent.nodeProper, List.mem_filter, gone]
    simp
  apply List.filterMap_eq_nil_iff.mpr
  intro rel member
  cases typeAdmits types rel with
  | false => rfl
  | true =>
      cases found : direction.neighbour rel node with
      | none => rfl
      | some other =>
          rcases neighbour_eq_some found with ⟨rfl, -⟩ | ⟨rfl, -⟩
          · exact absurd (consistent.start rel member) absent
          · exact absurd (consistent.stop rel member) absent

theorem expand_shown (stored : base.WellFormed) (consistent : graph.Consistent base)
    (node : EntityId) (direction : Direction) (types : List String) :
    (graph.expand node direction types).Perm
      ((graph.shown base).expand node direction types) := by
  by_cases gone : graph.nodeDeleted node
  · rw [expand, if_pos gone, expand_deleted consistent gone]
  · have rels : (graph.shown base).rels =
        view RelValue.id base.rels graph.relOverrides graph.relDeleted ++
          view RelValue.id graph.createdRels graph.relOverrides graph.relDeleted :=
      view_append _ _
    have lookup : graph.currentNode = (graph.shown base).node :=
      funext (currentNode_shown consistent)
    rw [expand, if_neg gone, PropertyGraph.expand, rels, expandOver_append,
      ← expand_base stored consistent, lookup]
    apply List.Perm.append_right
    apply List.Perm.map
    apply List.Perm.filter
    exact consistent.reads.expand node direction types

end MutableGraph

@[simp] theorem isOverlay_overlayId (number : Nat) : isOverlay (overlayId number) = true := by
  simp [isOverlay, overlayId]

theorem overlayId_inj {left right : Nat} (leftBound : left < 2 ^ 64) (rightBound : right < 2 ^ 64)
    (same : overlayId left = overlayId right) : left = right := by
  have digits : beBytes 8 left = beBytes 8 right := (List.cons.inj same).2
  rw [← @ofBeBytes_beBytes 8 left leftBound, digits, ofBeBytes_beBytes rightBound]

namespace MutableGraph

variable {base : PropertyGraph} {graph : MutableGraph}

theorem Consistent.freshNode (consistent : graph.Consistent base) (stored : base.Stored)
    (room : graph.nextId < 2 ^ 64) :
    overlayId graph.nextId ∉ (base.nodes ++ graph.createdNodes).map NodeValue.id := by
  rw [List.map_append, List.mem_append, not_or, List.mem_map, List.mem_map]
  constructor
  · intro ⟨node, member, isId⟩
    have plain := stored.storedNodes node member
    rw [isId, isOverlay_overlayId] at plain
    cases plain
  · intro ⟨node, member, isId⟩
    obtain ⟨number, below, isNumber⟩ := consistent.createdNodes node member
    have same := overlayId_inj (below.trans room) room (isNumber.symm.trans isId)
    exact absurd same (Nat.ne_of_lt below)

theorem Consistent.freshRel (consistent : graph.Consistent base) (stored : base.Stored)
    (room : graph.nextId < 2 ^ 64) :
    overlayId graph.nextId ∉ (base.rels ++ graph.createdRels).map RelValue.id := by
  rw [List.map_append, List.mem_append, not_or, List.mem_map, List.mem_map]
  constructor
  · intro ⟨rel, member, isId⟩
    have plain := stored.storedRels rel member
    rw [isId, isOverlay_overlayId] at plain
    cases plain
  · intro ⟨rel, member, isId⟩
    obtain ⟨number, below, isNumber⟩ := consistent.createdRels rel member
    have same := overlayId_inj (below.trans room) room (isNumber.symm.trans isId)
    exact absurd same (Nat.ne_of_lt below)

theorem shown_createNode (consistent : graph.Consistent base) (stored : base.Stored)
    (room : graph.nextId < 2 ^ 64) (labels : List String) (properties : PropertyMap) :
    (graph.createNode labels properties).2.shown base =
      (graph.shown base).perform (overlayId graph.nextId) (.createNode labels properties) := by
  have fresh := consistent.freshNode stored room
  have plain : graph.nodeOverrides.get (overlayId graph.nextId) = none := by
    by_contra found
    exact fresh (consistent.nodeKnown _ found)
  have live := consistent.deletedNodes graph.nextId (Nat.le_refl _) room
  rw [PropertyGraph.perform, createNode, shown, shown]
  congr 1
  rw [← List.append_assoc]
  exact view_concat plain live

theorem Consistent.createNode (consistent : graph.Consistent base) (stored : base.Stored)
    (room : graph.nextId < 2 ^ 64) (labels : List String) (properties : PropertyMap) :
    (graph.createNode labels properties).2.Consistent base := {
  consistent with
  nodeIds := by
    rw [MutableGraph.createNode, ← List.append_assoc, List.map_append, List.map_singleton,
      ← List.concat_eq_append]
    exact consistent.nodeIds.concat (consistent.freshNode stored room)
  numbered := room
  createdNodes := by
    intro node member
    rcases List.mem_append.mp member with earlier | last
    · obtain ⟨number, below, isNumber⟩ := consistent.createdNodes node earlier
      exact ⟨number, Nat.lt_succ_of_lt below, isNumber⟩
    · rw [List.mem_singleton.mp last]
      exact ⟨graph.nextId, Nat.lt_succ_self _, rfl⟩
  createdRels := by
    intro rel member
    obtain ⟨number, below, isNumber⟩ := consistent.createdRels rel member
    exact ⟨number, Nat.lt_succ_of_lt below, isNumber⟩
  deletedNodes number after bound :=
    consistent.deletedNodes number (Nat.le_of_succ_le after) bound
  deletedRels number after bound := consistent.deletedRels number (Nat.le_of_succ_le after) bound
  nodeKnown := by
    intro id found
    rw [MutableGraph.createNode, ← List.append_assoc, List.map_append]
    exact List.mem_append_left _ (consistent.nodeKnown id found)
  start := by
    intro rel member
    rw [shown_createNode consistent stored room] at member ⊢
    rw [PropertyGraph.perform, List.map_append]
    exact List.mem_append_left _ (consistent.start rel member)
  stop := by
    intro rel member
    rw [shown_createNode consistent stored room] at member ⊢
    rw [PropertyGraph.perform, List.map_append]
    exact List.mem_append_left _ (consistent.stop rel member) }

theorem Consistent.relOverrides_fresh (consistent : graph.Consistent base)
    (stored : base.Stored) (room : graph.nextId < 2 ^ 64) :
    graph.relOverrides.get (overlayId graph.nextId) = none := by
  by_contra found
  rcases consistent.relKnown _ found with gone | known
  · rw [consistent.deletedRels graph.nextId (Nat.le_refl _) room] at gone
    cases gone
  · exact consistent.freshRel stored room known

theorem shown_createRel (consistent : graph.Consistent base) (stored : base.Stored)
    (room : graph.nextId < 2 ^ 64) (start : EntityId) (relType : String) (stop : EntityId)
    (properties : PropertyMap) :
    (graph.createRel start relType stop properties).2.shown base =
      (graph.shown base).perform (overlayId graph.nextId)
        (.createRel start relType stop properties) := by
  have live := consistent.deletedRels graph.nextId (Nat.le_refl _) room
  rw [PropertyGraph.perform, createRel, shown, shown]
  congr 1
  rw [← List.append_assoc]
  exact view_concat (consistent.relOverrides_fresh stored room) live

theorem Consistent.createRel (consistent : graph.Consistent base) (stored : base.Stored)
    (room : graph.nextId < 2 ^ 64) {start stop : EntityId}
    (liveStart : start ∈ (graph.shown base).nodes.map NodeValue.id)
    (liveStop : stop ∈ (graph.shown base).nodes.map NodeValue.id) (relType : String)
    (properties : PropertyMap) :
    (graph.createRel start relType stop properties).2.Consistent base := {
  consistent with
  relIds := by
    rw [MutableGraph.createRel, ← List.append_assoc, List.map_append, List.map_singleton,
      ← List.concat_eq_append]
    exact consistent.relIds.concat (consistent.freshRel stored room)
  numbered := room
  createdNodes := by
    intro node member
    obtain ⟨number, below, isNumber⟩ := consistent.createdNodes node member
    exact ⟨number, Nat.lt_succ_of_lt below, isNumber⟩
  createdRels := by
    intro rel member
    rcases List.mem_append.mp member with earlier | last
    · obtain ⟨number, below, isNumber⟩ := consistent.createdRels rel earlier
      exact ⟨number, Nat.lt_succ_of_lt below, isNumber⟩
    · rw [List.mem_singleton.mp last]
      exact ⟨graph.nextId, Nat.lt_succ_self _, rfl⟩
  deletedNodes number after bound :=
    consistent.deletedNodes number (Nat.le_of_succ_le after) bound
  deletedRels number after bound := consistent.deletedRels number (Nat.le_of_succ_le after) bound
  relKnown := by
    intro id found
    rw [MutableGraph.createRel, ← List.append_assoc, List.map_append]
    rcases consistent.relKnown id found with gone | known
    · exact .inl gone
    · exact .inr (List.mem_append_left _ known)
  shape := by
    intro rel member live
    rw [MutableGraph.createRel, ← List.append_assoc] at member
    rcases List.mem_append.mp member with earlier | last
    · exact consistent.shape rel earlier live
    · rw [List.mem_singleton.mp last, overlayRel, current]
      have plain := consistent.relOverrides_fresh stored room
      rw [MutableGraph.createRel, plain, Option.getD_none]
      exact .refl _
  start := by
    intro rel member
    rw [shown_createRel consistent stored room] at member ⊢
    rcases List.mem_append.mp member with earlier | last
    · exact consistent.start rel earlier
    · rw [List.mem_singleton.mp last]
      exact liveStart
  stop := by
    intro rel member
    rw [shown_createRel consistent stored room] at member ⊢
    rcases List.mem_append.mp member with earlier | last
    · exact consistent.stop rel earlier
    · rw [List.mem_singleton.mp last]
      exact liveStop }

theorem shown_storeNode (consistent : graph.Consistent base) (node : NodeValue) :
    (graph.storeNode node).shown base =
      (graph.shown base).changeNode node.id fun _ => node := by
  rw [PropertyGraph.changeNode, storeNode, shown, shown]
  congr 1
  exact view_put consistent.nodeProper node

theorem Consistent.storeNode (consistent : graph.Consistent base) {node : NodeValue}
    (known : node.id ∈ (base.nodes ++ graph.createdNodes).map NodeValue.id) :
    (graph.storeNode node).Consistent base := by
  have sameNodes : ((graph.storeNode node).shown base).nodes.map NodeValue.id =
      (graph.shown base).nodes.map NodeValue.id := by
    rw [shown_storeNode consistent]
    exact map_key_updateAt fun _ _ _ => rfl
  exact { consistent with
    nodeProper := consistent.nodeProper.put node
    nodeKnown := by
      intro id found
      by_cases same : node.id = id
      · exact same ▸ known
      · rw [MutableGraph.storeNode, SortedMap.get_put, if_neg same] at found
        exact consistent.nodeKnown id found
    start := by
      rw [sameNodes]
      exact consistent.start
    stop := by
      rw [sameNodes]
      exact consistent.stop }

theorem shown_storeRel (consistent : graph.Consistent base) (rel : RelValue) :
    (graph.storeRel rel).shown base =
      (graph.shown base).changeRel rel.id fun _ => rel := by
  rw [PropertyGraph.changeRel, storeRel, shown, shown]
  congr 1
  exact view_put consistent.relProper rel

def Fits (base : PropertyGraph) (graph : MutableGraph) (rel : RelValue) : Prop :=
  graph.relDeleted rel.id = true ∨ ∃ item ∈ base.rels ++ graph.createdRels, rel.SameShape item

theorem Consistent.overlayRel_storeRel (consistent : graph.Consistent base) {rel : RelValue}
    (fits : graph.Fits base rel) {item : RelValue} (member : item ∈ base.rels ++ graph.createdRels)
    (live : graph.relDeleted item.id = false) :
    ((graph.storeRel rel).overlayRel item).SameShape item := by
  rw [overlayRel, current, MutableGraph.storeRel, SortedMap.get_put]
  by_cases same : rel.id = item.id
  · rw [if_pos same, Option.getD_some]
    rcases fits with gone | ⟨other, isOther, shape⟩
    · rw [same, live] at gone
      cases gone
    · rw [← eq_of_key consistent.relIds isOther member (shape.id.symm.trans same)]
      exact shape
  · rw [if_neg same]
    exact consistent.shape item member live

theorem Consistent.storeRel (consistent : graph.Consistent base) {rel : RelValue}
    (fits : graph.Fits base rel) : (graph.storeRel rel).Consistent base := by
  have ends : ∀ changed ∈ ((graph.storeRel rel).shown base).rels,
      ∃ shown ∈ (graph.shown base).rels, changed.SameShape shown := by
    intro changed member
    obtain ⟨item, isItem, live, rfl⟩ := mem_view.mp member
    have before := consistent.shape item isItem live
    have after := consistent.overlayRel_storeRel fits isItem live
    refine ⟨graph.overlayRel item, mem_view.mpr ⟨item, isItem, live, rfl⟩, ?_⟩
    exact ⟨after.id.trans before.id.symm, after.relType.trans before.relType.symm,
      after.start.trans before.start.symm, after.stop.trans before.stop.symm⟩
  exact { consistent with
    relProper := consistent.relProper.put rel
    relKnown := by
      intro id found
      by_cases same : rel.id = id
      · rcases fits with gone | ⟨item, isItem, shape⟩
        · exact .inl (same ▸ gone)
        · exact .inr (List.mem_map.mpr ⟨item, isItem, shape.id.symm.trans same⟩)
      · rw [MutableGraph.storeRel, SortedMap.get_put, if_neg same] at found
        exact consistent.relKnown id found
    shape := fun _ member live => consistent.overlayRel_storeRel fits member live
    start := by
      intro changed member
      obtain ⟨shown, isShown, same⟩ := ends changed member
      rw [same.start]
      exact consistent.start shown isShown
    stop := by
      intro changed member
      obtain ⟨shown, isShown, same⟩ := ends changed member
      rw [same.stop]
      exact consistent.stop shown isShown }

theorem shown_deleteRel (consistent : graph.Consistent base) (rel : RelValue) :
    (graph.deleteRel rel).shown base = (graph.shown base).dropRel rel.id := by
  rw [deleteRel, PropertyGraph.dropRel]
  by_cases gone : graph.relDeleted rel.id
  · have absent : rel.id ∉ (graph.shown base).rels.map RelValue.id := by
      rw [shown, map_key_view consistent.relProper, List.mem_filter, gone]
      simp
    have kept : dropAt RelValue.id rel.id (graph.shown base).rels = (graph.shown base).rels := by
      apply List.filter_eq_self.mpr
      intro other member
      have differs : other.id ≠ rel.id := fun same =>
        absent (List.mem_map.mpr ⟨other, member, same⟩)
      simpa using differs
    rw [if_pos gone, kept]
  · rw [if_neg gone, shown, shown]
    congr 1
    exact view_delete consistent.relProper graph.deletedRels rel.id rel

theorem relDeleted_deleteRel {rel : RelValue} {id : EntityId} :
    (graph.deleteRel rel).relDeleted id = true ↔ id = rel.id ∨ graph.relDeleted id = true := by
  rw [deleteRel]
  by_cases gone : graph.relDeleted rel.id
  · rw [if_pos gone]
    constructor
    · exact .inr
    · rintro (rfl | deleted)
      · exact gone
      · exact deleted
  · rw [if_neg gone]
    exact isSome_get_put

theorem shown_deleteNode (consistent : graph.Consistent base) (id : EntityId) :
    (graph.deleteNode id).shown base = (graph.shown base).dropNode id := by
  rw [PropertyGraph.dropNode, deleteNode, shown, shown]
  congr 1
  exact view_delete consistent.nodeProper graph.deletedNodes id ()

/-- The id is no id of an entity yet to be created. -/
def Held (graph : MutableGraph) (id : EntityId) : Prop :=
  ∀ number, graph.nextId ≤ number → number < 2 ^ 64 → id ≠ overlayId number

theorem Consistent.deleteRel (consistent : graph.Consistent base) {rel : RelValue}
    (held : graph.Held rel.id) : (graph.deleteRel rel).Consistent base := by
  by_cases gone : graph.relDeleted rel.id
  · rw [MutableGraph.deleteRel, if_pos gone]
    exact consistent
  · have shownRels := shown_deleteRel consistent rel
    have deleted := fun id => @relDeleted_deleteRel graph rel id
    have isNew : graph.deleteRel rel =
        { graph with deletedRels := graph.deletedRels.put rel.id rel } := if_neg gone
    rw [isNew] at shownRels deleted ⊢
    exact { consistent with
      deletedRels := by
        intro number after bound
        rw [Bool.eq_false_iff, ne_eq, deleted, not_or]
        refine ⟨Ne.symm (held number after bound), ?_⟩
        exact Bool.eq_false_iff.mp (consistent.deletedRels number after bound)
      deletedProper := consistent.deletedProper.put rel
      relKnown := by
        intro id found
        rcases consistent.relKnown id found with before | known
        · exact .inl ((deleted id).mpr (.inr before))
        · exact .inr known
      shape := by
        intro item member live
        rw [Bool.eq_false_iff, ne_eq, deleted, not_or] at live
        exact consistent.shape item member (Bool.eq_false_iff.mpr live.2)
      start := by
        intro other member
        rw [shownRels] at member ⊢
        exact consistent.start other (List.mem_of_mem_filter member)
      stop := by
        intro other member
        rw [shownRels] at member ⊢
        exact consistent.stop other (List.mem_of_mem_filter member) }

theorem Consistent.deleteNode (consistent : graph.Consistent base) {id : EntityId}
    (held : graph.Held id)
    (apart : ∀ rel ∈ (graph.shown base).rels, rel.start ≠ id ∧ rel.stop ≠ id) :
    (graph.deleteNode id).Consistent base := {
  consistent with
  deletedNodes := by
    intro number after bound
    rw [Bool.eq_false_iff, ne_eq, nodeDeleted, MutableGraph.deleteNode, isSome_get_put, not_or]
    refine ⟨Ne.symm (held number after bound), ?_⟩
    exact Bool.eq_false_iff.mp (consistent.deletedNodes number after bound)
  start := by
    intro rel member
    rw [shown_deleteNode consistent] at member ⊢
    obtain ⟨node, isNode, isStart⟩ := List.mem_map.mp (consistent.start rel member)
    refine List.mem_map.mpr ⟨node, List.mem_filter.mpr ⟨isNode, ?_⟩, isStart⟩
    rw [isStart]
    simpa using (apart rel member).1
  stop := by
    intro rel member
    rw [shown_deleteNode consistent] at member ⊢
    obtain ⟨node, isNode, isStop⟩ := List.mem_map.mp (consistent.stop rel member)
    refine List.mem_map.mpr ⟨node, List.mem_filter.mpr ⟨isNode, ?_⟩, isStop⟩
    rw [isStop]
    simpa using (apart rel member).2 }

/-- What is shown was there before or was created. -/
theorem Consistent.held_rel (consistent : graph.Consistent base) (stored : base.Stored)
    {rel : RelValue} (member : rel ∈ (graph.shown base).rels) : graph.Held rel.id := by
  obtain ⟨item, isItem, -, rfl⟩ := mem_view.mp member
  rw [key_current consistent.relProper]
  intro number after bound same
  rcases List.mem_append.mp isItem with inBase | created
  · have plain := stored.storedRels item inBase
    rw [same, isOverlay_overlayId] at plain
    cases plain
  · obtain ⟨earlier, below, isNumber⟩ := consistent.createdRels item created
    have less := Nat.lt_of_lt_of_le below after
    exact absurd (overlayId_inj (less.trans bound) bound (isNumber.symm.trans same))
      (Nat.ne_of_lt less)

theorem deleteRels_spec (rels : List RelValue) {graph : MutableGraph}
    (consistent : graph.Consistent base) (held : ∀ rel ∈ rels, graph.Held rel.id) :
    (rels.foldl deleteRel graph).Consistent base ∧
      (rels.foldl deleteRel graph).nextId = graph.nextId ∧
      (rels.foldl deleteRel graph).shown base = ⟨(graph.shown base).nodes,
        (graph.shown base).rels.filter fun rel => rel.id ∉ rels.map RelValue.id⟩ := by
  induction rels generalizing graph with
  | nil =>
      refine ⟨consistent, rfl, ?_⟩
      simp
  | cons rel rels induction =>
      have sameNext : (graph.deleteRel rel).nextId = graph.nextId := by
        rw [deleteRel]
        split
        · rfl
        · rfl
      have next := consistent.deleteRel (held rel List.mem_cons_self)
      have later : ∀ other ∈ rels, (graph.deleteRel rel).Held other.id := by
        intro other member
        rw [Held, sameNext]
        exact held other (List.mem_cons_of_mem _ member)
      obtain ⟨ends, counter, result⟩ := induction next later
      refine ⟨ends, counter.trans sameNext, result.trans ?_⟩
      rw [shown_deleteRel consistent, PropertyGraph.dropRel, dropAt, List.filter_filter]
      congr 1
      apply List.filter_congr
      intro other _
      rw [Bool.eq_iff_iff]
      simp only [decide_eq_true_eq, Bool.and_eq_true, ne_eq, List.map_cons, List.mem_cons, not_or]
      exact and_comm

end MutableGraph

namespace PropertyGraph

variable {graph : PropertyGraph}

theorem mem_expand_undirected (wellFormed : graph.WellFormed) {id : EntityId} {rel : RelValue} :
    rel ∈ (graph.expand id .undirected []).map Prod.fst ↔
      rel ∈ graph.rels ∧ (rel.start = id ∨ rel.stop = id) := by
  rw [expand, expandOver, List.map_filterMap, List.mem_filterMap]
  have lookup : ∀ other, other ∈ graph.nodes.map NodeValue.id → ∃ node, graph.node other =
      some node := fun other member => Option.isSome_iff_exists.mp (isSome_findAt.mpr member)
  constructor
  · rintro ⟨found, member, isRel⟩
    cases end_ : Direction.undirected.neighbour found id with
    | none => simp [end_] at isRel
    | some other =>
        obtain ⟨pair, isPair, rfl⟩ := Option.map_eq_some_iff.mp isRel
        simp only [typeAdmits, List.isEmpty_nil, Bool.true_or, if_pos] at isPair
        obtain ⟨node, -, rfl⟩ := Option.map_eq_some_iff.mp isPair
        refine ⟨member, ?_⟩
        rcases neighbour_eq_some end_ with ⟨isStart, -⟩ | ⟨isStop, -⟩
        · exact .inl isStart
        · exact .inr isStop
  · rintro ⟨member, incident⟩
    refine ⟨rel, member, ?_⟩
    by_cases isStart : rel.start = id
    · obtain ⟨node, isNode⟩ := lookup rel.stop (wellFormed.stop rel member)
      simp [typeAdmits, Direction.neighbour, isStart, isNode]
    · obtain ⟨node, isNode⟩ := lookup rel.start (wellFormed.start rel member)
      have isStop : rel.stop = id := incident.resolve_left isStart
      simp [typeAdmits, Direction.neighbour, isStart, isStop, isNode]

end PropertyGraph

namespace MutableGraph

variable {base : PropertyGraph} {graph : MutableGraph}

theorem mem_incident (stored : base.Stored) (consistent : graph.Consistent base) {id : EntityId}
    {rel : RelValue} : rel ∈ (graph.expand id .undirected []).map Prod.fst ↔
      rel ∈ (graph.shown base).rels ∧ (rel.start = id ∨ rel.stop = id) := by
  rw [((expand_shown stored.toWellFormed consistent id .undirected []).map Prod.fst).mem_iff]
  exact PropertyGraph.mem_expand_undirected consistent.wellFormed

theorem apart_of_not_hasIncidentRels (stored : base.Stored) (consistent : graph.Consistent base)
    {id : EntityId} (free : graph.hasIncidentRels id = false) :
    ∀ rel ∈ (graph.shown base).rels, rel.start ≠ id ∧ rel.stop ≠ id := by
  intro rel member
  have isEmpty : graph.expand id .undirected [] = [] := by
    simpa [hasIncidentRels] using free
  have notIncident : ¬ (rel.start = id ∨ rel.stop = id) := by
    intro incident
    have inside := (mem_incident stored consistent).mpr ⟨member, incident⟩
    rw [isEmpty] at inside
    cases inside
  exact not_or.mp notIncident

theorem detachDeleteNode_spec (stored : base.Stored) (consistent : graph.Consistent base)
    {id : EntityId} (held : graph.Held id) :
    (graph.detachDeleteNode id).Consistent base ∧
      (graph.detachDeleteNode id).shown base = ((graph.shown base).detach id).dropNode id := by
  have incident : ∀ rel ∈ (graph.expand id .undirected []).map Prod.fst,
      graph.Held rel.id := by
    intro rel member
    exact consistent.held_rel stored ((mem_incident stored consistent).mp member).1
  obtain ⟨detached, counter, shownRels⟩ := deleteRels_spec _ consistent incident
  have isDetached : (((graph.expand id .undirected []).map Prod.fst).foldl deleteRel graph).shown
      base = (graph.shown base).detach id := by
    rw [shownRels, PropertyGraph.detach]
    congr 1
    apply List.filter_congr
    intro rel member
    have byId : rel.id ∈ ((graph.expand id .undirected []).map Prod.fst).map RelValue.id ↔
        rel.start = id ∨ rel.stop = id := by
      rw [List.mem_map]
      constructor
      · rintro ⟨other, isOther, same⟩
        obtain ⟨otherShown, ends⟩ := (mem_incident stored consistent).mp isOther
        rw [eq_of_key consistent.wellFormed.relIds otherShown member same] at ends
        exact ends
      · intro ends
        exact ⟨rel, (mem_incident stored consistent).mpr ⟨member, ends⟩, rfl⟩
    rw [decide_eq_decide, byId, not_or]
  have heldAfter : (((graph.expand id .undirected []).map Prod.fst).foldl deleteRel graph).Held
      id := by
    rw [Held, counter]
    exact held
  constructor
  · apply detached.deleteNode heldAfter
    intro rel member
    rw [isDetached] at member
    simpa using (List.mem_filter.mp member).2
  · rw [detachDeleteNode, shown_deleteNode detached, isDetached]

end MutableGraph

namespace PropertyGraph

variable {graph : PropertyGraph}

theorem changeNode_of_found (wellFormed : graph.WellFormed) {id : EntityId} {node : NodeValue}
    (found : graph.node id = some node) (change : NodeValue → NodeValue) :
    graph.changeNode id change = graph.changeNode id fun _ => change node :=
  congrArg (PropertyGraph.mk · graph.rels) (updateAt_of_found wellFormed.nodeIds found)

theorem changeNode_of_absent {id : EntityId} (absent : graph.node id = none)
    (change : NodeValue → NodeValue) : graph.changeNode id change = graph :=
  congrArg (PropertyGraph.mk · graph.rels) (updateAt_of_absent absent)

theorem changeRel_of_found (wellFormed : graph.WellFormed) {id : EntityId} {rel : RelValue}
    (found : findAt RelValue.id id graph.rels = some rel) (change : RelValue → RelValue) :
    graph.changeRel id change = graph.changeRel id fun _ => change rel :=
  congrArg (PropertyGraph.mk graph.nodes) (updateAt_of_found wellFormed.relIds found)

theorem changeRel_of_absent {id : EntityId} (absent : findAt RelValue.id id graph.rels = none)
    (change : RelValue → RelValue) : graph.changeRel id change = graph :=
  congrArg (PropertyGraph.mk graph.nodes) (updateAt_of_absent absent)

theorem changeNode_trivial (wellFormed : graph.WellFormed) {id : EntityId} {node : NodeValue}
    (found : graph.node id = some node) {change : NodeValue → NodeValue}
    (same : change node = node) : graph.changeNode id change = graph := by
  rw [changeNode_of_found wellFormed found, same]
  exact congrArg (PropertyGraph.mk · graph.rels) (updateAt_self wellFormed.nodeIds found)

end PropertyGraph

namespace MutableGraph

variable {base : PropertyGraph} {graph : MutableGraph}

theorem changeNode_spec (consistent : graph.Consistent base) (id : EntityId)
    {change : NodeValue → NodeValue} (keeps : ∀ node, (change node).id = node.id) :
    (graph.changeNode id change).2.Consistent base ∧
      (graph.changeNode id change).2.shown base = (graph.shown base).changeNode id change := by
  rw [changeNode, currentNode_shown consistent]
  cases found : (graph.shown base).node id with
  | none =>
      exact ⟨consistent, (PropertyGraph.changeNode_of_absent found change).symm⟩
  | some node =>
      obtain ⟨member, isId⟩ := findAt_some found
      have changedId : (change node).id = id := (keeps node).trans isId
      have known : (change node).id ∈ (base.nodes ++ graph.createdNodes).map NodeValue.id := by
        obtain ⟨item, isItem, -, rfl⟩ := mem_view.mp member
        rw [keeps, key_current consistent.nodeProper]
        exact List.mem_map_of_mem isItem
      refine ⟨consistent.storeNode known, ?_⟩
      rw [shown_storeNode consistent, changedId,
        PropertyGraph.changeNode_of_found consistent.wellFormed found change]

theorem addNodeLabel_spec (consistent : graph.Consistent base) (id : EntityId) (label : String) :
    (graph.addNodeLabel id label).2.Consistent base ∧
      (graph.addNodeLabel id label).2.shown base =
        (graph.shown base).changeNode id fun node =>
          if label ∈ node.labels then node else { node with labels := node.labels ++ [label] } := by
  have adding := @changeNode_spec base graph consistent id
    (fun node => { node with labels := node.labels ++ [label] }) fun _ => rfl
  rw [addNodeLabel]
  cases found : graph.currentNode id with
  | none =>
      rw [currentNode_shown consistent] at found
      exact ⟨consistent, (PropertyGraph.changeNode_of_absent found _).symm⟩
  | some node =>
      have isShown := found
      rw [currentNode_shown consistent] at isShown
      by_cases has : label ∈ node.labels
      · simp only [if_pos has]
        refine ⟨consistent, Eq.symm ?_⟩
        apply PropertyGraph.changeNode_trivial consistent.wellFormed isShown
        exact if_pos has
      · simp only [if_neg has]
        refine ⟨adding.1, adding.2.trans ?_⟩
        rw [PropertyGraph.changeNode_of_found consistent.wellFormed isShown,
          PropertyGraph.changeNode_of_found consistent.wellFormed isShown fun node => ite _ _ _,
          if_neg has]

theorem removeNodeLabel_spec (consistent : graph.Consistent base) (id : EntityId)
    (label : String) :
    (graph.removeNodeLabel id label).2.Consistent base ∧
      (graph.removeNodeLabel id label).2.shown base =
        (graph.shown base).changeNode id fun node =>
          { node with labels := node.labels.erase label } := by
  rw [removeNodeLabel]
  cases found : graph.currentNode id with
  | none =>
      rw [currentNode_shown consistent] at found
      exact ⟨consistent, (PropertyGraph.changeNode_of_absent found _).symm⟩
  | some node =>
      by_cases has : label ∈ node.labels
      · simp only [if_pos has]
        exact changeNode_spec consistent id fun _ => rfl
      · simp only [if_neg has]
        rw [currentNode_shown consistent] at found
        refine ⟨consistent, Eq.symm ?_⟩
        apply PropertyGraph.changeNode_trivial consistent.wellFormed found
        rw [List.erase_of_not_mem has]

/-- A relationship value the overlay can trust: it is deleted, changed or
created by the statement, or the base holds this value. -/
def Known (base : PropertyGraph) (graph : MutableGraph) (held : RelValue) : Prop :=
  graph.relDeleted held.id = true ∨ (graph.relOverrides.get held.id).isSome ∨
    held.id ∈ graph.createdRels.map RelValue.id ∨ held ∈ base.rels

theorem currentRel_of_known (consistent : graph.Consistent base) {held : RelValue}
    (known : graph.Known base held) (live : graph.relDeleted held.id = false) :
    ∃ item ∈ base.rels ++ graph.createdRels, item.id = held.id ∧
      graph.currentRel held = graph.overlayRel item := by
  have fromItem : ∀ item ∈ base.rels ++ graph.createdRels, item.id = held.id →
      graph.relOverrides.get held.id = none → ∀ found,
      found = item → found = graph.overlayRel item := by
    intro item _ same plain found isFound
    rw [overlayRel, current, same, plain, Option.getD_none, isFound]
  cases override : graph.relOverrides.get held.id with
  | some changed =>
      have isIn := (consistent.relKnown held.id (by rw [override]; exact Option.some_ne_none _))
      rw [live] at isIn
      obtain ⟨item, isItem, same⟩ := List.mem_map.mp (isIn.resolve_left Bool.false_ne_true)
      refine ⟨item, isItem, same, ?_⟩
      rw [currentRel, overlayRel, current, same, override, Option.some_or, Option.getD_some,
        Option.getD_some]
  | none =>
      cases created : findAt RelValue.id held.id graph.createdRels with
      | some item =>
          obtain ⟨member, same⟩ := findAt_some created
          have isItem : item ∈ base.rels ++ graph.createdRels := List.mem_append_right _ member
          refine ⟨item, isItem, same, ?_⟩
          apply fromItem item isItem same override
          rw [currentRel, override, created, Option.none_or, Option.getD_some]
      | none =>
          have inBase : held ∈ base.rels := by
            rcases known with gone | changed | isCreated | inBase
            · rw [live] at gone
              cases gone
            · rw [override] at changed
              cases changed
            · exact absurd isCreated (findAt_eq_none.mp created)
            · exact inBase
          have isItem : held ∈ base.rels ++ graph.createdRels := List.mem_append_left _ inBase
          refine ⟨held, isItem, rfl, ?_⟩
          apply fromItem held isItem rfl override
          rw [currentRel, override, created, Option.none_or, Option.getD_none]

theorem id_currentRel (consistent : graph.Consistent base) (held : RelValue) :
    (graph.currentRel held).id = held.id := by
  rw [currentRel]
  cases override : graph.relOverrides.get held.id with
  | some changed => exact consistent.relProper _ changed override
  | none =>
      cases created : findAt RelValue.id held.id graph.createdRels with
      | some item => exact (findAt_some created).2
      | none => rfl

theorem changeRel_spec (consistent : graph.Consistent base) {held : RelValue}
    (known : graph.Known base held) {change : RelValue → RelValue}
    (keeps : ∀ rel, (change rel).SameShape rel) :
    (graph.changeRel held change).2.Consistent base ∧
      (graph.changeRel held change).2.shown base =
        (graph.shown base).changeRel held.id change := by
  have isId : (change (graph.currentRel held)).id = held.id :=
    (keeps _).id.trans (id_currentRel consistent held)
  have lookup : findAt RelValue.id held.id (graph.shown base).rels =
      if graph.relDeleted held.id then none
      else (findAt RelValue.id held.id (base.rels ++ graph.createdRels)).map
        (current RelValue.id graph.relOverrides) :=
    findAt_view consistent.relProper consistent.relIds held.id
  rw [changeRel]
  cases live : graph.relDeleted held.id with
  | true =>
      have fits : graph.Fits base (change (graph.currentRel held)) := .inl (by rw [isId, live])
      refine ⟨consistent.storeRel fits, ?_⟩
      have absent : findAt RelValue.id held.id (graph.shown base).rels = none := by
        rw [live] at lookup
        exact lookup
      rw [shown_storeRel consistent, isId, PropertyGraph.changeRel_of_absent absent,
        PropertyGraph.changeRel_of_absent absent]
  | false =>
      obtain ⟨item, isItem, same, isCurrent⟩ := currentRel_of_known consistent known live
      have shape : (change (graph.currentRel held)).SameShape item := by
        refine (keeps _).trans ?_
        rw [isCurrent]
        exact consistent.shape item isItem (same ▸ live)
      refine ⟨consistent.storeRel (.inr ⟨item, isItem, shape⟩), ?_⟩
      have found : findAt RelValue.id held.id (graph.shown base).rels =
          some (graph.currentRel held) := by
        rw [live, (findAt_eq_some consistent.relIds).mpr ⟨isItem, same⟩] at lookup
        rw [isCurrent]
        exact lookup
      rw [shown_storeRel consistent, isId,
        PropertyGraph.changeRel_of_found consistent.wellFormed found change]

/-- What a query respects when it performs a mutation.  Relationships join live
nodes, nodes are deleted alone only when nothing is incident to them, and the
ids deleted were read; a vector holds fewer than `2 ^ 64` entries. -/
def Performable (graph : MutableGraph) : Mutation → Prop
  | .createNode _ _ => graph.nextId < 2 ^ 64
  | .createRel start _ stop _ =>
      graph.nextId < 2 ^ 64 ∧ (graph.currentNode start).isSome ∧ (graph.currentNode stop).isSome
  | .deleteRel rel => graph.Held rel.id
  | .deleteNode id => graph.Held id ∧ graph.hasIncidentRels id = false
  | .detachDeleteNode id => graph.Held id
  | _ => True

/-- A relationship is set through a value the overlay can trust. -/
def Trusted (base : PropertyGraph) (graph : MutableGraph) : Mutation → Prop
  | .setRelProperty held _ _ => graph.Known base held
  | .setRelProperties held _ _ => graph.Known base held
  | _ => True

/-- One mutation changes what the overlay shows as it changes a plain graph. -/
theorem perform_spec (stored : base.Stored) (consistent : graph.Consistent base)
    {mutation : Mutation} (performable : graph.Performable mutation)
    (trusted : graph.Trusted base mutation) :
    (graph.perform mutation).Consistent base ∧ (graph.perform mutation).shown base =
      (graph.shown base).perform (overlayId graph.nextId) mutation := by
  cases mutation with
  | createNode labels properties =>
      exact ⟨consistent.createNode stored performable labels properties,
        shown_createNode consistent stored performable labels properties⟩
  | createRel start relType stop properties =>
      obtain ⟨room, liveStart, liveStop⟩ := performable
      rw [currentNode_shown consistent] at liveStart liveStop
      exact ⟨consistent.createRel stored room (isSome_findAt.mp liveStart)
        (isSome_findAt.mp liveStop) relType properties,
        shown_createRel consistent stored room start relType stop properties⟩
  | setNodeProperty id key value => exact changeNode_spec consistent id fun _ => rfl
  | setNodeProperties id properties merge => exact changeNode_spec consistent id fun _ => rfl
  | addNodeLabel id label => exact addNodeLabel_spec consistent id label
  | removeNodeLabel id label => exact removeNodeLabel_spec consistent id label
  | setRelProperty held key value =>
      exact changeRel_spec consistent trusted fun _ => ⟨rfl, rfl, rfl, rfl⟩
  | setRelProperties held properties merge =>
      exact changeRel_spec consistent trusted fun _ => ⟨rfl, rfl, rfl, rfl⟩
  | deleteRel rel => exact ⟨consistent.deleteRel performable, shown_deleteRel consistent rel⟩
  | deleteNode id =>
      have apart := apart_of_not_hasIncidentRels stored consistent performable.2
      exact ⟨consistent.deleteNode performable.1 apart, shown_deleteNode consistent id⟩
  | detachDeleteNode id => exact detachDeleteNode_spec stored consistent performable

end MutableGraph

end Acetone.Cypher

import Acetone.Cypher.OverlayChanges
import Acetone.Cypher.WriteBack
import Acetone.Graph.Saves

/-!
# What SET and REMOVE change

A statement sets and removes properties of entities it bound, and may create and
delete others.  After it is persisted, a record of the workspace differs from
before only in the properties named, and what was absent is there only if it was
created; provided a relationship was set through the value that the workspace
holds.
-/

namespace Acetone.Cypher

open Acetone.Lib Acetone.Model Acetone.Lib.KeyedView
open Acetone.Graph (Transaction Manifest Workspace)

def storeNode (catalogue : Catalogue) (manifest : Manifest) (id : EntityId) : Option NodeValue :=
  match NodeKey.decode id with
  | .error _ => none
  | .ok key => (manifest.nodes.get (Adapter.nodeEntityId key)).map (Adapter.nodeValue catalogue key)

def storeRel (catalogue : Catalogue) (manifest : Manifest) (id : EntityId) : Option RelValue :=
  match EdgeKey.decodeFwd id with
  | .error _ => none
  | .ok edge => (manifest.edgesFwd.get id).map (Adapter.relValue catalogue edge)

theorem storeNode_eq_some {catalogue : Catalogue} {manifest : Manifest} {id : EntityId}
    {node : NodeValue} : storeNode catalogue manifest id = some node ↔
      ∃ key record, NodeKey.decode id = .ok key ∧ manifest.nodes.get id = some record ∧
        Adapter.nodeValue catalogue key record = node := by
  rw [storeNode]
  cases decoded : NodeKey.decode id with
  | error cause => simp
  | ok key => simp [Adapter.nodeEntityId_of_decode decoded]

theorem storeRel_eq_some {catalogue : Catalogue} {manifest : Manifest} {id : EntityId}
    {rel : RelValue} : storeRel catalogue manifest id = some rel ↔
      ∃ edge record, EdgeKey.decodeFwd id = .ok edge ∧ manifest.edgesFwd.get id = some record ∧
        Adapter.relValue catalogue edge record = rel := by
  rw [storeRel]
  cases decoded : EdgeKey.decodeFwd id with
  | error cause => simp
  | ok edge => simp

namespace Mutation

def namesNode (mutation : Mutation) (id : EntityId) (name : String) : Prop :=
  match mutation with
  | .setNodeProperty target key _ => target = id ∧ key = name
  | .setNodeProperties target properties merge =>
      target = id ∧ (merge = false ∨ properties.get name ≠ none)
  | _ => False

def namesRel (mutation : Mutation) (id : EntityId) (name : String) : Prop :=
  match mutation with
  | .setRelProperty held key _ => held.id = id ∧ key = name
  | .setRelProperties held properties merge =>
      held.id = id ∧ (merge = false ∨ properties.get name ≠ none)
  | _ => False

def relabels (mutation : Mutation) (id : EntityId) : Prop :=
  match mutation with
  | .addNodeLabel target _ => target = id
  | .removeNodeLabel target _ => target = id
  | _ => False

def touchesNode (mutation : Mutation) (id : EntityId) : Prop :=
  match mutation with
  | .setNodeProperty target _ _ => target = id
  | .setNodeProperties target _ _ => target = id
  | .addNodeLabel target _ => target = id
  | .removeNodeLabel target _ => target = id
  | _ => False

def touchesRel (mutation : Mutation) (id : EntityId) : Prop :=
  match mutation with
  | .setRelProperty held _ _ => held.id = id
  | .setRelProperties held _ _ => held.id = id
  | _ => False

end Mutation

theorem get_setProperty {properties : PropertyMap} {key name : String} {value : Option Value}
    (other : key ≠ name) : (setProperty properties key value).get name = properties.get name := by
  cases value with
  | none => exact (SortedMap.get_delete ..).trans (if_neg other)
  | some value => exact (SortedMap.get_put ..).trans (if_neg other)

private theorem get_setEntries {name : String} (entries : List (String × Value))
    (others : ∀ entry ∈ entries, entry.1 ≠ name) (properties : PropertyMap) :
    (entries.foldl (fun properties entry =>
      match entry.2 with
      | .null => properties.delete entry.1
      | value => properties.put entry.1 value) properties).get name = properties.get name := by
  induction entries generalizing properties with
  | nil => rfl
  | cons entry entries induction =>
      rw [List.foldl_cons, induction fun later member => others later (List.mem_cons_of_mem _ member)]
      have other := others entry List.mem_cons_self
      split
      · exact (SortedMap.get_delete ..).trans (if_neg other)
      · exact (SortedMap.get_put ..).trans (if_neg other)

theorem get_setProperties {properties written : PropertyMap} {name : String}
    (other : written.get name = none) :
    (setProperties properties written true).get name = properties.get name := by
  apply get_setEntries
  intro entry member isName
  exact SortedMap.get_ne_none_of_mem member (isName ▸ other)

/-- A node differs from its origin only in what the mutations name. -/
structure NodeFrame (mutations : List Mutation) (id : EntityId) (origin node : NodeValue) :
    Prop where
  properties : ∀ name, (∀ mutation ∈ mutations, ¬ mutation.namesNode id name) →
    node.properties.get name = origin.properties.get name
  labels : (∀ mutation ∈ mutations, ¬ mutation.relabels id) → node.labels = origin.labels

def RelFrame (mutations : List Mutation) (id : EntityId) (origin rel : RelValue) : Prop :=
  ∀ name, (∀ mutation ∈ mutations, ¬ mutation.namesRel id name) →
    rel.properties.get name = origin.properties.get name

theorem NodeFrame.refl (mutations : List Mutation) (id : EntityId) (node : NodeValue) :
    NodeFrame mutations id node node := ⟨fun _ _ => rfl, fun _ => rfl⟩

theorem NodeFrame.change {mutations : List Mutation} {mutation : Mutation} {id : EntityId}
    {origin node : NodeValue} (frame : NodeFrame mutations id origin node)
    {change : NodeValue → NodeValue}
    (properties : ∀ name, ¬ mutation.namesNode id name →
      (change node).properties.get name = node.properties.get name)
    (labels : ¬ mutation.relabels id → (change node).labels = node.labels) :
    NodeFrame (mutations ++ [mutation]) id origin (change node) where
  properties := by
    intro name unnamed
    rw [properties name (unnamed mutation (by simp))]
    exact frame.properties name fun earlier member => unnamed earlier (by simp [member])
  labels := by
    intro unnamed
    rw [labels (unnamed mutation (by simp))]
    exact frame.labels fun earlier member => unnamed earlier (by simp [member])

theorem NodeFrame.later {mutations : List Mutation} {id : EntityId} {origin node : NodeValue}
    (frame : NodeFrame mutations id origin node) (mutation : Mutation) :
    NodeFrame (mutations ++ [mutation]) id origin node :=
  @NodeFrame.change _ mutation _ _ _ frame (fun node => node) (fun _ _ => rfl) fun _ => rfl

theorem RelFrame.change {mutations : List Mutation} {mutation : Mutation} {id : EntityId}
    {origin rel : RelValue} (frame : RelFrame mutations id origin rel)
    {change : RelValue → RelValue}
    (properties : ∀ name, ¬ mutation.namesRel id name →
      (change rel).properties.get name = rel.properties.get name) :
    RelFrame (mutations ++ [mutation]) id origin (change rel) := by
  intro name unnamed
  rw [properties name (unnamed mutation (by simp))]
  exact frame name fun earlier member => unnamed earlier (by simp [member])

theorem RelFrame.later {mutations : List Mutation} {id : EntityId} {origin rel : RelValue}
    (frame : RelFrame mutations id origin rel) (mutation : Mutation) :
    RelFrame (mutations ++ [mutation]) id origin rel :=
  @RelFrame.change _ mutation _ _ _ frame (fun rel => rel) fun _ _ => rfl

section

variable (catalogue : Catalogue) (manifest : Manifest)

/-- Where an entity with an id may come from: this statement, or a store. -/
def ReadId (graph : MutableGraph) (id : EntityId) : Prop :=
  id ∈ graph.createdRels.map RelValue.id ∨ ∃ edge, EdgeKey.decodeFwd id = .ok edge

/-- Deleted relationships were read. -/
def Addressed (graph : MutableGraph) : Mutation → Prop
  | .deleteRel rel => ReadId graph rel.id
  | .detachDeleteNode id => ∀ pair ∈ graph.expand id .undirected [], ReadId graph pair.1.id
  | _ => True

/-- A relationship value that the statement deleted, changed or created, or that
the workspace holds. -/
def Own (graph : MutableGraph) (held : RelValue) : Prop :=
  graph.relDeleted held.id = true ∨ (graph.relOverrides.get held.id).isSome ∨
    held.id ∈ graph.createdRels.map RelValue.id ∨
    storeRel catalogue manifest held.id = some held

/-- A relationship is set through a value of the workspace. -/
def SetsOwn (graph : MutableGraph) : Mutation → Prop
  | .setRelProperty held _ _ => Own catalogue manifest graph held
  | .setRelProperties held _ _ => Own catalogue manifest graph held
  | _ => True

/-- A statement over a workspace: its mutations so far, and the overlay. -/
inductive Trace (allowed : MutableGraph → Mutation → Prop) (source : GraphSource) :
    List Mutation → MutableGraph → Prop where
  | start : Trace allowed source [] (.new source)
  | step {mutations : List Mutation} {graph : MutableGraph} {mutation : Mutation} :
      Trace allowed source mutations graph → allowed graph mutation →
      Trace allowed source (mutations ++ [mutation]) (graph.perform mutation)

/-- What the tables hold after some mutations of a workspace. -/
structure Traced (mutations : List Mutation) (graph : MutableGraph) : Prop where
  createdNodes : ∀ node ∈ graph.createdNodes, isOverlay node.id = true
  createdRels : ∀ rel ∈ graph.createdRels, isOverlay rel.id = true
  nodes : ∀ id node, graph.nodeOverrides.get id = some node → node.id = id ∧
    (∃ mutation ∈ mutations, mutation.touchesNode id) ∧
    (id ∈ graph.createdNodes.map NodeValue.id ∨ ∃ origin,
      storeNode catalogue manifest id = some origin ∧ NodeFrame mutations id origin node)
  rels : ∀ id rel, graph.relOverrides.get id = some rel → rel.id = id ∧
    (∃ mutation ∈ mutations, mutation.touchesRel id) ∧
    (graph.relDeleted id = true ∨ id ∈ graph.createdRels.map RelValue.id ∨ ∃ origin,
      storeRel catalogue manifest id = some origin ∧ RelFrame mutations id origin rel)
  deleted : ∀ id rel, graph.deletedRels.get id = some rel → rel.id = id ∧ ReadId graph id

end

namespace Traced

variable {catalogue : Catalogue} {manifest : Manifest} {mutations : List Mutation}
  {graph : MutableGraph}

private theorem touched_later {touches : Mutation → Prop}
    (touched : ∃ mutation ∈ mutations, touches mutation) (last : Mutation) :
    ∃ mutation ∈ mutations ++ [last], touches mutation := by
  obtain ⟨mutation, member, touches⟩ := touched
  exact ⟨mutation, List.mem_append_left _ member, touches⟩

theorem later (traced : Traced catalogue manifest mutations graph) (mutation : Mutation) :
    Traced catalogue manifest (mutations ++ [mutation]) graph where
  createdNodes := traced.createdNodes
  createdRels := traced.createdRels
  nodes := by
    intro id node found
    obtain ⟨isId, touched, created | ⟨origin, stored, frame⟩⟩ := traced.nodes id node found
    · exact ⟨isId, touched_later touched mutation, .inl created⟩
    · exact ⟨isId, touched_later touched mutation, .inr ⟨origin, stored, frame.later mutation⟩⟩
  rels := by
    intro id rel found
    obtain ⟨isId, touched, gone | created | ⟨origin, stored, frame⟩⟩ := traced.rels id rel found
    · exact ⟨isId, touched_later touched mutation, .inl gone⟩
    · exact ⟨isId, touched_later touched mutation, .inr (.inl created)⟩
    · exact ⟨isId, touched_later touched mutation,
        .inr (.inr ⟨origin, stored, frame.later mutation⟩)⟩
  deleted := traced.deleted

theorem storeNode {node : NodeValue} (traced : Traced catalogue manifest mutations graph)
    (touched : ∃ mutation ∈ mutations, mutation.touchesNode node.id)
    (origin : node.id ∈ graph.createdNodes.map NodeValue.id ∨ ∃ origin,
      storeNode catalogue manifest node.id = some origin ∧
        NodeFrame mutations node.id origin node) :
    Traced catalogue manifest mutations (graph.storeNode node) where
  createdNodes := traced.createdNodes
  createdRels := traced.createdRels
  nodes := by
    intro id other found
    rw [MutableGraph.storeNode, SortedMap.get_put] at found
    split at found
    · next same =>
        cases found
        subst same
        exact ⟨rfl, touched, origin⟩
    · exact traced.nodes id other found
  rels := traced.rels
  deleted := traced.deleted

theorem storeRel {rel : RelValue} (traced : Traced catalogue manifest mutations graph)
    (touched : ∃ mutation ∈ mutations, mutation.touchesRel rel.id)
    (origin : graph.relDeleted rel.id = true ∨ rel.id ∈ graph.createdRels.map RelValue.id ∨
      ∃ origin, storeRel catalogue manifest rel.id = some origin ∧
        RelFrame mutations rel.id origin rel) :
    Traced catalogue manifest mutations (graph.storeRel rel) where
  createdNodes := traced.createdNodes
  createdRels := traced.createdRels
  nodes := traced.nodes
  rels := by
    intro id other found
    rw [MutableGraph.storeRel, SortedMap.get_put] at found
    split at found
    · next same =>
        cases found
        subst same
        exact ⟨rfl, touched, origin⟩
    · exact traced.rels id other found
  deleted := traced.deleted

theorem currentNode (traced : Traced catalogue manifest mutations graph)
    (reads : ∀ id, graph.base.node id = Cypher.storeNode catalogue manifest id) {id : EntityId}
    {node : NodeValue} (found : graph.currentNode id = some node) : node.id = id ∧
      (id ∈ graph.createdNodes.map NodeValue.id ∨ ∃ origin,
        Cypher.storeNode catalogue manifest id = some origin ∧
          NodeFrame mutations id origin node) := by
  rw [MutableGraph.currentNode] at found
  split at found
  · cases found
  · cases override : graph.nodeOverrides.get id with
    | some changed =>
        rw [override, Option.some_or] at found
        cases found
        obtain ⟨isId, -, origin⟩ := traced.nodes id node override
        exact ⟨isId, origin⟩
    | none =>
        rw [override, Option.none_or] at found
        cases created : findAt NodeValue.id id graph.createdNodes with
        | some made =>
            rw [created, Option.some_or] at found
            cases found
            obtain ⟨member, isId⟩ := findAt_some created
            exact ⟨isId, .inl (List.mem_map.mpr ⟨node, member, isId⟩)⟩
        | none =>
            rw [created, Option.none_or, reads] at found
            obtain ⟨key, record, decoded, -, isNode⟩ := storeNode_eq_some.mp found
            have isId : node.id = id := by
              rw [← isNode]
              exact Adapter.nodeEntityId_of_decode decoded
            exact ⟨isId, .inr ⟨node, found, .refl mutations id node⟩⟩

theorem changeNode (traced : Traced catalogue manifest mutations graph)
    (reads : ∀ id, graph.base.node id = Cypher.storeNode catalogue manifest id) {id : EntityId}
    {mutation : Mutation} (touches : mutation.touchesNode id) {change : NodeValue → NodeValue}
    (sameId : ∀ node, (change node).id = node.id)
    (properties : ∀ node name, ¬ mutation.namesNode id name →
      (change node).properties.get name = node.properties.get name)
    (labels : ∀ node, ¬ mutation.relabels id → (change node).labels = node.labels) :
    Traced catalogue manifest (mutations ++ [mutation]) (graph.changeNode id change).2 := by
  rw [MutableGraph.changeNode]
  cases found : graph.currentNode id with
  | none => exact traced.later mutation
  | some node =>
      obtain ⟨isId, origin⟩ := traced.currentNode reads found
      have changedId : (change node).id = id := (sameId node).trans isId
      apply (traced.later mutation).storeNode
      · rw [changedId]
        exact ⟨mutation, by simp, touches⟩
      · rw [changedId]
        rcases origin with created | ⟨origin, stored, frame⟩
        · exact .inl created
        · exact .inr ⟨origin, stored, frame.change (properties node) (labels node)⟩

theorem currentRel (traced : Traced catalogue manifest mutations graph) {held : RelValue}
    (own : Own catalogue manifest graph held) :
    (graph.currentRel held).id = held.id ∧
      (graph.relDeleted held.id = true ∨ held.id ∈ graph.createdRels.map RelValue.id ∨
        ∃ origin, Cypher.storeRel catalogue manifest held.id = some origin ∧
          RelFrame mutations held.id origin (graph.currentRel held)) := by
  rw [MutableGraph.currentRel]
  cases override : graph.relOverrides.get held.id with
  | some changed =>
      rw [Option.some_or, Option.getD_some]
      obtain ⟨isId, -, origin⟩ := traced.rels _ changed override
      exact ⟨isId, origin⟩
  | none =>
      cases created : findAt RelValue.id held.id graph.createdRels with
      | some made =>
          rw [Option.none_or, Option.getD_some]
          obtain ⟨member, isId⟩ := findAt_some created
          exact ⟨isId, .inr (.inl (List.mem_map.mpr ⟨made, member, isId⟩))⟩
      | none =>
          rw [Option.none_or, Option.getD_none]
          refine ⟨rfl, ?_⟩
          rcases own with gone | changed | isCreated | stored
          · exact .inl gone
          · rw [override] at changed
            cases changed
          · exact .inr (.inl isCreated)
          · exact .inr (.inr ⟨held, stored, fun _ _ => rfl⟩)

theorem changeRel (traced : Traced catalogue manifest mutations graph) {held : RelValue}
    (own : Own catalogue manifest graph held)
    {mutation : Mutation} (touches : mutation.touchesRel held.id) {change : RelValue → RelValue}
    (sameId : ∀ rel, (change rel).id = rel.id)
    (properties : ∀ rel name, ¬ mutation.namesRel held.id name →
      (change rel).properties.get name = rel.properties.get name) :
    Traced catalogue manifest (mutations ++ [mutation]) (graph.changeRel held change).2 := by
  obtain ⟨isId, origin⟩ := traced.currentRel own
  have changedId : (change (graph.currentRel held)).id = held.id := (sameId _).trans isId
  rw [MutableGraph.changeRel]
  apply (traced.later mutation).storeRel
  · rw [changedId]
    exact ⟨mutation, by simp, touches⟩
  · rw [changedId]
    rcases origin with gone | created | ⟨origin, stored, frame⟩
    · exact .inl gone
    · exact .inr (.inl created)
    · exact .inr (.inr ⟨origin, stored, frame.change (properties _)⟩)

theorem createNode (traced : Traced catalogue manifest mutations graph) (labels : List String)
    (properties : PropertyMap) :
    Traced catalogue manifest mutations (graph.createNode labels properties).2 where
  createdNodes := by
    intro node member
    rcases List.mem_append.mp member with earlier | last
    · exact traced.createdNodes node earlier
    · rw [List.mem_singleton.mp last, isOverlay_overlayId]
  createdRels := traced.createdRels
  nodes := by
    intro id node found
    obtain ⟨isId, touched, origin⟩ := traced.nodes id node found
    refine ⟨isId, touched, origin.imp_left fun created => ?_⟩
    rw [MutableGraph.createNode, List.map_append]
    exact List.mem_append_left _ created
  rels := traced.rels
  deleted := traced.deleted

theorem createRel (traced : Traced catalogue manifest mutations graph) (start : EntityId)
    (relType : String) (stop : EntityId) (properties : PropertyMap) :
    Traced catalogue manifest mutations (graph.createRel start relType stop properties).2 := by
  have older : ∀ id ∈ graph.createdRels.map RelValue.id,
      id ∈ (graph.createRel start relType stop properties).2.createdRels.map RelValue.id := by
    intro id created
    rw [MutableGraph.createRel, List.map_append]
    exact List.mem_append_left _ created
  exact {
    createdNodes := traced.createdNodes
    createdRels := by
      intro rel member
      rcases List.mem_append.mp member with earlier | last
      · exact traced.createdRels rel earlier
      · rw [List.mem_singleton.mp last, isOverlay_overlayId]
    nodes := traced.nodes
    rels := by
      intro id rel found
      obtain ⟨isId, touched, origin⟩ := traced.rels id rel found
      exact ⟨isId, touched, origin.imp_right (Or.imp_left (older id))⟩
    deleted := by
      intro id rel found
      obtain ⟨isId, read⟩ := traced.deleted id rel found
      exact ⟨isId, read.imp_left (older id)⟩ }

theorem deleteRel (traced : Traced catalogue manifest mutations graph) {rel : RelValue}
    (read : ReadId graph rel.id) : Traced catalogue manifest mutations (graph.deleteRel rel) := by
  by_cases gone : graph.relDeleted rel.id
  · rw [MutableGraph.deleteRel, if_pos gone]
    exact traced
  · have isNew : graph.deleteRel rel =
        { graph with deletedRels := graph.deletedRels.put rel.id rel } := if_neg gone
    have more := fun id => @MutableGraph.relDeleted_deleteRel graph rel id
    rw [isNew] at more ⊢
    exact {
      createdNodes := traced.createdNodes
      createdRels := traced.createdRels
      nodes := traced.nodes
      rels := by
        intro id other found
        obtain ⟨isId, touched, origin⟩ := traced.rels id other found
        exact ⟨isId, touched, origin.imp_left fun before => (more id).mpr (.inr before)⟩
      deleted := by
        intro id other found
        rw [SortedMap.get_put] at found
        split at found
        · next same =>
            cases found
            exact ⟨same, same ▸ read⟩
        · exact traced.deleted id other found }

theorem deleteRels (rels : List RelValue) {graph : MutableGraph}
    (traced : Traced catalogue manifest mutations graph)
    (read : ∀ rel ∈ rels, ReadId graph rel.id) :
    Traced catalogue manifest mutations (rels.foldl MutableGraph.deleteRel graph) := by
  induction rels generalizing graph with
  | nil => exact traced
  | cons rel rels induction =>
      apply induction (traced.deleteRel (read rel List.mem_cons_self))
      intro later member
      have before := read later (List.mem_cons_of_mem _ member)
      rw [ReadId] at before ⊢
      rw [MutableGraph.deleteRel]
      split <;> exact before

theorem deleteNode (traced : Traced catalogue manifest mutations graph) (id : EntityId) :
    Traced catalogue manifest mutations (graph.deleteNode id) :=
  ⟨traced.createdNodes, traced.createdRels, traced.nodes, traced.rels, traced.deleted⟩

/-- One mutation: what it names is changed, and no more. -/
theorem perform (traced : Traced catalogue manifest mutations graph)
    (reads : ∀ id, graph.base.node id = Cypher.storeNode catalogue manifest id)
    {mutation : Mutation} (addressed : Addressed graph mutation)
    (setsOwn : SetsOwn catalogue manifest graph mutation) :
    Traced catalogue manifest (mutations ++ [mutation]) (graph.perform mutation) := by
  cases mutation with
  | createNode labels properties => exact (traced.createNode labels properties).later _
  | createRel start relType stop properties =>
      exact (traced.createRel start relType stop properties).later _
  | setNodeProperty id key value =>
      rw [MutableGraph.perform, MutableGraph.setNodeProperty]
      apply traced.changeNode reads
      · exact rfl
      · exact fun _ => rfl
      · intro node name unnamed
        exact get_setProperty fun same => unnamed ⟨rfl, same⟩
      · exact fun _ _ => rfl
  | setNodeProperties id properties merge =>
      rw [MutableGraph.perform, MutableGraph.setNodeProperties]
      apply traced.changeNode reads
      · exact rfl
      · exact fun _ => rfl
      · intro node name unnamed
        cases merge with
        | false => exact absurd ⟨rfl, .inl rfl⟩ unnamed
        | true =>
            apply get_setProperties
            by_contra listed
            exact unnamed ⟨rfl, .inr listed⟩
      · exact fun _ _ => rfl
  | addNodeLabel id label =>
      rw [MutableGraph.perform, MutableGraph.addNodeLabel]
      split
      · exact traced.later _
      · split
        · exact traced.later _
        · apply traced.changeNode reads
          · exact rfl
          · exact fun _ => rfl
          · exact fun _ _ _ => rfl
          · exact fun _ unnamed => absurd rfl unnamed
  | removeNodeLabel id label =>
      rw [MutableGraph.perform, MutableGraph.removeNodeLabel]
      split
      · exact traced.later _
      · split
        · apply traced.changeNode reads
          · exact rfl
          · exact fun _ => rfl
          · exact fun _ _ _ => rfl
          · exact fun _ unnamed => absurd rfl unnamed
        · exact traced.later _
  | setRelProperty held key value =>
      rw [MutableGraph.perform, MutableGraph.setRelProperty]
      apply traced.changeRel setsOwn
      · exact rfl
      · exact fun _ => rfl
      · intro rel name unnamed
        exact get_setProperty fun same => unnamed ⟨rfl, same⟩
  | setRelProperties held properties merge =>
      rw [MutableGraph.perform, MutableGraph.setRelProperties]
      apply traced.changeRel setsOwn
      · exact rfl
      · exact fun _ => rfl
      · intro rel name unnamed
        cases merge with
        | false => exact absurd ⟨rfl, .inl rfl⟩ unnamed
        | true =>
            apply get_setProperties
            by_contra listed
            exact unnamed ⟨rfl, .inr listed⟩
  | deleteRel rel => exact (traced.deleteRel addressed).later _
  | deleteNode id => exact (traced.deleteNode id).later _
  | detachDeleteNode id =>
      have read : ∀ rel ∈ (graph.expand id .undirected []).map Prod.fst,
          ReadId graph rel.id := by
        intro rel member
        obtain ⟨pair, isPair, rfl⟩ := List.mem_map.mp member
        exact addressed pair isPair
      exact ((traced.deleteRels _ read).deleteNode id).later _

end Traced

theorem Trace.traced {catalogue : Catalogue} {manifest : Manifest} {source : GraphSource}
    {mutations : List Mutation} {graph : MutableGraph}
    (reads : ∀ id, source.node id = storeNode catalogue manifest id)
    (trace : Trace (fun graph mutation => Addressed graph mutation ∧
      SetsOwn catalogue manifest graph mutation) source mutations graph) :
    graph.base = source ∧ Traced catalogue manifest mutations graph := by
  induction trace with
  | start =>
      refine ⟨rfl, ⟨?_, ?_, ?_, ?_, ?_⟩⟩
      · exact fun _ member => nomatch member
      · exact fun _ member => nomatch member
      · exact fun _ _ found => nomatch found
      · exact fun _ _ found => nomatch found
      · exact fun _ _ found => nomatch found
  | step _ allowed induction =>
      obtain ⟨isBase, traced⟩ := induction
      refine ⟨(MutableGraph.base_perform _ _).trans isBase,
        traced.perform ?_ allowed.1 allowed.2⟩
      intro id
      rw [isBase, reads]

end Acetone.Cypher

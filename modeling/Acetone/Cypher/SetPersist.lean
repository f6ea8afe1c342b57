import Acetone.Cypher.SetFrame

/-!
# Persisting a statement that sets properties

Every update a statement stages is a deletion it asked for, the write of an
entity it created, or a record of the workspace with only the named properties
changed.
-/

namespace Acetone.Cypher

open Acetone.Lib Acetone.Model Acetone.Lib.KeyedView Persist
open Acetone.Graph (Transaction Manifest Workspace)

namespace Traced

variable {catalogue : Catalogue} {manifest : Manifest} {mutations : List Mutation}
  {graph : MutableGraph}

/-- A node written is a created one in its final state, or a touched node of the
workspace. -/
theorem mem_upsertedNodes (traced : Traced catalogue manifest mutations graph)
    {node : NodeValue} (member : node ∈ graph.changes.upsertedNodes) :
    (∃ created ∈ graph.createdNodes, graph.currentNode created.id = some node) ∨
      (∃ mutation ∈ mutations, mutation.touchesNode node.id) ∧ ∃ origin,
        Cypher.storeNode catalogue manifest node.id = some origin ∧
          NodeFrame mutations node.id origin node := by
  rcases List.mem_append.mp member with isCreated | isChanged
  · obtain ⟨created, taken, found⟩ := List.mem_filterMap.mp isCreated
    exact .inl ⟨created, List.mem_of_mem_filter (MutableGraph.mem_unseen_fst taken).1, found⟩
  · obtain ⟨entry, taken, rfl⟩ := List.mem_map.mp isChanged
    obtain ⟨isEntry, live⟩ := List.mem_filter.mp (MutableGraph.mem_unseen_fst taken).1
    have found : graph.nodeOverrides.get entry.1 = some entry.2 :=
      SortedMap.get_eq_some_iff.mpr isEntry
    obtain ⟨isId, touched, origin⟩ := traced.nodes entry.1 entry.2 found
    rw [isId]
    rcases origin with created | origin
    · obtain ⟨created, isCreated, sameId⟩ := List.mem_map.mp created
      refine .inl ⟨created, isCreated, ?_⟩
      rw [sameId, MutableGraph.currentNode, if_neg (by simpa using live), found, Option.some_or]
    · exact .inr ⟨touched, origin⟩

theorem nodeDeleted_of_mem {id : EntityId} (member : id ∈ graph.changes.deletedNodes) :
    graph.nodeDeleted id = true := by
  rw [MutableGraph.nodeDeleted, Option.isSome_iff_ne_none, ← SortedMap.mem_keys]
  exact List.mem_of_mem_filter member

theorem mem_createdRels {rel : RelValue} (member : rel ∈ graph.changes.createdRels) :
    ∃ created ∈ graph.createdRels, graph.overlayRel created = rel := by
  obtain ⟨created, taken, rfl⟩ := List.mem_map.mp member
  exact ⟨created, List.mem_of_mem_filter (MutableGraph.mem_unseen_fst taken).1, rfl⟩

theorem mem_modifiedRels (traced : Traced catalogue manifest mutations graph) {rel : RelValue}
    (member : rel ∈ graph.changes.modifiedRels) :
    (∃ mutation ∈ mutations, mutation.touchesRel rel.id) ∧ ∃ origin,
      Cypher.storeRel catalogue manifest rel.id = some origin ∧
        RelFrame mutations rel.id origin rel := by
  obtain ⟨entry, taken, rfl⟩ := List.mem_map.mp member
  obtain ⟨isItem, fresh⟩ := MutableGraph.mem_unseen_fst taken
  obtain ⟨isEntry, live⟩ := List.mem_filter.mp isItem
  rw [Bool.not_eq_true'] at live
  have found : graph.relOverrides.get entry.1 = some entry.2 :=
    SortedMap.get_eq_some_iff.mpr isEntry
  obtain ⟨isId, touched, origin⟩ := traced.rels entry.1 entry.2 found
  rw [isId]
  refine ⟨touched, ?_⟩
  rcases origin with gone | created | origin
  · rw [live] at gone
    cases gone
  · obtain ⟨created, isCreated, sameId⟩ := List.mem_map.mp created
    refine absurd (MutableGraph.mem_unseen_snd.mpr (.inr (List.mem_map.mpr
      ⟨created, List.mem_filter.mpr ⟨isCreated, ?_⟩, sameId⟩))) fresh
    rw [sameId, live, Bool.not_false]
  · exact origin

theorem mem_deletedRels (traced : Traced catalogue manifest mutations graph) {rel : RelValue}
    (member : rel ∈ graph.changes.deletedRels) :
    graph.relDeleted rel.id = true ∧ ∃ edge, EdgeKey.decodeFwd rel.id = .ok edge := by
  obtain ⟨entry, kept, rfl⟩ := List.mem_map.mp member
  obtain ⟨isEntry, notCreated⟩ := List.mem_filter.mp kept
  have found : graph.deletedRels.get entry.1 = some entry.2 :=
    SortedMap.get_eq_some_iff.mpr isEntry
  obtain ⟨isId, read⟩ := traced.deleted entry.1 entry.2 found
  rw [isId]
  refine ⟨?_, read.resolve_left (of_decide_eq_true notCreated)⟩
  rw [MutableGraph.relDeleted, found, Option.isSome_some]

end Traced

structure NodeRecordFrame (mutations : List Mutation) (id : EntityId) (old new : NodeRecord) :
    Prop where
  touched : ∃ mutation ∈ mutations, mutation.touchesNode id
  properties : ∀ name, (∀ mutation ∈ mutations, ¬ mutation.namesNode id name) →
    new.properties.get name = old.properties.get name
  secondaryLabels : (∀ mutation ∈ mutations, ¬ mutation.relabels id) →
    new.secondaryLabels = old.secondaryLabels

def CreatesNode (catalogue : Catalogue) (graph : MutableGraph) (bytes : Bytes) : Prop :=
  ∃ created ∈ graph.createdNodes, ∃ node draft, graph.currentNode created.id = some node ∧
    nodeKeyAndRecord catalogue node = .ok draft ∧ draft.key.encode = .ok bytes

/-- An update of a node is a deletion asked for, the write of a created node
under a key that is free, or a framed change. -/
inductive NodeUpdate (catalogue : Catalogue) (manifest : Manifest) (mutations : List Mutation)
    (graph : MutableGraph) : MapOp Bytes NodeRecord → Prop where
  | deleted {id : EntityId} : graph.nodeDeleted id = true →
      NodeUpdate catalogue manifest mutations graph (.delete id)
  | created {bytes : Bytes} {record : NodeRecord} : CreatesNode catalogue graph bytes →
      (∀ old, manifest.nodes.get bytes = some old → graph.nodeDeleted bytes = true) →
      NodeUpdate catalogue manifest mutations graph (.put bytes record)
  | changed {bytes : Bytes} {old new : NodeRecord} : manifest.nodes.get bytes = some old →
      NodeRecordFrame mutations bytes old new →
      NodeUpdate catalogue manifest mutations graph (.put bytes new)

/-- The records of touched nodes do not repeat the key. -/
def NodesApart (catalogue : Catalogue) (manifest : Manifest) (mutations : List Mutation) : Prop :=
  ∀ bytes key record, (∃ mutation ∈ mutations, mutation.touchesNode bytes) →
    NodeKey.decode bytes = .ok key → manifest.nodes.get bytes = some record →
    ∀ decl, catalogue.label key.label = some decl → ∀ name ∈ decl.key,
      record.properties.get name = none

theorem isOverlay_of_decode {bytes : Bytes} {key : NodeKey}
    (stored : NodeKey.decode bytes = .ok key) : isOverlay bytes = false :=
  decide_eq_false (notOverlay_node stored)

section

variable {catalogue : Catalogue} {manifest : Manifest} {mutations : List Mutation}
  {graph : MutableGraph} {txn after : Transaction}

private theorem putNode_touched (apart : NodesApart catalogue manifest mutations)
    {node origin : NodeValue} (touched : ∃ mutation ∈ mutations, mutation.touchesNode node.id)
    (stored : storeNode catalogue manifest node.id = some origin)
    (frame : NodeFrame mutations node.id origin node) {draft : NodeDraft}
    (made : nodeKeyAndRecord catalogue node = .ok draft) {encoded : Bytes}
    (encodes : draft.key.encode = .ok encoded) {deleted : List Bytes}
    (keeps : checkIdentity manifest deleted node.id draft.key encoded = .ok ())
    (puts : putNode txn draft = .ok after) :
    ∃ bytes old new, manifest.nodes.get bytes = some old ∧
      NodeRecordFrame mutations bytes old new ∧
      after = { txn with nodes := txn.nodes ++ [.put bytes new] } := by
  obtain ⟨key, old, decoded, isOld, rfl⟩ := storeNode_eq_some.mp stored
  obtain ⟨rfl, sameLabel⟩ := key_of_checkIdentity decoded encodes keeps
  obtain ⟨decl, new, keyed, isAfter, secondary, inKey, outside⟩ :=
    putNode_record made encodes puts
  rw [sameLabel] at keyed secondary
  have declared := label_of_keyed keyed
  refine ⟨node.id, old, new, isOld, ⟨touched, ?_, ?_⟩, isAfter⟩
  · intro name unnamed
    by_cases isKey : name ∈ decl.key
    · rw [inKey name isKey, apart node.id key old touched decoded isOld decl declared name isKey]
    · apply outside name isKey
      rw [frame.properties name unnamed, get_nodeValue_of_notKey declared old isKey]
  · intro unnamed
    have sameLabels := frame.labels unnamed
    rw [sameLabels] at keyed secondary
    exact secondary.trans (secondary_of_keyed keyed)

structure DerivedNode (catalogue : Catalogue) (changes : WriteChanges) (manifest : Manifest)
    (pair : NodeValue × NodeDraft) : Prop where
  member : pair.1 ∈ changes.upsertedNodes
  made : nodeKeyAndRecord catalogue pair.1 = .ok pair.2
  identity : ∃ encoded, pair.2.key.encode = .ok encoded ∧
    checkIdentity manifest changes.deletedNodes pair.1.id pair.2.key encoded = .ok ()

theorem derivedNodes {changes : WriteChanges} {derived : Derived}
    (derives : changes.upsertedNodes.foldlM
      (deriveNode catalogue manifest changes.deletedNodes) ⟨[], [], []⟩ = .ok derived) :
    ∀ pair ∈ derived.drafts, DerivedNode catalogue changes manifest pair := by
  apply foldlM_invariant _ _ derives
  · intro state node isNode next holds steps
    rw [deriveNode] at steps
    obtain ⟨draft, made, steps⟩ := bind_eq_ok.mp steps
    obtain ⟨encoded, encodes, steps⟩ := bind_eq_ok.mp steps
    obtain ⟨⟨⟩, keeps, steps⟩ := bind_eq_ok.mp steps
    obtain ⟨-, ⟨⟩⟩ := guard_eq_ok.mp steps
    intro pair member
    rcases List.mem_append.mp member with earlier | last
    · exact holds pair earlier
    · rw [List.mem_singleton.mp last]
      exact ⟨isNode, made, encoded, ofKey_eq_ok.mp encodes, keeps⟩
  · intro pair member
    cases member

private theorem putNode_update (traced : Traced catalogue manifest mutations graph)
    (apart : NodesApart catalogue manifest mutations) {pair : NodeValue × NodeDraft}
    (derived : DerivedNode catalogue graph.changes manifest pair)
    (reads : ∀ id, graph.base.node id = storeNode catalogue manifest id)
    (puts : putNode txn pair.2 = .ok after) :
    ∃ op, NodeUpdate catalogue manifest mutations graph op ∧
      after = { txn with nodes := txn.nodes ++ [op] } := by
  obtain ⟨encoded, encodes, keeps⟩ := derived.identity
  rcases traced.mem_upsertedNodes derived.member with
    ⟨created, isCreated, isCurrent⟩ | ⟨touched, origin, stored, frame⟩
  · obtain ⟨-, record, -, isAfter, -⟩ := putNode_record derived.made encodes puts
    refine ⟨_, .created ⟨created, isCreated, pair.1, pair.2, isCurrent, derived.made, encodes⟩ ?_,
      isAfter⟩
    intro old isOld
    have isId : pair.1.id = created.id := (traced.currentNode reads isCurrent).1
    have overlay := traced.createdNodes created isCreated
    rw [← isId] at overlay
    rw [checkIdentity] at keeps
    split at keeps
    · obtain ⟨free, -⟩ := guard_eq_ok.mp keeps
      have listed : encoded ∈ graph.changes.deletedNodes := by
        by_contra notDeleted
        exact free ⟨by rw [isOld, Option.isSome_some], notDeleted⟩
      exact Traced.nodeDeleted_of_mem listed
    · next original decoded =>
        rw [isOverlay_of_decode decoded] at overlay
        cases overlay
  · obtain ⟨bytes, old, new, isOld, isFrame, isAfter⟩ :=
      putNode_touched apart touched stored frame derived.made encodes keeps puts
    exact ⟨_, .changed isOld isFrame, isAfter⟩

end

structure EdgeRecordFrame (mutations : List Mutation) (id : EntityId) (old new : EdgeRecord) :
    Prop where
  touched : ∃ mutation ∈ mutations, mutation.touchesRel id
  properties : ∀ name, (∀ mutation ∈ mutations, ¬ mutation.namesRel id name) →
    new.properties.get name = old.properties.get name

def CreatesEdge (catalogue : Catalogue) (entityToKey : List (EntityId × NodeKey))
    (graph : MutableGraph) (bytes : Bytes) : Prop :=
  ∃ created ∈ graph.createdRels, ∃ edge,
    createdEdgeKey catalogue entityToKey (graph.overlayRel created) = .ok edge ∧
      edge.encodeFwd = .ok bytes

/-- An update of an edge is a deletion asked for, the write of a created edge
under a key that is free, or a framed change. -/
inductive EdgeUpdate (catalogue : Catalogue) (manifest : Manifest) (mutations : List Mutation)
    (entityToKey : List (EntityId × NodeKey)) (graph : MutableGraph) :
    MapOp Bytes EdgeRecord → Prop where
  | deleted {id : EntityId} : graph.relDeleted id = true →
      EdgeUpdate catalogue manifest mutations entityToKey graph (.delete id)
  | created {bytes : Bytes} {record : EdgeRecord} :
      CreatesEdge catalogue entityToKey graph bytes →
      (∀ old, manifest.edgesFwd.get bytes = some old → graph.relDeleted bytes = true) →
      EdgeUpdate catalogue manifest mutations entityToKey graph (.put bytes record)
  | changed {bytes : Bytes} {old new : EdgeRecord} : manifest.edgesFwd.get bytes = some old →
      EdgeRecordFrame mutations bytes old new →
      EdgeUpdate catalogue manifest mutations entityToKey graph (.put bytes new)

/-- The records of touched edges do not repeat the discriminator. -/
def EdgesApart (catalogue : Catalogue) (manifest : Manifest) (mutations : List Mutation) : Prop :=
  ∀ bytes edge record, (∃ mutation ∈ mutations, mutation.touchesRel bytes) →
    EdgeKey.decodeFwd bytes = .ok edge → manifest.edgesFwd.get bytes = some record →
    ∀ name, catalogue.discriminator edge.rtype = some name → record.properties.get name = none

section

variable {catalogue : Catalogue} {manifest : Manifest} {mutations : List Mutation}
  {graph : MutableGraph} {entityToKey : List (EntityId × NodeKey)} {txn after : Transaction}

private theorem modifyRel_update (traced : Traced catalogue manifest mutations graph)
    (apart : EdgesApart catalogue manifest mutations) {rel : RelValue}
    (member : rel ∈ graph.changes.modifiedRels)
    (modifies : modifyRel catalogue entityToKey txn rel = .ok after) :
    ∃ op, EdgeUpdate catalogue manifest mutations entityToKey graph op ∧
      after.base = txn.base ∧ after.nodes = txn.nodes ∧
      after.edgesFwd = txn.edgesFwd ++ [op] := by
  obtain ⟨touched, origin, stored, frame⟩ := traced.mem_modifiedRels member
  obtain ⟨edge, old, decoded, isOld, rfl⟩ := storeRel_eq_some.mp stored
  obtain ⟨backward, new, -, rfl, inKey, outside⟩ := modifyRel_record decoded modifies
  refine ⟨_, .changed isOld ⟨touched, ?_⟩, rfl, rfl, rfl⟩
  intro name unnamed
  by_cases isDisc : catalogue.discriminator edge.rtype = some name
  · rw [inKey name isDisc, apart rel.id edge old touched decoded isOld name isDisc]
  · apply outside name isDisc
    rw [frame name unnamed, get_relValue_of_notDisc edge old isDisc]

private theorem deleteRel_update (traced : Traced catalogue manifest mutations graph)
    {rel : RelValue} (member : rel ∈ graph.changes.deletedRels)
    (deletes : Persist.deleteRel entityToKey txn rel = .ok after) :
    ∃ op, EdgeUpdate catalogue manifest mutations entityToKey graph op ∧
      after.base = txn.base ∧ after.nodes = txn.nodes ∧
      after.edgesFwd = txn.edgesFwd ++ [op] := by
  obtain ⟨gone, edge, decoded⟩ := traced.mem_deletedRels member
  rw [Persist.deleteRel, boundEdgeKey_stored decoded, ok_bind, ofGraph_eq_ok,
    Transaction.deleteEdge] at deletes
  obtain ⟨forward, isForward, deletes⟩ := bind_eq_ok.mp deletes
  obtain ⟨backward, -, ⟨⟩⟩ := bind_eq_ok.mp deletes
  rw [Graph.liftKey_eq_ok, EdgeKey.encodeFwd_of_decodeFwd decoded, Except.ok.injEq] at isForward
  exact ⟨_, .deleted (isForward ▸ gone), rfl, rfl, rfl⟩

private theorem mem_existingEdges (traced : Traced catalogue manifest mutations graph)
    {existing : List Bytes}
    (found : existingEdges manifest graph.changes.deletedRels entityToKey = .ok existing)
    {bytes : Bytes} {old : EdgeRecord} (isOld : manifest.edgesFwd.get bytes = some old)
    (live : graph.relDeleted bytes = false) : bytes ∈ existing := by
  rw [existingEdges] at found
  obtain ⟨deleted, areDeleted, found⟩ := bind_eq_ok.mp found
  obtain ⟨stored, areStored, ⟨⟩⟩ := bind_eq_ok.mp found
  apply List.mem_filter.mpr
  constructor
  · obtain ⟨encoded, isEncoded, made⟩ :=
      mem_of_mapM_eq_ok areStored (SortedMap.get_eq_some_iff.mp isOld)
    obtain ⟨edge, decodes, encodes⟩ := bind_eq_ok.mp made
    rw [ofKey_eq_ok] at decodes encodes
    rw [EdgeKey.encodeFwd_of_decodeFwd decodes, Except.ok.injEq] at encodes
    exact encodes ▸ isEncoded
  · apply decide_eq_true
    intro isDeleted
    obtain ⟨rel, member, made⟩ := exists_of_mem_mapM areDeleted isDeleted
    obtain ⟨gone, edge, decoded⟩ := traced.mem_deletedRels member
    rw [boundEdgeKey_stored decoded, ok_bind, ofKey_eq_ok,
      EdgeKey.encodeFwd_of_decodeFwd decoded, Except.ok.injEq] at made
    rw [made, live] at gone
    cases gone

structure Staged (catalogue : Catalogue) (workspace : Workspace) (mutations : List Mutation)
    (entityToKey : List (EntityId × NodeKey)) (graph : MutableGraph) (txn : Transaction) :
    Prop where
  base : txn.base = workspace
  nodes : ∀ op ∈ txn.nodes, NodeUpdate catalogue workspace.manifest mutations graph op
  edges : ∀ op ∈ txn.edgesFwd,
    EdgeUpdate catalogue workspace.manifest mutations entityToKey graph op

variable {workspace : Workspace}

private theorem forall_mem_append_singleton {α : Type} {property : α → Prop} {items : List α}
    {item : α} (each : ∀ item ∈ items, property item) (last : property item) :
    ∀ member ∈ items ++ [item], property member := by
  intro member isMember
  rcases List.mem_append.mp isMember with earlier | isLast
  · exact each member earlier
  · exact List.mem_singleton.mp isLast ▸ last

theorem Staged.edge (staged : Staged catalogue workspace mutations entityToKey graph txn)
    (update : ∃ op, EdgeUpdate catalogue workspace.manifest mutations entityToKey graph op ∧
      after.base = txn.base ∧ after.nodes = txn.nodes ∧
      after.edgesFwd = txn.edgesFwd ++ [op]) :
    Staged catalogue workspace mutations entityToKey graph after := by
  obtain ⟨op, isUpdate, sameBase, sameNodes, isAppended⟩ := update
  refine ⟨sameBase.trans staged.base, ?_, ?_⟩
  · rw [sameNodes]
    exact staged.nodes
  · rw [isAppended]
    exact forall_mem_append_singleton staged.edges isUpdate

theorem Staged.node (staged : Staged catalogue workspace mutations entityToKey graph txn)
    (update : ∃ op, NodeUpdate catalogue workspace.manifest mutations graph op ∧
      after = { txn with nodes := txn.nodes ++ [op] }) :
    Staged catalogue workspace mutations entityToKey graph after := by
  obtain ⟨op, isUpdate, rfl⟩ := update
  exact ⟨staged.base, forall_mem_append_singleton staged.nodes isUpdate, staged.edges⟩

/-- Created edges are written under keys that are free. -/
private theorem createRels_staged {created : List RelValue}
    (members : ∀ rel ∈ created, ∃ made ∈ graph.createdRels, graph.overlayRel made = rel)
    {existing : List Bytes} (listed : ∀ bytes old,
      workspace.manifest.edgesFwd.get bytes = some old → graph.relDeleted bytes = false →
      bytes ∈ existing)
    (staged : Staged catalogue workspace mutations entityToKey graph txn)
    (creates : createRels catalogue entityToKey existing txn created = .ok after) :
    Staged catalogue workspace mutations entityToKey graph after := by
  induction created generalizing existing txn with
  | nil =>
      cases creates
      exact staged
  | cons rel created induction =>
      rw [createRels] at creates
      obtain ⟨edge, isEdge, creates⟩ := bind_eq_ok.mp creates
      obtain ⟨encoded, encodes, creates⟩ := bind_eq_ok.mp creates
      obtain ⟨fresh, creates⟩ := guard_eq_ok.mp creates
      obtain ⟨properties, -, creates⟩ := bind_eq_ok.mp creates
      obtain ⟨next, puts, creates⟩ := bind_eq_ok.mp creates
      apply induction (fun later member => members later (List.mem_cons_of_mem _ member)) _ _
        creates
      · exact fun bytes old isOld live => List.mem_cons_of_mem _ (listed bytes old isOld live)
      · apply staged.edge
        obtain ⟨made, isMade, sameRel⟩ := members rel List.mem_cons_self
        rw [putEdge] at puts
        obtain ⟨⟨⟩, -, puts⟩ := bind_eq_ok.mp puts
        obtain ⟨record, -, puts⟩ := bind_eq_ok.mp puts
        rw [ofGraph_eq_ok, Transaction.putEdge] at puts
        obtain ⟨forward, isForward, puts⟩ := bind_eq_ok.mp puts
        obtain ⟨backward, -, ⟨⟩⟩ := bind_eq_ok.mp puts
        rw [ofKey_eq_ok] at encodes
        rw [Graph.liftKey_eq_ok, encodes, Except.ok.injEq] at isForward
        subst isForward
        refine ⟨_, .created ⟨made, isMade, edge, by rw [sameRel, isEdge], encodes⟩ ?_,
          rfl, rfl, rfl⟩
        intro old isOld
        by_contra live
        exact fresh (listed encoded old isOld (Bool.eq_false_iff.mpr live))

/-- Everything a persisted statement stages is an update of one of the
kinds. -/
theorem persistChanges_staged (traced : Traced catalogue workspace.manifest mutations graph)
    (reads : ∀ id, graph.base.node id = storeNode catalogue workspace.manifest id)
    (nodesApart : NodesApart catalogue workspace.manifest mutations)
    (edgesApart : EdgesApart catalogue workspace.manifest mutations)
    (accepted : persistChanges graph.changes (.beginWrite workspace) catalogue
      workspace.manifest = .ok after) :
    ∃ entityToKey, Staged catalogue workspace mutations entityToKey graph after := by
  rw [persistChanges] at accepted
  obtain ⟨derived, derives, accepted⟩ := bind_eq_ok.mp accepted
  obtain ⟨-, -, accepted⟩ := bind_eq_ok.mp accepted
  obtain ⟨relsDeleted, deletesRels, accepted⟩ := bind_eq_ok.mp accepted
  obtain ⟨nodesDeleted, deletesNodes, accepted⟩ := bind_eq_ok.mp accepted
  obtain ⟨nodesPut, putsNodes, accepted⟩ := bind_eq_ok.mp accepted
  have begun : Staged catalogue workspace mutations derived.entityToKey graph
      (.beginWrite workspace) :=
    ⟨rfl, fun _ member => absurd member List.not_mem_nil,
      fun _ member => absurd member List.not_mem_nil⟩
  have afterRels : Staged catalogue workspace mutations derived.entityToKey graph relsDeleted := by
    apply foldlM_invariant _ begun deletesRels
    exact fun _ rel member _ staged deletes => staged.edge (deleteRel_update traced member deletes)
  have afterNodes : Staged catalogue workspace mutations derived.entityToKey graph
      nodesDeleted := by
    apply foldlM_invariant _ afterRels deletesNodes
    intro state id member next staged deletes
    apply staged.node
    rw [Persist.deleteNode] at deletes
    obtain ⟨key, decodes, deletes⟩ := bind_eq_ok.mp deletes
    rw [ofGraph_eq_ok, Transaction.deleteNode] at deletes
    obtain ⟨bytes, encodes, ⟨⟩⟩ := bind_eq_ok.mp deletes
    rw [ofKey_eq_ok] at decodes
    rw [Graph.liftKey_eq_ok, NodeKey.encode_of_decode decodes, Except.ok.injEq] at encodes
    exact ⟨_, .deleted (encodes ▸ Traced.nodeDeleted_of_mem member), rfl⟩
  have afterPuts : Staged catalogue workspace mutations derived.entityToKey graph nodesPut := by
    apply foldlM_invariant _ afterNodes putsNodes
    intro state draft member next staged puts
    obtain ⟨pair, isPair, rfl⟩ := List.mem_map.mp member
    exact staged.node (putNode_update traced nodesApart (derivedNodes derives pair isPair) reads
      puts)
  obtain ⟨relsCreated, afterCreates, modifies⟩ : ∃ created,
      Staged catalogue workspace mutations derived.entityToKey graph created ∧
      graph.changes.modifiedRels.foldlM (modifyRel catalogue derived.entityToKey) created =
        .ok after := by
    simp only [ok_bind] at accepted
    split at accepted
    · exact ⟨nodesPut, afterPuts, accepted⟩
    · obtain ⟨existing, found, accepted⟩ := bind_eq_ok.mp accepted
      obtain ⟨created, creates, accepted⟩ := bind_eq_ok.mp accepted
      refine ⟨created, ?_, accepted⟩
      apply createRels_staged (fun rel member => Traced.mem_createdRels member) _ afterPuts creates
      exact fun bytes old isOld live => mem_existingEdges traced found isOld live
  refine ⟨derived.entityToKey, foldlM_invariant ?_ afterCreates modifies⟩
  exact fun _ rel member _ staged modifies =>
    staged.edge (modifyRel_update traced edgesApart member modifies)

end

private theorem kept_of_updates {V : Type} {map : SortedMap Bytes V} {ops : List (MapOp Bytes V)}
    {bytes : Bytes} {old : V} (isOld : map.get bytes = some old) {frame : V → Prop}
    (puts : ∀ value, .put bytes value ∈ ops → frame value) (kept : .delete bytes ∉ ops) :
    ∃ new, (map.applyAll ops).get bytes = some new ∧ (new = old ∨ frame new) := by
  cases found : (map.applyAll ops).get bytes with
  | none =>
      have inBase : bytes ∈ map.keys := by
        rw [SortedMap.mem_keys, isOld]
        exact Option.some_ne_none _
      have gone : bytes ∉ (map.applyAll ops).keys := by
        rw [SortedMap.mem_keys, found]
        exact fun differs => differs rfl
      exact absurd (Graph.mem_deleteKeys.mp (Graph.mem_deleteKeys_of_gone inBase gone)) kept
  | some new =>
      refine ⟨new, rfl, ?_⟩
      rcases Graph.get_applyAll_cases found with ⟨op, member, isKey, isNew⟩ | ⟨-, isBase⟩
      · cases op with
        | put key value =>
            cases isKey
            cases isNew
            exact .inr (puts new member)
        | delete key => cases isNew
      · exact .inl (Option.some.inj (isBase.symm.trans isOld))

private theorem put_of_new {V : Type} {map : SortedMap Bytes V} {ops : List (MapOp Bytes V)}
    {bytes : Bytes} (absent : map.get bytes = none)
    (present : (map.applyAll ops).get bytes ≠ none) : ∃ value, .put bytes value ∈ ops := by
  obtain ⟨value, found⟩ := Option.ne_none_iff_exists'.mp present
  rcases Graph.get_applyAll_cases found with ⟨op, member, isKey, isValue⟩ | ⟨-, isBase⟩
  · cases op with
    | put key value =>
        cases isKey
        exact ⟨value, member⟩
    | delete key => cases isValue
  · rw [absent] at isBase
    cases isBase

/-- Records that were there and are not deleted change only in what is named,
and only if they are touched; what was not there was created. -/
structure OnlyNamed (catalogue : Catalogue) (mutations : List Mutation)
    (entityToKey : List (EntityId × NodeKey)) (graph : MutableGraph) (before after : Manifest) :
    Prop where
  nodes : ∀ bytes old, before.nodes.get bytes = some old → graph.nodeDeleted bytes = false →
    ∃ new, after.nodes.get bytes = some new ∧
      (new = old ∨ NodeRecordFrame mutations bytes old new)
  edges : ∀ bytes old, before.edgesFwd.get bytes = some old → graph.relDeleted bytes = false →
    ∃ new, after.edgesFwd.get bytes = some new ∧
      (new = old ∨ EdgeRecordFrame mutations bytes old new)
  newNodes : ∀ bytes, before.nodes.get bytes = none → after.nodes.get bytes ≠ none →
    CreatesNode catalogue graph bytes
  newEdges : ∀ bytes, before.edgesFwd.get bytes = none → after.edgesFwd.get bytes ≠ none →
    CreatesEdge catalogue entityToKey graph bytes

/-- A statement that sets relationships only through values of its workspace
changes only what it names, once persisted and saved. -/
theorem set_changes_only_named {catalogue : Catalogue} {workspace saved : Workspace}
    {source : GraphSource} {mutations : List Mutation} {graph : MutableGraph}
    {after : Transaction} {merging : Bool}
    (reads : ∀ id, source.node id = storeNode catalogue workspace.manifest id)
    (trace : Trace (fun graph mutation => Addressed graph mutation ∧
      SetsOwn catalogue workspace.manifest graph mutation) source mutations graph)
    (nodesApart : NodesApart catalogue workspace.manifest mutations)
    (edgesApart : EdgesApart catalogue workspace.manifest mutations)
    (accepted : persistChanges graph.changes (.beginWrite workspace) catalogue
      workspace.manifest = .ok after)
    (saves : after.saveInPlace merging = .ok saved) :
    ∃ entityToKey, OnlyNamed catalogue mutations entityToKey graph workspace.manifest
      saved.manifest := by
  obtain ⟨isBase, traced⟩ := trace.traced reads
  obtain ⟨entityToKey, staged⟩ := persistChanges_staged traced (isBase ▸ reads) nodesApart
    edgesApart accepted
  have maps := Transaction.saveInPlace_maps saves
  have nodes : saved.manifest.nodes = workspace.manifest.nodes.applyAll after.nodes := by
    rw [maps, ← staged.base]
    rfl
  have edges : saved.manifest.edgesFwd =
      workspace.manifest.edgesFwd.applyAll after.edgesFwd := by
    rw [maps, ← staged.base]
    rfl
  refine ⟨entityToKey, ?_, ?_, ?_, ?_⟩
  · intro bytes old isOld live
    rw [nodes]
    apply kept_of_updates isOld
    · intro value member
      cases staged.nodes _ member with
      | created creates free => exact absurd (free old isOld) (by rw [live]; decide)
      | changed isBefore frame =>
          cases isOld.symm.trans isBefore
          exact frame
    · intro member
      cases staged.nodes _ member with
      | deleted gone => exact absurd gone (by rw [live]; decide)
  · intro bytes old isOld live
    rw [edges]
    apply kept_of_updates isOld
    · intro value member
      cases staged.edges _ member with
      | created creates free => exact absurd (free old isOld) (by rw [live]; decide)
      | changed isBefore frame =>
          cases isOld.symm.trans isBefore
          exact frame
    · intro member
      cases staged.edges _ member with
      | deleted gone => exact absurd gone (by rw [live]; decide)
  · intro bytes absent present
    rw [nodes] at present
    obtain ⟨value, member⟩ := put_of_new absent present
    cases staged.nodes _ member with
    | created creates free => exact creates
    | changed isBefore frame =>
        rw [absent] at isBefore
        cases isBefore
  · intro bytes absent present
    rw [edges] at present
    obtain ⟨value, member⟩ := put_of_new absent present
    cases staged.edges _ member with
    | created creates free => exact creates
    | changed isBefore frame =>
        rw [absent] at isBefore
        cases isBefore

/-- A source that reads a workspace and declines every seek. -/
def snapshotSource (catalogue : Catalogue) (manifest : Manifest) : GraphSource where
  allNodes := manifest.nodes.keys.filterMap (storeNode catalogue manifest)
  nodesByIndex _ _ _ := none
  nodesByIndexRange _ _ _ _ := none
  nodesByKey _ _ := none
  expand := expandOver (storeNode catalogue manifest)
    (manifest.edgesFwd.keys.filterMap (storeRel catalogue manifest))
  node := storeNode catalogue manifest
  seekCount _ := none

def starsRecord (stars : Int64) : EdgeRecord := ⟨.ofList [("stars", ⟨.int stars, rfl⟩)]⟩

def ratedWorkspace : Workspace where
  manifest := { Graph.blank.manifest with
    schema := .ofList ([.label "Person" Graph.personLabel,
      .relType "Rated" ⟨some "year", .empty, []⟩].map fun entry : SchemaEntry =>
        (entry.mapKey, entry))
    nodes := .ofList [(personBytes, ⟨∅, .empty⟩),
      ((Graph.person 2).encode.toOption.getD [], ⟨∅, .empty⟩)]
    edgesFwd := .ofList [(ratedBytes, starsRecord 1)]
    edgesRev := .ofList [(ratedEdge.encodeRev.toOption.getD [], ())] }
  conflicts := none

def noteRating (stars : Int64) : Mutation :=
  .setRelProperty (Adapter.relValue ratedCatalogue ratedEdge (starsRecord stars)) "note"
    (some (.bool true))

def afterNote (stars : Int64) : MutableGraph :=
  (MutableGraph.new (snapshotSource ratedCatalogue ratedWorkspace.manifest)).perform
    (noteRating stars)

def stagedNote (stars : Int64) : Option Transaction :=
  (persistChanges (afterNote stars).changes (.beginWrite ratedWorkspace) ratedCatalogue
    ratedWorkspace.manifest).toOption

def savedNote (stars : Int64) : Option Workspace :=
  (stagedNote stars).bind fun after => (after.saveInPlace false).toOption

def starsOf (saved : Workspace) : Option Model.Value :=
  (saved.manifest.edgesFwd.get ratedBytes).bind fun record =>
    (record.properties.get "stars").map fun value => value.val

private theorem noteRating_nodesApart (stars : Int64) :
    NodesApart ratedCatalogue ratedWorkspace.manifest [noteRating stars] := by
  intro bytes key record touched
  obtain ⟨mutation, member, touches⟩ := touched
  rw [List.mem_singleton.mp member] at touches
  exact touches.elim

private theorem noteRating_edgesApart (stars : Int64) :
    EdgesApart ratedCatalogue ratedWorkspace.manifest [noteRating stars] := by
  intro bytes edge record _ decoded found name isDisc
  have onlyRating : ∀ entry ∈ ratedWorkspace.manifest.edgesFwd.entries,
      entry.2 = starsRecord 1 ∧ EdgeKey.decodeFwd entry.1 = .ok ratedEdge := by decide +kernel
  obtain ⟨isRecord, isEdge⟩ : record = starsRecord 1 ∧ EdgeKey.decodeFwd bytes = .ok ratedEdge :=
    onlyRating (bytes, record) (SortedMap.get_eq_some_iff.mp found)
  rw [isEdge, Except.ok.injEq] at decoded
  rw [← decoded] at isDisc
  have isYear : ratedCatalogue.discriminator ratedEdge.rtype = some "year" := by decide +kernel
  rw [isYear, Option.some.injEq] at isDisc
  rw [← isDisc, isRecord]
  decide +kernel

private theorem staged_saved {stars : Int64} {saved : Workspace}
    (isSaved : savedNote stars = some saved) : ∃ after,
    persistChanges (afterNote stars).changes (.beginWrite ratedWorkspace) ratedCatalogue
      ratedWorkspace.manifest = .ok after ∧ after.saveInPlace false = .ok saved := by
  obtain ⟨after, isAfter, saves⟩ := Option.bind_eq_some_iff.mp isSaved
  exact ⟨after, mem_toOption.mp isAfter, mem_toOption.mp saves⟩

/-- A note on the rating, set through the workspace's own value. -/
theorem set_changes_only_named_note : ∃ saved entityToKey,
    savedNote 1 = some saved ∧ starsOf saved = some (.int 1) ∧
      OnlyNamed ratedCatalogue [noteRating 1] entityToKey (afterNote 1) ratedWorkspace.manifest
        saved.manifest := by
  have stars : (savedNote 1).map starsOf = some (some (.int 1)) := by decide +kernel
  obtain ⟨saved, isSaved, isStars⟩ := Option.map_eq_some_iff.mp stars
  obtain ⟨after, accepted, saves⟩ := staged_saved isSaved
  have own : storeRel ratedCatalogue ratedWorkspace.manifest
      (Adapter.relValue ratedCatalogue ratedEdge (starsRecord 1)).id =
        some (Adapter.relValue ratedCatalogue ratedEdge (starsRecord 1)) :=
    storeRel_eq_some.mpr ⟨ratedEdge, starsRecord 1, by decide +kernel, by decide +kernel, rfl⟩
  obtain ⟨entityToKey, only⟩ := set_changes_only_named (fun _ => rfl)
    (@Trace.step _ _ _ _ (noteRating 1) .start ⟨trivial, .inr (.inr (.inr own))⟩)
    (noteRating_nodesApart 1) (noteRating_edgesApart 1) accepted saves
  exact ⟨saved, entityToKey, isSaved, isStars, only⟩

/-- A note set through the rating of another version, which had two stars, gives
the stored rating two stars. -/
theorem earlierRating_reverts :
    ¬ ∀ (catalogue : Catalogue) (workspace saved : Workspace) (source : GraphSource)
      (mutations : List Mutation) (graph : MutableGraph) (after : Transaction) (merging : Bool),
      (∀ id, source.node id = storeNode catalogue workspace.manifest id) →
      Trace Addressed source mutations graph →
      NodesApart catalogue workspace.manifest mutations →
      EdgesApart catalogue workspace.manifest mutations →
      persistChanges graph.changes (.beginWrite workspace) catalogue workspace.manifest =
        .ok after →
      after.saveInPlace merging = .ok saved →
      ∃ entityToKey, OnlyNamed catalogue mutations entityToKey graph workspace.manifest
        saved.manifest := by
  intro claim
  have stars : (savedNote 2).map starsOf = some (some (.int 2)) := by decide +kernel
  obtain ⟨saved, isSaved, isStars⟩ := Option.map_eq_some_iff.mp stars
  obtain ⟨after, accepted, saves⟩ := staged_saved isSaved
  obtain ⟨entityToKey, only⟩ := claim ratedCatalogue ratedWorkspace saved _ [noteRating 2]
    (afterNote 2) after false (fun _ => rfl)
    (@Trace.step _ _ _ _ (noteRating 2) .start trivial)
    (noteRating_nodesApart 2) (noteRating_edgesApart 2) accepted saves
  obtain ⟨new, isNew, kept⟩ := only.edges ratedBytes (starsRecord 1) (by decide +kernel)
    (by decide +kernel)
  have sameStars : new.properties.get "stars" = (starsRecord 1).properties.get "stars" := by
    rcases kept with rfl | frame
    · rfl
    · apply frame.properties
      intro mutation member names
      rw [List.mem_singleton.mp member] at names
      exact absurd names.2 (by decide)
  rw [starsOf, isNew, Option.bind_some, sameStars] at isStars
  exact absurd isStars (by decide +kernel)

end Acetone.Cypher

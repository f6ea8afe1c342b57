import Acetone.Lib.Grouping
import Acetone.Graph.StagedWrites
import Acetone.Graph.Mirroring
import Acetone.Graph.Integrity

/-!
# Rekeying keeps the graph

A node that is rekeyed takes its edges along.  The deletes and puts are one save:
it is refused, or the version has the node and its edges under the new key and
everything else as it was.  The commit that follows may still be refused, and the
save stands.
-/

namespace Acetone.Graph

open Acetone.Lib Acetone.Model

def rekeyedEdge (old new : NodeKey) (edge : EdgeKey) : EdgeKey where
  src := if edge.src.Same old then new else edge.src
  rtype := edge.rtype
  dst := if edge.dst.Same old then new else edge.dst
  disc := edge.disc
  checked := edge.checked

def Touches (node : NodeKey) (edge : EdgeKey) : Prop := edge.src.Same node ∨ edge.dst.Same node

instance touchesDecidable (node : NodeKey) (edge : EdgeKey) : Decidable (Touches node edge) :=
  inferInstanceAs (Decidable (_ ∨ _))

def StayApart (edges : EdgeMap) (old new : NodeKey) : Prop :=
  ∀ left right leftRecord rightRecord forward, HoldsEdge edges left leftRecord →
    HoldsEdge edges right rightRecord → (rekeyedEdge old new left).encodeFwd = .ok forward →
      (rekeyedEdge old new right).encodeFwd = .ok forward → left = right

/-- The node and each of its edges are under the new key, and all else is as it
was. -/
structure RekeyedFrom (before after : Manifest) (old new : NodeKey) : Prop where
  node : ∃ oldKey newKey record, old.encode = .ok oldKey ∧ new.encode = .ok newKey ∧
    before.nodes.get oldKey = some record ∧ before.nodes.get newKey = none ∧
    ∀ key, after.nodes.get key = if key = newKey then some record
      else if key = oldKey then none else before.nodes.get key
  edges : ∀ forward record, after.edgesFwd.get forward = some record ↔
    ∃ edge, HoldsEdge before.edgesFwd edge record ∧
      (rekeyedEdge old new edge).encodeFwd = .ok forward
  count : after.edgesFwd.entries.length = before.edgesFwd.entries.length
  freed : ∀ edge record, HoldsEdge after.edgesFwd edge record → ¬ Touches old edge
  mirrored : Mirrored before.edgesFwd before.edgesRev → Mirrored after.edgesFwd after.edgesRev
  schema : after.schema = before.schema

section

variable {old new : NodeKey} {edge : EdgeKey}

theorem rekeyedEdge_of_not_touches (apart : ¬ Touches old edge) :
    rekeyedEdge old new edge = edge := by
  obtain ⟨notSrc, notDst⟩ := not_or.mp apart
  simp only [rekeyedEdge, if_neg notSrc, if_neg notDst]

theorem not_touches_rekeyedEdge (different : ¬ old.Same new) :
    ¬ Touches old (rekeyedEdge old new edge) := by
  have other : ∀ node : NodeKey, ¬ (if node.Same old then new else node).Same old := by
    intro node
    split
    · exact fun same => different ⟨same.1.symm, same.2.symm⟩
    · next apart => exact apart
  exact not_or.mpr ⟨other edge.src, other edge.dst⟩

/-- What is stored for an edge touches the nodes that the edge touches. -/
theorem touches_of_encode {stored : EdgeKey} {forward : Bytes}
    (encoded : edge.encodeFwd = .ok forward) (decoded : EdgeKey.decodeFwd forward = .ok stored)
    (node : NodeKey) : Touches node stored ↔ Touches node edge := by
  rw [EdgeKey.decodeFwd_eq_ok, decodeKey_of_encodeKey (liftEncode_eq_ok.mp encoded)] at decoded
  simp only [canonicalAll, Except.ok.injEq, List.cons.injEq, and_true] at decoded
  obtain ⟨isSrc, -, isDst, -⟩ := decoded
  have again := canonicalAll_of_decodeKey
    (decodeKey_of_encodeKey (liftEncode_eq_ok.mp encoded))
  simp only [canonicalAll, List.cons.injEq] at again
  rw [Touches, Touches, NodeKey.same_iff, NodeKey.same_iff, NodeKey.same_iff, NodeKey.same_iff,
    ← isSrc, ← isDst, again.1, again.2.2.1]

private theorem rekeyEdge_eq (record : EdgeRecord) :
    rekeyEdge old new edge record = .ok (if Touches old edge then
      [.deleteEdge edge, .putEdge (rekeyedEdge old new edge) record] else []) := by
  rw [rekeyEdge]
  by_cases touches : Touches old edge
  · have some : ¬ (¬ edge.src.Same old ∧ ¬ edge.dst.Same old) := fun none =>
      (not_or.mpr none) touches
    rw [if_neg some, if_pos touches]
    have isNew := (@EdgeKey.new_eq_ok _ _ _ _ (rekeyedEdge old new edge)).mpr ⟨rfl, rfl, rfl, rfl⟩
    simp only [rekeyedEdge] at isNew
    simp only [liftKey, isNew, ok_bind, rekeyedEdge]
  · rw [if_pos (not_or.mp touches), if_neg touches]

end

def edgeMoves (old new : NodeKey) (edges : List (EdgeKey × EdgeRecord)) : List EdgeMove :=
  (edges.filter fun row => Touches old row.1).map fun row =>
    ⟨row.1, rekeyedEdge old new row.1, row.2⟩

private theorem flatMap_edgeMoves (old new : NodeKey) (edges : List (EdgeKey × EdgeRecord)) :
    (edges.flatMap fun row => if Touches old row.1 then
      [.deleteEdge row.1, .putEdge (rekeyedEdge old new row.1) row.2] else []) =
      (edgeMoves old new edges).flatMap EdgeMove.writes := by
  induction edges with
  | nil => rfl
  | cons row edges ih =>
      rw [List.flatMap_cons, ih, edgeMoves, edgeMoves, List.filter_cons]
      by_cases touches : Touches old row.1
      · simp [touches, EdgeMove.writes]
      · simp [touches]

/-- What a rekey that is not refused stages. -/
structure RekeyStaged (manifest : Manifest) (old new : NodeKey) (writes : List Write) : Prop where
  different : ¬ old.Same new
  staged : ∃ record edges, old.encode = .ok (nodeBytes old) ∧ new.encode = .ok (nodeBytes new) ∧
    manifest.nodes.get (nodeBytes old) = some record ∧
    manifest.nodes.get (nodeBytes new) = none ∧ allEdges manifest.edgesFwd = .ok edges ∧
    writes = (edgeMoves old new edges).flatMap EdgeMove.writes ++
      [.deleteNode old, .putNode new record]

theorem rekeyWrites_staged {manifest : Manifest} {old new : NodeKey} {writes : List Write}
    (accepted : rekeyWrites manifest old new = .ok writes) :
    RekeyStaged manifest old new writes := by
  rw [rekeyWrites] at accepted
  split at accepted
  · cases accepted
  · next different =>
      obtain ⟨oldKey, oldEncoded, accepted⟩ := bind_eq_ok.mp accepted
      rw [liftGraph_eq_ok, liftKey_eq_ok] at oldEncoded
      cases isOld : manifest.nodes.get oldKey with
      | none =>
          rw [isOld] at accepted
          cases accepted
      | some record =>
          rw [isOld] at accepted
          obtain ⟨newKey, newEncoded, accepted⟩ := bind_eq_ok.mp accepted
          rw [liftGraph_eq_ok, liftKey_eq_ok] at newEncoded
          split at accepted
          · cases accepted
          · next vacant =>
              obtain ⟨edges, read, accepted⟩ := bind_eq_ok.mp accepted
              obtain ⟨moved, gathered, ⟨⟩⟩ := bind_eq_ok.mp accepted
              rw [liftGraph_eq_ok] at read gathered
              have whole := @gather_of_ok _ _ _ (fun row : EdgeKey × EdgeRecord =>
                rekeyEdge old new row.1 row.2) _ edges fun row _ => rekeyEdge_eq row.2
              cases whole.symm.trans gathered
              refine ⟨different, record, edges, ?_⟩
              rw [nodeBytes_of_encode oldEncoded, nodeBytes_of_encode newEncoded,
                flatMap_edgeMoves]
              exact ⟨oldEncoded, newEncoded, isOld, not_not.mp vacant, read, rfl⟩

section

variable {edges after : EdgeMap} {found : List (EdgeKey × EdgeRecord)} {old new : NodeKey}

private theorem keys_of_allEdges (read : allEdges edges = .ok found) :
    found.map (fun row => edgeBytes row.1) = edges.keys := by
  have each := mapM_eq_ok.mp read
  rw [SortedMap.keys]
  generalize edges.entries = entries at each
  clear read
  induction each with
  | nil => rfl
  | cons first _ ih =>
      simp only [bind_eq_ok, liftKey_eq_ok, Except.ok.injEq] at first
      obtain ⟨edge, decoded, rfl⟩ := first
      rw [List.map_cons, List.map_cons, ih,
        edgeBytes_of_encode (EdgeKey.encodeFwd_of_decodeFwd decoded)]

private theorem length_of_allEdges (read : allEdges edges = .ok found) :
    found.length = edges.entries.length := by
  have same := congrArg List.length (keys_of_allEdges read)
  rwa [SortedMap.keys, List.length_map, List.length_map] at same

/-- Edges stay apart if there are as many as before. -/
private theorem stayApart_iff_count (read : allEdges edges = .ok found)
    (encodes : ∀ edge record, HoldsEdge edges edge record →
      (rekeyedEdge old new edge).encodeFwd = .ok (edgeBytes (rekeyedEdge old new edge)))
    (whole : ∀ forward record, after.get forward = some record ↔
      ∃ edge, HoldsEdge edges edge record ∧ (rekeyedEdge old new edge).encodeFwd = .ok forward) :
    StayApart edges old new ↔ after.entries.length = edges.entries.length := by
  have reached : ∀ forward, forward ∈ after.keys ↔
      ∃ row ∈ found, edgeBytes (rekeyedEdge old new row.1) = forward := by
    intro forward
    rw [SortedMap.mem_keys, Option.ne_none_iff_exists']
    constructor
    · intro isStored
      obtain ⟨record, isStored⟩ := isStored
      obtain ⟨edge, holds, becomes⟩ := (whole forward record).mp isStored
      exact ⟨(edge, record), (mem_allEdges read).mpr holds, edgeBytes_of_encode becomes⟩
    · intro becomes
      obtain ⟨row, member, becomes⟩ := becomes
      have holds := (mem_allEdges read).mp member
      exact ⟨row.2, (whole forward row.2).mpr ⟨row.1, holds, becomes ▸ encodes _ _ holds⟩⟩
  have counted := nodup_map_iff_length after.keys_nodup reached
  rw [SortedMap.keys, List.length_map, length_of_allEdges read] at counted
  rw [← counted]
  have distinct : (found.map fun row => edgeBytes row.1).Nodup := by
    rw [keys_of_allEdges read]
    exact edges.keys_nodup
  constructor
  · intro apart
    refine List.Nodup.map_on ?_ (List.Nodup.of_map _ distinct)
    intro left isLeft right isRight same
    have leftHolds := (mem_allEdges read).mp isLeft
    have rightHolds := (mem_allEdges read).mp isRight
    have one := apart left.1 right.1 left.2 right.2 _ leftHolds rightHolds
      (encodes _ _ leftHolds) (same ▸ encodes _ _ rightHolds)
    refine Prod.ext one (Option.some.inj ?_)
    rw [← leftHolds.get.2.2, ← rightHolds.get.2.2, one]
  · intro apart left right leftRecord rightRecord forward leftHolds rightHolds leftBecomes
      rightBecomes
    have same := (edgeBytes_of_encode leftBecomes).trans (edgeBytes_of_encode rightBecomes).symm
    have one := List.inj_on_of_nodup_map apart ((mem_allEdges read).mpr leftHolds)
      ((mem_allEdges read).mpr rightHolds) same
    exact congrArg Prod.fst one

end

section

variable {old new : NodeKey} {edges : EdgeMap} {found : List (EdgeKey × EdgeRecord)}

private theorem mem_edgeMoves (read : allEdges edges = .ok found) {move : EdgeMove} :
    move ∈ edgeMoves old new found ↔ HoldsEdge edges move.source move.record ∧
      Touches old move.source ∧ move.target = rekeyedEdge old new move.source := by
  rw [edgeMoves, List.mem_map]
  constructor
  · rintro ⟨⟨edge, record⟩, member, rfl⟩
    obtain ⟨inside, touches⟩ := List.mem_filter.mp member
    exact ⟨(mem_allEdges read).mp inside, of_decide_eq_true touches, rfl⟩
  · rintro ⟨holds, touches, isTarget⟩
    refine ⟨(move.source, move.record), List.mem_filter.mpr
      ⟨(mem_allEdges read).mpr holds, decide_eq_true touches⟩, ?_⟩
    rw [← isTarget]

private theorem mem_relocations (read : allEdges edges = .ok found)
    {move : Move Bytes EdgeRecord} :
    move ∈ (edgeMoves old new found).map EdgeMove.relocation ↔
      ∃ edge record, HoldsEdge edges edge record ∧ Touches old edge ∧
        move = ⟨edgeBytes edge, edgeBytes (rekeyedEdge old new edge), record⟩ := by
  rw [List.mem_map]
  constructor
  · rintro ⟨move, member, rfl⟩
    obtain ⟨holds, touches, isTarget⟩ := (mem_edgeMoves read).mp member
    refine ⟨move.source, move.record, holds, touches, ?_⟩
    rw [EdgeMove.relocation, isTarget]
  · rintro ⟨edge, record, holds, touches, rfl⟩
    exact ⟨⟨edge, rekeyedEdge old new edge, record⟩,
      (mem_edgeMoves read).mpr ⟨holds, touches, rfl⟩, rfl⟩

private theorem encodes_moved (read : allEdges edges = .ok found)
    (encodes : ∀ write ∈ (edgeMoves old new found).flatMap EdgeMove.writes, write.Encodes)
    {edge : EdgeKey} {record : EdgeRecord} (holds : HoldsEdge edges edge record)
    (touches : Touches old edge) :
    (rekeyedEdge old new edge).encodeFwd = .ok (edgeBytes (rekeyedEdge old new edge)) := by
  have member : Write.putEdge (rekeyedEdge old new edge) record ∈
      (edgeMoves old new found).flatMap EdgeMove.writes := by
    refine List.mem_flatMap.mpr ⟨⟨edge, rekeyedEdge old new edge, record⟩,
      (mem_edgeMoves read).mpr ⟨holds, touches, rfl⟩, ?_⟩
    exact List.mem_cons_of_mem _ (List.mem_singleton_self _)
  exact encodes _ member

private theorem movable_edgeMoves (different : ¬ old.Same new)
    (read : allEdges edges = .ok found)
    (encodes : ∀ write ∈ (edgeMoves old new found).flatMap EdgeMove.writes, write.Encodes)
    (apart : StayApart edges old new) :
    Movable ((edgeMoves old new found).map EdgeMove.relocation) where
  apart := by
    intro left isLeft right isRight same
    obtain ⟨edge, record, holds, touches, rfl⟩ := (mem_relocations read).mp isLeft
    obtain ⟨other, otherRecord, otherHolds, otherTouches, rfl⟩ :=
      (mem_relocations read).mp isRight
    have encoded := encodes_moved read encodes holds touches
    dsimp only at same
    rw [same] at encoded
    exact not_touches_rekeyedEdge different
      ((touches_of_encode encoded otherHolds.get.2.1 old).mp otherTouches)
  agree := by
    intro left isLeft right isRight same
    obtain ⟨edge, record, holds, touches, rfl⟩ := (mem_relocations read).mp isLeft
    obtain ⟨other, otherRecord, otherHolds, otherTouches, rfl⟩ :=
      (mem_relocations read).mp isRight
    have encoded := encodes_moved read encodes otherHolds otherTouches
    dsimp only at same
    rw [← same] at encoded
    have one := apart edge other record otherRecord _ holds otherHolds
      (encodes_moved read encodes holds touches) encoded
    cases one
    exact Option.some.inj (holds.get.2.2.symm.trans otherHolds.get.2.2)

/-- Every edge is there once more, under the key of the edge that it becomes. -/
private theorem get_relocated (different : ¬ old.Same new) (read : allEdges edges = .ok found)
    (encodes : ∀ write ∈ (edgeMoves old new found).flatMap EdgeMove.writes, write.Encodes)
    (apart : StayApart edges old new) (forward : Bytes) (record : EdgeRecord) :
    (edges.applyAll (((edgeMoves old new found).map EdgeMove.relocation).flatMap
        Move.ops)).get forward = some record ↔
      ∃ edge, HoldsEdge edges edge record ∧ (rekeyedEdge old new edge).encodeFwd = .ok forward := by
  rw [edges.get_applyAll_moves (movable_edgeMoves different read encodes apart)]
  constructor
  · rintro (⟨move, member, rfl, rfl⟩ | ⟨isStored, free⟩)
    · obtain ⟨edge, stored, holds, touches, rfl⟩ := (mem_relocations read).mp member
      exact ⟨edge, holds, encodes_moved read encodes holds touches⟩
    · obtain ⟨edge, decoded, holds⟩ := holdsEdge_of_get read isStored
      have encoded := EdgeKey.encodeFwd_of_decodeFwd decoded
      have still : ¬ Touches old edge := fun touches =>
        (free _ ((mem_relocations read).mpr ⟨edge, record, holds, touches, rfl⟩)).1
          (edgeBytes_of_encode encoded)
      exact ⟨edge, holds, by rw [rekeyedEdge_of_not_touches still, encoded]⟩
  · rintro ⟨edge, holds, becomes⟩
    by_cases touches : Touches old edge
    · exact .inl ⟨_, (mem_relocations read).mpr ⟨edge, record, holds, touches, rfl⟩,
        edgeBytes_of_encode becomes, rfl⟩
    · have encoded := holds.get.1
      have unmoved := becomes
      rw [rekeyedEdge_of_not_touches touches] at unmoved
      cases encoded.symm.trans unmoved
      refine .inr ⟨holds.get.2.2, fun move member => ?_⟩
      obtain ⟨other, otherRecord, otherHolds, otherTouches, rfl⟩ :=
        (mem_relocations read).mp member
      constructor
      · intro same
        have decoded := otherHolds.get.2.1
        dsimp only at same
        rw [same, holds.get.2.1] at decoded
        cases decoded
        exact touches otherTouches
      · intro same
        have moved := encodes_moved read encodes otherHolds otherTouches
        dsimp only at same
        rw [same] at moved
        cases apart edge other record otherRecord _ holds otherHolds becomes moved
        exact touches otherTouches

end

section

variable {repo : Repository} {next : Workspace} {old new : NodeKey}

/-- A rekey that is saved: what it staged, and what became of each map. -/
structure RekeySaved (repo : Repository) (old new : NodeKey) (next : Workspace) : Prop where
  different : ¬ old.Same new
  record : ∃ record, old.encode = .ok (nodeBytes old) ∧ new.encode = .ok (nodeBytes new) ∧
    repo.workspace.manifest.nodes.get (nodeBytes old) = some record ∧
    repo.workspace.manifest.nodes.get (nodeBytes new) = none ∧
    next.manifest.nodes = repo.workspace.manifest.nodes.applyAll
      [.delete (nodeBytes old), .put (nodeBytes new) record]
  edges : ∃ found, allEdges repo.workspace.manifest.edgesFwd = .ok found ∧
    (∀ write ∈ (edgeMoves old new found).flatMap EdgeMove.writes, write.Encodes) ∧
    next.manifest.edgesFwd = repo.workspace.manifest.edgesFwd.applyAll
      (((edgeMoves old new found).map EdgeMove.relocation).flatMap Move.ops)
  mirrored : Mirrored repo.workspace.manifest.edgesFwd repo.workspace.manifest.edgesRev →
    Mirrored next.manifest.edgesFwd next.manifest.edgesRev
  schema : next.manifest.schema = repo.workspace.manifest.schema

theorem rekeySaved_of_savedAs
    (saved : repo.SavedAs (rekeyWrites repo.workspace.manifest old new) next) :
    RekeySaved repo old new next := by
  obtain ⟨writes, txn, accepted, written, saved⟩ := saved
  obtain ⟨different, record, found, oldEncoded, newEncoded, isOld, vacant, read, rfl⟩ :=
    rekeyWrites_staged accepted
  have staged := stagedBy_of_writeAll written
  have isBase : txn.base = repo.workspace := staged.base
  have maps := Transaction.saveInPlace_maps saved
  obtain ⟨noNodes, noSchema⟩ := EdgeMove.otherOps_writes (edgeMoves old new found)
  refine ⟨different, ⟨record, oldEncoded, newEncoded, isOld, vacant, ?_⟩,
    ⟨found, read, ?_, ?_⟩, ?_, ?_⟩
  · rw [maps, Transaction.applied, staged.nodes, isBase, List.flatMap_append, noNodes]
    rfl
  · exact fun write member => staged.encodes write (List.mem_append_left _ member)
  · rw [maps, Transaction.applied, staged.edgesFwd, isBase, List.flatMap_append,
      EdgeMove.edgeOps_writes]
    simp [Transaction.beginWrite, Write.edgeOps]
  · intro mirrored
    have inStep := @Transaction.stage_inStep repo.workspace mirrored
      ((edgeMoves old new found).flatMap EdgeMove.writes ++ [.deleteNode old, .putNode new record])
    rw [Transaction.writeAll_eq_stage written] at inStep
    rw [maps]
    exact inStep
  · rw [maps, Transaction.applied, staged.schema, isBase, List.flatMap_append, noSchema]
    rfl

private theorem RekeySaved.node (saved : RekeySaved repo old new next) :
    ∃ oldKey newKey record, old.encode = .ok oldKey ∧ new.encode = .ok newKey ∧
      repo.workspace.manifest.nodes.get oldKey = some record ∧
      repo.workspace.manifest.nodes.get newKey = none ∧
      ∀ key, next.manifest.nodes.get key = if key = newKey then some record
        else if key = oldKey then none else repo.workspace.manifest.nodes.get key := by
  obtain ⟨record, oldEncoded, newEncoded, isOld, vacant, isNodes⟩ := saved.record
  refine ⟨_, _, record, oldEncoded, newEncoded, isOld, vacant, fun key => ?_⟩
  rw [isNodes, SortedMap.applyAll, List.foldl_cons, List.foldl_cons, List.foldl_nil,
    MapOp.get_apply, MapOp.get_apply]
  simp only [MapOp.key, MapOp.outcome, eq_comm]

private theorem RekeySaved.changed (saved : RekeySaved repo old new next) :
    next.manifest ≠ repo.workspace.manifest := by
  obtain ⟨oldKey, newKey, record, -, -, isOld, vacant, rows⟩ := saved.node
  intro same
  have isNew := rows newKey
  rw [if_pos rfl, same, vacant] at isNew
  cases isNew

private theorem RekeySaved.encodes (saved : RekeySaved repo old new next) :
    ∃ found, allEdges repo.workspace.manifest.edgesFwd = .ok found ∧
      ∀ edge record, HoldsEdge repo.workspace.manifest.edgesFwd edge record →
        (rekeyedEdge old new edge).encodeFwd = .ok (edgeBytes (rekeyedEdge old new edge)) := by
  obtain ⟨found, read, encodes, -⟩ := saved.edges
  refine ⟨found, read, fun edge record holds => ?_⟩
  by_cases touches : Touches old edge
  · exact encodes_moved read encodes holds touches
  · rw [rekeyedEdge_of_not_touches touches]
    exact holds.get.1

theorem RekeySaved.source_of (saved : RekeySaved repo old new next) {edge : EdgeKey}
    {record : EdgeRecord} (holds : HoldsEdge next.manifest.edgesFwd edge record) :
    ∃ source, HoldsEdge repo.workspace.manifest.edgesFwd source record ∧
      (rekeyedEdge old new source).encodeFwd = .ok (edgeBytes edge) := by
  obtain ⟨found, read, encodes, isEdges⟩ := saved.edges
  have isThere := holds.get.2.2
  rw [isEdges] at isThere
  rcases get_applyAll_cases isThere with ⟨op, member, isKey, isRecord⟩ | ⟨free, before⟩
  · obtain ⟨move, isMove, isOp⟩ := List.mem_flatMap.mp member
    obtain ⟨source, own, sourceHolds, touches, rfl⟩ := (mem_relocations read).mp isMove
    simp only [Move.ops, List.mem_cons, List.not_mem_nil, or_false] at isOp
    rcases isOp with rfl | rfl
    · cases isRecord
    · cases isRecord
      exact ⟨source, sourceHolds, isKey ▸ encodes_moved read encodes sourceHolds touches⟩
  · have still : ¬ Touches old edge := by
      intro touches
      have isMove := (@mem_relocations old new _ _ read _).mpr
        ⟨edge, record, ⟨_, holds.get.2.1, before⟩, touches, rfl⟩
      exact free _ (List.mem_flatMap.mpr ⟨_, isMove, List.mem_cons_self⟩) rfl
    refine ⟨edge, ⟨_, holds.get.2.1, before⟩, ?_⟩
    rw [rekeyedEdge_of_not_touches still]
    exact holds.get.1

private theorem RekeySaved.rekeyedFrom (saved : RekeySaved repo old new next)
    (apart : StayApart repo.workspace.manifest.edgesFwd old new) :
    RekeyedFrom repo.workspace.manifest next.manifest old new := by
  have edges : ∀ forward record, next.manifest.edgesFwd.get forward = some record ↔
      ∃ edge, HoldsEdge repo.workspace.manifest.edgesFwd edge record ∧
        (rekeyedEdge old new edge).encodeFwd = .ok forward := by
    obtain ⟨found, read, encodes, isEdges⟩ := saved.edges
    rw [isEdges]
    exact get_relocated saved.different read encodes apart
  refine ⟨saved.node, edges, ?_, ?_, saved.mirrored, saved.schema⟩
  · obtain ⟨found, read, encodes⟩ := saved.encodes
    exact (stayApart_iff_count read encodes edges).mp apart
  · rintro edge stored ⟨forward, decoded, isStored⟩ touches
    obtain ⟨other, -, becomes⟩ := (edges forward stored).mp isStored
    exact not_touches_rekeyedEdge saved.different
      ((touches_of_encode becomes decoded old).mp touches)

end

private theorem rekeyed_inj {old new left right : NodeKey}
    (leftFixed : canonical left.toValue = left.toValue)
    (rightFixed : canonical right.toValue = right.toValue)
    (leftFree : ¬ left.Same new) (rightFree : ¬ right.Same new)
    (same : canonical (if left.Same old then new else left).toValue =
      canonical (if right.Same old then new else right).toValue) : left = right := by
  split at same
  · next leftOld =>
    split at same
    · next rightOld =>
      rw [NodeKey.same_iff] at leftOld rightOld
      refine NodeKey.toValue_injective ?_
      rw [← leftFixed, ← rightFixed, leftOld, rightOld]
    · exact absurd (NodeKey.same_iff.mpr same.symm) rightFree
  · split at same
    · exact absurd (NodeKey.same_iff.mpr same) leftFree
    · exact NodeKey.toValue_injective (by rw [← leftFixed, ← rightFixed, same])

/-- An endpoint that is the new node is stored under the new node's key. -/
private theorem encode_of_same {endpoint new : NodeKey} {key newKey : Bytes}
    (encoded : new.encode = .ok newKey) (stored : NodeKey.decode key = .ok endpoint)
    (same : endpoint.Same new) : endpoint.encode = .ok newKey := by
  have decoded := decodeKey_of_encodeKey (liftEncode_eq_ok.mp encoded)
  rw [NodeKey.same_iff, NodeKey.canonical_of_decode stored] at same
  simp only [canonicalAll, ← same] at decoded
  exact NodeKey.encode_of_decode (NodeKey.decode_eq_ok.mpr decoded)

/-- Edges stay apart where no stored edge dangles. -/
theorem Repository.stayApart_of_noDangling {repo : Repository} {old new : NodeKey}
    {next : Workspace} (saved : repo.SavedAs (rekeyWrites repo.workspace.manifest old new) next)
    (whole : NoDangling repo.workspace.manifest.nodes repo.workspace.manifest.edgesFwd) :
    StayApart repo.workspace.manifest.edgesFwd old new := by
  obtain ⟨record, -, encoded, -, vacant, -⟩ := (rekeySaved_of_savedAs saved).record
  have free : ∀ edge record, HoldsEdge repo.workspace.manifest.edgesFwd edge record →
      ¬ edge.src.Same new ∧ ¬ edge.dst.Same new := by
    intro edge record holds
    obtain ⟨-, decoded, isStored⟩ := holds.get
    obtain ⟨src, dst, -, -, isSrc, isDst⟩ := EdgeKey.endpoint_of_decodeFwd decoded
    have anchored := whole _
      (SortedMap.mem_keys.mpr (Option.ne_none_iff_exists'.mpr ⟨record, isStored⟩)) edge decoded
    constructor
    · intro same
      exact SortedMap.mem_keys.mp
        (anchored edge.src (by simp) _ (encode_of_same encoded isSrc same)) vacant
    · intro same
      exact SortedMap.mem_keys.mp
        (anchored edge.dst (by simp) _ (encode_of_same encoded isDst same)) vacant
  intro left right leftRecord rightRecord forward leftHolds rightHolds leftBecomes rightBecomes
  have leftParts := decodeKey_of_encodeKey (liftEncode_eq_ok.mp leftBecomes)
  have rightParts := decodeKey_of_encodeKey (liftEncode_eq_ok.mp rightBecomes)
  have same := Except.ok.inj (leftParts.symm.trans rightParts)
  simp only [canonicalAll, List.cons.injEq, and_true, rekeyedEdge, canonical,
    Value.string.injEq] at same
  obtain ⟨leftSrc, leftDst, leftDisc⟩ := canonical_of_decodeFwd leftHolds.get.2.1
  obtain ⟨rightSrc, rightDst, rightDisc⟩ := canonical_of_decodeFwd rightHolds.get.2.1
  have oneSrc := rekeyed_inj leftSrc rightSrc (free _ _ leftHolds).1 (free _ _ rightHolds).1 same.1
  have oneDst :=
    rekeyed_inj leftDst rightDst (free _ _ leftHolds).2 (free _ _ rightHolds).2 same.2.2.1
  have oneDisc := same.2.2.2
  rw [leftDisc, rightDisc] at oneDisc
  obtain ⟨src, rtype, dst, disc, checked⟩ := left
  cases oneSrc
  cases same.2.1
  cases oneDst
  cases oneDisc
  rfl

/-- A rekey fails and leaves the workspace, or the workspace has the node and each of
its edges under the new key, and all else as it was, just if no two edges become one
in what it saves. -/
theorem Repository.rekey_moves_iff (hash : Commit → Nat) (repo : Repository) (old new : NodeKey)
    (stamp : Nat) :
    (repo.Untouched (repo.rekey hash old new stamp) ∨
      RekeyedFrom repo.workspace.manifest (repo.rekey hash old new stamp).2.workspace.manifest
        old new ∧
      ∀ commit, (repo.rekey hash old new stamp).1 = .ok commit →
        commit.manifest = (repo.rekey hash old new stamp).2.workspace.manifest ∧
          (repo.rekey hash old new stamp).2.headCommit = some commit) ↔
    ((∃ next, repo.SavedAs (rekeyWrites repo.workspace.manifest old new) next) →
      StayApart repo.workspace.manifest.edgesFwd old new) := by
  constructor
  · rintro either ⟨next, savedAs⟩
    have saved := rekeySaved_of_savedAs savedAs
    have commits := @commitWrites_of_saved hash _ _ _ savedAs stamp
    rcases either with ⟨-, still⟩ | ⟨rekeyed, -⟩
    · have isNext := commits.workspace
      rw [← Repository.rekey, still] at isNext
      exact absurd isNext.symm saved.changed
    · obtain ⟨found, read, encodes⟩ := saved.encodes
      exact (stayApart_iff_count read encodes rekeyed.edges).mpr rekeyed.count
  · intro apart
    rcases @commitWrites_cases hash repo (rekeyWrites repo.workspace.manifest old new) stamp with
      untouched | ⟨next, savedAs⟩
    · exact .inl untouched
    · have commits := @commitWrites_of_saved hash _ _ _ savedAs stamp
      have moved := (rekeySaved_of_savedAs savedAs).rekeyedFrom (apart ⟨next, savedAs⟩)
      rw [← commits.workspace] at moved
      refine .inr ⟨moved, fun commit done => ?_⟩
      obtain ⟨isManifest, isHead⟩ := commits.commit commit done
      exact ⟨isManifest.trans commits.workspace.symm, isHead⟩

/-! A side branch adds an edge to a node that the main branch deletes.  The merge leaves
the edge without its node, and a rekey onto that node brings another edge under its
key. -/

def linkTo (src dst : Int64) : Write :=
  .putEdge ⟨hostKey src, "Links", hostKey dst, .null, by rfl⟩ ⟨.empty⟩

def bareNode (id : Int64) : Write := .putNode (hostKey id) ⟨∅, .empty⟩

def hostBranches : Repository :=
  [.commit [bareNode 1, bareNode 2, bareNode 3, linkTo 1 3] false 0, .createBranch "side" none,
    .checkoutBranch "side", .commit [linkTo 2 3] false 1, .checkoutBranch "main",
    .commit [.deleteNode (hostKey 2)] false 2].foldl (Repository.perform Repository.sampleHash) .init

def hostMerge : Repository :=
  hostBranches.perform Repository.sampleHash
    (.merge ((hostBranches.branches.get "side").getD (.initial blank.manifest 0)) 3)

/-- A rekey that succeeds with one edge for two. -/
theorem Repository.rekey_unites_edges :
    ¬ (hostMerge.Untouched (hostMerge.rekey sampleHash (hostKey 1) (hostKey 2) 4) ∨
      RekeyedFrom hostMerge.workspace.manifest
        (hostMerge.rekey sampleHash (hostKey 1) (hostKey 2) 4).2.workspace.manifest (hostKey 1) (hostKey 2) ∧
      ∀ commit, (hostMerge.rekey sampleHash (hostKey 1) (hostKey 2) 4).1 = .ok commit →
        commit.manifest =
            (hostMerge.rekey sampleHash (hostKey 1) (hostKey 2) 4).2.workspace.manifest ∧
          (hostMerge.rekey sampleHash (hostKey 1) (hostKey 2) 4).2.headCommit = some commit) := by
  have fewer : (hostMerge.rekey sampleHash (hostKey 1) (hostKey 2)
      4).2.workspace.manifest.edgesFwd.entries.length ≠
        hostMerge.workspace.manifest.edgesFwd.entries.length := by
    decide +kernel
  rintro (⟨-, still⟩ | ⟨rekeyed, -⟩)
  · exact fewer (congrArg (fun workspace : Workspace => workspace.manifest.edgesFwd.entries.length)
      still)
  · exact fewer rekeyed.count

end Acetone.Graph

import Acetone.Graph.ConstraintUpkeep
import Acetone.Graph.IndexDrift
import Acetone.Graph.Integrity
import Acetone.Graph.Mirroring
import Acetone.Graph.StagedWrites
import Acetone.Graph.TypedSaves

/-!
# Batches

A batch writes some nodes and then some edges.  What it stages is one update
for each of them, and its save succeeds on a settled workspace if every record
conforms to its declared types and no edge dangles.
-/

namespace Acetone.Graph

open Acetone.Lib Acetone.Model

def nodeWrites (puts : List (NodeKey × NodeRecord)) : List Write :=
  puts.map fun put => .putNode put.1 put.2

def edgeWrites (puts : List (EdgeKey × EdgeRecord)) : List Write :=
  puts.map fun put => .putEdge put.1 put.2

theorem flatMap_nodeWrites (puts : List (NodeKey × NodeRecord)) :
    (nodeWrites puts).flatMap Write.nodeOps =
        puts.map (fun put => .put (nodeBytes put.1) put.2) ∧
      (nodeWrites puts).flatMap Write.edgeOps = [] ∧
        (nodeWrites puts).flatMap Write.reverseOps = [] ∧
          (nodeWrites puts).flatMap Write.schemaOps = [] := by
  induction puts with
  | nil => exact ⟨rfl, rfl, rfl, rfl⟩
  | cons put puts ih =>
      obtain ⟨nodes, edges, reverse, schema⟩ := ih
      simp only [nodeWrites, List.map_cons, List.flatMap_cons, Write.nodeOps, Write.edgeOps,
        Write.reverseOps, Write.schemaOps, List.nil_append, List.singleton_append] at *
      exact ⟨by rw [nodes], edges, reverse, schema⟩

theorem flatMap_edgeWrites (puts : List (EdgeKey × EdgeRecord)) :
    (edgeWrites puts).flatMap Write.edgeOps =
        puts.map (fun put => .put (edgeBytes put.1) put.2) ∧
      (edgeWrites puts).flatMap Write.reverseOps =
          puts.map (fun put => .put (reverseBytes put.1) ()) ∧
        (edgeWrites puts).flatMap Write.nodeOps = [] ∧
          (edgeWrites puts).flatMap Write.schemaOps = [] := by
  induction puts with
  | nil => exact ⟨rfl, rfl, rfl, rfl⟩
  | cons put puts ih =>
      obtain ⟨edges, reverse, nodes, schema⟩ := ih
      simp only [edgeWrites, List.map_cons, List.flatMap_cons, Write.nodeOps, Write.edgeOps,
        Write.reverseOps, Write.schemaOps, List.nil_append, List.singleton_append] at *
      exact ⟨by rw [edges], by rw [reverse], nodes, schema⟩

namespace Transaction

variable {txn after : Transaction}

theorem writeAll_append {first second : List Write} :
    txn.writeAll (first ++ second) = .ok after ↔
      ∃ middle, txn.writeAll first = .ok middle ∧ middle.writeAll second = .ok after := by
  induction first generalizing txn with
  | nil =>
      constructor
      · exact fun ends => ⟨txn, rfl, ends⟩
      · rintro ⟨_, ⟨⟩, ends⟩
        exact ends
  | cons write first ih =>
      constructor
      · intro writes
        obtain ⟨next, starts, rest⟩ := bind_eq_ok.mp writes
        obtain ⟨middle, begins, ends⟩ := ih.mp rest
        exact ⟨middle, bind_eq_ok.mpr ⟨next, starts, begins⟩, ends⟩
      · rintro ⟨middle, begins, ends⟩
        obtain ⟨next, starts, begins⟩ := bind_eq_ok.mp begins
        exact bind_eq_ok.mpr ⟨next, starts, ih.mpr ⟨middle, begins, ends⟩⟩

/-- The rows that nodes are staged under are those that a tracker reads. -/
theorem writeAll_nodeWrites {nodes : List (NodeKey × NodeRecord)} :
    txn.writeAll (nodeWrites nodes) = .ok after ↔
      ∃ rows, (nodes.mapM fun put => do
          let key ← ofGraphError (liftKey put.1.encode)
          .ok (key, put)) = .ok rows ∧
        after = { txn with nodes := txn.nodes ++ rows.map fun row => .put row.1 row.2.2 } := by
  induction nodes generalizing txn with
  | nil =>
      constructor
      · rintro ⟨⟩
        exact ⟨[], rfl, by simp⟩
      · rintro ⟨_, ⟨⟩, rfl⟩
        simp [nodeWrites, writeAll]
  | cons put nodes ih =>
      simp only [nodeWrites, List.map_cons, writeAll, List.mapM_cons, bind_eq_ok,
        Transaction.write, putNode, liftKey_eq_ok, ofGraphError, mapError_eq_ok, Except.ok.injEq,
        pure, Except.pure]
      constructor
      · rintro ⟨_, ⟨own, encodes, rfl⟩, rest⟩
        obtain ⟨rows, reads, rfl⟩ := ih.mp rest
        exact ⟨_, ⟨(own, put), ⟨own, encodes, rfl⟩, rows, reads, rfl⟩, by simp⟩
      · rintro ⟨_, ⟨_, ⟨own, encodes, rfl⟩, rows, reads, rfl⟩, rfl⟩
        exact ⟨_, ⟨own, encodes, rfl⟩, ih.mpr ⟨rows, reads, by simp⟩⟩

theorem writeAll_edgeWrites {edges : List (EdgeKey × EdgeRecord)}
    (written : txn.writeAll (edgeWrites edges) = .ok after) :
    after.base = txn.base ∧ after.schema = txn.schema ∧ after.nodes = txn.nodes ∧
      ∀ op, op ∈ after.edgesFwd ↔ op ∈ txn.edgesFwd ∨
        ∃ put ∈ edges, ∃ forward, put.1.encodeFwd = .ok forward ∧ op = .put forward put.2 := by
  induction edges generalizing txn with
  | nil =>
      cases written
      simp
  | cons put edges ih =>
      obtain ⟨middle, puts, rest⟩ := bind_eq_ok.mp written
      obtain ⟨forward, encodes, puts⟩ := bind_eq_ok.mp puts
      obtain ⟨backward, -, ⟨⟩⟩ := bind_eq_ok.mp puts
      obtain ⟨sameBase, sameSchema, sameNodes, members⟩ := ih rest
      refine ⟨sameBase, sameSchema, sameNodes, ?_⟩
      intro op
      have encodes := liftKey_eq_ok.mp encodes
      rw [members, List.mem_append, List.mem_singleton, List.exists_mem_cons_iff, or_assoc]
      refine or_congr_right (or_congr_left ?_)
      constructor
      · rintro rfl
        exact ⟨forward, encodes, rfl⟩
      · rintro ⟨_, again, rfl⟩
        rw [encodes, Except.ok.injEq] at again
        rw [again]

theorem writeAll_edgeWrites_total {edges : List (EdgeKey × EdgeRecord)}
    (encode : ∀ put ∈ edges, ∃ forward, put.1.encodeFwd = .ok forward) (txn : Transaction) :
    ∃ after, txn.writeAll (edgeWrites edges) = .ok after := by
  induction edges generalizing txn with
  | nil => exact ⟨txn, rfl⟩
  | cons put edges ih =>
      obtain ⟨⟨forward, encodesFwd⟩, encode⟩ := List.forall_mem_cons.mp encode
      obtain ⟨backward, encodesRev⟩ := EdgeKey.encodeRev_of_encodeFwd encodesFwd
      obtain ⟨after, rest⟩ := ih encode { txn with
        edgesFwd := txn.edgesFwd ++ [.put forward put.2]
        edgesRev := txn.edgesRev ++ [.put backward ()] }
      refine ⟨after, bind_eq_ok.mpr ⟨_, ?_, rest⟩⟩
      simp only [Transaction.write, putEdge, encodesFwd, encodesRev, liftKey, ok_bind]

end Transaction

section

variable {V : Type} {map target : SortedMap Bytes V} {ops : List (MapOp Bytes V)}

/-- Every update puts what a map has under its key. -/
def AgreeWith (target : SortedMap Bytes V) (ops : List (MapOp Bytes V)) : Prop :=
  ∀ op ∈ ops, ∃ value, op = .put op.key value ∧ target.get op.key = some value

/-- A part of the map stays one, and gains what was put. -/
theorem AgreeWith.get_applyAll (agree : AgreeWith target ops)
    (part : ∀ key value, map.get key = some value → target.get key = some value) :
    (∀ key value, (map.applyAll ops).get key = some value → target.get key = some value) ∧
    (∀ key value, map.get key = some value → (map.applyAll ops).get key = some value) ∧
    ∀ op ∈ ops, (map.applyAll ops).get op.key = target.get op.key := by
  have written : ∀ op ∈ ops, (map.applyAll ops).get op.key = target.get op.key := by
    intro op isOp
    rw [SortedMap.get_applyAll]
    cases last : lastFor MapOp.key op.key ops with
    | none => exact absurd rfl ((lastFor_eq_none _).mp last op isOp)
    | some final =>
        obtain ⟨isFinal, isKey⟩ := key_of_lastFor _ last
        obtain ⟨value, isPut, found⟩ := agree final isFinal
        rw [isKey] at found
        rw [found]
        dsimp only
        rw [isPut]
        rfl
  refine ⟨?_, ?_, written⟩
  · intro key value found
    rcases get_applyAll_cases found with ⟨op, isOp, rfl, -⟩ | ⟨-, before⟩
    · rw [← written op isOp]
      exact found
    · exact part key value before
  · intro key value before
    by_cases isWritten : ∃ op ∈ ops, op.key = key
    · obtain ⟨op, isOp, rfl⟩ := isWritten
      rw [written op isOp]
      exact part op.key value before
    · rw [SortedMap.get_applyAll_of_absent fun op isOp same => isWritten ⟨op, isOp, same⟩]
      exact before

end

structure BatchStaged (base : Workspace) (nodes : List (NodeKey × NodeRecord))
    (edges : List (EdgeKey × EdgeRecord)) (txn : Transaction) : Prop where
  ofBase : txn.base = base
  schema : txn.schema = []
  rows : ∃ rows, (nodes.mapM fun put => do
      let key ← ofGraphError (liftKey put.1.encode)
      .ok (key, put)) = .ok rows ∧ txn.nodes = rows.map fun row => .put row.1 row.2.2
  edges : ∀ op, op ∈ txn.edgesFwd ↔
    ∃ put ∈ edges, ∃ forward, put.1.encodeFwd = .ok forward ∧ op = .put forward put.2
  keys : txn.StagedKeys
  inStep : Mirrored base.manifest.edgesFwd base.manifest.edgesRev → txn.InStep

section

variable {base next : Workspace} {nodes : List (NodeKey × NodeRecord)}
  {edges : List (EdgeKey × EdgeRecord)} {txn : Transaction}

theorem batchStaged (written : (Transaction.beginWrite base).writeAll
    (nodeWrites nodes ++ edgeWrites edges) = .ok txn) : BatchStaged base nodes edges txn := by
  have isStage := Transaction.writeAll_eq_stage written
  obtain ⟨middle, putsNodes, putsEdges⟩ := Transaction.writeAll_append.mp written
  obtain ⟨rows, reads, rfl⟩ := Transaction.writeAll_nodeWrites.mp putsNodes
  obtain ⟨sameBase, sameSchema, sameNodes, members⟩ := Transaction.writeAll_edgeWrites putsEdges
  refine ⟨sameBase, sameSchema, ⟨rows, reads, sameNodes⟩, ?_, ?_, ?_⟩
  · intro op
    rw [members]
    exact or_iff_right List.not_mem_nil
  · exact isStage ▸ Transaction.stage_stagedKeys base _
  · intro mirrored
    exact isStage ▸ Transaction.stage_inStep mirrored _

theorem batchStaged_total (nodesEncode : ∀ put ∈ nodes, ∃ own, put.1.encode = .ok own)
    (edgesEncode : ∀ put ∈ edges, ∃ forward, put.1.encodeFwd = .ok forward) (base : Workspace) :
    ∃ txn, (Transaction.beginWrite base).writeAll (nodeWrites nodes ++ edgeWrites edges) =
      .ok txn := by
  obtain ⟨rows, reads⟩ := @mapM_total _ _ _ (fun put : NodeKey × NodeRecord => do
    let key ← ofGraphError (liftKey put.1.encode)
    (.ok (key, put) : Except ImportError (Bytes × NodeKey × NodeRecord))) nodes (by
      intro put isPut
      obtain ⟨own, encodes⟩ := nodesEncode put isPut
      exact ⟨(own, put), by rw [encodes]; rfl⟩)
  obtain ⟨txn, putsEdges⟩ := Transaction.writeAll_edgeWrites_total edgesEncode _
  exact ⟨txn, Transaction.writeAll_append.mpr
    ⟨_, Transaction.writeAll_nodeWrites.mpr ⟨rows, reads, rfl⟩, putsEdges⟩⟩

namespace BatchStaged

variable (staged : BatchStaged base nodes edges txn)

include staged

theorem applied_schema : txn.applied.schema = base.manifest.schema := by
  rw [Transaction.applied, staged.ofBase, staged.schema]
  rfl

theorem applied_nodes : txn.applied.nodes = base.manifest.nodes.applyAll txn.nodes := by
  rw [Transaction.applied, staged.ofBase]

theorem applied_edgesFwd :
    txn.applied.edgesFwd = base.manifest.edgesFwd.applyAll txn.edgesFwd := by
  rw [Transaction.applied, staged.ofBase]

theorem mem_nodes {op : MapOp Bytes NodeRecord} :
    op ∈ txn.nodes ↔ ∃ put ∈ nodes, ∃ own, put.1.encode = .ok own ∧ op = .put own put.2 := by
  obtain ⟨rows, reads, isRows⟩ := staged.rows
  rw [isRows, List.mem_map]
  constructor
  · rintro ⟨row, isRow, rfl⟩
    obtain ⟨put, isPut, made⟩ := exists_of_mem_mapM reads isRow
    obtain ⟨own, encodes, ⟨⟩⟩ := bind_eq_ok.mp made
    exact ⟨put, isPut, own, liftKey_eq_ok.mp (mapError_eq_ok.mp encodes), rfl⟩
  · rintro ⟨put, isPut, own, encodes, rfl⟩
    obtain ⟨row, isRow, made⟩ := mem_of_mapM_eq_ok reads isPut
    rw [encodes] at made
    cases made
    exact ⟨_, isRow, rfl⟩

/-- The last record of a key counts. -/
theorem results {surviving : SortedMap Bytes (NodeKey × NodeRecord)}
    (made : UniqueTracker.survivors nodes = .ok surviving) (key : Bytes) :
    txn.applied.nodes.get key =
      ((surviving.get key).map Prod.snd).or (base.manifest.nodes.get key) := by
  obtain ⟨rows, reads, isRows⟩ := staged.rows
  obtain ⟨again, alsoReads, ⟨⟩⟩ := bind_eq_ok.mp made
  rw [reads, Except.ok.injEq] at alsoReads
  subst alsoReads
  have byKey : lastFor (fun row : Bytes × NodeKey × NodeRecord =>
      (MapOp.put row.1 row.2.2).key) key rows = lastFor Prod.fst key rows := rfl
  rw [staged.applied_nodes, isRows, SortedMap.get_applyAll, SortedMap.get_ofList, lastFor_map,
    byKey]
  cases lastFor Prod.fst key rows <;> rfl

theorem no_deletes : deleteKeys txn.nodes = [] := by
  rw [List.eq_nil_iff_forall_not_mem]
  intro key isDelete
  obtain ⟨put, -, own, -, wrong⟩ := staged.mem_nodes.mp (mem_deleteKeys.mp isDelete)
  cases wrong

private theorem maintainIndexes_total (keyed : Keyed base.manifest) {entries : List SchemaEntry}
    (readable : readSchema base.manifest.schema = .ok entries) :
    ∃ indexes, txn.maintainIndexes = .ok indexes := by
  have keyedAfter : Keyed txn.applied :=
    Transaction.applied_keyed (staged.ofBase.symm ▸ keyed) staged.keys
  rw [Transaction.maintainIndexes]
  split
  · exact ⟨_, rfl⟩
  · rw [staged.applied_schema, staged.ofBase, readable, ok_bind, ok_bind]
    obtain ⟨states, reads⟩ : ∃ states, touchedStates base.manifest.nodes txn.applied.nodes
        (txn.nodes.map MapOp.key) = .ok states := by
      apply mapM_total
      intro key touched
      have isTouched : lastFor id key (txn.nodes.map MapOp.key) ≠ none := by
        rw [← lastFor_sortDedupe]
        exact fun absent => (lastFor_eq_none _).mp absent key touched rfl
      obtain ⟨other, isLast⟩ := Option.ne_none_iff_exists'.mp isTouched
      obtain ⟨isKey, rfl⟩ := key_of_lastFor _ isLast
      obtain ⟨op, isOp, rfl⟩ := List.mem_map.mp isKey
      obtain ⟨node, decodes⟩ := staged.keys.nodes op isOp
      exact ⟨_, bind_eq_ok.mpr ⟨node, liftKey_eq_ok.mpr decodes, rfl⟩⟩
    rw [maintain, reads, ok_bind]
    apply bind_total
    · apply mapM_total
      rintro ⟨name, decl⟩ -
      dsimp only
      cases (txn.baseForMaintain entries entries).get name with
      | some set => exact ⟨_, rfl⟩
      | none =>
          obtain ⟨set, builds⟩ := @buildFull_total txn.applied.nodes decl (labelKeys entries)
            keyedAfter.nodes
          exact ⟨_, bind_eq_ok.mpr ⟨set, builds, rfl⟩⟩
    · exact fun maintained => ⟨_, rfl⟩

/-- A batch of conforming records without dangling edges is saved on a settled
workspace. -/
theorem save_total (settled : base.conflicts = none) (keyed : Keyed base.manifest)
    (mirrored : Mirrored base.manifest.edgesFwd base.manifest.edgesRev)
    {entries : List SchemaEntry} (readable : readSchema base.manifest.schema = .ok entries)
    (nodesConform : StagedConforms nodeTypeRules base.manifest.schema txn.nodes)
    (edgesConform : StagedConforms edgeTypeRules base.manifest.schema txn.edgesFwd)
    (anchored : ∀ forward ∈ putKeys txn.edgesFwd, Anchored txn.applied.nodes forward) :
    ∃ next, txn.saveInPlace false = .ok next := by
  obtain ⟨indexes, maintains⟩ := staged.maintainIndexes_total keyed readable
  have nodeTypes : checkStagedNodeTypes txn.applied.schema txn.nodes = .ok () := by
    rw [staged.applied_schema]
    refine (checkStagedTypes_eq_ok nodeTypeRules_lawful keyed.schema ?_ readable).mpr nodesConform
    intro op isOp
    obtain ⟨node, decodes⟩ := staged.keys.nodes op isOp
    exact ⟨node, liftKey_eq_ok.mpr decodes⟩
  have edgeTypes : checkStagedEdgeTypes txn.applied.schema txn.edgesFwd = .ok () := by
    rw [staged.applied_schema]
    refine (checkStagedTypes_eq_ok edgeTypeRules_lawful keyed.schema ?_ readable).mpr edgesConform
    intro op isOp
    obtain ⟨edge, decodes⟩ := staged.keys.edges op isOp
    exact ⟨edge, liftKey_eq_ok.mpr decodes⟩
  have schemaChange : txn.checkSchemaChange = .ok () := by
    rw [Transaction.checkSchemaChange, staged.schema]
    rfl
  have integrity : txn.checkIntegrity = .ok () := by
    rw [Transaction.checkIntegrity_eq_ok (staged.inStep mirrored) staged.keys, staged.no_deletes]
    refine ⟨anchored, ?_⟩
    intro key isDelete
    cases isDelete
  rw [Transaction.saveInPlace]
  split
  · exact ⟨_, rfl⟩
  · rw [staged.ofBase, settled, if_neg (by simp)]
    simp only [nodeTypes, edgeTypes, schemaChange, maintains, integrity, ok_bind]
    exact ⟨_, rfl⟩

end BatchStaged

end

end Acetone.Graph

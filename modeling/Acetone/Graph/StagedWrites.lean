import Acetone.Lib.Moves
import Acetone.Graph.MergeSafety

/-!
# What a list of writes stages

Writes that are all accepted stage, map by map, the updates of each in their order.
They are saved and then committed; the commit may be refused, and the save stands.
-/

namespace Acetone.Graph

open Acetone.Lib Acetone.Model

def nodeBytes (node : NodeKey) : Bytes := node.encode.toOption.getD []

def edgeBytes (edge : EdgeKey) : Bytes := edge.encodeFwd.toOption.getD []

def reverseBytes (edge : EdgeKey) : Bytes := edge.encodeRev.toOption.getD []

theorem nodeBytes_of_encode {node : NodeKey} {bytes : Bytes} (encoded : node.encode = .ok bytes) :
    nodeBytes node = bytes := by
  rw [nodeBytes, encoded]
  rfl

theorem edgeBytes_of_encode {edge : EdgeKey} {bytes : Bytes}
    (encoded : edge.encodeFwd = .ok bytes) : edgeBytes edge = bytes := by
  rw [edgeBytes, encoded]
  rfl

namespace Write

def Encodes : Write → Prop
  | .putNode key _ => key.encode = .ok (nodeBytes key)
  | .deleteNode key => key.encode = .ok (nodeBytes key)
  | .putEdge key _ => key.encodeFwd = .ok (edgeBytes key)
  | .deleteEdge key => key.encodeFwd = .ok (edgeBytes key)
  | .putSchema _ => True
  | .deleteSchemaEntry _ => True

def schemaOps : Write → List (MapOp Bytes SchemaEntry)
  | .putSchema entry => [.put entry.mapKey entry]
  | .deleteSchemaEntry rtype => [.delete (entryKey kindRtype rtype)]
  | .putNode _ _ => []
  | .deleteNode _ => []
  | .putEdge _ _ => []
  | .deleteEdge _ => []

def nodeOps : Write → List (MapOp Bytes NodeRecord)
  | .putNode key record => [.put (nodeBytes key) record]
  | .deleteNode key => [.delete (nodeBytes key)]
  | .putSchema _ => []
  | .deleteSchemaEntry _ => []
  | .putEdge _ _ => []
  | .deleteEdge _ => []

def edgeOps : Write → List (MapOp Bytes EdgeRecord)
  | .putEdge key record => [.put (edgeBytes key) record]
  | .deleteEdge key => [.delete (edgeBytes key)]
  | .putSchema _ => []
  | .deleteSchemaEntry _ => []
  | .putNode _ _ => []
  | .deleteNode _ => []

def reverseOps : Write → List (MapOp Bytes Unit)
  | .putEdge key _ => [.put (reverseBytes key) ()]
  | .deleteEdge key => [.delete (reverseBytes key)]
  | .putSchema _ => []
  | .deleteSchemaEntry _ => []
  | .putNode _ _ => []
  | .deleteNode _ => []

end Write

/-- What a transaction holds when it has staged some writes. -/
structure StagedBy (txn : Transaction) (writes : List Write) (next : Transaction) : Prop where
  base : next.base = txn.base
  encodes : ∀ write ∈ writes, write.Encodes
  schema : next.schema = txn.schema ++ writes.flatMap Write.schemaOps
  nodes : next.nodes = txn.nodes ++ writes.flatMap Write.nodeOps
  edgesFwd : next.edgesFwd = txn.edgesFwd ++ writes.flatMap Write.edgeOps
  edgesRev : next.edgesRev = txn.edgesRev ++ writes.flatMap Write.reverseOps

private theorem stagedBy_write {txn next : Transaction} {write : Write}
    (written : txn.write write = .ok next) : StagedBy txn [write] next := by
  have alone : ∀ {property : Write → Prop}, property write →
      ∀ other ∈ [write], property other := fun holds other member =>
    (List.mem_singleton.mp member).symm ▸ holds
  cases write with
  | putNode key _ | deleteNode key =>
      simp only [Transaction.write, Transaction.putNode, Transaction.deleteNode, bind_eq_ok,
        liftKey_eq_ok, Except.ok.injEq] at written
      obtain ⟨bytes, encoded, rfl⟩ := written
      have isBytes := nodeBytes_of_encode encoded
      refine ⟨rfl, alone ?_, by simp [Write.schemaOps], ?_, by simp [Write.edgeOps],
        by simp [Write.reverseOps]⟩
      · rw [Write.Encodes, isBytes, encoded]
      · simp [Write.nodeOps, isBytes]
  | putEdge key _ | deleteEdge key =>
      simp only [Transaction.write, Transaction.putEdge, Transaction.deleteEdge, bind_eq_ok,
        liftKey_eq_ok, Except.ok.injEq] at written
      obtain ⟨forward, encoded, backward, reversed, rfl⟩ := written
      have isBytes := edgeBytes_of_encode encoded
      refine ⟨rfl, alone ?_, by simp [Write.schemaOps], by simp [Write.nodeOps], ?_, ?_⟩
      · rw [Write.Encodes, isBytes, encoded]
      · simp [Write.edgeOps, isBytes]
      · simp [Write.reverseOps, reverseBytes, reversed, Except.toOption]
  | putSchema | deleteSchemaEntry =>
      cases written
      refine ⟨rfl, alone trivial, rfl, ?_, ?_, ?_⟩ <;>
        simp [Write.nodeOps, Write.edgeOps, Write.reverseOps, Transaction.putSchema,
          Transaction.deleteSchemaEntry]

theorem stagedBy_of_writeAll {txn next : Transaction} {writes : List Write}
    (written : txn.writeAll writes = .ok next) : StagedBy txn writes next := by
  induction writes generalizing txn with
  | nil =>
      cases written
      exact ⟨rfl, fun write member => absurd member List.not_mem_nil, by simp, by simp, by simp,
        by simp⟩
  | cons write writes ih =>
      obtain ⟨middle, first, rest⟩ := bind_eq_ok.mp written
      have begins := stagedBy_write first
      have ends := ih rest
      refine ⟨ends.base.trans begins.base, ?_, ?_, ?_, ?_, ?_⟩
      · intro other member
        rcases List.mem_cons.mp member with rfl | later
        · exact begins.encodes other (List.mem_singleton_self other)
        · exact ends.encodes other later
      · rw [ends.schema, begins.schema]
        simp
      · rw [ends.nodes, begins.nodes]
        simp
      · rw [ends.edgesFwd, begins.edgesFwd]
        simp
      · rw [ends.edgesRev, begins.edgesRev]
        simp

/-- An edge, the edge that takes its place, and the record that it has there. -/
structure EdgeMove where
  source : EdgeKey
  target : EdgeKey
  record : EdgeRecord

namespace EdgeMove

def writes (move : EdgeMove) : List Write :=
  [.deleteEdge move.source, .putEdge move.target move.record]

def relocation (move : EdgeMove) : Move Bytes EdgeRecord :=
  ⟨edgeBytes move.source, edgeBytes move.target, move.record⟩

theorem edgeOps_writes (moves : List EdgeMove) :
    (moves.flatMap writes).flatMap Write.edgeOps =
      (moves.map relocation).flatMap Move.ops := by
  induction moves with
  | nil => rfl
  | cons move moves ih =>
      rw [List.flatMap_cons, List.flatMap_append, ih]
      rfl

theorem otherOps_writes (moves : List EdgeMove) :
    (moves.flatMap writes).flatMap Write.nodeOps = [] ∧
      (moves.flatMap writes).flatMap Write.schemaOps = [] := by
  induction moves with
  | nil => exact ⟨rfl, rfl⟩
  | cons move moves ih =>
      rw [List.flatMap_cons, List.flatMap_append, List.flatMap_append, ih.1, ih.2]
      exact ⟨rfl, rfl⟩

end EdgeMove

theorem canonical_of_decodeFwd {edge : EdgeKey} {forward : Bytes}
    (decoded : EdgeKey.decodeFwd forward = .ok edge) :
    canonical edge.src.toValue = edge.src.toValue ∧ canonical edge.dst.toValue = edge.dst.toValue ∧
      canonical edge.disc = edge.disc := by
  have fixed := canonicalAll_of_decodeKey (EdgeKey.decodeFwd_eq_ok.mp decoded)
  simp only [canonicalAll, List.cons.injEq] at fixed
  exact ⟨fixed.1, fixed.2.2.1, fixed.2.2.2.1⟩

/-- An edge of a version, under the key that the map has for it. -/
def HoldsEdge (edges : EdgeMap) (edge : EdgeKey) (record : EdgeRecord) : Prop :=
  ∃ forward, EdgeKey.decodeFwd forward = .ok edge ∧ edges.get forward = some record

theorem HoldsEdge.get {edges : EdgeMap} {edge : EdgeKey} {record : EdgeRecord}
    (holds : HoldsEdge edges edge record) :
    edge.encodeFwd = .ok (edgeBytes edge) ∧ EdgeKey.decodeFwd (edgeBytes edge) = .ok edge ∧
      edges.get (edgeBytes edge) = some record := by
  obtain ⟨forward, decoded, found⟩ := holds
  have encoded := EdgeKey.encodeFwd_of_decodeFwd decoded
  rw [edgeBytes_of_encode encoded]
  exact ⟨encoded, decoded, found⟩

theorem mem_allEdges {edges : EdgeMap} {found : List (EdgeKey × EdgeRecord)}
    (read : allEdges edges = .ok found) {edge : EdgeKey} {record : EdgeRecord} :
    (edge, record) ∈ found ↔ HoldsEdge edges edge record := by
  constructor
  · intro member
    obtain ⟨⟨forward, stored⟩, inside, decodes⟩ := exists_of_mem_mapM read member
    simp only [bind_eq_ok, liftKey_eq_ok, Except.ok.injEq, Prod.mk.injEq] at decodes
    obtain ⟨_, decoded, rfl, rfl⟩ := decodes
    exact ⟨forward, decoded, SortedMap.get_eq_some_iff.mpr inside⟩
  · rintro ⟨forward, decoded, isStored⟩
    obtain ⟨⟨other, stored⟩, inside, decodes⟩ :=
      mem_of_mapM_eq_ok read (SortedMap.get_eq_some_iff.mp isStored)
    simp only [bind_eq_ok, liftKey_eq_ok, Except.ok.injEq, Prod.mk.injEq] at decodes
    obtain ⟨_, again, rfl, rfl⟩ := decodes
    cases decoded.symm.trans again
    exact inside

theorem holdsEdge_of_get {edges : EdgeMap} {found : List (EdgeKey × EdgeRecord)}
    (read : allEdges edges = .ok found) {forward : Bytes} {record : EdgeRecord}
    (isStored : edges.get forward = some record) :
    ∃ edge, EdgeKey.decodeFwd forward = .ok edge ∧ HoldsEdge edges edge record := by
  obtain ⟨⟨edge, stored⟩, -, decodes⟩ :=
    mem_of_mapM_eq_ok read (SortedMap.get_eq_some_iff.mp isStored)
  simp only [bind_eq_ok, liftKey_eq_ok, Except.ok.injEq, Prod.mk.injEq] at decodes
  obtain ⟨_, decoded, rfl, -⟩ := decodes
  exact ⟨_, decoded, forward, decoded, isStored⟩

namespace Repository

variable {hash : Commit → Nat} {repo : Repository}

structure CommitOf (repo : Repository) (manifest : Manifest) (outcome : Effect Commit) :
    Prop where
  workspace : outcome.2.workspace.manifest = manifest
  commit : ∀ commit, outcome.1 = .ok commit →
    commit.manifest = manifest ∧ outcome.2.headCommit = some commit

private theorem commitOf_completeOrdinary (allowEmpty : Bool) (stamp : Nat) :
    CommitOf repo repo.workspace.manifest (repo.completeOrdinary allowEmpty stamp) := by
  rw [completeOrdinary]
  split
  · exact ⟨rfl, fun commit done => by cases done⟩
  split
  · exact ⟨rfl, fun commit done => by cases done⟩
  · refine ⟨rfl, fun commit done => ?_⟩
    cases done
    refine ⟨?_, (SortedMap.get_put _ _ _ _).trans (if_pos rfl)⟩
    cases repo.headCommit <;> rfl

private theorem commitOf_commitSaved (allowEmpty : Bool) (stamp : Nat) :
    CommitOf repo repo.workspace.manifest (repo.commitSaved hash allowEmpty stamp) := by
  rw [commitSaved]
  split
  · exact commitOf_completeOrdinary allowEmpty stamp
  · next theirs _ =>
      split
      · have cleared := @commitOf_completeOrdinary { repo with mergeHead := none } allowEmpty stamp
        exact ⟨cleared.workspace, cleared.commit⟩
      · rw [completeMerge]
        split
        · exact ⟨rfl, fun commit done => by cases done⟩
        · refine ⟨rfl, fun commit done => ?_⟩
          cases done
          exact ⟨rfl, (SortedMap.get_put _ _ _ _).trans (if_pos rfl)⟩

/-- Nothing has been saved, and the operation failed. -/
def Untouched (repo : Repository) (outcome : Effect Commit) : Prop :=
  (∃ cause, outcome.1 = .error cause) ∧ outcome.2.workspace = repo.workspace

def SavedAs (repo : Repository) (writes : Except RepositoryError (List Write))
    (next : Workspace) : Prop :=
  ∃ list txn, writes = .ok list ∧
    (Transaction.beginWrite repo.workspace).writeAll list = .ok txn ∧
    txn.saveInPlace repo.mergeHead.isSome = .ok next

theorem SavedAs.keyed {writes : Except RepositoryError (List Write)} {next : Workspace}
    (saved : repo.SavedAs writes next) (keyed : Keyed repo.workspace.manifest) :
    Keyed next.manifest := by
  obtain ⟨list, txn, -, written, inPlace⟩ := saved
  have isBase : txn.base = repo.workspace := (stagedBy_of_writeAll written).base
  have staged := Transaction.stage_stagedKeys repo.workspace list
  rw [Transaction.writeAll_eq_stage written] at staged
  exact (Transaction.applied_keyed (isBase.symm ▸ keyed) staged).of_maps
    (Transaction.saveInPlace_maps inPlace)

theorem commitWrites_of_saved {writes : Except RepositoryError (List Write)} {next : Workspace}
    (saved : repo.SavedAs writes next) (stamp : Nat) :
    CommitOf repo next.manifest (repo.commitWrites hash writes stamp) := by
  obtain ⟨list, txn, rfl, written, inPlace⟩ := saved
  have done : repo.save txn = (.ok (), { repo with workspace := next }) := by
    rw [save, inPlace]
  simp only [commitWrites, written, commitImpl, done]
  have commits := @commitOf_commitSaved hash { repo with workspace := next } false stamp
  exact ⟨commits.workspace, commits.commit⟩

theorem commitWrites_cases (writes : Except RepositoryError (List Write)) (stamp : Nat) :
    Untouched repo (repo.commitWrites hash writes stamp) ∨ ∃ next, repo.SavedAs writes next := by
  cases writes with
  | error cause => exact .inl ⟨⟨cause, rfl⟩, rfl⟩
  | ok list =>
      rw [commitWrites]
      cases written : (Transaction.beginWrite repo.workspace).writeAll list with
      | error cause => exact .inl ⟨⟨.graph cause, rfl⟩, rfl⟩
      | ok txn =>
          dsimp only
          rw [commitImpl]
          rcases save_cases txn with ⟨cause, failed⟩ | ⟨next, saved, -⟩
          · rw [failed]
            exact .inl ⟨⟨cause, rfl⟩, rfl⟩
          · exact .inr ⟨next, list, txn, rfl, written, saved⟩

theorem savedAs_of_commit {writes : Except RepositoryError (List Write)} {stamp : Nat}
    {commit : Commit} {next : Repository}
    (done : repo.commitWrites hash writes stamp = (.ok commit, next)) :
    ∃ workspace, repo.SavedAs writes workspace ∧
      next.workspace.manifest = workspace.manifest := by
  rcases @commitWrites_cases hash repo writes stamp with ⟨⟨cause, failed⟩, -⟩ | ⟨workspace, saved⟩
  · rw [done] at failed
    cases failed
  · have commits := @commitWrites_of_saved hash _ _ _ saved stamp
    rw [done] at commits
    exact ⟨workspace, saved, commits.workspace⟩

end Repository

end Acetone.Graph

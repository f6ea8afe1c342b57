import Acetone.Graph.Repository
import Acetone.Graph.Saves
import Acetone.Graph.Validity

/-!
# The reverse map over runs

Every workspace and every commit of a repository has its two edge maps in
step.  A merge rebuilds the reverse map; every other operation stages its edge
updates in pairs.  The one exception writes the record of an edge whose
properties are disputed, and such an edge is in the forward map: a write of
its key would have settled the dispute.
-/

namespace Acetone.Graph

open Acetone.Lib Acetone.Model

def Manifest.EdgesMirrored (manifest : Manifest) : Prop :=
  Mirrored manifest.edgesFwd manifest.edgesRev

structure Workspace.EdgesMirrored (workspace : Workspace) : Prop where
  maps : workspace.manifest.EdgesMirrored
  disputed : ∀ conflicts ∈ workspace.conflicts, ∀ cell ∈ conflicts.cells,
    cell.map = .edges → cell.property ≠ none →
      cell.key ∈ workspace.manifest.edgesFwd.keys

theorem Workspace.EdgesMirrored.of_settled {manifest : Manifest}
    (maps : manifest.EdgesMirrored) : Workspace.EdgesMirrored ⟨manifest, none⟩ :=
  ⟨maps, fun _ isConflicts => nomatch isConflicts⟩

namespace Transaction

variable {txn : Transaction}

/-- What is left of the conflicts is about keys that were not written. -/
private theorem remaining_unwritten {conflicts rest : Conflicts} {cell : ConflictCell}
    (isBase : txn.base.conflicts = some conflicts)
    (isRest : txn.remainingConflicts = some rest) (member : cell ∈ rest.cells) :
    cell ∈ conflicts.cells ∧
      (cell.map = .edges → ∀ op ∈ txn.edgesFwd, op.key ≠ cell.key) := by
  simp only [remainingConflicts, isBase] at isRest
  split at isRest
  · next nothing =>
      cases isRest
      refine ⟨member, fun _ op isOp => ?_⟩
      have noEdges := (List.append_eq_nil_iff.mp nothing).2
      rw [List.map_eq_nil_iff.mp noEdges] at isOp
      cases isOp
  · rw [clearWritten] at isRest
    split at isRest
    · cases isRest
    · cases isRest
      obtain ⟨wasThere, unwritten⟩ := List.mem_filter.mp member
      refine ⟨wasThere, fun isEdge op isOp same => ?_⟩
      refine of_decide_eq_true unwritten (List.mem_append_right _ ?_)
      exact List.mem_map.mpr ⟨op, isOp, by rw [isEdge, same]⟩

theorem saveInPlace_mirrored {workspace : Workspace} {merging : Bool}
    (mirrored : txn.base.EdgesMirrored) (inStep : txn.InStep)
    (saved : txn.saveInPlace merging = .ok workspace) : workspace.EdgesMirrored := by
  rcases saveInPlace_cases saved with ⟨-, rfl⟩ | accepted
  · exact mirrored
  · have maps := accepted.maps
    refine ⟨?_, ?_⟩
    · rw [Manifest.EdgesMirrored, maps]
      exact inStep
    · intro rest isRest cell member isEdge hasProperty
      rw [accepted.conflicts] at isRest
      cases isBase : txn.base.conflicts with
      | none =>
          rw [Option.mem_def, remainingConflicts, isBase] at isRest
          cases isRest
      | some conflicts =>
          obtain ⟨wasThere, unwritten⟩ := remaining_unwritten isBase isRest member
          have present := mirrored.disputed conflicts isBase cell wasThere isEdge hasProperty
          rw [maps, SortedMap.mem_keys]
          show (txn.base.manifest.edgesFwd.applyAll txn.edgesFwd).get cell.key ≠ none
          rw [SortedMap.get_applyAll_of_absent (unwritten isEdge)]
          exact SortedMap.mem_keys.mp present

end Transaction

section

variable {source : Manifest} {cells : List ConflictCell} {base : Workspace}

/-- A transaction that has resolved all but the `rest` of the disputed
records. -/
private structure Resolving (cells : List ConflictCell) (base : Workspace)
    (rest : List (ConflictMap × Bytes)) (txn : Transaction) : Prop where
  base : txn.base = base
  inStep : txn.InStep
  present : ∀ key, (.edges, key) ∈ rest → none ∉ disputedProperties cells .edges key →
    key ∈ txn.applied.edgesFwd.keys

private theorem Resolving.later {txn : Transaction} {rest : List (ConflictMap × Bytes)}
    {record : ConflictMap × Bytes} (resolving : Resolving cells base (record :: rest) txn) :
    Resolving cells base rest txn :=
  ⟨resolving.base, resolving.inStep,
    fun key member => resolving.present key (List.mem_cons_of_mem _ member)⟩

private theorem resolveWholeRecord_resolving {txn next : Transaction} {map : ConflictMap}
    {key : Bytes} {rest : List (ConflictMap × Bytes)} (fresh : (map, key) ∉ rest)
    (resolved : resolveWholeRecord source txn map key = .ok next)
    (resolving : Resolving cells base rest txn) : Resolving cells base rest next := by
  cases map with
  | schema =>
      cases resolved
      exact ⟨resolving.base, resolving.inStep, resolving.present⟩
  | nodes =>
      cases resolved
      exact ⟨resolving.base, resolving.inStep, resolving.present⟩
  | edges =>
      simp only [resolveWholeRecord, bind_eq_ok, Except.ok.injEq] at resolved
      obtain ⟨backward, reversed, rfl⟩ := resolved
      have inStep := resolving.inStep
      have others : ∀ other, (.edges, other) ∈ rest → other ≠ key := by
        rintro other member rfl
        exact fresh member
      cases source.edgesFwd.get key with
      | some record =>
          refine ⟨resolving.base, ?_, fun other member whole => ?_⟩
          · simp only [Transaction.InStep, Transaction.applied, applyAll_concat]
            exact inStep.put reversed record
          · simp only [Transaction.applied, applyAll_concat]
            exact mem_keys_put.mpr (.inr (resolving.present other member whole))
      | none =>
          refine ⟨resolving.base, ?_, fun other member whole => ?_⟩
          · simp only [Transaction.InStep, Transaction.applied, applyAll_concat]
            exact inStep.delete reversed
          · simp only [Transaction.applied, applyAll_concat]
            exact mem_keys_delete.mpr ⟨others other member, resolving.present other member whole⟩

private theorem resolveProperties_resolving {txn next : Transaction} {map : ConflictMap}
    {key : Bytes} {names : List String} {rest : List (ConflictMap × Bytes)}
    (present : map = .edges → key ∈ txn.applied.edgesFwd.keys)
    (resolved : resolveProperties source txn map key names = .ok next)
    (resolving : Resolving cells base rest txn) : Resolving cells base rest next := by
  cases map with
  | schema => cases resolved
  | nodes =>
      cases resolved
      exact ⟨resolving.base, resolving.inStep, resolving.present⟩
  | edges =>
      cases resolved
      refine ⟨resolving.base, ?_, fun other member whole => ?_⟩
      · simp only [Transaction.InStep, Transaction.applied, applyAll_concat]
        exact Mirrored.rewrite resolving.inStep (present rfl) _
      · simp only [Transaction.applied, applyAll_concat]
        exact mem_keys_put.mpr (.inr (resolving.present other member whole))

private theorem resolveRecord_resolving {txn next : Transaction}
    {record : ConflictMap × Bytes} {rest : List (ConflictMap × Bytes)}
    (fresh : record ∉ rest) (resolved : resolveRecord source cells txn record = .ok next)
    (resolving : Resolving cells base (record :: rest) txn) :
    Resolving cells base rest next := by
  obtain ⟨map, key⟩ := record
  simp only [resolveRecord] at resolved
  split at resolved
  · exact resolveWholeRecord_resolving fresh resolved resolving.later
  · next whole =>
      refine resolveProperties_resolving ?_ resolved resolving.later
      rintro rfl
      exact resolving.present key List.mem_cons_self whole

private theorem foldlM_resolving {txn next : Transaction}
    {records : List (ConflictMap × Bytes)} (distinct : records.Nodup)
    (resolved : records.foldlM (resolveRecord source cells) txn = .ok next)
    (resolving : Resolving cells base records txn) : Resolving cells base [] next := by
  induction records generalizing txn with
  | nil =>
      cases resolved
      exact resolving
  | cons record rest ih =>
      rw [List.foldlM_cons, bind_eq_ok] at resolved
      obtain ⟨middle, first, later⟩ := resolved
      rw [List.nodup_cons] at distinct
      exact ih distinct.2 later (resolveRecord_resolving distinct.1 first resolving)

/-- What resolving stages keeps the edge maps in step. -/
theorem resolveConflictsFrom_mirrored {count : Nat} {txn : Transaction}
    (mirrored : base.EdgesMirrored)
    (resolved : resolveConflictsFrom source (.beginWrite base) = .ok (count, txn)) :
    txn.base.EdgesMirrored ∧ txn.InStep := by
  rw [resolveConflictsFrom] at resolved
  split at resolved
  · cases resolved
  · next conflicts isConflicts =>
      simp only [guard_eq_ok, bind_eq_ok, Except.ok.injEq, Prod.mk.injEq] at resolved
      obtain ⟨-, result, folded, rfl, rfl⟩ := resolved
      have start : Resolving conflicts.cells base (conflictKeys conflicts.cells)
          (.beginWrite base) := by
        refine ⟨rfl, mirrored.maps, fun key member whole => ?_⟩
        rw [conflictKeys, List.mem_dedup, List.mem_map] at member
        obtain ⟨cell, isCell, same⟩ := member
        obtain ⟨isEdge, rfl⟩ := Prod.mk.inj same
        refine mirrored.disputed conflicts isConflicts cell isCell isEdge fun noProperty => ?_
        refine whole (List.mem_map.mpr ⟨cell, List.mem_filter.mpr ⟨isCell, ?_⟩, noProperty⟩)
        simpa using isEdge
      have done := foldlM_resolving (List.nodup_dedup _) folded start
      refine ⟨?_, done.inStep⟩
      rw [done.base]
      exact .of_settled mirrored.maps

end

theorem mirrored_of_rebuildReverse {edges : EdgeMap} {reverse : KeySet Bytes}
    (rebuilt : rebuildReverse edges = .ok reverse) : Mirrored edges reverse := by
  obtain ⟨keys, each, ⟨⟩⟩ := bind_eq_ok.mp rebuilt
  have isReverse : ∀ {row : Bytes × EdgeRecord} {backward : Bytes},
      (do
        let edge ← liftKey (EdgeKey.decodeFwd row.1)
        liftKey edge.encodeRev) = .ok backward ↔ reverseKey row.1 = .ok backward :=
    Iff.rfl
  constructor
  · intro forward member
    obtain ⟨row, inside, rfl⟩ := List.mem_map.mp member
    obtain ⟨backward, -, found⟩ := mem_of_mapM_eq_ok each inside
    exact keyed_of_reverseKey (isReverse.mp found)
  · intro backward
    rw [SortedMap.mem_keys, KeySet.get_ne_none, KeySet.get_ofKeys]
    constructor
    · intro member
      obtain ⟨row, inside, found⟩ := exists_of_mem_mapM each member
      exact ⟨row.1, List.mem_map_of_mem inside, isReverse.mp found⟩
    · rintro ⟨forward, member, reversed⟩
      obtain ⟨row, inside, rfl⟩ := List.mem_map.mp member
      obtain ⟨other, isKey, found⟩ := mem_of_mapM_eq_ok each inside
      rw [isReverse.mp found] at reversed
      cases reversed
      exact isKey

section

variable {base ours theirs merged : Manifest}

private theorem cell_of_map {cells : List CellConflict} {cell : ConflictCell}
    (member : cell ∈ (buildConflictsMap (cells.map .cell)).cells) :
    ∃ conflict ∈ cells, cell = ⟨conflict.map, conflict.key, conflict.property⟩ := by
  obtain ⟨found, isFound, isCell⟩ := List.mem_filterMap.mp member
  obtain ⟨conflict, isConflict, rfl⟩ := List.mem_map.mp isFound
  exact ⟨conflict, isConflict, (Option.some.inj isCell).symm⟩

private theorem no_cells_of_violations (violations : List GraphViolation) :
    (buildConflictsMap (violations.map .graph)).cells = [] := by
  rw [buildConflictsMap, List.filterMap_map, List.filterMap_eq_nil_iff]
  intro violation _
  rfl

/-- Both outcomes of a merge have a rebuilt reverse map; a disputed property
leaves its edge in the merged map. -/
theorem mergeManifests_mirrored {outcome : ManifestMerge}
    (done : mergeManifests base ours theirs = .ok outcome) :
    match outcome with
    | .clean merged => merged.EdgesMirrored
    | .conflicts merged found =>
        Workspace.EdgesMirrored ⟨merged, some (buildConflictsMap found)⟩ := by
  simp only [mergeManifests, bind_eq_ok] at done
  obtain ⟨edgesRev, rebuilt, indexes, -, done⟩ := done
  have maps := mirrored_of_rebuildReverse rebuilt
  split at done
  · cases done
    refine ⟨maps, ?_⟩
    rintro _ ⟨⟩ cell member isEdge hasProperty
    obtain ⟨conflict, isConflict, rfl⟩ := cell_of_map member
    rcases List.mem_append.mp isConflict with earlier | ofEdges
    · rcases List.mem_append.mp earlier with ofSchema | ofNodes
      · obtain ⟨whole, -, rfl⟩ := List.mem_map.mp ofSchema
        cases isEdge
      · have isNode := isEdge.symm.trans (mergeOne_cell ofNodes).1
        cases isNode
    · exact (mergeOne_cell ofEdges).2 hasProperty
  · obtain ⟨violations, -, done⟩ := bind_eq_ok.mp done
    split at done
    · cases done
      refine ⟨maps, ?_⟩
      rintro _ ⟨⟩ cell member
      rw [no_cells_of_violations] at member
      cases member
    · cases done
      exact maps

end

namespace Repository

/-- The edge maps of the workspace and of every commit are in step. -/
structure EdgesMirrored (repo : Repository) : Prop where
  workspace : repo.workspace.EdgesMirrored
  commits : ∀ commit ∈ repo.commits, commit.manifest.EdgesMirrored
  branches : ∀ name commit, repo.branches.get name = some commit → commit ∈ repo.commits

variable {repo : Repository}

theorem init_mirrored : init.EdgesMirrored :=
  ⟨.of_settled .empty, (fun _ member => nomatch member), (fun _ _ found => nomatch found)⟩

namespace EdgesMirrored

variable (mirrored : repo.EdgesMirrored)

include mirrored

theorem withWorkspace {workspace : Workspace} (isMirrored : workspace.EdgesMirrored) :
    EdgesMirrored { repo with workspace := workspace } :=
  ⟨isMirrored, mirrored.commits, mirrored.branches⟩

theorem branch_mirrored {name : String} {commit : Commit}
    (found : repo.branches.get name = some commit) : commit.manifest.EdgesMirrored :=
  mirrored.commits commit (mirrored.branches name commit found)

theorem checkedOut {name : String} {commit : Commit}
    (found : repo.branches.get name = some commit) : commit.checkedOut.EdgesMirrored :=
  .of_settled (mirrored.branch_mirrored found)

theorem putBranch {name : String} {commit : Commit} (known : commit ∈ repo.commits) :
    EdgesMirrored { repo with branches := repo.branches.put name commit } := by
  refine ⟨mirrored.workspace, mirrored.commits, fun other found isFound => ?_⟩
  rw [SortedMap.get_put] at isFound
  split at isFound
  · cases isFound
    exact known
  · exact mirrored.branches other found isFound

theorem advance {commit : Commit} (isMirrored : commit.manifest.EdgesMirrored) :
    (repo.advance commit).EdgesMirrored := by
  have written : EdgesMirrored { repo with commits := commit :: repo.commits } := by
    refine ⟨mirrored.workspace, ?_, fun name found isFound =>
      List.mem_cons_of_mem _ (mirrored.branches name found isFound)⟩
    intro other member
    rcases List.mem_cons.mp member with rfl | old
    · exact isMirrored
    · exact mirrored.commits other old
  exact written.putBranch List.mem_cons_self

theorem save {txn : Transaction} (isMirrored : txn.base.EdgesMirrored)
    (inStep : txn.InStep) : (repo.save txn).2.EdgesMirrored := by
  rw [Repository.save]
  split
  · exact mirrored
  · next saved => exact mirrored.withWorkspace (Transaction.saveInPlace_mirrored isMirrored
      inStep saved)

theorem completeMerge (hash : Commit → Nat) (theirs : Commit) (stamp : Nat) :
    (repo.completeMerge hash theirs stamp).2.EdgesMirrored := by
  rw [Repository.completeMerge]
  split
  · exact mirrored
  · next ours _ =>
      have advanced := mirrored.advance
        (show (Commit.merged ours theirs repo.workspace.manifest stamp).manifest.EdgesMirrored
          from mirrored.workspace.maps)
      exact ⟨.of_settled mirrored.workspace.maps, advanced.commits, advanced.branches⟩

theorem completeOrdinary (allowEmpty : Bool) (stamp : Nat) :
    (repo.completeOrdinary allowEmpty stamp).2.EdgesMirrored := by
  rw [Repository.completeOrdinary]
  split
  · exact mirrored
  · split
    · exact mirrored
    · apply mirrored.advance
      split <;> exact mirrored.workspace.maps

theorem commitSaved (hash : Commit → Nat) (allowEmpty : Bool) (stamp : Nat) :
    (repo.commitSaved hash allowEmpty stamp).2.EdgesMirrored := by
  rw [Repository.commitSaved]
  split
  · exact mirrored.completeOrdinary allowEmpty stamp
  · split
    · have cleared : EdgesMirrored { repo with mergeHead := none } :=
        ⟨mirrored.workspace, mirrored.commits, mirrored.branches⟩
      exact cleared.completeOrdinary allowEmpty stamp
    · exact mirrored.completeMerge hash _ stamp

theorem commitImpl (hash : Commit → Nat) {txn : Transaction}
    (isMirrored : txn.base.EdgesMirrored) (inStep : txn.InStep) (allowEmpty : Bool)
    (stamp : Nat) : (repo.commitImpl hash txn allowEmpty stamp).2.EdgesMirrored := by
  have saved := mirrored.save isMirrored inStep
  rw [Repository.commitImpl]
  split
  · next isSaved =>
      rw [isSaved] at saved
      exact saved
  · next isSaved =>
      rw [isSaved] at saved
      exact saved.commitSaved hash allowEmpty stamp

theorem commitWrites (hash : Commit → Nat)
    (writes : Except RepositoryError (List Write)) (stamp : Nat) :
    (repo.commitWrites hash writes stamp).2.EdgesMirrored := by
  rw [Repository.commitWrites.eq_def]
  split
  · exact mirrored
  · split
    · exact mirrored
    · next staged =>
        rw [← Transaction.writeAll_eq_stage staged]
        refine mirrored.commitImpl hash ?_ (Transaction.stage_inStep mirrored.workspace.maps _)
          false stamp
        rw [Transaction.stage_base]
        exact mirrored.workspace

theorem fastForward {target : Commit} (known : target ∈ repo.commits) :
    (repo.fastForward target).EdgesMirrored :=
  (mirrored.putBranch known).withWorkspace (.of_settled (mirrored.commits target known))

theorem mergeDiverged (hash : Commit → Nat) (ours theirs : Commit) (stamp : Nat) :
    (repo.mergeDiverged hash ours theirs stamp).2.EdgesMirrored := by
  rw [Repository.mergeDiverged]
  split
  · exact mirrored
  · split
    · exact mirrored
    · next merged found outcome =>
        exact ⟨mergeManifests_mirrored outcome, mirrored.commits, mirrored.branches⟩
    · next merged outcome =>
        have isMirrored := mergeManifests_mirrored outcome
        have advanced := mirrored.advance
          (show (Commit.merged ours theirs merged stamp).manifest.EdgesMirrored
            from isMirrored)
        exact ⟨.of_settled isMirrored, advanced.commits, advanced.branches⟩

theorem merge (hash : Commit → Nat) (theirs : Commit) (stamp : Nat) :
    (repo.merge hash theirs stamp).2.EdgesMirrored := by
  rw [Repository.merge]
  split
  · exact mirrored
  · split
    · exact mirrored
    · next known =>
        rw [not_not] at known
        split
        · exact mirrored.fastForward known
        · split
          · exact mirrored
          · split
            · exact mirrored.fastForward known
            · exact mirrored.mergeDiverged hash _ theirs stamp

theorem abortMerge : repo.abortMerge.2.EdgesMirrored := by
  rw [Repository.abortMerge]
  split
  · exact mirrored
  · split
    · exact mirrored
    · next tip =>
        have reset := mirrored.checkedOut tip
        exact ⟨reset, mirrored.commits, mirrored.branches⟩

theorem resetWorkspaceToHead : repo.resetWorkspaceToHead.EdgesMirrored := by
  apply mirrored.withWorkspace
  cases tip : repo.headCommit with
  | none => exact .of_settled .empty
  | some commit => exact mirrored.checkedOut tip

theorem discardWorkspace : repo.discardWorkspace.2.EdgesMirrored := by
  rw [Repository.discardWorkspace]
  split
  · exact mirrored
  · split
    · exact mirrored.resetWorkspaceToHead
    · exact mirrored

theorem resolveAll (side : ResolveSide) : (repo.resolveAll side).2.EdgesMirrored := by
  rw [Repository.resolveAll]
  split
  · exact mirrored
  · exact mirrored
  · split
    · exact mirrored
    · next resolved =>
        split
        · obtain ⟨isMirrored, inStep⟩ :=
            resolveConflictsFrom_mirrored mirrored.workspace resolved
          exact mirrored.save isMirrored inStep
        · exact mirrored

theorem checkoutBranch (name : String) : (repo.checkoutBranch name).2.EdgesMirrored := by
  simp only [Repository.checkoutBranch]
  split
  · exact ⟨mirrored.workspace, mirrored.commits, mirrored.branches⟩
  · split
    · exact mirrored
    · split
      · exact mirrored
      · next found =>
          exact ⟨mirrored.checkedOut found, mirrored.commits, mirrored.branches⟩

theorem createBranch (name : String) (target : Option Commit) :
    (repo.createBranch name target).2.EdgesMirrored := by
  simp only [Repository.createBranch]
  split
  · exact mirrored
  · next commit resolved =>
      split
      · exact mirrored
      · apply mirrored.putBranch
        split at resolved
        · split at resolved
          · next known =>
              cases resolved
              exact known
          · cases resolved
        · split at resolved
          · next tip =>
              cases resolved
              exact mirrored.branches _ _ tip
          · cases resolved

theorem deleteBranch (name : String) : (repo.deleteBranch name).2.EdgesMirrored := by
  rw [Repository.deleteBranch]
  split
  · exact mirrored
  · split
    · exact mirrored
    · refine ⟨mirrored.workspace, mirrored.commits, fun other found isFound => ?_⟩
      rw [SortedMap.get_delete] at isFound
      split at isFound
      · cases isFound
      · exact mirrored.branches other found isFound

theorem reindex : repo.reindex.2.EdgesMirrored := by
  simp only [Repository.reindex]
  split
  · exact mirrored
  · exact mirrored.withWorkspace ⟨mirrored.workspace.maps, mirrored.workspace.disputed⟩

private theorem staged (writes : List Write) :
    ((Transaction.beginWrite repo.workspace).stage writes).base.EdgesMirrored ∧
      ((Transaction.beginWrite repo.workspace).stage writes).InStep := by
  refine ⟨?_, Transaction.stage_inStep mirrored.workspace.maps writes⟩
  rw [Transaction.stage_base]
  exact mirrored.workspace

theorem perform (hash : Commit → Nat) (operation : Operation) :
    (repo.perform hash operation).EdgesMirrored := by
  cases operation with
  | save writes =>
      obtain ⟨isMirrored, inStep⟩ := mirrored.staged writes
      exact mirrored.save isMirrored inStep
  | commit writes allowEmpty stamp =>
      obtain ⟨isMirrored, inStep⟩ := mirrored.staged writes
      exact mirrored.commitImpl hash isMirrored inStep allowEmpty stamp
  | merge theirs stamp => exact mirrored.merge hash theirs stamp
  | resolveAll side => exact mirrored.resolveAll side
  | abortMerge => exact mirrored.abortMerge
  | discardWorkspace => exact mirrored.discardWorkspace
  | resetWorkspaceToHead => exact mirrored.resetWorkspaceToHead
  | checkoutBranch name => exact mirrored.checkoutBranch name
  | createBranch name target => exact mirrored.createBranch name target
  | deleteBranch name => exact mirrored.deleteBranch name
  | rekey old new stamp => exact mirrored.commitWrites hash _ stamp
  | renameRelType old new policy stamp => exact mirrored.commitWrites hash _ stamp
  | reindex => exact mirrored.reindex

end EdgesMirrored

end Repository

/-- In every repository that operations reach, the workspace and every commit
have a reverse map that is the image of the forward map; and so they do after
an import. -/
theorem edgesRev_mirrors_edgesFwd (hash : Commit → Nat) {repo : Repository}
    (run : repo.Reachable hash fun _ _ => True) :
    (repo.workspace.manifest.EdgesMirrored ∧
      ∀ commit ∈ repo.commits, commit.manifest.EdgesMirrored) ∧
    ∀ branch batches stamp,
      (repo.importRun hash branch batches stamp).2.workspace.manifest.EdgesMirrored ∧
        ∀ commit ∈ (repo.importRun hash branch batches stamp).2.commits,
          commit.manifest.EdgesMirrored := by
  have everywhere : ∀ {repo : Repository}, repo.Reachable hash (fun _ _ => True) →
      repo.EdgesMirrored := by
    intro repo run
    induction run with
    | init => exact Repository.init_mirrored
    | step _ _ ih => exact ih.perform hash _
  have here := everywhere run
  refine ⟨⟨here.workspace.maps, here.commits⟩, fun branch batches stamp => ?_⟩
  have imported := everywhere (run.importRun branch batches stamp)
  exact ⟨imported.workspace.maps, imported.commits⟩

private theorem knowsChecked : checkEdgeKey "Knows" .null = .ok () := by rfl

def friendsWrites : List Write :=
  [.putNode (person 1) (mailOf "a"), .putNode (person 2) (mailOf "b"),
    .putEdge ⟨person 1, "Knows", person 2, .null, knowsChecked⟩ ⟨.empty⟩]

theorem edgesRev_mirrors_edgesFwd_sample :
    let repo := Repository.init.perform (fun _ => 0) (.commit friendsWrites false 0)
    repo.commits.length = 1 ∧ repo.workspace.manifest.edgesRev.keys.length = 1 ∧
      repo.workspace.manifest.EdgesMirrored :=
  ⟨by decide +kernel, by decide +kernel,
    (edgesRev_mirrors_edgesFwd _ (.step .init trivial)).1.1⟩

end Acetone.Graph

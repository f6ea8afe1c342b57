import Acetone.Graph.MergeRecovery
import Acetone.Graph.Validity

/-!
# Merges that leave things as they are

A merge of a version with one that has not changed since their base gives the
rows of the version back, in its derived maps too.  A merge that is found to conflict and is
aborted, both of them possibly interrupted, gives the repository back.
-/

namespace Acetone.Graph

open Acetone.Lib Acetone.Model

/-- The reverse edges and the indexes are what a rebuild gives. -/
structure Manifest.Current (manifest : Manifest) : Prop where
  reverse : rebuildReverse manifest.edgesFwd = .ok manifest.edgesRev
  indexes : rebuildAll manifest.nodes (schemaEntries manifest.schema) = .ok manifest.indexes

section

variable {base ours theirs side : Manifest}

private theorem mergeManifests_of_decided
    (schema : ∀ key, Decided (base.schema.get key) (ours.schema.get key) (theirs.schema.get key)
      (side.schema.get key))
    (nodes : ∀ key, Decided (base.nodes.get key) (ours.nodes.get key) (theirs.nodes.get key)
      (side.nodes.get key))
    (edges : ∀ key, Decided (base.edgesFwd.get key) (ours.edgesFwd.get key)
      (theirs.edgesFwd.get key) (side.edgesFwd.get key)) (current : side.Current) :
    mergeManifests base ours theirs = (validateMerged base ours theirs side).map fun violations =>
      if violations ≠ [] then .conflicts side (violations.map .graph) else .clean side := by
  obtain ⟨isSchema, noSchema⟩ := threeWay_of_decided schema
  obtain ⟨isNodes, noNodes⟩ := threeWay_of_decided nodes
  obtain ⟨isEdges, noEdges⟩ := threeWay_of_decided edges
  simp only [mergeManifests, mergeSchema, mergeOne, noSchema, noNodes, noEdges, isSchema, isNodes,
    isEdges, List.map_nil, List.filterMap_nil, List.flatMap_nil, SortedMap.applyAll, List.foldl_nil,
    current.reverse, current.indexes, ok_bind]
  cases validateMerged base ours theirs side with
  | error cause => rfl
  | ok violations =>
      by_cases clean : violations = []
      · rw [clean]
        rfl
      · simp [clean, Except.map]

/-- Where only one side changed, or both alike, the merge holds the rows of that
version; only the checks of the result can object. -/
theorem merge_unchanged_side (base side : Manifest) (current : side.Current) :
    (mergeManifests base base side = (validateMerged base base side side).map fun violations =>
      if violations ≠ [] then .conflicts side (violations.map .graph) else .clean side) ∧
    (mergeManifests base side base = (validateMerged base side base side).map fun violations =>
      if violations ≠ [] then .conflicts side (violations.map .graph) else .clean side) ∧
    mergeManifests base side side = (validateMerged base side side side).map fun violations =>
      if violations ≠ [] then .conflicts side (violations.map .graph) else .clean side :=
  ⟨mergeManifests_of_decided (fun _ => .theirs rfl rfl) (fun _ => .theirs rfl rfl)
      (fun _ => .theirs rfl rfl) current,
    mergeManifests_of_decided (fun _ => .ours rfl rfl) (fun _ => .ours rfl rfl)
      (fun _ => .ours rfl rfl) current,
    mergeManifests_of_decided (fun _ => .both rfl rfl) (fun _ => .both rfl rfl)
      (fun _ => .both rfl rfl) current⟩

theorem merge_unchanged_side_sample :
    validateMerged sampleBaseVersion sampleBaseVersion sampleOursVersion sampleOursVersion =
        .ok [] ∧
      mergeManifests sampleBaseVersion sampleBaseVersion sampleOursVersion =
        (validateMerged sampleBaseVersion sampleBaseVersion sampleOursVersion sampleOursVersion).map
          fun violations =>
            if violations ≠ [] then .conflicts sampleOursVersion (violations.map .graph)
            else .clean sampleOursVersion :=
  ⟨by decide +kernel, (merge_unchanged_side sampleBaseVersion sampleOursVersion
    ⟨by decide +kernel, by decide +kernel⟩).1⟩

end

namespace Repository

variable {hash : Commit → Nat} {repo : Repository} {theirs : Commit} {stamp : Nat}

/-- A merge that is found to conflict starts from a clean tip and writes the
workspace before `MERGE_HEAD`. -/
private theorem conflicted_writes {found : List MergeConflict}
    (conflicts : (repo.merge hash theirs stamp).1 = .ok (.conflicts found))
    (free : repo.mergeHead = none) :
    ∃ tip merged, repo.headCommit = some tip ∧ repo.workspace = tip.checkedOut ∧
      repo.writesOf hash (.merge theirs stamp) =
        [.workspace ⟨merged, some (buildConflictsMap found)⟩ (.merge theirs),
          .mergeHead (some theirs)] := by
  rw [writesOf, mergePlan]
  rw [merge] at conflicts
  split at conflicts
  · cases conflicts
  next clean =>
  rw [if_neg clean]
  split at conflicts
  · cases conflicts
  next known =>
  rw [if_neg known]
  cases isTip : repo.headCommit with
  | none =>
      rw [isTip] at conflicts
      cases conflicts
  | some tip =>
      have isClean : repo.workspace = tip.checkedOut := by
        simpa [isDirty, isTip] using clean
      rw [isTip] at conflicts
      dsimp only at conflicts ⊢
      split at conflicts
      · cases conflicts
      next fresh =>
      rw [if_neg fresh]
      split at conflicts
      · cases conflicts
      next apart =>
      rw [if_neg apart, mergeDivergedPlan]
      rw [mergeDiverged] at conflicts
      cases isBase : tip.mergeBase hash theirs with
      | none =>
          rw [isBase] at conflicts
          cases conflicts
      | some base =>
          rw [isBase] at conflicts
          dsimp only at conflicts ⊢
          generalize mergeManifests base.manifest tip.manifest theirs.manifest = outcome
            at conflicts ⊢
          rcases outcome with cause | ⟨merged⟩ | ⟨merged, cells⟩
          · cases conflicts
          · cases conflicts
          · cases conflicts
            refine ⟨tip, merged, rfl, isClean, ?_⟩
            rw [deleteMergeHead, free]
            rfl

/-- A merge that conflicts and is aborted leaves nothing behind, wherever the
merge stopped, and however often the abort did. -/
theorem abort_undoes_merge (hash : Commit → Nat) (repo : Repository) (theirs : Commit) (stamp : Nat)
    (found : List MergeConflict) (free : repo.mergeHead = none)
    (conflicts : (repo.merge hash theirs stamp).1 = .ok (.conflicts found)) (count : Nat)
    (stops : List Nat) :
    (stops.foldl (fun left count => stopped write left (left.writesOf hash .abortMerge) count)
      (stopped write repo (repo.writesOf hash (.merge theirs stamp)) count)).abortMerge.2 = repo := by
  obtain ⟨tip, merged, isTip, isClean, isWrites⟩ := conflicted_writes conflicts free
  have unchanged : { repo with mergeHead := none, workspace := tip.checkedOut } = repo := by
    rw [← isClean, ← free]
  have begun : Throughout write (repo.Aborting tip) repo
      (repo.writesOf hash (.merge theirs stamp)) := by
    rw [isWrites]
    have kept := free
    obtain ⟨head, branches, commits, workspace, mergeHead⟩ := repo
    cases kept
    refine throughout_cons.mpr ⟨⟨none, workspace, rfl, fun _ _ => isClean⟩, throughout_cons.mpr
      ⟨⟨none, _, rfl, fun _ clean => ?_⟩,
        throughout_nil.mpr ⟨some theirs, _, rfl, fun cleared => ?_⟩⟩⟩
    · cases clean
    · cases cleared
  have aborting : ∀ left, repo.Aborting tip left → repo.Aborting tip (stops.foldl
      (fun left count => stopped write left (left.writesOf hash .abortMerge) count) left) := by
    intro left isLeft
    induction stops generalizing left with
    | nil => exact isLeft
    | cons count stops ih => exact ih _ (isLeft.stopped isTip count)
  rw [(aborting _ (begun count)).finishes isTip, unchanged]

def sideConflicts : List MergeConflict :=
  match (diverged.merge sampleHash sideTip 3).1 with
  | .ok (.conflicts found) => found
  | _ => []

theorem abort_undoes_merge_diverged :
    ([1, 2].foldl
      (fun left count => stopped write left (left.writesOf sampleHash .abortMerge) count)
      (stopped write diverged (diverged.writesOf sampleHash (.merge sideTip 3)) 2)).abortMerge.2 =
        diverged :=
  abort_undoes_merge sampleHash diverged sideTip 3 sideConflicts (by decide +kernel)
    (by decide +kernel) 2 [1, 2]

end Repository

end Acetone.Graph

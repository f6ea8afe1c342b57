import Acetone.Graph.Rewrites

/-!
# The repository

The state of a repository with one worktree: the checked-out branch, the
branches, the commits written so far, the workspace and `MERGE_HEAD`.  An
operation that fails may still have changed the workspace: a commit saves what
was staged before it looks for conflicts.  The write lock makes each operation
one step.
-/

namespace Acetone.Graph

open Acetone.Lib Acetone.Model

structure Repository where
  head : String
  branches : SortedMap String Commit
  commits : List Commit
  workspace : Workspace
  mergeHead : Option Commit
deriving DecidableEq

def defaultBranch : String := "main"

inductive ResolveSide where
  | ours
  | theirs
deriving DecidableEq

def ResolveSide.source (ours theirs : Commit) : ResolveSide → Manifest
  | .ours => ours.manifest
  | .theirs => theirs.manifest

inductive MergeOutcome where
  | alreadyUpToDate
  | fastForward (target : Commit)
  | merged (commit : Commit)
  | conflicts (found : List MergeConflict)
deriving DecidableEq

abbrev Effect (α : Type) := Except RepositoryError α × Repository

def buildConflictsMap (found : List MergeConflict) : Conflicts where
  cells := found.filterMap fun
    | .cell conflict => some ⟨conflict.map, conflict.key, conflict.property⟩
    | .graph _ => none
  graphMarkers := found.filterMap fun
    | .cell _ => none
    | .graph violation => some violation

namespace Repository

def init : Repository := ⟨defaultBranch, .empty, [], blank, none⟩

/-- The tip of the checked-out branch; none while it is unborn. -/
def headCommit (repo : Repository) : Option Commit := repo.branches.get repo.head

/-- The workspace differs from the checked-out commit. -/
def isDirty (repo : Repository) : Bool :=
  match repo.headCommit with
  | none => repo.workspace ≠ blank
  | some tip => repo.workspace ≠ tip.checkedOut

def createBranch (repo : Repository) (name : String) (target : Option Commit) :
    Effect Commit :=
  let resolved : Except RepositoryError Commit :=
    match target with
    | some commit => if commit ∈ repo.commits then .ok commit else .error .unresolvedRefspec
    | none =>
        match repo.headCommit with
        | some tip => .ok tip
        | none => .error .noCurrentBranch
  match resolved with
  | .error cause => (.error cause, repo)
  | .ok commit =>
      if repo.branches.get name ≠ none then (.error (.branchExists name), repo)
      else (.ok commit, { repo with branches := repo.branches.put name commit })

def deleteBranch (repo : Repository) (name : String) : Effect Commit :=
  if name = repo.head then (.error (.branchCheckedOut name), repo)
  else
    match repo.branches.get name with
    | none => (.error (.noSuchBranch name), repo)
    | some commit => (.ok commit, { repo with branches := repo.branches.delete name })

def checkoutBranch (repo : Repository) (name : String) : Effect Unit :=
  let target := repo.branches.get name
  if target.any fun commit => repo.workspace = commit.checkedOut then
    (.ok (), { repo with head := name })
  else if repo.isDirty then (.error .dirtyWorkspace, repo)
  else
    match target with
    | none => (.error (.noSuchBranch name), repo)
    | some commit => (.ok (), { repo with head := name, workspace := commit.checkedOut })

def save (repo : Repository) (txn : Transaction) : Effect Unit :=
  match txn.saveInPlace repo.mergeHead.isSome with
  | .error cause => (.error (.graph cause), repo)
  | .ok next => (.ok (), { repo with workspace := next })

def reindex (repo : Repository) : Effect Unit :=
  let manifest := repo.workspace.manifest
  let rebuilt : Except GraphError Indexes := do
    let entries ← readSchema manifest.schema
    rebuildAll manifest.nodes entries
  match rebuilt with
  | .error cause => (.error (.graph cause), repo)
  | .ok indexes =>
      (.ok (), { repo with
        workspace := { repo.workspace with manifest := { manifest with indexes := indexes } } })

section

variable (hash : Commit → Nat)

def checkCompletion (workspace : Workspace) (tip : Option Commit) (theirs : Commit) :
    Except RepositoryError Commit :=
  if workspace.conflicts.any fun conflicts => conflicts.cells ≠ [] then
    .error (.mergeState
      "cannot commit: unresolved merge conflicts remain — resolve them first")
  else
    match tip with
    | none => .error (.mergeState "merge in progress but the branch is unborn")
    | some ours =>
        match ours.mergeBase hash theirs with
        | none => .error (.noMergeBase ours theirs)
        | some base => do
            let violations ← liftGraph (validateMerged base.manifest ours.manifest
              theirs.manifest workspace.manifest)
            if violations ≠ [] then .error (.mergeViolations violations)
            else .ok ours

/-- Point the checked-out branch at a commit just written. -/
def advance (repo : Repository) (commit : Commit) : Repository :=
  { repo with
    branches := repo.branches.put repo.head commit
    commits := commit :: repo.commits }

def completeMerge (repo : Repository) (theirs : Commit) (stamp : Nat) : Effect Commit :=
  match checkCompletion hash repo.workspace repo.headCommit theirs with
  | .error cause => (.error cause, repo)
  | .ok ours =>
      let commit := Commit.merged ours theirs repo.workspace.manifest stamp
      (.ok commit, { repo.advance commit with
        workspace := ⟨repo.workspace.manifest, none⟩
        mergeHead := none })

def completeOrdinary (repo : Repository) (allowEmpty : Bool) (stamp : Nat) : Effect Commit :=
  if repo.workspace.conflicts.isSome then (.error .mergeInProgress, repo)
  else if ¬ allowEmpty ∧ ¬ repo.isDirty then (.error .nothingToCommit, repo)
  else
    let commit :=
      match repo.headCommit with
      | none => Commit.initial repo.workspace.manifest stamp
      | some tip => Commit.child tip repo.workspace.manifest stamp
    (.ok commit, repo.advance commit)

/-- Turn the saved workspace into a commit, concluding the merge in progress.
A `MERGE_HEAD` in the tip's history is stale and is cleared. -/
def commitSaved (repo : Repository) (allowEmpty : Bool) (stamp : Nat) : Effect Commit :=
  match repo.mergeHead with
  | none => repo.completeOrdinary allowEmpty stamp
  | some theirs =>
      if repo.headCommit.any fun tip => theirs.isAncestor tip then
        { repo with mergeHead := none }.completeOrdinary allowEmpty stamp
      else repo.completeMerge hash theirs stamp

/-- Save the staged updates and commit the workspace.  The save stands even if
the commit is refused. -/
def commitImpl (repo : Repository) (txn : Transaction) (allowEmpty : Bool) (stamp : Nat) :
    Effect Commit :=
  match repo.save txn with
  | (.error cause, saved) => (.error cause, saved)
  | (.ok (), saved) => saved.commitSaved hash allowEmpty stamp

/-- Advance the branch to a commit that contains it. -/
def fastForward (repo : Repository) (target : Commit) : Repository :=
  { repo with
    branches := repo.branches.put repo.head target
    workspace := target.checkedOut }

def mergeDiverged (repo : Repository) (ours theirs : Commit) (stamp : Nat) :
    Effect MergeOutcome :=
  match ours.mergeBase hash theirs with
  | none => (.error (.noMergeBase ours theirs), repo)
  | some base =>
      match mergeManifests base.manifest ours.manifest theirs.manifest with
      | .error cause => (.error (.graph cause), repo)
      | .ok (.conflicts merged found) =>
          (.ok (.conflicts found), { repo with
            workspace := ⟨merged, some (buildConflictsMap found)⟩
            mergeHead := some theirs })
      | .ok (.clean merged) =>
          let commit := Commit.merged ours theirs merged stamp
          (.ok (.merged commit), { repo.advance commit with
            workspace := commit.checkedOut
            mergeHead := none })

def merge (repo : Repository) (theirs : Commit) (stamp : Nat) : Effect MergeOutcome :=
  if repo.isDirty then (.error .dirtyWorkspace, repo)
  else if theirs ∉ repo.commits then (.error .unresolvedRefspec, repo)
  else
    match repo.headCommit with
    | none => (.ok (.fastForward theirs), repo.fastForward theirs)
    | some ours =>
        if theirs.isAncestor ours then (.ok .alreadyUpToDate, repo)
        else if ours.isAncestor theirs then
          (.ok (.fastForward theirs), repo.fastForward theirs)
        else repo.mergeDiverged hash ours theirs stamp

end

def abortMerge (repo : Repository) : Effect Unit :=
  if repo.mergeHead = none ∧ repo.workspace.conflicts = none then
    (.error (.mergeState "no merge in progress to abort"), repo)
  else
    match repo.headCommit with
    | none => (.error (.mergeState "merge in progress but the branch is unborn"), repo)
    | some ours => (.ok (), { repo with mergeHead := none, workspace := ours.checkedOut })

/-- `MERGE_HEAD` stays as it is. -/
def resetWorkspaceToHead (repo : Repository) : Repository :=
  { repo with workspace := (repo.headCommit.map Commit.checkedOut).getD blank }

/-- Whether anything was discarded. -/
def discardWorkspace (repo : Repository) : Effect Bool :=
  if repo.mergeHead ≠ none ∨ repo.workspace.conflicts ≠ none then
    (.error .discardDuringMerge, repo)
  else if repo.isDirty then (.ok true, repo.resetWorkspaceToHead)
  else (.ok false, repo)

/-- The number of cells resolved.  Without a staged update nothing is saved. -/
def resolveAll (repo : Repository) (side : ResolveSide) : Effect Nat :=
  match repo.mergeHead, repo.headCommit with
  | none, _ => (.error (.mergeState "no merge in progress"), repo)
  | some _, none => (.error (.mergeState "merge in progress but the branch is unborn"), repo)
  | some theirs, some ours =>
      match resolveConflictsFrom (side.source ours theirs) (.beginWrite repo.workspace) with
      | .error cause => (.error (.graph cause), repo)
      | .ok (count, txn) =>
          if txn.isDirty then
            let (result, saved) := repo.save txn
            (result.map fun _ => count, saved)
          else (.ok count, repo)

section

variable (hash : Commit → Nat)

/-- Stage the writes an operation asks for and commit them; a write that is
refused ends the operation. -/
def commitWrites (repo : Repository) (writes : Except RepositoryError (List Write))
    (stamp : Nat) : Effect Commit :=
  match writes with
  | .error cause => (.error cause, repo)
  | .ok writes =>
      match (Transaction.beginWrite repo.workspace).writeAll writes with
      | .error cause => (.error (.graph cause), repo)
      | .ok txn => repo.commitImpl hash txn false stamp

def rekey (repo : Repository) (old new : NodeKey) (stamp : Nat) : Effect Commit :=
  repo.commitWrites hash (rekeyWrites repo.workspace.manifest old new) stamp

def renameRelType (repo : Repository) (old new : String) (policy : RenamePolicy)
    (stamp : Nat) : Effect Commit :=
  repo.commitWrites hash (renameWrites repo.workspace.manifest old new policy) stamp

end

section

variable (hash : Commit → Nat)

def streamBatches (repo : Repository) :
    List (Except RepositoryError (List Write)) → Effect Unit
  | [] => (.ok (), repo)
  | .error cause :: _ => (.error cause, repo)
  | .ok writes :: batches =>
      match (Transaction.beginWrite repo.workspace).writeAll writes with
      | .error cause => (.error (.graph cause), repo)
      | .ok txn =>
          match repo.save txn with
          | (.error cause, saved) => (.error cause, saved)
          | (.ok (), saved) => saved.streamBatches batches

/-- The commit written, or none if the import changed nothing. -/
def importIntoWorkspace (repo : Repository)
    (batches : List (Except RepositoryError (List Write))) (stamp : Nat) :
    Effect (Option Commit) :=
  match repo.streamBatches batches with
  | (.error cause, failed) => (.error cause, failed.resetWorkspaceToHead)
  | (.ok (), staged) =>
      if ¬ staged.isDirty then (.ok none, staged)
      else
        let (result, next) :=
          staged.commitImpl hash (.beginWrite staged.workspace) false stamp
        (result.map some, next)

/-- Create the branch unless it exists, and check it out. -/
def switchToBranch (repo : Repository) (branch : String) : Effect Bool :=
  match repo.createBranch branch none with
  | (.ok _, created) =>
      let (result, next) := created.checkoutBranch branch
      (result.map fun _ => true, next)
  | (.error (.branchExists _), _) =>
      let (result, next) := repo.checkoutBranch branch
      (result.map fun _ => false, next)
  | (.error cause, _) => (.error cause, repo)

/-- Import onto the current branch, or onto another one and back. -/
def importRun (repo : Repository) (branch : Option String)
    (batches : List (Except RepositoryError (List Write))) (stamp : Nat) :
    Effect (Option Commit) :=
  if repo.isDirty then (.error .dirtyWorkspace, repo)
  else
    match branch with
    | none => repo.importIntoWorkspace hash batches stamp
    | some branch =>
        if branch = repo.head then (.error (.importConfig branch), repo)
        else
          match repo.switchToBranch branch with
          | (.error cause, switched) => (.error cause, switched)
          | (.ok created, switched) =>
              let (result, done) := switched.importIntoWorkspace hash batches stamp
              match result, done.checkoutBranch repo.head with
              | .error cause, (.ok (), back) =>
                  (.error cause, if created then (back.deleteBranch branch).2 else back)
              | .error cause, (.error _, back) => (.error cause, back)
              | .ok _, (.error cause, back) => (.error cause, back)
              | .ok outcome, (.ok (), back) => (.ok outcome, back)

end

end Repository

inductive Operation where
  | save (writes : List Write)
  | commit (writes : List Write) (allowEmpty : Bool) (stamp : Nat)
  | merge (theirs : Commit) (stamp : Nat)
  | resolveAll (side : ResolveSide)
  | abortMerge
  | discardWorkspace
  | resetWorkspaceToHead
  | checkoutBranch (name : String)
  | createBranch (name : String) (target : Option Commit)
  | deleteBranch (name : String)
  | rekey (old new : NodeKey) (stamp : Nat)
  | renameRelType (old new : String) (policy : RenamePolicy) (stamp : Nat)
  | reindex
deriving DecidableEq

namespace Repository

variable (hash : Commit → Nat)

def perform (repo : Repository) : Operation → Repository
  | .save writes => (repo.save ((Transaction.beginWrite repo.workspace).stage writes)).2
  | .commit writes allowEmpty stamp =>
      (repo.commitImpl hash ((Transaction.beginWrite repo.workspace).stage writes)
        allowEmpty stamp).2
  | .merge theirs stamp => (repo.merge hash theirs stamp).2
  | .resolveAll side => (repo.resolveAll side).2
  | .abortMerge => repo.abortMerge.2
  | .discardWorkspace => repo.discardWorkspace.2
  | .resetWorkspaceToHead => repo.resetWorkspaceToHead
  | .checkoutBranch name => (repo.checkoutBranch name).2
  | .createBranch name target => (repo.createBranch name target).2
  | .deleteBranch name => (repo.deleteBranch name).2
  | .rekey old new stamp => (repo.rekey hash old new stamp).2
  | .renameRelType old new policy stamp => (repo.renameRelType hash old new policy stamp).2
  | .reindex => repo.reindex.2

inductive Reachable (allowed : Repository → Operation → Prop) : Repository → Prop
  | init : Reachable allowed init
  | step {repo : Repository} {operation : Operation} : Reachable allowed repo →
      allowed repo operation → Reachable allowed (repo.perform hash operation)

end Repository

theorem Transaction.writeAll_eq_stage {txn next : Transaction} {writes : List Write}
    (written : txn.writeAll writes = .ok next) :
    txn.stage writes = next := by
  induction writes generalizing txn with
  | nil =>
      cases written
      rfl
  | cons write writes ih =>
      obtain ⟨first, isFirst, rest⟩ := bind_eq_ok.mp written
      rw [stage, List.foldl_cons, isFirst]
      exact ih rest

namespace Repository

variable {hash : Commit → Nat} {repo : Repository}

abbrev Reached (hash : Commit → Nat) (repo : Repository) : Prop :=
  repo.Reachable hash fun _ _ => True

namespace Reachable

variable (run : repo.Reached hash)

include run

private theorem after (operation : Operation) : (repo.perform hash operation).Reached hash :=
  .step run trivial

theorem streamBatches (batches : List (Except RepositoryError (List Write))) :
    (repo.streamBatches batches).2.Reached hash := by
  induction batches generalizing repo with
  | nil => exact run
  | cons batch batches ih =>
      cases batch with
      | error cause => exact run
      | ok writes =>
          rw [Repository.streamBatches]
          split
          · exact run
          · next txn staged =>
              have saved := run.after (.save writes)
              rw [perform, Transaction.writeAll_eq_stage staged] at saved
              split
              · next isSaved =>
                  rw [isSaved] at saved
                  exact saved
              · next isSaved =>
                  rw [isSaved] at saved
                  exact ih saved

theorem importIntoWorkspace (batches : List (Except RepositoryError (List Write)))
    (stamp : Nat) : (repo.importIntoWorkspace hash batches stamp).2.Reached hash := by
  have streamed := run.streamBatches batches
  rw [Repository.importIntoWorkspace]
  split
  · next isStreamed =>
      rw [isStreamed] at streamed
      exact streamed.after .resetWorkspaceToHead
  · next isStreamed =>
      rw [isStreamed] at streamed
      split
      · exact streamed
      · exact streamed.after (.commit [] false stamp)

theorem switchToBranch (branch : String) : (repo.switchToBranch branch).2.Reached hash := by
  have created := run.after (.createBranch branch none)
  rw [perform] at created
  rw [Repository.switchToBranch]
  split
  · next isCreated =>
      rw [isCreated] at created
      exact created.after (.checkoutBranch branch)
  · exact run.after (.checkoutBranch branch)
  · exact run

theorem importRun (branch : Option String)
    (batches : List (Except RepositoryError (List Write))) (stamp : Nat) :
    (repo.importRun hash branch batches stamp).2.Reached hash := by
  rw [Repository.importRun.eq_def]
  split
  · exact run
  · split
    · exact run.importIntoWorkspace batches stamp
    · next branch =>
        split
        · exact run
        · have switched := run.switchToBranch branch
          split
          · next isSwitched =>
              rw [isSwitched] at switched
              exact switched
          · next created next isSwitched =>
              rw [isSwitched] at switched
              have imported := switched.importIntoWorkspace batches stamp
              have back := imported.after (.checkoutBranch repo.head)
              rw [perform] at back
              dsimp only at back ⊢
              generalize next.importIntoWorkspace hash batches stamp = effect at back ⊢
              obtain ⟨result, done⟩ := effect
              generalize done.checkoutBranch repo.head = restored at back ⊢
              obtain ⟨outcome, final⟩ := restored
              cases result with
              | ok _ => cases outcome <;> exact back
              | error _ =>
                  cases outcome with
                  | error _ => exact back
                  | ok _ =>
                      dsimp only
                      split
                      · exact back.after (.deleteBranch branch)
                      · exact back

end Reachable

end Repository

end Acetone.Graph

import Acetone.Lib.Interruption
import Acetone.Graph.Repository

/-!
# The writes of an operation

There is no update of several refs at once.  An operation writes the workspace
ref, `MERGE_HEAD`, a branch and the checked-out branch one at a time, and a
process that stops leaves what it had written.  What an operation will write is
settled by the state it starts in, since it holds the write lock.
-/

namespace Acetone.Graph

open Acetone.Lib Acetone.Model

/-- What a workspace write puts there: what was in the workspace with some
changes, the result of merging a commit, or a version as it is. -/
inductive Content where
  | kept
  | merge (theirs : Commit)
  | version
deriving DecidableEq

/-- A commit object, or one ref. -/
inductive RefWrite where
  | object (commit : Commit)
  | workspace (next : Workspace) (content : Content)
  | mergeHead (target : Option Commit)
  | branch (name : String) (target : Option Commit)
  | head (name : String)
deriving DecidableEq

/-- The writes of an operation that runs to its end, and its result. -/
structure Plan (α : Type) where
  writes : List RefWrite
  result : Except RepositoryError α

namespace Repository

def write (repo : Repository) : RefWrite → Repository
  | .object commit => { repo with commits := commit :: repo.commits }
  | .workspace next _ => { repo with workspace := next }
  | .mergeHead target => { repo with mergeHead := target }
  | .branch name (some commit) => { repo with branches := repo.branches.put name commit }
  | .branch name none => { repo with branches := repo.branches.delete name }
  | .head name => { repo with head := name }

def writeAll (repo : Repository) (writes : List RefWrite) : Repository :=
  writes.foldl write repo

end Repository

namespace Plan

variable {α β : Type}

def fail (cause : RepositoryError) : Plan α := ⟨[], .error cause⟩

def effect (plan : Plan α) (repo : Repository) : Effect α :=
  (plan.result, repo.writeAll plan.writes)

/-- Go on in the state the first operation leaves, if it succeeds. -/
def andThen (first : Plan α) (repo : Repository) (next : α → Repository → Plan β) : Plan β :=
  match first.result with
  | .error cause => ⟨first.writes, .error cause⟩
  | .ok value =>
      let second := next value (repo.writeAll first.writes)
      ⟨first.writes ++ second.writes, second.result⟩

end Plan

namespace Repository

section

variable (hash : Commit → Nat)

def createBranchPlan (repo : Repository) (name : String) (target : Option Commit) :
    Plan Commit :=
  match repo.createBranch name target with
  | (.error cause, _) => .fail cause
  | (.ok commit, _) => ⟨[.branch name (some commit)], .ok commit⟩

def deleteBranchPlan (repo : Repository) (name : String) : Plan Commit :=
  match repo.deleteBranch name with
  | (.error cause, _) => .fail cause
  | (.ok commit, _) => ⟨[.branch name none], .ok commit⟩

/-- The workspace before the checked-out branch. -/
def checkoutBranchPlan (repo : Repository) (name : String) : Plan Unit :=
  let target := repo.branches.get name
  if target.any fun commit => repo.workspace = commit.checkedOut then ⟨[.head name], .ok ()⟩
  else if repo.isDirty then .fail .dirtyWorkspace
  else
    match target with
    | none => .fail (.noSuchBranch name)
    | some commit => ⟨[.workspace commit.checkedOut .version, .head name], .ok ()⟩

/-- A save that changes nothing writes nothing. -/
def savePlan (repo : Repository) (txn : Transaction) : Plan Unit :=
  match txn.saveInPlace repo.mergeHead.isSome with
  | .error cause => .fail (.graph cause)
  | .ok next => ⟨if next = repo.workspace then [] else [.workspace next .kept], .ok ()⟩

def reindexPlan (repo : Repository) : Plan Unit :=
  match repo.reindex with
  | (.error cause, _) => .fail cause
  | (.ok (), next) =>
      ⟨if next.workspace = repo.workspace then [] else [.workspace next.workspace .kept], .ok ()⟩

def deleteMergeHead (repo : Repository) : List RefWrite :=
  if repo.mergeHead.isSome then [.mergeHead none] else []

/-- The conflicts map goes first, then the branch is advanced, and `MERGE_HEAD`
goes last. -/
def completeMergePlan (repo : Repository) (theirs : Commit) (stamp : Nat) : Plan Commit :=
  match checkCompletion hash repo.workspace repo.headCommit theirs with
  | .error cause => .fail cause
  | .ok ours =>
      let commit := Commit.merged ours theirs repo.workspace.manifest stamp
      let dropped : List RefWrite :=
        if repo.workspace.conflicts.isSome then
          [.workspace ⟨repo.workspace.manifest, none⟩ .kept] else []
      ⟨dropped ++ ([.object commit, .branch repo.head (some commit)] ++ repo.deleteMergeHead),
        .ok commit⟩

def completeOrdinaryPlan (repo : Repository) (allowEmpty : Bool) (stamp : Nat) : Plan Commit :=
  if repo.workspace.conflicts.isSome then .fail .mergeInProgress
  else if ¬ allowEmpty ∧ ¬ repo.isDirty then .fail .nothingToCommit
  else
    let commit :=
      match repo.headCommit with
      | none => Commit.initial repo.workspace.manifest stamp
      | some tip => Commit.child tip repo.workspace.manifest stamp
    ⟨[.object commit, .branch repo.head (some commit)], .ok commit⟩

def commitSavedPlan (repo : Repository) (allowEmpty : Bool) (stamp : Nat) : Plan Commit :=
  match repo.mergeHead with
  | none => repo.completeOrdinaryPlan allowEmpty stamp
  | some theirs =>
      if repo.headCommit.any fun tip => theirs.isAncestor tip then
        (⟨repo.deleteMergeHead, .ok ()⟩ : Plan Unit).andThen repo fun _ cleared =>
          cleared.completeOrdinaryPlan allowEmpty stamp
      else repo.completeMergePlan hash theirs stamp

def commitPlan (repo : Repository) (txn : Transaction) (allowEmpty : Bool) (stamp : Nat) :
    Plan Commit :=
  (repo.savePlan txn).andThen repo fun _ saved => saved.commitSavedPlan hash allowEmpty stamp

/-- The workspace before the branch. -/
def fastForwardPlan (repo : Repository) (target : Commit) : Plan MergeOutcome :=
  ⟨[.workspace target.checkedOut (.merge target), .branch repo.head (some target)],
    .ok (.fastForward target)⟩

/-- The workspace first: with its conflicts map, before `MERGE_HEAD` names the
other side, or clean, before the branch is advanced. -/
def mergeDivergedPlan (repo : Repository) (ours theirs : Commit) (stamp : Nat) :
    Plan MergeOutcome :=
  match ours.mergeBase hash theirs with
  | none => .fail (.noMergeBase ours theirs)
  | some base =>
      match mergeManifests base.manifest ours.manifest theirs.manifest with
      | .error cause => .fail (.graph cause)
      | .ok (.conflicts merged found) =>
          ⟨.workspace ⟨merged, some (buildConflictsMap found)⟩ (.merge theirs) ::
            (repo.deleteMergeHead ++ [.mergeHead (some theirs)]), .ok (.conflicts found)⟩
      | .ok (.clean merged) =>
          let commit := Commit.merged ours theirs merged stamp
          ⟨.workspace commit.checkedOut (.merge theirs) :: .object commit ::
            .branch repo.head (some commit) :: repo.deleteMergeHead, .ok (.merged commit)⟩

def mergePlan (repo : Repository) (theirs : Commit) (stamp : Nat) : Plan MergeOutcome :=
  if repo.isDirty then .fail .dirtyWorkspace
  else if theirs ∉ repo.commits then .fail .unresolvedRefspec
  else
    match repo.headCommit with
    | none => repo.fastForwardPlan theirs
    | some ours =>
        if theirs.isAncestor ours then ⟨[], .ok .alreadyUpToDate⟩
        else if ours.isAncestor theirs then repo.fastForwardPlan theirs
        else repo.mergeDivergedPlan hash ours theirs stamp

/-- An empty conflicts map, which makes a resolved merge read as one in progress
when `MERGE_HEAD` is gone. -/
def markMergeInProgress (workspace : Workspace) : Workspace := ⟨workspace.manifest, some ⟨[], []⟩⟩

/-- A resolved merge is marked, then `MERGE_HEAD` goes, then the workspace is
reset. -/
def abortMergePlan (repo : Repository) : Plan Unit :=
  if repo.mergeHead = none ∧ repo.workspace.conflicts = none then
    .fail (.mergeState "no merge in progress to abort")
  else
    match repo.headCommit with
    | none => .fail (.mergeState "merge in progress but the branch is unborn")
    | some ours =>
        let marked : List RefWrite :=
          if repo.mergeHead.isSome ∧ repo.workspace.conflicts = none then
            [.workspace (markMergeInProgress repo.workspace) .kept] else []
        ⟨marked ++ (repo.deleteMergeHead ++ [.workspace ours.checkedOut .version]), .ok ()⟩

def resetWorkspaceToHeadPlan (repo : Repository) : Plan Unit :=
  ⟨[.workspace repo.resetWorkspaceToHead.workspace .version], .ok ()⟩

def discardWorkspacePlan (repo : Repository) : Plan Bool :=
  if repo.mergeHead ≠ none ∨ repo.workspace.conflicts ≠ none then .fail .discardDuringMerge
  else if repo.isDirty then
    ⟨[.workspace repo.resetWorkspaceToHead.workspace .version], .ok true⟩
  else ⟨[], .ok false⟩

def resolveAllPlan (repo : Repository) (side : ResolveSide) : Plan Nat :=
  match repo.mergeHead, repo.headCommit with
  | none, _ => .fail (.mergeState "no merge in progress")
  | some _, none => .fail (.mergeState "merge in progress but the branch is unborn")
  | some theirs, some ours =>
      match resolveConflictsFrom (side.source ours theirs) (.beginWrite repo.workspace) with
      | .error cause => .fail (.graph cause)
      | .ok (count, txn) =>
          if txn.isDirty then
            (repo.savePlan txn).andThen repo fun _ _ => ⟨[], .ok count⟩
          else ⟨[], .ok count⟩

def commitWritesPlan (repo : Repository) (writes : Except RepositoryError (List Write))
    (stamp : Nat) : Plan Commit :=
  match writes with
  | .error cause => .fail cause
  | .ok writes =>
      match (Transaction.beginWrite repo.workspace).writeAll writes with
      | .error cause => .fail (.graph cause)
      | .ok txn => repo.commitPlan hash txn false stamp

def writesOf (repo : Repository) : Operation → List RefWrite
  | .save writes => (repo.savePlan ((Transaction.beginWrite repo.workspace).stage writes)).writes
  | .commit writes allowEmpty stamp =>
      (repo.commitPlan hash ((Transaction.beginWrite repo.workspace).stage writes)
        allowEmpty stamp).writes
  | .merge theirs stamp => (repo.mergePlan hash theirs stamp).writes
  | .resolveAll side => (repo.resolveAllPlan side).writes
  | .abortMerge => repo.abortMergePlan.writes
  | .discardWorkspace => repo.discardWorkspacePlan.writes
  | .resetWorkspaceToHead => repo.resetWorkspaceToHeadPlan.writes
  | .checkoutBranch name => (repo.checkoutBranchPlan name).writes
  | .createBranch name target => (repo.createBranchPlan name target).writes
  | .deleteBranch name => (repo.deleteBranchPlan name).writes
  | .rekey old new stamp =>
      (repo.commitWritesPlan hash (rekeyWrites repo.workspace.manifest old new) stamp).writes
  | .renameRelType old new policy stamp =>
      (repo.commitWritesPlan hash (renameWrites repo.workspace.manifest old new policy)
        stamp).writes
  | .reindex => repo.reindexPlan.writes

end

end Repository

theorem Repository.writeAll_append (repo : Repository) (first second : List RefWrite) :
    repo.writeAll (first ++ second) = (repo.writeAll first).writeAll second :=
  List.foldl_append

theorem Repository.writeAll_deleteMergeHead (repo other : Repository)
    (same : other.mergeHead = repo.mergeHead) :
    other.writeAll repo.deleteMergeHead = { other with mergeHead := none } := by
  obtain ⟨head, branches, commits, workspace, mergeHead⟩ := other
  rw [deleteMergeHead, ← same]
  cases mergeHead <;> rfl

namespace Plan

variable {α β : Type} {first : Plan α} {repo : Repository} {next : α → Repository → Plan β}

theorem effect_andThen_of_error {cause : RepositoryError} (fails : first.result = .error cause) :
    (first.andThen repo next).effect repo = (.error cause, repo.writeAll first.writes) := by
  rw [andThen, fails]
  rfl

theorem effect_andThen_of_ok {value : α} (succeeds : first.result = .ok value) :
    (first.andThen repo next).effect repo =
      (next value (repo.writeAll first.writes)).effect (repo.writeAll first.writes) := by
  rw [andThen, succeeds, effect, effect, Repository.writeAll_append]

theorem effect_of_result {result : Except RepositoryError α} (isResult : first.result = result) :
    first.effect repo = (result, repo.writeAll first.writes) := by
  rw [effect, isResult]

end Plan

namespace Repository

variable {hash : Commit → Nat} {repo : Repository}

theorem effect_createBranchPlan (name : String) (target : Option Commit) :
    (repo.createBranchPlan name target).effect repo = repo.createBranch name target := by
  rw [createBranchPlan]
  rcases created : repo.createBranch name target with ⟨result, next⟩
  rw [createBranch.eq_def] at created
  dsimp only at created
  split at created
  · cases created
    rfl
  split at created
  · cases created
    rfl
  · cases created
    rfl

theorem effect_deleteBranchPlan (name : String) :
    (repo.deleteBranchPlan name).effect repo = repo.deleteBranch name := by
  rw [deleteBranchPlan, deleteBranch]
  by_cases isHead : name = repo.head
  · rw [if_pos isHead]
    rfl
  · rw [if_neg isHead]
    cases repo.branches.get name <;> rfl

theorem effect_checkoutBranchPlan (name : String) :
    (repo.checkoutBranchPlan name).effect repo = repo.checkoutBranch name := by
  rw [checkoutBranchPlan, checkoutBranch]
  split
  · rfl
  split
  · rfl
  cases repo.branches.get name <;> rfl

theorem effect_savePlan (txn : Transaction) :
    (repo.savePlan txn).effect repo = repo.save txn := by
  rw [savePlan, save]
  cases txn.saveInPlace repo.mergeHead.isSome with
  | error cause => rfl
  | ok next =>
      by_cases same : next = repo.workspace
      · subst same
        simp [Plan.effect, writeAll]
      · simp [Plan.effect, writeAll, same, write]

theorem effect_reindexPlan : repo.reindexPlan.effect repo = repo.reindex := by
  rw [reindexPlan]
  rcases rebuilt : repo.reindex with ⟨result, next⟩
  rw [reindex] at rebuilt
  split at rebuilt
  · cases rebuilt
    rfl
  · cases rebuilt
    dsimp only [Plan.effect]
    split
    · next same =>
        rw [same]
        rfl
    · rfl

theorem effect_completeMergePlan (theirs : Commit) (stamp : Nat) :
    (repo.completeMergePlan hash theirs stamp).effect repo =
      repo.completeMerge hash theirs stamp := by
  rw [completeMergePlan, completeMerge]
  cases checkCompletion hash repo.workspace repo.headCommit theirs with
  | error cause => rfl
  | ok ours =>
      obtain ⟨head, branches, commits, ⟨manifest, conflicts⟩, mergeHead⟩ := repo
      cases conflicts <;> cases mergeHead <;> rfl

theorem effect_completeOrdinaryPlan (allowEmpty : Bool) (stamp : Nat) :
    (repo.completeOrdinaryPlan allowEmpty stamp).effect repo =
      repo.completeOrdinary allowEmpty stamp := by
  rw [completeOrdinaryPlan, completeOrdinary]
  split
  · rfl
  split
  · rfl
  · rfl

theorem effect_commitSavedPlan (allowEmpty : Bool) (stamp : Nat) :
    (repo.commitSavedPlan hash allowEmpty stamp).effect repo =
      repo.commitSaved hash allowEmpty stamp := by
  rw [commitSavedPlan, commitSaved]
  cases held : repo.mergeHead with
  | none => exact effect_completeOrdinaryPlan allowEmpty stamp
  | some theirs =>
      dsimp only
      split
      · rw [@Plan.effect_andThen_of_ok _ _ ⟨repo.deleteMergeHead, .ok ()⟩ repo _ () rfl,
          writeAll_deleteMergeHead repo repo rfl]
        exact effect_completeOrdinaryPlan allowEmpty stamp
      · exact effect_completeMergePlan theirs stamp

theorem effect_commitPlan (txn : Transaction) (allowEmpty : Bool) (stamp : Nat) :
    (repo.commitPlan hash txn allowEmpty stamp).effect repo =
      repo.commitImpl hash txn allowEmpty stamp := by
  have saved := @effect_savePlan repo txn
  rw [commitImpl, ← saved, commitPlan]
  cases result : (repo.savePlan txn).result with
  | error cause =>
      rw [Plan.effect_andThen_of_error result, Plan.effect_of_result result]
  | ok _ =>
      rw [Plan.effect_andThen_of_ok result, Plan.effect_of_result result]
      exact effect_commitSavedPlan allowEmpty stamp

theorem effect_mergeDivergedPlan (ours theirs : Commit) (stamp : Nat) :
    (repo.mergeDivergedPlan hash ours theirs stamp).effect repo =
      repo.mergeDiverged hash ours theirs stamp := by
  rw [mergeDivergedPlan, mergeDiverged]
  cases ours.mergeBase hash theirs with
  | none => rfl
  | some base =>
      dsimp only
      obtain ⟨head, branches, commits, workspace, mergeHead⟩ := repo
      rcases mergeManifests base.manifest ours.manifest theirs.manifest with
        cause | ⟨merged⟩ | ⟨merged, found⟩
      · rfl
      · cases mergeHead <;> rfl
      · cases mergeHead <;> rfl

theorem effect_mergePlan (theirs : Commit) (stamp : Nat) :
    (repo.mergePlan hash theirs stamp).effect repo = repo.merge hash theirs stamp := by
  rw [mergePlan, merge]
  split
  · rfl
  split
  · rfl
  cases repo.headCommit with
  | none => rfl
  | some ours =>
      dsimp only
      split
      · rfl
      split
      · rfl
      · exact effect_mergeDivergedPlan ours theirs stamp

theorem effect_abortMergePlan : repo.abortMergePlan.effect repo = repo.abortMerge := by
  rw [abortMergePlan, abortMerge]
  split
  · rfl
  cases repo.headCommit with
  | none => rfl
  | some ours =>
      obtain ⟨head, branches, commits, ⟨manifest, conflicts⟩, mergeHead⟩ := repo
      cases conflicts <;> cases mergeHead <;> rfl

theorem effect_resolveAllPlan (side : ResolveSide) :
    (repo.resolveAllPlan side).effect repo = repo.resolveAll side := by
  rw [resolveAllPlan, resolveAll]
  cases repo.mergeHead with
  | none => rfl
  | some theirs =>
      cases repo.headCommit with
      | none => rfl
      | some ours =>
          dsimp only
          rcases resolveConflictsFrom (side.source ours theirs) (.beginWrite repo.workspace) with
            cause | ⟨count, txn⟩
          · rfl
          · dsimp only
            split
            · have saved := @effect_savePlan repo txn
              cases result : (repo.savePlan txn).result with
              | error cause =>
                  rw [Plan.effect_andThen_of_error result, ← saved, Plan.effect_of_result result]
                  rfl
              | ok _ =>
                  rw [Plan.effect_andThen_of_ok result, ← saved, Plan.effect_of_result result]
                  rfl
            · rfl

theorem effect_discardWorkspacePlan :
    repo.discardWorkspacePlan.effect repo = repo.discardWorkspace := by
  rw [discardWorkspacePlan, discardWorkspace]
  split
  · rfl
  split
  · rfl
  · rfl

theorem effect_commitWritesPlan (writes : Except RepositoryError (List Write)) (stamp : Nat) :
    (repo.commitWritesPlan hash writes stamp).effect repo = repo.commitWrites hash writes stamp := by
  cases writes with
  | error cause => rfl
  | ok writes =>
      rw [commitWritesPlan, commitWrites]
      cases (Transaction.beginWrite repo.workspace).writeAll writes with
      | error cause => rfl
      | ok txn => exact effect_commitPlan txn false stamp

/-- An operation that is not interrupted does what it does in one step. -/
theorem perform_eq_writeAll (operation : Operation) :
    repo.perform hash operation = repo.writeAll (repo.writesOf hash operation) := by
  have state : ∀ {α : Type} {plan : Plan α} {whole : Effect α}, plan.effect repo = whole →
      whole.2 = repo.writeAll plan.writes := fun same => (congrArg Prod.snd same).symm
  cases operation with
  | save writes => exact state (effect_savePlan _)
  | commit writes allowEmpty stamp => exact state (effect_commitPlan _ allowEmpty stamp)
  | merge theirs stamp => exact state (effect_mergePlan theirs stamp)
  | resolveAll side => exact state (effect_resolveAllPlan side)
  | abortMerge => exact state effect_abortMergePlan
  | discardWorkspace => exact state effect_discardWorkspacePlan
  | resetWorkspaceToHead => rfl
  | checkoutBranch name => exact state (effect_checkoutBranchPlan name)
  | createBranch name target => exact state (effect_createBranchPlan name target)
  | deleteBranch name => exact state (effect_deleteBranchPlan name)
  | rekey old new stamp => exact state (effect_commitWritesPlan _ stamp)
  | renameRelType old new policy stamp => exact state (effect_commitWritesPlan _ stamp)
  | reindex => exact state effect_reindexPlan

/-- What a merge is going to do: nothing, or one of its three ways. -/
inductive MergeKind where
  | idle
  | fastForward
  | clean
  | conflicted
deriving DecidableEq

def mergeKind (hash : Commit → Nat) (repo : Repository) (theirs : Commit) : MergeKind :=
  if repo.isDirty then .idle
  else if theirs ∉ repo.commits then .idle
  else
    match repo.headCommit with
    | none => .fastForward
    | some ours =>
        if theirs.isAncestor ours then .idle
        else if ours.isAncestor theirs then .fastForward
        else
          match ours.mergeBase hash theirs with
          | none => .idle
          | some base =>
              match mergeManifests base.manifest ours.manifest theirs.manifest with
              | .error _ => .idle
              | .ok (.conflicts _ _) => .conflicted
              | .ok (.clean _) => .clean

inductive MergeWrites (repo : Repository) (theirs : Commit) : MergeKind → List RefWrite → Prop
  | idle : MergeWrites repo theirs .idle []
  | fastForward (behind : ∀ ours, repo.headCommit = some ours → ours ∈ theirs.ancestors) :
      MergeWrites repo theirs .fastForward
        [.workspace theirs.checkedOut (.merge theirs), .branch repo.head (some theirs)]
  | clean {ours commit : Commit} {merged : Manifest} {stamp : Nat}
      (isTip : repo.headCommit = some ours) (isCommit : commit = .merged ours theirs merged stamp) :
      MergeWrites repo theirs .clean
        (.workspace commit.checkedOut (.merge theirs) :: .object commit ::
          .branch repo.head (some commit) :: repo.deleteMergeHead)
  | conflicted {ours : Commit} {merged : Manifest} {conflicts : Conflicts}
      (isTip : repo.headCommit = some ours) (fresh : theirs ∉ ours.ancestors) :
      MergeWrites repo theirs .conflicted
        (.workspace ⟨merged, some conflicts⟩ (.merge theirs) ::
          (repo.deleteMergeHead ++ [.mergeHead (some theirs)]))

theorem mergeWrites (theirs : Commit) (stamp : Nat) :
    MergeWrites repo theirs (repo.mergeKind hash theirs)
      (repo.mergePlan hash theirs stamp).writes := by
  rw [mergeKind, mergePlan]
  split
  · exact .idle
  split
  · exact .idle
  cases isTip : repo.headCommit with
  | none =>
      apply MergeWrites.fastForward
      intro ours again
      rw [isTip] at again
      cases again
  | some ours =>
      dsimp only
      split
      · exact .idle
      · next fresh =>
          split
          · next behind =>
              apply MergeWrites.fastForward
              intro other again
              cases isTip.symm.trans again
              exact of_decide_eq_true behind
          · have notPast : theirs ∉ ours.ancestors := by
              simpa [Commit.isAncestor] using fresh
            rw [mergeDivergedPlan]
            cases ours.mergeBase hash theirs with
            | none => exact .idle
            | some base =>
                dsimp only
                rcases mergeManifests base.manifest ours.manifest theirs.manifest with
                  cause | ⟨merged⟩ | ⟨merged, found⟩
                · exact .idle
                · exact .clean isTip rfl
                · exact .conflicted isTip notPast

end Repository

end Acetone.Graph

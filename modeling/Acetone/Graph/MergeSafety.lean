import Acetone.Graph.Repository
import Acetone.Graph.Saves
import Acetone.Graph.Validity

/-!
# Merges in progress

A merge with conflicts is begun on the tip of a branch and concluded by a
commit with two parents.  The code decides by the state of the workspace
whether an operation may run in between, and a workspace that was resolved to
the tip's version looks clean; `Undisturbed` says which operations do not
disturb the merge.
-/

namespace Acetone.Graph

open Acetone.Lib Acetone.Model

/-- Whether a merge of one commit into another moves the tip: a fast-forward or
a clean merge. -/
def Commit.mergeMoves (hash : Commit → Nat) (ours theirs : Commit) : Bool :=
  ¬ theirs.isAncestor ours ∧
    (ours.isAncestor theirs ∨ (ours.mergeBase hash theirs).any fun base =>
      match mergeManifests base.manifest ours.manifest theirs.manifest with
      | .ok (.clean _) => true
      | _ => false)

section

variable {hash : Commit → Nat} {ours theirs base : Commit} {merged : Manifest}

theorem Commit.mergeMoves_of_behind (unrelated : theirs.isAncestor ours = false)
    (behind : ours.isAncestor theirs = true) : ours.mergeMoves hash theirs = true := by
  simp [mergeMoves, unrelated, behind]

theorem Commit.mergeMoves_of_clean (unrelated : theirs.isAncestor ours = false)
    (isBase : ours.mergeBase hash theirs = some base)
    (outcome : mergeManifests base.manifest ours.manifest theirs.manifest =
      .ok (.clean merged)) : ours.mergeMoves hash theirs = true := by
  simp [mergeMoves, unrelated, isBase, outcome]

end

namespace Repository

/-- While `MERGE_HEAD` is set, only the checked-out branch is checked out or the
checkout is refused, no merge moves the tip, and the workspace is not reset. -/
def Undisturbed (hash : Commit → Nat) (repo : Repository) (operation : Operation) : Prop :=
  repo.mergeHead ≠ none →
    match operation with
    | .checkoutBranch name => name = repo.head ∨
        ∀ commit ∈ repo.branches.get name,
          repo.isDirty ∧ repo.workspace ≠ commit.checkedOut
    | .merge theirs _ => repo.isDirty ∨ theirs ∉ repo.commits ∨
        ∀ ours ∈ repo.headCommit, ¬ ours.mergeMoves hash theirs
    | .resetWorkspaceToHead => ¬ repo.isDirty
    | _ => True

/-- The workspaces that come of merging one commit into another: what the merge
left, and what saves, resolutions and reindexing make of it. -/
inductive MergeWork (hash : Commit → Nat) (ours theirs : Commit) : Workspace → Prop
  | merged {base : Commit} {merged : Manifest} {found : List MergeConflict} :
      ours.mergeBase hash theirs = some base →
      mergeManifests base.manifest ours.manifest theirs.manifest =
        .ok (.conflicts merged found) →
      MergeWork hash ours theirs ⟨merged, some (buildConflictsMap found)⟩
  | saved {workspace next : Workspace} {writes : List Write} {merging : Bool} :
      MergeWork hash ours theirs workspace →
      ((Transaction.beginWrite workspace).stage writes).saveInPlace merging = .ok next →
      MergeWork hash ours theirs next
  | resolved {workspace next : Workspace} {side : ResolveSide} {count : Nat}
      {txn : Transaction} {merging : Bool} :
      MergeWork hash ours theirs workspace →
      resolveConflictsFrom (side.source ours theirs) (.beginWrite workspace) =
        .ok (count, txn) →
      txn.saveInPlace merging = .ok next → MergeWork hash ours theirs next
  | reindexed {workspace : Workspace} {indexes : Indexes} :
      MergeWork hash ours theirs workspace →
      rebuildAll workspace.manifest.nodes (schemaEntries workspace.manifest.schema) =
        .ok indexes →
      MergeWork hash ours theirs
        { workspace with manifest := { workspace.manifest with indexes := indexes } }

/-- The runs in which the merge of `theirs` was begun on the tip `ours` of a
branch, and `MERGE_HEAD` has named `theirs` since. -/
inductive Merging (hash : Commit → Nat) (allowed : Repository → Operation → Prop)
    (branch : String) (ours theirs : Commit) : Repository → Prop
  | begun {repo : Repository} {stamp : Nat} {found : List MergeConflict} :
      repo.Reachable hash allowed → allowed repo (.merge theirs stamp) →
      repo.head = branch → repo.headCommit = some ours →
      (repo.merge hash theirs stamp).1 = .ok (.conflicts found) →
      Merging hash allowed branch ours theirs (repo.perform hash (.merge theirs stamp))
  | continued {repo : Repository} {operation : Operation} :
      Merging hash allowed branch ours theirs repo → allowed repo operation →
      (repo.perform hash operation).mergeHead = some theirs →
      Merging hash allowed branch ours theirs (repo.perform hash operation)

section

variable {hash : Commit → Nat} {repo : Repository}

theorem save_cases (txn : Transaction) :
    (∃ cause, repo.save txn = (.error cause, repo)) ∨
      ∃ next, txn.saveInPlace repo.mergeHead.isSome = .ok next ∧
        repo.save txn = (.ok (), { repo with workspace := next }) := by
  rw [save]
  split
  · next cause _ => exact .inl ⟨.graph cause, rfl⟩
  · next next saved => exact .inr ⟨next, saved, rfl⟩

theorem completeOrdinary_cases (allowEmpty : Bool) (stamp : Nat) :
    (repo.completeOrdinary allowEmpty stamp).2 = repo ∨
      ∃ commit, (∀ ours theirs manifest stamp, commit ≠ .merged ours theirs manifest stamp) ∧
        (repo.completeOrdinary allowEmpty stamp).2 = repo.advance commit := by
  rw [completeOrdinary]
  split
  · exact .inl rfl
  · split
    · exact .inl rfl
    · refine .inr ⟨_, ?_, rfl⟩
      intro ours theirs manifest stamp same
      split at same <;> cases same

private theorem tip_of_checkCompletion {workspace : Workspace} {tip : Option Commit}
    {theirs ours : Commit} (passed : checkCompletion hash workspace tip theirs = .ok ours) :
    tip = some ours := by
  rw [checkCompletion.eq_def] at passed
  split at passed
  · cases passed
  · split at passed
    · cases passed
    · split at passed
      · cases passed
      · obtain ⟨violations, -, passed⟩ := bind_eq_ok.mp passed
        split at passed <;> cases passed
        rfl

theorem completeMerge_cases (theirs : Commit) (stamp : Nat) :
    (repo.completeMerge hash theirs stamp).2 = repo ∨
      ∃ ours, repo.headCommit = some ours ∧
        (repo.completeMerge hash theirs stamp).2 =
          { repo.advance (.merged ours theirs repo.workspace.manifest stamp) with
            workspace := ⟨repo.workspace.manifest, none⟩
            mergeHead := none } := by
  rw [completeMerge]
  split
  · exact .inl rfl
  · next ours passed => exact .inr ⟨ours, tip_of_checkCompletion passed, rfl⟩

theorem advance_headCommit (commit : Commit) :
    (repo.advance commit).headCommit = some commit :=
  (SortedMap.get_put _ _ _ _).trans (if_pos rfl)

inductive MergeEffect (hash : Commit → Nat) (repo : Repository) (theirs : Commit)
    (stamp : Nat) : Effect MergeOutcome → Prop
  | none {result : Except RepositoryError MergeOutcome}
      (settled : ∀ found, result ≠ .ok (.conflicts found)) :
      MergeEffect hash repo theirs stamp (result, repo)
  | forwarded (clean : ¬ repo.isDirty) (known : theirs ∈ repo.commits)
      (behind : ∀ ours ∈ repo.headCommit,
        theirs.isAncestor ours = false ∧ ours.isAncestor theirs = true) :
      MergeEffect hash repo theirs stamp
        (.ok (.fastForward theirs), repo.fastForward theirs)
  | merged {ours base : Commit} {merged : Manifest} (clean : ¬ repo.isDirty)
      (known : theirs ∈ repo.commits) (isTip : repo.headCommit = some ours)
      (unrelated : theirs.isAncestor ours = false)
      (isBase : ours.mergeBase hash theirs = some base)
      (outcome : mergeManifests base.manifest ours.manifest theirs.manifest =
        .ok (.clean merged)) :
      MergeEffect hash repo theirs stamp
        (.ok (.merged (.merged ours theirs merged stamp)),
          { repo.advance (.merged ours theirs merged stamp) with
            workspace := ⟨merged, .none⟩
            mergeHead := .none })
  | conflicts {ours base : Commit} {merged : Manifest} {found : List MergeConflict}
      (isTip : repo.headCommit = some ours) (unrelated : theirs.isAncestor ours = false)
      (isBase : ours.mergeBase hash theirs = some base)
      (outcome : mergeManifests base.manifest ours.manifest theirs.manifest =
        .ok (.conflicts merged found)) :
      MergeEffect hash repo theirs stamp
        (.ok (.conflicts found),
          { repo with
            workspace := ⟨merged, some (buildConflictsMap found)⟩
            mergeHead := some theirs })

theorem merge_effect (theirs : Commit) (stamp : Nat) :
    MergeEffect hash repo theirs stamp (repo.merge hash theirs stamp) := by
  rw [merge]
  split
  · exact .none nofun
  · next clean =>
      split
      · exact .none nofun
      · next known =>
          rw [not_not] at known
          split
          · next unborn => exact .forwarded clean known (by rw [unborn]; exact nofun)
          · next ours isTip =>
              split
              · exact .none nofun
              · next unrelated =>
                  rw [Bool.not_eq_true] at unrelated
                  split
                  · next behind =>
                      refine .forwarded clean known ?_
                      rw [isTip]
                      rintro _ ⟨⟩
                      exact ⟨unrelated, behind⟩
                  · rw [mergeDiverged]
                    split
                    · exact .none nofun
                    · next base isBase =>
                        split
                        · exact .none nofun
                        · next outcome => exact .conflicts isTip unrelated isBase outcome
                        · next outcome =>
                            exact .merged clean known isTip unrelated isBase outcome

end

/-- The checked-out branch stands at `ours`, `MERGE_HEAD` names `theirs`, and
the workspace comes of merging the two. -/
structure MidMerge (hash : Commit → Nat) (ours theirs : Commit) (repo : Repository) :
    Prop where
  isTip : repo.headCommit = some ours
  isHead : repo.mergeHead = some theirs
  unrelated : theirs.isAncestor ours = false
  work : MergeWork hash ours theirs repo.workspace

/-- What an operation makes of a merge in progress. -/
inductive Progress (hash : Commit → Nat) (ours theirs : Commit) (repo : Repository)
    (operation : Operation) (next : Repository) : Prop
  | kept (sameBranch : next.head = repo.head) (sameCommits : next.commits = repo.commits)
      (still : MidMerge hash ours theirs next)
  | concluded {workspace : Workspace} {stamp : Nat} (sameBranch : next.head = repo.head)
      (written : next.commits =
        .merged ours theirs workspace.manifest stamp :: repo.commits)
      (isTip : next.headCommit = some (.merged ours theirs workspace.manifest stamp))
      (ended : next.mergeHead = none) (work : MergeWork hash ours theirs workspace)
  | aborted (sameBranch : next.head = repo.head) (sameCommits : next.commits = repo.commits)
      (isTip : next.headCommit = some ours) (ended : next.mergeHead = none)
  | restarted {other : Commit} {stamp : Nat} {found : List MergeConflict}
      (again : operation = .merge other stamp)
      (began : (repo.merge hash other stamp).1 = .ok (.conflicts found))
      (sameBranch : next.head = repo.head) (sameCommits : next.commits = repo.commits)
      (now : MidMerge hash ours other next)

section

variable {hash : Commit → Nat} {ours theirs : Commit} {repo : Repository}
  (mid : MidMerge hash ours theirs repo)

include mid

private theorem MidMerge.unchanged (operation : Operation) :
    Progress hash ours theirs repo operation repo :=
  .kept rfl rfl mid

private theorem MidMerge.withWork {workspace : Workspace}
    (work : MergeWork hash ours theirs workspace) (operation : Operation) :
    Progress hash ours theirs repo operation { repo with workspace := workspace } :=
  .kept rfl rfl ⟨mid.isTip, mid.isHead, mid.unrelated, work⟩

private theorem save_progress (writes : List Write) (operation : Operation) :
    Progress hash ours theirs repo operation
      (repo.save ((Transaction.beginWrite repo.workspace).stage writes)).2 := by
  rcases save_cases ((Transaction.beginWrite repo.workspace).stage writes) with
    ⟨cause, failed⟩ | ⟨next, saved, done⟩
  · rw [failed]
    exact mid.unchanged operation
  · rw [done]
    exact mid.withWork (.saved mid.work saved) operation

private theorem commitSaved_progress {start : Repository} (sameBranch : repo.head = start.head)
    (sameCommits : repo.commits = start.commits) (allowEmpty : Bool) (stamp : Nat)
    (operation : Operation) :
    Progress hash ours theirs start operation (repo.commitSaved hash allowEmpty stamp).2 := by
  have fresh : ¬ (repo.headCommit.any fun tip => theirs.isAncestor tip) = true := by
    rw [mid.isTip, Option.any_some, mid.unrelated]
    exact Bool.false_ne_true
  simp only [commitSaved, mid.isHead, if_neg fresh]
  rcases @completeMerge_cases hash repo theirs stamp with refused | ⟨tip, isTip, concluded⟩
  · rw [refused]
    exact .kept sameBranch sameCommits mid
  · rw [mid.isTip] at isTip
    cases isTip
    rw [concluded]
    exact .concluded sameBranch (congrArg _ sameCommits) (advance_headCommit _) rfl mid.work

private theorem commitImpl_progress (writes : List Write) (allowEmpty : Bool) (stamp : Nat)
    (operation : Operation) :
    Progress hash ours theirs repo operation
      (repo.commitImpl hash ((Transaction.beginWrite repo.workspace).stage writes)
        allowEmpty stamp).2 := by
  rw [commitImpl]
  rcases save_cases ((Transaction.beginWrite repo.workspace).stage writes) with
    ⟨cause, failed⟩ | ⟨next, saved, done⟩
  · rw [failed]
    exact mid.unchanged operation
  · rw [done]
    have still : MidMerge hash ours theirs { repo with workspace := next } :=
      ⟨mid.isTip, mid.isHead, mid.unrelated, .saved mid.work saved⟩
    exact commitSaved_progress still (show repo.head = repo.head from rfl)
      (show repo.commits = repo.commits from rfl) allowEmpty stamp operation

private theorem commitWrites_progress (writes : Except RepositoryError (List Write))
    (stamp : Nat) (operation : Operation) :
    Progress hash ours theirs repo operation (repo.commitWrites hash writes stamp).2 := by
  rw [commitWrites.eq_def]
  split
  · exact mid.unchanged operation
  · split
    · exact mid.unchanged operation
    · next staged =>
        rw [← Transaction.writeAll_eq_stage staged]
        exact commitImpl_progress mid _ false stamp operation

private theorem merge_progress {other : Commit} {stamp : Nat}
    (calm : repo.isDirty ∨ other ∉ repo.commits ∨ ¬ ours.mergeMoves hash other) :
    Progress hash ours theirs repo (.merge other stamp) (repo.merge hash other stamp).2 := by
  have still : ¬ repo.isDirty → other ∈ repo.commits → ¬ ours.mergeMoves hash other := by
    intro clean known
    rcases calm with dirty | unknown | still
    · exact absurd dirty clean
    · exact absurd known unknown
    · exact still
  have effect := @merge_effect hash repo other stamp
  generalize isEffect : repo.merge hash other stamp = result at effect ⊢
  cases effect with
  | none settled => exact mid.unchanged _
  | forwarded clean known behind =>
      obtain ⟨unrelated, isBehind⟩ := behind ours mid.isTip
      exact absurd (Commit.mergeMoves_of_behind unrelated isBehind) (still clean known)
  | merged clean known isTip unrelated isBase outcome =>
      rw [mid.isTip] at isTip
      cases isTip
      exact absurd (Commit.mergeMoves_of_clean unrelated isBase outcome) (still clean known)
  | conflicts isTip unrelated isBase outcome =>
      rw [mid.isTip] at isTip
      cases isTip
      exact .restarted rfl (congrArg Prod.fst isEffect) rfl rfl
        ⟨mid.isTip, rfl, unrelated, .merged isBase outcome⟩

private theorem checkoutBranch_progress {name : String}
    (calm : name = repo.head ∨ ∀ commit ∈ repo.branches.get name,
      repo.isDirty ∧ repo.workspace ≠ commit.checkedOut) (operation : Operation) :
    Progress hash ours theirs repo operation (repo.checkoutBranch name).2 := by
  simp only [checkoutBranch]
  rcases calm with rfl | refused
  · split
    · exact mid.unchanged operation
    · split
      · exact mid.unchanged operation
      · next clean =>
          split
          · exact mid.unchanged operation
          · next tip isTip =>
              have same : repo.workspace = tip.checkedOut := by
                simpa [isDirty, headCommit, isTip] using clean
              rw [← same]
              exact mid.unchanged operation
  · cases target : repo.branches.get name with
    | none =>
        simp only [Option.any_none, Bool.false_eq_true, if_false]
        split <;> exact mid.unchanged operation
    | some commit =>
        obtain ⟨dirty, different⟩ := refused commit target
        simp only [Option.any_some, different, decide_false, Bool.false_eq_true, if_false, dirty,
          if_true]
        exact mid.unchanged operation

private theorem resolveAll_progress (side : ResolveSide) (operation : Operation) :
    Progress hash ours theirs repo operation (repo.resolveAll side).2 := by
  rw [resolveAll, mid.isHead, mid.isTip]
  simp only
  split
  · exact mid.unchanged operation
  · next count txn resolved =>
      split
      · rcases save_cases txn with ⟨cause, failed⟩ | ⟨next, saved, done⟩
        · rw [failed]
          exact mid.unchanged operation
        · rw [done]
          exact mid.withWork (.resolved mid.work resolved saved) operation
      · exact mid.unchanged operation

private theorem createBranch_progress (name : String) (target : Option Commit)
    (operation : Operation) :
    Progress hash ours theirs repo operation (repo.createBranch name target).2 := by
  simp only [createBranch]
  split
  · exact mid.unchanged operation
  · next commit _ =>
      split
      · exact mid.unchanged operation
      · next fresh =>
          have other : name ≠ repo.head := by
            rintro rfl
            exact fresh (by rw [show repo.branches.get repo.head = some ours from mid.isTip]; nofun)
          have sameTip : ({ repo with branches := repo.branches.put name commit } :
              Repository).headCommit = some ours :=
            (SortedMap.get_put _ _ _ _).trans ((if_neg other).trans mid.isTip)
          exact .kept rfl rfl ⟨sameTip, mid.isHead, mid.unrelated, mid.work⟩

private theorem deleteBranch_progress (name : String) (operation : Operation) :
    Progress hash ours theirs repo operation (repo.deleteBranch name).2 := by
  rw [deleteBranch]
  split
  · exact mid.unchanged operation
  · next other =>
      split
      · exact mid.unchanged operation
      · have sameTip : ({ repo with branches := repo.branches.delete name } :
            Repository).headCommit = some ours :=
          (SortedMap.get_delete _ _ _).trans ((if_neg other).trans mid.isTip)
        exact .kept rfl rfl ⟨sameTip, mid.isHead, mid.unrelated, mid.work⟩

private theorem reindex_progress (operation : Operation) :
    Progress hash ours theirs repo operation repo.reindex.2 := by
  simp only [reindex]
  split
  · exact mid.unchanged operation
  · next indexes rebuilt =>
      obtain ⟨entries, read, rebuilt⟩ := bind_eq_ok.mp rebuilt
      cases readSchema_eq read
      exact mid.withWork (.reindexed mid.work rebuilt) operation

theorem perform_progress {operation : Operation} (calm : repo.Undisturbed hash operation) :
    Progress hash ours theirs repo operation (repo.perform hash operation) := by
  have during : repo.mergeHead ≠ none := by
    rw [mid.isHead]
    exact nofun
  have calm := calm during
  cases operation with
  | save writes => exact save_progress mid writes _
  | commit writes allowEmpty stamp => exact commitImpl_progress mid writes allowEmpty stamp _
  | merge other stamp =>
      refine merge_progress mid ?_
      rcases calm with dirty | unknown | still
      · exact .inl dirty
      · exact .inr (.inl unknown)
      · exact .inr (.inr (still ours mid.isTip))
  | resolveAll side => exact resolveAll_progress mid side _
  | abortMerge =>
      simp only [perform, abortMerge, mid.isHead, mid.isTip]
      exact .aborted rfl rfl mid.isTip rfl
  | discardWorkspace =>
      simp only [perform, discardWorkspace, mid.isHead]
      exact mid.unchanged _
  | resetWorkspaceToHead =>
      have same : repo.resetWorkspaceToHead = repo := by
        have clean : repo.workspace = ours.checkedOut := by
          simpa [isDirty, mid.isTip] using calm
        rw [resetWorkspaceToHead, mid.isTip, Option.map_some, Option.getD_some, ← clean]
      rw [perform, same]
      exact mid.unchanged _
  | checkoutBranch name => exact checkoutBranch_progress mid calm _
  | createBranch name target => exact createBranch_progress mid name target _
  | deleteBranch name => exact deleteBranch_progress mid name _
  | rekey old new stamp => exact commitWrites_progress mid _ stamp _
  | renameRelType old new policy stamp => exact commitWrites_progress mid _ stamp _
  | reindex => exact reindex_progress mid _

end

/-- What an operation does while no merge is in progress. -/
inductive Quiet (hash : Commit → Nat) (repo : Repository) (operation : Operation)
    (next : Repository) : Prop
  | plain (ended : next.mergeHead = none) (sameCommits : next.commits = repo.commits)
  | committed {commit : Commit} (ended : next.mergeHead = none)
      (ordinary : ∀ ours theirs manifest stamp, commit ≠ .merged ours theirs manifest stamp)
      (written : next.commits = commit :: repo.commits)
  | merged {ours theirs base : Commit} {manifest : Manifest} {stamp : Nat}
      (isMerge : operation = .merge theirs stamp) (ended : next.mergeHead = none)
      (isTip : repo.headCommit = some ours) (isBase : ours.mergeBase hash theirs = some base)
      (outcome : mergeManifests base.manifest ours.manifest theirs.manifest =
        .ok (.clean manifest))
      (written : next.commits = .merged ours theirs manifest stamp :: repo.commits)
  | began {ours theirs : Commit} {stamp : Nat} {found : List MergeConflict}
      (isMerge : operation = .merge theirs stamp)
      (began : (repo.merge hash theirs stamp).1 = .ok (.conflicts found))
      (isTip : repo.headCommit = some ours) (sameBranch : next.head = repo.head)
      (sameCommits : next.commits = repo.commits) (now : MidMerge hash ours theirs next)

section

variable {hash : Commit → Nat} {repo : Repository} (ended : repo.mergeHead = none)

include ended

private theorem save_quiet (txn : Transaction) (operation : Operation) :
    Quiet hash repo operation (repo.save txn).2 := by
  rcases save_cases txn with ⟨cause, failed⟩ | ⟨next, -, done⟩
  · rw [failed]
    exact .plain ended rfl
  · rw [done]
    exact .plain ended rfl

private theorem commitImpl_quiet (txn : Transaction) (allowEmpty : Bool) (stamp : Nat)
    (operation : Operation) :
    Quiet hash repo operation (repo.commitImpl hash txn allowEmpty stamp).2 := by
  rw [commitImpl]
  rcases save_cases txn with ⟨cause, failed⟩ | ⟨next, -, done⟩
  · rw [failed]
    exact .plain ended rfl
  · rw [done]
    simp only [commitSaved, ended]
    rcases @completeOrdinary_cases ⟨repo.head, repo.branches, repo.commits, next, none⟩
      allowEmpty stamp with refused | ⟨commit, ordinary, advanced⟩
    · rw [refused]
      exact .plain rfl rfl
    · rw [advanced]
      exact .committed rfl ordinary rfl

private theorem commitWrites_quiet (writes : Except RepositoryError (List Write))
    (stamp : Nat) (operation : Operation) :
    Quiet hash repo operation (repo.commitWrites hash writes stamp).2 := by
  rw [commitWrites.eq_def]
  split
  · exact .plain ended rfl
  · split
    · exact .plain ended rfl
    · exact commitImpl_quiet ended _ false stamp operation

private theorem merge_quiet (theirs : Commit) (stamp : Nat) :
    Quiet hash repo (.merge theirs stamp) (repo.merge hash theirs stamp).2 := by
  have effect := @merge_effect hash repo theirs stamp
  generalize isEffect : repo.merge hash theirs stamp = result at effect ⊢
  cases effect with
  | none settled => exact .plain ended rfl
  | forwarded clean known behind => exact .plain ended rfl
  | merged clean known isTip unrelated isBase outcome =>
      exact .merged rfl rfl isTip isBase outcome rfl
  | conflicts isTip unrelated isBase outcome =>
      exact .began rfl (congrArg Prod.fst isEffect) isTip rfl rfl
        ⟨isTip, rfl, unrelated, .merged isBase outcome⟩

theorem perform_quiet (operation : Operation) :
    Quiet hash repo operation (repo.perform hash operation) := by
  cases operation with
  | save writes => exact save_quiet ended _ _
  | commit writes allowEmpty stamp => exact commitImpl_quiet ended _ allowEmpty stamp _
  | merge theirs stamp => exact merge_quiet ended theirs stamp
  | resolveAll side =>
      simp only [perform, resolveAll, ended]
      exact .plain ended rfl
  | abortMerge =>
      simp only [perform, abortMerge]
      split
      · exact .plain ended rfl
      · split
        · exact .plain ended rfl
        · exact .plain rfl rfl
  | discardWorkspace =>
      simp only [perform, discardWorkspace]
      split
      · exact .plain ended rfl
      · split
        · exact .plain ended rfl
        · exact .plain ended rfl
  | resetWorkspaceToHead => exact .plain ended rfl
  | checkoutBranch name =>
      simp only [perform, checkoutBranch]
      split
      · exact .plain ended rfl
      · split
        · exact .plain ended rfl
        · split <;> exact .plain ended rfl
  | createBranch name target =>
      simp only [perform, createBranch]
      split
      · exact .plain ended rfl
      · split <;> exact .plain ended rfl
  | deleteBranch name =>
      simp only [perform, deleteBranch]
      split
      · exact .plain ended rfl
      · split <;> exact .plain ended rfl
  | rekey old new stamp => exact commitWrites_quiet ended _ stamp _
  | renameRelType old new policy stamp => exact commitWrites_quiet ended _ stamp _
  | reindex =>
      simp only [perform, reindex]
      split <;> exact .plain ended rfl

end

/-- In a run that does not disturb its merges, `MERGE_HEAD` names the merge that
was begun on the checked-out branch, whose tip has not moved. -/
theorem Reachable.midMerge {hash : Commit → Nat} {repo : Repository}
    (run : repo.Reachable hash (Undisturbed hash)) :
    repo.mergeHead = none ∨ ∃ ours theirs, MidMerge hash ours theirs repo ∧
      Merging hash (Undisturbed hash) repo.head ours theirs repo := by
  induction run with
  | init => exact .inl rfl
  | @step repo operation earlier calm ih =>
      rcases ih with ended | ⟨ours, theirs, mid, merging⟩
      · cases perform_quiet ended operation with
        | plain ended sameCommits => exact .inl ended
        | committed ended ordinary written => exact .inl ended
        | merged isMerge ended isTip isBase outcome written => exact .inl ended
        | began isMerge began isTip sameBranch sameCommits now =>
            subst isMerge
            exact .inr ⟨_, _, now, .begun earlier calm sameBranch.symm isTip began⟩
      · cases perform_progress mid calm with
        | kept sameBranch sameCommits still =>
            refine .inr ⟨ours, theirs, still, ?_⟩
            rw [sameBranch]
            exact .continued merging calm still.isHead
        | concluded sameBranch written isTip ended work => exact .inl ended
        | aborted sameBranch sameCommits isTip ended => exact .inl ended
        | restarted again began sameBranch sameCommits now =>
            subst again
            exact .inr ⟨_, _, now, .begun earlier calm sameBranch.symm mid.isTip began⟩

/-- An operation writes one commit at most.  A commit with two parents has the
tip of the checked-out branch as its first; its version comes of the merge of
the second that was begun there, or is their clean merge.  While `MERGE_HEAD` is
set, only the commit that concludes the merge moves the tip, and nothing moves
`HEAD`. -/
def MergeSafe (hash : Commit → Nat) (allowed : Repository → Operation → Prop)
    (repo : Repository) (operation : Operation) : Prop :=
  let next := repo.perform hash operation
  (next.commits = repo.commits ∨ ∃ commit, next.commits = commit :: repo.commits) ∧
  (∀ ours theirs manifest stamp,
    next.commits = .merged ours theirs manifest stamp :: repo.commits →
    repo.headCommit = some ours ∧
      ((∃ workspace, Merging hash allowed repo.head ours theirs repo ∧
          MergeWork hash ours theirs workspace ∧ workspace.manifest = manifest) ∨
        ∃ base, operation = .merge theirs stamp ∧ ours.mergeBase hash theirs = some base ∧
          mergeManifests base.manifest ours.manifest theirs.manifest =
            .ok (.clean manifest))) ∧
  ∀ theirs, repo.mergeHead = some theirs →
    next.head = repo.head ∧
      (next.headCommit = repo.headCommit ∨
        ∃ ours manifest stamp, next.headCommit = some (.merged ours theirs manifest stamp) ∧
          next.commits = .merged ours theirs manifest stamp :: repo.commits ∧
          next.mergeHead = none)

theorem mergeSafe_of_quiet {hash : Commit → Nat} {allowed : Repository → Operation → Prop}
    {repo : Repository} (ended : repo.mergeHead = none) (operation : Operation) :
    MergeSafe hash allowed repo operation := by
  have idle : ∀ {property : Commit → Prop} theirs, repo.mergeHead = some theirs →
      property theirs := by
    intro property theirs isHead
    rw [ended] at isHead
    cases isHead
  cases @perform_quiet hash repo ended operation with
  | plain ended sameCommits =>
      refine ⟨.inl sameCommits, fun ours theirs manifest stamp written => ?_, idle⟩
      rw [sameCommits] at written
      exact absurd written.symm (List.cons_ne_self _ _)
  | committed ended ordinary written =>
      refine ⟨.inr ⟨_, written⟩, fun ours theirs manifest stamp isMerged => ?_, idle⟩
      rw [written] at isMerged
      exact absurd (List.cons.inj isMerged).1 (ordinary ours theirs manifest stamp)
  | merged isMerge ended isTip isBase outcome written =>
      refine ⟨.inr ⟨_, written⟩, fun ours theirs manifest stamp isMerged => ?_, idle⟩
      rw [written] at isMerged
      cases (List.cons.inj isMerged).1
      exact ⟨isTip, .inr ⟨_, isMerge, isBase, outcome⟩⟩
  | began isMerge began isTip sameBranch sameCommits now =>
      refine ⟨.inl sameCommits, fun ours theirs manifest stamp written => ?_, idle⟩
      rw [sameCommits] at written
      exact absurd written.symm (List.cons_ne_self _ _)

theorem mergeSafe_of_midMerge {hash : Commit → Nat} {repo : Repository}
    {operation : Operation} {ours theirs : Commit} (mid : MidMerge hash ours theirs repo)
    (merging : Merging hash (Undisturbed hash) repo.head ours theirs repo)
    (calm : repo.Undisturbed hash operation) :
    MergeSafe hash (Undisturbed hash) repo operation := by
  have unwritten : ∀ {next : Repository} {commit : Commit} {goal : Prop},
      next.commits = repo.commits → next.commits = commit :: repo.commits → goal := by
    intro next commit goal sameCommits written
    rw [sameCommits] at written
    exact absurd written.symm (List.cons_ne_self _ _)
  cases perform_progress mid calm with
  | kept sameBranch sameCommits still =>
      refine ⟨.inl sameCommits, fun _ _ _ _ => unwritten sameCommits, fun _ _ => ?_⟩
      exact ⟨sameBranch, .inl (still.isTip.trans mid.isTip.symm)⟩
  | concluded sameBranch written isTip ended work =>
      refine ⟨.inr ⟨_, written⟩, fun first second manifest stamp isMerged => ?_,
        fun other isHead => ⟨sameBranch, .inr ?_⟩⟩
      · rw [written] at isMerged
        cases (List.cons.inj isMerged).1
        exact ⟨mid.isTip, .inl ⟨_, merging, work, rfl⟩⟩
      · rw [mid.isHead] at isHead
        cases isHead
        exact ⟨_, _, _, isTip, written, ended⟩
  | aborted sameBranch sameCommits isTip ended =>
      refine ⟨.inl sameCommits, fun _ _ _ _ => unwritten sameCommits, fun _ _ => ?_⟩
      exact ⟨sameBranch, .inl (isTip.trans mid.isTip.symm)⟩
  | restarted again began sameBranch sameCommits now =>
      refine ⟨.inl sameCommits, fun _ _ _ _ => unwritten sameCommits, fun _ _ => ?_⟩
      exact ⟨sameBranch, .inl (now.isTip.trans mid.isTip.symm)⟩

/-- Every operation of a run that does not disturb its merges is safe. -/
theorem undisturbed_merges_safe (hash : Commit → Nat) {repo : Repository}
    {operation : Operation} (run : repo.Reachable hash (Undisturbed hash))
    (calm : repo.Undisturbed hash operation) :
    MergeSafe hash (Undisturbed hash) repo operation := by
  rcases run.midMerge with ended | ⟨ours, theirs, mid, merging⟩
  · exact mergeSafe_of_quiet ended operation
  · exact mergeSafe_of_midMerge mid merging calm

section

instance undisturbedDecidable (hash : Commit → Nat) (repo : Repository)
    (operation : Operation) : Decidable (repo.Undisturbed hash operation) :=
  match operation with
  | .checkoutBranch _ => inferInstanceAs (Decidable (_ → _ ∨ ∀ commit ∈ _, _ ∧ _ ≠ _))
  | .merge _ _ => inferInstanceAs (Decidable (_ → _ ∨ _ ∨ ∀ ours ∈ _, ¬ _))
  | .resetWorkspaceToHead => inferInstanceAs (Decidable (_ → ¬ _))
  | .save _ | .commit _ _ _ | .resolveAll _ | .abortMerge | .discardWorkspace
  | .createBranch _ _ | .deleteBranch _ | .rekey _ _ _ | .renameRelType _ _ _ _
  | .reindex => inferInstanceAs (Decidable (_ → True))

def sampleHash : Commit → Nat := fun _ => 0

def mailCommit (mail : String) (stamp : Nat) : Operation :=
  .commit [.putNode (person 1) (mailOf mail)] false stamp

def forked : Repository :=
  ((((init.perform sampleHash (mailCommit "a" 0)).perform sampleHash
    (.createBranch "side" none)).perform sampleHash (.checkoutBranch "side")).perform sampleHash
    (mailCommit "b" 1)).perform sampleHash (.checkoutBranch "main")

def diverged : Repository := forked.perform sampleHash (mailCommit "c" 2)

def sideTip : Commit := (diverged.branches.get "side").getD (.initial blank.manifest 0)

def resolvedToOurs : Repository :=
  (diverged.perform sampleHash (.merge sideTip 3)).perform sampleHash (.resolveAll .ours)

private theorem resolvedToOurs_reachable {allowed : Repository → Operation → Prop}
    (admits : ∀ repo operation, repo.Undisturbed sampleHash operation → allowed repo operation) :
    resolvedToOurs.Reachable sampleHash allowed := by
  refine .step (.step (.step (.step (.step (.step (.step (.step .init ?_) ?_) ?_) ?_) ?_) ?_)
    ?_) ?_ <;>
    exact admits _ _ (by decide +kernel)

theorem undisturbed_merges_safe_sample :
    resolvedToOurs.mergeHead = some sideTip ∧
      MergeSafe sampleHash (Undisturbed sampleHash) resolvedToOurs (.commit [] false 4) := by
  refine ⟨by decide +kernel, ?_⟩
  exact undisturbed_merges_safe sampleHash (resolvedToOurs_reachable fun _ _ calm => calm)
    (by decide +kernel)

/-- The workspace equals the tip's version while `MERGE_HEAD` is still set, and
the checkout of another branch is let through. -/
theorem checkout_disturbs_merge :
    ∃ repo operation, Reachable sampleHash (fun _ _ => True) repo ∧
      ¬ MergeSafe sampleHash (fun _ _ => True) repo operation := by
  refine ⟨resolvedToOurs, .checkoutBranch "side",
    resolvedToOurs_reachable fun _ _ _ => trivial, fun safe => ?_⟩
  have isHead : resolvedToOurs.mergeHead = some sideTip := by decide +kernel
  have moved : (resolvedToOurs.perform sampleHash (.checkoutBranch "side")).head ≠
      resolvedToOurs.head := by
    decide +kernel
  exact moved (safe.2.2 sideTip isHead).1

end

end Repository

end Acetone.Graph

import Acetone.Graph.MergeRecovery

/-!
# What the refs keep

Operations write one ref at a time and may stop after any of them.  Wherever
they do, every ref names a commit that is stored with its history, and no branch
is moved to a commit that does not contain its old tip.
-/

namespace Acetone.Graph

open Acetone.Lib Acetone.Model

theorem Commit.mem_ancestors_of_parent {parent commit : Commit} (isParent : parent ∈ commit.parents) :
    parent ∈ commit.ancestors := by
  cases commit with
  | initial manifest stamp => cases isParent
  | child tip manifest stamp =>
      rw [List.mem_singleton.mp isParent]
      exact List.mem_cons_of_mem _ tip.mem_ancestors_self
  | merged ours theirs manifest stamp =>
      rcases List.mem_pair.mp isParent with rfl | rfl
      · exact List.mem_cons_of_mem _ (List.mem_append_left _ (mem_ancestors_self _))
      · exact List.mem_cons_of_mem _ (List.mem_append_right _ (mem_ancestors_self _))

/-- All branches but the one it deletes. -/
abbrev Operation.Spares (operation : Operation) (name : String) : Prop :=
  operation ≠ .deleteBranch name

namespace Repository

/-- The refs name stored commits, whose parents are stored. -/
structure Grounded (repo : Repository) : Prop where
  branches : ∀ name commit, repo.branches.get name = some commit → commit ∈ repo.commits
  mergeHead : ∀ commit, repo.mergeHead = some commit → commit ∈ repo.commits
  parents : ∀ commit ∈ repo.commits, ∀ parent ∈ commit.parents, parent ∈ repo.commits

/-- No commit is lost, and a branch that is spared has its old tip in its
history. -/
structure Advances (spared : String → Prop) (repo next : Repository) : Prop where
  commits : repo.commits ⊆ next.commits
  branches : ∀ name tip, spared name → repo.branches.get name = some tip →
    ∃ newer, next.branches.get name = some newer ∧ tip ∈ newer.ancestors

/-- What a write has to meet for both. -/
def KeepsHistory (operation : Operation) (repo : Repository) : RefWrite → Prop
  | .object commit => ∀ parent ∈ commit.parents, parent ∈ repo.commits
  | .workspace _ _ => True
  | .mergeHead target => ∀ commit ∈ target, commit ∈ repo.commits
  | .branch name none => operation = .deleteBranch name
  | .branch name (some commit) =>
      commit ∈ repo.commits ∧ ∀ tip ∈ repo.branches.get name, tip ∈ commit.ancestors
  | .head _ => True

variable {operation : Operation} {repo next : Repository}

theorem Advances.refl (spared : String → Prop) (repo : Repository) : Advances spared repo repo :=
  ⟨List.Subset.refl _, fun _ tip _ isTip => ⟨tip, isTip, tip.mem_ancestors_self⟩⟩

theorem Advances.mono {spared fewer : String → Prop} (advances : Advances spared repo next)
    (within : ∀ name, fewer name → spared name) : Advances fewer repo next :=
  ⟨advances.commits, fun name tip kept => advances.branches name tip (within name kept)⟩

theorem Advances.trans {spared : String → Prop} {last : Repository}
    (first : Advances spared repo next) (second : Advances spared next last) :
    Advances spared repo last := by
  refine ⟨List.Subset.trans first.commits second.commits, fun name tip kept isTip => ?_⟩
  obtain ⟨newer, isNewer, inNewer⟩ := first.branches name tip kept isTip
  obtain ⟨newest, isNewest, inNewest⟩ := second.branches name newer kept isNewer
  exact ⟨newest, isNewest, Commit.ancestors_trans inNewer inNewest⟩

theorem Grounded.write (grounded : repo.Grounded) {made : RefWrite}
    (keeps : KeepsHistory operation repo made) :
    (repo.write made).Grounded ∧ Advances operation.Spares repo (repo.write made) := by
  have still := (Advances.refl operation.Spares repo).branches
  cases made with
  | object commit =>
      refine ⟨⟨fun name tip isTip => ?_, fun held isHeld => ?_, ?_⟩,
        List.subset_cons_self _ _, still⟩
      · exact List.mem_cons_of_mem _ (grounded.branches name tip isTip)
      · exact List.mem_cons_of_mem _ (grounded.mergeHead held isHeld)
      · intro other isStored parent isParent
        rcases List.mem_cons.mp isStored with rfl | before
        · exact List.mem_cons_of_mem _ (keeps parent isParent)
        · exact List.mem_cons_of_mem _ (grounded.parents other before parent isParent)
  | workspace next content =>
      exact ⟨⟨grounded.branches, grounded.mergeHead, grounded.parents⟩, List.Subset.refl _, still⟩
  | mergeHead target =>
      exact ⟨⟨grounded.branches, fun commit isHeld => keeps commit isHeld, grounded.parents⟩,
        List.Subset.refl _, still⟩
  | head name =>
      exact ⟨⟨grounded.branches, grounded.mergeHead, grounded.parents⟩, List.Subset.refl _, still⟩
  | branch name target =>
      cases target with
      | none =>
          refine ⟨⟨fun other commit isTip => ?_, grounded.mergeHead, grounded.parents⟩,
            List.Subset.refl _, fun other tip kept isTip => ?_⟩
          · rw [Repository.write, SortedMap.get_delete] at isTip
            split at isTip
            · cases isTip
            · exact grounded.branches other commit isTip
          · have apart : name ≠ other := fun same => kept (same ▸ keeps)
            exact ⟨tip, ((SortedMap.get_delete _ _ _).trans (if_neg apart)).trans isTip,
              tip.mem_ancestors_self⟩
      | some commit =>
          refine ⟨⟨fun other tip isTip => ?_, grounded.mergeHead, grounded.parents⟩,
            List.Subset.refl _, fun other tip kept isTip => ?_⟩
          · rw [Repository.write, SortedMap.get_put] at isTip
            split at isTip
            · cases isTip
              exact keeps.1
            · exact grounded.branches other tip isTip
          · by_cases same : name = other
            · subst same
              exact ⟨commit, (SortedMap.get_put _ _ _ _).trans (if_pos rfl), keeps.2 tip isTip⟩
            · exact ⟨tip, ((SortedMap.get_put _ _ _ _).trans (if_neg same)).trans isTip,
                tip.mem_ancestors_self⟩

abbrev AllKeep (operation : Operation) (repo : Repository) (writes : List RefWrite) : Prop :=
  AtEach write (fun before made => before.Grounded → KeepsHistory operation before made) repo
    writes

theorem AllKeep.throughout {writes : List RefWrite} (all : AllKeep operation repo writes)
    (grounded : repo.Grounded) :
    Throughout write (fun next => next.Grounded ∧ Advances operation.Spares repo next) repo writes := by
  refine throughout_of_atEach (all.mono fun before made keeps kept => ?_) ⟨grounded, .refl _ _⟩
  obtain ⟨here, advances⟩ := kept
  obtain ⟨next, further⟩ := here.write (keeps here)
  exact ⟨next, advances.trans further⟩

/-- Of the refs, the workspace and `HEAD` name no commit. -/
def IsPlain : RefWrite → Prop
  | .workspace _ _ => True
  | .mergeHead target => target = none
  | .head _ => True
  | .object _ => False
  | .branch _ _ => False

private theorem allKeep_plain {writes : List RefWrite} (plain : ∀ made ∈ writes, IsPlain made) :
    AllKeep operation repo writes := by
  induction writes generalizing repo with
  | nil => trivial
  | cons made rest ih =>
      refine ⟨fun _ => ?_, ih fun other member => plain other (List.mem_cons_of_mem _ member)⟩
      have isPlain := plain made List.mem_cons_self
      cases made with
      | workspace next content => trivial
      | mergeHead target =>
          cases isPlain
          exact nofun
      | head name => trivial
      | object commit => cases isPlain
      | branch name target => cases isPlain

private theorem allKeep_andThen {α β : Type} {first : Plan α} {next : α → Repository → Plan β}
    (start : AllKeep operation repo first.writes)
    (rest : ∀ value, AllKeep operation (repo.writeAll first.writes)
      (next value (repo.writeAll first.writes)).writes) :
    AllKeep operation repo (first.andThen repo next).writes := by
  rw [Plan.andThen]
  cases first.result with
  | error cause => exact start
  | ok value => exact atEach_append.mpr ⟨start, rest value⟩

/-- A commit on the tip is written, and the branch moved to it. -/
private theorem allKeep_advance {commit : Commit}
    (parents : repo.Grounded → ∀ parent ∈ commit.parents, parent ∈ repo.commits)
    (onTip : ∀ tip ∈ repo.headCommit, tip ∈ commit.parents) :
    AllKeep operation repo [.object commit, .branch repo.head (some commit)] :=
  ⟨parents, fun _ => ⟨List.mem_cons_self, fun tip isTip =>
    Commit.mem_ancestors_of_parent (onTip tip isTip)⟩, trivial⟩

private theorem plain_deleteMergeHead : ∀ made ∈ repo.deleteMergeHead, IsPlain made := by
  rw [deleteMergeHead]
  split <;> simp [IsPlain]

private theorem plain_savePlan (txn : Transaction) :
    ∀ made ∈ (repo.savePlan txn).writes, IsPlain made := by
  rw [savePlan]
  split
  · exact List.forall_mem_nil _
  · dsimp only
    split <;> simp [IsPlain]

variable {hash : Commit → Nat}

private theorem allKeep_completeOrdinaryPlan (allowEmpty : Bool) (stamp : Nat) :
    AllKeep operation repo (repo.completeOrdinaryPlan allowEmpty stamp).writes := by
  rw [completeOrdinaryPlan]
  split
  · trivial
  split
  · trivial
  cases isTip : repo.headCommit with
  | none =>
      refine allKeep_advance (fun _ => List.forall_mem_nil _) fun tip again => ?_
      cases isTip.symm.trans again
  | some tip =>
      refine allKeep_advance (fun grounded parent isParent => ?_) fun other again => ?_
      · rw [List.mem_singleton.mp isParent]
        exact grounded.branches _ tip isTip
      · cases isTip.symm.trans again
        exact List.mem_singleton_self tip

private theorem allKeep_merged {ours theirs : Commit} {manifest : Manifest} {stamp : Nat}
    (isTip : repo.headCommit = some ours)
    (known : repo.Grounded → theirs ∈ repo.commits) :
    AllKeep operation repo ([.object (.merged ours theirs manifest stamp),
      .branch repo.head (some (.merged ours theirs manifest stamp))] ++ repo.deleteMergeHead) := by
  refine atEach_append.mpr ⟨allKeep_advance (fun grounded parent isParent => ?_) fun tip again => ?_,
    allKeep_plain plain_deleteMergeHead⟩
  · rcases List.mem_pair.mp isParent with rfl | rfl
    · exact grounded.branches _ _ isTip
    · exact known grounded
  · cases isTip.symm.trans again
    exact List.mem_cons_self

private theorem allKeep_commitSavedPlan (allowEmpty : Bool) (stamp : Nat) :
    AllKeep operation repo (repo.commitSavedPlan hash allowEmpty stamp).writes := by
  rw [commitSavedPlan]
  cases isHeld : repo.mergeHead with
  | none => exact allKeep_completeOrdinaryPlan allowEmpty stamp
  | some theirs =>
      dsimp only
      split
      · exact allKeep_andThen (allKeep_plain plain_deleteMergeHead) fun _ =>
          allKeep_completeOrdinaryPlan allowEmpty stamp
      rw [completeMergePlan]
      cases passed : checkCompletion hash repo.workspace repo.headCommit theirs with
      | error cause => trivial
      | ok ours =>
          have isTip := Traced.headCommit_of_checkCompletion passed
          have known : repo.Grounded → theirs ∈ repo.commits := fun grounded =>
            grounded.mergeHead theirs isHeld
          dsimp only
          split
          · exact ⟨fun _ => trivial, @allKeep_merged operation (repo.write _) ours theirs _ stamp isTip
              fun grounded => grounded.mergeHead theirs isHeld⟩
          · exact allKeep_merged isTip known

private theorem allKeep_commitPlan (txn : Transaction) (allowEmpty : Bool) (stamp : Nat) :
    AllKeep operation repo (repo.commitPlan hash txn allowEmpty stamp).writes :=
  allKeep_andThen (allKeep_plain (plain_savePlan txn)) fun _ =>
    allKeep_commitSavedPlan allowEmpty stamp

private theorem allKeep_commitWritesPlan (writes : Except RepositoryError (List Write))
    (stamp : Nat) : AllKeep operation repo (repo.commitWritesPlan hash writes stamp).writes := by
  rw [commitWritesPlan.eq_def]
  split
  · trivial
  split
  · trivial
  · exact allKeep_commitPlan _ false stamp

private theorem allKeep_mergeWrites {theirs : Commit} {kind : MergeKind} {writes : List RefWrite}
    (known : theirs ∈ repo.commits) (shape : MergeWrites repo theirs kind writes) :
    AllKeep operation repo writes := by
  cases shape with
  | idle => trivial
  | fastForward behind =>
      exact ⟨fun _ => trivial, fun _ => ⟨known, fun tip isTip => behind tip isTip⟩, trivial⟩
  | @clean ours commit merged stamp isTip isCommit =>
      subst isCommit
      exact ⟨fun _ => trivial, @allKeep_merged operation (repo.write _) ours theirs merged stamp isTip
        fun _ => known⟩
  | @conflicted ours merged conflicts isTip fresh =>
      refine ⟨fun _ => trivial, atEach_append.mpr ⟨allKeep_plain plain_deleteMergeHead, ?_, trivial⟩⟩
      intro _ commit isTarget
      cases isTarget
      have cleared := writeAll_deleteMergeHead repo
        (repo.write (.workspace ⟨merged, some conflicts⟩ (.merge theirs))) rfl
      exact (congrArg commits cleared) ▸ known

private theorem allKeep_mergePlan (theirs : Commit) (stamp : Nat) :
    AllKeep operation repo (repo.mergePlan hash theirs stamp).writes := by
  by_cases known : theirs ∈ repo.commits
  · exact allKeep_mergeWrites known (mergeWrites theirs stamp)
  · rw [mergePlan]
    split <;> trivial

/-- A branch is made where there is none, at a stored commit. -/
private theorem allKeep_createBranchPlan (name : String) (target : Option Commit) :
    AllKeep operation repo (repo.createBranchPlan name target).writes := by
  rw [createBranchPlan]
  split
  · trivial
  · next commit next created =>
    rw [createBranch.eq_def] at created
    dsimp only at created
    split at created
    · cases created
    · next resolved =>
      split at created
      · cases created
      · next absent =>
        cases created
        refine ⟨fun grounded => ⟨?_, fun tip isTip => ?_⟩, trivial⟩
        · cases target with
          | some named =>
              dsimp only at resolved
              split at resolved
              · next known =>
                cases resolved
                exact known
              · cases resolved
          | none =>
              cases isTip : repo.headCommit with
              | none =>
                  rw [isTip] at resolved
                  cases resolved
              | some tip =>
                  rw [isTip] at resolved
                  cases resolved
                  exact grounded.branches _ _ isTip
        · rw [not_not.mp absent] at isTip
          cases isTip

private theorem allKeep_deleteBranchPlan (name : String) :
    AllKeep (.deleteBranch name) repo (repo.deleteBranchPlan name).writes := by
  rw [deleteBranchPlan]
  split
  · trivial
  · exact ⟨fun _ => rfl, trivial⟩

private theorem plain_abortMergePlan : ∀ made ∈ repo.abortMergePlan.writes, IsPlain made := by
  rw [abortMergePlan]
  split
  · exact List.forall_mem_nil _
  split
  · exact List.forall_mem_nil _
  · intro made member
    rcases List.mem_append.mp member with marked | rest
    · split at marked
      · cases List.mem_singleton.mp marked
        trivial
      · cases marked
    rcases List.mem_append.mp rest with cleared | last
    · exact plain_deleteMergeHead made cleared
    · cases List.mem_singleton.mp last
      trivial

/-- Every operation's writes meet it. -/
theorem allKeep_writesOf (operation : Operation) :
    AllKeep operation repo (repo.writesOf hash operation) := by
  cases operation with
  | save writes => exact allKeep_plain (plain_savePlan _)
  | commit writes allowEmpty stamp => exact allKeep_commitPlan _ allowEmpty stamp
  | merge theirs stamp => exact allKeep_mergePlan theirs stamp
  | resolveAll side =>
      rw [writesOf, resolveAllPlan.eq_def]
      split
      · trivial
      · trivial
      split
      · trivial
      split
      · exact allKeep_andThen (allKeep_plain (plain_savePlan _)) fun _ => trivial
      · trivial
  | abortMerge => exact allKeep_plain plain_abortMergePlan
  | discardWorkspace =>
      rw [writesOf, discardWorkspacePlan]
      split
      · trivial
      split
      · exact ⟨fun _ => trivial, trivial⟩
      · trivial
  | resetWorkspaceToHead => exact ⟨fun _ => trivial, trivial⟩
  | checkoutBranch name =>
      rw [writesOf, checkoutBranchPlan]
      split
      · exact ⟨fun _ => trivial, trivial⟩
      split
      · trivial
      split
      · trivial
      · exact ⟨fun _ => trivial, fun _ => trivial, trivial⟩
  | createBranch name target => exact allKeep_createBranchPlan name target
  | deleteBranch name => exact allKeep_deleteBranchPlan name
  | rekey old new stamp => exact allKeep_commitWritesPlan _ stamp
  | renameRelType old new policy stamp => exact allKeep_commitWritesPlan _ stamp
  | reindex =>
      rw [writesOf, reindexPlan]
      split
      · trivial
      split
      · trivial
      · exact ⟨fun _ => trivial, trivial⟩

end Repository

namespace Traced

variable {hash : Commit → Nat} {state : Traced}

theorem repo_perform (operation : Operation) (count : Nat) :
    (state.perform hash operation count).repo =
      stopped Repository.write state.repo (state.repo.writesOf hash operation) count :=
  repo_foldl state _

theorem Run.grounded {allowed : Traced → Operation → Nat → Prop} (run : state.Run hash allowed) :
    state.repo.Grounded := by
  induction run with
  | init =>
      exact ⟨fun name commit isTip => (nomatch isTip), fun commit isHeld => (nomatch isHeld),
        fun commit isStored => (nomatch isStored)⟩
  | step _ _ ih =>
      rw [repo_perform]
      exact ((Repository.allKeep_writesOf _).throughout ih _).1

theorem Run.advances {allowed : Traced → Operation → Nat → Prop} (run : state.Run hash allowed)
    (operation : Operation) (count : Nat) :
    Repository.Advances operation.Spares state.repo
      (state.perform hash operation count).repo := by
  rw [repo_perform]
  exact ((Repository.allKeep_writesOf operation).throughout run.grounded count).2

def performAll (hash : Commit → Nat) (state : Traced) (steps : List (Operation × Nat)) : Traced :=
  steps.foldl (fun state step => state.perform hash step.1 step.2) state

/-- Wherever operations stop, the branches and `MERGE_HEAD` name stored commits
whose histories are stored.  Whatever follows, no commit is lost, and every
branch that is not deleted keeps its old tip in its history. -/
theorem history_kept (hash : Commit → Nat) (state : Traced)
    (run : state.Run hash fun _ _ _ => True) (steps : List (Operation × Nat)) :
    state.repo.Grounded ∧
      Repository.Advances (fun name => ∀ step ∈ steps, step.1.Spares name) state.repo
        (state.performAll hash steps).repo := by
  refine ⟨run.grounded, ?_⟩
  induction steps generalizing state with
  | nil => exact .refl _ _
  | cons step steps ih =>
      have first := run.advances step.1 step.2
      have rest := ih (state.perform hash step.1 step.2) (run.step trivial)
      exact (first.mono fun name spared => spared step List.mem_cons_self).trans
        (rest.mono fun name spared later member => spared later (List.mem_cons_of_mem _ member))

theorem history_kept_threeBranches :
    (after Repository.sampleHash threeBranches).repo.Grounded ∧
      Repository.Advances (fun name => ∀ step ∈ [(Operation.deleteBranch "side", 1)],
          step.1.Spares name)
        (after Repository.sampleHash threeBranches).repo
        ((after Repository.sampleHash threeBranches).performAll Repository.sampleHash
          [(.deleteBranch "side", 1)]).repo :=
  history_kept _ _ (run_after _ _) _

end Traced

end Acetone.Graph

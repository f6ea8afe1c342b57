import Acetone.Graph.MergeSafety
import Acetone.Interchange.Faithful
import Acetone.Interchange.ImportRun

/-!
# What a failed import leaves behind

The batches of an import touch nothing but the workspace, and a batch that is
refused takes the workspace back to the checked-out commit.  A commit that is
refused does not: the batches stay in the workspace, and the way back from a
side branch is barred.
-/

namespace Acetone.Interchange

open Acetone.Lib Acetone.Model Acetone.Graph

theorem trimEnd_eq_empty {text : String} :
    trimEnd text = "" ↔ ∀ char ∈ text.toList, isWhitespace char = true := by
  rw [trimEnd, String.ofList_eq_empty_iff, List.rdropWhile_eq_nil_iff]

private theorem defaultMessage_kept (provenance : Provenance) (nodes edges : Nat) :
    trimEnd (defaultMessage provenance nodes edges) ≠ "" := by
  rw [Ne, trimEnd_eq_empty]
  intro blank
  have isBlank := blank 'I' (by simp [defaultMessage, String.toList_append])
  exact absurd isBlank (by decide)

/-- With trailers that are valid, only a blank message is refused. -/
theorem assembleMessage_error {message : String} {trailers : List (String × String)}
    (valid : checkEach validateTrailer trailers = .ok ()) :
    (∃ cause, assembleMessage message trailers = .error cause) ↔ trimEnd message = "" := by
  rw [assembleMessage, valid]
  by_cases blank : trimEnd message = ""
  · simp [blank, throw, throwThe, MonadExceptOf.throw, bind, Except.bind]
  · by_cases bare : trailers = [] <;> simp [blank, bare, bind, Except.bind, pure, Except.pure]

/-- Batches have been saved: only the workspace moved, and it holds no conflicts. -/
structure Staged (tree staged : Worktree) : Prop where
  detached : staged.detached = tree.detached
  repo : staged.repo = { tree.repo with workspace := staged.repo.workspace }
  settled : staged.repo.workspace.conflicts = none

namespace Staged

variable {tree staged last : Worktree}

theorem refl (settled : tree.repo.workspace.conflicts = none) : Staged tree tree :=
  ⟨rfl, rfl, settled⟩

theorem trans (first : Staged tree staged) (second : Staged staged last) : Staged tree last := by
  refine ⟨second.detached.trans first.detached, ?_, second.settled⟩
  rw [second.repo, first.repo]

theorem headCommitId (isStaged : Staged tree staged) : staged.headCommitId = tree.headCommitId := by
  rw [Worktree.headCommitId, Worktree.headCommitId, isStaged.detached, isStaged.repo]
  rfl

theorem save {txn : Transaction} {result : Except RepositoryError Unit} {saved : Repository}
    (settled : tree.repo.workspace.conflicts = none) (ofBase : txn.base = tree.repo.workspace)
    (saves : tree.repo.save txn = (result, saved)) : Staged tree { tree with repo := saved } := by
  rw [Repository.save] at saves
  split at saves
  · cases saves
    exact refl settled
  · next inPlace =>
      cases saves
      refine ⟨rfl, rfl, ?_⟩
      rcases Transaction.saveInPlace_cases inPlace with ⟨-, same⟩ | accepted
      · rw [same, ofBase]
        exact settled
      · rw [accepted.conflicts, Transaction.remainingConflicts, ofBase, settled]

end Staged

section

variable {numerals : Numerals}

theorem prepareBatch_eq_ok {labels : SortedMap String LabelDef}
    {rtypes : SortedMap String RelTypeDef} {tracker next : UniqueTracker} {base : Workspace}
    {batch : List Extracted} {puts : List Put} {txn : Transaction} :
    prepareBatch numerals labels rtypes tracker base batch = .ok (puts, next, txn) ↔
      batch.mapM (canonicalise numerals labels rtypes) = .ok puts ∧
        tracker.applyBatch labels (nodesOf puts) = .ok ([], next) ∧
        stageBatch base puts = .ok txn := by
  rw [prepareBatch]
  constructor
  · intro prepares
    obtain ⟨found, makes, prepares⟩ := bind_eq_ok.mp prepares
    obtain ⟨⟨violations, after⟩, judges, prepares⟩ := bind_eq_ok.mp prepares
    dsimp only at prepares
    split at prepares
    · cases prepares
    next clean =>
    rw [ne_eq, not_not] at clean
    subst clean
    obtain ⟨staged, stages, ⟨⟩⟩ := bind_eq_ok.mp prepares
    exact ⟨makes, mapError_eq_ok.mp judges, mapError_eq_ok.mp stages⟩
  · rintro ⟨makes, judges, stages⟩
    rw [nodesOf] at judges
    rw [makes]
    simp [bind, Except.bind, judges, stages, Except.mapError, pure, Except.pure]

theorem base_of_stageBatch {base : Workspace} {puts : List Put} {txn : Transaction}
    (stages : stageBatch base puts = .ok txn) : txn.base = base :=
  (batchStaged (stageBatch_eq_ok.mp stages)).ofBase

/-- However the batches end, they have touched nothing but the workspace. -/
theorem Worktree.saveBatches_staged {labels : SortedMap String LabelDef}
    {rtypes : SortedMap String RelTypeDef} {tracker : UniqueTracker} {tree : Worktree}
    (settled : tree.repo.workspace.conflicts = none) (batches : List (List Extracted)) :
    Staged tree (tree.saveBatches numerals labels rtypes tracker batches).2 := by
  induction batches generalizing tracker tree with
  | nil => exact .refl settled
  | cons batch batches ih =>
      rw [saveBatches]
      split
      · exact .refl settled
      · next puts tracker txn prepares =>
          have ofBase := base_of_stageBatch (prepareBatch_eq_ok.mp prepares).2.2
          split
          · next saves => exact .save settled ofBase saves
          · next saves =>
              have saved : Staged tree _ := .save settled ofBase saves
              exact saved.trans (ih saved.settled)

theorem Worktree.streamBatches_staged {tree : Worktree}
    (settled : tree.repo.workspace.conflicts = none) (extracted : List Extracted)
    (batchSize : Option Nat) :
    Staged tree (tree.streamBatches numerals extracted batchSize).2 := by
  rw [streamBatches]
  dsimp only
  split
  · exact .refl settled
  · split
    · exact .refl settled
    · exact saveBatches_staged settled _

end

/-- A merge is pending that the workspace does not conclude. -/
def MergeRefused (hash : Commit → Nat) (repo : Repository) : Prop :=
  ∃ theirs, repo.mergeHead = some theirs ∧
    (repo.headCommit.any fun tip => theirs.isAncestor tip) = false ∧
      ∃ cause, Repository.checkCompletion hash repo.workspace repo.headCommit theirs =
        .error cause

variable {hash : Commit → Nat}

private theorem completeOrdinary_dirty {repo : Repository}
    (settled : repo.workspace.conflicts = none) (dirty : repo.isDirty = true) (stamp : Nat) :
    ∃ commit, commit.manifest = repo.workspace.manifest ∧
      repo.completeOrdinary false stamp = (.ok commit, repo.advance commit) := by
  have noConflicts : ¬ repo.workspace.conflicts.isSome = true := by simp [settled]
  have changed : ¬ (¬ false = true ∧ ¬ repo.isDirty = true) := fun idle => idle.2 dirty
  rw [Repository.completeOrdinary, if_neg noConflicts, if_neg changed]
  refine ⟨_, ?_, rfl⟩
  cases repo.headCommit <;> rfl

/-- A changed workspace without conflicts is committed, unless a merge is in the way. -/
theorem commitSaved_cases {repo : Repository} (settled : repo.workspace.conflicts = none)
    (dirty : repo.isDirty = true) (stamp : Nat) :
    (MergeRefused hash repo ∧
        ∃ cause, repo.commitSaved hash false stamp = (.error cause, repo)) ∨
      ¬ MergeRefused hash repo ∧ ∃ commit, commit.manifest = repo.workspace.manifest ∧
        repo.commitSaved hash false stamp =
          (.ok commit, { repo.advance commit with mergeHead := none }) := by
  rw [Repository.commitSaved]
  cases pending : repo.mergeHead with
  | none =>
      obtain ⟨commit, same, done⟩ := completeOrdinary_dirty settled dirty stamp
      refine .inr ⟨?_, commit, same, ?_⟩
      · rintro ⟨theirs, isHead, -⟩
        rw [pending] at isHead
        cases isHead
      · dsimp only
        rw [done, ← pending]
        rfl
  | some theirs =>
      dsimp only
      split
      · next stale =>
          obtain ⟨commit, same, done⟩ :=
            @completeOrdinary_dirty { repo with mergeHead := none } settled dirty stamp
          refine .inr ⟨?_, commit, same, done⟩
          rintro ⟨other, isHead, fresh, -⟩
          cases pending.symm.trans isHead
          exact absurd stale (Bool.eq_false_iff.mp fresh)
      · next fresh =>
          rw [Repository.completeMerge]
          split
          · next cause refused =>
              exact .inl ⟨⟨theirs, pending, Bool.eq_false_iff.mpr fresh, cause, refused⟩, cause, rfl⟩
          · next ours passed =>
              refine .inr ⟨?_, .merged ours theirs repo.workspace.manifest stamp, rfl, ?_⟩
              · rintro ⟨other, isHead, -, cause, refused⟩
                cases pending.symm.trans isHead
                cases refused.symm.trans passed
              · have same : (⟨repo.workspace.manifest, none⟩ : Workspace) = repo.workspace := by
                  rw [← settled]
                rw [same]
                rfl

theorem checkedOut_eq {repo : Repository} {commit : Commit}
    (settled : repo.workspace.conflicts = none)
    (same : commit.manifest = repo.workspace.manifest) : commit.checkedOut = repo.workspace := by
  rw [Commit.checkedOut, same, ← settled]

theorem isDirty_advance {repo : Repository} {commit : Commit}
    (settled : repo.workspace.conflicts = none)
    (same : commit.manifest = repo.workspace.manifest) :
    ({ repo.advance commit with mergeHead := none } : Repository).isDirty = false := by
  rw [Repository.isDirty, Repository.headCommit]
  simp [Repository.advance, SortedMap.get_put, checkedOut_eq settled same]

def CommitRefused (hash : Commit → Nat) (staged : Worktree) (message : Option String) : Prop :=
  staged.detached ≠ none ∨ (∃ text, message = some text ∧ trimEnd text = "") ∨
    MergeRefused hash staged.repo

/-- The parts of a worktree that a failed import must leave as they were. -/
structure NoTrace (before after : Worktree) : Prop where
  workspace : after.repo.workspace = before.repo.workspace
  detached : after.detached = before.detached
  head : after.repo.head = before.repo.head
  branches : after.repo.branches = before.repo.branches

theorem NoTrace.isDirty {before after : Worktree} (trace : NoTrace before after) :
    after.repo.isDirty = before.repo.isDirty := by
  rw [Repository.isDirty, Repository.isDirty, Repository.headCommit, Repository.headCommit,
    trace.workspace, trace.head, trace.branches]

theorem NoTrace.refl (tree : Worktree) : NoTrace tree tree := ⟨rfl, rfl, rfl, rfl⟩

section

variable {numerals : Numerals} {stamp : String → Nat} {staged : Worktree}

theorem isDirty_attached (attached : staged.detached = none) :
    staged.isDirty = staged.repo.isDirty := by
  cases tip : staged.repo.headCommit <;>
    simp [Worktree.isDirty, Worktree.headCommitId, attached, Repository.isDirty, tip]

private theorem commitImpl_nothing {repo : Repository} (stamp : Nat) :
    repo.commitImpl hash (.beginWrite repo.workspace) false stamp =
      repo.commitSaved hash false stamp := rfl

theorem Worktree.commitSaved_cases (settled : staged.repo.workspace.conflicts = none)
    (dirty : staged.isDirty = true) (message : String) {trailers : List (String × String)}
    (valid : checkEach validateTrailer trailers = .ok ()) :
    ((staged.detached ≠ none ∨ trimEnd message = "" ∨ MergeRefused hash staged.repo) ∧
        ∃ cause next, staged.commitSaved hash stamp message trailers = (.error cause, next) ∧
          NoTrace staged next) ∨
      (staged.detached = none ∧ trimEnd message ≠ "" ∧ ¬ MergeRefused hash staged.repo) ∧
        ∃ commit, commit.manifest = staged.repo.workspace.manifest ∧
          staged.commitSaved hash stamp message trailers = (.ok commit, { staged with
            repo := { staged.repo.advance commit with mergeHead := none } }) := by
  rw [commitSaved, currentBranch]
  cases attached : staged.detached with
  | some commit => exact .inl ⟨.inl (Option.some_ne_none commit), _, _, rfl, .refl staged⟩
  | none =>
      dsimp only
      rw [commitImpl_nothing]
      have changed := isDirty_attached attached ▸ dirty
      have refuses := @assembleMessage_error message trailers valid
      rcases @Interchange.commitSaved_cases hash staged.repo settled changed
          (stamp ((assembleMessage message trailers).toOption.getD "")) with
        ⟨refused, cause, failed⟩ | ⟨free, commit, same, done⟩
      · rw [failed]
        exact .inl ⟨.inr (.inr refused), _, _, rfl, rfl, attached.symm, rfl, rfl⟩
      · rw [done]
        dsimp only
        cases assembled : assembleMessage message trailers with
        | error cause =>
            have blank := refuses.mp ⟨cause, assembled⟩
            exact .inl ⟨.inr (.inl blank), _, _, rfl, rfl, attached.symm, rfl, rfl⟩
        | ok text =>
            have kept : trimEnd message ≠ "" := by
              intro blank
              obtain ⟨cause, failed⟩ := refuses.mpr blank
              rw [assembled] at failed
              cases failed
            exact .inr ⟨⟨rfl, kept, free⟩, commit, same, rfl⟩

end

section

variable {numerals : Numerals} {stamp : String → Nat} {tree staged : Worktree}

theorem workspace_of_clean (clean : tree.isDirty = false) :
    tree.repo.workspace = (tree.headCommitId.map Commit.checkedOut).getD blank := by
  rw [Worktree.isDirty] at clean
  cases isHead : tree.headCommitId with
  | none => simpa [isHead] using clean
  | some tip => simpa [isHead] using clean

theorem settled_of_clean (clean : tree.isDirty = false) :
    tree.repo.workspace.conflicts = none := by
  rw [workspace_of_clean clean]
  cases tree.headCommitId <;> rfl

/-- Only the workspace can make a difference between a worktree and what was staged in it. -/
theorem Staged.eq_of_workspace (isStaged : Staged tree staged)
    (same : staged.repo.workspace = tree.repo.workspace) : staged = tree := by
  obtain ⟨repo, detached⟩ := staged
  obtain ⟨isDetached, isRepo, -⟩ := isStaged
  dsimp only at isDetached isRepo same
  rw [isDetached, isRepo, same]

theorem Staged.resetWorkspaceToHead (isStaged : Staged tree staged)
    (clean : tree.isDirty = false) : staged.resetWorkspaceToHead = tree := by
  rw [Worktree.resetWorkspaceToHead, isStaged.headCommitId, ← workspace_of_clean clean,
    isStaged.repo, isStaged.detached]

theorem Staged.eq_of_clean (isStaged : Staged tree staged) (clean : tree.isDirty = false)
    (still : staged.isDirty = false) : staged = tree := by
  apply isStaged.eq_of_workspace
  rw [workspace_of_clean still, isStaged.headCommitId, ← workspace_of_clean clean]

inductive ImportEnds (numerals : Numerals) (hash : Commit → Nat) (tree : Worktree)
    (options : ImportOptions) (extracted : List Extracted) : RunEffect ImportOutcome → Prop
  | refused {cause : RunError} :
      (tree.streamBatches numerals extracted options.batchSize).1 = .error cause →
      ImportEnds numerals hash tree options extracted (.error cause, tree)
  | unchanged {counts : Nat × Nat} :
      tree.streamBatches numerals extracted options.batchSize = (.ok counts, tree) →
      ImportEnds numerals hash tree options extracted (.ok .noChange, tree)
  | uncommitted {counts : Nat × Nat} {staged next : Worktree} {cause : RunError} :
      tree.streamBatches numerals extracted options.batchSize = (.ok counts, staged) →
      Staged tree staged → staged.isDirty = true → CommitRefused hash staged options.message →
      NoTrace staged next →
      ImportEnds numerals hash tree options extracted (.error cause, next)
  | committed {counts : Nat × Nat} {staged : Worktree} {commit : Commit} :
      tree.streamBatches numerals extracted options.batchSize = (.ok counts, staged) →
      Staged tree staged → staged.isDirty = true → ¬ CommitRefused hash staged options.message →
      commit.manifest = staged.repo.workspace.manifest →
      ImportEnds numerals hash tree options extracted
        (.ok (.committed commit counts.1 counts.2),
          { staged with repo := { staged.repo.advance commit with mergeHead := none } })

theorem blank_message {options : ImportOptions} {nodes edges : Nat} :
    trimEnd (options.message.getD (defaultMessage options.provenance nodes edges)) = "" ↔
      ∃ text, options.message = some text ∧ trimEnd text = "" := by
  cases options.message with
  | none =>
      constructor
      · intro blank
        exact absurd blank (defaultMessage_kept _ _ _)
      · rintro ⟨text, isText, -⟩
        cases isText
  | some text =>
      constructor
      · intro blank
        exact ⟨text, rfl, blank⟩
      · rintro ⟨other, ⟨⟩, blank⟩
        exact blank

theorem Worktree.importIntoWorkspace_ends (clean : tree.isDirty = false)
    {options : ImportOptions} (extracted : List Extracted)
    (valid : checkEach validateTrailer (provenanceTrailers options.provenance) = .ok ()) :
    ImportEnds numerals hash tree options extracted
      (tree.importIntoWorkspace numerals hash stamp options extracted) := by
  have isStaged := @streamBatches_staged numerals _ (settled_of_clean clean) extracted
    options.batchSize
  rw [importIntoWorkspace]
  cases streams : tree.streamBatches numerals extracted options.batchSize with
  | mk result staged =>
      rw [streams] at isStaged
      dsimp only at isStaged
      cases result with
      | error cause =>
          dsimp only
          rw [isStaged.resetWorkspaceToHead clean]
          exact .refused (by rw [streams])
      | ok counts =>
          obtain ⟨nodes, edges⟩ := counts
          dsimp only
          split
          · next still =>
              have same := isStaged.eq_of_clean clean (Bool.not_eq_true _ ▸ still)
              rw [same] at streams ⊢
              exact .unchanged streams
          · next changed =>
              rw [not_not] at changed
              rcases @commitSaved_cases hash stamp staged isStaged.settled changed
                  (options.message.getD (defaultMessage options.provenance nodes edges)) _ valid with
                ⟨refused, cause, next, failed, still⟩ | ⟨⟨attached, kept, free⟩, commit, same, done⟩
              · rw [failed]
                rw [blank_message] at refused
                exact .uncommitted streams isStaged changed refused still
              · rw [done]
                refine .committed streams isStaged changed ?_ same
                rintro (detached | blank | refused)
                · exact detached attached
                · exact kept (blank_message.mpr blank)
                · exact free refused

end

section

variable {refAllowed : String → Bool} {tree : Worktree}

/-- The worktree that the records of an import are staged in, if the checks that
come before let it begin. -/
def Worktree.landing (refAllowed : String → Bool) (tree : Worktree) :
    Option String → Option Worktree
  | none => some tree
  | some branch =>
      match tree.detached, tree.repo.headCommit with
      | none, some tip =>
          if branch = tree.repo.head ∨ ¬ refAllowed branch then none
          else
            match tree.repo.branches.get branch with
            | some other => some ⟨{ tree.repo with
                head := branch
                workspace := other.checkedOut }, none⟩
            | none => some ⟨{ tree.repo with
                head := branch
                branches := tree.repo.branches.put branch tip }, none⟩
      | _, _ => none

theorem checkoutBranch_clean {repo : Repository} {name : String} {target : Commit}
    (isTarget : repo.branches.get name = some target)
    (free : repo.workspace = target.checkedOut ∨ repo.isDirty = false) :
    repo.checkoutBranch name =
      (.ok (), { repo with head := name, workspace := target.checkedOut }) := by
  rw [Repository.checkoutBranch, isTarget]
  dsimp only
  split
  · next same =>
      have same : repo.workspace = target.checkedOut := by simpa using same
      rw [← same]
  · next apart =>
      rcases free with same | clean
      · exact absurd (by simpa using same) apart
      · rw [if_neg (Bool.eq_false_iff.mp clean)]

/-- A changed workspace cannot be left for a branch that has another version. -/
private theorem checkoutBranch_dirty {repo : Repository} {name : String} {target : Commit}
    (isTarget : repo.branches.get name = some target)
    (apart : repo.workspace ≠ target.checkedOut) (dirty : repo.isDirty = true) :
    repo.checkoutBranch name = (.error .dirtyWorkspace, repo) := by
  rw [Repository.checkoutBranch, isTarget]
  have slow : ¬ (some target).any (fun commit => repo.workspace = commit.checkedOut) = true := by
    simpa using apart
  rw [if_neg slow, if_pos dirty]

/-- The way to the side branch, which is created if it does not exist. -/
structure Arrives (tree side : Worktree) (branch : String) (created : Bool) (tip : Commit) :
    Prop where
  attached : tree.detached = none
  isTip : tree.repo.headCommit = some tip
  other : branch ≠ tree.repo.head
  detached : side.detached = none
  head : side.repo.head = branch
  clean : side.isDirty = false
  isNew : created = true ↔ tree.repo.branches.get branch = none
  branches : side.repo.branches =
    if created then tree.repo.branches.put branch tip else tree.repo.branches

theorem Arrives.tipped {side : Worktree} {branch : String} {created : Bool} {tip : Commit}
    (arrives : Arrives tree side branch created tip) (clean : tree.isDirty = false) :
    tree.repo.workspace = tip.checkedOut := by
  have same := workspace_of_clean clean
  rwa [Worktree.headCommitId, arrives.attached, arrives.isTip] at same

theorem Arrives.original {side : Worktree} {branch : String} {created : Bool} {tip : Commit}
    (arrives : Arrives tree side branch created tip) :
    side.repo.branches.get tree.repo.head = some tip := by
  rw [arrives.branches]
  split
  · rw [SortedMap.get_put, if_neg arrives.other]
    exact arrives.isTip
  · exact arrives.isTip

theorem Arrives.restored {side : Worktree} {branch : String} {created : Bool} {tip : Commit}
    (arrives : Arrives tree side branch created tip) {back : Repository}
    (branches : back.branches = side.repo.branches) (head : back.head = tree.repo.head) :
    (if created then (back.deleteBranch branch).2 else back) =
      { back with branches := tree.repo.branches } := by
  split
  · next isCreated =>
      have fresh := arrives.isNew.mp isCreated
      have isBranch : back.branches.get branch = some tip := by
        rw [branches, arrives.branches, if_pos isCreated, SortedMap.get_put, if_pos rfl]
      have same : back.branches.delete branch = tree.repo.branches := by
        apply SortedMap.ext_get
        intro name
        rw [SortedMap.get_delete, branches, arrives.branches, if_pos isCreated, SortedMap.get_put]
        by_cases isName : branch = name
        · rw [if_pos isName, ← isName, fresh]
        · rw [if_neg isName, if_neg isName]
      rw [Repository.deleteBranch, if_neg (head ▸ arrives.other), isBranch]
      dsimp only
      rw [same]
  · next existed =>
      rw [← show back.branches = tree.repo.branches by
        rw [branches, arrives.branches, if_neg existed]]

theorem switchToBranch_landing (clean : tree.isDirty = false) {side : Worktree} {branch : String}
    (lands : tree.landing refAllowed (some branch) = some side) :
    ∃ created tip, switchToBranch refAllowed tree.repo branch = (.ok created, side.repo) ∧
      Arrives tree side branch created tip := by
  rw [Worktree.landing] at lands
  split at lands
  · next tip attached isTip =>
      split at lands
      · cases lands
      next allowed =>
      obtain ⟨other, allowed⟩ := not_or.mp allowed
      rw [not_not] at allowed
      have isClean := isDirty_attached attached ▸ clean
      rw [switchToBranch, if_neg (fun refused => refused.2 allowed), Repository.switchToBranch,
        Repository.createBranch, isTip]
      dsimp only
      cases isBranch : tree.repo.branches.get branch with
      | some target =>
          rw [isBranch] at lands
          cases lands
          rw [if_pos (Option.some_ne_none target)]
          dsimp only
          rw [checkoutBranch_clean isBranch (.inr isClean)]
          refine ⟨false, tip, rfl, attached, isTip, other, rfl, rfl, ?_, ?_, rfl⟩
          · simp [Worktree.isDirty, Worktree.headCommitId, Repository.headCommit, isBranch]
          · simp [isBranch]
      | none =>
          rw [isBranch] at lands
          cases lands
          have isCreated : (tree.repo.branches.put branch tip).get branch = some tip :=
            (SortedMap.get_put _ _ _ _).trans (if_pos rfl)
          have same : tree.repo.workspace = tip.checkedOut := by
            have same := workspace_of_clean clean
            rwa [Worktree.headCommitId, attached, isTip] at same
          rw [if_neg (fun known => known rfl)]
          dsimp only
          rw [@checkoutBranch_clean { tree.repo with
            branches := tree.repo.branches.put branch tip } branch tip isCreated (.inl same),
            ← same]
          refine ⟨true, tip, rfl, attached, isTip, other, rfl, rfl, ?_, ?_, rfl⟩
          · simp [Worktree.isDirty, Worktree.headCommitId, Repository.headCommit, isCreated, same]
          · simp [isBranch]
  · cases lands

private theorem importOntoBranch_barred {numerals : Numerals} {stamp : String → Nat}
    {branch : String} (barred : tree.landing refAllowed (some branch) = none)
    (options : ImportOptions) (extracted : List Extracted) :
    ∃ cause, tree.importOntoBranch numerals hash stamp refAllowed branch options extracted =
      (.error cause, tree) := by
  rw [Worktree.importOntoBranch, Worktree.currentBranch]
  rw [Worktree.landing] at barred
  cases attached : tree.detached with
  | some commit => exact ⟨_, rfl⟩
  | none =>
      have still : (⟨tree.repo, none⟩ : Worktree) = tree := by rw [← attached]
      dsimp only
      by_cases isHead : branch = tree.repo.head
      · rw [if_pos isHead]
        exact ⟨_, rfl⟩
      rw [if_neg isHead, switchToBranch]
      cases isTip : tree.repo.headCommit with
      | none =>
          have unborn : tree.repo.switchToBranch branch = (.error .noCurrentBranch, tree.repo) := by
            rw [Repository.switchToBranch, Repository.createBranch, isTip]
          rw [if_neg (fun refused => by cases refused.1), unborn]
          exact ⟨_, congrArg (Prod.mk _) still⟩
      | some tip =>
          rw [attached, isTip] at barred
          dsimp only at barred
          by_cases allowed : refAllowed branch = true
          · rw [if_neg (not_or.mpr ⟨isHead, not_not.mpr allowed⟩)] at barred
            split at barred <;> cases barred
          · rw [if_pos ⟨rfl, allowed⟩]
            exact ⟨_, congrArg (Prod.mk _) still⟩

/-- The records were staged and changed the graph, both of the branch they were to land
on and of the one checked out, but the commit is refused. -/
def Stranded (numerals : Numerals) (hash : Commit → Nat) (refAllowed : String → Bool)
    (tree : Worktree) (options : ImportOptions) (extracted : List Extracted) : Prop :=
  tree.isDirty = false ∧ options.validate = .ok () ∧ ∃ side counts staged,
    tree.landing refAllowed options.branch = some side ∧
      side.streamBatches numerals extracted options.batchSize = (.ok counts, staged) ∧
      staged.isDirty = true ∧ CommitRefused hash staged options.message ∧
      staged.repo.workspace ≠ tree.repo.workspace

theorem trailers_valid {options : ImportOptions} (valid : options.validate = .ok ()) :
    checkEach validateTrailer (provenanceTrailers options.provenance) = .ok () := by
  rw [ImportOptions.validate] at valid
  cases isAuthor : options.author with
  | none => simpa only [isAuthor] using valid
  | some author =>
      simp only [isAuthor] at valid
      obtain ⟨-, -, valid⟩ := bind_eq_ok.mp valid
      exact valid

section

variable {numerals : Numerals} {stamp : String → Nat} {options : ImportOptions}
  {extracted : List Extracted} {side : Worktree}

private theorem stranded_iff (clean : tree.isDirty = false) (valid : options.validate = .ok ())
    (lands : tree.landing refAllowed options.branch = some side) :
    Stranded numerals hash refAllowed tree options extracted ↔ ∃ counts staged,
      side.streamBatches numerals extracted options.batchSize = (.ok counts, staged) ∧
        staged.isDirty = true ∧ CommitRefused hash staged options.message ∧
        staged.repo.workspace ≠ tree.repo.workspace := by
  constructor
  · rintro ⟨-, -, other, counts, staged, isSide, rest⟩
    cases lands.symm.trans isSide
    exact ⟨counts, staged, rest⟩
  · rintro ⟨counts, staged, rest⟩
    exact ⟨clean, valid, side, counts, staged, lands, rest⟩

private theorem noTrace_here (clean : tree.isDirty = false)
    {outcome : RunEffect ImportOutcome}
    (ends : ImportEnds numerals hash tree options extracted outcome) {cause : RunError}
    (failed : outcome.1 = .error cause) :
    NoTrace tree outcome.2 ↔ ¬ ∃ counts staged,
      tree.streamBatches numerals extracted options.batchSize = (.ok counts, staged) ∧
        staged.isDirty = true ∧ CommitRefused hash staged options.message ∧
        staged.repo.workspace ≠ tree.repo.workspace := by
  cases ends with
  | refused fails =>
      refine iff_of_true (.refl tree) ?_
      rintro ⟨counts, staged, streams, -⟩
      rw [streams] at fails
      cases fails
  | unchanged streams => cases failed
  | committed streams isStaged changed free same => cases failed
  | uncommitted streams isStaged changed refused still =>
      rename_i counts staged next _
      have moved : staged.repo.workspace ≠ tree.repo.workspace := by
        intro same
        rw [isStaged.eq_of_workspace same, clean] at changed
        cases changed
      refine iff_of_false ?_ (not_not.mpr ⟨counts, staged, streams, changed, refused, moved⟩)
      intro trace
      exact moved (still.workspace.symm.trans trace.workspace)

section

variable {original branch : String} {created : Bool} {done : Worktree} {back : Repository}

theorem comeBack_ok {outcome : ImportOutcome}
    (returns : done.repo.checkoutBranch original = (.ok (), back)) :
    comeBack original branch created (.ok outcome, done) =
      (.ok outcome, { done with repo := back }) := by
  simp only [comeBack, returns]

theorem comeBack_error {cause : RunError}
    (returns : done.repo.checkoutBranch original = (.ok (), back)) :
    comeBack original branch created (.error cause, done) = (.error cause, { done with
      repo := if created then (back.deleteBranch branch).2 else back }) := by
  simp only [comeBack, returns]

theorem comeBack_stuck {cause : RunError} {reason : RepositoryError}
    (stuck : done.repo.checkoutBranch original = (.error reason, back)) :
    comeBack original branch created (.error cause, done) =
      (.error cause, { done with repo := back }) := by
  simp only [comeBack, stuck]

end

/-- A failed import leaves no trace once the way back is open. -/
theorem noTrace_comeBack {branch : String} {created : Bool} {tip : Commit}
    {done : Worktree} {cause : RunError} (clean : tree.isDirty = false)
    (arrives : Arrives tree side branch created tip) (detached : done.detached = none)
    (branches : done.repo.branches = side.repo.branches)
    (free : done.repo.workspace = tree.repo.workspace ∨ done.repo.isDirty = false) :
    NoTrace tree (comeBack tree.repo.head branch created (.error cause, done)).2 := by
  have isTipped := arrives.tipped clean
  have returns := checkoutBranch_clean (branches ▸ arrives.original) (isTipped ▸ free)
  rw [comeBack_error returns]
  dsimp only
  rw [@Arrives.restored _ _ _ _ _ arrives
    { done.repo with head := tree.repo.head, workspace := tip.checkedOut } branches rfl]
  exact ⟨isTipped.symm, detached.trans arrives.attached.symm, rfl, rfl⟩

private theorem noTrace_side {branch : String} {created : Bool} {tip : Commit}
    (clean : tree.isDirty = false) (arrives : Arrives tree side branch created tip)
    {ended : RunEffect ImportOutcome}
    (ends : ImportEnds numerals hash side options extracted ended) {cause : RunError}
    (failed : (comeBack tree.repo.head branch created ended).1 = .error cause) :
    NoTrace tree (comeBack tree.repo.head branch created ended).2 ↔ ¬ ∃ counts staged,
      side.streamBatches numerals extracted options.batchSize = (.ok counts, staged) ∧
        staged.isDirty = true ∧ CommitRefused hash staged options.message ∧
        staged.repo.workspace ≠ tree.repo.workspace := by
  have sideClean : side.repo.isDirty = false :=
    isDirty_attached arrives.detached ▸ arrives.clean
  cases ends with
  | unchanged streams =>
      rw [comeBack_ok (checkoutBranch_clean arrives.original (.inr sideClean))] at failed
      cases failed
  | refused fails =>
      refine iff_of_true ?_ ?_
      · exact noTrace_comeBack clean arrives arrives.detached rfl (.inr sideClean)
      · rintro ⟨counts, staged, streams, -⟩
        rw [streams] at fails
        cases fails
  | committed streams isStaged changed free same =>
      rename_i counts staged commit
      have isHead : staged.repo.head = branch := by rw [isStaged.repo, ← arrives.head]
      have isOriginal : (staged.repo.branches.put staged.repo.head commit).get tree.repo.head =
          some tip := by
        rw [SortedMap.get_put, if_neg (isHead ▸ arrives.other), isStaged.repo]
        exact arrives.original
      rw [comeBack_ok (checkoutBranch_clean isOriginal
        (.inr (isDirty_advance isStaged.settled same)))] at failed
      cases failed
  | uncommitted streams isStaged changed refused still =>
      rename_i counts staged next _
      have branches : next.repo.branches = side.repo.branches := by
        rw [still.branches, isStaged.repo]
      have attached : staged.detached = none := isStaged.detached.trans arrives.detached
      by_cases moved : staged.repo.workspace = tree.repo.workspace
      · refine iff_of_true ?_ ?_
        · exact noTrace_comeBack clean arrives (still.detached.trans attached) branches
            (.inl (still.workspace.trans moved))
        · rintro ⟨others, other, again, -, -, apart⟩
          cases streams.symm.trans again
          exact apart moved
      · refine iff_of_false ?_ (not_not.mpr ⟨counts, staged, streams, changed, refused, moved⟩)
        have apart : next.repo.workspace ≠ tip.checkedOut := by
          rw [still.workspace, ← arrives.tipped clean]
          exact moved
        have dirty : next.repo.isDirty = true := by
          rw [still.isDirty, ← isDirty_attached attached]
          exact changed
        rw [comeBack_stuck (checkoutBranch_dirty (branches ▸ arrives.original) apart dirty)]
        intro trace
        exact moved (still.workspace.symm.trans trace.workspace)

/-- An import that is let begin runs in the worktree that it lands in. -/
theorem importRun_landing (clean : tree.isDirty = false) (valid : options.validate = .ok ())
    (lands : tree.landing refAllowed options.branch = some side) :
    (options.branch = none ∧ side = tree ∧
        tree.importRun numerals hash stamp refAllowed options extracted =
          side.importIntoWorkspace numerals hash stamp options extracted) ∨
      ∃ branch created tip, options.branch = some branch ∧ Arrives tree side branch created tip ∧
        tree.importRun numerals hash stamp refAllowed options extracted =
          comeBack tree.repo.head branch created
            (side.importIntoWorkspace numerals hash stamp options extracted) := by
  rw [Worktree.importRun, if_neg (Bool.eq_false_iff.mp clean), valid]
  dsimp only
  cases isBranch : options.branch with
  | none =>
      rw [isBranch, Worktree.landing, Option.some.injEq] at lands
      subst lands
      exact .inl ⟨rfl, rfl, rfl⟩
  | some branch =>
      rw [isBranch] at lands
      obtain ⟨created, tip, switches, arrives⟩ := switchToBranch_landing clean lands
      refine .inr ⟨branch, created, tip, rfl, arrives, ?_⟩
      have isSide : (⟨side.repo, tree.detached⟩ : Worktree) = side := by
        rw [arrives.attached, ← arrives.detached]
      rw [arrives.attached] at isSide
      dsimp only
      rw [Worktree.importOntoBranch, Worktree.currentBranch, arrives.attached]
      dsimp only
      rw [if_neg arrives.other, switches]
      dsimp only
      rw [isSide]

/-- An import that is not let begin changes nothing. -/
theorem importRun_barred (valid : options.validate = .ok ())
    (barred : tree.landing refAllowed options.branch = none) :
    ∃ cause, tree.importRun numerals hash stamp refAllowed options extracted =
      (.error cause, tree) := by
  rw [Worktree.importRun, valid]
  split
  · exact ⟨_, rfl⟩
  dsimp only
  cases isBranch : options.branch with
  | none =>
      rw [isBranch, Worktree.landing] at barred
      cases barred
  | some branch =>
      rw [isBranch] at barred
      exact importOntoBranch_barred barred options extracted

end

end

/-! A source that fails after one record, and a record imported with a blank message. -/

def plainNumerals : Numerals := ⟨fun _ => none, fun _ => none, trim, fun _ => 0⟩

def peopleTree : Worktree :=
  ⟨Repository.init.perform Repository.sampleHash
    (.commit [.putSchema (.label "Person" personLabel)] false 0), none⟩

def ontoSide (message : String) : ImportOptions where
  branch := some "side"
  message := some message
  provenance := ⟨"people.csv", "csv", "00"⟩
  author := none
  batchSize := some 1

def onePerson : List Extracted :=
  [.ok (.node "Person" (.ofList [("id", .int 1), ("mail", .string "a")]))]

def runPeople (message : String) (extracted : List Extracted) : RunEffect ImportOutcome :=
  peopleTree.importRun plainNumerals Repository.sampleHash (fun _ => 0) (fun _ => true)
    (ontoSide message) extracted

private theorem fails_of_isNone {α ε : Type} {result : Except ε α}
    (isNone : result.toOption.isNone = true) : ∃ cause, result = .error cause := by
  cases result with
  | error cause => exact ⟨cause, rfl⟩
  | ok value => cases isNone

end Acetone.Interchange

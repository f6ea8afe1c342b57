import Acetone.Graph.RefWrites
import Acetone.Graph.MergeSafety

/-!
# Merges that are interrupted

A merge that found conflicts, its resolution, its abort and the commit that
concludes it are sequences of writes, and a process may stop between any two.
The workspace is followed to the merge its content comes from: a commit should
name as its second parent only a commit whose merge it was made from.
-/

namespace Acetone.Graph

open Acetone.Lib Acetone.Model

/-- A repository, and the commit whose merge the workspace was made from. -/
structure Traced where
  repo : Repository
  merged : Option Commit
deriving DecidableEq

def RefWrite.mergedAfter (merged : Option Commit) : RefWrite → Option Commit
  | .workspace _ .kept => merged
  | .workspace _ (.merge theirs) => some theirs
  | .workspace _ .version => none
  | .object _ => merged
  | .mergeHead _ => merged
  | .branch _ _ => merged
  | .head _ => merged

def RefWrite.secondParent : RefWrite → Option Commit
  | .object (.merged _ theirs _ _) => some theirs
  | .object (.initial _ _) => none
  | .object (.child _ _ _) => none
  | .workspace _ _ => none
  | .mergeHead _ => none
  | .branch _ _ => none
  | .head _ => none

namespace Traced

variable (hash : Commit → Nat)

def write (state : Traced) (made : RefWrite) : Traced :=
  ⟨state.repo.write made, made.mergedAfter state.merged⟩

def perform (state : Traced) (operation : Operation) (count : Nat) : Traced :=
  stopped write state (state.repo.writesOf hash operation) count

/-- The states reached from an initialised repository by operations that may
stop, where `allowed` admits each. -/
inductive Run (allowed : Traced → Operation → Nat → Prop) : Traced → Prop
  | init : Run allowed ⟨.init, none⟩
  | step {state : Traced} {operation : Operation} {count : Nat} : Run allowed state →
      allowed state operation count → Run allowed (state.perform hash operation count)

end Traced

namespace Repository

/-- Without a tip there is no merge. -/
def Born (repo : Repository) : Prop :=
  repo.headCommit = none → repo.mergeHead = none ∧ repo.workspace.conflicts = none

/-- What a write has to meet for that to stay so. -/
def KeepsBorn (repo : Repository) : RefWrite → Prop
  | .object _ => True
  | .workspace next _ => repo.headCommit = none → next.conflicts = none
  | .mergeHead target => target = none ∨ repo.headCommit ≠ none
  | .branch name target => target ≠ none ∨ name ≠ repo.head
  | .head name => repo.branches.get name ≠ none

theorem Born.write {repo : Repository} (born : repo.Born) {made : RefWrite}
    (keeps : repo.KeepsBorn made) : (repo.write made).Born := by
  cases made with
  | object commit => exact born
  | workspace next content => exact fun unborn => ⟨(born unborn).1, keeps unborn⟩
  | mergeHead target =>
      intro unborn
      refine ⟨?_, (born unborn).2⟩
      rcases keeps with cleared | tip
      · exact cleared
      · exact absurd unborn tip
  | branch name target =>
      cases target with
      | none =>
          intro unborn
          have apart : name ≠ repo.head := keeps.resolve_left fun same => same rfl
          apply born
          rw [headCommit, Repository.write, SortedMap.get_delete, if_neg apart] at unborn
          exact unborn
      | some commit =>
          intro unborn
          rw [headCommit, Repository.write, SortedMap.get_put] at unborn
          split at unborn
          · cases unborn
          · exact born unborn
  | head name => exact fun unborn => absurd unborn keeps

end Repository

/-- In the history of the tip. -/
def Repository.Past (repo : Repository) (commit : Commit) : Prop :=
  ∃ tip, repo.headCommit = some tip ∧ commit ∈ tip.ancestors

namespace Traced

/-- What `MERGE_HEAD` names has been merged into the workspace, or is in the history
of the tip. -/
def Held (state : Traced) : Prop :=
  ∀ held, state.repo.mergeHead = some held → state.merged = some held ∨ state.repo.Past held

/-- What a write has to meet for that to stay so. -/
def KeepsHeld (state : Traced) : RefWrite → Prop
  | .object _ => True
  | .workspace _ .kept => True
  | .workspace _ (.merge theirs) => ∀ held, state.repo.mergeHead = some held →
      theirs = held ∨ state.repo.Past held
  | .workspace _ .version => ∀ held, state.repo.mergeHead = some held → state.repo.Past held
  | .mergeHead target => ∀ held, target = some held →
      state.merged = some held ∨ state.repo.Past held
  | .branch name target => name = state.repo.head → ∀ tip, state.repo.headCommit = some tip →
      ∃ next, target = some next ∧ tip ∈ next.ancestors
  | .head name => ∀ held, state.repo.mergeHead = some held →
      state.merged = some held ∨ ∃ tip, state.repo.branches.get name = some tip ∧
        held ∈ tip.ancestors

/-- The second parent of a commit is what the workspace was made from. -/
def Records (state : Traced) (made : RefWrite) : Prop :=
  ∀ theirs, made.secondParent = some theirs → state.merged = some theirs

theorem Held.write {state : Traced} (holds : state.Held) {made : RefWrite}
    (keeps : state.KeepsHeld made) : (state.write made).Held := by
  intro held isHeld
  cases made with
  | object commit => exact holds held isHeld
  | workspace next content =>
      cases content with
      | kept => exact holds held isHeld
      | merge theirs => exact (keeps held isHeld).imp_left (congrArg some)
      | version => exact .inr (keeps held isHeld)
  | mergeHead target => exact keeps held isHeld
  | branch name target =>
      have wasHeld : state.repo.mergeHead = some held := by
        cases target <;> exact isHeld
      rcases holds held wasHeld with isMerged | ⟨tip, isTip, past⟩
      · exact .inl isMerged
      · right
        by_cases isHead : name = state.repo.head
        · obtain ⟨next, rfl, grown⟩ := keeps isHead tip isTip
          refine ⟨next, ?_, Commit.ancestors_trans past grown⟩
          subst isHead
          exact (SortedMap.get_put _ _ _ _).trans (if_pos rfl)
        · refine ⟨tip, ?_, past⟩
          cases target with
          | none => exact ((SortedMap.get_delete _ _ _).trans (if_neg isHead)).trans isTip
          | some commit => exact ((SortedMap.get_put _ _ _ _).trans (if_neg isHead)).trans isTip
  | head name => exact (keeps held isHeld).imp_right fun ⟨tip, isTip, past⟩ => ⟨tip, isTip, past⟩

/-- A write that keeps both, and records a second parent rightly. -/
def Fits (state : Traced) (made : RefWrite) : Prop :=
  state.repo.Born → state.repo.KeepsBorn made ∧
    (state.Held → state.KeepsHeld made ∧ state.Records made)

abbrev AllFit (state : Traced) (writes : List RefWrite) : Prop :=
  AtEach Traced.write Fits state writes

theorem repo_foldl (state : Traced) (writes : List RefWrite) :
    (writes.foldl write state).repo = state.repo.writeAll writes := by
  induction writes generalizing state with
  | nil => rfl
  | cons made rest ih => exact ih (state.write made)

theorem allFit_andThen {α β : Type} {state : Traced} {first : Plan α}
    {next : α → Repository → Plan β} (start : state.AllFit first.writes)
    (rest : ∀ value, first.result = .ok value →
      AllFit (first.writes.foldl write state) (next value (state.repo.writeAll first.writes)).writes) :
    state.AllFit (first.andThen state.repo next).writes := by
  rw [Plan.andThen]
  cases result : first.result with
  | error cause => exact start
  | ok value => exact atEach_append.mpr ⟨start, rest value result⟩

variable {hash : Commit → Nat} {state : Traced}

/-- A save keeps what the workspace was made from. -/
theorem allFit_savePlan (txn : Transaction)
    (clean : state.repo.Born → state.repo.headCommit = none → txn.base.conflicts = none) :
    state.AllFit (state.repo.savePlan txn).writes := by
  rw [Repository.savePlan]
  cases saved : txn.saveInPlace state.repo.mergeHead.isSome with
  | error cause => trivial
  | ok next =>
      dsimp only
      split
      · trivial
      · refine ⟨fun born => ⟨fun unborn => ?_, fun _ => ⟨trivial, fun _ isSecond => ?_⟩⟩, trivial⟩
        · have free := clean born unborn
          rcases Transaction.saveInPlace_cases saved with ⟨-, rfl⟩ | accepted
          · exact free
          · rw [accepted.conflicts, Transaction.remainingConflicts, free]
        · cases isSecond

private theorem allFit_completeOrdinaryPlan (allowEmpty : Bool) (stamp : Nat) :
    state.AllFit (state.repo.completeOrdinaryPlan allowEmpty stamp).writes := by
  rw [Repository.completeOrdinaryPlan]
  split
  · trivial
  split
  · trivial
  · cases isTip : state.repo.headCommit with
    | none =>
        refine ⟨fun _ => ⟨trivial, fun _ => ⟨trivial, fun _ isSecond => ?_⟩⟩,
          fun _ => ⟨.inl (Option.some_ne_none _), fun _ => ⟨fun _ tip again => ?_,
            fun _ isSecond => ?_⟩⟩, trivial⟩
        · cases isSecond
        · exact absurd (isTip.symm.trans again) (Option.some_ne_none tip).symm
        · cases isSecond
    | some tip =>
        refine ⟨fun _ => ⟨trivial, fun _ => ⟨trivial, fun _ isSecond => ?_⟩⟩,
          fun _ => ⟨.inl (Option.some_ne_none _), fun _ => ⟨fun _ other again => ?_,
            fun _ isSecond => ?_⟩⟩, trivial⟩
        · cases isSecond
        · cases isTip.symm.trans again
          exact ⟨_, rfl, List.mem_cons_of_mem _ (Commit.mem_ancestors_self tip)⟩
        · cases isSecond

private theorem allFit_deleteMergeHead : state.AllFit state.repo.deleteMergeHead := by
  rw [Repository.deleteMergeHead]
  split
  · refine ⟨fun _ => ⟨.inl rfl, fun _ => ⟨fun _ isHeld => ?_, fun _ isSecond => ?_⟩⟩, trivial⟩
    · cases isHeld
    · cases isSecond
  · trivial

theorem headCommit_of_checkCompletion {workspace : Workspace} {tip : Option Commit}
    {theirs ours : Commit}
    (passed : Repository.checkCompletion hash workspace tip theirs = .ok ours) :
    tip = some ours := by
  rw [Repository.checkCompletion.eq_def] at passed
  split at passed
  · cases passed
  split at passed
  · cases passed
  split at passed
  · cases passed
  obtain ⟨violations, -, passed⟩ := bind_eq_ok.mp passed
  split at passed
  · cases passed
  · cases passed
    rfl

private theorem allFit_conclusion {ours theirs : Commit} {manifest : Manifest} {stamp : Nat}
    (isTip : state.repo.headCommit = some ours) (isHeld : state.repo.mergeHead = some theirs)
    (fresh : theirs ∉ ours.ancestors) :
    state.AllFit [.object (.merged ours theirs manifest stamp),
      .branch state.repo.head (some (.merged ours theirs manifest stamp)), .mergeHead none] := by
  refine ⟨fun _ => ⟨trivial, fun holds => ⟨trivial, fun second isSecond => ?_⟩⟩,
    fun _ => ⟨.inl (Option.some_ne_none _), fun _ => ⟨fun _ tip again => ?_,
      fun _ isSecond => ?_⟩⟩,
    fun _ => ⟨.inl rfl, fun _ => ⟨fun _ cleared => ?_, fun _ isSecond => ?_⟩⟩, trivial⟩
  · cases isSecond
    refine (holds theirs isHeld).resolve_right fun ⟨tip, again, past⟩ => ?_
    cases isTip.symm.trans again
    exact fresh past
  · cases isTip.symm.trans again
    exact ⟨_, rfl, List.mem_cons_of_mem _
      (List.mem_append_left _ (Commit.mem_ancestors_self ours))⟩
  · cases isSecond
  · cases cleared
  · cases isSecond

private theorem allFit_completeMergePlan {theirs : Commit} (stamp : Nat)
    (isHeld : state.repo.mergeHead = some theirs)
    (fresh : (state.repo.headCommit.any fun tip => theirs.isAncestor tip) = false) :
    state.AllFit (state.repo.completeMergePlan hash theirs stamp).writes := by
  rw [Repository.completeMergePlan]
  cases passed : Repository.checkCompletion hash state.repo.workspace state.repo.headCommit
      theirs with
  | error cause => trivial
  | ok ours =>
      have isTip := headCommit_of_checkCompletion passed
      have notPast : theirs ∉ ours.ancestors := by
        simpa [isTip, Commit.isAncestor] using fresh
      have cleared : state.repo.deleteMergeHead = [.mergeHead none] := by
        rw [Repository.deleteMergeHead, isHeld]
        rfl
      dsimp only
      rw [cleared]
      split
      · refine ⟨fun _ => ⟨fun _ => rfl, fun _ => ⟨trivial, fun _ isSecond => ?_⟩⟩, ?_⟩
        · cases isSecond
        · exact @allFit_conclusion (state.write _) ours theirs _ stamp isTip isHeld notPast
      · exact allFit_conclusion isTip isHeld notPast

private theorem allFit_commitSavedPlan (allowEmpty : Bool) (stamp : Nat) :
    state.AllFit (state.repo.commitSavedPlan hash allowEmpty stamp).writes := by
  rw [Repository.commitSavedPlan]
  cases isHeld : state.repo.mergeHead with
  | none => exact allFit_completeOrdinaryPlan allowEmpty stamp
  | some theirs =>
      dsimp only
      split
      · apply allFit_andThen allFit_deleteMergeHead
        intro _ _
        rw [← repo_foldl]
        exact allFit_completeOrdinaryPlan allowEmpty stamp
      · next fresh => exact allFit_completeMergePlan stamp isHeld (Bool.eq_false_of_not_eq_true fresh)

private theorem allFit_commitPlan (txn : Transaction) (allowEmpty : Bool) (stamp : Nat)
    (onWorkspace : txn.base = state.repo.workspace) :
    state.AllFit (state.repo.commitPlan hash txn allowEmpty stamp).writes := by
  rw [Repository.commitPlan]
  apply allFit_andThen (allFit_savePlan txn fun born unborn => ?_)
  · intro _ _
    rw [← repo_foldl]
    exact allFit_commitSavedPlan allowEmpty stamp
  · rw [onWorkspace]
    exact (born unborn).2

private theorem allFit_commitWritesPlan (writes : Except RepositoryError (List Write))
    (stamp : Nat) : state.AllFit (state.repo.commitWritesPlan hash writes stamp).writes := by
  cases writes with
  | error cause => trivial
  | ok writes =>
      rw [Repository.commitWritesPlan]
      cases written : (Transaction.beginWrite state.repo.workspace).writeAll writes with
      | error cause => trivial
      | ok txn =>
          apply allFit_commitPlan
          rw [← Transaction.writeAll_eq_stage written]
          exact Transaction.stage_base state.repo.workspace writes

private theorem allFit_resolveAllPlan (side : ResolveSide) :
    state.AllFit (state.repo.resolveAllPlan side).writes := by
  rw [Repository.resolveAllPlan]
  cases state.repo.mergeHead with
  | none => trivial
  | some theirs =>
      cases isTip : state.repo.headCommit with
      | none => trivial
      | some ours =>
          dsimp only
          rcases resolveConflictsFrom (side.source ours theirs)
            (.beginWrite state.repo.workspace) with cause | ⟨count, txn⟩
          · trivial
          · dsimp only
            split
            · apply allFit_andThen (allFit_savePlan txn fun _ unborn => ?_)
              · intro _ _
                trivial
              · rw [isTip] at unborn
                cases unborn
            · trivial

/-- The workspace is reset after `MERGE_HEAD` is gone. -/
private theorem allFit_reset {next : Workspace} (cleared : state.repo.mergeHead = none)
    (clean : next.conflicts = none) : state.AllFit [.workspace next .version] := by
  refine ⟨fun _ => ⟨fun _ => clean, fun _ => ⟨fun held isHeld => ?_, fun _ isSecond => ?_⟩⟩,
    trivial⟩
  · rw [cleared] at isHeld
    cases isHeld
  · cases isSecond

private theorem allFit_abortMergePlan : state.AllFit state.repo.abortMergePlan.writes := by
  rw [Repository.abortMergePlan]
  split
  · trivial
  cases isTip : state.repo.headCommit with
  | none => trivial
  | some ours =>
      have cleared : ∀ other : Traced, other.repo.mergeHead = state.repo.mergeHead →
          other.AllFit (state.repo.deleteMergeHead ++ [.workspace ours.checkedOut .version]) := by
        intro other same
        have deletes : other.repo.deleteMergeHead = state.repo.deleteMergeHead := by
          rw [Repository.deleteMergeHead, same, Repository.deleteMergeHead]
        rw [← deletes]
        refine atEach_append.mpr ⟨allFit_deleteMergeHead, allFit_reset ?_ rfl⟩
        rw [repo_foldl, Repository.writeAll_deleteMergeHead _ _ rfl]
      dsimp only
      split
      · refine ⟨fun _ => ⟨fun unborn => ?_, fun _ => ⟨trivial, fun _ isSecond => ?_⟩⟩,
          cleared _ rfl⟩
        · rw [isTip] at unborn
          cases unborn
        · cases isSecond
      · exact cleared state rfl

private theorem clean_resetWorkspaceToHead (repo : Repository) :
    repo.resetWorkspaceToHead.workspace.conflicts = none := by
  rw [Repository.resetWorkspaceToHead]
  cases repo.headCommit <;> rfl

private theorem allFit_discardWorkspacePlan :
    state.AllFit state.repo.discardWorkspacePlan.writes := by
  rw [Repository.discardWorkspacePlan]
  split
  · trivial
  · next idle =>
      split
      · exact allFit_reset (not_not.mp (not_or.mp idle).1) (clean_resetWorkspaceToHead _)
      · trivial

private theorem allFit_createBranchPlan (name : String) (target : Option Commit) :
    state.AllFit (state.repo.createBranchPlan name target).writes := by
  rw [Repository.createBranchPlan]
  rcases created : state.repo.createBranch name target with ⟨result, next⟩
  cases result with
  | error cause => trivial
  | ok commit =>
      have absent : state.repo.branches.get name = none := by
        rw [Repository.createBranch.eq_def] at created
        dsimp only at created
        split at created
        · cases created
        split at created
        · cases created
        · next free => exact not_not.mp free
      refine ⟨fun _ => ⟨.inl (Option.some_ne_none _), fun _ => ⟨fun isHead tip isTip => ?_,
        fun _ isSecond => ?_⟩⟩, trivial⟩
      · rw [isHead] at absent
        cases absent.symm.trans isTip
      · cases isSecond

private theorem allFit_deleteBranchPlan (name : String) :
    state.AllFit (state.repo.deleteBranchPlan name).writes := by
  rw [Repository.deleteBranchPlan]
  rcases deleted : state.repo.deleteBranch name with ⟨result, next⟩
  cases result with
  | error cause => trivial
  | ok commit =>
      have apart : name ≠ state.repo.head := by
        intro isHead
        rw [Repository.deleteBranch, if_pos isHead] at deleted
        cases deleted
      refine ⟨fun _ => ⟨.inr apart, fun _ => ⟨fun isHead => absurd isHead apart,
        fun _ isSecond => ?_⟩⟩, trivial⟩
      cases isSecond

private theorem allFit_reindexPlan : state.AllFit state.repo.reindexPlan.writes := by
  rw [Repository.reindexPlan]
  rcases rebuilt : state.repo.reindex with ⟨result, next⟩
  cases result with
  | error cause => trivial
  | ok done =>
      have conflicts : next.workspace.conflicts = state.repo.workspace.conflicts := by
        rw [Repository.reindex] at rebuilt
        split at rebuilt
        · cases rebuilt
        · cases rebuilt
          rfl
      dsimp only
      split
      · trivial
      · refine ⟨fun born => ⟨fun unborn => ?_, fun _ => ⟨trivial, fun _ isSecond => ?_⟩⟩,
          trivial⟩
        · rw [conflicts]
          exact (born unborn).2
        · cases isSecond

/-- Whether a merge that stops leaves no `MERGE_HEAD` behind that was not merged:
it has written nothing, has replaced or deleted `MERGE_HEAD`, or has brought it
into the history of the tip. -/
def mergeSpares (kind : Repository.MergeKind) (theirs held : Commit) (count : Nat) : Prop :=
  match kind with
  | .idle => True
  | .fastForward => count = 0 ∨ 2 ≤ count ∧ held ∈ theirs.ancestors
  | .clean => count = 0 ∨ 3 ≤ count ∧ held ∈ theirs.ancestors ∨ 4 ≤ count
  | .conflicted => count ≠ 1

/-- The same for a checkout, whose workspace write may have nothing to do. -/
def checkoutSpares (state : Traced) (name : String) (held : Commit) (count : Nat) : Prop :=
  match state.repo.branches.get name with
  | none => True
  | some target =>
      if state.repo.workspace = target.checkedOut then
        count = 0 ∨ state.merged = some held ∨ held ∈ target.ancestors
      else if state.repo.isDirty then True
      else count = 0 ∨ count = 1 ∧ state.repo.Past held ∨ 2 ≤ count ∧ held ∈ target.ancestors

/-- No merge, checkout or reset overwrites the workspace while `MERGE_HEAD` names a
commit outside the history of the tip. -/
def Undisturbed (hash : Commit → Nat) (state : Traced) : Operation → Nat → Prop
  | .merge theirs _, count => ∀ held, state.repo.mergeHead = some held →
      state.repo.Past held ∨ mergeSpares (state.repo.mergeKind hash theirs) theirs held count
  | .checkoutBranch name, count => ∀ held, state.repo.mergeHead = some held →
      checkoutSpares state name held count
  | .resetWorkspaceToHead, count => ∀ held, state.repo.mergeHead = some held →
      state.repo.Past held ∨ count = 0
  | _, _ => True

section

variable {theirs : Commit} {kind : Repository.MergeKind} {writes : List RefWrite}

private theorem records_of_none {made : RefWrite} (alone : made.secondParent = none) :
    state.Records made := by
  intro second isSecond
  rw [alone] at isSecond
  cases isSecond

/-- A merge has a branch wherever it stops, and the commit it writes names the
merged side. -/
private theorem merge_keepsBorn (shape : state.repo.MergeWrites theirs kind writes) :
    AtEach write (fun before made => before.repo.KeepsBorn made ∧ before.Records made) state
      writes := by
  have cleared : ∀ before : Traced, AtEach write
      (fun before made => before.repo.KeepsBorn made ∧ before.Records made) before
        state.repo.deleteMergeHead := by
    intro before
    rw [Repository.deleteMergeHead]
    split
    · exact ⟨⟨.inl rfl, records_of_none rfl⟩, trivial⟩
    · trivial
  cases shape with
  | idle => trivial
  | fastForward behind =>
      exact ⟨⟨fun _ => rfl, records_of_none rfl⟩,
        ⟨.inl (Option.some_ne_none _), records_of_none rfl⟩, trivial⟩
  | clean isTip isCommit =>
      refine ⟨⟨fun _ => rfl, records_of_none rfl⟩, ⟨trivial, fun second isSecond => ?_⟩,
        ⟨.inl (Option.some_ne_none _), records_of_none rfl⟩, cleared _⟩
      rw [isCommit] at isSecond
      exact isSecond
  | conflicted isTip fresh =>
      have born : ∀ {before : Repository}, before.headCommit = state.repo.headCommit →
          before.headCommit ≠ none := by
        intro before same
        rw [same, isTip]
        exact Option.some_ne_none _
      refine ⟨⟨fun unborn => absurd unborn (born rfl), records_of_none rfl⟩,
        atEach_append.mpr ⟨cleared _, ⟨.inr (born ?_), records_of_none rfl⟩, trivial⟩⟩
      rw [repo_foldl]
      refine (congrArg Repository.headCommit
        (Repository.writeAll_deleteMergeHead state.repo _ ?_)).trans ?_
      · rfl
      · rfl

private theorem keepsHeld_deleteMergeHead (repo : Repository) (before : Traced) :
    AtEach write (fun before made => before.KeepsHeld made) before repo.deleteMergeHead := by
  rw [Repository.deleteMergeHead]
  split
  · refine ⟨fun held cleared => ?_, trivial⟩
    cases cleared
  · trivial

private theorem merged_deleteMergeHead (repo : Repository) (before : Traced) :
    (repo.deleteMergeHead.foldl write before).merged = before.merged := by
  rw [Repository.deleteMergeHead]
  split <;> rfl

/-- While `MERGE_HEAD` is in the history of the tip, a merge may stop anywhere. -/
private theorem merge_keepsHeld (shape : state.repo.MergeWrites theirs kind writes)
    (past : ∀ held, state.repo.mergeHead = some held → state.repo.Past held) :
    Throughout write Held state writes := by
  have each : AtEach write (fun before made => before.KeepsHeld made) state writes := by
    cases shape with
    | idle => trivial
    | fastForward behind =>
        refine ⟨fun held isHeld => .inr (past held isHeld), fun _ tip isTip => ?_, trivial⟩
        exact ⟨theirs, rfl, behind tip isTip⟩
    | clean isTip isCommit =>
        refine ⟨fun held isHeld => .inr (past held isHeld), trivial, fun _ tip again => ?_, ?_⟩
        · cases isTip.symm.trans again
          rw [isCommit]
          exact ⟨_, rfl, List.mem_cons_of_mem _
            (List.mem_append_left _ (Commit.mem_ancestors_self _))⟩
        · exact keepsHeld_deleteMergeHead _ _
    | conflicted isTip fresh =>
        refine ⟨fun held isHeld => .inr (past held isHeld),
          atEach_append.mpr ⟨keepsHeld_deleteMergeHead _ _, fun held isHeld => .inl ?_, trivial⟩⟩
        cases isHeld
        exact merged_deleteMergeHead _ _
  exact throughout_of_atEach (each.mono fun _ _ keeps holds => holds.write keeps)
    fun held isHeld => .inr (past held isHeld)

/-- Otherwise it has to get far enough. -/
private theorem held_of_mergeSpares (shape : state.repo.MergeWrites theirs kind writes)
    (holds : state.Held) {held : Commit} (isHeld : state.repo.mergeHead = some held)
    {count : Nat} (spares : mergeSpares kind theirs held count) :
    (stopped write state writes count).Held := by
  have cleared : state.repo.deleteMergeHead = [.mergeHead none] := by
    rw [Repository.deleteMergeHead, isHeld]
    rfl
  cases shape with
  | idle =>
      rw [stopped_nil]
      exact holds
  | fastForward behind =>
      rcases spares with rfl | ⟨far, past⟩
      · exact holds
      · obtain ⟨count, rfl⟩ := Nat.exists_eq_add_of_le' far
        rw [stopped_cons, stopped_cons, stopped_nil]
        intro other isOther
        cases isHeld.symm.trans isOther
        exact .inr ⟨theirs, (SortedMap.get_put _ _ _ _).trans (if_pos rfl), past⟩
  | @clean ours commit merged stamp isTip isCommit =>
      rw [cleared]
      rcases spares with rfl | ⟨far, past⟩ | far
      · exact holds
      · obtain ⟨count, rfl⟩ := Nat.exists_eq_add_of_le' far
        rw [stopped_cons, stopped_cons, stopped_cons]
        cases count with
        | zero =>
            intro other isOther
            cases isHeld.symm.trans isOther
            refine .inr ⟨commit, (SortedMap.get_put _ _ _ _).trans (if_pos rfl), ?_⟩
            rw [isCommit]
            exact List.mem_cons_of_mem _ (List.mem_append_right _ past)
        | succ count =>
            rw [stopped_cons, stopped_nil]
            intro other isOther
            cases isOther
      · obtain ⟨count, rfl⟩ := Nat.exists_eq_add_of_le' far
        rw [stopped_cons, stopped_cons, stopped_cons, stopped_cons, stopped_nil]
        intro other isOther
        cases isOther
  | conflicted isTip fresh =>
      rw [cleared]
      rcases count with _ | _ | _ | count
      · exact holds
      · exact absurd rfl spares
      · intro other isOther
        cases isOther
      · rw [List.cons_append, List.nil_append, stopped_cons, stopped_cons, stopped_cons,
          stopped_nil]
        intro other isOther
        exact .inl isOther

end

/-! A checkout and a reset. -/

private theorem checkout_keepsBorn (name : String) :
    AtEach write (fun before made => before.repo.KeepsBorn made ∧ before.Records made) state
      (state.repo.checkoutBranchPlan name).writes := by
  rw [Repository.checkoutBranchPlan]
  cases found : state.repo.branches.get name with
  | none =>
      dsimp only
      split
      · next same => cases same
      split
      · trivial
      · trivial
  | some target =>
      have present : state.repo.branches.get name ≠ none := by
        rw [found]
        exact Option.some_ne_none _
      dsimp only
      split
      · exact ⟨⟨present, records_of_none rfl⟩, trivial⟩
      split
      · trivial
      · exact ⟨⟨fun _ => rfl, records_of_none rfl⟩, ⟨present, records_of_none rfl⟩, trivial⟩

private theorem held_of_checkoutSpares (holds : state.Held) (name : String) (count : Nat)
    (spares : ∀ held, state.repo.mergeHead = some held → checkoutSpares state name held count) :
    (stopped write state (state.repo.checkoutBranchPlan name).writes count).Held := by
  rw [Repository.checkoutBranchPlan]
  cases found : state.repo.branches.get name with
  | none =>
      dsimp only
      split
      · next same => cases same
      split
      · rw [Plan.fail, stopped_nil]
        exact holds
      · rw [Plan.fail, stopped_nil]
        exact holds
  | some target =>
      simp only [checkoutSpares, found] at spares
      dsimp only
      split
      · next same =>
          have isTarget : state.repo.workspace = target.checkedOut := of_decide_eq_true same
          cases count with
          | zero => exact holds
          | succ count =>
              rw [stopped_cons, stopped_nil]
              intro held isHeld
              have spared := spares held isHeld
              rw [if_pos isTarget] at spared
              exact (spared.resolve_left (Nat.succ_ne_zero count)).imp_right
                fun past => ⟨target, found, past⟩
      split
      · rw [Plan.fail, stopped_nil]
        exact holds
      · next differs clean =>
          have isOther : state.repo.workspace ≠ target.checkedOut :=
            fun same => differs (decide_eq_true same)
          simp only [if_neg isOther, clean] at spares
          rcases count with _ | _ | count
          · exact holds
          · intro held isHeld
            have spared := spares held isHeld
            simp at spared
            exact .inr spared
          · rw [stopped_cons, stopped_cons, stopped_nil]
            intro held isHeld
            have spared := spares held isHeld
            simp at spared
            exact .inr ⟨target, found, spared⟩

private theorem held_of_reset (holds : state.Held) (count : Nat)
    (spares : ∀ held, state.repo.mergeHead = some held → state.repo.Past held ∨ count = 0) :
    (stopped write state state.repo.resetWorkspaceToHeadPlan.writes count).Held := by
  rw [Repository.resetWorkspaceToHeadPlan]
  cases count with
  | zero => exact holds
  | succ count =>
      rw [stopped_cons, stopped_nil]
      intro held isHeld
      exact .inr ((spares held isHeld).resolve_right (Nat.succ_ne_zero count))

/-- The operations that do not overwrite the workspace while `MERGE_HEAD` is set. -/
def Quiet : Operation → Prop
  | .merge _ _ => False
  | .checkoutBranch _ => False
  | .resetWorkspaceToHead => False
  | _ => True

theorem allFit_of_quiet {operation : Operation} (quiet : Quiet operation) :
    state.AllFit (state.repo.writesOf hash operation) := by
  cases operation with
  | save writes =>
      apply allFit_savePlan
      intro born unborn
      rw [Transaction.stage_base]
      exact (born unborn).2
  | commit writes allowEmpty stamp =>
      exact allFit_commitPlan _ allowEmpty stamp (Transaction.stage_base _ _)
  | merge theirs stamp => cases quiet
  | resolveAll side => exact allFit_resolveAllPlan side
  | abortMerge => exact allFit_abortMergePlan
  | discardWorkspace => exact allFit_discardWorkspacePlan
  | resetWorkspaceToHead => cases quiet
  | checkoutBranch name => cases quiet
  | createBranch name target => exact allFit_createBranchPlan name target
  | deleteBranch name => exact allFit_deleteBranchPlan name
  | rekey old new stamp => exact allFit_commitWritesPlan _ stamp
  | renameRelType old new policy stamp => exact allFit_commitWritesPlan _ stamp
  | reindex => exact allFit_reindexPlan

/-- Whether there is a tip to go back to, and what the commits record. -/
def Sound (state : Traced) : Prop := state.repo.Born ∧ state.Held

theorem AllFit.sound {writes : List RefWrite} (all : state.AllFit writes) (sound : state.Sound) :
    Throughout write Sound state writes ∧ AtEach write Records state writes := by
  have each : AtEach write (fun before made => before.Sound →
      before.Records made ∧ (before.write made).Sound) state writes := by
    refine all.mono fun before made fits both => ?_
    obtain ⟨keepsBorn, keeps⟩ := fits both.1
    obtain ⟨keepsHeld, records⟩ := keeps both.2
    exact ⟨records, both.1.write keepsBorn, both.2.write keepsHeld⟩
  exact ⟨throughout_of_atEach (each.mono fun _ _ kept both => (kept both).2) sound,
    each.of_kept sound⟩

private theorem born_throughout {writes : List RefWrite} (born : state.repo.Born)
    (each : AtEach write (fun before made => before.repo.KeepsBorn made ∧ before.Records made)
      state writes) : Throughout write (fun state => state.repo.Born) state writes :=
  throughout_of_atEach (each.mono fun _ _ keeps now => now.write keeps.1) born

private theorem reset_keepsBorn :
    AtEach write (fun before made => before.repo.KeepsBorn made ∧ before.Records made) state
      state.repo.resetWorkspaceToHeadPlan.writes :=
  ⟨⟨fun _ => clean_resetWorkspaceToHead _, records_of_none rfl⟩, trivial⟩

theorem born_perform (born : state.repo.Born) (operation : Operation) (count : Nat) :
    (state.perform hash operation count).repo.Born := by
  by_cases quiet : Quiet operation
  · have each : AtEach write (fun before made => before.repo.Born → (before.write made).repo.Born)
        state (state.repo.writesOf hash operation) :=
      (allFit_of_quiet quiet).mono fun _ _ fits now => Repository.Born.write now (fits now).1
    exact @throughout_of_atEach _ _ write state _ (fun state => state.repo.Born) each born count
  · cases operation with
    | merge theirs stamp =>
        exact born_throughout born (merge_keepsBorn (Repository.mergeWrites theirs stamp)) count
    | checkoutBranch name => exact born_throughout born (checkout_keepsBorn name) count
    | resetWorkspaceToHead => exact born_throughout born reset_keepsBorn count
    | _ => exact absurd trivial quiet

/-- An operation keeps this wherever it stops, if it overwrites no workspace that
`MERGE_HEAD` stands for. -/
theorem Sound.perform (sound : state.Sound) {operation : Operation} {count : Nat}
    (undisturbed : Undisturbed hash state operation count) :
    (state.perform hash operation count).Sound := by
  by_cases quiet : Quiet operation
  · exact ((allFit_of_quiet quiet).sound sound).1 count
  · refine ⟨born_perform sound.1 operation count, ?_⟩
    cases operation with
    | merge theirs stamp =>
        have shape := @Repository.mergeWrites hash state.repo theirs stamp
        cases isHeld : state.repo.mergeHead with
        | none =>
            refine merge_keepsHeld shape (fun held again => ?_) count
            rw [isHeld] at again
            cases again
        | some held =>
            rcases undisturbed held isHeld with past | spares
            · refine merge_keepsHeld shape (fun other again => ?_) count
              cases isHeld.symm.trans again
              exact past
            · exact held_of_mergeSpares shape sound.2 isHeld spares
    | checkoutBranch name => exact held_of_checkoutSpares sound.2 name count undisturbed
    | resetWorkspaceToHead => exact held_of_reset sound.2 count undisturbed
    | _ => exact absurd trivial quiet

/-- Whatever an operation writes records second parents rightly. -/
theorem Sound.records (sound : state.Sound) (operation : Operation) :
    AtEach write Records state (state.repo.writesOf hash operation) := by
  by_cases quiet : Quiet operation
  · exact ((allFit_of_quiet quiet).sound sound).2
  · cases operation with
    | merge theirs stamp =>
        exact (merge_keepsBorn (Repository.mergeWrites theirs stamp)).mono fun _ _ => And.right
    | checkoutBranch name => exact (checkout_keepsBorn name).mono fun _ _ => And.right
    | resetWorkspaceToHead => exact reset_keepsBorn.mono fun _ _ => And.right
    | _ => exact absurd trivial quiet

theorem Run.born {allowed : Traced → Operation → Nat → Prop} (run : state.Run hash allowed) :
    state.repo.Born := by
  induction run with
  | init => exact fun _ => ⟨rfl, rfl⟩
  | step _ _ ih => exact born_perform ih _ _

theorem Run.sound (run : state.Run hash (Undisturbed hash)) : state.Sound := by
  induction run with
  | init => exact ⟨fun _ => ⟨rfl, rfl⟩, fun held isHeld => by cases isHeld⟩
  | step _ undisturbed ih => exact ih.perform undisturbed

end Traced

namespace Repository

variable {hash : Commit → Nat} {repo : Repository} {tip : Commit}

theorem abortMerge_of_tip (isTip : repo.headCommit = some tip)
    (merging : repo.mergeHead ≠ none ∨ repo.workspace.conflicts ≠ none) :
    repo.abortMerge =
      (.ok (), { repo with mergeHead := none, workspace := tip.checkedOut }) := by
  have started : ¬ (repo.mergeHead = none ∧ repo.workspace.conflicts = none) :=
    fun both => merging.elim (fun held => held both.1) fun marked => marked both.2
  rw [abortMerge, if_neg started, isTip]

/-- Under way from a state to its aborted one: what is left reads as a merge, or is
the aborted state. -/
def Aborting (repo : Repository) (tip : Commit) (left : Repository) : Prop :=
  ∃ mergeHead workspace, left = { repo with mergeHead := mergeHead, workspace := workspace } ∧
    (mergeHead = none → workspace.conflicts = none → workspace = tip.checkedOut)

theorem Aborting.finishes {left : Repository} (aborting : repo.Aborting tip left)
    (isTip : repo.headCommit = some tip) :
    left.abortMerge.2 = { repo with mergeHead := none, workspace := tip.checkedOut } := by
  obtain ⟨mergeHead, workspace, rfl, complete⟩ := aborting
  by_cases merging : mergeHead ≠ none ∨ workspace.conflicts ≠ none
  · rw [@abortMerge_of_tip { repo with mergeHead := mergeHead, workspace := workspace } tip isTip
      merging]
  · rw [not_or, not_not, not_not] at merging
    rw [abortMerge, if_pos merging, complete merging.1 merging.2, merging.1]

theorem aborting_throughout (isTip : repo.headCommit = some tip)
    (merging : repo.mergeHead ≠ none ∨ repo.workspace.conflicts ≠ none) :
    Throughout write (repo.Aborting tip) repo repo.abortMergePlan.writes := by
  have started : ¬ (repo.mergeHead = none ∧ repo.workspace.conflicts = none) :=
    fun both => merging.elim (fun held => held both.1) fun marked => marked both.2
  rw [abortMergePlan, if_neg started, isTip]
  obtain ⟨head, branches, commits, ⟨manifest, conflicts⟩, mergeHead⟩ := repo
  have final : ∀ {start : Repository}, start.Aborting tip
      { start with mergeHead := none, workspace := tip.checkedOut } :=
    fun {start} => ⟨none, tip.checkedOut, rfl, fun _ _ => rfl⟩
  cases conflicts with
  | none =>
      cases mergeHead with
      | none => exact absurd ⟨rfl, rfl⟩ started
      | some held =>
          change Throughout write _ _ [.workspace _ .kept, .mergeHead none,
            .workspace tip.checkedOut .version]
          refine throughout_cons.mpr ⟨⟨_, _, rfl, ?_⟩, throughout_cons.mpr ⟨⟨some held, _, rfl, ?_⟩,
            throughout_cons.mpr ⟨⟨none, _, rfl, ?_⟩, throughout_nil.mpr final⟩⟩⟩
          · intro cleared
            cases cleared
          · intro cleared
            cases cleared
          · intro _ clean
            cases clean
  | some found =>
      cases mergeHead with
      | none =>
          change Throughout write _ _ [.workspace tip.checkedOut .version]
          refine throughout_cons.mpr ⟨⟨_, _, rfl, ?_⟩, throughout_nil.mpr final⟩
          intro _ clean
          cases clean
      | some held =>
          change Throughout write _ _ [.mergeHead none, .workspace tip.checkedOut .version]
          refine throughout_cons.mpr ⟨⟨_, _, rfl, ?_⟩,
            throughout_cons.mpr ⟨⟨none, _, rfl, ?_⟩, throughout_nil.mpr final⟩⟩
          · intro cleared
            cases cleared
          · intro _ clean
            cases clean

private theorem abort_idle (idle : ¬ (repo.mergeHead ≠ none ∨ repo.workspace.conflicts ≠ none))
    (count : Nat) : stopped write repo (repo.writesOf hash .abortMerge) count = repo := by
  rw [not_or, not_not, not_not] at idle
  rw [writesOf, abortMergePlan, if_pos idle, Plan.fail, stopped_nil]

theorem Aborting.stopped {left : Repository} (aborting : repo.Aborting tip left)
    (isTip : repo.headCommit = some tip) (count : Nat) :
    repo.Aborting tip (stopped write left (left.writesOf hash .abortMerge) count) := by
  by_cases merging : left.mergeHead ≠ none ∨ left.workspace.conflicts ≠ none
  · have leftTip : left.headCommit = some tip := by
      obtain ⟨mergeHead, workspace, rfl, -⟩ := aborting
      exact isTip
    obtain ⟨mergeHead, workspace, isLeft, complete⟩ := aborting_throughout leftTip merging count
    obtain ⟨_, _, rfl, -⟩ := aborting
    exact ⟨mergeHead, workspace, isLeft, complete⟩
  · rw [abort_idle merging]
    exact aborting

/-- An abort that was interrupted, any number of times, is finished by another
one. -/
theorem abort_resumes (born : repo.Born) (stops : List Nat) :
    (stops.foldl (fun left count => stopped write left (left.writesOf hash .abortMerge) count)
      repo).perform hash .abortMerge = repo.perform hash .abortMerge := by
  by_cases merging : repo.mergeHead ≠ none ∨ repo.workspace.conflicts ≠ none
  · cases isTip : repo.headCommit with
    | none =>
        obtain ⟨cleared, clean⟩ := born isTip
        exact absurd merging (not_or.mpr ⟨not_not.mpr cleared, not_not.mpr clean⟩)
    | some tip =>
        have aborting : ∀ left, repo.Aborting tip left → repo.Aborting tip (stops.foldl
            (fun left count => stopped write left (left.writesOf hash .abortMerge) count) left) := by
          intro left isLeft
          induction stops generalizing left with
          | nil => exact isLeft
          | cons count stops ih => exact ih _ (isLeft.stopped isTip count)
        have start : repo.Aborting tip repo := ⟨_, _, rfl, fun cleared clean =>
          absurd merging (not_or.mpr ⟨not_not.mpr cleared, not_not.mpr clean⟩)⟩
        exact ((aborting repo start).finishes isTip).trans (start.finishes isTip).symm
  · have still : stops.foldl
        (fun left count => stopped write left (left.writesOf hash .abortMerge) count) repo =
          repo := by
      induction stops with
      | nil => rfl
      | cons count stops ih => rw [List.foldl_cons, abort_idle merging, ih]
    rw [still]

end Repository

namespace Traced

variable {state : Traced}

/-- Whatever ran and wherever it stopped, a merge in progress can be aborted to the
tip, and an abort that was interrupted is finished by another one.  If no step
overwrote the workspace while `MERGE_HEAD` stood for it, every commit with a second
parent was made from the merge of that parent. -/
theorem merge_recoverable (hash : Commit → Nat) :
    (∀ allowed, ∀ state : Traced, state.Run hash allowed →
      (state.repo.mergeHead ≠ none ∨ state.repo.workspace.conflicts ≠ none →
        ∃ tip, state.repo.headCommit = some tip ∧ state.repo.abortMerge =
          (.ok (), { state.repo with mergeHead := none, workspace := tip.checkedOut })) ∧
      ∀ stops : List Nat,
        (stops.foldl (fun left count =>
          stopped Repository.write left (left.writesOf hash .abortMerge) count)
            state.repo).perform hash .abortMerge = state.repo.perform hash .abortMerge) ∧
      ∀ state : Traced, state.Run hash (Undisturbed hash) → ∀ operation,
        AtEach write Records state (state.repo.writesOf hash operation) := by
  refine ⟨fun allowed state run => ⟨fun merging => ?_, fun stops => ?_⟩,
    fun state run operation => run.sound.records operation⟩
  · cases isTip : state.repo.headCommit with
    | none =>
        obtain ⟨cleared, clean⟩ := run.born isTip
        exact absurd merging (not_or.mpr ⟨not_not.mpr cleared, not_not.mpr clean⟩)
    | some tip => exact ⟨tip, rfl, Repository.abortMerge_of_tip isTip merging⟩
  · exact Repository.abort_resumes run.born stops

def after (hash : Commit → Nat) (steps : List (Operation × Nat)) : Traced :=
  steps.foldl (fun state step => state.perform hash step.1 step.2) ⟨.init, none⟩

theorem run_after (hash : Commit → Nat) (steps : List (Operation × Nat)) :
    (after hash steps).Run hash fun _ _ _ => True := by
  have from_ : ∀ state : Traced, state.Run hash (fun _ _ _ => True) →
      (steps.foldl (fun state step => state.perform hash step.1 step.2) state).Run hash
        fun _ _ _ => True := by
    induction steps with
    | nil => exact fun _ run => run
    | cons step steps ih => exact fun state run => ih _ (.step run trivial)
  exact from_ _ .init

private theorem not_records {writes : List RefWrite} {count : Nat} {theirs : Commit}
    (names : (writes[count]?).bind RefWrite.secondParent = some theirs)
    (apart : (stopped write state writes count).merged = none) :
    ¬ AtEach write Records state writes := by
  intro all
  obtain ⟨made, isWrite, isSecond⟩ := Option.bind_eq_some_iff.mp names
  cases apart.symm.trans (all.get isWrite theirs isSecond)

/-! A merge that stops, and a resolution to ours that leaves the workspace as the tip,
which reads as clean, so another branch can be checked out under the merge. -/

def threeBranches : List (Operation × Nat) :=
  [(.commit [.putNode (person 1) (mailOf "a")] false 0, 9),
    (.createBranch "side" none, 9), (.createBranch "other" none, 9),
    (.checkoutBranch "side", 9), (.commit [.putNode (person 1) (mailOf "b")] false 1, 9),
    (.checkoutBranch "main", 9), (.commit [.putNode (person 1) (mailOf "c")] false 2, 9)]

def tipOf (name : String) : Commit :=
  ((after Repository.sampleHash threeBranches).repo.branches.get name).getD
    (.initial blank.manifest 0)

/-- A merge that stops between the workspace and `MERGE_HEAD`. -/
def halted : Traced :=
  after Repository.sampleHash (threeBranches ++ [(.merge (tipOf "side") 3, 1)])

/-- An abort of it, and one that stops after one write and is repeated. -/
theorem merge_recoverable_halted :
    (halted.repo.mergeHead = none ∧ halted.repo.workspace.conflicts ≠ none) ∧
      halted.repo.abortMerge =
        (.ok (), { halted.repo with mergeHead := none, workspace := (tipOf "main").checkedOut }) ∧
      (stopped Repository.write halted.repo
        (halted.repo.writesOf Repository.sampleHash .abortMerge) 1).perform
          Repository.sampleHash .abortMerge =
        halted.repo.perform Repository.sampleHash .abortMerge := by
  have merging : halted.repo.mergeHead = none ∧ halted.repo.workspace.conflicts ≠ none := by
    decide +kernel
  have isTip : halted.repo.headCommit = some (tipOf "main") := by decide +kernel
  obtain ⟨aborts, resumes⟩ := (merge_recoverable Repository.sampleHash).1 _ halted
    (run_after _ _)
  obtain ⟨tip, found, aborted⟩ := aborts (.inr merging.2)
  cases isTip.symm.trans found
  exact ⟨merging, aborted, resumes [1]⟩

def strandedSteps : List (Operation × Nat) :=
  threeBranches ++
    [(.merge (tipOf "side") 3, 9), (.resolveAll .ours, 9), (.checkoutBranch "other", 9)]

def stranded : Traced := after Repository.sampleHash strandedSteps

def laterCommit : Operation := .commit [.putNode (person 2) (mailOf "d")] false 4

def laterWrites : List RefWrite := stranded.repo.writesOf Repository.sampleHash laterCommit

private theorem later_names_side :
    (laterWrites[1]?).bind RefWrite.secondParent = some (tipOf "side") := by
  decide +kernel

private theorem later_not_merged : (stopped write stranded laterWrites 1).merged = none := by
  decide +kernel

/-- The next commit on the third branch names the other side as its second parent. -/
theorem commit_records_stranded_merge :
    stranded.Run Repository.sampleHash (fun _ _ _ => True) ∧
      ¬ AtEach write Records stranded
        (stranded.repo.writesOf Repository.sampleHash laterCommit) := by
  exact ⟨run_after _ _, not_records later_names_side later_not_merged⟩

end Traced

end Acetone.Graph

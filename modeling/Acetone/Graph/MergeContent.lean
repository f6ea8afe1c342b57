import Acetone.Graph.MergeRecovery

/-!
# The content of a merge in later commits

Saves and commits that follow a merge work on its result.  As long as the merged
side is in the history of the tip, or something makes the next commit conclude the
merge or be refused, no ordinary commit takes the result without the side it came
from.
-/

namespace Acetone.Graph

open Acetone.Lib Acetone.Model

/-- An ordinary commit has the merged side in its history. -/
def Accounts (theirs : Commit) : RefWrite → Prop
  | .object (.merged _ _ _ _) => True
  | .object (.initial manifest stamp) => theirs ∈ (Commit.initial manifest stamp).ancestors
  | .object (.child parent manifest stamp) =>
      theirs ∈ (Commit.child parent manifest stamp).ancestors
  | .workspace _ _ => True
  | .mergeHead _ => True
  | .branch _ _ => True
  | .head _ => True

/-- Saves and commits, whatever they are made for. -/
def Operation.IsWork : Operation → Prop
  | .save _ => True
  | .commit _ _ _ => True
  | .rekey _ _ _ => True
  | .renameRelType _ _ _ _ => True
  | .reindex => True
  | _ => False

/-- Where a merge ends before its end: after some of its writes, or where the branch
is found to have moved to another commit. -/
inductive MergeStop where
  | after (count : Nat)
  | lost (rival : Commit)
deriving DecidableEq

def RefWrite.isBranch : RefWrite → Bool
  | .branch _ _ => true
  | .object _ => false
  | .workspace _ _ => false
  | .mergeHead _ => false
  | .head _ => false

namespace Repository

section

variable (hash : Commit → Nat)

/-- What is left of writes that stop.  A branch that has moved is left where it
is. -/
def stopAt (repo : Repository) (writes : List RefWrite) : MergeStop → Repository
  | .after count => stopped write repo writes count
  | .lost rival =>
      (repo.writeAll (writes.takeWhile fun made => ¬ made.isBranch)).write
        (.branch repo.head (some rival))

def stopMerge (repo : Repository) (theirs : Commit) (stamp : Nat) (stop : MergeStop) :
    Repository :=
  repo.stopAt (repo.mergePlan hash theirs stamp).writes stop

/-- The states that saves and commits lead to, each of which may stop. -/
inductive Worked (start : Repository) : Repository → Prop
  | refl : Worked start start
  | step {repo : Repository} {operation : Operation} (count : Nat) : Worked start repo →
      operation.IsWork →
        Worked start (stopped write repo (repo.writesOf hash operation) count)

end

/-- The merge does not stop between its workspace write and the write that accounts
for it: the branch, or the removal of an older `MERGE_HEAD`. -/
def Lands (repo : Repository) (kind : MergeKind) (theirs : Commit) : MergeStop → Prop
  | .after count =>
      match kind with
      | .idle => True
      | .fastForward => count ≠ 1
      | .clean => count ≠ 1 ∧ count ≠ 2
      | .conflicted => repo.mergeHead = none ∨ count ≠ 1
  | .lost rival => (kind = .fastForward ∨ kind = .clean) ∧ theirs ∈ rival.ancestors

/-- What keeps a merge's result from being committed alone. -/
def Sealed (theirs : Commit) (repo : Repository) : Prop :=
  repo.Past theirs ∨ repo.mergeHead = some theirs ∨
    repo.mergeHead = none ∧ repo.workspace.conflicts.isSome

abbrev Covered (theirs : Commit) (repo : Repository) (writes : List RefWrite) : Prop :=
  AtEach write (fun before made => Accounts theirs made ∧ Sealed theirs (before.write made))
    repo writes

variable {hash : Commit → Nat} {repo : Repository} {theirs : Commit}

theorem Covered.throughout {writes : List RefWrite} (covered : Covered theirs repo writes)
    (now : Sealed theirs repo) : Throughout write (Sealed theirs) repo writes :=
  throughout_of_atEach (covered.mono fun _ _ each _ => each.2) now

theorem covered_andThen {α β : Type} {first : Plan α} {next : α → Repository → Plan β}
    (start : Covered theirs repo first.writes)
    (rest : ∀ value, first.result = .ok value →
      Covered theirs (repo.writeAll first.writes) (next value (repo.writeAll first.writes)).writes) :
    Covered theirs repo (first.andThen repo next).writes := by
  rw [Plan.andThen]
  cases result : first.result with
  | error cause => exact start
  | ok value => exact atEach_append.mpr ⟨start, rest value result⟩

private theorem covered_savePlan (sealing : Sealed theirs repo) {txn : Transaction}
    (onWorkspace : txn.base = repo.workspace) : Covered theirs repo (repo.savePlan txn).writes := by
  rw [savePlan]
  cases saved : txn.saveInPlace repo.mergeHead.isSome with
  | error cause => trivial
  | ok next =>
      dsimp only
      split
      · trivial
      · next changed =>
          refine ⟨⟨trivial, ?_⟩, trivial⟩
          rcases sealing with past | held | ⟨cleared, marked⟩
          · exact .inl past
          · exact .inr (.inl held)
          · rw [Transaction.saveInPlace, cleared, onWorkspace] at saved
            split at saved
            · cases saved
              exact absurd rfl changed
            · rw [if_pos ⟨marked, Bool.false_ne_true⟩] at saved
              cases saved

theorem past_write_branch {next : Commit} (known : theirs ∈ next.ancestors) :
    (repo.write (.branch repo.head (some next))).Past theirs :=
  ⟨next, (SortedMap.get_put _ _ _ _).trans (if_pos rfl), known⟩

private theorem covered_completeOrdinaryPlan (sealing : Sealed theirs repo)
    (cleared : repo.mergeHead = none) (allowEmpty : Bool) (stamp : Nat) :
    Covered theirs repo (repo.completeOrdinaryPlan allowEmpty stamp).writes := by
  rw [completeOrdinaryPlan]
  split
  · trivial
  · next unmarked =>
      split
      · trivial
      · have past : repo.Past theirs := by
          rcases sealing with past | held | marked
          · exact past
          · rw [cleared] at held
            cases held
          · exact absurd marked.2 unmarked
        obtain ⟨tip, isTip, known⟩ := past
        have grown : theirs ∈ (Commit.child tip repo.workspace.manifest stamp).ancestors :=
          List.mem_cons_of_mem _ known
        rw [isTip]
        exact ⟨⟨grown, .inl ⟨tip, isTip, known⟩⟩, ⟨trivial, .inl (past_write_branch grown)⟩,
          trivial⟩

private theorem covered_deleteMergeHead (past : repo.Past theirs) :
    Covered theirs repo repo.deleteMergeHead := by
  rw [deleteMergeHead]
  split
  · exact ⟨⟨trivial, .inl past⟩, trivial⟩
  · trivial

private theorem covered_conclusion {ours held : Commit} {manifest : Manifest} {stamp : Nat}
    (isTip : repo.headCommit = some ours) (isHeld : repo.mergeHead = some held)
    (sealing : repo.Past theirs ∨ held = theirs) :
    Covered theirs repo [.object (.merged ours held manifest stamp),
      .branch repo.head (some (.merged ours held manifest stamp)), .mergeHead none] := by
  have known : theirs ∈ (Commit.merged ours held manifest stamp).ancestors := by
    rcases sealing with ⟨tip, again, past⟩ | rfl
    · cases isTip.symm.trans again
      exact List.mem_cons_of_mem _ (List.mem_append_left _ past)
    · exact List.mem_cons_of_mem _ (List.mem_append_right _ (Commit.mem_ancestors_self held))
  refine ⟨⟨trivial, ?_⟩, ⟨trivial, .inl (past_write_branch known)⟩,
    ⟨trivial, .inl (past_write_branch known)⟩, trivial⟩
  rcases sealing with past | rfl
  · exact .inl past
  · exact .inr (.inl isHeld)

/-- The merge that is concluded is the sealed one, unless that is in the history
already. -/
private theorem covered_completeMergePlan (sealing : Sealed theirs repo) {held : Commit}
    (isHeld : repo.mergeHead = some held) (stamp : Nat) :
    Covered theirs repo (repo.completeMergePlan hash held stamp).writes := by
  have known : repo.Past theirs ∨ held = theirs := by
    rcases sealing with past | again | marked
    · exact .inl past
    · exact .inr (Option.some.inj (isHeld.symm.trans again))
    · rw [isHeld] at marked
      cases marked.1
  rw [completeMergePlan]
  cases passed : checkCompletion hash repo.workspace repo.headCommit held with
  | error cause => trivial
  | ok ours =>
      have isTip := Traced.headCommit_of_checkCompletion passed
      have cleared : repo.deleteMergeHead = [.mergeHead none] := by
        rw [deleteMergeHead, isHeld]
        rfl
      dsimp only
      rw [cleared]
      split
      · refine ⟨⟨trivial, ?_⟩, ?_⟩
        · rcases known with past | rfl
          · exact .inl past
          · exact .inr (.inl isHeld)
        · exact @covered_conclusion (repo.write _) theirs ours held _ stamp isTip isHeld known
      · exact covered_conclusion isTip isHeld known

private theorem covered_commitSavedPlan (sealing : Sealed theirs repo) (allowEmpty : Bool)
    (stamp : Nat) : Covered theirs repo (repo.commitSavedPlan hash allowEmpty stamp).writes := by
  rw [commitSavedPlan]
  cases isHeld : repo.mergeHead with
  | none => exact covered_completeOrdinaryPlan sealing isHeld allowEmpty stamp
  | some held =>
      dsimp only
      split
      · next stale =>
          have past : repo.Past theirs := by
            rcases sealing with past | again | marked
            · exact past
            · cases isHeld.symm.trans again
              obtain ⟨tip, isTip, isAncestor⟩ := (Option.any_eq_true _ _).mp stale
              exact ⟨tip, isTip, of_decide_eq_true isAncestor⟩
            · rw [isHeld] at marked
              cases marked.1
          apply covered_andThen (covered_deleteMergeHead past)
          intro _ _
          rw [writeAll_deleteMergeHead repo repo rfl]
          exact @covered_completeOrdinaryPlan { repo with mergeHead := none } theirs (.inl past) rfl
            allowEmpty stamp
      · exact covered_completeMergePlan sealing isHeld stamp

private theorem covered_commitPlan (sealing : Sealed theirs repo) {txn : Transaction}
    (onWorkspace : txn.base = repo.workspace) (allowEmpty : Bool) (stamp : Nat) :
    Covered theirs repo (repo.commitPlan hash txn allowEmpty stamp).writes := by
  have saves := covered_savePlan sealing onWorkspace
  apply covered_andThen saves
  intro _ _
  exact covered_commitSavedPlan (saves.throughout sealing).finally allowEmpty stamp

private theorem covered_commitWritesPlan (sealing : Sealed theirs repo)
    (writes : Except RepositoryError (List Write)) (stamp : Nat) :
    Covered theirs repo (repo.commitWritesPlan hash writes stamp).writes := by
  cases writes with
  | error cause => trivial
  | ok writes =>
      rw [commitWritesPlan]
      cases written : (Transaction.beginWrite repo.workspace).writeAll writes with
      | error cause => trivial
      | ok txn =>
          apply covered_commitPlan sealing
          rw [← Transaction.writeAll_eq_stage written]
          exact Transaction.stage_base repo.workspace writes

private theorem covered_reindexPlan (sealing : Sealed theirs repo) :
    Covered theirs repo repo.reindexPlan.writes := by
  rw [reindexPlan]
  rcases rebuilt : repo.reindex with ⟨result, next⟩
  rw [reindex] at rebuilt
  split at rebuilt
  · cases rebuilt
    trivial
  · cases rebuilt
    dsimp only
    split
    · trivial
    · exact ⟨⟨trivial, sealing⟩, trivial⟩

/-- Whatever a save or commit writes accounts for a sealed merge. -/
theorem covered_writesOf (sealing : Sealed theirs repo) {operation : Operation}
    (works : operation.IsWork) : Covered theirs repo (repo.writesOf hash operation) := by
  cases operation with
  | save writes => exact covered_savePlan sealing (Transaction.stage_base repo.workspace writes)
  | commit writes allowEmpty stamp =>
      exact covered_commitPlan sealing (Transaction.stage_base repo.workspace writes) allowEmpty
        stamp
  | rekey old new stamp => exact covered_commitWritesPlan sealing _ stamp
  | renameRelType old new policy stamp => exact covered_commitWritesPlan sealing _ stamp
  | reindex => exact covered_reindexPlan sealing
  | _ => exact absurd works id

theorem Worked.sealed {later : Repository} (worked : Worked hash repo later)
    (sealing : Sealed theirs repo) : Sealed theirs later := by
  induction worked with
  | refl => exact sealing
  | step count _ works ih => exact (covered_writesOf ih works).throughout ih count

private theorem sealed_fastForward {stop : MergeStop} (started : stop ≠ .after 0)
    (lands : repo.Lands .fastForward theirs stop) :
    Sealed theirs (repo.stopAt [.workspace theirs.checkedOut (.merge theirs),
      .branch repo.head (some theirs)] stop) := by
  have known := Commit.mem_ancestors_self theirs
  cases stop with
  | lost rival => exact .inl (past_write_branch lands.2)
  | after count =>
      rcases count with _ | _ | count
      · exact absurd rfl started
      · exact absurd rfl lands
      · rw [stopAt, stopped_cons, stopped_cons, stopped_nil]
        exact .inl (past_write_branch known)

private theorem sealed_clean {ours commit : Commit} {merged : Manifest} {stamp : Nat}
    (isCommit : commit = .merged ours theirs merged stamp) {stop : MergeStop}
    (started : stop ≠ .after 0) (lands : repo.Lands .clean theirs stop) :
    Sealed theirs (repo.stopAt (.workspace commit.checkedOut (.merge theirs) :: .object commit ::
      .branch repo.head (some commit) :: repo.deleteMergeHead) stop) := by
  have known : theirs ∈ commit.ancestors := by
    rw [isCommit]
    exact List.mem_cons_of_mem _ (List.mem_append_right _ (Commit.mem_ancestors_self theirs))
  cases stop with
  | lost rival => exact .inl (past_write_branch lands.2)
  | after count =>
      rcases count with _ | _ | _ | count
      · exact absurd rfl started
      · exact absurd rfl lands.1
      · exact absurd rfl lands.2
      · have advanced : Repository.Past (repo.write (.workspace commit.checkedOut (.merge theirs))
            |>.write (.object commit) |>.write (.branch repo.head (some commit))) theirs :=
          past_write_branch known
        exact (covered_deleteMergeHead advanced).throughout (.inl advanced) count

private theorem sealed_conflicted {merged : Manifest} {conflicts : Conflicts} {stop : MergeStop}
    (started : stop ≠ .after 0) (lands : repo.Lands .conflicted theirs stop) :
    Sealed theirs (repo.stopAt (.workspace ⟨merged, some conflicts⟩ (.merge theirs) ::
      (repo.deleteMergeHead ++ [.mergeHead (some theirs)])) stop) := by
  cases stop with
  | lost rival => simp [Lands] at lands
  | after count =>
      cases isHeld : repo.mergeHead with
      | none =>
          rw [deleteMergeHead, isHeld]
          rcases count with _ | _ | count
          · exact absurd rfl started
          · exact .inr (.inr ⟨isHeld, rfl⟩)
          · change Sealed theirs (stopped write repo [_, .mergeHead (some theirs)] (count + 2))
            rw [stopped_cons, stopped_cons, stopped_nil]
            exact .inr (.inl rfl)
      | some held =>
          rw [deleteMergeHead, isHeld]
          have later : count ≠ 1 := by
            refine lands.resolve_left fun cleared => ?_
            cases isHeld.symm.trans cleared
          rcases count with _ | _ | _ | count
          · exact absurd rfl started
          · exact absurd rfl later
          · exact .inr (.inr ⟨rfl, rfl⟩)
          · change Sealed theirs (stopped write repo [_, .mergeHead none, .mergeHead (some theirs)]
              (count + 3))
            rw [stopped_cons, stopped_cons, stopped_cons, stopped_nil]
            exact .inr (.inl rfl)

/-- A merge that stops, but not where its content stands alone, leaves it sealed. -/
theorem sealed_stopMerge {stamp : Nat} {stop : MergeStop}
    (merges : repo.mergeKind hash theirs ≠ .idle) (started : stop ≠ .after 0)
    (lands : repo.Lands (repo.mergeKind hash theirs) theirs stop) :
    Sealed theirs (repo.stopMerge hash theirs stamp stop) := by
  have shape := @mergeWrites hash repo theirs stamp
  rw [stopMerge]
  generalize (repo.mergePlan hash theirs stamp).writes = writes at shape
  generalize repo.mergeKind hash theirs = kind at shape merges lands
  cases shape with
  | idle => exact absurd rfl merges
  | fastForward => exact sealed_fastForward started lands
  | clean _ isCommit => exact sealed_clean isCommit started lands
  | conflicted => exact sealed_conflicted started lands

/-- Once a merge has written its workspace, no save or commit writes an ordinary
commit on its result without the merged side in its history, unless the merge
stopped where its result stands alone. -/
theorem merge_accounted (hash : Commit → Nat) (start : Repository) (theirs : Commit) (stamp : Nat)
    (stop : MergeStop) (merges : start.mergeKind hash theirs ≠ .idle) (started : stop ≠ .after 0)
    (lands : start.Lands (start.mergeKind hash theirs) theirs stop) (later : Repository)
    (worked : Worked hash (start.stopMerge hash theirs stamp stop) later) (operation : Operation)
    (works : operation.IsWork) :
    AtEach write (fun _ made => Accounts theirs made) later (later.writesOf hash operation) := by
  have sealing := worked.sealed (@sealed_stopMerge hash start theirs stamp stop merges started lands)
  exact (covered_writesOf sealing works).mono fun _ _ => And.left

/-! A clean merge writes the workspace before its commit, and nothing marks the
workspace as a merge's. -/

def twoBranches : Repository :=
  (Traced.after sampleHash [(.commit [.putNode (person 1) (mailOf "a")] false 0, 9),
    (.createBranch "side" none, 9), (.checkoutBranch "side", 9),
    (.commit [.putNode (person 2) (mailOf "b")] false 1, 9), (.checkoutBranch "main", 9),
    (.commit [.putNode (person 3) (mailOf "c")] false 2, 9)]).repo

def otherSide : Commit := (twoBranches.branches.get "side").getD (.initial blank.manifest 0)

def partMerged : Repository := twoBranches.stopMerge sampleHash otherSide 3 (.after 1)

def plainCommit : Operation := .commit [] false 4

theorem plainCommit_isWork : plainCommit.IsWork := trivial

/-- The branch written by the commit after the stopped merge. -/
def plainTip : Commit :=
  ((partMerged.perform sampleHash plainCommit).branches.get "main").getD
    (.initial blank.manifest 0)

private theorem plain_written :
    (partMerged.writesOf sampleHash plainCommit)[0]? = some (.object plainTip) := by
  decide +kernel

private theorem plain_has_content :
    ((twoBranches.perform sampleHash (.merge otherSide 3)).headCommit.map Commit.manifest) =
      some plainTip.manifest := by
  decide +kernel

private theorem plain_alone : ¬ Accounts otherSide (.object plainTip) := by
  have isChild : ∃ tip, twoBranches.headCommit = some tip ∧ otherSide ∉ tip.ancestors ∧
      plainTip = .child tip plainTip.manifest 4 ∧ otherSide ≠ plainTip := by
    refine ⟨(twoBranches.branches.get "main").getD (.initial blank.manifest 0), ?_⟩
    decide +kernel
  obtain ⟨tip, -, apart, isPlain, other⟩ := isChild
  intro accounts
  rw [isPlain] at accounts other
  rcases List.mem_cons.mp accounts with same | past
  · exact other same
  · exact apart past

/-- The next commit takes the merge's result without the other side. -/
theorem commit_hides_merge :
    twoBranches.mergeKind sampleHash otherSide = .clean ∧
      (twoBranches.perform sampleHash (.merge otherSide 3)).headCommit.map Commit.manifest =
        some plainTip.manifest ∧
      (partMerged.perform sampleHash plainCommit).headCommit = some plainTip ∧
      ¬ AtEach write (fun _ made => Accounts otherSide made) partMerged
        (partMerged.writesOf sampleHash plainCommit) := by
  refine ⟨by decide +kernel, plain_has_content, by decide +kernel, fun all => plain_alone ?_⟩
  exact all.get plain_written

theorem merge_accounted_landed :
    twoBranches.mergeKind sampleHash otherSide = .clean ∧
      AtEach write (fun _ made => Accounts otherSide made)
        (twoBranches.stopMerge sampleHash otherSide 3 (.after 3))
        ((twoBranches.stopMerge sampleHash otherSide 3 (.after 3)).writesOf sampleHash
          plainCommit) := by
  have isClean : twoBranches.mergeKind sampleHash otherSide = .clean := by decide +kernel
  refine ⟨isClean, merge_accounted sampleHash twoBranches otherSide 3 (.after 3) ?_ (by decide) ?_ _
    .refl plainCommit plainCommit_isWork⟩
  · rw [isClean]
    decide
  · rw [isClean]
    exact ⟨by decide, by decide⟩

end Repository

end Acetone.Graph

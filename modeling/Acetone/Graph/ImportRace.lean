import Acetone.Graph.MergeSafety

/-!
# An import beside other writers

An import checks once that the workspace is clean, saves its batches one at a
time, cleans up after a failure by resetting the workspace and commits at the
end.  Each of these is a section under the writer lock, and query writes of
other processes may be saved between any two of them.  What other processes
have written is followed key by key.
-/

namespace Acetone.Graph

open Acetone.Lib Acetone.Model

inductive MapWrite where
  | schema (op : MapOp Bytes SchemaEntry)
  | node (op : MapOp Bytes NodeRecord)
  | edge (op : MapOp Bytes EdgeRecord)

namespace MapWrite

def key : MapWrite → ConflictMap × Bytes
  | .schema op => (.schema, op.key)
  | .node op => (.nodes, op.key)
  | .edge op => (.edges, op.key)

/-- The version holds what the update leaves under its key. -/
def ShownIn (manifest : Manifest) : MapWrite → Prop
  | .schema op => manifest.schema.get op.key = op.outcome
  | .node op => manifest.nodes.get op.key = op.outcome
  | .edge op => manifest.edgesFwd.get op.key = op.outcome

instance shownInDecidable (manifest : Manifest) (write : MapWrite) :
    Decidable (write.ShownIn manifest) :=
  match write with
  | .schema _ | .node _ | .edge _ => inferInstanceAs (Decidable (_ = _))

end MapWrite

def Transaction.mapWrites (txn : Transaction) : List MapWrite :=
  txn.schema.map .schema ++ txn.nodes.map .node ++ txn.edgesFwd.map .edge

def recordWrite (owed : List MapWrite) (write : MapWrite) : List MapWrite :=
  write :: owed.filter fun other => other.key ≠ write.key

/-- Where the import stands, with the keys that other processes have saved
since its check of the workspace. -/
inductive ImportPhase where
  | ready
  | streaming (touched : List (ConflictMap × Bytes))
  | failed (touched : List (ConflictMap × Bytes))
  | streamed (touched : List (ConflictMap × Bytes))
  | committing (touched : List (ConflictMap × Bytes))
  | done

def ImportPhase.touch (keys : List (ConflictMap × Bytes)) : ImportPhase → ImportPhase
  | .ready => .ready
  | .streaming touched => .streaming (keys ++ touched)
  | .failed touched => .failed (keys ++ touched)
  | .streamed touched => .streamed (keys ++ touched)
  | .committing touched => .committing (keys ++ touched)
  | .done => .done

/-- A repository with an import under way, and the last saved write of another
process to each key. -/
structure Scene where
  repo : Repository
  owed : List MapWrite
  phase : ImportPhase

/-- A section under the writer lock, or a check without it. -/
inductive SceneEvent where
  | save (writes : List Write)
  | start
  | batch (records : Except RepositoryError (List Write))
  | finish
  | cleanup (locked : Bool)
  | check
  | commit (locked : Bool) (stamp : Nat)

namespace Scene

def saveWrites (repo : Repository) (writes : List Write) :
    Except RepositoryError (Transaction × Repository) :=
  match (Transaction.beginWrite repo.workspace).writeAll writes with
  | .error cause => .error (.graph cause)
  | .ok txn =>
      match repo.save txn with
      | (.error cause, _) => .error cause
      | (.ok (), saved) => .ok (txn, saved)

/-- One step.  Another holder of the lock makes the cleanup and the commit fail;
the import swallows the first failure and reports the second. -/
def perform (hash : Commit → Nat) (scene : Scene) : SceneEvent → Scene
  | .save writes =>
      match saveWrites scene.repo writes with
      | .error _ => scene
      | .ok (txn, saved) =>
          ⟨saved, txn.mapWrites.foldl recordWrite scene.owed,
            scene.phase.touch (txn.mapWrites.map MapWrite.key)⟩
  | .start =>
      match scene.phase with
      | .ready =>
          if scene.repo.isDirty then { scene with phase := .done }
          else { scene with phase := .streaming [] }
      | _ => scene
  | .batch records =>
      match scene.phase, records with
      | .streaming touched, .error _ => { scene with phase := .failed touched }
      | .streaming touched, .ok writes =>
          match saveWrites scene.repo writes with
          | .error _ => { scene with phase := .failed touched }
          | .ok (_, saved) => { scene with repo := saved }
      | _, _ => scene
  | .finish =>
      match scene.phase with
      | .streaming touched => { scene with phase := .streamed touched }
      | _ => scene
  | .cleanup locked =>
      match scene.phase with
      | .failed _ =>
          { scene with
            repo := if locked then scene.repo else scene.repo.resetWorkspaceToHead
            phase := .done }
      | _ => scene
  | .check =>
      match scene.phase with
      | .streamed touched =>
          { scene with phase := if scene.repo.isDirty then .committing touched else .done }
      | _ => scene
  | .commit locked stamp =>
      match scene.phase with
      | .committing _ =>
          { scene with
            repo := if locked then scene.repo else
              (scene.repo.commitImpl hash (.beginWrite scene.repo.workspace) false stamp).2
            phase := .done }
      | _ => scene

end Scene

/-- The scenes of every interleaving, from any repository, whose steps are
allowed. -/
inductive Interleaved (hash : Commit → Nat) (Allowed : Scene → SceneEvent → Prop) : Scene → Prop
  | start (repo : Repository) : Interleaved hash Allowed ⟨repo, [], .ready⟩
  | step {scene : Scene} {event : SceneEvent} : Interleaved hash Allowed scene →
      Allowed scene event → Interleaved hash Allowed (scene.perform hash event)

/-- A commit of the checked-out branch shows the write. -/
def CommittedIn (repo : Repository) (write : MapWrite) : Prop :=
  ∃ tip, repo.headCommit = some tip ∧ ∃ commit ∈ tip.ancestors, write.ShownIn commit.manifest

/-- Every write of another process that no other process has replaced is in the
workspace or in a commit of the branch. -/
def NothingLost (scene : Scene) : Prop :=
  ∀ write ∈ scene.owed,
    write.ShownIn scene.repo.workspace.manifest ∨ CommittedIn scene.repo write

namespace MapWrite

def applyTo (manifest : Manifest) : MapWrite → Manifest
  | .schema op => { manifest with schema := op.apply manifest.schema }
  | .node op => { manifest with nodes := op.apply manifest.nodes }
  | .edge op => { manifest with edgesFwd := op.apply manifest.edgesFwd }

private theorem shownIn_applyTo_self (manifest : Manifest) (write : MapWrite) :
    write.ShownIn (write.applyTo manifest) := by
  cases write with
  | schema op => exact (MapOp.get_apply _ op _).trans (if_pos rfl)
  | node op => exact (MapOp.get_apply _ op _).trans (if_pos rfl)
  | edge op => exact (MapOp.get_apply _ op _).trans (if_pos rfl)

private theorem shownIn_applyTo_of_ne {manifest : Manifest} {write other : MapWrite}
    (apart : other.key ≠ write.key) :
    other.ShownIn (write.applyTo manifest) ↔ other.ShownIn manifest := by
  cases write <;> cases other
  all_goals simp only [key, ne_eq, Prod.mk.injEq, true_and, reduceCtorEq, false_and,
    not_false_eq_true] at apart
  all_goals simp only [ShownIn, applyTo, MapOp.get_apply]
  all_goals rw [if_neg fun same => apart same.symm]

private theorem mem_foldl_recordWrite {writes owed : List MapWrite} {manifest : Manifest}
    {write : MapWrite} (member : write ∈ writes.foldl recordWrite owed) :
    write.key ∈ writes.map MapWrite.key ∧ write.ShownIn (writes.foldl applyTo manifest) ∨
      write ∈ owed ∧ write.key ∉ writes.map MapWrite.key := by
  induction writes using List.reverseRecOn with
  | nil => exact .inr ⟨member, List.not_mem_nil⟩
  | append_singleton writes last ih =>
      rw [List.foldl_append] at member ⊢
      rcases List.mem_cons.mp member with rfl | earlier
      · exact .inl ⟨by simp, shownIn_applyTo_self _ _⟩
      · obtain ⟨isEarlier, apart⟩ := List.mem_filter.mp earlier
        have differs : write.key ≠ last.key := of_decide_eq_true apart
        rcases ih isEarlier with ⟨touched, shown⟩ | ⟨isOwed, untouched⟩
        · refine .inl ⟨?_, (shownIn_applyTo_of_ne differs).mpr shown⟩
          rw [List.map_append]
          exact List.mem_append_left _ touched
        · refine .inr ⟨isOwed, ?_⟩
          simp only [List.map_append, List.mem_append, not_or]
          exact ⟨untouched, by simpa using differs⟩

private theorem shownIn_foldl_of_untouched {writes : List MapWrite} {manifest : Manifest}
    {write : MapWrite} (untouched : write.key ∉ writes.map MapWrite.key) :
    write.ShownIn (writes.foldl applyTo manifest) ↔ write.ShownIn manifest := by
  induction writes generalizing manifest with
  | nil => rfl
  | cons first writes ih =>
      rw [List.map_cons, List.mem_cons, not_or] at untouched
      rw [List.foldl_cons, ih untouched.2, shownIn_applyTo_of_ne untouched.1]

end MapWrite

private theorem foldl_mapWrites (txn : Transaction) (manifest : Manifest) :
    txn.mapWrites.foldl MapWrite.applyTo manifest =
      { manifest with
        schema := manifest.schema.applyAll txn.schema
        nodes := manifest.nodes.applyAll txn.nodes
        edgesFwd := manifest.edgesFwd.applyAll txn.edgesFwd } := by
  have schemas : ∀ (ops : List (MapOp Bytes SchemaEntry)) (manifest : Manifest),
      (ops.map MapWrite.schema).foldl MapWrite.applyTo manifest =
        { manifest with schema := manifest.schema.applyAll ops } := by
    intro ops
    induction ops with
    | nil => exact fun _ => rfl
    | cons op ops ih => exact fun manifest => ih (MapWrite.applyTo manifest (.schema op))
  have nodes : ∀ (ops : List (MapOp Bytes NodeRecord)) (manifest : Manifest),
      (ops.map MapWrite.node).foldl MapWrite.applyTo manifest =
        { manifest with nodes := manifest.nodes.applyAll ops } := by
    intro ops
    induction ops with
    | nil => exact fun _ => rfl
    | cons op ops ih => exact fun manifest => ih (MapWrite.applyTo manifest (.node op))
  have edges : ∀ (ops : List (MapOp Bytes EdgeRecord)) (manifest : Manifest),
      (ops.map MapWrite.edge).foldl MapWrite.applyTo manifest =
        { manifest with edgesFwd := manifest.edgesFwd.applyAll ops } := by
    intro ops
    induction ops with
    | nil => exact fun _ => rfl
    | cons op ops ih => exact fun manifest => ih (MapWrite.applyTo manifest (.edge op))
  rw [Transaction.mapWrites, List.foldl_append, List.foldl_append, schemas, nodes, edges]

structure SavedWrites (repo : Repository) (txn : Transaction) (saved : Repository) : Prop where
  head : saved.headCommit = repo.headCommit
  owed : ∀ {owed : List MapWrite} {write : MapWrite},
    write ∈ txn.mapWrites.foldl recordWrite owed →
      write.key ∈ txn.mapWrites.map MapWrite.key ∧ write.ShownIn saved.workspace.manifest ∨
        write ∈ owed ∧ write.key ∉ txn.mapWrites.map MapWrite.key
  untouched : ∀ {write : MapWrite}, write.key ∉ txn.mapWrites.map MapWrite.key →
    (write.ShownIn saved.workspace.manifest ↔ write.ShownIn repo.workspace.manifest)

theorem saveWrites_spec {repo saved : Repository} {writes : List Write} {txn : Transaction}
    (saves : Scene.saveWrites repo writes = .ok (txn, saved)) :
    (Transaction.beginWrite repo.workspace).writeAll writes = .ok txn ∧
      SavedWrites repo txn saved := by
  rw [Scene.saveWrites] at saves
  split at saves
  · cases saves
  · next staged written =>
      refine ⟨?_, ?_⟩
      · split at saves <;> cases saves
        exact written
      · rcases Repository.save_cases staged with ⟨cause, failed⟩ | ⟨next, inPlace, done⟩
        · rw [failed] at saves
          cases saves
        · rw [done] at saves
          cases saves
          have base : txn.base = repo.workspace := by
            rw [← Transaction.writeAll_eq_stage written]
            exact Transaction.stage_base _ _
          have sameShown : ∀ write : MapWrite, write.ShownIn next.manifest ↔
              write.ShownIn (txn.mapWrites.foldl MapWrite.applyTo repo.workspace.manifest) := by
            intro write
            rw [Transaction.saveInPlace_maps inPlace, foldl_mapWrites, ← base]
            cases write <;> rfl
          constructor
          · rfl
          · intro owed write member
            rw [sameShown]
            exact MapWrite.mem_foldl_recordWrite member
          · intro write untouched
            rw [sameShown]
            exact MapWrite.shownIn_foldl_of_untouched untouched

/-- The keys saved by other processes since the import's check, while it
runs. -/
def ImportPhase.touched : ImportPhase → Option (List (ConflictMap × Bytes))
  | .ready => none
  | .streaming touched => some touched
  | .failed touched => some touched
  | .streamed touched => some touched
  | .committing touched => some touched
  | .done => none

/-- The import resets the workspace only if no other process has saved since
its check, and writes no key that another process has saved since then, nor on
an unborn branch one that another process has written at all. -/
def Considerate (scene : Scene) : SceneEvent → Prop
  | .cleanup locked => ∀ touched, scene.phase = .failed touched → locked = false → touched = []
  | .batch (.ok writes) => ∀ touched, scene.phase = .streaming touched → ∀ txn,
      (Transaction.beginWrite scene.repo.workspace).writeAll writes = .ok txn →
        ∀ write ∈ txn.mapWrites, write.key ∉ touched ∧
          (scene.repo.headCommit = none → write.key ∉ scene.owed.map MapWrite.key)
  | _ => True

/-- Nothing is lost, and what was written before the import's check can be
restored from the branch. -/
structure Intact (scene : Scene) : Prop where
  kept : NothingLost scene
  settled : ∀ touched, scene.phase.touched = some touched → ∀ write ∈ scene.owed,
    write.key ∉ touched → CommittedIn scene.repo write ∨
      scene.repo.headCommit = none ∧ write.ShownIn blank.manifest

theorem CommittedIn.of_head {repo next : Repository} {write : MapWrite}
    (same : next.headCommit = repo.headCommit) (committed : CommittedIn repo write) :
    CommittedIn next write := by
  obtain ⟨tip, isTip, found⟩ := committed
  exact ⟨tip, same.trans isTip, found⟩

section

variable {scene : Scene}

/-- A save of another process adds to what is owed and to what the import has
to leave alone. -/
private theorem intact_save (intact : Intact scene) {txn : Transaction} {saved : Repository}
    (spec : SavedWrites scene.repo txn saved) :
    Intact ⟨saved, txn.mapWrites.foldl recordWrite scene.owed,
      scene.phase.touch (txn.mapWrites.map MapWrite.key)⟩ := by
  constructor
  · intro write member
    rcases spec.owed member with ⟨-, shown⟩ | ⟨isOwed, untouched⟩
    · exact .inl shown
    · rcases intact.kept write isOwed with shown | committed
      · exact .inl ((spec.untouched untouched).mpr shown)
      · exact .inr (committed.of_head spec.head)
  · intro touched isTouched write member apart
    obtain ⟨earlier, isEarlier, rfl⟩ : ∃ earlier, scene.phase.touched = some earlier ∧
        touched = txn.mapWrites.map MapWrite.key ++ earlier := by
      cases phase : scene.phase <;> rw [phase] at isTouched <;> cases isTouched
      all_goals exact ⟨_, rfl, rfl⟩
    rw [List.mem_append, not_or] at apart
    rcases spec.owed member with ⟨isTouched, -⟩ | ⟨isOwed, -⟩
    · exact absurd isTouched apart.1
    · rcases intact.settled earlier isEarlier write isOwed apart.2 with committed | unborn
      · exact .inl (committed.of_head spec.head)
      · exact .inr ⟨spec.head.trans unborn.1, unborn.2⟩

private theorem intact_start (intact : Intact scene) (clean : scene.repo.isDirty = false) :
    Intact { scene with phase := .streaming [] } := by
  refine ⟨intact.kept, ?_⟩
  intro touched isTouched write isOwed apart
  rcases intact.kept write isOwed with shown | committed
  · rw [Repository.isDirty] at clean
    split at clean
    · next unborn =>
        have isBlank : scene.repo.workspace = blank := by simpa using clean
        exact .inr ⟨unborn, isBlank ▸ shown⟩
    · next tip isTip =>
        have isTipVersion : scene.repo.workspace = tip.checkedOut := by simpa using clean
        rw [isTipVersion] at shown
        exact .inl ⟨tip, isTip, tip, tip.mem_ancestors_self, shown⟩
  · exact .inl committed

private theorem intact_batch (intact : Intact scene) {touched : List (ConflictMap × Bytes)}
    (streaming : scene.phase = .streaming touched) {txn : Transaction} {saved : Repository}
    (spec : SavedWrites scene.repo txn saved)
    (apart : ∀ write ∈ txn.mapWrites, write.key ∉ touched ∧
      (scene.repo.headCommit = none → write.key ∉ scene.owed.map MapWrite.key)) :
    Intact { scene with repo := saved } := by
  have isTouched : scene.phase.touched = some touched := by rw [streaming]; rfl
  constructor
  · intro write isOwed
    by_cases overwritten : write.key ∈ txn.mapWrites.map MapWrite.key
    · obtain ⟨update, isUpdate, sameKey⟩ := List.mem_map.mp overwritten
      obtain ⟨untouched, notOwed⟩ := apart update isUpdate
      rw [sameKey] at untouched notOwed
      rcases intact.settled touched isTouched write isOwed untouched with committed | unborn
      · exact .inr (committed.of_head spec.head)
      · exact absurd (List.mem_map_of_mem isOwed) (notOwed unborn.1)
    · rcases intact.kept write isOwed with shown | committed
      · exact .inl ((spec.untouched overwritten).mpr shown)
      · exact .inr (committed.of_head spec.head)
  · intro others isOthers write isOwed untouched
    rcases intact.settled others isOthers write isOwed untouched with committed | unborn
    · exact .inl (committed.of_head spec.head)
    · exact .inr ⟨spec.head.trans unborn.1, unborn.2⟩

private theorem intact_cleanup (intact : Intact scene) (failed : scene.phase = .failed []) :
    Intact { scene with repo := scene.repo.resetWorkspaceToHead, phase := .done } := by
  refine ⟨?_, fun touched isTouched => nomatch isTouched⟩
  intro write isOwed
  have restorable := intact.settled [] (by rw [failed]; rfl) write isOwed List.not_mem_nil
  rcases restorable with committed | ⟨unborn, inBlank⟩
  · exact .inr (committed.of_head rfl)
  · refine .inl ?_
    rw [Repository.resetWorkspaceToHead, unborn]
    exact inBlank

end

/-- The workspace keeps its version, and the branch its history; a new tip has
the version of the workspace, and the other branches stay where they are. -/
structure Advances (repo next : Repository) : Prop where
  manifest : next.workspace.manifest = repo.workspace.manifest
  head : next.head = repo.head
  branches : ∀ name tip, next.branches.get name = some tip →
    repo.branches.get name = some tip ∨ tip.manifest = repo.workspace.manifest
  tip : next.headCommit = repo.headCommit ∨
    ∃ commit, next.headCommit = some commit ∧ commit.manifest = repo.workspace.manifest
  history : ∀ tip, repo.headCommit = some tip →
    ∃ newTip, next.headCommit = some newTip ∧ tip ∈ newTip.ancestors

namespace Advances

private theorem refl (repo : Repository) : Advances repo repo :=
  ⟨rfl, rfl, fun _ _ => .inl, .inl rfl, fun tip isTip => ⟨tip, isTip, tip.mem_ancestors_self⟩⟩

private theorem advanced_branches {repo : Repository} {commit : Commit}
    (same : commit.manifest = repo.workspace.manifest) (name : String) (tip : Commit)
    (isTip : (repo.advance commit).branches.get name = some tip) :
    repo.branches.get name = some tip ∨ tip.manifest = repo.workspace.manifest := by
  rw [Repository.advance, SortedMap.get_put] at isTip
  split at isTip
  · cases isTip
    exact .inr same
  · exact .inl isTip

private theorem completeOrdinary (repo : Repository) (allowEmpty : Bool) (stamp : Nat) :
    Advances repo (repo.completeOrdinary allowEmpty stamp).2 := by
  rw [Repository.completeOrdinary]
  split
  · exact refl repo
  · split
    · exact refl repo
    · refine ⟨rfl, rfl, advanced_branches (by split <;> rfl),
        .inr ⟨_, Repository.advance_headCommit _, by split <;> rfl⟩, ?_⟩
      intro tip isTip
      rw [isTip]
      exact ⟨_, Repository.advance_headCommit _, List.mem_cons_of_mem _ tip.mem_ancestors_self⟩

private theorem completeMerge (hash : Commit → Nat) (repo : Repository) (theirs : Commit)
    (stamp : Nat) : Advances repo (repo.completeMerge hash theirs stamp).2 := by
  rcases @Repository.completeMerge_cases hash repo theirs stamp with same | done
  · rw [same]
    exact refl repo
  · obtain ⟨ours, isTip, done⟩ := done
    rw [done]
    refine ⟨rfl, rfl,
      @advanced_branches repo (Commit.merged ours theirs repo.workspace.manifest stamp) rfl,
      .inr ⟨_, Repository.advance_headCommit _, rfl⟩, ?_⟩
    intro tip isTip'
    cases isTip.symm.trans isTip'
    refine ⟨_, Repository.advance_headCommit _, List.mem_cons_of_mem _ ?_⟩
    exact List.mem_append_left _ ours.mem_ancestors_self

theorem commitImpl (hash : Commit → Nat) (repo : Repository) (stamp : Nat) :
    Advances repo
      (repo.commitImpl hash (.beginWrite repo.workspace) false stamp).2 := by
  have nothingStaged : repo.save (.beginWrite repo.workspace) = (.ok (), repo) := rfl
  rw [Repository.commitImpl, nothingStaged]
  dsimp only
  rw [Repository.commitSaved]
  split
  · exact completeOrdinary repo false stamp
  · next theirs _ =>
      split
      · have cleared := completeOrdinary { repo with mergeHead := none } false stamp
        exact ⟨cleared.manifest, cleared.head, cleared.branches, cleared.tip, cleared.history⟩
      · exact completeMerge hash repo theirs stamp

end Advances

private theorem intact_commit {scene : Scene} (intact : Intact scene) {next : Repository}
    (advances : Advances scene.repo next) :
    Intact { scene with repo := next, phase := .done } := by
  refine ⟨?_, fun touched isTouched => nomatch isTouched⟩
  intro write isOwed
  rcases intact.kept write isOwed with shown | ⟨tip, isTip, commit, inHistory, shown⟩
  · exact .inl (advances.manifest ▸ shown)
  · obtain ⟨newTip, isNewTip, older⟩ := advances.history tip isTip
    exact .inr ⟨newTip, isNewTip, commit, Commit.ancestors_trans inHistory older, shown⟩

/-- A considerate step loses nothing. -/
theorem Intact.perform {hash : Commit → Nat} {scene : Scene} {event : SceneEvent}
    (intact : Intact scene) (considerate : Considerate scene event) :
    Intact (scene.perform hash event) := by
  have rephased : ∀ phase : ImportPhase,
      (phase.touched = scene.phase.touched ∨ phase.touched = none) →
        Intact { scene with phase := phase } := by
    intro phase same
    refine ⟨intact.kept, ?_⟩
    intro touched isTouched
    rcases same with same | none
    · exact intact.settled touched (same.symm.trans isTouched)
    · cases none.symm.trans isTouched
  cases event with
  | save writes =>
      rw [Scene.perform]
      split
      · exact intact
      · next txn saved saves => exact intact_save intact (saveWrites_spec saves).2
  | start =>
      rw [Scene.perform]
      split
      · split
        · exact rephased .done (.inr rfl)
        · next clean => exact intact_start intact (by simpa using clean)
      · exact intact
  | batch records =>
      rw [Scene.perform.eq_def]
      dsimp only
      split
      · next touched cause streaming =>
          exact rephased (.failed touched) (.inl (by rw [streaming]; rfl))
      · next touched writes streaming =>
          split
          · exact rephased (.failed touched) (.inl (by rw [streaming]; rfl))
          · next txn saved saves =>
              obtain ⟨staged, spec⟩ := saveWrites_spec saves
              exact intact_batch intact streaming spec (considerate touched streaming txn staged)
      · exact intact
  | finish =>
      rw [Scene.perform]
      split
      · next touched streaming =>
          exact rephased (.streamed touched) (.inl (by rw [streaming]; rfl))
      · exact intact
  | cleanup locked =>
      rw [Scene.perform]
      split
      · next touched failed =>
          cases locked with
          | true => exact rephased .done (.inr rfl)
          | false =>
              have untouched : touched = [] := considerate touched failed rfl
              exact intact_cleanup intact (untouched ▸ failed)
      · exact intact
  | check =>
      rw [Scene.perform]
      split
      · next touched streamed =>
          split
          · exact rephased (.committing touched) (.inl (by rw [streamed]; rfl))
          · exact rephased .done (.inr rfl)
      · exact intact
  | commit locked stamp =>
      rw [Scene.perform]
      split
      · cases locked with
        | true => exact rephased .done (.inr rfl)
        | false => exact intact_commit intact (.commitImpl hash scene.repo stamp)
      · exact intact

/-- Beside a considerate import no saved write of another process is lost. -/
theorem considerate_import_loses_nothing (hash : Commit → Nat) {scene : Scene}
    (run : Interleaved hash Considerate scene) : NothingLost scene := by
  have intact : Intact scene := by
    induction run with
    | start repo => exact ⟨fun _ isOwed => (nomatch isOwed), fun _ isTouched => (nomatch isTouched)⟩
    | step _ considerate ih => exact ih.perform considerate
  exact intact.kept

def racing : Scene :=
  (Scene.mk .init [] .ready).perform Repository.sampleHash .start

/-- Another process adds a node between the batches of an import. -/
def importedBeside : Scene :=
  ((((racing.perform Repository.sampleHash
    (.batch (.ok [.putNode (person 1) (mailOf "a")]))).perform Repository.sampleHash
    (.save [.putNode (person 2) (mailOf "b")])).perform Repository.sampleHash
    .finish).perform Repository.sampleHash .check).perform Repository.sampleHash
    (.commit false 0)

theorem considerate_import_sample :
    importedBeside.owed.length = 1 ∧ importedBeside.repo.headCommit.isSome ∧
      NothingLost importedBeside := by
  refine ⟨by decide +kernel, by decide +kernel,
    considerate_import_loses_nothing Repository.sampleHash ?_⟩
  refine .step (.step (.step (.step (.step (.step (.start .init) ?_) ?_) ?_) ?_) ?_) ?_
  case refine_2 =>
    intro touched streaming txn staged write member
    cases streaming
    exact ⟨List.not_mem_nil, fun _ => List.not_mem_nil⟩
  all_goals exact trivial

/-- Another process adds a node, and the import's cleanup takes it away. -/
def importFailedBeside : Scene :=
  ((racing.perform Repository.sampleHash
    (.save [.putNode (person 2) (mailOf "b")])).perform Repository.sampleHash
    (.batch (.error .dirtyWorkspace))).perform Repository.sampleHash (.cleanup false)

theorem failed_import_loses_write :
    ∃ scene, Interleaved Repository.sampleHash (fun _ _ => True) scene ∧
      ¬ NothingLost scene := by
  refine ⟨importFailedBeside, ?_, ?_⟩
  · refine .step (.step (.step (.step (.start .init) ?_) ?_) ?_) ?_ <;> exact trivial
  · intro nothingLost
    have unborn : importFailedBeside.repo.headCommit = none := by decide +kernel
    have gone : importFailedBeside.owed.any fun write =>
        ¬ write.ShownIn importFailedBeside.repo.workspace.manifest := by
      decide +kernel
    obtain ⟨write, isOwed, isGone⟩ := List.any_eq_true.mp gone
    rcases nothingLost write isOwed with shown | ⟨tip, isTip, -⟩
    · exact of_decide_eq_true isGone shown
    · cases unborn.symm.trans isTip

end Acetone.Graph

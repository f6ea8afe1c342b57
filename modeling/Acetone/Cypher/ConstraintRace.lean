import Acetone.Cypher.Persisted
import Acetone.Graph.ImportRace
import Acetone.Graph.TrackerCongruence

/-!
# Constraints beside concurrent writers

A query judges and saves its changes in one section under the writer lock.  The
other surfaces judge first, against a version read without the lock, and save
later: a single node write, a declaration, a schema document, and an import,
which also keeps the schema and the claims it read at its start, and may work on
another branch, with the workspace that all share.  Sections of any number of
processes follow one another in any order.  The constraints are those that the
labels and the relationship types declare.
-/

namespace Acetone.Cypher

open Acetone.Lib Acetone.Model
open Acetone.Graph (Transaction Manifest NodeMap Repository RepositoryError Commit Write Workspace
  UniqueTracker Obeys Obeyed Lawful Keyed labelDefs schemaEntries)

/-- The branch an import leaves, the one it works on, and whether it made that. -/
structure Side where
  original : String
  branch : String
  created : Bool

inductive Stage where
  | idle
  | nodeJudged (key : NodeKey) (record : NodeRecord)
  | schemaJudged (entries : List SchemaEntry)
  | foundClean (branch : Option String)
  | leaving (original branch : String)
  | turning (side : Side)
  | entered (side : Option Side)
  | schemaRead (side : Option Side) (labels : SortedMap String LabelDef)
  | streaming (side : Option Side) (labels : SortedMap String LabelDef) (tracker : UniqueTracker)
  | batchJudged (side : Option Side) (labels : SortedMap String LabelDef)
      (tracker : UniqueTracker) (nodes : List (NodeKey × NodeRecord))
      (edges : List (EdgeKey × EdgeRecord))
  | failed (side : Option Side)
  | streamed (side : Option Side)
  | committing (side : Option Side)
  | returning (side : Side) (failed : Bool)
  | deleting (branch : String)

/-- An import has found the workspace clean and has not returned. -/
def Stage.importing : Stage → Bool
  | .idle | .nodeJudged _ _ | .schemaJudged _ | .deleting _ => false
  | _ => true

/-- The branches that an import relies on: the one it returns to, and the one it
has made. -/
def Stage.bases : Stage → List String
  | .leaving original _ => [original]
  | .turning side => side.original :: if side.created then [side.branch] else []
  | .entered side | .schemaRead side _ | .streaming side _ _ | .batchJudged side _ _ _ _
  | .failed side | .streamed side | .committing side => (side.map Side.original).toList
  | .returning side _ => [side.original]
  | _ => []

/-- The end of an import where it worked, or before it returns from there. -/
def Stage.ended (side : Option Side) (failed : Bool) : Stage :=
  match side with
  | none => .idle
  | some side => .returning side failed

/-- A repository with the processes at work on it. -/
structure Contest where
  repo : Repository
  stages : Nat → Stage

/-- What a process does at once: a section under the lock, or a read. -/
inductive Section where
  | query (coined : List String) (changes : WriteChanges)
  | judgeNode (key : NodeKey) (record : NodeRecord)
  | saveNode
  | judgeLabel (label : String) (decl : LabelDef)
  | judgeDocument (desired : List SchemaEntry)
  | saveSchema
  | checkClean (branch : Option String)
  | enter
  | createBranch
  | checkOut
  | readSchema
  | seed
  | judgeBatch (records : Except RepositoryError
      (List (NodeKey × NodeRecord) × List (EdgeKey × EdgeRecord)))
  | saveBatch
  | finish
  | cleanup
  | checkDirty
  | commit (stamp : Nat)
  | deleteBranch
  | refused

def describe : SchemaEntry → String × String
  | .label name _ => ("label", name)
  | .relType name _ => ("relationship type", name)
  | .index name _ => ("index", name)

def toStage (current desired : List SchemaEntry) : List SchemaEntry :=
  desired.filter fun entry =>
    current.find? (fun other => describe other = describe entry) ≠ some entry

def coinedType : RelTypeDef := ⟨none, .empty, []⟩

/-- The nodes of the label conform to the definition. -/
def labelConforms (manifest : Manifest) : SchemaEntry → Bool
  | .label name decl => Graph.checkLabel manifest name decl = .ok []
  | _ => true

namespace Contest

def mergeInProgress (repo : Repository) : Bool :=
  repo.workspace.conflicts.isSome ∨ repo.mergeHead.isSome

def saved (repo : Repository) (writes : List Write) : Option Repository :=
  match Graph.Scene.saveWrites repo writes with
  | .error _ => none
  | .ok (_, saved) => some saved

def runWrite (repo : Repository) (coined : List String) (changes : WriteChanges) : Repository :=
  match Graph.readSchema repo.workspace.manifest.schema with
  | .error _ => repo
  | .ok entries =>
      if coined ≠ [] ∧ mergeInProgress repo then repo
      else
        let txn := coined.foldl (fun txn name => txn.putSchema (.relType name coinedType))
          (.beginWrite repo.workspace)
        match persistChanges changes txn (.fromEntries entries) repo.workspace.manifest with
        | .error _ => repo
        | .ok txn => (repo.save txn).2

def batchWrites (nodes : List (NodeKey × NodeRecord)) (edges : List (EdgeKey × EdgeRecord)) :
    List Write :=
  nodes.map (fun put => .putNode put.1 put.2) ++ edges.map fun put => .putEdge put.1 put.2

/-- The repository and the stage of the process after a section; a section that
does not apply at its stage changes nothing. -/
def advance (hash : Commit → Nat) (repo : Repository) : Stage → Section → Repository × Stage
  | .idle, .query coined changes => (runWrite repo coined changes, .idle)
  | .idle, .judgeNode key record =>
      if Graph.checkUpsert repo.workspace.manifest key record = .ok [] then
        (repo, .nodeJudged key record)
      else (repo, .idle)
  | .nodeJudged key record, .saveNode => ((saved repo [.putNode key record]).getD repo, .idle)
  | .idle, .judgeLabel label decl =>
      if labelConforms repo.workspace.manifest (.label label decl) then
        (repo, .schemaJudged [.label label decl])
      else (repo, .idle)
  | .idle, .judgeDocument desired =>
      match Graph.readSchema repo.workspace.manifest.schema with
      | .error _ => (repo, .idle)
      | .ok current =>
          let entries := toStage current desired
          if ¬ (desired.map describe).Nodup ∨ mergeInProgress repo ∨ entries = [] then (repo, .idle)
          else if entries.all (labelConforms repo.workspace.manifest) then
            (repo, .schemaJudged entries)
          else (repo, .idle)
  | .schemaJudged entries, .saveSchema => ((saved repo (entries.map .putSchema)).getD repo, .idle)
  | .idle, .checkClean branch => (repo, if repo.isDirty then .idle else .foundClean branch)
  | .foundClean none, .enter => (repo, .entered none)
  | .foundClean (some branch), .enter =>
      (repo, if branch = repo.head then .idle else .leaving repo.head branch)
  | .leaving original branch, .createBranch =>
      match repo.createBranch branch none with
      | (.ok _, next) => (next, .turning ⟨original, branch, true⟩)
      | (.error (.branchExists _), _) => (repo, .turning ⟨original, branch, false⟩)
      | (.error _, _) => (repo, .idle)
  | .turning side, .checkOut =>
      match repo.checkoutBranch side.branch with
      | (.ok (), next) => (next, .entered (some side))
      | (.error _, _) => (repo, .idle)
  | .entered side, .readSchema =>
      match Graph.readSchema repo.workspace.manifest.schema with
      | .error _ => (repo, .failed side)
      | .ok entries => (repo, .schemaRead side (.ofList (entries.filterMap Graph.labelPair?)))
  | .schemaRead side labels, .seed =>
      match UniqueTracker.seed labels repo.workspace.manifest.nodes with
      | .error _ => (repo, .failed side)
      | .ok tracker => (repo, .streaming side labels tracker)
  | .streaming side _ _, .judgeBatch (.error _) => (repo, .failed side)
  | .streaming side labels tracker, .judgeBatch (.ok (nodes, edges)) =>
      match tracker.applyBatch labels nodes with
      | .ok ([], next) => (repo, .batchJudged side labels next nodes edges)
      | _ => (repo, .failed side)
  | .batchJudged side labels tracker nodes edges, .saveBatch =>
      match saved repo (batchWrites nodes edges) with
      | none => (repo, .failed side)
      | some next => (next, .streaming side labels tracker)
  | .streaming side _ _, .finish => (repo, .streamed side)
  | .failed side, .cleanup => (repo.resetWorkspaceToHead, .ended side true)
  | .streamed side, .checkDirty =>
      (repo, if repo.isDirty then .committing side else .ended side false)
  | .committing side, .commit stamp =>
      let (result, next) := repo.commitImpl hash (.beginWrite repo.workspace) false stamp
      (next, .ended side ¬ result.isOk)
  | .returning side failed, .checkOut =>
      match repo.checkoutBranch side.original with
      | (.ok (), next) => (next, if side.created ∧ failed then .deleting side.branch else .idle)
      | (.error _, _) => (repo, .idle)
  | .deleting branch, .deleteBranch => ((repo.deleteBranch branch).2, .idle)
  | .entered side, .refused | .schemaRead side _, .refused | .streaming side _ _, .refused
  | .batchJudged side _ _ _ _, .refused => (repo, .failed side)
  | .failed side, .refused | .streamed side, .refused | .committing side, .refused =>
      (repo, .ended side true)
  | _, .refused => (repo, .idle)
  | stage, _ => (repo, stage)

def perform (hash : Commit → Nat) (contest : Contest) (process : Nat) (done : Section) : Contest :=
  let (repo, stage) := advance hash contest.repo (contest.stages process) done
  ⟨repo, Function.update contest.stages process stage⟩

end Contest

/-- The contests that come of sections in any order, each of them allowed. -/
inductive Contested (hash : Commit → Nat) (Allowed : Repository → Stage → Section → Prop)
    (start : Repository) : Contest → Prop
  | start : Contested hash Allowed start ⟨start, fun _ => .idle⟩
  | step {contest : Contest} {process : Nat} {done : Section} :
      Contested hash Allowed start contest →
      Allowed contest.repo (contest.stages process) done →
      Contested hash Allowed start (contest.perform hash process done)

/-- A declaration of a type that was not judged has what it requires; a label was
judged. -/
def entryFits (manifest : Manifest) : SchemaEntry → Prop
  | .relType rtype decl => Graph.RelTypeFits manifest rtype decl
  | _ => True

/-- What was judged before the lock was taken would be judged alike under it; no
query has a clash that its checker does not see; what is judged by nobody is in
order: what a type requires of its relationships, and a branch that is entered. -/
def UpToDate (repo : Repository) : Stage → Section → Prop
  | .idle, .query _ changes => ∀ derived,
      let catalogue := Catalogue.fromEntries (schemaEntries repo.workspace.manifest.schema)
      changes.upsertedNodes.foldlM (Persist.deriveNode catalogue repo.workspace.manifest
        changes.deletedNodes) ⟨[], [], []⟩ = .ok derived →
      ¬ Persist.Unseen catalogue repo.workspace.manifest derived changes.deletedNodes ∧
        Persist.SuppliedBy catalogue derived changes
  | .nodeJudged key record, .saveNode =>
      Graph.checkUpsert repo.workspace.manifest key record = .ok []
  | .schemaJudged entries, .saveSchema =>
      entries.all (labelConforms repo.workspace.manifest) ∧
        ∀ entry ∈ entries, entryFits repo.workspace.manifest entry
  | .turning side, .checkOut => side.created = false → repo.isDirty = false →
      ∀ tip, repo.branches.get side.branch = some tip → Lawful tip.manifest
  | .batchJudged _ _ _ nodes edges, .saveBatch =>
      let labels := labelDefs repo.workspace.manifest.schema
      (∃ tracker last, UniqueTracker.seed labels repo.workspace.manifest.nodes = .ok tracker ∧
        tracker.applyBatch labels nodes = .ok ([], last)) ∧
        Graph.LastPutsCarry (Graph.relTypeDefs repo.workspace.manifest.schema) edges
  | _, _ => True

/-- The rows stand under keys of their maps, and the constraints are obeyed. -/
structure Fit (manifest : Manifest) : Prop where
  keyed : Keyed manifest
  lawful : Lawful manifest

def BranchFit (repo : Repository) (name : String) : Prop :=
  ∀ tip, repo.branches.get name = some tip → Fit tip.manifest

/-- The rows of every tip stand under keys of their maps. -/
def TipsKeyed (repo : Repository) : Prop :=
  ∀ name tip, repo.branches.get name = some tip → Keyed tip.manifest

structure SameRefs (repo next : Repository) : Prop where
  head : next.head = repo.head
  branches : next.branches = repo.branches

private theorem blank_fit : Fit Graph.blank.manifest :=
  ⟨Graph.blank_keyed, ⟨(fun found => nomatch found), fun found => nomatch found⟩,
    fun found => nomatch found⟩

private theorem base_of_written {workspace : Workspace} {txn : Transaction} {writes : List Write}
    (written : (Transaction.beginWrite workspace).writeAll writes = .ok txn) :
    txn.base = workspace := by
  rw [← Transaction.writeAll_eq_stage written]
  exact Transaction.stage_base _ _

private theorem fit_of_save {repo : Repository} (fit : Fit repo.workspace.manifest)
    {txn : Transaction} {writes : List Write}
    (written : (Transaction.beginWrite repo.workspace).writeAll writes = .ok txn)
    (lawful : Keyed txn.applied → Lawful txn.applied) :
    Fit (repo.save txn).2.workspace.manifest ∧ SameRefs repo (repo.save txn).2 := by
  rcases Repository.save_cases txn with ⟨cause, failed⟩ | ⟨next, inPlace, done⟩
  · rw [failed]
    exact ⟨fit, rfl, rfl⟩
  · rw [done]
    have isStage := Transaction.writeAll_eq_stage written
    have keyed : Keyed txn.applied := by
      rw [← isStage]
      refine Transaction.applied_keyed ?_ (Transaction.stage_stagedKeys _ writes)
      rw [Transaction.stage_base]
      exact fit.keyed
    have maps := Transaction.saveInPlace_maps inPlace
    obtain ⟨obeyed, relationships⟩ := lawful keyed
    refine ⟨⟨keyed.of_maps maps, ?_, ?_⟩, rfl, rfl⟩
    · rw [Obeyed, maps]
      exact obeyed
    · rw [maps]
      exact relationships

private theorem fit_of_saved {repo next : Repository} (fit : Fit repo.workspace.manifest)
    {writes : List Write} (saves : Contest.saved repo writes = some next)
    (lawful : ∀ txn, (Transaction.beginWrite repo.workspace).writeAll writes = .ok txn →
      Keyed txn.applied → Lawful txn.applied) :
    Fit next.workspace.manifest ∧ SameRefs repo next := by
  rw [Contest.saved] at saves
  split at saves
  · cases saves
  · next txn _ done =>
      cases saves
      have written := (Graph.saveWrites_spec done).1
      have fits := fit_of_save fit written (lawful txn written)
      rw [Graph.Scene.saveWrites, written] at done
      dsimp only at done
      split at done
      · cases done
      · next isSaved =>
          cases done
          rw [isSaved] at fits
          exact fits

/-- A save leaves the relationships lawful if those that it puts are, and so are
the stored ones under the types that it declares. -/
private theorem relationships_of_written {repo : Repository} (fit : Fit repo.workspace.manifest)
    {txn : Transaction} {writes : List Write}
    (written : (Transaction.beginWrite repo.workspace).writeAll writes = .ok txn)
    (keyed : Keyed txn.applied)
    (puts : ∀ op key record, lastFor MapOp.key key txn.edgesFwd = some op →
      op.outcome = some record → ∃ edge : EdgeKey, edge.encodeFwd = .ok key ∧
        ∀ decl, (Graph.relTypeDefs repo.workspace.manifest.schema).get edge.rtype = some decl →
          Graph.Carries decl edge record)
    (decls : ∀ op ∈ txn.schema, ∀ rtype decl, op.outcome = some (.relType rtype decl) →
      decl.existence = [] ∨
        (txn.edgesFwd = [] ∧ Graph.RelTypeFits repo.workspace.manifest rtype decl)) :
    Graph.RelationshipsObey (Graph.relTypeDefs txn.applied.schema) txn.applied.edgesFwd := by
  have base := base_of_written written
  have declared : ∀ rtype decl, (Graph.relTypeDefs txn.applied.schema).get rtype = some decl →
      (Graph.relTypeDefs repo.workspace.manifest.schema).get rtype = some decl ∨
        decl.existence = [] ∨
          (txn.edgesFwd = [] ∧ Graph.RelTypeFits repo.workspace.manifest rtype decl) := by
    intro rtype decl declared
    have found := (Graph.relTypeDefs_get keyed.schema).mp declared
    rw [Transaction.applied, base] at found
    rcases Graph.get_applyAll_cases found with ⟨op, isOp, -, outcome⟩ | ⟨-, old⟩
    · exact .inr (decls op isOp rtype decl outcome)
    · exact .inl ((Graph.relTypeDefs_get fit.keyed.schema).mpr old)
  apply Graph.RelationshipsObey.applied
  · rw [base]
    exact fit.lawful.relationships
  · intro op key record last outcome
    obtain ⟨edge, encodes, carries⟩ := puts op key record last outcome
    refine ⟨edge, encodes, fun decl isDecl => ?_⟩
    rcases declared edge.rtype decl isDecl with old | none | ⟨unput, -⟩
    · exact carries decl old
    · rw [Graph.Carries, none]
      exact List.forall_mem_nil _
    · rw [unput] at last
      cases last
  · intro rtype decl isDecl
    rw [base]
    rcases declared rtype decl isDecl with old | none | ⟨-, fits⟩
    · exact .inl old
    · refine .inr fun _ _ _ => ?_
      rw [Graph.Carries, none]
      exact List.forall_mem_nil _
    · exact .inr fits

private theorem putSchemas_eq (txn : Transaction) (entries : List SchemaEntry) :
    txn.writeAll (entries.map .putSchema) = .ok
      { txn with schema := txn.schema ++ entries.map fun entry => .put entry.mapKey entry } := by
  induction entries generalizing txn with
  | nil => simp [Transaction.writeAll]
  | cons entry entries ih =>
      refine bind_eq_ok.mpr ⟨txn.putSchema entry, rfl, (ih _).trans ?_⟩
      simp [Transaction.putSchema]

private theorem coined_eq (coined : List String) (txn : Transaction) :
    coined.foldl (fun txn name => txn.putSchema (.relType name coinedType)) txn =
      { txn with schema := txn.schema ++ (coined.map fun name =>
        .relType name coinedType).map fun entry => .put entry.mapKey entry } := by
  induction coined generalizing txn with
  | nil => simp
  | cons name coined ih =>
      rw [List.foldl_cons, ih]
      simp [Transaction.putSchema]

section

variable {repo : Repository} (fit : Fit repo.workspace.manifest)

include fit

private theorem fit_saveNode {key : NodeKey} {record : NodeRecord} {next : Repository}
    (clean : Graph.checkUpsert repo.workspace.manifest key record = .ok [])
    (saves : Contest.saved repo [.putNode key record] = some next) :
    Fit next.workspace.manifest ∧ SameRefs repo next := by
  apply fit_of_saved fit saves
  intro txn written keyed
  have relationships := relationships_of_written fit written keyed
  obtain ⟨_, puts, ⟨⟩⟩ := bind_eq_ok.mp written
  obtain ⟨own, encodes, ⟨⟩⟩ := bind_eq_ok.mp puts
  refine ⟨fit.lawful.nodes.upsert fit.keyed.schema (Graph.liftKey_eq_ok.mp encodes) clean,
    relationships ?_ (List.forall_mem_nil _)⟩
  intro op key record last
  cases last

private theorem fit_saveSchema {entries : List SchemaEntry} {next : Repository}
    (clean : entries.all (labelConforms repo.workspace.manifest))
    (fits : ∀ entry ∈ entries, entryFits repo.workspace.manifest entry)
    (saves : Contest.saved repo (entries.map .putSchema) = some next) :
    Fit next.workspace.manifest ∧ SameRefs repo next := by
  apply fit_of_saved fit saves
  intro txn written keyed
  have relationships := relationships_of_written fit written keyed
  have isTxn : txn = _ := Except.ok.inj (written.symm.trans (putSchemas_eq _ entries))
  subst isTxn
  refine ⟨fit.lawful.nodes.redeclare ?_, relationships ?_ ?_⟩
  · intro label decl declared
    have found := (Graph.labelDefs_get keyed.schema).mp declared
    rcases Graph.get_applyAll_cases found with ⟨op, isOp, -, outcome⟩ | ⟨-, old⟩
    · obtain ⟨entry, isEntry, rfl⟩ := List.mem_map.mp isOp
      cases outcome
      exact .inr (of_decide_eq_true (List.all_eq_true.mp clean _ isEntry))
    · exact .inl ((Graph.labelDefs_get fit.keyed.schema).mpr old)
  · intro op key record last
    cases last
  · intro op isOp rtype decl outcome
    obtain ⟨entry, isEntry, rfl⟩ := List.mem_map.mp isOp
    cases outcome
    exact .inr ⟨rfl, fits _ isEntry⟩

private theorem fit_saveBatch {nodes : List (NodeKey × NodeRecord)}
    {edges : List (EdgeKey × EdgeRecord)} {tracker last : UniqueTracker} {next : Repository}
    (seeds : UniqueTracker.seed (labelDefs repo.workspace.manifest.schema)
      repo.workspace.manifest.nodes = .ok tracker)
    (clean : tracker.applyBatch (labelDefs repo.workspace.manifest.schema) nodes = .ok ([], last))
    (carry : Graph.LastPutsCarry (Graph.relTypeDefs repo.workspace.manifest.schema) edges)
    (saves : Contest.saved repo (Contest.batchWrites nodes edges) = some next) :
    Fit next.workspace.manifest ∧ SameRefs repo next := by
  apply fit_of_saved fit saves
  intro txn written keyed
  have written : (Transaction.beginWrite repo.workspace).writeAll
    (Graph.nodeWrites nodes ++ Graph.edgeWrites edges) = .ok txn := written
  have staged := Graph.batchStaged written
  have stagedBy := Graph.stagedBy_of_writeAll written
  obtain ⟨surviving, made, -⟩ := bind_eq_ok.mp clean
  have edgeOps : txn.edgesFwd = edges.map fun put => .put (Graph.edgeBytes put.1) put.2 := by
    rw [stagedBy.edgesFwd, List.flatMap_append, (Graph.flatMap_nodeWrites nodes).2.1,
      (Graph.flatMap_edgeWrites edges).1]
    rfl
  have noSchema : txn.schema = [] := by
    rw [stagedBy.schema, List.flatMap_append, (Graph.flatMap_nodeWrites nodes).2.2.2,
      (Graph.flatMap_edgeWrites edges).2.2.2]
    rfl
  refine ⟨?_, relationships_of_written fit written keyed ?_ ?_⟩
  · rw [Obeyed, staged.applied_schema]
    exact ((UniqueTracker.seed_tracks seeds).kept fit.lawful.nodes clean made
      (staged.results made)).1
  · intro op key record isLast outcome
    rw [edgeOps, lastFor_map] at isLast
    obtain ⟨put, isPut, rfl⟩ := Option.map_eq_some_iff.mp isLast
    cases outcome
    have isPut : lastFor (fun put : EdgeKey × EdgeRecord => Graph.edgeBytes put.1) key edges =
      some put := isPut
    obtain ⟨inBatch, rfl⟩ := key_of_lastFor _ isPut
    have encodes := stagedBy.encodes (.putEdge put.1 put.2)
      (List.mem_append_right _ (List.mem_map_of_mem inBatch))
    exact ⟨put.1, encodes, fun decl declared => carry put decl isPut declared⟩
  · rw [noSchema]
    exact List.forall_mem_nil _

private theorem fit_runWrite {coined : List String} {changes : WriteChanges}
    (upToDate : UpToDate repo .idle (.query coined changes)) :
    Fit (Contest.runWrite repo coined changes).workspace.manifest ∧
      SameRefs repo (Contest.runWrite repo coined changes) := by
  rw [Contest.runWrite]
  split
  · exact ⟨fit, rfl, rfl⟩
  · next entries reads =>
      cases Graph.readSchema_eq reads
      split
      · exact ⟨fit, rfl, rfl⟩
      · dsimp only
        rw [coined_eq]
        split
        · exact ⟨fit, rfl, rfl⟩
        · next txn persists =>
            obtain ⟨derived, persisted⟩ := Persist.persistChanges_spec rfl persists
            have carry := Persist.persistChanges_carry rfl
              (fun derived derives => (upToDate derived derives).2) persists
            obtain ⟨writes, written⟩ := persisted.writes
            have allWritten := Graph.Transaction.writeAll_append.mpr
              ⟨_, putSchemas_eq (.beginWrite repo.workspace)
                (coined.map fun name => .relType name coinedType), written⟩
            have base := base_of_written allWritten
            apply fit_of_save fit allWritten
            intro keyed
            have nodesKept : txn.applied.nodes =
                repo.workspace.manifest.nodes.applyAll txn.nodes := by
              rw [Transaction.applied, base]
            have coinedOnly : ∀ op ∈ txn.schema, ∀ entry, op.outcome = some entry →
                ∃ name, entry = .relType name coinedType := by
              intro op isOp entry outcome
              rw [persisted.schema] at isOp
              obtain ⟨made, isMade, rfl⟩ := List.mem_map.mp isOp
              obtain ⟨name, -, rfl⟩ := List.mem_map.mp isMade
              cases outcome
              exact ⟨name, rfl⟩
            refine ⟨?_, relationships_of_written fit allWritten keyed ?_ ?_⟩
            · rw [Obeyed, nodesKept]
              have obeys := persisted.obeys fit.lawful.nodes (nodesKept ▸ keyed.nodes)
                (upToDate derived persisted.derives).1
              apply obeys.of_labels
              intro label decl declared
              have found := (Graph.labelDefs_get keyed.schema).mp declared
              rw [Transaction.applied, base] at found
              rcases Graph.get_applyAll_cases found with ⟨op, isOp, -, outcome⟩ | ⟨-, old⟩
              · obtain ⟨name, wrong⟩ := coinedOnly op isOp _ outcome
                cases wrong
              · exact (Graph.labelDefs_get fit.keyed.schema).mpr old
            · intro op key record last outcome
              obtain ⟨isOp, rfl⟩ := key_of_lastFor _ last
              obtain ⟨edge, encodes, carries⟩ := carry op isOp record outcome
              exact ⟨edge, encodes, carries⟩
            · intro op isOp rtype decl outcome
              obtain ⟨name, isCoined⟩ := coinedOnly op isOp _ outcome
              cases isCoined
              exact .inl rfl

end

/-- What an import at this stage relies on: the tip that a cleanup restores and the
branches it goes back to. -/
structure Stands (repo : Repository) (stage : Stage) : Prop where
  head : stage.importing → BranchFit repo repo.head
  bases : ∀ name ∈ stage.bases, BranchFit repo name

/-- What a section of a process does to the versions: the workspace stays fit, and
so does what this process and the others rely on. -/
structure Advanced (repo : Repository) (next : Repository × Stage) : Prop where
  workspace : Fit next.1.workspace.manifest
  tips : TipsKeyed next.1
  head : BranchFit repo repo.head → BranchFit next.1 next.1.head
  branches : ∀ name, BranchFit repo name → BranchFit next.1 name
  stands : Stands next.1 next.2

/-- A stage that relies on nothing more than the one before it. -/
private theorem Stands.still {repo : Repository} {stage after : Stage} (stands : Stands repo stage)
    (importing : after.importing → stage.importing) (bases : after.bases ⊆ stage.bases) :
    Stands repo after :=
  ⟨fun isImporting => stands.head (importing isImporting), fun name isBase =>
    stands.bases name (bases isBase)⟩

namespace Advanced

variable {repo : Repository} {stage after : Stage}

private theorem unchanged (fit : Fit repo.workspace.manifest) (tips : TipsKeyed repo)
    (stands : Stands repo after) : Advanced repo (repo, after) :=
  ⟨fit, tips, id, fun _ => id, stands⟩

private theorem idle_stands : Stands repo .idle := ⟨nofun, List.forall_mem_nil _⟩

private theorem stopped (fit : Fit repo.workspace.manifest) (tips : TipsKeyed repo) :
    Advanced repo (repo, .idle) :=
  unchanged fit tips idle_stands

private theorem moved {next : Repository} (tips : TipsKeyed repo) (stands : Stands repo after)
    (saved : Fit next.workspace.manifest ∧ SameRefs repo next) : Advanced repo (next, after) := by
  obtain ⟨fit, ⟨head, branches⟩⟩ := saved
  have same : ∀ name, BranchFit repo name → BranchFit next name := by
    intro name fit
    rw [BranchFit, branches]
    exact fit
  refine ⟨fit, ?_, ?_, same, ?_, ?_⟩
  · rw [TipsKeyed, branches]
    exact tips
  · rw [head]
    exact same repo.head
  · intro isImporting
    rw [head]
    exact same _ (stands.head isImporting)
  · exact fun name isBase => same name (stands.bases name isBase)

private theorem savedOr (fit : Fit repo.workspace.manifest) (tips : TipsKeyed repo)
    {writes : List Write} (saves : ∀ next, Contest.saved repo writes = some next →
      Fit next.workspace.manifest ∧ SameRefs repo next) :
    Advanced repo ((Contest.saved repo writes).getD repo, .idle) := by
  cases done : Contest.saved repo writes with
  | none => exact stopped fit tips
  | some next => exact moved tips idle_stands (saves next done)

/-- A workspace found clean is the version of the tip. -/
private theorem checkedClean (fit : Fit repo.workspace.manifest) (tips : TipsKeyed repo)
    (branch : Option String) :
    Advanced repo (repo, if repo.isDirty then .idle else .foundClean branch) := by
  split
  · exact stopped fit tips
  · next clean =>
      refine unchanged fit tips ⟨fun _ tip isTip => ?_, List.forall_mem_nil _⟩
      have isTip : repo.headCommit = some tip := isTip
      rw [Repository.isDirty, isTip] at clean
      have same : repo.workspace = tip.checkedOut := by simpa using clean
      rw [same] at fit
      exact fit

private theorem cleanedUp (tips : TipsKeyed repo) (head : BranchFit repo repo.head)
    (stands : Stands repo after) : Advanced repo (repo.resetWorkspaceToHead, after) := by
  refine moved tips stands ⟨?_, rfl, rfl⟩
  rw [Repository.resetWorkspaceToHead]
  cases isTip : repo.headCommit with
  | none => exact blank_fit
  | some tip => exact head tip isTip

private theorem committed (fit : Fit repo.workspace.manifest) (tips : TipsKeyed repo)
    {next : Repository} (stands : Stands repo after) (advances : Graph.Advances repo next) :
    Advanced repo (next, after) := by
  have same : ∀ name, BranchFit repo name → BranchFit next name := by
    intro name branchFit tip isTip
    rcases advances.branches name tip isTip with old | sameVersion
    · exact branchFit tip old
    · exact sameVersion ▸ fit
  refine ⟨advances.manifest ▸ fit, ?_, ?_, same, ?_, ?_⟩
  · intro name tip isTip
    rcases advances.branches name tip isTip with old | sameVersion
    · exact tips name tip old
    · exact sameVersion ▸ fit.keyed
  · rw [advances.head]
    exact same repo.head
  · intro isImporting
    rw [advances.head]
    exact same _ (stands.head isImporting)
  · exact fun name isBase => same name (stands.bases name isBase)

/-- A new branch starts at the tip of the one that is checked out. -/
private theorem branched (fit : Fit repo.workspace.manifest) (tips : TipsKeyed repo)
    {original branch : String} (stands : Stands repo (.leaving original branch)) {tip : Commit}
    (isHead : repo.headCommit = some tip) : Advanced repo
      ({ repo with branches := repo.branches.put branch tip }, .turning ⟨original, branch, true⟩) := by
  have tipFit : Fit tip.manifest := stands.head rfl tip isHead
  have branches : ∀ name, BranchFit repo name →
      BranchFit { repo with branches := repo.branches.put branch tip } name := by
    intro name branchFit other isTip
    rw [SortedMap.get_put] at isTip
    split at isTip
    · cases isTip
      exact tipFit
    · exact branchFit other isTip
  refine ⟨fit, ?_, branches repo.head, branches, fun _ => branches _ (stands.head rfl), ?_⟩
  · intro name other isTip
    rw [SortedMap.get_put] at isTip
    split at isTip
    · cases isTip
      exact tipFit.keyed
    · exact tips name other isTip
  · intro name isBase
    rcases List.mem_cons.mp isBase with rfl | isBranch
    · exact branches _ (stands.bases _ List.mem_cons_self)
    · rw [if_pos rfl, List.mem_singleton] at isBranch
      subst isBranch
      intro other isTip
      rw [SortedMap.get_put, if_pos rfl] at isTip
      cases isTip
      exact tipFit

private theorem checkedOut (fit : Fit repo.workspace.manifest) (tips : TipsKeyed repo)
    {name : String} (arrives : repo.isDirty = false → BranchFit repo name) {next : Repository}
    (checksOut : repo.checkoutBranch name = (.ok (), next))
    (bases : ∀ base ∈ after.bases, BranchFit repo base) : Advanced repo (next, after) := by
  obtain ⟨fits, branches, isHead, target⟩ : Fit next.workspace.manifest ∧
      next.branches = repo.branches ∧ next.head = name ∧ BranchFit repo name := by
    rw [Repository.checkoutBranch] at checksOut
    split at checksOut
    · next same =>
        cases checksOut
        refine ⟨fit, rfl, rfl, ?_⟩
        intro tip isTip
        rw [isTip] at same
        have same : repo.workspace = tip.checkedOut := by simpa using same
        rw [same] at fit
        exact fit
    · split at checksOut
      · cases checksOut
      · next clean =>
          have branchFit := arrives (Bool.eq_false_iff.mpr clean)
          split at checksOut
          · cases checksOut
          · next tip isTip =>
              cases checksOut
              exact ⟨branchFit tip isTip, rfl, rfl, branchFit⟩
  have same : ∀ other, BranchFit repo other → BranchFit next other := by
    intro other branchFit
    rw [BranchFit, branches]
    exact branchFit
  refine ⟨fits, ?_, fun _ => isHead ▸ same name target, same, fun _ => isHead ▸ same name target,
    fun base isBase => same base (bases base isBase)⟩
  rw [TipsKeyed, branches]
  exact tips

private theorem deleted (fit : Fit repo.workspace.manifest) (tips : TipsKeyed repo)
    (branch : String) : Advanced repo ((repo.deleteBranch branch).2, .idle) := by
  rw [Repository.deleteBranch]
  split
  · exact stopped fit tips
  · split
    · exact stopped fit tips
    · have kept : ∀ {name : String} {tip : Commit},
          (repo.branches.delete branch).get name = some tip → repo.branches.get name = some tip := by
        intro name tip isTip
        rw [SortedMap.get_delete] at isTip
        split at isTip
        · cases isTip
        · exact isTip
      exact ⟨fit, fun name tip isTip => tips name tip (kept isTip),
        fun head tip isTip => head tip (kept isTip),
        fun name branchFit tip isTip => branchFit tip (kept isTip), idle_stands⟩

private theorem ended_stands {side : Option Side} (head : BranchFit repo repo.head)
    (bases : ∀ name ∈ (side.map Side.original).toList, BranchFit repo name) (failed : Bool) :
    Stands repo (.ended side failed) := by
  cases side with
  | none => exact idle_stands
  | some side => exact ⟨fun _ => head, bases⟩

end Advanced

open Advanced in
theorem advance_spec {hash : Commit → Nat} {repo : Repository} {stage : Stage} {done : Section}
    (fit : Fit repo.workspace.manifest) (tips : TipsKeyed repo) (stands : Stands repo stage)
    (upToDate : UpToDate repo stage done) :
    Advanced repo (Contest.advance hash repo stage done) := by
  have still : ∀ {after : Stage}, (after.importing → stage.importing) →
      after.bases ⊆ stage.bases → Stands repo after := fun importing bases =>
    stands.still importing bases
  rw [Contest.advance.eq_def]
  split
  case h_1 => exact moved tips idle_stands (fit_runWrite fit upToDate)
  case h_2 => split <;> exact unchanged fit tips (still nofun (List.nil_subset _))
  case h_3 => exact savedOr fit tips fun _ => fit_saveNode fit upToDate
  case h_4 => split <;> exact unchanged fit tips (still nofun (List.nil_subset _))
  case h_5 =>
    split
    · exact stopped fit tips
    · dsimp only
      split
      · exact stopped fit tips
      · split <;> exact unchanged fit tips (still nofun (List.nil_subset _))
  case h_6 => exact savedOr fit tips fun _ => fit_saveSchema fit upToDate.1 upToDate.2
  case h_7 => exact checkedClean fit tips _
  case h_8 => exact unchanged fit tips (still (fun _ => rfl) (List.nil_subset _))
  case h_9 =>
    split
    · exact stopped fit tips
    · refine unchanged fit tips ⟨fun _ => stands.head rfl, ?_⟩
      exact List.forall_mem_singleton.mpr (stands.head rfl)
  case h_10 =>
    next original branch =>
    rw [Repository.createBranch]
    cases isHead : repo.headCommit with
    | none => exact stopped fit tips
    | some tip =>
        dsimp only
        split
        · next created =>
            split at created
            · cases created
            · cases created
              exact branched fit tips stands isHead
        · exact unchanged fit tips (still (fun _ => rfl) (List.Subset.refl _))
        · exact stopped fit tips
  case h_11 =>
    next side =>
    split
    · next checksOut =>
        refine checkedOut fit tips ?_ checksOut fun base isBase =>
          stands.bases base (List.mem_cons.mpr (.inl (List.mem_singleton.mp isBase)))
        intro clean
        cases isNew : side.created with
        | true =>
            refine stands.bases _ (List.mem_cons_of_mem _ ?_)
            rw [if_pos isNew]
            exact List.mem_singleton_self _
        | false => exact fun tip isTip => ⟨tips _ tip isTip, upToDate isNew clean tip isTip⟩
    · exact stopped fit tips
  case h_12 => split <;> exact unchanged fit tips (still (fun _ => rfl) (List.Subset.refl _))
  case h_13 => split <;> exact unchanged fit tips (still (fun _ => rfl) (List.Subset.refl _))
  case h_14 => exact unchanged fit tips (still (fun _ => rfl) (List.Subset.refl _))
  case h_15 => split <;> exact unchanged fit tips (still (fun _ => rfl) (List.Subset.refl _))
  case h_16 =>
    obtain ⟨⟨tracker, last, seeds, clean⟩, carry⟩ := upToDate
    split
    · exact unchanged fit tips (still (fun _ => rfl) (List.Subset.refl _))
    · next next saves =>
        exact moved tips (still (fun _ => rfl) (List.Subset.refl _))
          (fit_saveBatch fit seeds clean carry saves)
  case h_17 => exact unchanged fit tips (still (fun _ => rfl) (List.Subset.refl _))
  case h_18 => exact cleanedUp tips (stands.head rfl) (ended_stands (stands.head rfl) stands.bases _)
  case h_19 =>
    split
    · exact unchanged fit tips (still (fun _ => rfl) (List.Subset.refl _))
    · exact unchanged fit tips (ended_stands (stands.head rfl) stands.bases _)
  case h_20 =>
    exact committed fit tips (ended_stands (stands.head rfl) stands.bases _)
      (.commitImpl hash repo _)
  case h_21 =>
    split
    · next checksOut =>
        refine checkedOut fit tips (fun _ => stands.bases _ (List.mem_singleton_self _)) checksOut ?_
        split <;> exact List.forall_mem_nil _
    · exact stopped fit tips
  case h_22 => exact deleted fit tips _
  case h_23 => exact unchanged fit tips (still (fun _ => rfl) (List.Subset.refl _))
  case h_24 => exact unchanged fit tips (still (fun _ => rfl) (List.Subset.refl _))
  case h_25 => exact unchanged fit tips (still (fun _ => rfl) (List.Subset.refl _))
  case h_26 => exact unchanged fit tips (still (fun _ => rfl) (List.Subset.refl _))
  case h_27 => exact unchanged fit tips (ended_stands (stands.head rfl) stands.bases _)
  case h_28 => exact unchanged fit tips (ended_stands (stands.head rfl) stands.bases _)
  case h_29 => exact unchanged fit tips (ended_stands (stands.head rfl) stands.bases _)
  case h_30 => exact stopped fit tips
  case h_31 => exact unchanged fit tips stands

/-- The workspace is fit, the tips are keyed, and every process stands on what it
relies on. -/
structure Upheld (contest : Contest) : Prop where
  workspace : Fit contest.repo.workspace.manifest
  tips : TipsKeyed contest.repo
  stands : ∀ process, Stands contest.repo (contest.stages process)

theorem Upheld.perform {hash : Commit → Nat} {contest : Contest} {process : Nat} {done : Section}
    (upheld : Upheld contest)
    (upToDate : UpToDate contest.repo (contest.stages process) done) :
    Upheld (contest.perform hash process done) := by
  have advanced := @advance_spec hash _ _ _ upheld.workspace upheld.tips (upheld.stands process)
    upToDate
  refine ⟨advanced.workspace, advanced.tips, ?_⟩
  intro other
  by_cases same : other = process
  · subst same
    simpa [Contest.perform] using advanced.stands
  · have stands := upheld.stands other
    have isStage : (contest.perform hash process done).stages other = contest.stages other := by
      simp [Contest.perform, same]
    rw [isStage]
    exact ⟨fun isImporting => advanced.head (stands.head isImporting),
      fun name isBase => advanced.branches name (stands.bases name isBase)⟩

/-- Where every section saves what it would still judge alike, and what nobody judges
is in order, the declared constraints stay obeyed. -/
theorem contest_obeyed (hash : Commit → Nat) {start : Repository}
    (keyed : Keyed start.workspace.manifest) (tips : TipsKeyed start)
    (lawful : Lawful start.workspace.manifest) {contest : Contest}
    (run : Contested hash UpToDate start contest) : Lawful contest.repo.workspace.manifest := by
  have upheld : Upheld contest := by
    induction run with
    | start => exact ⟨⟨keyed, lawful⟩, tips, fun _ => ⟨nofun, List.forall_mem_nil _⟩⟩
    | step _ upToDate ih => exact ih.perform upToDate
  exact upheld.workspace.lawful

def Stage.finished : Stage → Bool
  | .idle => true
  | _ => false

/-- Probes by `id`, no two with the same serial number. -/
private theorem probeKey_ne_nil : ["id"] ≠ [] := by decide

private theorem probeKey_nodup : ["id"].Nodup := by decide

def probeLabel : LabelDef :=
  ⟨["id"], false, .empty, [], ["serial"], probeKey_ne_nil, probeKey_nodup, by decide⟩

def probe (id : Int64) : NodeKey := ⟨"Probe", [.int id], rfl⟩

private theorem serial_stored (serial : Int64) :
    Model.storeValue (.int serial) 0 = .ok (.int serial) := rfl

def serialOf (serial : Int64) : NodeRecord :=
  ⟨∅, .ofList [("serial", ⟨.int serial, serial_stored serial⟩)]⟩

def probeRepository : Repository :=
  { Repository.init with
    workspace := ⟨Graph.sampleVersion [.label "Probe" probeLabel] [] [], none⟩ }

private theorem probeRepository_keyed : Keyed probeRepository.workspace.manifest := by
  have noNodes : probeRepository.workspace.manifest.nodes = .empty := by decide +kernel
  have noEdges : probeRepository.workspace.manifest.edgesFwd = .empty := by decide +kernel
  refine ⟨by decide +kernel, ?_, ?_⟩
  · rw [noNodes]
    exact nofun
  · rw [noEdges]
    exact nofun

private theorem probeRepository_tips : TipsKeyed probeRepository := fun _ _ isTip => by cases isTip

private theorem probeRepository_lawful : Lawful probeRepository.workspace.manifest := by
  have noNodes : probeRepository.workspace.manifest.nodes = .empty := by decide +kernel
  have noEdges : probeRepository.workspace.manifest.edgesFwd = .empty := by decide +kernel
  refine ⟨?_, ?_⟩
  · rw [Obeyed, noNodes]
    exact ⟨(fun found => nomatch found), fun found => nomatch found⟩
  · rw [noEdges]
    exact fun found => nomatch found

private theorem judged_node {contest : Contest} {process : Nat} {key : NodeKey}
    {record : NodeRecord} (idle : contest.stages process = .idle)
    (clean : Graph.checkUpsert contest.repo.workspace.manifest key record = .ok []) :
    (contest.perform Repository.sampleHash process (.judgeNode key record)).repo = contest.repo ∧
      (contest.perform Repository.sampleHash process (.judgeNode key record)).stages process =
        .nodeJudged key record := by
  simp [Contest.perform, Contest.advance, idle, clean]

def untouched : Contest := ⟨probeRepository, fun _ => .idle⟩

def firstWritten : Contest :=
  (untouched.perform Repository.sampleHash 0 (.judgeNode (probe 1) (serialOf 7))).perform
    Repository.sampleHash 0 .saveNode

/-- Another one writes a second probe afterwards. -/
def bothWritten : Contest :=
  (firstWritten.perform Repository.sampleHash 1 (.judgeNode (probe 2) (serialOf 8))).perform
    Repository.sampleHash 1 .saveNode

theorem contest_obeyed_inTurn :
    bothWritten.repo.workspace.manifest.nodes.entries.length = 2 ∧
      Lawful bothWritten.repo.workspace.manifest := by
  refine ⟨by decide +kernel, contest_obeyed Repository.sampleHash probeRepository_keyed
    probeRepository_tips probeRepository_lawful ?_⟩
  have clean : Graph.checkUpsert untouched.repo.workspace.manifest (probe 1) (serialOf 7) =
      .ok [] := by decide +kernel
  have alsoClean : Graph.checkUpsert firstWritten.repo.workspace.manifest (probe 2)
      (serialOf 8) = .ok [] := by decide +kernel
  have first := @judged_node untouched 0 _ _ rfl clean
  have second := @judged_node firstWritten 1 _ _ rfl alsoClean
  refine .step (.step (.step (.step .start trivial) ?_) trivial) ?_
  · rw [first.1, first.2]
    exact clean
  · rw [second.1, second.2]
    exact alsoClean

def bothJudged : Contest :=
  (untouched.perform Repository.sampleHash 0 (.judgeNode (probe 1) (serialOf 7))).perform
    Repository.sampleHash 1 (.judgeNode (probe 2) (serialOf 7))

def sameSerial : Contest :=
  (bothJudged.perform Repository.sampleHash 0 .saveNode).perform Repository.sampleHash 1 .saveNode

/-- Two writers break a constraint that each of them found obeyed. -/
theorem writers_break_unique :
    ∃ start contest, Keyed start.workspace.manifest ∧ TipsKeyed start ∧
      Lawful start.workspace.manifest ∧
      Contested Repository.sampleHash (fun _ _ _ => True) start contest ∧
      (∀ process, (contest.stages process).finished) ∧
      ¬ Lawful contest.repo.workspace.manifest := by
  refine ⟨probeRepository, sameSerial, probeRepository_keyed, probeRepository_tips,
    probeRepository_lawful, ?_, ?_, ?_⟩
  · refine .step (.step (.step (.step .start ?_) ?_) ?_) ?_ <;> exact trivial
  · intro process
    match process with
    | 0 => decide +kernel
    | 1 => decide +kernel
    | process + 2 => rfl
  · rintro ⟨obeyed, -⟩
    have shared : ∃ first ∈ sameSerial.repo.workspace.manifest.nodes.entries,
        ∃ second ∈ sameSerial.repo.workspace.manifest.nodes.entries, first.1 ≠ second.1 ∧
        ∃ node ∈ (NodeKey.decode first.1).toOption, ∃ rival ∈ (NodeKey.decode second.1).toOption,
        ∃ claim ∈ Graph.claimsOf (labelDefs sameSerial.repo.workspace.manifest.schema) node first.2,
          claim ∈ Graph.claimsOf (labelDefs sameSerial.repo.workspace.manifest.schema) rival
            second.2 := by
      decide +kernel
    obtain ⟨first, isFirst, second, isSecond, apart, node, decodes, rival, alsoDecodes, claim,
      isClaim, alsoClaim⟩ := shared
    exact obeyed.unique (SortedMap.get_eq_some_iff.mpr isFirst) (mem_toOption.mp decodes)
      (SortedMap.get_eq_some_iff.mpr isSecond) (mem_toOption.mp alsoDecodes) apart claim isClaim
      alsoClaim

end Acetone.Cypher

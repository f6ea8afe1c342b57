import Acetone.Graph.Saves
import Acetone.Graph.Validity
import Acetone.Lib.DerivedSet

/-!
# Indexes over runs of saves

An index is derived from `nodes` by a rule that also reads the key properties
the schema declares.  A save maintains an index by the rule of the new schema
alone, so it agrees with a rebuild as long as no save changes the entry of a
row it leaves in place.
-/

namespace Acetone.Graph

open Acetone.Lib Acetone.Model

def entryRule (decl : IndexDef) (keys : LabelKeys) (key : Bytes) (record : NodeRecord) :
    Option Bytes :=
  (NodeKey.decode key).toOption.bind fun node => indexEntryKey node (some record) decl keys

def EntryOf (entry key : Bytes) : Prop :=
  ∃ indexed : IndexEntry, indexed.encode = .ok entry ∧ NodeKey.decode key = .ok indexed.node

theorem EntryOf.unique (entry left right : Bytes) (ofLeft : EntryOf entry left)
    (ofRight : EntryOf entry right) : left = right := by
  obtain ⟨first, firstEncoded, firstNode⟩ := ofLeft
  obtain ⟨second, secondEncoded, secondNode⟩ := ofRight
  exact IndexEntry.node_unique firstEncoded secondEncoded firstNode secondNode

section

variable {decl : IndexDef} {keys : LabelKeys} {key : Bytes} {node : NodeKey}

theorem entryRule_of_decode (decoded : NodeKey.decode key = .ok node) (record : NodeRecord) :
    entryRule decl keys key record = indexEntryKey node (some record) decl keys := by
  rw [entryRule, decoded]
  rfl

theorem entryIn_entryRule (decoded : NodeKey.decode key = .ok node) (nodes : NodeMap) :
    entryIn (entryRule decl keys) nodes key =
      indexEntryKey node (nodes.get key) decl keys := by
  rw [entryIn]
  cases nodes.get key with
  | none => rfl
  | some record => exact entryRule_of_decode decoded record

private theorem node_of_new {label : String} {properties : List String}
    {values : List Value} {indexed : IndexEntry}
    (made : IndexEntry.new label properties values node = .ok indexed) :
    indexed.node = node := by
  rw [IndexEntry.new] at made
  split at made
  · cases made
    rfl
  · cases made

private theorem indexEntryKey_entryOf {record : Option NodeRecord} {entry : Bytes}
    (decoded : NodeKey.decode key = .ok node)
    (found : indexEntryKey node record decl keys = some entry) : EntryOf entry key := by
  rw [indexEntryKey, Option.bind_eq_bind, Option.bind_eq_some_iff] at found
  obtain ⟨row, -, found⟩ := found
  split at found
  · cases found
  · rw [Option.bind_eq_bind, Option.bind_eq_some_iff] at found
    obtain ⟨values, -, found⟩ := found
    split at found
    · cases found
    · next indexed made =>
        split at found
        · next bytes encoded =>
            cases found
            exact ⟨indexed, encoded, decoded.trans (congrArg _ (node_of_new made).symm)⟩
        · cases found

theorem entryRule_entryOf (decl : IndexDef) (keys : LabelKeys) (key : Bytes)
    (record : NodeRecord) (entry : Bytes)
    (found : entryRule decl keys key record = some entry) : EntryOf entry key := by
  obtain ⟨node, decoded, isEntry⟩ := Option.bind_eq_some_iff.mp found
  exact indexEntryKey_entryOf (mem_toOption.mp decoded) isEntry

end

section

variable {nodes : NodeMap} {decl : IndexDef} {keys : LabelKeys}

theorem get_buildFull {set : KeySet Bytes} (built : buildFull nodes decl keys = .ok set)
    (entry : Bytes) :
    set.get entry = some () ↔ DerivedFrom (entryRule decl keys) nodes entry := by
  obtain ⟨found, gathered, ⟨⟩⟩ := bind_eq_ok.mp built
  rw [KeySet.get_ofKeys, mem_gather gathered]
  constructor
  · rintro ⟨row, member, entries, collected, isEntry⟩
    simp only [bind_eq_ok, liftKey_eq_ok, Except.ok.injEq] at collected
    obtain ⟨node, decoded, rfl⟩ := collected
    exact ⟨row, member, (entryRule_of_decode decoded row.2).trans (Option.mem_toList.mp isEntry)⟩
  · rintro ⟨row, member, isEntry⟩
    obtain ⟨node, decoded, made⟩ := Option.bind_eq_some_iff.mp isEntry
    refine ⟨row, member, _, ?_, Option.mem_toList.mpr made⟩
    simp only [liftKey_eq_ok.mpr (mem_toOption.mp decoded)]
    rfl

theorem buildFull_total (keyed : ∀ key ∈ nodes.keys, ∃ node, NodeKey.decode key = .ok node) :
    ∃ set, buildFull nodes decl keys = .ok set := by
  obtain ⟨parts, each⟩ := @mapM_total _ _ _ (fun (row : Bytes × NodeRecord) => do
    let node ← liftKey (NodeKey.decode row.1)
    .ok (indexEntryKey node (some row.2) decl keys).toList) nodes.entries (by
      intro row member
      obtain ⟨node, decoded⟩ := keyed row.1 (List.mem_map_of_mem member)
      exact ⟨_, bind_eq_ok.mpr ⟨node, liftKey_eq_ok.mpr decoded, rfl⟩⟩)
  exact ⟨_, bind_eq_ok.mpr ⟨parts.flatten, bind_eq_ok.mpr ⟨parts, each, rfl⟩, rfl⟩⟩

end

section

variable {baseNodes newNodes : NodeMap} {touched : List Bytes} {decl : IndexDef}
  {oldKeys newKeys : LabelKeys}

private theorem maintainOps_eq {node : NodeKey} {key : Bytes}
    (decoded : NodeKey.decode key = .ok node) :
    maintainOps decl newKeys ⟨node, baseNodes.get key, newNodes.get key⟩ =
      deltaOps (entryIn (entryRule decl newKeys) baseNodes key)
        (entryIn (entryRule decl newKeys) newNodes key) := by
  rw [entryIn_entryRule decoded, entryIn_entryRule decoded, maintainOps, deltaOps]
  split <;> rfl

theorem flatMap_maintainOps {states : List TouchedState}
    (found : touchedStates baseNodes newNodes touched = .ok states) :
    states.flatMap (maintainOps decl newKeys) =
      maintenance (entryRule decl newKeys) baseNodes newNodes (sortDedupe id touched) := by
  have each := mapM_eq_ok.mp found
  rw [maintenance]
  clear found
  generalize sortDedupe id touched = keys at each ⊢
  induction each with
  | nil => rfl
  | cons first _ ih =>
      simp only [bind_eq_ok, liftKey_eq_ok, Except.ok.injEq] at first
      obtain ⟨node, decoded, rfl⟩ := first
      rw [List.flatMap_cons, List.flatMap_cons, ih, maintainOps_eq decoded]

private theorem nodup_sortDedupe (keys : List Bytes) : (sortDedupe id keys).Nodup :=
  (sortDedupe_ascending id keys).imp fun below => ne_of_lt below

/-- Maintenance of a set that was current gives what a build finds. -/
theorem buildFull_of_maintain {set : KeySet Bytes}
    (keyed : ∀ key ∈ newNodes.keys, ∃ node, NodeKey.decode key = .ok node)
    (outside : ∀ key, key ∉ touched → newNodes.get key = baseNodes.get key)
    (built : buildFull baseNodes decl oldKeys = .ok set)
    (settles : ∀ row ∈ baseNodes.entries,
      Settles (entryRule decl oldKeys row.1 row.2) (entryRule decl newKeys row.1 row.2)
        (entryIn (entryRule decl newKeys) newNodes row.1)) :
    buildFull newNodes decl newKeys =
      .ok (set.applyAll
        (maintenance (entryRule decl newKeys) baseNodes newNodes (sortDedupe id touched))) := by
  obtain ⟨whole, isWhole⟩ := @buildFull_total _ decl newKeys keyed
  have outsideSorted : ∀ key, key ∉ sortDedupe id touched →
      newNodes.get key = baseNodes.get key := by
    intro key absent
    apply outside
    intro member
    obtain ⟨other, inside, same⟩ := exists_mem_sortDedupe id member
    exact absent ((show other = key from same) ▸ inside)
  have maintained := mem_maintenance EntryOf.unique (entryRule_entryOf decl newKeys)
    (entryRule_entryOf decl oldKeys) (nodup_sortDedupe touched) outsideSorted
    (get_buildFull built) settles
  rw [isWhole]
  congr 1
  apply KeySet.ext
  intro entry
  rw [maintained, get_buildFull isWhole]

end

section

variable {schema : SchemaMap} {name : String} {decl other : IndexDef}

theorem mem_indexDefs (keyed : SchemaKeyed schema) :
    (name, decl) ∈ indexDefs (schemaEntries schema) ↔
      schema.get (entryKey kindIndex name) = some (.index name decl) := by
  rw [indexDefs, List.mem_filterMap]
  constructor
  · rintro ⟨entry, member, isPair⟩
    cases entry <;> cases isPair
    exact (mem_schemaEntries keyed).mp member
  · intro found
    exact ⟨.index name decl, (mem_schemaEntries keyed).mpr found, rfl⟩

theorem indexDefs_functional (keyed : SchemaKeyed schema)
    (first : (name, decl) ∈ indexDefs (schemaEntries schema))
    (second : (name, other) ∈ indexDefs (schemaEntries schema)) : decl = other := by
  have same := (mem_indexDefs keyed).mp first
  rw [(mem_indexDefs keyed).mp second] at same
  cases same
  rfl

theorem get_indexDefs (keyed : SchemaKeyed schema) :
    (SortedMap.ofList (indexDefs (schemaEntries schema))).get name = some decl ↔
      (name, decl) ∈ indexDefs (schemaEntries schema) := by
  apply SortedMap.get_ofList_eq_some
  rintro ⟨left, leftDecl⟩ isLeft ⟨right, rightDecl⟩ isRight same
  cases same
  exact indexDefs_functional keyed isLeft isRight

end

section

variable {nodes : NodeMap} {entries : List SchemaEntry} {indexes : Indexes} {name : String}

theorem rebuildAll_get {set : KeySet Bytes} (rebuilt : rebuildAll nodes entries = .ok indexes)
    (found : indexes.get name = some set) :
    ∃ decl, (name, decl) ∈ indexDefs entries ∧
      buildFull nodes decl (labelKeys entries) = .ok set := by
  obtain ⟨built, each, ⟨⟩⟩ := bind_eq_ok.mp rebuilt
  rw [SortedMap.get_ofList, Option.map_eq_some_iff] at found
  obtain ⟨pair, last, rfl⟩ := found
  obtain ⟨member, rfl⟩ := key_of_lastFor Prod.fst last
  obtain ⟨⟨declared, decl⟩, isDeclared, made⟩ := exists_of_mem_mapM each member
  simp only [bind_eq_ok, Except.ok.injEq] at made
  obtain ⟨map, isMap, rfl⟩ := made
  exact ⟨decl, isDeclared, isMap⟩

/-- There is a map for exactly the declared indexes. -/
theorem rebuildAll_names (rebuilt : rebuildAll nodes entries = .ok indexes) :
    indexes.get name ≠ none ↔ ∃ decl, (name, decl) ∈ indexDefs entries := by
  constructor
  · intro present
    obtain ⟨set, found⟩ := Option.ne_none_iff_exists'.mp present
    obtain ⟨decl, isDeclared, -⟩ := rebuildAll_get rebuilt found
    exact ⟨decl, isDeclared⟩
  · rintro ⟨decl, isDeclared⟩ absent
    obtain ⟨built, each, ⟨⟩⟩ := bind_eq_ok.mp rebuilt
    obtain ⟨pair, member, made⟩ := mem_of_mapM_eq_ok each isDeclared
    simp only [bind_eq_ok, Except.ok.injEq] at made
    obtain ⟨map, -, rfl⟩ := made
    exact SortedMap.get_ofList_eq_none.mp absent _ member rfl

theorem rebuildAll_of_empty {other : NodeMap} (rebuilt : rebuildAll nodes entries = .ok indexes)
    (noIndexes : indexes.entries = []) : rebuildAll other entries = .ok indexes := by
  have noDefs : indexDefs entries = [] := by
    rw [List.eq_nil_iff_forall_not_mem]
    rintro ⟨name, decl⟩ isDeclared
    apply (rebuildAll_names rebuilt).mpr ⟨decl, isDeclared⟩
    rw [SortedMap.get, noIndexes]
    rfl
  rw [rebuildAll, noDefs] at rebuilt ⊢
  exact rebuilt

end

def IndexesCurrent (manifest : Manifest) : Prop :=
  rebuildAll manifest.nodes (schemaEntries manifest.schema) = .ok manifest.indexes

namespace Transaction

variable {txn : Transaction} {next : Workspace} {merging : Bool}

/-- In every index that the save leaves declared as it was, the entry stored
for a row is the one the new schema's keys give it, or the row is replaced and
the stored entry does not stay behind. -/
def KeepsEntries (txn : Transaction) : Prop :=
  let oldEntries := schemaEntries txn.base.manifest.schema
  let newEntries := schemaEntries txn.applied.schema
  ∀ index ∈ indexDefs oldEntries, index ∈ indexDefs newEntries →
    ∀ row ∈ txn.base.manifest.nodes.entries,
      Settles (entryRule index.2 (labelKeys oldEntries) row.1 row.2)
        (entryRule index.2 (labelKeys newEntries) row.1 row.2)
        (entryIn (entryRule index.2 (labelKeys newEntries)) txn.applied.nodes row.1)

instance keepsEntriesDecidable (txn : Transaction) : Decidable txn.KeepsEntries :=
  inferInstanceAs (Decidable (∀ index ∈ _, index ∈ _ → ∀ row ∈ _, Settles _ _ _))

private theorem applied_schema (unchanged : txn.schema = []) :
    txn.applied.schema = txn.base.manifest.schema := by
  rw [applied, unchanged]
  rfl

/-- An index that is maintained was declared as it is now. -/
private theorem baseForMaintain_get {set : KeySet Bytes} {name : String} {decl : IndexDef}
    (keyed : Keyed txn.base.manifest) (appliedKeyed : Keyed txn.applied)
    (found : (txn.baseForMaintain (schemaEntries txn.base.manifest.schema)
      (schemaEntries txn.applied.schema)).get name = some set)
    (isDeclared : (name, decl) ∈ indexDefs (schemaEntries txn.applied.schema)) :
    txn.base.manifest.indexes.get name = some set ∧
      (name, decl) ∈ indexDefs (schemaEntries txn.base.manifest.schema) := by
  rw [baseForMaintain] at found
  split at found
  · next unchanged =>
      rw [applied_schema (List.isEmpty_iff.mp unchanged)] at isDeclared
      exact ⟨found, isDeclared⟩
  · rw [SortedMap.get_ofList, Option.map_eq_some_iff] at found
    obtain ⟨pair, last, rfl⟩ := found
    obtain ⟨member, rfl⟩ := key_of_lastFor Prod.fst last
    obtain ⟨isIndex, same⟩ := List.mem_filter.mp member
    refine ⟨SortedMap.get_eq_some_iff.mpr isIndex, ?_⟩
    rw [← get_indexDefs keyed.schema, of_decide_eq_true same]
    exact (get_indexDefs appliedKeyed.schema).mpr isDeclared

private theorem maintain_eq_rebuildAll {indexes : Indexes}
    (keyed : Keyed txn.base.manifest) (appliedKeyed : Keyed txn.applied)
    (current : IndexesCurrent txn.base.manifest) (keeps : txn.KeepsEntries)
    (maintained : maintain txn.base.manifest.nodes txn.applied.nodes
      (txn.nodes.map MapOp.key)
      (txn.baseForMaintain (schemaEntries txn.base.manifest.schema)
        (schemaEntries txn.applied.schema))
      (indexDefs (schemaEntries txn.applied.schema))
      (labelKeys (schemaEntries txn.applied.schema)) = .ok indexes) :
    rebuildAll txn.applied.nodes (schemaEntries txn.applied.schema) = .ok indexes := by
  obtain ⟨states, isStates, maintained⟩ := bind_eq_ok.mp maintained
  obtain ⟨maps, each, ⟨⟩⟩ := bind_eq_ok.mp maintained
  refine bind_eq_ok.mpr ⟨maps, ?_, rfl⟩
  rw [← each]
  apply mapM_congr
  rintro ⟨name, decl⟩ isDeclared
  simp only
  split
  · next set found =>
      obtain ⟨inBase, wasDeclared⟩ := baseForMaintain_get keyed appliedKeyed found isDeclared
      obtain ⟨same, isSame, built⟩ := rebuildAll_get current inBase
      cases indexDefs_functional keyed.schema isSame wasDeclared
      have whole := buildFull_of_maintain appliedKeyed.nodes
        (fun key untouched => SortedMap.get_applyAll_of_absent fun op member isKey =>
          untouched (List.mem_map.mpr ⟨op, member, isKey⟩))
        built (keeps (name, decl) wasDeclared isDeclared)
      rw [flatMap_maintainOps isStates, whole]
      rfl
  · rfl

theorem saveInPlace_current (keyed : Keyed txn.base.manifest) (staged : txn.StagedKeys)
    (current : IndexesCurrent txn.base.manifest) (keeps : txn.KeepsEntries)
    (saved : txn.saveInPlace merging = .ok next) : IndexesCurrent next.manifest := by
  rcases saveInPlace_cases saved with ⟨-, rfl⟩ | accepted
  · exact current
  · have appliedKeyed := applied_keyed keyed staged
    have maintained := accepted.indexes
    rw [IndexesCurrent, accepted.maps]
    rw [maintainIndexes] at maintained
    split at maintained
    · next untouched =>
        have noIndexes := List.isEmpty_iff.mp untouched.1
        rw [← Except.ok.inj maintained, applied_schema (List.isEmpty_iff.mp untouched.2)]
        exact rebuildAll_of_empty current noIndexes
    · simp only [bind_eq_ok] at maintained
      obtain ⟨newEntries, readNew, oldEntries, readOld, maintained⟩ := maintained
      cases readSchema_eq readNew
      cases readSchema_eq readOld
      exact maintain_eq_rebuildAll keyed appliedKeyed current keeps maintained

end Transaction

/-- After every save of a run whose saves all keep the stored entries, the
index maps are what a rebuild gives, one for each declared index. -/
theorem saves_indexes_match_rebuild {workspace : Workspace}
    (run : Saves Transaction.KeepsEntries workspace) :
    rebuildAll workspace.manifest.nodes (schemaEntries workspace.manifest.schema) =
        .ok workspace.manifest.indexes ∧
      ∀ name, workspace.manifest.indexes.get name ≠ none ↔
        ∃ decl, (name, decl) ∈ indexDefs (schemaEntries workspace.manifest.schema) := by
  have current : IndexesCurrent workspace.manifest := by
    induction run with
    | blank => rfl
    | @save base next writes merging earlier keeps saved ih =>
        have isBase := (Transaction.stage_base base writes).symm
        exact Transaction.saveInPlace_current (isBase ▸ earlier.keyed)
          (Transaction.stage_stagedKeys base writes) (isBase ▸ ih) keeps saved
  exact ⟨current, fun _ => rebuildAll_names current⟩

private theorem personNamed : "Person" ≠ "" := by decide

def indexOn (property : String) (named : property ≠ "") : IndexDef :=
  ⟨"Person", [property], personNamed, List.cons_ne_nil _ _, by simpa using named⟩

def indexWrites : List Write :=
  [.putSchema (.label "Person" personLabel), .putSchema (.index "byMail" (indexOn "mail" (by decide))),
    .putNode (person 1) (mailOf "a")]

theorem saves_indexes_match_rebuild_sample :
    ∃ next, ((Transaction.beginWrite blank).stage indexWrites).saveInPlace false = .ok next ∧
      next.manifest.indexes.keys = ["byMail"] ∧
      rebuildAll next.manifest.nodes (schemaEntries next.manifest.schema) =
        .ok next.manifest.indexes := by
  have passes : (((Transaction.beginWrite blank).stage indexWrites).saveInPlace
      false).toOption.any fun next => next.manifest.indexes.keys = ["byMail"] := by
    decide +kernel
  obtain ⟨next, isNext, names⟩ := (Option.any_eq_true _ _).mp passes
  have saved := mem_toOption.mp isNext
  exact ⟨next, saved, of_decide_eq_true names,
    (saves_indexes_match_rebuild (.save .blank (by decide +kernel) saved)).1⟩

def undeclaredWrites : List Write :=
  [.putSchema (.index "byId" (indexOn "id" (by decide))),
    .putNode (person 1) ⟨∅, .ofList [("id", ⟨.int 7, by rfl⟩)]⟩]

/-- Declaring a label's key after its nodes were indexed leaves the entries
that were stored under the record's value. -/
theorem saves_indexes_drift :
    ∃ workspace, Saves (fun _ => True) workspace ∧
      rebuildAll workspace.manifest.nodes (schemaEntries workspace.manifest.schema) ≠
        .ok workspace.manifest.indexes := by
  have drifts : ((((Transaction.beginWrite blank).stage undeclaredWrites).saveInPlace
      false).toOption.bind fun first => (((Transaction.beginWrite first).stage
        [.putSchema (.label "Person" personLabel)]).saveInPlace false).toOption).any
      fun last => rebuildAll last.manifest.nodes (schemaEntries last.manifest.schema) ≠
        .ok last.manifest.indexes := by
    decide +kernel
  obtain ⟨last, isLast, different⟩ := (Option.any_eq_true _ _).mp drifts
  obtain ⟨first, isFirst, isLast⟩ := Option.bind_eq_some_iff.mp isLast
  exact ⟨last, .save (.save .blank trivial (mem_toOption.mp isFirst)) trivial
    (mem_toOption.mp isLast), of_decide_eq_true different⟩

end Acetone.Graph

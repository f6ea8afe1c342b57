import Acetone.Graph.EdgeMaps

/-!
# Runs of saves

What a save that succeeds has checked and what it leaves, stated once, and the
runs from the blank workspace.  Every key that a run stores is a key of its
map.
-/

namespace Acetone.Graph

open Acetone.Lib Acetone.Model

namespace Transaction

/-- Every staged update is under a key of its map. -/
structure StagedKeys (txn : Transaction) : Prop where
  schema : ∀ op ∈ txn.schema, ∀ entry ∈ op.outcome, entry.mapKey = op.key
  nodes : ∀ op ∈ txn.nodes, ∃ node, NodeKey.decode op.key = .ok node
  edges : ∀ op ∈ txn.edgesFwd, ∃ edge, EdgeKey.decodeFwd op.key = .ok edge

private theorem stagedNode {key : NodeKey} {bytes : Bytes} (encoded : key.encode = .ok bytes) :
    ∃ node, NodeKey.decode bytes = .ok node := by
  obtain ⟨stored, decoded, -⟩ := NodeKey.decode_of_encode encoded
  exact ⟨stored, decoded⟩

private theorem stagedEdge {key : EdgeKey} {forward backward : Bytes}
    (encodedFwd : key.encodeFwd = .ok forward) (encodedRev : key.encodeRev = .ok backward) :
    ∃ edge, EdgeKey.decodeFwd forward = .ok edge :=
  keyed_of_reverseKey (reverseKey_of_encode encodedFwd encodedRev)

private theorem forall_mem_concat {α : Type} {property : α → Prop} {items : List α}
    {item : α} (each : ∀ item ∈ items, property item) (last : property item) :
    ∀ member ∈ items ++ [item], property member := by
  intro member isMember
  rcases List.mem_append.mp isMember with old | new
  · exact each member old
  · exact List.mem_singleton.mp new ▸ last

theorem write_stagedKeys {txn next : Transaction} {write : Write}
    (written : txn.write write = .ok next) (staged : txn.StagedKeys) :
    next.StagedKeys := by
  cases write with
  | putNode key record =>
      simp only [Transaction.write, putNode, bind_eq_ok, liftKey_eq_ok,
        Except.ok.injEq] at written
      obtain ⟨bytes, encoded, rfl⟩ := written
      exact ⟨staged.schema, forall_mem_concat staged.nodes (stagedNode encoded), staged.edges⟩
  | deleteNode key =>
      simp only [Transaction.write, deleteNode, bind_eq_ok, liftKey_eq_ok,
        Except.ok.injEq] at written
      obtain ⟨bytes, encoded, rfl⟩ := written
      exact ⟨staged.schema, forall_mem_concat staged.nodes (stagedNode encoded), staged.edges⟩
  | putEdge key record =>
      simp only [Transaction.write, putEdge, bind_eq_ok, liftKey_eq_ok,
        Except.ok.injEq] at written
      obtain ⟨forward, encodedFwd, backward, encodedRev, rfl⟩ := written
      exact ⟨staged.schema, staged.nodes,
        forall_mem_concat staged.edges (stagedEdge encodedFwd encodedRev)⟩
  | deleteEdge key =>
      simp only [Transaction.write, deleteEdge, bind_eq_ok, liftKey_eq_ok,
        Except.ok.injEq] at written
      obtain ⟨forward, encodedFwd, backward, encodedRev, rfl⟩ := written
      exact ⟨staged.schema, staged.nodes,
        forall_mem_concat staged.edges (stagedEdge encodedFwd encodedRev)⟩
  | putSchema entry =>
      cases written
      refine ⟨forall_mem_concat staged.schema ?_, staged.nodes, staged.edges⟩
      rintro _ ⟨⟩
      rfl
  | deleteSchemaEntry rtype =>
      cases written
      refine ⟨forall_mem_concat staged.schema ?_, staged.nodes, staged.edges⟩
      intro entry isEntry
      cases isEntry

theorem stage_stagedKeys (base : Workspace) (writes : List Write) :
    ((beginWrite base).stage writes).StagedKeys :=
  stage_induction write_stagedKeys writes ⟨nofun, nofun, nofun⟩

end Transaction

section

variable {V : Type} {map : SortedMap Bytes V} {ops : List (MapOp Bytes V)} {key : Bytes}

theorem mem_putKeys : key ∈ putKeys ops ↔ ∃ value, .put key value ∈ ops := by
  rw [putKeys, List.mem_map]
  constructor
  · rintro ⟨op, member, rfl⟩
    rw [List.mem_filter] at member
    cases op with
    | put key value => exact ⟨value, member.1⟩
    | delete key => cases member.2
  · rintro ⟨value, member⟩
    exact ⟨_, List.mem_filter.mpr ⟨member, rfl⟩, rfl⟩

theorem mem_deleteKeys : key ∈ deleteKeys ops ↔ .delete key ∈ ops := by
  rw [deleteKeys, List.mem_map]
  constructor
  · rintro ⟨op, member, rfl⟩
    rw [List.mem_filter] at member
    cases op with
    | put key value => cases member.2
    | delete key => exact member.1
  · intro member
    exact ⟨_, List.mem_filter.mpr ⟨member, rfl⟩, rfl⟩

theorem mem_keys_of_not_put (present : key ∈ (map.applyAll ops).keys)
    (notPut : key ∉ putKeys ops) : key ∈ map.keys := by
  rw [SortedMap.mem_keys, SortedMap.get_applyAll] at present
  rw [SortedMap.mem_keys]
  cases last : lastFor MapOp.key key ops with
  | none => rwa [last] at present
  | some op =>
      obtain ⟨member, isKey⟩ := key_of_lastFor _ last
      rw [last] at present
      cases op with
      | put other value =>
          cases isKey
          exact absurd (mem_putKeys.mpr ⟨value, member⟩) notPut
      | delete other => exact absurd rfl present

theorem mem_deleteKeys_of_gone (inBase : key ∈ map.keys)
    (gone : key ∉ (map.applyAll ops).keys) : key ∈ deleteKeys ops := by
  rw [SortedMap.mem_keys, not_not, SortedMap.get_applyAll] at gone
  rw [SortedMap.mem_keys] at inBase
  cases last : lastFor MapOp.key key ops with
  | none =>
      rw [last] at gone
      exact absurd gone inBase
  | some op =>
      obtain ⟨member, isKey⟩ := key_of_lastFor _ last
      rw [last] at gone
      cases op with
      | put other value => cases gone
      | delete other =>
          cases isKey
          exact mem_deleteKeys.mpr member

end

namespace Transaction

variable {txn : Transaction} {next : Workspace} {merging : Bool}

/-- What a save that wrote something has passed, and what it left. -/
structure Accepted (txn : Transaction) (next : Workspace) : Prop where
  nodeTypes : checkStagedNodeTypes txn.applied.schema txn.nodes = .ok ()
  edgeTypes : checkStagedEdgeTypes txn.applied.schema txn.edgesFwd = .ok ()
  schemaChange : txn.checkSchemaChange = .ok ()
  indexes : txn.maintainIndexes = .ok next.manifest.indexes
  integrity : txn.checkIntegrity = .ok ()
  maps : next.manifest = { txn.applied with indexes := next.manifest.indexes }
  conflicts : next.conflicts = txn.remainingConflicts

theorem saveInPlace_cases (saved : txn.saveInPlace merging = .ok next) :
    (txn.isDirty = false ∧ next = txn.base) ∨ txn.Accepted next := by
  rw [saveInPlace] at saved
  split at saved
  · next clean =>
      cases saved
      exact .inl ⟨by simpa using clean, rfl⟩
  · simp only [guard_eq_ok, bind_eq_ok, Except.ok.injEq] at saved
    obtain ⟨-, ⟨⟩, nodeTypes, ⟨⟩, edgeTypes, ⟨⟩, schemaChange, indexes, maintained, ⟨⟩,
      integrity, rfl⟩ := saved
    exact .inr ⟨nodeTypes, edgeTypes, schemaChange, maintained, integrity, rfl, rfl⟩

private theorem applied_of_clean (clean : txn.isDirty = false) :
    txn.schema = [] ∧ txn.nodes = [] ∧ txn.edgesFwd = [] ∧ txn.edgesRev = [] := by
  simpa [isDirty] using clean

theorem saveInPlace_maps (saved : txn.saveInPlace merging = .ok next) :
    next.manifest = { txn.applied with indexes := next.manifest.indexes } := by
  rcases saveInPlace_cases saved with ⟨clean, rfl⟩ | accepted
  · obtain ⟨schema, nodes, edgesFwd, edgesRev⟩ := applied_of_clean clean
    simp only [applied, schema, nodes, edgesFwd, edgesRev]
    rfl
  · exact accepted.maps

/-- What a change of the schema has passed. -/
structure SchemaChanged (txn : Transaction) : Prop where
  oldEntries : readSchema txn.base.manifest.schema =
    .ok (schemaEntries txn.base.manifest.schema)
  newEntries : readSchema txn.applied.schema = .ok (schemaEntries txn.applied.schema)
  labelKeys : checkLabelKeyStability txn.base.manifest.nodes
    (labelKeys (schemaEntries txn.base.manifest.schema))
    (labelKeys (schemaEntries txn.applied.schema)) = .ok ()
  discriminators : checkRelDiscStability txn.base.manifest.edgesFwd txn.applied.edgesFwd
    (schemaEntries txn.base.manifest.schema) (schemaEntries txn.applied.schema) = .ok ()
  labels : checkRetypedLabels txn.base.manifest.nodes
    (schemaEntries txn.base.manifest.schema) (schemaEntries txn.applied.schema)
    (txn.nodes.map MapOp.key) = .ok ()
  relTypes : checkRetypedRelTypes txn.base.manifest.edgesFwd
    (schemaEntries txn.base.manifest.schema) (schemaEntries txn.applied.schema)
    (txn.edgesFwd.map MapOp.key) = .ok ()

end Transaction

theorem readSchema_eq {schema : SchemaMap} {entries : List SchemaEntry}
    (read : readSchema schema = .ok entries) : entries = schemaEntries schema := by
  simp only [readSchema, check_bind_eq_ok, Except.ok.injEq] at read
  exact read.2.symm

/-- A save leaves the schema alone, or its change has passed. -/
theorem Transaction.checkSchemaChange_cases {txn : Transaction}
    (checked : txn.checkSchemaChange = .ok ()) :
    txn.schema = [] ∨ txn.SchemaChanged := by
  rw [checkSchemaChange] at checked
  split at checked
  · next none => exact .inl (List.isEmpty_iff.mp none)
  · simp only [bind_eq_ok] at checked
    obtain ⟨oldEntries, readOld, newEntries, readNew, ⟨⟩, labelKeys, ⟨⟩, discriminators, ⟨⟩,
      labels, relTypes⟩ := checked
    cases readSchema_eq readOld
    cases readSchema_eq readNew
    exact .inr ⟨readOld, readNew, labelKeys, discriminators, labels, relTypes⟩

/-- Every row stands under a key of its map. -/
structure Keyed (manifest : Manifest) : Prop where
  schema : SchemaKeyed manifest.schema
  nodes : ∀ key ∈ manifest.nodes.keys, ∃ node, NodeKey.decode key = .ok node
  edges : ∀ key ∈ manifest.edgesFwd.keys, ∃ edge, EdgeKey.decodeFwd key = .ok edge

theorem blank_keyed : Keyed blank.manifest :=
  ⟨(fun _ member => nomatch member), (fun _ member => nomatch member),
    (fun _ member => nomatch member)⟩

theorem get_applyAll_cases {V : Type} {map : SortedMap Bytes V}
    {ops : List (MapOp Bytes V)} {key : Bytes} {value : V}
    (found : (map.applyAll ops).get key = some value) :
    (∃ op ∈ ops, op.key = key ∧ op.outcome = some value) ∨
      ((∀ op ∈ ops, op.key ≠ key) ∧ map.get key = some value) := by
  rw [SortedMap.get_applyAll] at found
  cases last : lastFor MapOp.key key ops with
  | none =>
      rw [last] at found
      exact .inr ⟨(lastFor_eq_none _).mp last, found⟩
  | some op =>
      rw [last] at found
      obtain ⟨member, isKey⟩ := key_of_lastFor _ last
      exact .inl ⟨op, member, isKey, found⟩

namespace Transaction

variable {txn : Transaction} {next : Workspace} {merging : Bool}

theorem applied_keyed (keyed : Keyed txn.base.manifest) (staged : txn.StagedKeys) :
    Keyed txn.applied where
  schema := by
    intro row member
    rcases get_applyAll_cases (SortedMap.get_eq_some_iff.mpr member) with
      ⟨op, isOp, isKey, put⟩ | ⟨-, old⟩
    · rw [← isKey]
      exact staged.schema op isOp _ put
    · exact keyed.schema row (SortedMap.get_eq_some_iff.mp old)
  nodes := by
    intro key member
    rw [SortedMap.mem_keys, Option.ne_none_iff_exists'] at member
    obtain ⟨record, found⟩ := member
    rcases get_applyAll_cases found with ⟨op, isOp, rfl, -⟩ | ⟨-, old⟩
    · exact staged.nodes op isOp
    · exact keyed.nodes key (SortedMap.mem_keys.mpr (by rw [old]; exact nofun))
  edges := by
    intro key member
    rw [SortedMap.mem_keys, Option.ne_none_iff_exists'] at member
    obtain ⟨record, found⟩ := member
    rcases get_applyAll_cases found with ⟨op, isOp, rfl, -⟩ | ⟨-, old⟩
    · exact staged.edges op isOp
    · exact keyed.edges key (SortedMap.mem_keys.mpr (by rw [old]; exact nofun))

end Transaction

theorem Keyed.of_maps {manifest other : Manifest} {indexes : Indexes}
    (keyed : Keyed other) (same : manifest = { other with indexes := indexes }) :
    Keyed manifest := by
  subst same
  exact ⟨keyed.schema, keyed.nodes, keyed.edges⟩

inductive Saves (allowed : Transaction → Prop) : Workspace → Prop
  | blank : Saves allowed blank
  | save {base next : Workspace} {writes : List Write} {merging : Bool} :
      Saves allowed base → allowed ((Transaction.beginWrite base).stage writes) →
      ((Transaction.beginWrite base).stage writes).saveInPlace merging = .ok next →
      Saves allowed next

theorem Saves.keyed {allowed : Transaction → Prop} {workspace : Workspace}
    (run : Saves allowed workspace) : Keyed workspace.manifest := by
  induction run with
  | blank => exact blank_keyed
  | @save base next writes merging _ _ saved ih =>
      have keyed := Transaction.applied_keyed
        ((Transaction.stage_base base writes).symm ▸ ih)
        (Transaction.stage_stagedKeys base writes)
      exact keyed.of_maps (Transaction.saveInPlace_maps saved)

end Acetone.Graph

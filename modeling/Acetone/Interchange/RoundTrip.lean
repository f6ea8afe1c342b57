import Acetone.Interchange.Jobs

/-!
# Export and import

All tables of a version are imported into a workspace of the same schema: the
node tables in any order, then the edge tables in any order, each in batches
of any size.  The version is reproduced exactly if it is faithful.
-/

namespace Acetone.Interchange

open Acetone.Lib Acetone.Model Acetone.Graph

/-- A fresh workspace of a schema, with whatever indexes it keeps. -/
def fresh (schema : SchemaMap) (indexes : Indexes) : Workspace :=
  ⟨⟨schema, .empty, .empty, .empty, indexes⟩, none⟩

/-- The imports succeed and leave the nodes and the edges of the version. -/
def Reproduces (numerals : Numerals) (digits : UInt64 → Nat) (manifest : Manifest)
    (start : Workspace) (jobs : List Job) : Prop :=
  ∃ after, importAll numerals digits start jobs = .ok after ∧
    after.manifest.nodes = manifest.nodes ∧ after.manifest.edgesFwd = manifest.edgesFwd ∧
    after.manifest.edgesRev = manifest.edgesRev

def Put.RowOf (manifest : Manifest) : Put → Prop
  | .node key record => ∃ bytes, NodeKey.decode bytes = .ok key ∧
      manifest.nodes.get bytes = some record
  | .edge key record => ∃ bytes, EdgeKey.decodeFwd bytes = .ok key ∧
      manifest.edgesFwd.get bytes = some record

/-- The workspace holds a part of the version. -/
structure Rebuilding (manifest : Manifest) (workspace : Workspace) : Prop where
  schema : workspace.manifest.schema = manifest.schema
  settled : workspace.conflicts = none
  keyed : Keyed workspace.manifest
  mirrored : workspace.EdgesMirrored
  nodes : ∀ {key : Bytes} {record : NodeRecord}, workspace.manifest.nodes.get key = some record →
    manifest.nodes.get key = some record
  edges : ∀ {key : Bytes} {record : EdgeRecord},
    workspace.manifest.edgesFwd.get key = some record → manifest.edgesFwd.get key = some record

/-- The workspace holds all that it held. -/
structure Grows (before after : Workspace) : Prop where
  nodes : ∀ {key : Bytes} {record : NodeRecord}, before.manifest.nodes.get key = some record →
    after.manifest.nodes.get key = some record
  edges : ∀ {key : Bytes} {record : EdgeRecord}, before.manifest.edgesFwd.get key = some record →
    after.manifest.edgesFwd.get key = some record

section

variable {manifest : Manifest} {before middle after : Workspace}

theorem Grows.refl (workspace : Workspace) : Grows workspace workspace := ⟨id, id⟩

theorem Grows.trans (first : Grows before middle) (second : Grows middle after) :
    Grows before after :=
  ⟨fun found => second.nodes (first.nodes found), fun found => second.edges (first.edges found)⟩

theorem Grows.rowOf (grows : Grows before after) {put : Put} (isRow : put.RowOf before.manifest) :
    put.RowOf after.manifest := by
  cases put with
  | node key record =>
      obtain ⟨bytes, decodes, found⟩ := isRow
      exact ⟨bytes, decodes, grows.nodes found⟩
  | edge key record =>
      obtain ⟨bytes, decodes, found⟩ := isRow
      exact ⟨bytes, decodes, grows.edges found⟩

theorem Rebuilding.nodes_eq (rebuilding : Rebuilding manifest after) (grows : Grows before after)
    (complete : before.manifest.nodes = manifest.nodes) :
    after.manifest.nodes = manifest.nodes := by
  apply SortedMap.ext_get
  intro key
  ext record
  constructor
  · exact rebuilding.nodes
  · intro found
    rw [← complete] at found
    exact grows.nodes found

end

section

variable {manifest : Manifest}

private theorem nodesConform (faithful : Faithful manifest) {ops : List (MapOp Bytes NodeRecord)}
    (agree : AgreeWith manifest.nodes ops) :
    StagedConforms nodeTypeRules manifest.schema ops := by
  intro op isOp record outcome node isNode decl declared
  obtain ⟨value, isPut, found⟩ := agree op isOp
  rw [isPut] at outcome
  cases outcome
  have decodes : NodeKey.decode op.key = .ok node := liftKey_eq_ok.mp (mem_toOption.mp isNode)
  obtain ⟨again, alsoDeclared, survives⟩ := faithful.nodes found decodes
  have declared : (labelDefs manifest.schema).get node.label = some decl := declared
  rw [declared, Option.some.injEq] at alsoDeclared
  subst alsoDeclared
  exact survives.conforms

private theorem edgesConform (faithful : Faithful manifest) {ops : List (MapOp Bytes EdgeRecord)}
    (agree : AgreeWith manifest.edgesFwd ops) :
    StagedConforms edgeTypeRules manifest.schema ops := by
  intro op isOp record outcome edge isEdge decl declared
  obtain ⟨value, isPut, found⟩ := agree op isOp
  rw [isPut] at outcome
  cases outcome
  have decodes : EdgeKey.decodeFwd op.key = .ok edge := liftKey_eq_ok.mp (mem_toOption.mp isEdge)
  have survives := faithful.edges found decodes
  have declared : (relTypeDefs manifest.schema).get edge.rtype = some decl := declared
  rw [declared] at survives
  exact survives.conforms

/-- A batch of rows of a faithful version is saved, and its rows are there. -/
private theorem nodeRow_of_rowOf {batch : List Put} (rows : ∀ put ∈ batch, put.RowOf manifest)
    {put : NodeKey × NodeRecord} (isPut : put ∈ nodesOf batch) :
    ∃ own, put.1.encode = .ok own ∧ NodeKey.decode own = .ok put.1 ∧
      manifest.nodes.get own = some put.2 := by
  obtain ⟨own, decodes, found⟩ := rows _ (mem_nodesOf.mp isPut)
  exact ⟨own, NodeKey.encode_of_decode decodes, decodes, found⟩

private theorem edgeRow_of_rowOf {batch : List Put} (rows : ∀ put ∈ batch, put.RowOf manifest)
    {put : EdgeKey × EdgeRecord} (isPut : put ∈ edgesOf batch) :
    ∃ forward, put.1.encodeFwd = .ok forward ∧ EdgeKey.decodeFwd forward = .ok put.1 ∧
      manifest.edgesFwd.get forward = some put.2 := by
  obtain ⟨forward, decodes, found⟩ := rows _ (mem_edgesOf.mp isPut)
  exact ⟨forward, EdgeKey.encodeFwd_of_decodeFwd decodes, decodes, found⟩

/-- A batch of rows of a faithful version is not reported. -/
private theorem batch_judged (faithful : Faithful manifest) {tracker : UniqueTracker}
    (within : UniqueTracker.Within
      (UniqueTracker.Holds (labelDefs manifest.schema) manifest.nodes) tracker)
    {batch : List Put} (rows : ∀ put ∈ batch, put.RowOf manifest) :
    ∃ next, tracker.applyBatch (labelDefs manifest.schema) (nodesOf batch) = .ok ([], next) ∧
      UniqueTracker.Within
        (UniqueTracker.Holds (labelDefs manifest.schema) manifest.nodes) next := by
  have unshared : ∀ first second claim,
      UniqueTracker.Holds (labelDefs manifest.schema) manifest.nodes first claim →
      UniqueTracker.Holds (labelDefs manifest.schema) manifest.nodes second claim →
        first = second := by
    rintro first second claim ⟨record, node, found, decodes, isClaim⟩
      ⟨other, rival, alsoFound, alsoDecodes, alsoClaim⟩
    by_contra apart
    exact faithful.obeyed.unique found decodes alsoFound alsoDecodes apart claim isClaim alsoClaim
  apply @UniqueTracker.applyBatch_total _ tracker (labelDefs manifest.schema) faithful.numbered
    unshared within (nodesOf batch)
  · intro put isPut
    obtain ⟨own, encodes, decodes, found⟩ := nodeRow_of_rowOf rows isPut
    exact ⟨own, encodes, fun claim isClaim => ⟨put.2, put.1, found, decodes, isClaim⟩⟩
  · intro put isPut decl declared
    obtain ⟨own, -, decodes, found⟩ := nodeRow_of_rowOf rows isPut
    exact faithful.obeyed.required found decodes declared

theorem saveBatch_rebuilds (faithful : Faithful manifest) {entries : List SchemaEntry}
    (readable : readSchema manifest.schema = .ok entries) {tracker : UniqueTracker}
    {workspace : Workspace} (rebuilding : Rebuilding manifest workspace)
    (within : UniqueTracker.Within
      (UniqueTracker.Holds (labelDefs manifest.schema) manifest.nodes) tracker)
    {batch : List Put} (rows : ∀ put ∈ batch, put.RowOf manifest)
    (ready : edgesOf batch ≠ [] → workspace.manifest.nodes = manifest.nodes) :
    ∃ next after, saveBatch (labelDefs manifest.schema) (tracker, workspace) batch =
        .ok (next, after) ∧
      UniqueTracker.Within (UniqueTracker.Holds (labelDefs manifest.schema) manifest.nodes) next ∧
      Rebuilding manifest after ∧ Grows workspace after ∧
      ∀ put ∈ batch, put.RowOf after.manifest := by
  obtain ⟨next, judges, nextWithin⟩ := batch_judged faithful within rows
  obtain ⟨txn, writes⟩ := batchStaged_total
    (fun put isPut => (nodeRow_of_rowOf rows isPut).imp fun _ row => row.1)
    (fun put isPut => (edgeRow_of_rowOf rows isPut).imp fun _ row => row.1) workspace
  have staged := batchStaged writes
  have nodesAgree : AgreeWith manifest.nodes txn.nodes := by
    intro op isOp
    obtain ⟨put, isPut, own, encodes, rfl⟩ := staged.mem_nodes.mp isOp
    obtain ⟨again, alsoEncodes, -, found⟩ := nodeRow_of_rowOf rows isPut
    rw [encodes, Except.ok.injEq] at alsoEncodes
    exact ⟨put.2, rfl, alsoEncodes ▸ found⟩
  have edgesAgree : AgreeWith manifest.edgesFwd txn.edgesFwd := by
    intro op isOp
    obtain ⟨put, isPut, forward, encodes, rfl⟩ := (staged.edges _).mp isOp
    obtain ⟨again, alsoEncodes, -, found⟩ := edgeRow_of_rowOf rows isPut
    rw [encodes, Except.ok.injEq] at alsoEncodes
    exact ⟨put.2, rfl, alsoEncodes ▸ found⟩
  obtain ⟨nodesPart, nodesGrow, nodesShown⟩ :=
    nodesAgree.get_applyAll fun _ _ => rebuilding.nodes
  obtain ⟨edgesPart, edgesGrow, edgesShown⟩ :=
    edgesAgree.get_applyAll fun _ _ => rebuilding.edges
  have anchored : ∀ forward ∈ putKeys txn.edgesFwd, Anchored txn.applied.nodes forward := by
    intro forward isPut edge decodes endpoint isEndpoint key encodes
    obtain ⟨record, isOp⟩ := mem_putKeys.mp isPut
    obtain ⟨value, -, found⟩ := edgesAgree _ isOp
    obtain ⟨put, inBatch, -⟩ := (staged.edges _).mp isOp
    have complete := ready (List.ne_nil_of_mem inBatch)
    have present := faithful.whole forward
      (SortedMap.mem_keys.mpr (Option.ne_none_iff_exists'.mpr ⟨value, found⟩)) edge decodes endpoint
      isEndpoint key encodes
    rw [SortedMap.mem_keys, Option.ne_none_iff_exists'] at present ⊢
    obtain ⟨other, isThere⟩ := present
    rw [staged.applied_nodes]
    exact ⟨other, nodesGrow key other (by rwa [complete])⟩
  have readableHere : readSchema workspace.manifest.schema = .ok entries := by
    rw [rebuilding.schema]
    exact readable
  obtain ⟨after, saves⟩ := staged.save_total rebuilding.settled rebuilding.keyed
    rebuilding.mirrored.maps readableHere (rebuilding.schema ▸ nodesConform faithful nodesAgree)
    (rebuilding.schema ▸ edgesConform faithful edgesAgree) anchored
  have maps := Transaction.saveInPlace_maps saves
  have afterNodes : after.manifest.nodes = workspace.manifest.nodes.applyAll txn.nodes := by
    rw [maps]
    exact staged.applied_nodes
  have afterEdges : after.manifest.edgesFwd =
      workspace.manifest.edgesFwd.applyAll txn.edgesFwd := by
    rw [maps]
    exact staged.applied_edgesFwd
  refine ⟨next, after, ?_, nextWithin, ⟨?_, ?_, ?_, ?_, ?_, ?_⟩, ⟨?_, ?_⟩, ?_⟩
  · have stages := stageBatch_eq_ok.mpr writes
    have judges : tracker.applyBatch (labelDefs manifest.schema) (batch.filterMap Put.node?) =
        .ok ([], next) := judges
    simp only [saveBatch, judges, stages, saves, Except.mapError, ok_bind, ne_eq,
      not_true_eq_false, if_false]
    rfl
  · rw [maps]
    exact staged.applied_schema.trans rebuilding.schema
  · rcases Transaction.saveInPlace_cases saves with ⟨-, rfl⟩ | accepted
    · rw [staged.ofBase]
      exact rebuilding.settled
    · rw [accepted.conflicts, Transaction.remainingConflicts, staged.ofBase, rebuilding.settled]
  · exact (Transaction.applied_keyed (staged.ofBase.symm ▸ rebuilding.keyed) staged.keys).of_maps
      maps
  · exact Transaction.saveInPlace_mirrored (staged.ofBase.symm ▸ rebuilding.mirrored)
      (staged.inStep rebuilding.mirrored.maps) saves
  · rw [afterNodes]
    exact fun {key record} found => nodesPart key record found
  · rw [afterEdges]
    exact fun {key record} found => edgesPart key record found
  · rw [afterNodes]
    exact fun {key record} found => nodesGrow key record found
  · rw [afterEdges]
    exact fun {key record} found => edgesGrow key record found
  · intro put isPut
    cases put with
    | node key record =>
        obtain ⟨own, decodes, found⟩ := rows _ isPut
        have encodes := NodeKey.encode_of_decode decodes
        refine ⟨own, decodes, ?_⟩
        have isOp := staged.mem_nodes.mpr ⟨(key, record), mem_nodesOf.mpr isPut, own, encodes, rfl⟩
        have shown := nodesShown _ isOp
        rw [afterNodes]
        exact shown.trans found
    | edge key record =>
        obtain ⟨own, decodes, found⟩ := rows _ isPut
        have encodes := EdgeKey.encodeFwd_of_decodeFwd decodes
        refine ⟨own, decodes, ?_⟩
        have isOp := (staged.edges _).mpr
          ⟨(key, record), mem_edgesOf.mpr isPut, own, encodes, rfl⟩
        have shown := edgesShown _ isOp
        rw [afterEdges]
        exact shown.trans found

private theorem batches_rebuild (faithful : Faithful manifest) {entries : List SchemaEntry}
    (readable : readSchema manifest.schema = .ok entries) {tracker : UniqueTracker}
    {workspace : Workspace} (rebuilding : Rebuilding manifest workspace)
    (within : UniqueTracker.Within
      (UniqueTracker.Holds (labelDefs manifest.schema) manifest.nodes) tracker)
    {batches : List (List Put)} (rows : ∀ batch ∈ batches, ∀ put ∈ batch, put.RowOf manifest)
    (ready : ∀ batch ∈ batches, edgesOf batch ≠ [] → workspace.manifest.nodes = manifest.nodes) :
    ∃ state, batches.foldlM (saveBatch (labelDefs manifest.schema)) (tracker, workspace) =
        .ok state ∧ Rebuilding manifest state.2 ∧ Grows workspace state.2 ∧
      ∀ batch ∈ batches, ∀ put ∈ batch, put.RowOf state.2.manifest := by
  induction batches generalizing tracker workspace with
  | nil =>
      refine ⟨(tracker, workspace), rfl, rebuilding, .refl workspace, ?_⟩
      intro batch isBatch
      cases isBatch
  | cons batch batches ih =>
      obtain ⟨firstRows, rows⟩ := List.forall_mem_cons.mp rows
      obtain ⟨firstReady, ready⟩ := List.forall_mem_cons.mp ready
      obtain ⟨next, middle, saves, nextWithin, middleRebuilding, firstGrows, firstShown⟩ :=
        saveBatch_rebuilds faithful readable rebuilding within firstRows firstReady
      obtain ⟨state, rest, lastRebuilding, grows, shown⟩ := ih middleRebuilding nextWithin rows
        fun other isBatch hasEdges =>
          middleRebuilding.nodes_eq firstGrows (ready other isBatch hasEdges)
      refine ⟨state, ?_, lastRebuilding, firstGrows.trans grows, ?_⟩
      · rw [List.foldlM_cons, saves, ok_bind, rest]
      · exact List.forall_mem_cons.mpr ⟨fun put isPut => grows.rowOf (firstShown put isPut), shown⟩

structure Job.Reads (numerals : Numerals) (digits : UInt64 → Nat) (manifest : Manifest)
    (job : Job) (puts : List Put) : Prop where
  reads : ∃ mapping, buildMapping job.flags = .ok mapping ∧
    job.objects.mapM (readObject numerals manifest.schema mapping) = .ok puts
  lines : job.format = .ndjson → ∀ object ∈ job.objects, object.size digits ≤ maxRecordBytes
  rows : ∀ put ∈ puts, put.RowOf manifest

variable {numerals : Numerals} {digits : UInt64 → Nat}

theorem run_rebuilds (faithful : Faithful manifest) {entries : List SchemaEntry}
    (readable : readSchema manifest.schema = .ok entries) {workspace : Workspace}
    (rebuilding : Rebuilding manifest workspace) {job : Job} {puts : List Put}
    (reads : job.Reads numerals digits manifest puts)
    (ready : edgesOf puts ≠ [] → workspace.manifest.nodes = manifest.nodes) :
    ∃ after, job.run numerals digits workspace = .ok after ∧ Rebuilding manifest after ∧ Grows workspace after ∧
      ∀ put ∈ puts, put.RowOf after.manifest := by
  cases readSchema_eq readable
  obtain ⟨tracker, seeds, within⟩ := @UniqueTracker.seed_total _ (labelDefs manifest.schema)
    faithful.numbered workspace.manifest.nodes (by
      intro row isRow
      have found := rebuilding.nodes (SortedMap.get_eq_some_iff.mpr isRow)
      obtain ⟨node, decodes⟩ := rebuilding.keyed.nodes row.1 (List.mem_map_of_mem isRow)
      exact ⟨node, decodes, fun claim isClaim => ⟨row.2, node, found, decodes, isClaim⟩⟩)
  have inPuts : ∀ batch ∈ puts.toChunks (max (job.batchSize.getD defaultImportBatch) 1),
      ∀ put ∈ batch, put ∈ puts := by
    intro batch isBatch put isPut
    rw [← flatten_toChunks (max (job.batchSize.getD defaultImportBatch) 1) puts]
    exact List.mem_flatten.mpr ⟨batch, isBatch, isPut⟩
  obtain ⟨state, saves, lastRebuilding, grows, shown⟩ := batches_rebuild faithful readable
    rebuilding within (fun batch isBatch put isPut => reads.rows put (inPuts batch isBatch put isPut))
    (by
      intro batch isBatch hasEdges
      apply ready
      obtain ⟨edge, isEdge⟩ := List.exists_mem_of_ne_nil _ hasEdges
      exact List.ne_nil_of_mem
        (mem_edgesOf.mpr (inPuts batch isBatch _ (mem_edgesOf.mp isEdge))))
  obtain ⟨mapping, builds, made⟩ := reads.reads
  refine ⟨state.2, Job.run_eq_ok.mpr ⟨mapping, builds, reads.lines, ?_⟩, lastRebuilding, grows, ?_⟩
  · have read : readSchema workspace.manifest.schema = .ok (schemaEntries manifest.schema) := by
      rw [rebuilding.schema]
      exact readable
    exact bind_eq_ok.mpr ⟨_, mapError_eq_ok.mpr read, bind_eq_ok.mpr ⟨tracker,
      mapError_eq_ok.mpr seeds, bind_eq_ok.mpr ⟨puts, made, bind_eq_ok.mpr
        ⟨state, saves, rfl⟩⟩⟩⟩
  · intro put isPut
    rw [← flatten_toChunks (max (job.batchSize.getD defaultImportBatch) 1) puts] at isPut
    obtain ⟨batch, isBatch, inBatch⟩ := List.mem_flatten.mp isPut
    exact shown batch isBatch put inBatch

private theorem Job.Reads.unique {job : Job} {puts others : List Put}
    (reads : job.Reads numerals digits manifest puts) (again : job.Reads numerals digits manifest others) :
    puts = others := by
  obtain ⟨mapping, builds, made⟩ := reads.reads
  obtain ⟨other, buildsOther, makesOther⟩ := again.reads
  cases builds.symm.trans buildsOther
  exact Except.ok.inj (made.symm.trans makesOther)

theorem importAll_rebuilds (faithful : Faithful manifest) {entries : List SchemaEntry}
    (readable : readSchema manifest.schema = .ok entries) {workspace : Workspace}
    (rebuilding : Rebuilding manifest workspace) {jobs : List Job}
    (reads : ∀ job ∈ jobs, ∃ puts, job.Reads numerals digits manifest puts)
    (ready : ∀ job ∈ jobs, ∀ puts, job.Reads numerals digits manifest puts → edgesOf puts ≠ [] →
      workspace.manifest.nodes = manifest.nodes) :
    ∃ after, importAll numerals digits workspace jobs = .ok after ∧ Rebuilding manifest after ∧
      Grows workspace after ∧ ∀ job ∈ jobs, ∀ puts, job.Reads numerals digits manifest puts →
        ∀ put ∈ puts, put.RowOf after.manifest := by
  induction jobs generalizing workspace with
  | nil =>
      refine ⟨workspace, rfl, rebuilding, .refl workspace, ?_⟩
      intro job isJob
      cases isJob
  | cons job jobs ih =>
      obtain ⟨⟨puts, firstReads⟩, reads⟩ := List.forall_mem_cons.mp reads
      obtain ⟨firstReady, ready⟩ := List.forall_mem_cons.mp ready
      obtain ⟨middle, imports, middleRebuilding, firstGrows, firstShown⟩ :=
        run_rebuilds faithful readable rebuilding firstReads (firstReady puts firstReads)
      obtain ⟨after, rest, afterRebuilding, grows, shown⟩ := ih middleRebuilding reads
        fun other isJob puts readsOther hasEdges =>
          middleRebuilding.nodes_eq firstGrows (ready other isJob puts readsOther hasEdges)
      have rest : jobs.foldlM (Job.run numerals digits) middle = .ok after := rest
      refine ⟨after, ?_, afterRebuilding, firstGrows.trans grows, ?_⟩
      · rw [importAll, List.foldlM_cons, imports, ok_bind, rest]
      · refine List.forall_mem_cons.mpr ⟨?_, shown⟩
        intro others readsOthers put isPut
        rw [← firstReads.unique readsOthers] at isPut
        exact grows.rowOf (firstShown put isPut)

end

/-- No value of the version is an infinite float or a NaN. -/
structure AllFinite (manifest : Manifest) : Prop where
  nodes : ∀ {key : Bytes} {record : NodeRecord} {node : NodeKey},
    manifest.nodes.get key = some record → NodeKey.decode key = .ok node → NodeFinite node record
  edges : ∀ {key : Bytes} {record : EdgeRecord} {edge : EdgeKey},
    manifest.edgesFwd.get key = some record → EdgeKey.decodeFwd key = .ok edge →
      EdgeFinite edge record

section

variable {numerals : Numerals} {digits : UInt64 → Nat} {manifest : Manifest} {format : Format}

private theorem mapM_map_eq_ok {α β γ failure : Type} {items : List α} {made : α → β} {result : α → γ}
    {f : β → Except failure γ} (each : ∀ item ∈ items, f (made item) = .ok (result item)) :
    (items.map made).mapM f = .ok (items.map result) := by
  rw [mapM_eq_ok, List.forall₂_map_left_iff, List.forall₂_map_right_iff, List.forall₂_same]
  exact each

private theorem readObject_node {decl : LabelDef} {node : NodeKey} {record : NodeRecord}
    (declared : (labelDefs manifest.schema).get node.label = some decl)
    (survives : NodeSurvives decl node record) (finite : NodeFinite node record)
    {columns : List String}
    (covers : ∀ name value, (nodeProperties node record
      (keyNames (schemaEntries manifest.schema))).get name = some value → name ∈ columns) :
    readObject numerals manifest.schema (.node node.label) (rowObject columns
      (nodeProperties node record (keyNames (schemaEntries manifest.schema)))) =
        .ok (.node node record) := by
  have named : (keyNames (schemaEntries manifest.schema)).get node.label = some decl.key := by
    have mapped := SortedMap.get_ofList_map LabelDef.key
      ((schemaEntries manifest.schema).filterMap labelPair?) node.label
    have declared : (SortedMap.ofList ((schemaEntries manifest.schema).filterMap
      labelPair?)).get node.label = some decl := declared
    rw [declared] at mapped
    exact mapped
  have parts := fun name value => @get_nodeProperties decl node record _ named name value
  have plain : ∀ name value, (nodeProperties node record
      (keyNames (schemaEntries manifest.schema))).get name = some value → Plain value := by
    intro name value found
    rcases (parts name value).mp found with ⟨stored, isStored, rfl⟩ | ⟨-, inZip⟩
    · exact (survives.properties name stored isStored).plain
    · exact (survives.key (name, value) (mem_of_lookup_eq_some inZip)).plain
  have finite : ∀ name value, (nodeProperties node record
      (keyNames (schemaEntries manifest.schema))).get name = some value → Finite value := by
    intro name value found
    rcases (parts name value).mp found with ⟨stored, isStored, rfl⟩ | ⟨-, inZip⟩
    · exact finite.properties name stored isStored
    · exact finite.key value (List.of_mem_zip (mem_of_lookup_eq_some inZip)).2
  rw [readObject, jsonObjectToRow_rowObject covers plain finite, ok_bind]
  simp only [mapRow, ok_bind, canonical, declared,
    nodeKeyAndRecord_of_survives named survives]
  rfl

private theorem EndpointSurvives.plain {labels : SortedMap String LabelDef} {node : NodeKey}
    (survives : EndpointSurvives labels node) : ∀ value ∈ node.key, Plain value := by
  obtain ⟨decl, -, sameLength, values⟩ := survives
  intro value isValue
  rw [← List.map_snd_zip sameLength.le] at isValue
  obtain ⟨entry, isEntry, rfl⟩ := List.mem_map.mp isValue
  exact (values entry isEntry).plain

private theorem EdgeSurvives.plainDisc {decl : Option RelTypeDef} {edge : EdgeKey}
    {record : EdgeRecord} (survives : EdgeSurvives decl edge record) : Plain edge.disc := by
  cases declared : decl.bind RelTypeDef.discriminator with
  | none =>
      rw [survives.undiscriminated declared]
      trivial
  | some name =>
      obtain ⟨-, value, -⟩ := survives.discriminated name declared
      exact value.plain

private theorem readObject_edge {edge : EdgeKey} {record : EdgeRecord} {source target : Value}
    (isSource : edge.src.key = [source]) (isTarget : edge.dst.key = [target])
    (survives : EdgeSurvives ((relTypeDefs manifest.schema).get edge.rtype) edge record)
    (sourceSurvives : EndpointSurvives (labelDefs manifest.schema) edge.src)
    (targetSurvives : EndpointSurvives (labelDefs manifest.schema) edge.dst)
    (finite : EdgeFinite edge record) (sourceFinite : Finite source) (targetFinite : Finite target)
    (unreserved : Unreserved record) {columns : List String}
    (covers : ∀ name value, (edgeRow edge source target record.properties).get name = some value →
      name ∈ columns) :
    readObject numerals manifest.schema (.edge edge.rtype ⟨edge.src.label, ["src"]⟩
        ⟨edge.dst.label, ["dst"]⟩ (discField ((relTypeDefs manifest.schema).get edge.rtype)))
      (rowObject columns (edgeRow edge source target record.properties)) =
        .ok (.edge edge record) := by
  have each : ∀ {property : Value → Prop}, property edge.disc → property source →
      property target → (∀ name stored, record.properties.get name = some stored →
        property stored.val) → ∀ name value,
          (edgeRow edge source target record.properties).get name = some value →
            property value := by
    intro property ofDisc ofSource ofTarget ofProperties name value found
    rw [get_edgeRow, Option.or_eq_some_iff, get_plainProperties] at found
    rcases found with ⟨stored, isStored, rfl⟩ | ⟨-, found⟩
    · exact ofProperties name stored isStored
    · split at found
      · cases found
        exact ofDisc
      · split at found
        · cases found
          exact ofTarget
        · split at found
          · cases found
            exact ofSource
          · cases found
  have plain := each survives.plainDisc
    (sourceSurvives.plain source (by rw [isSource]; exact List.mem_singleton_self _))
    (targetSurvives.plain target (by rw [isTarget]; exact List.mem_singleton_self _))
    fun name stored found => (survives.properties name stored found).plain
  have finite := each finite.disc sourceFinite targetFinite finite.properties
  have made := @canonical_of_edgeSurvives numerals edge record (labelDefs manifest.schema)
    (relTypeDefs manifest.schema) survives sourceSurvives targetSurvives
  rw [isSource, isTarget] at made
  rw [readObject, jsonObjectToRow_rowObject covers plain finite, ok_bind,
    mapRow_edgeRow survives unreserved, ok_bind]
  exact made

/-- The flags of an edge table are accepted, and with rows mean what they say. -/
private theorem buildMapping_edgeJob (rtypes : SortedMap String RelTypeDef) (format : Format)
    {ends : String → String × String} (size : String → Option Nat) {rtype : String} {table : Table}
    (flags : FlagRead table (ends rtype).1 "src" ∧ FlagRead table (ends rtype).2 "dst") :
    ∃ source target, buildMapping (edgeJob rtypes ends format size (rtype, table)).flags =
        .ok (.edge rtype source target (discField (rtypes.get rtype))) ∧
      (table.rows ≠ [] → source = ⟨(ends rtype).1, ["src"]⟩ ∧ target = ⟨(ends rtype).2, ["dst"]⟩) := by
  obtain ⟨source, parsesSource⟩ := flags.1.1
  obtain ⟨target, parsesTarget⟩ := flags.2.1
  refine ⟨source, target, ?_, ?_⟩
  · simp only [buildMapping, edgeJob, parsesSource, parsesTarget, ok_bind]
    rfl
  · intro rows
    have isSource := flags.1.parses rows (by decide)
    have isTarget := flags.2.parses rows (by decide)
    exact ⟨Except.ok.inj (parsesSource.symm.trans isSource),
      Except.ok.inj (parsesTarget.symm.trans isTarget)⟩

private theorem scanEdges_spec {rtype : String} {edges : List (EdgeKey × EdgeRecord)}
    {start scan : EdgeScan} (scans : edges.foldlM (scanEdge rtype) start = .ok scan) :
    scan.rows = start.rows ++ edges.map (fun edge => edgeRow edge.1 (edge.1.src.key.headD .null)
        (edge.1.dst.key.headD .null) edge.2.properties) ∧
      (start.hasDisc = true → scan.hasDisc = true) ∧
      ∀ edge ∈ edges, (∃ source target, edge.1.src.key = [source] ∧ edge.1.dst.key = [target]) ∧
        Unreserved edge.2 ∧ (edge.1.disc ≠ .null → scan.hasDisc = true) := by
  induction edges generalizing start with
  | nil =>
      cases scans
      refine ⟨(List.append_nil _).symm, id, ?_⟩
      intro edge isEdge
      cases isEdge
  | cons edge edges ih =>
      rw [List.foldlM_cons] at scans
      obtain ⟨middle, first, rest⟩ := bind_eq_ok.mp scans
      obtain ⟨rows, hasDisc, each⟩ := ih rest
      rw [scanEdge] at first
      split at first
      case h_2 => cases first
      next source target isSource isTarget =>
      dsimp only at first
      split at first
      · cases first
      split at first
      · cases first
      next allowed =>
      cases first
      refine ⟨?_, ?_, ?_⟩
      · rw [rows, List.map_cons, isSource, isTarget, List.append_assoc]
        rfl
      · intro already
        exact hasDisc (by rw [already, Bool.true_or])
      · refine List.forall_mem_cons.mpr ⟨⟨⟨source, target, isSource, isTarget⟩, ?_, ?_⟩, each⟩
        · intro name isReserved
          rw [List.find?_eq_none] at allowed
          by_contra present
          exact allowed name (SortedMap.mem_keys.mpr present) (decide_eq_true isReserved)
        · intro notNull
          exact hasDisc (by rw [decide_eq_true notNull, Bool.or_true])

private theorem nodeJob_reads (faithful : Faithful manifest) (finite : AllFinite manifest)
    {rows : List (Bytes × NodeKey × NodeRecord)} (reads : allNodes manifest.nodes = .ok rows)
    (label : String) (size : String → Option Nat) (lines : format = .ndjson →
      ∀ object ∈ toJson (nodeTable (rows.map Prod.snd) (keyNames (schemaEntries manifest.schema))
        label), object.size digits ≤ maxRecordBytes) :
    (nodeJob format size (label, nodeTable (rows.map Prod.snd)
        (keyNames (schemaEntries manifest.schema)) label)).Reads numerals digits manifest
      (((rows.map Prod.snd).filter fun row => row.1.label = label).map fun row =>
        .node row.1 row.2) := by
  have isRow : ∀ row ∈ (rows.map Prod.snd).filter fun row => row.1.label = label,
      row.1.label = label ∧ ∃ key, manifest.nodes.get key = some row.2 ∧
        NodeKey.decode key = .ok row.1 := by
    intro row member
    obtain ⟨isRow, isLabel⟩ := List.mem_filter.mp member
    obtain ⟨⟨key, node, record⟩, isEntry, rfl⟩ := List.mem_map.mp isRow
    exact ⟨of_decide_eq_true isLabel, key, (mem_allNodes reads).mp isEntry⟩
  refine ⟨⟨.node label, rfl, ?_⟩, lines, ?_⟩
  · simp only [nodeJob, toJson, nodeTable, List.map_map]
    apply mapM_map_eq_ok
    intro row member
    obtain ⟨isLabel, key, found, decodes⟩ := isRow row member
    obtain ⟨decl, declared, survives⟩ := faithful.nodes found decodes
    rw [← isLabel]
    apply readObject_node declared survives (finite.nodes found decodes)
    intro name value isValue
    refine mem_otherNames (List.mem_map.mpr ⟨row, ?_, rfl⟩) isValue
    rw [isLabel]
    exact member
  · intro put member
    obtain ⟨row, inTable, rfl⟩ := List.mem_map.mp member
    obtain ⟨-, key, found, decodes⟩ := isRow row inTable
    exact ⟨key, decodes, found⟩

/-- An endpoint of a faithful version survives, and its floats are finite. -/
private theorem endpoint_survives (faithful : Faithful manifest) (finite : AllFinite manifest)
    {node : NodeKey} {key : Bytes} (present : key ∈ manifest.nodes.keys)
    (decodes : NodeKey.decode key = .ok node) :
    EndpointSurvives (labelDefs manifest.schema) node ∧ ∀ value ∈ node.key, Finite value := by
  obtain ⟨record, found⟩ := Option.ne_none_iff_exists'.mp (SortedMap.mem_keys.mp present)
  obtain ⟨decl, declared, survives⟩ := faithful.nodes found decodes
  exact ⟨⟨decl, declared, survives.arity, survives.key⟩, (finite.nodes found decodes).key⟩

private theorem edgeJob_reads (faithful : Faithful manifest) (finite : AllFinite manifest)
    {edges : List (EdgeKey × EdgeRecord)} (reads : allEdges manifest.edgesFwd = .ok edges)
    {rtype : String} {table : Table} (made : edgeTable edges rtype = .ok table)
    {ends : String → String × String} (endpoints : ∀ edge ∈ edges,
      ends edge.1.rtype = (edge.1.src.label, edge.1.dst.label)) (size : String → Option Nat)
    (lines : format = .ndjson → ∀ object ∈ toJson table, object.size digits ≤ maxRecordBytes)
    (flags : FlagRead table (ends rtype).1 "src" ∧ FlagRead table (ends rtype).2 "dst") :
    (edgeJob (relTypeDefs manifest.schema) ends format size (rtype, table)).Reads numerals digits
      manifest
      ((edges.filter fun edge => edge.1.rtype = rtype).map fun edge => .edge edge.1 edge.2) := by
  obtain ⟨scan, scans, ⟨⟩⟩ := bind_eq_ok.mp made
  obtain ⟨rows, -, each⟩ := scanEdges_spec scans
  rw [List.nil_append] at rows
  have isEdge : ∀ edge ∈ edges.filter fun edge => edge.1.rtype = rtype,
      edge ∈ edges ∧ edge.1.rtype = rtype ∧ HoldsEdge manifest.edgesFwd edge.1 edge.2 := by
    intro edge member
    obtain ⟨isEdge, isType⟩ := List.mem_filter.mp member
    exact ⟨isEdge, of_decide_eq_true isType, (mem_allEdges reads).mp isEdge⟩
  obtain ⟨sourceSpec, targetSpec, builds, sameSpecs⟩ :=
    buildMapping_edgeJob (relTypeDefs manifest.schema) format size flags
  refine ⟨⟨_, builds, ?_⟩, lines, ?_⟩
  · simp only [edgeJob, toJson, rows, List.map_map]
    apply mapM_map_eq_ok
    intro edge member
    obtain ⟨rfl, rfl⟩ := sameSpecs (by
      rw [rows]
      exact List.ne_nil_of_mem (List.mem_map_of_mem member))
    obtain ⟨inEdges, isType, key, decodes, found⟩ := isEdge edge member
    obtain ⟨⟨source, target, isSource, isTarget⟩, unreserved, hasDisc⟩ := each edge member
    obtain ⟨src, dst, encodesSrc, encodesDst, decodesSrc, decodesDst⟩ :=
      EdgeKey.endpoint_of_decodeFwd decodes
    have anchored := faithful.whole key
      (SortedMap.mem_keys.mpr (Option.ne_none_iff_exists'.mpr ⟨edge.2, found⟩)) edge.1 decodes
    obtain ⟨sourceSurvives, sourceFinite⟩ := endpoint_survives faithful finite
      (anchored edge.1.src List.mem_cons_self src encodesSrc) decodesSrc
    obtain ⟨targetSurvives, targetFinite⟩ := endpoint_survives faithful finite
      (anchored edge.1.dst (List.mem_cons_of_mem _ List.mem_cons_self) dst encodesDst) decodesDst
    have sameEnds := endpoints edge inEdges
    rw [isType] at sameEnds
    have isHead : edge.1.src.key.headD .null = source ∧ edge.1.dst.key.headD .null = target := by
      rw [isSource, isTarget]
      exact ⟨rfl, rfl⟩
    simp only [Function.comp_apply, sameEnds, isHead.1, isHead.2]
    rw [← isType]
    apply readObject_edge isSource isTarget (faithful.edges found decodes) sourceSurvives
      targetSurvives (finite.edges found decodes)
      (sourceFinite source (by rw [isSource]; exact List.mem_singleton_self _))
      (targetFinite target (by rw [isTarget]; exact List.mem_singleton_self _)) unreserved
    intro name value isValue
    by_cases isReserved : name ∈ reservedColumns
    · apply List.mem_append_left
      have absent : (plainProperties edge.2.properties).get name = none := by
        rw [plainProperties, SortedMap.get_mapValues, unreserved name isReserved]
        rfl
      rw [get_edgeRow, absent, Option.none_or] at isValue
      by_cases isDisc : name = "disc" ∧ edge.1.disc ≠ .null
      · rw [hasDisc isDisc.2, if_pos rfl, isDisc.1]
        exact List.mem_cons_of_mem _ (List.mem_cons_of_mem _ List.mem_cons_self)
      · rw [if_neg isDisc] at isValue
        have isEnd : name ∈ ["src", "dst"] := by
          by_contra other
          simp only [List.mem_cons, List.not_mem_nil, or_false, not_or] at other
          rw [if_neg other.2, if_neg other.1] at isValue
          cases isValue
        split
        · exact List.mem_append_left ["disc"] isEnd
        · exact isEnd
    · refine List.mem_append_right _ ((List.mem_append.mp (mem_otherNames
        (List.mem_map.mpr ⟨edge, ?_, ?_⟩) isValue)).resolve_left isReserved)
      · rw [isType]
        exact member
      · rw [isHead.1, isHead.2]
  · intro put member
    obtain ⟨edge, inTable, rfl⟩ := List.mem_map.mp member
    exact (isEdge edge inTable).2.2

end

section

variable {numerals : Numerals} {digits : UInt64 → Nat} {format : Format} {manifest : Manifest}
  {tables : Tables} {nodeSize edgeSize : String → Option Nat} {ends : String → String × String}

private theorem exportAll_spec (exports : exportAll manifest = .ok tables) :
    readSchema manifest.schema = .ok (schemaEntries manifest.schema) ∧
    ∃ rows edges edgeTables, allNodes manifest.nodes = .ok rows ∧
      allEdges manifest.edgesFwd = .ok edges ∧
      (tableNames (schemaEntries manifest.schema) (rows.map Prod.snd) edges).2.mapM
        (exportEdges edges) = .ok edgeTables ∧
      tables = ⟨(tableNames (schemaEntries manifest.schema) (rows.map Prod.snd) edges).1.map
        fun label => (label, nodeTable (rows.map Prod.snd)
          (keyNames (schemaEntries manifest.schema)) label), edgeTables⟩ := by
  obtain ⟨entries, readable, exports⟩ := bind_eq_ok.mp exports
  have readable := mapError_eq_ok.mp readable
  cases readSchema_eq readable
  obtain ⟨rows, readsRows, exports⟩ := bind_eq_ok.mp exports
  obtain ⟨edges, readsEdges, exports⟩ := bind_eq_ok.mp exports
  obtain ⟨edgeTables, makes, ⟨⟩⟩ := bind_eq_ok.mp exports
  exact ⟨readable, rows, edges, edgeTables, mapError_eq_ok.mp readsRows,
    mapError_eq_ok.mp readsEdges, makes, rfl⟩

private theorem exists_edge_of_rows (exports : exportAll manifest = .ok tables)
    {table : String × Table} (isTable : table ∈ tables.edges) (rows : table.2.rows ≠ []) :
    ∃ (edge : EdgeKey) (record : EdgeRecord) (key : Bytes),
      manifest.edgesFwd.get key = some record ∧ EdgeKey.decodeFwd key = .ok edge ∧
        edge.rtype = table.1 := by
  obtain ⟨-, _, edges, edgeTables, -, readsEdges, makes, rfl⟩ := exportAll_spec exports
  obtain ⟨rtype, -, made⟩ := exists_of_mem_mapM makes isTable
  obtain ⟨table, makesTable, ⟨⟩⟩ := bind_eq_ok.mp made
  obtain ⟨scan, scans, ⟨⟩⟩ := bind_eq_ok.mp makesTable
  obtain ⟨sameRows, -, -⟩ := scanEdges_spec scans
  obtain ⟨row, isRow⟩ := List.exists_mem_of_ne_nil _ rows
  dsimp only at isRow
  rw [sameRows, List.nil_append] at isRow
  obtain ⟨edge, isEdge, -⟩ := List.mem_map.mp isRow
  obtain ⟨isEdge, isType⟩ := List.mem_filter.mp isEdge
  obtain ⟨key, decodes, found⟩ := (mem_allEdges readsEdges).mp isEdge
  exact ⟨edge.1, edge.2, key, found, decodes, of_decide_eq_true isType⟩

private theorem fresh_rebuilding (keyed : SchemaKeyed manifest.schema) (indexes : Indexes) :
    Rebuilding manifest (fresh manifest.schema indexes) := by
  refine ⟨rfl, rfl, ⟨keyed, ?_, ?_⟩, .of_settled Mirrored.empty, ?_, ?_⟩
  · intro key isKey
    cases isKey
  · intro key isKey
    cases isKey
  · intro key record found
    cases found
  · intro key record found
    cases found

section

variable (faithful : Faithful manifest) (finite : AllFinite manifest)
  (exports : exportAll manifest = .ok tables) (readable : Readable digits format ends tables)

include faithful finite exports readable

/-- The node tables bring every node back. -/
private theorem nodeJobs_rebuild {jobs : List Job}
    (ofNodes : jobs.Perm (tables.nodes.map (nodeJob format nodeSize))) {start : Workspace}
    (starts : Rebuilding manifest start) :
    ∃ after, importAll numerals digits start jobs = .ok after ∧ Rebuilding manifest after ∧
      after.manifest.nodes = manifest.nodes := by
  have lines : ∀ table ∈ tables.nodes, format = .ndjson → ∀ object ∈ toJson table.2,
      object.size digits ≤ maxRecordBytes :=
    fun table isTable isLines => readable.lines isLines table (List.mem_append_left _ isTable)
  clear readable
  obtain ⟨readsSchema, rows, edges, edgeTables, readsRows, -, -, rfl⟩ := exportAll_spec exports
  have jobReads : ∀ job ∈ jobs, ∃ label, job.Reads numerals digits manifest
      (((rows.map Prod.snd).filter fun row => row.1.label = label).map fun row =>
        .node row.1 row.2) := by
    intro job isJob
    obtain ⟨table, isTable, rfl⟩ := List.mem_map.mp (ofNodes.mem_iff.mp isJob)
    have short := lines table isTable
    obtain ⟨label, -, rfl⟩ := List.mem_map.mp isTable
    exact ⟨label, nodeJob_reads faithful finite readsRows label nodeSize short⟩
  obtain ⟨after, imports, rebuilding, -, shown⟩ := importAll_rebuilds faithful readsSchema starts
    (fun job isJob => (jobReads job isJob).imp' _ fun _ reads => reads) (by
      intro job isJob puts reads hasEdges
      obtain ⟨label, again⟩ := jobReads job isJob
      rw [reads.unique again] at hasEdges
      obtain ⟨edge, isEdge⟩ := List.exists_mem_of_ne_nil _ hasEdges
      obtain ⟨row, -, wrong⟩ := List.mem_map.mp (mem_edgesOf.mp isEdge)
      cases wrong)
  refine ⟨after, imports, rebuilding, SortedMap.ext_get fun key => ?_⟩
  ext record
  refine ⟨rebuilding.nodes, fun found => ?_⟩
  obtain ⟨row, isRow, made⟩ := mem_of_mapM_eq_ok readsRows (SortedMap.get_eq_some_iff.mp found)
  obtain ⟨node, decodes, ⟨⟩⟩ := bind_eq_ok.mp made
  have inRows : (node, record) ∈ rows.map Prod.snd := List.mem_map.mpr ⟨_, isRow, rfl⟩
  have isTable : (node.label, nodeTable (rows.map Prod.snd)
      (keyNames (schemaEntries manifest.schema)) node.label) ∈
        (tableNames (schemaEntries manifest.schema) (rows.map Prod.snd) edges).1.map
          fun label => (label, nodeTable (rows.map Prod.snd)
            (keyNames (schemaEntries manifest.schema)) label) := by
    refine List.mem_map.mpr ⟨node.label, ?_, rfl⟩
    rw [tableNames, SortedMap.mem_keys, KeySet.get_ne_none, KeySet.get_ofKeys]
    exact List.mem_append_right _ (List.mem_map.mpr ⟨_, inRows, rfl⟩)
  obtain ⟨bytes, alsoDecodes, there⟩ := shown _
    (ofNodes.mem_iff.mpr (List.mem_map_of_mem isTable)) _
    (nodeJob_reads faithful finite readsRows node.label nodeSize (lines _ isTable))
    (.node node record)
    (List.mem_map.mpr ⟨_, List.mem_filter.mpr ⟨inRows, decide_eq_true rfl⟩, rfl⟩)
  have sameKey := (NodeKey.encode_of_decode (liftKey_eq_ok.mp decodes)).symm.trans
    (NodeKey.encode_of_decode alsoDecodes)
  rw [Except.ok.injEq] at sameKey
  rw [sameKey]
  exact there

/-- The edge tables bring every edge back where the nodes are. -/
private theorem edgeJobs_rebuild {jobs : List Job}
    (ofEdges : jobs.Perm
      (tables.edges.map (edgeJob (relTypeDefs manifest.schema) ends format edgeSize)))
    (endpoints : ∀ {key : Bytes} {record : EdgeRecord} {edge : EdgeKey},
      manifest.edgesFwd.get key = some record → EdgeKey.decodeFwd key = .ok edge →
        ends edge.rtype = (edge.src.label, edge.dst.label)) {start : Workspace}
    (starts : Rebuilding manifest start) (complete : start.manifest.nodes = manifest.nodes) :
    ∃ after, importAll numerals digits start jobs = .ok after ∧ Rebuilding manifest after ∧
      Grows start after ∧ after.manifest.edgesFwd = manifest.edgesFwd := by
  have lines : ∀ table ∈ tables.edges, format = .ndjson → ∀ object ∈ toJson table.2,
      object.size digits ≤ maxRecordBytes :=
    fun table isTable isLines => readable.lines isLines table (List.mem_append_right _ isTable)
  have flags := readable.flags
  clear readable
  obtain ⟨readsSchema, rows, edges, edgeTables, -, readsEdges, makes, rfl⟩ :=
    exportAll_spec exports
  have named : ∀ edge ∈ edges, ends edge.1.rtype = (edge.1.src.label, edge.1.dst.label) := by
    intro edge isEdge
    obtain ⟨key, decodes, found⟩ := (mem_allEdges readsEdges).mp isEdge
    exact endpoints found decodes
  have jobReads : ∀ job ∈ jobs, ∃ puts, job.Reads numerals digits manifest puts := by
    intro job isJob
    obtain ⟨table, isTable, rfl⟩ := List.mem_map.mp (ofEdges.mem_iff.mp isJob)
    have short := lines table isTable
    have isFlag := flags table isTable
    obtain ⟨rtype, -, made⟩ := exists_of_mem_mapM makes isTable
    obtain ⟨scanned, scans, ⟨⟩⟩ := bind_eq_ok.mp made
    exact ⟨_, edgeJob_reads faithful finite readsEdges scans named edgeSize short isFlag⟩
  obtain ⟨after, imports, rebuilding, grows, shown⟩ := importAll_rebuilds faithful readsSchema starts
    jobReads fun _ _ _ _ _ => complete
  refine ⟨after, imports, rebuilding, grows, SortedMap.ext_get fun key => ?_⟩
  ext record
  refine ⟨rebuilding.edges, fun found => ?_⟩
  obtain ⟨⟨edge, _⟩, isEdge, made⟩ :=
    mem_of_mapM_eq_ok readsEdges (SortedMap.get_eq_some_iff.mp found)
  obtain ⟨_, decodes, ⟨⟩⟩ := bind_eq_ok.mp made
  have isName : edge.rtype ∈
      (tableNames (schemaEntries manifest.schema) (rows.map Prod.snd) edges).2 := by
    rw [tableNames, SortedMap.mem_keys, KeySet.get_ne_none, KeySet.get_ofKeys]
    exact List.mem_append_right _ (List.mem_map.mpr ⟨_, isEdge, rfl⟩)
  obtain ⟨table, isTable, makesTable⟩ := mem_of_mapM_eq_ok makes isName
  have isJob := ofEdges.mem_iff.mpr (List.mem_map_of_mem isTable)
  have short := lines table isTable
  have isFlag := flags table isTable
  obtain ⟨scanned, scans, ⟨⟩⟩ := bind_eq_ok.mp makesTable
  obtain ⟨bytes, alsoDecodes, there⟩ := shown _ isJob _
    (edgeJob_reads faithful finite readsEdges scans named edgeSize short isFlag)
    (.edge edge record)
    (List.mem_map.mpr ⟨_, List.mem_filter.mpr ⟨isEdge, decide_eq_true rfl⟩, rfl⟩)
  have sameKey := (EdgeKey.encodeFwd_of_decodeFwd (liftKey_eq_ok.mp decodes)).symm.trans
    (EdgeKey.encodeFwd_of_decodeFwd alsoDecodes)
  rw [Except.ok.injEq] at sameKey
  rw [sameKey]
  exact there

private theorem reproduces_of_faithful (mirrored : manifest.EdgesMirrored)
    (keyed : SchemaKeyed manifest.schema) {nodeJobs edgeJobs : List Job}
    (ofNodes : nodeJobs.Perm (tables.nodes.map (nodeJob format nodeSize)))
    (ofEdges : edgeJobs.Perm
      (tables.edges.map (edgeJob (relTypeDefs manifest.schema) ends format edgeSize)))
    (endpoints : ∀ {key : Bytes} {record : EdgeRecord} {edge : EdgeKey},
      manifest.edgesFwd.get key = some record → EdgeKey.decodeFwd key = .ok edge →
        ends edge.rtype = (edge.src.label, edge.dst.label)) (indexes : Indexes) :
    Reproduces numerals digits manifest (fresh manifest.schema indexes) (nodeJobs ++ edgeJobs) := by
  obtain ⟨middle, importsNodes, middleRebuilding, complete⟩ :=
    nodeJobs_rebuild faithful finite exports readable ofNodes (fresh_rebuilding keyed indexes)
  obtain ⟨after, importsEdges, rebuilding, grows, whole⟩ :=
    edgeJobs_rebuild faithful finite exports readable ofEdges endpoints middleRebuilding complete
  refine ⟨after, ?_, rebuilding.nodes_eq grows complete, whole, ?_⟩
  · rw [importAll, List.foldlM_append]
    exact bind_eq_ok.mpr ⟨middle, importsNodes, importsEdges⟩
  · have mirroredAfter := rebuilding.mirrored.maps
    rw [Manifest.EdgesMirrored, whole] at mirroredAfter
    exact mirroredAfter.unique mirrored

end

private theorem faithful_of_reproduces {indexes : Indexes} {jobs : List Job}
    (reproduces : Reproduces numerals digits manifest (fresh manifest.schema indexes) jobs) :
    Faithful manifest := by
  obtain ⟨after, imports, nodes, edges, -⟩ := reproduces
  have empty : Faithful (fresh manifest.schema indexes).manifest := by
    refine ⟨?_, ?_, ⟨?_, ?_⟩, ⟨⟨[], Nat.zero_le _, ?_⟩, ⟨[], Nat.zero_le _, ?_⟩⟩, ?_⟩
    · intro key record node found
      cases found
    · intro key record edge found
      cases found
    · intro key record node decl found
      cases found
    · intro first second record other node rival found
      cases found
    · rintro own claim ⟨record, node, found, -⟩
      cases found
    · rintro own claim ⟨record, node, found, -⟩
      cases found
    · intro forward isKey
      cases isKey
  have kept : after.manifest.schema = manifest.schema ∧ Faithful after.manifest ∧
      after.EdgesMirrored := by
    refine @foldlM_invariant _ _ _ _ (fun workspace : Workspace =>
      workspace.manifest.schema = manifest.schema ∧ Faithful workspace.manifest ∧
        workspace.EdgesMirrored) _ ?_ _ _ ⟨rfl, empty, .of_settled Mirrored.empty⟩ imports
    rintro workspace job - next ⟨sameSchema, faithful, mirrored⟩ runs
    obtain ⟨mapping, -, -, imports⟩ := Job.run_eq_ok.mp runs
    obtain ⟨keptSchema, faithful, mirrored⟩ := streamBatches_faithful faithful mirrored imports
    exact ⟨keptSchema.trans sameSchema, faithful, mirrored⟩
  exact kept.2.1.of_maps kept.1.symm nodes.symm edges.symm

private theorem exists_run_of_importAll {jobs : List Job} {start after : Workspace}
    (imports : importAll numerals digits start jobs = .ok after) :
    ∀ job ∈ jobs, ∃ before next, job.run numerals digits before = .ok next := by
  rw [importAll] at imports
  induction jobs generalizing start with
  | nil => exact List.forall_mem_nil _
  | cons job jobs ih =>
      rw [List.foldlM_cons] at imports
      obtain ⟨middle, runs, imports⟩ := bind_eq_ok.mp imports
      exact List.forall_mem_cons.mpr ⟨⟨start, middle, runs⟩, ih imports⟩

/-- Every edge is one that the mapping of a command makes. -/
private theorem named_of_reproduces {indexes : Indexes} {jobs : List Job}
    (reproduces : Reproduces numerals digits manifest (fresh manifest.schema indexes) jobs)
    {key : Bytes} {record : EdgeRecord} {edge : EdgeKey}
    (found : manifest.edgesFwd.get key = some record) (decodes : EdgeKey.decodeFwd key = .ok edge) :
    ∃ job ∈ jobs, ∃ mapping, buildMapping job.flags = .ok mapping ∧ mapping.Names edge := by
  obtain ⟨after, imports, -, edges, -⟩ := reproduces
  have kept : ∀ record, after.manifest.edgesFwd.get key = some record →
      ∃ job ∈ jobs, ∃ mapping, buildMapping job.flags = .ok mapping ∧ mapping.Names edge := by
    refine @foldlM_invariant _ _ _ _ (fun workspace : Workspace =>
      ∀ record, workspace.manifest.edgesFwd.get key = some record →
        ∃ job ∈ jobs, ∃ mapping, buildMapping job.flags = .ok mapping ∧ mapping.Names edge) _ ?_ _ _
      (fun record found => by cases found) imports
    intro workspace job isJob next before runs record found
    obtain ⟨mapping, builds, -, imports⟩ := Job.run_eq_ok.mp runs
    rcases edge_of_streamBatches imports found decodes with ⟨record, already⟩ | names
    · exact before record already
    · exact ⟨job, isJob, mapping, builds, names⟩
  exact kept record (edges ▸ found)

private theorem buildMapping_edge {rtypes : SortedMap String RelTypeDef}
    {size : String → Option Nat} {table : String × Table} {mapping : Mapping}
    (builds : buildMapping (edgeJob rtypes ends format size table).flags = .ok mapping) :
    ∃ source target, mapping = .edge table.1 source target (discField (rtypes.get table.1)) ∧
      EndpointSpec.parse (endpointFlag (ends table.1).1 "src") = .ok source ∧
      EndpointSpec.parse (endpointFlag (ends table.1).2 "dst") = .ok target := by
  obtain ⟨source, parsesSource, builds⟩ := bind_eq_ok.mp builds
  obtain ⟨target, parsesTarget, ⟨⟩⟩ := bind_eq_ok.mp builds
  exact ⟨source, target, rfl, parsesSource, parsesTarget⟩

private theorem readable_of_reproduces (exports : exportAll manifest = .ok tables)
    {nodeJobs edgeJobs : List Job}
    (ofNodes : nodeJobs.Perm (tables.nodes.map (nodeJob format nodeSize)))
    (ofEdges : edgeJobs.Perm
      (tables.edges.map (edgeJob (relTypeDefs manifest.schema) ends format edgeSize)))
    (endpoints : ∀ {key : Bytes} {record : EdgeRecord} {edge : EdgeKey},
      manifest.edgesFwd.get key = some record → EdgeKey.decodeFwd key = .ok edge →
        ends edge.rtype = (edge.src.label, edge.dst.label))
    {indexes : Indexes} (reproduces : Reproduces numerals digits manifest
      (fresh manifest.schema indexes) (nodeJobs ++ edgeJobs)) :
    Readable digits format ends tables := by
  have runs : ∀ job ∈ nodeJobs ++ edgeJobs, ∃ mapping, buildMapping job.flags = .ok mapping ∧
      (job.format = .ndjson → ∀ object ∈ job.objects, object.size digits ≤ maxRecordBytes) := by
    intro job isJob
    obtain ⟨after, imports, -⟩ := reproduces
    obtain ⟨before, next, runs⟩ := exists_run_of_importAll imports job isJob
    obtain ⟨mapping, builds, lines, -⟩ := Job.run_eq_ok.mp runs
    exact ⟨mapping, builds, lines⟩
  have isNode : ∀ table ∈ tables.nodes, nodeJob format nodeSize table ∈ nodeJobs ++ edgeJobs :=
    fun table isTable =>
      List.mem_append_left _ (ofNodes.mem_iff.mpr (List.mem_map_of_mem isTable))
  have isEdge : ∀ table ∈ tables.edges, edgeJob (relTypeDefs manifest.schema) ends format edgeSize
      table ∈ nodeJobs ++ edgeJobs :=
    fun table isTable =>
      List.mem_append_right _ (ofEdges.mem_iff.mpr (List.mem_map_of_mem isTable))
  constructor
  · intro isLines table isTable
    rcases List.mem_append.mp isTable with isTable | isTable
    · obtain ⟨-, -, lines⟩ := runs _ (isNode table isTable)
      exact lines isLines
    · obtain ⟨-, -, lines⟩ := runs _ (isEdge table isTable)
      exact lines isLines
  · intro table isTable
    obtain ⟨mapping, builds, -⟩ := runs _ (isEdge table isTable)
    obtain ⟨source, target, -, parsesSource, parsesTarget⟩ := buildMapping_edge builds
    have means : table.2.rows ≠ [] →
        source.label = (ends table.1).1 ∧ target.label = (ends table.1).2 := by
      intro rows
      obtain ⟨edge, record, key, found, decodes, isType⟩ := exists_edge_of_rows exports isTable rows
      obtain ⟨job, isJob, mapping, builds, first, second, disc, rfl, sameSource, sameTarget⟩ :=
        named_of_reproduces reproduces found decodes
      rcases List.mem_append.mp isJob with isJob | isJob
      · obtain ⟨other, -, rfl⟩ := List.mem_map.mp (ofNodes.mem_iff.mp isJob)
        cases builds
      · obtain ⟨other, -, rfl⟩ := List.mem_map.mp (ofEdges.mem_iff.mp isJob)
        obtain ⟨_, _, made, alsoSource, alsoTarget⟩ := buildMapping_edge builds
        obtain ⟨sameType, rfl, rfl, -⟩ := Mapping.edge.inj made
        have sameEnds := endpoints found decodes
        rw [← isType] at parsesSource parsesTarget ⊢
        rw [← sameType] at alsoSource alsoTarget
        cases parsesSource.symm.trans alsoSource
        cases parsesTarget.symm.trans alsoTarget
        rw [sameEnds]
        exact ⟨sameSource, sameTarget⟩
    exact ⟨flagRead_of_parse parsesSource fun rows => (means rows).1,
      flagRead_of_parse parsesTarget fun rows => (means rows).2⟩

/-- The tables of a version reproduce it exactly if it is faithful and its
tables can be read. -/
theorem reproduces_iff_faithful (keyed : SchemaKeyed manifest.schema)
    (mirrored : manifest.EdgesMirrored) (finite : AllFinite manifest)
    (exports : exportAll manifest = .ok tables) {nodeJobs edgeJobs : List Job}
    (ofNodes : nodeJobs.Perm (tables.nodes.map (nodeJob format nodeSize)))
    (ofEdges : edgeJobs.Perm
      (tables.edges.map (edgeJob (relTypeDefs manifest.schema) ends format edgeSize)))
    (endpoints : ∀ {key : Bytes} {record : EdgeRecord} {edge : EdgeKey},
      manifest.edgesFwd.get key = some record → EdgeKey.decodeFwd key = .ok edge →
        ends edge.rtype = (edge.src.label, edge.dst.label))
    (indexes : Indexes) :
    Reproduces numerals digits manifest (fresh manifest.schema indexes) (nodeJobs ++ edgeJobs) ↔
      Faithful manifest ∧ Readable digits format ends tables := by
  constructor
  · intro reproduces
    exact ⟨faithful_of_reproduces reproduces,
      readable_of_reproduces exports ofNodes ofEdges endpoints reproduces⟩
  · rintro ⟨faithful, readable⟩
    exact reproduces_of_faithful faithful finite exports readable mirrored keyed ofNodes ofEdges
      endpoints indexes

end

private theorem blobKey_ne_nil : ["id"] ≠ [] := by decide

private theorem blobKey_nodup : ["id"].Nodup := by decide

private theorem blobKey_apart : ∀ name ∈ ([] : List String), name ∉ ["id"] := by simp

def blobLabel : LabelDef :=
  ⟨["id"], false, .empty, [], [], blobKey_ne_nil, blobKey_nodup, blobKey_apart⟩

def blobNode : NodeKey := ⟨"Blob", [.int 1], rfl⟩

def blobRecord (value : StoredValue) : NodeRecord := ⟨∅, .ofList [("data", value)]⟩

def blobVersion (value : StoredValue) : Manifest :=
  sampleVersion [.label "Blob" blobLabel] [(blobNode, blobRecord value)] []

def noNumerals : Numerals := ⟨fun _ => none, fun _ => none, id, fun _ => 0⟩

def blobText : StoredValue := ⟨.string "text", by decide⟩

def blobBytes : StoredValue := ⟨.bytes [171], by decide⟩

def noDigits : UInt64 → Nat := fun _ => 0

/-- The imports of all tables; there is no edge whose ends to name. -/
def blobJobs (value : StoredValue) (tables : Tables) : List Job :=
  tables.nodes.map (nodeJob .ndjson fun _ => none) ++ tables.edges.map
    (edgeJob (relTypeDefs (blobVersion value).schema) (fun _ => ("", "")) .ndjson fun _ => none)

section

variable {value : StoredValue}

private theorem blobVersion_row : ∃ own, blobNode.encode = .ok own ∧
    (blobVersion value).nodes = .ofList [(own, blobRecord value)] := by
  obtain ⟨own, encodes⟩ : ∃ own, blobNode.encode = .ok own := ⟨_, rfl⟩
  refine ⟨own, encodes, ?_⟩
  simp [blobVersion, sampleVersion, encodes, Except.toOption]

private theorem blobVersion_get {key : Bytes} {record : NodeRecord}
    (found : (blobVersion value).nodes.get key = some record) :
    blobNode.encode = .ok key ∧ record = blobRecord value := by
  obtain ⟨own, encodes, nodes⟩ := @blobVersion_row value
  rw [nodes, SortedMap.get_ofList_eq_some (by simp)] at found
  cases List.mem_singleton.mp found
  exact ⟨encodes, rfl⟩

private theorem blobVersion_finite (finite : Finite value.val) : AllFinite (blobVersion value) := by
  constructor
  · intro key record node found decodes
    obtain ⟨encodes, rfl⟩ := blobVersion_get found
    obtain ⟨stored, isStored, -, sameKey⟩ := NodeKey.decode_of_encode encodes
    cases decodes.symm.trans isStored
    refine ⟨?_, ?_⟩
    · intro part isPart
      rw [sameKey, blobNode, canonicalAll, canonicalAll, List.mem_singleton] at isPart
      rw [isPart]
      trivial
    · intro name stored found
      rw [blobRecord, SortedMap.get_ofList_eq_some (by simp)] at found
      cases List.mem_singleton.mp found
      exact finite
  · intro key record edge found
    cases found

end

private theorem text_reproduced {tables : Tables}
    (exports : exportAll (blobVersion blobText) = .ok tables) :
    Reproduces noNumerals noDigits (blobVersion blobText)
      (fresh (blobVersion blobText).schema .empty) (blobJobs blobText tables) := by
  have imported : ((exportAll (blobVersion blobText)).toOption.bind fun tables =>
      (importAll noNumerals noDigits (fresh (blobVersion blobText).schema .empty)
        (blobJobs blobText tables)).toOption.map fun after =>
          (after.manifest.nodes, after.manifest.edgesFwd, after.manifest.edgesRev)) =
      some ((blobVersion blobText).nodes, (blobVersion blobText).edgesFwd,
        (blobVersion blobText).edgesRev) := by decide +kernel
  rw [exports, Except.toOption, Option.bind_some, Option.map_eq_some_iff] at imported
  obtain ⟨after, imports, same⟩ := imported
  simp only [Prod.mk.injEq] at same
  exact ⟨after, mem_toOption.mp imports, same⟩

/-- A node with a text is reproduced, and so is faithful. -/
theorem reproduces_text : ∃ tables, exportAll (blobVersion blobText) = .ok tables ∧
    Reproduces noNumerals noDigits (blobVersion blobText)
      (fresh (blobVersion blobText).schema .empty) (blobJobs blobText tables) ∧
    Faithful (blobVersion blobText) ∧ Readable noDigits .ndjson (fun _ => ("", "")) tables := by
  have exported : (exportAll (blobVersion blobText)).toOption.isSome = true := by decide +kernel
  obtain ⟨tables, isTables⟩ := Option.isSome_iff_exists.mp exported
  have exports := mem_toOption.mp isTables
  have keyed : SchemaKeyed (blobVersion blobText).schema := by decide +kernel
  refine ⟨tables, exports, text_reproduced exports, ?_⟩
  refine (reproduces_iff_faithful keyed Mirrored.empty (blobVersion_finite trivial) exports (.refl _)
    (.refl _) ?_ .empty).mp (text_reproduced exports)
  intro key record edge found
  cases found

/-- A byte string is printed as a string and read as one. -/
theorem bytes_not_reproduced : ∃ tables, exportAll (blobVersion blobBytes) = .ok tables ∧
    (labelDefs (blobVersion blobBytes).schema).get "Blob" = some blobLabel ∧
    AllFinite (blobVersion blobBytes) ∧
    ¬ Reproduces noNumerals noDigits (blobVersion blobBytes)
      (fresh (blobVersion blobBytes).schema .empty) (blobJobs blobBytes tables) := by
  have exported : (exportAll (blobVersion blobBytes)).toOption.isSome = true := by decide +kernel
  obtain ⟨tables, isTables⟩ := Option.isSome_iff_exists.mp exported
  refine ⟨tables, mem_toOption.mp isTables, by decide +kernel, blobVersion_finite trivial, ?_⟩
  intro reproduces
  obtain ⟨own, encodes, nodes⟩ := @blobVersion_row blobBytes
  have found : (blobVersion blobBytes).nodes.get own = some (blobRecord blobBytes) := by
    rw [nodes, SortedMap.get_ofList_eq_some (by simp)]
    exact List.mem_singleton_self _
  obtain ⟨stored, decodes, -⟩ := NodeKey.decode_of_encode encodes
  obtain ⟨decl, -, survives⟩ := (faithful_of_reproduces reproduces).nodes found decodes
  have holds : (blobRecord blobBytes).properties.get "data" = some blobBytes := by
    rw [blobRecord, SortedMap.get_ofList_eq_some (by simp)]
    exact List.mem_singleton_self _
  exact (survives.properties "data" blobBytes holds).plain

end Acetone.Interchange

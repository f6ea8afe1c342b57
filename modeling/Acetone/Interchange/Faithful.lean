import Acetone.Lib.Chunks
import Acetone.Graph.Batches
import Acetone.Graph.TrackerCongruence
import Acetone.Interchange.Survival

/-!
# What an import leaves

A version is faithful if all its records survive, its constraints are obeyed
by claims that a tracker can number, and no edge dangles.  Whatever is imported
into a faithful workspace, the workspace is faithful after it.
-/

namespace Acetone.Interchange

open Acetone.Lib Acetone.Model Acetone.Graph

private theorem canonicalAll_eq_map (values : List Value) :
    canonicalAll values = values.map Model.canonical := by
  induction values with
  | nil => rw [canonicalAll, List.map_nil]
  | cons value values ih => rw [canonicalAll, List.map_cons, ih]

private theorem plainScalar_canonical {value : Value} (plain : PlainScalar value) :
    PlainScalar (Model.canonical value) := by
  cases value with
  | float bits =>
      rw [Model.canonical]
      trivial
  | list items => cases plain
  | _ =>
      simp only [Model.canonical]
      exact plain

private theorem ofValue_canonical (value : Value) :
    PropertyType.ofValue (Model.canonical value) = PropertyType.ofValue value := by
  cases value <;> simp [Model.canonical, PropertyType.ofValue]

theorem Survives.stored {declared : Option PropertyType} {value : Value}
    (survives : Survives declared value) : Survives declared (Model.canonical value) := by
  have plain := survives.plain
  refine ⟨?_, ?_⟩
  · cases value with
    | list items =>
        rw [Model.canonical, canonicalAll_eq_map]
        intro item member
        obtain ⟨given, isItem, rfl⟩ := List.mem_map.mp member
        exact plainScalar_canonical (plain given isItem)
    | float bits =>
        rw [Model.canonical]
        trivial
    | _ =>
        simp only [Model.canonical]
        exact plain
  · intro type isType notNull
    rw [ofValue_canonical]
    exact survives.typed type isType fun isNull => notNull (canonical_eq_null.mpr isNull)

theorem NodeSurvives.stored {decl : LabelDef} {node stored : NodeKey} {record : NodeRecord}
    (survives : NodeSurvives decl node record) (isStored : stored.key = canonicalAll node.key) :
    NodeSurvives decl stored record := by
  refine ⟨survives.unlabelled, ?_, survives.apart, ?_, survives.properties⟩
  · rw [isStored, canonicalAll_eq_map, List.length_map]
    exact survives.arity
  · intro entry member
    rw [isStored, canonicalAll_eq_map, List.zip_map_right] at member
    obtain ⟨given, isGiven, rfl⟩ := List.mem_map.mp member
    exact (survives.key given isGiven).stored

theorem EdgeSurvives.stored {decl : Option RelTypeDef} {edge stored : EdgeKey}
    {record : EdgeRecord} (survives : EdgeSurvives decl edge record)
    (isStored : stored.disc = Model.canonical edge.disc) : EdgeSurvives decl stored record := by
  refine ⟨?_, ?_, survives.properties⟩
  · intro undeclared
    rw [isStored, canonical_eq_null]
    exact survives.undiscriminated undeclared
  · intro name declared
    obtain ⟨notNull, value, unshadowed⟩ := survives.discriminated name declared
    rw [isStored]
    exact ⟨fun isNull => notNull (canonical_eq_null.mp isNull), value.stored, unshadowed⟩

private theorem mistyped_of_survives {declared : PropertyType} {value : Value}
    (survives : Survives (some declared) value) (property : String) :
    mistyped property declared value = none := by
  rw [mistyped, if_pos]
  by_cases isNull : value = .null
  · rw [isNull]
    cases declared <;> rfl
  · have typed := survives.typed declared rfl isNull
    cases value <;> cases typed <;> rfl

theorem NodeSurvives.conforms {decl : LabelDef} {node : NodeKey} {record : NodeRecord}
    (survives : NodeSurvives decl node record) : typeViolations node record decl = [] := by
  rw [List.eq_nil_iff_forall_not_mem]
  intro violation breaches
  obtain ⟨declared, breach⟩ := mem_typeViolations.mp breaches
  obtain ⟨value, isValue, breach⟩ := Option.bind_eq_some_iff.mp breach
  have survived : Survives (some violation.2.1) value := by
    rw [← declared]
    split at isValue
    · next position isPosition =>
        obtain ⟨inside, isName, -⟩ := List.findIdx?_eq_some_iff_getElem.mp isPosition
        obtain ⟨within, rfl⟩ := List.getElem?_eq_some_iff.mp isValue
        have isName := of_decide_eq_true isName
        refine isName ▸ survives.key (decl.key[position], node.key[position]) ?_
        exact List.mem_iff_getElem.mpr ⟨position, by simpa using ⟨inside, within⟩, by simp⟩
    · obtain ⟨stored, isStored, rfl⟩ := Option.map_eq_some_iff.mp isValue
      exact survives.properties violation.1 stored isStored
  rw [mistyped_of_survives survived] at breach
  cases breach

theorem EdgeSurvives.conforms {decl : RelTypeDef} {edge : EdgeKey} {record : EdgeRecord}
    (survives : EdgeSurvives (some decl) edge record) : relTypeViolations edge record decl = [] := by
  rw [List.eq_nil_iff_forall_not_mem]
  intro violation breaches
  obtain ⟨declared, breach⟩ := mem_relTypeViolations.mp breaches
  obtain ⟨value, isValue, breach⟩ := List.exists_of_findSome?_eq_some breach
  have survived : Survives (some violation.2.1) value := by
    rw [List.mem_append, Option.mem_toList, Option.mem_toList] at isValue
    rcases isValue with inRecord | inKey
    · obtain ⟨stored, isStored, rfl⟩ := Option.map_eq_some_iff.mp inRecord
      have survived := survives.properties violation.1 stored isStored
      rwa [relPropertyType, Option.bind_some, declared] at survived
    · split at inKey
      · next isDisc =>
          cases inKey
          obtain ⟨-, survived, -⟩ := survives.discriminated violation.1 isDisc
          rwa [relPropertyType, Option.bind_some, declared] at survived
      · cases inKey
  rw [mistyped_of_survives survived] at breach
  cases breach

structure Faithful (manifest : Manifest) : Prop where
  nodes : ∀ {key : Bytes} {record : NodeRecord} {node : NodeKey},
    manifest.nodes.get key = some record → NodeKey.decode key = .ok node →
      ∃ decl, (labelDefs manifest.schema).get node.label = some decl ∧
        NodeSurvives decl node record
  edges : ∀ {key : Bytes} {record : EdgeRecord} {edge : EdgeKey},
    manifest.edgesFwd.get key = some record → EdgeKey.decodeFwd key = .ok edge →
      EdgeSurvives ((relTypeDefs manifest.schema).get edge.rtype) edge record
  obeyed : Obeyed manifest
  numbered : UniqueTracker.Enumerated
    (UniqueTracker.Holds (labelDefs manifest.schema) manifest.nodes)
  whole : NoDangling manifest.nodes manifest.edgesFwd

/-- Only the four maps of a version count. -/
theorem Faithful.of_maps {manifest other : Manifest} (faithful : Faithful other)
    (schema : manifest.schema = other.schema) (nodes : manifest.nodes = other.nodes)
    (edges : manifest.edgesFwd = other.edgesFwd) : Faithful manifest := by
  refine ⟨?_, ?_, ?_, ?_, ?_⟩
  · rw [schema, nodes]
    exact faithful.nodes
  · rw [schema, edges]
    exact faithful.edges
  · rw [Obeyed, schema, nodes]
    exact faithful.obeyed
  · rw [schema, nodes]
    exact faithful.numbered
  · rw [nodes, edges]
    exact faithful.whole

def Put.Survives (schema : SchemaMap) : Put → Prop
  | .node key record => ∃ decl, (labelDefs schema).get key.label = some decl ∧
      NodeSurvives decl key record
  | .edge key record => EdgeSurvives ((relTypeDefs schema).get key.rtype) key record

private theorem get_of_takeFields {label : String} {fields : List String} {row rest : Row}
    {values : List Value} (takes : takeFields label row fields = .ok (values, rest))
    {name : String} {value : Value} (found : rest.get name = some value) :
    row.get name = some value := by
  induction fields generalizing row values with
  | nil =>
      cases takes
      exact found
  | cons field fields ih =>
      rw [takeFields] at takes
      split at takes
      · cases takes
      · obtain ⟨⟨others, last⟩, takesRest, ⟨⟩⟩ := bind_eq_ok.mp takes
        have inRest := ih takesRest
        rw [SortedMap.get_delete] at inRest
        split at inRest
        · cases inRest
        · exact inRest

private theorem get_of_takeEndpoint {spec : EndpointSpec} {row rest : Row} {endpoint : EndpointRef}
    (takes : takeEndpoint row spec = .ok (endpoint, rest)) {name : String} {value : Value}
    (found : rest.get name = some value) : row.get name = some value := by
  obtain ⟨⟨values, last⟩, takes, ⟨⟩⟩ := bind_eq_ok.mp takes
  exact get_of_takeFields takes found

private theorem edge_of_canonical {numerals : Numerals} {labels : SortedMap String LabelDef}
    {rtypes : SortedMap String RelTypeDef} {rtype : String} {src dst : EndpointRef}
    {discriminator : Value} {properties : Row} {put : Put}
    (made : canonical numerals labels rtypes (.edge rtype src dst discriminator properties) =
      .ok put) : ∃ edge record, put = .edge edge record := by
  rw [canonical] at made
  obtain ⟨source, -, made⟩ := bind_eq_ok.mp made
  obtain ⟨target, -, made⟩ := bind_eq_ok.mp made
  obtain ⟨disc, -, made⟩ := bind_eq_ok.mp made
  obtain ⟨coerced, -, made⟩ := bind_eq_ok.mp made
  obtain ⟨key, -, made⟩ := bind_eq_ok.mp made
  obtain ⟨kept, -, ⟨⟩⟩ := bind_eq_ok.mp made
  exact ⟨_, _, rfl⟩

/-- Whatever object a record is made of, it survives. -/
theorem put_survives {numerals : Numerals} {schema : SchemaMap} {mapping : Mapping}
    {document : Json} {put : Put}
    (made : (do
      let row ← jsonObjectToRow numerals document
      let record ← mapRow row mapping
      canonical numerals (labelDefs schema) (relTypeDefs schema) record) = .ok put) :
    put.Survives schema := by
  obtain ⟨row, reads, made⟩ := bind_eq_ok.mp made
  obtain ⟨record, maps, made⟩ := bind_eq_ok.mp made
  have plain : ∀ name value, row.get name = some value → Plain value :=
    fun name value found => plain_of_jsonObjectToRow reads found
  cases mapping with
  | node label =>
      cases maps
      rw [canonical] at made
      split at made
      · cases made
      · next decl declared =>
          obtain ⟨⟨key, record⟩, isNode, ⟨⟩⟩ := bind_eq_ok.mp made
          obtain ⟨isLabel, survives⟩ := survives_of_nodeKeyAndRecord plain isNode
          exact ⟨decl, isLabel ▸ declared, survives⟩
  | edge rtype source target disc =>
      obtain ⟨⟨src, afterSource⟩, takesSource, maps⟩ := bind_eq_ok.mp maps
      obtain ⟨⟨dst, rest⟩, takesTarget, maps⟩ := bind_eq_ok.mp maps
      have plainRest : ∀ name value, rest.get name = some value → Plain value :=
        fun name value found => plain name value
          (get_of_takeEndpoint takesSource (get_of_takeEndpoint takesTarget found))
      obtain ⟨discriminator, properties, rfl, plainDisc, plainProperties⟩ :
          ∃ discriminator properties, record = .edge rtype src dst discriminator properties ∧
            Plain discriminator ∧ ∀ name value, properties.get name = some value → Plain value := by
        cases disc with
        | none =>
            cases maps
            exact ⟨.null, rest, rfl, trivial, plainRest⟩
        | some field =>
            cases maps
            refine ⟨(rest.get field).getD .null, rest.delete field, rfl, ?_, ?_⟩
            · cases found : rest.get field with
              | none => trivial
              | some value => exact plainRest field value found
            · intro name value found
              rw [SortedMap.get_delete] at found
              split at found
              · cases found
              · exact plainRest name value found
      obtain ⟨edge, record, rfl⟩ := edge_of_canonical made
      exact survives_of_canonical plainDisc plainProperties made

def nodesOf (batch : List Put) : List (NodeKey × NodeRecord) := batch.filterMap Put.node?

def edgesOf (batch : List Put) : List (EdgeKey × EdgeRecord) := batch.filterMap Put.edge?

section

variable {batch : List Put}

theorem mem_nodesOf {put : NodeKey × NodeRecord} :
    put ∈ nodesOf batch ↔ .node put.1 put.2 ∈ batch := by
  rw [nodesOf, List.mem_filterMap]
  constructor
  · rintro ⟨put, member, isNode⟩
    cases put with
    | node key record =>
        cases isNode
        exact member
    | edge key record => cases isNode
  · intro member
    exact ⟨_, member, rfl⟩

theorem mem_edgesOf {put : EdgeKey × EdgeRecord} :
    put ∈ edgesOf batch ↔ .edge put.1 put.2 ∈ batch := by
  rw [edgesOf, List.mem_filterMap]
  constructor
  · rintro ⟨put, member, isEdge⟩
    cases put with
    | node key record => cases isEdge
    | edge key record =>
        cases isEdge
        exact member
  · intro member
    exact ⟨_, member, rfl⟩

private theorem foldlM_putNode {puts : List (NodeKey × NodeRecord)} {txn : Transaction} :
    puts.foldlM (fun txn put => txn.putNode put.1 put.2) txn = txn.writeAll (nodeWrites puts) := by
  induction puts generalizing txn with
  | nil => rfl
  | cons put puts ih =>
      rw [List.foldlM_cons, nodeWrites, List.map_cons, Transaction.writeAll]
      exact congrArg _ (funext fun _ => ih)

private theorem foldlM_putEdge {puts : List (EdgeKey × EdgeRecord)} {txn : Transaction} :
    puts.foldlM (fun txn put => txn.putEdge put.1 put.2) txn = txn.writeAll (edgeWrites puts) := by
  induction puts generalizing txn with
  | nil => rfl
  | cons put puts ih =>
      rw [List.foldlM_cons, edgeWrites, List.map_cons, Transaction.writeAll]
      exact congrArg _ (funext fun _ => ih)

theorem stageBatch_eq_ok {base : Workspace} {txn : Transaction} :
    stageBatch base batch = .ok txn ↔ (Transaction.beginWrite base).writeAll
      (nodeWrites (nodesOf batch) ++ edgeWrites (edgesOf batch)) = .ok txn := by
  rw [Transaction.writeAll_append, stageBatch, bind_eq_ok]
  simp only [foldlM_putNode, foldlM_putEdge]
  rfl

end

structure Underway (schema : SchemaMap) (state : UniqueTracker × Workspace) : Prop where
  sameSchema : state.2.manifest.schema = schema
  faithful : Faithful state.2.manifest
  mirrored : state.2.EdgesMirrored
  tracks : UniqueTracker.Tracks (labelDefs schema) state.1 state.2.manifest.nodes
  limited : state.1.Limited

section

variable {schema : SchemaMap} {state next : UniqueTracker × Workspace} {batch : List Put}

/-- A batch of records that survive keeps the workspace faithful. -/
theorem saveBatch_faithful (underway : Underway schema state)
    (survive : ∀ put ∈ batch, put.Survives schema)
    (saves : saveBatch (labelDefs schema) state batch = .ok next) : Underway schema next := by
  rw [saveBatch] at saves
  obtain ⟨⟨violations, tracker⟩, judges, saves⟩ := bind_eq_ok.mp saves
  dsimp only at saves
  split at saves
  · cases saves
  next clean =>
  rw [ne_eq, not_not] at clean
  subst clean
  obtain ⟨txn, stages, saves⟩ := bind_eq_ok.mp saves
  obtain ⟨workspace, saved, ⟨⟩⟩ := bind_eq_ok.mp saves
  rw [mapError_eq_ok] at judges stages saved
  have staged := batchStaged (stageBatch_eq_ok.mp stages)
  have maps := Transaction.saveInPlace_maps saved
  have sameSchema : workspace.manifest.schema = schema := by
    rw [maps]
    exact staged.applied_schema.trans underway.sameSchema
  have sameNodes : workspace.manifest.nodes = txn.applied.nodes := by rw [maps]
  have sameEdges : workspace.manifest.edgesFwd = txn.applied.edgesFwd := by rw [maps]
  obtain ⟨surviving, made, -⟩ := bind_eq_ok.mp judges
  have obeyedBefore : Obeys (labelDefs schema) state.2.manifest.nodes := by
    have obeyed := underway.faithful.obeyed
    rwa [Obeyed, underway.sameSchema] at obeyed
  obtain ⟨obeys, tracks⟩ := underway.tracks.kept obeyedBefore judges made (staged.results made)
  have limited := UniqueTracker.applyBatch_limited underway.limited judges
  have inStep := staged.inStep underway.mirrored.maps
  refine ⟨sameSchema, ⟨?_, ?_, ?_, ?_, ?_⟩, ?_, ?_, limited⟩
  · intro key record node found decodes
    rw [sameSchema]
    rw [sameNodes, staged.applied_nodes] at found
    rcases get_applyAll_cases found with ⟨op, isOp, isKey, outcome⟩ | ⟨-, before⟩
    · obtain ⟨put, isPut, own, encodes, rfl⟩ := staged.mem_nodes.mp isOp
      cases isKey
      cases outcome
      obtain ⟨stored, isStored, sameLabel, sameKey⟩ := NodeKey.decode_of_encode encodes
      cases decodes.symm.trans isStored
      obtain ⟨decl, declared, survives⟩ := survive _ (mem_nodesOf.mp isPut)
      exact ⟨decl, sameLabel ▸ declared, survives.stored sameKey⟩
    · have faithful := underway.faithful.nodes before decodes
      rwa [underway.sameSchema] at faithful
  · intro key record edge found decodes
    rw [sameSchema]
    rw [sameEdges, staged.applied_edgesFwd] at found
    rcases get_applyAll_cases found with ⟨op, isOp, isKey, outcome⟩ | ⟨-, before⟩
    · obtain ⟨put, isPut, own, encodes, rfl⟩ := (staged.edges _).mp isOp
      cases isKey
      cases outcome
      obtain ⟨sameType, sameDisc⟩ := EdgeKey.disc_of_decodeFwd encodes decodes
      have survives := survive _ (mem_edgesOf.mp isPut)
      rw [sameType]
      exact EdgeSurvives.stored survives sameDisc
    · have faithful := underway.faithful.edges before decodes
      rwa [underway.sameSchema] at faithful
  · rw [Obeyed, sameSchema, sameNodes]
    exact obeys
  · rw [sameSchema, sameNodes]
    exact limited.enumerated tracks.describes
  · rw [sameNodes, sameEdges]
    rcases Transaction.saveInPlace_cases saved with ⟨clean, same⟩ | accepted
    · rw [← sameNodes, ← sameEdges, same, staged.ofBase]
      exact underway.faithful.whole
    · exact Transaction.noDangling_of_checkIntegrity inStep staged.keys
        (staged.ofBase.symm ▸ underway.faithful.whole) accepted.integrity
  · exact Transaction.saveInPlace_mirrored (staged.ofBase.symm ▸ underway.mirrored) inStep saved
  · rw [sameNodes]
    exact tracks

end

variable {numerals : Numerals}

/-- Whatever is imported into a faithful workspace leaves a faithful one. -/
theorem streamBatches_faithful {workspace after : Workspace} {mapping : Mapping}
    {objects : List Json} {batchSize : Option Nat} (faithful : Faithful workspace.manifest)
    (mirrored : workspace.EdgesMirrored)
    (imports : streamBatches numerals workspace mapping objects batchSize = .ok after) :
    after.manifest.schema = workspace.manifest.schema ∧ Faithful after.manifest ∧
      after.EdgesMirrored := by
  rw [streamBatches] at imports
  obtain ⟨entries, reads, imports⟩ := bind_eq_ok.mp imports
  cases readSchema_eq (mapError_eq_ok.mp reads)
  obtain ⟨tracker, seeds, imports⟩ := bind_eq_ok.mp imports
  obtain ⟨puts, makes, imports⟩ := bind_eq_ok.mp imports
  obtain ⟨state, saves, ⟨⟩⟩ := bind_eq_ok.mp imports
  have seeds := mapError_eq_ok.mp seeds
  have starts : Underway workspace.manifest.schema (tracker, workspace) :=
    ⟨rfl, faithful, mirrored, UniqueTracker.seed_tracks seeds, UniqueTracker.seed_limited seeds⟩
  have ends : Underway workspace.manifest.schema state := by
    refine foldlM_invariant ?_ starts saves
    intro state batch isBatch next underway saves
    refine saveBatch_faithful underway ?_ saves
    intro put isPut
    have inPuts : put ∈ puts := by
      rw [← flatten_toChunks (max (batchSize.getD defaultImportBatch) 1) puts]
      exact List.mem_flatten.mpr ⟨batch, isBatch, isPut⟩
    obtain ⟨document, -, made⟩ := exists_of_mem_mapM makes inPuts
    exact put_survives made
  exact ⟨ends.sameSchema, ends.faithful, ends.mirrored⟩

end Acetone.Interchange

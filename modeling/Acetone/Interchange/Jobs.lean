import Acetone.Lib.Lines
import Acetone.Interchange.Faithful
import Acetone.Interchange.ImportRun

/-!
# Import commands

A command names what its records are by flags, one text for each endpoint of an
edge, and reads its source as one array or line by line.  The tables of a
version are exported and imported by one command each.
-/

namespace Acetone.Interchange

open Acetone.Lib Acetone.Model Acetone.Graph

/-- `LABEL=field[,field...]`, cut at the first equals sign. -/
def EndpointSpec.parse (spec : String) : Except ImportFailure EndpointSpec :=
  match splitOnce '=' spec.toList with
  | none => .error (.endpointSpec spec "must be LABEL=field[,field...]")
  | some ([], _) => .error (.endpointSpec spec "has an empty label")
  | some (label, fields) =>
      let fields := ((fields.splitOn ',').map fun field => trim (.ofList field)).filter (· ≠ "")
      if fields = [] then .error (.endpointSpec spec "names no key fields")
      else .ok ⟨.ofList label, fields⟩

structure Flags where
  label : Option String
  edge : Option String
  source : Option String
  target : Option String
  disc : Option String

def buildMapping (flags : Flags) : Except ImportFailure Mapping :=
  match flags.label, flags.edge with
  | some label, none => .ok (.node label)
  | none, some rtype =>
      match flags.source, flags.target with
      | none, _ => .error (.flags "--edge requires --from LABEL=field[,field...]")
      | some _, none => .error (.flags "--edge requires --to LABEL=field[,field...]")
      | some source, some target => do
          let source ← EndpointSpec.parse source
          let target ← EndpointSpec.parse target
          return .edge rtype source target flags.disc
  | some _, some _ => .error (.flags "--label and --edge are mutually exclusive")
  | none, none =>
      .error (.flags "import needs either --label (nodes) or --edge (relationships)")

inductive Format where
  | json
  | ndjson
deriving DecidableEq

def maxRecordBytes : Nat := 64 * 1024 * 1024

/-- The object of a line, if the line is not too long; an array is read whole. -/
def readLine (digits : UInt64 → Nat) (format : Format) (object : Json) :
    Except ImportFailure Json :=
  if format = .ndjson ∧ maxRecordBytes < object.size digits then .error .lineTooLong
  else .ok object

structure Job where
  flags : Flags
  format : Format
  objects : List Json
  batchSize : Option Nat

def Job.run (numerals : Numerals) (digits : UInt64 → Nat) (workspace : Workspace) (job : Job) :
    Except ImportFailure Workspace := do
  let mapping ← buildMapping job.flags
  let objects ← job.objects.mapM (readLine digits job.format)
  streamBatches numerals workspace mapping objects job.batchSize

def importAll (numerals : Numerals) (digits : UInt64 → Nat) (workspace : Workspace)
    (jobs : List Job) : Except ImportFailure Workspace :=
  jobs.foldlM (Job.run numerals digits) workspace

/-- The tables of a version, under the names of the labels and the types. -/
structure Tables where
  nodes : List (String × Table)
  edges : List (String × Table)

def exportEdges (edges : List (EdgeKey × EdgeRecord)) (rtype : String) :
    Except ExportError (String × Table) := do
  let table ← edgeTable edges rtype
  return (rtype, table)

def exportAll (manifest : Manifest) : Except ExportError Tables := do
  let entries ← (readSchema manifest.schema).mapError .graph
  let rows ← (allNodes manifest.nodes).mapError .graph
  let nodes := rows.map Prod.snd
  let edges ← (allEdges manifest.edgesFwd).mapError .graph
  let names := tableNames entries nodes edges
  let edgeTables ← names.2.mapM (exportEdges edges)
  return ⟨names.1.map fun label => (label, nodeTable nodes (keyNames entries) label), edgeTables⟩

def nodeJob (format : Format) (size : String → Option Nat) (table : String × Table) : Job :=
  ⟨⟨some table.1, none, none, none, none⟩, format, toJson table.2, size table.1⟩

def endpointFlag (label field : String) : String := label ++ "=" ++ field

/-- An edge table is imported under its type, with the labels of its endpoints
and, if the type declares a discriminator, the discriminator's column. -/
def edgeJob (rtypes : SortedMap String RelTypeDef) (ends : String → String × String)
    (format : Format) (size : String → Option Nat) (table : String × Table) : Job :=
  ⟨⟨none, some table.1, some (endpointFlag (ends table.1).1 "src"),
    some (endpointFlag (ends table.1).2 "dst"), discField (rtypes.get table.1)⟩, format,
    toJson table.2, size table.1⟩

/-- The flag for an endpoint is accepted, and where there are rows it cannot be
taken for another label's. -/
def FlagRead (table : Table) (label field : String) : Prop :=
  (∃ spec, EndpointSpec.parse (endpointFlag label field) = .ok spec) ∧
    (table.rows ≠ [] → '=' ∉ label.toList)

/-- The lines of the tables are not too long, and the flags say what they mean. -/
structure Readable (digits : UInt64 → Nat) (format : Format) (ends : String → String × String)
    (tables : Tables) : Prop where
  lines : format = .ndjson → ∀ table ∈ tables.nodes ++ tables.edges, ∀ object ∈ toJson table.2,
    object.size digits ≤ maxRecordBytes
  flags : ∀ table ∈ tables.edges, FlagRead table.2 (ends table.1).1 "src" ∧
    FlagRead table.2 (ends table.1).2 "dst"

section

variable {digits : UInt64 → Nat} {format : Format} {objects : List Json}

theorem readLines_eq_ok {read : List Json} : objects.mapM (readLine digits format) = .ok read ↔
    read = objects ∧ (format = .ndjson → ∀ object ∈ objects, object.size digits ≤ maxRecordBytes) := by
  induction objects generalizing read with
  | nil =>
      rw [List.mapM_nil]
      constructor
      · rintro ⟨⟩
        exact ⟨rfl, fun _ => List.forall_mem_nil _⟩
      · rintro ⟨rfl, -⟩
        rfl
  | cons object objects ih =>
      rw [List.mapM_cons, readLine]
      split
      · next long =>
          refine iff_of_false (fun failed => by cases failed) ?_
          rintro ⟨-, short⟩
          exact absurd long.2 (Nat.not_lt.mpr (short long.1 object List.mem_cons_self))
      · next short =>
          rw [not_and, Nat.not_lt] at short
          rw [ok_bind, bind_eq_ok]
          constructor
          · rintro ⟨others, reads, ⟨⟩⟩
            obtain ⟨rfl, within⟩ := ih.mp reads
            exact ⟨rfl, fun lines => List.forall_mem_cons.mpr ⟨short lines, within lines⟩⟩
          · rintro ⟨rfl, within⟩
            exact ⟨objects, ih.mpr ⟨rfl, fun lines => (List.forall_mem_cons.mp (within lines)).2⟩,
              rfl⟩

theorem Job.run_eq_ok {numerals : Numerals} {workspace after : Workspace} {job : Job} :
    job.run numerals digits workspace = .ok after ↔ ∃ mapping,
      buildMapping job.flags = .ok mapping ∧
      (job.format = .ndjson → ∀ object ∈ job.objects, object.size digits ≤ maxRecordBytes) ∧
      streamBatches numerals workspace mapping job.objects job.batchSize = .ok after := by
  rw [Job.run, bind_eq_ok]
  refine exists_congr fun mapping => and_congr_right fun _ => ?_
  rw [bind_eq_ok]
  constructor
  · rintro ⟨objects, reads, streams⟩
    obtain ⟨rfl, within⟩ := readLines_eq_ok.mp reads
    exact ⟨within, streams⟩
  · rintro ⟨within, streams⟩
    exact ⟨job.objects, readLines_eq_ok.mpr ⟨rfl, within⟩, streams⟩

/-- What stands before the sign that a text is cut at has none. -/
private theorem parse_label {flag : String} {spec : EndpointSpec}
    (parses : EndpointSpec.parse flag = .ok spec) :
    spec.label ≠ "" ∧ '=' ∉ spec.label.toList := by
  rw [EndpointSpec.parse] at parses
  split at parses
  · cases parses
  · cases parses
  · next label fields filled split =>
      dsimp only at parses
      split at parses
      · cases parses
      · cases parses
        have absent := splitOnce_absent split
        refine ⟨?_, by rwa [String.toList_ofList]⟩
        intro empty
        refine filled ?_
        simpa using congrArg String.toList empty

private theorem toList_endpointFlag (label field : String) :
    (endpointFlag label field).toList = label.toList ++ '=' :: field.toList := by
  rw [endpointFlag, String.toList_append, String.toList_append, List.append_assoc]
  rfl

private theorem parse_endpointFlag {label field : String} (filled : label ≠ "")
    (plain : '=' ∉ label.toList)
    (single : ((field.toList.splitOn ',').map fun text => trim (.ofList text)).filter (· ≠ "") =
      [field]) :
    EndpointSpec.parse (endpointFlag label field) = .ok ⟨label, [field]⟩ := by
  rw [EndpointSpec.parse, toList_endpointFlag, splitOnce_append plain]
  cases letters : label.toList with
  | nil => exact absurd (String.toList_eq_nil_iff.mp letters) filled
  | cons letter rest =>
      simp only [single, List.cons_ne_nil, if_false, ← letters, String.ofList_toList]

/-- A flag that is accepted and holds no further sign names its label. -/
theorem FlagRead.parses {table : Table} {label field : String} (flag : FlagRead table label field)
    (rows : table.rows ≠ [])
    (single : ((field.toList.splitOn ',').map fun text => trim (.ofList text)).filter (· ≠ "") =
      [field]) :
    EndpointSpec.parse (endpointFlag label field) = .ok ⟨label, [field]⟩ := by
  refine parse_endpointFlag ?_ (flag.2 rows) single
  rintro rfl
  obtain ⟨spec, parses⟩ := flag.1
  rw [EndpointSpec.parse, toList_endpointFlag] at parses
  cases parses

theorem flagRead_of_parse {table : Table} {label field : String} {spec : EndpointSpec}
    (parses : EndpointSpec.parse (endpointFlag label field) = .ok spec)
    (means : table.rows ≠ [] → spec.label = label) : FlagRead table label field :=
  ⟨⟨spec, parses⟩, fun rows => means rows ▸ (parse_label parses).2⟩

end

/-- The relationships that a mapping makes: their type and the labels of their ends. -/
def Mapping.Names (mapping : Mapping) (edge : EdgeKey) : Prop :=
  ∃ source target disc, mapping = .edge edge.rtype source target disc ∧
    source.label = edge.src.label ∧ target.label = edge.dst.label

def readObject (numerals : Numerals) (schema : SchemaMap) (mapping : Mapping) (object : Json) :
    Except ImportFailure Put := do
  let row ← jsonObjectToRow numerals object
  let record ← mapRow row mapping
  canonical numerals (labelDefs schema) (relTypeDefs schema) record

section

variable {numerals : Numerals}

private theorem label_of_takeEndpoint {spec : EndpointSpec} {row rest : Row}
    {endpoint : EndpointRef} (takes : takeEndpoint row spec = .ok (endpoint, rest)) :
    endpoint.label = spec.label := by
  obtain ⟨⟨values, last⟩, -, ⟨⟩⟩ := bind_eq_ok.mp takes
  rfl

private theorem label_of_endpointKey {labels : SortedMap String LabelDef} {endpoint : EndpointRef}
    {node : NodeKey} (made : endpointKey numerals endpoint labels = .ok node) :
    node.label = endpoint.label := by
  rw [endpointKey] at made
  split at made
  · cases made
  · split at made
    · cases made
    · obtain ⟨values, -, made⟩ := bind_eq_ok.mp made
      exact (NodeKey.new_eq_ok.mp (liftKey_eq_ok.mp (mapError_eq_ok.mp made))).1

theorem names_of_readObject {schema : SchemaMap} {mapping : Mapping} {object : Json}
    {edge : EdgeKey} {record : EdgeRecord}
    (made : readObject numerals schema mapping object = .ok (.edge edge record)) :
    mapping.Names edge := by
  obtain ⟨row, -, made⟩ := bind_eq_ok.mp made
  obtain ⟨mapped, maps, made⟩ := bind_eq_ok.mp made
  cases mapping with
  | node label =>
      cases maps
      rw [canonical] at made
      split at made
      · cases made
      · obtain ⟨parts, -, ⟨⟩⟩ := bind_eq_ok.mp made
  | edge rtype source target disc =>
      obtain ⟨⟨src, afterSource⟩, takesSource, maps⟩ := bind_eq_ok.mp maps
      obtain ⟨⟨dst, rest⟩, takesTarget, maps⟩ := bind_eq_ok.mp maps
      obtain ⟨value, properties, rfl⟩ : ∃ value properties,
          mapped = .edge rtype src dst value properties := by
        cases disc with
        | none =>
            cases maps
            exact ⟨_, _, rfl⟩
        | some field =>
            cases maps
            exact ⟨_, _, rfl⟩
      rw [canonical] at made
      obtain ⟨first, makesFirst, made⟩ := bind_eq_ok.mp made
      obtain ⟨second, makesSecond, made⟩ := bind_eq_ok.mp made
      obtain ⟨value, -, made⟩ := bind_eq_ok.mp made
      obtain ⟨coerced, -, made⟩ := bind_eq_ok.mp made
      obtain ⟨key, makes, made⟩ := bind_eq_ok.mp made
      obtain ⟨kept, -, ⟨⟩⟩ := bind_eq_ok.mp made
      obtain ⟨isSource, isType, isTarget, -⟩ :=
        EdgeKey.new_eq_ok.mp (liftKey_eq_ok.mp (mapError_eq_ok.mp makes))
      refine ⟨source, target, disc, by rw [isType], ?_, ?_⟩
      · rw [isSource, label_of_endpointKey makesFirst, label_of_takeEndpoint takesSource]
      · rw [isTarget, label_of_endpointKey makesSecond, label_of_takeEndpoint takesTarget]

/-- An edge after a batch was there before it, or is one that the batch puts. -/
private theorem edge_of_saveBatch {labels : SortedMap String LabelDef}
    {state next : UniqueTracker × Workspace} {batch : List Put}
    (saves : saveBatch labels state batch = .ok next) {key : Bytes} {record : EdgeRecord}
    (found : next.2.manifest.edgesFwd.get key = some record) :
    state.2.manifest.edgesFwd.get key = some record ∨
      ∃ put ∈ edgesOf batch, put.1.encodeFwd = .ok key := by
  rw [saveBatch] at saves
  obtain ⟨⟨violations, tracker⟩, -, saves⟩ := bind_eq_ok.mp saves
  dsimp only at saves
  split at saves
  · cases saves
  obtain ⟨txn, stages, saves⟩ := bind_eq_ok.mp saves
  obtain ⟨workspace, saved, ⟨⟩⟩ := bind_eq_ok.mp saves
  rw [mapError_eq_ok] at stages saved
  have staged := batchStaged (stageBatch_eq_ok.mp stages)
  have sameEdges : workspace.manifest.edgesFwd = txn.applied.edgesFwd := by
    rw [Transaction.saveInPlace_maps saved]
  rw [sameEdges, staged.applied_edgesFwd] at found
  rcases get_applyAll_cases found with ⟨op, isOp, isKey, -⟩ | ⟨-, before⟩
  · obtain ⟨put, isPut, own, encodes, rfl⟩ := (staged.edges _).mp isOp
    cases isKey
    exact .inr ⟨put, isPut, encodes⟩
  · exact .inl before

/-- An edge after an import was there before it, or is one that its mapping makes. -/
theorem edge_of_streamBatches {workspace after : Workspace} {mapping : Mapping}
    {objects : List Json} {batchSize : Option Nat}
    (imports : streamBatches numerals workspace mapping objects batchSize = .ok after)
    {key : Bytes} {record : EdgeRecord} {edge : EdgeKey}
    (found : after.manifest.edgesFwd.get key = some record)
    (decodes : EdgeKey.decodeFwd key = .ok edge) :
    (∃ record, workspace.manifest.edgesFwd.get key = some record) ∨ mapping.Names edge := by
  rw [streamBatches] at imports
  obtain ⟨entries, reads, imports⟩ := bind_eq_ok.mp imports
  cases readSchema_eq (mapError_eq_ok.mp reads)
  obtain ⟨tracker, -, imports⟩ := bind_eq_ok.mp imports
  obtain ⟨puts, makes, imports⟩ := bind_eq_ok.mp imports
  obtain ⟨state, saves, ⟨⟩⟩ := bind_eq_ok.mp imports
  have kept : ∀ record, state.2.manifest.edgesFwd.get key = some record →
      (∃ record, workspace.manifest.edgesFwd.get key = some record) ∨ mapping.Names edge := by
    refine @foldlM_invariant _ _ _ _ (fun state : UniqueTracker × Workspace => ∀ record,
      state.2.manifest.edgesFwd.get key = some record →
        (∃ record, workspace.manifest.edgesFwd.get key = some record) ∨ mapping.Names edge) _ ?_ _ _
      (fun record found => .inl ⟨record, found⟩) saves
    intro state batch isBatch next before saves record found
    rcases edge_of_saveBatch saves found with already | ⟨put, isPut, encodes⟩
    · exact before record already
    · have inPuts : Put.edge put.1 put.2 ∈ puts := by
        rw [← flatten_toChunks (max (batchSize.getD defaultImportBatch) 1) puts]
        exact List.mem_flatten.mpr ⟨batch, isBatch, mem_edgesOf.mp isPut⟩
      obtain ⟨object, -, made⟩ := exists_of_mem_mapM makes inPuts
      have made : readObject numerals workspace.manifest.schema mapping object =
        .ok (.edge put.1 put.2) := made
      obtain ⟨source, target, disc, isEdge, sameSource, sameTarget⟩ := names_of_readObject made
      have sameType := (EdgeKey.disc_of_decodeFwd encodes decodes).1
      have sameLabels := EdgeKey.labels_of_decodeFwd encodes decodes
      exact .inr ⟨source, target, disc, sameType ▸ isEdge, sameSource.trans sameLabels.1.symm,
        sameTarget.trans sameLabels.2.symm⟩
  exact kept record found

end

end Acetone.Interchange

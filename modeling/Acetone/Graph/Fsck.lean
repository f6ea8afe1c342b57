import Acetone.Graph.Constraints
import Acetone.Graph.Index
import Acetone.Model.ManifestCodec
import Acetone.Model.RecordCodec
import Acetone.Model.SchemaCodec

/-!
# Integrity checks over many versions

`fsck` checks every version it reaches.  Versions share maps, so a run keeps
tables of what it has checked: map roots found intact, and the inputs of the
content-level checks.  `run` is the combined check with these tables, and
`freshFaults` what a check of one version would find without them.
-/

namespace Acetone.Graph.Fsck

open Acetone.Lib Acetone.Model
open Acetone.Prolly (Hash ChunkParams ProllyError Root)
open Acetone.Model.Cbor (MapRoot ManifestDecodeError RecordDecodeError)

inductive Severity where
  | error
  | advisory
deriving DecidableEq

inductive FindingKind where
  | manifest
  | commit
  | missingChunk
  | corruptChunk
  | mapRoot
  | edgeAsymmetry
  | indexInconsistency
  | historyIndependence
  | danglingEdge
  | anchorIncomplete
  | unverified
  | constraintViolation
deriving DecidableEq

def FindingKind.severity : FindingKind → Severity
  | .edgeAsymmetry | .indexInconsistency | .unverified | .constraintViolation => .advisory
  | _ => .error

inductive Origin where
  | workspace (reference : String)
  | commit (reference : String) (commit : Hash)
  | ref (reference : String)
deriving DecidableEq

inductive MapId where
  | nodes
  | schema
  | edgesFwd
  | edgesRev
  | index (name : String)
  | conflicts
deriving DecidableEq

/-- What a finding says about the version it belongs to. -/
structure Fault where
  kind : FindingKind
  map : Option MapId
  chunk : Option Hash
  detail : String
deriving DecidableEq

structure Finding where
  severity : Severity
  origin : Origin
  fault : Fault
deriving DecidableEq

def fault (kind : FindingKind) (map : Option MapId) (detail : String) : Fault :=
  ⟨kind, map, none, detail⟩

inductive ChunkFaultKind where
  | missing
  | corrupt
deriving DecidableEq

structure ChunkFault where
  hash : Hash
  kind : ChunkFaultKind
  reason : String
deriving DecidableEq

/-- The store and the trees in it, as the checks see them, fixed for a run: a chunk
that a rebuilt tree brings back during the run is still missing here.  The walks
and the scan take a root's address and height; the chunk parameters of a manifest
play no part in them. -/
structure Objects where
  /-- The manifest bytes behind a manifest blob or a commit. -/
  manifest : Hash → Bytes
  verifyReachable : MapRoot → List ChunkFault
  scan : MapRoot → Except String (List (Bytes × Bytes))
  /-- The root hash of the tree that batches of puts build, if they succeed. -/
  rebuild : ChunkParams → List (Bytes × Bytes) → Option Hash
  /-- The chunks reached from the roots, walked in turn. -/
  collectReachableChunks : List MapRoot → Except String (List Hash)
  commitAnchors : Hash → Except String (Option (List Hash))

structure Texts where
  manifestError : ManifestDecodeError → String
  prollyError : ProllyError → String
  keyError : GraphKeyError → String
  recordError : RecordDecodeError → String
  schemaError : SchemaError → String
  formatEdgeKey : EdgeKey → String
  formatLabel : String → String
  quoted : String → String
  keyTuple : List Value → String
  violation : ConstraintViolation → String

/-- The validated root of a map. -/
def toRoot (root : MapRoot) (params : ChunkParams) : Except ProllyError Root :=
  Root.new root.hash root.height.toNat params

def storedProperties (properties : SortedMap String Value) : Properties :=
  .ofList (properties.entries.filterMap fun (name, value) =>
    (encodeValue value).toOption.map fun stored => (name, stored))

def decodeNodeRecord (bytes : Bytes) : Except RecordDecodeError NodeRecord := do
  let record ← Cbor.NodeRecord.decode bytes
  .ok ⟨record.secondaryLabels.toFinset, storedProperties record.properties⟩

def decodeEdgeRecord (bytes : Bytes) : Except RecordDecodeError EdgeRecord := do
  let record ← Cbor.EdgeRecord.decode bytes
  .ok ⟨storedProperties record.properties⟩

section

variable (objects : Objects) (texts : Texts) (manifest : Cbor.Manifest)

def scanMap (root : MapRoot) : Except String (List (Bytes × Bytes)) := do
  let _ ← (toRoot root manifest.chunkParams).mapError texts.prollyError
  objects.scan root

def nodes : Except String (List (NodeKey × NodeRecord)) := do
  let pairs ← scanMap objects texts manifest manifest.nodes
  pairs.mapM fun (key, value) => do
    let node ← (NodeKey.decode key).mapError texts.keyError
    let record ← (decodeNodeRecord value).mapError texts.recordError
    .ok (node, record)

def edges : Except String (List (EdgeKey × EdgeRecord)) := do
  let pairs ← scanMap objects texts manifest manifest.edgesFwd
  pairs.mapM fun (key, value) => do
    let edge ← (EdgeKey.decodeFwd key).mapError texts.keyError
    let record ← (decodeEdgeRecord value).mapError texts.recordError
    .ok (edge, record)

def reverseEdgeKeys : Except String (List EdgeKey) := do
  let pairs ← scanMap objects texts manifest manifest.edgesRev
  pairs.mapM fun (key, _) => (EdgeKey.decodeRev key).mapError texts.keyError

def schemaList : Except String (List SchemaEntry) := do
  let pairs ← scanMap objects texts manifest manifest.schema
  pairs.mapM fun (key, value) => (Cbor.decodeEntry key value).mapError texts.schemaError

/-- Every forward edge has both its endpoints in the node map. -/
def referentialFaults : List Fault :=
  match nodes objects texts manifest, edges objects texts manifest with
  | .ok nodes, .ok edges =>
      let present := nodes.filterMap fun (node, _) => node.encode.toOption
      edges.flatMap fun (edge, _) =>
        [("source", edge.src), ("target", edge.dst)].filterMap fun (role, endpoint) =>
          match endpoint.encode with
          | .error _ => none
          | .ok encoded =>
              if encoded ∈ present then none
              else some (fault .danglingEdge (some .edgesFwd)
                ("edge :" ++ edge.rtype ++ " from " ++ edge.src.label ++
                  texts.keyTuple edge.src.key ++ " to " ++ edge.dst.label ++
                  texts.keyTuple edge.dst.key ++ " has no " ++ role ++ " node"))
  | _, _ => []

def asymmetry (map : Option MapId) (detail : String) : Fault :=
  fault .edgeAsymmetry map detail

/-- The two edge maps describe the same edges, each under its forward key. -/
def edgeSymmetryFaults : List Fault :=
  match edges objects texts manifest with
  | .error err =>
      [asymmetry (some .edgesFwd) ("forward edge entries could not be decoded as edges, " ++
        "so symmetry was not checked: " ++ err)]
  | .ok forward =>
      match reverseEdgeKeys objects texts manifest with
      | .error err =>
          [asymmetry (some .edgesRev) ("reverse edge entries could not be decoded as edges, " ++
            "so symmetry was not checked: " ++ err)]
      | .ok reverse =>
          let forwardIds := forward.filterMap fun (edge, _) => edge.encodeFwd.toOption
          let reverseIds := reverse.filterMap fun edge => edge.encodeFwd.toOption
          let reencodeFailures := (forward.length - forwardIds.length) +
            (reverse.length - reverseIds.length)
          let missingReverse := (forwardIds.toFinset \ reverseIds.toFinset).card
          let missingForward := (reverseIds.toFinset \ forwardIds.toFinset).card
          (if reencodeFailures > 0 then
            [asymmetry none (toString reencodeFailures ++ " edge key(s) decoded but did not " ++
              "re-encode, so the symmetry comparison is incomplete")]
          else []) ++
          (if missingReverse > 0 then
            [asymmetry (some .edgesRev) (toString missingReverse ++ " forward edge(s) have no " ++
              "matching reverse entry (edges_fwd and edges_rev must be symmetric, spec §3.3)")]
          else []) ++
          (if missingForward > 0 then
            [asymmetry (some .edgesFwd) (toString missingForward ++ " reverse edge(s) have no " ++
              "matching forward entry (edges_fwd and edges_rev must be symmetric, spec §3.3)")]
          else [])

def indexFault (name detail : String) : Fault :=
  fault .indexInconsistency (some (.index name)) ("index " ++ texts.quoted name ++ detail)

def missingIndexFaults : List Fault :=
  match schemaList objects texts manifest with
  | .error _ => []
  | .ok entries => (indexDefs entries).filterMap fun (name, _) =>
      if (manifest.indexes.get name).isSome then none
      else some (indexFault texts name " is declared but has no map; run `acetone reindex`")

def indexKeys (name : String) : Except String (List Bytes) :=
  match manifest.indexes.get name with
  | none => .ok []
  | some root => do
      let pairs ← scanMap objects texts manifest root
      .ok (pairs.map Prod.fst)

/-- An index map holds the entries its definition takes from the nodes. -/
def indexFaults (name : String) : List Fault :=
  match schemaList objects texts manifest with
  | .error _ => []
  | .ok entries =>
      match (indexDefs entries).find? (·.1 = name) with
      | none => [indexFault texts name
          " has a map but no schema declaration; run `acetone reindex`"]
      | some (_, decl) =>
          match nodes objects texts manifest, indexKeys objects texts manifest name with
          | .ok nodes, .ok actual =>
              let expected := nodes.filterMap fun (node, record) =>
                indexEntryKey node (some record) decl (labelKeys entries)
              let missing := (expected.toFinset \ actual.toFinset).card
              let extra := (actual.toFinset \ expected.toFinset).card
              if missing ≠ 0 ∨ extra ≠ 0 then
                [indexFault texts name (" disagrees with nodes: " ++ toString missing ++
                  " missing, " ++ toString extra ++ " stale entr" ++
                  (if missing + extra = 1 then "y" else "ies") ++ "; run `acetone reindex`")]
              else []
          | _, _ => []

def reportLimit : Nat := 20

/-- The first findings by name, the rest in one line. -/
def bounded {α : Type} (map : MapId) (detail : α → String) (rest : String)
    (violations : List α) : List Fault :=
  (violations.take reportLimit).map
      (fun violation => fault .constraintViolation (some map) (detail violation)) ++
    if violations.length > reportLimit then
      [fault .constraintViolation (some map)
        ("… and " ++ toString (violations.length - reportLimit) ++ rest)]
    else []

def edgeViolations (relTypes : SortedMap String RelTypeDef) (row : EdgeKey × EdgeRecord) :
    List (EdgeKey × TypeViolation) :=
  match relTypes.get row.1.rtype with
  | none => []
  | some decl => (relTypeViolations row.1 row.2 decl).map fun violation => (row.1, violation)

def relTypeFaults (relTypes : SortedMap String RelTypeDef) : List Fault :=
  match edges objects texts manifest with
  | .error _ => []
  | .ok edges =>
      bounded .edgesFwd
        (fun (edge, property, declared, actual) =>
          "relationship " ++ texts.formatEdgeKey edge ++ " property " ++
            texts.formatLabel property ++ " is declared " ++ declared.asStr ++
            " but holds a " ++ actual.asStr ++ " value")
        " more relationship type violation(s)"
        (edges.flatMap (edgeViolations relTypes))

def nodeFaults (labels : SortedMap String LabelDef) : List Fault :=
  match nodes objects texts manifest with
  | .error _ => []
  | .ok nodes =>
      let found : SortedMap Bytes (NodeKey × NodeRecord) :=
        .ofList (nodes.filterMap fun (node, record) =>
          node.encode.toOption.map fun encoded => (encoded, node, record))
      bounded .nodes texts.violation " more constraint violation(s)"
        (checkNodes labels found.entries none)

def constraintFaults : List Fault :=
  match schemaList objects texts manifest with
  | .error _ => []
  | .ok entries =>
      let labels : SortedMap String LabelDef := .ofList (entries.filterMap labelPair?)
      let relTypes : SortedMap String RelTypeDef := .ofList (entries.filterMap relTypePair?)
      let typedRels := relTypes.entries.any fun row => ¬ row.2.types.entries.isEmpty
      if labels.entries.all (fun row => row.2.existence.isEmpty ∧ row.2.unique.isEmpty ∧
          row.2.types.entries.isEmpty) ∧ ¬ typedRels then []
      else
        (if typedRels then relTypeFaults objects texts manifest relTypes else []) ++
          nodeFaults objects texts manifest labels

/-- The root is not that of the tree its own contents build. -/
def noncanonical (params : ChunkParams) (root : MapRoot) : Bool :=
  match toRoot root params, objects.scan root with
  | .ok _, .ok pairs =>
      match objects.rebuild params pairs with
      | some rebuilt => rebuilt ≠ root.hash
      | none => false
  | _, _ => false

def canonicalFault (map : MapId) : Fault :=
  fault .historyIndependence (some map)
    ("map root is not the canonical prolly tree for its contents " ++
      "(history-independence violation, Invariant #1)")

def canonicalFaults (params : ChunkParams) (root : MapRoot) (map : MapId) : List Fault :=
  if noncanonical objects params root then [canonicalFault map] else []

def chunkFault (map : MapId) (found : ChunkFault) : Fault :=
  ⟨match found.kind with
    | .missing => .missingChunk
    | .corrupt => .corruptChunk,
    some map, some found.hash, found.reason⟩

def rootFaults (map : MapId) (root : MapRoot) : List Fault :=
  match toRoot root manifest.chunkParams with
  | .error err => [fault .mapRoot (some map)
      ("map root does not reconstruct: " ++ texts.prollyError err)]
  | .ok _ => (objects.verifyReachable root).map (chunkFault map)

end

inductive WorkspaceAnchors where
  | anchored (anchors : List Hash)
  | preHuoBlob
  | treeUnanchored
deriving DecidableEq

inductive AnchorSource where
  | commit (id : Hash)
  | workspace (shape : Except String WorkspaceAnchors) (coverage : List Hash)
      (legacyShared : Bool)

def allRoots (manifest : Cbor.Manifest) : List MapRoot :=
  [manifest.schema, manifest.nodes, manifest.edgesFwd, manifest.edgesRev] ++
    manifest.indexes.entries.map Prod.snd ++ manifest.conflicts.toList

def rootKeys (manifest : Cbor.Manifest) : Multiset MapRoot :=
  (allRoots manifest : Multiset MapRoot)

def anchorsOf (objects : Objects) : AnchorSource →
    Except String (List Hash × Option WorkspaceAnchors)
  | .commit id =>
      match objects.commitAnchors id with
      | .ok (some anchors) => .ok (anchors, none)
      | .ok none => .ok ([], none)
      | .error err => .error err
  | .workspace shape coverage legacyShared =>
      let borrowed := if legacyShared then coverage else []
      match shape with
      | .ok (.anchored anchors) => .ok (anchors ++ borrowed, none)
      | .ok other => .ok (borrowed, some other)
      | .error err => .error err

def anchorDetail (source : AnchorSource) (shape : Option WorkspaceAnchors)
    (missing chunks : List Hash) : String :=
  let sample := ", ".intercalate ((missing.take 3).map Hash.toHex)
  let count := toString missing.length
  match source, shape with
  | .workspace _ _ true, some .preHuoBlob =>
      "superseded shared workspace ref (pre-worktree layout, ADR-0014) anchors nothing, and " ++
        count ++ " reachable chunk(s) are covered by no live worktree's anchors either and " ++
        "would not survive a foreign git gc (e.g. " ++ sample ++ ") — save from the live " ++
        "worktree to carry the state over, then remove the superseded ref with " ++
        "`git update-ref -d <ref>`"
  | .workspace _ _ _, some .preHuoBlob =>
      "workspace predates anchor trees (bare manifest blob, pre-huo): " ++ count ++
        " reachable chunk(s) would not survive a foreign git gc (e.g. " ++ sample ++
        ") — any acetone write that saves the workspace upgrades it to an anchored tree"
  | .workspace _ _ _, some .treeUnanchored =>
      "workspace tree has no chunks/ anchor tree (nonconforming — real writers always " ++
        "anchor): " ++ count ++ " reachable chunk(s) would not survive a foreign git gc (e.g. " ++
        sample ++ ")"
  | .workspace _ _ _, _ =>
      count ++ " of " ++ toString chunks.length ++ " reachable chunk(s) are not anchored in the " ++
        "workspace tree's chunks/ (nor any other worktree's) and would not survive a foreign " ++
        "git gc (e.g. " ++ sample ++ ")"
  | .commit _, _ =>
      count ++ " of " ++ toString chunks.length ++ " reachable chunk(s) are not anchored in the " ++
        "commit's chunks/ tree and would not survive a foreign git gc (e.g. " ++ sample ++ ")"

def anchorFaults (objects : Objects) (source : AnchorSource) (chunks : List Hash) :
    List Fault :=
  match anchorsOf objects source with
  | .error err => [fault .anchorIncomplete none ("anchor tree is unreadable: " ++ err)]
  | .ok (anchors, shape) =>
      let missing := chunks.filter (· ∉ anchors)
      if missing.isEmpty then []
      else [fault .anchorIncomplete none (anchorDetail source shape missing chunks)]

def unverifiedFault (err : String) : Fault :=
  fault .unverified none ("anchor completeness could not be computed: " ++ err)

/-- What a check is recorded under. -/
inductive CheckKey where
  | manifest (hash : Hash)
  | edgeSymmetry (edgesFwd edgesRev : MapRoot)
  | referential (nodes edgesFwd : MapRoot)
  | canonical (root : MapRoot) (params : ChunkParams)
  | indexes (schema nodes index : MapRoot) (name : String)
  | constraints (schema nodes : MapRoot)
deriving DecidableEq

/-- The tables of a run.  Those of the content-level checks and of the
manifests are one set, under keys that say which table they are of. -/
structure Verified where
  roots : Finset MapRoot
  chunkSets : List (Multiset MapRoot × List Hash)
  checked : Finset CheckKey

structure Session where
  verified : Verified
  findings : List Finding

def Session.empty : Session := ⟨⟨∅, [], ∅⟩, []⟩

def Session.push (session : Session) (origin : Origin) (faults : List Fault) : Session :=
  { session with
    findings := session.findings ++
      faults.map fun found => ⟨found.kind.severity, origin, found⟩ }

def Session.record (session : Session) (key : CheckKey) : Session :=
  { session with verified := { session.verified with
      checked := insert key session.verified.checked } }

/-- A content-level check of a manifest: whether its inputs allow it, the key
it is recorded under, and what it finds. -/
structure ContentCheck where
  allowed : Bool
  key : Option CheckKey
  faults : List Fault

def Session.once (session : Session) (origin : Origin) (check : ContentCheck) : Session :=
  if ¬ check.allowed then session
  else match check.key with
    | none => session.push origin check.faults
    | some key =>
        if key ∈ session.verified.checked then session
        else (session.record key).push origin check.faults

/-- Which maps of a manifest are structurally sound. -/
structure SoundMaps where
  nodes : Bool
  schema : Bool
  edgesFwd : Bool
  edgesRev : Bool
  indexes : List (String × MapRoot)

section

variable (objects : Objects) (texts : Texts)

/-- The content-level checks of a manifest, in the order they run. -/
def contentChecks (manifest : Cbor.Manifest) (sound : SoundMaps) : List ContentCheck :=
  [⟨sound.edgesFwd && sound.edgesRev,
      some (.edgeSymmetry manifest.edgesFwd manifest.edgesRev),
      edgeSymmetryFaults objects texts manifest⟩,
    ⟨sound.nodes && sound.edgesFwd,
      some (.referential manifest.nodes manifest.edgesFwd),
      referentialFaults objects texts manifest⟩,
    ⟨sound.nodes, none, missingIndexFaults objects texts manifest⟩] ++
  sound.indexes.map (fun row =>
    ⟨sound.nodes, some (.indexes manifest.schema manifest.nodes row.2 row.1),
      indexFaults objects texts manifest row.1⟩) ++
  [⟨sound.schema && sound.nodes,
      some (.constraints manifest.schema manifest.nodes),
      constraintFaults objects texts manifest⟩,
    ⟨sound.nodes, some (.canonical manifest.nodes manifest.chunkParams),
      canonicalFaults objects manifest.chunkParams manifest.nodes .nodes⟩,
    ⟨sound.edgesFwd, some (.canonical manifest.edgesFwd manifest.chunkParams),
      canonicalFaults objects manifest.chunkParams manifest.edgesFwd .edgesFwd⟩]

/-- Whether a map is sound; a root found so before is not walked again. -/
def verifyMap (manifest : Cbor.Manifest) (origin : Origin) (map : MapId) (root : MapRoot)
    (session : Session) : Bool × Session :=
  if root ∈ session.verified.roots then (true, session)
  else
    match rootFaults objects texts manifest map root with
    | [] => (true, { session with verified := { session.verified with
        roots := insert root session.verified.roots } })
    | faults => (false, session.push origin faults)

def verifyIndexes (manifest : Cbor.Manifest) (origin : Origin) :
    List (String × MapRoot) → Session → List (String × MapRoot) × Session
  | [], session => ([], session)
  | (name, root) :: rows, session =>
      let (ok, session) := verifyMap objects texts manifest origin (.index name) root session
      let (others, session) := verifyIndexes manifest origin rows session
      (if ok then (name, root) :: others else others, session)

def verifyMaps (manifest : Cbor.Manifest) (origin : Origin) (session : Session) :
    SoundMaps × Session :=
  let verify := verifyMap objects texts manifest origin
  let (nodesOk, session) := verify .nodes manifest.nodes session
  let (schemaOk, session) := verify .schema manifest.schema session
  let (fwdOk, session) := verify .edgesFwd manifest.edgesFwd session
  let (revOk, session) := verify .edgesRev manifest.edgesRev session
  let (soundIndexes, session) :=
    verifyIndexes objects texts manifest origin manifest.indexes.entries session
  let session := match manifest.conflicts with
    | some conflicts => (verify .conflicts conflicts session).2
    | none => session
  (⟨nodesOk, schemaOk, fwdOk, revOk, soundIndexes⟩, session)

def manifestFault (err : ManifestDecodeError) : Fault :=
  fault .manifest none ("manifest does not decode: " ++ texts.manifestError err)

def checkManifest (origin : Origin) (hash : Hash) (session : Session) : Session :=
  if .manifest hash ∈ session.verified.checked then session
  else
    let session := session.record (.manifest hash)
    match Cbor.Manifest.decode (objects.manifest hash) with
    | .error err => session.push origin [manifestFault texts err]
    | .ok manifest =>
        let (sound, session) := verifyMaps objects texts manifest origin session
        (contentChecks objects texts manifest sound).foldl
          (fun session check => session.once origin check) session

def checkAnchorCompleteness (origin : Origin) (hash : Hash) (source : AnchorSource)
    (session : Session) : Session :=
  match Cbor.Manifest.decode (objects.manifest hash) with
  | .error _ => session
  | .ok manifest =>
      match session.verified.chunkSets.lookup (rootKeys manifest) with
      | some chunks => session.push origin (anchorFaults objects source chunks)
      | none =>
          match objects.collectReachableChunks (allRoots manifest) with
          | .error err => session.push origin [unverifiedFault err]
          | .ok chunks =>
              Session.push { session with verified := { session.verified with
                  chunkSets := (rootKeys manifest, chunks) :: session.verified.chunkSets } }
                origin (anchorFaults objects source chunks)

end

structure Version where
  origin : Origin
  hash : Hash
  source : AnchorSource

section

variable (objects : Objects) (texts : Texts)

def checkVersion (session : Session) (version : Version) : Session :=
  checkAnchorCompleteness objects version.origin version.hash version.source
    (checkManifest objects texts version.origin version.hash session)

def run (versions : List Version) : Session :=
  versions.foldl (checkVersion objects texts) .empty

/-- Whether a map root reaches only intact chunks. -/
def soundRoot (root : MapRoot) : Bool :=
  ¬ (root.height.toNat = 0 ∨ root.height.toNat > Prolly.maxHeight) ∧
    (objects.verifyReachable root).isEmpty

def soundMaps (manifest : Cbor.Manifest) : SoundMaps :=
  ⟨soundRoot objects manifest.nodes, soundRoot objects manifest.schema,
    soundRoot objects manifest.edgesFwd, soundRoot objects manifest.edgesRev,
    manifest.indexes.entries.filter fun row => soundRoot objects row.2⟩

def allMaps (manifest : Cbor.Manifest) : List (MapId × MapRoot) :=
  [(.nodes, manifest.nodes), (.schema, manifest.schema), (.edgesFwd, manifest.edgesFwd),
    (.edgesRev, manifest.edgesRev)] ++
    manifest.indexes.entries.map (fun (name, root) => (.index name, root)) ++
    manifest.conflicts.toList.map fun root => (.conflicts, root)

def freshAnchorFaults (manifest : Cbor.Manifest) (source : AnchorSource) : List Fault :=
  match objects.collectReachableChunks (allRoots manifest) with
  | .error err => [unverifiedFault err]
  | .ok chunks => anchorFaults objects source chunks

def freshManifestFaults (hash : Hash) : List Fault :=
  match Cbor.Manifest.decode (objects.manifest hash) with
  | .error err => [manifestFault texts err]
  | .ok manifest =>
      (allMaps manifest).flatMap (fun (map, root) =>
        rootFaults objects texts manifest map root) ++
      ((contentChecks objects texts manifest (soundMaps objects manifest)).filter
        (·.allowed)).flatMap (·.faults)

def freshFaults (version : Version) : List Fault :=
  freshManifestFaults objects texts version.hash ++
    match Cbor.Manifest.decode (objects.manifest version.hash) with
    | .error _ => []
    | .ok manifest => freshAnchorFaults objects manifest version.source

end

end Acetone.Graph.Fsck

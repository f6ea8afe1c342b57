import Acetone.Graph.Fsck

/-!
# What the integrity checks depend on

Most content-level checks find the same in two manifests that share the roots
of their keys.  The constraint check falls into two halves: one that depends on
its key alone, and the breaches of declared relationship types, which are a
matter of the forward edges.
-/

namespace Acetone.Graph.Fsck

open Acetone.Lib Acetone.Model
open Acetone.Prolly (Hash ChunkParams)
open Acetone.Model.Cbor (MapRoot)

variable {objects : Objects} {texts : Texts}

/-- Whether a root reconstructs does not depend on the chunk parameters. -/
theorem toRoot_mapError {root : MapRoot} {params others : ChunkParams}
    {render : Prolly.ProllyError → String} {α : Type} {next : Except String α} :
    ((toRoot root params).mapError render >>= fun _ => next) =
      ((toRoot root others).mapError render >>= fun _ => next) := by
  unfold toRoot Prolly.Root.new
  split <;> rfl

theorem rootFaults_eq_nil {manifest : Cbor.Manifest} {map : MapId} {root : MapRoot} :
    rootFaults objects texts manifest map root = [] ↔ soundRoot objects root := by
  unfold rootFaults toRoot Prolly.Root.new soundRoot
  split
  · next err failed =>
      split at failed
      · next outside => simp [outside]
      · cases failed
  · next found built =>
      split at built
      · cases built
      · next inside => simp [inside]

section

variable {left right : Cbor.Manifest}

theorem scanMap_eq (root : MapRoot) :
    scanMap objects texts left root = scanMap objects texts right root :=
  toRoot_mapError

theorem nodes_congr (same : left.nodes = right.nodes) :
    nodes objects texts left = nodes objects texts right := by
  rw [nodes, nodes, same, scanMap_eq]

theorem edges_congr (same : left.edgesFwd = right.edgesFwd) :
    edges objects texts left = edges objects texts right := by
  rw [edges, edges, same, scanMap_eq]

theorem reverseEdgeKeys_congr (same : left.edgesRev = right.edgesRev) :
    reverseEdgeKeys objects texts left = reverseEdgeKeys objects texts right := by
  rw [reverseEdgeKeys, reverseEdgeKeys, same, scanMap_eq]

theorem schemaList_congr (same : left.schema = right.schema) :
    schemaList objects texts left = schemaList objects texts right := by
  rw [schemaList, schemaList, same, scanMap_eq]

theorem edgeSymmetryFaults_congr (forward : left.edgesFwd = right.edgesFwd)
    (backward : left.edgesRev = right.edgesRev) :
    edgeSymmetryFaults objects texts left = edgeSymmetryFaults objects texts right := by
  rw [edgeSymmetryFaults, edgeSymmetryFaults, edges_congr forward,
    reverseEdgeKeys_congr backward]

theorem referentialFaults_congr (sameNodes : left.nodes = right.nodes)
    (forward : left.edgesFwd = right.edgesFwd) :
    referentialFaults objects texts left = referentialFaults objects texts right := by
  rw [referentialFaults, referentialFaults, nodes_congr sameNodes, edges_congr forward]

theorem indexFaults_congr (sameSchema : left.schema = right.schema)
    (sameNodes : left.nodes = right.nodes) {name : String}
    (sameIndex : left.indexes.get name = right.indexes.get name) :
    indexFaults objects texts left name = indexFaults objects texts right name := by
  have sameKeys : indexKeys objects texts left name = indexKeys objects texts right name := by
    rw [indexKeys, indexKeys, sameIndex]
    cases right.indexes.get name with
    | none => rfl
    | some root => simp only [@scanMap_eq objects texts left right root]
  rw [indexFaults, indexFaults, schemaList_congr sameSchema, nodes_congr sameNodes, sameKeys]

end

section

variable (objects texts)

/-- The breaches of declared relationship types: a matter of the schema and
the forward edges. -/
def edgeTypeFaults (manifest : Cbor.Manifest) : List Fault :=
  match schemaList objects texts manifest with
  | .error _ => []
  | .ok entries =>
      relTypeFaults objects texts manifest (.ofList (entries.filterMap relTypePair?))

end

variable {manifest : Cbor.Manifest}

@[simp] theorem bounded_nil {α : Type} (map : MapId) (detail : α → String) (rest : String) :
    bounded map detail rest [] = [] := by
  simp [bounded]

theorem mem_bounded {α : Type} {map : MapId} {detail : α → String} {rest : String}
    {violations : List α} {found : Fault} (member : found ∈ bounded map detail rest violations) :
    found.kind = .constraintViolation ∧ found.map = some map := by
  rw [bounded, List.mem_append, List.mem_map] at member
  rcases member with ⟨violation, -, rfl⟩ | summary
  · exact ⟨rfl, rfl⟩
  · split at summary
    · rw [List.mem_singleton.mp summary]
      exact ⟨rfl, rfl⟩
    · cases summary

theorem mem_relTypeFaults {relTypes : SortedMap String RelTypeDef} {found : Fault}
    (member : found ∈ relTypeFaults objects texts manifest relTypes) :
    found.kind = .constraintViolation ∧ found.map = some .edgesFwd := by
  rw [relTypeFaults] at member
  split at member
  · cases member
  · exact mem_bounded member

theorem mem_nodeFaults {labels : SortedMap String LabelDef} {found : Fault}
    (member : found ∈ nodeFaults objects texts manifest labels) :
    found.kind = .constraintViolation ∧ found.map = some .nodes := by
  rw [nodeFaults] at member
  split at member
  · cases member
  · exact mem_bounded member

/-- Without a declared type no relationship breaches one. -/
theorem relTypeFaults_untyped {relTypes : SortedMap String RelTypeDef}
    (untyped : relTypes.entries.any (fun row => ¬ row.2.types.entries.isEmpty) = false) :
    relTypeFaults objects texts manifest relTypes = [] := by
  rw [relTypeFaults]
  split
  · rfl
  · next found _ =>
      have none : found.flatMap (edgeViolations relTypes) = [] := by
        rw [List.flatMap_eq_nil_iff]
        intro row _
        rw [edgeViolations]
        cases declared : relTypes.get row.1.rtype with
        | none => rfl
        | some decl =>
            have listed := SortedMap.get_eq_some_iff.mp declared
            have empty : decl.types.entries = [] := by
              simpa using List.any_eq_false.mp untyped _ listed
            simp [relTypeViolations, empty]
      rw [none, bounded_nil]

theorem mem_constraintFaults {found : Fault} :
    found ∈ constraintFaults objects texts manifest ↔
      found ∈ edgeTypeFaults objects texts manifest ∨
        found ∈ constraintFaults objects texts manifest ∧ found.map = some .nodes := by
  rw [constraintFaults, edgeTypeFaults]
  cases schemaList objects texts manifest with
  | error err => simp
  | ok entries =>
      simp only
      generalize SortedMap.ofList (entries.filterMap relTypePair?) = relTypes
      generalize SortedMap.ofList (entries.filterMap labelPair?) = labels
      cases typed : relTypes.entries.any fun row => ¬ row.2.types.entries.isEmpty with
      | false =>
          rw [relTypeFaults_untyped typed]
          split
          · simp
          · simp only [Bool.false_eq_true, if_false, List.nil_append, List.not_mem_nil,
              false_or]
            exact ⟨fun member => ⟨member, (mem_nodeFaults member).2⟩, And.left⟩
      | true =>
          rw [if_neg (by simp), if_pos (by simp), List.mem_append]
          constructor
          · rintro (rel | node)
            · exact .inl rel
            · exact .inr ⟨.inr node, (mem_nodeFaults node).2⟩
          · rintro (rel | ⟨member, -⟩)
            · exact .inl rel
            · exact member

theorem kind_of_mem_constraintFaults {found : Fault}
    (member : found ∈ constraintFaults objects texts manifest) :
    found.kind = .constraintViolation := by
  rw [constraintFaults] at member
  split at member
  · cases member
  · simp only at member
    split at member
    · cases member
    · rcases List.mem_append.mp member with rel | node
      · split at rel
        · exact (mem_relTypeFaults rel).1
        · cases rel
      · exact (mem_nodeFaults node).1

theorem map_of_mem_edgeTypeFaults {found : Fault}
    (member : found ∈ edgeTypeFaults objects texts manifest) :
    found.kind = .constraintViolation ∧ found.map = some .edgesFwd := by
  rw [edgeTypeFaults] at member
  split at member
  · cases member
  · exact mem_relTypeFaults member

/-- The violations on nodes depend on the schema and the nodes. -/
theorem constraintFaults_nodes {left right : Cbor.Manifest}
    (sameSchema : left.schema = right.schema) (sameNodes : left.nodes = right.nodes)
    {found : Fault} (member : found ∈ constraintFaults objects texts left)
    (onNodes : found.map = some .nodes) : found ∈ constraintFaults objects texts right := by
  rw [constraintFaults, schemaList_congr sameSchema] at member
  rw [constraintFaults]
  cases listed : schemaList objects texts right with
  | error err =>
      rw [listed] at member
      cases member
  | ok entries =>
      rw [listed] at member
      simp only at member ⊢
      split at member
      · cases member
      · next declared =>
          rw [if_neg declared]
          rcases List.mem_append.mp member with rel | node
          · split at rel
            · rw [(mem_relTypeFaults rel).2] at onNodes
              cases onNodes
            · cases rel
          · rw [nodeFaults, nodes_congr sameNodes, ← nodeFaults] at node
            exact List.mem_append_right _ node

theorem kind_of_mem_edgeSymmetryFaults {found : Fault}
    (member : found ∈ edgeSymmetryFaults objects texts manifest) :
    found.kind = .edgeAsymmetry := by
  rw [edgeSymmetryFaults] at member
  split at member
  · rw [List.mem_singleton.mp member]
    rfl
  · split at member
    · rw [List.mem_singleton.mp member]
      rfl
    · simp only [List.mem_append] at member
      rcases member with (member | member) | member <;>
        split at member <;>
        first | cases member; done | (rw [List.mem_singleton.mp member]; rfl)

theorem kind_of_mem_referentialFaults {found : Fault}
    (member : found ∈ referentialFaults objects texts manifest) :
    found.kind = .danglingEdge := by
  rw [referentialFaults] at member
  split at member
  · simp only [List.mem_flatMap, List.mem_filterMap] at member
    obtain ⟨row, -, endpoint, -, isFault⟩ := member
    split at isFault
    · cases isFault
    · split at isFault
      · cases isFault
      · rw [← Option.some.inj isFault]
        rfl
  · cases member

theorem kind_of_mem_missingIndexFaults {found : Fault}
    (member : found ∈ missingIndexFaults objects texts manifest) :
    found.kind = .indexInconsistency := by
  rw [missingIndexFaults] at member
  split at member
  · cases member
  · obtain ⟨⟨name, decl⟩, -, isFault⟩ := List.mem_filterMap.mp member
    simp only at isFault
    split at isFault
    · cases isFault
    · rw [← Option.some.inj isFault]
      rfl

theorem kind_of_mem_indexFaults {name : String} {found : Fault}
    (member : found ∈ indexFaults objects texts manifest name) :
    found.kind = .indexInconsistency := by
  rw [indexFaults] at member
  split at member
  · cases member
  · split at member
    · rw [List.mem_singleton.mp member]
      rfl
    · split at member
      · simp only at member
        split at member
        · rw [List.mem_singleton.mp member]
          rfl
        · cases member
      · cases member

theorem mem_canonicalFaults {params : ChunkParams} {root : MapRoot} {map : MapId}
    {found : Fault} : found ∈ canonicalFaults objects params root map ↔
      noncanonical objects params root ∧ found = canonicalFault map := by
  rw [canonicalFaults]
  split
  · next differs => simp [differs]
  · next same => simp [same]

theorem kind_of_mem_rootFaults {map : MapId} {root : MapRoot} {found : Fault}
    (member : found ∈ rootFaults objects texts manifest map root) :
    found.kind = .mapRoot ∨ found.kind = .missingChunk ∨ found.kind = .corruptChunk := by
  rw [rootFaults] at member
  split at member
  · rw [List.mem_singleton.mp member]
    exact .inl rfl
  · obtain ⟨chunk, -, rfl⟩ := List.mem_map.mp member
    cases kind : chunk.kind with
    | missing => exact .inr (.inl (by simp [chunkFault, kind]))
    | corrupt => exact .inr (.inr (by simp [chunkFault, kind]))

theorem kind_of_mem_anchorFaults {source : AnchorSource} {chunks : List Hash} {found : Fault}
    (member : found ∈ anchorFaults objects source chunks) : found.kind = .anchorIncomplete := by
  rw [anchorFaults] at member
  split at member
  · rw [List.mem_singleton.mp member]
    rfl
  · simp only at member
    split at member
    · cases member
    · rw [List.mem_singleton.mp member]
      rfl

theorem kind_of_mem_freshAnchorFaults {source : AnchorSource} {found : Fault}
    (member : found ∈ freshAnchorFaults objects manifest source) :
    found.kind = .anchorIncomplete ∨ found.kind = .unverified := by
  rw [freshAnchorFaults] at member
  split at member
  · rw [List.mem_singleton.mp member]
    exact .inr rfl
  · exact .inl (kind_of_mem_anchorFaults member)

end Acetone.Graph.Fsck

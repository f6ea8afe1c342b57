import Acetone.Graph.MergeSpec

/-!
# Valid manifests

What every version of the graph is to satisfy, and that a clean merge of valid
versions satisfies it.  The merge checks only what it changed; what it did not
change is in both sides as it was, and every declaration of the merged schema
is one side's, so that side's validity covers it.
-/

namespace Acetone.Graph

open Acetone.Lib Acetone.Model

def nodeOf (key : Bytes) : Option NodeKey := (NodeKey.decode key).toOption

def edgeOf (key : Bytes) : Option EdgeKey := (EdgeKey.decodeFwd key).toOption

def Shaped (discriminator : Option String) (stored : Value) : Prop :=
  discriminator = none ↔ stored = .null

instance (discriminator : Option String) (stored : Value) :
    Decidable (Shaped discriminator stored) :=
  inferInstanceAs (Decidable (_ ↔ _))

structure Valid (manifest : Manifest) : Prop where
  schemaKeyed : SchemaKeyed manifest.schema
  nodeKeyed : ∀ row ∈ manifest.nodes.entries, (nodeOf row.1).isSome
  endpoints : ∀ row ∈ manifest.edgesFwd.entries, ∃ edge ∈ edgeOf row.1,
    ∀ role ∈ [Endpoint.src, Endpoint.dst],
      ∃ endpoint ∈ (Endpoint.of role edge).encode.toOption,
        manifest.nodes.get endpoint ≠ none
  mirrored : ∀ row ∈ manifest.edgesFwd.entries, ∀ edge ∈ edgeOf row.1,
    ∃ reverse ∈ edge.encodeRev.toOption, manifest.edgesRev.get reverse = some ()
  mirrors : ∀ reverse ∈ manifest.edgesRev.keys,
    ∃ row ∈ manifest.edgesFwd.entries, ∃ edge ∈ edgeOf row.1,
      reverse ∈ edge.encodeRev.toOption
  required : ∀ row ∈ manifest.nodes.entries, ∀ node ∈ nodeOf row.1,
    ∀ decl ∈ (labelDefs manifest.schema).get node.label,
      ∀ property ∈ decl.existence, present decl row.2 property
  typed : ∀ row ∈ manifest.nodes.entries, ∀ node ∈ nodeOf row.1,
    ∀ decl ∈ (labelDefs manifest.schema).get node.label,
      typeViolations node row.2 decl = []
  unique : ∀ first ∈ manifest.nodes.entries, ∀ second ∈ manifest.nodes.entries,
    ∀ node ∈ nodeOf first.1, ∀ other ∈ nodeOf second.1, node.label = other.label →
      ∀ decl ∈ (labelDefs manifest.schema).get node.label,
        ∀ property ∈ decl.unique, ∀ value ∈ first.2.properties.get property,
          value ∈ second.2.properties.get property → first.1 = second.1
  edgeTyped : ∀ row ∈ manifest.edgesFwd.entries, ∀ edge ∈ edgeOf row.1,
    ∀ decl ∈ (relTypeDefs manifest.schema).get edge.rtype,
      relTypeViolations edge row.2 decl = []
  shaped : ∀ row ∈ manifest.edgesFwd.entries, ∀ edge ∈ edgeOf row.1,
    Shaped (discriminatorOf manifest.schema edge.rtype) edge.disc
  indexed : rebuildAll manifest.nodes (schemaEntries manifest.schema) =
    .ok manifest.indexes

@[simp] theorem mem_nodeOf {key : Bytes} {node : NodeKey} :
    node ∈ nodeOf key ↔ NodeKey.decode key = .ok node := by
  rw [nodeOf]
  cases NodeKey.decode key <;> simp [Except.toOption]

@[simp] theorem mem_edgeOf {key : Bytes} {edge : EdgeKey} :
    edge ∈ edgeOf key ↔ EdgeKey.decodeFwd key = .ok edge := by
  rw [edgeOf]
  cases EdgeKey.decodeFwd key <;> simp [Except.toOption]

section

variable {base ours theirs merged : Manifest}

def IsSide (ours theirs side : Manifest) : Prop := side = ours ∨ side = theirs

private theorem schema_from_side (clean : CleanMerge base ours theirs merged)
    (key : Bytes) : ∃ side, IsSide ours theirs side ∧
      merged.schema.get key = side.schema.get key := by
  rcases (clean.schema key).from_side with same | same
  · exact ⟨ours, .inl rfl, same⟩
  · exact ⟨theirs, .inr rfl, same⟩

variable (clean : CleanMerge base ours theirs merged)
  (valid : ∀ side, IsSide ours theirs side → Valid side)

include clean valid

theorem CleanMerge.schemaKeyed : SchemaKeyed merged.schema := by
  intro row member
  obtain ⟨side, isSide, same⟩ := schema_from_side clean row.1
  rw [SortedMap.get_eq_some_iff.mpr member] at same
  exact (valid side isSide).schemaKeyed row (SortedMap.get_eq_some_iff.mp same.symm)

private theorem label_from_side {name : String} {decl : LabelDef}
    (declared : (labelDefs merged.schema).get name = some decl) :
    ∃ side, IsSide ours theirs side ∧
      (labelDefs side.schema).get name = some decl := by
  obtain ⟨side, isSide, same⟩ := schema_from_side clean (entryKey kindLabel name)
  rw [(labelDefs_get (clean.schemaKeyed valid)).mp declared] at same
  exact ⟨side, isSide, (labelDefs_get (valid side isSide).schemaKeyed).mpr same.symm⟩

private theorem relType_from_side {name : String} {decl : RelTypeDef}
    (declared : (relTypeDefs merged.schema).get name = some decl) :
    ∃ side, IsSide ours theirs side ∧
      (relTypeDefs side.schema).get name = some decl := by
  obtain ⟨side, isSide, same⟩ := schema_from_side clean (entryKey kindRtype name)
  rw [(relTypeDefs_get (clean.schemaKeyed valid)).mp declared] at same
  exact ⟨side, isSide,
    (relTypeDefs_get (valid side isSide).schemaKeyed).mpr same.symm⟩

omit valid in
private theorem unchanged_node {row : Bytes × NodeRecord}
    (member : row ∈ merged.nodes.entries)
    (unchanged : row.1 ∉ changedKeys base.nodes merged.nodes) {side : Manifest}
    (isSide : IsSide ours theirs side) : row ∈ side.nodes.entries := by
  have isMerged := SortedMap.get_eq_some_iff.mpr member
  have both := (clean.nodes row.1).unchanged nodeRules_conservative
    (get_base_of_unchanged isMerged unchanged) isMerged
  rcases isSide with rfl | rfl
  · exact SortedMap.get_eq_some_iff.mp both.1
  · exact SortedMap.get_eq_some_iff.mp both.2

omit valid in
private theorem unchanged_edge {row : Bytes × EdgeRecord}
    (member : row ∈ merged.edgesFwd.entries)
    (unchanged : row.1 ∉ changedKeys base.edgesFwd merged.edgesFwd)
    {side : Manifest} (isSide : IsSide ours theirs side) :
    row ∈ side.edgesFwd.entries := by
  have isMerged := SortedMap.get_eq_some_iff.mpr member
  have both := (clean.edges row.1).unchanged edgeRules_conservative
    (get_base_of_unchanged isMerged unchanged) isMerged
  rcases isSide with rfl | rfl
  · exact SortedMap.get_eq_some_iff.mp both.1
  · exact SortedMap.get_eq_some_iff.mp both.2

omit valid in
private theorem node_in_side {row : Bytes × NodeRecord}
    (member : row ∈ merged.nodes.entries) : ∃ side, IsSide ours theirs side ∧
      ∃ record, (row.1, record) ∈ side.nodes.entries := by
  rcases (clean.nodes row.1).in_side (SortedMap.get_ne_none_of_mem member) with
    inOurs | inTheirs
  · exact ⟨ours, .inl rfl, SortedMap.get_ne_none_iff.mp inOurs⟩
  · exact ⟨theirs, .inr rfl, SortedMap.get_ne_none_iff.mp inTheirs⟩

omit valid in
private theorem edge_in_side {row : Bytes × EdgeRecord}
    (member : row ∈ merged.edgesFwd.entries) : ∃ side, IsSide ours theirs side ∧
      ∃ record, (row.1, record) ∈ side.edgesFwd.entries := by
  rcases (clean.edges row.1).in_side (SortedMap.get_ne_none_of_mem member) with
    inOurs | inTheirs
  · exact ⟨ours, .inl rfl, SortedMap.get_ne_none_iff.mp inOurs⟩
  · exact ⟨theirs, .inr rfl, SortedMap.get_ne_none_iff.mp inTheirs⟩

private theorem merged_nodeKeyed :
    ∀ row ∈ merged.nodes.entries, (nodeOf row.1).isSome := by
  intro row member
  obtain ⟨side, isSide, record, inside⟩ := node_in_side clean member
  exact (valid side isSide).nodeKeyed (row.1, record) inside

end

section

variable {base ours theirs merged : Manifest}
  {nodes : List (Bytes × NodeKey × NodeRecord)}
  (clean : CleanMerge base ours theirs merged)
  (unbreached : Unbreached base ours theirs merged nodes)

include unbreached

private theorem mem_decoded {row : Bytes × NodeRecord} {node : NodeKey}
    (member : row ∈ merged.nodes.entries) (isNode : node ∈ nodeOf row.1) :
    (row.1, node, row.2) ∈ nodes := by
  obtain ⟨result, inside, decodes⟩ :=
    mem_of_mapM_eq_ok unbreached.decoded member
  rw [mem_nodeOf] at isNode
  simp only [isNode, liftKey, ok_bind, Except.ok.injEq] at decodes
  exact decodes ▸ inside

private theorem merged_endpoints (validBase : Valid base) :
    ∀ row ∈ merged.edgesFwd.entries, ∃ edge ∈ edgeOf row.1,
      ∀ role ∈ [Endpoint.src, Endpoint.dst],
        ∃ endpoint ∈ (Endpoint.of role edge).encode.toOption,
          merged.nodes.get endpoint ≠ none := by
  intro row member
  obtain ⟨found, here, none⟩ := gather_eq_ok unbreached.dangling member
  obtain ⟨edge, isEdge, perRole⟩ := bind_eq_ok.mp here
  rw [liftKey_eq_ok] at isEdge
  refine ⟨edge, mem_edgeOf.mpr isEdge, ?_⟩
  intro role isRole
  obtain ⟨reported, atRole, among⟩ := gather_eq_ok perRole isRole
  obtain ⟨endpoint, encoded, report⟩ := bind_eq_ok.mp atRole
  rw [liftKey_eq_ok] at encoded
  refine ⟨endpoint, mem_toOption.mpr encoded, fun absent => ?_⟩
  have responsible : row.1 ∈ addedKeys base.edgesFwd merged.edgesFwd ∨
      endpoint ∈ deletedKeys base.nodes merged.nodes := by
    by_cases old : base.edgesFwd.get row.1 = Option.none
    · exact .inl (mem_addedKeys.mpr ⟨old, SortedMap.get_ne_none_of_mem member⟩)
    · obtain ⟨record, inBase⟩ := SortedMap.get_ne_none_iff.mp old
      obtain ⟨sameEdge, isSame, present⟩ := validBase.endpoints _ inBase
      rw [mem_edgeOf, isEdge] at isSame
      cases isSame
      obtain ⟨sameEndpoint, isEndpoint, held⟩ := present role isRole
      rw [mem_toOption, encoded] at isEndpoint
      cases isEndpoint
      exact .inr (mem_deletedKeys.mpr ⟨held, absent⟩)
  rw [if_pos ⟨absent, responsible⟩, Except.ok.injEq] at report
  have listed := among (report ▸ List.mem_singleton_self _)
  exact absurd (none listed) List.not_mem_nil

include clean

private theorem merged_required (valid : ∀ side, IsSide ours theirs side → Valid side) :
    ∀ row ∈ merged.nodes.entries, ∀ node ∈ nodeOf row.1,
      ∀ decl ∈ (labelDefs merged.schema).get node.label,
        ∀ property ∈ decl.existence, present decl row.2 property := by
  intro row member node isNode decl declared property isRequired
  by_contra absent
  have unchanged : row.1 ∉ changedKeys base.nodes merged.nodes := by
    intro changed
    have perNode := List.flatMap_eq_nil_iff.mp unbreached.required _
      (mem_decoded unbreached member isNode)
    simp only [Option.mem_def.mp declared, List.filterMap_eq_nil_iff] at perNode
    have missing : property ∈ missingRequired decl row.2 :=
      List.mem_filter.mpr ⟨isRequired, by simpa using absent⟩
    have unreported := perNode property missing
    rw [if_pos (.inl changed)] at unreported
    cases unreported
  obtain ⟨side, isSide, declaredThere⟩ := label_from_side clean valid declared
  exact absent ((valid side isSide).required row
    (unchanged_node clean member unchanged isSide) node isNode decl declaredThere
    property isRequired)

private theorem merged_typed (valid : ∀ side, IsSide ours theirs side → Valid side) :
    ∀ row ∈ merged.nodes.entries, ∀ node ∈ nodeOf row.1,
      ∀ decl ∈ (labelDefs merged.schema).get node.label,
        typeViolations node row.2 decl = [] := by
  intro row member node isNode decl declared
  by_contra breached
  obtain ⟨breach, isBreach⟩ := List.exists_mem_of_ne_nil _ breached
  have unchanged : row.1 ∉ changedKeys base.nodes merged.nodes := by
    intro changed
    have perNode := List.flatMap_eq_nil_iff.mp unbreached.typed _
      (mem_decoded unbreached member isNode)
    simp only [Option.mem_def.mp declared, List.filterMap_eq_nil_iff] at perNode
    have unreported := perNode breach isBreach
    rw [if_pos (.inl changed)] at unreported
    cases unreported
  obtain ⟨side, isSide, declaredThere⟩ := label_from_side clean valid declared
  exact breached ((valid side isSide).typed row
    (unchanged_node clean member unchanged isSide) node isNode decl declaredThere)

private theorem merged_edgeTyped
    (valid : ∀ side, IsSide ours theirs side → Valid side) :
    ∀ row ∈ merged.edgesFwd.entries, ∀ edge ∈ edgeOf row.1,
      ∀ decl ∈ (relTypeDefs merged.schema).get edge.rtype,
        relTypeViolations edge row.2 decl = [] := by
  intro row member edge isEdge decl declared
  by_contra breached
  obtain ⟨breach, isBreach⟩ := List.exists_mem_of_ne_nil _ breached
  have unchanged : row.1 ∉ changedKeys base.edgesFwd merged.edgesFwd := by
    intro changed
    have typesDeclared : (relTypeDefs merged.schema).entries.any
        (fun entry => ¬ entry.2.types.entries.isEmpty) := by
      rw [List.any_eq_true]
      refine ⟨(edge.rtype, decl), SortedMap.get_eq_some_iff.mp declared, ?_⟩
      rw [decide_eq_true_iff, List.isEmpty_iff]
      intro empty
      rw [relTypeViolations, empty] at breached
      exact breached rfl
    have checked := unbreached.edgeTyped
    rw [edgeWrongTypes, if_pos typesDeclared] at checked
    obtain ⟨found, here, none⟩ := gather_eq_ok checked member
    rw [mem_edgeOf] at isEdge
    simp only [isEdge, liftKey, ok_bind, Option.mem_def.mp declared,
      Except.ok.injEq] at here
    have empty := List.eq_nil_of_subset_nil none
    rw [← here, List.filterMap_eq_nil_iff] at empty
    have unreported := empty breach isBreach
    rw [if_pos (.inl changed)] at unreported
    cases unreported
  obtain ⟨side, isSide, declaredThere⟩ := relType_from_side clean valid declared
  exact breached ((valid side isSide).edgeTyped row
    (unchanged_edge clean member unchanged isSide) edge isEdge decl declaredThere)

private theorem merged_unique (valid : ∀ side, IsSide ours theirs side → Valid side) :
    ∀ first ∈ merged.nodes.entries, ∀ second ∈ merged.nodes.entries,
      ∀ node ∈ nodeOf first.1, ∀ other ∈ nodeOf second.1,
        node.label = other.label →
        ∀ decl ∈ (labelDefs merged.schema).get node.label,
          ∀ property ∈ decl.unique, ∀ value ∈ first.2.properties.get property,
            value ∈ second.2.properties.get property → first.1 = second.1 := by
  intro first isFirst second isSecond node isNode other isOther sameLabel decl
    declared property isUnique value holds alsoHolds
  by_contra apart
  have firstClaim : ((node.label, property, value), first.1) ∈
      allClaims (labelDefs merged.schema) nodes :=
    mem_allClaims.mpr ⟨node, _, mem_decoded unbreached isFirst isNode,
      mem_claimsOf.mpr ⟨decl, declared, rfl, isUnique, holds⟩⟩
  have secondClaim : ((node.label, property, value), second.1) ∈
      allClaims (labelDefs merged.schema) nodes :=
    mem_allClaims.mpr ⟨other, _, mem_decoded unbreached isSecond isOther,
      mem_claimsOf.mpr ⟨decl, sameLabel ▸ declared, sameLabel, isUnique, alsoHolds⟩⟩
  obtain ⟨members, collide, firstIn, secondIn⟩ :=
    mem_collisions firstClaim secondClaim apart
  have unreported := List.filterMap_eq_nil_iff.mp unbreached.unique _ collide
  have unchanged : ∀ key ∈ members, key ∉ changedKeys base.nodes merged.nodes := by
    intro key inside changed
    have touched : members.any
        (fun key => decide (key ∈ changedKeys base.nodes merged.nodes)) :=
      List.any_eq_true.mpr ⟨key, inside, decide_eq_true changed⟩
    simp only [touched, or_true, if_true] at unreported
    cases unreported
  obtain ⟨side, isSide, declaredThere⟩ := label_from_side clean valid declared
  exact apart ((valid side isSide).unique first
    (unchanged_node clean isFirst (unchanged _ firstIn) isSide) second
    (unchanged_node clean isSecond (unchanged _ secondIn) isSide) node isNode other
    isOther sameLabel decl declaredThere property isUnique value holds alsoHolds)

omit clean unbreached in
private theorem disagreeing_get {side merged : SchemaMap} {rtype : String}
    (apart : discriminatorOf side rtype ≠ discriminatorOf merged rtype) :
    (SortedMap.ofList (disagreeing side merged)).get rtype ≠ none := by
  rw [Ne, SortedMap.get_ofList_eq_none]
  intro absent
  cases declared : (relTypeDefs side).get rtype with
  | some decl =>
      have differ : decl.discriminator ≠ discriminatorOf merged rtype := by
        rwa [discriminatorOf, declared, Option.bind_some] at apart
      refine absent (rtype, decl.discriminator) (List.mem_append_left _
        (List.mem_filterMap.mpr ⟨(rtype, decl), ?_, if_pos differ⟩)) rfl
      exact SortedMap.get_eq_some_iff.mp declared
  | none =>
      have named : discriminatorOf merged rtype ≠ none := by
        rw [discriminatorOf, declared, Option.bind_none] at apart
        exact apart.symm
      obtain ⟨decl, mergedDeclares⟩ :
          ∃ decl, (relTypeDefs merged).get rtype = some decl := by
        cases found : (relTypeDefs merged).get rtype with
        | none =>
            rw [discriminatorOf, found] at named
            exact absurd rfl named
        | some decl => exact ⟨decl, rfl⟩
      refine absent (rtype, none) (List.mem_append_right _
        (List.mem_filterMap.mpr ⟨(rtype, decl), ?_, if_pos ⟨declared, named⟩⟩)) rfl
      exact SortedMap.get_eq_some_iff.mp mergedDeclares

omit clean in
/-- Where nothing is stale, a side's edge in the merged graph has the merged
discriminator. -/
private theorem same_discriminator {side : Manifest}
    (isSide : IsSide ours theirs side) {row : Bytes × EdgeRecord}
    (inside : row ∈ side.edgesFwd.entries) {edge : EdgeKey}
    (isEdge : EdgeKey.decodeFwd row.1 = .ok edge)
    (held : merged.edgesFwd.get row.1 ≠ none) :
    discriminatorOf side.schema edge.rtype =
      discriminatorOf merged.schema edge.rtype := by
  by_contra apart
  have disagrees := disagreeing_get apart
  obtain ⟨minted, isMinted⟩ := Option.ne_none_iff_exists'.mp disagrees
  obtain ⟨fromOurs, oursStale, fromTheirs, theirsStale, none⟩ : ∃ fromOurs,
      staleOf merged ours = .ok fromOurs ∧ ∃ fromTheirs,
        staleOf merged theirs = .ok fromTheirs ∧
        (SortedMap.ofList (fromTheirs ++ fromOurs)).entries.map Prod.snd = [] := by
    have stale := unbreached.stale
    simpa only [staleDiscriminators, bind_eq_ok, Except.ok.injEq] using stale
  rw [List.map_eq_nil_iff] at none
  have found : ∀ {reports}, staleOf merged side = .ok reports → reports ≠ [] := by
    intro reports scanned
    have filled : ¬ (SortedMap.ofList (disagreeing side.schema
        merged.schema)).entries.isEmpty := by
      rw [List.isEmpty_iff]
      exact List.ne_nil_of_mem (SortedMap.get_eq_some_iff.mp isMinted)
    rw [staleOf, if_neg filled] at scanned
    obtain ⟨here, atRow, among⟩ := gather_eq_ok scanned inside
    simp only [isEdge, liftKey, ok_bind, isMinted, if_neg held,
      Except.ok.injEq] at atRow
    exact List.ne_nil_of_mem (among (atRow ▸ List.mem_singleton_self _))
  have empty : fromTheirs ++ fromOurs = [] := by
    by_contra filled
    obtain ⟨report, member⟩ := List.exists_mem_of_ne_nil _ filled
    have stored : (SortedMap.ofList (fromTheirs ++ fromOurs)).get report.1 ≠
        Option.none := by
      rw [Ne, SortedMap.get_ofList_eq_none]
      exact fun absent => absent report member rfl
    obtain ⟨value, listed⟩ := SortedMap.get_ne_none_iff.mp stored
    rw [none] at listed
    cases listed
  rw [List.append_eq_nil_iff] at empty
  rcases isSide with rfl | rfl
  · exact found oursStale empty.2
  · exact found theirsStale empty.1

private theorem merged_shaped (valid : ∀ side, IsSide ours theirs side → Valid side) :
    ∀ row ∈ merged.edgesFwd.entries, ∀ edge ∈ edgeOf row.1,
      Shaped (discriminatorOf merged.schema edge.rtype) edge.disc := by
  intro row member edge isEdge
  obtain ⟨side, isSide, record, inside⟩ := edge_in_side clean member
  have held := SortedMap.get_ne_none_of_mem member
  have same := same_discriminator unbreached isSide inside (mem_edgeOf.mp isEdge) held
  rw [← same]
  exact (valid side isSide).shaped (row.1, record) inside edge isEdge

end

section

variable {edges : EdgeMap} {reverse : KeySet Bytes}
  (rebuilt : rebuildReverse edges = .ok reverse)

include rebuilt

theorem rebuildReverse_mirrored : ∀ row ∈ edges.entries, ∀ edge ∈ edgeOf row.1,
    ∃ key ∈ edge.encodeRev.toOption, reverse.get key = some () := by
  intro row member edge isEdge
  obtain ⟨keys, each, ⟨⟩⟩ := bind_eq_ok.mp rebuilt
  obtain ⟨key, inside, encodes⟩ := mem_of_mapM_eq_ok each member
  rw [mem_edgeOf] at isEdge
  simp only [isEdge, liftKey, ok_bind] at encodes
  refine ⟨key, mem_toOption.mpr ?_, KeySet.get_ofKeys.mpr inside⟩
  exact liftKey_eq_ok.mp encodes

theorem rebuildReverse_mirrors : ∀ key ∈ reverse.keys,
    ∃ row ∈ edges.entries, ∃ edge ∈ edgeOf row.1,
      key ∈ edge.encodeRev.toOption := by
  intro key member
  obtain ⟨keys, each, ⟨⟩⟩ := bind_eq_ok.mp rebuilt
  rw [SortedMap.mem_keys, KeySet.get_ne_none, KeySet.get_ofKeys] at member
  obtain ⟨row, inside, encodes⟩ := exists_of_mem_mapM each member
  obtain ⟨edge, isEdge, encodes⟩ := bind_eq_ok.mp encodes
  exact ⟨row, inside, edge, mem_edgeOf.mpr (liftKey_eq_ok.mp isEdge),
    mem_toOption.mpr (liftKey_eq_ok.mp encodes)⟩

end

/-- A clean merge of valid versions is valid. -/
theorem mergeManifests_valid (base ours theirs merged : Manifest)
    (validBase : Valid base) (validOurs : Valid ours) (validTheirs : Valid theirs)
    (outcome : mergeManifests base ours theirs = .ok (.clean merged)) :
    Valid merged := by
  have clean := mergeManifests_clean outcome
  obtain ⟨nodes, unbreached⟩ := clean.unbreached
  have valid : ∀ side, IsSide ours theirs side → Valid side := by
    rintro side (rfl | rfl)
    · exact validOurs
    · exact validTheirs
  exact {
    schemaKeyed := clean.schemaKeyed valid
    nodeKeyed := merged_nodeKeyed clean valid
    endpoints := merged_endpoints unbreached validBase
    mirrored := rebuildReverse_mirrored clean.reverse
    mirrors := rebuildReverse_mirrors clean.reverse
    required := merged_required clean unbreached valid
    typed := merged_typed clean unbreached valid
    unique := merged_unique clean unbreached valid
    edgeTyped := merged_edgeTyped clean unbreached valid
    shaped := merged_shaped clean unbreached valid
    indexed := clean.indexes }

/-- A version with the given rows; its derived maps are rebuilt. -/
def sampleVersion (entries : List SchemaEntry) (nodes : List (NodeKey × NodeRecord))
    (edges : List (EdgeKey × EdgeRecord)) : Manifest :=
  let schema : SchemaMap := .ofList (entries.map fun entry => (entry.mapKey, entry))
  let nodeMap : NodeMap := .ofList (nodes.filterMap fun (node, record) =>
    node.encode.toOption.map fun key => (key, record))
  let edgeMap : EdgeMap := .ofList (edges.filterMap fun (edge, record) =>
    edge.encodeFwd.toOption.map fun key => (key, record))
  ⟨schema, nodeMap, edgeMap, (rebuildReverse edgeMap).toOption.getD .empty,
    (rebuildAll nodeMap (schemaEntries schema)).toOption.getD .empty⟩

def personLabel : LabelDef :=
  ⟨["id"], false, .ofList [("mail", .string)], [], ["mail"], by decide, by decide,
    by decide⟩

def sampleSchema : List SchemaEntry :=
  [.label "Person" personLabel, .relType "Knows" ⟨none, .empty, []⟩,
    .index "byMail" ⟨"Person", ["mail"], by decide, by decide, by decide⟩]

def person (id : Int64) : NodeKey :=
  ⟨"Person", [.int id], by rfl⟩

def mailOf (mail : String) : NodeRecord :=
  ⟨∅, .ofList [("mail", ⟨.string mail, by rfl⟩)]⟩

def sampleBaseVersion : Manifest :=
  sampleVersion sampleSchema [(person 1, mailOf "a")] []

def sampleOursVersion : Manifest :=
  sampleVersion sampleSchema [(person 1, mailOf "a"), (person 2, mailOf "b")]
    [(⟨person 1, "Knows", person 2, .null, by rfl⟩, ⟨.empty⟩)]

def sampleTheirsVersion : Manifest :=
  sampleVersion sampleSchema [(person 1, mailOf "d"), (person 3, mailOf "c")] []

def sampleMerged : Manifest :=
  match mergeManifests sampleBaseVersion sampleOursVersion sampleTheirsVersion with
  | .ok (.clean merged) => merged
  | _ => sampleBaseVersion

theorem mergeManifests_valid_sample :
    mergeManifests sampleBaseVersion sampleOursVersion sampleTheirsVersion =
        .ok (.clean sampleMerged) ∧
      Valid sampleMerged := by
  have outcome : mergeManifests sampleBaseVersion sampleOursVersion
      sampleTheirsVersion = .ok (.clean sampleMerged) := by decide +kernel
  refine ⟨outcome, mergeManifests_valid sampleBaseVersion sampleOursVersion
    sampleTheirsVersion sampleMerged ?_ ?_ ?_ outcome⟩
  all_goals constructor <;> decide +kernel

end Acetone.Graph

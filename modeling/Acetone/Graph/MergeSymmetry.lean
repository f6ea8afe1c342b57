import Acetone.Graph.Validity

/-!
# Exchanging the sides of a merge

The outcome of a merge does not depend on which side is ours: exchanging the
sides exchanges them in every conflict and changes nothing else.  Within a
record that both sides modified, a cell is decided by the side that changed it,
and disputed exactly when both changed it differently.
-/

namespace Acetone.Graph

open Acetone.Lib Acetone.Model

def PropertyConflict.mirror (conflict : PropertyConflict) : PropertyConflict :=
  ⟨conflict.property, conflict.base, conflict.theirs, conflict.ours⟩

def CellConflict.mirror (conflict : CellConflict) : CellConflict :=
  ⟨conflict.map, conflict.key, conflict.property, conflict.base, conflict.theirs,
    conflict.ours⟩

/-- A violation of the merged graph has no sides. -/
def MergeConflict.mirror : MergeConflict → MergeConflict
  | .cell conflict => .cell conflict.mirror
  | .graph violation => .graph violation

def ManifestMerge.mirror : ManifestMerge → ManifestMerge
  | .clean merged => .clean merged
  | .conflicts merged found => .conflicts merged (found.map MergeConflict.mirror)

theorem ManifestMerge.mirror_mirror (outcome : ManifestMerge) :
    outcome.mirror.mirror = outcome := by
  cases outcome with
  | clean merged => rfl
  | conflicts merged found =>
      have each : MergeConflict.mirror ∘ MergeConflict.mirror = id := by
        funext conflict
        cases conflict <;> rfl
      rw [mirror, mirror, List.map_map, each, List.map_id]

section

variable (base ours theirs : Properties)

private theorem resolveProperty_swap (base ours theirs : Option StoredValue) :
    resolveProperty base theirs ours = resolveProperty base ours theirs := by
  rw [resolveProperty, resolveProperty]
  by_cases agree : ours = theirs
  · rw [if_pos agree, if_pos agree.symm, agree]
  · rw [if_neg agree, if_neg fun same => agree same.symm]
    by_cases oursSame : ours = base
    · rw [if_pos oursSame, if_pos oursSame,
        if_neg fun same => agree (oursSame.trans same.symm)]
    · rw [if_neg oursSame, if_neg oursSame]

private theorem propertyNames_swap :
    propertyNames base theirs ours = propertyNames base ours theirs := by
  have sameKeys : KeySet.ofKeys (base.keys ++ theirs.keys ++ ours.keys) =
      KeySet.ofKeys (base.keys ++ ours.keys ++ theirs.keys) := by
    apply KeySet.ext
    intro name
    rw [KeySet.get_ofKeys, KeySet.get_ofKeys]
    simp only [List.mem_append]
    exact or_right_comm
  rw [propertyNames, propertyNames, sameKeys]

theorem mergeProperties_swap :
    mergeProperties base theirs ours =
      ((mergeProperties base ours theirs).1,
        (mergeProperties base ours theirs).2.map PropertyConflict.mirror) := by
  have sameAt : ∀ name, resolveAt base theirs ours name = resolveAt base ours theirs name :=
    fun name => resolveProperty_swap _ _ _
  rw [mergeProperties, mergeProperties, propertyNames_swap]
  simp only [sameAt, List.map_filterMap]
  congr 2
  funext name
  cases resolveAt base ours theirs name <;> rfl

end

theorem mergeLabels_swap (base ours theirs : Finset String) :
    mergeLabels base theirs ours = mergeLabels base ours theirs := by
  ext label
  simp only [mergeLabels, Finset.mem_filter, Finset.mem_union]
  rw [or_right_comm, or_comm (a := label ∈ base ∧ label ∉ theirs)]

/-- Rules for which the sides play the same part. -/
def CellRules.Symmetric {R : Type} (rules : CellRules R) : Prop :=
  ∀ base ours theirs, rules.merge base theirs ours =
    ((rules.merge base ours theirs).1, (rules.merge base ours theirs).2.map PropertyConflict.mirror)

theorem nodeRules_symmetric : nodeRules.Symmetric := by
  intro base ours theirs
  simp only [nodeRules, mergeNodeRecord, mergeLabels_swap base.secondaryLabels ours.secondaryLabels,
    mergeProperties_swap base.properties ours.properties]

theorem edgeRules_symmetric : edgeRules.Symmetric := by
  intro base ours theirs
  simp only [edgeRules, mergeEdgeRecord, mergeProperties_swap base.properties ours.properties]

section

variable {K V : Type} [LinearOrder K] [DecidableEq V] (base ours theirs : SortedMap K V)

private theorem threeWay_swap : threeWay base theirs ours = threeWay base ours theirs := by
  rw [← applyAll_ops, ops_swap, applyAll_ops]

end

section

variable {R : Type} {rules : CellRules R}

private theorem refine_mirror (symmetric : rules.Symmetric) (conflict : Conflict Bytes R) :
    refine rules conflict.mirror =
      ((refine rules conflict).1, (refine rules conflict).2.map CellConflict.mirror) := by
  obtain ⟨key, base, ours, theirs⟩ := conflict
  cases ours with
  | none => cases theirs <;> rfl
  | some ours =>
      cases theirs with
      | none => rfl
      | some theirs =>
          simp only [refine, Conflict.mirror, symmetric (base.getD rules.empty) ours theirs,
            List.map_map]
          rfl

variable [DecidableEq R]

theorem mergeOne_swap (symmetric : rules.Symmetric) (base ours theirs : SortedMap Bytes R) :
    mergeOne rules base theirs ours =
      ((mergeOne rules base ours theirs).1,
        (mergeOne rules base ours theirs).2.map CellConflict.mirror) := by
  have refined : (conflicts base theirs ours).map (refine rules) =
      ((conflicts base ours theirs).map (refine rules)).map
        fun part => (part.1, part.2.map CellConflict.mirror) := by
    rw [conflicts_swap, List.map_map, List.map_map]
    apply List.map_congr_left
    intro conflict _
    exact refine_mirror symmetric conflict
  rw [mergeOne, mergeOne, threeWay_swap, refined]
  simp only [List.filterMap_map, List.flatMap_map, List.map_flatMap]
  rfl

theorem mergeSchema_swap (base ours theirs : SchemaMap) :
    mergeSchema base theirs ours =
      ((mergeSchema base ours theirs).1,
        (mergeSchema base ours theirs).2.map CellConflict.mirror) := by
  rw [mergeSchema, mergeSchema, threeWay_swap, conflicts_swap, List.map_map, List.map_map]
  rfl

end

section

variable {side merged : Manifest}

private theorem mem_disagreeing {side merged : SchemaMap} {pair : String × Option String}
    (member : pair ∈ disagreeing side merged) :
    pair.2 = discriminatorOf side pair.1 ∧
      discriminatorOf side pair.1 ≠ discriminatorOf merged pair.1 := by
  rcases List.mem_append.mp member with declared | undeclared
  · obtain ⟨⟨name, decl⟩, isEntry, listed⟩ := List.mem_filterMap.mp declared
    have isDecl : (relTypeDefs side).get name = some decl := SortedMap.get_eq_some_iff.mpr isEntry
    dsimp only at listed
    split at listed
    · next differ =>
        cases listed
        rw [discriminatorOf, isDecl]
        exact ⟨rfl, differ⟩
    · cases listed
  · obtain ⟨⟨name, decl⟩, isEntry, listed⟩ := List.mem_filterMap.mp undeclared
    dsimp only at listed
    split at listed
    · next absent =>
        cases listed
        have none : discriminatorOf side name = none := by
          rw [discriminatorOf, absent.1]
          rfl
        refine ⟨none.symm, ?_⟩
        rw [none]
        exact absent.2.symm
    · cases listed

theorem mem_staleOf {reports : List (Bytes × GraphViolation)}
    (scanned : staleOf merged side = .ok reports) {report : Bytes × GraphViolation}
    (member : report ∈ reports) :
    ∃ edge, EdgeKey.decodeFwd report.1 = .ok edge ∧
      discriminatorOf side.schema edge.rtype ≠ discriminatorOf merged.schema edge.rtype ∧
      report.2 = .staleDiscriminator report.1 (discriminatorOf merged.schema edge.rtype)
        (discriminatorOf side.schema edge.rtype) := by
  rw [staleOf] at scanned
  split at scanned
  · cases scanned
    cases member
  · obtain ⟨row, -, found, judged, inside⟩ := (mem_gather scanned).mp member
    obtain ⟨edge, decodes, judged⟩ := bind_eq_ok.mp judged
    rw [liftKey_eq_ok] at decodes
    split at judged
    · cases judged
      cases inside
    · next minted isMinted =>
        split at judged
        · cases judged
          cases inside
        · cases judged
          obtain rfl := List.mem_singleton.mp inside
          have listed : (edge.rtype, minted) ∈ disagreeing side.schema merged.schema := by
            rw [SortedMap.get_ofList_eq_some] at isMinted
            · exact isMinted
            · intro first isFirst second isSecond same
              rw [(mem_disagreeing isFirst).1, (mem_disagreeing isSecond).1, same]
          obtain ⟨isSide, differ⟩ := mem_disagreeing listed
          exact ⟨edge, decodes, differ, by rw [← isSide]⟩

end

section

variable {base ours theirs merged : Manifest}

/-- Where the schema merged without conflicts, one side agrees with it on each
discriminator. -/
private theorem discriminator_from_side (oursKeyed : SchemaKeyed ours.schema)
    (theirsKeyed : SchemaKeyed theirs.schema)
    (decided : ∀ key, Decided (base.schema.get key) (ours.schema.get key)
      (theirs.schema.get key) (merged.schema.get key)) (rtype : String) :
    discriminatorOf ours.schema rtype = discriminatorOf merged.schema rtype ∨
      discriminatorOf theirs.schema rtype = discriminatorOf merged.schema rtype := by
  have mergedKeyed : SchemaKeyed merged.schema := by
    intro row member
    have isRow := SortedMap.get_eq_some_iff.mpr member
    rcases (decided row.1).from_side with same | same
    · exact oursKeyed row (SortedMap.get_eq_some_iff.mp (same.symm.trans isRow))
    · exact theirsKeyed row (SortedMap.get_eq_some_iff.mp (same.symm.trans isRow))
  have agrees : ∀ {side : SchemaMap}, SchemaKeyed side →
      merged.schema.get (entryKey kindRtype rtype) = side.get (entryKey kindRtype rtype) →
      discriminatorOf side rtype = discriminatorOf merged.schema rtype := by
    intro side keyed same
    have sameDecl : (relTypeDefs side).get rtype = (relTypeDefs merged.schema).get rtype := by
      apply Option.ext
      intro decl
      rw [relTypeDefs_get keyed, relTypeDefs_get mergedKeyed, same]
    rw [discriminatorOf, discriminatorOf, sameDecl]
  rcases (decided (entryKey kindRtype rtype)).from_side with same | same
  · exact .inl (agrees oursKeyed same)
  · exact .inr (agrees theirsKeyed same)

private theorem staleDiscriminators_swap (oursKeyed : SchemaKeyed ours.schema)
    (theirsKeyed : SchemaKeyed theirs.schema)
    (decided : ∀ key, Decided (base.schema.get key) (ours.schema.get key)
      (theirs.schema.get key) (merged.schema.get key)) {violations : List GraphViolation}
    (stale : staleDiscriminators merged ours theirs = .ok violations) :
    staleDiscriminators merged theirs ours = .ok violations := by
  simp only [staleDiscriminators, bind_eq_ok] at stale ⊢
  obtain ⟨fromOurs, oursScanned, fromTheirs, theirsScanned, isResult⟩ := stale
  refine ⟨fromTheirs, theirsScanned, fromOurs, oursScanned, ?_⟩
  rw [← isResult]
  have functional : ∀ first ∈ fromTheirs ++ fromOurs, ∀ second ∈ fromTheirs ++ fromOurs,
      first.1 = second.1 → first.2 = second.2 := by
    have reported : ∀ report ∈ fromTheirs ++ fromOurs, ∃ edge side,
        EdgeKey.decodeFwd report.1 = .ok edge ∧ (side = ours ∨ side = theirs) ∧
        discriminatorOf side.schema edge.rtype ≠ discriminatorOf merged.schema edge.rtype ∧
        report.2 = .staleDiscriminator report.1 (discriminatorOf merged.schema edge.rtype)
          (discriminatorOf side.schema edge.rtype) := by
      intro report member
      rcases List.mem_append.mp member with inTheirs | inOurs
      · obtain ⟨edge, decodes, differ, isReport⟩ := mem_staleOf theirsScanned inTheirs
        exact ⟨edge, theirs, decodes, .inr rfl, differ, isReport⟩
      · obtain ⟨edge, decodes, differ, isReport⟩ := mem_staleOf oursScanned inOurs
        exact ⟨edge, ours, decodes, .inl rfl, differ, isReport⟩
    intro first isFirst second isSecond same
    obtain ⟨edge, side, decodes, isSide, differ, firstReport⟩ := reported first isFirst
    obtain ⟨other, otherSide, otherDecodes, isOther, otherDiffer, secondReport⟩ :=
      reported second isSecond
    rw [same, otherDecodes] at decodes
    cases decodes
    have sameSide : side = otherSide := by
      have agrees := discriminator_from_side oursKeyed theirsKeyed decided edge.rtype
      rcases isSide with rfl | rfl <;> rcases isOther with rfl | rfl
      · rfl
      · exact absurd agrees (not_or.mpr ⟨differ, otherDiffer⟩)
      · exact absurd agrees (not_or.mpr ⟨otherDiffer, differ⟩)
      · rfl
    rw [firstReport, secondReport, sameSide, same]
  have sameMap : SortedMap.ofList (fromOurs ++ fromTheirs) =
      SortedMap.ofList (fromTheirs ++ fromOurs) := by
    apply SortedMap.ext_get
    intro key
    apply Option.ext
    intro violation
    rw [SortedMap.get_ofList_eq_some functional, SortedMap.get_ofList_eq_some]
    · rw [List.mem_append, List.mem_append, or_comm]
    · intro first isFirst second isSecond same
      exact functional first (List.mem_append.mpr (List.mem_append.mp isFirst).symm) second
        (List.mem_append.mpr (List.mem_append.mp isSecond).symm) same
  rw [sameMap]

/-- Exchanging the sides exchanges them in the outcome. -/
private theorem mergeManifests_mirror (oursKeyed : SchemaKeyed ours.schema)
    (theirsKeyed : SchemaKeyed theirs.schema) {outcome : ManifestMerge}
    (merges : mergeManifests base ours theirs = .ok outcome) :
    mergeManifests base theirs ours = .ok outcome.mirror := by
  rw [mergeManifests] at merges ⊢
  rw [mergeSchema_swap base.schema ours.schema,
    mergeOne_swap nodeRules_symmetric base.nodes ours.nodes,
    mergeOne_swap edgeRules_symmetric base.edgesFwd ours.edgesFwd]
  simp only [bind_eq_ok, ← List.map_append, ne_eq, List.map_eq_nil_iff, List.map_map]
    at merges ⊢
  obtain ⟨edgesRev, reverse, indexes, rebuilt, rest⟩ := merges
  refine ⟨edgesRev, reverse, indexes, rebuilt, ?_⟩
  split at rest
  · next cells =>
      cases rest
      rw [if_pos cells, ManifestMerge.mirror, List.map_map]
      rfl
  · next noCells =>
      rw [if_neg noCells]
      obtain ⟨violations, validated, final⟩ := bind_eq_ok.mp rest
      have schemaClean : conflicts base.schema ours.schema theirs.schema = [] := by
        rw [not_not, List.append_eq_nil_iff, List.append_eq_nil_iff] at noCells
        exact List.map_eq_nil_iff.mp noCells.1.1
      have revalidated : validateMerged base theirs ours
          ⟨(mergeSchema base.schema ours.schema theirs.schema).1,
            (mergeOne nodeRules base.nodes ours.nodes theirs.nodes).1,
            (mergeOne edgeRules base.edgesFwd ours.edgesFwd theirs.edgesFwd).1, edgesRev,
            indexes⟩ = .ok violations := by
        simp only [validateMerged, bind_eq_ok] at validated ⊢
        obtain ⟨dangling, isDangling, nodes, areNodes, edgeTypes, areTypes, stale, isStale, whole⟩ :=
          validated
        refine ⟨dangling, isDangling, nodes, areNodes, edgeTypes, areTypes, stale, ?_, whole⟩
        exact staleDiscriminators_swap oursKeyed theirsKeyed
          (decided_of_no_conflicts schemaClean) isStale
      refine bind_eq_ok.mpr ⟨violations, revalidated, ?_⟩
      split at final
      · next some =>
          cases final
          rw [if_pos some, ManifestMerge.mirror, List.map_map]
          rfl
      · next none =>
          cases final
          rw [if_neg none]
          rfl

end

/-- What a cell becomes: a change of one side is taken, equal changes are taken
once, and a cell that both sides changed differently is left out. -/
structure CellDecided (base ours theirs merged : Option StoredValue) : Prop where
  agreed : ours = theirs → merged = ours
  theirsChange : ours = base → merged = theirs
  oursChange : theirs = base → merged = ours
  disputed : ours ≠ theirs → ours ≠ base → theirs ≠ base → merged = none

/-- The same for the presence of a label, on which two sides cannot disagree
with each other and the base. -/
structure LabelDecided (base ours theirs merged : Prop) : Prop where
  agreed : (ours ↔ theirs) → (merged ↔ ours)
  theirsChange : (ours ↔ base) → (merged ↔ theirs)
  oursChange : (theirs ↔ base) → (merged ↔ ours)

structure PropertiesDecided (base ours theirs merged : Properties) : Prop where
  cells : ∀ name, CellDecided (base.get name) (ours.get name) (theirs.get name) (merged.get name)

structure NodeDecided (base ours theirs merged : NodeRecord) : Prop where
  properties : PropertiesDecided base.properties ours.properties theirs.properties merged.properties
  labels : ∀ label, LabelDecided (label ∈ base.secondaryLabels) (label ∈ ours.secondaryLabels)
    (label ∈ theirs.secondaryLabels) (label ∈ merged.secondaryLabels)

private theorem mergeProperties_decided (base ours theirs : Properties) :
    PropertiesDecided base ours theirs (mergeProperties base ours theirs).1 := by
  constructor
  intro name
  rw [get_mergeProperties, resolveAt, resolveProperty]
  constructor
  · intro agreed
    rw [if_pos agreed]
    rfl
  · intro same
    by_cases agreed : ours.get name = theirs.get name
    · rw [if_pos agreed]
      exact agreed
    · rw [if_neg agreed, if_pos same]
      rfl
  · intro same
    by_cases agreed : ours.get name = theirs.get name
    · rw [if_pos agreed]
      rfl
    · rw [if_neg agreed, if_neg fun oursSame => agreed (oursSame.trans same.symm), if_pos same]
      rfl
  · intro apart oursChanged theirsChanged
    rw [if_neg apart, if_neg oursChanged, if_neg theirsChanged]
    rfl

private theorem mergeLabels_decided (base ours theirs : Finset String) (label : String) :
    LabelDecided (label ∈ base) (label ∈ ours) (label ∈ theirs)
      (label ∈ mergeLabels base ours theirs) := by
  simp only [mergeLabels, Finset.mem_filter, Finset.mem_union]
  constructor <;> tauto

private theorem PropertiesDecided.oursSame (base theirs : Properties) :
    PropertiesDecided base base theirs theirs := by
  constructor
  intro name
  exact ⟨Eq.symm, fun _ => rfl, id, fun _ changed _ => absurd rfl changed⟩

private theorem PropertiesDecided.theirsSame (base ours : Properties) :
    PropertiesDecided base ours base ours := by
  constructor
  intro name
  exact ⟨fun _ => rfl, id, fun _ => rfl, fun _ _ changed => absurd rfl changed⟩

private theorem PropertiesDecided.agreed (base ours : Properties) :
    PropertiesDecided base ours ours ours := by
  constructor
  intro name
  exact ⟨fun _ => rfl, fun _ => rfl, fun _ => rfl, fun apart => absurd rfl apart⟩

section

variable {R : Type}

/-- A relation that says what the cells of a merged record are to be, and the
merge of records that meets it. -/
structure CellRules.Decides (rules : CellRules R) (CellsDecided : R → R → R → R → Prop) : Prop where
  merged : ∀ base ours theirs, CellsDecided base ours theirs (rules.merge base ours theirs).1
  oursSame : ∀ base theirs, CellsDecided base base theirs theirs
  theirsSame : ∀ base ours, CellsDecided base ours base ours
  agreed : ∀ base ours, CellsDecided base ours ours ours

private theorem nodeRules_decides : nodeRules.Decides NodeDecided where
  merged _ _ _ := ⟨mergeProperties_decided _ _ _, mergeLabels_decided _ _ _⟩
  oursSame _ _ := ⟨.oursSame _ _, fun _ => ⟨Iff.symm, fun _ => .rfl, id⟩⟩
  theirsSame _ _ := ⟨.theirsSame _ _, fun _ => ⟨fun _ => .rfl, id, fun _ => .rfl⟩⟩
  agreed _ _ := ⟨.agreed _ _, fun _ => ⟨fun _ => .rfl, fun _ => .rfl, fun _ => .rfl⟩⟩

def EdgeDecided (base ours theirs merged : EdgeRecord) : Prop :=
  PropertiesDecided base.properties ours.properties theirs.properties merged.properties

private theorem edgeRules_decides : edgeRules.Decides EdgeDecided where
  merged _ _ _ := mergeProperties_decided _ _ _
  oursSame _ _ := .oursSame _ _
  theirsSame _ _ := .theirsSame _ _
  agreed _ _ := .agreed _ _

variable [DecidableEq R] {rules : CellRules R} {CellsDecided : R → R → R → R → Prop}
  {base ours theirs : SortedMap Bytes R}

/-- A record that both sides hold is merged cell by cell, whoever modified it. -/
private theorem mergeOne_decides (decides : rules.Decides CellsDecided) {key : Bytes}
    {left right : R} (isOurs : ours.get key = some left) (isTheirs : theirs.get key = some right) :
    ∃ record, (mergeOne rules base ours theirs).1.get key = some record ∧
      CellsDecided ((base.get key).getD rules.empty) left right record := by
  rcases mergeOne_get rules base ours theirs key with decided | ⟨conflicting, merged⟩
  · rw [isOurs, isTheirs] at decided
    cases decided with
    | ours kept taken =>
        rw [← kept]
        exact ⟨left, taken, decides.theirsSame right left⟩
    | theirs kept taken =>
        rw [← kept]
        exact ⟨right, taken, decides.oursSame left right⟩
    | both agreed taken =>
        cases agreed
        exact ⟨left, taken, decides.agreed _ left⟩
  · exact ⟨_, merged left right isOurs isTheirs, decides.merged _ left right⟩

/-- The cells of a map that both sides changed differently: a record that one
side deleted and the other modified is disputed as a whole. -/
inductive Disputed (rules : CellRules R) (cells : R → Properties)
    (base ours theirs : SortedMap Bytes R) : CellConflict → Prop
  | whole {conflict : Conflict Bytes R} : Conflicting base ours theirs conflict →
      conflict.ours = none ∨ conflict.theirs = none →
      Disputed rules cells base ours theirs (wholeConflict rules.map rules.wrap conflict)
  | property {conflict : Conflict Bytes R} {left right : R} {cell : PropertyConflict} :
      Conflicting base ours theirs conflict → conflict.ours = some left →
      conflict.theirs = some right →
      DisputedCell (cells (conflict.base.getD rules.empty)) (cells left) (cells right) cell →
      Disputed rules cells base ours theirs (cellConflict rules.map conflict.key cell)

private theorem mem_mergeOne_cells {cells : R → Properties}
    (reports : ∀ base ours theirs conflict, conflict ∈ (rules.merge base ours theirs).2 ↔
      DisputedCell (cells base) (cells ours) (cells theirs) conflict) {cell : CellConflict} :
    cell ∈ (mergeOne rules base ours theirs).2 ↔
      Disputed rules cells base ours theirs cell := by
  rw [mergeOne, List.flatMap_map, List.mem_flatMap]
  constructor
  · rintro ⟨⟨key, old, left, right⟩, isConflict, inside⟩
    have conflicting := mem_conflicts.mp isConflict
    cases left with
    | none =>
        obtain rfl := List.mem_singleton.mp inside
        exact .whole conflicting (.inl rfl)
    | some left =>
        cases right with
        | none =>
            obtain rfl := List.mem_singleton.mp inside
            exact .whole conflicting (.inr rfl)
        | some right =>
            obtain ⟨property, isProperty, rfl⟩ := List.mem_map.mp inside
            exact .property conflicting rfl rfl ((reports _ _ _ _).mp isProperty)
  · intro disputed
    cases disputed with
    | @whole conflict conflicting deleted =>
        refine ⟨conflict, mem_conflicts.mpr conflicting, ?_⟩
        obtain ⟨key, old, left, right⟩ := conflict
        cases left with
        | none => exact List.mem_singleton_self _
        | some left =>
            cases right with
            | none => exact List.mem_singleton_self _
            | some right => exact absurd deleted (by simp)
    | @property conflict left right cell conflicting isOurs isTheirs cellDisputed =>
        refine ⟨conflict, mem_conflicts.mpr conflicting, ?_⟩
        obtain ⟨key, old, ours, theirs⟩ := conflict
        cases isOurs
        cases isTheirs
        exact List.mem_map_of_mem ((reports _ _ _ _).mpr cellDisputed)

end

def ManifestMerge.merged : ManifestMerge → Manifest
  | .clean merged => merged
  | .conflicts merged _ => merged

def ManifestMerge.cells : ManifestMerge → List CellConflict
  | .clean _ => []
  | .conflicts _ found => found.filterMap fun
      | .cell conflict => some conflict
      | .graph _ => none

/-- A cell of the schema, the nodes or the edges that both sides changed
differently. -/
inductive DisputedIn (base ours theirs : Manifest) (cell : CellConflict) : Prop
  | schema (conflict : Conflict Bytes SchemaEntry)
      (conflicting : Conflicting base.schema ours.schema theirs.schema conflict)
      (isCell : cell = wholeConflict .schema .schema conflict)
  | nodes (disputed : Disputed nodeRules NodeRecord.properties base.nodes ours.nodes theirs.nodes
      cell)
  | edges (disputed : Disputed edgeRules EdgeRecord.properties base.edgesFwd ours.edgesFwd
      theirs.edgesFwd cell)

section

variable {base ours theirs : Manifest} {outcome : ManifestMerge}

theorem mergeManifests_parts (merges : mergeManifests base ours theirs = .ok outcome) :
    outcome.merged.nodes = (mergeOne nodeRules base.nodes ours.nodes theirs.nodes).1 ∧
      outcome.merged.edgesFwd =
        (mergeOne edgeRules base.edgesFwd ours.edgesFwd theirs.edgesFwd).1 ∧
      outcome.cells = (mergeSchema base.schema ours.schema theirs.schema).2 ++
        (mergeOne nodeRules base.nodes ours.nodes theirs.nodes).2 ++
        (mergeOne edgeRules base.edgesFwd ours.edgesFwd theirs.edgesFwd).2 := by
  rw [mergeManifests] at merges
  simp only [bind_eq_ok] at merges
  obtain ⟨edgesRev, reverse, indexes, rebuilt, rest⟩ := merges
  split at rest
  · cases rest
    refine ⟨rfl, rfl, ?_⟩
    rw [ManifestMerge.cells, List.filterMap_map]
    exact List.filterMap_some
  · next noCells =>
      rw [not_not] at noCells
      rw [noCells]
      obtain ⟨violations, validated, final⟩ := bind_eq_ok.mp rest
      split at final
      · cases final
        refine ⟨rfl, rfl, ?_⟩
        rw [ManifestMerge.cells, List.filterMap_map, List.filterMap_eq_nil_iff]
        intro violation _
        rfl
      · cases final
        exact ⟨rfl, rfl, rfl⟩

theorem mem_cells (merges : mergeManifests base ours theirs = .ok outcome) {cell : CellConflict} :
    cell ∈ outcome.cells ↔ DisputedIn base ours theirs cell := by
  obtain ⟨-, -, cells⟩ := mergeManifests_parts merges
  have inNodes := @mem_mergeOne_cells _ _ nodeRules base.nodes ours.nodes theirs.nodes
    NodeRecord.properties (fun _ _ _ _ => mem_propertyConflicts) cell
  have inEdges := @mem_mergeOne_cells _ _ edgeRules base.edgesFwd ours.edgesFwd
    theirs.edgesFwd EdgeRecord.properties (fun _ _ _ _ => mem_propertyConflicts) cell
  rw [cells, List.mem_append, List.mem_append, inNodes, inEdges, mergeSchema, List.mem_map]
  constructor
  · rintro ((⟨conflict, isConflict, rfl⟩ | disputed) | disputed)
    · exact .schema conflict (mem_conflicts.mp isConflict) rfl
    · exact .nodes disputed
    · exact .edges disputed
  · intro disputed
    cases disputed with
    | schema conflict conflicting isCell =>
        exact .inl (.inl ⟨conflict, mem_conflicts.mpr conflicting, isCell.symm⟩)
    | nodes disputed => exact .inl (.inr disputed)
    | edges disputed => exact .inr disputed

/-- Which side is ours does not matter to a merge, and it decides cell by cell:
the cells of a record both sides hold, and the disputes it reports, are exactly
those the changes of the sides call for. -/
theorem mergeManifests_symmetric_exact (base ours theirs : Manifest)
    (oursKeyed : SchemaKeyed ours.schema) (theirsKeyed : SchemaKeyed theirs.schema) :
    (∀ outcome, mergeManifests base ours theirs = .ok outcome ↔
      mergeManifests base theirs ours = .ok outcome.mirror) ∧
    ∀ outcome, mergeManifests base ours theirs = .ok outcome →
      (∀ key left right, ours.nodes.get key = some left → theirs.nodes.get key = some right →
        ∃ record, outcome.merged.nodes.get key = some record ∧
          NodeDecided ((base.nodes.get key).getD nodeRules.empty) left right record) ∧
      (∀ key left right, ours.edgesFwd.get key = some left →
        theirs.edgesFwd.get key = some right →
        ∃ record, outcome.merged.edgesFwd.get key = some record ∧
          EdgeDecided ((base.edgesFwd.get key).getD edgeRules.empty) left right record) ∧
      ∀ cell, cell ∈ outcome.cells ↔ DisputedIn base ours theirs cell := by
  refine ⟨?_, ?_⟩
  · intro outcome
    constructor
    · intro merges
      exact mergeManifests_mirror oursKeyed theirsKeyed merges
    · intro merges
      have back := mergeManifests_mirror theirsKeyed oursKeyed merges
      rwa [outcome.mirror_mirror] at back
  · intro outcome merges
    obtain ⟨nodes, edges, -⟩ := mergeManifests_parts merges
    refine ⟨?_, ?_, ?_⟩
    · intro key left right isOurs isTheirs
      rw [nodes]
      exact mergeOne_decides nodeRules_decides isOurs isTheirs
    · intro key left right isOurs isTheirs
      rw [edges]
      exact mergeOne_decides edgeRules_decides isOurs isTheirs
    · exact fun cell => mem_cells merges

def rivalVersion : Manifest := sampleVersion sampleSchema [(person 1, mailOf "e")] []

def rivalOutcome : ManifestMerge :=
  match mergeManifests sampleBaseVersion sampleTheirsVersion rivalVersion with
  | .ok outcome => outcome
  | .error _ => .clean sampleBaseVersion

theorem mergeManifests_symmetric_exact_rival :
    mergeManifests sampleBaseVersion sampleTheirsVersion rivalVersion = .ok rivalOutcome ∧
      mergeManifests sampleBaseVersion rivalVersion sampleTheirsVersion =
        .ok rivalOutcome.mirror ∧ rivalOutcome.cells.length = 1 := by
  have merges : mergeManifests sampleBaseVersion sampleTheirsVersion rivalVersion =
      .ok rivalOutcome := by decide +kernel
  have swapped := (mergeManifests_symmetric_exact sampleBaseVersion sampleTheirsVersion
    rivalVersion (by decide +kernel) (by decide +kernel)).1 rivalOutcome
  exact ⟨merges, swapped.mp merges, by decide +kernel⟩

end

end Acetone.Graph

import Acetone.Graph.Validity

/-!
# Label keys across a merge

A node's key tuple holds the values of the key properties its label declared
when it was written.  A save does not change a label's key while nodes bear
it; a merge takes the declaration from one side and the nodes from both, and
nothing compares them.  The nodes agree with the merged declaration exactly
when no side redeclared a label of which the other brings a node along.
-/

namespace Acetone.Graph

open Acetone.Lib Acetone.Model

def declaredKey (schema : SchemaMap) (label : String) : Option (List String) :=
  ((labelDefs schema).get label).map LabelDef.key

def keyValues (schema : SchemaMap) (node : NodeKey) :
    Option (List (String × Value)) :=
  (declaredKey schema node.label).map fun declared => declared.zip node.key

/-- The nodes of declared labels have one value for each key property. -/
def Minted (manifest : Manifest) : Prop :=
  ∀ row ∈ manifest.nodes.entries, ∀ node ∈ nodeOf row.1,
    ∀ declared ∈ declaredKey manifest.schema node.label,
      node.key.length = declared.length

/-- Every merged node of a declared label has the arity of the declaration, and
the key values that a side holding it gives it. -/
def KeyedAsDeclared (ours theirs merged : Manifest) : Prop :=
  ∀ row ∈ merged.nodes.entries, ∀ node ∈ nodeOf row.1,
    ∀ declared ∈ declaredKey merged.schema node.label,
      node.key.length = declared.length ∧
      ∀ side ∈ [ours, theirs], side.nodes.get row.1 ≠ none →
        keyValues side.schema node = keyValues merged.schema node

/-- A side brings along a node of a label whose key the other redeclared. -/
def StrandsNode (base kept changed : Manifest) : Prop :=
  ∃ row ∈ kept.nodes.entries, ∃ node ∈ nodeOf row.1,
    (changed.nodes.get row.1 ≠ none ∨ base.nodes.get row.1 = none) ∧
    changed.schema.get (entryKey kindLabel node.label) ≠
      base.schema.get (entryKey kindLabel node.label) ∧
    declaredKey changed.schema node.label ≠ none ∧
    declaredKey changed.schema node.label ≠ declaredKey kept.schema node.label

private theorem declaredKey_congr {schema other : SchemaMap} {label : String}
    (keyed : SchemaKeyed schema) (otherKeyed : SchemaKeyed other)
    (same : schema.get (entryKey kindLabel label) =
      other.get (entryKey kindLabel label)) :
    declaredKey schema label = declaredKey other label := by
  have sameDef : (labelDefs schema).get label = (labelDefs other).get label := by
    apply Option.ext
    intro decl
    rw [labelDefs_get keyed, labelDefs_get otherKeyed, same]
  rw [declaredKey, declaredKey, sameDef]

private theorem zip_left_cancel {left right : List String} {values : List Value}
    (leftLength : values.length = left.length)
    (rightLength : values.length = right.length)
    (same : left.zip values = right.zip values) : left = right := by
  have firsts := congrArg (List.map Prod.fst) same
  rwa [List.map_fst_zip leftLength.ge, List.map_fst_zip rightLength.ge] at firsts

section

variable {base ours theirs merged kept changed : Manifest}
  (keyed : SchemaKeyed merged.schema) (keptKeyed : SchemaKeyed kept.schema)
  (changedKeyed : SchemaKeyed changed.schema)
  (decided : ∀ key, Decided (base.schema.get key) (kept.schema.get key)
    (changed.schema.get key) (merged.schema.get key))
  (keeps : ∀ key, kept.nodes.get key ≠ none → (merged.nodes.get key ≠ none ↔
    changed.nodes.get key ≠ none ∨ base.nodes.get key = none))

include keyed keptKeyed changedKeyed decided keeps

omit keptKeyed in
private theorem not_strandsNode (isSide : kept ∈ [ours, theirs])
    (minted : Minted kept) (asDeclared : KeyedAsDeclared ours theirs merged) :
    ¬ StrandsNode base kept changed := by
  rintro ⟨row, member, node, isNode, survives, redeclared, declares, apart⟩
  have held := SortedMap.get_ne_none_of_mem member
  obtain ⟨record, inMerged⟩ :=
    SortedMap.get_ne_none_iff.mp ((keeps row.1 held).mpr survives)
  have sameRow : merged.schema.get (entryKey kindLabel node.label) =
      changed.schema.get (entryKey kindLabel node.label) := by
    cases decided (entryKey kindLabel node.label) with
    | ours same _ => exact absurd same redeclared
    | theirs _ taken => exact taken
    | both agreed taken => exact taken.trans agreed
  have sameKey := declaredKey_congr keyed changedKeyed sameRow
  obtain ⟨declared, isDeclared⟩ := Option.ne_none_iff_exists'.mp declares
  obtain ⟨arity, values⟩ := asDeclared (row.1, record) inMerged node isNode declared
    (sameKey.trans isDeclared)
  have sameValues := values kept isSide held
  rw [keyValues, keyValues, sameKey, isDeclared, Option.map_some] at sameValues
  cases before : declaredKey kept.schema node.label with
  | none =>
      rw [before] at sameValues
      cases sameValues
  | some old =>
      rw [before, Option.map_some, Option.some.injEq] at sameValues
      have oldArity := minted row member node isNode old before
      rw [zip_left_cancel oldArity arity sameValues] at before
      exact apart (isDeclared.trans before.symm)

private theorem sameKey_of_not_strandsNode (calm : ¬ StrandsNode base kept changed)
    {row : Bytes × NodeRecord} (member : row ∈ kept.nodes.entries)
    (inMerged : merged.nodes.get row.1 ≠ none) {node : NodeKey}
    (isNode : node ∈ nodeOf row.1)
    (declares : declaredKey merged.schema node.label ≠ none) :
    declaredKey kept.schema node.label = declaredKey merged.schema node.label := by
  cases decided (entryKey kindLabel node.label) with
  | ours _ taken => exact (declaredKey_congr keyed keptKeyed taken).symm
  | both _ taken => exact (declaredKey_congr keyed keptKeyed taken).symm
  | theirs same taken =>
      by_contra apart
      have sameKey := declaredKey_congr keyed changedKeyed taken
      have held := SortedMap.get_ne_none_of_mem member
      refine calm ⟨row, member, node, isNode, (keeps row.1 held).mp inMerged, ?_,
        sameKey ▸ declares, fun equal => apart (equal.symm.trans sameKey.symm)⟩
      intro unchanged
      exact apart (declaredKey_congr keptKeyed keyed
        (same.trans (unchanged.symm.trans taken.symm)))

end

/-- A clean merge keys its nodes as declared if and only if neither side
strands a node of the other. -/
theorem merge_keyed_iff (base ours theirs merged : Manifest)
    (validOurs : Valid ours) (validTheirs : Valid theirs) (mintedOurs : Minted ours)
    (mintedTheirs : Minted theirs)
    (outcome : mergeManifests base ours theirs = .ok (.clean merged)) :
    KeyedAsDeclared ours theirs merged ↔
      ¬ StrandsNode base ours theirs ∧ ¬ StrandsNode base theirs ours := by
  have clean := mergeManifests_clean outcome
  have keyed : SchemaKeyed merged.schema := clean.schemaKeyed (by
    rintro side (rfl | rfl)
    · exact validOurs
    · exact validTheirs)
  have oursKeeps := fun key => (clean.nodes key).keeps_ours
  have theirsKeeps := fun key => (clean.nodes key).keeps_theirs
  have swapped := fun key => (clean.schema key).swap
  constructor
  · intro asDeclared
    exact ⟨not_strandsNode keyed validTheirs.schemaKeyed clean.schema oursKeeps
        List.mem_cons_self mintedOurs asDeclared,
      not_strandsNode keyed validOurs.schemaKeyed swapped theirsKeeps
        (List.mem_cons_of_mem _ List.mem_cons_self) mintedTheirs asDeclared⟩
  · rintro ⟨oursCalm, theirsCalm⟩ row member node isNode declared isDeclared
    have declares : declaredKey merged.schema node.label ≠ none := by
      rw [Option.mem_def.mp isDeclared]
      exact nofun
    have inMerged := SortedMap.get_ne_none_of_mem member
    have agrees : ∀ side ∈ [ours, theirs], ∀ record,
        (row.1, record) ∈ side.nodes.entries →
        declaredKey side.schema node.label =
          declaredKey merged.schema node.label := by
      intro side isSide record inside
      rcases List.mem_pair.mp isSide with rfl | rfl
      · exact sameKey_of_not_strandsNode keyed validOurs.schemaKeyed
          validTheirs.schemaKeyed clean.schema oursKeeps oursCalm inside inMerged
          isNode declares
      · exact sameKey_of_not_strandsNode keyed validTheirs.schemaKeyed
          validOurs.schemaKeyed swapped theirsKeeps theirsCalm inside inMerged
          isNode declares
    constructor
    · rcases (clean.nodes row.1).in_side inMerged with inOurs | inTheirs
      · obtain ⟨record, inside⟩ := SortedMap.get_ne_none_iff.mp inOurs
        exact mintedOurs (row.1, record) inside node isNode declared
          ((agrees ours (by simp) record inside).trans isDeclared)
      · obtain ⟨record, inside⟩ := SortedMap.get_ne_none_iff.mp inTheirs
        exact mintedTheirs (row.1, record) inside node isNode declared
          ((agrees theirs (by simp) record inside).trans isDeclared)
    · intro side isSide held
      obtain ⟨record, inside⟩ := SortedMap.get_ne_none_iff.mp held
      rw [keyValues, keyValues, agrees side isSide record inside]

/-- A label whose key is two properties in place of one. -/
def widenedLabel : LabelDef :=
  ⟨["id", "realm"], false, .empty, [], [], by decide, by decide, by decide⟩

private theorem narrowKey_filled : ["id"] ≠ [] := by decide

private theorem narrowKey_distinct : ["id"].Nodup := by decide

private theorem narrowKey_apart : ∀ name ∈ ([] : List String), name ∉ ["id"] := by
  decide

def narrowLabel : LabelDef :=
  ⟨["id"], false, .empty, [], [], narrowKey_filled, narrowKey_distinct,
    narrowKey_apart⟩

def emptyLabelVersion : Manifest :=
  sampleVersion [.label "Person" narrowLabel] [] []

def widenedVersion : Manifest :=
  sampleVersion [.label "Person" widenedLabel] [] []

def populatedVersion : Manifest :=
  sampleVersion [.label "Person" narrowLabel] [(person 1, ⟨∅, .empty⟩)] []

def strandedVersion : Manifest :=
  sampleVersion [.label "Person" widenedLabel] [(person 1, ⟨∅, .empty⟩)] []

theorem merge_keyed_iff_sample :
    KeyedAsDeclared sampleOursVersion sampleTheirsVersion sampleMerged ∧
      ¬ StrandsNode sampleBaseVersion sampleOursVersion sampleTheirsVersion ∧
        ¬ StrandsNode sampleBaseVersion sampleTheirsVersion sampleOursVersion := by
  have keyed : KeyedAsDeclared sampleOursVersion sampleTheirsVersion sampleMerged := by
    unfold KeyedAsDeclared
    decide +kernel
  exact ⟨keyed, (merge_keyed_iff sampleBaseVersion sampleOursVersion sampleTheirsVersion
    sampleMerged (by constructor <;> decide +kernel)
    (by constructor <;> decide +kernel) (by unfold Minted; decide +kernel)
    (by unfold Minted; decide +kernel) (by decide +kernel)).mp keyed⟩

/-- One side redeclares the empty label, the other adds a node of it: the merge
is clean, and the node lacks a value for the second key property. -/
theorem merge_strands_node :
    (∀ version ∈ [emptyLabelVersion, widenedVersion, populatedVersion],
        Valid version ∧ Minted version) ∧
      mergeManifests emptyLabelVersion widenedVersion populatedVersion =
        .ok (.clean strandedVersion) ∧
      ¬ KeyedAsDeclared widenedVersion populatedVersion strandedVersion := by
  refine ⟨?_, by decide +kernel, by unfold KeyedAsDeclared; decide +kernel⟩
  simp only [List.forall_mem_cons]
  refine ⟨⟨?_, ?_⟩, ⟨?_, ?_⟩, ⟨?_, ?_⟩, nofun⟩
  all_goals first | (unfold Minted; decide +kernel) | (constructor <;> decide +kernel)

end Acetone.Graph

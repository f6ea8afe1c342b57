import Mathlib.Data.Finset.Basic
import Acetone.Model.Records

/-!
# Cell-wise merge of records

A node or edge modified on both branches is merged property by property;
secondary labels are merged as sets.  Canonical value equality is equality of
stored values.
-/

namespace Acetone.Graph

open Acetone.Lib Acetone.Model

/-- A property that diverged; it is left out of the merged record. -/
structure PropertyConflict where
  property : String
  base : Option StoredValue
  ours : Option StoredValue
  theirs : Option StoredValue
deriving DecidableEq

/-- What the merged record holds under a property, or that it is disputed. -/
def resolveProperty (base ours theirs : Option StoredValue) :
    Option (Option StoredValue) :=
  if ours = theirs then some ours
  else if ours = base then some theirs
  else if theirs = base then some ours
  else none

section

variable (base ours theirs : Properties)

def propertyNames : List String :=
  (KeySet.ofKeys (base.keys ++ ours.keys ++ theirs.keys)).keys

def resolveAt (name : String) : Option (Option StoredValue) :=
  resolveProperty (base.get name) (ours.get name) (theirs.get name)

/-- Per-property three-way merge, with the conflicts in name order. -/
def mergeProperties : Properties × List PropertyConflict :=
  (.ofList ((propertyNames base ours theirs).filterMap fun name =>
      (resolveAt base ours theirs name).join.map fun value => (name, value)),
    (propertyNames base ours theirs).filterMap fun name =>
      match resolveAt base ours theirs name with
      | some _ => none
      | none => some ⟨name, base.get name, ours.get name, theirs.get name⟩)

end

/-- A label added or removed on either side relative to the base applies. -/
def mergeLabels (base ours theirs : Finset String) : Finset String :=
  (base ∪ ours ∪ theirs).filter fun label =>
    ¬ ((label ∈ base ∧ label ∉ ours) ∨ (label ∈ base ∧ label ∉ theirs))

def mergeNodeRecord (base ours theirs : NodeRecord) :
    NodeRecord × List PropertyConflict :=
  let labels := mergeLabels base.secondaryLabels ours.secondaryLabels
    theirs.secondaryLabels
  let (properties, conflicts) :=
    mergeProperties base.properties ours.properties theirs.properties
  (⟨labels, properties⟩, conflicts)

def mergeEdgeRecord (base ours theirs : EdgeRecord) :
    EdgeRecord × List PropertyConflict :=
  let (properties, conflicts) :=
    mergeProperties base.properties ours.properties theirs.properties
  (⟨properties⟩, conflicts)

section

variable {base ours theirs : Properties}

private theorem mem_propertyNames {name : String} :
    name ∈ propertyNames base ours theirs ↔
      base.get name ≠ none ∨ ours.get name ≠ none ∨ theirs.get name ≠ none := by
  rw [propertyNames, SortedMap.mem_keys, KeySet.get_ne_none, KeySet.get_ofKeys,
    List.mem_append, List.mem_append, SortedMap.mem_keys, SortedMap.mem_keys,
    SortedMap.mem_keys, or_assoc]

theorem get_mergeProperties (name : String) :
    (mergeProperties base ours theirs).1.get name =
      (resolveAt base ours theirs name).join := by
  have pairs : ∀ {pair : String × StoredValue},
      pair ∈ ((propertyNames base ours theirs).filterMap fun name =>
        (resolveAt base ours theirs name).join.map fun value => (name, value)) ↔
        pair.1 ∈ propertyNames base ours theirs ∧
          (resolveAt base ours theirs pair.1).join = some pair.2 := by
    intro pair
    simp only [List.mem_filterMap, Option.map_eq_some_iff]
    constructor
    · rintro ⟨name, member, value, resolved, rfl⟩
      exact ⟨member, resolved⟩
    · rintro ⟨member, resolved⟩
      exact ⟨_, member, _, resolved, rfl⟩
  apply Option.ext
  intro value
  rw [mergeProperties, SortedMap.get_ofList_eq_some, pairs]
  · refine and_iff_right_of_imp fun resolved => ?_
    by_contra absent
    rw [mem_propertyNames, not_or, not_or, not_not, not_not, not_not] at absent
    rw [resolveAt, absent.1, absent.2.1, absent.2.2] at resolved
    cases resolved
  · intro first isFirst second isSecond same
    have resolved := (pairs.mp isFirst).2
    rw [same, (pairs.mp isSecond).2] at resolved
    exact (Option.some.inj resolved).symm

/-- Both sides changed a property, to different values. -/
def DisputedCell (base ours theirs : Properties) (conflict : PropertyConflict) : Prop :=
  conflict.base = base.get conflict.property ∧ conflict.ours = ours.get conflict.property ∧
    conflict.theirs = theirs.get conflict.property ∧ conflict.ours ≠ conflict.theirs ∧
    conflict.ours ≠ conflict.base ∧ conflict.theirs ≠ conflict.base

private theorem resolveProperty_eq_none {base ours theirs : Option StoredValue} :
    resolveProperty base ours theirs = none ↔ ours ≠ theirs ∧ ours ≠ base ∧ theirs ≠ base := by
  rw [resolveProperty]
  split
  · next same => simp [same]
  · next apart =>
      split
      · next same => simp [same]
      · next oursChanged =>
          split
          · next same => simp [same]
          · next theirsChanged => simp [apart, oursChanged, theirsChanged]

private theorem mem_propertyNames_of_unresolved {name : String}
    (unresolved : resolveAt base ours theirs name = none) :
    name ∈ propertyNames base ours theirs := by
  by_contra absent
  rw [mem_propertyNames, not_or, not_or, not_not, not_not, not_not] at absent
  rw [resolveAt, absent.1, absent.2.1, absent.2.2] at unresolved
  cases unresolved

theorem mem_propertyConflicts {conflict : PropertyConflict} :
    conflict ∈ (mergeProperties base ours theirs).2 ↔ DisputedCell base ours theirs conflict := by
  rw [mergeProperties, List.mem_filterMap]
  constructor
  · rintro ⟨name, -, reported⟩
    cases resolved : resolveAt base ours theirs name with
    | some value =>
        rw [resolved] at reported
        cases reported
    | none =>
        rw [resolved] at reported
        cases reported
        exact ⟨rfl, rfl, rfl, resolveProperty_eq_none.mp resolved⟩
  · rintro ⟨isBase, isOurs, isTheirs, apart⟩
    have unresolved : resolveAt base ours theirs conflict.property = none := by
      rw [isBase, isOurs, isTheirs] at apart
      exact resolveProperty_eq_none.mpr apart
    refine ⟨conflict.property, mem_propertyNames_of_unresolved unresolved, ?_⟩
    rw [unresolved, ← isBase, ← isOurs, ← isTheirs]

theorem resolved_of_no_conflict
    (clean : (mergeProperties base ours theirs).2 = []) (name : String) :
    ∃ value, resolveAt base ours theirs name = some value := by
  cases resolved : resolveAt base ours theirs name with
  | some value => exact ⟨value, rfl⟩
  | none =>
      rw [mergeProperties, List.filterMap_eq_nil_iff] at clean
      have none := clean name (mem_propertyNames_of_unresolved resolved)
      rw [resolved] at none
      cases none

/-- If nothing came of a conflict-free merge, neither side had changed. -/
theorem mergeProperties_eq_base
    (clean : (mergeProperties base ours theirs).2 = [])
    (same : (mergeProperties base ours theirs).1 = base) :
    ours = base ∧ theirs = base := by
  have each : ∀ name, ours.get name = base.get name ∧
      theirs.get name = base.get name := by
    intro name
    obtain ⟨value, resolved⟩ := resolved_of_no_conflict clean name
    have kept := @get_mergeProperties base ours theirs name
    rw [same, resolved, Option.join_some] at kept
    rw [resolveAt, resolveProperty] at resolved
    split at resolved
    · next agree =>
        cases resolved
        exact ⟨kept.symm, agree.symm.trans kept.symm⟩
    · split at resolved
      · next oursSame =>
          cases resolved
          exact ⟨oursSame, kept.symm⟩
      · split at resolved
        · next theirsSame =>
            cases resolved
            exact ⟨kept.symm, theirsSame⟩
        · cases resolved
  exact ⟨SortedMap.ext_get fun name => (each name).1,
    SortedMap.ext_get fun name => (each name).2⟩

theorem mergeLabels_eq_base {base ours theirs : Finset String}
    (same : mergeLabels base ours theirs = base) : ours = base ∧ theirs = base := by
  have each : ∀ label, (label ∈ ours ↔ label ∈ base) ∧
      (label ∈ theirs ↔ label ∈ base) := by
    intro label
    have kept : label ∈ mergeLabels base ours theirs ↔ label ∈ base := by
      rw [same]
    simp only [mergeLabels, Finset.mem_filter, Finset.mem_union] at kept
    tauto
  exact ⟨Finset.ext fun label => (each label).1, Finset.ext fun label => (each label).2⟩

theorem mergeNodeRecord_eq_base {base ours theirs : NodeRecord}
    (clean : (mergeNodeRecord base ours theirs).2 = [])
    (same : (mergeNodeRecord base ours theirs).1 = base) :
    ours = base ∧ theirs = base := by
  cases base
  cases ours
  cases theirs
  simp only [mergeNodeRecord, NodeRecord.mk.injEq] at same clean ⊢
  have labels := mergeLabels_eq_base same.1
  have properties := mergeProperties_eq_base clean same.2
  exact ⟨⟨labels.1, properties.1⟩, ⟨labels.2, properties.2⟩⟩

theorem mergeEdgeRecord_eq_base {base ours theirs : EdgeRecord}
    (clean : (mergeEdgeRecord base ours theirs).2 = [])
    (same : (mergeEdgeRecord base ours theirs).1 = base) :
    ours = base ∧ theirs = base := by
  cases base
  cases ours
  cases theirs
  simp only [mergeEdgeRecord, EdgeRecord.mk.injEq] at same clean ⊢
  exact mergeProperties_eq_base clean same

end

end Acetone.Graph

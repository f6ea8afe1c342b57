import Acetone.Graph.Differences
import Acetone.Interchange.Export

/-!
# The change report

The difference of two versions with, for every entry, the properties that differ
and the secondary labels where they do.  Which entries there are is decided by the
stored records, which properties they list by comparing values.
-/

namespace Acetone.Interchange

open Acetone.Lib Acetone.Model Acetone.Graph

def floatText (bits : UInt64) : String :=
  if isNan bits then "NaN" else if bits = infinityBits then "inf" else "-inf"

mutual

/-- Byte strings and temporal values are tagged; a float that is not finite is
printed as a string. -/
def valueToJson : Value → Json
  | .null => .null
  | .bool value => .bool value
  | .int value => .int value.toInt
  | .float bits => if isFinite bits then .float bits else .string (floatText bits)
  | .string value => .string value
  | .bytes value => .object [("$type", .string "bytes"), ("hex", .string (hex value))]
  | .date date => .object [("$type", .string "date"), ("days", .int date.days.toInt)]
  | .time time => .object [("$type", .string "time"), ("nanos", .int time.nanos.toNat)]
  | .dateTime stamp => .object [("$type", .string "datetime"),
      ("epoch_nanos", .int stamp.epochNanos.toInt),
      ("offset_minutes", .int stamp.offsetMinutes.toInt)]
  | .duration duration => .object [("$type", .string "duration"),
      ("days", .int duration.days.toInt), ("months", .int duration.months.toInt),
      ("nanos", .int duration.nanos.toInt)]
  | .list items => .array (valuesToJson items)

def valuesToJson : List Value → List Json
  | [] => []
  | item :: items => valueToJson item :: valuesToJson items

end

/-- What a property or the labels were and what they are; a side that is absent
is left out. -/
structure Cell (J : Type) where
  before : Option J
  after : Option J

def valueAt (properties : Option Properties) (name : String) : Option StoredValue :=
  properties.bind (·.get name)

/-- The comparison of what the two sides have of a property. -/
def sameStored : Option StoredValue → Option StoredValue → Bool
  | none, none => true
  | some left, some right => sameValue left.1 right.1
  | _, _ => false

section

variable {J : Type} (render : Value → J)

def rendered (properties : Option Properties) (name : String) : Option J :=
  (valueAt properties name).map fun value => render value.1

def propertyDeltas (before after : Option Properties) : SortedMap String (Cell J) :=
  let names := KeySet.ofKeys (before.elim [] SortedMap.keys ++ after.elim [] SortedMap.keys)
  .ofList (names.keys.filterMap fun name =>
    if sameStored (valueAt before name) (valueAt after name) then none
    else some (name, ⟨rendered render before name, rendered render after name⟩))

def labelsDelta (before after : Option (Finset String)) : Option (Cell (Finset String)) :=
  if before.getD ∅ = after.getD ∅ then none else some ⟨before, after⟩

structure NodeEntry (J : Type) where
  kind : ChangeKind
  label : String
  key : List J
  properties : SortedMap String (Cell J)
  labels : Option (Cell (Finset String))

structure EdgeEntry (J : Type) where
  kind : ChangeKind
  relType : String
  src : String × List J
  dst : String × List J
  disc : J
  properties : SortedMap String (Cell J)

/-- The entries, and how many there are of each kind. -/
structure ChangeReport (J : Type) where
  nodes : List (NodeEntry J)
  edges : List (EdgeEntry J)
  nodeSummary : ChangeKind → Nat
  edgeSummary : ChangeKind → Nat

def nodeEntry (change : NodeChange) : NodeEntry J where
  kind := change.kind
  label := change.key.label
  key := change.key.key.map render
  properties := propertyDeltas render (change.before.map NodeRecord.properties)
    (change.after.map NodeRecord.properties)
  labels := labelsDelta (change.before.map NodeRecord.secondaryLabels)
    (change.after.map NodeRecord.secondaryLabels)

def edgeEntry (change : EdgeChange) : EdgeEntry J where
  kind := change.kind
  relType := change.key.rtype
  src := (change.key.src.label, change.key.src.key.map render)
  dst := (change.key.dst.label, change.key.dst.key.map render)
  disc := render change.key.disc
  properties := propertyDeltas render (change.before.map EdgeRecord.properties)
    (change.after.map EdgeRecord.properties)

def changeReport (diff : GraphDiff) : ChangeReport J where
  nodes := diff.nodes.map (nodeEntry render)
  edges := diff.edges.map (edgeEntry render)
  nodeSummary kind := diff.nodes.countP (·.kind = kind)
  edgeSummary kind := diff.edges.countP (·.kind = kind)

end

section

variable {J K R : Type} (render : Value → J)

/-- A property with its listed cell in the place of what it was. -/
def patched (deltas : SortedMap String (Cell J)) (before : Option Properties) (name : String) :
    Option J :=
  (deltas.get name).elim (rendered render before name) Cell.after

/-- The properties listed are those that differ, and the listed cells turn the
earlier record into the later one. -/
structure PropertiesSay (deltas : SortedMap String (Cell J)) (before after : Option Properties) :
    Prop where
  listed : ∀ name, deltas.get name ≠ none ↔ valueAt before name ≠ valueAt after name
  patch : ∀ name, patched render deltas before name = rendered render after name

structure NodeSays (entry : NodeEntry J) (change : NodeChange) : Prop where
  kind : entry.kind = change.kind
  element : entry.label = change.key.label ∧ entry.key = change.key.key.map render
  properties : PropertiesSay render entry.properties (change.before.map NodeRecord.properties)
    (change.after.map NodeRecord.properties)
  labels : (entry.labels.elim (change.before.map NodeRecord.secondaryLabels) Cell.after).getD ∅ =
    (change.after.map NodeRecord.secondaryLabels).getD ∅
  shown : entry.kind = .modified → entry.properties.entries ≠ [] ∨ entry.labels ≠ none

structure EdgeSays (entry : EdgeEntry J) (change : EdgeChange) : Prop where
  kind : entry.kind = change.kind
  element : entry.relType = change.key.rtype ∧
    entry.src = (change.key.src.label, change.key.src.key.map render) ∧
    entry.dst = (change.key.dst.label, change.key.dst.key.map render) ∧
    entry.disc = render change.key.disc
  properties : PropertiesSay render entry.properties (change.before.map EdgeRecord.properties)
    (change.after.map EdgeRecord.properties)
  shown : entry.kind = .modified → entry.properties.entries ≠ []

/-- Every element whose record differs is listed once, with the right kind. -/
structure ListsOnce (encode : K → Except GraphKeyError Bytes) (before after : SortedMap Bytes R)
    (changes : List (ElementChange K R)) : Prop where
  once : (changes.map ElementChange.key).Nodup
  differ : ∀ bytes, (∃ change ∈ changes, encode change.key = .ok bytes) ↔
    before.get bytes ≠ after.get bytes
  records : ∀ change ∈ changes, ∃ bytes, encode change.key = .ok bytes ∧
    before.get bytes = change.before ∧ after.get bytes = change.after
  kind : ∀ change ∈ changes, (change.kind = .added ↔ change.before = none) ∧
    (change.kind = .removed ↔ change.after = none)

structure FaithfulReport (before after : Manifest) (diff : GraphDiff) (report : ChangeReport J) :
    Prop where
  nodesOnce : ListsOnce NodeKey.encode before.nodes after.nodes diff.nodes
  edgesOnce : ListsOnce EdgeKey.encodeFwd before.edgesFwd after.edgesFwd diff.edges
  nodes : List.Forall₂ (NodeSays render) report.nodes diff.nodes
  edges : List.Forall₂ (EdgeSays render) report.edges diff.edges

/-- Where two maps differ on a key, their values of each property that both
records have are discerned. -/
def Discerning (properties : R → Properties) (before after : SortedMap Bytes R) : Prop :=
  ∀ bytes past now name old new, before.get bytes = some past → after.get bytes = some now →
    past ≠ now → (properties past).get name = some old → (properties now).get name = some new →
      Discerned old.1 new.1

private theorem sameStored_iff {old new : Option StoredValue} :
    (sameStored old new = true ↔ old = new) ↔
      ∀ past now, old = some past → new = some now → Discerned past.1 now.1 := by
  cases old with
  | none => cases new <;> simp [sameStored]
  | some past =>
      cases new with
      | none => simp [sameStored]
      | some now =>
          have sameValues : past = now ↔ past.1 = now.1 := Subtype.ext_iff
          rw [sameStored, Option.some.injEq, sameValues, ← discerned_iff]
          exact ⟨fun apart _ _ isPast isNow => Option.some.inj isPast ▸ Option.some.inj isNow ▸ apart,
            fun apart => apart past now rfl rfl⟩

private theorem valueAt_eq_none {properties : Option Properties} {name : String}
    (absent : name ∉ properties.elim [] SortedMap.keys) : valueAt properties name = none := by
  cases properties with
  | none => rfl
  | some properties => exact not_not.mp (SortedMap.mem_keys.not.mp absent)

private theorem get_propertyDeltas (before after : Option Properties) (name : String) :
    (propertyDeltas render before after).get name =
      if sameStored (valueAt before name) (valueAt after name) then none
      else some ⟨rendered render before name, rendered render after name⟩ := by
  have member : ∀ {entry : String × Cell J},
      entry ∈ ((KeySet.ofKeys (before.elim [] SortedMap.keys ++
          after.elim [] SortedMap.keys)).keys.filterMap fun name =>
        if sameStored (valueAt before name) (valueAt after name) then none
        else some (name, ⟨rendered render before name, rendered render after name⟩)) ↔
      sameStored (valueAt before entry.1) (valueAt after entry.1) = false ∧
        entry.2 = ⟨rendered render before entry.1, rendered render after entry.1⟩ := by
    intro entry
    simp only [List.mem_filterMap]
    constructor
    · rintro ⟨name, -, made⟩
      split at made
      · cases made
      · rename_i differ
        cases made
        exact ⟨Bool.not_eq_true _ ▸ differ, rfl⟩
    · rintro ⟨differ, isCell⟩
      refine ⟨entry.1, ?_, by rw [differ, ← isCell]; rfl⟩
      rw [SortedMap.mem_keys, Option.ne_none_iff_exists']
      refine ⟨(), KeySet.get_ofKeys.mpr (List.mem_append.mpr ?_)⟩
      by_contra absent
      rw [not_or] at absent
      rw [valueAt_eq_none absent.1, valueAt_eq_none absent.2] at differ
      cases differ
  refine Option.ext fun cell => ?_
  rw [propertyDeltas, SortedMap.get_ofList_eq_some, member]
  · cases sameStored (valueAt before name) (valueAt after name) <;> simp [eq_comm]
  · intro first isFirst second isSecond same
    rw [(member.mp isFirst).2, (member.mp isSecond).2, same]

/-- The deltas are right when the values of each property are discerned. -/
private theorem propertiesSay_iff {before after : Option Properties} :
    PropertiesSay render (propertyDeltas render before after) before after ↔
      ∀ name past now, valueAt before name = some past → valueAt after name = some now →
        Discerned past.1 now.1 := by
  simp only [← sameStored_iff]
  constructor
  · intro correct name
    have listed := correct.listed name
    rw [get_propertyDeltas] at listed
    split at listed <;> simp_all
  · intro apart
    constructor
    · intro name
      rw [get_propertyDeltas, ne_eq, ne_eq, ← apart name]
      cases sameStored (valueAt before name) (valueAt after name) <;> simp
    · intro name
      rw [patched, get_propertyDeltas]
      split
      · rename_i same
        rw [Option.elim_none, rendered, (apart name).mp same, rendered]
      · rfl

end

section

variable {K R : Type} [DecidableEq R] {decode : Bytes → Except GraphKeyError K}
  {encode : K → Except GraphKeyError Bytes} {before after : SortedMap Bytes R}
  {found : List (ElementChange K R)}

private theorem listsOnce (strict : ∀ {bytes key}, decode bytes = .ok key → encode key = .ok bytes)
    (done : elementChanges decode before after = .ok found) :
    ListsOnce encode before after found where
  once := nodup_elementChanges strict done
  differ _ := exists_mem_elementChanges strict done
  records change member := by
    obtain ⟨bytes, decoded, old, new, -⟩ := (mem_elementChanges done).mp member
    exact ⟨bytes, strict decoded, old, new⟩
  kind change member := by
    obtain ⟨-, -, -, -, differ, isKind⟩ := (mem_elementChanges done).mp member
    rw [isKind]
    cases old : change.before <;> cases new : change.after <;> simp_all [classify]

/-- What holds of the properties of every change. -/
private theorem forall_changes_iff {properties : R → Properties}
    (strict : ∀ {bytes key}, decode bytes = .ok key → encode key = .ok bytes)
    (done : elementChanges decode before after = .ok found) :
    (∀ change ∈ found, ∀ name old new,
      valueAt (change.before.map properties) name = some old →
      valueAt (change.after.map properties) name = some new → Discerned old.1 new.1) ↔
      Discerning properties before after := by
  constructor
  · intro each bytes past now name old new isPast isNow differ isOld isNew
    obtain ⟨change, member, encoded⟩ := (exists_mem_elementChanges strict done).mpr
      (show before.get bytes ≠ after.get bytes by
        rw [isPast, isNow]
        exact fun same => differ (Option.some.inj same))
    obtain ⟨other, decoded, isBefore, isAfter, -⟩ := (mem_elementChanges done).mp member
    cases (strict decoded).symm.trans encoded
    refine each change member name old new ?_ ?_
    · rw [← isBefore, isPast]
      exact isOld
    · rw [← isAfter, isNow]
      exact isNew
  · intro apart change member name old new isOld isNew
    obtain ⟨bytes, -, isBefore, isAfter, differ, -⟩ := (mem_elementChanges done).mp member
    obtain ⟨past, isPast, found⟩ := Option.bind_eq_some_iff.mp isOld
    obtain ⟨oldRecord, wasBefore, rfl⟩ := Option.map_eq_some_iff.mp isPast
    obtain ⟨now, isNow, alsoFound⟩ := Option.bind_eq_some_iff.mp isNew
    obtain ⟨newRecord, isLater, rfl⟩ := Option.map_eq_some_iff.mp isNow
    rw [wasBefore, isLater] at differ
    exact apart bytes oldRecord newRecord name old new (isBefore.trans wasBefore)
      (isAfter.trans isLater) (fun same => differ (congrArg some same)) found alsoFound

end

section

variable {J : Type} {render : Value → J}

private theorem PropertiesSay.shown {deltas : SortedMap String (Cell J)} {past now : Properties}
    (correct : PropertiesSay render deltas (some past) (some now)) (differ : past ≠ now) :
    deltas.entries ≠ [] := by
  intro empty
  refine differ (SortedMap.ext_get fun name => ?_)
  by_contra apart
  obtain ⟨cell, member⟩ := SortedMap.get_ne_none_iff.mp ((correct.listed name).mpr apart)
  rw [empty] at member
  cases member

private theorem nodeSays_iff {change : NodeChange} (differ : change.before ≠ change.after)
    (isKind : change.kind = classify change.before.isSome change.after.isSome) :
    NodeSays render (nodeEntry render change) change ↔ ∀ name old new,
      valueAt (change.before.map NodeRecord.properties) name = some old →
      valueAt (change.after.map NodeRecord.properties) name = some new →
        Discerned old.1 new.1 := by
  rw [← propertiesSay_iff render]
  refine ⟨NodeSays.properties, fun correct => ⟨rfl, ⟨rfl, rfl⟩, correct, ?_, fun modified => ?_⟩⟩
  · rw [nodeEntry, labelsDelta]
    split
    · rename_i same
      exact same
    · rfl
  · obtain ⟨kind, key, before, after⟩ := change
    cases before with
    | none => cases after <;> simp_all [nodeEntry, classify]
    | some past =>
        cases after with
        | none => simp_all [nodeEntry, classify]
        | some now =>
            by_cases labels : past.secondaryLabels = now.secondaryLabels
            · refine .inl (correct.shown fun same => differ ?_)
              obtain ⟨_, _⟩ := past
              obtain ⟨_, _⟩ := now
              cases labels
              cases same
              rfl
            · exact .inr (by simp [nodeEntry, labelsDelta, labels])

private theorem edgeSays_iff {change : EdgeChange} (differ : change.before ≠ change.after)
    (isKind : change.kind = classify change.before.isSome change.after.isSome) :
    EdgeSays render (edgeEntry render change) change ↔ ∀ name old new,
      valueAt (change.before.map EdgeRecord.properties) name = some old →
      valueAt (change.after.map EdgeRecord.properties) name = some new →
        Discerned old.1 new.1 := by
  rw [← propertiesSay_iff render]
  refine ⟨EdgeSays.properties, fun correct => ⟨rfl, ⟨rfl, rfl, rfl, rfl⟩, correct, fun modified => ?_⟩⟩
  obtain ⟨kind, key, before, after⟩ := change
  cases before with
  | none => cases after <;> simp_all [edgeEntry, classify]
  | some past =>
      cases after with
      | none => simp_all [edgeEntry, classify]
      | some now =>
          refine correct.shown fun same => differ ?_
          obtain ⟨_⟩ := past
          obtain ⟨_⟩ := now
          cases same
          rfl

end

private theorem of_get_put_empty {K V : Type} [LinearOrder K] {key query : K} {value found : V}
    (isFound : (SortedMap.empty.put key value).get query = some found) : found = value := by
  rw [SortedMap.get_put] at isFound
  split at isFound
  · exact (Option.some.inj isFound).symm
  · cases isFound

end Acetone.Interchange

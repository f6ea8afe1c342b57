import Acetone.Graph.Rewrites

/-!
# Differences between two versions

The difference of two versions names every node and every edge whose stored
record is not the same in both, in the order of the keys.  Records are compared
as they are stored; two stored values that differ can still be equal as the code
compares values, and a stored NaN is not equal to itself.
-/

namespace Acetone.Graph

open Acetone.Lib Acetone.Model

inductive ChangeKind where
  | added
  | removed
  | modified
deriving DecidableEq

/-- No change is absent on both sides. -/
def classify : Bool → Bool → ChangeKind
  | false, true => .added
  | true, false => .removed
  | _, _ => .modified

structure ElementChange (K R : Type) where
  kind : ChangeKind
  key : K
  before : Option R
  after : Option R

abbrev NodeChange := ElementChange NodeKey NodeRecord
abbrev EdgeChange := ElementChange EdgeKey EdgeRecord

structure GraphDiff where
  nodes : List NodeChange
  edges : List EdgeChange

section

variable {K R : Type} [DecidableEq R]

def elementChanges (decode : Bytes → Except GraphKeyError K) (before after : SortedMap Bytes R) :
    Except GraphError (List (ElementChange K R)) :=
  (changes before.entries after.entries).mapM fun change => do
    let key ← liftKey (decode change.key)
    .ok ⟨classify change.before.isSome change.after.isSome, key, change.before, change.after⟩

end

def Manifest.diff (before after : Manifest) : Except GraphError GraphDiff := do
  let nodes ← elementChanges NodeKey.decode before.nodes after.nodes
  let edges ← elementChanges EdgeKey.decodeFwd before.edgesFwd after.edgesFwd
  .ok ⟨nodes, edges⟩

section

variable {K R : Type} {decode : Bytes → Except GraphKeyError K}
  {encode : K → Except GraphKeyError Bytes} {before after : SortedMap Bytes R}
  {found : List (ElementChange K R)}

private theorem change_eq_ok {change : Change Bytes R} {element : ElementChange K R} :
    (do let key ← liftKey (decode change.key)
        .ok ⟨classify change.before.isSome change.after.isSome, key, change.before,
          change.after⟩ : Except GraphError (ElementChange K R)) = .ok element ↔
      decode change.key = .ok element.key ∧ change.before = element.before ∧
        change.after = element.after ∧
        element.kind = classify element.before.isSome element.after.isSome := by
  simp only [bind_eq_ok, liftKey_eq_ok, Except.ok.injEq]
  constructor
  · rintro ⟨key, decoded, rfl⟩
    exact ⟨decoded, rfl, rfl, rfl⟩
  · rintro ⟨decoded, isBefore, isAfter, isKind⟩
    refine ⟨element.key, decoded, ?_⟩
    rw [isBefore, isAfter, ← isKind]

variable [DecidableEq R]

theorem mem_elementChanges (done : elementChanges decode before after = .ok found)
    {element : ElementChange K R} :
    element ∈ found ↔ ∃ bytes, decode bytes = .ok element.key ∧
      before.get bytes = element.before ∧ after.get bytes = element.after ∧
      element.before ≠ element.after ∧
      element.kind = classify element.before.isSome element.after.isSome := by
  have differs := @mem_changes _ _ _ _ _ _ before.ascending after.ascending
  constructor
  · intro member
    obtain ⟨change, isChange, made⟩ := exists_of_mem_mapM done member
    obtain ⟨decoded, isBefore, isAfter, isKind⟩ := change_eq_ok.mp made
    obtain ⟨old, new, differ⟩ := differs.mp isChange
    rw [isBefore, isAfter] at differ
    exact ⟨_, decoded, old.trans isBefore, new.trans isAfter, differ, isKind⟩
  · rintro ⟨bytes, decoded, old, new, differ, isKind⟩
    have isChange : (⟨bytes, element.before, element.after⟩ : Change Bytes R) ∈
        changes before.entries after.entries := differs.mpr ⟨old, new, differ⟩
    obtain ⟨other, member, made⟩ := mem_of_mapM_eq_ok done isChange
    have here := (@change_eq_ok _ _ decode ⟨bytes, element.before, element.after⟩ element).mpr
      ⟨decoded, rfl, rfl, isKind⟩
    rw [Except.ok.inj (made.symm.trans here)] at member
    exact member

theorem nodup_elementChanges
    (strict : ∀ {bytes key}, decode bytes = .ok key → encode key = .ok bytes)
    (done : elementChanges decode before after = .ok found) :
    (found.map ElementChange.key).Nodup := by
  have keys : (found.map ElementChange.key).map encode =
      (changes before.entries after.entries).map fun change => .ok change.key := by
    have each := mapM_eq_ok.mp done
    clear done
    generalize changes before.entries after.entries = listed at each
    induction each with
    | nil => rfl
    | cons made _ ih =>
        obtain ⟨decoded, -⟩ := change_eq_ok.mp made
        rw [List.map_cons, List.map_cons, List.map_cons, ih, strict decoded]
  have distinct : ((changes before.entries after.entries).map fun change =>
      (Except.ok change.key : Except GraphKeyError Bytes)).Nodup := by
    rw [List.Nodup, List.pairwise_map]
    exact (changes_ascending before.ascending after.ascending).imp fun less same =>
      less.ne (Except.ok.inj same)
  rw [← keys] at distinct
  exact distinct.of_map

theorem exists_mem_elementChanges
    (strict : ∀ {bytes key}, decode bytes = .ok key → encode key = .ok bytes)
    (done : elementChanges decode before after = .ok found) {bytes : Bytes} :
    (∃ element ∈ found, encode element.key = .ok bytes) ↔
      before.get bytes ≠ after.get bytes := by
  constructor
  · rintro ⟨element, member, encoded⟩
    obtain ⟨stored, decoded, old, new, differ, -⟩ := (mem_elementChanges done).mp member
    cases (strict decoded).symm.trans encoded
    rwa [old, new]
  · intro differ
    have isChange : (⟨bytes, before.get bytes, after.get bytes⟩ : Change Bytes R) ∈
        changes before.entries after.entries :=
      (mem_changes before.ascending after.ascending).mpr ⟨rfl, rfl, differ⟩
    obtain ⟨element, member, made⟩ := mem_of_mapM_eq_ok done isChange
    exact ⟨element, member, strict (change_eq_ok.mp made).1⟩

end

/-- Two stored values on which the comparison of values says what their bytes
say. -/
structure Discerned (before after : Value) : Prop where
  same : before = after → hasNan before = false
  differ : before ≠ after → canonical before = canonical after → hasNan before = true

/-- Equal bytes and no NaN, or different bytes that are not merely those of zeros
of different signs. -/
theorem discerned_iff {before after : Value} :
    Discerned before after ↔ (sameValue before after = true ↔ before = after) := by
  rw [sameValue, decide_eq_true_iff, Bool.not_eq_true]
  constructor
  · rintro ⟨same, differ⟩
    constructor
    · rintro ⟨canon, free⟩
      by_contra different
      exact Bool.false_ne_true (free.symm.trans (differ different canon))
    · rintro rfl
      exact ⟨rfl, same rfl⟩
  · intro agrees
    refine ⟨fun isSame => (agrees.mpr isSame).2, fun different canon => ?_⟩
    by_contra free
    exact different (agrees.mp ⟨canon, Bool.not_eq_true _ ▸ free⟩)

def sensor : NodeKey := ⟨"Sensor", [.int 1], by decide⟩

def readingRecord (value : StoredValue) : NodeRecord := ⟨∅, SortedMap.empty.put "reading" value⟩

def withReading (value : StoredValue) : Manifest :=
  { blank.manifest with
    nodes := SortedMap.empty.put (sensor.encode.toOption.getD []) (readingRecord value) }

theorem diff_withReading {before after : StoredValue} (differ : before.1 ≠ after.1) :
    (withReading before).diff (withReading after) =
      .ok ⟨[⟨.modified, sensor, some (readingRecord before), some (readingRecord after)⟩], []⟩ := by
  have apart : readingRecord before ≠ readingRecord after := by
    intro same
    injection same with _ properties
    injection congrArg SortedMap.entries properties with entry
    injection entry with _ sameValue
    exact differ (congrArg Subtype.val sameValue)
  have listed : changes (withReading before).nodes.entries (withReading after).nodes.entries =
      [⟨sensor.encode.toOption.getD [], some (readingRecord before),
        some (readingRecord after)⟩] := by
    have none : changes ([] : List (Bytes × NodeRecord)) [] = [] := by rw [changes]
    change changes [(_, readingRecord before)] [(_, readingRecord after)] = _
    rw [changes, if_neg (lt_irrefl _), if_neg (lt_irrefl _), if_neg apart, none]
  have unchanged : changes (withReading before).edgesFwd.entries
      (withReading after).edgesFwd.entries = [] := changes_self blank.manifest.edgesFwd.ascending
  rw [Manifest.diff, elementChanges, elementChanges, listed, unchanged]
  rfl

end Acetone.Graph

import Acetone.Graph.IndexDrift
import Acetone.Graph.Rewrites

/-!
# Index completeness

A node is listed in an index when every indexed property has a value that is
neither null nor holds a NaN.  An index key holds the values one list deeper
than a record does, and both codecs stop at the same depth; so a value that is
as deep as a record allows has no entry.
-/

namespace Acetone.Graph

open Acetone.Lib Acetone.Model

mutual

/-- How many lists are around the deepest part of a value. -/
def nesting : Value → Nat
  | .list items => nestingOf items
  | _ => 0

def nestingOf : List Value → Nat
  | [] => 0
  | item :: items => max (nesting item + 1) (nestingOf items)

end

mutual

theorem nesting_canonical (value : Value) : nesting (canonical value) = nesting value := by
  cases value with
  | list items => exact nestingOf_canonicalAll items
  | _ => rfl

theorem nestingOf_canonicalAll (values : List Value) :
    nestingOf (canonicalAll values) = nestingOf values := by
  cases values with
  | nil => rfl
  | cons value values =>
      rw [canonicalAll, nestingOf, nestingOf, nesting_canonical value,
        nestingOf_canonicalAll values]

end

private theorem isNan_normaliseZero_eq (bits : UInt64) :
    isNan (normaliseZero bits) = isNan bits := by
  rw [normaliseZero]
  split
  · next zero =>
      rcases zero with rfl | rfl <;> decide
  · rfl

mutual

theorem hasNan_canonical (value : Value) : hasNan (canonical value) = hasNan value := by
  cases value with
  | float bits => exact isNan_normaliseZero_eq bits
  | list items => exact anyNan_canonicalAll items
  | _ => rfl

theorem anyNan_canonicalAll (values : List Value) :
    anyNan (canonicalAll values) = anyNan values := by
  cases values with
  | nil => rfl
  | cons value values =>
      rw [canonicalAll, anyNan, anyNan, hasNan_canonical value, anyNan_canonicalAll values]

end

mutual

/-- A key holds values without NaN, down to the greatest depth. -/
theorem shallow_of_writeElement {value : Value} {depth : Nat} {bytes : Bytes}
    (written : writeElement value depth = .ok bytes) :
    depth + nesting value ≤ maxDepth ∧ hasNan value = false := by
  have within := writeElement_depth written
  cases value with
  | float bits =>
      simp only [writeElement, if_neg (Nat.not_lt_of_le within), guard_eq_ok] at written
      exact ⟨within, Bool.eq_false_iff.mpr written.1⟩
  | list items =>
      obtain ⟨body, inner, -⟩ := writeElement_list written
      obtain ⟨low, free⟩ := shallow_of_writeElements inner
      exact ⟨low within, free⟩
  | _ => exact ⟨within, rfl⟩

theorem shallow_of_writeElements {values : List Value} {depth : Nat} {bytes : Bytes}
    (written : writeElements values (depth + 1) = .ok bytes) :
    (depth ≤ maxDepth → depth + nestingOf values ≤ maxDepth) ∧ anyNan values = false := by
  cases values with
  | nil => exact ⟨fun within => within, rfl⟩
  | cons value values =>
      obtain ⟨head, rest, first, others, -⟩ := writeElements_cons written
      obtain ⟨low, free⟩ := shallow_of_writeElement first
      obtain ⟨lower, freed⟩ := shallow_of_writeElements others
      rw [nestingOf, anyNan, free, freed]
      exact ⟨fun within => by have := lower within; omega, rfl⟩

end

mutual

/-- What a record holds, a key holds wherever there is depth left for it. -/
theorem writeElement_of_stored {value stored : Value} {depth under : Nat}
    (stores : storeValue value depth = .ok stored) (free : hasNan value = false)
    (room : under + nesting value ≤ maxDepth) : ∃ bytes, writeElement value under = .ok bytes := by
  have shallow : ¬ under > maxDepth := by omega
  have within : ¬ depth > maxDepth := by
    intro tooDeep
    rw [storeValue.eq_def, if_pos tooDeep] at stores
    cases stores
  cases value with
  | bool flag => cases flag <;> simp only [writeElement, if_neg shallow, Except.ok.injEq, exists_eq']
  | float bits =>
      have number : ¬ isNan bits = true := Bool.eq_false_iff.mp free
      simp only [writeElement, if_neg shallow, if_neg number, Except.ok.injEq, exists_eq']
  | time time =>
      simp only [storeValue, if_neg within, guard_eq_ok] at stores
      simp only [writeElement, if_neg shallow, if_neg stores.1, Except.ok.injEq, exists_eq']
  | dateTime stamp =>
      simp only [storeValue, if_neg within, guard_eq_ok] at stores
      simp only [writeElement, if_neg shallow, if_neg stores.1, Except.ok.injEq, exists_eq']
  | list items =>
      simp only [storeValue, if_neg within, bind_eq_ok] at stores
      obtain ⟨kept, storesItems, -⟩ := stores
      obtain ⟨body, written⟩ := writeElements_of_stored storesItems free room
      simp only [writeElement, if_neg shallow, written, ok_bind, Except.ok.injEq, exists_eq']
  | _ => simp only [writeElement, if_neg shallow, Except.ok.injEq, exists_eq']

theorem writeElements_of_stored {values stored : List Value} {depth under : Nat}
    (stores : storeValues values depth = .ok stored) (free : anyNan values = false)
    (room : under + nestingOf values ≤ maxDepth) :
    ∃ bytes, writeElements values (under + 1) = .ok bytes := by
  cases values with
  | nil => exact ⟨_, rfl⟩
  | cons value values =>
      rw [storeValues] at stores
      simp only [bind_eq_ok] at stores
      obtain ⟨first, storesFirst, others, storesOthers, -⟩ := stores
      rw [anyNan, Bool.or_eq_false_iff] at free
      rw [nestingOf] at room
      obtain ⟨head, written⟩ := writeElement_of_stored storesFirst free.1
        (show under + 1 + nesting value ≤ maxDepth by omega)
      obtain ⟨rest, others⟩ := writeElements_of_stored storesOthers free.2
        (show under + nestingOf values ≤ maxDepth by omega)
      exact ⟨_, by rw [writeElements, written, ok_bind, others, ok_bind]⟩

end

private theorem writeElements_total {values : List Value} {depth : Nat} :
    (∃ bytes, writeElements values depth = .ok bytes) ↔
      ∀ value ∈ values, ∃ bytes, writeElement value depth = .ok bytes := by
  induction values with
  | nil => exact ⟨fun _ => List.forall_mem_nil _, fun _ => ⟨_, rfl⟩⟩
  | cons value values ih =>
      rw [List.forall_mem_cons, ← ih]
      constructor
      · rintro ⟨bytes, written⟩
        obtain ⟨head, rest, first, others, -⟩ := writeElements_cons written
        exact ⟨⟨head, first⟩, rest, others⟩
      · rintro ⟨⟨head, first⟩, rest, others⟩
        exact ⟨_, by rw [writeElements, first, ok_bind, others, ok_bind]⟩

section

variable (node : NodeKey) (record : NodeRecord) (keys : LabelKeys) (properties : List String)

/-- Every indexed property has a value, not null and without NaN. -/
def Indexable : Prop :=
  ∀ property ∈ properties, ∃ value, indexedValue node record keys property = some value ∧
    value ≠ .null ∧ hasNan value = false

/-- No indexed value is inside of as many lists as a record allows. -/
def Shallow : Prop :=
  ∀ property ∈ properties, ∀ value, indexedValue node record keys property = some value →
    nesting value < maxDepth

def SameIndexed (other : NodeKey) (otherRecord : NodeRecord) : Prop :=
  ∀ property ∈ properties, ∃ value otherValue,
    indexedValue node record keys property = some value ∧
    indexedValue other otherRecord keys property = some otherValue ∧
    sameValue value otherValue = true

end

/-- The index lists the node exactly as it should, and under one probe with every
node of the same values. -/
structure ListedAsDeclared (node : NodeKey) (record : NodeRecord) (decl : IndexDef)
    (keys : LabelKeys) : Prop where
  listed : (indexEntryKey node (some record) decl keys).isSome = true ↔
    Indexable node record keys decl.properties
  together : Indexable node record keys decl.properties →
    ∀ other otherRecord otherBytes, other.encode = .ok otherBytes →
      bears other otherRecord decl.label = true →
      SameIndexed node record keys decl.properties other otherRecord →
      ∃ values leading entry otherEntry,
        indexedValues node record keys decl.properties = some values ∧
        indexValuePrefix decl.label decl.properties values = .ok leading ∧
        indexEntryKey node (some record) decl keys = some entry ∧
        indexEntryKey other (some otherRecord) decl keys = some otherEntry ∧
        leading <+: entry ∧ leading <+: otherEntry

section

variable {node : NodeKey} {record : NodeRecord} {keys : LabelKeys}

/-- An indexed value is one of the node's key or one of its record. -/
private theorem indexedValue_source {property : String} {value : Value}
    (found : indexedValue node record keys property = some value) :
    value ∈ node.key ∨ ∃ stored : StoredValue, stored.val = value := by
  rw [indexedValue] at found
  split at found
  · exact .inl (List.mem_of_getElem? found)
  · obtain ⟨stored, -, same⟩ := Option.map_eq_some_iff.mp found
    exact .inr ⟨stored, same⟩

private theorem key_written {bytes : Bytes} (encoded : node.encode = .ok bytes) {value : Value}
    (isKey : value ∈ node.key) : ∃ bytes, writeElement value 1 = .ok bytes := by
  obtain ⟨head, tail, first, -, -⟩ := writeElements_cons (liftEncode_eq_ok.mp encoded)
  obtain ⟨items, written, -⟩ := writeElement_list first
  exact writeElements_total.mp ⟨items, written⟩ value (List.mem_cons_of_mem _ isKey)

/-- An index holds a value one list deeper than the record does. -/
private theorem value_written {bytes : Bytes} (encoded : node.encode = .ok bytes)
    {property : String} {value : Value}
    (found : indexedValue node record keys property = some value) :
    (∃ bytes, writeElement value 1 = .ok bytes) ↔
      hasNan value = false ∧ nesting value < maxDepth := by
  constructor
  · rintro ⟨bytes, written⟩
    obtain ⟨low, free⟩ := shallow_of_writeElement written
    exact ⟨free, by omega⟩
  · rintro ⟨free, low⟩
    rcases indexedValue_source found with isKey | ⟨stored, rfl⟩
    · exact key_written encoded isKey
    · exact writeElement_of_stored stored.property free (by omega)

private theorem indexedValues_eq_some {properties : List String} {values : List Value} :
    indexedValues node record keys properties = some values ↔
      List.Forall₂ (fun property value =>
        indexedValue node record keys property = some value ∧ value ≠ .null)
        properties values := by
  induction properties generalizing values with
  | nil =>
      rw [indexedValues, List.forall₂_nil_left_iff, Option.some.injEq]
      exact eq_comm
  | cons property properties ih =>
      rw [indexedValues, Option.bind_eq_bind, Option.bind_eq_some_iff, List.forall₂_cons_left_iff]
      constructor
      · rintro ⟨value, found, rest⟩
        split at rest
        · cases rest
        · next some =>
            obtain ⟨others, more, made⟩ := Option.bind_eq_some_iff.mp rest
            cases made
            exact ⟨value, others, ⟨found, some⟩, ih.mp more, rfl⟩
      · rintro ⟨value, others, ⟨found, some⟩, more, rfl⟩
        refine ⟨value, found, ?_⟩
        rw [if_neg some, ih.mpr more]
        rfl

private theorem entry_of_values {bytes : Bytes} (encoded : node.encode = .ok bytes)
    {decl : IndexDef} (bearing : bears node record decl.label = true) {values : List Value}
    (found : indexedValues node record keys decl.properties = some values)
    (written : ∀ value ∈ values, ∃ bytes, writeElement value 1 = .ok bytes) :
    ∃ (indexed : IndexEntry) (entry : Bytes), indexed.label = decl.label ∧
      indexed.properties = decl.properties ∧ indexed.values = values ∧
      indexed.encode = .ok entry ∧ indexEntryKey node (some record) decl keys = some entry := by
  have aligned : decl.properties.length = values.length :=
    (indexedValues_eq_some.mp found).length_eq
  have checked : checkIndexEntry decl.label decl.properties values = .ok () := by
    rw [checkIndexEntry, if_neg decl.named, if_neg decl.filled, if_neg decl.allNamed,
      if_neg (not_not.mpr aligned)]
  have names : ∃ bytes, writeElements (decl.properties.map .string) 1 = .ok bytes := by
    apply writeElements_total.mpr
    intro name isName
    obtain ⟨property, -, rfl⟩ := List.mem_map.mp isName
    exact ⟨_, rfl⟩
  obtain ⟨held, holds⟩ := writeElements_total.mpr written
  obtain ⟨named, names⟩ := names
  obtain ⟨head, tail, first, -, -⟩ := writeElements_cons (liftEncode_eq_ok.mp encoded)
  obtain ⟨entry, encodes⟩ : ∃ entry, encodeKey [.string decl.label,
      .list (decl.properties.map .string), .list values, node.toValue] = .ok entry := by
    have property : writeElement (.list (decl.properties.map .string)) 0 =
        .ok (tagList :: named ++ [tagListEnd]) := by
      rw [writeElement, if_neg (by decide), names, ok_bind]
    have value : writeElement (.list values) 0 = .ok (tagList :: held ++ [tagListEnd]) := by
      rw [writeElement, if_neg (by decide), holds, ok_bind]
    apply writeElements_total.mpr
    simp only [List.forall_mem_cons]
    exact ⟨⟨_, rfl⟩, ⟨_, property⟩, ⟨_, value⟩, ⟨_, first⟩, List.forall_mem_nil _⟩
  let indexed : IndexEntry := ⟨decl.label, decl.properties, values, node, checked⟩
  have isEntry : indexed.encode = .ok entry := liftEncode_eq_ok.mpr encodes
  refine ⟨indexed, entry, rfl, rfl, rfl, isEntry, ?_⟩
  have made : IndexEntry.new decl.label decl.properties values node = .ok indexed :=
    IndexEntry.new_eq_ok.mpr ⟨rfl, rfl, rfl, rfl⟩
  rw [indexEntryKey, Option.bind_eq_bind, Option.bind_some, if_neg (not_not.mpr bearing),
    Option.bind_eq_bind, found, Option.bind_some, made]
  simp only [isEntry]

private theorem values_of_entry {decl : IndexDef} {entry : Bytes}
    (isEntry : indexEntryKey node (some record) decl keys = some entry) :
    ∃ values, indexedValues node record keys decl.properties = some values ∧
      ∀ value ∈ values, ∃ bytes, writeElement value 1 = .ok bytes := by
  rw [indexEntryKey, Option.bind_eq_bind, Option.bind_some] at isEntry
  split at isEntry
  · cases isEntry
  · rw [Option.bind_eq_bind, Option.bind_eq_some_iff] at isEntry
    obtain ⟨values, found, rest⟩ := isEntry
    refine ⟨values, found, ?_⟩
    split at rest
    · cases rest
    · next indexed made =>
        obtain ⟨-, -, same, -⟩ := IndexEntry.new_eq_ok.mp made
        split at rest
        · next bytes encoded =>
            have tuple := writeElements_total.mp ⟨bytes, liftEncode_eq_ok.mp encoded⟩
            obtain ⟨written, writes⟩ := tuple (.list indexed.values) (by simp)
            obtain ⟨items, holds, -⟩ := writeElement_list writes
            rw [same] at holds
            exact writeElements_total.mp ⟨items, holds⟩
        · cases rest

private theorem values_of_indexable {properties : List String}
    (indexable : Indexable node record keys properties) :
    ∃ values, indexedValues node record keys properties = some values := by
  induction properties with
  | nil => exact ⟨[], rfl⟩
  | cons property properties ih =>
      obtain ⟨⟨value, found, some, -⟩, others⟩ := List.forall_mem_cons.mp indexable
      obtain ⟨values, rest⟩ := ih others
      exact ⟨value :: values, indexedValues_eq_some.mpr
        (.cons ⟨found, some⟩ (indexedValues_eq_some.mp rest))⟩

private theorem forall_indexedValues {properties : List String} {values : List Value}
    (found : indexedValues node record keys properties = some values) (holds : Value → Prop) :
    (∀ value ∈ values, holds value) ↔ ∀ property ∈ properties, ∃ value,
      indexedValue node record keys property = some value ∧ value ≠ .null ∧ holds value := by
  have each := indexedValues_eq_some.mp found
  clear found
  induction each with
  | nil => exact ⟨fun _ => List.forall_mem_nil _, fun _ => List.forall_mem_nil _⟩
  | @cons property value properties values first _ ih =>
      rw [List.forall_mem_cons, List.forall_mem_cons]
      refine and_congr ?_ ih
      constructor
      · intro here
        exact ⟨value, first.1, first.2, here⟩
      · rintro ⟨again, found, -, here⟩
        cases first.1.symm.trans found
        exact here

/-- A node is listed when it should be and its values are shallow. -/
private theorem isSome_indexEntryKey {bytes : Bytes} (encoded : node.encode = .ok bytes)
    {decl : IndexDef} (bearing : bears node record decl.label = true) :
    (indexEntryKey node (some record) decl keys).isSome = true ↔
      Indexable node record keys decl.properties ∧ Shallow node record keys decl.properties := by
  rw [Option.isSome_iff_exists]
  constructor
  · rintro ⟨entry, isEntry⟩
    obtain ⟨values, found, written⟩ := values_of_entry isEntry
    have each := (forall_indexedValues found _).mp written
    constructor
    · intro property isIndexed
      obtain ⟨value, here, some, writes⟩ := each property isIndexed
      exact ⟨value, here, some, ((value_written encoded here).mp writes).1⟩
    · intro property isIndexed other isOther
      obtain ⟨value, here, -, writes⟩ := each property isIndexed
      cases here.symm.trans isOther
      exact ((value_written encoded here).mp writes).2
  · rintro ⟨indexable, shallow⟩
    obtain ⟨values, found⟩ := values_of_indexable indexable
    have written := (forall_indexedValues found
      (fun value => ∃ bytes, writeElement value 1 = .ok bytes)).mpr (by
        intro property isIndexed
        obtain ⟨value, here, some, free⟩ := indexable property isIndexed
        exact ⟨value, here, some,
          (value_written encoded here).mpr ⟨free, shallow property isIndexed value here⟩⟩)
    obtain ⟨indexed, entry, -, -, -, -, isEntry⟩ := entry_of_values encoded bearing found written
    exact ⟨entry, isEntry⟩

private theorem sameValue_iff {left right : Value} :
    sameValue left right = true ↔ canonical left = canonical right ∧ hasNan left = false := by
  rw [sameValue, decide_eq_true_iff, Bool.not_eq_true]

section

variable {other : NodeKey} {otherRecord : NodeRecord} {properties : List String}

private theorem SameIndexed.indexable
    (same : SameIndexed node record keys properties other otherRecord)
    (indexable : Indexable node record keys properties) :
    Indexable other otherRecord keys properties := by
  intro property isIndexed
  obtain ⟨value, otherValue, here, there, equal⟩ := same property isIndexed
  obtain ⟨again, found, some, free⟩ := indexable property isIndexed
  cases here.symm.trans found
  obtain ⟨canon, -⟩ := sameValue_iff.mp equal
  refine ⟨otherValue, there, ?_, ?_⟩
  · intro none
    rw [none] at canon
    exact some (canonical_eq_null.mp canon)
  · rw [← hasNan_canonical, ← canon, hasNan_canonical, free]

private theorem SameIndexed.shallow
    (same : SameIndexed node record keys properties other otherRecord)
    (shallow : Shallow node record keys properties) :
    Shallow other otherRecord keys properties := by
  intro property isIndexed value there
  obtain ⟨kept, again, here, found, equal⟩ := same property isIndexed
  cases there.symm.trans found
  rw [← nesting_canonical, ← (sameValue_iff.mp equal).1, nesting_canonical]
  exact shallow property isIndexed kept here

private theorem SameIndexed.values
    (same : SameIndexed node record keys properties other otherRecord)
    {values others : List Value} (found : indexedValues node record keys properties = some values)
    (alsoFound : indexedValues other otherRecord keys properties = some others) :
    canonicalAll others = canonicalAll values := by
  have each := indexedValues_eq_some.mp found
  have also := indexedValues_eq_some.mp alsoFound
  clear found alsoFound
  induction each generalizing others with
  | nil =>
      cases also
      rfl
  | @cons property value properties values first _ ih =>
      cases also with
      | @cons _ otherValue _ others there rest =>
          obtain ⟨here, more⟩ := List.forall_mem_cons.mp same
          obtain ⟨left, right, isLeft, isRight, equal⟩ := here
          cases first.1.symm.trans isLeft
          cases there.1.symm.trans isRight
          rw [canonicalAll, canonicalAll, ih more rest, (sameValue_iff.mp equal).1]

end

private theorem probe_of_entry {indexed : IndexEntry} {entry : Bytes}
    (isEntry : indexed.encode = .ok entry) : ∃ leading,
      indexValuePrefix indexed.label indexed.properties indexed.values = .ok leading := by
  have each := writeElements_total.mp ⟨entry, liftEncode_eq_ok.mp isEntry⟩
  obtain ⟨leading, writes⟩ := writeElements_total.mpr (fun value isIn =>
    each value (@List.mem_append_left _ value [.string indexed.label,
      .list (indexed.properties.map .string), .list indexed.values] [indexed.node.toValue] isIn))
  exact ⟨leading, liftEncode_eq_ok.mpr writes⟩

end

/-- A stored node that bears an index's label is listed as it should be, unless one of
its values is as deep as a record allows and nothing else keeps it from the index. -/
theorem listedAsDeclared_iff_shallow (keys : LabelKeys) (decl : IndexDef) (node : NodeKey)
    (record : NodeRecord) {bytes : Bytes} (encoded : node.encode = .ok bytes)
    (bearing : bears node record decl.label = true) :
    ListedAsDeclared node record decl keys ↔
      (Indexable node record keys decl.properties → Shallow node record keys decl.properties) := by
  constructor
  · intro whole indexable
    exact ((isSome_indexEntryKey encoded bearing).mp (whole.listed.mpr indexable)).2
  · intro shallow
    refine ⟨(isSome_indexEntryKey encoded bearing).trans
      ⟨And.left, fun indexable => ⟨indexable, shallow indexable⟩⟩, ?_⟩
    intro indexable other otherRecord otherBytes otherEncoded otherBearing same
    obtain ⟨entry, isEntry⟩ := Option.isSome_iff_exists.mp
      ((isSome_indexEntryKey encoded bearing).mpr ⟨indexable, shallow indexable⟩)
    obtain ⟨otherEntry, isOther⟩ := Option.isSome_iff_exists.mp
      ((isSome_indexEntryKey otherEncoded otherBearing).mpr
        ⟨same.indexable indexable, same.shallow (shallow indexable)⟩)
    obtain ⟨values, found, written⟩ := values_of_entry isEntry
    obtain ⟨others, alsoFound, alsoWritten⟩ := values_of_entry isOther
    obtain ⟨indexed, made, label, properties, holds, encodes, isMade⟩ :=
      entry_of_values encoded bearing found written
    obtain ⟨alsoIndexed, alsoMade, alsoLabel, alsoProperties, alsoHolds, alsoEncodes, alsoIsMade⟩ :=
      entry_of_values otherEncoded otherBearing alsoFound alsoWritten
    obtain ⟨leading, isLeading⟩ := probe_of_entry encodes
    rw [label, properties, holds] at isLeading
    refine ⟨values, leading, made, alsoMade, found, isLeading, isMade, alsoIsMade, ?_, ?_⟩
    · exact (indexValuePrefix_isPrefix isLeading encodes).mpr
        ⟨label, properties, congrArg canonicalAll holds⟩
    · exact (indexValuePrefix_isPrefix isLeading alsoEncodes).mpr
        ⟨alsoLabel, alsoProperties, (congrArg canonicalAll alsoHolds).trans
          (same.values found alsoFound)⟩

theorem listedAsDeclared_iff_shallow_sample :
    ∃ (node : NodeKey) (record : NodeRecord) (decl : IndexDef),
      Indexable node record .empty decl.properties ∧
        ListedAsDeclared node record decl .empty := by
  let node : NodeKey := ⟨"Host", [.int 1], by decide⟩
  let record : NodeRecord := ⟨∅, SortedMap.empty.put "os" ⟨.string "linux", by decide⟩⟩
  let decl : IndexDef := ⟨"Host", ["os"], by decide, by decide, by decide⟩
  have listed : ListedAsDeclared node record decl .empty :=
    (@listedAsDeclared_iff_shallow .empty decl node record _ rfl (by decide)).mpr (by
      intro _ property isIndexed value found
      cases List.mem_singleton.mp isIndexed
      cases found
      decide)
  refine ⟨node, record, decl, ?_, listed⟩
  intro property isIndexed
  cases List.mem_singleton.mp isIndexed
  exact ⟨_, rfl, by decide, by decide⟩

/-- A number inside of so many lists. -/
def nested : Nat → Value
  | 0 => .int 1
  | levels + 1 => .list [nested levels]

theorem storeValue_nested {depth levels : Nat} (room : depth + levels ≤ maxDepth) :
    storeValue (nested levels) depth = .ok (nested levels) := by
  have within : ¬ depth > maxDepth := by omega
  induction levels generalizing depth with
  | zero => simp only [nested, storeValue, if_neg within]
  | succ levels ih =>
      have inner := ih (show depth + 1 + levels ≤ maxDepth by omega) (by omega)
      simp only [nested, storeValue, if_neg within, storeValues, inner, ok_bind]

theorem nesting_nested (levels : Nat) : nesting (nested levels) = levels := by
  induction levels with
  | zero => rfl
  | succ levels ih =>
      rw [nested, nesting, nestingOf, nestingOf, ih]
      exact Nat.max_zero _

theorem hasNan_nested (levels : Nat) : hasNan (nested levels) = false := by
  induction levels with
  | zero => rfl
  | succ levels ih =>
      rw [nested, hasNan, anyNan, anyNan, ih]
      rfl

/-- A record holds a number inside of `maxDepth` lists, and an index of that property
has no entry for the node. -/
theorem deep_value_not_listed :
    ∃ (node : NodeKey) (bytes : Bytes) (record : NodeRecord) (decl : IndexDef),
      node.encode = .ok bytes ∧ bears node record decl.label = true ∧
        Indexable node record .empty decl.properties ∧
        indexEntryKey node (some record) decl .empty = none ∧
        ¬ ListedAsDeclared node record decl .empty := by
  let node : NodeKey := ⟨"Host", [.int 1], by decide⟩
  let record : NodeRecord :=
    ⟨∅, SortedMap.empty.put "tags" ⟨nested maxDepth, storeValue_nested (by decide)⟩⟩
  let decl : IndexDef := ⟨"Host", ["tags"], by decide, by decide, by decide⟩
  have found : indexedValue node record .empty "tags" = some (nested maxDepth) := rfl
  have indexable : Indexable node record .empty decl.properties := by
    intro property isIndexed
    cases List.mem_singleton.mp isIndexed
    refine ⟨_, found, ?_, hasNan_nested maxDepth⟩
    intro same
    cases same
  have notShallow : ¬ Shallow node record .empty decl.properties := by
    intro shallow
    have low := shallow "tags" (List.mem_singleton_self _) _ found
    rw [nesting_nested] at low
    exact Nat.lt_irrefl _ low
  have unlisted : ¬ (indexEntryKey node (some record) decl .empty).isSome = true :=
    fun listed => notShallow ((isSome_indexEntryKey rfl (by decide)).mp listed).2
  exact ⟨node, _, record, decl, rfl, by decide, indexable,
    Option.not_isSome_iff_eq_none.mp unlisted, fun whole => unlisted (whole.listed.mpr indexable)⟩

end Acetone.Graph

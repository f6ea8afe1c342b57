import Acetone.Interchange.Import

/-!
# What survives an export and an import

Values, rows and records that are read back as they were.  A value survives if
JSON has a form of its own for it and no coercion changes it; byte strings and
temporal values are printed as strings, and a list within a list is refused.
-/

namespace Acetone.Interchange

open Acetone.Lib Acetone.Model Acetone.Graph

/-- The scalars that JSON has a form of its own for. -/
def PlainScalar : Value → Prop
  | .null | .bool _ | .int _ | .float _ | .string _ => True
  | _ => False

def Plain : Value → Prop
  | .list items => ∀ item ∈ items, PlainScalar item
  | value => PlainScalar value

def ExactlyTyped (declared : Option PropertyType) (value : Value) : Prop :=
  ∀ type, declared = some type → value ≠ .null → PropertyType.ofValue value = some type

structure Survives (declared : Option PropertyType) (value : Value) : Prop where
  plain : Plain value
  typed : ExactlyTyped declared value

def FiniteScalar : Value → Prop
  | .float bits => isFinite bits = true
  | _ => True

def Finite : Value → Prop
  | .list items => ∀ item ∈ items, FiniteScalar item
  | value => FiniteScalar value

section

variable {numerals : Numerals} {value : Value} {declared : Option PropertyType}

private theorem jsonScalar_jsonOf (plain : PlainScalar value) (finite : FiniteScalar value) :
    jsonScalar numerals (jsonOf value) = .ok value := by
  cases value with
  | null => rfl
  | bool value => rfl
  | int value =>
      have low := value.le_toInt
      have high := value.toInt_lt
      rw [jsonOf, jsonScalar, if_pos ⟨low, high⟩, Int64.ofInt_toInt]
  | float bits =>
      have shown : jsonOf (.float bits) = .float bits := if_pos finite
      rw [shown, jsonScalar]
  | string value => rfl
  | _ => cases plain

private theorem jsonScalars_jsonOfAll {items : List Value} (plain : ∀ item ∈ items, PlainScalar item)
    (finite : ∀ item ∈ items, FiniteScalar item) :
    (jsonOfAll items).mapM (jsonScalar numerals) = .ok items := by
  induction items with
  | nil => rfl
  | cons item items ih =>
      obtain ⟨plainItem, plain⟩ := List.forall_mem_cons.mp plain
      obtain ⟨finiteItem, finite⟩ := List.forall_mem_cons.mp finite
      rw [jsonOfAll, List.mapM_cons, jsonScalar_jsonOf plainItem finiteItem, ok_bind,
        ih plain finite, ok_bind]
      rfl

theorem jsonToValue_jsonOf (plain : Plain value) (finite : Finite value) :
    jsonToValue numerals (jsonOf value) = .ok value := by
  cases value with
  | list items =>
      rw [jsonOf, jsonToValue, jsonScalars_jsonOfAll plain finite, ok_bind]
      rfl
  | float bits =>
      have shown : jsonOf (.float bits) = .float bits := if_pos finite
      rw [shown]
      rfl
  | int value => exact @jsonScalar_jsonOf numerals (.int value) trivial trivial
  | null => rfl
  | bool value => rfl
  | string value => rfl
  | _ => cases plain

private theorem plain_of_jsonScalar {document : Json}
    (reads : jsonScalar numerals document = .ok value) : PlainScalar value := by
  cases document with
  | int number =>
      rw [jsonScalar] at reads
      split at reads <;> cases reads <;> trivial
  | array items => cases reads
  | object members => cases reads
  | _ =>
      cases reads
      trivial

theorem plain_of_jsonToValue {document : Json}
    (reads : jsonToValue numerals document = .ok value) : Plain value := by
  have scalar : jsonScalar numerals document = .ok value → Plain value := by
    intro reads
    have plain := plain_of_jsonScalar reads
    cases value <;> first | exact plain | cases plain
  cases document with
  | array items =>
      obtain ⟨values, each, ⟨⟩⟩ := bind_eq_ok.mp reads
      intro item isItem
      obtain ⟨document, -, readsItem⟩ := exists_of_mem_mapM each isItem
      exact plain_of_jsonScalar readsItem
  | _ => exact scalar reads

theorem coerce_of_survives (survives : Survives declared value) :
    coerce numerals value declared = .ok value := by
  cases declared with
  | none => rfl
  | some type =>
      by_cases isNull : value = .null
      · subst isNull
        cases type <;> rfl
      · have typed := survives.typed type rfl isNull
        have plain := survives.plain
        cases value <;> cases typed <;> rfl

private theorem exists_of_parseScalar {α : Type} {text : String} {type : PropertyType}
    {found : Option α} {make : α → Value} (parses : parseScalar text type found make = .ok value) :
    ∃ made, make made = value := by
  cases found with
  | none => cases parses
  | some made =>
      cases parses
      exact ⟨made, rfl⟩

private theorem typed_of_coerceTo {given : Value} {type : PropertyType} (plain : Plain given)
    (coerces : coerceTo numerals type given = .ok value) :
    Plain value ∧ (value = .null ∨ PropertyType.ofValue value = some type) := by
  rw [coerceTo.eq_def] at coerces
  split at coerces
  case h_4 =>
    obtain ⟨made, rfl⟩ := exists_of_parseScalar coerces
    exact ⟨trivial, .inr rfl⟩
  case h_7 =>
    obtain ⟨made, rfl⟩ := exists_of_parseScalar coerces
    exact ⟨trivial, .inr rfl⟩
  case h_9 =>
    obtain ⟨made, rfl⟩ := exists_of_parseScalar coerces
    exact ⟨trivial, .inr rfl⟩
  case h_1 =>
    cases coerces
    exact ⟨trivial, .inl rfl⟩
  all_goals first
    | (cases coerces; done)
    | (cases coerces; exact ⟨trivial, .inr rfl⟩)
    | (cases coerces; exact ⟨plain, .inr rfl⟩)

private theorem ne_null_of_coerceTo {given : Value} {type : PropertyType}
    (notNull : given ≠ .null) (coerces : coerceTo numerals type given = .ok value) :
    value ≠ .null := by
  rintro rfl
  rw [coerceTo.eq_def] at coerces
  split at coerces
  case h_1 => exact notNull rfl
  case h_4 =>
    obtain ⟨made, wrong⟩ := exists_of_parseScalar coerces
    cases wrong
  case h_7 =>
    obtain ⟨made, wrong⟩ := exists_of_parseScalar coerces
    cases wrong
  case h_9 =>
    obtain ⟨made, wrong⟩ := exists_of_parseScalar coerces
    cases wrong
  all_goals cases coerces

theorem ne_null_of_coerce {given : Value} (notNull : given ≠ .null)
    (coerces : coerce numerals given declared = .ok value) : value ≠ .null := by
  cases declared with
  | none =>
      cases coerces
      exact notNull
  | some type => exact ne_null_of_coerceTo notNull coerces

theorem survives_of_coerce {given : Value} (plain : Plain given)
    (coerces : coerce numerals given declared = .ok value) : Survives declared value := by
  cases declared with
  | none =>
      cases coerces
      refine ⟨plain, ?_⟩
      intro type isType
      cases isType
  | some type =>
      obtain ⟨plain, typed⟩ := typed_of_coerceTo plain coerces
      refine ⟨plain, ?_⟩
      rintro again ⟨⟩ notNull
      exact typed.resolve_left notNull

private theorem plain_of_storeValues {items kept : List Value} {depth : Nat}
    (plain : ∀ item ∈ items, PlainScalar item) (stores : storeValues items depth = .ok kept) :
    ∀ item ∈ kept, PlainScalar item := by
  induction items generalizing kept with
  | nil =>
      cases stores
      intro item isItem
      cases isItem
  | cons item items ih =>
      obtain ⟨plainItem, plain⟩ := List.forall_mem_cons.mp plain
      rw [storeValues] at stores
      obtain ⟨first, storesFirst, stores⟩ := bind_eq_ok.mp stores
      obtain ⟨others, storesOthers, ⟨⟩⟩ := bind_eq_ok.mp stores
      refine List.forall_mem_cons.mpr ⟨?_, ih plain storesOthers⟩
      rw [storeValue.eq_def] at storesFirst
      split at storesFirst
      · cases storesFirst
      · cases item <;> first | (cases storesFirst; trivial) | cases plainItem

/-- Only the kind of a value decides whether it survives. -/
theorem Survives.of_encodeValue {stored : StoredValue} (survives : Survives declared value)
    (encodes : encodeValue value = .ok stored) : Survives declared stored.val := by
  have sameType := ofValue_encodeValue encodes
  have plain := survives.plain
  refine ⟨?_, ?_⟩
  · have stores := encodeValue_eq_ok.mp encodes
    generalize stored.val = written at stores
    rw [storeValue.eq_def, if_neg (by decide)] at stores
    cases value with
    | list items =>
        obtain ⟨kept, storesItems, ⟨⟩⟩ := bind_eq_ok.mp stores
        exact plain_of_storeValues plain storesItems
    | _ => first | (cases stores; trivial) | cases plain
  · intro type isType notNull
    rw [sameType]
    refine survives.typed type isType ?_
    rintro rfl
    cases encodes
    exact notNull rfl

end

section

variable {numerals : Numerals} {row made : Row}

theorem ofList_entries {V : Type} (map : SortedMap String V) : .ofList map.entries = map := by
  apply SortedMap.ext_get
  intro key
  ext value
  rw [SortedMap.get_ofList_eq_some, SortedMap.get_eq_some_iff]
  intro first isFirst second isSecond same
  have found := SortedMap.get_eq_some_iff.mpr isFirst
  rw [same, SortedMap.get_eq_some_iff.mpr isSecond] at found
  exact (Option.some.inj found).symm

theorem jsonObjectToRow_rowObject {columns : List String}
    (covers : ∀ name value, row.get name = some value → name ∈ columns)
    (plain : ∀ name value, row.get name = some value → Plain value)
    (finite : ∀ name value, row.get name = some value → Finite value) :
    jsonObjectToRow numerals (rowObject columns row) = .ok row := by
  have shown : ∀ name document, (SortedMap.ofList (columns.filterMap fun column =>
      (row.get column).map fun value => (column, jsonOf value))).get name = some document ↔
        ∃ value, row.get name = some value ∧ jsonOf value = document := by
    intro name document
    rw [SortedMap.get_ofList_eq_some]
    · simp only [List.mem_filterMap, Option.map_eq_some_iff, Prod.mk.injEq]
      constructor
      · rintro ⟨column, -, value, found, rfl, rfl⟩
        exact ⟨value, found, rfl⟩
      · rintro ⟨value, found, rfl⟩
        exact ⟨name, covers name value found, value, found, rfl, rfl⟩
    · simp only [List.mem_filterMap, Option.map_eq_some_iff]
      rintro _ ⟨column, -, value, found, rfl⟩ _ ⟨again, -, other, alsoFound, rfl⟩ same
      cases same
      rw [found, Option.some.injEq] at alsoFound
      rw [alsoFound]
  rw [rowObject, jsonObjectToRow, ofList_entries, SortedMap.mapValuesM_eq]
  apply SortedMap.mapEntriesM_eq_ok
  intro name
  constructor
  · intro document isDocument
    obtain ⟨value, found, rfl⟩ := (shown name document).mp isDocument
    exact ⟨value, jsonToValue_jsonOf (plain name value found) (finite name value found), found⟩
  · intro absent
    rw [Option.eq_none_iff_forall_ne_some] at absent ⊢
    intro value found
    exact absent _ ((shown name _).mpr ⟨value, found, rfl⟩)

theorem plain_of_jsonObjectToRow {document : Json}
    (reads : jsonObjectToRow numerals document = .ok row) {name : String} {value : Value}
    (found : row.get name = some value) : Plain value := by
  cases document with
  | object members =>
      obtain ⟨cell, -, reads⟩ := (SortedMap.get_mapValuesM reads).mp found
      exact plain_of_jsonToValue reads
  | _ => cases reads

variable {types : Types}

theorem coerceProps_of_survives
    (survives : ∀ name value, row.get name = some value → Survives (types.get name) value) :
    coerceProps numerals row types = .ok row := by
  apply SortedMap.mapEntriesM_eq_ok
  intro name
  refine ⟨?_, id⟩
  intro value found
  exact ⟨value, coerce_of_survives (survives name value found), found⟩

theorem survives_of_coerceProps (plain : ∀ name value, row.get name = some value → Plain value)
    (coerces : coerceProps numerals row types = .ok made) {name : String} {value : Value}
    (found : made.get name = some value) : Survives (types.get name) value := by
  obtain ⟨given, isGiven, coerced⟩ := (SortedMap.get_mapEntriesM coerces).mp found
  exact survives_of_coerce (plain name given isGiven) coerced

theorem get_plainProperties {properties : Properties} {name : String} {value : Value} :
    (plainProperties properties).get name = some value ↔
      ∃ stored, properties.get name = some stored ∧ stored.val = value := by
  rw [plainProperties, SortedMap.get_mapValues, Option.map_eq_some_iff]

theorem storeProperties_plainProperties (properties : Properties) :
    storeProperties (plainProperties properties) = .ok properties := by
  rw [storeProperties, SortedMap.mapValuesM_eq]
  apply SortedMap.mapEntriesM_eq_ok
  intro name
  constructor
  · intro value found
    obtain ⟨stored, isStored, rfl⟩ := get_plainProperties.mp found
    exact ⟨stored, mapError_eq_ok.mpr (encodeValue_stored stored), isStored⟩
  · intro absent
    rw [Option.eq_none_iff_forall_ne_some] at absent ⊢
    intro stored isStored
    exact absent _ (get_plainProperties.mpr ⟨stored, isStored, rfl⟩)

theorem get_storeProperties {properties : Properties}
    (stores : storeProperties row = .ok properties) {name : String} {stored : StoredValue} :
    properties.get name = some stored ↔
      ∃ value, row.get name = some value ∧ encodeValue value = .ok stored := by
  rw [SortedMap.get_mapValuesM stores]
  simp only [mapError_eq_ok]

end

/-- A node that is read back as it was: it has no other labels, its key is of
the declared length, its record has no property of a key's name, and all its
values survive. -/
structure NodeSurvives (decl : LabelDef) (node : NodeKey) (record : NodeRecord) : Prop where
  unlabelled : record.secondaryLabels = ∅
  arity : node.key.length = decl.key.length
  apart : ∀ name ∈ decl.key, record.properties.get name = none
  key : ∀ entry ∈ decl.key.zip node.key, Survives (decl.types.get entry.1) entry.2
  properties : ∀ name stored, record.properties.get name = some stored →
    Survives (decl.types.get name) stored.val

/-- The key tuple and the properties of a node hold finite floats only. -/
structure NodeFinite (node : NodeKey) (record : NodeRecord) : Prop where
  key : ∀ value ∈ node.key, Finite value
  properties : ∀ name stored, record.properties.get name = some stored → Finite stored.val

section

variable {numerals : Numerals} {decl : LabelDef} {node : NodeKey} {record : NodeRecord}

private theorem get_foldl_orInsert {cells : List (String × Value)} {row : Row} {name : String} :
    (cells.foldl orInsert row).get name = (row.get name).or (lookup name cells) := by
  induction cells generalizing row with
  | nil => simp
  | cons cell cells ih =>
      rw [List.foldl_cons, ih, lookup_cons, orInsert]
      cases present : row.get cell.1 with
      | some value =>
          dsimp only
          by_cases same : cell.1 = name
          · subst same
            rw [present]
            rfl
          · rw [if_neg same]
      | none =>
          dsimp only
          rw [SortedMap.get_put]
          by_cases same : cell.1 = name
          · subst same
            rw [if_pos rfl, if_pos rfl, present]
            rfl
          · rw [if_neg same, if_neg same]

private theorem lookup_of_mem {cells : List (String × Value)} {cell : String × Value}
    (distinct : (cells.map Prod.fst).Nodup) (member : cell ∈ cells) :
    lookup cell.1 cells = some cell.2 := by
  induction cells with
  | nil => cases member
  | cons head cells ih =>
      rw [List.map_cons, List.nodup_cons] at distinct
      rw [lookup_cons]
      rcases List.mem_cons.mp member with rfl | later
      · exact if_pos rfl
      · have apart : head.1 ≠ cell.1 := by
          intro same
          exact distinct.1 (List.mem_map.mpr ⟨cell, later, same.symm⟩)
        rw [if_neg apart, ih distinct.2 later]

/-- The row of a node: its key under the declared names, and its properties. -/
theorem get_nodeProperties {keyNames : LabelKeys}
    (declared : keyNames.get node.label = some decl.key) {name : String} {value : Value} :
    (nodeProperties node record keyNames).get name = some value ↔
      (∃ stored, record.properties.get name = some stored ∧ stored.val = value) ∨
        record.properties.get name = none ∧ lookup name (decl.key.zip node.key) = some value := by
  simp only [nodeProperties, declared]
  rw [get_foldl_orInsert, Option.or_eq_some_iff, get_plainProperties, plainProperties,
    SortedMap.get_mapValues, Option.map_eq_none_iff]

theorem mem_otherNames {columns : List String} {rows : List Row} {row : Row}
    (isRow : row ∈ rows) {name : String} {value : Value} (found : row.get name = some value) :
    name ∈ columns ++ otherNames columns rows := by
  by_cases listed : name ∈ columns
  · exact List.mem_append_left _ listed
  · apply List.mem_append_right
    rw [otherNames, SortedMap.mem_keys, KeySet.get_ne_none, KeySet.get_ofKeys]
    refine List.mem_filter.mpr ⟨List.mem_flatMap.mpr ⟨row, isRow, ?_⟩, decide_eq_true listed⟩
    rw [SortedMap.mem_keys, found]
    exact Option.some_ne_none value

/-- A surviving node is read back from its row as it was. -/
theorem nodeKeyAndRecord_of_survives {keyNames : LabelKeys}
    (declared : keyNames.get node.label = some decl.key)
    (survives : NodeSurvives decl node record) :
    nodeKeyAndRecord numerals node.label decl (nodeProperties node record keyNames) =
      .ok (node, record) := by
  have rowOf := @get_nodeProperties decl node record keyNames declared
  have names : (decl.key.zip node.key).map Prod.fst = decl.key :=
    List.map_fst_zip survives.arity.ge
  have inKey : ∀ entry ∈ decl.key.zip node.key,
      (nodeProperties node record keyNames).get entry.1 = some entry.2 := by
    intro entry member
    refine rowOf.mpr (.inr ⟨survives.apart _ (List.of_mem_zip member).1, ?_⟩)
    exact lookup_of_mem (names.symm ▸ decl.distinct) member
  have coerced : coerceProps numerals (nodeProperties node record keyNames) decl.types =
      .ok (nodeProperties node record keyNames) := by
    apply coerceProps_of_survives
    intro name value found
    rcases rowOf.mp found with ⟨stored, isStored, rfl⟩ | ⟨-, inZip⟩
    · exact survives.properties name stored isStored
    · exact survives.key (name, value) (mem_of_lookup_eq_some inZip)
  have keyValues : decl.key.mapM
      (keyValue node.label (nodeProperties node record keyNames)) = .ok node.key := by
    rw [mapM_eq_ok, List.forall₂_iff_zip]
    refine ⟨survives.arity.symm, ?_⟩
    intro name value member
    rw [keyValue, inKey (name, value) member]
  have rest : (nodeProperties node record keyNames).filterKeys (fun name => name ∉ decl.key) =
      plainProperties record.properties := by
    apply SortedMap.ext_get
    intro name
    rw [SortedMap.get_filterKeys]
    by_cases isKey : name ∈ decl.key
    · simp only [isKey, not_true_eq_false, decide_false, Bool.false_eq_true, if_false]
      rw [plainProperties, SortedMap.get_mapValues, survives.apart name isKey]
      rfl
    · simp only [isKey, not_false_eq_true, decide_true, if_true]
      ext value
      rw [rowOf, get_plainProperties]
      constructor
      · rintro (inRecord | ⟨-, inZip⟩)
        · exact inRecord
        · exact absurd (List.of_mem_zip (mem_of_lookup_eq_some inZip)).1 isKey
      · exact .inl
  rw [nodeKeyAndRecord, coerced, ok_bind, keyValues, ok_bind]
  have newKey : NodeKey.new node.label node.key = .ok node := NodeKey.new_eq_ok.mpr ⟨rfl, rfl⟩
  rw [newKey]
  dsimp only [liftKey, Except.mapError]
  rw [ok_bind, rest, storeProperties_plainProperties, ok_bind, ← survives.unlabelled]
  rfl

/-- Whatever row a node is read from, it survives in turn. -/
theorem survives_of_nodeKeyAndRecord {label : String} {row : Row}
    (plain : ∀ name value, row.get name = some value → Plain value)
    (made : nodeKeyAndRecord numerals label decl row = .ok (node, record)) :
    node.label = label ∧ NodeSurvives decl node record := by
  rw [nodeKeyAndRecord] at made
  obtain ⟨coerced, coerces, made⟩ := bind_eq_ok.mp made
  obtain ⟨keyValues, reads, made⟩ := bind_eq_ok.mp made
  obtain ⟨key, isKey, made⟩ := bind_eq_ok.mp made
  obtain ⟨properties, stores, ⟨⟩⟩ := bind_eq_ok.mp made
  rw [mapError_eq_ok, liftKey_eq_ok, NodeKey.new_eq_ok] at isKey
  obtain ⟨rfl, rfl⟩ := isKey
  have reads := mapM_eq_ok.mp reads
  refine ⟨rfl, rfl, reads.length_eq.symm, ?_, ?_, ?_⟩
  · intro name isKey
    rw [Option.eq_none_iff_forall_ne_some]
    intro stored found
    obtain ⟨value, isValue, -⟩ := (get_storeProperties stores).mp found
    rw [SortedMap.get_filterKeys] at isValue
    simp [isKey] at isValue
  · intro entry member
    have found := (List.forall₂_iff_zip.mp reads).2 member
    rw [keyValue] at found
    cases isValue : coerced.get entry.1 with
    | none =>
        rw [isValue] at found
        cases found
    | some value =>
        rw [isValue] at found
        rw [← Except.ok.inj found]
        exact survives_of_coerceProps plain coerces isValue
  · intro name stored found
    obtain ⟨value, isValue, encodes⟩ := (get_storeProperties stores).mp found
    rw [SortedMap.get_filterKeys] at isValue
    split at isValue
    · exact (survives_of_coerceProps plain coerces isValue).of_encodeValue encodes
    · cases isValue

end

def relPropertyType (decl : Option RelTypeDef) (name : String) : Option PropertyType :=
  decl.bind fun decl => decl.types.get name

/-- An edge that is read back as it was: its key has a discriminator exactly if
its type declares one, which is no property of its own, and all its values
survive. -/
structure EdgeSurvives (decl : Option RelTypeDef) (edge : EdgeKey) (record : EdgeRecord) :
    Prop where
  undiscriminated : decl.bind RelTypeDef.discriminator = none → edge.disc = .null
  discriminated : ∀ name, decl.bind RelTypeDef.discriminator = some name →
    edge.disc ≠ .null ∧ Survives (relPropertyType decl name) edge.disc ∧
      record.properties.get name = none
  properties : ∀ name stored, record.properties.get name = some stored →
    Survives (relPropertyType decl name) stored.val

structure EdgeFinite (edge : EdgeKey) (record : EdgeRecord) : Prop where
  disc : Finite edge.disc
  properties : ∀ name stored, record.properties.get name = some stored → Finite stored.val

section

variable {numerals : Numerals} {edge : EdgeKey} {record : EdgeRecord}

private theorem get_foldl_put {cells base : Row} {name : String} :
    (cells.entries.foldl (fun row entry => row.put entry.1 entry.2) base).get name =
      (cells.get name).or (base.get name) := by
  have asOps : cells.entries.foldl (fun row entry => row.put entry.1 entry.2) base =
      base.applyAll (cells.entries.map fun entry => .put entry.1 entry.2) := by
    rw [SortedMap.applyAll, List.foldl_map]
    rfl
  have inCells : cells.get name = (lastFor Prod.fst name cells.entries).map Prod.snd :=
    Ascending.lookup_eq_lastFor cells.ascending name
  have sameKeys : lastFor (fun entry : String × Value => MapOp.key (.put entry.1 entry.2)) name
      cells.entries = lastFor Prod.fst name cells.entries := rfl
  rw [asOps, SortedMap.get_applyAll, lastFor_map, sameKeys, inCells]
  cases lastFor Prod.fst name cells.entries <;> rfl

theorem get_edgeRow {source target : Value} {name : String} :
    (edgeRow edge source target record.properties).get name =
      ((plainProperties record.properties).get name).or
        (if name = "disc" ∧ edge.disc ≠ .null then some edge.disc
        else if name = "dst" then some target
        else if name = "src" then some source else none) := by
  rw [edgeRow, get_foldl_put]
  congr 1
  have ends : ((SortedMap.empty.put "src" source).put "dst" target).get name =
      if name = "dst" then some target else if name = "src" then some source else none := by
    rw [SortedMap.get_put, SortedMap.get_put]
    simp only [@eq_comm _ _ name]
    rfl
  split
  · next isNull => rw [if_neg fun named => named.2 isNull, ends]
  · next notNull =>
      rw [SortedMap.get_put, ends]
      simp only [@eq_comm _ _ name, ne_eq, notNull, not_false_eq_true, and_true]

/-- An edge property of a reserved name was refused. -/
def Unreserved (record : EdgeRecord) : Prop :=
  ∀ name ∈ reservedColumns, record.properties.get name = none

def discField (decl : Option RelTypeDef) : Option String :=
  (decl.bind RelTypeDef.discriminator).map fun _ => "disc"

/-- The reserved columns are taken out of an edge's row again. -/
theorem mapRow_edgeRow {decl : Option RelTypeDef} {source target : Value}
    {srcLabel dstLabel : String} (survives : EdgeSurvives decl edge record)
    (unreserved : Unreserved record) :
    mapRow (edgeRow edge source target record.properties)
        (.edge edge.rtype ⟨srcLabel, ["src"]⟩ ⟨dstLabel, ["dst"]⟩ (discField decl)) =
      .ok (.edge edge.rtype ⟨srcLabel, [source]⟩ ⟨dstLabel, [target]⟩ edge.disc
        (plainProperties record.properties)) := by
  have absent : ∀ name ∈ reservedColumns, (plainProperties record.properties).get name = none := by
    intro name isReserved
    rw [plainProperties, SortedMap.get_mapValues, unreserved name isReserved]
    rfl
  have noSrc := absent "src" (by decide)
  have noDst := absent "dst" (by decide)
  have noDisc := absent "disc" (by decide)
  have hasSrc : (edgeRow edge source target record.properties).get "src" = some source := by
    rw [get_edgeRow, noSrc]
    simp
  have hasDst : ((edgeRow edge source target record.properties).delete "src").get "dst" =
      some target := by
    rw [SortedMap.get_delete, if_neg (by decide), get_edgeRow, noDst]
    simp
  have rest : ∀ name, name ≠ "disc" ∨ edge.disc = .null →
      (((edgeRow edge source target record.properties).delete "src").delete "dst").get name =
        (plainProperties record.properties).get name := by
    intro name other
    rw [SortedMap.get_delete, SortedMap.get_delete, get_edgeRow]
    by_cases isDst : "dst" = name
    · rw [if_pos isDst, ← isDst, noDst]
    · by_cases isSrc : "src" = name
      · rw [if_neg isDst, if_pos isSrc, ← isSrc, noSrc]
      · have notDisc : ¬ (name = "disc" ∧ edge.disc ≠ .null) := fun named =>
          other.elim (fun apart => apart named.1) named.2
        rw [if_neg isDst, if_neg isSrc, if_neg notDisc, if_neg (Ne.symm isDst),
          if_neg (Ne.symm isSrc), Option.or_none]
  simp only [mapRow, takeEndpoint, takeFields, hasSrc, hasDst, ok_bind, pure, Except.pure]
  cases declared : decl.bind RelTypeDef.discriminator with
  | none =>
      have isNull := survives.undiscriminated declared
      simp only [discField, declared, Option.map_none, isNull]
      congr 2
      exact SortedMap.ext_get fun name => rest name (.inr isNull)
  | some property =>
      obtain ⟨notNull, -, -⟩ := survives.discriminated property declared
      have hasDisc : (((edgeRow edge source target record.properties).delete "src").delete
          "dst").get "disc" = some edge.disc := by
        rw [SortedMap.get_delete, if_neg (by decide), SortedMap.get_delete, if_neg (by decide),
          get_edgeRow, noDisc, if_pos ⟨rfl, notNull⟩]
        rfl
      simp only [discField, declared, Option.map_some, hasDisc, Option.getD_some]
      congr 2
      apply SortedMap.ext_get
      intro name
      rw [SortedMap.get_delete]
      by_cases isDisc : "disc" = name
      · rw [if_pos isDisc, ← isDisc, noDisc]
      · rw [if_neg isDisc, rest name (.inl (Ne.symm isDisc))]

def EndpointSurvives (labels : SortedMap String LabelDef) (node : NodeKey) : Prop :=
  ∃ decl, labels.get node.label = some decl ∧ node.key.length = decl.key.length ∧
    ∀ entry ∈ decl.key.zip node.key, Survives (decl.types.get entry.1) entry.2

private theorem mapM_coerce {types : Types} {names : List String} {values : List Value}
    (sameLength : values.length = names.length)
    (survives : ∀ entry ∈ names.zip values, Survives (types.get entry.1) entry.2) :
    (names.zip values).mapM (fun entry => coerce numerals entry.2 (types.get entry.1)) =
      .ok values := by
  induction names generalizing values with
  | nil =>
      rw [List.eq_nil_of_length_eq_zero sameLength]
      rfl
  | cons name names ih =>
      cases values with
      | nil => cases sameLength
      | cons value values =>
          rw [List.zip_cons_cons] at survives ⊢
          obtain ⟨first, rest⟩ := List.forall_mem_cons.mp survives
          rw [List.mapM_cons, coerce_of_survives first, ok_bind,
            ih (Nat.succ.inj sameLength) rest, ok_bind]
          rfl

theorem endpointKey_of_survives {labels : SortedMap String LabelDef} {node : NodeKey}
    (survives : EndpointSurvives labels node) :
    endpointKey numerals ⟨node.label, node.key⟩ labels = .ok node := by
  obtain ⟨decl, declared, sameLength, values⟩ := survives
  simp only [endpointKey, declared, sameLength, ne_eq, not_true_eq_false, if_false]
  rw [mapM_coerce sameLength values, ok_bind, NodeKey.new_eq_ok.mpr ⟨rfl, rfl⟩]
  rfl

private theorem not_deferred {value : Value} (plain : Plain value) :
    (PropertyType.ofValue value).filter (· ∈ deferredTypes) = none := by
  cases value <;> first | rfl | cases plain

theorem edgeDiscriminator_of_survives {decl : Option RelTypeDef}
    (survives : EdgeSurvives decl edge record) :
    edgeDiscriminator numerals edge.rtype decl edge.disc (plainProperties record.properties) =
      .ok edge.disc := by
  rw [edgeDiscriminator]
  cases declared : decl.bind RelTypeDef.discriminator with
  | none =>
      rw [survives.undiscriminated declared]
      rfl
  | some name =>
      obtain ⟨notNull, value, unshadowed⟩ := survives.discriminated name declared
      have absent : (plainProperties record.properties).get name = none := by
        rw [plainProperties, SortedMap.get_mapValues, unshadowed]
        rfl
      have coerced := @coerce_of_survives numerals _ _ value
      rw [relPropertyType] at coerced
      simp only [if_neg notNull, absent, Option.isSome_none, Bool.false_eq_true, if_false, coerced,
        ok_bind, not_deferred value.plain]
      rfl

theorem coerceEdgeProps_of_survives {decl : Option RelTypeDef}
    (survives : EdgeSurvives decl edge record) :
    coerceEdgeProps numerals (plainProperties record.properties) decl =
      .ok (plainProperties record.properties) := by
  cases decl with
  | none => rfl
  | some decl =>
      apply coerceProps_of_survives
      intro name value found
      obtain ⟨kept, isKept, rfl⟩ := get_plainProperties.mp found
      exact survives.properties name kept isKept

private theorem get_of_coerceEdgeProps {decl : Option RelTypeDef} {row coerced : Row}
    (coerces : coerceEdgeProps numerals row decl = .ok coerced) {name : String} {value : Value}
    (found : coerced.get name = some value) : ∃ given, row.get name = some given := by
  cases decl with
  | none =>
      cases coerces
      exact ⟨value, found⟩
  | some decl =>
      have coerces : coerceProps numerals row decl.types = .ok coerced := coerces
      obtain ⟨given, isGiven, -⟩ := (SortedMap.get_mapEntriesM coerces).mp found
      exact ⟨given, isGiven⟩

private theorem survives_of_coerceEdgeProps {decl : Option RelTypeDef} {row coerced : Row}
    (plain : ∀ name value, row.get name = some value → Plain value)
    (coerces : coerceEdgeProps numerals row decl = .ok coerced) {name : String} {value : Value}
    (found : coerced.get name = some value) : Survives (relPropertyType decl name) value := by
  cases decl with
  | none =>
      cases coerces
      refine ⟨plain name value found, ?_⟩
      intro type isType
      cases isType
  | some decl => exact survives_of_coerceProps plain coerces found

/-- A surviving edge between surviving endpoints is read back as it was. -/
theorem canonical_of_edgeSurvives {labels : SortedMap String LabelDef}
    {rtypes : SortedMap String RelTypeDef}
    (survives : EdgeSurvives (rtypes.get edge.rtype) edge record)
    (source : EndpointSurvives labels edge.src) (target : EndpointSurvives labels edge.dst) :
    canonical numerals labels rtypes (.edge edge.rtype ⟨edge.src.label, edge.src.key⟩
        ⟨edge.dst.label, edge.dst.key⟩ edge.disc (plainProperties record.properties)) =
      .ok (.edge edge record) := by
  have isEdge : EdgeKey.new edge.src edge.rtype edge.dst edge.disc = .ok edge :=
    EdgeKey.new_eq_ok.mpr ⟨rfl, rfl, rfl, rfl⟩
  simp only [canonical, endpointKey_of_survives source, endpointKey_of_survives target,
    edgeDiscriminator_of_survives survives, coerceEdgeProps_of_survives survives, isEdge, liftKey,
    Except.mapError, storeProperties_plainProperties, ok_bind]
  rfl

/-- Whatever record an edge is read from, it survives in turn. -/
theorem survives_of_canonical {labels : SortedMap String LabelDef}
    {rtypes : SortedMap String RelTypeDef} {rtype : String} {src dst : EndpointRef}
    {discriminator : Value} {properties : Row} (plainDisc : Plain discriminator)
    (plain : ∀ name value, properties.get name = some value → Plain value)
    (made : canonical numerals labels rtypes (.edge rtype src dst discriminator properties) =
      .ok (.edge edge record)) :
    EdgeSurvives (rtypes.get edge.rtype) edge record := by
  rw [canonical] at made
  obtain ⟨source, -, made⟩ := bind_eq_ok.mp made
  obtain ⟨target, -, made⟩ := bind_eq_ok.mp made
  obtain ⟨disc, discriminates, made⟩ := bind_eq_ok.mp made
  obtain ⟨coerced, coerces, made⟩ := bind_eq_ok.mp made
  obtain ⟨key, isKey, made⟩ := bind_eq_ok.mp made
  obtain ⟨kept, stores, ⟨⟩⟩ := bind_eq_ok.mp made
  rw [mapError_eq_ok, liftKey_eq_ok, EdgeKey.new_eq_ok] at isKey
  obtain ⟨-, rfl, -, rfl⟩ := isKey
  refine ⟨?_, ?_, ?_⟩
  · intro undeclared
    simp only [edgeDiscriminator, undeclared] at discriminates
    split at discriminates
    · exact (Except.ok.inj discriminates).symm
    · cases discriminates
  · intro name declared
    rw [edgeDiscriminator, declared] at discriminates
    dsimp only at discriminates
    split at discriminates
    · cases discriminates
    · next notNull =>
        split at discriminates
        · cases discriminates
        · next unshadowed =>
            obtain ⟨value, coercesDisc, discriminates⟩ := bind_eq_ok.mp discriminates
            have isValue : value = edge.disc := by
              split at discriminates
              · cases discriminates
              · exact Except.ok.inj discriminates
            subst isValue
            refine ⟨ne_null_of_coerce notNull coercesDisc,
              survives_of_coerce plainDisc coercesDisc, ?_⟩
            rw [Option.eq_none_iff_forall_ne_some]
            intro stored found
            obtain ⟨given, inRow, -⟩ := (get_storeProperties stores).mp found
            obtain ⟨first, isFirst⟩ := get_of_coerceEdgeProps coerces inRow
            rw [isFirst] at unshadowed
            exact unshadowed rfl
  · intro name stored found
    obtain ⟨value, inRow, encodes⟩ := (get_storeProperties stores).mp found
    exact (survives_of_coerceEdgeProps plain coerces inRow).of_encodeValue encodes

end

end Acetone.Interchange

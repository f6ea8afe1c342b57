import Acetone.Graph.ConstraintReports

/-!
# The streamed checks report what the whole check does

A label's rows are a run of the node map, so a check that streams them sees the
nodes that the whole check groups under the label.  A written node stands at its
place among the holders of its value, as it would in the map it is put into.
-/

namespace Acetone.Graph.Reports

open Acetone.Lib Acetone.Model

def heldValue (record : Cbor.NodeRecord) (property : String) : Option (Value × Bytes) :=
  (encodedProperty record property).toOption.join

/-- The value of a property whose encoding is the given one. -/
def heldAt (record : Cbor.NodeRecord) (property : String) (bytes : Bytes) : Option Value :=
  (heldValue record property).bind fun held => if held.2 = bytes then some held.1 else none

theorem encodedProperty_eq {record : Cbor.NodeRecord} {property : String}
    {held : Option (Value × Bytes)} (encodes : encodedProperty record property = .ok held) :
    encodedProperty record property = .ok (heldValue record property) := by
  rw [heldValue, encodes]
  rfl

private theorem writes_of_writeEntries {V failure : Type} {writeItem : V → Except failure Bytes}
    {entries : List (String × V)} {bytes : Bytes}
    (written : Cbor.writeEntries writeItem entries = .ok bytes) {entry : String × V}
    (member : entry ∈ entries) : ∃ body, writeItem entry.2 = .ok body := by
  induction entries generalizing bytes with
  | nil => cases member
  | cons head rest ih =>
      obtain ⟨body, first, later⟩ := bind_eq_ok.mp written
      obtain ⟨others, isOthers, -⟩ := bind_eq_ok.mp later
      rcases List.mem_cons.mp member with rfl | inside
      · exact ⟨body, first⟩
      · exact ih isOthers inside

theorem encodedProperty_of_decode {bytes : Bytes} {record : Cbor.NodeRecord}
    (decoded : decodeRecord bytes = .ok record) (property : String) :
    encodedProperty record property = .ok (heldValue record property) := by
  have encoded := Cbor.NodeRecord.encode_of_decode (mapError_eq_ok.mp decoded)
  obtain ⟨body, isBody, -⟩ := bind_eq_ok.mp encoded
  obtain ⟨written, isWritten, -⟩ := bind_eq_ok.mp isBody
  cases holds : record.properties.get property with
  | none => exact @encodedProperty_eq _ _ none (by rw [encodedProperty, holds])
  | some value =>
      have listed : (property, value) ∈ record.properties.listing canonicalStrCmp :=
        (SortedMap.mem_listing canonicalStrCmp).mpr (SortedMap.get_eq_some_iff.mp holds)
      obtain ⟨encoding, encodes⟩ := writes_of_writeEntries isWritten listed
      have isEncoding : Cbor.encodeValue value = .ok encoding := mapError_eq_ok.mp encodes
      refine @encodedProperty_eq _ _ (some (value, encoding)) ?_
      rw [encodedProperty, holds]
      simp only [isEncoding]
      rfl

section

variable {K M : Type} [LinearOrder K]

def entriesOf (make : String → Bytes → K) (member : M) (record : Cbor.NodeRecord)
    (properties : List String) : List (Grouped K Value M) :=
  properties.flatMap fun property => (heldValue record property).toList.map fun held =>
    ⟨make property held.2, held.1, member⟩

private theorem itemsOf_held {make : String → Bytes → K} {member : M}
    {record : Cbor.NodeRecord} {property wanted : String} {bytes : Bytes}
    (injective : ∀ left leftBytes right rightBytes, make left leftBytes = make right rightBytes →
      left = right ∧ leftBytes = rightBytes) :
    itemsOf (make wanted bytes) ((heldValue record property).toList.map fun held =>
        (⟨make property held.2, held.1, member⟩ : Grouped K Value M)) =
      if property = wanted then
        (heldAt record wanted bytes).toList.map fun value => ⟨make wanted bytes, value, member⟩
      else [] := by
  rw [heldAt, itemsOf]
  cases held : heldValue record property with
  | none =>
      by_cases same : property = wanted
      · subst same
        simp [held]
      · simp [same]
  | some pair =>
      by_cases same : property = wanted
      · subst same
        by_cases isExact : pair.2 = bytes
        · subst isExact
          simp [held]
        · have apart : make property pair.2 ≠ make property bytes :=
            fun equal => isExact (injective _ _ _ _ equal).2
          simp [held, isExact, apart]
      · have apart : make property pair.2 ≠ make wanted bytes :=
          fun equal => same (injective _ _ _ _ equal).1
        simp [same, apart]

theorem itemsOf_entriesOf {make : String → Bytes → K} {member : M} {record : Cbor.NodeRecord}
    {properties : List String} (distinct : properties.Nodup) {wanted : String} {bytes : Bytes}
    (injective : ∀ left leftBytes right rightBytes, make left leftBytes = make right rightBytes →
      left = right ∧ leftBytes = rightBytes) :
    itemsOf (make wanted bytes) (entriesOf make member record properties) =
      if wanted ∈ properties then
        (heldAt record wanted bytes).toList.map fun value => ⟨make wanted bytes, value, member⟩
      else [] := by
  induction properties with
  | nil => rfl
  | cons property rest ih =>
      rw [List.nodup_cons] at distinct
      rw [entriesOf, List.flatMap_cons, itemsOf_append, itemsOf_held injective, ← entriesOf,
        ih distinct.2]
      by_cases same : property = wanted
      · subst same
        rw [if_pos rfl, if_neg distinct.1, if_pos List.mem_cons_self, List.append_nil]
      · have others : wanted ∈ property :: rest ↔ wanted ∈ rest :=
          ⟨fun member => (List.mem_cons.mp member).resolve_left (Ne.symm same),
            List.mem_cons_of_mem _⟩
        rw [if_neg same, List.nil_append]
        simp only [others]

end

section

variable {labels : SortedMap String LabelDef} {nodes : List NodeRow}

def claimsIn (labels : SortedMap String LabelDef) (row : NodeRow) :
    List (Grouped GroupKey Value Member) :=
  match labels.get row.2.1.label with
  | none => []
  | some decl => entriesOf (groupKey row.2.1.label) (row.1, row.2.1) row.2.2 decl.unique

def declares (labels : SortedMap String LabelDef) (label property : String) : Bool :=
  (labels.get label).any fun decl => decide (property ∈ decl.unique)

def holderIn (labels : SortedMap String LabelDef) (label property : String) (bytes : Bytes)
    (_ : Bytes) (node : NodeKey × Cbor.NodeRecord) : Option (NodeKey × Value) :=
  if node.1.label = label ∧ declares labels label property then
    (heldAt node.2 property bytes).map fun value => (node.1, value)
  else none

def holders (labels : SortedMap String LabelDef) (label property : String) (bytes : Bytes)
    (nodes : List NodeRow) : List Holder :=
  keyedReports nodes id (holderIn labels label property bytes)

def Distinct (labels : SortedMap String LabelDef) : Prop :=
  ∀ label decl, labels.get label = some decl → decl.unique.Nodup

theorem claimsOf_eq {row : NodeRow}
    (encodes : ∀ decl, labels.get row.2.1.label = some decl → ∀ property ∈ decl.unique,
      encodedProperty row.2.2 property = .ok (heldValue row.2.2 property)) :
    claimsOf labels row = .ok (claimsIn labels row) := by
  rw [claimsOf, claimsIn]
  cases declared : labels.get row.2.1.label with
  | none => rfl
  | some decl =>
      apply gather_of_ok
      intro property member
      rw [claimOf, encodes decl declared property member]
      rfl

private theorem groupKey_injective {label : String} :
    ∀ left leftBytes right rightBytes,
      groupKey label left leftBytes = groupKey label right rightBytes →
        left = right ∧ leftBytes = rightBytes := by
  intro left leftBytes right rightBytes same
  have inner := congrArg (fun key : GroupKey => ofLex (ofLex key).2) same
  exact Prod.mk.inj inner

private theorem itemsOf_claimsIn (distinct : Distinct labels) {row : NodeRow}
    {label property : String} {bytes : Bytes} :
    itemsOf (groupKey label property bytes) (claimsIn labels row) =
      ((holderIn labels label property bytes row.1 row.2).toList.map fun holder =>
        ⟨groupKey label property bytes, holder.2, (row.1, holder.1)⟩) := by
  rw [claimsIn, holderIn, declares]
  cases declared : labels.get row.2.1.label with
  | none =>
      by_cases same : row.2.1.label = label
      · subst same
        simp [declared]
      · simp [same]
  | some decl =>
      by_cases same : row.2.1.label = label
      · subst same
        have filtered := @itemsOf_entriesOf _ _ _ (groupKey row.2.1.label) (row.1, row.2.1) row.2.2
          decl.unique (distinct _ decl declared) property bytes groupKey_injective
        refine filtered.trans ?_
        by_cases member : property ∈ decl.unique
        · simp only [member, declared, if_true, Option.any_some, decide_true, and_self]
          cases heldAt row.2.2 property bytes <;> rfl
        · simp [member, declared]
      · have none_ : ∀ item ∈ entriesOf (groupKey row.2.1.label) (row.1, row.2.1) row.2.2
            decl.unique, item.key ≠ groupKey label property bytes := by
          intro item member isKey
          obtain ⟨other, -, inside⟩ := List.mem_flatMap.mp member
          obtain ⟨held, -, rfl⟩ := List.mem_map.mp inside
          exact same (congrArg (fun key : GroupKey => (ofLex key).1) isKey)
        rw [if_neg fun both => same both.1]
        exact List.filter_eq_nil_iff.mpr fun item member => by simpa using none_ item member

theorem itemsOf_claims (distinct : Distinct labels) {label property : String} {bytes : Bytes} :
    itemsOf (groupKey label property bytes) (nodes.flatMap (claimsIn labels)) =
      (holders labels label property bytes nodes).map fun holder =>
        ⟨groupKey label property bytes, holder.2.2, (holder.1, holder.2.1)⟩ := by
  rw [holders, keyedReports]
  induction nodes with
  | nil => rfl
  | cons row rest ih =>
      rw [List.flatMap_cons, itemsOf_append, itemsOf_claimsIn distinct, ih, List.filterMap_cons]
      cases holderIn labels label property bytes row.1 row.2 <;> rfl

/-- The violation of some holders, if they are two or more and one is in
focus. -/
def reported (inFocus : Bytes → Bool) (label property : String) (holders : List Holder) :
    Option ConstraintViolation :=
  if holders.length < 2 ∨ ¬ holders.any fun holder => inFocus holder.1 then none
  else holdersViolation label property holders

theorem group_reports (distinct : Distinct labels) (inFocus : Bytes → Bool)
    (label property : String) (bytes : Bytes) :
    ((groupAll (nodes.flatMap (claimsIn labels))).get (groupKey label property bytes)).bind
        (groupViolation inFocus (groupKey label property bytes)) =
      reported inFocus label property (holders labels label property bytes nodes) := by
  rw [get_groupAll, itemsOf_claims distinct, groupOf, List.head?_map, Option.map_map, List.map_map,
    reported, holdersViolation]
  cases holders labels label property bytes nodes with
  | nil => rfl
  | cons first rest =>
      simp only [List.head?_cons, Option.map_some, Option.bind_some, groupViolation,
        Function.comp_apply, List.length_map, List.any_map, List.map_map]
      rfl

end

section

variable {snapshot : Snapshot}

theorem unique_nodup_of_build {key : List String} {surrogate : Bool} {types : Types}
    {existence unique : List String} {decl : LabelDef}
    (built : LabelDef.build key surrogate types existence unique = .ok decl) :
    decl.unique.Nodup := by
  rw [LabelDef.build] at built
  split at built
  · cases built
  rw [guard_eq_ok] at built
  obtain ⟨-, built⟩ := built
  split at built
  · cases built
  rw [guard_eq_ok] at built
  obtain ⟨-, built⟩ := built
  simp only [bind_eq_ok] at built
  obtain ⟨-, -, kept, -, only, isOnly, built⟩ := built
  split at built
  · cases built
    rw [normaliseNames, guard_eq_ok] at isOnly
    obtain ⟨-, ⟨⟩⟩ := isOnly
    exact List.nodup_dedup _
  · cases built

private theorem unique_nodup_of_readLabelDef {input rest : Bytes} {decl : LabelDef}
    (read : Cbor.readLabelDef input = .ok (decl, rest)) : decl.unique.Nodup := by
  simp only [Cbor.readLabelDef, bind_eq_ok, Prod.exists, Except.ok.injEq] at read
  obtain ⟨_, -, _, -, _, _, -, _, -, _, _, -, _, -, _, _, -, _, -, _, _, -, _, -, _, _, -, _,
    built, ⟨⟩⟩ := read
  exact unique_nodup_of_build built

private theorem unique_nodup_of_decodeEntry {key value : Bytes} {name : String}
    {decl : LabelDef} (decoded : Cbor.decodeEntry key value = .ok (.label name decl)) :
    decl.unique.Nodup := by
  obtain ⟨⟨kind, stored⟩, -, decoded⟩ := bind_eq_ok.mp decoded
  obtain ⟨⟨entry, rest⟩, read, decoded⟩ := bind_eq_ok.mp decoded
  obtain ⟨-, ⟨⟩⟩ := guard_eq_ok.mp decoded
  rw [Cbor.readEntry] at read
  split at read
  · obtain ⟨⟨made, after⟩, readDecl, ⟨⟩⟩ := bind_eq_ok.mp read
    exact unique_nodup_of_readLabelDef readDecl
  split at read
  · obtain ⟨⟨made, after⟩, -, ⟨⟩⟩ := bind_eq_ok.mp read
  split at read
  · obtain ⟨⟨made, after⟩, -, ⟨⟩⟩ := bind_eq_ok.mp read
  · cases read

private theorem mem_labelPairs {entries : List SchemaEntry} {pair : String × LabelDef} :
    pair ∈ entries.filterMap labelPair? ↔ .label pair.1 pair.2 ∈ entries := by
  rw [List.mem_filterMap]
  constructor
  · rintro ⟨entry, member, isPair⟩
    cases entry with
    | label name decl =>
        cases isPair
        exact member
    | relType name decl => cases isPair
    | index name decl => cases isPair
  · intro member
    exact ⟨_, member, rfl⟩

/-- One name is declared once: the entry stands under the key it decodes
from. -/
private theorem labelPairs_functional {entries : List SchemaEntry}
    (reads : schemaEntries snapshot = .ok entries) :
    ∀ first ∈ entries.filterMap labelPair?, ∀ second ∈ entries.filterMap labelPair?,
      first.1 = second.1 → first.2 = second.2 := by
  have decoded : ∀ pair ∈ entries.filterMap labelPair?, ∃ value,
      snapshot.schema.get (SchemaEntry.mapKey (.label pair.1 pair.2)) = some value ∧
        Cbor.decodeEntry (SchemaEntry.mapKey (.label pair.1 pair.2)) value =
          .ok (.label pair.1 pair.2) := by
    intro pair member
    obtain ⟨row, isRow, isEntry⟩ := exists_of_mem_mapM reads (mem_labelPairs.mp member)
    have decodes := mapError_eq_ok.mp isEntry
    rw [(Cbor.encodeEntry_of_decodeEntry decodes).1]
    exact ⟨row.2, SortedMap.get_eq_some_iff.mpr isRow, decodes⟩
  intro first isFirst second isSecond same
  obtain ⟨value, found, decodes⟩ := decoded first isFirst
  obtain ⟨other, alsoFound, alsoDecodes⟩ := decoded second isSecond
  have sameKey : SchemaEntry.mapKey (.label first.1 first.2) =
      SchemaEntry.mapKey (.label second.1 second.2) := by
    rw [same]
    rfl
  rw [sameKey] at found decodes
  cases found.symm.trans alsoFound
  exact (SchemaEntry.label.inj (Except.ok.inj (decodes.symm.trans alsoDecodes))).2

private theorem lookup_of_functional {pairs : List (String × LabelDef)}
    (functional : ∀ first ∈ pairs, ∀ second ∈ pairs, first.1 = second.1 → first.2 = second.2)
    {label : String} {decl : LabelDef} (member : (label, decl) ∈ pairs) :
    pairs.lookup label = some decl := by
  induction pairs with
  | nil => cases member
  | cons head rest ih =>
      rw [List.lookup_cons]
      by_cases same : label = head.1
      · have isDecl : head.2 = decl := functional head List.mem_cons_self _ member same.symm
        simp [same, isDecl]
      · have later : (label, decl) ∈ rest :=
          (List.mem_cons.mp member).resolve_left fun equal => same (congrArg Prod.fst equal)
        have found := ih (fun first isFirst second isSecond =>
          functional first (List.mem_cons_of_mem _ isFirst) second
            (List.mem_cons_of_mem _ isSecond)) later
        rw [beq_false_of_ne same]
        exact found

/-- The first definition of a label is the one the map of definitions holds. -/
private theorem lookup_eq_get {entries : List SchemaEntry}
    (reads : schemaEntries snapshot = .ok entries) (label : String) :
    (entries.filterMap labelPair?).lookup label =
      (SortedMap.ofList (entries.filterMap labelPair?)).get label := by
  have functional := labelPairs_functional reads
  generalize entries.filterMap labelPair? = pairs at functional
  apply Option.ext
  intro decl
  rw [SortedMap.get_ofList_eq_some functional]
  constructor
  · intro found
    obtain ⟨before, after, split, -⟩ := List.lookup_eq_some_iff.mp found
    rw [split]
    exact List.mem_append_right _ List.mem_cons_self
  · exact lookup_of_functional functional

theorem distinct_of_labelDefs {labels : SortedMap String LabelDef}
    (reads : labelDefs snapshot = .ok labels) : Distinct labels := by
  obtain ⟨entries, read, ⟨⟩⟩ := bind_eq_ok.mp reads
  intro label decl found
  rw [SortedMap.get_ofList_eq_some (labelPairs_functional read)] at found
  obtain ⟨row, -, isEntry⟩ := exists_of_mem_mapM read (mem_labelPairs.mp found)
  exact unique_nodup_of_decodeEntry (mapError_eq_ok.mp isEntry)

private theorem decodeRow_eq_ok {row : Bytes × Bytes} {node : NodeRow} :
    decodeRow row = .ok node ↔
      node.1 = row.1 ∧ decodeKey row.1 = .ok node.2.1 ∧ decodeRecord row.2 = .ok node.2.2 := by
  simp only [decodeRow, bind_eq_ok, Except.ok.injEq]
  constructor
  · rintro ⟨key, isKey, record, isRecord, rfl⟩
    exact ⟨rfl, isKey, isRecord⟩
  · rintro ⟨same, isKey, isRecord⟩
    exact ⟨_, isKey, _, isRecord, by rw [← same]⟩

private theorem keys_of_mapM {stored : List (Bytes × Bytes)} {rows : List NodeRow}
    (each : stored.mapM decodeRow = .ok rows) :
    rows.map Prod.fst = stored.map Prod.fst := by
  rw [mapM_eq_ok] at each
  induction each with
  | nil => rfl
  | cons first _ ih => rw [List.map_cons, List.map_cons, (decodeRow_eq_ok.mp first).1, ih]

theorem mapM_decodeRow {nodes : NodeSet} (decodes : nodeSet snapshot = .ok nodes) :
    snapshot.nodes.entries.mapM decodeRow = .ok nodes.entries := by
  obtain ⟨rows, each, ⟨⟩⟩ := bind_eq_ok.mp decodes
  have ascending : Ascending rows := by
    rw [Ascending, ← List.pairwise_map (f := Prod.fst) (R := (· < ·)), keys_of_mapM each,
      List.pairwise_map]
    exact snapshot.nodes.ascending
  rw [SortedMap.entries_ofList ascending]
  exact each

theorem decoded_of_mem {nodes : NodeSet} (decodes : nodeSet snapshot = .ok nodes)
    {node : NodeRow} (member : node ∈ nodes.entries) :
    ∃ bytes, decodeKey node.1 = .ok node.2.1 ∧ decodeRecord bytes = .ok node.2.2 := by
  obtain ⟨row, -, isNode⟩ := exists_of_mem_mapM (mapM_decodeRow decodes) member
  obtain ⟨same, isKey, isRecord⟩ := decodeRow_eq_ok.mp isNode
  exact ⟨row.2, same ▸ isKey, isRecord⟩

private theorem scanPrefix_eq_filter {V : Type} (map : SortedMap Bytes V) (leading : Bytes) :
    scanPrefix map leading = map.entries.filter fun entry => leading.isPrefixOf entry.1 := by
  have scanned : Ascending (scanPrefix map leading) :=
    map.ascending.sublist ((List.takeWhile_sublist _).trans (List.dropWhile_sublist _))
  have filtered : Ascending (map.entries.filter fun entry => leading.isPrefixOf entry.1) :=
    map.ascending.sublist List.filter_sublist
  apply scanned.ext filtered
  intro key
  apply Option.ext
  intro value
  rw [scanned.lookup_eq_some_iff, filtered.lookup_eq_some_iff, mem_scanPrefix, List.mem_filter,
    List.isPrefixOf_iff_prefix]

theorem mapM_labelRows {nodes : NodeSet} (decodes : nodeSet snapshot = .ok nodes)
    (label : String) :
    (labelRows snapshot label).mapM decodeRow =
      .ok (nodes.entries.filter fun node => node.2.1.label = label) := by
  rw [labelRows, scanPrefix_eq_filter]
  apply mapM_filter (mapM_decodeRow decodes)
  intro row _ node isNode
  obtain ⟨-, isKey, -⟩ := decodeRow_eq_ok.mp isNode
  have encodes := NodeKey.encode_of_decode (mapError_eq_ok.mp isKey)
  rw [Bool.eq_iff_iff, List.isPrefixOf_iff_prefix, decide_eq_true_iff]
  exact nodeLabelPrefix_isPrefix encodes

end

section

variable {snapshot : Snapshot} {labels : SortedMap String LabelDef} {nodes : NodeSet}

def breachesOf (labels : SortedMap String LabelDef) (node : NodeRow) :
    List ConstraintViolation :=
  match labels.get node.2.1.label with
  | none => []
  | some decl => nodeViolations node.2.1 node.2.2 decl

/-- The whole check, where every value that is grouped encodes. -/
theorem checkNodes_eq (encodes : ∀ node ∈ nodes.entries, ∀ decl,
      labels.get node.2.1.label = some decl → ∀ property ∈ decl.unique,
        encodedProperty node.2.2 property = .ok (heldValue node.2.2 property))
    (focus : Option (List Bytes)) :
    checkNodes labels nodes focus =
      .ok ((nodes.entries.filter fun node => inFocus focus node.1).flatMap (breachesOf labels) ++
        reportsOf (groupAll (nodes.entries.flatMap (claimsIn labels)))
          (groupViolation (inFocus focus))) := by
  have claims : gather (claimsOf labels) nodes.entries =
      .ok (nodes.entries.flatMap (claimsIn labels)) :=
    gather_of_ok fun node member => claimsOf_eq (encodes node member)
  rw [checkNodes, claims, ok_bind]
  congr 2
  generalize nodes.entries = rows
  induction rows with
  | nil => rfl
  | cons node rest ih =>
      obtain ⟨encoded, key, record⟩ := node
      rw [List.flatMap_cons, ih]
      change (if ¬ inFocus focus encoded then [] else breachesOf labels (encoded, key, record)) ++ _ = _
      by_cases focused : inFocus focus encoded
      · have kept := @List.filter_cons_of_pos _ (fun node : NodeRow => inFocus focus node.1)
          (encoded, key, record) rest focused
        rw [if_neg (not_not.mpr focused), kept, List.flatMap_cons]
      · have dropped := @List.filter_cons_of_neg _ (fun node : NodeRow => inFocus focus node.1)
          (encoded, key, record) rest focused
        rw [if_pos focused, dropped, List.nil_append]

/-- The groups of a label in the whole check, renamed to those of the label. -/
private theorem labelKey_strictMono (label : String) :
    StrictMono fun key : WantedKey => (toLex (label, key) : GroupKey) := by
  intro left right less
  exact Prod.Lex.toLex_lt_toLex.mpr (.inr ⟨rfl, less⟩)

private theorem holders_of_other {label other property : String} {bytes : Bytes}
    {rows : List NodeRow} {decl : LabelDef} (apart : other ≠ label) :
    holders (.ofList [(label, decl)]) other property bytes rows = [] := by
  have undeclared : declares (.ofList [(label, decl)]) other property = false := by
    rw [declares, SortedMap.get_ofList_eq_none.mpr fun entry member => ?_]
    · rfl
    · rw [List.mem_singleton.mp member]
      exact apart.symm
  rw [holders, keyedReports, List.filterMap_eq_nil_iff]
  intro row _
  simp [holderIn, undeclared]

end

section

variable {snapshot : Snapshot} {nodes : NodeSet} {label : String} {decl : LabelDef}

def labelEntries (decl : LabelDef) (node : NodeRow) : List (Grouped WantedKey Value NodeKey) :=
  entriesOf (fun property bytes => toLex (property, bytes)) node.2.1 node.2.2 decl.unique

private theorem judgeRow_eq (row : Bytes × Bytes) :
    judgeRow decl row = decodeRow row >>= fun node =>
      gather (labelClaim node.2.1 node.2.2) decl.unique >>= fun claims =>
        .ok (nodeViolations node.2.1 node.2.2 decl, claims) := by
  rw [judgeRow, decodeRow]
  cases decodeKey row.1 with
  | error cause => rfl
  | ok key =>
      cases decodeRecord row.2 with
      | error cause => rfl
      | ok record => rfl

private theorem mapM_of_ok {failure α β : Type} {f : α → Except failure β} {made : α → β}
    {items : List α} (each : ∀ item ∈ items, f item = .ok (made item)) :
    items.mapM f = .ok (items.map made) := by
  rw [mapM_eq_ok]
  induction items with
  | nil => exact .nil
  | cons item rest ih =>
      exact .cons (each item List.mem_cons_self)
        (ih fun other member => each other (List.mem_cons_of_mem _ member))

private theorem judged_eq (decodes : nodeSet snapshot = .ok nodes) :
    (labelRows snapshot label).mapM (judgeRow decl) =
      .ok ((nodes.entries.filter fun node => node.2.1.label = label).map fun node =>
        (nodeViolations node.2.1 node.2.2 decl, labelEntries decl node)) := by
  rw [funext judgeRow_eq, mapM_bind (mapM_labelRows decodes label)]
  apply mapM_of_ok
  intro node member
  obtain ⟨bytes, -, isRecord⟩ := decoded_of_mem decodes (List.mem_filter.mp member).1
  have claims : gather (labelClaim node.2.1 node.2.2) decl.unique =
      .ok (labelEntries decl node) := by
    apply gather_of_ok
    intro property _
    rw [labelClaim, encodedProperty_of_decode isRecord]
    rfl
  rw [claims]
  rfl

private theorem get_single (other : String) :
    (SortedMap.ofList [(label, decl)]).get other = if other = label then some decl else none := by
  by_cases same : other = label
  · rw [if_pos same, SortedMap.get_ofList_eq_some (by simp), same]
    exact List.mem_singleton.mpr rfl
  · rw [if_neg same, SortedMap.get_ofList_eq_none]
    intro entry member isOther
    rw [List.mem_singleton.mp member] at isOther
    exact same isOther.symm

private theorem itemsOf_labelEntries (distinct : decl.unique.Nodup) {rows : List NodeRow}
    {property : String} {bytes : Bytes} :
    itemsOf (toLex (property, bytes))
        ((rows.filter fun node => node.2.1.label = label).flatMap (labelEntries decl)) =
      (holders (.ofList [(label, decl)]) label property bytes rows).map fun holder =>
        ⟨toLex (property, bytes), holder.2.2, holder.2.1⟩ := by
  have injective : ∀ left leftBytes right rightBytes,
      (toLex (left, leftBytes) : WantedKey) = toLex (right, rightBytes) →
        left = right ∧ leftBytes = rightBytes := by
    intro left leftBytes right rightBytes same
    exact Prod.mk.inj (congrArg ofLex same)
  have declared : declares (.ofList [(label, decl)]) label property =
      decide (property ∈ decl.unique) := by
    rw [declares, get_single, if_pos rfl, Option.any_some]
  rw [holders, keyedReports]
  induction rows with
  | nil => rfl
  | cons row rest ih =>
      rw [List.filterMap_cons, holderIn]
      by_cases same : row.2.1.label = label
      · have kept := @List.filter_cons_of_pos _ (fun node : NodeRow => node.2.1.label = label)
          row rest (decide_eq_true same)
        rw [kept, List.flatMap_cons, itemsOf_append, ih, labelEntries,
          @itemsOf_entriesOf _ _ _ (fun property bytes => toLex (property, bytes)) _ _ _ distinct
            property bytes injective, declared]
        by_cases member : property ∈ decl.unique
        · simp only [member, same, if_true, decide_true, and_self]
          cases heldAt row.2.2 property bytes <;> rfl
        · simp [member]
      · have dropped := @List.filter_cons_of_neg _ (fun node : NodeRow => node.2.1.label = label)
          row rest (by simpa using same)
        rw [dropped, ih, if_neg fun both => same both.1]
        rfl

private theorem label_reports (distinct : decl.unique.Nodup) (rows : List NodeRow)
    (inFocus : Bytes → Bool) (everywhere : ∀ encoded, inFocus encoded = true) :
    reportsOf (groupAll (rows.flatMap (claimsIn (.ofList [(label, decl)]))))
        (groupViolation inFocus) =
      reportsOf (groupAll ((rows.filter fun node => node.2.1.label = label).flatMap
        (labelEntries decl))) (labelViolation label) := by
  have single : Distinct (.ofList [(label, decl)]) := by
    intro other found isFound
    rw [get_single] at isFound
    split at isFound
    · cases isFound
      exact distinct
    · cases isFound
  apply reportsOf_eq (labelKey_strictMono label)
  · intro key
    obtain ⟨property, bytes⟩ := key
    refine (group_reports single inFocus label property bytes).trans ?_
    change _ = ((groupAll _).get (toLex (property, bytes))).bind
      (labelViolation label (toLex (property, bytes)))
    rw [get_groupAll, itemsOf_labelEntries distinct, groupOf, List.head?_map, Option.map_map, List.map_map,
      reported, holdersViolation]
    cases holders (.ofList [(label, decl)]) label property bytes rows with
    | nil => rfl
    | cons first rest =>
        simp [labelViolation, everywhere, Function.comp_def]
  · intro key apart
    obtain ⟨other, property, bytes⟩ := key
    have isOther : other ≠ label := by
      rintro rfl
      exact apart (property, bytes) rfl
    refine (group_reports single inFocus other property bytes).trans ?_
    rw [holders_of_other isOther]
    rfl

private theorem silent_of_unconstrained (free : unconstrained decl = true) :
    decl.existence = [] ∧ decl.unique = [] ∧ decl.types.entries = [] := by
  have empty := of_decide_eq_true free
  exact ⟨List.isEmpty_iff.mp empty.1, List.isEmpty_iff.mp empty.2.1,
    List.isEmpty_iff.mp empty.2.2⟩

theorem nodeViolations_of_unconstrained (free : unconstrained decl = true) (key : NodeKey)
    (record : Cbor.NodeRecord) : nodeViolations key record decl = [] := by
  obtain ⟨noExistence, -, noTypes⟩ := silent_of_unconstrained free
  rw [nodeViolations, typeViolations, noExistence, noTypes]
  rfl

private theorem checkLabel_scans (decodes : nodeSet snapshot = .ok nodes) :
    checkLabel snapshot label decl =
      .ok ((nodes.entries.filter fun node => node.2.1.label = label).flatMap
          (fun node => nodeViolations node.2.1 node.2.2 decl) ++
        reportsOf (groupAll ((nodes.entries.filter fun node => node.2.1.label = label).flatMap
          (labelEntries decl))) (labelViolation label)) := by
  rw [checkLabel]
  split
  case isTrue free =>
    have noEntries : labelEntries decl = fun _ => [] := by
      funext node
      rw [labelEntries, (silent_of_unconstrained free).2.1]
      rfl
    have silent : ∀ {α : Type} (rows : List NodeRow),
        rows.flatMap (fun _ => ([] : List α)) = [] :=
      fun rows => List.flatMap_eq_nil_iff.mpr fun _ _ => rfl
    simp only [nodeViolations_of_unconstrained free, noEntries, silent]
    rfl
  case isFalse =>
    rw [judged_eq decodes, ok_bind, List.flatMap_map, List.flatMap_map]

/-- A declaration is checked as the whole check would with it alone. -/
theorem checkLabel_eq (decodes : nodeSet snapshot = .ok nodes) (distinct : decl.unique.Nodup) :
    checkLabel snapshot label decl = checkNodes (.ofList [(label, decl)]) nodes none := by
  have encodes : ∀ node ∈ nodes.entries, ∀ decl',
      (SortedMap.ofList [(label, decl)]).get node.2.1.label = some decl' →
        ∀ property ∈ decl'.unique,
          encodedProperty node.2.2 property = .ok (heldValue node.2.2 property) := by
    intro node member _ _ property _
    obtain ⟨bytes, -, isRecord⟩ := decoded_of_mem decodes member
    exact encodedProperty_of_decode isRecord property
  have everywhere : nodes.entries.filter (fun node => inFocus none node.1) = nodes.entries :=
    List.filter_eq_self.mpr fun _ _ => rfl
  rw [checkLabel_scans decodes, checkNodes_eq encodes,
    label_reports distinct nodes.entries (inFocus none) fun _ => rfl, everywhere]
  have breaches : ∀ node, breachesOf (.ofList [(label, decl)]) node =
      if node.2.1.label = label then nodeViolations node.2.1 node.2.2 decl else [] := by
    intro node
    rw [breachesOf, get_single]
    by_cases same : node.2.1.label = label
    · rw [if_pos same, if_pos same]
    · rw [if_neg same, if_neg same]
  have unlabelled : ∀ node ∈ nodes.entries, decide (node.2.1.label = label) = false →
      breachesOf (.ofList [(label, decl)]) node = [] := by
    intro node _ isOther
    rw [breaches, if_neg (of_decide_eq_false isOther)]
  rw [← flatMap_filter_of_nil unlabelled]
  congr 2
  apply List.flatMap_congr
  intro node member
  rw [breaches, if_pos (of_decide_eq_true (List.mem_filter.mp member).2)]

end

section

variable {snapshot : Snapshot} {labels : SortedMap String LabelDef} {nodes : NodeSet}
  {key : NodeKey} {record : Cbor.NodeRecord} {own : Bytes} {decl : LabelDef}

def joined (own : Bytes) (wanted : WantedKey) (node : NodeRow) : Option Holder :=
  if node.1 = own then none
  else (heldAt node.2.2 (ofLex wanted).1 (ofLex wanted).2).map fun value =>
    (node.1, node.2.1, value)

private theorem joinGroup_eq {row : Bytes × Bytes} {node : NodeRow}
    (decoded : decodeRow row = .ok node) (apart : row.1 ≠ own)
    (group : WantedKey × List Holder) :
    joinGroup row.1 node.2.2 group =
      .ok (group.1, group.2 ++ (joined own group.1 node).toList) := by
  obtain ⟨sameKey, isKey, isRecord⟩ := decodeRow_eq_ok.mp decoded
  rw [joinGroup, encodedProperty_of_decode isRecord, ok_bind, joined, sameKey, if_neg apart,
    heldAt]
  cases held : heldValue node.2.2 (ofLex group.1).1 with
  | none =>
      simp only [joinHeld, Option.bind_none, Option.map_none, Option.toList_none, List.append_nil]
  | some pair =>
      obtain ⟨value, bytes⟩ := pair
      by_cases isExact : bytes = (ofLex group.1).2
      · simp only [joinHeld, isExact, ne_eq, not_true, if_false, isKey, ok_bind, Option.bind_some,
          if_true, Option.map_some, Option.toList_some]
      · simp only [joinHeld, ne_eq, isExact, not_false_eq_true, if_true, Option.bind_some,
          if_false, Option.map_none, Option.toList_none, List.append_nil]

private theorem joinRow_eq {row : Bytes × Bytes} {node : NodeRow}
    (decoded : decodeRow row = .ok node) (wanted : List (WantedKey × List Holder)) :
    joinRow own wanted row =
      .ok (wanted.map fun group => (group.1, group.2 ++ (joined own group.1 node).toList)) := by
  obtain ⟨sameKey, -, isRecord⟩ := decodeRow_eq_ok.mp decoded
  by_cases isOwn : row.1 = own
  · have unchanged : (fun group : WantedKey × List Holder =>
        (group.1, group.2 ++ (joined own group.1 node).toList)) = id := by
      funext group
      simp [joined, sameKey, isOwn]
    rw [joinRow, if_pos isOwn, unchanged, List.map_id]
  · rw [joinRow, if_neg isOwn, isRecord, ok_bind]
    exact mapM_of_ok fun group _ => joinGroup_eq decoded isOwn group

private theorem foldlM_joinRow {stored : List (Bytes × Bytes)} {rows : List NodeRow}
    (decodes : stored.mapM decodeRow = .ok rows) (wanted : List (WantedKey × List Holder)) :
    stored.foldlM (joinRow own) wanted =
      .ok (wanted.map fun group => (group.1, group.2 ++ rows.filterMap (joined own group.1))) := by
  rw [mapM_eq_ok] at decodes
  induction decodes generalizing wanted with
  | nil => simp [pure, Except.pure]
  | @cons row node stored rows first _ ih =>
      rw [List.foldlM_cons, joinRow_eq first, ok_bind, ih, List.map_map]
      congr 2
      funext group
      rw [Function.comp_apply, List.filterMap_cons]
      cases joined own group.1 node <;> simp

def wantedMap (decl : LabelDef) (record : Cbor.NodeRecord) :
    SortedMap WantedKey (List Holder) :=
  .ofList (decl.unique.flatMap fun property => (heldValue record property).toList.map fun held =>
    (toLex (property, held.2), []))

private theorem heldAt_eq_some {property : String} {bytes : Bytes} {value : Value} :
    heldAt record property bytes = some value ↔ heldValue record property = some (value, bytes) := by
  rw [heldAt, Option.bind_eq_some_iff]
  constructor
  · rintro ⟨held, isHeld, isExact⟩
    split at isExact
    · next same =>
        cases isExact
        rw [isHeld, ← same]
    · cases isExact
  · intro isHeld
    exact ⟨_, isHeld, if_pos rfl⟩

private theorem get_wantedMap {property : String} {bytes : Bytes} {value : List Holder} :
    (wantedMap decl record).get (toLex (property, bytes)) = some value ↔
      property ∈ decl.unique ∧ (∃ held, heldAt record property bytes = some held) ∧
        value = [] := by
  rw [wantedMap, SortedMap.get_ofList_eq_some ?functional, List.mem_flatMap]
  case functional =>
    intro first isFirst second isSecond _
    obtain ⟨_, -, isFirst⟩ := List.mem_flatMap.mp isFirst
    obtain ⟨_, -, isSecond⟩ := List.mem_flatMap.mp isSecond
    obtain ⟨_, -, rfl⟩ := List.mem_map.mp isFirst
    obtain ⟨_, -, rfl⟩ := List.mem_map.mp isSecond
    rfl
  constructor
  · rintro ⟨other, member, inside⟩
    obtain ⟨⟨held, encoding⟩, isHeld, same⟩ := List.mem_map.mp inside
    obtain ⟨sameKey, rfl⟩ := Prod.mk.inj same
    obtain ⟨rfl, rfl⟩ := Prod.mk.inj (congrArg ofLex sameKey)
    exact ⟨member, ⟨held, heldAt_eq_some.mpr (Option.mem_toList.mp isHeld)⟩, rfl⟩
  · rintro ⟨member, ⟨held, isHeld⟩, rfl⟩
    exact ⟨property, member, List.mem_map.mpr
      ⟨(held, bytes), Option.mem_toList.mpr (heldAt_eq_some.mp isHeld), rfl⟩⟩

theorem get_of_heldAt {property : String} {bytes : Bytes} {value : Value}
    (held : heldAt record property bytes = some value) :
    record.properties.get property = some value := by
  rw [heldAt_eq_some, heldValue, encodedProperty] at held
  cases holds : record.properties.get property with
  | none =>
      rw [holds] at held
      cases held
  | some other =>
      rw [holds] at held
      cases encoded : Cbor.encodeValue other with
      | error cause =>
          simp [encoded, Except.mapError, Except.toOption, bind, Except.bind] at held
      | ok bytes =>
          simp [encoded, Except.mapError, Except.toOption, bind, Except.bind] at held
          rw [held.1]

/-! The groups as they are after the write. -/

private theorem reported_unfocused {label property : String} {bytes : Bytes}
    (absent : holderIn labels label property bytes own (key, record) = none) :
    reported (inFocus (some [own])) label property
      (holders labels label property bytes (nodes.put own (key, record)).entries) = none := by
  rw [reported, if_pos]
  right
  rw [List.any_eq_true]
  rintro ⟨holder, member, focused⟩
  obtain ⟨row, isRow, isHolder⟩ := List.mem_filterMap.mp member
  obtain ⟨held, holds, rfl⟩ := Option.map_eq_some_iff.mp isHolder
  have isOwn : row.1 = own := by simpa [inFocus] using focused
  have found := SortedMap.get_eq_some_iff.mpr isRow
  rw [SortedMap.get_put, if_pos isOwn.symm] at found
  rw [isOwn, ← Option.some.inj found, absent] at holds
  cases holds

def otherIn (own : Bytes) (labels : SortedMap String LabelDef) (label property : String)
    (bytes encoded : Bytes) (node : NodeKey × Cbor.NodeRecord) : Option (NodeKey × Value) :=
  if encoded = own then none else holderIn labels label property bytes encoded node

/-- The holders of a value besides the written node. -/
def othersIn (own : Bytes) (labels : SortedMap String LabelDef) (label property : String)
    (bytes : Bytes) (nodes : List NodeRow) : List Holder :=
  keyedReports nodes id (otherIn own labels label property bytes)

private theorem othersIn_ascending {label property : String} {bytes : Bytes} :
    Ascending (othersIn own labels label property bytes nodes.entries) :=
  keyedReports_ascending nodes.ascending strictMono_id _

private theorem key_of_mem_othersIn {label property : String} {bytes : Bytes} {holder : Holder}
    (member : holder ∈ othersIn own labels label property bytes nodes.entries) :
    holder.1 ≠ own := by
  obtain ⟨row, -, isHolder⟩ := List.mem_filterMap.mp member
  obtain ⟨held, holds, rfl⟩ := Option.map_eq_some_iff.mp isHolder
  intro isOwn
  have nothing : otherIn own labels label property bytes row.1 row.2 = none := if_pos isOwn
  rw [nothing] at holds
  cases holds

private theorem holders_put {label property : String} {bytes : Bytes} {value : Value}
    (holds : holderIn labels label property bytes own (key, record) = some (key, value)) :
    holders labels label property bytes (nodes.put own (key, record)).entries =
      withFocus own key value (othersIn own labels label property bytes nodes.entries) := by
  have absent : ∀ holder ∈ othersIn own labels label property bytes nodes.entries,
      holder.1 ≠ own := fun _ => key_of_mem_othersIn
  have placed : withFocus own key value (othersIn own labels label property bytes nodes.entries) =
      insertEntry own (key, value) (othersIn own labels label property bytes nodes.entries) := by
    rw [← takeWhile_cons_dropWhile absent, withFocus]
    congr!
  rw [placed]
  apply Ascending.ext
    (keyedReports_ascending (nodes.put own (key, record)).ascending strictMono_id _)
    (othersIn_ascending.insertEntry own (key, value))
  intro query
  have whole := lookup_keyedReports (nodes.put own (key, record)).ascending strictMono_id
    (holderIn labels label property bytes) query
  have others := lookup_keyedReports nodes.ascending strictMono_id
    (otherIn own labels label property bytes) query
  refine whole.trans ?_
  rw [lookup_insertEntry, show lookup query (othersIn own labels label property bytes
    nodes.entries) = _ from others]
  have entered := SortedMap.get_put nodes own (key, record) query
  simp only [SortedMap.get] at entered
  rw [entered]
  by_cases isOwn : own = query
  · subst isOwn
    rw [if_pos rfl, if_pos rfl]
    exact holds
  · rw [if_neg isOwn, if_neg isOwn]
    congr 1
    funext node
    rw [otherIn, if_neg (Ne.symm isOwn)]

private theorem reported_withFocus {label property : String} {value : Value}
    (others : List Holder) :
    reported (inFocus (some [own])) label property (withFocus own key value others) =
      if others = [] then none
      else holdersViolation label property (withFocus own key value others) := by
  have size : (withFocus own key value others).length = others.length + 1 := by
    rw [withFocus, List.length_append, List.length_cons, ← Nat.add_assoc, ← List.length_append,
      List.takeWhile_append_dropWhile]
  have focused : (withFocus own key value others).any
      (fun holder => inFocus (some [own]) holder.1) = true := by
    rw [List.any_eq_true]
    refine ⟨(own, key, value), List.mem_append_right _ List.mem_cons_self, ?_⟩
    simp [inFocus]
  rw [reported, size, focused]
  cases others with
  | nil => rfl
  | cons first rest => simp

private theorem upsert_reports (distinct : Distinct labels)
    (declared : labels.get key.label = some decl) :
    reportsOf (groupAll ((nodes.put own (key, record)).entries.flatMap (claimsIn labels)))
        (groupViolation (inFocus (some [own]))) =
      reportsOf (wantedMap decl record) fun wanted _ =>
        wantedViolation own key record wanted
          (othersIn own labels key.label (ofLex wanted).1 (ofLex wanted).2 nodes.entries) := by
  have focus : ∀ property bytes, holderIn labels key.label property bytes own (key, record) =
      if property ∈ decl.unique then
        (heldAt record property bytes).map fun value => (key, value)
      else none := by
    intro property bytes
    simp [holderIn, declares, declared]
  apply reportsOf_eq (labelKey_strictMono key.label)
  · intro wanted
    obtain ⟨property, bytes⟩ := wanted
    refine (group_reports distinct _ key.label property bytes).trans ?_
    change _ = ((wantedMap decl record).get (toLex (property, bytes))).bind fun _ =>
      wantedViolation own key record (toLex (property, bytes))
        (othersIn own labels key.label property bytes nodes.entries)
    cases found : (wantedMap decl record).get (toLex (property, bytes)) with
    | none =>
        apply reported_unfocused
        rw [focus]
        split
        · next member =>
            cases held : heldAt record property bytes with
            | none => rfl
            | some value =>
                rw [get_wantedMap.mpr ⟨member, ⟨value, held⟩, rfl⟩] at found
                cases found
        · rfl
    | some seeded =>
        obtain ⟨member, ⟨value, held⟩, rfl⟩ := get_wantedMap.mp found
        have inside : holderIn labels key.label property bytes own (key, record) =
            some (key, value) := by
          rw [focus, if_pos member, held]
          rfl
        rw [holders_put inside, Option.bind_some, wantedViolation, reported_withFocus]
        change _ = if _ then none else (record.properties.get property).bind _
        rw [get_of_heldAt held, Option.bind_some]
        rfl
  · intro group apart
    obtain ⟨other, property, bytes⟩ := group
    have isOther : key.label ≠ other := by
      rintro rfl
      exact apart (property, bytes) rfl
    refine (group_reports distinct _ other property bytes).trans ?_
    apply reported_unfocused
    exact if_neg fun both => isOther both.1

private theorem scan_reports (decodes : nodeSet snapshot = .ok nodes)
    (declared : labels.get key.label = some decl) :
    ((labelRows snapshot key.label).foldlM (joinRow own) (wantedMap decl record).entries >>=
        fun wanted => .ok (wanted.filterMap fun group =>
          wantedViolation own key record group.1 group.2)) =
      (.ok (reportsOf (wantedMap decl record) fun wanted _ =>
        wantedViolation own key record wanted
          (othersIn own labels key.label (ofLex wanted).1 (ofLex wanted).2 nodes.entries)) :
        Except ReportError (List ConstraintViolation)) := by
  rw [foldlM_joinRow (mapM_labelRows decodes key.label), ok_bind, reportsOf, List.filterMap_map]
  congr 1
  apply List.filterMap_congr
  intro group member
  obtain ⟨⟨property, bytes⟩, seeded⟩ := group
  obtain ⟨wanted, -, rfl⟩ := get_wantedMap.mp (SortedMap.get_eq_some_iff.mpr member)
  have same : (nodes.entries.filter fun node => node.2.1.label = key.label).filterMap
      (joined own (toLex (property, bytes))) =
        othersIn own labels key.label property bytes nodes.entries := by
    rw [List.filterMap_filter, othersIn, keyedReports]
    congr 1
    funext node
    have declares : declares labels key.label property = true := by
      rw [declares, declared, Option.any_some]
      exact decide_eq_true wanted
    rw [joined, otherIn, holderIn, declares]
    by_cases isOwn : node.1 = own
    · simp [isOwn]
    · by_cases same : node.2.1.label = key.label
      · simp [isOwn, same, Function.comp_def]
      · simp [isOwn, same]
  exact congrArg (wantedViolation own key record (toLex (property, bytes))) same

/-- The values of the record are all encoded, or the first failure is the
failure of both. -/
private theorem wantedGroups_eq
    (encodes : ∀ property ∈ decl.unique,
      encodedProperty record property = .ok (heldValue record property)) :
    wantedGroups decl record = .ok (wantedMap decl record).entries := by
  rw [wantedGroups, @gather_of_ok _ _ _ _ (fun property =>
    (heldValue record property).toList.map fun held => (toLex (property, held.2), []))]
  · rfl
  · intro property member
    rw [encodes property member]
    rfl

private theorem mem_put {node : NodeRow}
    (member : node ∈ (nodes.put own (key, record)).entries) :
    node = (own, key, record) ∨ node ∈ nodes.entries := by
  have found := SortedMap.get_eq_some_iff.mpr member
  rw [SortedMap.get_put] at found
  split at found
  · next isOwn =>
      left
      exact Prod.ext isOwn.symm (Option.some.inj found).symm
  · exact .inr (SortedMap.get_eq_some_iff.mp found)

private theorem checkNodes_put (decodes : nodeSet snapshot = .ok nodes)
    (encodes : ∀ decl, labels.get key.label = some decl → ∀ property ∈ decl.unique,
      encodedProperty record property = .ok (heldValue record property)) :
    checkNodes labels (nodes.put own (key, record)) (some [own]) =
      .ok (breachesOf labels (own, key, record) ++
        reportsOf (groupAll ((nodes.put own (key, record)).entries.flatMap (claimsIn labels)))
          (groupViolation (inFocus (some [own])))) := by
  have focused : (nodes.put own (key, record)).entries.filter
      (fun node => inFocus (some [own]) node.1) = [(own, key, record)] := by
    have written : (own, key, record) ∈ (nodes.put own (key, record)).entries :=
      SortedMap.get_eq_some_iff.mp (by rw [SortedMap.get_put, if_pos rfl])
    have alone := (nodes.put own (key, record)).ascending.filter_key written
    rw [← alone]
    apply List.filter_congr
    intro node _
    simp [inFocus]
  rw [checkNodes_eq, focused, List.flatMap_singleton]
  intro node member decl declared property inside
  rcases mem_put member with rfl | stored
  · exact encodes decl declared property inside
  · obtain ⟨bytes, -, isRecord⟩ := decoded_of_mem decodes stored
    exact encodedProperty_of_decode isRecord property

private theorem reports_undeclared (distinct : Distinct labels)
    (undeclared : ∀ property, declares labels key.label property = false) :
    reportsOf (groupAll ((nodes.put own (key, record)).entries.flatMap (claimsIn labels)))
      (groupViolation (inFocus (some [own]))) = [] := by
  rw [reportsOf, List.filterMap_eq_nil_iff]
  rintro ⟨⟨label, property, bytes⟩, group⟩ member
  have found : (groupAll ((nodes.put own (key, record)).entries.flatMap (claimsIn labels))).get
      (groupKey label property bytes) = some group := SortedMap.get_eq_some_iff.mpr member
  have reports := @group_reports labels (nodes.put own (key, record)).entries distinct
    (inFocus (some [own])) label property bytes
  have silent : holderIn labels label property bytes own (key, record) = none := by
    apply if_neg
    rintro ⟨same, declared⟩
    rw [← same, undeclared] at declared
    cases declared
  rw [found, reported_unfocused silent] at reports
  exact reports

/-- Where a value of the record does not encode, both checks fail on it. -/
private theorem checkNodes_put_error (decodes : nodeSet snapshot = .ok nodes)
    (declared : labels.get key.label = some decl) {cause : ReportError}
    (fails : gather (claimOf own key record) decl.unique = .error cause) :
    checkNodes labels (nodes.put own (key, record)) (some [own]) = .error cause := by
  have written : (own, key, record) ∈ (nodes.put own (key, record)).entries :=
    SortedMap.get_eq_some_iff.mp (by rw [SortedMap.get_put, if_pos rfl])
  have ownFails : claimsOf labels (own, key, record) = .error cause := by
    rw [claimsOf, declared]
    exact fails
  have claims : gather (claimsOf labels) (nodes.put own (key, record)).entries =
      .error cause := by
    apply gather_error_of_mem written ownFails
    intro node member apart
    have stored := (mem_put member).resolve_left apart
    obtain ⟨bytes, -, isRecord⟩ := decoded_of_mem decodes stored
    exact ⟨_, claimsOf_eq fun _ _ property _ => encodedProperty_of_decode isRecord property⟩
  rw [checkNodes, claims]
  rfl

private theorem wantedGroups_error {cause : ReportError}
    (fails : gather (claimOf own key record) decl.unique = .error cause) :
    wantedGroups decl record = .error cause := by
  rw [wantedGroups, gather_error_congr ?errors ?results fails]
  case errors =>
    intro property _ other failed
    rw [claimOf] at failed
    cases held : encodedProperty record property with
    | error isCause =>
        rw [held] at failed
        cases failed
        rfl
    | ok found =>
        rw [held] at failed
        cases failed
  case results =>
    intro property _ made isMade
    obtain ⟨held, isHeld, -⟩ := bind_eq_ok.mp isMade
    rw [isHeld]
    exact ⟨_, rfl⟩
  rfl

private theorem encodes_of_claims {claims : List (Grouped GroupKey Value Member)}
    (done : gather (claimOf own key record) decl.unique = .ok claims) :
    ∀ property ∈ decl.unique,
      encodedProperty record property = .ok (heldValue record property) := by
  intro property member
  obtain ⟨_, isClaim, -⟩ := gather_eq_ok done member
  obtain ⟨_, isHeld, -⟩ := bind_eq_ok.mp isClaim
  exact encodedProperty_eq isHeld

private theorem checkUpsert_constrained (decodes : nodeSet snapshot = .ok nodes)
    (distinct : Distinct labels) (declared : labels.get key.label = some decl) :
    (do
      let wanted ← wantedGroups decl record
      let wanted ← if wanted.isEmpty then .ok wanted
        else (labelRows snapshot key.label).foldlM (joinRow own) wanted
      .ok (nodeViolations key record decl ++
        wanted.filterMap fun (wantedKey, holders) =>
          wantedViolation own key record wantedKey holders)) =
      checkNodes labels (nodes.put own (key, record)) (some [own]) := by
  cases claims : gather (claimOf own key record) decl.unique with
  | error cause =>
      rw [wantedGroups_error claims, checkNodes_put_error decodes declared claims]
      rfl
  | ok found =>
      have encodes := encodes_of_claims claims
      have breaches : breachesOf labels (own, key, record) = nodeViolations key record decl := by
        rw [breachesOf, declared]
      have same : ∀ other, labels.get key.label = some other → ∀ property ∈ other.unique,
          encodedProperty record property = .ok (heldValue record property) := by
        intro other isOther
        rw [declared] at isOther
        cases isOther
        exact encodes
      rw [checkNodes_put decodes same, breaches, upsert_reports distinct declared,
        wantedGroups_eq encodes, ok_bind]
      have joins := @foldlM_joinRow own _ _ (mapM_labelRows decodes key.label) (wantedMap decl record).entries
      have reports := @scan_reports _ _ _ _ record own _ decodes declared
      rw [joins, ok_bind] at reports
      have listed := congrArg (fun violations =>
        (.ok (nodeViolations key record decl ++ violations) :
          Except ReportError (List ConstraintViolation))) (Except.ok.inj reports)
      dsimp only
      split
      · next empty =>
          rw [List.isEmpty_iff.mp empty] at listed ⊢
          exact listed
      · rw [joins]
        exact listed

/-- A write is checked as the whole check would once it is made, with it in
focus. -/
theorem checkUpsert_eq (reads : labelDefs snapshot = .ok labels)
    (decodes : nodeSet snapshot = .ok nodes) (encoded : key.encode = .ok own) :
    checkUpsert snapshot key record =
      checkNodes labels (nodes.put own (key, record)) (some [own]) := by
  have distinct := distinct_of_labelDefs reads
  obtain ⟨entries, read, ⟨⟩⟩ := bind_eq_ok.mp reads
  rw [checkUpsert, read, ok_bind, lookup_eq_get read]
  cases declared : (SortedMap.ofList (entries.filterMap labelPair?)).get key.label with
  | none =>
      have none_ : ∀ property, declares (.ofList (entries.filterMap labelPair?)) key.label
          property = false := by
        intro property
        rw [declares, declared]
        rfl
      rw [checkNodes_put decodes (by simp [declared]), reports_undeclared distinct none_, breachesOf,
        declared]
      rfl
  | some decl =>
      by_cases free : unconstrained decl = true
      · have none_ : ∀ property, declares (.ofList (entries.filterMap labelPair?)) key.label
            property = false := by
          intro property
          rw [declares, declared, Option.any_some, (silent_of_unconstrained free).2.1]
          rfl
        have encodes : ∀ other, (SortedMap.ofList (entries.filterMap labelPair?)).get key.label =
            some other → ∀ property ∈ other.unique,
              encodedProperty record property = .ok (heldValue record property) := by
          intro other isOther property member
          rw [declared] at isOther
          cases isOther
          rw [(silent_of_unconstrained free).2.1] at member
          cases member
        rw [checkNodes_put decodes encodes, reports_undeclared distinct none_, breachesOf, declared]
        simp only [free, if_true, nodeViolations_of_unconstrained free]
        rfl
      · simp only [free, encoded]
        exact checkUpsert_constrained decodes distinct declared

end

/-- Over any snapshot whose rows decode, the check of a write lists what the whole
check lists once it is made, with the written key in focus, and the check of a
declaration what the whole check lists under it alone. -/
theorem streamed_checks_agree {snapshot : Snapshot} {nodes : NodeSet}
    (decodes : nodeSet snapshot = .ok nodes) :
    (∀ labels, labelDefs snapshot = .ok labels →
      ∀ key record own, NodeKey.encode key = .ok own →
        checkUpsert snapshot key record =
          checkNodes labels (nodes.put own (key, record)) (some [own])) ∧
      ∀ label decl, (SchemaEntry.label label decl).Built →
        checkLabel snapshot label decl = checkNodes (.ofList [(label, decl)]) nodes none := by
  constructor
  · intro labels reads key record own encoded
    exact checkUpsert_eq reads decodes encoded
  · intro label decl built
    obtain ⟨_, _, _, _, _, made⟩ := built
    exact checkLabel_eq decodes (unique_nodup_of_build made)

/-! Two hosts that share an address, and a third that is to have it too. -/

theorem name_present : ["name"] ≠ [] := List.cons_ne_nil _ _

theorem name_once : ["name"].Nodup := List.nodup_singleton _

theorem address_apart : ∀ name ∈ ["address"], name ∉ ["name"] := by decide

theorem host_checked (name : String) : checkNodeKey "Host" [.string name] = .ok () := rfl

def hostDecl : LabelDef :=
  ⟨["name"], false, .empty, ["address"], ["address"], name_present, name_once, address_apart⟩

def hostKey (name : String) : NodeKey :=
  ⟨"Host", [.string name], host_checked name⟩

def hostRecord (address : Int64) : Cbor.NodeRecord :=
  .new [] (.ofList [("address", .int address)])

def hostRow (name : String) (address : Int64) : Bytes × Bytes :=
  ((hostKey name).encode.toOption.getD [], (hostRecord address).encode.toOption.getD [])

def hosts : Snapshot where
  schema := .ofList [(SchemaEntry.mapKey (.label "Host" hostDecl),
    Cbor.encodeEntry (.label "Host" hostDecl))]
  nodes := .ofList [hostRow "alpha" 7, hostRow "gamma" 7]

theorem streamed_checks_agree_hosts :
    ∃ nodes labels own,
      nodeSet hosts = .ok nodes ∧ labelDefs hosts = .ok labels ∧
        (hostKey "beta").encode = .ok own ∧
        checkNodes labels (nodes.put own (hostKey "beta", hostRecord 7)) (some [own]) =
          .ok [.unique "Host" "address" (.int 7)
            [hostKey "alpha", hostKey "beta", hostKey "gamma"]] ∧
        checkNodes (.ofList [("Host", hostDecl)]) nodes none =
          .ok [.unique "Host" "address" (.int 7) [hostKey "alpha", hostKey "gamma"]] := by
  have someNodes : (nodeSet hosts).toOption.isSome = true := by decide +kernel
  have someLabels : (labelDefs hosts).toOption.isSome = true := by decide +kernel
  have someKey : (hostKey "beta").encode.toOption.isSome = true := by decide +kernel
  have built : (SchemaEntry.label "Host" hostDecl).Built :=
    ⟨["name"], false, .empty, ["address"], ["address"], by decide +kernel⟩
  rcases decodes : nodeSet hosts with cause | nodes
  · rw [decodes] at someNodes
    cases someNodes
  rcases reads : labelDefs hosts with cause | labels
  · rw [reads] at someLabels
    cases someLabels
  rcases encoded : (hostKey "beta").encode with cause | own
  · rw [encoded] at someKey
    cases someKey
  have agree := streamed_checks_agree decodes
  refine ⟨nodes, labels, own, rfl, rfl, rfl, ?_, ?_⟩
  · rw [← agree.1 labels reads (hostKey "beta") (hostRecord 7) own encoded]
    decide +kernel
  · rw [← agree.2 "Host" hostDecl built]
    decide +kernel

end Acetone.Graph.Reports

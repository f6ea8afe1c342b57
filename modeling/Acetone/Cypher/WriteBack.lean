import Acetone.Cypher.Persist
import Acetone.Graph.Validity

/-!
# Writing back what was read

An entity read from the store and persisted unchanged is staged as it was
stored, or refused.  Key values are folded into the properties on reading and
split out again on writing; the label that declares the key decides where the
split is.
-/

namespace Acetone.Cypher

open Acetone.Lib Acetone.Model
open Acetone.Graph (Transaction Manifest)

namespace Persist

private theorem notTooDeep {value stored : Model.Value} {depth : Nat}
    (stores : storeValue value depth = .ok stored) : ¬ depth ≥ maxValueDepth := by
  intro tooDeep
  have beyond : depth > maxDepth := lt_of_lt_of_le (by decide) tooDeep
  rw [storeValue.eq_def, if_pos beyond] at stores
  cases stores

mutual

/-- A stored value survives its stay among the runtime values. -/
theorem convertValueAt_roundTrip {value stored : Model.Value} {depth : Nat}
    (stores : storeValue value depth = .ok stored) :
    convertValueAt (Adapter.convertValueAt value depth) depth = .ok value := by
  have within := notTooDeep stores
  cases value with
  | list items =>
      have notDeeper : ¬ depth > maxDepth := by
        intro tooDeep
        rw [storeValue.eq_def, if_pos tooDeep] at stores
        cases stores
      simp only [storeValue, if_neg notDeeper, bind_eq_ok] at stores
      obtain ⟨kept, storesItems, -⟩ := stores
      rw [Adapter.convertValueAt.eq_def, if_neg within]
      simp only [convertValueAt, if_neg within, convertValuesAt_roundTrip storesItems, ok_bind]
  | _ =>
      rw [Adapter.convertValueAt.eq_def, if_neg within]
      simp only [convertValueAt, if_neg within]

theorem convertValuesAt_roundTrip {values stored : List Model.Value} {depth : Nat}
    (stores : storeValues values depth = .ok stored) :
    convertValuesAt (Adapter.convertValuesAt values depth) depth = .ok values := by
  cases values with
  | nil => rfl
  | cons value values =>
      rw [storeValues] at stores
      simp only [bind_eq_ok] at stores
      obtain ⟨first, storesFirst, others, storesOthers, -⟩ := stores
      rw [Adapter.convertValuesAt, convertValuesAt, convertValueAt_roundTrip storesFirst, ok_bind,
        convertValuesAt_roundTrip storesOthers, ok_bind]

end

theorem convertValue_roundTrip (value : StoredValue) :
    convertValue (Adapter.convertValue value.val) = .ok value.val :=
  convertValueAt_roundTrip value.property

/-- Where a property was read from the store, it is stored as it was. -/
theorem get_of_convertMap {properties : Properties} {converted : PropertyMap}
    {drafted : SortedMap String Model.Value} {name : String}
    (drafts : convertMap converted = .ok drafted)
    (fromStored : converted.get name =
      (properties.get name).map fun value => Adapter.convertValue value.val) :
    drafted.get name = (properties.get name).map fun value => value.val := by
  ext value
  rw [SortedMap.get_mapValuesM drafts, fromStored]
  cases properties.get name with
  | none => simp
  | some stored =>
      simp only [Option.map_some, Option.some.injEq, exists_eq_left', convertValue_roundTrip,
        Except.ok.injEq]

theorem encodeProperties_kept {properties encoded : Properties}
    {drafted : SortedMap String Model.Value} {name : String}
    (encodes : encodeProperties drafted = .ok encoded)
    (fromStored : drafted.get name = (properties.get name).map fun value => value.val) :
    encoded.get name = properties.get name := by
  ext value
  rw [SortedMap.get_mapValuesM encodes, fromStored]
  cases properties.get name with
  | none => simp
  | some stored =>
      simp only [Option.map_some, Option.some.injEq, exists_eq_left', mapError_eq_ok,
        encodeValue_stored, Except.ok.injEq]

end Persist

namespace Adapter

private theorem get_foldKey (pairs : List (String × Model.Value)) (properties : PropertyMap)
    (name : String) :
    (pairs.foldl (fun properties (name, value) =>
      if (properties.get name).isSome then properties
      else properties.put name (convertValue value)) properties).get name =
      (properties.get name).or ((pairs.lookup name).map convertValue) := by
  induction pairs generalizing properties with
  | nil => simp
  | cons pair pairs ih =>
      obtain ⟨key, value⟩ := pair
      rw [List.foldl_cons, ih, List.lookup_cons]
      by_cases same : name = key
      · subst same
        cases found : properties.get name with
        | some stored => simp [found]
        | none => simp [found, SortedMap.get_put]
      · cases found : properties.get key with
        | some stored => simp [found, beq_eq_false_iff_ne.mpr same]
        | none => simp [found, SortedMap.get_put, Ne.symm same, beq_eq_false_iff_ne.mpr same]

theorem get_convertMap (properties : Properties) (name : String) :
    (convertMap properties).get name =
      (properties.get name).map fun value => convertValue value.val :=
  SortedMap.get_mapValues _ properties name

theorem get_nodeValue {catalogue : Catalogue} {key : NodeKey} {decl : LabelDef}
    (declared : catalogue.label key.label = some decl) (record : NodeRecord) (name : String) :
    (nodeValue catalogue key record).properties.get name =
      ((record.properties.get name).map fun value => convertValue value.val).or
        (((decl.key.zip key.key).lookup name).map convertValue) := by
  simp only [nodeValue, declared]
  rw [get_foldKey, get_convertMap]

theorem mem_secondaryList {record : NodeRecord} {label : String} :
    label ∈ secondaryList record ↔ label ∈ record.secondaryLabels := by
  rw [secondaryList, List.mem_insertionSort, Finset.mem_sort]

theorem nodeEntityId_of_decode {bytes : Bytes} {key : NodeKey}
    (stored : NodeKey.decode bytes = .ok key) : nodeEntityId key = bytes := by
  rw [nodeEntityId, NodeKey.encode_of_decode stored]
  rfl

end Adapter

namespace Persist

/-- What an accepted derivation found: one keyed label, which names the key. -/
theorem nodeKeyAndRecord_eq_ok {catalogue : Catalogue} {node : NodeValue} {draft : NodeDraft}
    (made : nodeKeyAndRecord catalogue node = .ok draft) :
    ∃ decl, keyedLabels catalogue node.labels = [(draft.key.label, decl)] ∧
      decl.key.mapM (keyValue node draft.key.label) = .ok draft.key.key ∧
      draft.secondaryLabels = node.labels.filter (· ≠ draft.key.label) ∧
      convertMap (node.properties.filterKeys (· ∉ decl.key)) = .ok draft.properties := by
  rw [nodeKeyAndRecord] at made
  split at made
  · cases made
  · cases made
  · next primary decl keyed =>
      obtain ⟨values, areValues, made⟩ := bind_eq_ok.mp made
      obtain ⟨key, makes, made⟩ := bind_eq_ok.mp made
      obtain ⟨properties, converts, ⟨⟩⟩ := bind_eq_ok.mp made
      obtain ⟨rfl, rfl⟩ := NodeKey.new_eq_ok.mp (ofKey_eq_ok.mp makes)
      exact ⟨decl, keyed, areValues, rfl, converts⟩

theorem mem_keyedLabels {catalogue : Catalogue} {labels : List String} {label : String}
    {decl : LabelDef} : (label, decl) ∈ keyedLabels catalogue labels ↔
      label ∈ labels ∧ catalogue.label label = some decl ∧ decl.key ≠ [] := by
  simp [keyedLabels, Option.filter_eq_some_iff]

private theorem primary_once {catalogue : Catalogue} {labels : List String} {primary : String}
    {decl : LabelDef}
    (keyed : keyedLabels catalogue (primary :: labels) = [(primary, decl)]) :
    primary ∉ labels := by
  have declared : (primary, decl) ∈ keyedLabels catalogue (primary :: labels) := by
    rw [keyed]
    exact List.mem_singleton_self _
  obtain ⟨-, isDecl, filled⟩ := mem_keyedLabels.mp declared
  have split : keyedLabels catalogue (primary :: labels) =
      (primary, decl) :: keyedLabels catalogue labels := by
    rw [keyedLabels, List.filterMap_cons_some]
    · rfl
    · simp [isDecl, filled]
  rw [split] at keyed
  intro again
  have member : (primary, decl) ∈ keyedLabels catalogue labels :=
    mem_keyedLabels.mpr ⟨again, isDecl, filled⟩
  rw [(List.cons.inj keyed).2] at member
  cases member

/-- An accepted node that was stored has kept its key. -/
theorem key_of_checkIdentity {base : Manifest} {deleted : List Bytes} {bytes : Bytes} {key : NodeKey} {draft : NodeDraft} {encoded : Bytes}
    (stored : NodeKey.decode bytes = .ok key) (encodes : draft.key.encode = .ok encoded)
    (keeps : checkIdentity base deleted bytes draft.key encoded = .ok ()) :
    encoded = bytes ∧ draft.key.label = key.label := by
  rw [checkIdentity, stored] at keeps
  obtain ⟨original, isOriginal, keeps⟩ := bind_eq_ok.mp keeps
  rw [ofKey_eq_ok, NodeKey.encode_of_decode stored, Except.ok.injEq] at isOriginal
  have same : encoded = bytes := by
    rw [isOriginal]
    by_contra differs
    rw [if_pos (Ne.symm differs)] at keeps
    cases keeps
  subst same
  obtain ⟨again, decodes, sameLabel, -⟩ := NodeKey.decode_of_encode encodes
  rw [stored, Except.ok.injEq] at decodes
  exact ⟨rfl, by rw [decodes, sameLabel]⟩

variable {catalogue : Catalogue} {base : Manifest} {txn after : Transaction}

/-- What a put of an accepted node stages: the secondary labels, and outside the
declared key every property that is as it was stored. -/
theorem putNode_record {node : NodeValue} {draft : NodeDraft}
    (made : nodeKeyAndRecord catalogue node = .ok draft) {bytes : Bytes}
    (encodes : draft.key.encode = .ok bytes) (puts : putNode txn draft = .ok after) :
    ∃ decl record, keyedLabels catalogue node.labels = [(draft.key.label, decl)] ∧
      after = { txn with nodes := txn.nodes ++ [.put bytes record] } ∧
      record.secondaryLabels = (node.labels.filter (· ≠ draft.key.label)).toFinset ∧
      (∀ name ∈ decl.key, record.properties.get name = none) ∧
      ∀ name ∉ decl.key, ∀ properties : Properties, node.properties.get name =
        (properties.get name).map (fun value => Adapter.convertValue value.val) →
        record.properties.get name = properties.get name := by
  obtain ⟨decl, keyed, -, secondary, converts⟩ := nodeKeyAndRecord_eq_ok made
  obtain ⟨properties, encodesAll, puts⟩ := bind_eq_ok.mp puts
  rw [ofGraph_eq_ok, Transaction.putNode] at puts
  obtain ⟨written, isWritten, ⟨⟩⟩ := bind_eq_ok.mp puts
  rw [Graph.liftKey_eq_ok, encodes, Except.ok.injEq] at isWritten
  refine ⟨decl, _, keyed, by rw [isWritten], by rw [secondary], ?_, ?_⟩
  · intro name isKey
    have absent : draft.properties.get name =
        ((SortedMap.empty : Properties).get name).map fun value => value.val := by
      apply get_of_convertMap converts
      rw [SortedMap.get_filterKeys]
      simp [isKey, SortedMap.get, SortedMap.empty]
    exact encodeProperties_kept encodesAll absent
  · intro name notKey stored fromStored
    apply encodeProperties_kept encodesAll
    apply get_of_convertMap converts
    rw [SortedMap.get_filterKeys]
    simpa [notKey] using fromStored

theorem get_nodeValue_of_notKey {key : NodeKey} {decl : LabelDef}
    (declared : catalogue.label key.label = some decl) (record : NodeRecord) {name : String}
    (notKey : name ∉ decl.key) : (Adapter.nodeValue catalogue key record).properties.get name =
      (record.properties.get name).map fun value => Adapter.convertValue value.val := by
  have unlisted : (decl.key.zip key.key).lookup name = none := by
    rw [List.lookup_eq_none_iff]
    intro pair member
    exact bne_iff_ne.mpr fun same : name = pair.1 =>
      notKey (same ▸ (List.of_mem_zip member).1)
  rw [Adapter.get_nodeValue declared, unlisted, Option.map_none, Option.or_none]

theorem label_of_keyed {labels : List String} {primary : String} {decl : LabelDef}
    (keyed : keyedLabels catalogue labels = [(primary, decl)]) :
    catalogue.label primary = some decl := by
  have member : (primary, decl) ∈ keyedLabels catalogue labels := by
    rw [keyed]
    exact List.mem_singleton_self _
  exact (mem_keyedLabels.mp member).2.1

/-- The labels beside the one keyed label are the secondary ones. -/
theorem secondary_of_keyed {key : NodeKey} {record : NodeRecord} {decl : LabelDef}
    (keyed : keyedLabels catalogue (Adapter.nodeValue catalogue key record).labels =
      [(key.label, decl)]) :
    ((Adapter.nodeValue catalogue key record).labels.filter (· ≠ key.label)).toFinset =
      record.secondaryLabels := by
  have once : key.label ∉ Adapter.secondaryList record := primary_once keyed
  ext label
  rw [List.mem_toFinset, Adapter.nodeValue, List.mem_filter,
    ← Adapter.mem_secondaryList, List.mem_cons, decide_eq_true_iff]
  constructor
  · rintro ⟨isPrimary | member, other⟩
    · exact absurd isPrimary other
    · exact member
  · intro member
    exact ⟨.inr member, fun isPrimary => once (isPrimary ▸ member)⟩

private theorem putNode_readBack {bytes : Bytes} {key : NodeKey} {record : NodeRecord}
    {draft : NodeDraft} (apart : ∀ decl, catalogue.label key.label = some decl →
      ∀ name ∈ decl.key, record.properties.get name = none)
    (made : nodeKeyAndRecord catalogue (Adapter.nodeValue catalogue key record) = .ok draft)
    (sameLabel : draft.key.label = key.label) (encodes : draft.key.encode = .ok bytes)
    (puts : putNode txn draft = .ok after) :
    after = { txn with nodes := txn.nodes ++ [.put bytes record] } := by
  obtain ⟨decl, put, keyed, isAfter, secondary, inKey, outside⟩ :=
    putNode_record made encodes puts
  rw [sameLabel] at keyed secondary
  have declared := label_of_keyed keyed
  have sameRecord : put = record := by
    have sameProperties : put.properties = record.properties := by
      apply SortedMap.ext_get
      intro name
      by_cases isKey : name ∈ decl.key
      · rw [inKey name isKey, apart decl declared name isKey]
      · exact outside name isKey record.properties
          (get_nodeValue_of_notKey declared record isKey)
    cases put
    cases record
    rw [NodeRecord.mk.injEq]
    exact ⟨secondary.trans (secondary_of_keyed keyed), sameProperties⟩
  rw [isAfter, sameRecord]

/-- A storage key starts with a list, an overlay id does not. -/
private theorem head_ne_overlayIdTag {node : NodeKey} {rest : List Model.Value} {bytes : Bytes}
    (encodes : encodeKey (node.toValue :: rest) = .ok bytes) :
    bytes.head? ≠ some overlayIdTag := by
  rw [encodeKey, writeElements] at encodes
  obtain ⟨leading, isLeading, rest, -, ⟨⟩⟩ := by simpa only [bind_eq_ok] using encodes
  rw [NodeKey.toValue, writeElement, if_neg (by decide)] at isLeading
  obtain ⟨body, -, ⟨⟩⟩ := bind_eq_ok.mp isLeading
  intro isTag
  exact absurd (Option.some.inj isTag) (by decide)

theorem notOverlay_node {bytes : Bytes} {key : NodeKey}
    (stored : NodeKey.decode bytes = .ok key) : bytes.head? ≠ some overlayIdTag :=
  head_ne_overlayIdTag (liftEncode_eq_ok.mp (NodeKey.encode_of_decode stored))

private theorem notOverlay {bytes : Bytes} {edge : EdgeKey}
    (stored : EdgeKey.decodeFwd bytes = .ok edge) : bytes.head? ≠ some overlayIdTag :=
  head_ne_overlayIdTag (liftEncode_eq_ok.mp (EdgeKey.encodeFwd_of_decodeFwd stored))

theorem boundEdgeKey_stored {entityToKey : List (EntityId × NodeKey)} {rel : RelValue}
    {edge : EdgeKey} (stored : EdgeKey.decodeFwd rel.id = .ok edge) :
    boundEdgeKey entityToKey rel = .ok edge := by
  rw [boundEdgeKey, if_pos (notOverlay stored), stored]

theorem relEntityId_of_decode {bytes : Bytes} {edge : EdgeKey}
    (stored : EdgeKey.decodeFwd bytes = .ok edge) : Adapter.relEntityId edge = bytes := by
  rw [Adapter.relEntityId, EdgeKey.encodeFwd_of_decodeFwd stored]
  rfl

/-- The discriminator is split off, and nothing else. -/
private theorem get_modifiedProperties {edge : EdgeKey}
    {drafted kept : SortedMap String Model.Value}
    (keeps : modifiedProperties catalogue edge drafted = .ok kept) (name : String) :
    kept.get name =
      if catalogue.discriminator edge.rtype = some name then none else drafted.get name := by
  cases declared : catalogue.discriminator edge.rtype with
  | none =>
      simp only [modifiedProperties, declared, Except.ok.injEq] at keeps
      rw [← keeps]
      simp
  | some disc =>
      simp only [modifiedProperties, declared] at keeps
      split at keeps
      · cases keeps
        rw [SortedMap.get_delete]
        simp
      · cases keeps

/-- What a change of a stored relationship stages: outside the discriminator
every property that is as it was stored. -/
theorem modifyRel_record {entityToKey : List (EntityId × NodeKey)} {rel : RelValue}
    {edge : EdgeKey} (stored : EdgeKey.decodeFwd rel.id = .ok edge)
    (modifies : modifyRel catalogue entityToKey txn rel = .ok after) :
    ∃ backward record, edge.encodeRev = .ok backward ∧
      after = { txn with
        edgesFwd := txn.edgesFwd ++ [.put rel.id record]
        edgesRev := txn.edgesRev ++ [.put backward ()] } ∧
      (∀ name, catalogue.discriminator edge.rtype = some name →
        record.properties.get name = none) ∧
      ∀ name, catalogue.discriminator edge.rtype ≠ some name → ∀ properties : Properties,
        rel.properties.get name =
          (properties.get name).map (fun value => Adapter.convertValue value.val) →
        record.properties.get name = properties.get name := by
  rw [modifyRel, boundEdgeKey_stored stored, ok_bind] at modifies
  obtain ⟨drafted, drafts, modifies⟩ := bind_eq_ok.mp modifies
  obtain ⟨kept, keeps, modifies⟩ := bind_eq_ok.mp modifies
  rw [putEdge] at modifies
  obtain ⟨⟨⟩, -, modifies⟩ := bind_eq_ok.mp modifies
  obtain ⟨properties, encodes, puts⟩ := bind_eq_ok.mp modifies
  rw [ofGraph_eq_ok, Transaction.putEdge] at puts
  obtain ⟨forward, isForward, puts⟩ := bind_eq_ok.mp puts
  obtain ⟨backward, isBackward, ⟨⟩⟩ := bind_eq_ok.mp puts
  rw [Graph.liftKey_eq_ok, EdgeKey.encodeFwd_of_decodeFwd stored, Except.ok.injEq] at isForward
  refine ⟨backward, ⟨properties⟩, Graph.liftKey_eq_ok.mp isBackward, by rw [isForward], ?_, ?_⟩
  · intro name isDisc
    apply @encodeProperties_kept .empty _ _ name encodes
    rw [get_modifiedProperties keeps, if_pos isDisc]
    rfl
  · intro name notDisc recorded fromStored
    apply encodeProperties_kept encodes
    rw [get_modifiedProperties keeps, if_neg notDisc]
    exact get_of_convertMap drafts fromStored

theorem get_relValue_of_notDisc (edge : EdgeKey) (record : EdgeRecord) {name : String}
    (notDisc : catalogue.discriminator edge.rtype ≠ some name) :
    (Adapter.relValue catalogue edge record).properties.get name =
      (record.properties.get name).map fun value => Adapter.convertValue value.val := by
  cases declared : catalogue.discriminator edge.rtype with
  | none =>
      simp only [Adapter.relValue, declared]
      exact Adapter.get_convertMap record.properties name
  | some disc =>
      have differs : disc ≠ name := fun same => notDisc (declared.trans (congrArg some same))
      simp only [Adapter.relValue, declared]
      rw [SortedMap.get_put, if_neg differs, Adapter.get_convertMap]

private theorem modifyRel_readBack {bytes : Bytes} {edge : EdgeKey} {record : EdgeRecord}
    (stored : EdgeKey.decodeFwd bytes = .ok edge)
    (apart : ∀ name, catalogue.discriminator edge.rtype = some name →
      record.properties.get name = none)
    (modifies : modifyRel catalogue [] txn (Adapter.relValue catalogue edge record) =
      .ok after) :
    ∃ backward, edge.encodeRev = .ok backward ∧ after = { txn with
      edgesFwd := txn.edgesFwd ++ [.put bytes record]
      edgesRev := txn.edgesRev ++ [.put backward ()] } := by
  have isId : (Adapter.relValue catalogue edge record).id = bytes := relEntityId_of_decode stored
  obtain ⟨backward, put, isBackward, isAfter, inKey, outside⟩ :=
    modifyRel_record (isId ▸ stored) modifies
  have sameRecord : put = record := by
    apply congrArg EdgeRecord.mk
    apply SortedMap.ext_get
    intro name
    by_cases isDisc : catalogue.discriminator edge.rtype = some name
    · rw [inKey name isDisc, apart name isDisc]
    · exact outside name isDisc record.properties (get_relValue_of_notDisc edge record isDisc)
  exact ⟨backward, isBackward, by rw [isAfter, sameRecord, isId]⟩

end Persist

def WriteChanges.none : WriteChanges := ⟨[], [], [], [], []⟩

def WriteChanges.ofNode (node : NodeValue) : WriteChanges :=
  { none with upsertedNodes := [node] }

def WriteChanges.ofRel (rel : RelValue) : WriteChanges :=
  { none with modifiedRels := [rel] }

open Persist in
/-- A node or an edge that is read and persisted unchanged is refused, or staged
with its key and its record.  The record must not repeat what the key holds. -/
theorem persistChanges_readBack (catalogue : Catalogue) (base : Manifest)
    (txn after : Transaction) (bytes : Bytes) :
    (∀ key record, NodeKey.decode bytes = .ok key →
      (∀ decl, catalogue.label key.label = some decl → ∀ name ∈ decl.key,
        record.properties.get name = none) →
      persistChanges (.ofNode (Adapter.nodeValue catalogue key record)) txn catalogue base =
        .ok after →
      after = { txn with nodes := txn.nodes ++ [.put bytes record] }) ∧
    (∀ edge record, EdgeKey.decodeFwd bytes = .ok edge →
      (∀ name, catalogue.discriminator edge.rtype = some name →
        record.properties.get name = none) →
      persistChanges (.ofRel (Adapter.relValue catalogue edge record)) txn catalogue base =
        .ok after →
      ∃ backward, edge.encodeRev = .ok backward ∧ after = { txn with
        edgesFwd := txn.edgesFwd ++ [.put bytes record]
        edgesRev := txn.edgesRev ++ [.put backward ()] }) := by
  constructor
  · intro key record stored apart accepts
    simp only [persistChanges, WriteChanges.ofNode, WriteChanges.none, List.foldlM_cons,
      List.foldlM_nil, bind_pure, if_true] at accepts
    obtain ⟨derived, derives, accepts⟩ := bind_eq_ok.mp accepts
    obtain ⟨-, -, accepts⟩ := bind_eq_ok.mp accepts
    rw [deriveNode] at derives
    obtain ⟨draft, made, derives⟩ := bind_eq_ok.mp derives
    obtain ⟨encoded, encodes, derives⟩ := bind_eq_ok.mp derives
    obtain ⟨⟨⟩, keeps, derives⟩ := bind_eq_ok.mp derives
    rw [Adapter.nodeValue, Adapter.nodeEntityId_of_decode stored] at keeps
    obtain ⟨rfl, sameLabel⟩ := key_of_checkIdentity stored (ofKey_eq_ok.mp encodes) keeps
    rw [if_neg List.not_mem_nil, Except.ok.injEq] at derives
    subst derives
    simp only [pure_bind, List.nil_append, List.map_cons, List.map_nil, List.foldlM_cons,
      List.foldlM_nil, bind_pure] at accepts
    obtain ⟨staged, puts, ⟨⟩⟩ := bind_eq_ok.mp accepts
    exact putNode_readBack apart made sameLabel (ofKey_eq_ok.mp encodes) puts
  · intro edge record stored apart accepts
    simp only [persistChanges, WriteChanges.ofRel, WriteChanges.none, List.foldlM_cons,
      List.foldlM_nil, bind_pure, if_true, ok_bind] at accepts
    exact modifyRel_readBack stored apart accepts

/-- Persons by `id`, ratings told apart by `year`. -/
def ratedCatalogue : Catalogue := .fromEntries
  [.label "Person" Graph.personLabel, .relType "Rated" ⟨some "year", .empty, []⟩]

def ratedEdge : EdgeKey := ⟨Graph.person 1, "Rated", Graph.person 2, .int 2024, rfl⟩

def signedRecord : NodeRecord :=
  ⟨{"Author"}, .ofList [("marks", ⟨.list [.bytes [1, 2], .float 0], rfl⟩)]⟩

def starRecord : EdgeRecord := ⟨.ofList [("on", ⟨.date ⟨19000⟩, rfl⟩)]⟩

def afterWriteBack (changes : WriteChanges) : Option Transaction :=
  (persistChanges changes (.beginWrite Graph.blank) ratedCatalogue
    Graph.blank.manifest).toOption

def personBytes : Bytes := (Graph.person 1).encode.toOption.getD []

def ratedBytes : Bytes := ratedEdge.encodeFwd.toOption.getD []

theorem persistChanges_readBack_rated :
    (∃ after, afterWriteBack (.ofNode (Adapter.nodeValue ratedCatalogue (Graph.person 1)
        signedRecord)) = some after ∧ after.nodes = [.put personBytes signedRecord]) ∧
    (∃ after, afterWriteBack (.ofRel (Adapter.relValue ratedCatalogue ratedEdge starRecord)) =
        some after ∧ after.edgesFwd = [.put ratedBytes starRecord]) := by
  constructor
  · have accepted : (afterWriteBack (.ofNode (Adapter.nodeValue ratedCatalogue (Graph.person 1)
        signedRecord))).isSome := by decide +kernel
    obtain ⟨after, isAfter⟩ := Option.isSome_iff_exists.mp accepted
    refine ⟨after, isAfter, ?_⟩
    rw [(persistChanges_readBack _ _ _ after personBytes).1 _ _ (by decide +kernel)
      (by decide +kernel) (mem_toOption.mp isAfter)]
    rfl
  · have accepted : (afterWriteBack (.ofRel (Adapter.relValue ratedCatalogue ratedEdge
        starRecord))).isSome := by decide +kernel
    obtain ⟨after, isAfter⟩ := Option.isSome_iff_exists.mp accepted
    refine ⟨after, isAfter, ?_⟩
    obtain ⟨backward, -, isStaged⟩ := (persistChanges_readBack _ _ _ after ratedBytes).2 _ _
      (by decide +kernel) (by decide +kernel) (mem_toOption.mp isAfter)
    rw [isStaged]
    rfl

end Acetone.Cypher

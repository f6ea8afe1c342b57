import Acetone.Graph.MergeSymmetry
import Acetone.Graph.TypedSaves
import Acetone.Model.ValueRoundTrip
import Acetone.Prolly.Node

/-!
# Entries of the conflicts map

A conflicted merge leaves a map whose keys say what is disputed.  Fields that
vary in length are written behind their lengths, so two entries never run into
each other, and an entry begins with the prefix of a map key exactly when its
conflict is a cell of that key.
-/

namespace Acetone.Graph

open Acetone.Lib Acetone.Model

inductive EntryError where
  | corruptConflicts (reason : String)
  | keyTooLong (length : Nat)
deriving DecidableEq, Repr

namespace Entries

def kindCell : UInt8 := 0
def kindGraph : UInt8 := 1

def mapTag : ConflictMap → UInt8
  | .schema => 0
  | .nodes => 1
  | .edges => 2

def mapFromTag (tag : UInt8) : Option ConflictMap :=
  if tag = 0 then some .schema
  else if tag = 1 then some .nodes
  else if tag = 2 then some .edges
  else none

/-- A field behind its length, which is cut to 32 bits. -/
def pushField (bytes : Bytes) : Bytes := beBytes 4 (bytes.length % 2 ^ 32) ++ bytes

def optionalField : Option String → Bytes
  | some name => 1 :: pushField (utf8 name)
  | none => [0]

def cellKeyPrefix (map : ConflictMap) (key : Bytes) : Bytes :=
  kindCell :: mapTag map :: pushField key

def roleTag : Endpoint → UInt8
  | .src => 0
  | .dst => 1

def sharedBytes (value : StoredValue) : Bytes :=
  match Cbor.encodeValue value.val with
  | .ok bytes => bytes
  | .error _ => []

/-- What a violation's entry says; what the graph determines is left out. -/
def detail : GraphViolation → Bytes
  | .danglingEdge edge _ role => 0 :: roleTag role :: pushField edge
  | .missingRequired node property => 1 :: (pushField (utf8 property) ++ pushField node)
  | .wrongType node property declared _ =>
      3 :: (pushField (utf8 property) ++ (pushField (utf8 declared.asStr) ++ pushField node))
  | .edgeWrongType edge property declared _ =>
      4 :: (pushField (utf8 property) ++ (pushField (utf8 declared.asStr) ++ pushField edge))
  | .staleDiscriminator edge declared _ => 5 :: (optionalField declared ++ pushField edge)
  | .uniqueViolation label property value _ =>
      2 :: (pushField (utf8 label) ++ (pushField (utf8 property) ++ pushField (sharedBytes value)))

def cellEntry (cell : ConflictCell) : Bytes :=
  cellKeyPrefix cell.map cell.key ++ optionalField cell.property

def entryKey : MergeConflict → Bytes
  | .cell conflict => cellEntry ⟨conflict.map, conflict.key, conflict.property⟩
  | .graph violation => kindGraph :: detail violation

/-- One outstanding conflict; only the cells are read back. -/
inductive WorkspaceConflict where
  | cell (cell : ConflictCell)
  | graph (violation : GraphViolation)
deriving DecidableEq

def readField (input : Bytes) : Option (Bytes × Bytes) :=
  let rest := input.drop 4
  let length := ofBeBytes (input.take 4)
  if input.length < 4 then none
  else if rest.length < length then none
  else some (rest.take length, rest.drop length)

/-- Bytes after the property are not looked at. -/
def readOptionalField (input : Bytes) : Option (Option String) :=
  match input with
  | [] => none
  | present :: rest =>
      if present = 0 then some none
      else if present = 1 then do
        let (bytes, _) ← readField rest
        let name ← fromUtf8 bytes
        some (some name)
      else none

def readCell (input : Bytes) : Option ConflictCell :=
  match input with
  | [] => none
  | tag :: rest => do
      let map ← mapFromTag tag
      let (key, rest) ← readField rest
      let property ← readOptionalField rest
      some ⟨map, key, property⟩

def invalid : EntryError :=
  .corruptConflicts "conflicts-map entry key is malformed"

/-- A cell is read back; the entry of a violation is a marker, whose details
are found again in the graph. -/
def decodeEntry (entry : Bytes) : Except EntryError (Option WorkspaceConflict) :=
  match entry with
  | [] => .error invalid
  | kind :: rest =>
      if kind = kindCell then
        match readCell rest with
        | some cell => .ok (some (.cell cell))
        | none => .error invalid
      else if kind = kindGraph then .ok none
      else .error invalid

/-- The map of a merge's conflicts; no key may be longer than a leaf entry
holds. -/
def buildConflictsMap (found : List MergeConflict) : Except EntryError (KeySet Bytes) :=
  let keys := found.map entryKey
  match (sortDedupe id keys).find? (fun key => key.length > Prolly.maxKeyLen) with
  | some key => .error (.keyTooLong key.length)
  | none => .ok (.ofKeys keys)

/-- Drop every entry of a written key; nothing is left when none remains. -/
def clearWritten (entries : KeySet Bytes) (written : List (ConflictMap × Bytes)) :
    Option (KeySet Bytes) :=
  let prefixes := written.map fun pair => cellKeyPrefix pair.1 pair.2
  let cleared := entries.keys.filter fun entry => prefixes.any fun start => start.isPrefixOf entry
  let reduced := entries.applyAll (cleared.map .delete)
  if reduced.entries.isEmpty then none else some reduced

/-- The cells of a map in its order, and how many markers it holds. -/
def readEntries (entries : KeySet Bytes) :
    Except EntryError (List WorkspaceConflict × Nat) := do
  let read ← entries.keys.mapM decodeEntry
  .ok (read.filterMap id, (read.filter Option.isNone).length)

private theorem prefix_length (length : Nat) : (beBytes 4 (length % 2 ^ 32)).length = 4 :=
  beBytes_length 4 _

@[simp] theorem pushField_length (bytes : Bytes) : (pushField bytes).length = 4 + bytes.length := by
  rw [pushField, List.length_append, prefix_length]

private theorem prefix_inj {left right : Nat} (leftShort : left < 2 ^ 32)
    (rightShort : right < 2 ^ 32)
    (same : beBytes 4 (left % 2 ^ 32) = beBytes 4 (right % 2 ^ 32)) : left = right := by
  rw [Nat.mod_eq_of_lt leftShort, Nat.mod_eq_of_lt rightShort] at same
  have numbers := congrArg ofBeBytes same
  rwa [ofBeBytes_beBytes (by omega), ofBeBytes_beBytes (by omega)] at numbers

/-- A field ends where its length says. -/
theorem pushField_append_inj {left right leftRest rightRest : Bytes}
    (leftShort : left.length < 2 ^ 32) (rightShort : right.length < 2 ^ 32)
    (same : pushField left ++ leftRest = pushField right ++ rightRest) :
    left = right ∧ leftRest = rightRest := by
  rw [pushField, pushField, List.append_assoc, List.append_assoc] at same
  obtain ⟨lengths, bodies⟩ := List.append_inj same (by rw [prefix_length, prefix_length])
  exact List.append_inj bodies (prefix_inj leftShort rightShort lengths)

theorem pushField_inj {left right : Bytes} (same : pushField left = pushField right) :
    left = right := by
  rw [pushField, pushField] at same
  exact (List.append_inj same (by rw [prefix_length, prefix_length])).2

theorem readField_pushField {field : Bytes} (short : field.length < 2 ^ 32) (rest : Bytes) :
    readField (pushField field ++ rest) = some (field, rest) := by
  have number : ofBeBytes (beBytes 4 (field.length % 2 ^ 32)) = field.length := by
    rw [Nat.mod_eq_of_lt short, ofBeBytes_beBytes (by omega)]
  have taken : (pushField field ++ rest).take 4 = beBytes 4 (field.length % 2 ^ 32) := by
    rw [pushField, List.append_assoc, List.take_left' (prefix_length _)]
  have dropped : (pushField field ++ rest).drop 4 = field ++ rest := by
    rw [pushField, List.append_assoc, List.drop_left' (prefix_length _)]
  rw [readField]
  simp only [taken, dropped, number]
  have filled : ¬ (pushField field ++ rest).length < 4 := by
    rw [List.length_append, pushField_length]
    omega
  rw [if_neg filled, if_neg (by simp), List.take_left, List.drop_left]

private theorem optionalField_append_inj {left right : Option String}
    {leftRest rightRest : Bytes}
    (leftShort : (optionalField left).length < 2 ^ 32)
    (rightShort : (optionalField right).length < 2 ^ 32)
    (same : optionalField left ++ leftRest = optionalField right ++ rightRest) :
    left = right ∧ leftRest = rightRest := by
  cases left with
  | none =>
      cases right with
      | none => exact ⟨rfl, (List.cons.inj same).2⟩
      | some other => exact absurd (List.cons.inj same).1 (by decide)
  | some name =>
      cases right with
      | none => exact absurd (List.cons.inj same).1 (by decide)
      | some other =>
          simp only [optionalField, List.length_cons, pushField_length] at leftShort rightShort
          obtain ⟨names, rests⟩ := pushField_append_inj (by omega) (by omega)
            (List.cons.inj same).2
          exact ⟨congrArg some (utf8_injective names), rests⟩

private theorem readOptionalField_optionalField {property : Option String}
    (short : (optionalField property).length < 2 ^ 32) :
    readOptionalField (optionalField property) = some property := by
  cases property with
  | none => rfl
  | some name =>
      simp only [optionalField, List.length_cons, pushField_length] at short
      have read := @readField_pushField (utf8 name) (by omega) []
      rw [List.append_nil] at read
      rw [optionalField, readOptionalField, if_neg (by decide), if_pos rfl, read]
      simp

private theorem mapTag_inj {left right : ConflictMap} (same : mapTag left = mapTag right) :
    left = right := by
  cases left <;> cases right <;> first | rfl | exact absurd same (by decide)

private theorem roleTag_inj {left right : Endpoint} (same : roleTag left = roleTag right) :
    left = right := by
  cases left <;> cases right <;> first | rfl | exact absurd same (by decide)

private theorem mapFromTag_mapTag (map : ConflictMap) : mapFromTag (mapTag map) = some map := by
  cases map <;> rfl

/-- A key that a leaf entry of the conflicts map holds. -/
def Storable (entry : Bytes) : Prop := entry.length ≤ Prolly.maxKeyLen

private theorem short_of_storable {cell : ConflictCell} (storable : Storable (cellEntry cell)) :
    cell.key.length < 2 ^ 32 ∧ (optionalField cell.property).length < 2 ^ 32 := by
  simp only [Storable, cellEntry, cellKeyPrefix, Prolly.maxKeyLen, List.length_append,
    List.length_cons, pushField_length] at storable
  omega

/-- A cell is read back as it was. -/
theorem decodeEntry_cellEntry {cell : ConflictCell} (storable : Storable (cellEntry cell)) :
    decodeEntry (cellEntry cell) = .ok (some (.cell cell)) := by
  obtain ⟨keyShort, propertyShort⟩ := short_of_storable storable
  have read : readCell (mapTag cell.map :: (pushField cell.key ++ optionalField cell.property)) =
      some cell := by
    rw [readCell]
    simp [mapFromTag_mapTag, readField_pushField keyShort,
      readOptionalField_optionalField propertyShort]
  rw [cellEntry, cellKeyPrefix, List.cons_append, List.cons_append, decodeEntry, if_pos rfl]
  simp only [read]

theorem decodeEntry_detail (violation : GraphViolation) :
    decodeEntry (kindGraph :: detail violation) = .ok none := by
  rw [decodeEntry, if_neg (by decide), if_pos rfl]

theorem cellKeyPrefix_isPrefix {map : ConflictMap} {key : Bytes} {cell : ConflictCell}
    (storable : Storable (cellEntry cell)) :
    cellKeyPrefix map key <+: cellEntry cell ↔ map = cell.map ∧ key = cell.key := by
  constructor
  · rintro ⟨rest, same⟩
    have keyShort : key.length < 2 ^ 32 := by
      rw [← same] at storable
      simp only [Storable, cellKeyPrefix, Prolly.maxKeyLen, List.length_append,
        List.length_cons, pushField_length] at storable
      omega
    rw [cellEntry, cellKeyPrefix, cellKeyPrefix] at same
    obtain ⟨tags, fields⟩ := List.cons.inj (List.cons.inj same).2
    exact ⟨mapTag_inj tags,
      (pushField_append_inj keyShort (short_of_storable storable).1 fields).1⟩
  · rintro ⟨rfl, rfl⟩
    exact ⟨_, rfl⟩

theorem not_cellKeyPrefix_isPrefix (map : ConflictMap) (key : Bytes) (violation : GraphViolation) :
    ¬ cellKeyPrefix map key <+: kindGraph :: detail violation := by
  rintro ⟨rest, same⟩
  exact absurd (List.cons.inj same).1 (by decide)

theorem cellEntry_inj {left right : ConflictCell} (leftStorable : Storable (cellEntry left))
    (rightStorable : Storable (cellEntry right)) (same : cellEntry left = cellEntry right) :
    left = right := by
  have isLeft := decodeEntry_cellEntry leftStorable
  rw [same, decodeEntry_cellEntry rightStorable] at isLeft
  cases isLeft
  rfl

/-- A violation without what its entry leaves out. -/
def bareViolation : GraphViolation → GraphViolation
  | .danglingEdge edge _ role => .danglingEdge edge [] role
  | .missingRequired node property => .missingRequired node property
  | .wrongType node property declared _ => .wrongType node property declared declared
  | .edgeWrongType edge property declared _ => .edgeWrongType edge property declared declared
  | .staleDiscriminator edge declared _ => .staleDiscriminator edge declared none
  | .uniqueViolation label property value _ => .uniqueViolation label property value []

private theorem encodes_stored (value : StoredValue) :
    Cbor.encodeValue value.val = .ok (sharedBytes value) ∧
      Cbor.canonicalNans value.val = value.val := by
  have stores := value.property
  rw [Cbor.storeValue_eq] at stores
  rw [sharedBytes, Cbor.encodeValue]
  cases written : Cbor.writeValue value.val 0 with
  | ok bytes =>
      rw [written] at stores
      exact ⟨rfl, Except.ok.inj stores⟩
  | error cause =>
      rw [written] at stores
      cases stores

private theorem sharedBytes_inj {left right : StoredValue}
    (short : (sharedBytes left).length < 2 ^ 64) (same : sharedBytes left = sharedBytes right) :
    left = right := by
  obtain ⟨leftEncodes, leftKept⟩ := encodes_stored left
  obtain ⟨rightEncodes, rightKept⟩ := encodes_stored right
  have isLeft := Cbor.decodeValue_of_encodeValue leftEncodes short
  rw [same, Cbor.decodeValue_of_encodeValue rightEncodes (same ▸ short), leftKept, rightKept]
    at isLeft
  exact Subtype.ext (Except.ok.inj isLeft).symm

private theorem asStr_inj {left right : PropertyType} (same : utf8 left.asStr = utf8 right.asStr) :
    left = right := by
  have parsed := left.parse_asStr
  rw [utf8_injective same, right.parse_asStr] at parsed
  exact (Except.ok.inj parsed).symm

/-- A named field, a type and the key the violation is of. -/
private theorem typed_inj {leftName rightName : String} {leftType rightType : PropertyType}
    {left right : Bytes} (leftShort : (utf8 leftName).length < 2 ^ 32)
    (rightShort : (utf8 rightName).length < 2 ^ 32)
    (same : pushField (utf8 leftName) ++ (pushField (utf8 leftType.asStr) ++ pushField left) =
      pushField (utf8 rightName) ++ (pushField (utf8 rightType.asStr) ++ pushField right)) :
    leftName = rightName ∧ leftType = rightType ∧ left = right := by
  have types : ∀ declared : PropertyType, (utf8 declared.asStr).length < 2 ^ 32 := by
    intro declared
    cases declared <;> decide
  obtain ⟨names, rest⟩ := pushField_append_inj leftShort rightShort same
  obtain ⟨declared, keys⟩ := pushField_append_inj (types _) (types _) rest
  exact ⟨utf8_injective names, asStr_inj declared, pushField_inj keys⟩

theorem detail_inj {left right : GraphViolation}
    (leftStorable : Storable (kindGraph :: detail left))
    (rightStorable : Storable (kindGraph :: detail right)) (same : detail left = detail right) :
    bareViolation left = bareViolation right := by
  have apart : ∀ {tag other : UInt8} {body rest : Bytes}, tag ≠ other →
      tag :: body = other :: rest → bareViolation left = bareViolation right :=
    fun differ equal => absurd (List.cons.inj equal).1 differ
  simp only [Storable, Prolly.maxKeyLen, List.length_cons] at leftStorable rightStorable
  cases left with
  | danglingEdge edge endpoint role =>
      cases right with
      | danglingEdge other _ otherRole =>
          obtain ⟨roles, edges⟩ := List.cons.inj (List.cons.inj same).2
          rw [bareViolation, bareViolation, roleTag_inj roles, pushField_inj edges]
      | _ => exact apart (by decide) same
  | missingRequired node property =>
      cases right with
      | missingRequired other otherProperty =>
          simp only [detail, List.length_cons, List.length_append, pushField_length]
            at leftStorable rightStorable
          obtain ⟨names, nodes⟩ := pushField_append_inj (by omega) (by omega)
            (List.cons.inj same).2
          rw [utf8_injective names, pushField_inj nodes]
      | _ => exact apart (by decide) same
  | wrongType node property declared actual =>
      cases right with
      | wrongType other otherProperty otherDeclared _ =>
          simp only [detail, List.length_cons, List.length_append, pushField_length]
            at leftStorable rightStorable
          obtain ⟨rfl, rfl, rfl⟩ := typed_inj (by omega) (by omega) (List.cons.inj same).2
          rfl
      | _ => exact apart (by decide) same
  | edgeWrongType edge property declared actual =>
      cases right with
      | edgeWrongType other otherProperty otherDeclared _ =>
          simp only [detail, List.length_cons, List.length_append, pushField_length]
            at leftStorable rightStorable
          obtain ⟨rfl, rfl, rfl⟩ := typed_inj (by omega) (by omega) (List.cons.inj same).2
          rfl
      | _ => exact apart (by decide) same
  | staleDiscriminator edge declared minted =>
      cases right with
      | staleDiscriminator other otherDeclared _ =>
          simp only [detail, List.length_cons, List.length_append, pushField_length]
            at leftStorable rightStorable
          obtain ⟨rfl, edges⟩ := optionalField_append_inj (by omega) (by omega)
            (List.cons.inj same).2
          rw [bareViolation, bareViolation, pushField_inj edges]
      | _ => exact apart (by decide) same
  | uniqueViolation label property value nodes =>
      cases right with
      | uniqueViolation otherLabel otherProperty otherValue _ =>
          simp only [detail, List.length_cons, List.length_append, pushField_length]
            at leftStorable rightStorable
          obtain ⟨labels, rest⟩ := pushField_append_inj (by omega) (by omega)
            (List.cons.inj same).2
          obtain ⟨names, values⟩ := pushField_append_inj (by omega) (by omega) rest
          rw [bareViolation, bareViolation, utf8_injective labels, utf8_injective names,
            sharedBytes_inj (by omega) (pushField_inj values)]
      | _ => exact apart (by decide) same

end Entries

end Acetone.Graph

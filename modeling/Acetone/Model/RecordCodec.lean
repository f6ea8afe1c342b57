import Acetone.Model.CborNames
import Acetone.Model.ValueRoundTrip

/-!
# Record encodings

A node record is the array of its secondary labels and its properties, an edge
record the properties map alone.  The in-memory map is kept in string order and
written in the canonical one.
-/

namespace Acetone.Model.Cbor

open Acetone.Lib

inductive RecordEncodeError where
  | value (cause : ValueEncodeError)
deriving DecidableEq, Repr

inductive RecordDecodeError where
  | cbor (cause : ValueDecodeError)
  | shape (reason : String)
  | notCanonical (reason : String)
deriving DecidableEq, Repr

def writeProperty (value : Value) : Except RecordEncodeError Bytes :=
  (writeValue value 0).mapError .value

def writeProperties (properties : SortedMap String Value) :
    Except RecordEncodeError Bytes := do
  let entries := properties.listing canonicalStrCmp
  let body ← writeEntries writeProperty entries
  .ok (writeHead majorMap entries.length ++ body)

def readProperty (input : Bytes) : Except RecordDecodeError (Value × Bytes) :=
  (readValue (maxDepth + 2) input 0).mapError .cbor

def readProperties (input : Bytes) :
    Except RecordDecodeError (SortedMap String Value × Bytes) := do
  let (count, input) ← readCount .cbor majorMap input
  let (entries, rest) ← readEntries .cbor (fun _ => .ok ())
    (.notCanonical "property names must be strictly ascending") readProperty none count
    input
  .ok (SortedMap.ofList entries, rest)

theorem writeProperties_of_readProperties {input rest : Bytes}
    {properties : SortedMap String Value}
    (read : readProperties input = .ok (properties, rest)) :
    ∃ bytes, writeProperties properties = .ok bytes ∧ input = bytes ++ rest := by
  simp only [readProperties, bind_eq_ok, Prod.exists,
    readCount_eq_ok (by decide : majorMap < 8), Except.ok.injEq, Prod.mk.injEq] at read
  obtain ⟨count, after, ⟨-, rfl, -⟩, entries, remainder, each, rfl, rfl⟩ := read
  have strict : ∀ {input rest : Bytes} {value : Value},
      readProperty input = .ok (value, rest) →
      ∃ bytes, writeProperty value = .ok bytes ∧ input = bytes ++ rest := by
    intro input rest value readItem
    rw [readProperty, mapError_eq_ok] at readItem
    obtain ⟨bytes, written, split⟩ := writeValue_of_readValue _ _ readItem
    exact ⟨bytes, mapError_eq_ok.mpr written, split⟩
  obtain ⟨rfl, -, follows, body, written, rfl⟩ := writeEntries_of_readEntries strict each
  have ascends : AscendsIn canonicalStrCmp (entries.map Prod.fst) := follows
  refine ⟨writeHead majorMap entries.length ++ body, ?_, by rw [List.append_assoc]⟩
  simp only [writeProperties, SortedMap.listing_ofList ascends, written, ok_bind]

theorem readProperties_of_writeProperties {properties : SortedMap String Value}
    {bytes : Bytes} (written : writeProperties properties = .ok bytes)
    (fits : bytes.length < 2 ^ 64) (rest : Bytes) :
    readProperties (bytes ++ rest) =
      .ok (properties.mapValues canonicalNans, rest) := by
  simp only [writeProperties, bind_eq_ok, Except.ok.injEq] at written
  obtain ⟨body, writtenBody, rfl⟩ := written
  rw [List.length_append] at fits
  have roundTrip : ∀ value bytes rest, writeProperty value = .ok bytes →
      bytes.length < 2 ^ 64 →
      readProperty (bytes ++ rest) = .ok (canonicalNans value, rest) := by
    intro value bytes rest writtenItem small
    rw [writeProperty, mapError_eq_ok] at writtenItem
    rw [readProperty, mapError_eq_ok]
    exact readValue_writeValue value writtenItem small (by omega) rest
  have present := length_le_writeEntries writtenBody
  have head : readCount RecordDecodeError.cbor majorMap
      (writeHead majorMap (properties.listing canonicalStrCmp).length ++ (body ++ rest)) =
      .ok ((properties.listing canonicalStrCmp).length, body ++ rest) :=
    (readCount_eq_ok (by decide)).mpr
      ⟨by omega, rfl, by rw [List.length_append]; omega⟩
  have each := @readEntries_of_writeEntries _ RecordDecodeError.cbor _ _ (fun _ => .ok ())
    (.notCanonical "property names must be strictly ascending") readProperty _ _ none
    _ _ (fun entry _ => roundTrip entry.2) writtenBody (by omega) (fun _ _ => rfl)
    (SortedMap.listing_ascends properties) rest
  rw [readProperties, List.append_assoc, head, ok_bind]
  simp only [each, ok_bind, ← SortedMap.listing_mapValues, SortedMap.ofList_listing]

/-- A node's state before it is stored; the labels are a set in canonical
order. -/
structure NodeRecord where
  secondaryLabels : List String
  properties : SortedMap String Value
  normalised : AscendsIn canonicalStrCmp secondaryLabels

namespace NodeRecord

def new (secondaryLabels : List String) (properties : SortedMap String Value) :
    NodeRecord :=
  ⟨(secondaryLabels.insertionSort fun left right =>
    canonicalStrCmp left right ≠ .gt).dedup, properties, ascendsIn_normalised _⟩

def encode (record : NodeRecord) : Except RecordEncodeError Bytes := do
  let properties ← writeProperties record.properties
  .ok (writeHead majorArray 2 ++ (writeNameArray record.secondaryLabels ++ properties))

def readLabels (count : Nat) (input : Bytes) :
    Except RecordDecodeError
      ({ labels : List String // AscendsIn canonicalStrCmp labels } × Bytes) :=
  match found : readNames .cbor
      (some (RecordDecodeError.notCanonical "secondary labels must be strictly ascending"))
      none count input with
  | .ok (labels, rest) => .ok (⟨labels, (readNames_eq_ok.mp found).2.2.1 rfl⟩, rest)
  | .error cause => .error cause

def decode (bytes : Bytes) : Except RecordDecodeError NodeRecord := do
  let (arity, input) ← (readHead majorArray bytes).mapError .cbor
  if arity ≠ 2 then .error (.shape "node record must be a two-element array")
  else do
    let (count, input) ← readCount .cbor majorArray input
    let (labels, input) ← readLabels count input
    let (properties, rest) ← readProperties input
    if rest.length ≠ 0 then .error (.cbor .trailingBytes)
    else .ok ⟨labels.1, properties, labels.2⟩

def canonicalNans (record : NodeRecord) : NodeRecord :=
  { record with properties := record.properties.mapValues Cbor.canonicalNans }

private theorem readLabels_eq_ok {count : Nat} {input rest : Bytes}
    {labels : { labels : List String // AscendsIn canonicalStrCmp labels }} :
    readLabels count input = .ok (labels, rest) ↔
      labels.1.length = count ∧ (∀ name ∈ labels.1, (utf8 name).length < 2 ^ 64) ∧
        input = writeNames labels.1 ++ rest := by
  have names := @readNames_eq_ok _ RecordDecodeError.cbor
    (some (.notCanonical "secondary labels must be strictly ascending")) none count input
    rest labels.1
  constructor
  · intro read
    rw [readLabels] at read
    split at read
    · next found after isFound =>
        cases read
        obtain ⟨length, bounds, -, split⟩ := names.mp isFound
        exact ⟨length, bounds, split⟩
    · cases read
  · rintro ⟨length, bounds, split⟩
    have isFound := names.mpr ⟨length, bounds, fun _ => labels.2, split⟩
    rw [readLabels]
    split
    · next found after done =>
        rw [isFound] at done
        cases done
        rfl
    · next cause failed =>
        rw [isFound] at failed
        cases failed

theorem decode_of_encode {record : NodeRecord} {bytes : Bytes}
    (encoded : record.encode = .ok bytes) (fits : bytes.length < 2 ^ 64) :
    decode bytes = .ok record.canonicalNans := by
  simp only [encode, bind_eq_ok, Except.ok.injEq] at encoded
  obtain ⟨properties, written, rfl⟩ := encoded
  simp only [writeNameArray, List.length_append] at fits
  have present := length_le_writeNames record.secondaryLabels
  have outer : readHead majorArray (writeHead majorArray 2 ++
      (writeNameArray record.secondaryLabels ++ properties)) =
      .ok (2, writeNameArray record.secondaryLabels ++ properties) :=
    (readHead_eq_ok (by decide)).mpr ⟨by decide, rfl⟩
  have count : readCount RecordDecodeError.cbor majorArray
      (writeNameArray record.secondaryLabels ++ properties) =
      .ok (record.secondaryLabels.length,
        writeNames record.secondaryLabels ++ properties) :=
    (readCount_eq_ok (by decide)).mpr ⟨by omega,
      by rw [writeNameArray, List.append_assoc], by rw [List.length_append]; omega⟩
  have labels : readLabels record.secondaryLabels.length
      (writeNames record.secondaryLabels ++ properties) =
      .ok (⟨record.secondaryLabels, record.normalised⟩, properties) := by
    refine readLabels_eq_ok.mpr ⟨rfl, ?_, rfl⟩
    intro name member
    have short : (utf8 name).length ≤ (writeNames record.secondaryLabels).length :=
      length_le_of_mem member
    omega
  have each := readProperties_of_writeProperties written (by omega) []
  rw [List.append_nil] at each
  simp only [decode, outer, Except.mapError, count, labels, each, ok_bind]
  rfl

theorem encode_of_decode {bytes : Bytes} {record : NodeRecord}
    (decoded : decode bytes = .ok record) : record.encode = .ok bytes := by
  simp only [decode, bind_eq_ok, Prod.exists, mapError_eq_ok, guard_eq_ok,
    readHead_eq_ok (by decide : majorArray < 8),
    readCount_eq_ok (by decide : majorArray < 8), readLabels_eq_ok, ne_eq, not_not,
    Except.ok.injEq] at decoded
  obtain ⟨arity, after, ⟨-, rfl⟩, rfl, count, between, ⟨-, rfl, -⟩, labels, input,
    ⟨rfl, -, rfl⟩, properties, rest, read, empty, rfl⟩ := decoded
  obtain ⟨written, isWritten, rfl⟩ := writeProperties_of_readProperties read
  have none : rest = [] := List.length_eq_zero_iff.mp empty
  simp only [encode, isWritten, ok_bind, none, List.append_nil, writeNameArray,
    List.append_assoc]

end NodeRecord

structure EdgeRecord where
  properties : SortedMap String Value

namespace EdgeRecord

def encode (record : EdgeRecord) : Except RecordEncodeError Bytes :=
  writeProperties record.properties

def decode (bytes : Bytes) : Except RecordDecodeError EdgeRecord := do
  let (properties, rest) ← readProperties bytes
  if rest.length ≠ 0 then .error (.cbor .trailingBytes) else .ok ⟨properties⟩

def canonicalNans (record : EdgeRecord) : EdgeRecord :=
  ⟨record.properties.mapValues Cbor.canonicalNans⟩

theorem decode_of_encode {record : EdgeRecord} {bytes : Bytes}
    (encoded : record.encode = .ok bytes) (fits : bytes.length < 2 ^ 64) :
    decode bytes = .ok record.canonicalNans := by
  have read := readProperties_of_writeProperties encoded fits []
  rw [List.append_nil] at read
  simp only [decode, read, ok_bind]
  rfl

theorem encode_of_decode {bytes : Bytes} {record : EdgeRecord}
    (decoded : decode bytes = .ok record) : record.encode = .ok bytes := by
  simp only [decode, bind_eq_ok, Prod.exists, guard_eq_ok, ne_eq, not_not,
    Except.ok.injEq] at decoded
  obtain ⟨properties, rest, read, empty, rfl⟩ := decoded
  obtain ⟨written, isWritten, rfl⟩ := writeProperties_of_readProperties read
  rw [List.length_eq_zero_iff.mp empty, List.append_nil]
  exact isWritten

end EdgeRecord

end Acetone.Model.Cbor

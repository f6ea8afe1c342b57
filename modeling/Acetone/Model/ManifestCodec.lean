import Acetone.Model.CborNames
import Acetone.Prolly.Tree

/-!
# The manifest encoding

One graph version: the roots of its maps with the chunking parameters they
were built with, under a format version that is read before anything else.
-/

namespace Acetone.Model.Cbor

open Acetone.Lib
open Acetone.Prolly (Hash ChunkParams ProllyError maxHeight)

def formatVersion : Nat := 1

inductive ManifestDecodeError where
  | cbor (cause : ValueDecodeError)
  | unsupportedVersion (version : Nat)
  | shape (reason : String)
  | notCanonical (reason : String)
  | invalidHash (width : Nat)
  | invalidHeight (height : Nat)
  | invalidParams (cause : ProllyError)
  | emptyIndexName
deriving DecidableEq

structure MapRoot where
  hash : Hash
  height : UInt32
deriving DecidableEq

/-- One graph version.  `conflicts` is present only while a merge is in
progress. -/
structure Manifest where
  chunkParams : ChunkParams
  schema : MapRoot
  nodes : MapRoot
  edgesFwd : MapRoot
  edgesRev : MapRoot
  indexes : SortedMap String MapRoot
  conflicts : Option MapRoot
deriving DecidableEq

def writeMapRoot (root : MapRoot) : Bytes :=
  writeHead majorArray 2 ++
    (writeHead majorBytes root.hash.asBytes.length ++
      (root.hash.asBytes ++ writeHead majorUnsigned root.height.toNat))

def writeIndexes (indexes : SortedMap String MapRoot) : Bytes :=
  let entries := indexes.listing canonicalStrCmp
  writeHead majorMap entries.length ++ writeItems writeMapRoot entries

def writeConflicts : Option MapRoot → Bytes
  | some root => writeText "conflicts" ++ writeMapRoot root
  | none => []

def writeParams (params : ChunkParams) : Bytes :=
  writeHead majorArray 3 ++
    (writeHead majorUnsigned params.minBytes ++
      (writeHead majorUnsigned params.maskBits ++
        writeHead majorUnsigned params.maxBytes))

def Manifest.writeBody (manifest : Manifest) : Bytes :=
  writeHead majorMap (if manifest.conflicts.isSome then 7 else 6) ++
    (writeText "nodes" ++ (writeMapRoot manifest.nodes ++
      (writeText "schema" ++ (writeMapRoot manifest.schema ++
        (writeText "indexes" ++ (writeIndexes manifest.indexes ++
          (writeConflicts manifest.conflicts ++
            (writeText "edges_fwd" ++ (writeMapRoot manifest.edgesFwd ++
              (writeText "edges_rev" ++ (writeMapRoot manifest.edgesRev ++
                (writeText "chunk_params" ++ writeParams manifest.chunkParams))))))))))))

def Manifest.encode (manifest : Manifest) : Bytes :=
  writeHead majorArray 2 ++
    (writeHead majorUnsigned formatVersion ++ manifest.writeBody)

def expectManifestField (name : String) (input : Bytes) :
    Except ManifestDecodeError Bytes :=
  expectName .cbor (.notCanonical "unexpected field name or order") name input

def readMapRoot (input : Bytes) : Except ManifestDecodeError (MapRoot × Bytes) := do
  let (arity, input) ← (readHead majorArray input).mapError .cbor
  if arity ≠ 2 then .error (.shape "map root must be [hash, height]")
  else do
    let (declared, input) ← (readHead majorBytes input).mapError .cbor
    let (bytes, input) ← (readBody declared input).mapError .cbor
    match Hash.fromBytes bytes with
    | none => .error (.invalidHash bytes.length)
    | some hash => do
        let (height, rest) ← (readHead majorUnsigned input).mapError .cbor
        if height = 0 ∨ maxHeight < height then .error (.invalidHeight height)
        else .ok (⟨hash, UInt32.ofNat height⟩, rest)

def readU32 (input : Bytes) : Except ManifestDecodeError (Nat × Bytes) := do
  let (value, rest) ← (readHead majorUnsigned input).mapError .cbor
  if 2 ^ 32 ≤ value then .error (.shape "chunk parameter out of u32 range")
  else .ok (value, rest)

def readIndexes (input : Bytes) :
    Except ManifestDecodeError (SortedMap String MapRoot × Bytes) := do
  let (count, input) ← readCount .cbor majorMap input
  let (entries, rest) ← readEntries .cbor
    (fun name => if name = "" then .error .emptyIndexName else .ok ())
    (.notCanonical "index names must be strictly ascending") readMapRoot none count input
  .ok (SortedMap.ofList entries, rest)

def readConflicts (present : Bool) (input : Bytes) :
    Except ManifestDecodeError (Option MapRoot × Bytes) :=
  if present then do
    let input ← expectManifestField "conflicts" input
    let (root, rest) ← readMapRoot input
    .ok (some root, rest)
  else .ok (none, input)

def readParams (input : Bytes) : Except ManifestDecodeError (ChunkParams × Bytes) := do
  let (arity, input) ← (readHead majorArray input).mapError .cbor
  if arity ≠ 3 then
    .error (.shape "chunk_params must be [min_bytes, mask_bits, max_bytes]")
  else do
    let (minBytes, input) ← readU32 input
    let (maskBits, input) ← readU32 input
    let (maxBytes, rest) ← readU32 input
    let params ← (ChunkParams.new minBytes maskBits maxBytes).mapError .invalidParams
    .ok (params, rest)

/-- Six fields, seven while a merge is in progress. -/
def readFieldCount (input : Bytes) : Except ManifestDecodeError (Bool × Bytes) := do
  let (fields, rest) ← (readHead majorMap input).mapError .cbor
  if fields = 6 then .ok (false, rest)
  else if fields = 7 then .ok (true, rest)
  else .error (.shape "manifest body must have six fields (seven mid-merge)")

def readBodyCurrent (input : Bytes) : Except ManifestDecodeError (Manifest × Bytes) := do
  let (conflictsPresent, input) ← readFieldCount input
  let input ← expectManifestField "nodes" input
  let (nodes, input) ← readMapRoot input
  let input ← expectManifestField "schema" input
  let (schema, input) ← readMapRoot input
  let input ← expectManifestField "indexes" input
  let (indexes, input) ← readIndexes input
  let (conflicts, input) ← readConflicts conflictsPresent input
  let input ← expectManifestField "edges_fwd" input
  let (edgesFwd, input) ← readMapRoot input
  let input ← expectManifestField "edges_rev" input
  let (edgesRev, input) ← readMapRoot input
  let input ← expectManifestField "chunk_params" input
  let (chunkParams, rest) ← readParams input
  .ok (⟨chunkParams, schema, nodes, edgesFwd, edgesRev, indexes, conflicts⟩, rest)

def decodeV1Body (input : Bytes) : Except ManifestDecodeError Manifest := do
  let (manifest, rest) ← readBodyCurrent input
  if rest.length ≠ 0 then .error (.cbor .trailingBytes) else .ok manifest

abbrev BodyDecoder := Bytes → Except ManifestDecodeError Manifest

/-- Read the version and hand the body to the decoder retained for it. -/
def Manifest.decodeWith (bytes : Bytes) (decoders : List (Nat × BodyDecoder)) :
    Except ManifestDecodeError Manifest := do
  let (arity, input) ← (readHead majorArray bytes).mapError .cbor
  if arity ≠ 2 then .error (.shape "manifest must be [format_version, body]")
  else do
    let (version, input) ← (readHead majorUnsigned input).mapError .cbor
    match decoders.find? (fun decoder => version < 2 ^ 32 ∧ decoder.1 = version) with
    | some decoder => decoder.2 input
    | none => .error (.unsupportedVersion version)

def Manifest.decoders : List (Nat × BodyDecoder) := [(formatVersion, decodeV1Body)]

def Manifest.decode (bytes : Bytes) : Except ManifestDecodeError Manifest :=
  decodeWith bytes decoders

/-- A height the tree layer can read. -/
def MapRoot.InRange (root : MapRoot) : Prop :=
  0 < root.height.toNat ∧ root.height.toNat ≤ maxHeight

private theorem field_eq_ok {name : String} {input rest : Bytes}
    (small : (utf8 name).length < 2 ^ 64) :
    expectManifestField name input = .ok rest ↔ input = writeText name ++ rest :=
  expectName_eq_ok small

private theorem readMapRoot_eq_ok {input rest : Bytes} {root : MapRoot} :
    readMapRoot input = .ok (root, rest) ↔
      root.InRange ∧ input = writeMapRoot root ++ rest := by
  have height : maxHeight = 64 := rfl
  simp only [readMapRoot, bind_eq_ok, Prod.exists, mapError_eq_ok, guard_eq_ok,
    readHead_eq_ok (by decide : majorArray < 8), readBody_eq_ok,
    readHead_eq_ok (by decide : majorBytes < 8), ne_eq, not_not]
  constructor
  · rintro ⟨arity, _, ⟨-, rfl⟩, rfl, declared, _, ⟨-, rfl⟩, bytes, after, ⟨rfl, rfl⟩,
      decided⟩
    split at decided
    · cases decided
    · next hash isHash =>
        simp only [bind_eq_ok, Prod.exists, mapError_eq_ok, guard_eq_ok,
          readHead_eq_ok (by decide : majorUnsigned < 8), not_or, Except.ok.injEq,
          Prod.mk.injEq] at decided
        obtain ⟨found, remainder, ⟨-, rfl⟩, ⟨nonzero, low⟩, rfl, rfl⟩ := decided
        rw [Hash.fromBytes] at isHash
        split at isHash
        · cases isHash
          have back : (UInt32.ofNat found).toNat = found :=
            UInt32.toNat_ofNat_of_lt' (show found < 2 ^ 32 by omega)
          refine ⟨⟨by rw [back]; omega, by rw [back]; omega⟩, ?_⟩
          simp only [writeMapRoot, back, List.append_assoc]
        · cases isHash
  · rintro ⟨⟨positive, low⟩, rfl⟩
    have width : root.hash.asBytes.length < 2 ^ 64 := by
      have either := root.hash.width
      omega
    refine ⟨2, _, ⟨by decide, ?_⟩, rfl, root.hash.asBytes.length, _, ⟨width, rfl⟩,
      root.hash.asBytes, writeHead majorUnsigned root.height.toNat ++ rest, ⟨rfl, rfl⟩, ?_⟩
    · simp only [writeMapRoot, List.append_assoc]
    · rw [Hash.fromBytes_asBytes]
      simp only [bind_eq_ok, Prod.exists, mapError_eq_ok, guard_eq_ok,
        readHead_eq_ok (by decide : majorUnsigned < 8)]
      exact ⟨root.height.toNat, rest, ⟨by omega, rfl⟩, by omega, by
        rw [UInt32.ofNat_toNat]⟩

private theorem readU32_eq_ok {value : Nat} {input rest : Bytes} :
    readU32 input = .ok (value, rest) ↔
      value < 2 ^ 32 ∧ input = writeHead majorUnsigned value ++ rest := by
  simp only [readU32, bind_eq_ok, Prod.exists, mapError_eq_ok, guard_eq_ok,
    readHead_eq_ok (by decide : majorUnsigned < 8), Except.ok.injEq, Prod.mk.injEq]
  constructor
  · rintro ⟨found, after, ⟨-, rfl⟩, small, rfl, rfl⟩
    exact ⟨by omega, rfl⟩
  · rintro ⟨small, rfl⟩
    exact ⟨value, rest, ⟨by omega, rfl⟩, by omega, rfl, rfl⟩

private theorem newParams_eq_ok {minBytes maskBits maxBytes : Nat}
    {params : ChunkParams} :
    ChunkParams.new minBytes maskBits maxBytes = .ok params ↔
      params.minBytes = minBytes ∧ params.maskBits = maskBits ∧
        params.maxBytes = maxBytes := by
  constructor
  · intro built
    rw [ChunkParams.new] at built
    repeat' split at built
    all_goals cases built
    exact ⟨rfl, rfl, rfl⟩
  · rintro ⟨rfl, rfl, rfl⟩
    have positive := params.minPositive
    have ordered := params.minLeMax
    have inFormat := params.maxInFormat
    have inWord := params.maskInWord
    rw [ChunkParams.new, dif_neg (by omega), dif_neg (by omega), dif_neg (by omega),
      dif_neg (by omega)]

private theorem readParams_eq_ok {input rest : Bytes} {params : ChunkParams} :
    readParams input = .ok (params, rest) ↔ input = writeParams params ++ rest := by
  simp only [readParams, bind_eq_ok, Prod.exists, mapError_eq_ok, guard_eq_ok,
    readHead_eq_ok (by decide : majorArray < 8), readU32_eq_ok, newParams_eq_ok, ne_eq,
    not_not, Except.ok.injEq, Prod.mk.injEq]
  constructor
  · rintro ⟨arity, _, ⟨-, rfl⟩, rfl, minBytes, _, ⟨-, rfl⟩, maskBits, _, ⟨-, rfl⟩,
      maxBytes, after, ⟨-, rfl⟩, found, ⟨rfl, rfl, rfl⟩, rfl, rfl⟩
    simp only [writeParams, List.append_assoc]
  · rintro rfl
    have ordered := params.minLeMax
    have inFormat : params.maxBytes ≤ 2 ^ 20 := params.maxInFormat
    have inWord := params.maskInWord
    exact ⟨3, _, ⟨by decide, by simp only [writeParams, List.append_assoc]⟩, rfl,
      params.minBytes, _, ⟨by omega, rfl⟩, params.maskBits, _, ⟨by omega, rfl⟩,
      params.maxBytes, rest, ⟨by omega, rfl⟩, params, ⟨rfl, rfl, rfl⟩, rfl, rfl⟩

private theorem readFieldCount_eq_ok {present : Bool} {input rest : Bytes} :
    readFieldCount input = .ok (present, rest) ↔
      input = writeHead majorMap (if present then 7 else 6) ++ rest := by
  simp only [readFieldCount, bind_eq_ok, Prod.exists, mapError_eq_ok,
    readHead_eq_ok (by decide : majorMap < 8)]
  constructor
  · rintro ⟨fields, after, ⟨-, rfl⟩, decided⟩
    split at decided
    · next six =>
        cases decided
        rw [six]
        rfl
    · split at decided
      · next seven =>
          cases decided
          rw [seven]
          rfl
      · cases decided
  · rintro rfl
    cases present with
    | true => exact ⟨7, rest, ⟨by decide, rfl⟩, rfl⟩
    | false => exact ⟨6, rest, ⟨by decide, rfl⟩, rfl⟩

private theorem readConflicts_eq_ok {present : Bool} {conflicts : Option MapRoot}
    {input rest : Bytes} :
    readConflicts present input = .ok (conflicts, rest) ↔
      present = conflicts.isSome ∧ (∀ root ∈ conflicts, root.InRange) ∧
        input = writeConflicts conflicts ++ rest := by
  rw [readConflicts]
  constructor
  · intro read
    split at read
    · next isPresent =>
        simp only [bind_eq_ok, Prod.exists, readMapRoot_eq_ok,
          @field_eq_ok "conflicts" _ _ (by decide), Except.ok.injEq,
          Prod.mk.injEq] at read
        obtain ⟨_, rfl, root, after, ⟨inRange, rfl⟩, rfl, rfl⟩ := read
        refine ⟨isPresent, ?_, by simp only [writeConflicts, List.append_assoc]⟩
        rintro _ ⟨⟩
        exact inRange
    · next absent =>
        cases read
        exact ⟨by simpa using absent, by simp, rfl⟩
  · rintro ⟨rfl, inRange, rfl⟩
    cases conflicts with
    | none => rfl
    | some root =>
        simp only [Option.isSome_some, if_true, bind_eq_ok, Prod.exists,
          readMapRoot_eq_ok, @field_eq_ok "conflicts" _ _ (by decide)]
        exact ⟨_, by simp only [writeConflicts, List.append_assoc], root, rest,
          ⟨inRange root rfl, rfl⟩, rfl⟩

private theorem checkIndexName_eq_ok {name : String} :
    (if name = "" then .error .emptyIndexName else .ok () :
      Except ManifestDecodeError Unit) = .ok () ↔ name ≠ "" := by
  rw [guard_eq_ok]
  exact and_iff_left rfl

private theorem readIndexes_strict {input rest : Bytes}
    {indexes : SortedMap String MapRoot}
    (read : readIndexes input = .ok (indexes, rest)) :
    input = writeIndexes indexes ++ rest := by
  simp only [readIndexes, bind_eq_ok, Prod.exists,
    readCount_eq_ok (by decide : majorMap < 8), Except.ok.injEq, Prod.mk.injEq] at read
  obtain ⟨count, after, ⟨-, rfl, -⟩, entries, remainder, each, rfl, rfl⟩ := read
  have strict : ∀ {input rest : Bytes} {root : MapRoot},
      readMapRoot input = .ok (root, rest) →
      ∃ bytes, (.ok (writeMapRoot root) : Except ManifestDecodeError Bytes) = .ok bytes ∧
        input = bytes ++ rest := by
    intro input rest root readItem
    exact ⟨_, rfl, (readMapRoot_eq_ok.mp readItem).2⟩
  obtain ⟨rfl, -, follows, body, written, rfl⟩ := writeEntries_of_readEntries strict each
  have ascends : AscendsIn canonicalStrCmp (entries.map Prod.fst) := follows
  rw [writeEntries_eq_writeItems] at written
  cases written
  simp only [writeIndexes, SortedMap.listing_ofList ascends, List.append_assoc]

private theorem readIndexes_written {indexes : SortedMap String MapRoot}
    (named : ∀ entry ∈ indexes.entries, entry.1 ≠ "" ∧ entry.2.InRange)
    (fits : (writeIndexes indexes).length < 2 ^ 64) (rest : Bytes) :
    readIndexes (writeIndexes indexes ++ rest) = .ok (indexes, rest) := by
  rw [writeIndexes, List.length_append] at fits
  have written : writeEntries (fun root =>
      (.ok (writeMapRoot root) : Except ManifestDecodeError Bytes))
      (indexes.listing canonicalStrCmp) = .ok _ := writeEntries_eq_writeItems _ _
  have present := length_le_writeEntries written
  have head : readCount ManifestDecodeError.cbor majorMap (writeHead majorMap
      (indexes.listing canonicalStrCmp).length ++
        (writeItems writeMapRoot (indexes.listing canonicalStrCmp) ++ rest)) =
      .ok (_, _) :=
    (readCount_eq_ok (by decide)).mpr
      ⟨by omega, rfl, by rw [List.length_append]; omega⟩
  have listed : ∀ entry ∈ indexes.listing canonicalStrCmp,
      entry.1 ≠ "" ∧ entry.2.InRange := fun entry member =>
    named entry ((SortedMap.mem_listing canonicalStrCmp).mp member)
  have roundTrip : ∀ entry ∈ indexes.listing canonicalStrCmp, ∀ bytes rest,
      (.ok (writeMapRoot entry.2) : Except ManifestDecodeError Bytes) = .ok bytes →
      bytes.length < 2 ^ 64 → readMapRoot (bytes ++ rest) = .ok (id entry.2, rest) := by
    rintro entry member bytes rest ⟨⟩ -
    exact readMapRoot_eq_ok.mpr ⟨(listed entry member).2, rfl⟩
  have each := @readEntries_of_writeEntries _ ManifestDecodeError.cbor _ _
    (fun name => if name = "" then .error .emptyIndexName else .ok ())
    (.notCanonical "index names must be strictly ascending") readMapRoot _ _ none _ _
    roundTrip written (by omega)
    (fun entry member => checkIndexName_eq_ok.mpr (listed entry member).1)
    (SortedMap.listing_ascends indexes) rest
  rw [readIndexes, writeIndexes, List.append_assoc, head, ok_bind]
  simp only [each, ok_bind, id, Prod.mk.eta, List.map_id', SortedMap.ofList_listing]

/-- What the decoder demands of a manifest beyond its shape. -/
def Manifest.Readable (manifest : Manifest) : Prop :=
  manifest.schema.InRange ∧ manifest.nodes.InRange ∧ manifest.edgesFwd.InRange ∧
    manifest.edgesRev.InRange ∧
    (∀ entry ∈ manifest.indexes.entries, entry.1 ≠ "" ∧ entry.2.InRange) ∧
    ∀ root ∈ manifest.conflicts, root.InRange

private theorem readBodyCurrent_written {manifest : Manifest}
    (readable : manifest.Readable)
    (fits : manifest.writeBody.length < 2 ^ 64) :
    readBodyCurrent manifest.writeBody = .ok (manifest, []) := by
  obtain ⟨schema, nodes, edgesFwd, edgesRev, indexes, conflicts⟩ := readable
  simp only [Manifest.writeBody, List.length_append] at fits
  have readIndexed := readIndexes_written indexes (by omega)
  simp only [readBodyCurrent, Manifest.writeBody, bind_eq_ok, Prod.exists,
    readFieldCount_eq_ok]
  exact ⟨_, _, rfl, _, (field_eq_ok (by decide)).mpr rfl, _, _,
    readMapRoot_eq_ok.mpr ⟨nodes, rfl⟩, _, (field_eq_ok (by decide)).mpr rfl, _, _,
    readMapRoot_eq_ok.mpr ⟨schema, rfl⟩, _, (field_eq_ok (by decide)).mpr rfl, _, _,
    readIndexed _, _, _, readConflicts_eq_ok.mpr ⟨rfl, conflicts, rfl⟩, _,
    (field_eq_ok (by decide)).mpr rfl, _, _, readMapRoot_eq_ok.mpr ⟨edgesFwd, rfl⟩, _,
    (field_eq_ok (by decide)).mpr rfl, _, _, readMapRoot_eq_ok.mpr ⟨edgesRev, rfl⟩, _,
    (field_eq_ok (by decide)).mpr rfl, _, [],
    readParams_eq_ok.mpr (by rw [List.append_nil]), rfl⟩

private theorem readBodyCurrent_strict {manifest : Manifest} {input rest : Bytes}
    (read : readBodyCurrent input = .ok (manifest, rest)) :
    input = manifest.writeBody ++ rest := by
  simp only [readBodyCurrent, bind_eq_ok, Prod.exists, Except.ok.injEq, Prod.mk.injEq,
    readFieldCount_eq_ok, readMapRoot_eq_ok, readConflicts_eq_ok, readParams_eq_ok] at read
  obtain ⟨present, _, rfl, _, nodesField, nodes, _, ⟨-, rfl⟩, _, schemaField, schema, _,
    ⟨-, rfl⟩, _, indexesField, indexes, _, readIndexed, conflicts, _, ⟨rfl, -, rfl⟩, _,
    fwdField, edgesFwd, _, ⟨-, rfl⟩, _, revField, edgesRev, _, ⟨-, rfl⟩, _, paramsField,
    chunkParams, after, rfl, rfl, rfl⟩ := read
  rw [(field_eq_ok (by decide)).mp nodesField, (field_eq_ok (by decide)).mp schemaField,
    (field_eq_ok (by decide)).mp indexesField, readIndexes_strict readIndexed,
    (field_eq_ok (by decide)).mp fwdField, (field_eq_ok (by decide)).mp revField,
    (field_eq_ok (by decide)).mp paramsField]
  simp only [Manifest.writeBody, List.append_assoc]

private theorem decode_eq_ok {manifest : Manifest} {bytes : Bytes} :
    Manifest.decode bytes = .ok manifest ↔
      ∃ body, bytes = writeHead majorArray 2 ++
          (writeHead majorUnsigned formatVersion ++ body) ∧
        readBodyCurrent body = .ok (manifest, []) := by
  simp only [Manifest.decode, Manifest.decodeWith, Manifest.decoders, bind_eq_ok,
    Prod.exists, mapError_eq_ok, readHead_eq_ok (by decide : majorArray < 8),
    readHead_eq_ok (by decide : majorUnsigned < 8), guard_eq_ok, ne_eq, not_not]
  constructor
  · rintro ⟨arity, _, ⟨-, rfl⟩, rfl, version, body, ⟨-, rfl⟩, decoded⟩
    by_cases current : formatVersion = version
    · subst current
      have known : formatVersion < 2 ^ 32 := by decide
      simp only [List.find?_cons, known, true_and, decide_true, decodeV1Body, bind_eq_ok,
        Prod.exists, guard_eq_ok, ne_eq, not_not, Except.ok.injEq] at decoded
      obtain ⟨found, rest, read, empty, rfl⟩ := decoded
      rw [List.length_eq_zero_iff.mp empty] at read
      exact ⟨body, rfl, read⟩
    · simp only [List.find?_cons, current, and_false, decide_false, List.find?_nil]
        at decoded
      cases decoded
  · rintro ⟨body, rfl, read⟩
    refine ⟨2, _, ⟨by decide, rfl⟩, rfl, formatVersion, body, ⟨by decide, rfl⟩, ?_⟩
    have known : formatVersion < 2 ^ 32 := by decide
    simp only [List.find?_cons, known, true_and, decide_true, decodeV1Body, read, ok_bind]
    rfl

theorem Manifest.decode_of_encode {manifest : Manifest} (readable : manifest.Readable)
    (fits : manifest.encode.length < 2 ^ 64) :
    Manifest.decode manifest.encode = .ok manifest := by
  rw [Manifest.encode, List.length_append, List.length_append] at fits
  exact decode_eq_ok.mpr
    ⟨manifest.writeBody, rfl, readBodyCurrent_written readable (by omega)⟩

theorem Manifest.encode_of_decode {manifest : Manifest} {bytes : Bytes}
    (decoded : Manifest.decode bytes = .ok manifest) : manifest.encode = bytes := by
  obtain ⟨body, rfl, read⟩ := decode_eq_ok.mp decoded
  have split := readBodyCurrent_strict read
  rw [List.append_nil] at split
  rw [Manifest.encode, split]

end Acetone.Model.Cbor

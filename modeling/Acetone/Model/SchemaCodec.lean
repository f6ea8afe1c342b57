import Acetone.Model.CborNames

/-!
# Schema entry encodings

A schema entry is a row of the `schema` map: the key tuple of its kind and
name, and a text-keyed map with a fixed field set for each kind.
-/

namespace Acetone.Model

open Acetone.Lib

namespace PropertyType

/-- The stored name of a type. -/
def asStr : PropertyType → String
  | .bool => "bool"
  | .int => "int"
  | .float => "float"
  | .string => "string"
  | .bytes => "bytes"
  | .date => "date"
  | .time => "time"
  | .dateTime => "datetime"
  | .duration => "duration"
  | .list => "list"

def parse (name : String) : Except SchemaError PropertyType :=
  if name = "bool" then .ok .bool
  else if name = "int" then .ok .int
  else if name = "float" then .ok .float
  else if name = "string" then .ok .string
  else if name = "bytes" then .ok .bytes
  else if name = "date" then .ok .date
  else if name = "time" then .ok .time
  else if name = "datetime" then .ok .dateTime
  else if name = "duration" then .ok .duration
  else if name = "list" then .ok .list
  else .error (.unknownType name)

theorem parse_asStr (declared : PropertyType) : parse declared.asStr = .ok declared := by
  cases declared <;> decide

theorem asStr_of_parse {name : String} {declared : PropertyType}
    (parsed : parse name = .ok declared) : declared.asStr = name := by
  simp only [parse] at parsed
  repeat' split at parsed
  all_goals cases parsed
  all_goals simp_all [asStr]

end PropertyType

namespace Cbor

def expectMap (fields : Nat) (what : String) (input : Bytes) :
    Except SchemaError Bytes := do
  let (count, rest) ← (readHead majorMap input).mapError .cbor
  if count ≠ fields then .error (.shape what) else .ok rest

def expectField (name : String) (input : Bytes) : Except SchemaError Bytes :=
  expectName .cbor (.notCanonical "unexpected field name or order") name input

def writeBool (flag : Bool) : Bytes := [if flag then simpleTrue else simpleFalse]

def readBool (input : Bytes) : Except SchemaError (Bool × Bytes) := do
  let (byte, rest) ← (readU8 input).mapError .cbor
  if byte = simpleTrue then .ok (true, rest)
  else if byte = simpleFalse then .ok (false, rest)
  else .error (.shape "expected boolean")

def writeOptionalText : Option String → Bytes
  | some text => writeText text
  | none => [simpleNull]

def readOptionalText (input : Bytes) : Except SchemaError (Option String × Bytes) :=
  if input.head? = some simpleNull then .ok (none, input.tail)
  else do
    let (text, rest) ← (readText input).mapError .cbor
    .ok (some text, rest)

def readNameArray (sorted : Bool) (input : Bytes) :
    Except SchemaError (List String × Bytes) := do
  let (count, input) ← readCount .cbor majorArray input
  readNames .cbor
    (if sorted then some (.notCanonical "name set must be strictly ascending") else none)
    none count input

def writeType (declared : PropertyType) : Bytes := writeText declared.asStr

def writeTypes (types : Types) : Bytes :=
  let entries := types.listing canonicalStrCmp
  writeHead majorMap entries.length ++ writeItems writeType entries

def readType (input : Bytes) : Except SchemaError (PropertyType × Bytes) := do
  let (name, rest) ← (readText input).mapError .cbor
  let declared ← PropertyType.parse name
  .ok (declared, rest)

def readTypes (input : Bytes) : Except SchemaError (Types × Bytes) := do
  let (count, input) ← readCount .cbor majorMap input
  let (entries, rest) ← readEntries .cbor (fun _ => .ok ())
    (.notCanonical "typed property names must be strictly ascending") readType none count
    input
  .ok (SortedMap.ofList entries, rest)

/-- The `schema`-map value.  Infallible: definitions hold only names and
booleans. -/
def encodeEntry : SchemaEntry → Bytes
  | .label _ decl =>
      writeHead majorMap 5 ++
        (writeText "key" ++ (writeNameArray decl.key ++
          (writeText "types" ++ (writeTypes decl.types ++
            (writeText "exists" ++ (writeNameArray decl.existence ++
              (writeText "unique" ++ (writeNameArray decl.unique ++
                (writeText "surrogate" ++ writeBool decl.surrogate)))))))))
  | .relType _ decl =>
      writeHead majorMap 3 ++
        (writeText "disc" ++ (writeOptionalText decl.discriminator ++
          (writeText "types" ++ (writeTypes decl.types ++
            (writeText "exists" ++ writeNameArray decl.existence)))))
  | .index _ decl =>
      writeHead majorMap 2 ++
        (writeText "label" ++ (writeText decl.label ++
          (writeText "properties" ++ writeNameArray decl.properties)))

def readLabelDef (input : Bytes) : Except SchemaError (LabelDef × Bytes) := do
  let input ← expectMap 5 "label definition" input
  let input ← expectField "key" input
  let (key, input) ← readNameArray false input
  let input ← expectField "types" input
  let (types, input) ← readTypes input
  let input ← expectField "exists" input
  let (existence, input) ← readNameArray true input
  let input ← expectField "unique" input
  let (unique, input) ← readNameArray true input
  let input ← expectField "surrogate" input
  let (surrogate, rest) ← readBool input
  let decl ← LabelDef.build key surrogate types existence unique
  .ok (decl, rest)

def readRelTypeDef (input : Bytes) : Except SchemaError (RelTypeDef × Bytes) := do
  let input ← expectMap 3 "relationship-type definition" input
  let input ← expectField "disc" input
  let (discriminator, input) ← readOptionalText input
  let input ← expectField "types" input
  let (types, input) ← readTypes input
  let input ← expectField "exists" input
  let (existence, rest) ← readNameArray true input
  let decl ← RelTypeDef.new discriminator types existence
  .ok (decl, rest)

/-- The property list of an index is read without a bound on its count. -/
def readIndexDef (input : Bytes) : Except SchemaError (IndexDef × Bytes) := do
  let input ← expectMap 2 "index declaration" input
  let input ← expectField "label" input
  let (label, input) ← (readText input).mapError .cbor
  let input ← expectField "properties" input
  let (count, input) ← (readHead majorArray input).mapError .cbor
  let (properties, rest) ← readNames .cbor none none count input
  let decl ← IndexDef.new label properties
  .ok (decl, rest)

def readEntry (kind name : String) (input : Bytes) :
    Except SchemaError (SchemaEntry × Bytes) :=
  if kind = kindLabel then do
    let (decl, rest) ← readLabelDef input
    .ok (.label name decl, rest)
  else if kind = kindRtype then do
    let (decl, rest) ← readRelTypeDef input
    .ok (.relType name decl, rest)
  else if kind = kindIndex then do
    let (decl, rest) ← readIndexDef input
    .ok (.index name decl, rest)
  else .error (.unknownKind kind)

def decodeEntryKey (key : Bytes) : Except SchemaError (String × String) := do
  let tuple ← (decodeKey key).mapError .keyDecode
  match tuple with
  | [.string kind, .string name] =>
      if name = "" then .error (.emptyName "schema entry name") else .ok (kind, name)
  | _ => .error (.shape "schema key must be [string kind, string name]")

def decodeEntry (key value : Bytes) : Except SchemaError SchemaEntry := do
  let (kind, name) ← decodeEntryKey key
  let (entry, rest) ← readEntry kind name value
  if rest.length ≠ 0 then .error (.cbor .trailingBytes) else .ok entry

private theorem expectMap_eq_ok {fields : Nat} {what : String} {input rest : Bytes}
    (small : fields < 2 ^ 64) :
    expectMap fields what input = .ok rest ↔
      input = writeHead majorMap fields ++ rest := by
  simp only [expectMap, bind_eq_ok, Prod.exists, mapError_eq_ok, guard_eq_ok,
    readHead_eq_ok (by decide : majorMap < 8), ne_eq, not_not, Except.ok.injEq]
  constructor
  · rintro ⟨count, after, ⟨-, rfl⟩, rfl, rfl⟩
    rfl
  · rintro rfl
    exact ⟨fields, rest, ⟨small, rfl⟩, rfl, rfl⟩

private theorem expectField_eq_ok {name : String} {input rest : Bytes}
    (small : (utf8 name).length < 2 ^ 64) :
    expectField name input = .ok rest ↔ input = writeText name ++ rest :=
  expectName_eq_ok small

private theorem readBool_eq_ok {input rest : Bytes} {flag : Bool} :
    readBool input = .ok (flag, rest) ↔ input = writeBool flag ++ rest := by
  simp only [readBool, bind_eq_ok, Prod.exists, mapError_eq_ok, readU8_eq_ok]
  constructor
  · rintro ⟨byte, after, rfl, decided⟩
    split at decided
    · next isTrue =>
        cases decided
        rw [isTrue]
        rfl
    · split at decided
      · next isFalse =>
          cases decided
          rw [isFalse]
          rfl
      · cases decided
  · rintro rfl
    cases flag with
    | true => exact ⟨simpleTrue, rest, rfl, rfl⟩
    | false => exact ⟨simpleFalse, rest, rfl, rfl⟩

private theorem writeText_head_ne_null (text : String) (rest : Bytes) :
    (writeText text ++ rest).head? ≠ some simpleNull := by
  rw [writeText, writeHead_eq, List.append_assoc, List.cons_append, List.head?_cons]
  intro same
  have bytes := congrArg UInt8.toNat (Option.some.inj same)
  rw [headByte_toNat (by decide) (headInfo_lt _)] at bytes
  have info := headInfo_lt (utf8 text).length
  have major : majorText = 3 := rfl
  have null : simpleNull.toNat = 246 := rfl
  omega

private theorem readOptionalText_eq_ok {input rest : Bytes} {text : Option String} :
    readOptionalText input = .ok (text, rest) ↔
      (∀ content ∈ text, (utf8 content).length < 2 ^ 64) ∧
        input = writeOptionalText text ++ rest := by
  rw [readOptionalText]
  constructor
  · intro read
    split at read
    · next isNull =>
        cases read
        cases input with
        | nil => cases isNull
        | cons byte input =>
            cases isNull
            exact ⟨by simp, rfl⟩
    · simp only [bind_eq_ok, Prod.exists, mapError_eq_ok, readText_eq_ok,
        Except.ok.injEq, Prod.mk.injEq] at read
      obtain ⟨content, after, ⟨bound, rfl⟩, rfl, rfl⟩ := read
      refine ⟨?_, rfl⟩
      intro other isContent
      cases isContent
      exact bound
  · rintro ⟨bounds, rfl⟩
    cases text with
    | none => rfl
    | some content =>
        have read := (@readText_eq_ok _ rest content).mpr ⟨bounds content rfl, rfl⟩
        rw [writeOptionalText, if_neg (writeText_head_ne_null content rest), read]
        rfl

private theorem readNameArray_strict {sorted : Bool} {input rest : Bytes}
    {names : List String} (read : readNameArray sorted input = .ok (names, rest)) :
    (sorted = true → AscendsIn canonicalStrCmp names) ∧
      input = writeNameArray names ++ rest := by
  simp only [readNameArray, bind_eq_ok, Prod.exists,
    readCount_eq_ok (by decide : majorArray < 8), readNames_eq_ok] at read
  obtain ⟨count, after, ⟨-, rfl, -⟩, rfl, -, follows, rfl⟩ := read
  refine ⟨?_, by rw [writeNameArray, List.append_assoc]⟩
  intro isSorted
  exact follows (by rw [isSorted]; rfl)

private theorem readNameArray_written {sorted : Bool} {names : List String}
    (ordered : sorted = true → AscendsIn canonicalStrCmp names)
    (fits : (writeNameArray names).length < 2 ^ 64) (rest : Bytes) :
    readNameArray sorted (writeNameArray names ++ rest) = .ok (names, rest) := by
  rw [writeNameArray, List.length_append] at fits
  have present := length_le_writeNames names
  simp only [readNameArray, bind_eq_ok, Prod.exists,
    readCount_eq_ok (by decide : majorArray < 8), readNames_eq_ok]
  refine ⟨names.length, writeNames names ++ rest, ⟨by omega,
    by rw [writeNameArray, List.append_assoc], by rw [List.length_append]; omega⟩,
    rfl, ?_, ?_, rfl⟩
  · intro name member
    have short := length_le_of_mem member
    omega
  · intro isSome
    cases sorted with
    | true => exact ordered rfl
    | false => cases isSome

private theorem readTypes_strict {input rest : Bytes} {types : Types}
    (read : readTypes input = .ok (types, rest)) : input = writeTypes types ++ rest := by
  simp only [readTypes, bind_eq_ok, Prod.exists,
    readCount_eq_ok (by decide : majorMap < 8), Except.ok.injEq, Prod.mk.injEq] at read
  obtain ⟨count, after, ⟨-, rfl, -⟩, entries, remainder, each, rfl, rfl⟩ := read
  have strict : ∀ {input rest : Bytes} {declared : PropertyType},
      readType input = .ok (declared, rest) →
      ∃ bytes, (.ok (writeType declared) : Except SchemaError Bytes) = .ok bytes ∧
        input = bytes ++ rest := by
    intro input rest declared readItem
    simp only [readType, bind_eq_ok, Prod.exists, mapError_eq_ok, readText_eq_ok,
      Except.ok.injEq, Prod.mk.injEq] at readItem
    obtain ⟨name, after, ⟨-, rfl⟩, found, parsed, rfl, rfl⟩ := readItem
    exact ⟨_, rfl, by rw [writeType, PropertyType.asStr_of_parse parsed]⟩
  obtain ⟨rfl, -, follows, body, written, rfl⟩ := writeEntries_of_readEntries strict each
  have ascends : AscendsIn canonicalStrCmp (entries.map Prod.fst) := follows
  rw [writeEntries_eq_writeItems] at written
  cases written
  simp only [writeTypes, SortedMap.listing_ofList ascends, List.append_assoc]

private theorem readTypes_written {types : Types}
    (fits : (writeTypes types).length < 2 ^ 64) (rest : Bytes) :
    readTypes (writeTypes types ++ rest) = .ok (types, rest) := by
  rw [writeTypes, List.length_append] at fits
  have written : writeEntries (fun declared =>
      (.ok (writeType declared) : Except SchemaError Bytes))
      (types.listing canonicalStrCmp) = .ok _ := writeEntries_eq_writeItems _ _
  have roundTrip : ∀ declared bytes rest,
      (.ok (writeType declared) : Except SchemaError Bytes) = .ok bytes →
      bytes.length < 2 ^ 64 → readType (bytes ++ rest) = .ok (id declared, rest) := by
    rintro declared bytes rest ⟨⟩ small
    rw [writeType, writeText, List.length_append] at small
    have text := (@readText_eq_ok (writeType declared ++ rest) rest declared.asStr).mpr
      ⟨by omega, rfl⟩
    simp only [readType, text, Except.mapError, ok_bind, PropertyType.parse_asStr, id]
  have present := length_le_writeEntries written
  have head : readCount SchemaError.cbor majorMap (writeHead majorMap
      (types.listing canonicalStrCmp).length ++
        (writeItems writeType (types.listing canonicalStrCmp) ++ rest)) = .ok (_, _) :=
    (readCount_eq_ok (by decide)).mpr
      ⟨by omega, rfl, by rw [List.length_append]; omega⟩
  have each := @readEntries_of_writeEntries _ SchemaError.cbor _ _ (fun _ => .ok ())
    (.notCanonical "typed property names must be strictly ascending") readType _ _
    none _ _ (fun entry _ => roundTrip entry.2) written (by omega) (fun _ _ => rfl)
    (SortedMap.listing_ascends types) rest
  rw [readTypes, writeTypes, List.append_assoc, head, ok_bind]
  simp only [each, ok_bind, id, Prod.mk.eta, List.map_id', SortedMap.ofList_listing]

private theorem normaliseNames_spec {names kept : List String} {context : String}
    (done : normaliseNames names context = .ok kept) :
    AscendsIn canonicalStrCmp kept ∧ normaliseNames kept context = .ok kept ∧
      (AscendsIn canonicalStrCmp names → kept = names) := by
  rw [normaliseNames, guard_eq_ok] at done
  obtain ⟨named, done⟩ := done
  cases done
  have ascends := @ascendsIn_normalised _ canonicalStrCmp _ _ _ names
  have stillNamed : ¬ ((names.insertionSort fun left right =>
      canonicalStrCmp left right ≠ .gt).dedup.any (· = "")) = true := by
    intro blank
    apply named
    rw [List.any_eq_true] at blank ⊢
    obtain ⟨name, member, isBlank⟩ := blank
    exact ⟨name, (List.mem_insertionSort _).mp (List.mem_dedup.mp member), isBlank⟩
  refine ⟨ascends, ?_, AscendsIn.normalised⟩
  rw [normaliseNames, if_neg stillNamed]
  exact congrArg Except.ok ascends.normalised

end Cbor

/-- The definition has passed its constructor: there is no other way to make
one. -/
def SchemaEntry.Built : SchemaEntry → Prop
  | .label _ decl => ∃ key surrogate types existence unique,
      LabelDef.build key surrogate types existence unique = .ok decl
  | .relType _ decl => ∃ discriminator types existence,
      RelTypeDef.new discriminator types existence = .ok decl
  | .index _ _ => True

def SchemaEntry.name : SchemaEntry → String
  | .label name _ => name
  | .relType name _ => name
  | .index name _ => name

namespace Cbor

private theorem build_spec {key : List String} {surrogate : Bool} {types : Types}
    {existence unique : List String} {decl : LabelDef}
    (built : LabelDef.build key surrogate types existence unique = .ok decl) :
    decl.key = key ∧ decl.surrogate = surrogate ∧ decl.types = types ∧
      AscendsIn canonicalStrCmp decl.existence ∧ AscendsIn canonicalStrCmp decl.unique ∧
      (AscendsIn canonicalStrCmp existence → decl.existence = existence) ∧
      (AscendsIn canonicalStrCmp unique → decl.unique = unique) ∧
      LabelDef.build decl.key decl.surrogate decl.types decl.existence decl.unique =
        .ok decl := by
  rw [LabelDef.build] at built
  split at built
  · cases built
  next filled =>
  rw [guard_eq_ok] at built
  obtain ⟨named, built⟩ := built
  split at built
  · cases built
  next distinct =>
  rw [guard_eq_ok] at built
  obtain ⟨keyed, built⟩ := built
  simp only [bind_eq_ok] at built
  obtain ⟨⟨⟩, checked, kept, keptDone, only, onlyDone, built⟩ := built
  split at built
  · next apart =>
      cases built
      obtain ⟨keptAscends, keptAgain, keptSame⟩ := normaliseNames_spec keptDone
      obtain ⟨onlyAscends, onlyAgain, onlySame⟩ := normaliseNames_spec onlyDone
      refine ⟨rfl, rfl, rfl, keptAscends, onlyAscends, keptSame, onlySame, ?_⟩
      rw [LabelDef.build, dif_neg filled, if_neg named, dif_neg distinct, if_neg keyed,
        checked, ok_bind, keptAgain, ok_bind, onlyAgain, ok_bind, dif_pos apart]
  · cases built

private theorem newRelType_spec {discriminator : Option String} {types : Types}
    {existence : List String} {decl : RelTypeDef}
    (built : RelTypeDef.new discriminator types existence = .ok decl) :
    decl.discriminator = discriminator ∧ decl.types = types ∧
      AscendsIn canonicalStrCmp decl.existence ∧
      (AscendsIn canonicalStrCmp existence → decl.existence = existence) ∧
      RelTypeDef.new decl.discriminator decl.types decl.existence = .ok decl := by
  rw [RelTypeDef.new] at built
  split at built
  · cases built
  next named =>
  simp only [bind_eq_ok] at built
  obtain ⟨⟨⟩, checked, kept, keptDone, done⟩ := built
  cases done
  obtain ⟨keptAscends, keptAgain, keptSame⟩ := normaliseNames_spec keptDone
  refine ⟨rfl, rfl, keptAscends, keptSame, ?_⟩
  rw [RelTypeDef.new]
  simp only [if_neg named, checked, keptAgain, ok_bind]

private theorem newIndex_spec {label : String} {properties : List String}
    {decl : IndexDef} :
    IndexDef.new label properties = .ok decl ↔
      decl.label = label ∧ decl.properties = properties := by
  constructor
  · intro built
    rw [IndexDef.new] at built
    repeat' split at built
    all_goals cases built
    exact ⟨rfl, rfl⟩
  · rintro ⟨rfl, rfl⟩
    rw [IndexDef.new, dif_neg decl.named, dif_neg decl.filled, dif_neg decl.allNamed]

private theorem decodeEntryKey_eq_ok {key : Bytes} {kind name : String} :
    decodeEntryKey key = .ok (kind, name) ↔ name ≠ "" ∧ key = entryKey kind name := by
  simp only [decodeEntryKey, bind_eq_ok, mapError_eq_ok]
  constructor
  · rintro ⟨tuple, decoded, decided⟩
    split at decided
    · next first second =>
        rw [guard_eq_ok] at decided
        obtain ⟨named, done⟩ := decided
        cases done
        have encoded := encodeKey_of_decodeKey decoded
        rw [encodeKey_entryKey] at encoded
        exact ⟨named, (Except.ok.inj encoded).symm⟩
    · cases decided
  · rintro ⟨named, rfl⟩
    refine ⟨_, decodeKey_of_encodeKey (encodeKey_entryKey kind name), ?_⟩
    simp only [canonicalAll, canonical]
    rw [if_neg named]

private theorem label_roundTrip {name : String} {decl : LabelDef}
    (built : (SchemaEntry.label name decl).Built)
    (fits : (encodeEntry (.label name decl)).length < 2 ^ 64) :
    readLabelDef (encodeEntry (.label name decl)) = .ok (decl, []) := by
  obtain ⟨key, surrogate, types, existence, unique, constructed⟩ := built
  obtain ⟨-, -, -, existenceAscends, uniqueAscends, -, -, again⟩ := build_spec constructed
  simp only [encodeEntry, List.length_append] at fits
  have readKey := @readNameArray_written false decl.key nofun (by omega)
  have readTyped := @readTypes_written decl.types (by omega)
  have readExistence := @readNameArray_written true decl.existence
    (fun _ => existenceAscends) (by omega)
  have readUnique := @readNameArray_written true decl.unique (fun _ => uniqueAscends)
    (by omega)
  simp only [readLabelDef, encodeEntry, bind_eq_ok, Prod.exists,
    expectMap_eq_ok (show 5 < 2 ^ 64 by decide)]
  exact ⟨_, rfl, _, (expectField_eq_ok (by decide)).mpr rfl, decl.key, _, readKey _, _,
    (expectField_eq_ok (by decide)).mpr rfl, decl.types, _, readTyped _, _,
    (expectField_eq_ok (by decide)).mpr rfl, decl.existence, _, readExistence _, _,
    (expectField_eq_ok (by decide)).mpr rfl, decl.unique, _, readUnique _, _,
    (expectField_eq_ok (by decide)).mpr rfl, decl.surrogate, [],
    readBool_eq_ok.mpr (by rw [List.append_nil]), decl, again, rfl⟩

private theorem relType_roundTrip {name : String} {decl : RelTypeDef}
    (built : (SchemaEntry.relType name decl).Built)
    (fits : (encodeEntry (.relType name decl)).length < 2 ^ 64) :
    readRelTypeDef (encodeEntry (.relType name decl)) = .ok (decl, []) := by
  obtain ⟨discriminator, types, existence, constructed⟩ := built
  obtain ⟨-, -, existenceAscends, -, again⟩ := newRelType_spec constructed
  simp only [encodeEntry, List.length_append] at fits
  have short : ∀ content ∈ decl.discriminator, (utf8 content).length < 2 ^ 64 := by
    intro content isContent
    have written : (writeOptionalText decl.discriminator).length =
        (writeHead majorText (utf8 content).length).length + (utf8 content).length := by
      rw [Option.mem_def.mp isContent, writeOptionalText, writeText, List.length_append]
    omega
  have readTyped := @readTypes_written decl.types (by omega)
  have readExistence := @readNameArray_written true decl.existence
    (fun _ => existenceAscends) (by omega) []
  rw [List.append_nil] at readExistence
  simp only [readRelTypeDef, encodeEntry, bind_eq_ok, Prod.exists,
    expectMap_eq_ok (show 3 < 2 ^ 64 by decide)]
  exact ⟨_, rfl, _, (expectField_eq_ok (by decide)).mpr rfl, decl.discriminator, _,
    readOptionalText_eq_ok.mpr ⟨short, rfl⟩, _, (expectField_eq_ok (by decide)).mpr rfl,
    decl.types, _, readTyped _, _, (expectField_eq_ok (by decide)).mpr rfl,
    decl.existence, [], readExistence, decl, again, rfl⟩

private theorem index_roundTrip {name : String} {decl : IndexDef}
    (fits : (encodeEntry (.index name decl)).length < 2 ^ 64) :
    readIndexDef (encodeEntry (.index name decl)) = .ok (decl, []) := by
  simp only [encodeEntry, List.length_append, writeNameArray] at fits
  have present := length_le_writeNames decl.properties
  have labelShort : (utf8 decl.label).length < 2 ^ 64 := by
    have written : (writeText decl.label).length =
        (writeHead majorText (utf8 decl.label).length).length +
          (utf8 decl.label).length := by
      rw [writeText, List.length_append]
    omega
  simp only [readIndexDef, encodeEntry, bind_eq_ok, Prod.exists, mapError_eq_ok,
    expectMap_eq_ok (show 2 < 2 ^ 64 by decide), readText_eq_ok,
    readHead_eq_ok (by decide : majorArray < 8), readNames_eq_ok]
  refine ⟨_, rfl, _, (expectField_eq_ok (by decide)).mpr rfl, decl.label, _,
    ⟨labelShort, rfl⟩, _, (expectField_eq_ok (by decide)).mpr rfl,
    decl.properties.length, writeNames decl.properties, ⟨by omega, rfl⟩,
    decl.properties, [], ⟨rfl, ?_, nofun, by rw [List.append_nil]⟩, decl,
    newIndex_spec.mpr ⟨rfl, rfl⟩, rfl⟩
  intro property member
  have short := length_le_of_mem member
  omega

theorem decodeEntry_of_encodeEntry {entry : SchemaEntry} (built : entry.Built)
    (named : entry.name ≠ "") (fits : (encodeEntry entry).length < 2 ^ 64) :
    decodeEntry entry.mapKey (encodeEntry entry) = .ok entry := by
  simp only [decodeEntry, bind_eq_ok, Prod.exists]
  cases entry with
  | label name decl =>
      refine ⟨kindLabel, name, decodeEntryKey_eq_ok.mpr ⟨named, rfl⟩,
        .label name decl, [], ?_, rfl⟩
      simp only [readEntry, if_true, label_roundTrip built fits, ok_bind]
  | relType name decl =>
      refine ⟨kindRtype, name, decodeEntryKey_eq_ok.mpr ⟨named, rfl⟩,
        .relType name decl, [], ?_, rfl⟩
      have notLabel : kindRtype ≠ kindLabel := by decide
      simp only [readEntry, if_neg notLabel, if_true, relType_roundTrip built fits, ok_bind]
  | index name decl =>
      refine ⟨kindIndex, name, decodeEntryKey_eq_ok.mpr ⟨named, rfl⟩,
        .index name decl, [], ?_, rfl⟩
      have notLabel : kindIndex ≠ kindLabel := by decide
      have notRtype : kindIndex ≠ kindRtype := by decide
      simp only [readEntry, if_neg notLabel, if_neg notRtype, if_true,
        index_roundTrip fits, ok_bind]

private theorem label_strict {name : String} {decl : LabelDef} {input rest : Bytes}
    (read : readLabelDef input = .ok (decl, rest)) :
    input = encodeEntry (.label name decl) ++ rest := by
  simp only [readLabelDef, bind_eq_ok, Prod.exists, Except.ok.injEq, Prod.mk.injEq,
    expectMap_eq_ok (show 5 < 2 ^ 64 by decide), readBool_eq_ok] at read
  obtain ⟨body, rfl, _, keyField, key, _, readKey, _, typesField, types, _, readTyped, _,
    existsField, existence, _, readExistence, _, uniqueField, unique, _, readUnique, _,
    surrogateField, surrogate, after, rfl, found, constructed, rfl, rfl⟩ := read
  obtain ⟨existenceAscends, existenceSplit⟩ := readNameArray_strict readExistence
  obtain ⟨uniqueAscends, uniqueSplit⟩ := readNameArray_strict readUnique
  obtain ⟨sameKey, sameSurrogate, sameTypes, -, -, sameExistence, sameUnique, -⟩ :=
    build_spec constructed
  rw [(expectField_eq_ok (by decide)).mp keyField, (readNameArray_strict readKey).2,
    (expectField_eq_ok (by decide)).mp typesField, readTypes_strict readTyped,
    (expectField_eq_ok (by decide)).mp existsField, existenceSplit,
    (expectField_eq_ok (by decide)).mp uniqueField, uniqueSplit,
    (expectField_eq_ok (by decide)).mp surrogateField]
  simp only [encodeEntry, sameKey, sameSurrogate, sameTypes,
    sameExistence (existenceAscends rfl), sameUnique (uniqueAscends rfl),
    List.append_assoc]

private theorem relType_strict {name : String} {decl : RelTypeDef} {input rest : Bytes}
    (read : readRelTypeDef input = .ok (decl, rest)) :
    input = encodeEntry (.relType name decl) ++ rest := by
  simp only [readRelTypeDef, bind_eq_ok, Prod.exists, Except.ok.injEq, Prod.mk.injEq,
    expectMap_eq_ok (show 3 < 2 ^ 64 by decide)] at read
  obtain ⟨body, rfl, _, discField, discriminator, _, readDisc, _, typesField, types, _,
    readTyped, _, existsField, existence, after, readExistence, found, constructed, rfl,
    rfl⟩ := read
  obtain ⟨existenceAscends, existenceSplit⟩ := readNameArray_strict readExistence
  obtain ⟨sameDiscriminator, sameTypes, -, sameExistence, -⟩ :=
    newRelType_spec constructed
  rw [(expectField_eq_ok (by decide)).mp discField,
    (readOptionalText_eq_ok.mp readDisc).2,
    (expectField_eq_ok (by decide)).mp typesField, readTypes_strict readTyped,
    (expectField_eq_ok (by decide)).mp existsField, existenceSplit]
  simp only [encodeEntry, sameDiscriminator, sameTypes,
    sameExistence (existenceAscends rfl), List.append_assoc]

private theorem index_strict {name : String} {decl : IndexDef} {input rest : Bytes}
    (read : readIndexDef input = .ok (decl, rest)) :
    input = encodeEntry (.index name decl) ++ rest := by
  simp only [readIndexDef, bind_eq_ok, Prod.exists, mapError_eq_ok, Except.ok.injEq,
    Prod.mk.injEq, expectMap_eq_ok (show 2 < 2 ^ 64 by decide), readText_eq_ok,
    readHead_eq_ok (by decide : majorArray < 8), readNames_eq_ok, newIndex_spec] at read
  obtain ⟨body, rfl, _, labelField, label, _, ⟨-, rfl⟩, _, propertiesField, count, _,
    ⟨-, rfl⟩, properties, after, ⟨rfl, -, -, rfl⟩, found, ⟨sameLabel, sameProperties⟩, rfl,
    rfl⟩ := read
  rw [(expectField_eq_ok (by decide)).mp labelField,
    (expectField_eq_ok (by decide)).mp propertiesField]
  simp only [encodeEntry, writeNameArray, sameLabel, sameProperties, List.append_assoc]

theorem encodeEntry_of_decodeEntry {key value : Bytes} {entry : SchemaEntry}
    (decoded : decodeEntry key value = .ok entry) :
    entry.mapKey = key ∧ encodeEntry entry = value := by
  simp only [decodeEntry, bind_eq_ok, Prod.exists, guard_eq_ok, decodeEntryKey_eq_ok,
    ne_eq, not_not, Except.ok.injEq] at decoded
  obtain ⟨kind, name, ⟨-, rfl⟩, found, rest, read, empty, rfl⟩ := decoded
  have none : rest = [] := List.length_eq_zero_iff.mp empty
  subst none
  rw [readEntry] at read
  split at read
  · next isLabel =>
      simp only [bind_eq_ok, Prod.exists, Except.ok.injEq, Prod.mk.injEq] at read
      obtain ⟨decl, after, readDecl, rfl, rfl⟩ := read
      have split := @label_strict name _ _ _ readDecl
      rw [List.append_nil] at split
      exact ⟨by rw [isLabel]; rfl, split.symm⟩
  split at read
  · next isRtype =>
      simp only [bind_eq_ok, Prod.exists, Except.ok.injEq, Prod.mk.injEq] at read
      obtain ⟨decl, after, readDecl, rfl, rfl⟩ := read
      have split := @relType_strict name _ _ _ readDecl
      rw [List.append_nil] at split
      exact ⟨by rw [isRtype]; rfl, split.symm⟩
  split at read
  · next isIndex =>
      simp only [bind_eq_ok, Prod.exists, Except.ok.injEq, Prod.mk.injEq] at read
      obtain ⟨decl, after, readDecl, rfl, rfl⟩ := read
      have split := @index_strict name _ _ _ readDecl
      rw [List.append_nil] at split
      exact ⟨by rw [isIndex]; rfl, split.symm⟩
  · cases read

end Cbor

end Acetone.Model

import Acetone.Model.KeyRoundTrip

/-!
# Graph keys

The keys of the `nodes`, `edges_fwd`, `edges_rev` and `idx/<name>` maps, as
tuples of the order-preserving encoding.  A key in existence has passed the
checks of its constructor, so it is carried together with that fact.
-/

namespace Acetone.Model

open Acetone.Lib

inductive GraphKeyError where
  | emptyName (context : String)
  | emptyKeyTuple
  | nullKeyValue
  | nonScalar (context : String)
  | nanKeyValue (context : String)
  | encode (cause : KeyEncodeError)
  | decode (cause : KeyDecodeError)
  | shape (reason : String)
deriving DecidableEq, Repr

/-- A key error seen as a graph key error. -/
def liftEncode {α : Type} : Except KeyEncodeError α → Except GraphKeyError α
  | .ok value => .ok value
  | .error cause => .error (.encode cause)

def liftDecode {α : Type} : Except KeyDecodeError α → Except GraphKeyError α
  | .ok value => .ok value
  | .error cause => .error (.decode cause)

@[simp] theorem liftEncode_eq_ok {α : Type} {result : Except KeyEncodeError α}
    {value : α} : liftEncode result = .ok value ↔ result = .ok value := by
  cases result <;> simp [liftEncode]

@[simp] theorem liftDecode_eq_ok {α : Type} {result : Except KeyDecodeError α}
    {value : α} : liftDecode result = .ok value ↔ result = .ok value := by
  cases result <;> simp [liftDecode]

def checkScalar (value : Value) (context : String) : Except GraphKeyError Unit :=
  match value with
  | .list _ => .error (.nonScalar context)
  | .float bits => if isNan bits then .error (.nanKeyValue context) else .ok ()
  | _ => .ok ()

def checkKeyTuple : List Value → Except GraphKeyError Unit
  | [] => .ok ()
  | value :: values =>
      if value = .null then .error .nullKeyValue
      else do
        checkScalar value "node key tuple"
        checkKeyTuple values

def checkNodeKey (label : String) (key : List Value) :
    Except GraphKeyError Unit :=
  if label = "" then .error (.emptyName "primary label")
  else if key = [] then .error .emptyKeyTuple
  else checkKeyTuple key

/-- A node's identity: its primary label and its key tuple. -/
structure NodeKey where
  label : String
  key : List Value
  checked : checkNodeKey label key = .ok ()
deriving DecidableEq

namespace NodeKey

def new (label : String) (key : List Value) : Except GraphKeyError NodeKey :=
  match checked : checkNodeKey label key with
  | .ok () => .ok ⟨label, key, checked⟩
  | .error cause => .error cause

def toValue (node : NodeKey) : Value :=
  .list (.string node.label :: node.key)

def fromValue : Value → Except GraphKeyError NodeKey
  | .list (.string label :: key) => new label key
  | .list _ => .error (.shape "node key list must start with a string label")
  | _ => .error (.shape "node key must be a list element")

/-- The `nodes`-map key, and the form embedded in edge and index keys. -/
def encode (node : NodeKey) : Except GraphKeyError Bytes :=
  liftEncode (encodeKey [node.toValue])

def decode (bytes : Bytes) : Except GraphKeyError NodeKey := do
  match ← liftDecode (decodeKey bytes) with
  | [elem] => fromValue elem
  | _ => .error (.shape "nodes-map key must be a single list element")

end NodeKey

def checkEdgeKey (rtype : String) (disc : Value) : Except GraphKeyError Unit :=
  if rtype = "" then .error (.emptyName "relationship type")
  else checkScalar disc "discriminator"

/-- A relationship's identity; the discriminator is null by default. -/
structure EdgeKey where
  src : NodeKey
  rtype : String
  dst : NodeKey
  disc : Value
  checked : checkEdgeKey rtype disc = .ok ()
deriving DecidableEq

namespace EdgeKey

def new (src : NodeKey) (rtype : String) (dst : NodeKey) (disc : Value) :
    Except GraphKeyError EdgeKey :=
  match checked : checkEdgeKey rtype disc with
  | .ok () => .ok ⟨src, rtype, dst, disc, checked⟩
  | .error cause => .error cause

def encodeTuple (edge : EdgeKey) (first second : NodeKey) :
    Except GraphKeyError Bytes :=
  liftEncode (encodeKey
    [first.toValue, .string edge.rtype, second.toValue, edge.disc])

def encodeFwd (edge : EdgeKey) : Except GraphKeyError Bytes :=
  edge.encodeTuple edge.src edge.dst

def encodeRev (edge : EdgeKey) : Except GraphKeyError Bytes :=
  edge.encodeTuple edge.dst edge.src

def decodeTuple (bytes : Bytes) :
    Except GraphKeyError (NodeKey × String × NodeKey × Value) := do
  match ← liftDecode (decodeKey bytes) with
  | [first, .string rtype, second, disc] => do
      let first ← NodeKey.fromValue first
      let second ← NodeKey.fromValue second
      .ok (first, rtype, second, disc)
  | [_, _, _, _] =>
      .error (.shape "edge key second element must be a string type")
  | _ => .error (.shape "edge key must have exactly four elements")

def decodeFwd (bytes : Bytes) : Except GraphKeyError EdgeKey := do
  let (src, rtype, dst, disc) ← decodeTuple bytes
  new src rtype dst disc

/-- The first element is the target. -/
def decodeRev (bytes : Bytes) : Except GraphKeyError EdgeKey := do
  let (dst, rtype, src, disc) ← decodeTuple bytes
  new src rtype dst disc

end EdgeKey

def checkIndexEntry (label : String) (properties : List String)
    (values : List Value) : Except GraphKeyError Unit :=
  if label = "" then .error (.emptyName "index label")
  else if properties = [] then .error (.emptyName "index property")
  else if properties.any (· = "") then .error (.emptyName "index property")
  else if properties.length ≠ values.length then
    .error (.shape "index entry property and value counts differ")
  else .ok ()

structure IndexEntry where
  label : String
  properties : List String
  values : List Value
  node : NodeKey
  checked : checkIndexEntry label properties values = .ok ()
deriving DecidableEq

namespace IndexEntry

def new (label : String) (properties : List String) (values : List Value)
    (node : NodeKey) : Except GraphKeyError IndexEntry :=
  match checked : checkIndexEntry label properties values with
  | .ok () => .ok ⟨label, properties, values, node, checked⟩
  | .error cause => .error cause

def encode (entry : IndexEntry) : Except GraphKeyError Bytes :=
  liftEncode (encodeKey [.string entry.label,
    .list (entry.properties.map .string), .list entry.values,
    entry.node.toValue])

def propertyName : Value → Except GraphKeyError String
  | .string name => .ok name
  | _ => .error (.shape "index property names must be strings")

def decode (bytes : Bytes) : Except GraphKeyError IndexEntry := do
  match ← liftDecode (decodeKey bytes) with
  | [.string label, .list properties, .list values, node] => do
      let properties ← properties.mapM propertyName
      let node ← NodeKey.fromValue node
      new label properties values node
  | [_, _, _, _] =>
      .error (.shape "index key must be [label, [properties], [values], node]")
  | _ => .error (.shape "index key must have exactly four elements")

end IndexEntry

namespace NodeKey

theorem new_eq_ok {label : String} {key : List Value} {node : NodeKey} :
    new label key = .ok node ↔ node.label = label ∧ node.key = key := by
  obtain ⟨ofLabel, ofKey, checked⟩ := node
  rw [new]
  constructor
  · intro made
    split at made
    · cases made
      exact ⟨rfl, rfl⟩
    · cases made
  · rintro ⟨rfl, rfl⟩
    split
    · rfl
    · next failed => exact absurd (checked.symm.trans failed) nofun

theorem fromValue_eq_ok {value : Value} {node : NodeKey} :
    fromValue value = .ok node ↔ node.toValue = value := by
  constructor
  · intro made
    unfold fromValue at made
    split at made
    · obtain ⟨rfl, rfl⟩ := new_eq_ok.mp made
      rfl
    · cases made
    · cases made
  · rintro rfl
    exact new_eq_ok.mpr ⟨rfl, rfl⟩

theorem decode_eq_ok {bytes : Bytes} {node : NodeKey} :
    decode bytes = .ok node ↔ decodeKey bytes = .ok [node.toValue] := by
  rw [decode, bind_eq_ok]
  constructor
  · rintro ⟨tuple, decoded, shaped⟩
    rw [liftDecode_eq_ok] at decoded
    split at shaped
    · rw [decoded, fromValue_eq_ok.mp shaped]
    · cases shaped
  · intro decoded
    exact ⟨_, liftDecode_eq_ok.mpr decoded, fromValue_eq_ok.mpr rfl⟩

theorem encode_of_decode {bytes : Bytes} {node : NodeKey}
    (decoded : decode bytes = .ok node) : node.encode = .ok bytes :=
  liftEncode_eq_ok.mpr (encodeKey_of_decodeKey (decode_eq_ok.mp decoded))

private theorem checkKeyTuple_canonicalAll {key : List Value}
    (checked : checkKeyTuple key = .ok ()) :
    checkKeyTuple (canonicalAll key) = .ok () := by
  induction key with
  | nil => rfl
  | cons value values ih =>
      rw [checkKeyTuple] at checked
      split at checked
      · cases checked
      · next notNull =>
          obtain ⟨⟨⟩, scalar, others⟩ := bind_eq_ok.mp checked
          have stillNotNull : canonical value ≠ .null := by
            cases value <;> simp [canonical] at notNull ⊢
          have stillScalar :
              checkScalar (canonical value) "node key tuple" = .ok () := by
            cases value with
            | float bits =>
                have number : ¬ isNan bits := by
                  intro nan
                  rw [checkScalar, if_pos nan] at scalar
                  cases scalar
                rw [canonical, checkScalar, if_neg (isNan_normaliseZero number)]
            | list items => cases scalar
            | _ => rfl
          rw [canonicalAll, checkKeyTuple, if_neg stillNotNull, stillScalar, ok_bind]
          exact ih others

theorem decode_of_encode {node : NodeKey} {bytes : Bytes}
    (encoded : node.encode = .ok bytes) :
    ∃ stored : NodeKey, decode bytes = .ok stored ∧ stored.label = node.label ∧
      stored.key = canonicalAll node.key := by
  have checked := node.checked
  rw [checkNodeKey] at checked
  have stillChecked : checkNodeKey node.label (canonicalAll node.key) = .ok () := by
    split at checked
    · cases checked
    · next named =>
        split at checked
        · cases checked
        · next filled =>
            have stillFilled : canonicalAll node.key ≠ [] := by
              cases key : node.key with
              | nil => exact absurd key filled
              | cons value values => exact List.cons_ne_nil _ _
            rw [checkNodeKey, if_neg named, if_neg stillFilled]
            exact checkKeyTuple_canonicalAll checked
  refine ⟨⟨_, _, stillChecked⟩, decode_eq_ok.mpr ?_, rfl, rfl⟩
  exact decodeKey_of_encodeKey (liftEncode_eq_ok.mp encoded)

theorem canonical_of_decode {bytes : Bytes} {node : NodeKey}
    (decoded : decode bytes = .ok node) : canonical node.toValue = node.toValue :=
  List.head_eq_of_cons_eq (canonicalAll_of_decodeKey (decode_eq_ok.mp decoded))

theorem toValue_injective : Function.Injective toValue := by
  rintro ⟨label, key, _⟩ ⟨other, others, _⟩ same
  cases same
  rfl

end NodeKey

namespace EdgeKey

theorem new_eq_ok {src dst : NodeKey} {rtype : String} {disc : Value}
    {edge : EdgeKey} : new src rtype dst disc = .ok edge ↔
      edge.src = src ∧ edge.rtype = rtype ∧ edge.dst = dst ∧ edge.disc = disc := by
  obtain ⟨ofSrc, ofType, ofDst, ofDisc, checked⟩ := edge
  rw [new]
  constructor
  · intro made
    split at made
    · cases made
      exact ⟨rfl, rfl, rfl, rfl⟩
    · cases made
  · rintro ⟨rfl, rfl, rfl, rfl⟩
    split
    · rfl
    · next failed => exact absurd (checked.symm.trans failed) nofun

theorem decodeFwd_eq_ok {bytes : Bytes} {edge : EdgeKey} :
    decodeFwd bytes = .ok edge ↔ decodeKey bytes =
      .ok [edge.src.toValue, .string edge.rtype, edge.dst.toValue, edge.disc] := by
  simp only [decodeFwd, decodeTuple, bind_eq_ok, liftDecode_eq_ok, Prod.exists]
  constructor
  · rintro ⟨src, rtype, dst, disc, ⟨tuple, decoded, shaped⟩, made⟩
    split at shaped
    · simp only [bind_eq_ok, NodeKey.fromValue_eq_ok] at shaped
      obtain ⟨first, rfl, second, rfl, ⟨⟩⟩ := shaped
      obtain ⟨rfl, rfl, rfl, rfl⟩ := new_eq_ok.mp made
      exact decoded
    · cases shaped
    · cases shaped
  · intro decoded
    refine ⟨edge.src, edge.rtype, edge.dst, edge.disc, ⟨_, decoded, ?_⟩,
      new_eq_ok.mpr ⟨rfl, rfl, rfl, rfl⟩⟩
    simp only [bind_eq_ok, NodeKey.fromValue_eq_ok]
    exact ⟨_, rfl, _, rfl, rfl⟩

/-- The reverse key leads with the target. -/
theorem decodeRev_eq_ok {bytes : Bytes} {edge : EdgeKey} :
    decodeRev bytes = .ok edge ↔ decodeKey bytes =
      .ok [edge.dst.toValue, .string edge.rtype, edge.src.toValue, edge.disc] := by
  simp only [decodeRev, decodeTuple, bind_eq_ok, liftDecode_eq_ok, Prod.exists]
  constructor
  · rintro ⟨dst, rtype, src, disc, ⟨tuple, decoded, shaped⟩, made⟩
    split at shaped
    · simp only [bind_eq_ok, NodeKey.fromValue_eq_ok] at shaped
      obtain ⟨first, rfl, second, rfl, ⟨⟩⟩ := shaped
      obtain ⟨rfl, rfl, rfl, rfl⟩ := new_eq_ok.mp made
      exact decoded
    · cases shaped
    · cases shaped
  · intro decoded
    refine ⟨edge.dst, edge.rtype, edge.src, edge.disc, ⟨_, decoded, ?_⟩,
      new_eq_ok.mpr ⟨rfl, rfl, rfl, rfl⟩⟩
    simp only [bind_eq_ok, NodeKey.fromValue_eq_ok]
    exact ⟨_, rfl, _, rfl, rfl⟩

theorem encodeFwd_of_decodeFwd {bytes : Bytes} {edge : EdgeKey}
    (decoded : decodeFwd bytes = .ok edge) : edge.encodeFwd = .ok bytes :=
  liftEncode_eq_ok.mpr (encodeKey_of_decodeKey (decodeFwd_eq_ok.mp decoded))

theorem encodeTuple_eq_ok {edge : EdgeKey} {first second : NodeKey} {bytes : Bytes} :
    edge.encodeTuple first second = .ok bytes ↔
      ∃ leading following disc rtype, first.encode = .ok leading ∧
        second.encode = .ok following ∧ writeElement edge.disc 0 = .ok disc ∧
        writeElement (.string edge.rtype) 0 = .ok rtype ∧
        bytes = leading ++ (rtype ++ (following ++ disc)) := by
  simp only [encodeTuple, NodeKey.encode, liftEncode_eq_ok, encodeKey, writeElements,
    bind_eq_ok, Except.ok.injEq]
  constructor
  · rintro ⟨leading, isLeading, _, ⟨rtype, isType, _, ⟨following, isFollowing, _,
      ⟨disc, isDisc, _, rfl, rfl⟩, rfl⟩, rfl⟩, rfl⟩
    refine ⟨leading ++ [], following ++ [], disc, rtype, ⟨leading, isLeading, _, rfl, rfl⟩,
      ⟨following, isFollowing, _, rfl, rfl⟩, isDisc, isType, ?_⟩
    simp only [List.append_nil]
  · rintro ⟨_, _, disc, rtype, ⟨leading, isLeading, _, rfl, rfl⟩,
      ⟨following, isFollowing, _, rfl, rfl⟩, isDisc, isType, rfl⟩
    refine ⟨leading, isLeading, _, ⟨rtype, isType, _, ⟨following, isFollowing, _,
      ⟨disc, isDisc, _, rfl, rfl⟩, rfl⟩, rfl⟩, ?_⟩
    simp only [List.append_nil]

theorem encodeRev_of_encodeFwd {edge : EdgeKey} {forward : Bytes}
    (encoded : edge.encodeFwd = .ok forward) :
    ∃ backward, edge.encodeRev = .ok backward := by
  obtain ⟨leading, following, disc, rtype, first, second, isDisc, isType, -⟩ :=
    encodeTuple_eq_ok.mp encoded
  exact ⟨_, encodeTuple_eq_ok.mpr
    ⟨following, leading, disc, rtype, second, first, isDisc, isType, rfl⟩⟩

private theorem checkEdgeKey_canonical {rtype : String} {disc : Value}
    (checked : checkEdgeKey rtype disc = .ok ()) :
    checkEdgeKey rtype (canonical disc) = .ok () := by
  rw [checkEdgeKey, guard_eq_ok] at checked ⊢
  refine ⟨checked.1, ?_⟩
  cases disc with
  | float bits =>
      have number : ¬ isNan bits := by
        intro nan
        have scalar := checked.2
        rw [checkScalar, if_pos nan] at scalar
        cases scalar
      rw [canonical, checkScalar, if_neg (isNan_normaliseZero number)]
  | list items => cases checked.2
  | _ => exact checked.2

/-- An encoded edge key reads back, in either direction, as one stored key. -/
theorem decode_of_encode {edge : EdgeKey} {forward backward : Bytes}
    (encodedFwd : edge.encodeFwd = .ok forward)
    (encodedRev : edge.encodeRev = .ok backward) :
    ∃ stored : EdgeKey, decodeFwd forward = .ok stored ∧
      decodeRev backward = .ok stored ∧ stored.rtype = edge.rtype := by
  obtain ⟨leading, following, -, -, first, second, -⟩ := encodeTuple_eq_ok.mp encodedFwd
  obtain ⟨src, -, srcLabel, srcKey⟩ := NodeKey.decode_of_encode first
  obtain ⟨dst, -, dstLabel, dstKey⟩ := NodeKey.decode_of_encode second
  have srcValue : src.toValue = canonical edge.src.toValue := by
    simp only [NodeKey.toValue, canonical, canonicalAll, srcLabel, srcKey]
  have dstValue : dst.toValue = canonical edge.dst.toValue := by
    simp only [NodeKey.toValue, canonical, canonicalAll, dstLabel, dstKey]
  refine ⟨⟨src, edge.rtype, dst, canonical edge.disc,
    checkEdgeKey_canonical edge.checked⟩, ?_, ?_, rfl⟩
  · rw [decodeFwd_eq_ok, decodeKey_of_encodeKey (liftEncode_eq_ok.mp encodedFwd)]
    simp only [canonicalAll, srcValue, dstValue]
    simp only [canonical]
  · rw [decodeRev_eq_ok, decodeKey_of_encodeKey (liftEncode_eq_ok.mp encodedRev)]
    simp only [canonicalAll, srcValue, dstValue]
    simp only [canonical]

theorem disc_of_decodeFwd {edge stored : EdgeKey} {bytes : Bytes}
    (encoded : edge.encodeFwd = .ok bytes) (decoded : decodeFwd bytes = .ok stored) :
    stored.rtype = edge.rtype ∧ stored.disc = canonical edge.disc := by
  rw [decodeFwd_eq_ok, decodeKey_of_encodeKey (liftEncode_eq_ok.mp encoded)] at decoded
  simp only [canonicalAll, canonical, Except.ok.injEq, List.cons.injEq, Value.string.injEq,
    and_true] at decoded
  exact ⟨decoded.2.1.symm, decoded.2.2.2.symm⟩

theorem labels_of_decodeFwd {edge stored : EdgeKey} {bytes : Bytes}
    (encoded : edge.encodeFwd = .ok bytes) (decoded : decodeFwd bytes = .ok stored) :
    stored.src.label = edge.src.label ∧ stored.dst.label = edge.dst.label := by
  rw [decodeFwd_eq_ok, decodeKey_of_encodeKey (liftEncode_eq_ok.mp encoded)] at decoded
  simp only [NodeKey.toValue, canonicalAll, canonical, Except.ok.injEq, List.cons.injEq,
    Value.list.injEq, Value.string.injEq, and_true] at decoded
  exact ⟨decoded.1.1.symm, decoded.2.2.1.1.symm⟩

theorem encodeRev_of_decodeRev {bytes : Bytes} {edge : EdgeKey}
    (decoded : decodeRev bytes = .ok edge) : edge.encodeRev = .ok bytes :=
  liftEncode_eq_ok.mpr (encodeKey_of_decodeKey (decodeRev_eq_ok.mp decoded))

theorem endpoint_of_decodeFwd {bytes : Bytes} {edge : EdgeKey}
    (decoded : decodeFwd bytes = .ok edge) :
    ∃ src dst, edge.src.encode = .ok src ∧ edge.dst.encode = .ok dst ∧
      NodeKey.decode src = .ok edge.src ∧ NodeKey.decode dst = .ok edge.dst := by
  obtain ⟨src, dst, -, -, first, second, -⟩ :=
    encodeTuple_eq_ok.mp (encodeFwd_of_decodeFwd decoded)
  have parts := canonicalAll_of_decodeKey (decodeFwd_eq_ok.mp decoded)
  simp only [canonicalAll, List.cons.injEq] at parts
  refine ⟨src, dst, first, second, ?_, ?_⟩
  · rw [NodeKey.decode_eq_ok, decodeKey_of_encodeKey (liftEncode_eq_ok.mp first)]
    simp only [canonicalAll, parts.1]
  · rw [NodeKey.decode_eq_ok, decodeKey_of_encodeKey (liftEncode_eq_ok.mp second)]
    simp only [canonicalAll, parts.2.2.1]

end EdgeKey

namespace IndexEntry

theorem new_eq_ok {label : String} {properties : List String} {values : List Value}
    {node : NodeKey} {entry : IndexEntry} : new label properties values node = .ok entry ↔
      entry.label = label ∧ entry.properties = properties ∧ entry.values = values ∧
        entry.node = node := by
  obtain ⟨ofLabel, ofProperties, ofValues, ofNode, checked⟩ := entry
  rw [new]
  constructor
  · intro made
    split at made
    · cases made
      exact ⟨rfl, rfl, rfl, rfl⟩
    · cases made
  · rintro ⟨rfl, rfl, rfl, rfl⟩
    split
    · rfl
    · next failed => exact absurd (checked.symm.trans failed) nofun

private theorem propertyNames_eq_ok {values : List Value} {names : List String}
    (read : values.mapM propertyName = .ok names) : values = names.map .string := by
  have each := mapM_eq_ok.mp read
  clear read
  induction each with
  | nil => rfl
  | @cons value name values names isName _ ih =>
      cases value with
      | string text =>
          cases isName
          rw [ih, List.map_cons]
      | _ => cases isName

theorem encode_of_decode {bytes : Bytes} {entry : IndexEntry}
    (decoded : decode bytes = .ok entry) : entry.encode = .ok bytes := by
  rw [decode] at decoded
  obtain ⟨tuple, isTuple, decoded⟩ := bind_eq_ok.mp decoded
  rw [liftDecode_eq_ok] at isTuple
  split at decoded
  · obtain ⟨names, areNames, decoded⟩ := bind_eq_ok.mp decoded
    obtain ⟨node, isNode, made⟩ := bind_eq_ok.mp decoded
    obtain ⟨rfl, rfl, rfl, rfl⟩ := new_eq_ok.mp made
    rw [propertyNames_eq_ok areNames, ← NodeKey.fromValue_eq_ok.mp isNode] at isTuple
    exact liftEncode_eq_ok.mpr (encodeKey_of_decodeKey isTuple)
  · cases decoded
  · cases decoded

theorem encode_node {bytes : Bytes} {entry : IndexEntry} (encoded : entry.encode = .ok bytes) :
    ∃ key, entry.node.encode = .ok key := by
  rw [encode, liftEncode_eq_ok] at encoded
  simp only [encodeKey, writeElements, bind_eq_ok] at encoded
  obtain ⟨-, -, -, ⟨-, -, -, ⟨-, -, -, ⟨key, isKey, -⟩, -⟩, -⟩, -⟩ := encoded
  refine ⟨key ++ [], liftEncode_eq_ok.mpr ?_⟩
  rw [encodeKey, writeElements, isKey, ok_bind]
  rfl

end IndexEntry

/-- Entries with one encoding are of one node, if the nodes are stored ones. -/
theorem IndexEntry.node_unique {left right : IndexEntry} {bytes : Bytes}
    (leftEncoded : left.encode = .ok bytes) (rightEncoded : right.encode = .ok bytes)
    {leftKey rightKey : Bytes} (leftStored : NodeKey.decode leftKey = .ok left.node)
    (rightStored : NodeKey.decode rightKey = .ok right.node) :
    leftKey = rightKey := by
  have leftDecoded := decodeKey_of_encodeKey (liftEncode_eq_ok.mp leftEncoded)
  have rightDecoded := decodeKey_of_encodeKey (liftEncode_eq_ok.mp rightEncoded)
  rw [leftDecoded] at rightDecoded
  have sameNode : left.node.toValue = right.node.toValue := by
    simp only [canonicalAll, Except.ok.injEq, List.cons.injEq] at rightDecoded
    rw [← NodeKey.canonical_of_decode leftStored,
      ← NodeKey.canonical_of_decode rightStored]
    exact rightDecoded.2.2.2.1
  have leftAgain := NodeKey.encode_of_decode leftStored
  rw [NodeKey.toValue_injective sameNode,
    NodeKey.encode_of_decode rightStored] at leftAgain
  exact (Except.ok.inj leftAgain).symm

end Acetone.Model

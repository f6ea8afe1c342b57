import Acetone.Model.GraphKeys

/-!
# Prefix scans

Label scans, edge expansion and index probes are ranges of keys with a common
byte prefix.  Elements are self-delimiting, so one encoded tuple starts another
exactly when its elements are the first of the other's; and the half-open range
up to the successor of a byte string holds exactly its extensions.
-/

namespace Acetone.Model

open Acetone.Lib

def nodeLabelPrefix (label : String) : Bytes :=
  (encodeListPrefix [.string label]).toOption.getD []

def edgeEndpointPrefix (node : NodeKey) : Except GraphKeyError Bytes :=
  node.encode

def edgeEndpointTypePrefix (node : NodeKey) (rtype : String) :
    Except GraphKeyError Bytes :=
  liftEncode (encodeKey [node.toValue, .string rtype])

/-- The equality probe of an index; the value list is closed, so it is probed
whole. -/
def indexValuePrefix (label : String) (properties : List String)
    (values : List Value) : Except GraphKeyError Bytes :=
  liftEncode (encodeKey [.string label, .list (properties.map .string), .list values])

/-- The loop of `prefix_successor`, over the bytes from the last to the first. -/
def bumpLast : Bytes → Option Bytes
  | [] => none
  | last :: rest => if last = 0xff then bumpLast rest else some ((last + 1) :: rest)

/-- The least byte string above every extension of `bytes`, if there is one. -/
def prefixSuccessor (bytes : Bytes) : Option Bytes :=
  (bumpLast bytes.reverse).map List.reverse

private theorem bumpLast_concat (reversed : Bytes) (first : UInt8) :
    bumpLast (reversed ++ [first]) =
      match bumpLast reversed with
      | some bumped => some (bumped ++ [first])
      | none => if first = 0xff then none else some [first + 1] := by
  induction reversed with
  | nil => rfl
  | cons last rest ih =>
      rw [List.cons_append, bumpLast, bumpLast, ih]
      split <;> rfl

private theorem prefixSuccessor_cons (first : UInt8) (rest : Bytes) :
    prefixSuccessor (first :: rest) =
      match prefixSuccessor rest with
      | some bumped => some (first :: bumped)
      | none => if first = 0xff then none else some [first + 1] := by
  rw [prefixSuccessor, prefixSuccessor, List.reverse_cons, bumpLast_concat]
  cases bumpLast rest.reverse with
  | none =>
      simp only [Option.map_none]
      split <;> rfl
  | some bumped => simp

private theorem lt_succ_iff {byte other : UInt8} (below : byte ≠ 0xff) :
    other < byte + 1 ↔ other ≤ byte := by
  have bound : byte.toNat < 255 := by
    have small := byte.toNat_lt
    have different : byte.toNat ≠ 255 := fun same => below (UInt8.toNat.inj same)
    omega
  have next : (byte + 1).toNat = byte.toNat + 1 := by
    rw [UInt8.toNat_add]
    exact Nat.mod_eq_of_lt (by simpa using by omega)
  rw [UInt8.lt_iff_toNat_lt, UInt8.le_iff_toNat_le, next]
  omega

/-- The extensions of a byte string are the half-open range to its successor. -/
theorem isPrefix_iff_mem_range (leading bytes : Bytes) :
    leading <+: bytes ↔
      leading ≤ bytes ∧ ∀ successor ∈ prefixSuccessor leading, bytes < successor := by
  induction leading generalizing bytes with
  | nil =>
      have least : ¬ bytes < [] := List.not_lt_nil bytes
      simp [prefixSuccessor, bumpLast, not_lt.mp least]
  | cons first leading ih =>
      cases bytes with
      | nil =>
          have least : ¬ first :: leading ≤ [] := not_le.mpr (List.nil_lt_cons first leading)
          simp [least]
      | cons byte bytes =>
          have starts : first :: leading ≤ byte :: bytes ↔
              ¬ (byte < first ∨ byte = first ∧ bytes < leading) := by
            rw [← not_lt, List.cons_lt_cons_iff]
          rw [List.cons_prefix_cons, starts, prefixSuccessor_cons, ih]
          cases prefixSuccessor leading with
          | some bumped =>
              simp only [Option.mem_def, Option.some.injEq, forall_eq',
                List.cons_lt_cons_iff]
              grind
          | none =>
              by_cases last : first = 0xff
              · have most : byte ≤ first := by
                  rw [last, UInt8.le_iff_toNat_le]
                  exact Nat.le_of_lt_succ byte.toNat_lt
                simp only [if_pos last, Option.mem_def, reduceCtorEq, false_implies,
                  implies_true, and_true]
                grind
              · simp only [if_neg last, Option.mem_def, Option.some.injEq, forall_eq',
                  List.cons_lt_cons_iff, List.not_lt_nil, and_false, or_false,
                  lt_succ_iff last, reduceCtorEq, false_implies, implies_true, and_true]
                grind

/-- A tuple starts another exactly when its bytes do, also where the other is
the open part of a list. -/
private theorem writeElements_isPrefix {depth : Nat} {lefts rights : List Value}
    {leftBytes rightBytes ending : Bytes}
    (closes : ∀ byte ∈ ending.head?, byte = tagListEnd)
    (leftEncoded : writeElements lefts depth = .ok leftBytes)
    (rightEncoded : writeElements rights depth = .ok rightBytes) :
    leftBytes <+: rightBytes ++ ending ↔ canonicalAll lefts <+: canonicalAll rights := by
  induction lefts generalizing rights leftBytes rightBytes with
  | nil =>
      cases leftEncoded
      simp [canonicalAll]
  | cons left lefts ih =>
      obtain ⟨head, tail, first, others, rfl⟩ := writeElements_cons leftEncoded
      cases rights with
      | nil =>
          cases rightEncoded
          obtain ⟨body, rfl⟩ := writeElement_rank first
          simp only [canonicalAll, List.prefix_nil, reduceCtorEq, iff_false,
            List.nil_append]
          intro starts
          cases ending with
          | nil => simp at starts
          | cons byte ending =>
              have same : rank left = byte := (List.cons_prefix_cons.mp starts).1
              have tag := closes byte rfl
              exact (tagListEnd_lt_rank left).ne' (same.trans tag)
      | cons right rights =>
          obtain ⟨rightHead, rightTail, rightFirst, rightOthers, rfl⟩ :=
            writeElements_cons rightEncoded
          rw [canonicalAll, canonicalAll, List.cons_prefix_cons, ← ih others rightOthers]
          constructor
          · rintro ⟨rest, same⟩
            simp only [List.append_assoc] at same
            obtain ⟨equal, follows⟩ := writeElement_selfDelimiting first rightFirst same
            exact ⟨equal, rest, follows⟩
          · rintro ⟨equal, rest, follows⟩
            have again := writeElement_canonical first
            rw [equal, writeElement_canonical rightFirst] at again
            cases again
            exact ⟨rest, by simp only [List.append_assoc, ← follows]⟩

private theorem encodeKey_isPrefix {lefts rights : List Value}
    {leftBytes rightBytes : Bytes} (leftEncoded : encodeKey lefts = .ok leftBytes)
    (rightEncoded : encodeKey rights = .ok rightBytes) :
    leftBytes <+: rightBytes ↔ canonicalAll lefts <+: canonicalAll rights := by
  have starts := @writeElements_isPrefix 0 lefts rights leftBytes rightBytes []
    (by simp) leftEncoded rightEncoded
  rwa [List.append_nil] at starts

/-- Keys the code holds equal: negative and positive zero are one value. -/
def NodeKey.Same (left right : NodeKey) : Prop :=
  left.label = right.label ∧ canonicalAll left.key = canonicalAll right.key

theorem NodeKey.same_iff {left right : NodeKey} :
    left.Same right ↔ canonical left.toValue = canonical right.toValue := by
  simp only [NodeKey.Same, NodeKey.toValue, canonical, canonicalAll, Value.list.injEq,
    List.cons.injEq, Value.string.injEq]

private theorem canonicalAll_strings (names : List String) :
    canonicalAll (names.map .string) = names.map .string := by
  induction names with
  | nil => rfl
  | cons name names ih => simp only [List.map_cons, canonicalAll, ih, canonical]

private theorem nodeLabelPrefix_eq (label : String) :
    ∃ body, writeElements [.string label] 1 = .ok body ∧
      nodeLabelPrefix label = tagList :: body :=
  ⟨_, rfl, rfl⟩

theorem nodeLabelPrefix_isPrefix {label : String} {node : NodeKey} {bytes : Bytes}
    (encoded : node.encode = .ok bytes) :
    nodeLabelPrefix label <+: bytes ↔ node.label = label := by
  obtain ⟨body, opened, isPrefix⟩ := nodeLabelPrefix_eq label
  obtain ⟨head, tail, first, last, rfl⟩ :=
    writeElements_cons (liftEncode_eq_ok.mp encoded)
  cases last
  obtain ⟨items, written, rfl⟩ := writeElement_list first
  have starts := @writeElements_isPrefix 1 _ _ _ _ [tagListEnd] (by simp) opened written
  rw [isPrefix, List.append_nil, List.cons_prefix_cons, starts]
  simp only [canonicalAll, canonical, List.cons_prefix_cons, List.nil_prefix, and_true,
    true_and, Value.string.injEq]
  exact eq_comm

theorem edgeEndpoint_isPrefix {endpoint first second : NodeKey} {rtype : String}
    {disc : Value} {leading bytes : Bytes}
    (isLeading : edgeEndpointPrefix endpoint = .ok leading)
    (encoded : encodeKey [first.toValue, .string rtype, second.toValue, disc] = .ok bytes) :
    leading <+: bytes ↔ first.Same endpoint := by
  rw [encodeKey_isPrefix (liftEncode_eq_ok.mp isLeading) encoded, NodeKey.same_iff]
  simp only [canonicalAll, List.cons_prefix_cons, List.nil_prefix, and_true]
  exact eq_comm

private theorem edgeEndpointType_isPrefix {endpoint first second : NodeKey}
    {wanted rtype : String} {disc : Value} {leading bytes : Bytes}
    (isLeading : edgeEndpointTypePrefix endpoint wanted = .ok leading)
    (encoded : encodeKey [first.toValue, .string rtype, second.toValue, disc] = .ok bytes) :
    leading <+: bytes ↔ first.Same endpoint ∧ rtype = wanted := by
  rw [encodeKey_isPrefix (liftEncode_eq_ok.mp isLeading) encoded, NodeKey.same_iff]
  simp only [canonicalAll, List.cons_prefix_cons, List.nil_prefix, and_true]
  simp only [canonical, Value.string.injEq]
  exact and_congr eq_comm eq_comm

theorem indexValuePrefix_isPrefix {label : String} {properties : List String}
    {values : List Value} {entry : IndexEntry} {leading bytes : Bytes}
    (isLeading : indexValuePrefix label properties values = .ok leading)
    (encoded : entry.encode = .ok bytes) :
    leading <+: bytes ↔ entry.label = label ∧ entry.properties = properties ∧
      canonicalAll entry.values = canonicalAll values := by
  rw [encodeKey_isPrefix (liftEncode_eq_ok.mp isLeading) (liftEncode_eq_ok.mp encoded)]
  simp only [canonicalAll, List.cons_prefix_cons, List.nil_prefix, and_true]
  simp only [canonical, Value.string.injEq, Value.list.injEq, canonicalAll_strings]
  have strings : Function.Injective (List.map Value.string) :=
    List.map_injective_iff.mpr fun _ _ => Value.string.inj
  rw [strings.eq_iff]
  exact and_congr eq_comm (and_congr eq_comm eq_comm)

/-- A composite index is not probed by the first of its values alone. -/
theorem indexValuePrefix_partial :
    ∃ (entry : IndexEntry) (leading bytes : Bytes),
      entry.label = "Host" ∧ entry.properties = ["region", "rack"] ∧
        entry.values = [.string "eu", .int 4] ∧
        indexValuePrefix "Host" ["region", "rack"] [.string "eu"] = .ok leading ∧
        entry.encode = .ok bytes ∧ ¬ leading <+: bytes := by
  let node : NodeKey := ⟨"Host", [.int 1], by decide⟩
  exact ⟨⟨"Host", ["region", "rack"], [.string "eu", .int 4], node, by decide⟩, _, _, rfl,
    rfl, rfl, rfl, rfl, by decide +kernel⟩

/-- The four prefixes start exactly the keys of their maps that carry what they
were made from, and a prefix and its successor bound exactly its extensions. -/
theorem prefixRanges_exact :
    (∀ label (node : NodeKey) bytes, node.encode = .ok bytes →
      (nodeLabelPrefix label <+: bytes ↔ node.label = label)) ∧
    (∀ endpoint leading (edge : EdgeKey) bytes,
      edgeEndpointPrefix endpoint = .ok leading →
      (edge.encodeFwd = .ok bytes → (leading <+: bytes ↔ edge.src.Same endpoint)) ∧
      (edge.encodeRev = .ok bytes → (leading <+: bytes ↔ edge.dst.Same endpoint))) ∧
    (∀ endpoint rtype leading (edge : EdgeKey) bytes,
      edgeEndpointTypePrefix endpoint rtype = .ok leading →
      (edge.encodeFwd = .ok bytes →
        (leading <+: bytes ↔ edge.src.Same endpoint ∧ edge.rtype = rtype)) ∧
      (edge.encodeRev = .ok bytes →
        (leading <+: bytes ↔ edge.dst.Same endpoint ∧ edge.rtype = rtype))) ∧
    (∀ label properties values leading (entry : IndexEntry) bytes,
      indexValuePrefix label properties values = .ok leading →
      entry.encode = .ok bytes →
      (leading <+: bytes ↔ entry.label = label ∧ entry.properties = properties ∧
        canonicalAll entry.values = canonicalAll values)) ∧
    (∀ leading bytes : Bytes, leading <+: bytes ↔
      leading ≤ bytes ∧ ∀ successor ∈ prefixSuccessor leading, bytes < successor) := by
  refine ⟨?labels, ?endpoints, ?types, ?indexes, isPrefix_iff_mem_range⟩
  case labels =>
    intro label node bytes encoded
    exact nodeLabelPrefix_isPrefix encoded
  case endpoints =>
    intro endpoint leading edge bytes isLeading
    exact ⟨fun encoded => edgeEndpoint_isPrefix isLeading (liftEncode_eq_ok.mp encoded),
      fun encoded => edgeEndpoint_isPrefix isLeading (liftEncode_eq_ok.mp encoded)⟩
  case types =>
    intro endpoint rtype leading edge bytes isLeading
    exact ⟨fun encoded => edgeEndpointType_isPrefix isLeading (liftEncode_eq_ok.mp encoded),
      fun encoded => edgeEndpointType_isPrefix isLeading (liftEncode_eq_ok.mp encoded)⟩
  case indexes =>
    intro label properties values leading entry bytes isLeading encoded
    exact indexValuePrefix_isPrefix isLeading encoded

/-- A label that starts another label is not mistaken for it, and a signed zero
in an endpoint is found by the unsigned one. -/
theorem prefixRanges_exact_sample :
    ∃ (user zero signed : NodeKey) (edge : EdgeKey) (entry : IndexEntry)
      (node forward backward probe : Bytes),
      user.encode = .ok node ∧ edge.encodeFwd = .ok forward ∧
        edge.encodeRev = .ok backward ∧ entry.encode = .ok probe ∧
        ¬ nodeLabelPrefix "User" <+: node ∧
        (∃ leading, edgeEndpointPrefix zero = .ok leading ∧ leading <+: forward) ∧
        (∃ leading, edgeEndpointPrefix user = .ok leading ∧ leading <+: backward) ∧
        (∃ leading, edgeEndpointTypePrefix signed "KNOWS" = .ok leading ∧
          leading <+: forward) ∧
        (∃ leading, edgeEndpointTypePrefix user "KNOWS" = .ok leading ∧
          leading <+: backward) ∧
        ∃ leading, indexValuePrefix "L" ["p"] [.null] = .ok leading ∧ leading <+: probe := by
  obtain ⟨labels, endpoints, types, indexes, -⟩ := prefixRanges_exact
  let user : NodeKey := ⟨"UserGroup", [.int 1], by decide⟩
  let zero : NodeKey := ⟨"L", [.float 0], by decide⟩
  let signed : NodeKey := ⟨"L", [.float signBit], by decide⟩
  let edge : EdgeKey := ⟨signed, "KNOWS", user, .null, by decide⟩
  let entry : IndexEntry := ⟨"L", ["p"], [.null], zero, by decide⟩
  refine ⟨user, zero, signed, edge, entry, _, _, _, _, rfl, rfl, rfl, rfl, ?_,
    ⟨_, rfl, ?_⟩, ⟨_, rfl, ?_⟩, ⟨_, rfl, ?_⟩, ⟨_, rfl, ?_⟩, ⟨_, rfl, ?_⟩⟩
  · exact (labels "User" user _ rfl).not.mpr (by decide)
  · exact ((endpoints zero _ edge _ rfl).1 rfl).mpr ⟨rfl, by decide⟩
  · exact ((endpoints user _ edge _ rfl).2 rfl).mpr ⟨rfl, rfl⟩
  · exact ((types signed "KNOWS" _ edge _ rfl).1 rfl).mpr ⟨⟨rfl, rfl⟩, rfl⟩
  · exact ((types user "KNOWS" _ edge _ rfl).2 rfl).mpr ⟨⟨rfl, rfl⟩, rfl⟩
  · exact (indexes "L" ["p"] [.null] _ entry _ rfl rfl).mpr ⟨rfl, rfl, rfl⟩

end Acetone.Model

import Acetone.Prolly.Verify

/-!
# The node format

Every node that can be framed has one chunk: the writer's chunk reads back as
the node, and a chunk that reads as a node is the one the writer makes of it.
-/

namespace Acetone.Prolly

open Acetone.Lib

def encodeEntries : List Entry → Except ProllyError Bytes
  | [] => .ok []
  | entry :: entries => do
      let bytes ← encodeEntry entry
      let rest ← encodeEntries entries
      .ok (bytes ++ rest)

/-- The header and the entries behind it, as the builder of a level writes
them; its entry count is a 32-bit word. -/
def encodeNode (level : Nat) (entries : List Entry) : Except ProllyError Bytes :=
  if entries.length ≥ 2 ^ 32 then
    .error .tooManyEntries
  else do
    let body ← encodeEntries entries
    .ok (UInt8.ofNat level :: beBytes 4 entries.length ++ body)

/-- What the format asks of a node at a level: strictly ascending keys, and
children above level zero only. -/
def Node.Ordered (level : Nat) : Node → Prop
  | .leaf entries => level = 0 ∧ Ascending entries
  | .inner refs =>
      0 < level ∧ level < 256 ∧ refs ≠ [] ∧
        refs.Pairwise fun left right => left.lastKey < right.lastKey

theorem encodeEntry_eq_ok {entry : Entry} {bytes : Bytes} :
    encodeEntry entry = .ok bytes ↔ entry.Fits ∧ bytes = entryBytes entry := by
  constructor
  · intro encoded
    have fits : entry.Fits := by
      cases entry with
      | leaf key value =>
          rw [encodeEntry, encodeLeafEntry] at encoded
          split at encoded
          case isTrue => cases encoded
          case isFalse keyFits =>
            split at encoded
            case isTrue => cases encoded
            case isFalse valueFits => exact ⟨Nat.not_lt.mp keyFits, Nat.not_lt.mp valueFits⟩
      | inner lastKey hash =>
          rw [encodeEntry, encodeInnerEntry] at encoded
          split at encoded
          case isTrue => cases encoded
          case isFalse keyFits => exact Nat.not_lt.mp keyFits
    rw [encodeEntry_of_fits fits] at encoded
    cases encoded
    exact ⟨fits, rfl⟩
  · rintro ⟨fits, rfl⟩
    exact encodeEntry_of_fits fits

theorem encodeEntries_eq_ok {entries : List Entry} {body : Bytes} :
    encodeEntries entries = .ok body ↔
      (∀ entry ∈ entries, entry.Fits) ∧ body = entries.flatMap entryBytes := by
  induction entries generalizing body with
  | nil => simp [encodeEntries, eq_comm]
  | cons entry entries ih =>
      rw [encodeEntries, bind_eq_ok, List.forall_mem_cons, List.flatMap_cons]
      constructor
      · rintro ⟨bytes, first, remainder⟩
        obtain ⟨rest, others, made⟩ := bind_eq_ok.mp remainder
        cases made
        obtain ⟨fits, rfl⟩ := encodeEntry_eq_ok.mp first
        obtain ⟨restFit, rfl⟩ := ih.mp others
        exact ⟨⟨fits, restFit⟩, rfl⟩
      · rintro ⟨⟨fits, restFit⟩, rfl⟩
        refine ⟨entryBytes entry, encodeEntry_eq_ok.mpr ⟨fits, rfl⟩, ?_⟩
        rw [ih.mpr ⟨restFit, rfl⟩, ok_bind]

/-- The writer refuses exactly what a length or the count does not frame. -/
theorem encodeNode_eq_ok {level : Nat} {entries : List Entry} {chunk : Bytes} :
    encodeNode level entries = .ok chunk ↔
      entries.length < 2 ^ 32 ∧ (∀ entry ∈ entries, entry.Fits) ∧
        chunk = nodeBytes level entries := by
  rw [encodeNode]
  split
  case isTrue many =>
    constructor
    · intro encoded
      cases encoded
    · intro framed
      exact absurd framed.1 (Nat.not_lt.mpr many)
  case isFalse few =>
    rw [bind_eq_ok]
    constructor
    · rintro ⟨body, encoded, made⟩
      cases made
      obtain ⟨fits, rfl⟩ := encodeEntries_eq_ok.mp encoded
      exact ⟨Nat.not_le.mp few, fits, rfl⟩
    · rintro ⟨-, fits, rfl⟩
      exact ⟨_, encodeEntries_eq_ok.mpr ⟨fits, rfl⟩, rfl⟩

theorem decodeNode_encodeNode {level : Nat} {node : Node} {chunk : Bytes}
    (ordered : node.Ordered level) (encoded : encodeNode level (nodeEntries node) = .ok chunk) :
    decodeNode chunk level = .ok node := by
  obtain ⟨few, fits, rfl⟩ := encodeNode_eq_ok.mp encoded
  cases node with
  | leaf entries =>
      obtain ⟨rfl, ascending⟩ := ordered
      rw [nodeEntries, List.length_map] at few
      apply decodeNode_leaf entries few _ ascending
      intro entry member
      exact fits _ (List.mem_map_of_mem member)
  | inner refs =>
      obtain ⟨positive, bound, filled, ascending⟩ := ordered
      rw [nodeEntries, List.length_map] at few
      apply decodeNode_inner (Nat.ne_of_gt positive) bound refs filled few _ ascending
      intro ref member
      exact fits _ (List.mem_map_of_mem member)

private theorem level_lt_of_decodeNode {level : Nat} {node : Node} {chunk : Bytes}
    (decoded : decodeNode chunk level = .ok node) : level < 256 := by
  have itself := decodeNodeSelf_eq_ok.mpr decoded
  cases chunk with
  | nil => cases itself
  | cons tag rest =>
      rw [decodeNodeSelf] at itself
      obtain ⟨found, -, made⟩ := bind_eq_ok.mp itself
      cases made
      exact tag.toNat_lt

/-- A chunk that reads as a node is the node's chunk, and the node is ordered. -/
theorem encodeNode_of_decodeNode {level : Nat} {node : Node} {chunk : Bytes}
    (decoded : decodeNode chunk level = .ok node) :
    node.Ordered level ∧ encodeNode level (nodeEntries node) = .ok chunk := by
  cases level with
  | zero =>
      obtain ⟨entries, rfl, ascending, few, fits, rfl⟩ := decodeNode_zero_eq_ok decoded
      refine ⟨⟨rfl, ascending⟩, encodeNode_eq_ok.mpr ⟨?_, ?_, rfl⟩⟩
      · rw [nodeEntries, List.length_map]
        exact few
      · intro entry member
        obtain ⟨pair, inside, rfl⟩ := List.mem_map.mp member
        exact fits pair inside
  | succ level =>
      obtain ⟨refs, rfl, filled, ascending, few, fits, rfl⟩ := decodeNode_succ_eq_ok decoded
      have bound := level_lt_of_decodeNode decoded
      refine ⟨⟨Nat.succ_pos level, bound, filled, ascending⟩,
        encodeNode_eq_ok.mpr ⟨?_, ?_, rfl⟩⟩
      · rw [nodeEntries, List.length_map]
        exact few
      · intro entry member
        obtain ⟨ref, inside, rfl⟩ := List.mem_map.mp member
        exact fits ref inside

theorem readNode_eq_ok {address : Bytes → Hash} {store : Store} {hash : Hash} {level : Nat} {claim min : Option Bytes} {node : Node}
    (read : readNode address store hash level claim min = .ok node) :
    ∃ bytes, store.get address hash = some bytes ∧ decodeNode bytes level = .ok node := by
  rw [readNode] at read
  split at read
  case h_1 => cases read
  case h_2 bytes found =>
    obtain ⟨decoded, decodes, checked⟩ := bind_eq_ok.mp read
    dsimp only at checked
    split at checked
    case isTrue => cases checked
    case isFalse =>
      split at checked
      case isTrue => cases checked
      case isFalse =>
        cases checked
        exact ⟨bytes, found, decodes⟩

/-- A chunk reads as a node at a level exactly when it is the chunk written for
that node there, and every node that can be framed is written. -/
theorem decodeNode_iff_encodeNode (level : Nat) (node : Node) (chunk : Bytes) :
    (decodeNode chunk level = .ok node ↔
      node.Ordered level ∧ encodeNode level (nodeEntries node) = .ok chunk) ∧
    (decodeNodeSelf chunk = .ok (level, node) ↔ decodeNode chunk level = .ok node) ∧
    ((∃ bytes, encodeNode level (nodeEntries node) = .ok bytes) ↔
      (nodeEntries node).length < 2 ^ 32 ∧ ∀ entry ∈ nodeEntries node, entry.Fits) := by
  refine ⟨⟨encodeNode_of_decodeNode, fun written => ?_⟩, decodeNodeSelf_eq_ok, ?_⟩
  · exact decodeNode_encodeNode written.1 written.2
  · constructor
    · rintro ⟨bytes, encoded⟩
      obtain ⟨few, fits, -⟩ := encodeNode_eq_ok.mp encoded
      exact ⟨few, fits⟩
    · rintro ⟨few, fits⟩
      exact ⟨_, encodeNode_eq_ok.mpr ⟨few, fits, rfl⟩⟩

end Acetone.Prolly

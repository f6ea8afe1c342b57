import Acetone.Prolly.Tree

/-!
# Nodes read back what was written

The decoder recovers a node from its chunk whenever the entries fit their
length frames and their keys ascend, which is what the builder writes; and it
accepts no other chunk.
-/

namespace Acetone.Prolly

open Acetone.Lib

/-- The entry's lengths fit the 32-bit frames of the format. -/
def Entry.Fits : Entry → Prop
  | .leaf key value => key.length ≤ maxKeyLen ∧ value.length ≤ maxValueLen
  | .inner lastKey _ => lastKey.length ≤ maxKeyLen

instance : (entry : Entry) → Decidable entry.Fits
  | .leaf key value =>
      inferInstanceAs (Decidable
        (key.length ≤ maxKeyLen ∧ value.length ≤ maxValueLen))
  | .inner lastKey _ => inferInstanceAs (Decidable (lastKey.length ≤ maxKeyLen))

def entryBytes : Entry → Bytes
  | .leaf key value =>
      beBytes 4 key.length ++ key ++ beBytes 4 value.length ++ value
  | .inner lastKey hash =>
      beBytes 4 lastKey.length ++ lastKey ++
        beBytes 1 hash.asBytes.length ++ hash.asBytes

def nodeBytes (level : Nat) (entries : List Entry) : Bytes :=
  UInt8.ofNat level :: beBytes 4 entries.length ++ entries.flatMap entryBytes

theorem encodeEntry_of_fits {entry : Entry} (fits : entry.Fits) :
    encodeEntry entry = .ok (entryBytes entry) := by
  cases entry with
  | leaf key value =>
      have keyFits := Nat.not_lt_of_le fits.1
      have valueFits := Nat.not_lt_of_le fits.2
      simp only [encodeEntry, encodeLeafEntry, gt_iff_lt, if_neg keyFits,
        if_neg valueFits, entryBytes]
  | inner lastKey hash =>
      have keyFits : ¬maxKeyLen < lastKey.length := Nat.not_lt_of_le fits
      simp only [encodeEntry, encodeInnerEntry, gt_iff_lt, if_neg keyFits,
        entryBytes]

theorem entryBytes_pos (entry : Entry) : 0 < (entryBytes entry).length := by
  cases entry with
  | leaf key value => simp [entryBytes]
  | inner lastKey hash => simp [entryBytes]

theorem take_append {count : Nat} {word : Bytes} (length : word.length = count)
    (rest : Bytes) : take count (word ++ rest) = .ok (word, rest) := by
  subst length
  simp [take]

theorem takeU32_append {value : Nat} (bound : value < 2 ^ 32) (rest : Bytes) :
    takeU32 (beBytes 4 value ++ rest) = .ok (value, rest) := by
  rw [takeU32, take_append (beBytes_length 4 value), ok_bind]
  have inWord : value < 256 ^ 4 := Nat.lt_of_lt_of_eq bound (by norm_num)
  simp only [ofBeBytes_beBytes inWord]

theorem takeU8_append {value : Nat} (bound : value < 256) (rest : Bytes) :
    takeU8 (beBytes 1 value ++ rest) = .ok (value, rest) := by
  rw [takeU8, take_append (beBytes_length 1 value), ok_bind]
  simp only [ofBeBytes_beBytes (show value < 256 ^ 1 by simpa using bound)]

private theorem takeU8_cons {level : Nat} (bound : level < 256) (rest : Bytes) :
    takeU8 (UInt8.ofNat level :: rest) = .ok (level, rest) := by
  have split : UInt8.ofNat level :: rest = beBytes 1 level ++ rest := by
    simp [beBytes]
  rw [split, takeU8_append bound]

private theorem hash_width (hash : Hash) : hash.asBytes.length < 256 := by
  rcases hash.width with sha1 | sha256 <;> omega

private theorem lt_of_le_maxLen {length : Nat} (fits : length ≤ maxKeyLen) :
    length < 2 ^ 32 :=
  Nat.lt_of_le_of_lt fits (by norm_num [maxKeyLen])

/-- The key read last lies below every key that follows. -/
def Above (prev : Option Bytes) (keys : List Bytes) : Prop :=
  ∀ low ∈ prev, ∀ key ∈ keys, low < key

theorem decodeLeafEntries_append (entries : List (Bytes × Bytes))
    (prev : Option Bytes)
    (fits : ∀ entry ∈ entries, (Entry.leaf entry.1 entry.2).Fits)
    (ascending : Ascending entries) (above : Above prev (entries.map Prod.fst))
    (rest : Bytes) :
    decodeLeafEntries entries.length prev
        ((entries.map fun entry => Entry.leaf entry.1 entry.2).flatMap entryBytes
          ++ rest) =
      .ok (entries, rest) := by
  induction entries generalizing prev with
  | nil => rfl
  | cons entry entries ih =>
      obtain ⟨later, tail⟩ := Ascending.cons_iff.mp ascending
      obtain ⟨keyFits, valueFits⟩ := fits entry List.mem_cons_self
      have restRead := ih (some entry.1)
        (fun other member => fits other (List.mem_cons_of_mem _ member)) tail (by
          rintro low ⟨⟩ key member
          obtain ⟨other, inside, rfl⟩ := List.mem_map.mp member
          exact later other inside)
      have inOrder : ¬(prev.any fun prev => decide (prev ≥ entry.1)) = true := by
        cases prev with
        | none => simp
        | some low =>
            have less := above low rfl entry.1 (by simp)
            simpa using less
      have keyBound := lt_of_le_maxLen keyFits
      have valueBound := lt_of_le_maxLen valueFits
      simp only [List.map_cons, List.flatMap_cons, entryBytes, List.append_assoc]
      rw [List.length_cons, decodeLeafEntries, takeU32_append keyBound, ok_bind]
      simp only
      rw [take_append rfl, ok_bind]
      simp only
      rw [takeU32_append valueBound, ok_bind]
      simp only
      rw [take_append rfl, ok_bind]
      simp only
      rw [if_neg inOrder, restRead, ok_bind]

def NodeRef.entry (ref : NodeRef) : Entry := .inner ref.lastKey ref.hash

theorem decodeRefs_append (refs : List NodeRef) (prev : Option Bytes)
    (fits : ∀ ref ∈ refs, ref.lastKey.length ≤ maxKeyLen)
    (ascending : refs.Pairwise fun left right => left.lastKey < right.lastKey)
    (above : Above prev (refs.map NodeRef.lastKey)) (rest : Bytes) :
    decodeRefs refs.length prev
        ((refs.map NodeRef.entry).flatMap entryBytes ++ rest) =
      .ok (refs, rest) := by
  induction refs generalizing prev with
  | nil => rfl
  | cons ref refs ih =>
      obtain ⟨later, tail⟩ := List.pairwise_cons.mp ascending
      have keyFits := fits ref List.mem_cons_self
      have restRead := ih (some ref.lastKey)
        (fun other member => fits other (List.mem_cons_of_mem _ member)) tail (by
          rintro low ⟨⟩ key member
          obtain ⟨other, inside, rfl⟩ := List.mem_map.mp member
          exact later other inside)
      have inOrder :
          ¬(prev.any fun prev => decide (prev ≥ ref.lastKey)) = true := by
        cases prev with
        | none => simp
        | some low =>
            have less := above low rfl ref.lastKey (by simp)
            simpa using less
      have keyBound := lt_of_le_maxLen keyFits
      simp only [List.map_cons, List.flatMap_cons, NodeRef.entry, entryBytes,
        List.append_assoc]
      rw [List.length_cons, decodeRefs, takeU32_append keyBound, ok_bind]
      simp only
      rw [take_append rfl, ok_bind]
      simp only
      rw [takeU8_append (hash_width ref.hash), ok_bind]
      simp only
      rw [take_append rfl, ok_bind]
      simp only [Hash.fromBytes_asBytes]
      rw [if_neg inOrder, restRead, ok_bind]

theorem decodeNode_leaf (entries : List (Bytes × Bytes))
    (few : entries.length < 2 ^ 32)
    (fits : ∀ entry ∈ entries, (Entry.leaf entry.1 entry.2).Fits)
    (ascending : Ascending entries) :
    decodeNode (nodeBytes 0
        (entries.map fun entry => Entry.leaf entry.1 entry.2)) 0 =
      .ok (.leaf entries) := by
  have read := decodeLeafEntries_append entries none fits ascending nofun []
  rw [List.append_nil] at read
  rw [decodeNode, nodeBytes, List.cons_append, takeU8_cons (by omega), ok_bind]
  simp only [ne_eq, not_true_eq_false, if_false, List.length_map,
    takeU32_append few, ok_bind, if_true, read, finishNode]

theorem decodeNode_inner {level : Nat} (positive : level ≠ 0)
    (bound : level < 256) (refs : List NodeRef) (some : refs ≠ [])
    (few : refs.length < 2 ^ 32)
    (fits : ∀ ref ∈ refs, ref.lastKey.length ≤ maxKeyLen)
    (ascending : refs.Pairwise fun left right => left.lastKey < right.lastKey) :
    decodeNode (nodeBytes level (refs.map NodeRef.entry)) level =
      .ok (.inner refs) := by
  have read := decodeRefs_append refs none fits ascending nofun []
  have nonempty : refs.length ≠ 0 := by
    simpa [List.length_eq_zero_iff] using some
  rw [List.append_nil] at read
  rw [decodeNode, nodeBytes, List.cons_append, takeU8_cons bound, ok_bind]
  simp only [ne_eq, not_true_eq_false, if_false, List.length_map,
    takeU32_append few, ok_bind, if_neg positive, if_neg nonempty, read,
    finishNode]

private theorem take_eq_ok {count : Nat} {input word rest : Bytes}
    (read : take count input = .ok (word, rest)) :
    input = word ++ rest ∧ word.length = count := by
  rw [take] at read
  split at read
  case isTrue => cases read
  case isFalse enough =>
    cases read
    exact ⟨(List.take_append_drop ..).symm, List.length_take_of_le (Nat.not_lt.mp enough)⟩

private theorem takeWord_eq_ok {width value : Nat} {input rest : Bytes}
    (read : (do let (bytes, rest) ← take width input; .ok (ofBeBytes bytes, rest)) =
      (.ok (value, rest) : Except ProllyError (Nat × Bytes))) :
    value < 256 ^ width ∧ input = beBytes width value ++ rest := by
  obtain ⟨⟨word, after⟩, taken, made⟩ := bind_eq_ok.mp read
  cases made
  obtain ⟨split, length⟩ := take_eq_ok taken
  subst length
  exact ⟨ofBeBytes_lt word, by rw [beBytes_ofBeBytes, split]⟩

private theorem le_maxLen_of_lt {length : Nat} (bound : length < 256 ^ 4) :
    length ≤ maxKeyLen := by
  have frame : 256 ^ 4 = maxKeyLen + 1 := by norm_num [maxKeyLen]
  omega

private theorem asBytes_of_fromBytes {bytes : Bytes} {hash : Hash}
    (made : Hash.fromBytes bytes = some hash) : hash.asBytes = bytes := by
  rw [Hash.fromBytes] at made
  split at made
  case isTrue => cases made; rfl
  case isFalse => cases made

private theorem above_of_check {prev : Option Bytes} {key : Bytes}
    (inOrder : ¬ (prev.any fun prev => decide (prev ≥ key)) = true) : ∀ low ∈ prev, low < key := by
  rintro low ⟨⟩
  simpa using inOrder

private theorem above_cons {prev : Option Bytes} {key : Bytes} {keys : List Bytes}
    (first : ∀ low ∈ prev, low < key) (rest : Above (some key) keys) : Above prev (key :: keys) := by
  intro low isLow other member
  rcases List.mem_cons.mp member with rfl | later
  · exact first low isLow
  · exact lt_trans (first low isLow) (rest key rfl other later)

theorem decodeLeafEntries_eq_ok {count : Nat} {prev : Option Bytes} {input rest : Bytes}
    {entries : List (Bytes × Bytes)}
    (read : decodeLeafEntries count prev input = .ok (entries, rest)) :
    entries.length = count ∧ Ascending entries ∧ Above prev (entries.map Prod.fst) ∧
      (∀ entry ∈ entries, (Entry.leaf entry.1 entry.2).Fits) ∧
      input = (entries.map fun entry => Entry.leaf entry.1 entry.2).flatMap entryBytes ++
        rest := by
  induction count generalizing prev input entries with
  | zero =>
      cases read
      exact ⟨rfl, .nil, fun _ _ _ => nofun, fun _ => nofun, rfl⟩
  | succ count ih =>
      rw [decodeLeafEntries] at read
      obtain ⟨⟨klen, afterLen⟩, takesLen, read⟩ := bind_eq_ok.mp read
      obtain ⟨⟨key, afterKey⟩, takesKey, read⟩ := bind_eq_ok.mp read
      obtain ⟨⟨vlen, afterVlen⟩, takesVlen, read⟩ := bind_eq_ok.mp read
      obtain ⟨⟨value, afterValue⟩, takesValue, read⟩ := bind_eq_ok.mp read
      dsimp only at read
      split at read
      case isTrue => cases read
      case isFalse inOrder =>
        obtain ⟨⟨others, after⟩, readsOthers, made⟩ := bind_eq_ok.mp read
        cases made
        obtain ⟨length, ascending, above, fits, split⟩ := ih readsOthers
        obtain ⟨keyBound, rfl⟩ := takeWord_eq_ok takesLen
        obtain ⟨rfl, rfl⟩ := take_eq_ok takesKey
        obtain ⟨valueBound, rfl⟩ := takeWord_eq_ok takesVlen
        obtain ⟨rfl, rfl⟩ := take_eq_ok takesValue
        have first := above_of_check inOrder
        refine ⟨congrArg (· + 1) length, ?_, above_cons first above, ?_, ?_⟩
        · rw [Ascending.cons_iff]
          refine ⟨fun entry member => ?_, ascending⟩
          exact above key rfl entry.1 (List.mem_map_of_mem member)
        · intro entry member
          rcases List.mem_cons.mp member with rfl | later
          · exact ⟨le_maxLen_of_lt keyBound, le_maxLen_of_lt valueBound⟩
          · exact fits entry later
        · rw [split]
          simp only [List.map_cons, List.flatMap_cons, entryBytes, List.append_assoc]

theorem decodeRefs_eq_ok {count : Nat} {prev : Option Bytes} {input rest : Bytes}
    {refs : List NodeRef} (read : decodeRefs count prev input = .ok (refs, rest)) :
    refs.length = count ∧ refs.Pairwise (fun left right => left.lastKey < right.lastKey) ∧
      Above prev (refs.map NodeRef.lastKey) ∧ (∀ ref ∈ refs, ref.lastKey.length ≤ maxKeyLen) ∧
      input = (refs.map NodeRef.entry).flatMap entryBytes ++ rest := by
  induction count generalizing prev input refs with
  | zero =>
      cases read
      exact ⟨rfl, .nil, fun _ _ _ => nofun, fun _ => nofun, rfl⟩
  | succ count ih =>
      rw [decodeRefs] at read
      obtain ⟨⟨klen, afterLen⟩, takesLen, read⟩ := bind_eq_ok.mp read
      obtain ⟨⟨key, afterKey⟩, takesKey, read⟩ := bind_eq_ok.mp read
      obtain ⟨⟨hlen, afterHlen⟩, takesHlen, read⟩ := bind_eq_ok.mp read
      obtain ⟨⟨digest, afterDigest⟩, takesDigest, read⟩ := bind_eq_ok.mp read
      dsimp only at read
      split at read
      case h_1 => cases read
      case h_2 hash isHash =>
        split at read
        case isTrue => cases read
        case isFalse inOrder =>
          obtain ⟨⟨others, after⟩, readsOthers, made⟩ := bind_eq_ok.mp read
          cases made
          obtain ⟨length, ascending, above, fits, split⟩ := ih readsOthers
          obtain ⟨keyBound, rfl⟩ := takeWord_eq_ok takesLen
          obtain ⟨rfl, rfl⟩ := take_eq_ok takesKey
          obtain ⟨-, rfl⟩ := takeWord_eq_ok takesHlen
          obtain ⟨rfl, rfl⟩ := take_eq_ok takesDigest
          have first := above_of_check inOrder
          refine ⟨congrArg (· + 1) length, ?_, above_cons first above, ?_, ?_⟩
          · rw [List.pairwise_cons]
            refine ⟨fun ref member => ?_, ascending⟩
            exact above key rfl ref.lastKey (List.mem_map_of_mem member)
          · intro ref member
            rcases List.mem_cons.mp member with rfl | later
            · exact le_maxLen_of_lt keyBound
            · exact fits ref later
          · rw [split]
            simp only [List.map_cons, List.flatMap_cons, NodeRef.entry, entryBytes,
              List.append_assoc, asBytes_of_fromBytes isHash]

private theorem finishNode_eq_ok {node result : Node} {input : Bytes}
    (finished : finishNode node input = .ok result) : input = [] ∧ result = node := by
  rw [finishNode] at finished
  split at finished
  case isTrue => cases finished
  case isFalse empty =>
    cases finished
    exact ⟨not_not.mp empty, rfl⟩

private theorem decodeNode_parts {data : Bytes} {level : Nat} {node : Node}
    (decoded : decodeNode data level = .ok node) :
    ∃ count input, count < 2 ^ 32 ∧ data = UInt8.ofNat level :: beBytes 4 count ++ input ∧
      ((level = 0 ∧ ∃ entries, decodeLeafEntries count none input = .ok (entries, []) ∧
          node = .leaf entries) ∨
        (level ≠ 0 ∧ count ≠ 0 ∧ ∃ refs, decodeRefs count none input = .ok (refs, []) ∧
          node = .inner refs)) := by
  rw [decodeNode] at decoded
  obtain ⟨⟨tag, afterTag⟩, takesTag, atTag⟩ := bind_eq_ok.mp decoded
  dsimp only at atTag
  split at atTag
  case isTrue => cases atTag
  case isFalse isLevel =>
    obtain ⟨⟨count, input⟩, takesCount, body⟩ := bind_eq_ok.mp atTag
    have same := not_not.mp isLevel
    subst same
    obtain ⟨-, isData⟩ := takeWord_eq_ok takesTag
    obtain ⟨countBound, isInput⟩ := takeWord_eq_ok takesCount
    refine ⟨count, input, by simpa using countBound, ?_, ?_⟩
    · rw [isData, isInput]
      simp [beBytes]
    · dsimp only at body
      split at body
      case isTrue leaf =>
        obtain ⟨⟨entries, rest⟩, reads, finished⟩ := bind_eq_ok.mp body
        obtain ⟨rfl, rfl⟩ := finishNode_eq_ok finished
        exact .inl ⟨leaf, entries, reads, rfl⟩
      case isFalse inner =>
        split at body
        case isTrue => cases body
        case isFalse filled =>
          obtain ⟨⟨refs, rest⟩, reads, finished⟩ := bind_eq_ok.mp body
          obtain ⟨rfl, rfl⟩ := finishNode_eq_ok finished
          exact .inr ⟨inner, filled, refs, reads, rfl⟩

/-- A chunk accepted as a leaf is the one that would be written for its
entries. -/
theorem decodeNode_zero_eq_ok {data : Bytes} {node : Node} (decoded : decodeNode data 0 = .ok node) :
    ∃ entries, node = .leaf entries ∧ Ascending entries ∧ entries.length < 2 ^ 32 ∧
      (∀ entry ∈ entries, (Entry.leaf entry.1 entry.2).Fits) ∧
      data = nodeBytes 0 (entries.map fun entry => Entry.leaf entry.1 entry.2) := by
  obtain ⟨count, input, few, isData, ⟨-, entries, reads, isNode⟩ | inner⟩ :=
    decodeNode_parts decoded
  · obtain ⟨rfl, ascending, -, fits, rfl⟩ := decodeLeafEntries_eq_ok reads
    refine ⟨entries, isNode, ascending, few, fits, ?_⟩
    rw [isData, List.append_nil, nodeBytes, List.length_map]
  · exact absurd rfl inner.1

theorem decodeNode_succ_eq_ok {data : Bytes} {level : Nat} {node : Node}
    (decoded : decodeNode data (level + 1) = .ok node) :
    ∃ refs, node = .inner refs ∧ refs ≠ [] ∧
      refs.Pairwise (fun left right => left.lastKey < right.lastKey) ∧ refs.length < 2 ^ 32 ∧
      (∀ ref ∈ refs, ref.lastKey.length ≤ maxKeyLen) ∧
      data = nodeBytes (level + 1) (refs.map NodeRef.entry) := by
  obtain ⟨count, input, few, isData, leaf | ⟨-, filled, refs, reads, isNode⟩⟩ :=
    decodeNode_parts decoded
  · exact absurd leaf.1 (Nat.succ_ne_zero level)
  · obtain ⟨rfl, ascending, -, fits, rfl⟩ := decodeRefs_eq_ok reads
    refine ⟨refs, isNode, ?_, ascending, few, fits, ?_⟩
    · rintro rfl
      exact filled rfl
    · rw [isData, List.append_nil, nodeBytes, List.length_map]

end Acetone.Prolly

import Acetone.Prolly.NodeCodec

/-!
# Trees as pure data

A chunk of level `l` is a list of entries of level `l`; an entry of level zero
is a key/value pair and an entry of level `l + 1` is a whole chunk of level
`l`.  In the store an entry above level zero is a reference, so the pure tree
is what a reference denotes.  `Stored` says that a store holds a tree and that
every node of it reads back; `chunk_eq_of_hash` is content addressing: equal
addresses denote equal trees.
-/

namespace Acetone.Prolly

open Acetone.Lib

def Elem : Nat → Type
  | 0 => Bytes × Bytes
  | level + 1 => List (Elem level)

/-- A node of a level, with everything beneath it. -/
abbrev Chunk (level : Nat) := List (Elem level)

def Elem.chunk {level : Nat} (elem : Elem (level + 1)) : Chunk level := elem

def Chunk.elem {level : Nat} (chunk : Chunk level) : Elem (level + 1) := chunk

def contents : (level : Nat) → Elem level → List (Bytes × Bytes)
  | 0, pair => [pair]
  | level + 1, chunk => List.flatMap (contents level) (Elem.chunk chunk)

def Chunk.contents {level : Nat} (chunk : Chunk level) : List (Bytes × Bytes) :=
  chunk.flatMap (Prolly.contents level)

theorem Chunk.contents_append {level : Nat} (left right : Chunk level) :
    Chunk.contents (left ++ right) = left.contents ++ right.contents :=
  List.flatMap_append

theorem Chunk.contents_cons {level : Nat} (elem : Elem level)
    (rest : Chunk level) :
    Chunk.contents (elem :: rest) = Prolly.contents level elem ++ rest.contents :=
  List.flatMap_cons

theorem Chunk.contents_zero (chunk : Chunk 0) : chunk.contents = chunk := by
  induction chunk with
  | nil => rfl
  | cons pair chunk ih => rw [Chunk.contents_cons, ih]; rfl

def lastKeyOf (entries : List Entry) : Bytes :=
  (entries.getLast?.map Entry.key).getD []

section

variable (address : Bytes → Hash)

def entryOf : (level : Nat) → Elem level → Entry
  | 0, pair => .leaf pair.1 pair.2
  | level + 1, chunk =>
      let entries := (Elem.chunk chunk).map (entryOf level)
      .inner (lastKeyOf entries) (address (nodeBytes level entries))

def chunkBytes (level : Nat) (chunk : Chunk level) : Bytes :=
  nodeBytes level (chunk.map (entryOf address level))

def refOf (level : Nat) (chunk : Chunk level) : NodeRef :=
  ⟨lastKeyOf (chunk.map (entryOf address level)),
    address (chunkBytes address level chunk)⟩

theorem entryOf_succ {level : Nat} (chunk : Chunk level) :
    entryOf address (level + 1) chunk.elem = (refOf address level chunk).entry :=
  rfl

def nodeOf : (level : Nat) → Chunk level → Node
  | 0, chunk => .leaf chunk
  | level + 1, chunk =>
      .inner (chunk.map (fun elem => refOf address level (Elem.chunk elem)))

/-- The store holds the tree beneath an entry, and its nodes are readable:
they are not empty, their entries fit and their keys ascend. -/
def Stored (store : Store) : (level : Nat) → Elem level → Prop
  | 0, pair => (Entry.leaf pair.1 pair.2).Fits
  | level + 1, chunk =>
      Elem.chunk chunk ≠ [] ∧ (Elem.chunk chunk).length < 2 ^ 32 ∧
        Ascending (Chunk.contents (Elem.chunk chunk)) ∧
        chunkBytes address level (Elem.chunk chunk) ∈ store ∧
        ∀ elem ∈ Elem.chunk chunk, Stored store level elem

instance decidableStored (store : Store) :
    (level : Nat) → (elem : Elem level) → Decidable (Stored address store level elem)
  | 0, pair => inferInstanceAs (Decidable (Entry.leaf pair.1 pair.2).Fits)
  | level + 1, chunk =>
      have := decidableStored store level
      inferInstanceAs (Decidable (Elem.chunk chunk ≠ [] ∧
        (Elem.chunk chunk).length < 2 ^ 32 ∧
        (Chunk.contents (Elem.chunk chunk)).Pairwise
          (fun left right => left.1 < right.1) ∧
        chunkBytes address level (Elem.chunk chunk) ∈ store ∧
        ∀ elem ∈ Elem.chunk chunk, Stored address store level elem))

variable {address}

theorem stored_succ {store : Store} {level : Nat} {chunk : Chunk level} :
    Stored address store (level + 1) chunk.elem ↔
      chunk ≠ [] ∧ chunk.length < 2 ^ 32 ∧ Ascending chunk.contents ∧
        chunkBytes address level chunk ∈ store ∧
        ∀ elem ∈ chunk, Stored address store level elem :=
  Iff.rfl

theorem Stored.mono {smaller larger : Store} (grows : smaller ⊆ larger)
    {level : Nat} {elem : Elem level} (stored : Stored address smaller level elem) :
    Stored address larger level elem := by
  induction level with
  | zero => exact stored
  | succ level ih =>
      obtain ⟨filled, few, ascending, held, children⟩ := stored
      exact ⟨filled, few, ascending, grows held,
        fun child member => ih (children child member)⟩

/-- Whatever is stored under an entry, its key is the last one beneath it. -/
theorem Stored.contents_getLast {store : Store} {level : Nat} {elem : Elem level}
    (stored : Stored address store level elem) :
    (contents level elem).getLast?.map Prod.fst =
      some (entryOf address level elem).key := by
  induction level with
  | zero => rfl
  | succ level ih =>
      obtain ⟨filled, -, -, -, children⟩ := stored
      obtain ⟨front, last, split⟩ : ∃ front last,
          Elem.chunk elem = front ++ [last] :=
        ⟨_, _, (List.dropLast_concat_getLast filled).symm⟩
      have inside := ih (children last (by rw [split]; simp))
      have nonempty : contents level last ≠ [] := by
        intro empty
        rw [empty] at inside
        cases inside
      have lastContents : (contents (level + 1) elem).getLast? =
          (contents level last).getLast? := by
        show ((Elem.chunk elem).flatMap (contents level)).getLast? = _
        rw [split, List.flatMap_append, List.flatMap_singleton,
          List.getLast?_append_of_ne_nil _ nonempty]
      rw [lastContents, inside]
      show _ = some (lastKeyOf ((Elem.chunk elem).map (entryOf address level)))
      rw [split]
      simp [lastKeyOf]

theorem Stored.contents_ne_nil {store : Store} {level : Nat} {elem : Elem level}
    (stored : Stored address store level elem) : contents level elem ≠ [] := by
  intro empty
  have last := stored.contents_getLast
  rw [empty] at last
  cases last

theorem Stored.ascending {store : Store} {level : Nat} {elem : Elem level}
    (stored : Stored address store level elem) :
    Ascending (contents level elem) := by
  cases level with
  | zero => exact List.pairwise_singleton _ _
  | succ level => exact stored.2.2.1

theorem Stored.le_key {store : Store} {level : Nat} {elem : Elem level}
    (stored : Stored address store level elem) {pair : Bytes × Bytes}
    (member : pair ∈ contents level elem) :
    pair.1 ≤ (entryOf address level elem).key := by
  have last := stored.contents_getLast
  have ascending := stored.ascending
  obtain ⟨front, final, split⟩ : ∃ front final,
      contents level elem = front ++ [final] :=
    ⟨_, _, (List.dropLast_concat_getLast stored.contents_ne_nil).symm⟩
  rw [split] at last member ascending
  have key : final.1 = (entryOf address level elem).key := by simpa using last
  rcases List.mem_append.mp member with inside | isLast
  · have below := (Ascending.append_iff.mp ascending).2.2 pair inside final
      (by simp)
    exact key ▸ below.le
  · rw [List.mem_singleton.mp isLast, key]

theorem Stored.key_mem {store : Store} {level : Nat} {elem : Elem level}
    (stored : Stored address store level elem) :
    ∃ pair ∈ contents level elem, pair.1 = (entryOf address level elem).key := by
  have last := stored.contents_getLast
  obtain ⟨pair, found, key⟩ := Option.map_eq_some_iff.mp last
  exact ⟨pair, List.mem_of_getLast? found, key⟩

theorem Stored.fits {store : Store} {level : Nat} {elem : Elem level}
    (stored : Stored address store level elem) :
    (entryOf address level elem).Fits := by
  induction level with
  | zero => exact stored
  | succ level ih =>
      obtain ⟨filled, -, -, -, children⟩ := stored
      show (lastKeyOf ((Elem.chunk elem).map (entryOf address level))).length ≤
        maxKeyLen
      obtain ⟨front, last, split⟩ : ∃ front last,
          Elem.chunk elem = front ++ [last] :=
        ⟨_, _, (List.dropLast_concat_getLast filled).symm⟩
      have inside := ih (children last (by rw [split]; simp))
      rw [split]
      have key : lastKeyOf ((front ++ [last]).map (entryOf address level)) =
          (entryOf address level last).key := by
        simp [lastKeyOf]
      rw [key]
      cases shape : entryOf address level last with
      | leaf key value =>
          rw [shape] at inside
          exact inside.1
      | inner lastKey hash =>
          rw [shape] at inside
          exact inside

theorem keys_ascending {store : Store} {level : Nat} {chunk : Chunk level}
    (stored : ∀ elem ∈ chunk, Stored address store level elem)
    (ascending : Ascending chunk.contents) :
    chunk.Pairwise (fun left right =>
      (entryOf address level left).key < (entryOf address level right).key) := by
  induction chunk with
  | nil => exact List.Pairwise.nil
  | cons elem chunk ih =>
      rw [Chunk.contents_cons] at ascending
      obtain ⟨-, rest, across⟩ := Ascending.append_iff.mp ascending
      refine List.pairwise_cons.mpr ⟨?_, ih
        (fun other member => stored other (List.mem_cons_of_mem _ member)) rest⟩
      intro other member
      obtain ⟨low, lowMember, lowKey⟩ :=
        (stored elem List.mem_cons_self).key_mem
      obtain ⟨high, highMember, highKey⟩ :=
        (stored other (List.mem_cons_of_mem _ member)).key_mem
      have inRest : high ∈ Chunk.contents chunk :=
        List.mem_flatMap.mpr ⟨other, member, highMember⟩
      rw [← lowKey, ← highKey]
      exact across low lowMember high inRest

theorem decodeNode_chunk {store : Store} {level : Nat} (bound : level < 256)
    {chunk : Chunk level} (stored : Stored address store (level + 1) chunk.elem) :
    decodeNode (chunkBytes address level chunk) level =
      .ok (nodeOf address level chunk) := by
  obtain ⟨filled, few, ascending, -, children⟩ := stored_succ.mp stored
  cases level with
  | zero =>
      rw [Chunk.contents_zero] at ascending
      exact decodeNode_leaf chunk few children ascending
  | succ level =>
      have asRefs : chunk.map (entryOf address (level + 1)) =
          (chunk.map fun elem => refOf address level (Elem.chunk elem)).map
            NodeRef.entry := by
        rw [List.map_map]
        exact List.map_congr_left (fun elem _ => entryOf_succ address elem)
      rw [chunkBytes, asRefs]
      refine decodeNode_inner (Nat.succ_ne_zero level) bound _ ?filled ?few ?fits
        ?ordered
      case filled => simpa using filled
      case few => simpa using few
      case fits =>
        intro ref member
        obtain ⟨elem, inside, rfl⟩ := List.mem_map.mp member
        exact (children elem inside).fits
      case ordered =>
        rw [List.pairwise_map]
        exact keys_ascending children ascending

theorem chunk_eq_of_hash {store : Store} (free : CollisionFree address store)
    {level : Nat} (bound : level < 256) {left right : Chunk level}
    (leftStored : Stored address store (level + 1) left.elem)
    (rightStored : Stored address store (level + 1) right.elem)
    (same : (refOf address level left).hash = (refOf address level right).hash) :
    left = right := by
  induction level with
  | zero =>
      have leftHeld := (stored_succ.mp leftStored).2.2.2.1
      have rightHeld := (stored_succ.mp rightStored).2.2.2.1
      have bytes := free _ leftHeld _ rightHeld same
      have leftRead := decodeNode_chunk bound leftStored
      rw [bytes, decodeNode_chunk bound rightStored] at leftRead
      exact (Node.leaf.inj (Except.ok.inj leftRead)).symm
  | succ level ih =>
      obtain ⟨-, -, -, leftHeld, leftChildren⟩ := stored_succ.mp leftStored
      obtain ⟨-, -, -, rightHeld, rightChildren⟩ := stored_succ.mp rightStored
      have bytes := free _ leftHeld _ rightHeld same
      have leftRead := decodeNode_chunk bound leftStored
      rw [bytes, decodeNode_chunk bound rightStored] at leftRead
      have refs : right.map (fun elem => refOf address level (Elem.chunk elem)) =
          left.map (fun elem => refOf address level (Elem.chunk elem)) := by
        simpa [nodeOf] using leftRead
      clear leftRead bytes leftHeld rightHeld same leftStored rightStored
      induction left generalizing right with
      | nil => simpa using refs
      | cons head left inner =>
          cases right with
          | nil => simp at refs
          | cons other right =>
              rw [List.map_cons, List.map_cons, List.cons.injEq] at refs
              have heads : Elem.chunk head = Elem.chunk other :=
                ih (by omega) (leftChildren head List.mem_cons_self)
                  (rightChildren other List.mem_cons_self)
                  (congrArg NodeRef.hash refs.1.symm)
              have tails := inner
                (fun elem member => leftChildren elem (List.mem_cons_of_mem _ member))
                (fun elem member => rightChildren elem (List.mem_cons_of_mem _ member))
                refs.2
              exact congrArg₂ List.cons heads tails

/-- What a parent may expect of a chunk at its place. -/
def InPlace (address : Bytes → Hash) (level : Nat) (chunk : Chunk level)
    (expectLastKey minKeyExclusive : Option Bytes) : Prop :=
  (∀ want ∈ expectLastKey, want = (refOf address level chunk).lastKey) ∧
    ∀ low ∈ minKeyExclusive, ∀ pair ∈ chunk.contents, low < pair.1

theorem nodeOf_lastKey {level : Nat} {chunk : Chunk level}
    (filled : chunk ≠ []) :
    (nodeOf address level chunk).lastKey =
      some (refOf address level chunk).lastKey := by
  obtain ⟨front, last, rfl⟩ : ∃ front last, chunk = front ++ [last] :=
    ⟨_, _, (List.dropLast_concat_getLast filled).symm⟩
  have last : (front ++ [last]).getLast? = some last := by simp
  cases level with
  | zero =>
      simp only [refOf, lastKeyOf, List.map_append, List.map_cons, List.map_nil,
        List.getLast?_concat, Option.map_some, Option.getD_some]
      exact congrArg (Option.map Prod.fst) last
  | succ level =>
      simp only [nodeOf, Node.lastKey, refOf, lastKeyOf, List.map_append,
        List.map_cons, List.map_nil, List.getLast?_concat, Option.map_some,
        Option.getD_some]
      rfl

theorem firstKey_above {store : Store} {level : Nat} {chunk : Chunk level}
    (children : ∀ elem ∈ chunk, Stored address store level elem)
    {low : Bytes} (above : ∀ pair ∈ chunk.contents, low < pair.1)
    {first : Bytes} (found : (nodeOf address level chunk).firstKey = some first) :
    low < first := by
  cases chunk with
  | nil => cases level <;> cases found
  | cons elem chunk =>
      obtain ⟨pair, inside, key⟩ := (children elem List.mem_cons_self).key_mem
      have member : pair ∈ Chunk.contents (elem :: chunk) :=
        List.mem_flatMap.mpr ⟨elem, List.mem_cons_self, inside⟩
      have isKey : first = (entryOf address level elem).key := by
        cases level <;> exact (Option.some.inj found).symm
      rw [isKey, ← key]
      exact above pair member

theorem readNode_of_stored {store : Store} (free : CollisionFree address store)
    {level : Nat} (bound : level < 256) {chunk : Chunk level}
    (stored : Stored address store (level + 1) chunk.elem)
    {expectLastKey minKeyExclusive : Option Bytes}
    (inPlace : InPlace address level chunk expectLastKey minKeyExclusive) :
    readNode address store (refOf address level chunk).hash level expectLastKey
        minKeyExclusive =
      .ok (nodeOf address level chunk) := by
  obtain ⟨filled, -, -, held, children⟩ := stored_succ.mp stored
  have found : store.get address (refOf address level chunk).hash =
      some (chunkBytes address level chunk) := Store.get_of_mem free held
  have ends : endsAt (nodeOf address level chunk) expectLastKey = true := by
    cases expectLastKey with
    | none => rfl
    | some want =>
        have same := inPlace.1 want rfl
        simp [endsAt, nodeOf_lastKey filled, same]
  have lies : liesAbove (nodeOf address level chunk) minKeyExclusive = true := by
    cases minKeyExclusive with
    | none => rfl
    | some low =>
        simp only [liesAbove]
        split
        · next _ _ first lowEq firstEq =>
            cases lowEq
            simpa using firstKey_above children (inPlace.2 low rfl) firstEq
        · rfl
  rw [readNode, found]
  simp only [decodeNode_chunk bound stored, ok_bind, ends, lies, not_true_eq_false,
    if_false]

theorem readNode_emptyLeaf {store : Store} (free : CollisionFree address store)
    (held : chunkBytes address 0 [] ∈ store) :
    readNode address store (refOf address 0 []).hash 0 none none =
      .ok (.leaf []) := by
  have found : store.get address (refOf address 0 []).hash =
      some (chunkBytes address 0 []) := Store.get_of_mem free held
  have decoded : decodeNode (chunkBytes address 0 []) 0 = .ok (.leaf []) :=
    decodeNode_leaf [] (by decide) nofun .nil
  rw [readNode, found]
  simp only [decoded, ok_bind]
  rfl

theorem readNode_ref {store : Store} (free : CollisionFree address store)
    {level : Nat} (bound : level < 256) {chunk : Chunk level}
    (stored : Stored address store (level + 1) chunk.elem) :
    readNode address store (refOf address level chunk).hash level
        (some (refOf address level chunk).lastKey) none =
      .ok (nodeOf address level chunk) := by
  apply readNode_of_stored free bound stored
  constructor
  · rintro want ⟨⟩
    rfl
  · nofun

end

end Acetone.Prolly

import Acetone.Prolly.Shape

/-!
# Lookups read the contents of a tree

Nothing here depends on where the chunks of a tree end: any stored tree will
do.
-/

namespace Acetone.Prolly

open Acetone.Lib

structure Leads (env : Substrate) (store : Store) (root : Root) {top : Nat}
    (chunk : Chunk top) : Prop where
  hash : root.hash = (refOf env.address top chunk).hash
  height : root.height = top + 1
  bounded : top < maxHeight
  held : Stored env.address store (top + 1) chunk.elem ∨
    (top = 0 ∧ chunk = [] ∧ chunkBytes env.address top chunk ∈ store)

section

variable {env : Substrate} {store : Store}

theorem Leads.topLevel {root : Root} {top : Nat} {chunk : Chunk top}
    (leads : Leads env store root chunk) : root.topLevel = top := by
  rw [Root.topLevel, leads.height, Nat.add_sub_cancel]

theorem Leads.ascending {root : Root} {top : Nat} {chunk : Chunk top}
    (leads : Leads env store root chunk) : Ascending chunk.contents := by
  rcases leads.held with stored | ⟨-, rfl, -⟩
  · exact (stored_succ.mp stored).2.2.1
  · exact .nil

/-- The child that a key belongs to holds whatever the node holds under it. -/
private theorem lookup_child {level : Nat} {front back : Chunk (level + 1)}
    {elem : Elem (level + 1)} {key : Bytes}
    (stored : ∀ child ∈ front ++ elem :: back,
      Stored env.address store (level + 1) child)
    (ascending : Ascending (Chunk.contents (front ++ elem :: back)))
    (before : ∀ child ∈ front, (entryOf env.address (level + 1) child).key < key)
    (upTo : key ≤ (entryOf env.address (level + 1) elem).key) :
    lookup key (Chunk.contents (front ++ elem :: back)) =
      lookup key (Chunk.contents (Elem.chunk elem)) := by
  rw [Chunk.contents_append, Chunk.contents_cons] at ascending ⊢
  have inFront : lookup key (Chunk.contents front) = none := by
    rw [lookup_eq_none]
    intro pair member
    obtain ⟨child, among, inside⟩ := List.mem_flatMap.mp member
    exact (lt_of_le_of_lt ((stored child (List.mem_append_left _ among)).le_key
      inside) (before child among)).ne
  have inBack : lookup key (Chunk.contents back) = none := by
    rw [lookup_eq_none]
    intro pair member
    obtain ⟨last, lastMember, lastKey⟩ :=
      (stored elem (List.mem_append_right _ List.mem_cons_self)).key_mem
    have rest := (Ascending.append_iff.mp ascending).2.1
    have above := (Ascending.append_iff.mp rest).2.2 last lastMember pair member
    exact (lt_of_le_of_lt (lastKey ▸ upTo) above).ne'
  rw [lookup_append, lookup_append, inFront, inBack, Option.none_or,
    Option.or_none]
  rfl

private theorem lookup_beyond {level : Nat} {chunk : Chunk (level + 1)}
    {key : Bytes}
    (stored : ∀ child ∈ chunk, Stored env.address store (level + 1) child)
    (before : ∀ child ∈ chunk, (entryOf env.address (level + 1) child).key < key) :
    lookup key (Chunk.contents chunk) = none := by
  rw [lookup_eq_none]
  intro pair member
  obtain ⟨child, among, inside⟩ := List.mem_flatMap.mp member
  exact (lt_of_le_of_lt ((stored child among).le_key inside) (before child among)).ne

/-- The children of a node, cut where the walk of `get` goes down. -/
private theorem takeWhile_refs {level : Nat} (chunk : Chunk (level + 1))
    (key : Bytes) :
    (chunk.map fun elem => refOf env.address level (Elem.chunk elem)).takeWhile
        (fun ref => ref.lastKey < key) =
      (chunk.takeWhile fun elem =>
        (entryOf env.address (level + 1) elem).key < key).map
        fun elem => refOf env.address level (Elem.chunk elem) :=
  List.takeWhile_map

/-- The child reads back under the bound its left neighbour sets. -/
private theorem inPlace_child {level : Nat} {front back : Chunk (level + 1)}
    {elem : Elem (level + 1)}
    (stored : ∀ child ∈ front ++ elem :: back,
      Stored env.address store (level + 1) child)
    (ascending : Ascending (Chunk.contents (front ++ elem :: back)))
    {lower : Option Bytes}
    (above : ∀ low ∈ lower,
      ∀ pair ∈ Chunk.contents (front ++ elem :: back), low < pair.1) :
    InPlace env.address level (Elem.chunk elem)
      (some (refOf env.address level (Elem.chunk elem)).lastKey)
      (((front.map fun child =>
        refOf env.address level (Elem.chunk child)).getLast?.map
          NodeRef.lastKey).or lower) := by
  refine ⟨fun want isWant => (Option.some.inj isWant).symm, ?_⟩
  intro low isLow pair member
  have inside : pair ∈ Chunk.contents (elem :: back) :=
    List.mem_append_left _ member
  cases front using List.reverseRecOn with
  | nil => exact above low isLow pair inside
  | append_singleton front last =>
      rw [List.map_append, List.map_singleton, List.getLast?_concat] at isLow
      have isLast : (entryOf env.address (level + 1) last).key = low :=
        Option.some.inj isLow
      have among : last ∈ (front ++ [last]) ++ elem :: back := by simp
      obtain ⟨bottom, bottomMember, bottomKey⟩ := (stored last among).key_mem
      rw [Chunk.contents_append] at ascending
      rw [← isLast, ← bottomKey]
      refine (Ascending.append_iff.mp ascending).2.2 bottom ?_ pair inside
      rw [Chunk.contents_append]
      exact List.mem_append_right _ (List.mem_append_left _ bottomMember)

private theorem not_of_drop_takeWhile {α : Type} {p : α → Bool} {items rest : List α}
    {head : α} (after : items.drop (items.takeWhile p).length = head :: rest) :
    p head = false := by
  induction items with
  | nil => cases after
  | cons item items ih =>
      rw [List.takeWhile_cons] at after
      split at after
      · exact ih after
      · next fails =>
          cases after
          simpa using fails

theorem getFrom_spec (free : CollisionFree env.address store) (key : Bytes)
    {level : Nat} (bounded : level < maxHeight) {chunk : Chunk level}
    (stored : Stored env.address store (level + 1) chunk.elem)
    {expectLastKey minKeyExclusive : Option Bytes}
    (inPlace : InPlace env.address level chunk expectLastKey minKeyExclusive) :
    getFrom env store key level (refOf env.address level chunk).hash
        expectLastKey minKeyExclusive =
      .ok (lookup key chunk.contents) := by
  have read := readNode_of_stored free (Nat.lt_trans bounded (by decide)) stored
    inPlace
  obtain ⟨-, -, ascending, -, children⟩ := stored_succ.mp stored
  induction level generalizing expectLastKey minKeyExclusive with
  | zero =>
      rw [getFrom, read, ok_bind, Chunk.contents_zero]
      rfl
  | succ level ih =>
      let front := chunk.takeWhile fun elem =>
        decide ((entryOf env.address (level + 1) elem).key < key)
      have whole : front ++ chunk.drop front.length = chunk :=
        List.prefix_iff_eq_append.mp (List.takeWhile_prefix _)
      have before : ∀ child ∈ front,
          (entryOf env.address (level + 1) child).key < key := by
        intro child member
        simpa using List.all_eq_true.mp List.all_takeWhile child member
      rw [getFrom, read, ok_bind]
      simp only [nodeOf, takeWhile_refs, List.length_map, ← List.map_drop]
      cases after : chunk.drop front.length with
      | nil =>
          rw [after, List.append_nil] at whole
          rw [whole] at before
          rw [lookup_beyond children before]
          rfl
      | cons elem back =>
          rw [after] at whole
          have upTo : key ≤ (entryOf env.address (level + 1) elem).key := by
            simpa using not_of_drop_takeWhile after
          have cutChildren : ∀ child ∈ front ++ elem :: back,
              Stored env.address store (level + 1) child := whole ▸ children
          have cutAscending : Ascending (Chunk.contents (front ++ elem :: back)) :=
            whole ▸ ascending
          have lookups : lookup key chunk.contents =
              lookup key (Chunk.contents (Elem.chunk elem)) := by
            conv_lhs => rw [← whole]
            exact lookup_child cutChildren cutAscending before upTo
          have here := cutChildren elem
            (List.mem_append_right _ List.mem_cons_self)
          have below : level < 256 :=
            Nat.lt_trans (Nat.lt_of_succ_lt bounded) (by decide)
          have lower : ∀ low ∈ minKeyExclusive,
              ∀ pair ∈ Chunk.contents (front ++ elem :: back), low < pair.1 :=
            whole ▸ inPlace.2
          have childInPlace := inPlace_child cutChildren cutAscending lower
          rw [lookups]
          exact ih (Nat.lt_of_succ_lt bounded) here childInPlace
            (readNode_of_stored free below here childInPlace) here.ascending
            (stored_succ.mp here).2.2.2.2

theorem get_spec (free : CollisionFree env.address store) {root : Root}
    {top : Nat} {chunk : Chunk top} (leads : Leads env store root chunk)
    (key : Bytes) : get env store root key = .ok (lookup key chunk.contents) := by
  rw [get, leads.topLevel, leads.hash]
  rcases leads.held with stored | ⟨rfl, rfl, held⟩
  · exact getFrom_spec free key leads.bounded stored
      ⟨fun want isWant => (nomatch isWant), fun low isLow => (nomatch isLow)⟩
  · rw [getFrom, readNode_emptyLeaf free held, ok_bind]
    rfl

end

end Acetone.Prolly

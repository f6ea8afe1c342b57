import Acetone.Prolly.Descent

/-!
# Bulk loads and batches

`bulkLoad` builds the canonical tree of its entries.  `applyBatch` turns a tree
of some pairs into a tree of the updated pairs.  The new tree is canonical
again, unless the batch strands a final node with a single child: it deletes
everything before that node and leaves the node untouched.
-/

namespace Acetone.Prolly

open Acetone.Lib

def updated (pairs : List (Bytes × Bytes)) (ops : List BatchOp) :
    List (Bytes × Bytes) :=
  mergeSorted pairs (sortDedupe MapOp.key ops)

/-- The pairs can be framed, and the tree over them cannot grow too high. -/
structure Storable (pairs : List (Bytes × Bytes)) : Prop where
  fits : ∀ pair ∈ pairs, (leafEntry pair).Fits
  few : pairs.length ≤ 2 ^ maxHeight

instance (pairs : List (Bytes × Bytes)) : Decidable (Storable pairs) :=
  decidable_of_iff ((∀ pair ∈ pairs, (leafEntry pair).Fits) ∧
      pairs.length ≤ 2 ^ maxHeight)
    ⟨fun both => ⟨both.1, both.2⟩, fun storable => ⟨storable.fits, storable.few⟩⟩

section

variable (env : Substrate) (params : ChunkParams)

/-- The batch deletes everything before a final node with a single child and
touches nothing from there on. -/
def Strands (pairs : List (Bytes × Bytes)) (ops : List BatchOp) : Prop :=
  ops ≠ [] ∧ ∃ level, 1 ≤ level ∧ ∃ (before : List (Chunk level)) (node : Chunk level),
    segments (cutAt env params level) (tier env params pairs level) =
      before ++ [node] ∧
    node.length = 1 ∧
    (∀ op ∈ ops, ∃ pair ∈ Chunk.contents before.flatten, op.key ≤ pair.1) ∧
    updated pairs ops = node.contents

/-- The root is a leaf or has several children. -/
def Minimal {top : Nat} (chunk : Chunk top) : Prop :=
  top = 0 ∨ 2 ≤ chunk.length

variable {env params}

theorem sortDedupe_pairs_ascending (entries : List (Bytes × Bytes)) :
    Ascending (sortDedupe Prod.fst entries) :=
  sortDedupe_ascending Prod.fst entries

theorem bulkLoad_spec {space : List Bytes}
    (free : CollisionFree env.address space) {store : Store}
    (within : store ⊆ space) {entries : List (Bytes × Bytes)}
    (roomy : Roomy env params space (sortDedupe Prod.fst entries))
    (storable : Storable (sortDedupe Prod.fst entries)) :
    ∃ root after top, ∃ chunk : Chunk top,
      bulkLoad env store params entries = .ok (root, after) ∧
      Built env params space store after (sortDedupe Prod.fst entries) root
        chunk ∧
      Minimal chunk := by
  let pairs := sortDedupe Prod.fst entries
  have shown : List.Forall₂ (fun item piece => Piece.Shown env 0 item piece)
      [.fresh (pairs.map leafEntry) none] [.fresh pairs] :=
    .cons (@Piece.Shown.fresh env 0 pairs none) .nil
  have valid : ∀ piece ∈ [(.fresh pairs : Piece 0)],
      piece.Valid env params store := by
    intro piece member
    rw [List.mem_singleton.mp member]
    exact storable.fits
  have expand : [(.fresh pairs : Piece 0)].flatMap Piece.expand =
      tier env params pairs 0 := List.flatMap_singleton _ _
  obtain ⟨root, recorded, after, top, chunk, done, built, shape⟩ :=
    buildLevels_spec free within shown valid expand
      (sortDedupe_pairs_ascending entries) roomy storable.few
      (show OpenedValid env params store [] from nofun) none
  refine ⟨root, after, top, chunk, ?_, built, ?_⟩
  · rw [bulkLoad]
    have loaded : buildLevels env store params [.fresh (pairs.map fun entry =>
      Entry.leaf entry.1 entry.2) none] [] none = .ok (root, recorded, after) := done
    simp only [pairs] at loaded
    rw [loaded, ok_bind]
  · rcases shape with leaf | several | ⟨isFinal, high, node, final, member, -⟩
    · exact .inl leaf
    · exact .inr several
    · cases List.mem_singleton.mp member

theorem below_below {level under top : Nat} (lower : level ≤ under)
    (order : under ≤ top) (chunk : Chunk top) :
    below level top chunk = (below under top chunk).flatMap (below level under) := by
  induction top with
  | zero =>
      obtain rfl : under = 0 := Nat.le_zero.mp order
      rw [below_self, List.flatMap_singleton]
  | succ top ih =>
      by_cases same : under = top + 1
      · subst same
        rw [below_self, List.flatMap_singleton]
      · rw [below_succ (by omega), below_succ (by omega), List.flatMap_assoc]
        exact List.flatMap_congr (fun elem _ => ih (by omega) (Elem.chunk elem))

private theorem contents_flatMap_below {level top : Nat} (lower : level ≤ top)
    (nodes : List (Chunk top)) :
    Chunk.contents (nodes.flatMap (below level top)).flatten =
      Chunk.contents nodes.flatten := by
  induction nodes with
  | nil => rfl
  | cons node nodes ih =>
      rw [List.flatMap_cons, List.flatten_append, Chunk.contents_append, ih,
        contents_below lower, List.flatten_cons, Chunk.contents_append]

private theorem two_le_of_closed {level : Nat} {chunk : Chunk level}
    (closed : Closed (cutAt env params level) chunk) : 2 ≤ chunk.length :=
  two_le_of_cutAt (Closed.cut_eq _ closed)

/-- A single-child node that passed through whole was the last of its level,
beyond every op. -/
private theorem beyond_of_passed {store : Store} {top : Nat} {chunk : Chunk top}
    {isFinal : Bool} {ops : List BatchOp} {items : List Item}
    {opened : List (Nat × OpenedInner)} {pieces : List (Piece 0)}
    (routed : Routed env params store [chunk] isFinal ops items opened pieces)
    {under : Nat} {node : Chunk under} {nodeFinal : Bool}
    (passed : FromPieces pieces under node nodeFinal) (single : node.length = 1) :
    under ≤ top ∧ Beyond ops (below under top chunk) node := by
  obtain ⟨high, piece, pieceFinal, member, lower, inside, -⟩ := passed
  obtain ⟨order, -, final⟩ := routed.untouched high piece pieceFinal member
  obtain ⟨-, standing⟩ := routed.valid _ member
  have notClosed : ¬ Closed (cutAt env params under) node := by
    intro closed
    have several := two_le_of_closed closed
    omega
  have isLast : pieceFinal = true := by
    cases pieceFinal with
    | true => rfl
    | false =>
        have closed := (standing.regular.below_closed lower node inside).closed
        exact absurd closed notClosed
  obtain ⟨-, before, split, beyond⟩ := final isLast
  rw [List.flatMap_singleton] at split
  obtain ⟨front, last, ends, others, -⟩ := standing.regular.below_final lower
  have here : node = last := by
    rw [ends] at inside
    rcases List.mem_append.mp inside with early | late
    · exact absurd (others node early).closed notClosed
    · exact List.mem_singleton.mp late
  refine ⟨by omega, before.flatMap (below under high) ++ front, ?_, ?_⟩
  · rw [below_below lower order, split, List.flatMap_append,
      List.flatMap_singleton, ends, here, List.append_assoc]
  · intro op among
    obtain ⟨pair, found, upTo⟩ := beyond op among
    refine ⟨pair, ?_, upTo⟩
    rw [List.flatten_append, Chunk.contents_append, contents_flatMap_below lower]
    exact List.mem_append_left _ found

private theorem descend_root {store : Store}
    (free : CollisionFree env.address store) {root : Root} {top : Nat}
    {chunk : Chunk top} (denotes : Denotes env params store root chunk)
    {ops : List BatchOp} (ascending : AscendingOps ops)
    (fits : ∀ pair ∈ mergeSorted chunk.contents ops, (leafEntry pair).Fits) :
    ∃ items opened pieces,
      descend env store root.topLevel root.hash none none true ops =
        .ok (items, opened) ∧
      Routed env params store [chunk] true ops items opened pieces := by
  have level : root.topLevel = top := by rw [denotes.root_eq]; rfl
  have hash : root.hash = (refOf env.address top chunk).hash := by
    rw [denotes.root_eq]
  rw [level, hash]
  rcases denotes.held with standing | ⟨rfl, rfl, held⟩
  · have inPlace : InPlace env.address top chunk none none :=
      ⟨fun want isWant => (nomatch isWant), fun low isLow => (nomatch isLow)⟩
    exact descend_spec free standing inPlace ascending fits
  · refine ⟨_, _, _, ?_, routed_leaf rfl (some (refOf env.address 0 []).hash) fits⟩
    rw [descend, readNode_emptyLeaf free held, ok_bind]
    rfl

private theorem denotes_ne_nil {store : Store} {root : Root} {top : Nat}
    {chunk : Chunk top} (denotes : Denotes env params store root chunk)
    (high : 1 ≤ top) : chunk ≠ [] := by
  rcases denotes.held with standing | ⟨leaf, -, -⟩
  · exact (stored_succ.mp standing.stored).1
  · omega

/-- A batch turns a tree of some pairs into one of the updated pairs. -/
theorem applyBatchInner_spec {space : List Bytes}
    (free : CollisionFree env.address space) {store : Store}
    (within : store ⊆ space) {root : Root} {top : Nat} {chunk : Chunk top}
    (denotes : Denotes env params store root chunk)
    (ascending : Ascending chunk.contents) (ops : List BatchOp)
    (roomy : Roomy env params space (updated chunk.contents ops))
    (storable : Storable (updated chunk.contents ops)) (recorder : Recorder) :
    ∃ next recorded after under, ∃ node : Chunk under,
      applyBatchInner env store root ops recorder = .ok (next, recorded, after) ∧
      Built env params space store after (updated chunk.contents ops) next node ∧
      (Minimal chunk → ¬ Strands env params chunk.contents ops →
        Minimal node) := by
  have sorted : AscendingOps (sortDedupe MapOp.key ops) :=
    sortDedupe_ascending MapOp.key ops
  rw [applyBatchInner]
  by_cases none : sortDedupe MapOp.key ops = []
  · have same : updated chunk.contents ops = chunk.contents := by
      rw [updated, none, mergeSorted_nil]
    refine ⟨root, recorder, store, top, chunk, ?_,
      ⟨denotes, same.symm, List.Subset.refl _, within, fun _ member => .inl member⟩,
      fun minimal _ => minimal⟩
    rw [none]
    rfl
  · obtain ⟨items, opened, pieces, descended, routed⟩ :=
      descend_root (free.subset within) denotes sorted storable.fits
    have params_eq : root.params = params := by rw [denotes.root_eq]
    have expand : pieces.flatMap Piece.expand =
        tier env params (updated chunk.contents ops) 0 := by
      rw [routed.expand, List.flatMap_singleton]
      rfl
    obtain ⟨next, recorded, after, under, node, done, built, shape⟩ :=
      buildLevels_spec free within routed.shown routed.valid expand
        (mergeSorted_ascending ascending sorted) roomy storable.few routed.parents
        recorder
    refine ⟨next, recorded, after, under, node, ?_, built, ?_⟩
    · have notEmpty : ¬ (sortDedupe MapOp.key ops).isEmpty = true := by
        simpa using none
      simp only [if_neg notEmpty, descended, ok_bind, params_eq]
      exact done
    · intro _ calm
      rcases shape with leaf | several | ⟨isFinal, passed⟩
      · exact .inl leaf
      · exact .inr several
      by_contra lonely
      have high : 1 ≤ under := Nat.one_le_iff_ne_zero.mpr (fun leaf =>
        lonely (.inl leaf))
      have filled := denotes_ne_nil built.denotes high
      have single : node.length = 1 := by
        have few : ¬ 2 ≤ node.length := fun several => lonely (.inr several)
        have positive := List.length_pos_iff.mpr filled
        omega
      obtain ⟨lower, before, split, beyond⟩ := beyond_of_passed routed passed single
      apply calm
      refine ⟨?_, under, high, before, node, ?_, single, ?_, built.contents.symm⟩
      · intro empty
        exact none (by rw [empty]; rfl)
      · rcases denotes.held with standing | ⟨leaf, -, -⟩
        · rw [← standing.regular.below_eq lower, split]
        · omega
      · intro op among
        obtain ⟨other, inside, same⟩ := exists_mem_sortDedupe MapOp.key among
        rw [← same]
        exact beyond other inside

end

end Acetone.Prolly

import Acetone.Lib.SortedMerge
import Acetone.Prolly.Levels

/-!
# Routing a batch to the leaves

`descend` hands each child the ops up to its last key and the last child the
rest.  The item stream it answers denotes the old pairs with the ops applied,
and an untouched final node lies beyond every op.
-/

namespace Acetone.Prolly

open Acetone.Lib

def leafEntry (pair : Bytes × Bytes) : Entry := .leaf pair.1 pair.2

private theorem applyOp_eq (op : BatchOp) :
    applyOp op = op.entries.map leafEntry := by
  cases op <;> rfl

private theorem mergeOps_nil (old : List (Bytes × Bytes)) :
    mergeOps old [] = old.map leafEntry := by
  induction old with
  | nil => rfl
  | cons head old ih =>
      rw [mergeOps, mergeEntry, ih]
      rfl

theorem mergeOps_eq (old : List (Bytes × Bytes)) (ops : List BatchOp) :
    mergeOps old ops = (mergeSorted old ops).map leafEntry := by
  induction old, ops using mergeSorted.induct with
  | case1 ops =>
      rw [mergeOps, mergeSorted, List.map_flatMap]
      exact List.flatMap_congr (fun op _ => applyOp_eq op)
  | case2 head old => rw [mergeOps_nil, mergeSorted]
  | case3 head old op ops before ih =>
      rw [mergeSorted, if_pos before, List.map_cons, ← ih, mergeOps, mergeEntry,
        if_pos before]
      rfl
  | case4 head old op ops notBefore same ih =>
      rw [mergeSorted, if_neg notBefore, if_pos same, List.map_append, ← ih,
        mergeOps, mergeEntry, if_neg notBefore, if_pos same, applyOp_eq]
  | case5 head old op ops notBefore notSame ih =>
      rw [mergeSorted, if_neg notBefore, if_neg notSame, List.map_append, ← ih,
        mergeOps, mergeEntry, if_neg notBefore, if_neg notSame, applyOp_eq,
        mergeOps]

/-- The node is the last of its level and no op reaches it. -/
def Beyond (ops : List BatchOp) {top : Nat} (nodes : List (Chunk top))
    (node : Chunk top) : Prop :=
  ∃ before, nodes = before ++ [node] ∧
    ∀ op ∈ ops, ∃ pair ∈ Chunk.contents before.flatten, op.key ≤ pair.1

/-- What routing `ops` into a run of neighbouring nodes answers. -/
structure Routed (env : Substrate) (params : ChunkParams) (store : Store)
    {level : Nat} (run : List (Chunk level)) (isFinal : Bool) (ops : List BatchOp)
    (items : List Item) (opened : List (Nat × OpenedInner))
    (pieces : List (Piece 0)) : Prop where
  shown : List.Forall₂ (fun item piece => Piece.Shown env 0 item piece) items
    pieces
  valid : ∀ piece ∈ pieces, piece.Valid env params store
  expand : pieces.flatMap Piece.expand =
    mergeSorted (run.flatMap Chunk.contents) ops
  parents : OpenedValid env params store opened
  untouched : ∀ top node nodeFinal, Piece.sub top node nodeFinal ∈ pieces →
    top ≤ level ∧ node ∈ run.flatMap (below top level) ∧
      (nodeFinal = true →
        isFinal = true ∧ Beyond ops (run.flatMap (below top level)) node)

section

variable {env : Substrate} {params : ChunkParams} {store : Store}

theorem routed_leaf {pairs : List (Bytes × Bytes)} {chunk : Chunk 0}
    (leaf : chunk = pairs) {isFinal : Bool} {ops : List BatchOp}
    (base : Option Hash)
    (fits : ∀ pair ∈ mergeSorted pairs ops, (leafEntry pair).Fits) :
    Routed env params store [chunk] isFinal ops [.fresh (mergeOps pairs ops) base]
      [] [.fresh (mergeSorted pairs ops)] := by
  refine ⟨.cons ?_ .nil, ?_, ?_, nofun, ?_⟩
  · rw [mergeOps_eq]
    exact @Piece.Shown.fresh env 0 (mergeSorted pairs ops) base
  · intro piece member
    rw [List.mem_singleton.mp member]
    exact fits
  · rw [List.flatMap_singleton, List.flatMap_singleton, Chunk.contents_zero, leaf]
    rfl
  · intro top node nodeFinal member
    cases List.mem_singleton.mp member

private theorem routed_untouched {level : Nat} {chunk : Chunk level}
    {isFinal : Bool} (standing : Standing env params store level chunk isFinal) :
    Routed env params store [chunk] isFinal []
      [untouched level (refOf env.address level chunk) isFinal] []
      [.sub level chunk isFinal] := by
  refine ⟨.cons ?_ .nil, ?_, ?_, nofun, ?_⟩
  · cases level with
    | zero => exact .old chunk isFinal
    | succ level => exact .subtree (Nat.succ_pos level) chunk isFinal
  · intro piece member
    rw [List.mem_singleton.mp member]
    exact ⟨Nat.zero_le level, standing⟩
  · have all := contents_below (Nat.zero_le level) chunk
    rw [Chunk.contents_zero] at all
    rw [List.flatMap_singleton, List.flatMap_singleton, mergeSorted_nil]
    exact all
  · intro top node nodeFinal member
    cases List.mem_singleton.mp member
    have here : [chunk].flatMap (below level level) = [] ++ [chunk] := by
      rw [List.flatMap_singleton, below_self]
      rfl
    rw [here]
    exact ⟨Nat.le_refl level, List.mem_cons_self,
      fun final => ⟨final, [], rfl, nofun⟩⟩

/-- Runs side by side: the left one takes the ops up to its last key. -/
private theorem Routed.append {level : Nat} {chunk : Chunk level}
    {rest : List (Chunk level)} {isFinal : Bool}
    {mine others : List BatchOp} {items moreItems : List Item}
    {opened moreOpened : List (Nat × OpenedInner)} {pieces morePieces : List (Piece 0)}
    (left : Routed env params store [chunk] false mine items opened pieces)
    (right : Routed env params store rest isFinal others moreItems moreOpened
      morePieces)
    (within : ∀ op ∈ mine, ∃ pair ∈ chunk.contents, op.key ≤ pair.1)
    (joined : mergeSorted (chunk.contents ++ rest.flatMap Chunk.contents)
        (mine ++ others) =
      mergeSorted chunk.contents mine ++
        mergeSorted (rest.flatMap Chunk.contents) others) :
    Routed env params store (chunk :: rest) isFinal (mine ++ others)
      (items ++ moreItems) (opened ++ moreOpened) (pieces ++ morePieces) := by
  refine ⟨List.rel_append left.shown right.shown, ?_, ?_, ?_, ?_⟩
  · intro piece member
    rcases List.mem_append.mp member with early | late
    · exact left.valid piece early
    · exact right.valid piece late
  · rw [List.flatMap_append, left.expand, right.expand, List.flatMap_singleton,
      List.flatMap_cons, joined]
    rfl
  · intro entry member
    rcases List.mem_append.mp member with early | late
    · exact left.parents entry early
    · exact right.parents entry late
  · intro top node nodeFinal member
    rw [List.flatMap_cons]
    rcases List.mem_append.mp member with early | late
    · obtain ⟨order, inside, final⟩ := left.untouched top node nodeFinal early
      rw [List.flatMap_singleton] at inside
      exact ⟨order, List.mem_append_left _ inside,
        fun isLast => nomatch (final isLast).1⟩
    · obtain ⟨order, inside, final⟩ := right.untouched top node nodeFinal late
      refine ⟨order, List.mem_append_right _ inside, fun isLast => ?_⟩
      obtain ⟨endsRight, before, split, beyond⟩ := final isLast
      refine ⟨endsRight, below top level chunk ++ before,
        by rw [split, List.append_assoc], ?_⟩
      intro op among
      rw [List.flatten_append, Chunk.contents_append, contents_below order]
      rcases List.mem_append.mp among with early | later
      · obtain ⟨pair, inside, upTo⟩ := within op early
        exact ⟨pair, List.mem_append_left _ inside, upTo⟩
      · obtain ⟨pair, inside, upTo⟩ := beyond op later
        exact ⟨pair, List.mem_append_right _ inside, upTo⟩

/-- Visiting a node routes its ops. -/
def Visits (env : Substrate) (params : ChunkParams) (store : Store) (level : Nat)
    (visit : NodeRef → Option Bytes → Bool → List BatchOp →
      Except ProllyError (List Item × List (Nat × OpenedInner))) : Prop :=
  ∀ (chunk : Chunk level) (lower : Option Bytes) (isFinal : Bool)
    (ops : List BatchOp), Standing env params store level chunk isFinal →
    (∀ low ∈ lower, ∀ pair ∈ chunk.contents, low < pair.1) →
    AscendingOps ops →
    (∀ pair ∈ mergeSorted chunk.contents ops, (leafEntry pair).Fits) →
    ∃ items opened pieces,
      visit (refOf env.address level chunk) lower isFinal ops =
        .ok (items, opened) ∧
      Routed env params store [chunk] isFinal ops items opened pieces

private theorem visit_or_keep {level : Nat}
    {visit : NodeRef → Option Bytes → Bool → List BatchOp →
      Except ProllyError (List Item × List (Nat × OpenedInner))}
    (visits : Visits env params store level visit) {chunk : Chunk level}
    {lower : Option Bytes} {isFinal : Bool} {ops : List BatchOp}
    (standing : Standing env params store level chunk isFinal)
    (above : ∀ low ∈ lower, ∀ pair ∈ chunk.contents, low < pair.1)
    (ascending : AscendingOps ops)
    (fits : ∀ pair ∈ mergeSorted chunk.contents ops, (leafEntry pair).Fits) :
    ∃ items opened pieces,
      (if ops.isEmpty then
        .ok ([untouched level (refOf env.address level chunk) isFinal], [])
      else visit (refOf env.address level chunk) lower isFinal ops) =
        .ok (items, opened) ∧
      Routed env params store [chunk] isFinal ops items opened pieces := by
  cases ops with
  | nil => exact ⟨_, _, _, rfl, routed_untouched standing⟩
  | cons op ops => exact visits chunk lower isFinal _ standing above ascending fits

private theorem descendRefs_cons {level : Nat}
    {visit : NodeRef → Option Bytes → Bool → List BatchOp →
      Except ProllyError (List Item × List (Nat × OpenedInner))}
    {isFinal : Bool} {child : NodeRef} {refs : List NodeRef}
    {lower : Option Bytes} {ops mine : List BatchOp} {items others : List Item}
    {opened moreOpened : List (Nat × OpenedInner)}
    (taken : (if refs.isEmpty then ops
      else ops.takeWhile (fun op => op.key ≤ child.lastKey)) = mine)
    (visited : (if mine.isEmpty then
        .ok ([untouched level child (isFinal && refs.isEmpty)], [])
      else visit child lower (isFinal && refs.isEmpty) mine) =
        .ok (items, opened))
    (looped : descendRefs visit level isFinal refs (some child.lastKey)
      (ops.drop mine.length) = .ok (others, moreOpened)) :
    descendRefs visit level isFinal (child :: refs) lower ops =
      .ok (items ++ others, opened ++ moreOpened) := by
  rw [descendRefs]
  simp only [taken, looped, ok_bind]
  split at visited
  · next none =>
      cases visited
      rw [if_pos none]
  · next some => rw [if_neg some, visited, ok_bind]

private theorem descendRefs_spec {level : Nat}
    {visit : NodeRef → Option Bytes → Bool → List BatchOp →
      Except ProllyError (List Item × List (Nat × OpenedInner))}
    (visits : Visits env params store level visit) {run : List (Chunk level)}
    (filled : run ≠ []) {isFinal : Bool}
    (standing : ∀ front chunk back, run = front ++ chunk :: back →
      Standing env params store level chunk (isFinal && back.isEmpty))
    {lower : Option Bytes}
    (above : ∀ low ∈ lower, ∀ pair ∈ run.flatMap Chunk.contents, low < pair.1)
    (ascending : Ascending (run.flatMap Chunk.contents)) {ops : List BatchOp}
    (opsAscending : AscendingOps ops)
    (fits : ∀ pair ∈ mergeSorted (run.flatMap Chunk.contents) ops,
      (leafEntry pair).Fits) :
    ∃ items opened pieces,
      descendRefs visit level isFinal (run.map (refOf env.address level)) lower
        ops = .ok (items, opened) ∧
      Routed env params store run isFinal ops items opened pieces := by
  induction run generalizing lower ops with
  | nil => exact absurd rfl filled
  | cons chunk rest ih =>
      rw [List.flatMap_cons] at above ascending fits
      have here := standing [] chunk rest rfl
      have lowHere : ∀ low ∈ lower, ∀ pair ∈ chunk.contents, low < pair.1 :=
        fun low isLow pair member =>
          above low isLow pair (List.mem_append_left _ member)
      rw [List.map_cons]
      cases rest with
      | nil =>
          rw [List.flatMap_nil, List.append_nil] at fits
          obtain ⟨items, opened, pieces, visited, routed⟩ :=
            visit_or_keep visits here lowHere opsAscending fits
          refine ⟨items ++ [], opened ++ [], pieces, ?_, ?_⟩
          · exact descendRefs_cons rfl visited rfl
          · rw [List.append_nil, List.append_nil]
            simpa using routed
      | cons next rest =>
          have stored := here.stored
          let bound := (refOf env.address level chunk).lastKey
          let mine := ops.takeWhile (fun op => op.key ≤ bound)
          let others := ops.drop mine.length
          have whole : mine ++ others = ops :=
            List.prefix_iff_eq_append.mp (List.takeWhile_prefix _)
          have mineUpTo : ∀ op ∈ mine, op.key ≤ bound := by
            intro op member
            simpa using List.all_eq_true.mp List.all_takeWhile op member
          have upTo : ∀ pair ∈ chunk.contents, pair.1 ≤ bound :=
            fun pair member => stored.le_key member
          obtain ⟨last, lastMember, lastKey⟩ := stored.key_mem
          have isBound : last.1 = bound := lastKey
          obtain ⟨-, restAscending, across⟩ := Ascending.append_iff.mp ascending
          have restAbove : ∀ pair ∈ (next :: rest).flatMap Chunk.contents,
              bound < pair.1 :=
            fun pair member => isBound ▸ across last lastMember pair member
          have othersAbove : ∀ op ∈ others, bound < op.key :=
            drop_takeWhile_above opsAscending bound
          rw [← whole] at opsAscending fits
          obtain ⟨mineAscending, othersAscending, -⟩ :=
            List.pairwise_append.mp opsAscending
          have joined := mergeSorted_append ascending opsAscending upTo restAbove
            mineUpTo othersAbove
          rw [joined] at fits
          have inner : (isFinal && (next :: rest).isEmpty) = false := by simp
          rw [inner] at here
          obtain ⟨items, opened, pieces, visited, routed⟩ :=
            visit_or_keep visits here lowHere mineAscending
              (fun pair member => fits pair (List.mem_append_left _ member))
          obtain ⟨more, moreOpened, morePieces, looped, further⟩ :=
            @ih (List.cons_ne_nil _ _)
              (fun front child back place =>
                standing (chunk :: front) child back (by rw [place]; rfl))
              (some bound)
              (fun low isLow => (Option.some.inj isLow) ▸ restAbove) restAscending
              others othersAscending
              (fun pair member => fits pair (List.mem_append_right _ member))
          refine ⟨items ++ more, opened ++ moreOpened, pieces ++ morePieces, ?_, ?_⟩
          · have childFinal : (isFinal &&
                (List.map (refOf env.address level) (next :: rest)).isEmpty) =
                false := by simp
            refine descendRefs_cons rfl ?_ looped
            rw [childFinal]
            exact visited
          · rw [← whole]
            exact routed.append further
              (fun op member => ⟨last, lastMember, isBound ▸ mineUpTo op member⟩)
              joined

private theorem Routed.lift {level : Nat} {chunk : Chunk (level + 1)}
    {isFinal : Bool} {ops : List BatchOp} {items : List Item}
    {opened : List (Nat × OpenedInner)} {pieces : List (Piece 0)}
    {parent : OpenedInner}
    (routed : @Routed env params store level chunk isFinal ops items opened pieces)
    (shown : OpenedShown env params store level parent chunk) :
    Routed env params store [chunk] isFinal ops items
      ((level + 1, parent) :: opened) pieces := by
  refine ⟨routed.shown, routed.valid, ?_, ?_, ?_⟩
  · rw [List.flatMap_singleton]
    exact routed.expand
  · intro entry member
    rcases List.mem_cons.mp member with rfl | later
    · exact ⟨level, chunk, rfl, shown⟩
    · exact routed.parents entry later
  · intro top node nodeFinal member
    obtain ⟨order, inside, final⟩ := routed.untouched top node nodeFinal member
    rw [List.flatMap_singleton, below_succ order]
    exact ⟨Nat.le_succ_of_le order, inside, final⟩

/-- A node read on the way down is remembered as the parent it is. -/
private theorem openedShown_of_standing {level : Nat} {chunk : Chunk (level + 1)}
    {isFinal : Bool}
    (standing : Standing env params store (level + 1) chunk isFinal) :
    OpenedShown env params store level
      ⟨⟨((chunk.map fun elem => refOf env.address level (Elem.chunk elem)).getLast?.map
          NodeRef.lastKey).getD [], (refOf env.address (level + 1) chunk).hash⟩,
        isFinal,
        (chunk.map fun elem => refOf env.address level (Elem.chunk elem)).map
          NodeRef.hash⟩ chunk := by
  refine ⟨?_, List.map_map, standing⟩
  have last : ((chunk.map fun elem =>
      refOf env.address level (Elem.chunk elem)).getLast?.map NodeRef.lastKey).getD [] =
        (refOf env.address (level + 1) chunk).lastKey := by
    rw [refOf, lastKeyOf, List.getLast?_map, List.getLast?_map, Option.map_map,
      Option.map_map]
    rfl
  rw [last]

theorem descend_spec (free : CollisionFree env.address store) {level : Nat}
    {chunk : Chunk level} {isFinal : Bool}
    (standing : Standing env params store level chunk isFinal)
    {expectLastKey minKeyExclusive : Option Bytes}
    (inPlace : InPlace env.address level chunk expectLastKey minKeyExclusive)
    {ops : List BatchOp} (ascending : AscendingOps ops)
    (fits : ∀ pair ∈ mergeSorted chunk.contents ops, (leafEntry pair).Fits) :
    ∃ items opened pieces,
      descend env store level (refOf env.address level chunk).hash expectLastKey
        minKeyExclusive isFinal ops = .ok (items, opened) ∧
      Routed env params store [chunk] isFinal ops items opened pieces := by
  have read := readNode_of_stored free (Nat.lt_trans standing.bounded (by decide))
    standing.stored inPlace
  induction level generalizing expectLastKey minKeyExclusive isFinal ops with
  | zero =>
      rw [Chunk.contents_zero] at fits
      refine ⟨_, _, _, ?_, routed_leaf rfl (some (refOf env.address 0 chunk).hash)
        fits⟩
      rw [descend, read, ok_bind]
      rfl
  | succ level ih =>
      have visits : Visits env params store level
          (fun child lower childFinal mine =>
            descend env store level child.hash (some child.lastKey) lower
              childFinal mine) := by
        intro child lower childFinal mine childStanding above mineAscending mineFits
        have childInPlace : InPlace env.address level child
            (some (refOf env.address level child).lastKey) lower :=
          ⟨fun want isWant => (Option.some.inj isWant).symm, above⟩
        exact ih childStanding childInPlace mineAscending mineFits
          (readNode_of_stored free (Nat.lt_trans childStanding.bounded (by decide))
            childStanding.stored childInPlace)
      obtain ⟨filled, -, sorted, -, -⟩ := stored_succ.mp standing.stored
      obtain ⟨items, opened, pieces, looped, routed⟩ :=
        @descendRefs_spec env params store level _ visits chunk filled isFinal
          (fun front child back place => standing_child standing place)
          minKeyExclusive inPlace.2 sorted ops ascending fits
      refine ⟨items, _, pieces, ?_, routed.lift (openedShown_of_standing standing)⟩
      rw [descend, read, ok_bind]
      simp only [nodeOf]
      have refs : chunk.map (fun elem => refOf env.address level (Elem.chunk elem)) =
          List.map (refOf env.address level) chunk := rfl
      rw [refs, looped, ok_bind]

end

end Acetone.Prolly

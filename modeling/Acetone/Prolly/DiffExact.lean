import Acetone.Prolly.Diff
import Acetone.Prolly.Refinement

/-!
# The structural diff finds exactly the differences

A region stands for the differences between the pairs beneath its two runs.
Aligning the children of two runs cuts both sides at common keys and leaves out
only what equal addresses show to be equal, so nothing is lost on the way down.
-/

namespace Acetone.Prolly

open Acetone.Lib

section

variable (env : Substrate) (store : Store)

/-- The reference leads to the node; a placeholder need not know its last
key and may lead to the empty leaf. -/
structure Points (level : Nat) (pseudo : Bool) (ref : NodeRef)
    (node : Chunk level) : Prop where
  hash : ref.hash = (refOf env.address level node).hash
  lastKey : pseudo = false → ref.lastKey = (refOf env.address level node).lastKey
  held : Stored env.address store (level + 1) node.elem ∨
    (pseudo = true ∧ level = 0 ∧ node = [] ∧
      chunkBytes env.address level node ∈ store)

abbrev PointsAll (level : Nat) (pseudo : Bool) (refs : List NodeRef)
    (nodes : List (Chunk level)) : Prop :=
  List.Forall₂ (Points env store level pseudo) refs nodes

/-- The nodes a node refers to. -/
def Chunk.children {level : Nat} (node : Chunk (level + 1)) : List (Chunk level) :=
  node

/-- The pairs beneath a run of nodes. -/
def pairsOf {level : Nat} (nodes : List (Chunk level)) : List (Bytes × Bytes) :=
  nodes.flatMap Chunk.contents

/-- Regions of a level, with the differences they stand for. -/
inductive Regions (level : Nat) : List Region → List DiffEntry → Prop where
  | nil : Regions level [] []
  | cons {a b : List NodeRef} {pseudo : Bool} {as bs : List (Chunk level)}
      {regions : List Region} {rest : List DiffEntry}
      (pointsA : PointsAll env store level pseudo a as)
      (pointsB : PointsAll env store level pseudo b bs)
      (ascendingA : Ascending (pairsOf as)) (ascendingB : Ascending (pairsOf bs))
      (further : Regions level regions rest) :
      Regions level (⟨level, a, b, pseudo⟩ :: regions)
        (changes (pairsOf as) (pairsOf bs) ++ rest)

variable {env store}

theorem pairsOf_append {level : Nat} (left right : List (Chunk level)) :
    pairsOf (left ++ right) = pairsOf left ++ pairsOf right :=
  List.flatMap_append

theorem pairsOf_cons {level : Nat} (node : Chunk level) (nodes : List (Chunk level)) :
    pairsOf (node :: nodes) = node.contents ++ pairsOf nodes :=
  List.flatMap_cons

theorem Points.read (free : CollisionFree env.address store) {level : Nat}
    (bounded : level < 256) {pseudo : Bool} {ref : NodeRef} {node : Chunk level}
    (points : Points env store level pseudo ref node) :
    readNode env.address store ref.hash level (expectLast pseudo ref) none =
      .ok (nodeOf env.address level node) := by
  rw [points.hash]
  rcases points.held with stored | ⟨rfl, rfl, rfl, held⟩
  · refine readNode_of_stored free bounded stored
      ⟨?_, fun low isLow => (nomatch isLow)⟩
    intro want isWant
    cases pseudo with
    | true => cases isWant
    | false =>
        cases isWant
        exact points.lastKey rfl
  · exact readNode_emptyLeaf free held

theorem pointsAll_refs {level : Nat} {nodes : List (Chunk level)}
    (stored : ∀ node ∈ nodes, Stored env.address store (level + 1) node.elem)
    (pseudo : Bool) :
    PointsAll env store level pseudo (nodes.map (refOf env.address level)) nodes := by
  induction nodes with
  | nil => exact .nil
  | cons node nodes ih =>
      refine .cons ⟨rfl, fun _ => rfl, .inl (stored node List.mem_cons_self)⟩
        (ih (fun other member => stored other (List.mem_cons_of_mem _ member)))

theorem expand_spec (free : CollisionFree env.address store) {level : Nat}
    (bounded : level + 1 < 256) {pseudo : Bool} {refs : List NodeRef}
    {nodes : List (Chunk (level + 1))}
    (points : PointsAll env store (level + 1) pseudo refs nodes) :
    ∃ children : List (Chunk level),
      expand env store refs (level + 1) pseudo =
        .ok (children.map (refOf env.address level)) ∧
      pairsOf children = pairsOf nodes ∧
      ∀ child ∈ children, Stored env.address store (level + 1) child.elem := by
  induction points with
  | nil => exact ⟨[], rfl, rfl, nofun⟩
  | @cons ref node refs nodes first _ ih =>
      obtain ⟨others, rest, pairs, stored⟩ := ih
      have children : ∀ child ∈ node.children,
          Stored env.address store (level + 1) child.elem := by
        rcases first.held with held | ⟨-, zero, -⟩
        · exact (stored_succ.mp held).2.2.2.2
        · exact absurd zero (Nat.succ_ne_zero level)
      refine ⟨node.children ++ others, ?_, ?_, ?_⟩
      · rw [expand, first.read free bounded, ok_bind]
        simp only [nodeOf, rest, ok_bind, List.map_append]
        rfl
      · rw [pairsOf_append, pairs, pairsOf_cons]
        rfl
      · intro child member
        rcases List.mem_append.mp member with inside | later
        · exact children child inside
        · exact stored child later

private theorem split_of_map_append {level : Nat} {refs more : List NodeRef}
    {nodes : List (Chunk level)}
    (whole : refs ++ more = nodes.map (refOf env.address level)) :
    ∃ front back, nodes = front ++ back ∧
      refs = front.map (refOf env.address level) ∧
      more = back.map (refOf env.address level) := by
  obtain ⟨front, back, rfl, first, second⟩ := List.map_eq_append_iff.mp whole.symm
  exact ⟨front, back, rfl, first.symm, second.symm⟩

/-- A run that ends at a key reaches no further, and what follows lies
beyond. -/
private theorem bounded_by_last {level : Nat} {front back : List (Chunk level)}
    (stored : ∀ node ∈ front ++ back,
      Stored env.address store (level + 1) node.elem)
    (ascending : Ascending (pairsOf (front ++ back))) {ref : NodeRef}
    (last : (front.map (refOf env.address level)).getLast? = some ref) :
    (∀ pair ∈ pairsOf front, pair.1 ≤ ref.lastKey) ∧
      ∀ pair ∈ pairsOf back, ref.lastKey < pair.1 := by
  obtain ⟨early, final, rfl⟩ : ∃ early final, front = early ++ [final] := by
    cases front using List.reverseRecOn with
    | nil => cases last
    | append_singleton early final => exact ⟨early, final, rfl⟩
  rw [List.map_append, List.map_singleton, List.getLast?_concat] at last
  obtain rfl := Option.some.inj last
  have here := stored final (by simp)
  obtain ⟨bottom, inside, key⟩ := here.key_mem
  have isLast : bottom.1 = (refOf env.address level final).lastKey := key
  have among : bottom ∈ pairsOf (early ++ [final]) := by
    rw [pairsOf_append, pairsOf_cons]
    exact List.mem_append_right _ (List.mem_append_left _ inside)
  rw [pairsOf_append] at ascending
  obtain ⟨first, -, across⟩ := Ascending.append_iff.mp ascending
  constructor
  · intro pair member
    rw [pairsOf_append, pairsOf_cons] at first member
    rcases List.mem_append.mp member with outside | member
    · have lower := (Ascending.append_iff.mp first).2.2 pair outside bottom
        (List.mem_append_left _ inside)
      exact isLast ▸ lower.le
    · rcases List.mem_append.mp member with under | none
      · exact here.le_key under
      · cases none
  · intro pair member
    exact isLast ▸ across bottom among pair member

private theorem ends_of_aligned {ra rb : List NodeRef}
    (aligned : extendsA ra rb = none) :
    ∃ x y, ra.getLast? = some x ∧ rb.getLast? = some y ∧ x.lastKey = y.lastKey := by
  rw [extendsA] at aligned
  split at aligned
  · cases aligned
  · cases aligned
  · next x y isX isY =>
      split at aligned
      · next same => exact ⟨x, y, isX, isY, same⟩
      · cases aligned

/-- A stretch and what follows it, given that what follows is aligned. -/
private theorem regions_of_stretch {level : Nat} {as bs : List (Chunk level)}
    (some : as ≠ [] ∨ bs ≠ [])
    (storedA : ∀ node ∈ as, Stored env.address store (level + 1) node.elem)
    (storedB : ∀ node ∈ bs, Stored env.address store (level + 1) node.elem)
    (ascendingA : Ascending (pairsOf as)) (ascendingB : Ascending (pairsOf bs))
    (later : ∀ moreA moreB : List (Chunk level),
      moreA.length + moreB.length < as.length + bs.length →
      (∀ node ∈ moreA, Stored env.address store (level + 1) node.elem) →
      (∀ node ∈ moreB, Stored env.address store (level + 1) node.elem) →
      Ascending (pairsOf moreA) → Ascending (pairsOf moreB) →
      Regions env store level
        (alignRegions level (moreA.map (refOf env.address level))
          (moreB.map (refOf env.address level)))
        (changes (pairsOf moreA) (pairsOf moreB)))
    {filled : List NodeRef × List NodeRef × List NodeRef × List NodeRef}
    (isFilled : filled = fillRegion [] [] (as.map (refOf env.address level))
      (bs.map (refOf env.address level))) :
    Regions env store level
      (⟨level, filled.1, filled.2.1, false⟩ ::
        alignRegions level filled.2.2.1 filled.2.2.2)
      (changes (pairsOf as) (pairsOf bs)) := by
  obtain ⟨wholeA, wholeB, ends⟩ := fillRegion_spec []
    [] (as.map (refOf env.address level)) (bs.map (refOf env.address level))
  have shrinks := @fillRegion_shrinks (as.map (refOf env.address level))
    (bs.map (refOf env.address level)) (by simpa using some)
  rw [← isFilled, List.nil_append] at wholeA wholeB
  rw [← isFilled] at ends shrinks
  obtain ⟨frontA, backA, rfl, isFrontA, isBackA⟩ := split_of_map_append wholeA
  obtain ⟨frontB, backB, rfl, isFrontB, isBackB⟩ := split_of_map_append wholeB
  rw [isBackA, isBackB, List.length_map, List.length_map, List.length_map,
    List.length_map] at shrinks
  have cutA := ascendingA
  have cutB := ascendingB
  rw [pairsOf_append] at cutA cutB
  obtain ⟨frontAscendingA, backAscendingA, -⟩ := Ascending.append_iff.mp cutA
  obtain ⟨frontAscendingB, backAscendingB, -⟩ := Ascending.append_iff.mp cutB
  have split : changes (pairsOf (frontA ++ backA)) (pairsOf (frontB ++ backB)) =
      changes (pairsOf frontA) (pairsOf frontB) ++
        changes (pairsOf backA) (pairsOf backB) := by
    rw [pairsOf_append, pairsOf_append]
    rcases ends with aligned | exhausted
    · obtain ⟨x, y, lastA, lastB, same⟩ := ends_of_aligned aligned
      rw [isFrontA] at lastA
      rw [isFrontB] at lastB
      obtain ⟨upToA, aboveA⟩ := bounded_by_last storedA ascendingA lastA
      obtain ⟨upToB, aboveB⟩ := bounded_by_last storedB ascendingB lastB
      rw [← same] at upToB aboveB
      exact changes_append cutA cutB upToA upToB aboveA aboveB
    · have noneA : backA = [] := by
        rw [exhausted] at isBackA
        exact List.map_eq_nil_iff.mp isBackA.symm
      have noneB : backB = [] := by
        rw [exhausted] at isBackB
        exact List.map_eq_nil_iff.mp isBackB.symm
      rw [noneA, noneB]
      show changes (pairsOf frontA ++ []) (pairsOf frontB ++ []) =
        changes (pairsOf frontA) (pairsOf frontB) ++ changes [] []
      rw [List.append_nil, List.append_nil, changes, List.append_nil]
  rw [split, isFrontA, isFrontB, isBackA, isBackB]
  refine .cons
    (pointsAll_refs (fun node member => storedA node (List.mem_append_left _ member))
      false)
    (pointsAll_refs (fun node member => storedB node (List.mem_append_left _ member))
      false)
    frontAscendingA frontAscendingB ?_
  exact later backA backB shrinks
    (fun node member => storedA node (List.mem_append_right _ member))
    (fun node member => storedB node (List.mem_append_right _ member))
    backAscendingA backAscendingB

private theorem changes_shared {level : Nat} {node : Chunk level}
    {as bs : List (Chunk level)}
    (stored : Stored env.address store (level + 1) node.elem)
    (ascendingA : Ascending (pairsOf (node :: as)))
    (ascendingB : Ascending (pairsOf (node :: bs))) :
    changes (pairsOf (node :: as)) (pairsOf (node :: bs)) =
      changes (pairsOf as) (pairsOf bs) := by
  rw [pairsOf_cons] at ascendingA ascendingB ⊢
  rw [pairsOf_cons]
  obtain ⟨bottom, inside, key⟩ := stored.key_mem
  have upTo : ∀ pair ∈ node.contents, pair.1 ≤ bottom.1 :=
    fun pair member => key ▸ stored.le_key member
  have aboveA := (Ascending.append_iff.mp ascendingA).2.2 bottom inside
  have aboveB := (Ascending.append_iff.mp ascendingB).2.2 bottom inside
  have own : Ascending node.contents := stored.ascending
  rw [changes_append ascendingA ascendingB upTo upTo aboveA aboveB,
    changes_self own, List.nil_append]

/-- Aligning the children of two runs keeps their differences. -/
theorem alignRegions_spec (free : CollisionFree env.address store) {level : Nat}
    (bounded : level < 256) {as bs : List (Chunk level)}
    (storedA : ∀ node ∈ as, Stored env.address store (level + 1) node.elem)
    (storedB : ∀ node ∈ bs, Stored env.address store (level + 1) node.elem)
    (ascendingA : Ascending (pairsOf as)) (ascendingB : Ascending (pairsOf bs)) :
    Regions env store level
      (alignRegions level (as.map (refOf env.address level))
        (bs.map (refOf env.address level)))
      (changes (pairsOf as) (pairsOf bs)) := by
  induction total : as.length + bs.length using Nat.strong_induction_on
    generalizing as bs with
  | h count ih =>
      subst total
      have stretch : as ≠ [] ∨ bs ≠ [] → ∀ filled, filled = fillRegion [] []
          (as.map (refOf env.address level)) (bs.map (refOf env.address level)) →
          Regions env store level
            (⟨level, filled.1, filled.2.1, false⟩ ::
              alignRegions level filled.2.2.1 filled.2.2.2)
            (changes (pairsOf as) (pairsOf bs)) :=
        fun some filled => regions_of_stretch some storedA storedB ascendingA
          ascendingB (fun moreA moreB fewer sA sB aA aB =>
            ih _ fewer sA sB aA aB rfl)
      cases as with
      | nil =>
          cases bs with
          | nil =>
              show Regions env store level (alignRegions level [] []) (changes [] [])
              rw [alignRegions, changes]
              exact .nil
          | cons y bs =>
              rw [List.map_nil, List.map_cons, alignRegions]
              exact stretch (.inr (List.cons_ne_nil _ _)) _ rfl
      | cons x as =>
          cases bs with
          | nil =>
              rw [List.map_nil, List.map_cons, alignRegions]
              exact stretch (.inl (List.cons_ne_nil _ _)) _ rfl
          | cons y bs =>
              rw [List.map_cons, List.map_cons, alignRegions]
              split
              · next same =>
                  have equal := chunk_eq_of_hash free bounded
                    (storedA x List.mem_cons_self) (storedB y List.mem_cons_self)
                    same
                  subst equal
                  rw [changes_shared (storedA x List.mem_cons_self) ascendingA
                    ascendingB]
                  rw [pairsOf_cons] at ascendingA ascendingB
                  exact ih _ (by simp only [List.length_cons]; omega)
                    (fun node member => storedA node (List.mem_cons_of_mem _ member))
                    (fun node member => storedB node (List.mem_cons_of_mem _ member))
                    (Ascending.append_iff.mp ascendingA).2.1
                    (Ascending.append_iff.mp ascendingB).2.1 rfl
              · exact stretch (.inl (List.cons_ne_nil _ _)) _ rfl

/-- The buffer and the leaves to come hold exactly these pairs. -/
def Buffered (env : Substrate) (store : Store) (pseudo : Bool)
    (buf : List (Bytes × Bytes)) (refs : List NodeRef)
    (pairs : List (Bytes × Bytes)) : Prop :=
  ∃ nodes : List (Chunk 0), PointsAll env store 0 pseudo refs nodes ∧
    buf ++ pairsOf nodes = pairs

private theorem topUp_spec (free : CollisionFree env.address store) {pseudo : Bool}
    {buf : List (Bytes × Bytes)} {refs : List NodeRef}
    {pairs : List (Bytes × Bytes)}
    (buffered : Buffered env store pseudo buf refs pairs) :
    ∃ filled rest, topUp env store pseudo buf refs = .ok (filled, rest) ∧
      Buffered env store pseudo filled rest pairs ∧
      (filled = [] → pairs = []) := by
  obtain ⟨nodes, points, rfl⟩ := buffered
  induction points generalizing buf with
  | nil =>
      refine ⟨buf, [], ?_, ⟨[], .nil, rfl⟩, ?_⟩
      · cases buf <;> rfl
      · rintro rfl
        rfl
  | @cons ref node refs nodes first others ih =>
      cases buf with
      | cons entry buf =>
          exact ⟨entry :: buf, ref :: refs, rfl,
            ⟨node :: nodes, .cons first others, rfl⟩, nofun⟩
      | nil =>
          obtain ⟨filled, rest, done, still, ends⟩ := @ih node.contents
          rw [List.nil_append, pairsOf_cons]
          refine ⟨filled, rest, ?_, still, ends⟩
          rw [Chunk.contents_zero] at done
          rw [topUp, first.read free (by decide), ok_bind]
          exact done

/-- What a leaf merge has to go. -/
structure Merging (env : Substrate) (store : Store) (leaves : LeafMerge)
    (as bs : List (Bytes × Bytes)) : Prop where
  left : Buffered env store leaves.pseudo leaves.a leaves.aRefs as
  right : Buffered env store leaves.pseudo leaves.b leaves.bRefs bs

private theorem Buffered.tail {pseudo : Bool} {entry : Bytes × Bytes}
    {buf pairs : List (Bytes × Bytes)} {refs : List NodeRef}
    (buffered : Buffered env store pseudo (entry :: buf) refs pairs) :
    ∃ rest, pairs = entry :: rest ∧ Buffered env store pseudo buf refs rest := by
  obtain ⟨nodes, points, rfl⟩ := buffered
  exact ⟨buf ++ pairsOf nodes, rfl, nodes, points, rfl⟩

private theorem Buffered.cons {pseudo : Bool} {buf pairs : List (Bytes × Bytes)}
    {refs : List NodeRef} (buffered : Buffered env store pseudo buf refs pairs)
    (entry : Bytes × Bytes) :
    Buffered env store pseudo (entry :: buf) refs (entry :: pairs) := by
  obtain ⟨nodes, points, rfl⟩ := buffered
  exact ⟨nodes, points, rfl⟩

private theorem topUp_cases (free : CollisionFree env.address store) {pseudo : Bool}
    {buf : List (Bytes × Bytes)} {refs : List NodeRef}
    {pairs : List (Bytes × Bytes)}
    (buffered : Buffered env store pseudo buf refs pairs) :
    (∃ rest, topUp env store pseudo buf refs = .ok ([], rest) ∧
      Buffered env store pseudo [] rest pairs ∧ pairs = []) ∨
    ∃ entry filled rest more,
      topUp env store pseudo buf refs = .ok (entry :: filled, rest) ∧
      pairs = entry :: more ∧ Buffered env store pseudo filled rest more := by
  obtain ⟨filled, rest, done, still, ends⟩ := topUp_spec free buffered
  cases filled with
  | nil => exact .inl ⟨rest, done, still, ends rfl⟩
  | cons entry filled =>
      obtain ⟨more, split, further⟩ := still.tail
      exact .inr ⟨entry, filled, rest, more, done, split, further⟩

private theorem turn_of_topUp {leaves : LeafMerge} {a b : List (Bytes × Bytes)}
    {aRefs bRefs : List NodeRef}
    (doneA : topUp env store leaves.pseudo leaves.a leaves.aRefs = .ok (a, aRefs))
    (doneB : topUp env store leaves.pseudo leaves.b leaves.bRefs =
      .ok (b, bRefs)) :
    leaves.turn env store =
      .ok (LeafMerge.compareFronts ⟨aRefs, bRefs, a, b, leaves.pseudo⟩) := by
  rw [LeafMerge.turn]
  simp only [doneA, doneB, ok_bind]

private theorem merge_turn (free : CollisionFree env.address store)
    {leaves : LeafMerge} {as bs : List (Bytes × Bytes)}
    (merging : Merging env store leaves as bs) :
    (leaves.turn env store = .ok .drained ∧ changes as bs = []) ∨
    (∃ after moreA moreB, leaves.turn env store = .ok (.skip after) ∧
      Merging env store after moreA moreB ∧
      moreA.length + moreB.length < as.length + bs.length ∧
      changes as bs = changes moreA moreB) ∨
    (∃ entry after moreA moreB, leaves.turn env store = .ok (.yield entry after) ∧
      Merging env store after moreA moreB ∧
      moreA.length + moreB.length < as.length + bs.length ∧
      changes as bs = entry :: changes moreA moreB) := by
  rcases topUp_cases free merging.left with ⟨aRefs, doneA, stillA, rfl⟩ |
    ⟨x, a, aRefs, moreA, doneA, rfl, stillA⟩
  · rcases topUp_cases free merging.right with ⟨bRefs, doneB, stillB, rfl⟩ |
      ⟨y, b, bRefs, moreB, doneB, rfl, stillB⟩
    · exact .inl ⟨turn_of_topUp doneA doneB, by rw [changes]⟩
    · exact .inr (.inr ⟨_, _, [], moreB, turn_of_topUp doneA doneB,
        ⟨stillA, stillB⟩, by simp, by rw [changes]⟩)
  · rcases topUp_cases free merging.right with ⟨bRefs, doneB, stillB, rfl⟩ |
      ⟨y, b, bRefs, moreB, doneB, rfl, stillB⟩
    · exact .inr (.inr ⟨_, _, moreA, [], turn_of_topUp doneA doneB,
        ⟨stillA, stillB⟩, by simp, by rw [changes]⟩)
    have both := turn_of_topUp doneA doneB
    simp only [LeafMerge.compareFronts] at both
    by_cases less : x.1 < y.1
    · rw [if_pos less] at both
      exact .inr (.inr ⟨_, _, moreA, y :: moreB, both,
        ⟨stillA, stillB.cons y⟩, by simp only [List.length_cons]; omega,
        by rw [changes, if_pos less]⟩)
    rw [if_neg less] at both
    by_cases greater : y.1 < x.1
    · rw [if_pos greater] at both
      exact .inr (.inr ⟨_, _, x :: moreA, moreB, both,
        ⟨stillA.cons x, stillB⟩, by simp only [List.length_cons]; omega,
        by rw [changes, if_neg less, if_pos greater]⟩)
    rw [if_neg greater] at both
    by_cases same : x.2 = y.2
    · rw [if_pos same] at both
      exact .inr (.inl ⟨_, moreA, moreB, both, ⟨stillA, stillB⟩,
        by simp only [List.length_cons]; omega,
        by rw [changes, if_neg less, if_neg greater, if_pos same]⟩)
    rw [if_neg same] at both
    exact .inr (.inr ⟨_, _, moreA, moreB, both, ⟨stillA, stillB⟩,
      by simp only [List.length_cons]; omega,
      by rw [changes, if_neg less, if_neg greater, if_neg same]⟩)

/-- The diff merges its leaves and goes on with the regions. -/
private theorem leaves_yield (free : CollisionFree env.address store)
    {regions : List Region} {rest : List DiffEntry}
    (further : Yields (Diff.turn env store) ⟨regions, none, false⟩ rest)
    {leaves : LeafMerge} {as bs : List (Bytes × Bytes)}
    (merging : Merging env store leaves as bs) :
    Yields (Diff.turn env store) ⟨regions, some leaves, false⟩
      (changes as bs ++ rest) := by
  induction total : as.length + bs.length using Nat.strong_induction_on
    generalizing leaves as bs with
  | h count ih =>
      subst total
      rcases merge_turn free merging with ⟨turned, none⟩ |
        ⟨after, moreA, moreB, turned, still, fewer, same⟩ |
        ⟨entry, after, moreA, moreB, turned, still, fewer, first⟩
      · rw [none, List.nil_append]
        refine .again ?_ further
        simp only [Diff.turn, turned]
        rfl
      · rw [same]
        refine .again ?_ (ih _ fewer still rfl)
        simp only [Diff.turn, turned]
        rfl
      · rw [first, List.cons_append]
        refine .yield ?_ (ih _ fewer still rfl)
        simp only [Diff.turn, turned]
        rfl

/-- Regions of a level yield what they stand for, whatever comes after. -/
private theorem regions_yield (free : CollisionFree env.address store) {level : Nat}
    (bounded : level < 256) {regions : List Region} {found : List DiffEntry}
    (pending : Regions env store level regions found) {others : List Region}
    {rest : List DiffEntry}
    (further : Yields (Diff.turn env store) ⟨others, none, false⟩ rest) :
    Yields (Diff.turn env store) ⟨regions ++ others, none, false⟩
      (found ++ rest) := by
  induction level generalizing regions found others rest with
  | zero =>
      induction pending with
      | nil => exact further
      | @cons a b pseudo as bs regions more pointsA pointsB _ _ _ ih =>
          rw [List.append_assoc]
          have merging : Merging env store
              (.new ⟨0, a, b, pseudo⟩) (pairsOf as) (pairsOf bs) :=
            ⟨⟨as, pointsA, rfl⟩, ⟨bs, pointsB, rfl⟩⟩
          exact .again rfl (leaves_yield free ih merging)
  | succ level deeper =>
      induction pending with
      | nil => exact further
      | @cons a b pseudo as bs regions more pointsA pointsB ascendingA ascendingB _ ih =>
          obtain ⟨childrenA, expandedA, samePairsA, storedA⟩ :=
            expand_spec free bounded pointsA
          obtain ⟨childrenB, expandedB, samePairsB, storedB⟩ :=
            expand_spec free bounded pointsB
          have below : level < 256 := Nat.lt_of_succ_lt bounded
          have aligned := alignRegions_spec free below storedA storedB
            (samePairsA ▸ ascendingA) (samePairsB ▸ ascendingB)
          rw [samePairsA, samePairsB] at aligned
          rw [List.append_assoc]
          refine .again ?_ (deeper below aligned ih)
          have subs : subRegions env store ⟨level + 1, a, b, pseudo⟩ level =
              .ok (alignRegions level (childrenA.map (refOf env.address level))
                (childrenB.map (refOf env.address level))) := by
            rw [subRegions]
            simp only [expandedA, expandedB, ok_bind]
          simp only [Diff.turn, List.cons_append, subs]
          rfl

private theorem expandDown_spec (free : CollisionFree env.address store)
    {above level : Nat} (bounded : level + above < 256) {refs : List NodeRef}
    {nodes : List (Chunk (level + above))}
    (points : PointsAll env store (level + above) true refs nodes) :
    ∃ (lower : List NodeRef) (children : List (Chunk level)),
      expandDown env store above level refs = .ok lower ∧
      PointsAll env store level true lower children ∧
      pairsOf children = pairsOf nodes := by
  induction above generalizing refs with
  | zero => exact ⟨refs, nodes, rfl, points, rfl⟩
  | succ above ih =>
      obtain ⟨children, expanded, same, stored⟩ :=
        @expand_spec env store free (level + above) bounded true refs nodes points
      obtain ⟨lower, bottom, rest, lowerPoints, samePairs⟩ :=
        ih (Nat.lt_of_succ_lt bounded) (pointsAll_refs stored true)
      refine ⟨lower, bottom, ?_, lowerPoints, samePairs.trans same⟩
      rw [expandDown]
      have shifted : level + (above + 1) = level + above + 1 := rfl
      rw [shifted, expanded, ok_bind]
      exact rest

theorem Leads.points {root : Root} {top : Nat} {chunk : Chunk top}
    (leads : Leads env store root chunk) :
    PointsAll env store top true [⟨[], root.hash⟩] [chunk] := by
  refine .cons ⟨leads.hash, nofun, ?_⟩ .nil
  exact leads.held.imp_right (fun empty => ⟨rfl, empty⟩)

private theorem expandDown_root (free : CollisionFree env.address store)
    {root : Root} {level top : Nat} (order : level ≤ top) {chunk : Chunk top}
    (leads : Leads env store root chunk) :
    ∃ (lower : List NodeRef) (children : List (Chunk level)),
      expandDown env store (top - level) level [⟨[], root.hash⟩] = .ok lower ∧
      PointsAll env store level true lower children ∧
      pairsOf children = chunk.contents := by
  have bounded : top < 256 := Nat.lt_trans leads.bounded (by decide)
  obtain ⟨above, rfl⟩ := Nat.exists_eq_add_of_le order
  obtain ⟨lower, children, expanded, points, same⟩ :=
    expandDown_spec free bounded leads.points
  rw [Nat.add_sub_cancel_left]
  refine ⟨lower, children, expanded, points, same.trans ?_⟩
  rw [pairsOf, List.flatMap_singleton]

private theorem Leads.bytes {root : Root} {top : Nat} {chunk : Chunk top}
    (leads : Leads env store root chunk) :
    chunkBytes env.address top chunk ∈ store ∧
      decodeNode (chunkBytes env.address top chunk) top =
        .ok (nodeOf env.address top chunk) := by
  rcases leads.held with stored | ⟨rfl, rfl, held⟩
  · exact ⟨(stored_succ.mp stored).2.2.2.1,
      decodeNode_chunk (Nat.lt_trans leads.bounded (by decide)) stored⟩
  · exact ⟨held, decodeNode_leaf [] (by decide) nofun .nil⟩

private theorem chunkBytes_level {top under : Nat} {chunk : Chunk top}
    {node : Chunk under} (topBounded : top < 256) (underBounded : under < 256)
    (same : chunkBytes env.address top chunk = chunkBytes env.address under node) :
    top = under := by
  have tags : UInt8.ofNat top = UInt8.ofNat under := (List.cons.inj same).1
  have values := congrArg UInt8.toNat tags
  rwa [UInt8.toNat_ofNat_of_lt' topBounded, UInt8.toNat_ofNat_of_lt' underBounded]
    at values

theorem Leads.contents_eq (free : CollisionFree env.address store)
    {left right : Root} {top under : Nat} {chunk : Chunk top} {node : Chunk under}
    (leftLeads : Leads env store left chunk)
    (rightLeads : Leads env store right node) (same : left.hash = right.hash) :
    chunk.contents = node.contents := by
  obtain ⟨leftHeld, leftDecoded⟩ := leftLeads.bytes
  obtain ⟨rightHeld, rightDecoded⟩ := rightLeads.bytes
  have bytes := free _ leftHeld _ rightHeld
    (leftLeads.hash.symm.trans (same.trans rightLeads.hash))
  have leftBounded : top < 256 := Nat.lt_trans leftLeads.bounded (by decide)
  obtain rfl := chunkBytes_level leftBounded
    (Nat.lt_trans rightLeads.bounded (by decide)) bytes
  rcases leftLeads.held with leftStored | ⟨rfl, rfl, -⟩
  · rcases rightLeads.held with rightStored | ⟨rfl, rfl, -⟩
    · rw [chunk_eq_of_hash free leftBounded leftStored rightStored
        (leftLeads.hash.symm.trans (same.trans rightLeads.hash))]
    · rw [bytes, rightDecoded] at leftDecoded
      rw [Node.leaf.inj (Except.ok.inj leftDecoded)]
  · rw [bytes, rightDecoded] at leftDecoded
    rw [Node.leaf.inj (Except.ok.inj leftDecoded)]

theorem diff_spec (free : CollisionFree env.address store) {left right : Root}
    {top under : Nat} {chunk : Chunk top} {node : Chunk under}
    (leftLeads : Leads env store left chunk)
    (rightLeads : Leads env store right node) :
    ∃ started, diff env store left right = .ok started ∧
      Yields (Diff.turn env store) started
        (changes chunk.contents node.contents) := by
  rw [diff]
  by_cases same : left.hash = right.hash
  · rw [if_pos same]
    refine ⟨_, rfl, ?_⟩
    rw [leftLeads.contents_eq free rightLeads same, changes_self rightLeads.ascending]
    exact .stop rfl
  · rw [if_neg same, leftLeads.topLevel, rightLeads.topLevel]
    obtain ⟨ra, as, expandedA, pointsA, samePairsA⟩ :=
      expandDown_root free (Nat.min_le_left top under) leftLeads
    obtain ⟨rb, bs, expandedB, pointsB, samePairsB⟩ :=
      expandDown_root free (Nat.min_le_right top under) rightLeads
    simp only [expandedA, expandedB, ok_bind]
    refine ⟨_, rfl, ?_⟩
    have bounded : min top under < 256 :=
      Nat.lt_of_le_of_lt (Nat.min_le_left top under)
        (Nat.lt_trans leftLeads.bounded (by decide))
    have pending : Regions env store (min top under)
        [⟨min top under, ra, rb, true⟩]
        (changes (pairsOf as) (pairsOf bs) ++ []) :=
      .cons pointsA pointsB (samePairsA ▸ leftLeads.ascending)
        (samePairsB ▸ rightLeads.ascending) .nil
    have ended : Yields (Diff.turn env store) ⟨[], none, false⟩ [] := .stop rfl
    have all := regions_yield free bounded pending ended
    rw [List.append_nil, List.append_nil, List.append_nil, samePairsA,
      samePairsB] at all
    exact all

end

/-- Iterated to the end, the diff of any two trees lists each differing key
once, in ascending order, with the value on either side. -/
theorem diff_exact (env : Substrate) (store : Store)
    (free : CollisionFree env.address store) (left right : Root) {top under : Nat}
    (chunk : Chunk top) (node : Chunk under)
    (leftLeads : Leads env store left chunk)
    (rightLeads : Leads env store right node) :
    ∃ started, diff env store left right = .ok started ∧
      ∃ found enough,
        (∀ turns, enough ≤ turns →
          collect (Diff.turn env store) turns started = some (.ok found)) ∧
        found.Pairwise (fun first second => first.key < second.key) ∧
        ∀ key before after, ⟨key, before, after⟩ ∈ found ↔
          lookup key chunk.contents = before ∧
            lookup key node.contents = after ∧ before ≠ after := by
  obtain ⟨started, begun, yields⟩ := diff_spec free leftLeads rightLeads
  obtain ⟨enough, collected⟩ := yields.collect
  refine ⟨started, begun, _, enough, collected,
    changes_ascending leftLeads.ascending rightLeads.ascending, ?_⟩
  intro key before after
  exact mem_changes leftLeads.ascending rightLeads.ascending

/-- A leaf and a tree of two levels that share a pair. -/
def sampleLeaf : Chunk 0 := ([([1], [7])] : List (Bytes × Bytes))

def sampleTall : Chunk 1 :=
  ([[([1], [7]), ([2], [])], [([3], [])]] : List (List (Bytes × Bytes)))

def sampleStore : Store :=
  [chunkBytes sampleAddress 1 sampleTall,
    chunkBytes sampleAddress 0 ([([1], [7]), ([2], [])] : List (Bytes × Bytes)),
    chunkBytes sampleAddress 0 ([([3], [])] : List (Bytes × Bytes)),
    chunkBytes sampleAddress 0 sampleLeaf]

theorem diff_exact_sample :
    ∃ started, diff sampleEnv sampleStore
        ⟨(refOf sampleAddress 0 sampleLeaf).hash, 1, sampleParams⟩
        ⟨(refOf sampleAddress 1 sampleTall).hash, 2, sampleParams⟩ = .ok started ∧
      ∃ found enough,
        (∀ turns, enough ≤ turns →
          collect (Diff.turn sampleEnv sampleStore) turns started =
            some (.ok found)) ∧
        found.Pairwise (fun first second => first.key < second.key) ∧
        ∀ key before after, ⟨key, before, after⟩ ∈ found ↔
          lookup key sampleLeaf.contents = before ∧
            lookup key sampleTall.contents = after ∧ before ≠ after :=
  diff_exact sampleEnv sampleStore (by decide +kernel) _ _ sampleLeaf sampleTall
    ⟨rfl, rfl, by decide, .inl (by decide +kernel)⟩
    ⟨rfl, rfl, by decide, .inl (by decide +kernel)⟩

end Acetone.Prolly

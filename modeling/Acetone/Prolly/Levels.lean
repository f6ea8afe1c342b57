import Acetone.Prolly.Canonical
import Acetone.Prolly.LevelChunking

/-!
# Building level over level

`promote` hands the chunks of a level to the next one as its entries, whether
it lists them afresh, re-attaches an opened parent or passes a subtree on.
`buildFrom` therefore ends in a tree that holds the given entries, every node
of which is where a build from scratch would put it.
-/

namespace Acetone.Prolly

open Acetone.Lib

section

variable (env : Substrate) (params : ChunkParams)

/-- The opened node is the code's record of a standing chunk. -/
structure OpenedShown (store : Store) (level : Nat) (parent : OpenedInner)
    (chunk : Chunk (level + 1)) : Prop where
  node : parent.node = refOf env.address (level + 1) chunk
  children : parent.children =
    chunk.map (fun elem => (refOf env.address level (Elem.chunk elem)).hash)
  standing : Standing env params store (level + 1) chunk parent.isFinal

def OpenedValid (store : Store) (opened : List (Nat × OpenedInner)) : Prop :=
  ∀ entry ∈ opened, ∃ (level : Nat) (chunk : Chunk (level + 1)),
    entry.1 = level + 1 ∧ OpenedShown env params store level entry.2 chunk

variable {env params}

theorem OpenedValid.mono {smaller larger : Store} (grows : smaller ⊆ larger)
    {opened : List (Nat × OpenedInner)}
    (valid : OpenedValid env params smaller opened) :
    OpenedValid env params larger opened := by
  intro entry member
  obtain ⟨level, chunk, same, shown⟩ := valid entry member
  exact ⟨level, chunk, same, shown.node, shown.children,
    shown.standing.mono grows⟩

theorem OpenedValid.openedAt {store : Store} {opened : List (Nat × OpenedInner)}
    (valid : OpenedValid env params store opened) (level : Nat) :
    ∀ parent ∈ openedAt (level + 1) opened,
      ∃ chunk : Chunk (level + 1), OpenedShown env params store level parent chunk := by
  intro parent member
  obtain ⟨entry, inside, rfl⟩ := List.mem_map.mp member
  obtain ⟨inOpened, atLevel⟩ := List.mem_filter.mp inside
  obtain ⟨here, chunk, same, shown⟩ := valid entry inOpened
  have levels : entry.1 = level + 1 := by simpa using atLevel
  obtain rfl : here = level := by omega
  exact ⟨chunk, shown⟩

private theorem matchParent_subset (opened : List OpenedInner)
    (outputs : List OutItem) (ref : NodeRef) :
    (matchParent opened outputs ref).2 ⊆ opened := by
  induction opened with
  | nil => exact List.Subset.refl _
  | cons parent others ih =>
      rw [matchParent]
      split
      · exact List.Subset.refl _
      split
      · exact List.Subset.trans ih (List.subset_cons_self _ _)
      · exact List.Subset.refl _

private theorem matchParent_run {opened : List OpenedInner}
    {outputs : List OutItem} {ref : NodeRef} {run : Nat} {parent : OpenedInner}
    {others : List OpenedInner}
    (matched : matchParent opened outputs ref = (some run, parent :: others)) :
    parent.children.head? = some ref.hash ∧
      startsWithRun parent.children outputs = true ∧
      run = parent.children.length := by
  induction opened with
  | nil => cases matched
  | cons candidate rest ih =>
      rw [matchParent] at matched
      split at matched
      · next found =>
          cases matched
          rw [Bool.and_eq_true, decide_eq_true_iff] at found
          exact ⟨found.1, found.2, rfl⟩
      split at matched
      · exact ih matched
      · cases matched

private theorem outs_of_run {level : Nat} {store : Store}
    (free : CollisionFree env.address store) (bounded : level < maxHeight)
    {children : List (Chunk level)}
    (stored : ∀ child ∈ children, Stored env.address store (level + 1)
      (Chunk.elem child))
    {items : List OutItem} {outs : List (Out level)}
    (shown : List.Forall₂ (fun item out => Out.Shown env level item out) items outs)
    (valid : ∀ out ∈ outs, out.Valid env params store)
    (starts : startsWithRun
      (children.map fun child => (refOf env.address level child).hash) items = true) :
    ∃ rest, outs = children.map Out.chunk ++ rest := by
  induction children generalizing items outs with
  | nil => exact ⟨outs, rfl⟩
  | cons child children ih =>
      cases shown with
      | nil => cases starts
      | @cons item out items outs first others =>
          cases first with
          | subtree => cases starts
          | chunk node =>
              rw [List.map_cons, startsWithRun, Bool.and_eq_true,
                decide_eq_true_iff] at starts
              have same : node = child := chunk_eq_of_hash free
                (Nat.lt_trans bounded (by decide)) (valid _ List.mem_cons_self)
                (stored child List.mem_cons_self) starts.1
              obtain ⟨rest, split⟩ := ih
                (fun other member => stored other (List.mem_cons_of_mem _ member))
                others
                (fun other member => valid other (List.mem_cons_of_mem _ member))
                starts.2
              exact ⟨rest, by rw [split, same]; rfl⟩

structure Promoted (env : Substrate) (params : ChunkParams) (store : Store)
    (level : Nat) (items : List Item) (pieces : List (Piece (level + 1)))
    (entries : Chunk (level + 1)) (outs : List (Out level)) : Prop where
  shown : List.Forall₂ (fun item piece => Piece.Shown env (level + 1) item piece)
    items pieces
  valid : ∀ piece ∈ pieces, piece.Valid env params store
  expand : pieces.flatMap Piece.expand = entries
  /-- A subtree above the next level was a subtree before. -/
  kept : ∀ top chunk isFinal, Piece.sub top chunk isFinal ∈ pieces →
    level + 1 < top → Out.subtree top chunk isFinal ∈ outs

private theorem promoted_flush {store : Store} {level : Nat}
    {fresh : Chunk (level + 1)}
    (stored : ∀ elem ∈ fresh, Stored env.address store (level + 1) elem)
    (outs : List (Out level)) :
    ∃ pieces, Promoted env params store level
      (flush (fresh.map (entryOf env.address (level + 1)))) pieces fresh outs := by
  by_cases empty : fresh = []
  · subst empty
    exact ⟨[], .nil, nofun, rfl, nofun⟩
  · refine ⟨[.fresh fresh], ?_, ?_, ?_, ?_⟩
    · have notEmpty : (fresh.map (entryOf env.address (level + 1))).isEmpty =
          false := by simpa using empty
      rw [flush, notEmpty]
      exact .cons (.fresh fresh none) .nil
    · intro piece member
      rw [List.mem_singleton.mp member]
      exact stored
    · rw [List.flatMap_singleton]
      rfl
    · intro top chunk isFinal member
      cases List.mem_singleton.mp member

private theorem Promoted.append {store : Store} {level : Nat}
    {items more : List Item} {pieces others : List (Piece (level + 1))}
    {left right : Chunk (level + 1)} {outs : List (Out level)}
    (first : Promoted env params store level items pieces left outs)
    (second : Promoted env params store level more others right outs) :
    Promoted env params store level (items ++ more) (pieces ++ others)
      (left ++ right) outs := by
  refine ⟨List.rel_append first.shown second.shown, ?_, ?_, ?_⟩
  · intro piece member
    rcases List.mem_append.mp member with early | late
    · exact first.valid piece early
    · exact second.valid piece late
  · rw [List.flatMap_append, first.expand, second.expand]
  · intro top chunk isFinal member higher
    rcases List.mem_append.mp member with early | late
    · exact first.kept top chunk isFinal early higher
    · exact second.kept top chunk isFinal late higher

private theorem promoted_sub {store : Store} {level top : Nat}
    {chunk : Chunk top} {isFinal : Bool} {item : Item} {outs : List (Out level)}
    (shown : Piece.Shown env (level + 1) item (.sub top chunk isFinal))
    (higher : level < top)
    (standing : Standing env params store top chunk isFinal)
    (kept : level + 1 < top → Out.subtree top chunk isFinal ∈ outs) :
    Promoted env params store level [item] [.sub top chunk isFinal]
      (gather (below level top chunk)) outs := by
  refine ⟨.cons shown .nil, ?_, ?_, ?_⟩
  · intro piece member
    rw [List.mem_singleton.mp member]
    exact ⟨higher, standing⟩
  · rw [List.flatMap_singleton]
    exact flatten_below_succ higher chunk
  · intro otherTop other otherFinal member above
    cases List.mem_singleton.mp member
    exact kept above

/-- A parent whose children start the outputs stands for exactly them. -/
private theorem promoted_parent {level : Nat} {store : Store}
    (free : CollisionFree env.address store) (bounded : level < maxHeight)
    {parent : OpenedInner} {chunk : Chunk (level + 1)}
    (opens : OpenedShown env params store level parent chunk)
    {items : List OutItem} {outs : List (Out level)}
    (shown : List.Forall₂ (fun item out => Out.Shown env level item out) items outs)
    (valid : ∀ out ∈ outs, out.Valid env params store)
    (starts : startsWithRun parent.children items = true) (all : List (Out level)) :
    ∃ children : List (Chunk level), ∃ rest : List (Out level),
      outs = children.map Out.chunk ++ rest ∧ children ≠ [] ∧
      parent.children.length = children.length ∧
      Promoted env params store level [.old parent.node parent.isFinal]
        [.sub (level + 1) (gather children) parent.isFinal] (gather children)
        all := by
  have filled := (stored_succ.mp opens.standing.stored).1
  have each := (stored_succ.mp opens.standing.stored).2.2.2.2
  have hashes : parent.children =
      List.map (fun child => (refOf env.address level child).hash) chunk :=
    opens.children
  rw [hashes] at starts
  obtain ⟨rest, split⟩ := outs_of_run free bounded each shown valid starts
  refine ⟨chunk, rest, split, filled, ?_, ?_⟩
  · rw [hashes]
    exact List.length_map _
  have whole : gather (below level (level + 1) chunk) = chunk := by
    rw [← flatten_below_succ (Nat.lt_succ_self level), below_self,
      List.flatten_singleton]
  have promoted : Promoted env params store level
      [.old parent.node parent.isFinal]
      [.sub (level + 1) chunk parent.isFinal]
      (gather (below level (level + 1) chunk)) all := by
    apply promoted_sub _ (Nat.lt_succ_self level) opens.standing
      (fun above => absurd above (Nat.lt_irrefl _))
    rw [opens.node]
    exact .old chunk parent.isFinal
  rw [whole] at promoted
  exact promoted

private theorem promoteFrom_spec {level : Nat} {store : Store}
    (free : CollisionFree env.address store) (bounded : level < maxHeight)
    {all : List (Out level)} {items : List OutItem} {outs : List (Out level)}
    (shown : List.Forall₂ (fun item out => Out.Shown env level item out) items outs)
    (valid : ∀ out ∈ outs, out.Valid env params store) (among : outs ⊆ all)
    (skip : Nat) {opened : List OpenedInner}
    (parents : ∀ parent ∈ opened, ∃ chunk : Chunk (level + 1),
      OpenedShown env params store level parent chunk)
    {fresh : Chunk (level + 1)}
    (stored : ∀ elem ∈ fresh, Stored env.address store (level + 1) elem) :
    ∃ pieces, Promoted env params store level
      (promoteFrom (level + 1) items skip opened
        (fresh.map (entryOf env.address (level + 1)))) pieces
      (fresh ++ gather ((outs.drop skip).flatMap Out.chunks)) all := by
  induction shown generalizing skip opened fresh with
  | nil =>
      obtain ⟨pieces, promoted⟩ := @promoted_flush env params _ _ _ stored all
      refine ⟨pieces, ?_⟩
      rw [List.drop_nil]
      show Promoted env params store level
        (promoteFrom (level + 1) [] skip opened _) pieces (fresh ++ []) all
      rw [promoteFrom, List.append_nil]
      exact promoted
  | @cons item out items outs first others ih =>
      have restValid : ∀ other ∈ outs, other.Valid env params store :=
        fun other member => valid other (List.mem_cons_of_mem _ member)
      have restAmong : outs ⊆ all :=
        List.Subset.trans (List.subset_cons_self _ _) among
      cases skip with
      | succ skip => exact ih restValid restAmong skip parents stored
      | zero =>
          cases first with
          | @subtree top higher chunk isFinal =>
              obtain ⟨flushed, front⟩ := @promoted_flush env params _ _ _ stored all
              obtain ⟨rest, back⟩ :=
                @ih restValid restAmong 0 opened parents [] nofun
              have standing := (valid _ List.mem_cons_self).2
              have here := among List.mem_cons_self
              have middle : Promoted env params store level
                  [if top = level + 1 then
                    .old (refOf env.address top chunk) isFinal
                  else .subtree (refOf env.address top chunk) top isFinal]
                  [.sub top chunk isFinal] (gather (below level top chunk)) all := by
                apply promoted_sub _ higher standing (fun _ => here)
                split
                · next same =>
                    subst same
                    exact .old chunk isFinal
                · exact .subtree (by omega) chunk isFinal
              refine ⟨flushed ++ ([.sub top chunk isFinal] ++ rest), ?_⟩
              rw [promoteFrom]
              exact front.append (middle.append back)
          | chunk node =>
              have subset := matchParent_subset opened
                (.chunk (refOf env.address level node) :: items)
                (refOf env.address level node)
              rw [promoteFrom]
              split
              · next run parent rest matched =>
                  rw [matched] at subset
                  obtain ⟨chunk, opens⟩ := parents parent (subset List.mem_cons_self)
                  obtain ⟨-, starts, rfl⟩ := matchParent_run matched
                  obtain ⟨children, after, split, filled, count, middle⟩ :=
                    promoted_parent free bounded opens
                      (.cons (.chunk node) others) valid starts all
                  obtain ⟨flushed, front⟩ :=
                    @promoted_flush env params _ _ _ stored all
                  obtain ⟨pieces, back⟩ := @ih restValid restAmong
                    (parent.children.length - 1) rest
                    (fun other member =>
                      parents other (subset (List.mem_cons_of_mem _ member)))
                    [] nofun
                  obtain ⟨first, children, rfl⟩ :=
                    List.exists_cons_of_ne_nil filled
                  have tail : outs = children.map Out.chunk ++ after := by
                    rw [List.map_cons, List.cons_append, List.cons.injEq] at split
                    exact split.2
                  have remaining : outs.drop (parent.children.length - 1) =
                      after := by
                    rw [count, tail, List.length_cons, Nat.add_sub_cancel,
                      List.drop_left' (List.length_map _)]
                  have total : gather ((Out.chunk node :: outs).flatMap Out.chunks) =
                      gather (first :: children) ++
                        gather (after.flatMap Out.chunks) := by
                    rw [split, List.flatMap_append, List.flatMap_map]
                    exact congrArg (· ++ after.flatMap Out.chunks)
                      (List.flatMap_singleton' (first :: children))
                  refine ⟨flushed ++ ([.sub (level + 1) (gather (first :: children))
                    parent.isFinal] ++ pieces), ?_⟩
                  rw [remaining] at back
                  rw [List.drop_zero, total]
                  exact front.append (middle.append back)
              · next _ matched =>
                  rw [matched] at subset
                  obtain ⟨pieces, back⟩ := @ih restValid restAmong 0 _
                    (fun other member => parents other (subset member))
                    (fresh ++ [node.elem]) (by
                      intro elem member
                      rcases List.mem_append.mp member with early | new
                      · exact stored elem early
                      · rw [List.mem_singleton.mp new]
                        exact valid _ List.mem_cons_self)
                  rw [List.map_append, List.append_assoc] at back
                  exact ⟨pieces, back⟩

theorem promote_spec {level : Nat} {store : Store}
    (free : CollisionFree env.address store) (bounded : level < maxHeight)
    {items : List OutItem} {outs : List (Out level)}
    (shown : List.Forall₂ (fun item out => Out.Shown env level item out) items outs)
    (valid : ∀ out ∈ outs, out.Valid env params store)
    {opened : List (Nat × OpenedInner)}
    (parents : OpenedValid env params store opened) :
    ∃ pieces, Promoted env params store level
      (promote items (openedAt (level + 1) opened) (level + 1)) pieces
      (gather (outs.flatMap Out.chunks)) outs :=
  @promoteFrom_spec env params _ _ free bounded _ _ _ shown valid
    (List.Subset.refl _) 0 _ (parents.openedAt level) [] nofun

/-- The subtree lies within one of the pieces. -/
def FromPieces {level : Nat} (pieces : List (Piece level)) : Origin :=
  fun under node nodeFinal => ∃ (top : Nat) (chunk : Chunk top) (isFinal : Bool),
    Piece.sub top chunk isFinal ∈ pieces ∧ under ≤ top ∧
      node ∈ below under top chunk ∧ (nodeFinal = true → isFinal = true)

private theorem covered_fromPieces {level : Nat} (pieces : List (Piece level)) :
    ∀ top chunk isFinal, .sub top chunk isFinal ∈ pieces →
      Covered level (FromPieces pieces) chunk isFinal := by
  intro top chunk isFinal member under node nodeFinal _ order inside final
  exact ⟨top, chunk, isFinal, member, order, inside, final⟩

/-- The root leads to the chunk, which stands in the store or is the empty
leaf. -/
structure Denotes (env : Substrate) (params : ChunkParams) (store : Store)
    (root : Root) {top : Nat} (chunk : Chunk top) : Prop where
  root_eq : root = ⟨(refOf env.address top chunk).hash, top + 1, params⟩
  held : Standing env params store top chunk true ∨
    (top = 0 ∧ chunk = [] ∧ chunkBytes env.address top chunk ∈ store)

theorem Denotes.mono {smaller larger : Store} (grows : smaller ⊆ larger)
    {root : Root} {top : Nat} {chunk : Chunk top}
    (denotes : Denotes env params smaller root chunk) :
    Denotes env params larger root chunk :=
  ⟨denotes.root_eq, denotes.held.imp (Standing.mono grows)
    (fun leaf => ⟨leaf.1, leaf.2.1, grows leaf.2.2⟩)⟩

private theorem Standing.final {store : Store} {top : Nat} {chunk : Chunk top}
    {isFinal : Bool} (standing : Standing env params store top chunk isFinal) :
    Standing env params store top chunk true := by
  refine ⟨standing.bounded, standing.stored, ?_⟩
  cases isFinal with
  | true => exact standing.regular
  | false => exact standing.regular.relax true

structure Built (env : Substrate) (params : ChunkParams) (space : List Bytes)
    (store after : Store) (pairs : List (Bytes × Bytes)) (root : Root) {top : Nat}
    (chunk : Chunk top) : Prop where
  denotes : Denotes env params after root chunk
  contents : chunk.contents = pairs
  grows : store ⊆ after
  within : after ⊆ space
  nodes : ∀ bytes ∈ after, bytes ∈ store ∨ IsNode env after bytes

theorem Built.after {space : List Bytes} {store middle after : Store}
    {pairs : List (Bytes × Bytes)} {root : Root} {top : Nat} {chunk : Chunk top}
    (built : Built env params space middle after pairs root chunk)
    (grows : store ⊆ middle)
    (nodes : ∀ bytes ∈ middle, bytes ∈ store ∨ IsNode env middle bytes) :
    Built env params space store after pairs root chunk := by
  refine ⟨built.denotes, built.contents, List.Subset.trans grows built.grows,
    built.within, ?_⟩
  intro bytes member
  rcases built.nodes bytes member with before | new
  · exact (nodes bytes before).imp_right (IsNode.mono built.grows)
  · exact .inr new

/-- The space has room for all chunks of a build from scratch. -/
def Roomy (env : Substrate) (params : ChunkParams) (space : List Bytes)
    (pairs : List (Bytes × Bytes)) : Prop :=
  canonicalChunks env params pairs ⊆ space

private theorem Roomy.segments {space : List Bytes} {pairs : List (Bytes × Bytes)}
    (roomy : Roomy env params space pairs) (filled : pairs ≠ []) {level : Nat}
    (bounded : level < maxHeight) (reached : Reached env params pairs level) :
    ∀ run ∈ segments (cutAt env params level) (tier env params pairs level),
      chunkBytes env.address level run ∈ space :=
  fun run member => roomy (mem_canonicalChunks filled bounded reached run member)

private theorem Roomy.emptyLeaf {space : List Bytes}
    (roomy : Roomy env params space []) : chunkBytes env.address 0 [] ∈ space := by
  apply roomy
  rw [canonicalChunks, if_pos rfl]
  exact List.mem_cons_self

/-- A single chunk at the end of a level is the root of the tree. -/
private theorem standing_of_single {store : Store} {pairs : List (Bytes × Bytes)}
    (filled : pairs ≠ []) {level : Nat} (bounded : level < maxHeight)
    {chunk : Chunk level}
    (single : segments (cutAt env params level) (tier env params pairs level) =
      [chunk])
    (stored : Stored env.address store (level + 1) chunk.elem) :
    Standing env params store level chunk true := by
  obtain ⟨front, last, split, -, regular⟩ := @tier_regular env params _ filled level
  have asAppend : [] ++ [chunk] = front ++ [last] := single.symm.trans split
  obtain ⟨-, same⟩ := List.append_inj' asAppend rfl
  cases same
  exact ⟨bounded, stored, regular⟩

private theorem contents_of_single {pairs : List (Bytes × Bytes)} {level : Nat}
    {chunk : Chunk level}
    (single : segments (cutAt env params level) (tier env params pairs level) =
      [chunk]) :
    chunk = tier env params pairs level ∧ chunk.contents = pairs := by
  have joined := segments_flatten (cutAt env params level)
    (tier env params pairs level)
  rw [single, List.flatten_singleton] at joined
  exact ⟨joined, by rw [joined, contents_tier]⟩

private theorem length_lt_flatMap {store : Store} {level : Nat}
    {outs : List (Out level)} (valid : ∀ out ∈ outs, out.Valid env params store)
    (several : 2 ≤ outs.length) {out : Out level} (member : out ∈ outs) :
    out.chunks.length < (outs.flatMap Out.chunks).length := by
  obtain ⟨left, right, rfl⟩ := List.append_of_mem member
  have positive : ∀ other ∈ left ++ right, 1 ≤ other.chunks.length := by
    intro other inside
    apply List.length_pos_iff.mpr
    apply (valid other _).chunks_ne_nil
    rcases List.mem_append.mp inside with early | late
    · exact List.mem_append_left _ early
    · exact List.mem_append_right _ (List.mem_cons_of_mem _ late)
  have some : left ++ right ≠ [] := by
    intro none
    have count := congrArg List.length none
    rw [List.length_append, List.length_nil] at count
    rw [List.length_append, List.length_cons] at several
    omega
  obtain ⟨other, rest, split⟩ := List.exists_cons_of_ne_nil some
  have total : ((left ++ right).flatMap Out.chunks).length =
      other.chunks.length + (rest.flatMap Out.chunks).length := by
    rw [split, List.flatMap_cons, List.length_append]
  have first := positive other (by rw [split]; exact List.mem_cons_self)
  rw [List.flatMap_append, List.length_append] at total
  rw [List.flatMap_append, List.flatMap_cons, List.length_append,
    List.length_append]
  omega

private theorem below_sublist {level under top : Nat} (lower : level ≤ under)
    (order : under ≤ top) {chunk : Chunk top} {node : Chunk under}
    (member : node ∈ below under top chunk) :
    (below level under node).Sublist (below level top chunk) := by
  induction top with
  | zero =>
      obtain rfl : under = 0 := Nat.le_zero.mp order
      rw [below_self, List.mem_singleton] at member
      exact member ▸ List.Sublist.refl _
  | succ top ih =>
      by_cases same : under = top + 1
      · subst same
        rw [below_self, List.mem_singleton] at member
        exact member ▸ List.Sublist.refl _
      · rw [below_succ (by omega), List.mem_flatMap] at member
        obtain ⟨elem, inside, member⟩ := member
        have within := ih (by omega) member
        rw [below_succ (by omega)]
        exact within.trans (List.sublist_flatten_of_mem
          (List.mem_map.mpr ⟨elem, inside, rfl⟩))

/-- Above the leaves a level never collapses into an untouched subtree: that
subtree was one of several outputs of the level beneath. -/
private theorem no_single_subtree {store : Store} {level : Nat}
    {items : List Item} {pieces : List (Piece (level + 1))}
    {outs : List (Out level)} (several : 2 ≤ outs.length)
    (valid : ∀ out ∈ outs, out.Valid env params store)
    (promoted : Promoted env params store level items pieces
      (gather (outs.flatMap Out.chunks)) outs)
    {top : Nat} {node : Chunk top} {isFinal : Bool} (higher : level + 1 < top)
    (origin : FromPieces pieces top node isFinal)
    (whole : (below (level + 1) top node).flatten =
      gather (outs.flatMap Out.chunks)) : False := by
  obtain ⟨high, chunk, final, member, order, inside, -⟩ := origin
  have output := promoted.kept high chunk final member (by omega)
  have fewer := length_lt_flatMap valid several output
  have count := (below_sublist (by omega : level ≤ top) order inside).length_le
  rw [flatten_below_succ (by omega)] at whole
  have same : (below level top node).length = (outs.flatMap Out.chunks).length :=
    congrArg List.length whole
  have shape : (Out.subtree high chunk final : Out level).chunks =
    below level high chunk := rfl
  rw [shape] at fewer
  omega

private theorem buildFrom_step {space : List Bytes} {origin : Origin}
    {remaining level : Nat} {store after : Store} {items : List Item}
    {outItems : List OutItem} {recorder recorded : Recorder}
    {elems : Chunk level} {outs : List (Out level)}
    (opened : List (Nat × OpenedInner))
    (done : chunkLevel env store level params items recorder =
      .ok (outItems, recorded, after))
    (chunked : Chunked env params space level origin store after outItems elems
      outs)
    (some : elems ≠ []) :
    (∃ chunk, outs = [.chunk chunk] ∧
      buildFrom env (remaining + 1) level store params items opened recorder =
        .ok (⟨(refOf env.address level chunk).hash, level + 1, params⟩, recorded,
          after)) ∨
    (∃ top node isFinal, outs = [.subtree top node isFinal] ∧
      buildFrom env (remaining + 1) level store params items opened recorder =
        .ok (⟨(refOf env.address top node).hash, top + 1, params⟩, recorded,
          after)) ∨
    (2 ≤ outs.length ∧ (level + 1 < maxHeight →
      buildFrom env (remaining + 1) level store params items opened recorder =
        buildFrom env remaining (level + 1) after params
          (promote outItems (openedAt (level + 1) opened) (level + 1)) opened
          recorded)) := by
  rw [buildFrom, done, ok_bind]
  have shown := chunked.shown
  cases shown with
  | nil =>
      have joined := congrArg List.flatten chunked.chunks
      rw [segments_flatten] at joined
      exact absurd joined.symm some
  | cons first others =>
      cases others with
      | nil =>
          cases first with
          | chunk chunk => exact .inl ⟨chunk, rfl, rfl⟩
          | subtree higher node isFinal => exact .inr (.inl ⟨_, node, isFinal, rfl, rfl⟩)
      | cons second others =>
          refine .inr (.inr ⟨by simp, fun room => ?_⟩)
          have fits : ¬ level + 1 ≥ maxHeight := Nat.not_le_of_lt room
          cases first <;> exact if_neg fits

private theorem built_of_single {space : List Bytes} {origin : Origin}
    {pairs : List (Bytes × Bytes)} (filled : pairs ≠ []) {level : Nat}
    (bounded : level < maxHeight) {store after : Store} {outItems : List OutItem}
    {chunk : Chunk level}
    (chunked : Chunked env params space level origin store after outItems
      (tier env params pairs level) [.chunk chunk]) :
    Built env params space store after pairs
        ⟨(refOf env.address level chunk).hash, level + 1, params⟩ chunk ∧
      chunk = tier env params pairs level := by
  have single : segments (cutAt env params level) (tier env params pairs level) =
      [chunk] := chunked.chunks.symm
  have stored := chunked.valid _ List.mem_cons_self
  obtain ⟨same, all⟩ := contents_of_single single
  exact ⟨⟨⟨rfl, .inl (standing_of_single filled bounded single stored)⟩, all,
    chunked.grows, chunked.within, chunked.nodes⟩, same⟩

private theorem length_le_flatMap {store : Store} {level : Nat}
    {outs : List (Out level)} (valid : ∀ out ∈ outs, out.Valid env params store) :
    outs.length ≤ (outs.flatMap Out.chunks).length := by
  induction outs with
  | nil => exact Nat.le_refl _
  | cons out outs ih =>
      have positive :=
        List.length_pos_iff.mpr (valid out List.mem_cons_self).chunks_ne_nil
      have rest := ih (fun other member =>
        valid other (List.mem_cons_of_mem _ member))
      rw [List.flatMap_cons, List.length_append, List.length_cons]
      omega

private theorem room_above {store : Store} {pairs : List (Bytes × Bytes)}
    {level remaining : Nat} {outs : List (Out level)}
    (valid : ∀ out ∈ outs, out.Valid env params store)
    (chunks : outs.flatMap Out.chunks =
      segments (cutAt env params level) (tier env params pairs level))
    (several : 2 ≤ outs.length)
    (few : (tier env params pairs (level + 1)).length ≤ 2 ^ remaining)
    (total : level + 1 + remaining = maxHeight) : level + 1 < maxHeight := by
  have reached := length_le_flatMap valid
  rw [chunks] at reached
  have same : (tier env params pairs (level + 1)).length =
      (segments (cutAt env params level) (tier env params pairs level)).length :=
    rfl
  cases remaining with
  | zero => omega
  | succ remaining => omega

private theorem buildFrom_upper {space : List Bytes}
    (free : CollisionFree env.address space) {pairs : List (Bytes × Bytes)}
    (filled : pairs ≠ []) (ascending : Ascending pairs)
    (roomy : Roomy env params space pairs) (remaining : Nat) {level : Nat}
    (total : level + 1 + remaining = maxHeight) {store : Store}
    (within : store ⊆ space) {items : List Item}
    {pieces : List (Piece (level + 1))} {outs : List (Out level)}
    (several : 2 ≤ outs.length)
    (valid : ∀ out ∈ outs, out.Valid env params store)
    (chunks : outs.flatMap Out.chunks =
      segments (cutAt env params level) (tier env params pairs level))
    (promoted : Promoted env params store level items pieces
      (gather (outs.flatMap Out.chunks)) outs)
    (few : (tier env params pairs (level + 1)).length ≤ 2 ^ remaining)
    {opened : List (Nat × OpenedInner)}
    (parents : OpenedValid env params store opened) (recorder : Recorder) :
    ∃ root recorded after top, ∃ chunk : Chunk top,
      buildFrom env remaining (level + 1) store params items opened recorder =
        .ok (root, recorded, after) ∧
      Built env params space store after pairs root chunk ∧ 2 ≤ chunk.length := by
  induction remaining generalizing level store items pieces outs recorder with
  | zero =>
      have room := room_above valid chunks several few total
      omega
  | succ remaining ih =>
      have entries : gather (outs.flatMap Out.chunks) =
          tier env params pairs (level + 1) := congrArg gather chunks
      have expand : pieces.flatMap Piece.expand =
          tier env params pairs (level + 1) := promoted.expand.trans entries
      have reached : 2 ≤ (tier env params pairs (level + 1)).length := by
        rw [← entries]
        exact Nat.le_trans several (length_le_flatMap valid)
      have some : tier env params pairs (level + 1) ≠ [] :=
        List.ne_nil_of_length_pos (by omega)
      have bounded : level + 1 < maxHeight := by omega
      obtain ⟨outItems, recorded, after, nextOuts, done, chunked⟩ :=
        chunkLevel_spec free bounded within promoted.shown promoted.valid
          (covered_fromPieces pieces) (by rw [expand]; exact some)
          (by rw [expand, contents_tier]; exact ascending)
          (by rw [expand]; exact roomy.segments filled bounded (.inr reached))
          recorder
      rw [expand] at chunked
      rcases @buildFrom_step _ _ _ _ remaining _ _ _ _ _ _ _ _ _ opened done
        chunked some with ⟨chunk, rfl, result⟩ | ⟨top, node, isFinal, rfl, -⟩ |
        ⟨more, result⟩
      · obtain ⟨built, same⟩ := built_of_single filled bounded chunked
        exact ⟨_, _, _, _, chunk, result, built, by rw [same]; exact reached⟩
      · have higher := (chunked.valid _ List.mem_cons_self).1
        have whole := congrArg List.flatten chunked.chunks
        rw [segments_flatten, List.flatMap_singleton, ← entries] at whole
        exact (no_single_subtree several valid promoted higher
          (chunked.known top node isFinal List.mem_cons_self) whole).elim
      · have halves := @tier_halves env params pairs (level + 1)
        have power : 2 ^ (remaining + 1) = 2 * 2 ^ remaining := by
          rw [Nat.pow_succ, Nat.mul_comm]
        have fewer : (tier env params pairs (level + 1 + 1)).length ≤
            2 ^ remaining := by omega
        have room : level + 1 + 1 < maxHeight :=
          room_above chunked.valid chunked.chunks more fewer (by omega)
        obtain ⟨nextPieces, nextPromoted⟩ := promote_spec
          (free.subset chunked.within) bounded chunked.shown chunked.valid
          (parents.mono chunked.grows)
        obtain ⟨root, finished, final, top, chunk, rest, built, minimal⟩ :=
          ih (by omega) chunked.within more chunked.valid chunked.chunks
            nextPromoted fewer (parents.mono chunked.grows) recorded
        exact ⟨root, finished, final, top, chunk, (result room).trans rest,
          built.after chunked.grows chunked.nodes, minimal⟩

/-- Building from the leaf stream yields a tree of the denoted pairs.  Either
its root has several entries or is a leaf, or it is an untouched subtree that
was all the stream held. -/
theorem buildLevels_spec {space : List Bytes}
    (free : CollisionFree env.address space) {store : Store}
    (within : store ⊆ space) {items : List Item} {pieces : List (Piece 0)}
    (shown : List.Forall₂ (fun item piece => Piece.Shown env 0 item piece)
      items pieces)
    (valid : ∀ piece ∈ pieces, piece.Valid env params store)
    {pairs : List (Bytes × Bytes)}
    (expand : pieces.flatMap Piece.expand = tier env params pairs 0)
    (ascending : Ascending pairs) (roomy : Roomy env params space pairs)
    (few : pairs.length ≤ 2 ^ maxHeight) {opened : List (Nat × OpenedInner)}
    (parents : OpenedValid env params store opened) (recorder : Recorder) :
    ∃ root recorded after top, ∃ chunk : Chunk top,
      buildLevels env store params items opened recorder =
        .ok (root, recorded, after) ∧
      Built env params space store after pairs root chunk ∧
      (top = 0 ∨ 2 ≤ chunk.length ∨ ∃ isFinal, FromPieces pieces top chunk isFinal) := by
  by_cases filled : pairs = []
  · subst filled
    obtain ⟨recorded, after, done, grows, inside, held, nodes⟩ :=
      chunkLevel_empty free within shown valid expand (roomy.emptyLeaf) recorder
    refine ⟨_, recorded, after, 0, [], ?_,
      ⟨⟨rfl, .inr ⟨rfl, rfl, held⟩⟩, rfl, grows, inside, nodes⟩, .inl rfl⟩
    rw [buildLevels, show maxHeight = 63 + 1 from rfl, buildFrom, done, ok_bind]
  · obtain ⟨outItems, recorded, after, outs, done, chunked⟩ :=
      chunkLevel_spec free (by decide) within shown valid
        (covered_fromPieces pieces) (by rw [expand]; exact filled)
        (by rw [expand, contents_tier]; exact ascending)
        (by rw [expand]; exact roomy.segments filled (by decide) (.inl rfl))
        recorder
    rw [expand] at chunked
    rcases @buildFrom_step _ _ _ _ 63 _ _ _ _ _ _ _ _ _ opened done chunked
      filled with ⟨chunk, rfl, result⟩ | ⟨top, node, isFinal, rfl, result⟩ |
      ⟨more, result⟩
    · obtain ⟨built, -⟩ := built_of_single filled (by decide) chunked
      exact ⟨_, _, _, _, chunk, result, built, .inl rfl⟩
    · obtain ⟨higher, standing⟩ := chunked.valid _ List.mem_cons_self
      have whole := congrArg List.flatten chunked.chunks
      rw [segments_flatten, List.flatMap_singleton] at whole
      have all : node.contents = pairs := by
        rw [← contents_below higher.le node]
        exact (congrArg Chunk.contents whole).trans (contents_tier pairs 0)
      exact ⟨_, _, _, _, node, result, ⟨⟨rfl, .inl standing.final⟩, all,
        chunked.grows, chunked.within, chunked.nodes⟩,
        .inr (.inr ⟨isFinal, chunked.known top node isFinal List.mem_cons_self⟩)⟩
    · have halves := @tier_halves env params pairs 0
      have leaves : (tier env params pairs 0).length = pairs.length := rfl
      have power : 2 ^ maxHeight = 2 * 2 ^ 63 := by decide
      have fewer : (tier env params pairs (0 + 1)).length ≤ 2 ^ 63 := by omega
      obtain ⟨nextPieces, promoted⟩ := promote_spec (free.subset chunked.within)
        (by decide) chunked.shown chunked.valid (parents.mono chunked.grows)
      obtain ⟨root, finished, final, top, chunk, rest, built, minimal⟩ :=
        buildFrom_upper free filled ascending roomy 63 rfl chunked.within more
          chunked.valid chunked.chunks promoted fewer
          (parents.mono chunked.grows) recorded
      exact ⟨root, finished, final, top, chunk, (result (by decide)).trans rest,
        built.after chunked.grows chunked.nodes, .inr (.inl minimal)⟩

end

end Acetone.Prolly

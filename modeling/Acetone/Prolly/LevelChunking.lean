import Acetone.Prolly.Rebuild

/-!
# Chunking a level writes the segments of its entries

`Feeds` is the specification of one action of the loop: from any state inside
an open run it succeeds, and what it puts out together with the segments still
to come are the segments of everything.  It composes, so the specification of
the whole loop is assembled from those of its parts.
-/

namespace Acetone.Prolly

open Acetone.Lib

section

variable (env : Substrate) (params : ChunkParams) (space : List Bytes)
  (level : Nat)

/-- A property of the subtrees that a level may put out. -/
abbrev Origin := (top : Nat) → Chunk top → Bool → Prop

/-- Whatever passes through from within a tree has the property. -/
def Covered (origin : Origin) {top : Nat} (chunk : Chunk top) (isFinal : Bool) :
    Prop :=
  ∀ (under : Nat) (node : Chunk under) (nodeFinal : Bool), level < under →
    under ≤ top → node ∈ below under top chunk →
    (nodeFinal = true → isFinal = true) → origin under node nodeFinal

/-- The action feeds `expanded` to the builder.  `isLast` promises that nothing
follows; `base` is a store in which what it reads was already written. -/
def Feeds (origin : Origin) (base : Store) (isLast : Bool)
    (expanded : Chunk level)
    (action : LevelBuilder (env.rolling params) → Store →
      Except ProllyError (LevelBuilder (env.rolling params) × Store)) : Prop :=
  ∀ (builder : LevelBuilder (env.rolling params)) (store : Store)
    (current rest : Chunk level),
    Loop env params space level builder store current → base ⊆ store →
    (isLast = true → rest = []) →
    Ascending (Chunk.contents (current ++ (expanded ++ rest))) →
    (∀ run ∈ segmentsFrom (cutAt env params level) current (expanded ++ rest),
      chunkBytes env.address level run ∈ space) →
    ∃ next after ahead outs, action builder store = .ok (next, after) ∧
      Advance env params space level builder store next after ahead outs ∧
      outs.flatMap Out.chunks ++
          segmentsFrom (cutAt env params level) ahead rest =
        segmentsFrom (cutAt env params level) current (expanded ++ rest) ∧
      ∀ top node isFinal, Out.subtree top node isFinal ∈ outs →
        origin top node isFinal

variable {env params space level} {origin : Origin}

theorem Feeds.skip {base : Store} {isLast : Bool} :
    Feeds env params space level origin base isLast []
      (fun builder store => .ok (builder, store)) := by
  intro builder store current rest loop _ _ _ _
  exact ⟨builder, store, current, [], rfl, .refl loop, rfl, nofun⟩

theorem Feeds.andThen {base : Store} {firstLast secondLast : Bool}
    {left right : Chunk level}
    {first second : LevelBuilder (env.rolling params) → Store →
      Except ProllyError (LevelBuilder (env.rolling params) × Store)}
    (firstFeeds : Feeds env params space level origin base firstLast left first)
    (secondFeeds : Feeds env params space level origin base secondLast right second)
    (ends : firstLast = true → secondLast = true ∧ right = []) :
    Feeds env params space level origin base secondLast (left ++ right)
      (fun builder store => do
        let (builder, store) ← first builder store
        second builder store) := by
  intro builder store current rest loop old last ascending inSpace
  rw [List.append_assoc] at ascending inSpace
  obtain ⟨middle, between, ahead, outs, done, advance, split, known⟩ :=
    firstFeeds builder store current (right ++ rest) loop old
      (fun isLast => by rw [(ends isLast).2, last (ends isLast).1]; rfl)
      ascending inSpace
  have joined := congrArg List.flatten split
  rw [List.flatten_append, segmentsFrom_flatten, segmentsFrom_flatten] at joined
  obtain ⟨next, after, final, others, finished, further, remaining, moreKnown⟩ :=
    secondFeeds middle between ahead rest advance.loop
      (List.Subset.trans old advance.grows) last
      (by
        rw [← joined, Chunk.contents_append] at ascending
        exact (Ascending.append_iff.mp ascending).2.1)
      (fun run member => inSpace run (by
        rw [← split]
        exact List.mem_append_right _ member))
  refine ⟨next, after, final, outs ++ others, ?_, advance.trans further, ?_, ?_⟩
  · simp only [done, ok_bind]
    exact finished
  · rw [List.flatMap_append, List.append_assoc, remaining, split,
      List.append_assoc]
  · intro top node isFinal member
    rcases List.mem_append.mp member with early | late
    · exact known top node isFinal early
    · exact moreKnown top node isFinal late

private theorem stored_of_closed {store : Store} {current elems run : Chunk level}
    (opened : Open (cutAt env params level) current)
    (stored : ∀ elem ∈ current ++ elems, Stored env.address store level elem)
    (ascending : Ascending (Chunk.contents (current ++ elems)))
    (member : run ∈ (Lib.segment (cutAt env params level) current elems).1)
    (held : chunkBytes env.address level run ∈ store) :
    Stored env.address store (level + 1) run.elem := by
  have closed := (segment_spec _ opened elems).1 run member
  have joined := segment_join (cutAt env params level) current elems
  have part : run.Sublist (current ++ elems) := by
    rw [← joined]
    exact (List.sublist_flatten_of_mem member).trans
      (List.sublist_append_left _ _)
  have count := closed_length env params
    (closed_map (cutAfter env params) (entryOf env.address level) closed)
  rw [List.length_map] at count
  exact stored_succ.mpr ⟨closed.ne_nil, count,
    ascending.sublist (part.flatMap _), held,
    fun elem inside => stored elem (part.subset inside)⟩

private theorem shown_chunks (runs : List (Chunk level)) :
    List.Forall₂ (Out.Shown env level)
      (runs.map fun run => outOf env level (run.map (entryOf env.address level)))
      (runs.map Out.chunk) := by
  induction runs with
  | nil => exact .nil
  | cons run runs ih => exact .cons (.chunk run) ih

private theorem chunks_of_chunks (runs : List (Chunk level)) :
    (runs.map Out.chunk).flatMap Out.chunks = runs := by
  rw [List.flatMap_map]
  exact List.flatMap_singleton' runs

theorem Feeds.pushAll {base : Store} {isLast : Bool} (tagged : Option Hash)
    (bounded : level < maxHeight) (elems : Chunk level)
    (valid : ∀ elem ∈ elems, Stored env.address base level elem) :
    Feeds env params space level origin base isLast elems
      (fun builder store => (builder.withBase tagged).pushAll env
        (elems.map (entryOf env.address level)) store) := by
  intro builder store current rest loop old _ ascending inSpace
  have fits : ∀ entry ∈ elems.map (entryOf env.address level), entry.Fits := by
    intro entry member
    obtain ⟨elem, inside, rfl⟩ := List.mem_map.mp member
    exact (valid elem inside).fits
  have opened := (open_map (cutAfter env params) _).mpr loop.opened
  obtain ⟨next, done, ready, out⟩ :=
    (loop.ready.withBase tagged).pushAll opened _ fits store
  have mapped := segment_map (cutAfter env params) (entryOf env.address level)
    current elems
  rw [mapped] at done ready out
  let closed := (Lib.segment (cutAt env params level) current elems).1
  let ahead := (Lib.segment (cutAt env params level) current elems).2
  let after := ((closed.map (List.map (entryOf env.address level))).map
    (nodeBytes level)).reverse ++ store
  have grows : store ⊆ after := List.subset_append_right _ _
  have held : ∀ run ∈ closed, chunkBytes env.address level run ∈ after := by
    intro run member
    apply List.mem_append_left
    rw [List.mem_reverse, List.map_map]
    exact List.mem_map.mpr ⟨run, member, rfl⟩
  have sound : ∀ elem ∈ current ++ elems, Stored env.address after level elem := by
    intro elem member
    rcases List.mem_append.mp member with inside | new
    · exact (loop.stored elem inside).mono grows
    · exact (valid elem new).mono (List.Subset.trans old grows)
  have prefixAscending : Ascending (Chunk.contents (current ++ elems)) := by
    rw [← List.append_assoc, Chunk.contents_append] at ascending
    exact (Ascending.append_iff.mp ascending).1
  have newStored : ∀ run ∈ closed,
      Stored env.address after (level + 1) (Chunk.elem run) :=
    fun run member => stored_of_closed loop.opened sound prefixAscending member
      (held run member)
  have allIn : ∀ bytes ∈ after, bytes ∈ store ∨
      ∃ run ∈ closed, bytes = chunkBytes env.address level run := by
    intro bytes member
    rcases List.mem_append.mp member with new | before
    · rw [List.mem_reverse, List.map_map] at new
      obtain ⟨run, inside, rfl⟩ := List.mem_map.mp new
      exact .inr ⟨run, inside, rfl⟩
    · exact .inl before
  refine ⟨next, after, ahead, closed.map Out.chunk, done, ?advance, ?split, ?known⟩
  case split =>
    rw [chunks_of_chunks]
    exact (segmentsFrom_append _ current elems rest).symm
  case known =>
    intro top node isFinal member
    obtain ⟨run, -, same⟩ := List.mem_map.mp member
    cases same
  case advance =>
    refine ⟨⟨ready, (segment_spec _ loop.opened elems).2, ?_, ?_⟩, grows,
      ⟨_, out, ?_⟩, ?_, ?_⟩
    · intro elem member
      apply sound
      rw [← segment_join (cutAt env params level) current elems]
      exact List.mem_append_right _ member
    · intro bytes member
      rcases allIn bytes member with before | ⟨run, inside, rfl⟩
      · exact loop.within before
      · exact inSpace run (closed_subset_segmentsFrom _ _ _ _ inside)
    · rw [List.map_map]
      exact shown_chunks closed
    · intro item member
      obtain ⟨run, inside, rfl⟩ := List.mem_map.mp member
      exact newStored run inside
    · intro bytes member
      rcases allIn bytes member with before | ⟨run, inside, rfl⟩
      · exact .inl before
      · exact .inr ⟨level, run, bounded, rfl, .inl (newStored run inside)⟩

/-- The out item under which a tree passes through. -/
def passItem (env : Substrate) (level above : Nat) (chunk : Chunk (level + above))
    (isFinal : Bool) : OutItem :=
  match above with
  | 0 => .chunk (refOf env.address level chunk)
  | above + 1 =>
      .subtree (refOf env.address (level + (above + 1)) chunk)
        (level + (above + 1)) isFinal

/-- The output a tree that passes through denotes. -/
def passOut (level above : Nat) (chunk : Chunk (level + above))
    (isFinal : Bool) : Out level :=
  match above with
  | 0 => .chunk chunk
  | above + 1 => .subtree (level + (above + 1)) chunk isFinal

private theorem passOut_chunks (above : Nat) (chunk : Chunk (level + above))
    (isFinal : Bool) :
    (passOut level above chunk isFinal).chunks =
      below level (level + above) chunk := by
  cases above with
  | zero => exact (below_self chunk).symm
  | succ above => rfl

private theorem passOut_shown (above : Nat) (chunk : Chunk (level + above))
    (isFinal : Bool) :
    Out.Shown env level (passItem env level above chunk isFinal)
      (passOut level above chunk isFinal) := by
  cases above with
  | zero => exact .chunk chunk
  | succ above => exact .subtree (by omega) chunk isFinal

private theorem passOut_known {above : Nat} {chunk : Chunk (level + above)}
    {isFinal : Bool} (covered : Covered level origin chunk isFinal) :
    ∀ top node nodeFinal,
      Out.subtree top node nodeFinal ∈ [passOut level above chunk isFinal] →
      origin top node nodeFinal := by
  intro top node nodeFinal member
  cases above with
  | zero => simp [passOut] at member
  | succ above =>
      rw [List.mem_singleton, passOut] at member
      cases member
      exact covered _ chunk isFinal (by omega) (Nat.le_refl _)
        (by rw [below_self]; exact List.mem_cons_self) id

private theorem passOut_valid {store : Store} {above : Nat}
    {chunk : Chunk (level + above)} {isFinal : Bool}
    (standing : Standing env params store (level + above) chunk isFinal) :
    (passOut level above chunk isFinal).Valid env params store := by
  cases above with
  | zero => exact standing.stored
  | succ above => exact ⟨by omega, standing⟩

/-- At a boundary, a tree whose last cut is reproducible is put out as it
is. -/
private theorem feeds_passThrough {base store : Store} (above : Nat)
    {chunk : Chunk (level + above)} {isFinal : Bool}
    (standing : Standing env params base (level + above) chunk isFinal)
    {builder : LevelBuilder (env.rolling params)}
    (loop : Loop env params space level builder store []) (old : base ⊆ store)
    (rest : Chunk level) (reproducible : isFinal = true → rest = []) :
    Advance env params space level builder store
        (builder.passThrough (passItem env level above chunk isFinal)) store []
        [passOut level above chunk isFinal] ∧
      [passOut level above chunk isFinal].flatMap Out.chunks ++
          segmentsFrom (cutAt env params level) [] rest =
        segmentsFrom (cutAt env params level) []
          ((below level (level + above) chunk).flatten ++ rest) := by
  constructor
  · refine ⟨⟨loop.ready.passThrough _, loop.opened, loop.stored, loop.within⟩,
      List.Subset.refl _, ⟨_, rfl, .cons (passOut_shown above chunk isFinal) .nil⟩,
      ?_, fun _ member => .inl member⟩
    intro out member
    rw [List.mem_singleton.mp member]
    exact (passOut_valid standing).mono old
  · rw [List.flatMap_singleton, passOut_chunks]
    cases isFinal with
    | true =>
        rw [reproducible rfl, List.append_nil]
        have whole := standing.regular.segments_below (Nat.le_add_right level above)
        rw [segments] at whole
        rw [whole]
        exact List.append_nil _
    | false =>
        have closed := standing.regular.below_closed (Nat.le_add_right level above)
        rw [segmentsFrom_append, segment_flatten _ (fun run member =>
          (closed run member).closed)]

private theorem nodeEntries_nodeOf (chunk : Chunk level) :
    nodeEntries (nodeOf env.address level chunk) =
      chunk.map (entryOf env.address level) := by
  cases level with
  | zero => rfl
  | succ level =>
      rw [nodeOf, nodeEntries, List.map_map]
      rfl

/-- Each child of a standing tree stands; only the last one inherits
finality. -/
theorem standing_child {store : Store} {top : Nat}
    {chunk : Chunk (top + 1)} {isFinal : Bool}
    (standing : Standing env params store (top + 1) chunk isFinal)
    {front back : Chunk (top + 1)} {elem : Elem (top + 1)}
    (place : chunk = front ++ elem :: back) :
    Standing env params store top (Elem.chunk elem) (isFinal && back.isEmpty) := by
  have member : elem ∈ chunk := by rw [place]; simp
  have stored := (stored_succ.mp standing.stored).2.2.2.2 elem member
  have bounded : top < maxHeight := Nat.lt_of_succ_lt standing.bounded
  obtain ⟨others, last, split, closed, final⟩ := standing.regular.2
  cases back using List.reverseRecOn with
  | nil =>
      have same : others ++ [last] = front ++ [elem] := split.symm.trans place
      obtain ⟨-, tail⟩ := List.append_inj' same rfl
      cases tail
      exact ⟨bounded, stored, by simpa using final⟩
  | append_singleton back final' =>
      have same : others ++ [last] = (front ++ elem :: back) ++ [final'] := by
        rw [← split, place]
        simp
      obtain ⟨head, -⟩ := List.append_inj' same rfl
      refine ⟨bounded, stored, ?_⟩
      have inner : (isFinal && (back ++ [final']).isEmpty) = false := by
        cases back <;> simp
      rw [inner]
      exact closed elem (by rw [head]; simp)

private theorem covered_child {top : Nat} {chunk : Chunk (top + 1)}
    {isFinal : Bool} (covered : Covered level origin chunk isFinal)
    {front back : Chunk (top + 1)} {elem : Elem (top + 1)}
    (place : chunk = front ++ elem :: back) :
    Covered level origin (Elem.chunk elem) (isFinal && back.isEmpty) := by
  intro under node nodeFinal higher lower member final
  refine covered under node nodeFinal higher (by omega) ?_ ?_
  · rw [below_succ lower, List.mem_flatMap]
    exact ⟨elem, by rw [place]; simp, member⟩
  · intro isNodeFinal
    exact (Bool.and_eq_true_iff.mp (final isNodeFinal)).1

private theorem feeds_run {base : Store} {above : Nat} {isFinal isLast : Bool}
    (feed : NodeRef → Bool → Bool → LevelBuilder (env.rolling params) → Store →
      Except ProllyError (LevelBuilder (env.rolling params) × Store))
    (children : Chunk (level + above + 1))
    (each : ∀ front elem back, children = front ++ elem :: back →
      Feeds env params space level origin base (isLast && List.isEmpty back)
        (below level (level + above) (Elem.chunk elem)).flatten
        (feed (refOf env.address (level + above) (Elem.chunk elem))
          (isFinal && List.isEmpty back) (isLast && List.isEmpty back))) :
    Feeds env params space level origin base isLast
      (children.flatMap fun elem =>
        (below level (level + above) (Elem.chunk elem)).flatten)
      (feedRun feed
        (children.map fun elem =>
          refOf env.address (level + above) (Elem.chunk elem))
        isFinal isLast) := by
  induction children with
  | nil => exact Feeds.skip
  | cons elem children ih =>
      have first := each [] elem children rfl
      have others := ih (fun front other back place =>
        each (elem :: front) other back (by rw [place]; rfl))
      have both := Feeds.andThen first others (by
        intro ends
        rw [Bool.and_eq_true, List.isEmpty_iff] at ends
        exact ⟨ends.1, by rw [ends.2]; rfl⟩)
      rw [List.flatMap_cons]
      simp only [List.map_cons, feedRun, List.isEmpty_map]
      exact both

private theorem feeds_old (free : CollisionFree env.address space) {base : Store}
    {chunk : Chunk level} {isFinal : Bool}
    (standing : Standing env params base level chunk isFinal)
    (covered : Covered level origin chunk isFinal) (isLast : Bool) :
    Feeds env params space level origin base isLast (below level level chunk).flatten
      (feedNode env 0 (refOf env.address level chunk) isFinal isLast) := by
  intro builder store current rest loop old last ascending inSpace
  rw [feedNode]
  by_cases passes : (builder.atBoundary && (!isFinal || isLast)) = true
  · rw [if_pos passes]
    rw [Bool.and_eq_true, loop.ready.atBoundary_iff, List.map_eq_nil_iff] at passes
    obtain ⟨rfl, reproducible⟩ := passes
    obtain ⟨advance, split⟩ := feeds_passThrough 0 standing loop old rest (by
      rintro rfl
      exact last (by simpa using reproducible))
    exact ⟨_, store, [], _, rfl, advance, split, @passOut_known _ _ 0 _ _ covered⟩
  · rw [if_neg passes]
    have read := readNode_ref (free.subset loop.within)
      (Nat.lt_trans standing.bounded (by decide)) (standing.stored.mono old)
    rw [loop.ready.level, read, ok_bind, nodeEntries_nodeOf]
    have entries : (below level level chunk).flatten = chunk := by
      rw [below_self, List.flatten_singleton]
    rw [entries] at ascending inSpace ⊢
    exact Feeds.pushAll (some _) standing.bounded chunk
      (stored_succ.mp standing.stored).2.2.2.2 builder store current rest loop
      old last ascending inSpace

theorem feeds_node (free : CollisionFree env.address space) {base : Store}
    {above : Nat} {chunk : Chunk (level + above)} {isFinal : Bool}
    (standing : Standing env params base (level + above) chunk isFinal)
    (covered : Covered level origin chunk isFinal) (isLast : Bool) :
    Feeds env params space level origin base isLast
      (below level (level + above) chunk).flatten
      (feedNode env above (refOf env.address (level + above) chunk) isFinal
        isLast) := by
  induction above generalizing isFinal isLast with
  | zero => exact feeds_old free standing covered isLast
  | succ above ih =>
      intro builder store current rest loop old last ascending inSpace
      rw [feedNode]
      by_cases passes : (builder.atBoundary && (!isFinal || isLast)) = true
      · rw [if_pos passes]
        rw [Bool.and_eq_true, loop.ready.atBoundary_iff, List.map_eq_nil_iff]
          at passes
        obtain ⟨rfl, reproducible⟩ := passes
        obtain ⟨advance, split⟩ :=
          feeds_passThrough (above + 1) standing loop old rest (by
            rintro rfl
            exact last (by simpa using reproducible))
        rw [loop.ready.level]
        exact ⟨_, store, [], _, rfl, advance, split, passOut_known covered⟩
      · rw [if_neg passes]
        have read := readNode_ref (free.subset loop.within)
          (Nat.lt_trans standing.bounded (by decide)) (standing.stored.mono old)
        have entries : (below level (level + (above + 1)) chunk).flatten =
            chunk.flatMap (fun elem =>
              (below level (level + above) (Elem.chunk elem)).flatten) := by
          show (below level (level + above + 1) chunk).flatten = _
          rw [below_succ (Nat.le_add_right level above), List.flatten_eq_flatMap,
            List.flatMap_assoc]
          exact List.flatMap_congr (fun elem _ => List.flatMap_id)
        rw [entries] at ascending inSpace ⊢
        rw [loop.ready.level, read, ok_bind]
        exact feeds_run (feedNode env above) chunk
          (fun front elem back place =>
            ih (standing_child standing place) (covered_child covered place)
              (isLast && List.isEmpty back))
          builder store current rest loop old last ascending inSpace

private theorem feeds_item (free : CollisionFree env.address space)
    (bounded : level < maxHeight) {base : Store} {item : Item}
    {piece : Piece level} (shown : piece.Shown env level item)
    (valid : piece.Valid env params base)
    (covered : ∀ top chunk isFinal, piece = .sub top chunk isFinal →
      Covered level origin chunk isFinal) (isLast : Bool) :
    Feeds env params space level origin base isLast piece.expand
      (feedItem env item isLast) := by
  cases shown with
  | fresh elems tagged => exact Feeds.pushAll tagged bounded elems valid
  | old chunk isFinal =>
      exact feeds_old free valid.2 (covered level chunk isFinal rfl) isLast
  | @subtree top higher chunk isFinal =>
      obtain ⟨above, rfl⟩ : ∃ above, top = level + above :=
        ⟨top - level, by omega⟩
      intro builder store current rest loop old last ascending inSpace
      rw [feedItem, loop.ready.level, if_neg (by omega), Nat.add_sub_cancel_left]
      exact feeds_node free valid.2 (covered _ chunk isFinal rfl) isLast builder store
        current rest loop old last ascending inSpace

theorem feeds_items (free : CollisionFree env.address space)
    (bounded : level < maxHeight) {base : Store} {items : List Item}
    {pieces : List (Piece level)}
    (shown : List.Forall₂ (fun item piece => Piece.Shown env level item piece)
      items pieces)
    (valid : ∀ piece ∈ pieces, piece.Valid env params base)
    (covered : ∀ top chunk isFinal, .sub top chunk isFinal ∈ pieces →
      Covered level origin chunk isFinal) :
    Feeds env params space level origin base true (pieces.flatMap Piece.expand)
      (feedItems env items) := by
  induction shown with
  | nil => exact Feeds.skip
  | @cons item piece items pieces first others ih =>
      have head := feeds_item free bounded first (valid piece List.mem_cons_self)
        (fun top chunk isFinal same =>
          covered top chunk isFinal (same ▸ List.mem_cons_self)) items.isEmpty
      have tail := ih
        (fun other member => valid other (List.mem_cons_of_mem _ member))
        (fun top chunk isFinal member =>
          covered top chunk isFinal (List.mem_cons_of_mem _ member))
      have both := Feeds.andThen head tail (by
        intro ends
        rw [List.isEmpty_iff] at ends
        subst ends
        cases others
        exact ⟨rfl, rfl⟩)
      rw [List.flatMap_cons]
      exact both

/-- The run left open at the end of a level is a readable node. -/
private theorem stored_of_open {store : Store} {run : Chunk level}
    (opened : Open (cutAt env params level) run) (filled : run ≠ [])
    (stored : ∀ elem ∈ run, Stored env.address store level elem)
    (ascending : Ascending run.contents)
    (held : chunkBytes env.address level run ∈ store) :
    Stored env.address store (level + 1) run.elem := by
  have small := open_length env params ((open_map (cutAfter env params) _).mpr opened)
  rw [List.length_map] at small
  exact stored_succ.mpr ⟨filled, by omega, ascending, held, stored⟩

/-- What chunking a level yields: the segments of the denoted entries. -/
structure Chunked (env : Substrate) (params : ChunkParams) (space : List Bytes)
    (level : Nat) (origin : Origin) (store after : Store) (items : List OutItem)
    (elems : Chunk level) (outs : List (Out level)) : Prop where
  shown : List.Forall₂ (fun item out => Out.Shown env level item out) items outs
  valid : ∀ out ∈ outs, out.Valid env params after
  chunks : outs.flatMap Out.chunks = segments (cutAt env params level) elems
  grows : store ⊆ after
  within : after ⊆ space
  nodes : ∀ bytes ∈ after, bytes ∈ store ∨ IsNode env after bytes
  known : ∀ top node isFinal, Out.subtree top node isFinal ∈ outs →
    origin top node isFinal

private theorem chunked_of_advance {store after : Store} {elems ahead : Chunk level}
    {start builder : LevelBuilder (env.rolling params)} {outs : List (Out level)}
    (bounded : level < maxHeight) (started : start.out = [])
    (advance : Advance env params space level start store builder after ahead outs)
    (split : outs.flatMap Out.chunks ++
        segmentsFrom (cutAt env params level) ahead [] =
      segments (cutAt env params level) elems)
    (known : ∀ top node isFinal, Out.subtree top node isFinal ∈ outs →
      origin top node isFinal)
    (ascending : Ascending (Chunk.contents elems))
    (inSpace : ∀ run ∈ segments (cutAt env params level) elems,
      chunkBytes env.address level run ∈ space) :
    ∃ next final finalOuts,
      (if builder.count > 0 then builder.emit env after else (builder, after)) =
        (next, final) ∧
      Chunked env params space level origin store final next.out elems finalOuts ∧
      Ready env params next level [] := by
  obtain ⟨items, out, shown⟩ := advance.shown
  rw [started, List.nil_append] at out
  have count : builder.count = ahead.length := by
    rw [advance.loop.ready.count, List.length_map]
  have joined := congrArg List.flatten split
  rw [List.flatten_append, segmentsFrom_flatten, List.append_nil,
    segments_flatten] at joined
  by_cases filled : ahead = []
  · subst filled
    have none : segmentsFrom (cutAt env params level) [] [] = [] := rfl
    rw [none, List.append_nil] at split
    refine ⟨builder, after, outs, if_neg (by rw [count]; simp), ?_,
      advance.loop.ready⟩
    exact ⟨out ▸ shown, advance.valid, split, advance.grows, advance.loop.within,
      advance.nodes, known⟩
  · have last : segmentsFrom (cutAt env params level) ahead [] = [ahead] := by
      simp [segmentsFrom, Lib.segment, closeLast, filled]
    rw [last] at split
    obtain ⟨next, emitted, ready, nextOut⟩ := advance.loop.ready.emit after
    have positive : builder.count > 0 := by
      rw [count]
      exact List.length_pos_iff.mpr filled
    have grows : after ⊆ chunkBytes env.address level ahead :: after :=
      List.subset_cons_self _ _
    have aheadAscending : Ascending ahead.contents := by
      rw [← joined, Chunk.contents_append] at ascending
      exact (Ascending.append_iff.mp ascending).2.1
    have stored : Stored env.address (chunkBytes env.address level ahead :: after)
        (level + 1) ahead.elem :=
      stored_of_open advance.loop.opened filled
        (fun elem member => (advance.loop.stored elem member).mono grows)
        aheadAscending List.mem_cons_self
    refine ⟨next, _, outs ++ [.chunk ahead], by rw [if_pos positive, emitted],
      ⟨?_, ?_, ?_, ?_, ?_, ?_, ?_⟩, ready⟩
    · rw [nextOut, out]
      exact List.rel_append shown (.cons (.chunk ahead) .nil)
    · intro item member
      rcases List.mem_append.mp member with early | isLast
      · exact (advance.valid item early).mono grows
      · rw [List.mem_singleton.mp isLast]
        exact stored
    · rw [List.flatMap_append, List.flatMap_singleton]
      exact split
    · exact List.Subset.trans advance.grows grows
    · intro bytes member
      rcases List.mem_cons.mp member with rfl | before
      · exact inSpace ahead (by rw [← split]; simp)
      · exact advance.loop.within before
    · intro bytes member
      rcases List.mem_cons.mp member with rfl | before
      · exact .inr ⟨level, ahead, bounded, rfl, .inl stored⟩
      · exact (advance.nodes bytes before).imp_right (IsNode.mono grows)
    · intro top node isFinal member
      rcases List.mem_append.mp member with early | isLast
      · exact known top node isFinal early
      · cases List.mem_singleton.mp isLast

/-- Chunking the items of a level writes the segments of its entries. -/
theorem chunkLevel_spec (free : CollisionFree env.address space)
    (bounded : level < maxHeight) {store : Store} (within : store ⊆ space)
    {items : List Item} {pieces : List (Piece level)}
    (shown : List.Forall₂ (fun item piece => Piece.Shown env level item piece)
      items pieces)
    (valid : ∀ piece ∈ pieces, piece.Valid env params store)
    (covered : ∀ top chunk isFinal, .sub top chunk isFinal ∈ pieces →
      Covered level origin chunk isFinal)
    (filled : pieces.flatMap Piece.expand ≠ [])
    (ascending : Ascending (Chunk.contents (pieces.flatMap Piece.expand)))
    (inSpace : ∀ run ∈ segments (cutAt env params level)
        (pieces.flatMap Piece.expand), chunkBytes env.address level run ∈ space)
    (recorder : Recorder) :
    ∃ outItems recorded after outs,
      chunkLevel env store level params items recorder =
        .ok (outItems, recorded, after) ∧
      Chunked env params space level origin store after outItems
        (pieces.flatMap Piece.expand) outs := by
  obtain ⟨builder, after, ahead, outs, fed, advance, split, known⟩ :=
    feeds_items free bounded shown valid covered (.new level params recorder) store [] []
      ⟨.new level recorder, rfl, nofun, within⟩ (List.Subset.refl _) (fun _ => rfl)
      (by simpa using ascending)
      (by simpa [segments] using inSpace)
  rw [List.append_nil] at split
  obtain ⟨next, final, finalOuts, emitted, chunked, -⟩ :=
    chunked_of_advance bounded rfl advance split known ascending inSpace
  have some : next.out ≠ [] := by
    intro none
    have empty := chunked.shown
    rw [none] at empty
    cases empty
    have nothing := congrArg List.flatten chunked.chunks
    rw [segments_flatten] at nothing
    exact filled nothing.symm
  refine ⟨next.out, next.recorder, final, finalOuts, ?_, chunked⟩
  rw [chunkLevel, fed, ok_bind]
  simp only [emitted]
  have notEmpty : (next.out.isEmpty && decide (level = 0)) = false := by
    simp [some]
  simp only [notEmpty]
  rfl

/-- A level without entries, which only level zero can be, yields the empty
leaf. -/
theorem chunkLevel_empty (free : CollisionFree env.address space) {store : Store}
    (within : store ⊆ space) {items : List Item} {pieces : List (Piece 0)}
    (shown : List.Forall₂ (fun item piece => Piece.Shown env 0 item piece)
      items pieces)
    (valid : ∀ piece ∈ pieces, piece.Valid env params store)
    (empty : pieces.flatMap Piece.expand = [])
    (inSpace : chunkBytes env.address 0 [] ∈ space) (recorder : Recorder) :
    ∃ recorded after,
      chunkLevel env store 0 params items recorder =
        .ok ([.chunk (refOf env.address 0 [])], recorded, after) ∧
      store ⊆ after ∧ after ⊆ space ∧ chunkBytes env.address 0 [] ∈ after ∧
      ∀ bytes ∈ after, bytes ∈ store ∨ IsNode env after bytes := by
  have feeds : Feeds env params space 0 (fun _ _ _ => True) store true
      (pieces.flatMap Piece.expand) (feedItems env items) :=
    feeds_items free (by decide) shown valid
      (fun _ _ _ _ _ _ _ _ _ _ _ => trivial)
  rw [empty] at feeds
  obtain ⟨builder, between, ahead, outs, fed, advance, joined, known⟩ :=
    feeds (.new 0 params recorder) store [] []
      ⟨.new 0 recorder, rfl, nofun, within⟩ (List.Subset.refl _) (fun _ => rfl)
      .nil (by simp [segmentsFrom, Lib.segment, closeLast])
  have split : outs.flatMap Out.chunks ++
      segmentsFrom (cutAt env params 0) ahead [] =
        segments (cutAt env params 0) [] := joined
  obtain ⟨next, after, finalOuts, emitted, chunked, ready⟩ :=
    chunked_of_advance (by decide) rfl advance split known .nil
      (by simp [segments, segmentsFrom, Lib.segment, closeLast])
  have none : next.out = [] := by
    have shown := chunked.shown
    cases finalOuts with
    | nil => exact List.forall₂_nil_right_iff.mp shown
    | cons out outs =>
        have nonempty := (chunked.valid out List.mem_cons_self).chunks_ne_nil
        have total := chunked.chunks
        rw [List.flatMap_cons] at total
        exact absurd (List.append_eq_nil_iff.mp total).1 nonempty
  obtain ⟨last, written, -, out⟩ := ready.emit after
  refine ⟨last.recorder, chunkBytes env.address 0 [] :: after, ?_, ?_, ?_, ?_, ?_⟩
  · rw [chunkLevel, fed, ok_bind]
    have isEmpty : (next.out.isEmpty && decide True) = true := by
      simp [none]
    simp only [emitted, written, isEmpty, if_true]
    rw [out, none]
    rfl
  · exact List.Subset.trans chunked.grows (List.subset_cons_self _ _)
  · intro bytes member
    rcases List.mem_cons.mp member with rfl | before
    · exact inSpace
    · exact chunked.within before
  · exact List.mem_cons_self
  · intro bytes member
    rcases List.mem_cons.mp member with rfl | before
    · exact .inr ⟨0, [], by decide, rfl, .inr ⟨rfl, rfl⟩⟩
    · exact (chunked.nodes bytes before).imp_right
        (IsNode.mono (List.subset_cons_self _ _))

end

end Acetone.Prolly

import Acetone.Prolly.Builder

/-!
# Rebuilding a level

The item stream of a level denotes the entries of that level: fresh ones,
those of an untouched node, or all those beneath an untouched subtree.
Chunking the stream yields exactly the segments of the denoted entries, whether
a node was re-chunked or passed through.  The invariant that makes passing
through sound is `Regular`: every node of an untouched subtree ends where the
chunker would end it, except that the last node of a level may end with the
level.
-/

namespace Acetone.Prolly

open Acetone.Lib

def gather {level : Nat} (chunks : List (Chunk level)) : Chunk (level + 1) :=
  chunks

def below (level : Nat) : (top : Nat) → Chunk top → List (Chunk level)
  | 0, chunk => if same : 0 = level then [same ▸ chunk] else []
  | top + 1, chunk =>
      if same : top + 1 = level then [same ▸ chunk]
      else chunk.flatMap (fun elem => below level top (Elem.chunk elem))

@[simp] theorem below_self {level : Nat} (chunk : Chunk level) :
    below level level chunk = [chunk] := by
  cases level with
  | zero => rfl
  | succ level => exact dif_pos rfl

theorem below_succ {level top : Nat} (lower : level ≤ top)
    (chunk : Chunk (top + 1)) :
    below level (top + 1) chunk =
      chunk.flatMap (fun elem => below level top (Elem.chunk elem)) :=
  dif_neg (by omega)

/-- The chunks of a level are the entries of the chunks above. -/
theorem flatten_below_succ {level top : Nat} (lower : level < top)
    (chunk : Chunk top) :
    (below (level + 1) top chunk).flatten = gather (below level top chunk) := by
  induction top with
  | zero => omega
  | succ top ih =>
      by_cases same : level = top
      · subst same
        rw [below_self, List.flatten_singleton, below_succ (Nat.le_refl level)]
        show chunk = chunk.flatMap (fun elem => below level level (Elem.chunk elem))
        simp only [below_self]
        exact (List.flatMap_singleton' chunk).symm
      · have inside : level < top := by omega
        rw [below_succ inside, below_succ inside.le, List.flatten_eq_flatMap,
          List.flatMap_assoc]
        refine List.flatMap_congr (fun elem _ => ?_)
        rw [List.flatMap_id]
        exact ih inside (Elem.chunk elem)

theorem contents_below {level top : Nat} (lower : level ≤ top)
    (chunk : Chunk top) :
    Chunk.contents (below level top chunk).flatten = chunk.contents := by
  induction top with
  | zero =>
      obtain rfl : level = 0 := Nat.le_zero.mp lower
      rw [below_self, List.flatten_singleton]
  | succ top ih =>
      by_cases same : level = top + 1
      · subst same
        rw [below_self, List.flatten_singleton]
      · have inside : level ≤ top := by omega
        rw [below_succ inside, List.flatten_eq_flatMap, List.flatMap_assoc,
          Chunk.contents, List.flatMap_assoc]
        refine List.flatMap_congr (fun elem _ => ?_)
        rw [List.flatMap_id]
        exact ih inside (Elem.chunk elem)

section

variable (env : Substrate) (params : ChunkParams)

/-- Whether a chunk of `level` ends after these entries. -/
def cutAt (level : Nat) (run : Chunk level) : Bool :=
  cutAfter env params (run.map (entryOf env.address level))

/-- The chunk ends where the chunker ends it; a final chunk may also end with
its level. -/
def Whole (level : Nat) (isFinal : Bool) (chunk : Chunk level) : Prop :=
  Closed (cutAt env params level) chunk ∨
    (isFinal = true ∧ Open (cutAt env params level) chunk ∧ chunk ≠ [])

/-- Every node of the tree is whole; only nodes on the right edge of a final
tree are final. -/
def Regular : (level : Nat) → Bool → Chunk level → Prop
  | 0, isFinal, chunk => Whole env params 0 isFinal chunk
  | level + 1, isFinal, chunk =>
      Whole env params (level + 1) isFinal chunk ∧
        ∃ (front : Chunk (level + 1)) (last : Elem (level + 1)),
          chunk = front ++ [last] ∧
          (∀ elem ∈ front, Regular level false (Elem.chunk elem)) ∧
          Regular level isFinal (Elem.chunk last)

variable {env params}

theorem Regular.whole {level : Nat} {isFinal : Bool} {chunk : Chunk level}
    (regular : Regular env params level isFinal chunk) :
    Whole env params level isFinal chunk := by
  cases level with
  | zero => exact regular
  | succ level => exact regular.1

theorem Regular.closed {level : Nat} {chunk : Chunk level}
    (regular : Regular env params level false chunk) :
    Closed (cutAt env params level) chunk := by
  rcases regular.whole with closed | ⟨⟨⟩, -⟩
  exact closed

theorem Regular.relax {level : Nat} {chunk : Chunk level}
    (regular : Regular env params level false chunk) (isFinal : Bool) :
    Regular env params level isFinal chunk := by
  induction level with
  | zero => exact .inl regular.closed
  | succ level ih =>
      obtain ⟨front, last, split, others, final⟩ := regular.2
      exact ⟨.inl regular.closed, front, last, split, others, ih final⟩

theorem Regular.below_closed {level top : Nat} (lower : level ≤ top)
    {chunk : Chunk top} (regular : Regular env params top false chunk) :
    ∀ node ∈ below level top chunk, Regular env params level false node := by
  induction top with
  | zero =>
      obtain rfl : level = 0 := Nat.le_zero.mp lower
      intro node member
      rw [below_self, List.mem_singleton] at member
      exact member ▸ regular
  | succ top ih =>
      by_cases same : level = top + 1
      · subst same
        intro node member
        rw [below_self, List.mem_singleton] at member
        exact member ▸ regular
      · intro node member
        rw [below_succ (by omega), List.mem_flatMap] at member
        obtain ⟨elem, inside, member⟩ := member
        obtain ⟨front, last, split, others, final⟩ := regular.2
        rw [split] at inside
        rcases List.mem_append.mp inside with early | late
        · exact ih (by omega) (others elem early) node member
        · rw [List.mem_singleton.mp late] at member
          exact ih (by omega) final node member

theorem Regular.below_final {level top : Nat} (lower : level ≤ top)
    {isFinal : Bool} {chunk : Chunk top}
    (regular : Regular env params top isFinal chunk) :
    ∃ front last, below level top chunk = front ++ [last] ∧
      (∀ node ∈ front, Regular env params level false node) ∧
      Regular env params level isFinal last := by
  induction top with
  | zero =>
      obtain rfl : level = 0 := Nat.le_zero.mp lower
      exact ⟨[], chunk, below_self chunk, nofun, regular⟩
  | succ top ih =>
      by_cases same : level = top + 1
      · subst same
        exact ⟨[], chunk, below_self chunk, nofun, regular⟩
      · obtain ⟨early, late, split, others, final⟩ := regular.2
        obtain ⟨front, last, inside, closed, ends⟩ := ih (by omega) final
        refine ⟨early.flatMap (fun elem => below level top (Elem.chunk elem)) ++
          front, last, ?_, ?_, ends⟩
        · rw [below_succ (by omega), split, List.flatMap_append,
            List.flatMap_singleton, inside, List.append_assoc]
        · intro node member
          rcases List.mem_append.mp member with outside | member
          · obtain ⟨elem, isEarly, member⟩ := List.mem_flatMap.mp outside
            exact (others elem isEarly).below_closed (by omega) node member
          · exact closed node member

/-- Segmenting the entries beneath a regular tree gives its chunks back. -/
theorem Regular.segments_below {level top : Nat} (lower : level ≤ top)
    {isFinal : Bool} {chunk : Chunk top}
    (regular : Regular env params top isFinal chunk) :
    segments (cutAt env params level) (below level top chunk).flatten =
      below level top chunk := by
  obtain ⟨front, last, split, closed, final⟩ := regular.below_final lower
  rw [split, List.flatten_append, List.flatten_singleton, segments, segmentsFrom,
    segment_flatten_append _ (fun run member => (closed run member).closed)]
  rcases final.whole with ends | ⟨-, opened, filled⟩
  · have whole : Lib.segment (cutAt env params level) [] last = ([last], []) := ends
    rw [whole]
    rfl
  · have whole : Lib.segment (cutAt env params level) [] last = ([], last) := opened
    rw [whole, closeLast, if_neg filled, List.append_nil]

end

inductive Piece (level : Nat) where
  | fresh (elems : Chunk level)
  | sub (top : Nat) (chunk : Chunk top) (isFinal : Bool)

inductive Out (level : Nat) where
  | chunk (chunk : Chunk level)
  | subtree (top : Nat) (chunk : Chunk top) (isFinal : Bool)

def Piece.expand {level : Nat} : Piece level → Chunk level
  | .fresh elems => elems
  | .sub top chunk _ => (below level top chunk).flatten

def Out.chunks {level : Nat} : Out level → List (Chunk level)
  | .chunk node => [node]
  | .subtree top node _ => below level top node

section

variable (env : Substrate) (params : ChunkParams)

/-- The item is the code's form of the piece. -/
inductive Piece.Shown (level : Nat) : Item → Piece level → Prop where
  | fresh (elems : Chunk level) (base : Option Hash) :
      Shown level (.fresh (elems.map (entryOf env.address level)) base)
        (.fresh elems)
  | old (chunk : Chunk level) (isFinal : Bool) :
      Shown level (.old (refOf env.address level chunk) isFinal)
        (.sub level chunk isFinal)
  | subtree {top : Nat} (higher : level < top) (chunk : Chunk top)
      (isFinal : Bool) :
      Shown level (.subtree (refOf env.address top chunk) top isFinal)
        (.sub top chunk isFinal)

inductive Out.Shown (level : Nat) : OutItem → Out level → Prop where
  | chunk (chunk : Chunk level) :
      Shown level (.chunk (refOf env.address level chunk)) (.chunk chunk)
  | subtree {top : Nat} (higher : level < top) (chunk : Chunk top)
      (isFinal : Bool) :
      Shown level (.subtree (refOf env.address top chunk) top isFinal)
        (.subtree top chunk isFinal)

/-- A stored regular tree within the height the format allows. -/
structure Standing (store : Store) (top : Nat) (chunk : Chunk top)
    (isFinal : Bool) : Prop where
  bounded : top < maxHeight
  stored : Stored env.address store (top + 1) chunk.elem
  regular : Regular env params top isFinal chunk

def Piece.Valid (store : Store) {level : Nat} : Piece level → Prop
  | .fresh elems => ∀ elem ∈ elems, Stored env.address store level elem
  | .sub top chunk isFinal =>
      level ≤ top ∧ Standing env params store top chunk isFinal

def Out.Valid (store : Store) {level : Nat} : Out level → Prop
  | .chunk node => Stored env.address store (level + 1) (Chunk.elem node)
  | .subtree top node isFinal =>
      level < top ∧ Standing env params store top node isFinal

def IsNode (store : Store) (bytes : Bytes) : Prop :=
  ∃ (level : Nat) (chunk : Chunk level), level < maxHeight ∧
    bytes = chunkBytes env.address level chunk ∧
    (Stored env.address store (level + 1) chunk.elem ∨ (level = 0 ∧ chunk = []))

variable {env params}

theorem Standing.mono {smaller larger : Store} (grows : smaller ⊆ larger)
    {top : Nat} {chunk : Chunk top} {isFinal : Bool}
    (standing : Standing env params smaller top chunk isFinal) :
    Standing env params larger top chunk isFinal :=
  ⟨standing.bounded, standing.stored.mono grows, standing.regular⟩

theorem Out.Valid.mono {smaller larger : Store} (grows : smaller ⊆ larger)
    {level : Nat} {out : Out level} (valid : out.Valid env params smaller) :
    out.Valid env params larger := by
  cases out with
  | chunk chunk => exact Stored.mono grows valid
  | subtree top chunk isFinal => exact ⟨valid.1, valid.2.mono grows⟩

theorem Out.Valid.chunks_ne_nil {store : Store} {level : Nat} {out : Out level}
    (valid : out.Valid env params store) : out.chunks ≠ [] := by
  cases out with
  | chunk node => exact List.cons_ne_nil _ _
  | subtree top node isFinal =>
      obtain ⟨front, last, split, -, -⟩ :=
        valid.2.regular.below_final valid.1.le
      rw [Out.chunks, split]
      exact List.append_ne_nil_of_right_ne_nil _ (List.cons_ne_nil _ _)

theorem IsNode.mono {smaller larger : Store} (grows : smaller ⊆ larger)
    {bytes : Bytes} (node : IsNode env smaller bytes) :
    IsNode env larger bytes := by
  obtain ⟨level, chunk, bounded, same, stored | empty⟩ := node
  · exact ⟨level, chunk, bounded, same, .inl (stored.mono grows)⟩
  · exact ⟨level, chunk, bounded, same, .inr empty⟩

end

section

variable (env : Substrate) (params : ChunkParams) (space : List Bytes)
  (level : Nat)

/-- The builder stands inside the open run `current`. -/
structure Loop (builder : LevelBuilder (env.rolling params)) (store : Store)
    (current : Chunk level) : Prop where
  ready : Ready env params builder level
    (current.map (entryOf env.address level))
  opened : Open (cutAt env params level) current
  stored : ∀ elem ∈ current, Stored env.address store level elem
  within : store ⊆ space

/-- A step of the loop: what it wrote and what it put out. -/
structure Advance (builder : LevelBuilder (env.rolling params)) (store : Store)
    (next : LevelBuilder (env.rolling params)) (after : Store)
    (current : Chunk level) (outs : List (Out level)) : Prop where
  loop : Loop env params space level next after current
  grows : store ⊆ after
  shown : ∃ items, next.out = builder.out ++ items ∧
    List.Forall₂ (Out.Shown env level) items outs
  valid : ∀ out ∈ outs, out.Valid env params after
  nodes : ∀ bytes ∈ after, bytes ∈ store ∨ IsNode env after bytes

variable {env params space level}

theorem Advance.trans {first second third : LevelBuilder (env.rolling params)}
    {store middle final : Store} {inside current : Chunk level}
    {outs others : List (Out level)}
    (left : Advance env params space level first store second middle inside outs)
    (right : Advance env params space level second middle third final current
      others) :
    Advance env params space level first store third final current
      (outs ++ others) := by
  obtain ⟨items, leftOut, leftShown⟩ := left.shown
  obtain ⟨more, rightOut, rightShown⟩ := right.shown
  refine ⟨right.loop, List.Subset.trans left.grows right.grows,
    ⟨items ++ more, by rw [rightOut, leftOut, List.append_assoc],
      List.rel_append leftShown rightShown⟩, ?_, ?_⟩
  · intro out member
    rcases List.mem_append.mp member with early | late
    · exact (left.valid out early).mono right.grows
    · exact right.valid out late
  · intro bytes member
    rcases right.nodes bytes member with old | new
    · exact (left.nodes bytes old).imp_right (IsNode.mono right.grows)
    · exact .inr new

theorem Advance.refl {builder : LevelBuilder (env.rolling params)} {store : Store}
    {current : Chunk level}
    (loop : Loop env params space level builder store current) :
    Advance env params space level builder store builder store current [] :=
  ⟨loop, List.Subset.refl _, ⟨[], by simp, .nil⟩, nofun,
    fun _ member => .inl member⟩

end

end Acetone.Prolly

import Acetone.Prolly.Rebuild

/-!
# The canonical tree of given contents

Chunking the contents, then the references to those chunks, and so on until a
single chunk remains is a function of the contents alone.  `tier` is the entry
list of each level of that construction.  A regular tree holds exactly the
tiers of its contents, so it is the canonical one as soon as its root is no
higher than needed.
-/

namespace Acetone.Prolly

open Acetone.Lib

section

variable (env : Substrate) (params : ChunkParams)

def tier (pairs : List (Bytes × Bytes)) : (level : Nat) → Chunk level
  | 0 => pairs
  | level + 1 => gather (segments (cutAt env params level) (tier pairs level))

/-- A build from scratch gets as far as this level. -/
def Reached (pairs : List (Bytes × Bytes)) (level : Nat) : Prop :=
  level = 0 ∨ 2 ≤ (tier env params pairs level).length

def chunksFrom (remaining level : Nat) (elems : Chunk level) : List Bytes :=
  match remaining with
  | 0 => []
  | remaining + 1 =>
      let runs := segments (cutAt env params level) elems
      runs.map (chunkBytes env.address level) ++
        if runs.length ≤ 1 then []
        else chunksFrom remaining (level + 1) (gather runs)

def canonicalChunks (pairs : List (Bytes × Bytes)) : List Bytes :=
  if pairs = [] then [chunkBytes env.address 0 []]
  else chunksFrom env params maxHeight 0 (tier env params pairs 0)

structure Canonical (pairs : List (Bytes × Bytes)) (top : Nat)
    (chunk : Chunk top) : Prop where
  reached : Reached env params pairs top
  entries : tier env params pairs top = chunk
  single : chunk = [] ∨ segments (cutAt env params top) chunk = [chunk]

variable {env params}

theorem contents_tier (pairs : List (Bytes × Bytes)) (level : Nat) :
    (tier env params pairs level).contents = pairs := by
  induction level with
  | zero => exact Chunk.contents_zero pairs
  | succ level ih =>
      have joined := segments_flatten (cutAt env params level)
        (tier env params pairs level)
      have regrouped : (tier env params pairs (level + 1)).contents =
          Chunk.contents (segments (cutAt env params level)
            (tier env params pairs level)).flatten := by
        rw [Chunk.contents, Chunk.contents, List.flatten_eq_flatMap,
          List.flatMap_assoc]
        rfl
      rw [regrouped, joined, ih]

theorem two_le_of_cutAt {level : Nat} {run : Chunk level}
    (ends : cutAt env params level run = true) : 2 ≤ run.length := by
  have several := two_le_of_cutAfter env params ends
  rwa [List.length_map] at several

theorem tier_halves (pairs : List (Bytes × Bytes)) (level : Nat) :
    2 * (tier env params pairs (level + 1)).length ≤
      (tier env params pairs level).length + 1 :=
  segments_length_le _ (fun _ ends => two_le_of_cutAt ends) _

theorem tier_le_one {pairs : List (Bytes × Bytes)} {low high : Nat}
    (order : low ≤ high) (single : (tier env params pairs low).length ≤ 1) :
    (tier env params pairs high).length ≤ 1 := by
  induction order with
  | refl => exact single
  | @step high _ ih =>
      have halves : 2 * (tier env params pairs high.succ).length ≤
          (tier env params pairs high).length + 1 := tier_halves pairs high
      omega

private theorem Canonical.not_lt {pairs : List (Bytes × Bytes)} {top other : Nat}
    {chunk : Chunk top} {node : Chunk other}
    (left : Canonical env params pairs top chunk)
    (right : Canonical env params pairs other node) : ¬ top < other := by
  intro lower
  have several : 2 ≤ (tier env params pairs other).length := by
    rcases right.reached with zero | several
    · omega
    · exact several
  have next : (tier env params pairs (top + 1)).length ≤ 1 := by
    rw [tier, left.entries]
    rcases left.single with empty | single
    · rw [empty]
      exact Nat.zero_le 1
    · rw [single]
      exact Nat.le_refl 1
  have halves := tier_le_one (Nat.succ_le_of_lt lower) next
  omega

theorem mem_canonicalChunks {pairs : List (Bytes × Bytes)} (filled : pairs ≠ [])
    {level : Nat} (bounded : level < maxHeight)
    (reached : Reached env params pairs level) :
    ∀ run ∈ segments (cutAt env params level) (tier env params pairs level),
      chunkBytes env.address level run ∈ canonicalChunks env params pairs := by
  have upTo : ∀ low, low ≤ level →
      chunksFrom env params (maxHeight - low) low (tier env params pairs low) ⊆
        canonicalChunks env params pairs := by
    intro low order
    induction low with
    | zero =>
        rw [canonicalChunks, if_neg filled]
        exact List.Subset.refl _
    | succ low ih =>
        have inside := ih (by omega)
        have several : ¬ (tier env params pairs (low + 1)).length ≤ 1 := by
          intro single
          rcases reached with zero | several
          · omega
          · have few := tier_le_one order single
            omega
        have more : maxHeight - low = maxHeight - (low + 1) + 1 := by omega
        rw [more, chunksFrom] at inside
        have next : ¬ (segments (cutAt env params low)
          (tier env params pairs low)).length ≤ 1 := several
        simp only [if_neg next] at inside
        exact List.Subset.trans (List.subset_append_right _ _) inside
  intro run member
  apply upTo level (Nat.le_refl level)
  obtain ⟨remaining, more⟩ : ∃ remaining, maxHeight - level = remaining + 1 :=
    ⟨maxHeight - level - 1, by omega⟩
  rw [more, chunksFrom]
  exact List.mem_append_left _ (List.mem_map.mpr ⟨run, member, rfl⟩)

theorem Canonical.unique {pairs : List (Bytes × Bytes)} {top other : Nat}
    {chunk : Chunk top} {node : Chunk other}
    (left : Canonical env params pairs top chunk)
    (right : Canonical env params pairs other node) :
    top = other ∧ HEq chunk node := by
  have same : top = other := by
    rcases Nat.lt_trichotomy top other with lower | same | higher
    · exact absurd lower (left.not_lt right)
    · exact same
    · exact absurd higher (right.not_lt left)
  subst same
  exact ⟨rfl, heq_of_eq (left.entries.symm.trans right.entries)⟩

theorem Regular.flatten_below {level top : Nat} (lower : level ≤ top)
    {isFinal : Bool} {chunk : Chunk top}
    (regular : Regular env params top isFinal chunk) :
    (below level top chunk).flatten = tier env params chunk.contents level := by
  induction level with
  | zero =>
      have all := contents_below lower chunk
      rw [Chunk.contents_zero] at all
      exact all
  | succ level ih =>
      have inside := ih (by omega)
      rw [flatten_below_succ lower, tier, ← inside,
        regular.segments_below (by omega)]

theorem Regular.below_eq {level top : Nat} (lower : level ≤ top)
    {isFinal : Bool} {chunk : Chunk top}
    (regular : Regular env params top isFinal chunk) :
    below level top chunk = segments (cutAt env params level)
      (tier env params chunk.contents level) := by
  rw [← regular.flatten_below lower, regular.segments_below lower]

/-- A regular tree no higher than needed is the canonical one. -/
theorem Regular.canonical {top : Nat} {isFinal : Bool} {chunk : Chunk top}
    (regular : Regular env params top isFinal chunk)
    (minimal : top = 0 ∨ 2 ≤ chunk.length) :
    Canonical env params chunk.contents top chunk := by
  have whole := regular.flatten_below (Nat.le_refl top)
  rw [below_self, List.flatten_singleton] at whole
  have single := regular.segments_below (Nat.le_refl top)
  rw [below_self, List.flatten_singleton] at single
  refine ⟨?_, whole.symm, .inr single⟩
  rw [Reached, ← whole]
  exact minimal

private theorem regular_of_closed {level : Nat} {run : Chunk (level + 1)}
    (closed : Closed (cutAt env params (level + 1)) run)
    (children : ∀ elem ∈ run, Regular env params level false (Elem.chunk elem)) :
    Regular env params (level + 1) false run := by
  obtain ⟨front, last, rfl⟩ : ∃ front last, run = front ++ [last] :=
    ⟨_, _, (List.dropLast_concat_getLast closed.ne_nil).symm⟩
  refine ⟨.inl closed, front, last, rfl, ?_, ?_⟩
  · exact fun elem member => children elem (List.mem_append_left _ member)
  · exact children last (List.mem_append_right _ List.mem_cons_self)

/-- The chunks of every tier are regular, the last one being final. -/
theorem tier_regular {pairs : List (Bytes × Bytes)} (filled : pairs ≠ [])
    (level : Nat) :
    ∃ front last,
      segments (cutAt env params level) (tier env params pairs level) =
        front ++ [last] ∧
      (∀ run ∈ front, Regular env params level false run) ∧
      Regular env params level true last := by
  induction level with
  | zero =>
      obtain ⟨front, last, split, closed, final⟩ :=
        segments_split (cutAt env params 0) filled
      exact ⟨front, last, split, fun run member => .inl (closed run member),
        final.imp_right (fun ends => ⟨rfl, ends⟩)⟩
  | succ level ih =>
      obtain ⟨early, late, below, others, ends⟩ := ih
      have entries : tier env params pairs (level + 1) = early ++ [late] := below
      have some : tier env params pairs (level + 1) ≠ [] := by
        rw [entries]
        exact List.append_ne_nil_of_right_ne_nil _ (List.cons_ne_nil _ _)
      obtain ⟨front, last, split, closed, final⟩ :=
        segments_split (cutAt env params (level + 1)) some
      have joined := segments_flatten (cutAt env params (level + 1))
        (tier env params pairs (level + 1))
      rw [split, List.flatten_append, List.flatten_singleton, entries] at joined
      have lastFilled : last ≠ [] := final.elim (Closed.ne_nil _) And.right
      obtain ⟨inner, tail, rfl⟩ : ∃ inner tail, last = inner ++ [tail] :=
        ⟨_, _, (List.dropLast_concat_getLast lastFilled).symm⟩
      rw [← List.append_assoc] at joined
      obtain ⟨rfl, sameLast⟩ := List.append_inj' joined rfl
      cases sameLast
      refine ⟨front, _, split, ?_, ?_, inner, _, rfl, ?_, ends⟩
      · intro run member
        exact regular_of_closed (closed run member) (fun elem inside =>
          others elem (List.mem_append_left _
            (List.mem_flatten.mpr ⟨run, member, inside⟩)))
      · exact final.imp_right (fun ends => ⟨rfl, ends⟩)
      · exact fun elem inside => others elem (List.mem_append_right _ inside)

end

end Acetone.Prolly

import Acetone.Lib.Iteration
import Acetone.Lib.SortedDiff
import Acetone.Prolly.Tree

/-!
# Structural diff between two roots

The walk keeps a stack of regions, each a pair of key-aligned node runs of one
level.  Children with equal addresses are skipped; each mismatched stretch
becomes a region one level down; a region of leaves is merged entry by entry.
`Diff.turn` is one turn of the loops in `next`.
-/

namespace Acetone.Prolly

open Acetone.Lib

abbrev DiffEntry := Change Bytes Bytes

/-- A key-aligned pair of node runs of one level; `pseudo` marks root
references, whose last keys are placeholders. -/
structure Region where
  level : Nat
  a : List NodeRef
  b : List NodeRef
  pseudo : Bool

/-- The key-merge of a level-zero region under way. -/
structure LeafMerge where
  aRefs : List NodeRef
  bRefs : List NodeRef
  a : List (Bytes × Bytes)
  b : List (Bytes × Bytes)
  pseudo : Bool

def LeafMerge.new (region : Region) : LeafMerge :=
  ⟨region.a, region.b, [], [], region.pseudo⟩

/-- A diff under way; the earliest pending region comes first. -/
structure Diff where
  regions : List Region
  leaves : Option LeafMerge
  done : Bool

/-- Which side's run of the mismatched stretch is to grow; neither when both
end at the same key. -/
def extendsA (ra rb : List NodeRef) : Option Bool :=
  match ra.getLast?, rb.getLast? with
  | none, _ => some true
  | some _, none => some false
  | some x, some y =>
      if x.lastKey = y.lastKey then none else some (x.lastKey < y.lastKey)

/-- The inner loop of `align_regions`: grow the stretch until both runs end at
the same key or both sides are exhausted; a side that is exhausted lets the
other grow. -/
def fillRegion (ra rb a b : List NodeRef) :
    List NodeRef × List NodeRef × List NodeRef × List NodeRef :=
  match extendsA ra rb with
  | none => (ra, rb, a, b)
  | some extendA =>
      match a, b with
      | [], [] => (ra, rb, [], [])
      | x :: a, [] => fillRegion (ra ++ [x]) rb a []
      | [], y :: b => fillRegion ra (rb ++ [y]) [] b
      | x :: a, y :: b =>
          if extendA then fillRegion (ra ++ [x]) rb a (y :: b)
          else fillRegion ra (rb ++ [y]) (x :: a) b
termination_by a.length + b.length

/-- The stretch and what is left make up the runs, and the stretch ends aligned
or with the runs. -/
theorem fillRegion_spec (ra rb a b : List NodeRef) :
    (fillRegion ra rb a b).1 ++ (fillRegion ra rb a b).2.2.1 = ra ++ a ∧
      (fillRegion ra rb a b).2.1 ++ (fillRegion ra rb a b).2.2.2 = rb ++ b ∧
      (extendsA (fillRegion ra rb a b).1 (fillRegion ra rb a b).2.1 = none ∨
        (fillRegion ra rb a b).2.2 = ([], [])) := by
  induction ra, rb, a, b using fillRegion.induct with
  | case1 ra rb a b aligned =>
      rw [fillRegion, aligned]
      exact ⟨rfl, rfl, .inl aligned⟩
  | case2 ra rb extendA grows =>
      rw [fillRegion, grows]
      exact ⟨rfl, rfl, .inr rfl⟩
  | case3 ra rb extendA grows x a ih =>
      rw [fillRegion, grows]
      rw [List.append_assoc] at ih
      exact ih
  | case4 ra rb extendA grows y b ih =>
      rw [fillRegion, grows]
      rw [List.append_assoc] at ih
      exact ih
  | case5 ra rb x a y b grows ih =>
      rw [fillRegion, grows]
      rw [List.append_assoc] at ih
      exact ih
  | case6 ra rb extendA grows x a y b notA ih =>
      rw [fillRegion, grows]
      simp only [if_neg notA]
      rw [List.append_assoc] at ih
      exact ih

private theorem ne_nil_of_aligned {ra rb : List NodeRef}
    (aligned : extendsA ra rb = none) : ra ≠ [] := by
  rintro rfl
  cases aligned

theorem fillRegion_shrinks {a b : List NodeRef} (some : a ≠ [] ∨ b ≠ []) :
    (fillRegion [] [] a b).2.2.1.length + (fillRegion [] [] a b).2.2.2.length <
      a.length + b.length := by
  obtain ⟨aWhole, bWhole, aligned | exhausted⟩ := fillRegion_spec [] [] a b
  · have filled := List.length_pos_iff.mpr (ne_nil_of_aligned aligned)
    have aLength := congrArg List.length aWhole
    have bLength := congrArg List.length bWhole
    rw [List.length_append, List.nil_append] at aLength bLength
    omega
  · rw [exhausted]
    have positive : 0 < a.length ∨ 0 < b.length :=
      some.imp List.length_pos_iff.mpr List.length_pos_iff.mpr
    show 0 + 0 < _
    omega

/-- Skip children with equal addresses and group each mismatched stretch into
a region. -/
def alignRegions (level : Nat) (a b : List NodeRef) : List Region :=
  match a, b with
  | [], [] => []
  | x :: a, y :: b =>
      if x.hash = y.hash then alignRegions level a b
      else
        let filled := fillRegion [] [] (x :: a) (y :: b)
        ⟨level, filled.1, filled.2.1, false⟩ ::
          alignRegions level filled.2.2.1 filled.2.2.2
  | x :: a, [] =>
      let filled := fillRegion [] [] (x :: a) []
      ⟨level, filled.1, filled.2.1, false⟩ ::
        alignRegions level filled.2.2.1 filled.2.2.2
  | [], y :: b =>
      let filled := fillRegion [] [] [] (y :: b)
      ⟨level, filled.1, filled.2.1, false⟩ ::
        alignRegions level filled.2.2.1 filled.2.2.2
termination_by a.length + b.length
decreasing_by
  · simp only [List.length_cons]
    omega
  · exact fillRegion_shrinks (.inl (List.cons_ne_nil _ _))
  · exact fillRegion_shrinks (.inl (List.cons_ne_nil _ _))
  · exact fillRegion_shrinks (.inr (List.cons_ne_nil _ _))

section

variable (env : Substrate) (store : Store)

/-- The last key a reference claims, unless it is a placeholder. -/
def expectLast (pseudo : Bool) (ref : NodeRef) : Option Bytes :=
  if pseudo then none else some ref.lastKey

def expand (refs : List NodeRef) (level : Nat) (pseudo : Bool) :
    Except ProllyError (List NodeRef) :=
  match refs with
  | [] => .ok []
  | ref :: refs => do
      match ← readNode env.address store ref.hash level (expectLast pseudo ref)
          none with
      | .inner children => do
          let others ← expand refs level pseudo
          .ok (children ++ others)
      | .leaf _ => .error (corruptNode "leaf above level 0")

/-- Expand the run of a taller tree down to `level`, which lies `above` levels
under it. -/
def expandDown (above level : Nat) (refs : List NodeRef) :
    Except ProllyError (List NodeRef) :=
  match above with
  | 0 => .ok refs
  | above + 1 => do
      let refs ← expand env store refs (level + (above + 1)) true
      expandDown above level refs

def diff (a b : Root) : Except ProllyError Diff :=
  if a.hash = b.hash then
    .ok ⟨[], none, true⟩
  else do
    let level := min a.topLevel b.topLevel
    let ra ← expandDown env store (a.topLevel - level) level [⟨[], a.hash⟩]
    let rb ← expandDown env store (b.topLevel - level) level [⟨[], b.hash⟩]
    .ok ⟨[⟨level, ra, rb, true⟩], none, false⟩

/-- Top up one side's buffer from its next leaf, if needed and possible. -/
def topUp (pseudo : Bool) (buf : List (Bytes × Bytes)) (refs : List NodeRef) :
    Except ProllyError (List (Bytes × Bytes) × List NodeRef) :=
  match buf, refs with
  | [], ref :: refs => do
      match ← readNode env.address store ref.hash 0 (expectLast pseudo ref)
          none with
      | .leaf entries => topUp pseudo entries refs
      | .inner _ => .error (corruptNode "inner node at level 0")
  | buf, refs => .ok (buf, refs)

/-- What a turn of a leaf merge comes to. -/
inductive MergeTurn where
  | yield (entry : DiffEntry) (leaves : LeafMerge)
  | skip (leaves : LeafMerge)
  | drained

def LeafMerge.compareFronts (leaves : LeafMerge) : MergeTurn :=
  match leaves.a, leaves.b with
  | [], [] => .drained
  | x :: a, [] => .yield ⟨x.1, some x.2, none⟩ { leaves with a }
  | [], y :: b => .yield ⟨y.1, none, some y.2⟩ { leaves with b }
  | x :: a, y :: b =>
      if x.1 < y.1 then .yield ⟨x.1, some x.2, none⟩ { leaves with a }
      else if y.1 < x.1 then .yield ⟨y.1, none, some y.2⟩ { leaves with b }
      else if x.2 = y.2 then .skip { leaves with a, b }
      else .yield ⟨x.1, some x.2, some y.2⟩ { leaves with a, b }

def LeafMerge.turn (leaves : LeafMerge) : Except ProllyError MergeTurn := do
  let (a, aRefs) ← topUp env store leaves.pseudo leaves.a leaves.aRefs
  let (b, bRefs) ← topUp env store leaves.pseudo leaves.b leaves.bRefs
  .ok (LeafMerge.compareFronts { leaves with a, aRefs, b, bRefs })

/-- The regions one level beneath a region. -/
def subRegions (region : Region) (childLevel : Nat) :
    Except ProllyError (List Region) := do
  let ca ← expand env store region.a region.level region.pseudo
  let cb ← expand env store region.b region.level region.pseudo
  .ok (alignRegions childLevel ca cb)

/-- One turn of the loop in `Diff::next_entry`. -/
def Diff.turn (diff : Diff) : Turn Diff DiffEntry ProllyError :=
  if diff.done then .stop diff
  else
    match diff.leaves with
    | some leaves =>
        match leaves.turn env store with
        | .error error => .fail error
        | .ok (.yield entry leaves) => .yield entry { diff with leaves := some leaves }
        | .ok (.skip leaves) => .again { diff with leaves := some leaves }
        | .ok .drained => .again { diff with leaves := none }
    | none =>
        match diff.regions with
        | [] => .stop { diff with done := true }
        | region :: regions =>
            match region.level with
            | 0 => .again { diff with regions, leaves := some (.new region) }
            | childLevel + 1 =>
                match subRegions env store region childLevel with
                | .error error => .fail error
                | .ok subs => .again { diff with regions := subs ++ regions }

end

end Acetone.Prolly

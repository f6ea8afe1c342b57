import Mathlib.Order.Lattice

/-!
# Joining two sorted lists

One pass over two lists in ascending key order pairs up the items whose keys
occur on both sides.
-/

namespace Acetone.Lib

/-- An item without a counterpart, or two items of the same key. -/
inductive Joined (α : Type) where
  | left (item : α)
  | right (item : α)
  | both (first second : α)

def Joined.swap {α : Type} : Joined α → Joined α
  | .left item => .right item
  | .right item => .left item
  | .both first second => .both second first

section

variable {α K : Type} [LinearOrder K] (key : α → K)

def Joined.sortKey : Joined α → K
  | .left item => key item
  | .right item => key item
  | .both first _ => key first

/-- Pair up the items of two ascending lists. -/
def joinSorted : List α → List α → List (Joined α)
  | [], [] => []
  | left :: lefts, [] => .left left :: joinSorted lefts []
  | [], right :: rights => .right right :: joinSorted [] rights
  | left :: lefts, right :: rights =>
      if key left < key right then .left left :: joinSorted lefts (right :: rights)
      else if key right < key left then
        .right right :: joinSorted (left :: lefts) rights
      else .both left right :: joinSorted lefts rights
termination_by lefts rights => lefts.length + rights.length

abbrev AscendingBy (items : List α) : Prop :=
  items.Pairwise (fun first second => key first < key second)

/-- Where a joined item comes from. -/
def Joins (lefts rights : List α) : Joined α → Prop
  | .left item => item ∈ lefts ∧ ∀ other ∈ rights, key other ≠ key item
  | .right item => item ∈ rights ∧ ∀ other ∈ lefts, key other ≠ key item
  | .both first second => first ∈ lefts ∧ second ∈ rights ∧ key first = key second

variable {key}

private theorem above_cons {item : α} {items : List α} {low : K}
    (lower : low < key item) (ascending : AscendingBy key (item :: items)) :
    ∀ other ∈ item :: items, low < key other := by
  intro other member
  rcases List.mem_cons.mp member with rfl | later
  · exact lower
  · exact lt_trans lower ((List.pairwise_cons.mp ascending).1 other later)

theorem mem_joinSorted {lefts rights : List α}
    (leftAscending : AscendingBy key lefts)
    (rightAscending : AscendingBy key rights) {joined : Joined α} :
    joined ∈ joinSorted key lefts rights ↔ Joins key lefts rights joined := by
  induction lefts, rights using joinSorted.induct key with
  | case1 =>
      rw [joinSorted]
      cases joined <;> simp [Joins]
  | case2 left lefts ih =>
      rw [joinSorted, List.mem_cons, ih (List.Pairwise.of_cons leftAscending) .nil]
      cases joined <;> simp [Joins]
  | case3 right rights ih =>
      rw [joinSorted, List.mem_cons, ih .nil (List.Pairwise.of_cons rightAscending)]
      cases joined <;> simp [Joins]
  | case4 left lefts right rights less ih =>
      have apart : ∀ other ∈ right :: rights, key other ≠ key left :=
        fun other member => ne_of_gt (above_cons less rightAscending other member)
      rw [joinSorted, if_pos less, List.mem_cons,
        ih (List.Pairwise.of_cons leftAscending) rightAscending]
      cases joined with
      | left item => grind [Joins]
      | right item => grind [Joins]
      | both first second => grind [Joins]
  | case5 left lefts right rights notLess greater ih =>
      have apart : ∀ other ∈ left :: lefts, key other ≠ key right :=
        fun other member => ne_of_gt (above_cons greater leftAscending other member)
      rw [joinSorted, if_neg notLess, if_pos greater, List.mem_cons,
        ih leftAscending (List.Pairwise.of_cons rightAscending)]
      cases joined with
      | left item => grind [Joins]
      | right item => grind [Joins]
      | both first second => grind [Joins]
  | case6 left lefts right rights notLess notGreater ih =>
      have same : key left = key right :=
        le_antisymm (not_lt.mp notGreater) (not_lt.mp notLess)
      have leftApart : ∀ other ∈ lefts, key other ≠ key left :=
        fun other member =>
          ne_of_gt ((List.pairwise_cons.mp leftAscending).1 other member)
      have rightApart : ∀ other ∈ rights, key other ≠ key right :=
        fun other member =>
          ne_of_gt ((List.pairwise_cons.mp rightAscending).1 other member)
      rw [joinSorted, if_neg notLess, if_neg notGreater, List.mem_cons,
        ih (List.Pairwise.of_cons leftAscending)
          (List.Pairwise.of_cons rightAscending)]
      cases joined with
      | left item => grind [Joins]
      | right item => grind [Joins]
      | both first second => grind [Joins]

private theorem above_of_mem_joinSorted {low : K} {lefts rights : List α}
    (leftAscending : AscendingBy key lefts)
    (rightAscending : AscendingBy key rights)
    (leftAbove : ∀ item ∈ lefts, low < key item)
    (rightAbove : ∀ item ∈ rights, low < key item) :
    ∀ joined ∈ joinSorted key lefts rights, low < joined.sortKey key := by
  intro joined member
  have joins := (mem_joinSorted leftAscending rightAscending).mp member
  cases joined with
  | left item => exact leftAbove item joins.1
  | right item => exact rightAbove item joins.1
  | both first second => exact leftAbove first joins.1

theorem joinSorted_ascending {lefts rights : List α}
    (leftAscending : AscendingBy key lefts)
    (rightAscending : AscendingBy key rights) :
    AscendingBy (Joined.sortKey key) (joinSorted key lefts rights) := by
  induction lefts, rights using joinSorted.induct key with
  | case1 =>
      rw [joinSorted]
      exact List.Pairwise.nil
  | case2 left lefts ih =>
      obtain ⟨above, rest⟩ := List.pairwise_cons.mp leftAscending
      rw [joinSorted]
      exact List.pairwise_cons.mpr
        ⟨above_of_mem_joinSorted rest .nil above nofun, ih rest .nil⟩
  | case3 right rights ih =>
      obtain ⟨above, rest⟩ := List.pairwise_cons.mp rightAscending
      rw [joinSorted]
      exact List.pairwise_cons.mpr
        ⟨above_of_mem_joinSorted .nil rest nofun above, ih .nil rest⟩
  | case4 left lefts right rights less ih =>
      obtain ⟨above, rest⟩ := List.pairwise_cons.mp leftAscending
      rw [joinSorted, if_pos less]
      exact List.pairwise_cons.mpr
        ⟨above_of_mem_joinSorted rest rightAscending above
          (above_cons less rightAscending), ih rest rightAscending⟩
  | case5 left lefts right rights notLess greater ih =>
      obtain ⟨above, rest⟩ := List.pairwise_cons.mp rightAscending
      rw [joinSorted, if_neg notLess, if_pos greater]
      exact List.pairwise_cons.mpr
        ⟨above_of_mem_joinSorted leftAscending rest
          (above_cons greater leftAscending) above, ih leftAscending rest⟩
  | case6 left lefts right rights notLess notGreater ih =>
      have same : key left = key right :=
        le_antisymm (not_lt.mp notGreater) (not_lt.mp notLess)
      obtain ⟨leftAbove, leftRest⟩ := List.pairwise_cons.mp leftAscending
      obtain ⟨rightAbove, rightRest⟩ := List.pairwise_cons.mp rightAscending
      rw [← same] at rightAbove
      rw [joinSorted, if_neg notLess, if_neg notGreater]
      exact List.pairwise_cons.mpr
        ⟨above_of_mem_joinSorted leftRest rightRest leftAbove rightAbove,
          ih leftRest rightRest⟩

theorem joinSorted_swap (lefts rights : List α) :
    joinSorted key rights lefts = (joinSorted key lefts rights).map Joined.swap := by
  induction lefts, rights using joinSorted.induct key with
  | case1 => rw [joinSorted, List.map_nil]
  | case2 left lefts ih => rw [joinSorted, joinSorted, ih, List.map_cons, Joined.swap]
  | case3 right rights ih =>
      rw [joinSorted, joinSorted, ih, List.map_cons, Joined.swap]
  | case4 left lefts right rights less ih =>
      rw [joinSorted, joinSorted, if_pos less, if_neg (lt_asymm less), if_pos less, ih,
        List.map_cons, Joined.swap]
  | case5 left lefts right rights notLess greater ih =>
      rw [joinSorted, joinSorted, if_pos greater, if_neg notLess, if_pos greater, ih,
        List.map_cons, Joined.swap]
  | case6 left lefts right rights notLess notGreater ih =>
      rw [joinSorted, joinSorted, if_neg notLess, if_neg notGreater, if_neg notLess,
        if_neg notGreater, ih, List.map_cons, Joined.swap]

end

end Acetone.Lib

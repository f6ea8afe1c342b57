import Acetone.Lib.SortedMap

/-!
# Merging a sorted list with sorted updates

One pass over an ascending entry list and an ascending update list applies the
updates.  The result depends only on lookups, so the pass may be cut at any key
and its parts computed apart.
-/

namespace Acetone.Lib

section

variable {K V : Type} [LinearOrder K]

abbrev AscendingOps (ops : List (MapOp K V)) : Prop :=
  ops.Pairwise (fun left right => left.key < right.key)

def MapOp.entries : MapOp K V → List (K × V)
  | .put key value => [(key, value)]
  | .delete _ => []

def mergeSorted : List (K × V) → List (MapOp K V) → List (K × V)
  | [], ops => ops.flatMap MapOp.entries
  | entry :: old, [] => entry :: old
  | entry :: old, op :: ops =>
      if entry.1 < op.key then entry :: mergeSorted old (op :: ops)
      else if entry.1 = op.key then op.entries ++ mergeSorted old ops
      else op.entries ++ mergeSorted (entry :: old) ops
termination_by old ops => old.length + ops.length

theorem mergeSorted_nil (old : List (K × V)) : mergeSorted old [] = old := by
  cases old <;> rw [mergeSorted]
  rfl

omit [LinearOrder K] in
theorem MapOp.key_of_mem_entries {op : MapOp K V} {entry : K × V}
    (member : entry ∈ op.entries) : entry.1 = op.key := by
  cases op with
  | put key value => rw [List.mem_singleton.mp member]; rfl
  | delete key => cases member

theorem mem_mergeSorted {old : List (K × V)} {ops : List (MapOp K V)}
    {entry : K × V} (member : entry ∈ mergeSorted old ops) :
    entry ∈ old ∨ ∃ op ∈ ops, entry ∈ op.entries := by
  induction old, ops using mergeSorted.induct with
  | case1 ops =>
      rw [mergeSorted] at member
      exact .inr (List.mem_flatMap.mp member)
  | case2 head old =>
      rw [mergeSorted] at member
      exact .inl member
  | case3 head old op ops before ih =>
      rw [mergeSorted, if_pos before] at member
      rcases List.mem_cons.mp member with rfl | later
      · exact .inl List.mem_cons_self
      · exact (ih later).imp_left (List.mem_cons_of_mem _)
  | case4 head old op ops notBefore same ih =>
      rw [mergeSorted, if_neg notBefore, if_pos same] at member
      rcases List.mem_append.mp member with here | later
      · exact .inr ⟨op, List.mem_cons_self, here⟩
      · rcases ih later with inside | ⟨other, among, found⟩
        · exact .inl (List.mem_cons_of_mem _ inside)
        · exact .inr ⟨other, List.mem_cons_of_mem _ among, found⟩
  | case5 head old op ops notBefore notSame ih =>
      rw [mergeSorted, if_neg notBefore, if_neg notSame] at member
      rcases List.mem_append.mp member with here | later
      · exact .inr ⟨op, List.mem_cons_self, here⟩
      · rcases ih later with inside | ⟨other, among, found⟩
        · exact .inl inside
        · exact .inr ⟨other, List.mem_cons_of_mem _ among, found⟩

private theorem above_of_mem_mergeSorted {low : K} {old : List (K × V)}
    {ops : List (MapOp K V)} (oldAbove : ∀ entry ∈ old, low < entry.1)
    (opsAbove : ∀ op ∈ ops, low < op.key) :
    ∀ entry ∈ mergeSorted old ops, low < entry.1 := by
  intro entry member
  rcases mem_mergeSorted member with inside | ⟨op, among, found⟩
  · exact oldAbove entry inside
  · rw [MapOp.key_of_mem_entries found]
    exact opsAbove op among

private theorem ascending_entries_append {op : MapOp K V} {rest : List (K × V)}
    (ascending : Ascending rest) (above : ∀ entry ∈ rest, op.key < entry.1) :
    Ascending (op.entries ++ rest) := by
  cases op with
  | put key value => exact Ascending.cons_iff.mpr ⟨above, ascending⟩
  | delete key => exact ascending

theorem mergeSorted_ascending {old : List (K × V)} {ops : List (MapOp K V)}
    (oldAscending : Ascending old) (opsAscending : AscendingOps ops) :
    Ascending (mergeSorted old ops) := by
  induction old, ops using mergeSorted.induct with
  | case1 ops =>
      rw [mergeSorted]
      induction ops with
      | nil => exact .nil
      | cons op ops ih =>
          obtain ⟨above, rest⟩ := List.pairwise_cons.mp opsAscending
          rw [List.flatMap_cons]
          refine ascending_entries_append (ih rest) ?_
          intro entry member
          obtain ⟨other, among, found⟩ := List.mem_flatMap.mp member
          rw [MapOp.key_of_mem_entries found]
          exact above other among
  | case2 head old =>
      rw [mergeSorted]
      exact oldAscending
  | case3 head old op ops before ih =>
      rw [mergeSorted, if_pos before]
      obtain ⟨above, rest⟩ := Ascending.cons_iff.mp oldAscending
      refine Ascending.cons_iff.mpr ⟨?_, ih rest opsAscending⟩
      apply above_of_mem_mergeSorted above
      intro other among
      rcases List.mem_cons.mp among with rfl | later
      · exact before
      · exact lt_trans before ((List.pairwise_cons.mp opsAscending).1 other later)
  | case4 head old op ops notBefore same ih =>
      rw [mergeSorted, if_neg notBefore, if_pos same]
      obtain ⟨above, rest⟩ := Ascending.cons_iff.mp oldAscending
      obtain ⟨opsAbove, opsRest⟩ := List.pairwise_cons.mp opsAscending
      exact ascending_entries_append (ih rest opsRest)
        (above_of_mem_mergeSorted (same ▸ above) opsAbove)
  | case5 head old op ops notBefore notSame ih =>
      rw [mergeSorted, if_neg notBefore, if_neg notSame]
      obtain ⟨opsAbove, opsRest⟩ := List.pairwise_cons.mp opsAscending
      have first : op.key < head.1 :=
        lt_of_le_of_ne (not_lt.mp notBefore) (Ne.symm notSame)
      refine ascending_entries_append (ih oldAscending opsRest)
        (above_of_mem_mergeSorted ?_ opsAbove)
      intro entry among
      rcases List.mem_cons.mp among with rfl | later
      · exact first
      · exact lt_trans first ((Ascending.cons_iff.mp oldAscending).1 entry later)

/-- What is under a key after the updates, given what was there before. -/
def effect (ops : List (MapOp K V)) (query : K) (old : Option V) : Option V :=
  match lastFor MapOp.key query ops with
  | some op => op.outcome
  | none => old

theorem effect_cons {op : MapOp K V} {ops : List (MapOp K V)}
    (ascending : AscendingOps (op :: ops)) (query : K) (old : Option V) :
    effect (op :: ops) query old =
      if op.key = query then op.outcome else effect ops query old := by
  rw [effect, lastFor_cons_of_ascending _ ascending]
  split
  · next found =>
      split at found
      · next same => rw [if_pos same, Option.some.inj found]
      · next other => rw [if_neg other, effect, found]
  · next found =>
      split at found
      · cases found
      · next other => rw [if_neg other, effect, found]

theorem effect_append (first second : List (MapOp K V)) (query : K)
    (old : Option V) :
    effect (first ++ second) query old =
      effect second query (effect first query old) := by
  have last : lastFor MapOp.key query (first ++ second) =
      (lastFor MapOp.key query second).or (lastFor MapOp.key query first) := by
    simp only [lastFor_eq_filter, List.filter_append, List.getLast?_append]
  rw [effect, effect, effect, last]
  cases lastFor MapOp.key query second <;> rfl

theorem effect_of_absent {ops : List (MapOp K V)} {query : K}
    (absent : ∀ op ∈ ops, op.key ≠ query) (old : Option V) :
    effect ops query old = old := by
  rw [effect, (lastFor_eq_none MapOp.key).mpr absent]

theorem effect_of_mem {ops : List (MapOp K V)} (ascending : AscendingOps ops)
    {op : MapOp K V} (member : op ∈ ops) (old : Option V) :
    effect ops op.key old = op.outcome := by
  induction ops with
  | nil => cases member
  | cons head ops ih =>
      rw [effect_cons ascending]
      rcases List.mem_cons.mp member with rfl | later
      · rw [if_pos rfl]
      · obtain ⟨above, rest⟩ := List.pairwise_cons.mp ascending
        rw [if_neg (above op later).ne, ih rest later]

theorem SortedMap.get_applyAll_effect (map : SortedMap K V)
    (ops : List (MapOp K V)) (query : K) :
    (map.applyAll ops).get query = effect ops query (map.get query) :=
  map.get_applyAll ops query

private theorem lookup_entries_append {op : MapOp K V} {rest : List (K × V)}
    (above : ∀ entry ∈ rest, op.key < entry.1) (query : K) :
    lookup query (op.entries ++ rest) =
      if op.key = query then op.outcome else lookup query rest := by
  cases op with
  | put key value => exact lookup_cons query (key, value) rest
  | delete key =>
      show lookup query rest = if key = query then none else lookup query rest
      split
      · next same =>
          rw [lookup_eq_none]
          intro entry member
          exact same ▸ (above entry member).ne'
      · rfl

theorem lookup_mergeSorted {old : List (K × V)} {ops : List (MapOp K V)}
    (oldAscending : Ascending old) (opsAscending : AscendingOps ops) (query : K) :
    lookup query (mergeSorted old ops) = effect ops query (lookup query old) := by
  induction old, ops using mergeSorted.induct with
  | case1 ops =>
      rw [mergeSorted]
      induction ops with
      | nil => rfl
      | cons op ops ih =>
          obtain ⟨above, rest⟩ := List.pairwise_cons.mp opsAscending
          rw [List.flatMap_cons, effect_cons opsAscending, ← ih rest]
          apply lookup_entries_append
          intro entry member
          obtain ⟨other, among, found⟩ := List.mem_flatMap.mp member
          rw [MapOp.key_of_mem_entries found]
          exact above other among
  | case2 head old =>
      rw [mergeSorted]
      rfl
  | case3 head old op ops before ih =>
      rw [mergeSorted, if_pos before, lookup_cons, lookup_cons,
        ih (Ascending.tail oldAscending) opsAscending]
      split
      · next same =>
          rw [effect_of_absent]
          intro other among
          rcases List.mem_cons.mp among with rfl | later
          · exact same ▸ before.ne'
          · exact same ▸ (lt_trans before
              ((List.pairwise_cons.mp opsAscending).1 other later)).ne'
      · rfl
  | case4 head old op ops notBefore same ih =>
      obtain ⟨above, rest⟩ := Ascending.cons_iff.mp oldAscending
      obtain ⟨opsAbove, opsRest⟩ := List.pairwise_cons.mp opsAscending
      rw [mergeSorted, if_neg notBefore, if_pos same, lookup_entries_append
        (above_of_mem_mergeSorted (same ▸ above) opsAbove), ih rest opsRest,
        effect_cons opsAscending, lookup_cons, same]
      split <;> rfl
  | case5 head old op ops notBefore notSame ih =>
      obtain ⟨opsAbove, opsRest⟩ := List.pairwise_cons.mp opsAscending
      have first : op.key < head.1 :=
        lt_of_le_of_ne (not_lt.mp notBefore) (Ne.symm notSame)
      have above : ∀ entry ∈ head :: old, op.key < entry.1 := by
        intro entry among
        rcases List.mem_cons.mp among with rfl | later
        · exact first
        · exact lt_trans first ((Ascending.cons_iff.mp oldAscending).1 entry later)
      rw [mergeSorted, if_neg notBefore, if_neg notSame, lookup_entries_append
        (above_of_mem_mergeSorted above opsAbove), ih oldAscending opsRest,
        effect_cons opsAscending]

/-- The pass computes what applying the updates one by one computes. -/
theorem mergeSorted_eq_applyAll (map : SortedMap K V) {ops : List (MapOp K V)}
    (ascending : AscendingOps ops) :
    mergeSorted map.entries ops = (map.applyAll ops).entries := by
  apply (mergeSorted_ascending map.ascending ascending).ext
    (map.applyAll ops).ascending
  intro key
  rw [lookup_mergeSorted map.ascending ascending]
  exact (map.get_applyAll ops key).symm

/-- The pass may be cut at a key. -/
theorem mergeSorted_append {left right : List (K × V)}
    {mine rest : List (MapOp K V)} (oldAscending : Ascending (left ++ right))
    (opsAscending : AscendingOps (mine ++ rest)) {bound : K}
    (leftUpTo : ∀ entry ∈ left, entry.1 ≤ bound)
    (rightAbove : ∀ entry ∈ right, bound < entry.1)
    (mineUpTo : ∀ op ∈ mine, op.key ≤ bound)
    (restAbove : ∀ op ∈ rest, bound < op.key) :
    mergeSorted (left ++ right) (mine ++ rest) =
      mergeSorted left mine ++ mergeSorted right rest := by
  obtain ⟨leftAscending, rightAscending, -⟩ := Ascending.append_iff.mp oldAscending
  obtain ⟨mineAscending, restAscending, -⟩ := List.pairwise_append.mp opsAscending
  have upTo : ∀ entry ∈ mergeSorted left mine, entry.1 ≤ bound := by
    intro entry member
    rcases mem_mergeSorted member with inside | ⟨op, among, found⟩
    · exact leftUpTo entry inside
    · exact MapOp.key_of_mem_entries found ▸ mineUpTo op among
  have above := above_of_mem_mergeSorted rightAbove restAbove
  have joined : Ascending (mergeSorted left mine ++ mergeSorted right rest) :=
    Ascending.append_iff.mpr
      ⟨mergeSorted_ascending leftAscending mineAscending,
        mergeSorted_ascending rightAscending restAscending,
        fun first inLeft second inRight =>
          lt_of_le_of_lt (upTo first inLeft) (above second inRight)⟩
  apply (mergeSorted_ascending oldAscending opsAscending).ext joined
  intro key
  rw [lookup_mergeSorted oldAscending opsAscending, lookup_append, lookup_append,
    lookup_mergeSorted leftAscending mineAscending,
    lookup_mergeSorted rightAscending restAscending]
  rw [effect_append]
  rcases le_or_gt key bound with inside | outside
  · have none : lookup key right = none := by
      rw [lookup_eq_none]
      exact fun entry member => (lt_of_le_of_lt inside (rightAbove entry member)).ne'
    have absent : ∀ op ∈ rest, op.key ≠ key :=
      fun op member => (lt_of_le_of_lt inside (restAbove op member)).ne'
    rw [none, effect_of_absent absent, effect_of_absent absent, Option.or_none,
      Option.or_none]
  · have none : lookup key left = none := by
      rw [lookup_eq_none]
      exact fun entry member => (lt_of_le_of_lt (leftUpTo entry member) outside).ne
    have absent : ∀ op ∈ mine, op.key ≠ key :=
      fun op member => (lt_of_le_of_lt (mineUpTo op member) outside).ne
    rw [none, effect_of_absent absent, effect_of_absent absent, Option.none_or,
      Option.none_or]

theorem drop_takeWhile_above {ops : List (MapOp K V)}
    (ascending : AscendingOps ops) (bound : K) :
    ∀ op ∈ ops.drop (ops.takeWhile (fun op => op.key ≤ bound)).length,
      bound < op.key := by
  induction ops with
  | nil => nofun
  | cons head ops ih =>
      obtain ⟨above, rest⟩ := List.pairwise_cons.mp ascending
      rw [List.takeWhile_cons]
      split
      · exact ih rest
      · next beyond =>
          have beyondHead : bound < head.key := by simpa using beyond
          intro op member
          rcases List.mem_cons.mp member with rfl | later
          · exact beyondHead
          · exact lt_trans beyondHead (above op later)

end

end Acetone.Lib

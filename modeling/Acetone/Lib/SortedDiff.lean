import Acetone.Lib.SortedMap

/-!
# Differences of sorted lists

One pass over two ascending lists finds the keys on which they differ.  The
result is determined by lookups, so two lists may be cut at a common key and
compared part by part.
-/

namespace Acetone.Lib

/-- A key on which two maps differ, with what each holds under it. -/
structure Change (K V : Type) where
  key : K
  before : Option V
  after : Option V
deriving DecidableEq

section

variable {K V : Type} [LinearOrder K]

/-- Two lists differ exactly like this on the key of a change. -/
def Differs (lefts rights : List (K × V)) (change : Change K V) : Prop :=
  lookup change.key lefts = change.before ∧
    lookup change.key rights = change.after ∧ change.before ≠ change.after

private theorem lookup_tail {entry : K × V} {rest : List (K × V)}
    (ascending : Ascending (entry :: rest)) : lookup entry.1 rest = none := by
  rw [lookup_eq_none]
  exact fun later member =>
    ((Ascending.cons_iff.mp ascending).1 later member).ne'

private theorem lookup_above {key : K} {entries : List (K × V)}
    (above : ∀ entry ∈ entries, key < entry.1) : lookup key entries = none := by
  rw [lookup_eq_none]
  exact fun entry member => (above entry member).ne'

private theorem lookup_below {bound key : K} {entries : List (K × V)}
    (upTo : ∀ entry ∈ entries, entry.1 ≤ bound) (beyond : bound < key) :
    lookup key entries = none := by
  rw [lookup_eq_none]
  exact fun entry member => (lt_of_le_of_lt (upTo entry member) beyond).ne

private theorem above_head {key : K} {entry : K × V} {rest : List (K × V)}
    (lower : key < entry.1) (ascending : Ascending (entry :: rest)) :
    ∀ other ∈ entry :: rest, key < other.1 := by
  intro other member
  rcases List.mem_cons.mp member with rfl | later
  · exact lower
  · exact lt_trans lower ((Ascending.cons_iff.mp ascending).1 other later)

/-- Setting one key apart: the lists differ on it, or on another key. -/
private theorem differs_step {key : K} {lefts rights moreLefts moreRights : List (K × V)}
    (leftSame : ∀ query, key ≠ query → lookup query lefts = lookup query moreLefts)
    (rightSame : ∀ query, key ≠ query →
      lookup query rights = lookup query moreRights)
    (leftGone : lookup key moreLefts = none)
    (rightGone : lookup key moreRights = none) {change : Change K V} :
    Differs lefts rights change ↔
      (change = ⟨key, lookup key lefts, lookup key rights⟩ ∧
        lookup key lefts ≠ lookup key rights) ∨
      Differs moreLefts moreRights change := by
  obtain ⟨query, before, after⟩ := change
  by_cases same : key = query
  · subst same
    simp only [Differs]
    constructor
    · rintro ⟨rfl, rfl, differ⟩
      exact .inl ⟨rfl, differ⟩
    · rintro (⟨equal, differ⟩ | ⟨none, alsoNone, differ⟩)
      · cases equal
        exact ⟨rfl, rfl, differ⟩
      · exact absurd ((none.symm.trans leftGone).trans
          (rightGone.symm.trans alsoNone)) differ
  · rw [Differs, Differs, leftSame query same, rightSame query same]
    constructor
    · exact .inr
    · rintro (⟨equal, -⟩ | differs)
      · cases equal
        exact absurd rfl same
      · exact differs

private theorem lookup_of_ne {entry : K × V} {rest : List (K × V)} :
    ∀ query, entry.1 ≠ query → lookup query (entry :: rest) = lookup query rest :=
  fun query other => (lookup_cons query entry rest).trans (if_neg other)

private theorem lookup_head (entry : K × V) (rest : List (K × V)) :
    lookup entry.1 (entry :: rest) = some entry.2 :=
  (lookup_cons entry.1 entry rest).trans (if_pos rfl)

private theorem changes_ext {first second : List (Change K V)}
    (firstAscending : first.Pairwise (fun a b => a.key < b.key))
    (secondAscending : second.Pairwise (fun a b => a.key < b.key))
    (same : ∀ change, change ∈ first ↔ change ∈ second) : first = second := by
  have nodup : ∀ {changes : List (Change K V)},
      changes.Pairwise (fun a b => a.key < b.key) → changes.Nodup := by
    intro changes ascending
    apply ascending.imp
    intro left right lower equal
    exact lower.ne (congrArg Change.key equal)
  have perm := (List.perm_ext_iff_of_nodup (nodup firstAscending)
    (nodup secondAscending)).mpr same
  exact perm.eq_of_pairwise
    (fun a b _ _ lower higher => absurd (lt_trans lower higher) (lt_irrefl _))
    firstAscending secondAscending

section

variable [DecidableEq V]

/-- The differences of two ascending lists, in key order. -/
def changes : List (K × V) → List (K × V) → List (Change K V)
  | [], [] => []
  | left :: lefts, [] => ⟨left.1, some left.2, none⟩ :: changes lefts []
  | [], right :: rights => ⟨right.1, none, some right.2⟩ :: changes [] rights
  | left :: lefts, right :: rights =>
      if left.1 < right.1 then
        ⟨left.1, some left.2, none⟩ :: changes lefts (right :: rights)
      else if right.1 < left.1 then
        ⟨right.1, none, some right.2⟩ :: changes (left :: lefts) rights
      else if left.2 = right.2 then changes lefts rights
      else ⟨left.1, some left.2, some right.2⟩ :: changes lefts rights
termination_by lefts rights => lefts.length + rights.length

theorem mem_changes {lefts rights : List (K × V)}
    (leftAscending : Ascending lefts) (rightAscending : Ascending rights)
    {change : Change K V} :
    change ∈ changes lefts rights ↔ Differs lefts rights change := by
  induction lefts, rights using changes.induct with
  | case1 =>
      rw [changes]
      constructor
      · nofun
      · rintro ⟨before, after, differ⟩
        exact absurd (before.symm.trans after) differ
  | case2 left lefts ih =>
      rw [changes, List.mem_cons, ih (Ascending.tail leftAscending) .nil,
        differs_step lookup_of_ne (fun _ _ => rfl) (lookup_tail leftAscending) rfl,
        lookup_head]
      simp
  | case3 right rights ih =>
      rw [changes, List.mem_cons, ih .nil (Ascending.tail rightAscending),
        differs_step (fun _ _ => rfl) lookup_of_ne rfl (lookup_tail rightAscending),
        lookup_head]
      simp
  | case4 left lefts right rights less ih =>
      have gone := lookup_above (above_head less rightAscending)
      rw [changes, if_pos less, List.mem_cons,
        ih (Ascending.tail leftAscending) rightAscending,
        differs_step lookup_of_ne (fun _ _ => rfl) (lookup_tail leftAscending) gone,
        lookup_head, gone]
      simp
  | case5 left lefts right rights notLess greater ih =>
      have gone := lookup_above (above_head greater leftAscending)
      rw [changes, if_neg notLess, if_pos greater, List.mem_cons,
        ih leftAscending (Ascending.tail rightAscending),
        differs_step (fun _ _ => rfl) lookup_of_ne gone (lookup_tail rightAscending),
        lookup_head, gone]
      simp
  | case6 left lefts right rights notLess notGreater same ih =>
      have equal : left.1 = right.1 :=
        le_antisymm (not_lt.mp notGreater) (not_lt.mp notLess)
      have rightHead : lookup left.1 (right :: rights) = some right.2 :=
        equal ▸ lookup_head right rights
      rw [changes, if_neg notLess, if_neg notGreater, if_pos same,
        ih (Ascending.tail leftAscending) (Ascending.tail rightAscending),
        differs_step lookup_of_ne (fun query other => lookup_of_ne query (equal ▸ other))
          (lookup_tail leftAscending) (equal ▸ lookup_tail rightAscending), lookup_head, rightHead, same]
      simp
  | case7 left lefts right rights notLess notGreater differ ih =>
      have equal : left.1 = right.1 :=
        le_antisymm (not_lt.mp notGreater) (not_lt.mp notLess)
      have rightHead : lookup left.1 (right :: rights) = some right.2 :=
        equal ▸ lookup_head right rights
      rw [changes, if_neg notLess, if_neg notGreater, if_neg differ, List.mem_cons,
        ih (Ascending.tail leftAscending) (Ascending.tail rightAscending),
        differs_step lookup_of_ne (fun query other => lookup_of_ne query (equal ▸ other))
          (lookup_tail leftAscending) (equal ▸ lookup_tail rightAscending), lookup_head, rightHead]
      simp [differ]

private theorem above_of_mem_changes {low : K} {lefts rights : List (K × V)}
    (leftAscending : Ascending lefts) (rightAscending : Ascending rights)
    (leftAbove : ∀ entry ∈ lefts, low < entry.1)
    (rightAbove : ∀ entry ∈ rights, low < entry.1) :
    ∀ change ∈ changes lefts rights, low < change.key := by
  intro change member
  obtain ⟨before, after, differ⟩ := (mem_changes leftAscending rightAscending).mp
    member
  by_contra beyond
  have absent : ∀ entries : List (K × V), (∀ entry ∈ entries, low < entry.1) →
      lookup change.key entries = none := by
    intro entries above
    exact lookup_above (fun entry inside =>
      lt_of_le_of_lt (not_lt.mp beyond) (above entry inside))
  rw [absent lefts leftAbove] at before
  rw [absent rights rightAbove] at after
  exact differ (before.symm.trans after)

theorem changes_ascending {lefts rights : List (K × V)}
    (leftAscending : Ascending lefts) (rightAscending : Ascending rights) :
    (changes lefts rights).Pairwise (fun a b => a.key < b.key) := by
  induction lefts, rights using changes.induct with
  | case1 =>
      rw [changes]
      exact List.Pairwise.nil
  | case2 left lefts ih =>
      obtain ⟨above, rest⟩ := Ascending.cons_iff.mp leftAscending
      rw [changes]
      exact List.pairwise_cons.mpr
        ⟨above_of_mem_changes rest .nil above nofun, ih rest .nil⟩
  | case3 right rights ih =>
      obtain ⟨above, rest⟩ := Ascending.cons_iff.mp rightAscending
      rw [changes]
      exact List.pairwise_cons.mpr
        ⟨above_of_mem_changes .nil rest nofun above, ih .nil rest⟩
  | case4 left lefts right rights less ih =>
      obtain ⟨above, rest⟩ := Ascending.cons_iff.mp leftAscending
      rw [changes, if_pos less]
      exact List.pairwise_cons.mpr
        ⟨above_of_mem_changes rest rightAscending above
          (above_head less rightAscending), ih rest rightAscending⟩
  | case5 left lefts right rights notLess greater ih =>
      obtain ⟨above, rest⟩ := Ascending.cons_iff.mp rightAscending
      rw [changes, if_neg notLess, if_pos greater]
      exact List.pairwise_cons.mpr
        ⟨above_of_mem_changes leftAscending rest
          (above_head greater leftAscending) above, ih leftAscending rest⟩
  | case6 left lefts right rights notLess notGreater same ih =>
      rw [changes, if_neg notLess, if_neg notGreater, if_pos same]
      exact ih (Ascending.tail leftAscending) (Ascending.tail rightAscending)
  | case7 left lefts right rights notLess notGreater differ ih =>
      have equal : left.1 = right.1 :=
        le_antisymm (not_lt.mp notGreater) (not_lt.mp notLess)
      obtain ⟨leftAbove, leftRest⟩ := Ascending.cons_iff.mp leftAscending
      obtain ⟨rightAbove, rightRest⟩ := Ascending.cons_iff.mp rightAscending
      rw [changes, if_neg notLess, if_neg notGreater, if_neg differ]
      exact List.pairwise_cons.mpr
        ⟨above_of_mem_changes leftRest rightRest leftAbove (equal ▸ rightAbove),
          ih leftRest rightRest⟩

theorem changes_self {entries : List (K × V)} (ascending : Ascending entries) :
    changes entries entries = [] := by
  apply List.eq_nil_iff_forall_not_mem.mpr
  intro change member
  obtain ⟨before, after, differ⟩ := (mem_changes ascending ascending).mp member
  exact differ (before.symm.trans after)

/-- Both lists may be cut at a key. -/
theorem changes_append {left right moreLeft moreRight : List (K × V)}
    (leftAscending : Ascending (left ++ moreLeft))
    (rightAscending : Ascending (right ++ moreRight)) {bound : K}
    (leftUpTo : ∀ entry ∈ left, entry.1 ≤ bound)
    (rightUpTo : ∀ entry ∈ right, entry.1 ≤ bound)
    (leftAbove : ∀ entry ∈ moreLeft, bound < entry.1)
    (rightAbove : ∀ entry ∈ moreRight, bound < entry.1) :
    changes (left ++ moreLeft) (right ++ moreRight) =
      changes left right ++ changes moreLeft moreRight := by
  obtain ⟨leftFirst, leftSecond, -⟩ := Ascending.append_iff.mp leftAscending
  obtain ⟨rightFirst, rightSecond, -⟩ := Ascending.append_iff.mp rightAscending
  have low : ∀ change ∈ changes left right, change.key ≤ bound := by
    intro change member
    obtain ⟨before, after, differ⟩ := (mem_changes leftFirst rightFirst).mp member
    by_contra beyond
    rw [lookup_below leftUpTo (not_le.mp beyond)] at before
    rw [lookup_below rightUpTo (not_le.mp beyond)] at after
    exact differ (before.symm.trans after)
  have high := above_of_mem_changes leftSecond rightSecond leftAbove rightAbove
  apply changes_ext (changes_ascending leftAscending rightAscending)
  · exact List.pairwise_append.mpr ⟨changes_ascending leftFirst rightFirst,
      changes_ascending leftSecond rightSecond, fun first inFirst second inSecond =>
        lt_of_le_of_lt (low first inFirst) (high second inSecond)⟩
  · intro change
    rw [List.mem_append, mem_changes leftAscending rightAscending,
      mem_changes leftFirst rightFirst, mem_changes leftSecond rightSecond]
    simp only [Differs, lookup_append]
    rcases le_or_gt change.key bound with inside | outside
    · rw [lookup_above (fun entry member => lt_of_le_of_lt inside (leftAbove entry member)),
        lookup_above (fun entry member => lt_of_le_of_lt inside (rightAbove entry member)),
        Option.or_none, Option.or_none]
      constructor
      · exact .inl
      · rintro (differs | ⟨before, after, differ⟩)
        · exact differs
        · exact absurd (before.symm.trans after) differ
    · rw [lookup_below leftUpTo outside, lookup_below rightUpTo outside,
        Option.none_or, Option.none_or]
      constructor
      · exact .inr
      · rintro (⟨before, after, differ⟩ | differs)
        · exact absurd (before.symm.trans after) differ
        · exact differs

end

end

end Acetone.Lib

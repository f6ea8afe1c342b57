import Acetone.Lib.SortedDiff
import Acetone.Lib.SortedJoin
import Acetone.Lib.SortedMerge

/-!
# Three-way merge of sorted maps

A key is decided by its values in a base and in two sides derived from it.
The merged map is also what the base becomes under the joined changes of the
sides, with the disagreements left out; exchanging the sides changes nothing
but the order within each disagreement.
-/

namespace Acetone.Lib

/-- One key changed incompatibly on both sides. -/
structure Conflict (K V : Type) where
  key : K
  base : Option V
  ours : Option V
  theirs : Option V
deriving DecidableEq

section

variable {K V : Type} [LinearOrder K] [DecidableEq V]

/-- What the merged map holds under a key; nothing where the sides disagree. -/
def mergedValue (base ours theirs : Option V) : Option V :=
  if ours = base then theirs
  else if theirs = base then ours
  else if ours = theirs then ours
  else none

def settle (key : K) : Option V → MapOp K V
  | some value => .put key value
  | none => .delete key

def threeWay (base ours theirs : SortedMap K V) : SortedMap K V :=
  SortedMap.empty.applyAll ((base.entries ++ ours.entries ++ theirs.entries).map
    fun entry => settle entry.1
      (mergedValue (base.get entry.1) (ours.get entry.1) (theirs.get entry.1)))

/-- The sides changed a key to different results. -/
def Conflicting (base ours theirs : SortedMap K V) (conflict : Conflict K V) : Prop :=
  conflict.base = base.get conflict.key ∧ conflict.ours = ours.get conflict.key ∧
    conflict.theirs = theirs.get conflict.key ∧ conflict.ours ≠ conflict.base ∧
    conflict.theirs ≠ conflict.base ∧ conflict.ours ≠ conflict.theirs

def Conflict.mirror (conflict : Conflict K V) : Conflict K V :=
  ⟨conflict.key, conflict.base, conflict.theirs, conflict.ours⟩

omit [LinearOrder K] [DecidableEq V] in
private theorem settle_key (key : K) (value : Option V) :
    (settle key value).key = key := by
  cases value <;> rfl

omit [LinearOrder K] [DecidableEq V] in
private theorem settle_outcome (key : K) (value : Option V) :
    (settle key value).outcome = value := by
  cases value <;> rfl

theorem get_threeWay (base ours theirs : SortedMap K V) (key : K) :
    (threeWay base ours theirs).get key =
      mergedValue (base.get key) (ours.get key) (theirs.get key) := by
  rw [threeWay, SortedMap.get_applyAll]
  cases found : lastFor MapOp.key key ((base.entries ++ ours.entries ++
      theirs.entries).map fun entry => settle entry.1 (mergedValue (base.get entry.1)
        (ours.get entry.1) (theirs.get entry.1))) with
  | some op =>
      obtain ⟨member, same⟩ := key_of_lastFor MapOp.key found
      obtain ⟨entry, -, rfl⟩ := List.mem_map.mp member
      rw [settle_key] at same
      rw [← same]
      exact settle_outcome _ _
  | none =>
      have absent := (lastFor_eq_none MapOp.key).mp found
      have missing : ∀ map : SortedMap K V,
          map.entries ⊆ base.entries ++ ours.entries ++ theirs.entries →
          map.get key = none := by
        intro map among
        refine lookup_eq_none.mpr (fun entry member same => ?_)
        have op := absent _ (List.mem_map_of_mem (among member))
        exact op ((settle_key _ _).trans same)
      rw [missing base (by simp), missing ours (by simp), missing theirs (by simp)]
      rfl

def opOf : Joined (Change K V) → MapOp K V
  | .left entry => settle entry.key entry.after
  | .right entry => settle entry.key entry.after
  | .both o t => if o.after = t.after then settle o.key o.after else .delete o.key

def conflictsOf : Joined (Change K V) → List (Conflict K V)
  | .both o t =>
      if o.after = t.after then [] else [⟨o.key, t.before, o.after, t.after⟩]
  | _ => []

section

variable (base ours theirs : SortedMap K V)

/-- The changes of one side. -/
abbrev changed (side : SortedMap K V) : List (Change K V) :=
  changes base.entries side.entries

abbrev joinedChanges : List (Joined (Change K V)) :=
  joinSorted Change.key (changed base ours) (changed base theirs)

def conflicts : List (Conflict K V) :=
  (joinedChanges base ours theirs).flatMap conflictsOf

variable {base ours theirs}

theorem mem_changed {side : SortedMap K V} {entry : Change K V} :
    entry ∈ changed base side ↔ base.get entry.key = entry.before ∧
      side.get entry.key = entry.after ∧ entry.before ≠ entry.after :=
  mem_changes base.ascending side.ascending

private theorem changed_ascending (side : SortedMap K V) :
    AscendingBy Change.key (changed base side) :=
  changes_ascending base.ascending side.ascending

private theorem mem_joined {joined : Joined (Change K V)} :
    joined ∈ joinedChanges base ours theirs ↔
      Joins Change.key (changed base ours) (changed base theirs) joined :=
  mem_joinSorted (changed_ascending ours) (changed_ascending theirs)

theorem agree_on_base :
    ∀ o ∈ changed base ours, ∀ t ∈ changed base theirs, o.key = t.key →
      o.before = t.before := by
  intro o oMember t tMember same
  rw [← (mem_changed.mp oMember).1, ← (mem_changed.mp tMember).1, same]

omit [LinearOrder K] in
private theorem opOf_key (joined : Joined (Change K V)) :
    (opOf joined).key = joined.sortKey Change.key := by
  cases joined with
  | left entry => exact settle_key _ _
  | right entry => exact settle_key _ _
  | both o t =>
      rw [opOf]
      split
      · exact settle_key _ _
      · rfl

private theorem ops_ascending :
    AscendingOps ((joinedChanges base ours theirs).map opOf) := by
  rw [AscendingOps, List.pairwise_map]
  refine (joinSorted_ascending (changed_ascending ours)
    (changed_ascending theirs)).imp ?_
  intro left right lower
  rw [opOf_key, opOf_key]
  exact lower

/-- The op for a key, if there is one, decides it; otherwise nothing changed. -/
private theorem effect_ops_of_mem {joined : Joined (Change K V)}
    (member : joined ∈ joinedChanges base ours theirs) (old : Option V) :
    effect ((joinedChanges base ours theirs).map opOf)
      (joined.sortKey Change.key) old = (opOf joined).outcome := by
  rw [← opOf_key]
  exact effect_of_mem ops_ascending (List.mem_map_of_mem member) old

private theorem no_change_of_eq {side : SortedMap K V} {key : K}
    (same : side.get key = base.get key) :
    ∀ entry ∈ changed base side, entry.key ≠ key := by
  rintro entry member rfl
  obtain ⟨before, after, differ⟩ := mem_changed.mp member
  exact differ (before.symm.trans (same.symm.trans after))

private theorem change_of_ne {side : SortedMap K V} {key : K}
    (differ : side.get key ≠ base.get key) :
    (⟨key, base.get key, side.get key⟩ : Change K V) ∈ changed base side :=
  mem_changed.mpr ⟨rfl, rfl, fun same => differ same.symm⟩

/-- Applied to the base, the ops of the joined changes give the merged map. -/
theorem applyAll_ops :
    base.applyAll ((joinedChanges base ours theirs).map opOf) =
      threeWay base ours theirs := by
  apply SortedMap.ext_get
  intro key
  rw [get_threeWay, SortedMap.get_applyAll_effect, mergedValue]
  by_cases oursSame : ours.get key = base.get key
  · rw [if_pos oursSame]
    by_cases theirsSame : theirs.get key = base.get key
    · rw [theirsSame]
      apply effect_of_absent
      intro op member
      obtain ⟨joined, inside, rfl⟩ := List.mem_map.mp member
      have joins := mem_joined.mp inside
      rw [opOf_key]
      cases joined with
      | left entry => exact no_change_of_eq oursSame entry joins.1
      | right entry => exact no_change_of_eq theirsSame entry joins.1
      | both o t => exact no_change_of_eq oursSame o joins.1
    · have member : Joined.right ⟨key, base.get key, theirs.get key⟩ ∈
          joinedChanges base ours theirs :=
        mem_joined.mpr ⟨change_of_ne theirsSame, no_change_of_eq oursSame⟩
      exact (effect_ops_of_mem member _).trans (settle_outcome _ _)
  · rw [if_neg oursSame]
    by_cases theirsSame : theirs.get key = base.get key
    · rw [if_pos theirsSame]
      have member : Joined.left ⟨key, base.get key, ours.get key⟩ ∈
          joinedChanges base ours theirs :=
        mem_joined.mpr ⟨change_of_ne oursSame, no_change_of_eq theirsSame⟩
      exact (effect_ops_of_mem member _).trans (settle_outcome _ _)
    · rw [if_neg theirsSame]
      have member : Joined.both ⟨key, base.get key, ours.get key⟩
          ⟨key, base.get key, theirs.get key⟩ ∈ joinedChanges base ours theirs :=
        mem_joined.mpr ⟨change_of_ne oursSame, change_of_ne theirsSame, rfl⟩
      refine (effect_ops_of_mem member _).trans ?_
      rw [opOf]
      by_cases same : ours.get key = theirs.get key
      · rw [if_pos same, if_pos same, settle_outcome]
      · rw [if_neg same, if_neg same]
        rfl

theorem mem_conflicts {conflict : Conflict K V} :
    conflict ∈ conflicts base ours theirs ↔
      Conflicting base ours theirs conflict := by
  rw [conflicts, List.mem_flatMap]
  constructor
  · rintro ⟨joined, inside, member⟩
    have joins := mem_joined.mp inside
    cases joined with
    | left entry => cases member
    | right entry => cases member
    | both o t =>
        obtain ⟨oMember, tMember, sameKey⟩ := joins
        obtain ⟨oBefore, oAfter, oDiffer⟩ := mem_changed.mp oMember
        obtain ⟨tBefore, tAfter, tDiffer⟩ := mem_changed.mp tMember
        rw [conflictsOf] at member
        split at member
        · cases member
        · next apart =>
            cases List.mem_singleton.mp member
            rw [← sameKey] at tBefore tAfter
            have sameBase : o.before = t.before := oBefore.symm.trans tBefore
            exact ⟨tBefore.symm, oAfter.symm, tAfter.symm,
              fun same => oDiffer (sameBase.trans same.symm),
              fun same => tDiffer same.symm, apart⟩
  · rintro ⟨isBase, isOurs, isTheirs, oursDiffer, theirsDiffer, apart⟩
    rw [isBase, isOurs] at oursDiffer
    rw [isBase, isTheirs] at theirsDiffer
    refine ⟨.both ⟨conflict.key, base.get conflict.key, ours.get conflict.key⟩
      ⟨conflict.key, base.get conflict.key, theirs.get conflict.key⟩,
      mem_joined.mpr ⟨change_of_ne oursDiffer, change_of_ne theirsDiffer, rfl⟩, ?_⟩
    rw [isOurs, isTheirs] at apart
    rw [conflictsOf, if_neg apart, List.mem_singleton]
    cases conflict
    simp only at isBase isOurs isTheirs
    rw [isBase, isOurs, isTheirs]

omit [LinearOrder K] in
private theorem key_of_conflictsOf {joined : Joined (Change K V)} {conflict : Conflict K V}
    (member : conflict ∈ conflictsOf joined) :
    conflict.key = joined.sortKey Change.key := by
  cases joined with
  | left entry => cases member
  | right entry => cases member
  | both o t =>
      rw [conflictsOf] at member
      split at member
      · cases member
      · rw [List.mem_singleton.mp member]
        rfl

theorem conflicts_ascending :
    (conflicts base ours theirs).Pairwise
      (fun first second => first.key < second.key) := by
  rw [conflicts, List.pairwise_flatMap]
  constructor
  · intro joined _
    cases joined with
    | left entry => exact List.Pairwise.nil
    | right entry => exact List.Pairwise.nil
    | both o t =>
        rw [conflictsOf]
        split
        · exact List.Pairwise.nil
        · exact List.pairwise_singleton _ _
  · refine (joinSorted_ascending (changed_ascending ours)
      (changed_ascending theirs)).imp ?_
    intro left right lower first inLeft second inRight
    rw [key_of_conflictsOf inLeft, key_of_conflictsOf inRight]
    exact lower

theorem ops_swap :
    (joinedChanges base theirs ours).map opOf =
      (joinedChanges base ours theirs).map opOf := by
  rw [joinedChanges, joinSorted_swap, List.map_map]
  refine List.map_congr_left (fun joined member => ?_)
  have joins := mem_joined.mp member
  cases joined with
  | left entry => rfl
  | right entry => rfl
  | both o t =>
      obtain ⟨-, -, sameKey⟩ := joins
      show (if t.after = o.after then settle t.key t.after else .delete t.key) =
        if o.after = t.after then settle o.key o.after else .delete o.key
      by_cases same : o.after = t.after
      · rw [if_pos same, if_pos same.symm, same, sameKey]
      · rw [if_neg same, if_neg (Ne.symm same), sameKey]

theorem conflicts_swap :
    conflicts base theirs ours =
      (conflicts base ours theirs).map Conflict.mirror := by
  rw [conflicts, joinedChanges, joinSorted_swap, List.flatMap_map, conflicts,
    List.map_flatMap]
  refine List.flatMap_congr (fun joined member => ?_)
  have joins := mem_joined.mp member
  cases joined with
  | left entry => rfl
  | right entry => rfl
  | both o t =>
      obtain ⟨oMember, tMember, sameKey⟩ := joins
      have sameBase := agree_on_base o oMember t tMember sameKey
      show (if t.after = o.after then []
          else [⟨t.key, o.before, t.after, o.after⟩]) =
        List.map Conflict.mirror (conflictsOf (.both o t))
      rw [conflictsOf]
      by_cases same : o.after = t.after
      · rw [if_pos same, if_pos same.symm]
        rfl
      · rw [if_neg same, if_neg (Ne.symm same), ← sameKey, sameBase]
        rfl

/-- A key without a conflict is decided by the side that changed it. -/
inductive Decided {V : Type} (base ours theirs merged : Option V) : Prop
  | ours (kept : theirs = base) (taken : merged = ours)
  | theirs (kept : ours = base) (taken : merged = theirs)
  | both (agreed : ours = theirs) (taken : merged = ours)

theorem Decided.from_side {V : Type} {base ours theirs merged : Option V}
    (decided : Decided base ours theirs merged) :
    merged = ours ∨ merged = theirs := by
  cases decided with
  | ours _ taken => exact .inl taken
  | theirs _ taken => exact .inr taken
  | both _ taken => exact .inl taken

theorem Decided.swap {V : Type} {base ours theirs merged : Option V}
    (decided : Decided base ours theirs merged) :
    Decided base theirs ours merged := by
  cases decided with
  | ours kept taken => exact .theirs kept taken
  | theirs kept taken => exact .ours kept taken
  | both agreed taken => exact .both agreed.symm (taken.trans agreed)

theorem Decided.eq_mergedValue {V : Type} [DecidableEq V] {base ours theirs merged : Option V}
    (decided : Decided base ours theirs merged) : merged = mergedValue base ours theirs := by
  rw [mergedValue]
  cases decided with
  | ours kept taken =>
      rw [taken, kept, if_pos rfl]
      split
      · assumption
      · rfl
  | theirs kept taken => rw [if_pos kept, taken]
  | both agreed taken =>
      rw [taken, agreed]
      simp

theorem decided_or_conflicting (key : K) :
    Decided (base.get key) (ours.get key) (theirs.get key)
        ((threeWay base ours theirs).get key) ∨
      Conflicting base ours theirs
        ⟨key, base.get key, ours.get key, theirs.get key⟩ := by
  rw [get_threeWay, mergedValue]
  by_cases oursSame : ours.get key = base.get key
  · rw [if_pos oursSame]
    exact .inl (.theirs oursSame rfl)
  · rw [if_neg oursSame]
    by_cases theirsSame : theirs.get key = base.get key
    · rw [if_pos theirsSame]
      exact .inl (.ours theirsSame rfl)
    · rw [if_neg theirsSame]
      by_cases agreed : ours.get key = theirs.get key
      · rw [if_pos agreed]
        exact .inl (.both agreed rfl)
      · exact .inr ⟨rfl, rfl, rfl, oursSame, theirsSame, agreed⟩

omit [DecidableEq V] in
theorem Decided.not_conflicting {conflict : Conflict K V} {merged : Option V}
    (decided : Decided (base.get conflict.key) (ours.get conflict.key)
      (theirs.get conflict.key) merged) : ¬ Conflicting base ours theirs conflict := by
  rintro ⟨isBase, isOurs, isTheirs, oursDiffer, theirsDiffer, apart⟩
  rw [isOurs, isBase] at oursDiffer
  rw [isTheirs, isBase] at theirsDiffer
  rw [isOurs, isTheirs] at apart
  cases decided with
  | ours kept _ => exact theirsDiffer kept
  | theirs kept _ => exact oursDiffer kept
  | both agreed _ => exact apart agreed

theorem decided_of_no_conflicts (clean : conflicts base ours theirs = [])
    (key : K) : Decided (base.get key) (ours.get key) (theirs.get key)
      ((threeWay base ours theirs).get key) := by
  refine (decided_or_conflicting key).resolve_right fun conflicting => ?_
  have member := mem_conflicts.mpr conflicting
  rw [clean] at member
  cases member

/-- Sides that settle every key settle the map. -/
theorem threeWay_of_decided {merged : SortedMap K V}
    (all : ∀ key, Decided (base.get key) (ours.get key) (theirs.get key) (merged.get key)) :
    threeWay base ours theirs = merged ∧ conflicts base ours theirs = [] := by
  refine ⟨SortedMap.ext_get fun key => ?_, List.eq_nil_iff_forall_not_mem.mpr ?_⟩
  · rw [get_threeWay, ← (all key).eq_mergedValue]
  · exact fun conflict member =>
      (all conflict.key).not_conflicting (mem_conflicts.mp member)

end

end

end Acetone.Lib

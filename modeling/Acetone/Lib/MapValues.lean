import Acetone.Lib.Listing
import Acetone.Lib.Outcome

/-!
# Operations on the values of a map

Restrict a map to some of its keys, or replace every value by what a function
makes of it, which may fail.
-/

namespace Acetone.Lib

variable {K V W failure : Type} [LinearOrder K]

namespace SortedMap

theorem get_mapValues (f : V → W) (map : SortedMap K V) (key : K) :
    (map.mapValues f).get key = (map.get key).map f := by
  cases found : map.get key with
  | some value =>
      refine get_eq_some_iff.mpr (List.mem_map.mpr ⟨_, get_eq_some_iff.mp found, rfl⟩)
  | none =>
      rw [Option.map_none, ← Option.not_isSome_iff_eq_none, Option.isSome_iff_exists]
      rintro ⟨value, isValue⟩
      obtain ⟨entry, member, same⟩ := List.mem_map.mp (get_eq_some_iff.mp isValue)
      have isKey : entry.1 = key := congrArg Prod.fst same
      exact get_ne_none_of_mem member (isKey ▸ found)

def filterKeys (keep : K → Bool) (map : SortedMap K V) : SortedMap K V where
  entries := map.entries.filter fun entry => keep entry.1
  ascending := map.ascending.sublist List.filter_sublist

theorem get_filterKeys (keep : K → Bool) (map : SortedMap K V) (key : K) :
    (map.filterKeys keep).get key = if keep key then map.get key else none := by
  ext value
  rw [get_eq_some_iff, filterKeys, List.mem_filter, ← get_eq_some_iff]
  cases keep key <;> simp

/-- Replace the values by what a computation makes of the entries, in key
order. -/
def mapEntriesM (f : K → V → Except failure W) (map : SortedMap K V) :
    Except failure (SortedMap K W) := do
  let entries ← map.entries.mapM fun entry => do
    let value ← f entry.1 entry.2
    .ok (entry.1, value)
  .ok (ofList entries)

section

variable {f : K → V → Except failure W} {map : SortedMap K V} {result : SortedMap K W}

omit [LinearOrder K] in
private theorem mapEntry_eq_ok {entry : K × V} {made : K × W} :
    (do
      let value ← f entry.1 entry.2
      .ok (entry.1, value) : Except failure (K × W)) = .ok made ↔
      made.1 = entry.1 ∧ f entry.1 entry.2 = .ok made.2 := by
  rw [bind_eq_ok]
  constructor
  · rintro ⟨value, done, ⟨⟩⟩
    exact ⟨rfl, done⟩
  · obtain ⟨key, value⟩ := made
    rintro ⟨rfl, done⟩
    exact ⟨value, done, rfl⟩

theorem get_mapEntriesM (done : map.mapEntriesM f = .ok result) {key : K} {other : W} :
    result.get key = some other ↔
      ∃ value, map.get key = some value ∧ f key value = .ok other := by
  obtain ⟨entries, each, ⟨⟩⟩ := bind_eq_ok.mp done
  have functional : ∀ first ∈ entries, ∀ second ∈ entries, first.1 = second.1 →
      first.2 = second.2 := by
    intro first isFirst second isSecond same
    obtain ⟨left, isLeft, fromLeft⟩ := exists_of_mem_mapM each isFirst
    obtain ⟨right, isRight, fromRight⟩ := exists_of_mem_mapM each isSecond
    obtain ⟨leftKey, leftDone⟩ := mapEntry_eq_ok.mp fromLeft
    obtain ⟨rightKey, rightDone⟩ := mapEntry_eq_ok.mp fromRight
    have sameKey : left.1 = right.1 := leftKey.symm.trans (same.trans rightKey)
    have sameValue : some left.2 = some right.2 := by
      rw [← get_eq_some_iff.mpr isLeft, ← get_eq_some_iff.mpr isRight, sameKey]
    rw [sameKey, Option.some.inj sameValue, rightDone] at leftDone
    exact (Except.ok.inj leftDone).symm
  rw [get_ofList_eq_some functional]
  constructor
  · intro member
    obtain ⟨entry, isEntry, fromEntry⟩ := exists_of_mem_mapM each member
    obtain ⟨sameKey, made⟩ := mapEntry_eq_ok.mp fromEntry
    have isKey : entry = (key, entry.2) := Prod.ext sameKey.symm rfl
    refine ⟨entry.2, get_eq_some_iff.mpr (isKey ▸ isEntry), ?_⟩
    rw [← sameKey] at made
    exact made
  · rintro ⟨value, found, made⟩
    obtain ⟨entry, isEntry, fromEntry⟩ := mem_of_mapM_eq_ok each (get_eq_some_iff.mp found)
    obtain ⟨sameKey, madeEntry⟩ := mapEntry_eq_ok.mp fromEntry
    rw [made] at madeEntry
    have isOther : entry = (key, other) := Prod.ext sameKey (Except.ok.inj madeEntry).symm
    rw [← isOther]
    exact isEntry

theorem mapEntriesM_total (total : ∀ key value, map.get key = some value →
    ∃ other, f key value = .ok other) : ∃ result, map.mapEntriesM f = .ok result := by
  have made : ∀ entry ∈ map.entries, ∃ other, (do
      let value ← f entry.1 entry.2
      .ok (entry.1, value) : Except failure (K × W)) = .ok other := by
    intro entry member
    obtain ⟨other, done⟩ := total entry.1 entry.2 (get_eq_some_iff.mpr member)
    exact ⟨(entry.1, other), mapEntry_eq_ok.mpr ⟨rfl, done⟩⟩
  obtain ⟨entries, each⟩ := mapM_total made
  exact ⟨ofList entries, bind_eq_ok.mpr ⟨entries, each, rfl⟩⟩

theorem exists_of_mapEntriesM (done : map.mapEntriesM f = .ok result) {key : K} {value : V}
    (found : map.get key = some value) : ∃ other, f key value = .ok other := by
  obtain ⟨entries, each, -⟩ := bind_eq_ok.mp done
  obtain ⟨entry, -, fromEntry⟩ := mem_of_mapM_eq_ok each (get_eq_some_iff.mp found)
  exact ⟨entry.2, (mapEntry_eq_ok.mp fromEntry).2⟩

theorem mapEntriesM_eq_ok (same : ∀ key, (∀ value, map.get key = some value →
      ∃ other, f key value = .ok other ∧ result.get key = some other) ∧
      (map.get key = none → result.get key = none)) :
    map.mapEntriesM f = .ok result := by
  obtain ⟨made, done⟩ := @mapEntriesM_total K V W failure _ f map fun key value found =>
    ((same key).1 value found).imp fun _ => And.left
  rw [done, Except.ok.injEq]
  apply ext_get
  intro key
  cases found : map.get key with
  | none =>
      rw [(same key).2 found, Option.eq_none_iff_forall_ne_some]
      intro other isOther
      obtain ⟨value, present, -⟩ := (get_mapEntriesM done).mp isOther
      rw [found] at present
      cases present
  | some value =>
      obtain ⟨other, makes, isOther⟩ := (same key).1 value found
      rw [isOther]
      exact (get_mapEntriesM done).mpr ⟨value, found, makes⟩

end

/-- Replace the values by what a computation makes of them, in key order. -/
def mapValuesM (f : V → Except failure W) (map : SortedMap K V) :
    Except failure (SortedMap K W) := do
  let entries ← map.entries.mapM fun entry => do
    let value ← f entry.2
    .ok (entry.1, value)
  .ok (ofList entries)

section

variable {f : V → Except failure W} {map : SortedMap K V} {result : SortedMap K W}

theorem mapValuesM_eq (f : V → Except failure W) (map : SortedMap K V) :
    map.mapValuesM f = map.mapEntriesM fun _ => f := rfl

theorem get_mapValuesM (done : map.mapValuesM f = .ok result) {key : K} {other : W} :
    result.get key = some other ↔ ∃ value, map.get key = some value ∧ f value = .ok other :=
  @get_mapEntriesM K V W failure _ (fun _ => f) map result done key other

theorem exists_of_mapValuesM (done : map.mapValuesM f = .ok result) {key : K} {value : V}
    (found : map.get key = some value) : ∃ other, f value = .ok other :=
  @exists_of_mapEntriesM K V W failure _ (fun _ => f) map result done key value found

end

end SortedMap

end Acetone.Lib

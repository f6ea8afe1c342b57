import Acetone.Lib.SortedMap
import Acetone.Model.KeyPrefixes

/-!
# Prefix scans of a map

Keys with a common prefix are consecutive in a map, so a scan may stop at the
first key without it.
-/

namespace Acetone.Graph

open Acetone.Lib Acetone.Model

variable {V : Type}

def scanFrom (map : SortedMap Bytes V) (lower : Bytes) : List (Bytes × V) :=
  map.entries.dropWhile fun entry => entry.1 < lower

/-- A scan that stops at the first key without the prefix. -/
def scanPrefix (map : SortedMap Bytes V) (leading : Bytes) : List (Bytes × V) :=
  (scanFrom map leading).takeWhile fun entry => leading.isPrefixOf entry.1

def firstWithPrefix (map : SortedMap Bytes V) (leading : Bytes) : Option Bytes :=
  ((scanFrom map leading).head?.map Prod.fst).filter leading.isPrefixOf

private theorem mem_dropWhile {entries : List (Bytes × V)} (ascending : Ascending entries)
    {lower : Bytes} {entry : Bytes × V} :
    entry ∈ entries.dropWhile (fun entry => entry.1 < lower) ↔
      entry ∈ entries ∧ lower ≤ entry.1 := by
  induction entries with
  | nil => simp
  | cons head entries ih =>
      rw [Ascending.cons_iff] at ascending
      by_cases below : head.1 < lower
      · rw [List.dropWhile_cons_of_pos (by simpa using below), ih ascending.2,
          List.mem_cons]
        constructor
        · rintro ⟨member, above⟩
          exact ⟨.inr member, above⟩
        · rintro ⟨rfl | member, above⟩
          · exact absurd above (not_le.mpr below)
          · exact ⟨member, above⟩
      · rw [List.dropWhile_cons_of_neg (by simpa using below), List.mem_cons]
        refine ⟨fun member => ⟨member, ?_⟩, And.left⟩
        rcases member with rfl | member
        · exact not_lt.mp below
        · exact (not_lt.mp below).trans (ascending.1 entry member).le

/-- Past a key at or above the prefix that lacks it, no key has it. -/
private theorem not_isPrefix_of_lt {leading lower upper : Bytes} (above : leading ≤ lower)
    (lacks : ¬ leading <+: lower) (less : lower < upper) : ¬ leading <+: upper := by
  rw [isPrefix_iff_mem_range] at lacks ⊢
  rintro ⟨-, below⟩
  exact lacks ⟨above, fun successor isSuccessor =>
    less.trans (below successor isSuccessor)⟩

theorem mem_takeWhile_isPrefix {entries : List (Bytes × V)} (ascending : Ascending entries)
    {leading : Bytes} (above : ∀ entry ∈ entries, leading ≤ entry.1)
    {entry : Bytes × V} :
    entry ∈ entries.takeWhile (fun entry => leading.isPrefixOf entry.1) ↔
      entry ∈ entries ∧ leading <+: entry.1 := by
  induction entries with
  | nil => simp
  | cons head entries ih =>
      rw [Ascending.cons_iff] at ascending
      by_cases starts : leading <+: head.1
      · rw [List.takeWhile_cons_of_pos (by simpa using starts), List.mem_cons,
          List.mem_cons, ih ascending.2 fun entry member =>
            above entry (List.mem_cons_of_mem _ member)]
        constructor
        · rintro (rfl | ⟨member, isPrefix⟩)
          · exact ⟨.inl rfl, starts⟩
          · exact ⟨.inr member, isPrefix⟩
        · rintro ⟨rfl | member, isPrefix⟩
          · exact .inl rfl
          · exact .inr ⟨member, isPrefix⟩
      · rw [List.takeWhile_cons_of_neg (by simpa using starts)]
        refine iff_of_false (List.not_mem_nil) ?_
        rintro ⟨member, isPrefix⟩
        rcases List.mem_cons.mp member with rfl | later
        · exact starts isPrefix
        · exact not_isPrefix_of_lt (above head List.mem_cons_self) starts
            (ascending.1 entry later) isPrefix

private theorem scanFrom_ascending (map : SortedMap Bytes V) (lower : Bytes) :
    Ascending (scanFrom map lower) :=
  map.ascending.sublist (List.dropWhile_sublist _)

theorem mem_scanPrefix {map : SortedMap Bytes V} {leading : Bytes} {entry : Bytes × V} :
    entry ∈ scanPrefix map leading ↔ entry ∈ map.entries ∧ leading <+: entry.1 := by
  rw [scanPrefix, mem_takeWhile_isPrefix (scanFrom_ascending map leading)
    fun entry member => ((mem_dropWhile map.ascending).mp member).2, scanFrom,
    mem_dropWhile map.ascending]
  constructor
  · rintro ⟨⟨member, -⟩, isPrefix⟩
    exact ⟨member, isPrefix⟩
  · rintro ⟨member, isPrefix⟩
    exact ⟨⟨member, ((isPrefix_iff_mem_range _ _).mp isPrefix).1⟩, isPrefix⟩

theorem firstWithPrefix_eq (map : SortedMap Bytes V) (leading : Bytes) :
    firstWithPrefix map leading = (scanPrefix map leading).head?.map Prod.fst := by
  rw [firstWithPrefix, scanPrefix]
  cases scanFrom map leading with
  | nil => rfl
  | cons head entries =>
      by_cases starts : leading.isPrefixOf head.1 = true
      · simp [Option.filter, starts]
      · simp [Option.filter, starts]

theorem firstWithPrefix_eq_none {map : SortedMap Bytes V} {leading : Bytes} :
    firstWithPrefix map leading = none ↔ ∀ key ∈ map.keys, ¬ leading <+: key := by
  rw [firstWithPrefix_eq, Option.map_eq_none_iff, List.head?_eq_none_iff,
    List.eq_nil_iff_forall_not_mem]
  simp only [mem_scanPrefix, SortedMap.keys, List.mem_map, not_and]
  constructor
  · rintro lacks key ⟨entry, member, rfl⟩
    exact lacks entry member
  · intro lacks entry member
    exact lacks entry.1 ⟨entry, member, rfl⟩

end Acetone.Graph

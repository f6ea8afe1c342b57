import Mathlib.Data.List.Dedup
import Acetone.Lib.SortedMap

/-!
# Listing a map in another order of its keys

A map that is kept in one order of its keys may be written in another.  Such a
listing is a permutation of the map's entries, ascending in the other order;
collecting it gives the map back, and it is the only ascending list that
collects to the map.
-/

namespace Acetone.Lib

section

variable {K : Type} (cmp : K → K → Ordering)

/-- Keys strictly ascend in the order `cmp`. -/
def AscendsIn (keys : List K) : Prop :=
  keys.Pairwise fun left right => cmp left right = .lt

variable {cmp} [Std.TransCmp cmp] [Std.LawfulEqCmp cmp]

omit [Std.TransCmp cmp] in
theorem AscendsIn.nodup {keys : List K} (ascends : AscendsIn cmp keys) :
    keys.Nodup := by
  refine List.Pairwise.imp ?_ ascends
  intro left right less same
  have equal : cmp right right = .eq := Std.ReflCmp.compare_self
  rw [same, equal] at less
  cases less

omit [Std.LawfulEqCmp cmp] in
/-- The reader's check: every key is above the one before it. -/
theorem AscendsIn.cons_iff {key : K} {keys : List K} :
    AscendsIn cmp (key :: keys) ↔
      (∀ next ∈ keys.head?, cmp key next = .lt) ∧ AscendsIn cmp keys := by
  rw [AscendsIn, List.pairwise_cons]
  constructor
  · rintro ⟨below, rest⟩
    exact ⟨fun next isHead => below next (List.mem_of_mem_head? isHead), rest⟩
  · rintro ⟨first, rest⟩
    refine ⟨?_, rest⟩
    intro other member
    cases keys with
    | nil => cases member
    | cons next keys =>
        have less := first next rfl
        rcases List.mem_cons.mp member with rfl | later
        · exact less
        · exact Std.TransCmp.lt_trans less ((List.pairwise_cons.mp rest).1 other later)

omit [Std.LawfulEqCmp cmp] in
private theorem not_gt_total (left right : K) :
    cmp left right ≠ .gt ∨ cmp right left ≠ .gt := by
  by_cases greater : cmp left right = .gt
  · have less := Std.OrientedCmp.lt_of_gt greater
    exact .inr (by rw [less]; decide)
  · exact .inl greater

omit [Std.LawfulEqCmp cmp] in
private theorem not_gt_trans {left middle right : K} (first : cmp left middle ≠ .gt)
    (second : cmp middle right ≠ .gt) : cmp left right ≠ .gt := by
  have below := Std.TransCmp.isLE_trans (Ordering.ne_gt_iff_isLE.mp first)
    (Ordering.ne_gt_iff_isLE.mp second)
  exact Ordering.ne_gt_iff_isLE.mpr below

omit [Std.TransCmp cmp] in
private theorem lt_of_not_gt_of_ne {left right : K} (weak : cmp left right ≠ .gt)
    (different : left ≠ right) : cmp left right = .lt := by
  cases order : cmp left right with
  | lt => rfl
  | eq => exact absurd (Std.LawfulEqCmp.eq_of_compare order) different
  | gt => exact absurd order weak

omit [Std.TransCmp cmp] [Std.LawfulEqCmp cmp] in
private theorem not_gt_of_lt {left right : K} (less : cmp left right = .lt) :
    cmp left right ≠ .gt := by
  rw [less]
  decide

variable [DecidableEq K]

theorem ascendsIn_normalised (keys : List K) :
    AscendsIn cmp (keys.insertionSort fun left right => cmp left right ≠ .gt).dedup := by
  have sorted := @List.pairwise_insertionSort _
    (fun left right : K => cmp left right ≠ .gt) _ ⟨not_gt_total⟩
    ⟨fun _ _ _ => not_gt_trans⟩ keys
  have kept := sorted.sublist (List.dedup_sublist _)
  exact (kept.and (List.nodup_dedup _)).imp fun both => lt_of_not_gt_of_ne both.1 both.2

omit [Std.TransCmp cmp] in
theorem AscendsIn.normalised {keys : List K} (ascends : AscendsIn cmp keys) :
    (keys.insertionSort fun left right => cmp left right ≠ .gt).dedup = keys := by
  have sorted : keys.Pairwise fun left right => cmp left right ≠ .gt :=
    List.Pairwise.imp not_gt_of_lt ascends
  rw [sorted.insertionSort_eq]
  exact ascends.nodup.dedup

end

namespace SortedMap

variable {K V : Type} [LinearOrder K] (cmp : K → K → Ordering)

def listing (map : SortedMap K V) : List (K × V) :=
  map.entries.insertionSort fun left right => cmp left.1 right.1 ≠ .gt

theorem mem_listing {map : SortedMap K V} {entry : K × V} :
    entry ∈ map.listing cmp ↔ entry ∈ map.entries :=
  List.mem_insertionSort _

variable {cmp} [Std.TransCmp cmp] [Std.LawfulEqCmp cmp]

omit [Std.LawfulEqCmp cmp] in
private theorem listing_sorted (map : SortedMap K V) :
    (map.listing cmp).Pairwise fun left right => cmp left.1 right.1 ≠ .gt :=
  @List.pairwise_insertionSort _
    (fun left right : K × V => cmp left.1 right.1 ≠ .gt) _
    ⟨fun left right => not_gt_total left.1 right.1⟩
    ⟨fun _ _ _ => not_gt_trans⟩ map.entries

omit [Std.TransCmp cmp] [Std.LawfulEqCmp cmp] in
private theorem nodup_listing (map : SortedMap K V) :
    ((map.listing cmp).map Prod.fst).Nodup :=
  ((List.perm_insertionSort _ map.entries).map Prod.fst).nodup_iff.mpr
    map.keys_nodup

theorem listing_ascends (map : SortedMap K V) :
    AscendsIn cmp ((map.listing cmp).map Prod.fst) := by
  have distinct : ((map.listing cmp).map Prod.fst).Nodup := nodup_listing map
  rw [List.Nodup, List.pairwise_map] at distinct
  rw [AscendsIn, List.pairwise_map]
  exact ((listing_sorted map).and distinct).imp fun both =>
    lt_of_not_gt_of_ne both.1 both.2

omit [LinearOrder K] [Std.TransCmp cmp] [Std.LawfulEqCmp cmp] in
private theorem functional_of_nodup {entries : List (K × V)}
    (distinct : (entries.map Prod.fst).Nodup) :
    ∀ first ∈ entries, ∀ second ∈ entries, first.1 = second.1 →
      first.2 = second.2 := by
  intro first firstIn second secondIn same
  rw [List.inj_on_of_nodup_map distinct firstIn secondIn same]

omit [Std.TransCmp cmp] [Std.LawfulEqCmp cmp] in
theorem ofList_listing (map : SortedMap K V) : ofList (map.listing cmp) = map := by
  apply ext_get
  intro key
  apply Option.ext
  intro value
  rw [get_ofList_eq_some (functional_of_nodup (nodup_listing map)), mem_listing,
    get_eq_some_iff]

theorem listing_ofList {entries : List (K × V)}
    (ascends : AscendsIn cmp (entries.map Prod.fst)) :
    (ofList entries).listing cmp = entries := by
  have distinct := ascends.nodup
  have sorted : entries.Pairwise fun left right => cmp left.1 right.1 ≠ .gt := by
    rw [AscendsIn, List.pairwise_map] at ascends
    exact List.Pairwise.imp not_gt_of_lt ascends
  have sameMembers : ∀ entry, entry ∈ (ofList entries).listing cmp ↔ entry ∈ entries := by
    intro entry
    rw [mem_listing, ← get_eq_some_iff,
      get_ofList_eq_some (functional_of_nodup distinct)]
  have permuted : ((ofList entries).listing cmp).Perm entries :=
    (List.perm_ext_iff_of_nodup (nodup_listing _).of_map distinct.of_map).mpr sameMembers
  refine List.Perm.eq_of_pairwise ?_ (listing_sorted _) sorted permuted
  intro left right leftIn rightIn forth back
  by_contra different
  have keysDiffer : left.1 ≠ right.1 := by
    intro same
    exact different (List.inj_on_of_nodup_map distinct
      ((sameMembers left).mp leftIn) rightIn same)
  exact back (Std.OrientedCmp.gt_of_lt (lt_of_not_gt_of_ne forth keysDiffer))

/-- The map with every value replaced. -/
def mapValues {W : Type} (f : V → W) (map : SortedMap K V) : SortedMap K W where
  entries := map.entries.map fun entry => (entry.1, f entry.2)
  ascending := by
    rw [Ascending, List.pairwise_map]
    exact map.ascending

omit [Std.TransCmp cmp] [Std.LawfulEqCmp cmp] in
theorem listing_mapValues {W : Type} (f : V → W) (map : SortedMap K V) :
    (map.mapValues f).listing cmp =
      (map.listing cmp).map fun entry => (entry.1, f entry.2) := by
  refine (List.map_insertionSort _ _ _ _ ?_).symm
  intro left _ right _
  exact Iff.rfl

end SortedMap

end Acetone.Lib

import Mathlib.Data.List.Induction
import Acetone.Lib.Outcome
import Acetone.Lib.SortedMap

/-!
# Grouping into a sorted map

Items are grouped by key: a group keeps what its first item shows and lists the
members in the order of the items.  Two sorted maps whose reports agree key by
key give the same list of reports.
-/

namespace Acetone.Lib

section

variable {K S M : Type} [LinearOrder K]

structure Grouped (K S M : Type) where
  key : K
  shown : S
  member : M

/-- What is first shown, and the members. -/
abbrev Group (S M : Type) := S × List M

/-- Enter an item into its group, which it opens if there is none. -/
def enterGroup (groups : SortedMap K (Group S M)) (item : Grouped K S M) :
    SortedMap K (Group S M) :=
  let group := (groups.get item.key).getD (item.shown, [])
  groups.put item.key (group.1, group.2 ++ [item.member])

def groupAll (items : List (Grouped K S M)) : SortedMap K (Group S M) :=
  items.foldl enterGroup .empty

def itemsOf (key : K) (items : List (Grouped K S M)) : List (Grouped K S M) :=
  items.filter fun item => item.key = key

@[simp] theorem itemsOf_nil (key : K) : itemsOf key ([] : List (Grouped K S M)) = [] := rfl

theorem itemsOf_append (key : K) (first second : List (Grouped K S M)) :
    itemsOf key (first ++ second) = itemsOf key first ++ itemsOf key second :=
  List.filter_append _ _

/-- The group of some items with a common key. -/
def groupOf (items : List (Grouped K S M)) : Option (Group S M) :=
  items.head?.map fun first => (first.shown, items.map Grouped.member)

omit [LinearOrder K] in
theorem groupOf_concat (items : List (Grouped K S M)) (last : Grouped K S M) :
    groupOf (items ++ [last]) =
      some (((groupOf items).getD (last.shown, [])).1,
        ((groupOf items).getD (last.shown, [])).2 ++ [last.member]) := by
  cases items with
  | nil => rfl
  | cons first rest => simp [groupOf]

theorem get_groupAll (items : List (Grouped K S M)) (key : K) :
    (groupAll items).get key = groupOf (itemsOf key items) := by
  simp only [itemsOf]
  induction items using List.reverseRecOn with
  | nil => rfl
  | append_singleton items last ih =>
      rw [groupAll, List.foldl_concat, ← groupAll, enterGroup, SortedMap.get_put]
      by_cases same : last.key = key
      · subst same
        have alone : [last].filter (fun item => item.key = last.key) = [last] := by simp
        rw [if_pos rfl, List.filter_append, alone, groupOf_concat, ih]
      · rw [if_neg same, List.filter_append, List.filter_cons_of_neg (by simpa using same),
          List.filter_nil, List.append_nil, ih]

end

section

variable {K L A B R : Type} [LinearOrder K] [LinearOrder L]

def reportsOf (map : SortedMap K A) (report : K → A → Option R) : List R :=
  map.entries.filterMap fun entry => report entry.1 entry.2

/-- The reports with the keys they are listed under. -/
def keyedReports (entries : List (K × A)) (rename : K → L) (report : K → A → Option R) :
    List (L × R) :=
  entries.filterMap fun entry => (report entry.1 entry.2).map fun made => (rename entry.1, made)

omit [LinearOrder K] [LinearOrder L] in
private theorem map_keyedReports (entries : List (K × A)) (rename : K → L)
    (report : K → A → Option R) :
    (keyedReports entries rename report).map Prod.snd =
      entries.filterMap fun entry => report entry.1 entry.2 := by
  rw [keyedReports, List.map_filterMap]
  congr 1
  funext entry
  cases report entry.1 entry.2 <;> rfl

theorem keyedReports_ascending {entries : List (K × A)} (ascending : Ascending entries)
    {rename : K → L} (mono : StrictMono rename) (report : K → A → Option R) :
    Ascending (keyedReports entries rename report) := by
  apply List.Pairwise.filterMap _ _ ascending
  intro first second below left isLeft right isRight
  obtain ⟨_, -, rfl⟩ := Option.map_eq_some_iff.mp isLeft
  obtain ⟨_, -, rfl⟩ := Option.map_eq_some_iff.mp isRight
  exact mono below

theorem lookup_keyedReports {entries : List (K × A)} (ascending : Ascending entries)
    {rename : K → L} (mono : StrictMono rename) (report : K → A → Option R) (key : K) :
    lookup (rename key) (keyedReports entries rename report) =
      (lookup key entries).bind (report key) := by
  apply Option.ext
  intro made
  rw [(keyedReports_ascending ascending mono report).lookup_eq_some_iff, keyedReports,
    List.mem_filterMap, Option.bind_eq_some_iff]
  constructor
  · rintro ⟨⟨other, value⟩, member, isMade⟩
    obtain ⟨_, reported, same⟩ := Option.map_eq_some_iff.mp isMade
    obtain ⟨sameKey, rfl⟩ := Prod.mk.inj same
    obtain rfl := mono.injective sameKey
    exact ⟨value, ascending.lookup_of_mem member, reported⟩
  · rintro ⟨value, found, reported⟩
    exact ⟨(key, value), mem_of_lookup_eq_some found, by rw [reported]; rfl⟩

/-- Reports agree if they do at every key; what is listed under a renamed key in
one map has no report outside the new names. -/
theorem reportsOf_eq {left : SortedMap K A} {right : SortedMap L B} {rename : L → K}
    (mono : StrictMono rename) {leftReport : K → A → Option R} {rightReport : L → B → Option R}
    (inside : ∀ key, (left.get (rename key)).bind (leftReport (rename key)) =
      (right.get key).bind (rightReport key))
    (outside : ∀ key, (∀ other, rename other ≠ key) →
      (left.get key).bind (leftReport key) = none) :
    reportsOf left leftReport = reportsOf right rightReport := by
  have same : keyedReports left.entries id leftReport =
      keyedReports right.entries rename rightReport := by
    apply Ascending.ext (keyedReports_ascending left.ascending strictMono_id leftReport)
      (keyedReports_ascending right.ascending mono rightReport)
    intro key
    rw [show key = id key from rfl, lookup_keyedReports left.ascending strictMono_id, id]
    by_cases named : ∃ other, rename other = key
    · obtain ⟨other, rfl⟩ := named
      rw [lookup_keyedReports right.ascending mono]
      exact inside other
    · rw [not_exists] at named
      have absent : lookup key (keyedReports right.entries rename rightReport) = none := by
        rw [lookup_eq_none]
        intro entry member same
        obtain ⟨row, -, isMade⟩ := List.mem_filterMap.mp member
        obtain ⟨_, -, rfl⟩ := Option.map_eq_some_iff.mp isMade
        exact named _ same
      rw [absent]
      exact outside key named
  rw [reportsOf, reportsOf, ← map_keyedReports left.entries id, same, map_keyedReports]

end

section

variable {K V W : Type} [LinearOrder K]

theorem SortedMap.entries_ofList {entries : List (K × V)} (ascending : Ascending entries) :
    (SortedMap.ofList entries).entries = entries :=
  (SortedMap.entries_putAll entries).trans ascending.sortDedupe_eq

theorem Ascending.filter_key {entries : List (K × V)} (ascending : Ascending entries) {key : K}
    {value : V} (member : (key, value) ∈ entries) :
    (entries.filter fun entry => entry.1 = key) = [(key, value)] := by
  apply (ascending.sublist List.filter_sublist).ext (List.pairwise_singleton _ _)
  intro query
  by_cases same : key = query
  · subst same
    rw [lookup_cons, if_pos rfl]
    have kept : (key, value) ∈ entries.filter fun entry => entry.1 = key :=
      List.mem_filter.mpr ⟨member, decide_eq_true rfl⟩
    exact (ascending.sublist List.filter_sublist).lookup_of_mem kept
  · rw [lookup_cons, if_neg same, lookup_nil, lookup_eq_none]
    intro entry inside isQuery
    exact same ((of_decide_eq_true (List.mem_filter.mp inside).2).symm.trans isQuery)

/-- An entry put at its place between those below and those above it. -/
theorem takeWhile_cons_dropWhile {entries : List (K × V)} {key : K} {value : V}
    (absent : ∀ entry ∈ entries, entry.1 ≠ key) :
    entries.takeWhile (fun entry => entry.1 < key) ++
        (key, value) :: entries.dropWhile (fun entry => entry.1 < key) =
      insertEntry key value entries := by
  induction entries with
  | nil => rfl
  | cons head rest ih =>
      have apart := absent head List.mem_cons_self
      rw [insertEntry]
      by_cases below : head.1 < key
      · rw [List.takeWhile_cons_of_pos (by simpa using below),
          List.dropWhile_cons_of_pos (by simpa using below), if_neg below.le.not_gt,
          if_neg apart.symm, List.cons_append,
          ih fun entry member => absent entry (List.mem_cons_of_mem _ member)]
      · rw [List.takeWhile_cons_of_neg (by simpa using below),
          List.dropWhile_cons_of_neg (by simpa using below),
          if_pos (lt_of_le_of_ne (not_lt.mp below) apart.symm)]
        rfl

end

section

variable {failure α β γ : Type}

theorem gather_of_ok {f : α → Except failure (List β)} {found : α → List β} {items : List α}
    (each : ∀ item ∈ items, f item = .ok (found item)) :
    gather f items = .ok (items.flatMap found) := by
  have parts : items.mapM f = .ok (items.map found) := by
    induction items with
    | nil => rfl
    | cons item rest ih =>
        rw [List.mapM_cons, each item List.mem_cons_self, ok_bind,
          ih fun other member => each other (List.mem_cons_of_mem _ member)]
        rfl
  rw [gather, parts, ok_bind, List.flatMap_def]

theorem gather_cons {f : α → Except failure (List β)} {item : α} {items : List α} :
    gather f (item :: items) =
      f item >>= fun first => gather f items >>= fun rest => .ok (first ++ rest) := by
  rw [gather, List.mapM_cons]
  cases f item with
  | error cause => rfl
  | ok first =>
      cases rest : items.mapM f with
      | error cause =>
          simp only [gather, rest]
          rfl
      | ok others =>
          simp only [gather, rest]
          rfl

/-- Actions that fail alike fail alike over a list. -/
theorem gather_error_congr {found : Type} {f : α → Except failure (List β)}
    {g : α → Except failure (List found)} {items : List α}
    (errors : ∀ item ∈ items, ∀ cause, f item = .error cause → g item = .error cause)
    (results : ∀ item ∈ items, ∀ made, f item = .ok made → ∃ other, g item = .ok other)
    {cause : failure} (fails : gather f items = .error cause) :
    gather g items = .error cause := by
  induction items with
  | nil => cases fails
  | cons item rest ih =>
      have later := ih (fun other member => errors other (List.mem_cons_of_mem _ member))
        fun other member => results other (List.mem_cons_of_mem _ member)
      rw [gather_cons] at fails ⊢
      cases first : f item with
      | error other =>
          rw [first] at fails
          cases fails
          rw [errors item List.mem_cons_self _ first]
          rfl
      | ok made =>
          obtain ⟨other, isOther⟩ := results item List.mem_cons_self made first
          rw [first, ok_bind] at fails
          cases remaining : gather f rest with
          | error failed =>
              rw [remaining] at fails
              cases fails
              rw [isOther, ok_bind, later remaining]
              rfl
          | ok others =>
              rw [remaining] at fails
              cases fails

/-- The first failure of an action is the failure of the whole. -/
theorem gather_error_of_mem {f : α → Except failure (List β)} {items : List α} {item : α}
    (member : item ∈ items) {cause : failure} (fails : f item = .error cause)
    (others : ∀ other ∈ items, other ≠ item → ∃ found, f other = .ok found) :
    gather f items = .error cause := by
  classical
  induction items with
  | nil => cases member
  | cons head rest ih =>
      rw [gather_cons]
      by_cases same : head = item
      · rw [same, fails]
        rfl
      · obtain ⟨found, isFound⟩ := others head List.mem_cons_self same
        have later := (List.mem_cons.mp member).resolve_left (Ne.symm same)
        rw [isFound, ok_bind, ih later fun other inside =>
          others other (List.mem_cons_of_mem _ inside)]
        rfl

omit failure γ in
/-- Items that yield nothing may be left out. -/
theorem flatMap_filter_of_nil {items : List α} {keep : α → Bool} {found : α → List β}
    (empty : ∀ item ∈ items, keep item = false → found item = []) :
    (items.filter keep).flatMap found = items.flatMap found := by
  induction items with
  | nil => rfl
  | cons item rest ih =>
      have later := ih fun other member => empty other (List.mem_cons_of_mem _ member)
      by_cases kept : keep item = true
      · rw [List.filter_cons_of_pos kept, List.flatMap_cons, List.flatMap_cons, later]
      · have nothing := empty item List.mem_cons_self (Bool.eq_false_of_not_eq_true kept)
        rw [List.filter_cons_of_neg kept, List.flatMap_cons, nothing, later, List.nil_append]

/-- Rows kept by what they read as. -/
theorem mapM_filter {f : α → Except failure β} {items : List α} {results : List β}
    (done : items.mapM f = .ok results) {keep : α → Bool} {keeps : β → Bool}
    (same : ∀ item ∈ items, ∀ result, f item = .ok result → keep item = keeps result) :
    (items.filter keep).mapM f = .ok (results.filter keeps) := by
  rw [mapM_eq_ok] at done
  induction done with
  | nil => rfl
  | @cons item result items results first rest ih =>
      have later := ih fun other member => same other (List.mem_cons_of_mem _ member)
      have agree := same item List.mem_cons_self result first
      by_cases kept : keep item = true
      · rw [List.filter_cons_of_pos kept, List.filter_cons_of_pos (agree ▸ kept),
          List.mapM_cons, first, ok_bind, later]
        rfl
      · rw [List.filter_cons_of_neg kept, List.filter_cons_of_neg (agree ▸ kept), later]

/-- What is done with the results may as well be done at each item. -/
theorem mapM_bind {f : α → Except failure β} {items : List α} {results : List β}
    (done : items.mapM f = .ok results) (next : β → Except failure γ) :
    (items.mapM fun item => f item >>= next) = results.mapM next := by
  rw [mapM_eq_ok] at done
  induction done with
  | nil => rfl
  | cons first rest ih => rw [List.mapM_cons, List.mapM_cons, first, ok_bind, ih]

end

end Acetone.Lib

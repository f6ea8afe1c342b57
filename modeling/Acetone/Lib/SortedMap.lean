import Mathlib.Order.Basic
import Mathlib.Order.Lattice
import Mathlib.Order.Compare
import Mathlib.Data.List.Sort
import Mathlib.Logic.Function.Basic

/-!
# Finite maps as ascending association lists

An ordered map is a list of entries with strictly ascending keys.  Such a list
is determined by its lookups (`Ascending.ext`), so an algorithm on lists is
shown to be a map operation by computing the lookups of its result.
-/

namespace Acetone.Lib

variable {K V : Type} [LinearOrder K]

def Ascending (entries : List (K × V)) : Prop :=
  entries.Pairwise (fun left right => left.1 < right.1)

def lookup (key : K) : List (K × V) → Option V
  | [] => none
  | (other, value) :: rest =>
      if other = key then some value else lookup key rest

@[simp] theorem lookup_nil (key : K) : lookup key ([] : List (K × V)) = none :=
  rfl

theorem lookup_cons (key : K) (entry : K × V) (rest : List (K × V)) :
    lookup key (entry :: rest) =
      if entry.1 = key then some entry.2 else lookup key rest :=
  rfl

theorem lookup_append (key : K) (left right : List (K × V)) :
    lookup key (left ++ right) = (lookup key left).or (lookup key right) := by
  induction left with
  | nil => rfl
  | cons entry left ih =>
      rw [List.cons_append, lookup_cons, lookup_cons, ih]
      split <;> rfl

theorem lookup_eq_none {key : K} {entries : List (K × V)} :
    lookup key entries = none ↔ ∀ entry ∈ entries, entry.1 ≠ key := by
  induction entries with
  | nil => simp
  | cons entry entries ih =>
      rw [lookup_cons]
      split
      · next same => simp [same]
      · next different => simp [ih, different]

theorem mem_of_lookup_eq_some {key : K} {value : V} {entries : List (K × V)}
    (found : lookup key entries = some value) : (key, value) ∈ entries := by
  induction entries with
  | nil => cases found
  | cons entry entries ih =>
      rw [lookup_cons] at found
      split at found
      · next same =>
          cases found
          subst same
          exact List.mem_cons_self
      · exact List.mem_cons_of_mem _ (ih found)

namespace Ascending

theorem nil : Ascending ([] : List (K × V)) := List.Pairwise.nil

theorem cons_iff {entry : K × V} {rest : List (K × V)} :
    Ascending (entry :: rest) ↔
      (∀ later ∈ rest, entry.1 < later.1) ∧ Ascending rest :=
  List.pairwise_cons

theorem tail {entry : K × V} {rest : List (K × V)}
    (ascending : Ascending (entry :: rest)) : Ascending rest :=
  (cons_iff.mp ascending).2

theorem append_iff {left right : List (K × V)} :
    Ascending (left ++ right) ↔ Ascending left ∧ Ascending right ∧
      ∀ first ∈ left, ∀ second ∈ right, first.1 < second.1 :=
  List.pairwise_append

theorem sublist {left right : List (K × V)} (sub : left.Sublist right)
    (ascending : Ascending right) : Ascending left :=
  List.Pairwise.sublist sub ascending

theorem lookup_of_mem {entries : List (K × V)} (ascending : Ascending entries)
    {entry : K × V} (member : entry ∈ entries) :
    lookup entry.1 entries = some entry.2 := by
  induction entries with
  | nil => cases member
  | cons head entries ih =>
      obtain ⟨above, rest⟩ := cons_iff.mp ascending
      rw [lookup_cons]
      rcases List.mem_cons.mp member with rfl | later
      · exact if_pos rfl
      · rw [if_neg (above entry later).ne, ih rest later]

theorem lookup_eq_some_iff {entries : List (K × V)}
    (ascending : Ascending entries) {key : K} {value : V} :
    lookup key entries = some value ↔ (key, value) ∈ entries :=
  ⟨mem_of_lookup_eq_some, fun member => ascending.lookup_of_mem member⟩

private theorem head_eq {left right : K × V} {lefts rights : List (K × V)}
    (leftAscending : Ascending (left :: lefts))
    (rightAscending : Ascending (right :: rights))
    (same : ∀ key, lookup key (left :: lefts) = lookup key (right :: rights)) :
    left = right := by
  have leftFound : lookup left.1 (right :: rights) = some left.2 := by
    rw [← same, lookup_cons, if_pos rfl]
  have rightFound : lookup right.1 (left :: lefts) = some right.2 := by
    rw [same, lookup_cons, if_pos rfl]
  have leftMember := mem_of_lookup_eq_some leftFound
  have rightMember := mem_of_lookup_eq_some rightFound
  rcases List.mem_cons.mp leftMember with equal | later
  · exact equal
  rcases List.mem_cons.mp rightMember with equal | earlier
  · exact equal.symm
  have below := (cons_iff.mp rightAscending).1 _ later
  have above := (cons_iff.mp leftAscending).1 _ earlier
  exact absurd below (lt_asymm above)

theorem ext {left right : List (K × V)} (leftAscending : Ascending left)
    (rightAscending : Ascending right)
    (same : ∀ key, lookup key left = lookup key right) : left = right := by
  induction left generalizing right with
  | nil =>
      cases right with
      | nil => rfl
      | cons entry right =>
          have found := same entry.1
          rw [lookup_cons, if_pos rfl] at found
          cases found
  | cons entry left ih =>
      cases right with
      | nil =>
          have found := same entry.1
          rw [lookup_cons, if_pos rfl] at found
          cases found
      | cons other right =>
          have equal := head_eq leftAscending rightAscending same
          subst equal
          refine congrArg (entry :: ·) (ih leftAscending.tail
            rightAscending.tail ?_)
          intro key
          by_cases here : entry.1 = key
          · subst here
            have leftNone := lookup_eq_none.mpr (fun later member =>
              ((cons_iff.mp leftAscending).1 later member).ne')
            have rightNone := lookup_eq_none.mpr (fun later member =>
              ((cons_iff.mp rightAscending).1 later member).ne')
            rw [leftNone, rightNone]
          · have found := same key
            rwa [lookup_cons, lookup_cons, if_neg here, if_neg here] at found

end Ascending

def insertEntry (key : K) (value : V) : List (K × V) → List (K × V)
  | [] => [(key, value)]
  | (other, old) :: rest =>
      if key < other then (key, value) :: (other, old) :: rest
      else if key = other then (key, value) :: rest
      else (other, old) :: insertEntry key value rest

def eraseEntry (key : K) (entries : List (K × V)) : List (K × V) :=
  entries.filter (fun entry => entry.1 ≠ key)

theorem mem_insertEntry {key : K} {value : V} {entries : List (K × V)}
    {entry : K × V} (member : entry ∈ insertEntry key value entries) :
    entry = (key, value) ∨ entry ∈ entries := by
  induction entries with
  | nil => exact .inl (by simpa [insertEntry] using member)
  | cons head entries ih =>
      rw [insertEntry] at member
      split at member
      · exact List.mem_cons.mp member
      split at member
      · rcases List.mem_cons.mp member with equal | later
        · exact .inl equal
        · exact .inr (List.mem_cons_of_mem _ later)
      · rcases List.mem_cons.mp member with equal | later
        · exact .inr (equal ▸ List.mem_cons_self)
        · exact (ih later).imp_right (List.mem_cons_of_mem _)

theorem Ascending.insertEntry {entries : List (K × V)}
    (ascending : Ascending entries) (key : K) (value : V) :
    Ascending (insertEntry key value entries) := by
  induction entries with
  | nil => exact List.pairwise_singleton _ _
  | cons head entries ih =>
      obtain ⟨above, rest⟩ := Ascending.cons_iff.mp ascending
      rw [Lib.insertEntry]
      split
      · next below =>
          refine Ascending.cons_iff.mpr ⟨?_, ascending⟩
          intro later member
          rcases List.mem_cons.mp member with rfl | member
          · exact below
          · exact below.trans (above later member)
      split
      · next same =>
          subst same
          exact Ascending.cons_iff.mpr ⟨above, rest⟩
      · next notBelow different =>
          refine Ascending.cons_iff.mpr ⟨?_, ih rest⟩
          intro later member
          rcases mem_insertEntry member with rfl | old
          · exact lt_of_le_of_ne (not_lt.mp notBelow) (Ne.symm different)
          · exact above later old

theorem Ascending.eraseEntry {entries : List (K × V)}
    (ascending : Ascending entries) (key : K) :
    Ascending (eraseEntry key entries) :=
  ascending.sublist List.filter_sublist

theorem lookup_insertEntry (key : K) (value : V) (entries : List (K × V))
    (query : K) :
    lookup query (insertEntry key value entries) =
      if key = query then some value else lookup query entries := by
  induction entries with
  | nil => rfl
  | cons head entries ih =>
      rw [insertEntry]
      split
      · rfl
      split
      · next same =>
          subst same
          simp only [lookup_cons]
          split <;> rfl
      · next different =>
          rw [lookup_cons, lookup_cons, ih]
          split
          · next here =>
              rw [if_neg]
              exact fun equal => different (equal.trans here.symm)
          · rfl

theorem lookup_eraseEntry (key : K) (entries : List (K × V)) (query : K) :
    lookup query (eraseEntry key entries) =
      if key = query then none else lookup query entries := by
  induction entries with
  | nil => simp [eraseEntry]
  | cons head entries ih =>
      by_cases drop : head.1 = key
      · have erased : eraseEntry key (head :: entries) =
            eraseEntry key entries := by simp [eraseEntry, drop]
        rw [erased, ih, lookup_cons, drop]
        split <;> rfl
      · have kept : eraseEntry key (head :: entries) =
            head :: eraseEntry key entries := by simp [eraseEntry, drop]
        rw [kept, lookup_cons, ih, lookup_cons]
        split
        · next here => rw [if_neg (fun equal => drop (here.trans equal.symm))]
        · rfl

/-- A finite ordered map. -/
structure SortedMap (K V : Type) [LinearOrder K] where
  entries : List (K × V)
  ascending : Ascending entries

namespace SortedMap

@[ext] theorem ext_entries {left right : SortedMap K V}
    (same : left.entries = right.entries) : left = right := by
  cases left
  cases right
  cases same
  rfl

instance [DecidableEq V] : DecidableEq (SortedMap K V) := fun left right =>
  decidable_of_iff (left.entries = right.entries)
    ⟨ext_entries, fun same => same ▸ rfl⟩

def empty : SortedMap K V := ⟨[], .nil⟩

def get (map : SortedMap K V) (key : K) : Option V := lookup key map.entries

def put (map : SortedMap K V) (key : K) (value : V) : SortedMap K V :=
  ⟨insertEntry key value map.entries, map.ascending.insertEntry key value⟩

def delete (map : SortedMap K V) (key : K) : SortedMap K V :=
  ⟨eraseEntry key map.entries, map.ascending.eraseEntry key⟩

theorem get_put (map : SortedMap K V) (key : K) (value : V) (query : K) :
    (map.put key value).get query =
      if key = query then some value else map.get query :=
  lookup_insertEntry key value map.entries query

theorem get_delete (map : SortedMap K V) (key : K) (query : K) :
    (map.delete key).get query =
      if key = query then none else map.get query :=
  lookup_eraseEntry key map.entries query

theorem get_eq_some_iff {map : SortedMap K V} {key : K} {value : V} :
    map.get key = some value ↔ (key, value) ∈ map.entries :=
  map.ascending.lookup_eq_some_iff

theorem get_ne_none_iff {map : SortedMap K V} {key : K} :
    map.get key ≠ none ↔ ∃ value, (key, value) ∈ map.entries := by
  rw [Option.ne_none_iff_exists']
  exact exists_congr fun _ => get_eq_some_iff

theorem get_ne_none_of_mem {map : SortedMap K V} {entry : K × V}
    (member : entry ∈ map.entries) : map.get entry.1 ≠ none :=
  get_ne_none_iff.mpr ⟨_, member⟩

def keys (map : SortedMap K V) : List K := map.entries.map Prod.fst

theorem keys_nodup (map : SortedMap K V) : map.keys.Nodup := by
  rw [keys, List.Nodup, List.pairwise_map]
  exact List.Pairwise.imp (fun less => ne_of_lt less) map.ascending

theorem mem_keys {map : SortedMap K V} {key : K} :
    key ∈ map.keys ↔ map.get key ≠ none := by
  rw [keys, List.mem_map, get_ne_none_iff]
  constructor
  · rintro ⟨entry, member, rfl⟩
    exact ⟨entry.2, member⟩
  · rintro ⟨value, member⟩
    exact ⟨_, member, rfl⟩

theorem ext_get {left right : SortedMap K V}
    (same : ∀ key, left.get key = right.get key) : left = right :=
  ext_entries (left.ascending.ext right.ascending same)

end SortedMap

inductive MapOp (K V : Type) where
  | put (key : K) (value : V)
  | delete (key : K)
deriving DecidableEq, Repr

namespace MapOp

def key : MapOp K V → K
  | .put key _ => key
  | .delete key => key

/-- What the update leaves under its key. -/
def outcome : MapOp K V → Option V
  | .put _ value => some value
  | .delete _ => none

def apply (map : SortedMap K V) : MapOp K V → SortedMap K V
  | .put key value => map.put key value
  | .delete key => map.delete key

theorem get_apply (map : SortedMap K V) (op : MapOp K V) (query : K) :
    (apply map op).get query =
      if op.key = query then op.outcome else map.get query := by
  cases op with
  | put key value => exact map.get_put key value query
  | delete key => exact map.get_delete key query

end MapOp

def SortedMap.applyAll (map : SortedMap K V) (ops : List (MapOp K V)) :
    SortedMap K V :=
  ops.foldl MapOp.apply map

section LastFor

variable {α : Type} (key : α → K)

def lastFor (query : K) : List α → Option α
  | [] => none
  | item :: items =>
      (lastFor query items).or (if key item = query then some item else none)

theorem lastFor_eq_filter (query : K) (items : List α) :
    lastFor key query items =
      (items.filter (fun item => key item = query)).getLast? := by
  induction items with
  | nil => rfl
  | cons item items ih =>
      rw [lastFor, ih]
      by_cases here : key item = query
      · rw [if_pos here, List.filter_cons_of_pos (by simpa using here),
          List.getLast?_cons]
        cases (items.filter (fun item => key item = query)).getLast? <;> rfl
      · rw [if_neg here, List.filter_cons_of_neg (by simpa using here),
          Option.or_none]

theorem lastFor_map {β : Type} (f : β → α) (query : K) (items : List β) :
    lastFor key query (items.map f) =
      (lastFor (fun item => key (f item)) query items).map f := by
  induction items with
  | nil => rfl
  | cons item items ih =>
      rw [List.map_cons, lastFor, lastFor, ih]
      cases lastFor (fun item => key (f item)) query items with
      | some later => rfl
      | none =>
          simp only [Option.map_none, Option.none_or]
          split <;> rfl

theorem key_of_lastFor {query : K} {items : List α} {item : α}
    (found : lastFor key query items = some item) :
    item ∈ items ∧ key item = query := by
  rw [lastFor_eq_filter] at found
  have member := List.mem_of_getLast? found
  simpa using List.mem_filter.mp member

/-- Keep the last of each run of items with equal keys; `current` is the item
the run has kept so far. -/
def absorb (current : α) : List α → List α
  | [] => [current]
  | item :: items =>
      if key current = key item then absorb item items
      else current :: absorb item items

def dedupeLast : List α → List α
  | [] => []
  | item :: items => absorb key item items

/-- Stable sort by key, then keep the last item of each key. -/
def sortDedupe (items : List α) : List α :=
  dedupeLast key (items.insertionSort (fun left right => key left ≤ key right))

private theorem filter_orderedInsert (query : K) (item : α) (items : List α) :
    (items.orderedInsert (fun left right => key left ≤ key right) item).filter
        (fun other => key other = query) =
      (item :: items).filter (fun other => key other = query) := by
  induction items with
  | nil => rfl
  | cons head items ih =>
      rw [List.orderedInsert]
      split
      · rfl
      · next above =>
          rw [List.filter_cons, ih]
          by_cases here : key item = query
          · have other : key head ≠ query :=
              here ▸ (not_le.mp above).ne
            simp [here, other]
          · simp [List.filter_cons, here]

theorem lastFor_insertionSort (query : K) (items : List α) :
    lastFor key query
        (items.insertionSort (fun left right => key left ≤ key right)) =
      lastFor key query items := by
  rw [lastFor_eq_filter, lastFor_eq_filter]
  congr 1
  induction items with
  | nil => rfl
  | cons item items ih =>
      rw [List.insertionSort_cons, filter_orderedInsert, List.filter_cons, ih,
        List.filter_cons]

private theorem lastFor_absorb (query : K) (current : α) (items : List α) :
    lastFor key query (absorb key current items) =
      lastFor key query (current :: items) := by
  induction items generalizing current with
  | nil => rfl
  | cons item items ih =>
      rw [absorb]
      split
      · next same =>
          rw [ih, lastFor, lastFor, lastFor]
          cases lastFor key query items with
          | some later => rfl
          | none =>
              simp only [Option.none_or, same]
              split <;> rfl
      · rw [lastFor, ih, ← lastFor]

theorem lastFor_sortDedupe (query : K) (items : List α) :
    lastFor key query (sortDedupe key items) = lastFor key query items := by
  rw [sortDedupe, ← lastFor_insertionSort key query items]
  cases items.insertionSort (fun left right => key left ≤ key right) with
  | nil => rfl
  | cons item items => exact lastFor_absorb key query item items

private theorem mem_absorb {current item : α} {items : List α}
    (member : item ∈ absorb key current items) : item ∈ current :: items := by
  induction items generalizing current with
  | nil => exact member
  | cons head items ih =>
      rw [absorb] at member
      split at member
      · exact List.mem_cons_of_mem _ (ih member)
      · rcases List.mem_cons.mp member with rfl | later
        · exact List.mem_cons_self
        · exact List.mem_cons_of_mem _ (ih later)

private theorem absorb_ascending {current : α} {items : List α}
    (sorted : (current :: items).Pairwise (fun a b => key a ≤ key b)) :
    (absorb key current items).Pairwise (fun a b => key a < key b) := by
  induction items generalizing current with
  | nil => exact List.pairwise_singleton _ _
  | cons item items ih =>
      obtain ⟨below, rest⟩ := List.pairwise_cons.mp sorted
      rw [absorb]
      split
      · exact ih rest
      · next different =>
          refine List.pairwise_cons.mpr ⟨?_, ih rest⟩
          intro later member
          have first : key current < key item :=
            lt_of_le_of_ne (below item List.mem_cons_self) different
          rcases List.mem_cons.mp (mem_absorb key member) with rfl | after
          · exact first
          · exact first.trans_le ((List.pairwise_cons.mp rest).1 later after)

theorem sortDedupe_ascending (items : List α) :
    (sortDedupe key items).Pairwise (fun a b => key a < key b) := by
  have total : Std.Total (fun left right : α => key left ≤ key right) :=
    ⟨fun left right => le_total (key left) (key right)⟩
  have trans : IsTrans α (fun left right : α => key left ≤ key right) :=
    ⟨fun _ _ _ first second => le_trans first second⟩
  have sorted := List.pairwise_insertionSort
    (fun left right : α => key left ≤ key right) items
  rw [sortDedupe]
  revert sorted
  cases items.insertionSort (fun left right => key left ≤ key right) with
  | nil => exact fun _ => List.Pairwise.nil
  | cons item items => exact absorb_ascending key

theorem lastFor_eq_none {query : K} {items : List α} :
    lastFor key query items = none ↔ ∀ item ∈ items, key item ≠ query := by
  rw [lastFor_eq_filter, List.getLast?_eq_none_iff, List.filter_eq_nil_iff]
  simp

theorem exists_mem_sortDedupe {item : α} {items : List α} (member : item ∈ items) :
    ∃ other ∈ sortDedupe key items, key other = key item := by
  have found := lastFor_sortDedupe key (key item) items
  cases last : lastFor key (key item) items with
  | none =>
      exact absurd rfl ((lastFor_eq_none key).mp last item member)
  | some other =>
      rw [last] at found
      exact ⟨other, key_of_lastFor key found⟩

theorem lastFor_cons_of_ascending {item : α} {items : List α}
    (ascending : (item :: items).Pairwise (fun a b => key a < key b))
    (query : K) :
    lastFor key query (item :: items) =
      if key item = query then some item else lastFor key query items := by
  rw [lastFor]
  split
  · next here =>
      have none : lastFor key query items = none := by
        rw [lastFor_eq_none, ← here]
        exact fun later member =>
          ((List.pairwise_cons.mp ascending).1 later member).ne'
      rw [none]
      rfl
  · exact Option.or_none

end LastFor

/-- Later updates win: a batch acts on a key as its last update for it. -/
theorem SortedMap.get_applyAll (map : SortedMap K V) (ops : List (MapOp K V))
    (query : K) :
    (map.applyAll ops).get query =
      match lastFor MapOp.key query ops with
      | some op => op.outcome
      | none => map.get query := by
  induction ops generalizing map with
  | nil => rfl
  | cons op ops ih =>
      have step : map.applyAll (op :: ops) =
          (MapOp.apply map op).applyAll ops := rfl
      rw [step, ih, lastFor]
      cases lastFor MapOp.key query ops with
      | some later => rfl
      | none =>
          simp only [Option.none_or, MapOp.get_apply]
          split <;> rfl

theorem SortedMap.applyAll_append (map : SortedMap K V) (first second : List (MapOp K V)) :
    map.applyAll (first ++ second) = (map.applyAll first).applyAll second :=
  List.foldl_append

theorem SortedMap.get_foldl_delete (map : SortedMap K V) (keys : List K) (key : K) :
    (keys.foldl (fun map key => map.delete key) map).get key =
      if key ∈ keys then none else map.get key := by
  induction keys generalizing map with
  | nil => rfl
  | cons first others ih =>
      rw [List.foldl_cons, ih, SortedMap.get_delete]
      by_cases same : first = key
      · simp [same]
      · simp [same, Ne.symm same]

theorem SortedMap.get_applyAll_delete (map : SortedMap K V) (keys : List K) (key : K) :
    (map.applyAll (keys.map .delete)).get key = if key ∈ keys then none else map.get key := by
  rw [SortedMap.applyAll, List.foldl_map]
  exact map.get_foldl_delete keys key

theorem SortedMap.get_applyAll_of_absent {map : SortedMap K V} {ops : List (MapOp K V)}
    {key : K} (absent : ∀ op ∈ ops, op.key ≠ key) :
    (map.applyAll ops).get key = map.get key := by
  rw [SortedMap.get_applyAll, (lastFor_eq_none MapOp.key).mpr absent]

theorem SortedMap.get_applyAll_congr {left right : SortedMap K V} {ops : List (MapOp K V)}
    {key : K} (same : left.get key = right.get key) :
    (left.applyAll ops).get key = (right.applyAll ops).get key := by
  rw [SortedMap.get_applyAll, SortedMap.get_applyAll, same]

theorem SortedMap.applyAll_sortDedupe (map : SortedMap K V)
    (ops : List (MapOp K V)) :
    map.applyAll (sortDedupe MapOp.key ops) = map.applyAll ops := by
  apply SortedMap.ext_get
  intro query
  rw [map.get_applyAll, map.get_applyAll, lastFor_sortDedupe]

theorem Ascending.lookup_eq_lastFor {entries : List (K × V)}
    (ascending : Ascending entries) (query : K) :
    lookup query entries = (lastFor Prod.fst query entries).map Prod.snd := by
  induction entries with
  | nil => rfl
  | cons entry entries ih =>
      rw [lookup_cons, lastFor_cons_of_ascending Prod.fst ascending,
        ih (Ascending.tail ascending)]
      split <;> rfl

theorem Ascending.sortDedupe_eq {entries : List (K × V)}
    (ascending : Ascending entries) : sortDedupe Prod.fst entries = entries := by
  have sorted : Ascending (sortDedupe Prod.fst entries) :=
    sortDedupe_ascending Prod.fst entries
  apply sorted.ext ascending
  intro query
  rw [sorted.lookup_eq_lastFor, ascending.lookup_eq_lastFor, lastFor_sortDedupe]

/-- Putting pairs one by one into the empty map sorts and deduplicates
them. -/
theorem SortedMap.entries_putAll (entries : List (K × V)) :
    ((SortedMap.empty : SortedMap K V).applyAll
        (entries.map fun entry => .put entry.1 entry.2)).entries =
      sortDedupe Prod.fst entries := by
  apply (SortedMap.ascending _).ext (sortDedupe_ascending Prod.fst entries)
  intro query
  have byOps := SortedMap.get_applyAll (SortedMap.empty : SortedMap K V)
    (entries.map fun entry => MapOp.put entry.1 entry.2) query
  have key : (fun entry : K × V => MapOp.key (.put entry.1 entry.2)) = Prod.fst :=
    rfl
  rw [lastFor_map, key] at byOps
  rw [Ascending.lookup_eq_lastFor (sortDedupe_ascending Prod.fst entries),
    lastFor_sortDedupe]
  refine byOps.trans ?_
  cases lastFor Prod.fst query entries <;> rfl

namespace SortedMap

/-- Collect pairs; the last pair of a key wins. -/
def ofList (entries : List (K × V)) : SortedMap K V :=
  empty.applyAll (entries.map fun entry => .put entry.1 entry.2)

theorem get_ofList (entries : List (K × V)) (key : K) :
    (ofList entries).get key = (lastFor Prod.fst key entries).map Prod.snd := by
  have byEntries : (ofList entries).entries = sortDedupe Prod.fst entries :=
    entries_putAll entries
  rw [get, byEntries,
    Ascending.lookup_eq_lastFor (sortDedupe_ascending Prod.fst entries),
    lastFor_sortDedupe]

theorem get_ofList_eq_some {entries : List (K × V)}
    (functional : ∀ first ∈ entries, ∀ second ∈ entries, first.1 = second.1 →
      first.2 = second.2) {key : K} {value : V} :
    (ofList entries).get key = some value ↔ (key, value) ∈ entries := by
  rw [get_ofList]
  constructor
  · intro found
    obtain ⟨entry, last, rfl⟩ := Option.map_eq_some_iff.mp found
    obtain ⟨member, rfl⟩ := key_of_lastFor Prod.fst last
    exact member
  · intro member
    cases last : lastFor Prod.fst key entries with
    | none => exact absurd rfl ((lastFor_eq_none Prod.fst).mp last _ member)
    | some entry =>
        obtain ⟨inside, same⟩ := key_of_lastFor Prod.fst last
        exact congrArg some (functional entry inside _ member same)

theorem get_ofList_eq_none {entries : List (K × V)} {key : K} :
    (ofList entries).get key = none ↔ ∀ entry ∈ entries, entry.1 ≠ key := by
  rw [get_ofList, Option.map_eq_none_iff, lastFor_eq_none]

theorem get_ofList_map {W : Type} (f : V → W) (entries : List (K × V)) (key : K) :
    (ofList (entries.map fun entry => (entry.1, f entry.2))).get key =
      ((ofList entries).get key).map f := by
  rw [get_ofList, get_ofList, lastFor_map, Option.map_map, Option.map_map]
  rfl

end SortedMap

abbrev KeySet (K : Type) [LinearOrder K] := SortedMap K Unit

def KeySet.ofKeys (keys : List K) : KeySet K :=
  SortedMap.ofList (keys.map fun key => (key, ()))

theorem KeySet.get_ofKeys {keys : List K} {key : K} :
    (KeySet.ofKeys keys).get key = some () ↔ key ∈ keys := by
  rw [KeySet.ofKeys, SortedMap.get_ofList_eq_some (fun _ _ _ _ _ => rfl)]
  simp only [List.mem_map, Prod.mk.injEq, and_true, exists_eq_right]

theorem KeySet.get_ne_none {set : KeySet K} {key : K} :
    set.get key ≠ none ↔ set.get key = some () := by
  cases set.get key <;> simp

theorem KeySet.ext {left right : KeySet K}
    (same : ∀ key, left.get key = some () ↔ right.get key = some ()) : left = right := by
  apply SortedMap.ext_get
  intro key
  have here := same key
  cases inLeft : left.get key with
  | none =>
      rw [inLeft] at here
      exact (Option.eq_none_iff_forall_ne_some.mpr fun _ isRight => nomatch here.mpr isRight).symm
  | some found => exact (here.mp inLeft).symm

end Acetone.Lib

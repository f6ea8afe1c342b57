import Acetone.Lib.SortedMap

/-!
# Views of keyed lists

A list of items with distinct keys is edited without touching it: changed items
stand in a table of overrides, deleted keys in a set.  The view applies the
tables to the list.  Editing the tables changes the view as editing the list in
place would, and writing the overrides back into the list gives the view.
-/

namespace Acetone.Lib.KeyedView

variable {K α : Type} [LinearOrder K]

section

variable (key : α → K)

def updateAt (target : K) (change : α → α) (items : List α) : List α :=
  items.map fun item => if key item = target then change item else item

def dropAt (target : K) (items : List α) : List α :=
  items.filter fun item => key item ≠ target

def findAt (target : K) (items : List α) : Option α :=
  items.find? fun item => key item = target

/-- Replace the item of a key, or add it at the end. -/
def upsert (items : List α) (item : α) : List α :=
  if (findAt key (key item) items).isSome then
    updateAt key (key item) (fun _ => item) items
  else items ++ [item]

end

variable {key : α → K} {target : K} {items : List α} {item : α}

theorem findAt_some (found : findAt key target items = some item) :
    item ∈ items ∧ key item = target := by
  have isKey := List.find?_some found
  exact ⟨List.mem_of_find?_eq_some found, by simpa using isKey⟩

theorem findAt_eq_none : findAt key target items = none ↔ target ∉ items.map key := by
  rw [findAt, List.find?_eq_none]
  simp

theorem isSome_findAt : (findAt key target items).isSome ↔ target ∈ items.map key := by
  rw [← not_iff_not, Bool.not_eq_true, Option.isSome_eq_false_iff, Option.isNone_iff_eq_none,
    findAt_eq_none]

theorem findAt_append (items more : List α) :
    findAt key target (items ++ more) =
      (findAt key target items).or (findAt key target more) :=
  List.find?_append

omit [LinearOrder K] in
/-- Distinct keys name at most one item. -/
theorem eq_of_key (distinct : (items.map key).Nodup) {first second : α} (isFirst : first ∈ items)
    (isSecond : second ∈ items) (same : key first = key second) : first = second :=
  List.inj_on_of_nodup_map distinct isFirst isSecond same

theorem findAt_eq_some (distinct : (items.map key).Nodup) :
    findAt key target items = some item ↔ item ∈ items ∧ key item = target := by
  constructor
  · exact findAt_some
  · intro ⟨member, isKey⟩
    cases found : findAt key target items with
    | none => exact absurd (List.mem_map.mpr ⟨item, member, isKey⟩) (findAt_eq_none.mp found)
    | some other =>
        obtain ⟨isOther, otherKey⟩ := findAt_some found
        rw [eq_of_key distinct isOther member (otherKey.trans isKey.symm)]

theorem map_key_updateAt {change : α → α}
    (keeps : ∀ item ∈ items, key item = target → key (change item) = target) :
    (updateAt key target change items).map key = items.map key := by
  rw [updateAt, List.map_map]
  apply List.map_congr_left
  intro item member
  by_cases isKey : key item = target
  · simp [isKey, keeps item member isKey]
  · simp [isKey]

theorem updateAt_of_absent {change : α → α} (absent : findAt key target items = none) :
    updateAt key target change items = items := by
  rw [updateAt]
  apply (List.map_congr_left _).trans (List.map_id items)
  intro item member
  apply if_neg
  intro isKey
  exact findAt_eq_none.mp absent (List.mem_map.mpr ⟨item, member, isKey⟩)

theorem updateAt_of_found {change : α → α} (distinct : (items.map key).Nodup)
    (found : findAt key target items = some item) :
    updateAt key target change items = updateAt key target (fun _ => change item) items := by
  obtain ⟨member, isKey⟩ := findAt_some found
  apply List.map_congr_left
  intro other isOther
  by_cases otherKey : key other = target
  · rw [if_pos otherKey, if_pos otherKey,
      eq_of_key distinct isOther member (otherKey.trans isKey.symm)]
  · rw [if_neg otherKey, if_neg otherKey]

theorem updateAt_self (distinct : (items.map key).Nodup)
    (found : findAt key target items = some item) :
    updateAt key target (fun _ => item) items = items := by
  obtain ⟨member, isKey⟩ := findAt_some found
  apply (List.map_congr_left _).trans (List.map_id items)
  intro other isOther
  by_cases otherKey : key other = target
  · rw [if_pos otherKey, id, eq_of_key distinct isOther member (otherKey.trans isKey.symm)]
  · rw [if_neg otherKey, id]

section

variable (key)

/-- The item as it stands in the table of overrides, or itself. -/
def current (overrides : SortedMap K α) (item : α) : α :=
  (overrides.get (key item)).getD item

def view (items : List α) (overrides : SortedMap K α) (deleted : K → Bool) : List α :=
  (items.filter fun item => !deleted (key item)).map (current key overrides)

/-- Every override stands under the key of its item. -/
def Proper (overrides : SortedMap K α) : Prop :=
  ∀ target item, overrides.get target = some item → key item = target

end

variable {overrides : SortedMap K α} {deleted : K → Bool}

theorem Proper.empty : Proper key (SortedMap.empty : SortedMap K α) := by
  intro target item found
  cases found

theorem Proper.put (proper : Proper key overrides) (item : α) :
    Proper key (overrides.put (key item) item) := by
  intro target other found
  rw [SortedMap.get_put] at found
  split at found
  · next same =>
      cases found
      exact same
  · exact proper target other found

theorem key_current (proper : Proper key overrides) (item : α) :
    key (current key overrides item) = key item := by
  rw [current]
  cases found : overrides.get (key item) with
  | none => rfl
  | some other => exact proper _ other found

theorem view_append (items more : List α) :
    view key (items ++ more) overrides deleted =
      view key items overrides deleted ++ view key more overrides deleted := by
  rw [view, List.filter_append, List.map_append, view, view]

theorem map_key_view (proper : Proper key overrides) :
    (view key items overrides deleted).map key =
      (items.map key).filter fun target => !deleted target := by
  rw [view, List.map_map, List.filter_map]
  apply List.map_congr_left
  intro item _
  exact key_current proper item

theorem nodup_view (proper : Proper key overrides) (distinct : (items.map key).Nodup) :
    ((view key items overrides deleted).map key).Nodup := by
  rw [map_key_view proper]
  exact distinct.filter _

theorem mem_view {shown : α} : shown ∈ view key items overrides deleted ↔
    ∃ item ∈ items, deleted (key item) = false ∧ current key overrides item = shown := by
  simp [view, and_assoc]

/-- A lookup in the view: deleted keys are gone, the others are as they
stand. -/
theorem findAt_view (proper : Proper key overrides) (distinct : (items.map key).Nodup)
    (target : K) : findAt key target (view key items overrides deleted) =
      if deleted target then none else (findAt key target items).map (current key overrides) := by
  by_cases gone : deleted target
  · rw [if_pos gone, findAt_eq_none, map_key_view proper]
    simp [gone]
  · rw [if_neg gone]
    cases found : findAt key target items with
    | none =>
        rw [Option.map_none, findAt_eq_none, map_key_view proper, List.mem_filter]
        exact fun inside => findAt_eq_none.mp found inside.1
    | some item =>
        obtain ⟨member, isKey⟩ := findAt_some found
        rw [Option.map_some, findAt_eq_some (nodup_view proper distinct), key_current proper]
        refine ⟨mem_view.mpr ⟨item, member, ?_, rfl⟩, isKey⟩
        rw [isKey]
        exact Bool.eq_false_iff.mpr gone

theorem view_put (proper : Proper key overrides) (item : α) :
    view key items (overrides.put (key item) item) deleted =
      updateAt key (key item) (fun _ => item) (view key items overrides deleted) := by
  rw [updateAt, view, view, List.map_map]
  apply List.map_congr_left
  intro other _
  rw [Function.comp_apply, key_current proper, current, SortedMap.get_put]
  by_cases same : key other = key item
  · rw [if_pos same, if_pos same.symm, Option.getD_some]
  · rw [if_neg same, if_neg (Ne.symm same), current]

theorem isSome_get_put {V : Type} {table : SortedMap K V} {value : V} {other : K} :
    ((table.put target value).get other).isSome ↔ other = target ∨ (table.get other).isSome := by
  rw [SortedMap.get_put]
  by_cases same : target = other
  · simp [same]
  · simp [same, Ne.symm same]

theorem view_delete {V : Type} (proper : Proper key overrides) (table : SortedMap K V)
    (target : K) (value : V) :
    view key items overrides (fun other => ((table.put target value).get other).isSome) =
      dropAt key target
        (view key items overrides fun other => (table.get other).isSome) := by
  rw [dropAt, view, view, List.filter_map, List.filter_filter]
  congr 1
  apply List.filter_congr
  intro item _
  rw [Function.comp_apply, key_current proper, SortedMap.get_put]
  by_cases same : target = key item
  · simp [same]
  · simp [same, Ne.symm same]

theorem view_concat (plain : overrides.get (key item) = none) (live : deleted (key item) = false) :
    view key (items ++ [item]) overrides deleted =
      view key items overrides deleted ++ [item] := by
  rw [view_append]
  congr 1
  simp [view, live, current, plain]

theorem view_empty (none : ∀ target, deleted target = false) :
    view key items SortedMap.empty deleted = items := by
  have all : (items.filter fun item => !deleted (key item)) = items := by
    apply List.filter_eq_self.mpr
    intro item _
    rw [none, Bool.not_false]
  rw [view, all]
  exact List.map_id items

theorem map_key_upsert (items : List α) (item : α) :
    (upsert key items item).map key =
      if key item ∈ items.map key then items.map key else items.map key ++ [key item] := by
  rw [upsert]
  by_cases inside : key item ∈ items.map key
  · rw [if_pos (isSome_findAt.mpr inside), if_pos inside, map_key_updateAt]
    intro _ _ _
    rfl
  · rw [if_neg (fun found => inside (isSome_findAt.mp found)), if_neg inside, List.map_append,
      List.map_singleton]

/-- Writing items with distinct keys into a list replaces the items that are
there and adds the others at the end. -/
theorem foldl_upsert (written : List α) (distinct : (written.map key).Nodup) (items : List α) :
    written.foldl (upsert key) items =
      (items.map fun item => (findAt key (key item) written).getD item) ++
        written.filter fun item => key item ∉ items.map key := by
  induction written generalizing items with
  | nil => simp [findAt]
  | cons item written induction =>
      obtain ⟨fresh, distinct⟩ := List.nodup_cons.mp distinct
      rw [List.foldl_cons, induction distinct, map_key_upsert]
      have other : ∀ later ∈ written, key later ≠ key item := by
        intro later isLater same
        exact fresh (List.mem_map.mpr ⟨later, isLater, same⟩)
      by_cases inside : key item ∈ items.map key
      · rw [if_pos inside, List.filter_cons_of_neg (by simpa using inside), upsert,
          if_pos (isSome_findAt.mpr inside), updateAt, List.map_map]
        congr 1
        apply List.map_congr_left
        intro present _
        rw [Function.comp_apply]
        by_cases same : key present = key item
        · have absent : findAt key (key item) written = none := findAt_eq_none.mpr fresh
          rw [if_pos same, same, absent, findAt, List.find?_cons_of_pos (by simp)]
          rfl
        · rw [if_neg same, findAt, findAt, List.find?_cons_of_neg (by simpa using Ne.symm same)]
      · rw [if_neg inside, List.filter_cons_of_pos (by simpa using inside), upsert,
          if_neg (fun found => inside (isSome_findAt.mp found)), List.map_append,
          List.append_assoc]
        congr 1
        · apply List.map_congr_left
          intro present isPresent
          have differs : key item ≠ key present := by
            intro same
            exact inside (List.mem_map.mpr ⟨present, isPresent, same.symm⟩)
          rw [findAt, findAt, List.find?_cons_of_neg (by simpa using differs)]
        · rw [List.map_singleton, findAt_eq_none.mpr fresh, Option.getD_none,
            List.singleton_append]
          congr 1
          apply List.filter_congr
          intro later isLater
          simp [other later isLater]

variable {created : List α}

section

variable (key)

def rewritten (created : List α) (overrides : SortedMap K α) (deleted : K → Bool) : List α :=
  (overrides.entries.filter fun entry => !deleted entry.1 &&
    !(created.filter fun item => !deleted (key item)).any (key · = entry.1)).map Prod.snd

end

private theorem kept_iff {entry : K × α} :
    (!deleted entry.1 &&
        !(created.filter fun item => !deleted (key item)).any (key · = entry.1)) = true ↔
      (!deleted entry.1) = true ∧ entry.1 ∉
        (created.filter fun item => !deleted (key item)).map key := by
  simp only [Bool.and_eq_true, Bool.not_eq_true', List.any_eq_false, decide_eq_true_eq,
    List.mem_map, not_exists, not_and]

theorem rewritten_eq {keep : K × α → Bool} (kept : ∀ entry, keep entry = true ↔
    (!deleted entry.1) = true ∧ entry.1 ∉
      (created.filter fun item => !deleted (key item)).map key) :
    (overrides.entries.filter keep).map Prod.snd = rewritten key created overrides deleted := by
  rw [rewritten]
  congr 1
  apply List.filter_congr
  intro entry _
  rw [Bool.eq_iff_iff, kept, kept_iff]

theorem mem_rewritten (proper : Proper key overrides) :
    item ∈ rewritten key created overrides deleted ↔
      overrides.get (key item) = some item ∧ deleted (key item) = false ∧
        key item ∉ created.map key := by
  have seen : ∀ target, deleted target = false →
      (target ∈ (created.filter fun item => !deleted (key item)).map key ↔
        target ∈ created.map key) := by
    intro target live
    rw [List.mem_map, List.mem_map]
    constructor
    · rintro ⟨made, member, rfl⟩
      exact ⟨made, List.mem_of_mem_filter member, rfl⟩
    · rintro ⟨made, member, rfl⟩
      exact ⟨made, List.mem_filter.mpr ⟨member, by simp [live]⟩, rfl⟩
  rw [rewritten, List.mem_map]
  constructor
  · rintro ⟨⟨target, found⟩, member, rfl⟩
    obtain ⟨isEntry, kept⟩ := List.mem_filter.mp member
    obtain ⟨live, fresh⟩ := kept_iff.mp kept
    have isFound : overrides.get target = some found := SortedMap.get_eq_some_iff.mpr isEntry
    rw [Bool.not_eq_true'] at live
    rw [proper target found isFound]
    exact ⟨isFound, live, fun isCreated => fresh ((seen target live).mpr isCreated)⟩
  · intro ⟨isFound, live, fresh⟩
    refine ⟨(key item, item), List.mem_filter.mpr
      ⟨SortedMap.get_eq_some_iff.mp isFound, kept_iff.mpr ⟨?_, ?_⟩⟩, rfl⟩
    · rw [live, Bool.not_false]
    · exact fun isCreated => fresh ((seen _ live).mp isCreated)

theorem nodup_rewritten (proper : Proper key overrides) :
    ((rewritten key created overrides deleted).map key).Nodup := by
  have keys : (rewritten key created overrides deleted).map key =
      (overrides.entries.filter fun entry => !deleted entry.1 &&
        !(created.filter fun item => !deleted (key item)).any (key · = entry.1)).map
          Prod.fst := by
    rw [rewritten, List.map_map]
    apply List.map_congr_left
    intro entry member
    exact proper entry.1 entry.2
      (SortedMap.get_eq_some_iff.mpr (List.mem_of_mem_filter member))
  rw [keys]
  exact (overrides.ascending.imp fun less => less.ne).filter _ |>.map _ fun _ _ differ => differ

/-- Writing the created and the changed items into the live part of the list
gives the view, up to the renaming of what was created. -/
theorem foldl_upsert_view {base : List α} (proper : Proper key overrides)
    (distinct : ((base ++ created).map key).Nodup) {rename : α → α}
    (fixed : ∀ item ∈ base, deleted (key item) = false →
      rename (current key overrides item) = current key overrides item)
    (renamedDistinct : (((view key created overrides deleted).map rename).map key).Nodup)
    (apart : ∀ item ∈ view key created overrides deleted, key (rename item) ∉ base.map key)
    (known : ∀ target, overrides.get target ≠ none →
      deleted target ∨ target ∈ (base ++ created).map key) :
    ((view key created overrides deleted ++ rewritten key created overrides deleted).map
      rename).foldl (upsert key) (base.filter fun item => !deleted (key item)) =
        (view key (base ++ created) overrides deleted).map rename := by
  have ofBase : ∀ item ∈ rewritten key created overrides deleted, ∃ origin ∈ base,
      key origin = key item ∧ deleted (key item) = false ∧
        current key overrides origin = item := by
    intro item member
    obtain ⟨isEntry, live, fresh⟩ := (mem_rewritten proper).mp member
    rcases known (key item) (by rw [isEntry]; exact Option.some_ne_none _) with gone | inside
    · rw [live] at gone
      cases gone
    · rw [List.map_append] at inside
      obtain ⟨origin, isOrigin, same⟩ :=
        List.mem_map.mp ((List.mem_append.mp inside).resolve_right fresh)
      refine ⟨origin, isOrigin, same, live, ?_⟩
      rw [current, same, isEntry, Option.getD_some]
  have same : (rewritten key created overrides deleted).map rename =
      rewritten key created overrides deleted := by
    apply (List.map_congr_left _).trans (List.map_id _)
    intro item member
    obtain ⟨origin, isOrigin, isKey, live, rfl⟩ := ofBase item member
    exact fixed origin isOrigin (isKey ▸ live)
  have writtenDistinct : (((view key created overrides deleted).map rename ++
      rewritten key created overrides deleted).map key).Nodup := by
    rw [List.map_append, List.nodup_append]
    refine ⟨renamedDistinct, nodup_rewritten proper, ?_⟩
    intro target isRenamed other isChanged equal
    obtain ⟨_, isShown, rfl⟩ := List.mem_map.mp isRenamed
    obtain ⟨item, member, rfl⟩ := List.mem_map.mp isShown
    obtain ⟨change, isChange, rfl⟩ := List.mem_map.mp isChanged
    obtain ⟨origin, isOrigin, isKey, -, -⟩ := ofBase change isChange
    exact apart item member (equal ▸ isKey ▸ List.mem_map_of_mem isOrigin)
  rw [List.map_append, same, foldl_upsert _ writtenDistinct, view_append, List.map_append]
  congr 1
  · have shownBase : (view key base overrides deleted).map rename =
        (base.filter fun item => !deleted (key item)).map
          (rename ∘ current key overrides) := List.map_map
    rw [shownBase]
    apply List.map_congr_left
    intro item member
    obtain ⟨isBase, isLive⟩ := List.mem_filter.mp member
    rw [Bool.not_eq_true'] at isLive
    have notRenamed :
        findAt key (key item) ((view key created overrides deleted).map rename) = none := by
      rw [findAt_eq_none]
      intro isRenamed
      obtain ⟨_, isShown, equal⟩ := List.mem_map.mp isRenamed
      obtain ⟨shown, isView, rfl⟩ := List.mem_map.mp isShown
      exact apart shown isView (equal ▸ List.mem_map_of_mem isBase)
    rw [findAt_append, notRenamed, Option.none_or, Function.comp_apply, fixed item isBase isLive,
      current]
    cases override : overrides.get (key item) with
    | some change =>
        have isKey := proper _ change override
        have notCreated : key item ∉ created.map key := by
          intro isCreated
          rw [List.map_append] at distinct
          exact List.disjoint_of_nodup_append distinct (List.mem_map_of_mem isBase) isCreated
        have isChange : change ∈ rewritten key created overrides deleted := by
          rw [mem_rewritten proper, isKey]
          exact ⟨override, isLive, notCreated⟩
        rw [(findAt_eq_some (nodup_rewritten proper)).mpr ⟨isChange, isKey⟩, Option.getD_some]
    | none =>
        have notChanged : findAt key (key item) (rewritten key created overrides deleted) = none := by
          rw [findAt_eq_none]
          intro isChanged
          obtain ⟨change, isChange, isKey⟩ := List.mem_map.mp isChanged
          have isEntry := ((mem_rewritten proper).mp isChange).1
          rw [isKey, override] at isEntry
          cases isEntry
        rw [notChanged]
  · rw [List.filter_append]
    have keepsCreated : ((view key created overrides deleted).map rename).filter (fun item =>
        key item ∉ (base.filter fun item => !deleted (key item)).map key) =
          (view key created overrides deleted).map rename := by
      apply List.filter_eq_self.mpr
      intro item member
      obtain ⟨shown, isView, rfl⟩ := List.mem_map.mp member
      apply decide_eq_true
      intro inside
      obtain ⟨origin, isOrigin, equal⟩ := List.mem_map.mp inside
      exact apart shown isView (equal ▸ List.mem_map_of_mem (List.mem_of_mem_filter isOrigin))
    have dropsChanged : (rewritten key created overrides deleted).filter (fun item =>
        key item ∉ (base.filter fun item => !deleted (key item)).map key) = [] := by
      apply List.filter_eq_nil_iff.mpr
      intro item member kept
      obtain ⟨origin, isOrigin, isKey, live, -⟩ := ofBase item member
      refine of_decide_eq_true kept (List.mem_map.mpr ⟨origin, List.mem_filter.mpr ⟨isOrigin, ?_⟩,
        isKey⟩)
      rw [isKey, live, Bool.not_false]
    rw [keepsCreated, dropsChanged, List.append_nil]

end Acetone.Lib.KeyedView

import Acetone.Lib.SortedMap

/-!
# Sets derived from a map

A set derived from a map holds an entry for some of its rows.  It can be
maintained over the rows that an update touches, provided the entries of
different rows differ.  When the rule that derives entries changes as well,
the entry that was stored for a row need not be the one the new rule finds for
the row as it was; `Settles` says when maintenance by the new rule still gives
the derived set.
-/

namespace Acetone.Lib

variable {K R E : Type} [LinearOrder K] [LinearOrder E]

/-- Some row of the map has the entry. -/
def DerivedFrom (rule : K → R → Option E) (map : SortedMap K R) (entry : E) : Prop :=
  ∃ row ∈ map.entries, rule row.1 row.2 = some entry

def deltaOps (old new : Option E) : List (MapOp E Unit) :=
  if old = new then []
  else old.toList.map .delete ++ new.toList.map (.put · ())

/-- Replacing `before` by `after` removes what is `stored` and leaves
`after`. -/
def Settles (stored before after : Option E) : Prop :=
  stored = before ∨ before ≠ after ∧ (stored = none ∨ stored = after)

instance settlesDecidable (stored before after : Option E) :
    Decidable (Settles stored before after) :=
  inferInstanceAs (Decidable (_ ∨ _))

theorem mem_deltaOps {old new : Option E} {op : MapOp E Unit} (member : op ∈ deltaOps old new) :
    old ≠ new ∧ (old = some op.key ∨ new = some op.key) := by
  rw [deltaOps] at member
  split at member
  · cases member
  · next different =>
      refine ⟨different, ?_⟩
      rcases List.mem_append.mp member with isDelete | isPut
      · obtain ⟨entry, isEntry, rfl⟩ := List.mem_map.mp isDelete
        exact .inl (Option.mem_toList.mp isEntry)
      · obtain ⟨entry, isEntry, rfl⟩ := List.mem_map.mp isPut
        exact .inr (Option.mem_toList.mp isEntry)

theorem get_deltaOps_new (set : KeySet E) {old : Option E} {entry : E}
    (different : old ≠ some entry) :
    (set.applyAll (deltaOps old (some entry))).get entry = some () := by
  rw [deltaOps, if_neg different, SortedMap.applyAll_append]
  exact (SortedMap.get_put _ _ _ _).trans (if_pos rfl)

theorem get_deltaOps_old (set : KeySet E) {new : Option E} {entry : E}
    (different : some entry ≠ new) :
    (set.applyAll (deltaOps (some entry) new)).get entry = none := by
  rw [deltaOps, if_neg different, SortedMap.applyAll_append,
    SortedMap.get_applyAll_of_absent]
  · exact (SortedMap.get_delete _ _ _).trans (if_pos rfl)
  · intro op member same
    obtain ⟨other, isOther, rfl⟩ := List.mem_map.mp member
    rw [Option.mem_toList] at isOther
    exact different (by rw [isOther]; exact congrArg some same.symm)

/-- The updates of one row settle whether its entries are in the set. -/
theorem get_deltaOps {set : KeySet E} {stored old new : Option E} {entry : E}
    (settles : Settles stored old new)
    (isSet : set.get entry = some () ↔ stored = some entry) :
    (set.applyAll (deltaOps old new)).get entry = some () ↔ new = some entry := by
  by_cases same : old = new
  · have isStored : stored = new := by
      rcases settles with isOld | ⟨different, -⟩
      · exact isOld.trans same
      · exact absurd same different
    rw [deltaOps, if_pos same, ← isStored]
    exact isSet
  · by_cases isNew : new = some entry
    · subst isNew
      simp only [get_deltaOps_new set same]
    · by_cases isOld : old = some entry
      · subst isOld
        simp only [get_deltaOps_old set same, reduceCtorEq, isNew]
      · have untouched : ∀ op ∈ deltaOps old new, op.key ≠ entry := by
          intro op member isEntry
          obtain ⟨-, ofOld | ofNew⟩ := mem_deltaOps member
          · exact isOld (isEntry ▸ ofOld)
          · exact isNew (isEntry ▸ ofNew)
        have notStored : stored ≠ some entry := by
          rintro rfl
          rcases settles with found | ⟨-, found | found⟩
          · exact isOld found.symm
          · cases found
          · exact isNew found.symm
        rw [SortedMap.get_applyAll_of_absent untouched, isSet]
        simp only [notStored, isNew]

section

variable {before after : SortedMap K R} {touched : List K} {set : KeySet E}
  {stored fresh : K → R → Option E} {owner : E → K → Prop}

def entryIn (rule : K → R → Option E) (map : SortedMap K R) (key : K) : Option E :=
  (map.get key).bind (rule key)

/-- The updates of the set over the touched rows. -/
def maintenance (fresh : K → R → Option E) (before after : SortedMap K R)
    (touched : List K) : List (MapOp E Unit) :=
  touched.flatMap fun key => deltaOps (entryIn fresh before key) (entryIn fresh after key)

theorem maintenance_around (first second : List K) (key : K) :
    maintenance fresh before after (first ++ key :: second) =
      maintenance fresh before after first ++
        (deltaOps (entryIn fresh before key) (entryIn fresh after key) ++
          maintenance fresh before after second) := by
  simp only [maintenance, List.flatMap_append, List.flatMap_cons]

omit [LinearOrder E] in
theorem entryIn_eq_some {rule : K → R → Option E} {map : SortedMap K R} {key : K}
    {entry : E} :
    entryIn rule map key = some entry ↔
      ∃ row, map.get key = some row ∧ rule key row = some entry :=
  Option.bind_eq_some_iff

omit [LinearOrder E] in
theorem derivedFrom_iff {rule : K → R → Option E} {map : SortedMap K R} {entry : E} :
    DerivedFrom rule map entry ↔ ∃ key, entryIn rule map key = some entry := by
  simp only [DerivedFrom, entryIn_eq_some, Prod.exists, SortedMap.get_eq_some_iff]

variable (unique : ∀ entry left right, owner entry left → owner entry right → left = right)

include unique

omit [LinearOrder E] in
private theorem owner_of_entryIn {rule : K → R → Option E} {map : SortedMap K R}
    {key other : K} {entry : E}
    (ruleOwned : ∀ key row entry, rule key row = some entry → owner entry key)
    (isEntry : entryIn rule map key = some entry) (owned : owner entry other) :
    key = other := by
  obtain ⟨row, -, found⟩ := entryIn_eq_some.mp isEntry
  exact unique entry key other (ruleOwned key row entry found) owned

omit [LinearOrder E] in
theorem derivedFrom_owned {rule : K → R → Option E} {map : SortedMap K R}
    {key : K} {entry : E}
    (ruleOwned : ∀ key row entry, rule key row = some entry → owner entry key)
    (owned : owner entry key) :
    DerivedFrom rule map entry ↔ entryIn rule map key = some entry := by
  rw [derivedFrom_iff]
  constructor
  · rintro ⟨other, found⟩
    exact owner_of_entryIn unique ruleOwned found owned ▸ found
  · intro found
    exact ⟨key, found⟩

variable (freshOwned : ∀ key row entry, fresh key row = some entry → owner entry key)

include freshOwned

private theorem foreign_of_not_mem {entry : E} {key : K} (owned : owner entry key)
    (absent : key ∉ touched) :
    ∀ op ∈ maintenance fresh before after touched, op.key ≠ entry := by
  intro op member same
  obtain ⟨other, isOther, isOp⟩ := List.mem_flatMap.mp member
  obtain ⟨-, old | new⟩ := mem_deltaOps isOp
  · rw [same] at old
    exact absent (owner_of_entryIn unique freshOwned old owned ▸ isOther)
  · rw [same] at new
    exact absent (owner_of_entryIn unique freshOwned new owned ▸ isOther)

theorem get_maintenance {entry : E} {key : K} (owned : owner entry key)
    (distinct : touched.Nodup) :
    (set.applyAll (maintenance fresh before after touched)).get entry =
      if key ∈ touched then
        (set.applyAll (deltaOps (entryIn fresh before key) (entryIn fresh after key))).get entry
      else set.get entry := by
  split
  · next member =>
      obtain ⟨first, second, rfl⟩ := List.append_of_mem member
      rw [List.nodup_append, List.nodup_cons] at distinct
      have inFirst : key ∉ first := fun isFirst =>
        distinct.2.2 key isFirst key List.mem_cons_self rfl
      rw [maintenance_around, SortedMap.applyAll_append, SortedMap.applyAll_append,
        SortedMap.get_applyAll_of_absent
          (foreign_of_not_mem unique freshOwned owned distinct.2.1.1)]
      have start : (set.applyAll (maintenance fresh before after first)).get entry =
          set.get entry :=
        SortedMap.get_applyAll_of_absent
          (foreign_of_not_mem unique freshOwned owned inFirst)
      exact SortedMap.get_applyAll_congr start
  · next absent =>
      exact SortedMap.get_applyAll_of_absent
        (foreign_of_not_mem unique freshOwned owned absent)

omit unique in
theorem get_maintenance_unowned {entry : E} (unowned : ∀ key, ¬ owner entry key) :
    (set.applyAll (maintenance fresh before after touched)).get entry = set.get entry := by
  apply SortedMap.get_applyAll_of_absent
  intro op member same
  obtain ⟨key, -, isOp⟩ := List.mem_flatMap.mp member
  obtain ⟨-, found | found⟩ := mem_deltaOps isOp <;>
    obtain ⟨row, -, isEntry⟩ := entryIn_eq_some.mp found <;>
    exact unowned key (same ▸ freshOwned key row op.key isEntry)

variable (storedOwned : ∀ key row entry, stored key row = some entry → owner entry key)

include storedOwned

/-- Maintaining over the touched rows gives the derived set. -/
theorem mem_maintenance (distinct : touched.Nodup)
    (outside : ∀ key, key ∉ touched → after.get key = before.get key)
    (isSet : ∀ entry, set.get entry = some () ↔ DerivedFrom stored before entry)
    (settles : ∀ row ∈ before.entries,
      Settles (stored row.1 row.2) (fresh row.1 row.2) (entryIn fresh after row.1))
    (entry : E) :
    (set.applyAll (maintenance fresh before after touched)).get entry = some () ↔
      DerivedFrom fresh after entry := by
  by_cases owned : ∃ key, owner entry key
  · obtain ⟨key, owned⟩ := owned
    have isStored := isSet entry
    rw [derivedFrom_owned unique storedOwned owned] at isStored
    have settled : Settles (entryIn stored before key) (entryIn fresh before key)
        (entryIn fresh after key) := by
      cases found : before.get key with
      | none => exact .inl (by simp only [entryIn, found, Option.bind_none])
      | some row =>
          have each := settles (key, row) (SortedMap.get_eq_some_iff.mp found)
          simpa only [entryIn, found, Option.bind_some] using each
    rw [get_maintenance unique freshOwned owned distinct,
      derivedFrom_owned unique freshOwned owned]
    split
    · exact get_deltaOps settled isStored
    · next absent =>
        have same : entryIn fresh before key = entryIn fresh after key := by
          rw [entryIn, entryIn, outside key absent]
        rw [isStored]
        rcases settled with kept | ⟨different, -⟩
        · rw [kept, same]
        · exact absurd same different
  · have unowned : ∀ key, ¬ owner entry key := fun key isOwner => owned ⟨key, isOwner⟩
    rw [get_maintenance_unowned freshOwned unowned, isSet, derivedFrom_iff,
      derivedFrom_iff]
    constructor <;> rintro ⟨key, found⟩ <;>
      obtain ⟨row, -, isEntry⟩ := entryIn_eq_some.mp found
    · exact absurd (storedOwned key row entry isEntry) (unowned key)
    · exact absurd (freshOwned key row entry isEntry) (unowned key)

end

end Acetone.Lib

import Mathlib.Data.List.Nodup

/-!
# Interning

An item is numbered by its place in a list that has no item twice and only
grows, so that a number once given stays.
-/

namespace Acetone.Lib

variable {α : Type} {items more : List α} {item : α} {index : Nat}

theorem getElem?_of_isPrefix (isPrefix : items <+: more) (found : items[index]? = some item) :
    more[index]? = some item := by
  obtain ⟨rest, rfl⟩ := isPrefix
  obtain ⟨inside, -⟩ := List.getElem?_eq_some_iff.mp found
  exact (List.getElem?_append_left inside).trans found

theorem nodup_concat (distinct : items.Nodup) (isNew : item ∉ items) :
    (items ++ [item]).Nodup := by
  rw [List.nodup_append_comm]
  exact List.nodup_cons.mpr ⟨isNew, distinct⟩

/-- There is room for a new item, if all items are among few. -/
theorem length_lt_of_new {all : List α} {bound : Nat} (distinct : items.Nodup)
    (included : ∀ other ∈ items, other ∈ all) (isNew : item ∉ items) (inAll : item ∈ all)
    (within : all.length ≤ bound) : items.length < bound := by
  have larger : (item :: items).Nodup := List.nodup_cons.mpr ⟨isNew, distinct⟩
  have subset : item :: items ⊆ all := by
    intro other member
    rcases List.mem_cons.mp member with rfl | later
    · exact inAll
    · exact included other later
  have shorter := larger.length_le_of_subset subset
  rw [List.length_cons] at shorter
  omega

variable [BEq α] [LawfulBEq α]

theorem getElem?_of_idxOf? (found : items.idxOf? item = some index) :
    items[index]? = some item := by
  obtain ⟨inside, isItem, -⟩ := List.idxOf?_eq_some_iff.mp found
  rw [List.getElem?_eq_getElem inside, isItem]

theorem idxOf?_of_getElem? (distinct : items.Nodup) (found : items[index]? = some item) :
    items.idxOf? item = some index := by
  obtain ⟨inside, isItem⟩ := List.getElem?_eq_some_iff.mp found
  rw [List.idxOf?_eq_some_iff]
  refine ⟨inside, isItem, ?_⟩
  intro earlier before same
  have sameIndex := (List.Nodup.getElem_inj_iff distinct).mp (same.trans isItem.symm)
  omega

/-- A number is looked up as it is read back. -/
theorem idxOf?_iff_getElem? (distinct : items.Nodup) :
    items.idxOf? item = some index ↔ items[index]? = some item :=
  ⟨getElem?_of_idxOf?, idxOf?_of_getElem? distinct⟩

theorem not_mem_of_idxOf? (absent : items.idxOf? item = none) : item ∉ items := by
  intro member
  have found := List.idxOf?_eq_none_iff.mp absent
  exact found member

omit [LawfulBEq α] in
theorem idxOf?_of_isPrefix (isPrefix : items <+: more) (found : items.idxOf? item = some index) :
    more.idxOf? item = some index := by
  obtain ⟨rest, rfl⟩ := isPrefix
  rw [List.idxOf?, List.findIdx?_append]
  rw [List.idxOf?] at found
  rw [found]
  rfl

theorem idxOf?_concat (absent : items.idxOf? item = none) :
    (items ++ [item]).idxOf? item = some items.length := by
  rw [List.idxOf?, List.findIdx?_append]
  rw [List.idxOf?] at absent
  rw [absent]
  simp

end Acetone.Lib

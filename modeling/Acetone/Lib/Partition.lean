import Mathlib.Data.List.TakeWhile

/-!
# Partition points

Where a predicate holds of a first part of a list and fails on the rest, that
part is a `takeWhile` and a `filter` at once, and its length is where a binary
search lands.
-/

namespace Acetone.Lib

theorem takeWhile_eq_filter {α : Type} {keep : α → Bool} {items : List α}
    (closed : items.Pairwise fun first second => keep second = true → keep first = true) :
    items.takeWhile keep = items.filter keep := by
  induction items with
  | nil => rfl
  | cons item items ih =>
      obtain ⟨first, rest⟩ := List.pairwise_cons.mp closed
      cases keeps : keep item with
      | true => rw [List.takeWhile_cons_of_pos keeps, List.filter_cons_of_pos keeps, ih rest]
      | false =>
          have dropped : ¬ keep item = true := by simp [keeps]
          rw [List.takeWhile_cons_of_neg dropped, List.filter_cons_of_neg dropped, eq_comm,
            List.filter_eq_nil_iff]
          intro other member kept
          exact dropped (first other member kept)

theorem dropWhile_eq_filter {α : Type} {skip : α → Bool} {items : List α}
    (closed : items.Pairwise fun first second => skip second = true → skip first = true) :
    items.dropWhile skip = items.filter fun item => !skip item := by
  induction items with
  | nil => rfl
  | cons item items ih =>
      obtain ⟨first, rest⟩ := List.pairwise_cons.mp closed
      cases skips : skip item with
      | true =>
          rw [List.dropWhile_cons_of_pos skips, List.filter_cons_of_neg (by simp [skips]), ih rest]
      | false =>
          have kept : ¬ skip item = true := by simp [skips]
          rw [List.dropWhile_cons_of_neg kept, List.filter_cons_of_pos (by simp [skips])]
          congr 1
          rw [eq_comm, List.filter_eq_self]
          intro other member
          have stays : ¬ skip other = true := fun skipped => kept (first other member skipped)
          simpa using stays

theorem drop_takeWhile {α : Type} (skip : α → Bool) (items : List α) :
    items.drop (items.takeWhile skip).length = items.dropWhile skip := by
  have rest := @List.drop_left _ (items.takeWhile skip) (items.dropWhile skip)
  rwa [List.takeWhile_append_dropWhile] at rest

/-- Where a partition point below the end cuts a list. -/
theorem split_at_takeWhile {α : Type} {before : α → Bool} {items : List α}
    (within : (items.takeWhile before).length < items.length) :
    ∃ front item back, items = front ++ item :: back ∧
      (items.takeWhile before).length = front.length ∧ (∀ other ∈ front, before other = true) ∧
      before item = false := by
  have whole := @List.takeWhile_append_dropWhile _ before items
  cases rest : items.dropWhile before with
  | nil =>
      rw [rest, List.append_nil] at whole
      rw [whole] at within
      exact absurd within (Nat.lt_irrefl _)
  | cons item back =>
      refine ⟨items.takeWhile before, item, back, by rw [← rest, whole], rfl,
        fun _ => List.mem_takeWhile_imp, ?_⟩
      have stops := List.head?_dropWhile_not before items
      rw [rest] at stops
      simpa using stops

theorem all_before {α : Type} {before : α → Bool} {items : List α}
    (whole : (items.takeWhile before).length = items.length) :
    ∀ item ∈ items, before item = true := by
  have same : items.takeWhile before = items :=
    (List.takeWhile_sublist before).eq_of_length whole
  intro item member
  rw [← same] at member
  exact List.all_eq_true.mp List.all_takeWhile item member

end Acetone.Lib

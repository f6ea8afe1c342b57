import Mathlib.Algebra.BigOperators.Group.List.Basic
import Mathlib.Data.List.Forall2

/-!
# Bounded Cartesian products

Alternatives for each component are expanded to tuples round by round: every
prefix goes on with every alternative of the next component.  The number of
tuples is the product of the numbers of alternatives, which a program computes
in machine words before it expands; a checked product is exact where it is
within its cap, a wrapping one is only the residue of the true product.
-/

namespace Acetone.Lib

variable {α β : Type}

/-- The Cartesian product; the last component varies fastest. -/
def product : List (List α) → List (List α)
  | [] => [[]]
  | alternatives :: components =>
      alternatives.flatMap fun item => (product components).map (item :: ·)

/-- The rounds of an expansion whose prefixes are joined with their next item. -/
def expandWith (join : β → α → β) (prefixes : List β) (components : List (List α)) : List β :=
  components.foldl
    (fun prefixes alternatives => prefixes.flatMap fun front => alternatives.map (join front))
    prefixes

theorem expandWith_eq (join : β → α → β) (prefixes : List β) (components : List (List α)) :
    expandWith join prefixes components =
      prefixes.flatMap fun front => (product components).map (List.foldl join front) := by
  induction components generalizing prefixes with
  | nil => simp [expandWith, product]
  | cons alternatives components ih =>
      have later := ih (prefixes.flatMap fun front => alternatives.map (join front))
      rw [expandWith] at later ⊢
      rw [List.foldl_cons, later, List.flatMap_assoc]
      congr 1
      funext front
      simp [product, List.flatMap_map, List.map_flatMap, Function.comp_def]

def expand (components : List (List α)) : List (List α) :=
  expandWith (fun front item => front ++ [item]) [[]] components

theorem expand_eq (components : List (List α)) : expand components = product components := by
  have collected : List.foldl (fun (front : List α) item => front ++ [item]) [] = id := by
    funext tuple
    rw [List.foldl_append_eq_append, List.nil_append, ← List.flatMap_def, List.flatMap_singleton']
    rfl
  rw [expand, expandWith_eq, List.flatMap_singleton, collected, List.map_id]

theorem expandWith_append (components : List (List (List α))) :
    expandWith (· ++ ·) [[]] components = (product components).map List.flatten := by
  have collected : List.foldl (fun front item : List α => front ++ item) [] = List.flatten := by
    funext tuple
    simpa using @List.foldl_append_eq_append _ _ tuple id []
  rw [expandWith_eq, List.flatMap_singleton, collected]

theorem mem_product {components : List (List α)} {tuple : List α} :
    tuple ∈ product components ↔ List.Forall₂ (· ∈ ·) tuple components := by
  induction components generalizing tuple with
  | nil => simp [product]
  | cons alternatives components ih =>
      rw [product, List.mem_flatMap, List.forall₂_cons_right_iff]
      constructor
      · rintro ⟨item, chosen, member⟩
        obtain ⟨rest, inside, rfl⟩ := List.mem_map.mp member
        exact ⟨item, rest, chosen, ih.mp inside, rfl⟩
      · rintro ⟨item, rest, chosen, inside, rfl⟩
        exact ⟨item, chosen, List.mem_map.mpr ⟨rest, ih.mpr inside, rfl⟩⟩

theorem length_product (components : List (List α)) :
    (product components).length = (components.map List.length).prod := by
  induction components with
  | nil => rfl
  | cons alternatives components ih =>
      rw [product, List.length_flatMap, List.map_cons, List.prod_cons, ← ih]
      simp

/-- A product that stops when it leaves the word or exceeds the cap. -/
def checkedProduct (word cap : Nat) : Nat → List Nat → Option Nat
  | combinations, [] => some combinations
  | combinations, size :: sizes =>
      if word ≤ combinations * size then none
      else if cap < combinations * size then none
      else checkedProduct word cap (combinations * size) sizes

theorem checkedProduct_eq_some {word cap combinations result : Nat} {sizes : List Nat}
    (start : combinations ≤ cap) (ends : checkedProduct word cap combinations sizes = some result) :
    result = combinations * sizes.prod ∧ result ≤ cap := by
  induction sizes generalizing combinations with
  | nil =>
      cases ends
      exact ⟨(Nat.mul_one _).symm, start⟩
  | cons size sizes ih =>
      rw [checkedProduct] at ends
      split at ends
      · cases ends
      · split at ends
        · cases ends
        · next within =>
          obtain ⟨value, bounded⟩ := ih (Nat.le_of_not_lt within) ends
          exact ⟨by rw [value, List.prod_cons, Nat.mul_assoc], bounded⟩

/-- A product that wraps around at the end of the word. -/
def wrappedProduct (word : Nat) (sizes : List Nat) : Nat :=
  sizes.foldl (fun combinations size => combinations * size % word) 1

theorem wrappedProduct_eq {word : Nat} (wide : 1 < word) (sizes : List Nat) :
    wrappedProduct word sizes = sizes.prod % word := by
  have wraps : ∀ combinations, sizes.foldl (fun combinations size => combinations * size % word)
      (combinations % word) = combinations * sizes.prod % word := by
    induction sizes with
    | nil => simp
    | cons size sizes ih =>
        intro combinations
        rw [List.foldl_cons, Nat.mod_mul_mod, ih, List.prod_cons, Nat.mul_assoc]
  have whole := wraps 1
  rwa [Nat.mod_eq_of_lt wide, Nat.one_mul] at whole

end Acetone.Lib

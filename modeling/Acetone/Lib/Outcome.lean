import Mathlib.Data.List.Forall2

/-!
# Inverting fallible computations

A successful `do` block determines the success of each of its steps.  These
equivalences take such a block apart one step at a time, so that proofs about
fallible code never unfold the monad.
-/

namespace Acetone.Lib

variable {failure α β : Type}

theorem bind_eq_ok {action : Except failure α} {next : α → Except failure β}
    {result : β} :
    (action >>= next) = .ok result ↔
      ∃ value, action = .ok value ∧ next value = .ok result := by
  cases action with
  | error reason => exact ⟨nofun, nofun⟩
  | ok value =>
      constructor
      · intro done
        exact ⟨value, rfl, done⟩
      · rintro ⟨_, ⟨⟩, done⟩
        exact done

@[simp] theorem ok_bind (value : α) (next : α → Except failure β) :
    (Except.ok value >>= next) = next value :=
  rfl

theorem check_bind_eq_ok {check : Except failure Unit} {next : Except failure β}
    {result : β} :
    (check >>= fun _ => next) = .ok result ↔ check = .ok () ∧ next = .ok result := by
  rw [bind_eq_ok]
  constructor
  · rintro ⟨⟨⟩, passed, done⟩
    exact ⟨passed, done⟩
  · rintro ⟨passed, done⟩
    exact ⟨(), passed, done⟩

theorem guard_eq_ok {refused : Prop} [Decidable refused] {reason : failure}
    {action : Except failure α} {result : α} :
    (if refused then .error reason else action) = .ok result ↔
      ¬refused ∧ action = .ok result := by
  by_cases refusal : refused
  · simp [refusal]
  · simp [refusal]

theorem mapError_eq_ok {other : Type} {action : Except failure α}
    {relabel : failure → other} {result : α} :
    action.mapError relabel = .ok result ↔ action = .ok result := by
  cases action with
  | error reason => exact ⟨nofun, nofun⟩
  | ok value => simp [Except.mapError]

theorem mem_toOption {action : Except failure α} {value : α} :
    value ∈ action.toOption ↔ action = .ok value := by
  cases action <;> simp [Except.toOption]

theorem mapM_eq_ok {f : α → Except failure β} {items : List α}
    {results : List β} :
    items.mapM f = .ok results ↔
      List.Forall₂ (fun item result => f item = .ok result) items results := by
  induction items generalizing results with
  | nil =>
      rw [List.mapM_nil, List.forall₂_nil_left_iff]
      exact ⟨fun done => (Except.ok.inj done).symm, fun empty => empty ▸ rfl⟩
  | cons item items ih =>
      simp only [List.mapM_cons, bind_eq_ok, ih, List.forall₂_cons_left_iff]
      constructor
      · rintro ⟨result, first, others, rest, ⟨⟩⟩
        exact ⟨result, others, first, rest, rfl⟩
      · rintro ⟨result, others, first, rest, rfl⟩
        exact ⟨result, first, others, rest, rfl⟩

theorem mem_of_mapM_eq_ok {f : α → Except failure β} {items : List α}
    {results : List β} (done : items.mapM f = .ok results) {item : α}
    (member : item ∈ items) : ∃ result ∈ results, f item = .ok result := by
  obtain ⟨index, bound, rfl⟩ := List.getElem_of_mem member
  obtain ⟨length, each⟩ := List.forall₂_iff_get.mp (mapM_eq_ok.mp done)
  exact ⟨_, List.getElem_mem (length ▸ bound), each index bound _⟩

theorem exists_of_mem_mapM {f : α → Except failure β} {items : List α}
    {results : List β} (done : items.mapM f = .ok results) {result : β}
    (member : result ∈ results) : ∃ item ∈ items, f item = .ok result := by
  obtain ⟨index, bound, rfl⟩ := List.getElem_of_mem member
  obtain ⟨length, each⟩ := List.forall₂_iff_get.mp (mapM_eq_ok.mp done)
  exact ⟨_, List.getElem_mem (length ▸ bound), each index _ bound⟩

/-- Run an action over a list and concatenate what it finds. -/
def gather (f : α → Except failure (List β)) (items : List α) :
    Except failure (List β) := do
  let found ← items.mapM f
  .ok found.flatten

theorem gather_eq_ok {f : α → Except failure (List β)} {items : List α}
    {results : List β} (done : gather f items = .ok results) {item : α}
    (member : item ∈ items) : ∃ found, f item = .ok found ∧ found ⊆ results := by
  obtain ⟨parts, each, ⟨⟩⟩ := bind_eq_ok.mp done
  obtain ⟨found, inParts, fromItem⟩ := mem_of_mapM_eq_ok each member
  exact ⟨found, fromItem, fun result inside =>
    List.mem_flatten.mpr ⟨found, inParts, inside⟩⟩

theorem mem_gather {f : α → Except failure (List β)} {items : List α}
    {results : List β} (done : gather f items = .ok results) {result : β} :
    result ∈ results ↔ ∃ item ∈ items, ∃ found, f item = .ok found ∧ result ∈ found := by
  constructor
  · obtain ⟨parts, each, ⟨⟩⟩ := bind_eq_ok.mp done
    intro member
    obtain ⟨found, inParts, inside⟩ := List.mem_flatten.mp member
    obtain ⟨item, isItem, fromItem⟩ := exists_of_mem_mapM each inParts
    exact ⟨item, isItem, found, fromItem, inside⟩
  · rintro ⟨item, isItem, found, fromItem, inside⟩
    obtain ⟨other, fromOther, included⟩ := gather_eq_ok done isItem
    rw [fromItem] at fromOther
    cases fromOther
    exact included inside

theorem bind_total {first : Except failure α} {next : α → Except failure β}
    (starts : ∃ result, first = .ok result) (continues : ∀ result, ∃ final, next result = .ok final) :
    ∃ final, (first >>= next) = .ok final := by
  obtain ⟨result, done⟩ := starts
  rw [done, ok_bind]
  exact continues result

theorem mapM_total {f : α → Except failure β} {items : List α}
    (total : ∀ item ∈ items, ∃ result, f item = .ok result) :
    ∃ results, items.mapM f = .ok results := by
  induction items with
  | nil => exact ⟨[], rfl⟩
  | cons item items ih =>
      obtain ⟨result, first⟩ := total item List.mem_cons_self
      obtain ⟨results, rest⟩ := ih fun other member => total other (List.mem_cons_of_mem _ member)
      exact ⟨result :: results, mapM_eq_ok.mpr (.cons first (mapM_eq_ok.mp rest))⟩

theorem mapM_congr {f g : α → Except failure β} {items : List α}
    (same : ∀ item ∈ items, f item = g item) : items.mapM f = items.mapM g := by
  induction items with
  | nil => rfl
  | cons item items ih =>
      rw [List.mapM_cons, List.mapM_cons, same item List.mem_cons_self,
        ih fun other member => same other (List.mem_cons_of_mem _ member)]

theorem foldlM_invariant {f : β → α → Except failure β} {holds : β → Prop} {items : List α}
    (step : ∀ state, ∀ item ∈ items, ∀ next, holds state → f state item = .ok next → holds next)
    {first last : β} (starts : holds first) (done : items.foldlM f first = .ok last) :
    holds last := by
  induction items generalizing first with
  | nil =>
      cases done
      exact starts
  | cons item items ih =>
      rw [List.foldlM_cons] at done
      obtain ⟨next, steps, done⟩ := bind_eq_ok.mp done
      apply ih (fun state other member => step state other (List.mem_cons_of_mem _ member)) _ done
      exact step first item List.mem_cons_self next starts steps

/-- Run a check over a list; the first refusal stands. -/
def checkEach (check : α → Except failure Unit) : List α → Except failure Unit
  | [] => .ok ()
  | item :: items => do
      check item
      checkEach check items

theorem checkEach_eq_ok {check : α → Except failure Unit} {items : List α} :
    checkEach check items = .ok () ↔ ∀ item ∈ items, check item = .ok () := by
  induction items with
  | nil => simp [checkEach]
  | cons item items ih =>
      rw [checkEach, check_bind_eq_ok, List.forall_mem_cons, ih]

end Acetone.Lib

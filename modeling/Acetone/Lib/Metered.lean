import Mathlib.Data.List.Basic

/-!
# Metered computations

A computation that is charged for what it does is a sequence of charges with an
outcome at their end.  A meter refuses charges once they are too many, and a
computation that does no more than another is not refused where the other is
not.
-/

namespace Acetone.Lib

/-- Charges, and what the computation ends with. -/
structure Metered (C E α : Type) where
  charges : List C
  outcome : Except E α

namespace Metered

variable {C E α β : Type}

protected def bind (first : Metered C E α) (next : α → Metered C E β) : Metered C E β :=
  match first.outcome with
  | .ok value => ⟨first.charges ++ (next value).charges, (next value).outcome⟩
  | .error failure => ⟨first.charges, .error failure⟩

instance : Monad (Metered C E) where
  pure value := ⟨[], .ok value⟩
  bind := Metered.bind

def charge (item : C) : Metered C E Unit := ⟨[item], .ok ()⟩

def free (outcome : Except E α) : Metered C E α := ⟨[], outcome⟩

/-- The computation succeeds with a value after these charges. -/
def Yields (computation : Metered C E α) (charges : List C) (value : α) : Prop :=
  computation = ⟨charges, .ok value⟩

theorem yields_pure {charges : List C} {value result : α} :
    (pure value : Metered C E α).Yields charges result ↔ charges = [] ∧ value = result := by
  simp only [Yields, pure, Metered.mk.injEq, Except.ok.injEq]
  exact and_congr_left fun _ => eq_comm

theorem yields_free {charges : List C} {outcome : Except E α} {value : α} :
    (free outcome : Metered C E α).Yields charges value ↔ charges = [] ∧ outcome = .ok value := by
  simp only [Yields, free, Metered.mk.injEq]
  exact and_congr_left fun _ => eq_comm

theorem yields_bind {first : Metered C E α} {next : α → Metered C E β} {charges : List C}
    {result : β} :
    (first >>= next).Yields charges result ↔
      ∃ before value after, first.Yields before value ∧ (next value).Yields after result ∧
        charges = before ++ after := by
  constructor
  · intro yields
    obtain ⟨before, outcome⟩ := first
    cases outcome with
    | error failure => cases yields
    | ok value =>
        have whole : (⟨before ++ (next value).charges, (next value).outcome⟩ : Metered C E β) =
            ⟨charges, .ok result⟩ := yields
        rw [Metered.mk.injEq] at whole
        refine ⟨before, value, (next value).charges, rfl, ?_, whole.1.symm⟩
        rw [Yields, ← whole.2]
  · rintro ⟨before, value, after, isFirst, isNext, rfl⟩
    rw [Yields] at isFirst isNext ⊢
    rw [isFirst]
    change Metered.mk (before ++ (next value).charges) (next value).outcome = _
    rw [isNext]

theorem Yields.unique {computation : Metered C E α} {charges others : List C} {value other : α}
    (first : computation.Yields charges value) (second : computation.Yields others other) :
    charges = others ∧ value = other := by
  rw [Yields, first, Metered.mk.injEq, Except.ok.injEq] at second
  exact second

end Metered

/-- A meter whose state takes charges or says why it refuses one. -/
structure Meter (S C L : Type) where
  charge : S → C → Option L × S

namespace Meter

variable {S C L E α : Type} (meter : Meter S C L)

/-- Charge one after the other; the first that is refused ends it. -/
def chargeAll : S → List C → Option L
  | _, [] => none
  | state, item :: items =>
      match meter.charge state item with
      | (some limit, _) => some limit
      | (none, charged) => chargeAll charged items

def run (refused : L → E) (state : S) (computation : Metered C E α) : Except E α :=
  match meter.chargeAll state computation.charges with
  | some limit => .error (refused limit)
  | none => computation.outcome

/-- Under a lighter state nothing more is refused, and charges weigh. -/
structure Weighs (lighter : S → S → Prop) : Prop where
  accepts : ∀ light heavy item, lighter light heavy → (meter.charge heavy item).1 = none →
    (meter.charge light item).1 = none ∧
      lighter (meter.charge light item).2 (meter.charge heavy item).2
  skips : ∀ light heavy item, lighter light heavy → (meter.charge heavy item).1 = none →
    lighter light (meter.charge heavy item).2

variable {meter} {lighter : S → S → Prop}

private theorem chargeAll_cons {state : S} {item : C} {items : List C} :
    meter.chargeAll state (item :: items) = none ↔
      (meter.charge state item).1 = none ∧
        meter.chargeAll (meter.charge state item).2 items = none := by
  rw [chargeAll]
  rcases meter.charge state item with ⟨_ | limit, charged⟩ <;> simp

theorem Weighs.chargeAll_sublist (weighs : meter.Weighs lighter) {fewer more : List C}
    (sublist : fewer.Sublist more) {light heavy : S} (lighter_ : lighter light heavy)
    (accepted : meter.chargeAll heavy more = none) : meter.chargeAll light fewer = none := by
  induction sublist generalizing light heavy with
  | slnil => rfl
  | cons item _ ih =>
      rw [chargeAll_cons] at accepted
      exact ih (weighs.skips _ _ item lighter_ accepted.1) accepted.2
  | cons_cons item _ ih =>
      rw [chargeAll_cons] at accepted ⊢
      obtain ⟨taken, next⟩ := weighs.accepts _ _ item lighter_ accepted.1
      exact ⟨taken, ih next accepted.2⟩

theorem run_eq_ok {refused : L → E} {state : S} {computation : Metered C E α} {value : α} :
    meter.run refused state computation = .ok value ↔
      meter.chargeAll state computation.charges = none ∧
        computation.Yields computation.charges value := by
  rw [run]
  constructor
  · intro isValue
    split at isValue
    · cases isValue
    · next accepted =>
      refine ⟨accepted, ?_⟩
      rw [Metered.Yields, ← isValue]
  · rintro ⟨accepted, yields⟩
    rw [accepted, yields]

/-- A computation with the value of another and no more charges succeeds where
the other does. -/
theorem Weighs.run_of_sublist (weighs : meter.Weighs lighter) {refused : L → E} {state : S}
    (self : lighter state state) {small large : Metered C E α} {value : α}
    {fewer : List C} (yields : small.Yields fewer value)
    (sublist : fewer.Sublist large.charges)
    (isValue : meter.run refused state large = .ok value) :
    meter.run refused state small = .ok value := by
  obtain ⟨accepted, -⟩ := run_eq_ok.mp isValue
  rw [run_eq_ok]
  have sameCharges : small.charges = fewer := by rw [yields]
  rw [sameCharges]
  exact ⟨weighs.chargeAll_sublist sublist self accepted, yields⟩

end Meter

end Acetone.Lib

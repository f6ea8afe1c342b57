import Mathlib.Data.List.Basic

/-!
# Sequences of writes that may stop

A sequence of writes takes a state to another one, and may stop after any of
them.  What holds throughout a sequence holds wherever it stops.
-/

namespace Acetone.Lib

section

variable {S W : Type} (step : S → W → S)

def stopped (state : S) (writes : List W) (count : Nat) : S :=
  (writes.take count).foldl step state

/-- It holds wherever the sequence stops. -/
def Throughout (holds : S → Prop) (state : S) (writes : List W) : Prop :=
  ∀ count, holds (stopped step state writes count)

/-- It holds of each write and the state it is made in. -/
def AtEach (holds : S → W → Prop) : S → List W → Prop
  | _, [] => True
  | state, write :: writes => holds state write ∧ AtEach holds (step state write) writes

variable {step} {state : S} {write : W} {writes first second : List W}

@[simp] theorem stopped_nil (count : Nat) : stopped step state [] count = state := by
  rw [stopped, List.take_nil, List.foldl_nil]

@[simp] theorem stopped_cons (count : Nat) :
    stopped step state (write :: writes) (count + 1) =
      stopped step (step state write) writes count := rfl

theorem stopped_of_length_le {count : Nat} (complete : writes.length ≤ count) :
    stopped step state writes count = writes.foldl step state := by
  rw [stopped, List.take_of_length_le complete]

section

variable {holds : S → Prop}

theorem throughout_nil : Throughout step holds state [] ↔ holds state := by
  simp [Throughout]

theorem throughout_cons :
    Throughout step holds state (write :: writes) ↔
      holds state ∧ Throughout step holds (step state write) writes := by
  constructor
  · intro all
    exact ⟨all 0, fun count => all (count + 1)⟩
  · rintro ⟨now, later⟩ count
    cases count with
    | zero => exact now
    | succ count => exact later count

theorem Throughout.finally (all : Throughout step holds state writes) :
    holds (writes.foldl step state) := by
  have last := all writes.length
  rwa [stopped_of_length_le (Nat.le_refl _)] at last

end

section

variable {holds : S → W → Prop}

theorem atEach_append :
    AtEach step holds state (first ++ second) ↔
      AtEach step holds state first ∧ AtEach step holds (first.foldl step state) second := by
  induction first generalizing state with
  | nil => exact ⟨fun all => ⟨trivial, all⟩, And.right⟩
  | cons write rest ih => rw [List.cons_append, AtEach, AtEach, List.foldl_cons, ih, and_assoc]

theorem AtEach.mono {other : S → W → Prop} (all : AtEach step holds state writes)
    (implies : ∀ state write, holds state write → other state write) :
    AtEach step other state writes := by
  induction writes generalizing state with
  | nil => trivial
  | cons write rest ih => exact ⟨implies state write all.1, ih all.2⟩

theorem AtEach.get (all : AtEach step holds state writes) {count : Nat}
    (isWrite : writes[count]? = some write) : holds (stopped step state writes count) write := by
  induction writes generalizing state count with
  | nil => cases isWrite
  | cons first rest ih =>
      cases count with
      | zero =>
          cases isWrite
          exact all.1
      | succ count => exact ih all.2 isWrite

theorem throughout_of_atEach {kept : S → Prop}
    (each : AtEach step (fun state write => kept state → kept (step state write)) state writes)
    (now : kept state) : Throughout step kept state writes := by
  induction writes generalizing state with
  | nil => exact throughout_nil.mpr now
  | cons write rest ih => exact throughout_cons.mpr ⟨now, ih each.2 (each.1 now)⟩

/-- What each write meets where something is kept. -/
theorem AtEach.of_kept {kept : S → Prop}
    (each : AtEach step (fun state write => kept state →
      holds state write ∧ kept (step state write)) state writes)
    (now : kept state) : AtEach step holds state writes := by
  induction writes generalizing state with
  | nil => trivial
  | cons write rest ih => exact ⟨(each.1 now).1, ih each.2 (each.1 now).2⟩

end

end

end Acetone.Lib

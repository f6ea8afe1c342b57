import Mathlib.Logic.Basic

/-!
# Bounded loops

A loop whose body either goes on with a new state or breaks with a result.
The bound only makes the definition total: `loop_isSome` shows that a measure
which every round decreases is bound enough.
-/

namespace Acetone.Lib

variable {σ ρ : Type}

/-- Run the body at most `rounds` times; none if it has not broken by then. -/
def loop (body : σ → σ ⊕ ρ) : Nat → σ → Option ρ
  | 0, _ => none
  | rounds + 1, state =>
      match body state with
      | .inl next => loop body rounds next
      | .inr result => some result

variable {body : σ → σ ⊕ ρ} {Invariant : σ → Prop}

theorem loop_mono {rounds more : Nat} {state : σ} {result : ρ} (le : rounds ≤ more)
    (ends : loop body rounds state = some result) : loop body more state = some result := by
  induction rounds generalizing more state with
  | zero => cases ends
  | succ rounds ih =>
      obtain ⟨more, rfl⟩ : ∃ rest, more = rest + 1 := ⟨more - 1, by omega⟩
      rw [loop] at ends ⊢
      cases step : body state with
      | inl next =>
          rw [step] at ends
          exact ih (by omega) ends
      | inr found =>
          rw [step] at ends
          exact ends

/-- What the body keeps until it breaks holds of the state it breaks in. -/
theorem loop_spec {Result : ρ → Prop}
    (keeps : ∀ state next, Invariant state → body state = .inl next → Invariant next)
    (breaks : ∀ state result, Invariant state → body state = .inr result → Result result)
    {rounds : Nat} {state : σ} (start : Invariant state) {result : ρ}
    (ends : loop body rounds state = some result) : Result result := by
  induction rounds generalizing state with
  | zero => cases ends
  | succ rounds ih =>
      rw [loop] at ends
      cases step : body state with
      | inl next =>
          rw [step] at ends
          exact ih (keeps state next start step) ends
      | inr found =>
          rw [step] at ends
          cases ends
          exact breaks state result start step

theorem loop_isSome (measure : σ → Nat)
    (keeps : ∀ state next, Invariant state → body state = .inl next → Invariant next)
    (decreases : ∀ state next, Invariant state → body state = .inl next →
      measure next < measure state)
    {rounds : Nat} {state : σ} (start : Invariant state) (enough : measure state < rounds) :
    (loop body rounds state).isSome := by
  induction rounds generalizing state with
  | zero => cases enough
  | succ rounds ih =>
      rw [loop]
      cases step : body state with
      | inl next =>
          have smaller := decreases state next start step
          exact ih (keeps state next start step) (by omega)
      | inr found => rfl

end Acetone.Lib

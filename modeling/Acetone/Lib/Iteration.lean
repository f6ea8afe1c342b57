/-!
# Iterators as machines of turns

An iterator's `next` is a loop; a turn is one pass through its body.  A run may
need any number of turns, so `next` and `collect` take a budget and give no
answer when it is spent.  `Yields` says what an iterator yields in the end, and
then every budget from some point on suffices.
-/

namespace Acetone.Lib

/-- What a turn comes to: an item, another turn, the end or an error. -/
inductive Turn (S A E : Type) where
  | yield (item : A) (state : S)
  | again (state : S)
  | stop (state : S)
  | fail (error : E)

/-- Go on with an answer; a spent budget and an error end the computation. -/
def andThen {E A B : Type} (answer : Option (Except E A))
    (rest : A → Option (Except E B)) : Option (Except E B) :=
  match answer with
  | none => none
  | some (.error error) => some (.error error)
  | some (.ok value) => rest value

@[simp] theorem andThen_ok {E A B : Type} (value : A)
    (rest : A → Option (Except E B)) :
    andThen (some (.ok value)) rest = rest value :=
  rfl

section

variable {S A E : Type} (turn : S → Turn S A E)

/-- Turns until an item, the end or an error. -/
def next : Nat → S → Option (Except E (Option A × S))
  | 0, _ => none
  | turns + 1, state =>
      match turn state with
      | .yield item state => some (.ok (some item, state))
      | .again state => next turns state
      | .stop state => some (.ok (none, state))
      | .fail error => some (.error error)

def collect : Nat → S → Option (Except E (List A))
  | 0, _ => none
  | turns + 1, state =>
      match turn state with
      | .yield item state =>
          (collect turns state).map (fun rest => rest.map (item :: ·))
      | .again state => collect turns state
      | .stop _ => some (.ok [])
      | .fail error => some (.error error)

/-- The iterator yields exactly these items and then ends. -/
inductive Yields : S → List A → Prop where
  | stop {state final : S} (ends : turn state = .stop final) : Yields state []
  | again {state after : S} {items : List A} (turns : turn state = .again after)
      (rest : Yields after items) : Yields state items
  | yield {state after : S} {item : A} {items : List A}
      (yields : turn state = .yield item after) (rest : Yields after items) :
      Yields state (item :: items)

variable {turn}

theorem Yields.collect {state : S} {items : List A}
    (yields : Yields turn state items) :
    ∃ enough, ∀ turns, enough ≤ turns →
      collect turn turns state = some (.ok items) := by
  induction yields with
  | stop ends =>
      refine ⟨1, fun turns enough => ?_⟩
      obtain ⟨fewer, rfl⟩ : ∃ fewer, turns = fewer + 1 := ⟨turns - 1, by omega⟩
      rw [Lib.collect, ends]
  | again goesOn _ ih =>
      obtain ⟨bound, rest⟩ := ih
      refine ⟨bound + 1, fun turns enough => ?_⟩
      obtain ⟨fewer, rfl⟩ : ∃ fewer, turns = fewer + 1 := ⟨turns - 1, by omega⟩
      rw [Lib.collect, goesOn]
      exact rest fewer (by omega)
  | yield found _ ih =>
      obtain ⟨bound, rest⟩ := ih
      refine ⟨bound + 1, fun turns enough => ?_⟩
      obtain ⟨fewer, rfl⟩ : ∃ fewer, turns = fewer + 1 := ⟨turns - 1, by omega⟩
      rw [Lib.collect, found]
      simp only [rest fewer (by omega)]
      rfl

theorem Yields.next {state : S} {items : List A}
    (yields : Yields turn state items) :
    ∃ after enough,
      (∀ turns, enough ≤ turns →
        next turn turns state = some (.ok (items.head?, after))) ∧
      (items ≠ [] → Yields turn after items.tail) := by
  induction yields with
  | @stop state final ends =>
      refine ⟨final, 1, fun turns enough => ?_, fun some => absurd rfl some⟩
      obtain ⟨fewer, rfl⟩ : ∃ fewer, turns = fewer + 1 := ⟨turns - 1, by omega⟩
      rw [Lib.next, ends]
      rfl
  | again goesOn _ ih =>
      obtain ⟨after, bound, rest, further⟩ := ih
      refine ⟨after, bound + 1, fun turns enough => ?_, further⟩
      obtain ⟨fewer, rfl⟩ : ∃ fewer, turns = fewer + 1 := ⟨turns - 1, by omega⟩
      rw [Lib.next, goesOn]
      exact rest fewer (by omega)
  | @yield state after item items found rest _ =>
      refine ⟨after, 1, fun turns enough => ?_, fun _ => rest⟩
      obtain ⟨fewer, rfl⟩ : ∃ fewer, turns = fewer + 1 := ⟨turns - 1, by omega⟩
      rw [Lib.next, found]
      rfl

end

end Acetone.Lib

import Acetone.Lib.ByteString

/-!
# Self-delimiting code words

Two code words are apart when they are equal or differ at a byte that both of
them have: neither goes on where the other ends.  Words of one length are
apart, so are concatenations whose parts are, and words that start with their
length.
-/

namespace Acetone.Lib

/-- Equal, or different at a byte that both have. -/
def Apart (left right : Bytes) : Prop := ∃ order, Agrees order left right

namespace Apart

theorem refl (bytes : Bytes) : Apart bytes bytes := ⟨.eq, rfl⟩

theorem append {left right leftRest rightRest : Bytes} (heads : Apart left right)
    (rests : left = right → Apart leftRest rightRest) :
    Apart (left ++ leftRest) (right ++ rightRest) := by
  obtain ⟨order, agrees⟩ := heads
  cases order with
  | lt => exact ⟨.lt, Below.append agrees _ _⟩
  | gt => exact ⟨.gt, Below.append agrees _ _⟩
  | eq =>
      obtain ⟨next, same⟩ := rests agrees
      exact ⟨_, Agrees.append agrees fun _ => same⟩

theorem of_length_eq {left right : Bytes} (same : left.length = right.length) :
    Apart left right := by
  induction left generalizing right with
  | nil =>
      obtain rfl := List.eq_nil_of_length_eq_zero same.symm
      exact refl []
  | cons byte left ih =>
      cases right with
      | nil => cases same
      | cons other right =>
          obtain ⟨order, agrees⟩ := ih (Nat.succ.inj same)
          rcases lt_trichotomy byte other with less | rfl | greater
          · exact ⟨.lt, .head less⟩
          · exact ⟨order, agrees.cons byte⟩
          · exact ⟨.gt, .head greater⟩

theorem cons {left right : Bytes} {first second : UInt8}
    (rests : first = second → Apart left right) : Apart (first :: left) (second :: right) := by
  have heads : Apart [first] [second] := of_length_eq rfl
  exact heads.append fun same => rests (List.cons.inj same).1

/-- What follows two words that are apart is told from them. -/
theorem append_eq {left right leftRest rightRest : Bytes} (heads : Apart left right) :
    left ++ leftRest = right ++ rightRest ↔ left = right ∧ leftRest = rightRest := by
  constructor
  · intro same
    obtain ⟨order, agrees⟩ := heads
    cases order with
    | lt =>
        have less := (Below.append agrees leftRest rightRest).lexCmp_eq_lt
        rw [same, lexCmp_self] at less
        cases less
    | gt =>
        have greater := (Below.append agrees rightRest leftRest).lexCmp_eq_lt
        rw [same, lexCmp_self] at greater
        cases greater
    | eq =>
        have equal : left = right := agrees
        subst equal
        exact ⟨rfl, List.append_cancel_left same⟩
  · rintro ⟨rfl, rfl⟩
    rfl

theorem eq_of_isPrefix {left right : Bytes} (heads : Apart left right)
    (starts : left <+: right) : left = right := by
  obtain ⟨rest, same⟩ := starts
  rw [← List.append_nil right] at same
  exact (heads.append_eq.mp same).1

end Apart

def word64 (value : Nat) : Bytes := beBytes 8 value

theorem word64_inj {left right : Nat} (leftBound : left < 2 ^ 64) (rightBound : right < 2 ^ 64) :
    word64 left = word64 right ↔ left = right := by
  constructor
  · intro same
    have values := congrArg ofBeBytes same
    rwa [word64, word64, ofBeBytes_beBytes leftBound, ofBeBytes_beBytes rightBound] at values
  · rintro rfl
    rfl

theorem word64_apart (left right : Nat) : Apart (word64 left) (word64 right) :=
  .of_length_eq (by simp [word64])

def lenPrefixed (bytes : Bytes) : Bytes := word64 bytes.length ++ bytes

theorem lenPrefixed_apart {left right : Bytes} (leftBound : left.length < 2 ^ 64)
    (rightBound : right.length < 2 ^ 64) : Apart (lenPrefixed left) (lenPrefixed right) :=
  (word64_apart _ _).append fun same =>
    .of_length_eq ((word64_inj leftBound rightBound).mp same)

theorem lenPrefixed_inj {left right : Bytes} (leftBound : left.length < 2 ^ 64)
    (rightBound : right.length < 2 ^ 64) : lenPrefixed left = lenPrefixed right ↔ left = right := by
  rw [lenPrefixed, lenPrefixed, (word64_apart _ _).append_eq, word64_inj leftBound rightBound]
  exact ⟨And.right, fun same => ⟨congrArg _ same, same⟩⟩

end Acetone.Lib

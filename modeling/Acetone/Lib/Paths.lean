import Mathlib.Data.List.Infix
import Mathlib.Data.String.Basic

/-!
# Slash-separated paths

Prefix tests on strings.  A path component holds no separator, so one
component and its separator start a path only if the path starts with that
very component.
-/

namespace Acetone.Lib

/-- `str::starts_with`. -/
def startsWith (text start : String) : Bool :=
  start.toList.isPrefixOf text.toList

/-- `str::strip_prefix`. -/
def stripStart (text start : String) : Option String :=
  if startsWith text start then some (.ofList (text.toList.drop start.toList.length))
  else none

theorem startsWith_iff {text start : String} :
    startsWith text start = true ↔ start.toList <+: text.toList :=
  List.isPrefixOf_iff_prefix

theorem startsWith_self_append (start rest : String) :
    startsWith (start ++ rest) start = true := by
  rw [startsWith_iff, String.toList_append]
  exact List.prefix_append _ _

theorem exists_of_startsWith {text start : String} (starts : startsWith text start = true) :
    ∃ rest, text = start ++ rest := by
  obtain ⟨rest, same⟩ := startsWith_iff.mp starts
  refine ⟨.ofList rest, String.toList_inj.mp ?_⟩
  rw [String.toList_append, String.toList_ofList, same]

theorem startsWith_append (stem text start : String) :
    startsWith (stem ++ text) (stem ++ start) = startsWith text start := by
  rw [Bool.eq_iff_iff, startsWith_iff, startsWith_iff, String.toList_append,
    String.toList_append, List.prefix_append_right_inj]

theorem startsWith_trans {text middle start : String} (outer : startsWith text middle = true)
    (inner : startsWith middle start = true) : startsWith text start = true :=
  startsWith_iff.mpr ((startsWith_iff.mp inner).trans (startsWith_iff.mp outer))

theorem startsWith_comparable {text left right : String} (fromLeft : startsWith text left = true)
    (fromRight : startsWith text right = true) :
    startsWith left right = true ∨ startsWith right left = true := by
  rw [startsWith_iff, startsWith_iff]
  exact (List.prefix_or_prefix_of_prefix (startsWith_iff.mp fromLeft)
    (startsWith_iff.mp fromRight)).symm

theorem stripStart_append (start rest : String) :
    stripStart (start ++ rest) start = some rest := by
  rw [stripStart, if_pos (startsWith_self_append start rest), String.toList_append,
    List.drop_left, String.ofList_toList]

section Components

variable {α : Type} {separator : α} {left right : List α}

/-- The first component of a path is what stands before its first
separator. -/
theorem component_unique {leftRest rightRest : List α}
    (plain : separator ∉ left) (other : separator ∉ right)
    (same : left ++ separator :: leftRest = right ++ separator :: rightRest) :
    left = right := by
  classical
  have cut : ∀ {part rest : List α}, separator ∉ part →
      (part ++ separator :: rest).takeWhile (· ≠ separator) = part := by
    intro part rest plain
    rw [List.takeWhile_append_of_pos (by aesop)]
    simp
  rw [← @cut left leftRest plain, same, cut other]

end Components

/-- A string without the separator. -/
def IsComponent (name : String) : Prop := '/' ∉ name.toList

instance decidableIsComponent (name : String) : Decidable (IsComponent name) :=
  inferInstanceAs (Decidable (_ ∉ _))

theorem component_append_inj {name other rest otherRest : String} (plain : IsComponent name)
    (otherPlain : IsComponent other) :
    name ++ "/" ++ rest = other ++ "/" ++ otherRest ↔ name = other ∧ rest = otherRest := by
  constructor
  · intro same
    have chars := congrArg String.toList same
    have separator : "/".toList = ['/'] := rfl
    simp only [String.toList_append, separator, List.append_assoc, List.singleton_append]
      at chars
    have names : name = other := String.toList_inj.mp (component_unique plain otherPlain chars)
    subst names
    exact ⟨rfl, String.append_right_inj _ |>.mp same⟩
  · rintro ⟨rfl, rfl⟩
    rfl

theorem startsWith_component {name other : String} (plain : IsComponent name)
    (otherPlain : IsComponent other) (rest : String) :
    startsWith (other ++ "/" ++ rest) (name ++ "/") = decide (name = other) := by
  rw [Bool.eq_iff_iff, startsWith_iff, decide_eq_true_iff]
  have separator : "/".toList = ['/'] := rfl
  rw [String.toList_append, String.toList_append, String.toList_append, separator,
    List.append_assoc, List.singleton_append]
  constructor
  · rintro ⟨tail, same⟩
    rw [List.append_assoc, List.singleton_append] at same
    exact String.toList_inj.mp (component_unique plain otherPlain same)
  · rintro rfl
    exact ⟨rest.toList, by rw [List.append_assoc, List.singleton_append]⟩

end Acetone.Lib

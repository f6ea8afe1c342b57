import Mathlib.Data.List.Basic

/-!
# Lines of text

Cutting a text into lines and a line at its first separator, as `str::lines`
and `str::split_once` do.
-/

namespace Acetone.Lib

/-- A line ending may be preceded by a carriage return. -/
def dropReturn (line : List Char) : List Char :=
  if line.getLast? = some '\r' then line.dropLast else line

/-- The lines from a line begun on; the last one needs no ending. -/
def linesFrom (begun : List Char) : List Char → List (List Char)
  | [] => if begun = [] then [] else [begun]
  | letter :: text =>
      if letter = '\n' then dropReturn begun :: linesFrom [] text
      else linesFrom (begun ++ [letter]) text

/-- `str::lines`. -/
def lines (text : List Char) : List (List Char) := linesFrom [] text

/-- Every line with its ending. -/
def unlines (parts : List (List Char)) : List Char := parts.flatMap (· ++ ['\n'])

def PlainLine (line : List Char) : Prop := '\n' ∉ line ∧ line.getLast? ≠ some '\r'

private theorem linesFrom_append {begun line rest : List Char} (unbroken : '\n' ∉ line) :
    linesFrom begun (line ++ '\n' :: rest) = dropReturn (begun ++ line) :: linesFrom [] rest := by
  induction line generalizing begun with
  | nil => simp [linesFrom]
  | cons letter line ih =>
      rw [List.mem_cons, not_or] at unbroken
      rw [List.cons_append, linesFrom, if_neg (Ne.symm unbroken.1), ih unbroken.2,
        List.append_assoc]
      rfl

theorem lines_unlines {parts : List (List Char)} (plain : ∀ line ∈ parts, PlainLine line) :
    lines (unlines parts) = parts := by
  induction parts with
  | nil => rfl
  | cons line parts ih =>
      obtain ⟨⟨unbroken, noReturn⟩, plain⟩ := List.forall_mem_cons.mp plain
      have cut := @linesFrom_append [] line (unlines parts) unbroken
      rw [unlines, List.flatMap_cons, List.append_assoc, lines]
      refine cut.trans ?_
      rw [List.nil_append, dropReturn, if_neg noReturn]
      exact congrArg _ (ih plain)

/-- `str::split_once`. -/
def splitOnce (separator : Char) : List Char → Option (List Char × List Char)
  | [] => none
  | letter :: text =>
      if letter = separator then some ([], text)
      else (splitOnce separator text).map fun parts => (letter :: parts.1, parts.2)

theorem splitOnce_append {separator : Char} {left right : List Char} (absent : separator ∉ left) :
    splitOnce separator (left ++ separator :: right) = some (left, right) := by
  induction left with
  | nil => exact if_pos rfl
  | cons letter left ih =>
      rw [List.mem_cons, not_or] at absent
      rw [List.cons_append, splitOnce, if_neg (Ne.symm absent.1), ih absent.2]
      rfl

theorem splitOnce_absent {separator : Char} {text left right : List Char}
    (split : splitOnce separator text = some (left, right)) : separator ∉ left := by
  induction text generalizing left with
  | nil => cases split
  | cons letter text ih =>
      rw [splitOnce] at split
      split at split
      · cases split
        exact List.not_mem_nil
      · next other =>
          obtain ⟨⟨before, after⟩, isSplit, made⟩ := Option.map_eq_some_iff.mp split
          cases made
          rw [List.mem_cons, not_or]
          exact ⟨Ne.symm other, ih isSplit⟩

end Acetone.Lib

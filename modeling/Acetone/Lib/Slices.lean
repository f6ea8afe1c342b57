import Mathlib.Algebra.Ring.Nat
import Mathlib.Data.List.Infix

/-!
# Slices of a text by byte offsets

A text is a sequence of characters, an offset counts the bytes of their UTF-8
encodings.  A slice is there only if its ends are between characters.
-/

namespace Acetone.Lib

def byteLength (text : List Char) : Nat := (text.map Char.utf8Size).sum

@[simp] theorem byteLength_nil : byteLength [] = 0 := rfl

@[simp] theorem byteLength_cons (c : Char) (text : List Char) :
    byteLength (c :: text) = c.utf8Size + byteLength text := by
  simp [byteLength]

@[simp] theorem byteLength_append (left right : List Char) :
    byteLength (left ++ right) = byteLength left + byteLength right := by
  simp [byteLength]

theorem byteLength_pos {text : List Char} (nonempty : text ≠ []) : 0 < byteLength text := by
  cases text with
  | nil => exact absurd rfl nonempty
  | cons c text =>
      have width := c.utf8Size_pos
      rw [byteLength_cons]
      omega

theorem byteLength_of_ascii {text : List Char} (ascii : ∀ c ∈ text, c.utf8Size = 1) :
    byteLength text = text.length := by
  induction text with
  | nil => rfl
  | cons c text ih =>
      rw [List.forall_mem_cons] at ascii
      rw [byteLength_cons, ascii.1, ih ascii.2, List.length_cons, Nat.add_comm]

/-- `text[offset..]`. -/
def sliceFrom : List Char → Nat → Option (List Char)
  | text, 0 => some text
  | [], _ + 1 => none
  | c :: text, offset + 1 =>
      if c.utf8Size ≤ offset + 1 then sliceFrom text (offset + 1 - c.utf8Size) else none

/-- `text[..offset]`. -/
def sliceTo : List Char → Nat → Option (List Char)
  | _, 0 => some []
  | [], _ + 1 => none
  | c :: text, offset + 1 =>
      if c.utf8Size ≤ offset + 1 then (sliceTo text (offset + 1 - c.utf8Size)).map (c :: ·)
      else none

theorem sliceFrom_append (before after : List Char) :
    sliceFrom (before ++ after) (byteLength before) = some after := by
  induction before with
  | nil => cases after <;> rfl
  | cons c before ih =>
      have width := c.utf8Size_pos
      obtain ⟨offset, isOffset⟩ : ∃ offset, byteLength (c :: before) = offset + 1 :=
        ⟨c.utf8Size - 1 + byteLength before, by rw [byteLength_cons]; omega⟩
      rw [List.cons_append, isOffset, sliceFrom, ← isOffset, byteLength_cons, Nat.add_sub_cancel_left,
        if_pos (Nat.le_add_right _ _), ih]

theorem sliceTo_append (before after : List Char) :
    sliceTo (before ++ after) (byteLength before) = some before := by
  induction before with
  | nil => cases after <;> rfl
  | cons c before ih =>
      have width := c.utf8Size_pos
      obtain ⟨offset, isOffset⟩ : ∃ offset, byteLength (c :: before) = offset + 1 :=
        ⟨c.utf8Size - 1 + byteLength before, by rw [byteLength_cons]; omega⟩
      rw [List.cons_append, isOffset, sliceTo, ← isOffset, byteLength_cons, Nat.add_sub_cancel_left,
        if_pos (Nat.le_add_right _ _), ih, Option.map_some]

theorem eq_append_of_sliceTo {text before : List Char} {offset : Nat}
    (sliced : sliceTo text offset = some before) :
    ∃ after, text = before ++ after ∧ byteLength before = offset := by
  induction text generalizing offset before with
  | nil =>
      cases offset with
      | zero => cases sliced; exact ⟨[], rfl, rfl⟩
      | succ offset => cases sliced
  | cons c text ih =>
      cases offset with
      | zero => cases sliced; exact ⟨c :: text, rfl, rfl⟩
      | succ offset =>
          rw [sliceTo] at sliced
          split at sliced
          · next fits =>
            obtain ⟨shorter, isShorter, rfl⟩ := Option.map_eq_some_iff.mp sliced
            obtain ⟨after, rfl, isOffset⟩ := ih isShorter
            exact ⟨after, rfl, by rw [byteLength_cons]; omega⟩
          · cases sliced

theorem sliceTo_eq_iff {before after : List Char} {offset : Nat} {text : List Char}
    (isText : text = before ++ after) (isOffset : byteLength before = offset) :
    sliceTo text offset = some before := by
  rw [isText, ← isOffset]
  exact sliceTo_append before after

def textBytes (text : List Char) : List UInt8 := text.flatMap String.utf8EncodeChar

theorem length_textBytes (text : List Char) : (textBytes text).length = byteLength text := by
  rw [textBytes, List.length_flatMap, byteLength]
  simp

theorem getElem?_textBytes_append (before after : List Char) (offset : Nat) :
    (textBytes (before ++ after))[byteLength before + offset]? = (textBytes after)[offset]? := by
  rw [textBytes, List.flatMap_append, ← textBytes, ← textBytes, ← length_textBytes,
    List.getElem?_append_right (Nat.le_add_right _ _), Nat.add_sub_cancel_left]

/-- `text.find(pattern)`: the offset of the first occurrence. -/
def findText (pattern : List Char) : List Char → Option Nat
  | [] => if pattern.isPrefixOf [] then some 0 else none
  | c :: text =>
      if pattern.isPrefixOf (c :: text) then some 0
      else (findText pattern text).map (c.utf8Size + ·)

theorem findText_eq_some {pattern text : List Char} {offset : Nat}
    (found : findText pattern text = some offset) :
    ∃ before after, text = before ++ (pattern ++ after) ∧ byteLength before = offset ∧
      ∀ start rest, before = start ++ rest → rest ≠ [] → ¬ pattern <+: rest ++ (pattern ++ after) := by
  induction text generalizing offset with
  | nil =>
      rw [findText] at found
      split at found
      · next starts =>
        cases found
        obtain ⟨after, same⟩ := List.isPrefixOf_iff_prefix.mp starts
        refine ⟨[], after, same.symm, rfl, fun start rest split nonempty => ?_⟩
        exact absurd (List.append_eq_nil_iff.mp split.symm).2 nonempty
      · cases found
  | cons c text ih =>
      rw [findText] at found
      split at found
      · next starts =>
        cases found
        obtain ⟨after, same⟩ := List.isPrefixOf_iff_prefix.mp starts
        refine ⟨[], after, same.symm, rfl, fun start rest split nonempty => ?_⟩
        exact absurd (List.append_eq_nil_iff.mp split.symm).2 nonempty
      · next notHere =>
        obtain ⟨shorter, isShorter, rfl⟩ := Option.map_eq_some_iff.mp found
        obtain ⟨before, after, rfl, isOffset, first⟩ := ih isShorter
        refine ⟨c :: before, after, rfl, by rw [byteLength_cons, isOffset], ?_⟩
        intro start rest split nonempty
        cases start with
        | nil =>
            obtain rfl : c :: before = rest := split
            rwa [← List.isPrefixOf_iff_prefix]
        | cons head start => exact first start rest (List.cons.inj split).2 nonempty

theorem findText_eq_none {pattern text : List Char} (absent : findText pattern text = none) :
    ¬ pattern <:+: text := by
  induction text with
  | nil =>
      rw [findText] at absent
      split at absent
      · cases absent
      · next notHere =>
        rw [List.infix_nil]
        rintro rfl
        exact notHere rfl
  | cons c text ih =>
      rw [findText] at absent
      split at absent
      · cases absent
      · next notHere =>
        rw [List.infix_cons_iff, not_or]
        exact ⟨by rwa [← List.isPrefixOf_iff_prefix], ih (Option.map_eq_none_iff.mp absent)⟩

end Acetone.Lib

import Acetone.Cypher.Lossless
import Mathlib.Data.List.TakeWhile

/-!
# Tokens are cut where they end

The parts of the lexer never panic: whatever a class of tokens computes as its
width is the width of the characters it has looked at.
-/

namespace Acetone.Cypher

open Acetone.Lib

/-- A good result, or an error of the input. -/
def Sound {α : Type} (good : α → Prop) : Lexed α → Prop
  | .ok result => good result
  | .error (.rejected _) => True
  | .error _ => False

theorem Sound.bind {α β : Type} {good : α → Prop} {goodNext : β → Prop} {first : Lexed α}
    {next : α → Lexed β} (sound : Sound good first)
    (soundNext : ∀ result, good result → Sound goodNext (next result)) :
    Sound goodNext (first >>= next) := by
  cases first with
  | ok result => exact soundNext result sound
  | error failure =>
      cases failure with
      | rejected error => exact trivial
      | panicked => cases sound
      | diverged => cases sound

theorem Sound.imp {α : Type} {good better : α → Prop} {result : Lexed α} (sound : Sound good result)
    (implies : ∀ value, good value → better value) : Sound better result := by
  cases result with
  | ok value => exact implies value sound
  | error failure =>
      cases failure with
      | rejected error => exact trivial
      | panicked => cases sound
      | diverged => cases sound

theorem sound_lexError {α : Type} {good : α → Prop} {message : String} {start stop : Nat} :
    Sound good (lexError message start stop) := trivial

theorem sliced_bind {α β : Type} {slice : Option α} {value : α} {next : α → Lexed β}
    (isSlice : slice = some value) : (sliced slice >>= next) = next value := by
  rw [isSlice]
  rfl

theorem utf8Size_of_isAlphanum {c : Char} (alphanumeric : c.isAlphanum = true) :
    c.utf8Size = 1 := by
  rw [Char.utf8Size_eq_one_iff]
  delta Char.isAlphanum Char.isAlpha Char.isUpper Char.isLower Char.isDigit at alphanumeric
  simp only [Bool.or_eq_true, Bool.and_eq_true, decide_eq_true_eq, ge_iff_le,
    UInt32.le_iff_toNat_le] at alphanumeric ⊢
  have upper : 'Z'.val.toNat = 90 := rfl
  have lower : 'z'.val.toNat = 122 := rfl
  have digit : '9'.val.toNat = 57 := rfl
  simp only [UInt32.reduceToNat] at alphanumeric ⊢
  omega

theorem isAlphanum_of_isDigit {c : Char} (digit : c.isDigit = true) : c.isAlphanum = true := by
  rw [Char.isAlphanum, digit, Bool.or_true]

theorem utf8Size_of_isDigit {c : Char} (digit : c.isDigit = true) : c.utf8Size = 1 :=
  utf8Size_of_isAlphanum (isAlphanum_of_isDigit digit)

theorem sliceTo_takeWhile {p : Char → Bool} (ascii : ∀ c, p c = true → c.utf8Size = 1)
    (rest : List Char) :
    byteLength (rest.takeWhile p) = (rest.takeWhile p).length ∧
      sliceTo rest (rest.takeWhile p).length = some (rest.takeWhile p) := by
  have isLength : byteLength (rest.takeWhile p) = (rest.takeWhile p).length :=
    byteLength_of_ascii fun c member => ascii c (List.mem_takeWhile_imp member)
  exact ⟨isLength, sliceTo_eq_iff List.takeWhile_append_dropWhile.symm isLength⟩

theorem head?_dropWhile {p : Char → Bool} {rest : List Char} {c : Char}
    (isHead : (rest.dropWhile p).head? = some c) : p c = false := by
  have fails := List.head?_dropWhile_not p rest
  rw [isHead] at fails
  exact Bool.eq_false_iff.mpr (by simpa using fails)

/-- A token is cut from the front of a text. -/
def Cut (classes : CharClasses) (names : Naming) (rest : List Char) (token : TokenKind × Nat) :
    Prop :=
  ∃ text tail, rest = text ++ tail ∧ byteLength text = token.2 ∧ text ≠ [] ∧
    Written classes names token.1 text ∧
    ∀ c, tail.head? = some c → continues classes token.1 c = false

def NumberWidth (rest : List Char) (width : Nat) : Prop :=
  ∃ text tail, rest = text ++ tail ∧ byteLength text = width ∧ ∀ c ∈ text, isNumberChar c = true

private theorem isNumberChar_of_isAlphanum {c : Char} (alphanumeric : c.isAlphanum = true) :
    isNumberChar c = true := by
  simp [isNumberChar, alphanumeric]

private theorem numberChar_of_mem_takeWhile {c : Char} {rest : List Char}
    (member : c ∈ rest.takeWhile Char.isDigit) : isNumberChar c = true :=
  isNumberChar_of_isAlphanum (isAlphanum_of_isDigit (List.mem_takeWhile_imp member))

private theorem numberWidth_append {text more tail : List Char} {width : Nat}
    (isWidth : byteLength text = width) (numbers : ∀ c ∈ text, isNumberChar c = true)
    (moreNumbers : ∀ c ∈ more, isNumberChar c = true) :
    NumberWidth (text ++ (more ++ tail)) (width + byteLength more) := by
  refine ⟨text ++ more, tail, (List.append_assoc _ _ _).symm, ?_, ?_⟩
  · rw [byteLength_append, isWidth]
  · intro c member
    rcases List.mem_append.mp member with inText | inMore
    · exact numbers c inText
    · exact moreNumbers c inMore

private theorem sound_fractionWidth {rest : List Char} {width : Nat}
    (isNumber : NumberWidth rest width) :
    Sound (fun result => NumberWidth rest result.1 ∧ width ≤ result.1 ∧
      (rest.head? = some '.' → nextIsAsciiDigit rest 1 = true → 0 < result.1))
      (fractionWidth rest width) := by
  obtain ⟨text, tail, rfl, isWidth, numbers⟩ := isNumber
  rw [fractionWidth, sliced_bind (by rw [← isWidth]; exact sliceFrom_append text tail)]
  split
  · next dot =>
    rw [Bool.and_eq_true, decide_eq_true_eq] at dot
    obtain ⟨afterDot, rfl⟩ : ∃ afterDot, tail = '.' :: afterDot := List.head?_eq_some_iff.mp dot.1
    have slice : sliceFrom (text ++ '.' :: afterDot) (width + 1) = some afterDot := by
      have behind := sliceFrom_append (text ++ ['.']) afterDot
      rwa [List.append_assoc, byteLength_append, isWidth] at behind
    rw [sliced_bind slice]
    have digits := (sliceTo_takeWhile (fun _ => utf8Size_of_isDigit) afterDot).1
    have longer := @numberWidth_append text ('.' :: afterDot.takeWhile Char.isDigit)
      (afterDot.dropWhile Char.isDigit) width isWidth numbers (by
        rw [List.forall_mem_cons]
        exact ⟨rfl, fun c member => numberChar_of_mem_takeWhile member⟩)
    rw [List.cons_append, List.takeWhile_append_dropWhile, byteLength_cons, digits] at longer
    refine ⟨longer, Nat.le_add_right _ _, fun _ _ => ?_⟩
    show 0 < width + (1 + _)
    omega
  · next noDot =>
    refine ⟨⟨text, tail, rfl, isWidth, numbers⟩, le_refl _, fun isDot digit => ?_⟩
    cases text with
    | nil =>
        obtain rfl : width = 0 := isWidth.symm
        rw [List.nil_append] at isDot digit noDot
        rw [isDot, Nat.zero_add, digit] at noDot
        exact absurd rfl noDot
    | cons c text =>
        rw [← isWidth]
        exact byteLength_pos (List.cons_ne_nil _ _)

private theorem sound_exponentWidth {rest : List Char} {width : Nat}
    (isNumber : NumberWidth rest width) :
    Sound (fun result => NumberWidth rest result.1 ∧ width ≤ result.1) (exponentWidth rest width) := by
  obtain ⟨text, tail, rfl, isWidth, numbers⟩ := isNumber
  have unchanged : NumberWidth (text ++ tail) width := ⟨text, tail, rfl, isWidth, numbers⟩
  rw [exponentWidth, sliced_bind (by rw [← isWidth]; exact sliceFrom_append text tail)]
  split
  · next isE =>
    obtain ⟨e, afterE, rfl, eSize, eNumber⟩ : ∃ e afterE, tail = e :: afterE ∧ e.utf8Size = 1 ∧
        isNumberChar e = true := by
      rcases isE with lower | upper
      · obtain ⟨afterE, rfl⟩ := List.head?_eq_some_iff.mp lower
        exact ⟨'e', afterE, rfl, rfl, rfl⟩
      · obtain ⟨afterE, rfl⟩ := List.head?_eq_some_iff.mp upper
        exact ⟨'E', afterE, rfl, rfl, rfl⟩
    have slice : sliceFrom (text ++ e :: afterE) (width + 1) = some afterE := by
      have behind := sliceFrom_append (text ++ [e]) afterE
      rwa [List.append_assoc, byteLength_append, isWidth, byteLength_cons, eSize] at behind
    rw [sliced_bind slice]
    obtain ⟨sign, exponent, rfl, isSign, signNumbers⟩ : ∃ sign exponent, afterE = sign ++ exponent ∧
        (if afterE.head? = some '+' ∨ afterE.head? = some '-' then 2 else 1) =
          byteLength (e :: sign) ∧ ∀ c ∈ e :: sign, isNumberChar c = true := by
      by_cases signed : afterE.head? = some '+' ∨ afterE.head? = some '-'
      · rw [if_pos signed]
        rcases signed with plus | minus
        · obtain ⟨exponent, rfl⟩ := List.head?_eq_some_iff.mp plus
          exact ⟨['+'], exponent, rfl, by rw [byteLength_cons, eSize]; rfl,
            by
            rw [List.forall_mem_cons, List.forall_mem_singleton]
            exact ⟨eNumber, rfl⟩⟩
        · obtain ⟨exponent, rfl⟩ := List.head?_eq_some_iff.mp minus
          exact ⟨['-'], exponent, rfl, by rw [byteLength_cons, eSize]; rfl,
            by
            rw [List.forall_mem_cons, List.forall_mem_singleton]
            exact ⟨eNumber, rfl⟩⟩
      · rw [if_neg signed]
        exact ⟨[], afterE, rfl, by rw [byteLength_cons, eSize]; rfl, by simp [eNumber]⟩
    simp only [isSign]
    have exponentSlice : sliceFrom (text ++ e :: (sign ++ exponent))
        (width + byteLength (e :: sign)) = some exponent := by
      have behind := sliceFrom_append (text ++ e :: sign) exponent
      rwa [List.append_assoc, byteLength_append, isWidth] at behind
    rw [sliced_bind exponentSlice]
    split
    · have digits := (sliceTo_takeWhile (fun _ => utf8Size_of_isDigit) exponent).1
      have longer := @numberWidth_append text (e :: sign ++ exponent.takeWhile Char.isDigit)
        (exponent.dropWhile Char.isDigit) width isWidth numbers (by
          intro c member
          rcases List.mem_append.mp member with inSign | inDigits
          · exact signNumbers c inSign
          · exact numberChar_of_mem_takeWhile inDigits)
      rw [List.append_assoc, List.takeWhile_append_dropWhile, byteLength_append, digits] at longer
      exact ⟨longer, Nat.le_add_right _ _⟩
    · exact ⟨unchanged, le_refl _⟩
  · exact ⟨unchanged, le_refl _⟩

private theorem sound_integerKind {classes : CharClasses} {names : Naming} {radix start stop : Nat}
    {text digits : List Char} (nonempty : text ≠ [])
    (numbers : ∀ c ∈ text, isNumberChar c = true) :
    Sound (fun kind => Written classes names kind text ∧ ∀ c, continues classes kind c = false)
      (integerKind radix digits start stop) := by
  rw [integerKind]
  split
  · exact ⟨⟨nonempty, numbers⟩, fun _ => rfl⟩
  · split
    · exact ⟨⟨nonempty, numbers⟩, fun _ => rfl⟩
    · exact trivial

private theorem radixDigits_eq_some {rest digits : List Char} {radix : Nat}
    (isRadix : radixDigits rest = some (radix, digits)) :
    ∃ mark, rest = '0' :: mark :: digits ∧ mark.isAlphanum = true := by
  unfold radixDigits at isRadix
  split at isRadix
  · cases isRadix; exact ⟨'x', rfl, rfl⟩
  · cases isRadix; exact ⟨'X', rfl, rfl⟩
  · cases isRadix; exact ⟨'o', rfl, rfl⟩
  · cases isRadix; exact ⟨'O', rfl, rfl⟩
  · cases isRadix

/-- A number starts with a digit, or with a dot and a digit. -/
theorem sound_lexNumber {classes : CharClasses} {names : Naming} {input rest : List Char}
    {offset : Nat} (slice : sliceFrom input offset = some rest)
    (starts : rest.head?.any Char.isDigit = true ∨
      rest.head? = some '.' ∧ nextIsAsciiDigit rest 1 = true) :
    Sound (Cut classes names rest) (lexNumber input offset) := by
  rw [lexNumber, sliced_bind slice]
  split
  · next radix digits isRadix =>
    obtain ⟨mark, rfl, markAlphanum⟩ := radixDigits_eq_some isRadix
    have markSize := utf8Size_of_isAlphanum markAlphanum
    obtain ⟨isLength, isText⟩ := sliceTo_takeWhile (fun _ => utf8Size_of_isAlphanum) digits
    dsimp only
    split
    · exact sound_lexError
    · rw [sliced_bind isText]
      have numbers : ∀ c ∈ '0' :: mark :: digits.takeWhile Char.isAlphanum,
          isNumberChar c = true := by
        rw [List.forall_mem_cons, List.forall_mem_cons]
        exact ⟨rfl, isNumberChar_of_isAlphanum markAlphanum,
          fun c member => isNumberChar_of_isAlphanum (List.mem_takeWhile_imp member)⟩
      refine (@sound_integerKind classes names _ _ _ _ _ (List.cons_ne_nil _ _) numbers).bind ?_
      rintro kind ⟨written, last⟩
      refine ⟨_, digits.dropWhile Char.isAlphanum, ?_, ?_, List.cons_ne_nil _ _, written,
        fun c _ => last c⟩
      · rw [List.cons_append, List.cons_append, List.takeWhile_append_dropWhile]
      · rw [byteLength_cons, byteLength_cons, markSize, isLength, ← Nat.add_assoc]
        rfl
  · obtain ⟨isLength, -⟩ := sliceTo_takeWhile (fun _ => utf8Size_of_isDigit) rest
    have whole : NumberWidth rest (rest.takeWhile Char.isDigit).length :=
      ⟨_, _, List.takeWhile_append_dropWhile.symm, isLength,
        fun c member => numberChar_of_mem_takeWhile member⟩
    refine (sound_fractionWidth whole).bind ?_
    rintro ⟨fractional, hasFraction⟩ ⟨isFractional, longer, dotted⟩
    refine (sound_exponentWidth isFractional).bind ?_
    rintro ⟨width, hasExponent⟩ ⟨⟨text, tail, rfl, isWidth, numbers⟩, longest⟩
    dsimp only at longer dotted longest isWidth ⊢
    rw [sliced_bind (sliceTo_eq_iff rfl isWidth)]
    have positive : 0 < width := by
      refine Nat.lt_of_lt_of_le ?_ longest
      rcases starts with digit | ⟨dot, digit⟩
      · refine Nat.lt_of_lt_of_le ?_ longer
        cases isRest : text ++ tail with
        | nil =>
            rw [isRest] at digit
            cases digit
        | cons c others =>
            rw [isRest, List.head?_cons, Option.any_some] at digit
            rw [List.takeWhile_cons, if_pos digit]
            exact Nat.succ_pos _
      · exact dotted dot digit
    have nonempty : text ≠ [] := by
      rintro rfl
      rw [← isWidth] at positive
      exact absurd positive (lt_irrefl 0)
    split
    · split
      · exact ⟨text, tail, rfl, isWidth, nonempty, ⟨nonempty, numbers⟩, fun _ _ => rfl⟩
      · exact sound_lexError
    · refine (@sound_integerKind classes names _ _ _ _ _ nonempty numbers).bind ?_
      rintro kind ⟨written, last⟩
      exact ⟨text, tail, rfl, isWidth, nonempty, written, fun c _ => last c⟩

theorem identLen_spec (classes : CharClasses) (rest : List Char) :
    sliceTo rest (identLen classes rest) = some (rest.takeWhile classes.identChar) :=
  sliceTo_eq_iff List.takeWhile_append_dropWhile.symm rfl

theorem sound_lexParameter {classes : CharClasses} {names : Naming} {input rest : List Char}
    {offset : Nat} (slice : sliceFrom input (offset + 1) = some rest) :
    Sound (fun result => Cut classes names ('$' :: rest) (.parameter result.1, result.2))
      (lexParameter classes input offset) := by
  rw [lexParameter, sliced_bind slice]
  dsimp only
  have cut : ∀ (p : Char → Bool) (width : Nat), byteLength (rest.takeWhile p) = width →
      (∀ c ∈ rest.takeWhile p, classes.identChar c = true ∨ c.isDigit = true) → width ≠ 0 →
        Sound (fun result => Cut classes names ('$' :: rest) (.parameter result.1, result.2))
          (sliced (sliceTo rest width) >>= fun name => pure (name, 1 + width)) := by
    intro p width isWidth inName positive
    rw [sliced_bind (sliceTo_eq_iff List.takeWhile_append_dropWhile.symm isWidth)]
    refine ⟨'$' :: rest.takeWhile p, rest.dropWhile p, ?_, ?_, List.cons_ne_nil _ _,
      ⟨rfl, ?_, inName⟩, fun _ _ => rfl⟩
    · rw [List.cons_append, List.takeWhile_append_dropWhile]
    · rw [byteLength_cons, isWidth]
      rfl
    · intro (empty : rest.takeWhile p = [])
      rw [empty] at isWidth
      exact positive isWidth.symm
  split
  · split
    · exact sound_lexError
    · next positive =>
      exact cut Char.isDigit _ (sliceTo_takeWhile (fun _ => utf8Size_of_isDigit) rest).1
        (fun c member => .inr (List.mem_takeWhile_imp member)) positive
  · split
    · exact sound_lexError
    · next positive =>
      exact cut classes.identChar _ rfl (fun c member => .inl (List.mem_takeWhile_imp member))
        positive

/-- The part of a backquoted name behind what has been read. -/
private theorem sound_backquotedLoop {classes : CharClasses} {input before rest : List Char}
    {offset fuel : Nat} {name : List Char} (isInput : input = before ++ rest)
    (enough : byteLength rest < fuel) :
    Sound (fun result => ∃ piece tail, rest = doubled piece ++ '`' :: tail ∧
      result.1 = name ++ piece ∧
      result.2 = byteLength before + byteLength (doubled piece) + 1 - offset ∧
      ∀ c, tail.head? = some c → continues classes (.ident result.1 true) c = false)
      (backquotedLoop input offset fuel (byteLength before) name) := by
  induction fuel generalizing before rest name with
  | zero => exact absurd enough (Nat.not_lt_zero _)
  | succ fuel ih =>
      rw [backquotedLoop, sliced_bind (by rw [isInput]; exact sliceFrom_append before rest)]
      split
      · exact sound_lexError
      · next off found =>
        obtain ⟨piece, after, rfl, isOff, first⟩ := findText_eq_some found
        rw [sliced_bind (sliceTo_eq_iff rfl isOff)]
        have plain : doubled piece = piece := by
          refine doubled_of_plain fun member => ?_
          obtain ⟨start, others, rfl⟩ := List.append_of_mem member
          refine first start ('`' :: others) rfl (List.cons_ne_nil _ _) ?_
          exact ⟨others ++ (['`'] ++ after), rfl⟩
        have behind : input = (before ++ piece ++ ['`']) ++ after := by
          rw [isInput]
          simp
        have behindLength : byteLength (before ++ piece ++ ['`']) = byteLength before + off + 1 := by
          rw [byteLength_append, byteLength_append, isOff]
          rfl
        rw [sliced_bind (by rw [behind, ← behindLength]; exact sliceFrom_append _ after)]
        split
        · next again =>
          obtain ⟨further, rfl⟩ := List.head?_eq_some_iff.mp again
          have next : input = (before ++ piece ++ ['`'] ++ ['`']) ++ further := by
            rw [behind]
            simp
          have nextLength : byteLength (before ++ piece ++ ['`'] ++ ['`']) =
              byteLength before + off + 1 + 1 := by
            rw [byteLength_append, behindLength]
            rfl
          have shorter : byteLength further < fuel := by
            have width := Char.utf8Size_pos '`'
            simp only [byteLength_append, byteLength_cons] at enough
            omega
          have loop := @ih (before ++ piece ++ ['`'] ++ ['`']) further (name ++ piece ++ ['`'])
            next shorter
          rw [nextLength] at loop
          refine loop.imp ?_
          rintro ⟨result, width⟩ ⟨others, tail, rfl, isResult, isWidth, last⟩
          refine ⟨piece ++ '`' :: others, tail, ?_, ?_, ?_, last⟩
          · simp [plain]
          · rw [isResult]
            simp
          · have quoteSize : '`'.utf8Size = 1 := rfl
            have sum : byteLength (doubled (piece ++ '`' :: others)) =
                off + (1 + (1 + byteLength (doubled others))) := by
              rw [doubled_append, plain, doubled_quote, byteLength_append, isOff, byteLength_cons,
                byteLength_cons, quoteSize]
            rw [sum, isWidth]
            omega
        · next beyond =>
          refine ⟨piece, after, by rw [plain]; rfl, rfl, by rw [plain, isOff], ?_⟩
          intro c isHead
          simp only [continues, beq_eq_false_iff_ne]
          rintro rfl
          exact beyond isHead

theorem sound_lexBackquoted {classes : CharClasses} {names : Naming} {before rest : List Char} :
    Sound (fun result => Cut classes names ('`' :: rest) (.ident result.1 true, result.2))
      (lexBackquoted (before ++ '`' :: rest) (byteLength before)) := by
  have isInput : before ++ '`' :: rest = (before ++ ['`']) ++ rest := by simp
  have isOffset : byteLength (before ++ ['`']) = byteLength before + 1 := byteLength_append _ _
  have enough : byteLength rest < byteLength (before ++ '`' :: rest) + 1 := by
    rw [byteLength_append, byteLength_cons]
    omega
  have loop := @sound_backquotedLoop classes _ _ _ (byteLength before) _ [] isInput enough
  rw [isOffset] at loop
  refine loop.imp ?_
  rintro ⟨name, width⟩ ⟨piece, tail, rfl, isName, isWidth, last⟩
  obtain rfl : name = piece := isName
  refine ⟨'`' :: (doubled name ++ ['`']), tail, by simp, ?_, List.cons_ne_nil _ _, rfl, last⟩
  have quoteSize : '`'.utf8Size = 1 := rfl
  dsimp only at isWidth ⊢
  rw [byteLength_cons, byteLength_append, byteLength_cons, byteLength_nil, quoteSize, isWidth]
  omega

end Acetone.Cypher

import Acetone.Cypher.LexStrings

/-!
# Lexing loses nothing

A round of the loop takes a blank or a token from the front of what is left, so
that the tokens of the whole input are its text.
-/

namespace Acetone.Cypher

open Acetone.Lib

private theorem written_of_symbol {classes : CharClasses} {names : Naming} {kind : TokenKind}
    {text : List Char} (isSymbol : symbol kind = some text) : Written classes names kind text := by
  cases kind with
  | ident => cases isSymbol
  | integer => cases isSymbol
  | integerTooLarge => cases isSymbol
  | float => cases isSymbol
  | str => cases isSymbol
  | parameter => cases isSymbol
  | eof => cases isSymbol
  | _ => exact isSymbol

/-- An operator is the longest one, but that a digit may follow a dot. -/
private theorem operator_spec {classes : CharClasses} {rest : List Char} {kind : TokenKind}
    {width : Nat} (isOperator : operator rest = some (kind, width))
    (noLine : ¬ ['/', '/'].isPrefixOf rest = true) (noBlock : ¬ ['/', '*'].isPrefixOf rest = true) :
    ∃ text tail, rest = text ++ tail ∧ byteLength text = width ∧ text ≠ [] ∧
      symbol kind = some text ∧ (kind = .dot → text = ['.']) ∧
      ∀ c, tail.head? = some c → continues classes kind c = true →
        kind = .dot ∧ c.isDigit = true := by
  have last : ∀ {tail : List Char} {p : Char → Bool}, (∀ c t, tail = c :: t → p c = false) →
      ∀ c, tail.head? = some c → p c = true → kind = .dot ∧ c.isDigit = true := by
    intro tail p never c isHead goesOn
    obtain ⟨others, rfl⟩ := List.head?_eq_some_iff.mp isHead
    rw [never c others rfl] at goesOn
    cases goesOn
  unfold operator at isOperator
  split at isOperator <;> cases isOperator
  case h_14 tail =>
    refine ⟨['/'], tail, rfl, rfl, by simp, rfl, by simp, last fun c t isTail => ?_⟩
    subst isTail
    rw [continues, Bool.or_eq_false_iff, beq_eq_false_iff_ne, beq_eq_false_iff_ne]
    exact ⟨fun same => noLine (by rw [same]; rfl), fun same => noBlock (by rw [same]; rfl)⟩
  case h_17 tail noDot =>
    refine ⟨['.'], tail, rfl, rfl, by simp, rfl, fun _ => rfl, fun c isHead goesOn => ⟨rfl, ?_⟩⟩
    obtain ⟨others, rfl⟩ := List.head?_eq_some_iff.mp isHead
    rw [continues, Bool.or_eq_true, beq_iff_eq] at goesOn
    exact goesOn.resolve_left fun same => noDot others (by rw [same])
  case h_19 tail noTilde =>
    refine ⟨['='], tail, rfl, rfl, by simp, rfl, by simp, last fun c t isTail => ?_⟩
    rw [continues, beq_eq_false_iff_ne]
    rintro rfl
    exact noTilde t isTail
  case h_23 tail noEq noGt noMinus =>
    refine ⟨['<'], tail, rfl, rfl, by simp, rfl, by simp, last fun c t isTail => ?_⟩
    rw [continues, Bool.or_eq_false_iff, Bool.or_eq_false_iff, beq_eq_false_iff_ne,
      beq_eq_false_iff_ne, beq_eq_false_iff_ne]
    exact ⟨⟨fun same => noEq t (by rw [isTail, same]), fun same => noGt t (by rw [isTail, same])⟩,
      fun same => noMinus t (by rw [isTail, same])⟩
  case h_25 tail noEq =>
    refine ⟨['>'], tail, rfl, rfl, by simp, rfl, by simp, last fun c t isTail => ?_⟩
    rw [continues, beq_eq_false_iff_ne]
    rintro rfl
    exact noEq t isTail
  case h_27 tail noGt =>
    refine ⟨['-'], tail, rfl, rfl, by simp, rfl, by simp, last fun c t isTail => ?_⟩
    rw [continues, beq_eq_false_iff_ne]
    rintro rfl
    exact noGt t isTail
  all_goals first
    | exact ⟨[_], _, rfl, rfl, by simp, rfl, by simp, by simp [continues]⟩
    | exact ⟨[_, _], _, rfl, rfl, by simp, rfl, by simp, by simp [continues]⟩

/-- A digit behind a dot is seen in its byte. -/
private theorem nextIsAsciiDigit_of_digit {c : Char} (digit : c.isDigit = true)
    (others : List Char) : nextIsAsciiDigit ('.' :: c :: others) 1 = true := by
  have encoded := String.utf8EncodeChar_eq_singleton (utf8Size_of_isDigit digit)
  have bytes : (textBytes ('.' :: c :: others))[1]? = some c.val.toUInt8 := by
    have head : (textBytes (c :: others))[0]? = some c.val.toUInt8 := by
      rw [textBytes, List.flatMap_cons, encoded]
      rfl
    exact (getElem?_textBytes_append ['.'] (c :: others) 0).trans head
  have bounds : 48 ≤ c.val.toNat ∧ c.val.toNat ≤ 57 := by
    simpa [Char.isDigit, UInt32.le_iff_toNat_le] using digit
  rw [nextIsAsciiDigit, bytes, Option.any_some, Bool.and_eq_true, decide_eq_true_eq,
    decide_eq_true_eq, UInt8.le_iff_toNat_le, UInt8.le_iff_toNat_le, UInt32.toNat_toUInt8]
  have small : c.val.toNat % 2 ^ 8 = c.val.toNat := Nat.mod_eq_of_lt (by omega)
  rw [small]
  exact bounds

private theorem nextIsAsciiDigit_append (before rest : List Char) :
    nextIsAsciiDigit (before ++ rest) (byteLength before + 1) = nextIsAsciiDigit rest 1 := by
  rw [nextIsAsciiDigit, nextIsAsciiDigit, getElem?_textBytes_append]

private theorem sound_lexToken {classes : CharClasses} {before others : List Char} {c : Char}
    (noLine : ¬ ['/', '/'].isPrefixOf (c :: others) = true)
    (noBlock : ¬ ['/', '*'].isPrefixOf (c :: others) = true) :
    Sound (Cut classes Decoded (c :: others))
      (lexToken classes (before ++ c :: others) (byteLength before) c (c :: others)) := by
  have slice := sliceFrom_append before (c :: others)
  rw [lexToken]
  split
  · next kind width isOperator =>
    obtain ⟨text, tail, isRest, isWidth, nonempty, isSymbol, dotText, longest⟩ :=
      @operator_spec classes _ _ _ isOperator noLine noBlock
    rw [nextIsAsciiDigit_append]
    split
    · next dotted =>
      rw [Bool.and_eq_true, decide_eq_true_eq] at dotted
      refine sound_lexNumber slice (.inr ⟨?_, dotted.2⟩)
      rw [isRest, dotText dotted.1]
      rfl
    · next notDotted =>
      refine ⟨text, tail, isRest, isWidth, nonempty, written_of_symbol isSymbol, ?_⟩
      intro next isHead
      rw [Bool.eq_false_iff]
      intro goesOn
      obtain ⟨rfl, digit⟩ := longest next isHead goesOn
      obtain ⟨behind, rfl⟩ := List.head?_eq_some_iff.mp isHead
      rw [isRest, dotText rfl] at notDotted
      exact notDotted (nextIsAsciiDigit_of_digit digit behind)
  · split
    · next isQuote =>
      exact (sound_lexString isQuote).bind fun result cut => cut
    · split
      · next isDollar =>
        subst isDollar
        have behind := sliceFrom_append (before ++ ['$']) others
        rw [List.append_assoc, byteLength_append] at behind
        exact (sound_lexParameter behind).bind fun result cut => cut
      · split
        · next isBackquote =>
          subst isBackquote
          exact sound_lexBackquoted.bind fun result cut => cut
        · split
          · next digit => exact sound_lexNumber slice (.inl digit)
          · split
            · next starts =>
              rw [sliced_bind (identLen_spec classes _)]
              have first : classes.identChar c = true := by
                rw [CharClasses.identChar, CharClasses.alphanumeric]
                rcases Bool.or_eq_true_iff.mp starts with alphabetic | underscore
                · rw [alphabetic]
                  rfl
                · rw [underscore, Bool.or_true]
              have nonempty : (c :: others).takeWhile classes.identChar ≠ [] := by
                rw [List.takeWhile_cons, if_pos first]
                exact List.cons_ne_nil _ _
              exact ⟨_, (c :: others).dropWhile classes.identChar,
                List.takeWhile_append_dropWhile.symm, rfl, nonempty,
                ⟨rfl, nonempty, fun _ member => List.mem_takeWhile_imp member⟩,
                fun _ isHead => head?_dropWhile isHead⟩
            · exact sound_lexError

def Taken (classes : CharClasses) (offset : Nat) (rest : List Char)
    (result : Option Token × Nat) : Prop :=
  ∃ text tail, rest = text ++ tail ∧ text ≠ [] ∧ result.2 = offset + byteLength text ∧
    match result.1 with
    | none => BlankPiece text tail
    | some token => token.span = ⟨offset, offset + byteLength text⟩ ∧
        Written classes Decoded token.kind text ∧
        ∀ c, tail.head? = some c → continues classes token.kind c = false

private theorem line_taken {classes : CharClasses} {before rest : List Char}
    (isLine : ['/', '/'].isPrefixOf rest = true) :
    Taken classes (byteLength before) rest
      (none, byteLength before +
        (findText ['\n'] rest).getD (byteLength (before ++ rest) - byteLength before)) := by
  obtain ⟨comment, rfl⟩ := List.isPrefixOf_iff_prefix.mp isLine
  cases found : findText ['\n'] (['/', '/'] ++ comment) with
  | none =>
      have absent := findText_eq_none found
      refine ⟨'/' :: '/' :: comment, [], (List.append_nil _).symm, List.cons_ne_nil _ _, ?_,
        .line (fun member => absent ?_) nofun⟩
      · rw [Option.getD_none, byteLength_append, Nat.add_sub_cancel_left]
        rfl
      · obtain ⟨start, stop, rfl⟩ := List.append_of_mem member
        exact ⟨['/', '/'] ++ start, stop, by simp⟩
  | some off =>
      obtain ⟨text, tail, isText, isOff, first⟩ := findText_eq_some found
      have noBreak : '\n' ∉ text := by
        intro member
        obtain ⟨start, behind, rfl⟩ := List.append_of_mem member
        refine first start ('\n' :: behind) rfl (List.cons_ne_nil _ _) ?_
        exact ⟨behind ++ (['\n'] ++ tail), rfl⟩
      obtain ⟨within, rfl⟩ : ∃ within, text = '/' :: '/' :: within := by
        cases text with
        | nil => exact absurd (List.cons.inj isText).1 (by decide)
        | cons one text =>
            obtain ⟨rfl, isBehind⟩ := List.cons.inj isText
            cases text with
            | nil => exact absurd (List.cons.inj isBehind).1 (by decide)
            | cons two text =>
                obtain ⟨rfl, -⟩ := List.cons.inj isBehind
                exact ⟨text, rfl⟩
      rw [List.mem_cons, List.mem_cons, not_or, not_or] at noBreak
      refine ⟨'/' :: '/' :: within, '\n' :: tail, isText, List.cons_ne_nil _ _, ?_,
        .line noBreak.2.2 fun c isHead => (Option.some.inj isHead).symm⟩
      rw [Option.getD_some, isOff]

private theorem sound_lexStep {classes : CharClasses} {before rest : List Char}
    (nonempty : rest ≠ []) :
    Sound (Taken classes (byteLength before) rest)
      (lexStep classes (before ++ rest) (byteLength before)) := by
  rw [lexStep, sliced_bind (sliceFrom_append before rest)]
  split
  · exact absurd rfl nonempty
  · next c others =>
    split
    · next white =>
      exact ⟨[c], others, rfl, List.cons_ne_nil _ _, rfl, .white white⟩
    · split
      · next isLine => exact @line_taken classes before _ isLine
      · split
        · next isBlock =>
          obtain ⟨body, isBody⟩ := List.isPrefixOf_iff_prefix.mp isBlock
          rw [← isBody]
          have behind := sliceFrom_append (before ++ ['/', '*']) body
          rw [List.append_assoc, byteLength_append] at behind
          have width : byteLength ['/', '*'] = 2 := rfl
          rw [width] at behind
          rw [sliced_bind behind]
          split
          · next off found =>
            obtain ⟨comment, tail, rfl, isOff, first⟩ := findText_eq_some found
            refine ⟨'/' :: '*' :: (comment ++ ['*', '/']), tail, by simp, List.cons_ne_nil _ _, ?_,
              .block ?_⟩
            · have sizes : '/'.utf8Size = 1 ∧ '*'.utf8Size = 1 := ⟨rfl, rfl⟩
              simp only [byteLength_cons, byteLength_append, byteLength_nil, isOff, sizes]
              omega
            · rintro ⟨start, stop, rfl⟩
              rw [List.append_assoc] at first
              refine first start _ rfl (by simp) ?_
              exact ⟨stop ++ (['*', '/'] ++ tail), by simp⟩
          · exact sound_lexError
        · next noLine noBlock =>
          refine (sound_lexToken noLine noBlock).bind ?_
          rintro ⟨kind, width⟩ ⟨text, tail, isRest, isWidth, isText, written, longest⟩
          obtain rfl : byteLength text = width := isWidth
          exact ⟨text, tail, isRest, isText, rfl, rfl, written, longest⟩

/-- A blank in front of a text belongs to its first gap. -/
private theorem Lossless.blank {classes : CharClasses} {names : Naming} {offset : Nat}
    {piece rest : List Char} {tokens : List Token} (first : BlankPiece piece rest)
    (lossless : Lossless classes names (offset + byteLength piece) rest tokens) :
    Lossless classes names offset (piece ++ rest) tokens := by
  cases lossless with
  | eof blank =>
      have wider : Blank (piece ++ rest) [] := .cons (by rwa [List.append_nil]) blank
      have whole := @Lossless.eof classes names offset _ wider
      rwa [byteLength_append, ← Nat.add_assoc] at whole
  | @token _ gap text rest kind tokens blank nonempty written longest others =>
      have whole := @Lossless.token classes names offset (piece ++ gap) text rest kind tokens
        (.cons first blank) nonempty written longest (by
          rwa [byteLength_append, ← Nat.add_assoc offset])
      rwa [byteLength_append, ← Nat.add_assoc offset, List.append_assoc] at whole

private theorem sound_lexLoop {classes : CharClasses} {before rest : List Char} {fuel : Nat}
    (enough : byteLength rest ≤ fuel) :
    Sound (Lossless classes Decoded (byteLength before) rest)
      (lexLoop classes (before ++ rest) fuel (byteLength before)) := by
  induction fuel generalizing before rest with
  | zero =>
      have empty : rest = [] := by
        by_contra nonempty
        have positive := byteLength_pos nonempty
        omega
      subst empty
      rw [List.append_nil, lexLoop, if_neg (lt_irrefl _)]
      exact .eof .nil
  | succ fuel ih =>
      by_cases empty : rest = []
      · subst empty
        rw [List.append_nil, lexLoop, if_neg (lt_irrefl _)]
        exact .eof .nil
      · have positive := byteLength_pos empty
        rw [lexLoop, if_pos (by rw [byteLength_append]; omega)]
        refine (sound_lexStep empty).bind ?_
        rintro ⟨token, next⟩ ⟨text, tail, rfl, nonempty, isNext, taken⟩
        obtain rfl : next = byteLength before + byteLength text := isNext
        have shorter : byteLength tail ≤ fuel := by
          have width := byteLength_pos nonempty
          rw [byteLength_append] at enough
          omega
        have loop := @ih (before ++ text) tail shorter
        rw [List.append_assoc, byteLength_append] at loop
        refine loop.bind fun tokens lossless => ?_
        cases token with
        | none => exact .blank taken lossless
        | some token =>
            obtain ⟨kind, span⟩ := token
            obtain ⟨rfl, written, longest⟩ := taken
            exact @Lossless.token classes Decoded (byteLength before) [] text tail kind tokens .nil
              nonempty written longest lossless

/-- The lexer ends without a panic, and what it returns is the text. -/
theorem sound_lex (classes : CharClasses) (input : List Char) :
    Sound (Lossless classes Decoded 0 input) (lex classes input) :=
  @sound_lexLoop classes [] input _ (le_refl _)

end Acetone.Cypher

import Acetone.Cypher.LexTokens

/-!
# String literals are read by their escapes

Behind `\u` and `\U` the lexer calls a general number parser, which also takes a
plus sign for the first of its digits.
-/

namespace Acetone.Cypher

open Acetone.Lib

private theorem addDigits_eq_ok {radix bound : Nat} {beyond : String} {number result : Nat}
    {digits : List Char} (isResult : addDigits radix bound beyond number digits = .ok result) :
    (∀ c ∈ digits, (digitValue radix c).isSome = true) ∧
      numberFrom radix number digits = result := by
  induction digits generalizing number with
  | nil =>
      cases isResult
      exact ⟨fun _ => nofun, rfl⟩
  | cons c digits ih =>
      rw [addDigits] at isResult
      split at isResult
      · cases isResult
      · next digit isDigit =>
        split at isResult
        · obtain ⟨others, isNumber⟩ := ih isResult
          rw [List.forall_mem_cons, isDigit, numberFrom, isDigit]
          exact ⟨⟨rfl, others⟩, isNumber⟩
        · cases isResult

private theorem le_numberFrom {radix : Nat} (positive : 0 < radix) (number : Nat)
    (digits : List Char) : number ≤ numberFrom radix number digits := by
  induction digits generalizing number with
  | nil => exact le_refl _
  | cons c digits ih =>
      have more : number ≤ number * radix := Nat.le_mul_of_pos_right _ positive
      exact (more.trans (Nat.le_add_right _ _)).trans (ih _)

private theorem addDigits_of_bound {radix bound : Nat} {beyond : String} {number : Nat}
    {digits : List Char} (positive : 0 < radix)
    (all : ∀ c ∈ digits, (digitValue radix c).isSome = true)
    (fits : numberFrom radix number digits ≤ bound) :
    addDigits radix bound beyond number digits = .ok (numberFrom radix number digits) := by
  induction digits generalizing number with
  | nil => rfl
  | cons c digits ih =>
      rw [List.forall_mem_cons] at all
      obtain ⟨digit, isDigit⟩ := Option.isSome_iff_exists.mp all.1
      rw [numberFrom, isDigit, Option.getD_some] at fits ⊢
      have partial_ := (le_numberFrom positive (number * radix + digit) digits).trans fits
      simp only [addDigits, isDigit, if_pos partial_]
      exact ih all.2 fits

private theorem digitValue_lt {radix digit : Nat} {c : Char}
    (isDigit : digitValue radix c = some digit) : digit < radix :=
  of_decide_eq_true (Option.filter_eq_some_iff.mp isDigit).2

private theorem numberFrom_lt {radix number top : Nat} {digits : List Char} (positive : 0 < radix)
    (below : number < top) : numberFrom radix number digits < top * radix ^ digits.length := by
  induction digits generalizing number top with
  | nil => simpa [numberFrom] using below
  | cons c digits ih =>
      have digit : (digitValue radix c).getD 0 < radix := by
        cases isDigit : digitValue radix c with
        | none => exact positive
        | some digit => exact digitValue_lt isDigit
      have next : number * radix + (digitValue radix c).getD 0 < top * radix :=
        calc
          number * radix + (digitValue radix c).getD 0 < (number + 1) * radix := by
            rw [Nat.succ_mul]
            omega
          _ ≤ top * radix := Nat.mul_le_mul_right _ below
      have whole := @ih (number * radix + (digitValue radix c).getD 0) (top * radix) next
      rw [List.length_cons, Nat.pow_succ', ← Nat.mul_assoc]
      exact whole

theorem utf8Size_of_isHexDigit {c : Char} (hex : isHexDigit c = true) : c.utf8Size = 1 := by
  rw [isHexDigit, digitValue] at hex
  obtain ⟨digit, isDigit⟩ := Option.isSome_iff_exists.mp hex
  have within := (Option.filter_eq_some_iff.mp isDigit).1
  have bounds : '9'.val.toNat = 57 ∧ 'Z'.val.toNat = 90 ∧ 'z'.val.toNat = 122 := ⟨rfl, rfl, rfl⟩
  rw [Char.utf8Size_eq_one_iff, UInt32.le_iff_toNat_le]
  have limit : (127 : UInt32).toNat = 127 := rfl
  simp only [Char.le_def, UInt32.le_iff_toNat_le] at within
  split at within
  · omega
  · split at within
    · omega
    · split at within
      · omega
      · cases within

/-- A plus sign and hexadecimal digits, as many characters as the escape has digits. -/
def SignedDigits : Naming := fun count digits ch =>
  ∃ others, digits = '+' :: others ∧ others.length + 1 = count ∧ others.all isHexDigit = true ∧
    fromU32 (numberFrom 16 0 others) = some ch

private theorem byteLength_hex {digits : List Char} (hex : digits.all isHexDigit = true) :
    byteLength digits = digits.length :=
  byteLength_of_ascii fun c member => utf8Size_of_isHexDigit (List.all_eq_true.mp hex c member)

private theorem addDigits_hex {digits : List Char} (hex : digits.all isHexDigit = true)
    (short : digits.length ≤ 8) :
    addDigits 16 (2 ^ 32 - 1) tooLarge 0 digits = .ok (numberFrom 16 0 digits) := by
  refine addDigits_of_bound (by decide) (fun c member => List.all_eq_true.mp hex c member) ?_
  have bound : numberFrom 16 0 digits < 1 * 16 ^ digits.length :=
    numberFrom_lt (by decide) Nat.one_pos
  have power : 16 ^ digits.length ≤ 16 ^ 8 := Nat.pow_le_pow_right (by decide) short
  omega

/-- The number parser takes hexadecimal digits, and also a plus sign and digits. -/
theorem decoded_iff {count : Nat} {digits : List Char} {ch : Char} (some_ : 2 ≤ count)
    (few : count ≤ 8) :
    Decoded count digits ch ↔ HexDigits count digits ch ∨ SignedDigits count digits ch := by
  constructor
  · rintro ⟨isCount, code, isCode, isChar⟩
    unfold unsignedFromStr at isCode
    split at isCode
    · cases isCode
    · cases isCode
    · next others _ =>
      obtain ⟨all, rfl⟩ := addDigits_eq_ok isCode
      have hex : others.all isHexDigit = true := List.all_eq_true.mpr all
      refine .inr ⟨others, rfl, ?_, hex, isChar⟩
      rw [byteLength_cons, byteLength_hex hex] at isCount
      rw [← isCount]
      exact Nat.add_comm _ _
    · obtain ⟨all, rfl⟩ := addDigits_eq_ok isCode
      have hex : digits.all isHexDigit = true := List.all_eq_true.mpr all
      rw [byteLength_hex hex] at isCount
      exact .inl ⟨isCount, hex, isChar⟩
  · rintro (⟨isCount, hex, isChar⟩ | ⟨others, rfl, isCount, hex, isChar⟩)
    · refine ⟨(byteLength_hex hex).trans isCount, _, ?_, isChar⟩
      cases digits with
      | nil =>
          rw [← isCount] at some_
          exact absurd some_ (by decide)
      | cons c digits =>
          have notSign : c ≠ '+' := by
            rintro rfl
            rw [List.all_cons, Bool.and_eq_true] at hex
            exact absurd hex.1 (by decide)
          rw [unsignedFromStr]
          · exact addDigits_hex hex (by omega)
          all_goals simp [notSign]
    · refine ⟨?_, _, ?_, isChar⟩
      · rw [byteLength_cons, byteLength_hex hex, ← isCount, Nat.add_comm]
        rfl
      · rw [unsignedFromStr]
        · exact addDigits_hex hex (by omega)
        · rintro rfl
          rw [← isCount] at some_
          exact absurd some_ (by decide)

private theorem Decoded.length_eq {count : Nat} {digits : List Char} {ch : Char}
    (decoded : Decoded count digits ch) (some_ : 2 ≤ count) (few : count ≤ 8) :
    digits.length = count := by
  rcases (decoded_iff some_ few).mp decoded with ⟨isCount, -, -⟩ | ⟨others, rfl, isCount, -, -⟩
  · exact isCount
  · exact isCount

theorem StringBody.imp {names better : Naming} {quote : Char} {body value : List Char}
    (implies : ∀ count digits ch, count = 4 ∨ count = 8 → names count digits ch →
      better count digits ch)
    (isBody : StringBody names quote body value) : StringBody better quote body value := by
  induction isBody with
  | nil => exact .nil
  | plain notEscape notQuote others ih => exact .plain notEscape notQuote ih
  | simple escapes others ih => exact .simple escapes ih
  | unicode form named others ih =>
      exact .unicode form (implies _ _ _ (form.imp And.right And.right) named) ih

theorem StringBody.decoded {quote : Char} {body value : List Char}
    (strict : StringBody HexDigits quote body value) : StringBody Decoded quote body value :=
  strict.imp fun count digits ch width hex =>
    (decoded_iff (by omega) (by omega)).mpr (.inl hex)

private theorem stringLoop_skip (input : List Char) (offset : Nat) (quote : Char)
    (digits chars : List Char) (off : Nat) (value : List Char) :
    stringLoop input offset quote (digits ++ chars) off digits.length value =
      stringLoop input offset quote chars (off + byteLength digits) 0 value := by
  induction digits generalizing off with
  | nil => rfl
  | cons c digits ih =>
      rw [List.cons_append, List.length_cons, stringLoop, ih, byteLength_cons, Nat.add_assoc]

private theorem sound_unicodeEscape {input chars : List Char} {start hexAt count : Nat}
    (slice : sliceFrom input hexAt = some chars) :
    Sound (fun ch => ∃ digits tail, chars = digits ++ tail ∧ Decoded count digits ch)
      (unicodeEscape input start hexAt count) := by
  rw [unicodeEscape, slice, Option.bind_some]
  split
  · exact sound_lexError
  · next hex isHex =>
    obtain ⟨tail, rfl, isCount⟩ := eq_append_of_sliceTo isHex
    split
    · exact sound_lexError
    · next code isCode =>
      split
      · exact sound_lexError
      · next ch isChar => exact ⟨hex, tail, rfl, isCount, code, isCode, isChar⟩

private theorem unicodeEscape_of_decoded {input digits tail : List Char} {start hexAt count : Nat}
    {ch : Char} (slice : sliceFrom input hexAt = some (digits ++ tail))
    (decoded : Decoded count digits ch) : unicodeEscape input start hexAt count = .ok ch := by
  obtain ⟨isCount, code, isCode, isChar⟩ := decoded
  simp only [unicodeEscape, slice, Option.bind_some, sliceTo_eq_iff rfl isCount, isCode, isChar]

/-- What the loop reads up to the closing quote is the body of a literal. -/
private theorem sound_stringLoop {input before chars : List Char} {offset off : Nat}
    {quote : Char} {value : List Char} (isInput : input = before ++ chars)
    (isOff : byteLength before = offset + 1 + off) :
    Sound (fun result => ∃ body tail others, chars = body ++ quote :: tail ∧
      result.1 = value ++ others ∧ result.2 = off + 1 + byteLength body + quote.utf8Size ∧
      StringBody Decoded quote body others)
      (stringLoop input offset quote chars off 0 value) := by
  induction size : chars.length using Nat.strong_induction_on generalizing before chars off value with
  | _ size ih =>
  subst size
  have further : ∀ text rest piece : List Char,
      chars = text ++ rest → text ≠ [] →
      (∀ body others, StringBody Decoded quote body others →
        StringBody Decoded quote (text ++ body) (piece ++ others)) →
      Sound (fun result => ∃ body tail others, chars = body ++ quote :: tail ∧
        result.1 = value ++ others ∧ result.2 = off + 1 + byteLength body + quote.utf8Size ∧
        StringBody Decoded quote body others)
        (stringLoop input offset quote rest (off + byteLength text) 0 (value ++ piece)) := by
    rintro text rest piece rfl nonempty extends_
    have shorter : rest.length < (text ++ rest).length := by
      have positive := List.length_pos_of_ne_nil nonempty
      rw [List.length_append]
      omega
    refine (@ih rest.length shorter (before ++ text) rest (off + byteLength text) (value ++ piece)
      (by rw [isInput, List.append_assoc]) (by rw [byteLength_append, isOff]; omega) rfl).imp ?_
    rintro ⟨result, width⟩ ⟨body, tail, others, rfl, isResult, isWidth, isBody⟩
    refine ⟨text ++ body, tail, piece ++ others, (List.append_assoc _ _ _).symm, ?_, ?_,
      extends_ body others isBody⟩
    · rw [isResult, List.append_assoc]
    · rw [isWidth, byteLength_append]
      omega
  cases chars with
  | nil => exact sound_lexError
  | cons c chars =>
      rw [stringLoop.eq_def]
      dsimp only
      split
      · next isEscape =>
        subst isEscape
        have escapeSize : '\\'.utf8Size = 1 := rfl
        cases chars with
        | nil => exact sound_lexError
        | cons esc chars =>
            dsimp only
            split
            · next ch isSimple =>
              have step := further ['\\', esc] chars [ch] rfl (List.cons_ne_nil _ _)
                fun body others isBody => .simple isSimple isBody
              rwa [byteLength_cons, byteLength_cons, byteLength_nil, Nat.add_zero,
                ← Nat.add_assoc] at step
            · split
              · next isUnicode =>
                obtain ⟨count, isCount, form⟩ : ∃ count, (if esc = 'u' then 4 else 8) = count ∧
                    (esc = 'u' ∧ count = 4 ∨ esc = 'U' ∧ count = 8) := by
                  rcases isUnicode with rfl | rfl
                  · exact ⟨4, rfl, .inl ⟨rfl, rfl⟩⟩
                  · exact ⟨8, rfl, .inr ⟨rfl, rfl⟩⟩
                have letterSize : esc.utf8Size = 1 := by rcases isUnicode with rfl | rfl <;> rfl
                rw [isCount]
                have slice : sliceFrom input (offset + 1 + (off + '\\'.utf8Size) + 1) = some chars := by
                  have behind := sliceFrom_append (before ++ ['\\', esc]) chars
                  rw [List.append_assoc, byteLength_append, isOff, byteLength_cons, byteLength_cons,
                    byteLength_nil, letterSize] at behind
                  rwa [isInput, ← Nat.add_assoc (offset + 1), Nat.add_assoc _ _ 1]
                refine (sound_unicodeEscape slice).bind ?_
                rintro ch ⟨digits, tail, rfl, decoded⟩
                have isLength := decoded.length_eq (by omega) (by omega)
                rw [← isLength, stringLoop_skip]
                have step := further ('\\' :: esc :: digits) tail [ch] rfl (List.cons_ne_nil _ _)
                  fun body others isBody => .unicode form decoded isBody
                rwa [byteLength_cons, byteLength_cons, ← Nat.add_assoc, ← Nat.add_assoc] at step
              · exact sound_lexError
      · next notEscape =>
        split
        · next isQuote =>
          subst isQuote
          exact ⟨[], chars, [], rfl, (List.append_nil _).symm, rfl, .nil⟩
        · next notQuote =>
          have step := further [c] chars [c] rfl (List.cons_ne_nil _ _)
            fun body others isBody => .plain notEscape notQuote isBody
          rwa [byteLength_cons, byteLength_nil, Nat.add_zero] at step

/-- Every body of a literal is read up to the closing quote. -/
private theorem stringLoop_of_body {input before body others tail : List Char} {offset off : Nat}
    {quote : Char} {value : List Char} (isBody : StringBody Decoded quote body others)
    (isQuote : quote ≠ '\\') (isInput : input = before ++ (body ++ quote :: tail))
    (isOff : byteLength before = offset + 1 + off) :
    stringLoop input offset quote (body ++ quote :: tail) off 0 value =
      .ok (value ++ others, off + 1 + byteLength body + quote.utf8Size) := by
  have escapeSize : '\\'.utf8Size = 1 := rfl
  induction isBody generalizing before off value with
  | nil =>
      rw [List.nil_append, stringLoop.eq_def]
      simp [isQuote]
  | @plain c body others notEscape notQuote _ ih =>
      rw [List.cons_append, stringLoop.eq_def]
      dsimp only
      rw [if_neg notEscape, if_neg notQuote,
        @ih (before ++ [c]) (off + c.utf8Size) (value ++ [c]) (by rw [isInput]; simp) (by
          rw [byteLength_append, isOff, byteLength_cons, byteLength_nil]
          omega)]
      rw [List.append_assoc, byteLength_cons]
      congr 2
      omega
  | @simple esc ch body others escapes _ ih =>
      rw [List.cons_append, List.cons_append, stringLoop, if_pos rfl]
      simp only [escapes]
      rw [@ih (before ++ ['\\', esc]) (off + '\\'.utf8Size + esc.utf8Size) (value ++ [ch])
        (by rw [isInput]; simp) (by
          rw [byteLength_append, isOff, byteLength_cons, byteLength_cons, byteLength_nil]
          omega)]
      rw [List.append_assoc, byteLength_cons, byteLength_cons]
      congr 2
      omega
  | @unicode letter ch count digits body others form named _ ih =>
      have isLength := named.length_eq (by omega) (by omega)
      have notSimple : simpleEscape letter = none := by rcases form with ⟨rfl, -⟩ | ⟨rfl, -⟩ <;> rfl
      have letterSize : letter.utf8Size = 1 := by rcases form with ⟨rfl, -⟩ | ⟨rfl, -⟩ <;> rfl
      have isUnicode : letter = 'u' ∨ letter = 'U' := form.imp And.left And.left
      have isCount : (if letter = 'u' then 4 else 8) = count := by
        rcases form with ⟨rfl, rfl⟩ | ⟨rfl, rfl⟩ <;> rfl
      have slice : sliceFrom input (offset + 1 + (off + '\\'.utf8Size) + 1) =
          some (digits ++ (body ++ quote :: tail)) := by
        have behind := sliceFrom_append (before ++ ['\\', letter])
          (digits ++ (body ++ quote :: tail))
        rw [List.append_assoc, byteLength_append, isOff, byteLength_cons, byteLength_cons,
          byteLength_nil, letterSize] at behind
        rw [isInput, ← Nat.add_assoc (offset + 1), Nat.add_assoc _ _ 1]
        simpa using behind
      rw [List.cons_append, List.cons_append, List.append_assoc, stringLoop, if_pos rfl]
      simp only [notSimple, if_pos isUnicode, isCount, unicodeEscape_of_decoded slice named]
      change stringLoop _ _ _ _ _ _ _ = _
      rw [← isLength, stringLoop_skip,
        @ih (before ++ '\\' :: letter :: digits)
          (off + '\\'.utf8Size + letter.utf8Size + byteLength digits) (value ++ [ch])
          (by rw [isInput]; simp) (by
            rw [byteLength_append, isOff, byteLength_cons, byteLength_cons]
            omega)]
      rw [List.append_assoc, byteLength_cons, byteLength_cons, byteLength_append]
      congr 2
      omega

private theorem quote_facts {quote : Char} (isQuote : quote = '\'' ∨ quote = '"') :
    quote.utf8Size = 1 ∧ quote ≠ '\\' := by
  rcases isQuote with rfl | rfl <;> decide

theorem sound_lexString {classes : CharClasses} {before rest : List Char} {quote : Char}
    (isQuote : quote = '\'' ∨ quote = '"') :
    Sound (fun result => Cut classes Decoded (quote :: rest) (.str result.1, result.2))
      (lexString (before ++ quote :: rest) (byteLength before) quote) := by
  obtain ⟨quoteSize, -⟩ := quote_facts isQuote
  have isInput : before ++ quote :: rest = (before ++ [quote]) ++ rest := by simp
  have isOffset : byteLength (before ++ [quote]) = byteLength before + 1 := by
    rw [byteLength_append, byteLength_cons, quoteSize]
    rfl
  rw [lexString, sliced_bind (by rw [isInput, ← isOffset]; exact sliceFrom_append _ rest)]
  refine (@sound_stringLoop _ _ rest (byteLength before) 0 quote [] isInput isOffset).imp ?_
  rintro ⟨value, width⟩ ⟨body, tail, others, rfl, isValue, isWidth, isBody⟩
  obtain rfl : value = others := isValue
  refine ⟨quote :: (body ++ [quote]), tail, by simp, ?_, List.cons_ne_nil _ _,
    ⟨quote, body, isQuote, rfl, isBody⟩, fun _ _ => rfl⟩
  rw [byteLength_cons, byteLength_append, byteLength_cons, byteLength_nil, quoteSize, isWidth,
    quoteSize]
  omega

/-- Every literal by the grammar is read, wherever it is. -/
theorem lexString_of_body {before body value after : List Char} {quote : Char}
    (isQuote : quote = '\'' ∨ quote = '"') (isBody : StringBody HexDigits quote body value) :
    lexString (before ++ (quote :: (body ++ quote :: after))) (byteLength before) quote =
      .ok (value, byteLength body + 2) := by
  obtain ⟨quoteSize, notEscape⟩ := quote_facts isQuote
  have isInput : before ++ quote :: (body ++ quote :: after) =
      (before ++ [quote]) ++ (body ++ quote :: after) := by simp
  have isOffset : byteLength (before ++ [quote]) = byteLength before + 1 := by
    rw [byteLength_append, byteLength_cons, quoteSize]
    rfl
  rw [lexString, sliced_bind (by rw [isInput, ← isOffset]; exact sliceFrom_append _ _),
    stringLoop_of_body isBody.decoded notEscape isInput isOffset, List.nil_append, quoteSize]
  congr 2
  omega

end Acetone.Cypher

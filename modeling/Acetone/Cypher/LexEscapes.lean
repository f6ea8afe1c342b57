import Acetone.Cypher.LexRuns

/-!
# Signed escapes

A scan of the text that knows only comments, backquotes and string literals
finds the escapes that the lexer should not have taken.
-/

namespace Acetone.Cypher

open Acetone.Lib

variable {classes : CharClasses}

/-- A character that leaves a scan of code where it is. -/
private def Inert (c : Char) : Prop := c ≠ '/' ∧ c ≠ '`' ∧ c ≠ '\'' ∧ c ≠ '"'

private theorem signedIn_cons {mode : Mode} {c : Char} {rest : List Char}
    (plain : signedHere mode c rest = false) :
    signedIn mode (c :: rest) = signedIn (mode.next c) rest := by
  rw [signedIn, plain, Bool.false_or]

private theorem next_inert {c : Char} (inert : Inert c) : Mode.code.next c = .code := by
  obtain ⟨noSlash, noBackquote, noQuote, noDouble⟩ := inert
  rw [Mode.next, Mode.next.codeNext, if_neg noSlash, if_neg noBackquote,
    if_neg (not_or.mpr ⟨noQuote, noDouble⟩)]

private theorem signedIn_inert {text : List Char} (inert : ∀ c ∈ text, Inert c)
    (rest : List Char) : signedIn .code (text ++ rest) = signedIn .code rest := by
  induction text with
  | nil => rfl
  | cons c text ih =>
      rw [List.forall_mem_cons] at inert
      rw [List.cons_append, signedIn_cons rfl, next_inert inert.1, ih inert.2]

private theorem signedIn_line {comment : List Char} (within : '\n' ∉ comment) (rest : List Char) :
    signedIn .line (comment ++ rest) = signedIn .line rest := by
  induction comment with
  | nil => rfl
  | cons c comment ih =>
      rw [List.mem_cons, not_or] at within
      rw [List.cons_append, signedIn_cons rfl, Mode.next, if_neg (Ne.symm within.1), ih within.2]

private theorem signedIn_block {comment : List Char} (rest : List Char) :
    (¬ ['*', '/'] <:+: comment → signedIn .block (comment ++ '*' :: '/' :: rest) =
      signedIn .code rest) ∧
    (¬ ['*', '/'] <:+: '*' :: comment → signedIn .star (comment ++ '*' :: '/' :: rest) =
      signedIn .code rest) := by
  induction comment with
  | nil => exact ⟨fun _ => rfl, fun _ => rfl⟩
  | cons c comment ih =>
      constructor
      · intro within
        rw [List.cons_append, signedIn_cons rfl, Mode.next]
        split
        · next isStar =>
          subst isStar
          exact ih.2 within
        · exact ih.1 fun inside => within (List.infix_cons inside)
      · intro within
        have noSlash : c ≠ '/' := by
          rintro rfl
          exact within ⟨[], comment, rfl⟩
        have shorter : ¬ ['*', '/'] <:+: c :: comment := fun inside =>
          within (List.infix_cons inside)
        rw [List.cons_append, signedIn_cons rfl, Mode.next, if_neg noSlash]
        split
        · next isStar =>
          subst isStar
          exact ih.2 shorter
        · exact ih.1 fun inside => shorter (List.infix_cons inside)

private theorem inert_of_white {c : Char} (white : isWhitespaceChar c = true) : Inert c := by
  refine ⟨?_, ?_, ?_, ?_⟩ <;>
    · rintro rfl
      revert white
      decide

private theorem signedIn_blankPiece {piece rest : List Char} (blank : BlankPiece piece rest) :
    signedIn .code (piece ++ rest) = signedIn .code rest := by
  cases blank with
  | white white => exact signedIn_inert (List.forall_mem_singleton.mpr (inert_of_white white)) rest
  | @line comment _ within ends =>
      have passed : signedIn .code ('/' :: '/' :: comment ++ rest) = signedIn .line rest :=
        signedIn_line within rest
      rw [passed]
      cases rest with
      | nil => rfl
      | cons c rest =>
          obtain rfl := ends c rfl
          rfl
  | @block comment _ within =>
      rw [List.cons_append, List.cons_append, List.append_assoc]
      exact (signedIn_block rest).1 within

private theorem signedIn_blank {gap rest : List Char} (blank : Blank gap rest) :
    signedIn .code (gap ++ rest) = signedIn .code rest := by
  induction blank with
  | nil => rfl
  | cons first others ih => rw [List.append_assoc, signedIn_blankPiece first, ih]

private theorem signedIn_doubled (name rest : List Char) :
    signedIn .name (doubled name ++ '`' :: rest) = signedIn .code rest := by
  induction name with
  | nil => rfl
  | cons c name ih =>
      by_cases isQuote : c = '`'
      · subst isQuote
        exact ih
      · have single : doubled (c :: name) = c :: doubled name := by
          rw [doubled, List.flatMap_cons, if_neg isQuote]
          rfl
        rw [single, List.cons_append, signedIn_cons rfl, Mode.next, if_neg isQuote, ih]

/-- A slash is followed by no character that makes it a comment. -/
private theorem signedIn_slash {rest : List Char}
    (longest : ∀ c, rest.head? = some c → continues classes .slash c = false) :
    signedIn .slash rest = signedIn .code rest := by
  cases rest with
  | nil => rfl
  | cons c rest =>
      have other := longest c rfl
      rw [continues, Bool.or_eq_false_iff, beq_eq_false_iff_ne, beq_eq_false_iff_ne] at other
      have sameNext : Mode.slash.next c = Mode.code.next c :=
        (if_neg other.1).trans (if_neg other.2)
      rw [signedIn_cons rfl, signedIn_cons rfl, sameNext]

private theorem inert_of_ascii {c : Char} (notMark : c.utf8Size = 1 → Inert c) : Inert c := by
  by_cases ascii : c.utf8Size = 1
  · exact notMark ascii
  · refine ⟨?_, ?_, ?_, ?_⟩ <;>
      · rintro rfl
        exact ascii rfl

private theorem inert_of_identChar (lawful : classes.Lawful) {c : Char}
    (identChar : classes.identChar c = true) : Inert c := by
  refine inert_of_ascii fun ascii => ?_
  rw [CharClasses.identChar, CharClasses.alphanumeric, lawful.alphabetic c ascii,
    lawful.numeric c ascii] at identChar
  refine ⟨?_, ?_, ?_, ?_⟩ <;>
    · rintro rfl
      revert identChar
      decide

private theorem inert_of_isDigit {c : Char} (digit : c.isDigit = true) : Inert c := by
  refine ⟨?_, ?_, ?_, ?_⟩ <;>
    · rintro rfl
      revert digit
      decide

private theorem inert_of_isNumberChar {c : Char} (number : isNumberChar c = true) : Inert c := by
  refine ⟨?_, ?_, ?_, ?_⟩ <;>
    · rintro rfl
      revert number
      decide

private theorem inert_of_symbol {kind : TokenKind} {text : List Char} (notSlash : kind ≠ .slash)
    (isSymbol : symbol kind = some text) : ∀ c ∈ text, Inert c := by
  have marks : ∀ c ∈ text, c ∈ ['(', ')', '[', ']', '\x7b', '\x7d', ',', '.', ':', ';', '|', '*',
      '+', '-', '%', '^', '=', '<', '>', '~'] := by
    cases kind <;> simp only [symbol, Option.some.injEq, reduceCtorEq] at isSymbol <;>
      first
      | exact absurd rfl notSlash
      | subst isSymbol; simp
  intro c member
  refine ⟨?_, ?_, ?_, ?_⟩ <;>
    · rintro rfl
      exact absurd (marks _ member) (by decide)

/-- Tokens other than string literals are passed over. -/
private theorem signedIn_written (lawful : classes.Lawful) {names : Naming} {kind : TokenKind}
    {text rest : List Char} (written : Written classes names kind text)
    (notString : ∀ value, kind ≠ .str value)
    (longest : ∀ c, rest.head? = some c → continues classes kind c = false) :
    signedIn .code (text ++ rest) = signedIn .code rest := by
  have viaSymbol : kind ≠ .slash → symbol kind = some text →
      signedIn .code (text ++ rest) = signedIn .code rest :=
    fun notSlash isSymbol => signedIn_inert (inert_of_symbol notSlash isSymbol) rest
  cases kind with
  | str value => exact absurd rfl (notString value)
  | ident name backquoted =>
      cases backquoted with
      | false => exact signedIn_inert (fun c member => by
          obtain ⟨rfl, -, all⟩ := written
          exact inert_of_identChar lawful (all c member)) rest
      | true =>
          obtain rfl : text = '`' :: (doubled name ++ ['`']) := written
          rw [List.cons_append, List.append_assoc]
          exact signedIn_doubled name rest
  | parameter name =>
      obtain ⟨rfl, -, all⟩ := written
      refine signedIn_inert (List.forall_mem_cons.mpr ⟨by unfold Inert; decide, ?_⟩) rest
      intro c member
      exact (all c member).elim (inert_of_identChar lawful) inert_of_isDigit
  | integer => exact signedIn_inert (fun c member => inert_of_isNumberChar (written.2 c member)) rest
  | integerTooLarge =>
      exact signedIn_inert (fun c member => inert_of_isNumberChar (written.2 c member)) rest
  | float => exact signedIn_inert (fun c member => inert_of_isNumberChar (written.2 c member)) rest
  | slash =>
      obtain rfl : ['/'] = text := Option.some.inj written
      exact signedIn_slash longest
  | _ => exact viaSymbol nofun written

private theorem signedIn_hex {quote : Char} (isQuote : quote = '\'' ∨ quote = '"')
    {digits : List Char} (hex : digits.all isHexDigit = true) (rest : List Char) :
    signedIn (.string quote) (digits ++ rest) = signedIn (.string quote) rest := by
  induction digits with
  | nil => rfl
  | cons c digits ih =>
      rw [List.all_cons, Bool.and_eq_true] at hex
      have notEscape : c ≠ '\\' := by
        rintro rfl
        exact absurd hex.1 (by decide)
      have notQuote : c ≠ quote := by
        rintro rfl
        rcases isQuote with rfl | rfl <;> exact absurd hex.1 (by decide)
      rw [List.cons_append, signedIn_cons rfl, Mode.next, if_neg notEscape, if_neg notQuote,
        ih hex.2]

private theorem signedIn_escape {quote letter : Char} {count : Nat}
    (form : letter = 'u' ∧ count = 4 ∨ letter = 'U' ∧ count = 8) (rest : List Char) :
    signedIn (.string quote) ('\\' :: letter :: rest) =
      (signedDigits count rest || signedIn (.string quote) rest) := by
  rw [signedIn_cons rfl, Mode.next, if_pos rfl, signedIn]
  rcases form with ⟨rfl, rfl⟩ | ⟨rfl, rfl⟩ <;> simp [signedHere, Mode.next]

private theorem signedDigits_hex {count : Nat} {digits rest : List Char}
    (isLength : digits.length = count) (hex : digits.all isHexDigit = true) :
    signedDigits count (digits ++ rest) = false := by
  rw [signedDigits, List.take_left' isLength]
  split
  · next others =>
    rw [List.all_cons, Bool.and_eq_true] at hex
    exact absurd hex.1 (by decide)
  · rfl

private theorem signedDigits_signed {count : Nat} {others rest : List Char}
    (isLength : others.length + 1 = count) (hex : others.all isHexDigit = true) :
    signedDigits count ('+' :: others ++ rest) = true := by
  have taken : ('+' :: others ++ rest).take count = '+' :: others := List.take_left' isLength
  rw [signedDigits, taken]
  simp [isLength, hex]

private theorem signedIn_plain {quote c : Char} (notEscape : c ≠ '\\') (notQuote : c ≠ quote)
    (rest : List Char) :
    signedIn (.string quote) (c :: rest) = signedIn (.string quote) rest := by
  rw [signedIn_cons rfl, Mode.next, if_neg notEscape, if_neg notQuote]

private theorem signedIn_simple {quote esc ch : Char} (escapes : simpleEscape esc = some ch)
    (rest : List Char) :
    signedIn (.string quote) ('\\' :: esc :: rest) = signedIn (.string quote) rest := by
  have notUnicode : esc ≠ 'u' ∧ esc ≠ 'U' := by
    constructor <;>
      · rintro rfl
        cases escapes
  have plain : signedHere (.escape quote) esc rest = false := by simp [signedHere, notUnicode]
  rw [signedIn_cons rfl, Mode.next, if_pos rfl, signedIn_cons plain, Mode.next]

/-- A scan finds nothing in a literal that is read by the grammar. -/
private theorem signedIn_body {quote : Char} (isQuote : quote = '\'' ∨ quote = '"')
    {body value : List Char} (isBody : StringBody HexDigits quote body value) (rest : List Char) :
    signedIn (.string quote) (body ++ quote :: rest) = signedIn .code rest := by
  have quoteNotEscape : quote ≠ '\\' := by rcases isQuote with rfl | rfl <;> decide
  induction isBody with
  | nil => rw [List.nil_append, signedIn_cons rfl, Mode.next, if_neg quoteNotEscape, if_pos rfl]
  | plain notEscape notQuote _ ih => rw [List.cons_append, signedIn_plain notEscape notQuote, ih]
  | simple escapes _ ih => rw [List.cons_append, List.cons_append, signedIn_simple escapes, ih]
  | unicode form named _ ih =>
      obtain ⟨isLength, hex, -⟩ := named
      rw [List.cons_append, List.cons_append, List.append_assoc, signedIn_escape form,
        signedDigits_hex isLength hex, Bool.false_or, signedIn_hex isQuote hex, ih]

/-- A literal in which a scan finds nothing is read by the grammar. -/
private theorem StringBody.strict_of_unsigned {quote : Char}
    (isQuote : quote = '\'' ∨ quote = '"') {body value : List Char}
    (isBody : StringBody Decoded quote body value) {rest : List Char}
    (unsigned : signedIn (.string quote) (body ++ quote :: rest) = false) :
    StringBody HexDigits quote body value := by
  induction isBody with
  | nil => exact .nil
  | plain notEscape notQuote _ ih =>
      rw [List.cons_append, signedIn_plain notEscape notQuote] at unsigned
      exact .plain notEscape notQuote (ih unsigned)
  | simple escapes _ ih =>
      rw [List.cons_append, List.cons_append, signedIn_simple escapes] at unsigned
      exact .simple escapes (ih unsigned)
  | @unicode letter ch count digits body value form named _ ih =>
      have few : 2 ≤ count ∧ count ≤ 8 := by omega
      rw [List.cons_append, List.cons_append, List.append_assoc, signedIn_escape form,
        Bool.or_eq_false_iff] at unsigned
      rcases (decoded_iff few.1 few.2).mp named with hexDigits | ⟨others, rfl, isLength, hex, -⟩
      · rw [signedIn_hex isQuote hexDigits.2.1] at unsigned
        exact .unicode form hexDigits (ih unsigned.2)
      · rw [signedDigits_signed isLength hex] at unsigned
        cases unsigned.1

/-- Tokens and blanks that are read by the grammar have no signed escapes. -/
private theorem Lossless.unsigned (lawful : classes.Lawful) {offset : Nat} {input : List Char}
    {tokens : List Token} (lossless : Lossless classes HexDigits offset input tokens) :
    hasSignedEscape input = false := by
  rw [hasSignedEscape]
  induction lossless with
  | @eof _ gap blank =>
      rw [← List.append_nil gap, signedIn_blank blank]
      rfl
  | @token _ gap text rest kind _ blank _ written longest _ ih =>
      rw [signedIn_blank blank, ← ih]
      by_cases isString : ∃ value, kind = .str value
      · obtain ⟨value, rfl⟩ := isString
        obtain ⟨quote, body, isQuote, rfl, isBody⟩ := written
        have starts : Mode.code.next quote = .string quote := by
          rcases isQuote with rfl | rfl <;> rfl
        rw [List.cons_append, List.append_assoc, signedIn_cons rfl, starts]
        exact signedIn_body isQuote isBody rest
      · exact signedIn_written lawful written (fun value same => isString ⟨value, same⟩) longest

/-- Without signed escapes, what the lexer reads is read by the grammar. -/
private theorem Lossless.strict_of_unsigned (lawful : classes.Lawful) {offset : Nat}
    {input : List Char} {tokens : List Token}
    (lossless : Lossless classes Decoded offset input tokens)
    (unsigned : hasSignedEscape input = false) :
    Lossless classes HexDigits offset input tokens := by
  rw [hasSignedEscape] at unsigned
  induction lossless with
  | eof blank => exact .eof blank
  | @token _ gap text rest kind _ blank nonempty written longest _ ih =>
      rw [signedIn_blank blank] at unsigned
      by_cases isString : ∃ value, kind = .str value
      · obtain ⟨value, rfl⟩ := isString
        obtain ⟨quote, body, isQuote, rfl, isBody⟩ := written
        have starts : Mode.code.next quote = .string quote := by
          rcases isQuote with rfl | rfl <;> rfl
        rw [List.cons_append, List.append_assoc, signedIn_cons rfl, starts] at unsigned
        have strict := isBody.strict_of_unsigned isQuote unsigned
        have unsignedRest : signedIn .code rest = false :=
          (signedIn_body isQuote strict rest).symm.trans unsigned
        exact .token blank nonempty ⟨quote, body, isQuote, rfl, strict⟩ longest (ih unsignedRest)
      · rw [signedIn_written lawful written (fun value same => isString ⟨value, same⟩) longest]
          at unsigned
        refine .token blank nonempty ?_ longest (ih unsigned)
        cases kind with
        | str value => exact absurd ⟨value, rfl⟩ isString
        | ident name backquoted => cases backquoted <;> exact written
        | _ => exact written

/-- Spans come one behind the other, none is empty but that of the end, and
each is that of a part of the text. -/
structure Spaced (input : List Char) (tokens : List Token) : Prop where
  ordered : tokens.Pairwise fun before after => before.span.stop ≤ after.span.start
  nonempty : ∀ token ∈ tokens, token.kind ≠ .eof → token.span.start < token.span.stop
  between : ∀ token ∈ tokens, ∃ before text after, input = before ++ (text ++ after) ∧
    token.span = ⟨byteLength before, byteLength before + byteLength text⟩

private theorem Lossless.spaced {names : Naming} {before rest : List Char} {tokens : List Token}
    (lossless : Lossless classes names (byteLength before) rest tokens) :
    Spaced (before ++ rest) tokens ∧ ∀ token ∈ tokens, byteLength before ≤ token.span.start := by
  induction isLength : rest.length using Nat.strong_induction_on generalizing before rest tokens with
  | _ size ih =>
  cases lossless with
  | eof blank =>
      refine ⟨⟨List.pairwise_singleton _ _, ?_, ?_⟩, ?_⟩
      · exact List.forall_mem_singleton.mpr fun notEof => absurd rfl notEof
      · refine List.forall_mem_singleton.mpr ⟨before ++ rest, [], [], ?_, ?_⟩
        · rw [List.append_nil, List.append_nil]
        · rw [byteLength_append]
          rfl
      · exact List.forall_mem_singleton.mpr (Nat.le_add_right _ _)
  | @token _ gap text rest kind tokens blank nonempty written longest others =>
      have shorter : rest.length < size := by
        have positive := List.length_pos_of_ne_nil nonempty
        rw [← isLength, List.length_append, List.length_append]
        omega
      have offsets : byteLength (before ++ gap ++ text) =
          byteLength before + byteLength gap + byteLength text := by
        rw [byteLength_append, byteLength_append]
      rw [← offsets] at others
      obtain ⟨spaced, behind⟩ := ih rest.length shorter others rfl
      rw [List.append_assoc, List.append_assoc] at spaced
      have width := byteLength_pos nonempty
      refine ⟨⟨?_, ?_, ?_⟩, ?_⟩
      · rw [List.pairwise_cons]
        refine ⟨fun token member => ?_, spaced.ordered⟩
        rw [← offsets]
        exact behind token member
      · rw [List.forall_mem_cons]
        exact ⟨fun _ => Nat.lt_add_of_pos_right width, spaced.nonempty⟩
      · rw [List.forall_mem_cons]
        refine ⟨⟨before ++ gap, text, rest, by rw [List.append_assoc], ?_⟩, spaced.between⟩
        rw [byteLength_append]
      · rw [List.forall_mem_cons]
        refine ⟨Nat.le_add_right _ _, fun token member => ?_⟩
        have later := behind token member
        omega

/-- The lexer ends on every text, without a panic; the spans of its tokens are
apart, and literals by the grammar are read.  The tokens are the text, with the
values that the grammar gives to string literals, exactly when no literal has
an escape whose digits start with a plus sign. -/
theorem lex_exact_iff (lawful : classes.Lawful) (input : List Char) :
    (lex classes input ≠ .error .panicked ∧ lex classes input ≠ .error .diverged) ∧
    (∀ tokens, lex classes input = .ok tokens → Spaced input tokens ∧
      (Lossless classes HexDigits 0 input tokens ↔ hasSignedEscape input = false)) ∧
    ∀ before quote body value after, (quote = '\'' ∨ quote = '"') →
      input = before ++ (quote :: (body ++ quote :: after)) →
        StringBody HexDigits quote body value →
          lexString input (byteLength before) quote = .ok (value, byteLength body + 2) := by
  have sound := sound_lex classes input
  refine ⟨⟨fun panicked => ?_, fun diverged => ?_⟩, fun tokens isLexed => ?_, ?_⟩
  · rw [panicked] at sound
    exact sound
  · rw [diverged] at sound
    exact sound
  · rw [isLexed] at sound
    have spaced := @Lossless.spaced classes Decoded [] input tokens sound
    exact ⟨spaced.1, Lossless.unsigned lawful, Lossless.strict_of_unsigned lawful sound⟩
  · rintro before quote body value after isQuote rfl isBody
    exact lexString_of_body isQuote isBody

/-- The characters of ASCII alone. -/
def asciiClasses : CharClasses := ⟨Char.isAlpha, Char.isDigit⟩

theorem asciiClasses_lawful : asciiClasses.Lawful := ⟨fun _ _ => rfl, fun _ _ => rfl⟩

/-- `'\u0041'` has no sign. -/
theorem lex_exact_sample :
    Lossless asciiClasses HexDigits 0 ['\'', '\\', 'u', '0', '0', '4', '1', '\'']
      [⟨.str ['A'], ⟨0, 8⟩⟩, ⟨.eof, ⟨8, 8⟩⟩] :=
  (((lex_exact_iff asciiClasses_lawful _).2.1 _ (by decide)).2).mpr (by decide)

/-- `'\u+041'` is taken for the string `A`. -/
theorem lex_signed_escape :
    ∃ tokens, lex asciiClasses ['\'', '\\', 'u', '+', '0', '4', '1', '\''] = .ok tokens ∧
      ¬ Lossless asciiClasses HexDigits 0 ['\'', '\\', 'u', '+', '0', '4', '1', '\''] tokens :=
  ⟨[⟨.str ['A'], ⟨0, 8⟩⟩, ⟨.eof, ⟨8, 8⟩⟩], by decide, fun lossless =>
    absurd (lossless.unsigned asciiClasses_lawful) (by decide)⟩

end Acetone.Cypher

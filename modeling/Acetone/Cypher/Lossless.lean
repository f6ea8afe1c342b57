import Acetone.Cypher.Lex

/-!
# What the tokens of a text are

A text is a sequence of tokens with blanks between them.  The text of a token
says what the token is; a string literal is read by the grammar of its escapes,
with the notion of a numbered character as a parameter.  A scan that knows
nothing of tokens finds the escapes whose digits start with a sign.
-/

namespace Acetone.Cypher

open Acetone.Lib

/-- A whitespace character or a complete comment, and what follows it. -/
inductive BlankPiece : List Char → List Char → Prop where
  | white {c : Char} {rest : List Char} (white : isWhitespaceChar c = true) : BlankPiece [c] rest
  | line {comment rest : List Char} (within : '\n' ∉ comment)
      (ends : ∀ c, rest.head? = some c → c = '\n') :
      BlankPiece ('/' :: '/' :: comment) rest
  | block {comment rest : List Char} (within : ¬ ['*', '/'] <:+: comment) :
      BlankPiece ('/' :: '*' :: (comment ++ ['*', '/'])) rest

/-- Whitespace and comments, and what follows them. -/
inductive Blank : List Char → List Char → Prop where
  | nil {rest : List Char} : Blank [] rest
  | cons {piece gap rest : List Char} (first : BlankPiece piece (gap ++ rest))
      (others : Blank gap rest) : Blank (piece ++ gap) rest

/-- The digits of an escape, as many as its letter says, name a character. -/
abbrev Naming := Nat → List Char → Char → Prop

/-- What the characters between the quotes stand for. -/
inductive StringBody (names : Naming) (quote : Char) : List Char → List Char → Prop where
  | nil : StringBody names quote [] []
  | plain {c : Char} {body value : List Char} (notEscape : c ≠ '\\') (notQuote : c ≠ quote)
      (others : StringBody names quote body value) :
      StringBody names quote (c :: body) (c :: value)
  | simple {esc ch : Char} {body value : List Char} (escapes : simpleEscape esc = some ch)
      (others : StringBody names quote body value) :
      StringBody names quote ('\\' :: esc :: body) (ch :: value)
  | unicode {letter ch : Char} {count : Nat} {digits body value : List Char}
      (form : letter = 'u' ∧ count = 4 ∨ letter = 'U' ∧ count = 8)
      (named : names count digits ch) (others : StringBody names quote body value) :
      StringBody names quote ('\\' :: letter :: (digits ++ body)) (ch :: value)

def isHexDigit (c : Char) : Bool := (digitValue 16 c).isSome

/-- The number of a sequence of digits, after a number that has been read. -/
def numberFrom (radix : Nat) : Nat → List Char → Nat
  | number, [] => number
  | number, c :: digits => numberFrom radix (number * radix + (digitValue radix c).getD 0) digits

/-- So many hexadecimal digits, which name a scalar value. -/
def HexDigits : Naming := fun count digits ch =>
  digits.length = count ∧ digits.all isHexDigit = true ∧
    fromU32 (numberFrom 16 0 digits) = some ch

/-- What the general number parser makes of so many bytes. -/
def Decoded : Naming := fun count digits ch =>
  byteLength digits = count ∧ ∃ code, unsignedFromStr (2 ^ 32 - 1) 16 digits = .ok code ∧
    fromU32 code = some ch

def symbol : TokenKind → Option (List Char)
  | .lParen => some ['(']
  | .rParen => some [')']
  | .lBracket => some ['[']
  | .rBracket => some [']']
  | .lBrace => some ['\x7b']
  | .rBrace => some ['\x7d']
  | .comma => some [',']
  | .dot => some ['.']
  | .dotDot => some ['.', '.']
  | .colon => some [':']
  | .semicolon => some [';']
  | .pipe => some ['|']
  | .star => some ['*']
  | .plus => some ['+']
  | .minus => some ['-']
  | .slash => some ['/']
  | .percent => some ['%']
  | .caret => some ['^']
  | .eq => some ['=']
  | .ne => some ['<', '>']
  | .lt => some ['<']
  | .le => some ['<', '=']
  | .gt => some ['>']
  | .ge => some ['>', '=']
  | .regexEq => some ['=', '~']
  | .arrow => some ['-', '>']
  | .lArrow => some ['<', '-']
  | _ => none

/-- Every backquote twice. -/
def doubled (name : List Char) : List Char :=
  name.flatMap fun c => if c = '`' then ['`', '`'] else [c]

@[simp] theorem doubled_quote (name : List Char) :
    doubled ('`' :: name) = '`' :: '`' :: doubled name := rfl

@[simp] theorem doubled_append (left right : List Char) :
    doubled (left ++ right) = doubled left ++ doubled right :=
  List.flatMap_append

theorem doubled_of_plain {name : List Char} (plain : '`' ∉ name) : doubled name = name := by
  induction name with
  | nil => rfl
  | cons c name ih =>
      rw [List.mem_cons, not_or] at plain
      rw [doubled, List.flatMap_cons, ← doubled, ih plain.2, if_neg (Ne.symm plain.1)]
      rfl

def isNumberChar (c : Char) : Bool := c.isAlphanum || c == '.' || c == '+' || c == '-'

def Written (classes : CharClasses) (names : Naming) : TokenKind → List Char → Prop
  | .str value, text => ∃ quote body, (quote = '\'' ∨ quote = '"') ∧
      text = quote :: (body ++ [quote]) ∧ StringBody names quote body value
  | .ident name true, text => text = '`' :: (doubled name ++ ['`'])
  | .ident name false, text =>
      text = name ∧ name ≠ [] ∧ ∀ c ∈ name, classes.identChar c = true
  | .parameter name, text =>
      text = '$' :: name ∧ name ≠ [] ∧ ∀ c ∈ name, classes.identChar c = true ∨ c.isDigit = true
  | .integer _, text => text ≠ [] ∧ ∀ c ∈ text, isNumberChar c = true
  | .integerTooLarge _, text => text ≠ [] ∧ ∀ c ∈ text, isNumberChar c = true
  | .float _, text => text ≠ [] ∧ ∀ c ∈ text, isNumberChar c = true
  | kind, text => symbol kind = some text

/-- Would this character behind a token have made a longer one? -/
def continues (classes : CharClasses) : TokenKind → Char → Bool
  | .ident _ false, c => classes.identChar c
  | .ident _ true, c => c == '`'
  | .dot, c => c == '.' || c.isDigit
  | .slash, c => c == '/' || c == '*'
  | .eq, c => c == '~'
  | .lt, c => c == '=' || c == '>' || c == '-'
  | .gt, c => c == '='
  | .minus, c => c == '>'
  | _, _ => false

/-- A text from an offset on is these tokens: their spans are where their texts
are, each as long as it can be, and between them there are only blanks. -/
inductive Lossless (classes : CharClasses) (names : Naming) :
    Nat → List Char → List Token → Prop where
  | eof {offset : Nat} {gap : List Char} (blank : Blank gap []) :
      Lossless classes names offset gap
        [⟨.eof, ⟨offset + byteLength gap, offset + byteLength gap⟩⟩]
  | token {offset : Nat} {gap text rest : List Char} {kind : TokenKind} {tokens : List Token}
      (blank : Blank gap (text ++ rest)) (nonempty : text ≠ [])
      (written : Written classes names kind text)
      (longest : ∀ c, rest.head? = some c → continues classes kind c = false)
      (others : Lossless classes names (offset + byteLength gap + byteLength text) rest tokens) :
      Lossless classes names offset (gap ++ (text ++ rest))
        (⟨kind, ⟨offset + byteLength gap, offset + byteLength gap + byteLength text⟩⟩ :: tokens)

inductive Mode where
  | code
  | slash
  | line
  | block
  | star
  | name
  | string (quote : Char)
  | escape (quote : Char)

namespace Mode

def next : Mode → Char → Mode
  | .code, c => codeNext c
  | .slash, c => if c = '/' then .line else if c = '*' then .block else codeNext c
  | .line, c => if c = '\n' then .code else .line
  | .block, c => if c = '*' then .star else .block
  | .star, c => if c = '/' then .code else if c = '*' then .star else .block
  | .name, c => if c = '`' then .code else .name
  | .string quote, c => if c = '\\' then .escape quote else if c = quote then .code else .string quote
  | .escape quote, _ => .string quote
where
  codeNext (c : Char) : Mode :=
    if c = '/' then .slash
    else if c = '`' then .name
    else if c = '\'' ∨ c = '"' then .string c
    else .code

end Mode

/-- A plus sign and one hexadecimal digit less than the count. -/
def signedDigits (count : Nat) (rest : List Char) : Bool :=
  match rest.take count with
  | '+' :: digits => digits.length + 1 == count && digits.all isHexDigit
  | _ => false

/-- Does a signed escape start at this letter? -/
def signedHere : Mode → Char → List Char → Bool
  | .escape _, c, rest => c == 'u' && signedDigits 4 rest || c == 'U' && signedDigits 8 rest
  | _, _, _ => false

def signedIn : Mode → List Char → Bool
  | _, [] => false
  | mode, c :: rest => signedHere mode c rest || signedIn (mode.next c) rest

/-- Does a string literal of the text have an escape `\u+hhh` or `\U+hhhhhhh`? -/
def hasSignedEscape (input : List Char) : Bool := signedIn .code input

end Acetone.Cypher

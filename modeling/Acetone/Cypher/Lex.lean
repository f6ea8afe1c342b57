import Acetone.Lib.Slices
import Mathlib.Data.UInt
import Mathlib.Data.Nat.Digits.Defs

/-!
# The lexer

Tokens with their spans, cut from the query text by byte offsets.  A slice
that is not between characters panics; the loops of the source take fuel here,
and running out of it is an outcome of its own.
-/

namespace Acetone.Cypher

open Acetone.Lib

structure Span where
  start : Nat
  stop : Nat
deriving DecidableEq

inductive TokenKind where
  | ident (name : List Char) (backquoted : Bool)
  | integer (number : Int64)
  | integerTooLarge (magnitude : UInt64)
  | float (bits : UInt64)
  | str (value : List Char)
  | parameter (name : List Char)
  | lParen
  | rParen
  | lBracket
  | rBracket
  | lBrace
  | rBrace
  | comma
  | dot
  | dotDot
  | colon
  | semicolon
  | pipe
  | star
  | plus
  | minus
  | slash
  | percent
  | caret
  | eq
  | ne
  | lt
  | le
  | gt
  | ge
  | regexEq
  | arrow
  | lArrow
  | eof
deriving DecidableEq

structure Token where
  kind : TokenKind
  span : Span
deriving DecidableEq

inductive ParseError where
  | lex (message : String) (span : Span)
deriving DecidableEq

/-- Why the lexer does not return tokens. -/
inductive LexFailure where
  | rejected (error : ParseError)
  | panicked
  | diverged
deriving DecidableEq

abbrev Lexed := Except LexFailure

def lexError {α : Type} (message : String) (start stop : Nat) : Lexed α :=
  .error (.rejected (.lex message ⟨start, stop⟩))

def sliced {α : Type} : Option α → Lexed α
  | some slice => .ok slice
  | none => .error .panicked

/-- `char::is_alphabetic` and `char::is_numeric`. -/
structure CharClasses where
  alphabetic : Char → Bool
  numeric : Char → Bool

namespace CharClasses

def alphanumeric (classes : CharClasses) (c : Char) : Bool :=
  classes.alphabetic c || classes.numeric c

/-- What goes on in an identifier. -/
def identChar (classes : CharClasses) (c : Char) : Bool := classes.alphanumeric c || c == '_'

/-- Of the ASCII characters, the letters are alphabetic and the digits numeric. -/
structure Lawful (classes : CharClasses) : Prop where
  alphabetic : ∀ c, c.utf8Size = 1 → classes.alphabetic c = c.isAlpha
  numeric : ∀ c, c.utf8Size = 1 → classes.numeric c = c.isDigit

end CharClasses

/-- `char::is_whitespace`. -/
def isWhitespaceChar (c : Char) : Bool :=
  let code := c.toNat
  9 ≤ code ∧ code ≤ 13 ∨ code = 32 ∨ code = 133 ∨ code = 160 ∨ code = 5760 ∨
    8192 ≤ code ∧ code ≤ 8202 ∨ code = 8232 ∨ code = 8233 ∨ code = 8239 ∨ code = 8287 ∨
    code = 12288

/-- `char::escape_default`. -/
def escapeDefault (c : Char) : String :=
  if c = '\t' then "\\t"
  else if c = '\r' then "\\r"
  else if c = '\n' then "\\n"
  else if c = '\'' then "\\'"
  else if c = '"' then "\\\""
  else if c = '\\' then "\\\\"
  else if 0x20 ≤ c.toNat ∧ c.toNat ≤ 0x7e then c.toString
  else "\\u\x7b" ++ String.ofList (Nat.toDigits 16 c.toNat) ++ "\x7d"

/-- `char::from_u32`. -/
def fromU32 (code : Nat) : Option Char :=
  if code.isValidChar then some (Char.ofNat code) else none

/-- `char::to_digit`. -/
def digitValue (radix : Nat) (c : Char) : Option Nat :=
  let value :=
    if '0' ≤ c ∧ c ≤ '9' then some (c.toNat - '0'.toNat)
    else if 'a' ≤ c ∧ c ≤ 'z' then some (c.toNat - 'a'.toNat + 10)
    else if 'A' ≤ c ∧ c ≤ 'Z' then some (c.toNat - 'A'.toNat + 10)
    else none
  value.filter (· < radix)

/-- Digits after those that have been read, with a bound on the number. -/
def addDigits (radix bound : Nat) (beyond : String) : Nat → List Char → Except String Nat
  | number, [] => .ok number
  | number, c :: digits =>
      match digitValue radix c with
      | none => .error "invalid digit found in string"
      | some digit =>
          if number * radix + digit ≤ bound then
            addDigits radix bound beyond (number * radix + digit) digits
          else .error beyond

def tooLarge : String := "number too large to fit in target type"

def tooSmall : String := "number too small to fit in target type"

/-- `from_str_radix` of an unsigned type: a sign is read, but it has to be `+`. -/
def unsignedFromStr (bound radix : Nat) : List Char → Except String Nat
  | [] => .error "cannot parse integer from empty string"
  | ['+'] => .error "invalid digit found in string"
  | '+' :: digits => addDigits radix bound tooLarge 0 digits
  | digits => addDigits radix bound tooLarge 0 digits

/-- `i64::from_str_radix`. -/
def i64FromStr (radix : Nat) : List Char → Except String Int64
  | [] => .error "cannot parse integer from empty string"
  | ['+'] => .error "invalid digit found in string"
  | ['-'] => .error "invalid digit found in string"
  | '+' :: digits => (addDigits radix (2 ^ 63 - 1) tooLarge 0 digits).map fun n => .ofInt n
  | '-' :: digits => (addDigits radix (2 ^ 63) tooSmall 0 digits).map fun n => .ofInt (-n)
  | digits => (addDigits radix (2 ^ 63 - 1) tooLarge 0 digits).map fun n => .ofInt n

/-- The nearest whole number to a quotient, ties to even. -/
def roundDiv (numerator denominator : Nat) : Nat :=
  let quotient := numerator / denominator
  let twice := 2 * (numerator % denominator)
  if twice < denominator then quotient
  else if denominator < twice then quotient + 1
  else quotient + quotient % 2

/-- The nearest float to a quotient; quotients beyond all floats are infinite. -/
def floatOfRatio (numerator denominator : Nat) : UInt64 :=
  let units := numerator * 2 ^ 1074
  let shift := (units / denominator).log2 - 52
  .ofNat (min (2047 * 2 ^ 52) (shift * 2 ^ 52 + roundDiv units (denominator * 2 ^ shift)))

/-- `parse::<f64>` of digits, a fraction and an exponent. -/
def parseFloat (text : List Char) : Except String UInt64 :=
  let whole := text.takeWhile Char.isDigit
  let afterWhole := text.dropWhile Char.isDigit
  let (fraction, afterFraction) :=
    match afterWhole with
    | '.' :: tail => (tail.takeWhile Char.isDigit, tail.dropWhile Char.isDigit)
    | _ => ([], afterWhole)
  let digits := (whole ++ fraction).filterMap (digitValue 10)
  let significand := Nat.ofDigits 10 digits.reverse
  let scale (negative : Bool) (exponent : List Char) : Except String UInt64 :=
    if whole ++ fraction = [] ∨ exponent = [] ∨ ¬ exponent.all Char.isDigit then
      .error "invalid float literal"
    else
      let power := Nat.ofDigits 10 (exponent.filterMap (digitValue 10)).reverse
      .ok (if negative then floatOfRatio significand (10 ^ (power + fraction.length))
        else floatOfRatio (significand * 10 ^ power) (10 ^ fraction.length))
  match afterFraction with
  | [] => scale false ['0']
  | _ :: '-' :: exponent => scale true exponent
  | _ :: '+' :: exponent => scale false exponent
  | _ :: exponent => scale false exponent

def nextIsAsciiDigit (input : List Char) (offset : Nat) : Bool :=
  (textBytes input)[offset]?.any fun byte => 48 ≤ byte && byte ≤ 57

def identLen (classes : CharClasses) (rest : List Char) : Nat :=
  byteLength (rest.takeWhile classes.identChar)

def lexParameter (classes : CharClasses) (input : List Char) (offset : Nat) :
    Lexed (List Char × Nat) := do
  let rest ← sliced (sliceFrom input (offset + 1))
  let width :=
    if rest.head?.any Char.isDigit then (rest.takeWhile Char.isDigit).length
    else identLen classes rest
  if width = 0 then
    lexError "expected a parameter name after '$'" offset (offset + 1)
  else
    let name ← sliced (sliceTo rest width)
    return (name, 1 + width)

def backquotedLoop (input : List Char) (offset : Nat) :
    Nat → Nat → List Char → Lexed (List Char × Nat)
  | 0, _, _ => .error .diverged
  | fuel + 1, j, name => do
      let rest ← sliced (sliceFrom input j)
      match findText ['`'] rest with
      | none => lexError "unterminated backquoted name" offset (byteLength input)
      | some off =>
          let piece ← sliced (sliceTo rest off)
          let afterQuote ← sliced (sliceFrom input (j + off + 1))
          if afterQuote.head? = some '`' then
            backquotedLoop input offset fuel (j + off + 1 + 1) (name ++ piece ++ ['`'])
          else return (name ++ piece, j + off + 1 - offset)

def lexBackquoted (input : List Char) (offset : Nat) : Lexed (List Char × Nat) :=
  backquotedLoop input offset (byteLength input + 1) (offset + 1) []

/-- The escapes of one letter. -/
def simpleEscape : Char → Option Char
  | 'n' => some '\n'
  | 't' => some '\t'
  | 'r' => some '\r'
  | 'b' => some '\x08'
  | 'f' => some '\x0c'
  | '\\' => some '\\'
  | '\'' => some '\''
  | '"' => some '"'
  | _ => none

/-- The character of `\u` or `\U`, whose backslash is at `start` and whose
digits are at `hexAt`. -/
def unicodeEscape (input : List Char) (start hexAt digits : Nat) : Lexed Char :=
  match (sliceFrom input hexAt).bind (sliceTo · digits) with
  | none => lexError "truncated unicode escape" start (byteLength input)
  | some hex =>
      match unsignedFromStr (2 ^ 32 - 1) 16 hex with
      | .error _ => lexError "invalid unicode escape" start (hexAt + digits)
      | .ok code =>
          match fromU32 code with
          | none =>
              let upper := (Nat.toDigits 16 code).map Char.toUpper
              lexError ("U+" ++ String.ofList (upper.leftpad 4 '0') ++ " is not a valid character")
                start (hexAt + digits)
          | some ch => .ok ch

/-- The loop of `lex_string` over the characters behind the opening quote, the
next of them at the offset `off` from there; as many as `skip` have been read
already, as the digits of an escape. -/
def stringLoop (input : List Char) (offset : Nat) (quote : Char) :
    List Char → Nat → Nat → List Char → Lexed (List Char × Nat)
  | [], _, _, _ => lexError "unterminated string literal" offset (byteLength input)
  | c :: chars, off, skip + 1, value =>
      stringLoop input offset quote chars (off + c.utf8Size) skip value
  | c :: chars, off, 0, value =>
      if c = '\\' then
        match chars with
        | [] => lexError "unterminated string literal" offset (byteLength input)
        | esc :: chars =>
            let escOff := off + c.utf8Size
            match simpleEscape esc with
            | some ch =>
                stringLoop input offset quote chars (escOff + esc.utf8Size) 0 (value ++ [ch])
            | none =>
                if esc = 'u' ∨ esc = 'U' then do
                  let digits := if esc = 'u' then 4 else 8
                  let hexAt := offset + 1 + escOff + 1
                  let ch ← unicodeEscape input (offset + 1 + off) hexAt digits
                  stringLoop input offset quote chars (escOff + esc.utf8Size) digits (value ++ [ch])
                else
                  lexError ("unknown escape '\\" ++ escapeDefault esc ++ "'")
                    (offset + 1 + off) (offset + 1 + escOff + esc.utf8Size)
      else if c = quote then .ok (value, off + 1 + c.utf8Size)
      else stringLoop input offset quote chars (off + c.utf8Size) 0 (value ++ [c])

def lexString (input : List Char) (offset : Nat) (quote : Char) : Lexed (List Char × Nat) := do
  let chars ← sliced (sliceFrom input (offset + 1))
  stringLoop input offset quote chars 0 0 []

/-- The digits behind the prefix of a hexadecimal or octal number. -/
def radixDigits : List Char → Option (Nat × List Char)
  | '0' :: 'x' :: digits => some (16, digits)
  | '0' :: 'X' :: digits => some (16, digits)
  | '0' :: 'o' :: digits => some (8, digits)
  | '0' :: 'O' :: digits => some (8, digits)
  | _ => none

/-- An integer, or a magnitude that only fits the unsigned type. -/
def integerKind (radix : Nat) (text : List Char) (start stop : Nat) : Lexed TokenKind :=
  match i64FromStr radix text with
  | .ok number => .ok (.integer number)
  | .error _ =>
      match unsignedFromStr (2 ^ 64 - 1) radix text with
      | .ok magnitude => .ok (.integerTooLarge (.ofNat magnitude))
      | .error e => lexError ("invalid integer literal: " ++ e) start stop

def fractionWidth (rest : List Char) (width : Nat) : Lexed (Nat × Bool) := do
  let afterWhole ← sliced (sliceFrom rest width)
  if afterWhole.head? = some '.' && nextIsAsciiDigit rest (width + 1) then
    let afterDot ← sliced (sliceFrom rest (width + 1))
    return (width + (1 + (afterDot.takeWhile Char.isDigit).length), true)
  else return (width, false)

def exponentWidth (rest : List Char) (width : Nat) : Lexed (Nat × Bool) := do
  let afterFraction ← sliced (sliceFrom rest width)
  if afterFraction.head? = some 'e' ∨ afterFraction.head? = some 'E' then
    let afterE ← sliced (sliceFrom rest (width + 1))
    let ewidth := if afterE.head? = some '+' ∨ afterE.head? = some '-' then 2 else 1
    let exponent ← sliced (sliceFrom rest (width + ewidth))
    let digits := (exponent.takeWhile Char.isDigit).length
    if 0 < digits then return (width + (ewidth + digits), true) else return (width, false)
  else return (width, false)

def lexNumber (input : List Char) (offset : Nat) : Lexed (TokenKind × Nat) := do
  let rest ← sliced (sliceFrom input offset)
  match radixDigits rest with
  | some (radix, digits) =>
      let width := (digits.takeWhile Char.isAlphanum).length
      if width = 0 then
        lexError "missing digits after numeric prefix" offset (offset + 2)
      else
        let text ← sliced (sliceTo digits width)
        let kind ← integerKind radix text offset (offset + 2 + width)
        return (kind, 2 + width)
  | none =>
      let whole := (rest.takeWhile Char.isDigit).length
      let (fractional, hasFraction) ← fractionWidth rest whole
      let (width, hasExponent) ← exponentWidth rest fractional
      let text ← sliced (sliceTo rest width)
      if hasFraction || hasExponent then
        match parseFloat text with
        | .ok bits => return (.float bits, width)
        | .error e => lexError ("invalid float literal: " ++ e) offset (offset + width)
      else
        let kind ← integerKind 10 text offset (offset + width)
        return (kind, width)

/-- Tokens of fixed text, but for the dot before a digit.  The longest is taken. -/
def operator : List Char → Option (TokenKind × Nat)
  | '(' :: _ => some (.lParen, 1)
  | ')' :: _ => some (.rParen, 1)
  | '[' :: _ => some (.lBracket, 1)
  | ']' :: _ => some (.rBracket, 1)
  | '\x7b' :: _ => some (.lBrace, 1)
  | '\x7d' :: _ => some (.rBrace, 1)
  | ',' :: _ => some (.comma, 1)
  | ';' :: _ => some (.semicolon, 1)
  | '|' :: _ => some (.pipe, 1)
  | '*' :: _ => some (.star, 1)
  | '+' :: _ => some (.plus, 1)
  | '%' :: _ => some (.percent, 1)
  | '^' :: _ => some (.caret, 1)
  | '/' :: _ => some (.slash, 1)
  | ':' :: _ => some (.colon, 1)
  | '.' :: '.' :: _ => some (.dotDot, 2)
  | '.' :: _ => some (.dot, 1)
  | '=' :: '~' :: _ => some (.regexEq, 2)
  | '=' :: _ => some (.eq, 1)
  | '<' :: '=' :: _ => some (.le, 2)
  | '<' :: '>' :: _ => some (.ne, 2)
  | '<' :: '-' :: _ => some (.lArrow, 2)
  | '<' :: _ => some (.lt, 1)
  | '>' :: '=' :: _ => some (.ge, 2)
  | '>' :: _ => some (.gt, 1)
  | '-' :: '>' :: _ => some (.arrow, 2)
  | '-' :: _ => some (.minus, 1)
  | _ => none

def lexToken (classes : CharClasses) (input : List Char) (i : Nat) (c : Char)
    (rest : List Char) : Lexed (TokenKind × Nat) :=
  match operator rest with
  | some (kind, width) =>
      if kind = .dot && nextIsAsciiDigit input (i + 1) then lexNumber input i
      else .ok (kind, width)
  | none =>
      if c = '\'' ∨ c = '"' then do
        let (value, width) ← lexString input i c
        return (.str value, width)
      else if c = '$' then do
        let (name, width) ← lexParameter classes input i
        return (.parameter name, width)
      else if c = '`' then do
        let (name, width) ← lexBackquoted input i
        return (.ident name true, width)
      else if c.isDigit then lexNumber input i
      else if classes.alphabetic c || c == '_' then do
        let width := identLen classes rest
        let name ← sliced (sliceTo rest width)
        return (.ident name false, width)
      else
        lexError ("unexpected character '" ++ escapeDefault c ++ "'") i (i + c.utf8Size)

/-- One round of the loop: the token at an offset, if there is one, and the
offset behind it. -/
def lexStep (classes : CharClasses) (input : List Char) (i : Nat) :
    Lexed (Option Token × Nat) := do
  let rest ← sliced (sliceFrom input i)
  match rest with
  | [] => .error .panicked
  | c :: _ =>
      if isWhitespaceChar c then return (none, i + c.utf8Size)
      else if ['/', '/'].isPrefixOf rest then
        return (none, i + (findText ['\n'] rest).getD (byteLength input - i))
      else if ['/', '*'].isPrefixOf rest then
        let body ← sliced (sliceFrom input (i + 2))
        match findText ['*', '/'] body with
        | some off => return (none, i + (2 + off + 2))
        | none => lexError "unterminated block comment" i (byteLength input)
      else
        let (kind, width) ← lexToken classes input i c rest
        return (some ⟨kind, ⟨i, i + width⟩⟩, i + width)

def lexLoop (classes : CharClasses) (input : List Char) : Nat → Nat → Lexed (List Token)
  | fuel, i =>
      if i < byteLength input then
        match fuel with
        | 0 => .error .diverged
        | fuel + 1 => do
            let (token, next) ← lexStep classes input i
            let tokens ← lexLoop classes input fuel next
            return token.toList ++ tokens
      else .ok [⟨.eof, ⟨byteLength input, byteLength input⟩⟩]

/-- The tokens of the whole input, with an `eof` at the end. -/
def lex (classes : CharClasses) (input : List Char) : Lexed (List Token) :=
  lexLoop classes input (byteLength input) 0

end Acetone.Cypher

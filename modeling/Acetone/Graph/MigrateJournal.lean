import Acetone.Lib.Lines
import Acetone.Model.Value
import Acetone.Prolly.Store

/-!
# The migration journal

The planned ref swings of a migration as text: a header, then a line for each
swing with its old value (or `-` for a ref to be created), its new value and
its name.
-/

namespace Acetone.Graph

open Acetone.Lib Acetone.Model
open Acetone.Prolly (Hash)

def digitValue (letter : Char) : Option Nat :=
  if '0' ≤ letter ∧ letter ≤ '9' then some (letter.toNat - 48)
  else if 'a' ≤ letter ∧ letter ≤ 'f' then some (letter.toNat - 87)
  else if 'A' ≤ letter ∧ letter ≤ 'F' then some (letter.toNat - 55)
  else none

def bytesOfHex : List Char → Option Bytes
  | [] => some []
  | [_] => none
  | high :: low :: text => do
      let upper ← digitValue high
      let lower ← digitValue low
      let bytes ← bytesOfHex text
      some (UInt8.ofNat (16 * upper + lower) :: bytes)

def hashOfHex (text : List Char) : Option Hash := (bytesOfHex text).bind Hash.fromBytes

private theorem digitValue_hexDigit {digit : Nat} (isDigit : digit < 16) :
    digitValue (Hash.hexDigit digit) = some digit := by
  revert digit
  decide

private theorem hexDigit_notSpace {digit : Nat} (isDigit : digit < 16) :
    Hash.hexDigit digit ∉ [' ', '\n', '\r', '-'] := by
  revert digit
  decide

private theorem toHex_toList (hash : Hash) :
    hash.toHex.toList = hash.asBytes.flatMap fun byte =>
      [Hash.hexDigit (byte.toNat / 16), Hash.hexDigit (byte.toNat % 16)] :=
  String.toList_ofList

private theorem digits_lt (byte : UInt8) : byte.toNat / 16 < 16 ∧ byte.toNat % 16 < 16 := by
  have small := byte.toNat_lt
  omega

private theorem bytesOfHex_digits (bytes : Bytes) :
    bytesOfHex (bytes.flatMap fun byte =>
      [Hash.hexDigit (byte.toNat / 16), Hash.hexDigit (byte.toNat % 16)]) = some bytes := by
  induction bytes with
  | nil => rfl
  | cons byte bytes ih =>
      obtain ⟨high, low⟩ := digits_lt byte
      have joined : UInt8.ofNat (16 * (byte.toNat / 16) + byte.toNat % 16) = byte := by
        rw [Nat.div_add_mod, UInt8.ofNat_toNat]
      simp only [List.flatMap_cons, List.cons_append, List.nil_append, bytesOfHex,
        digitValue_hexDigit high, digitValue_hexDigit low, ih, Option.bind_eq_bind,
        Option.bind_some, joined]

theorem hashOfHex_toHex (hash : Hash) : hashOfHex hash.toHex.toList = some hash := by
  rw [hashOfHex, toHex_toList, bytesOfHex_digits]
  exact Hash.fromBytes_asBytes hash

/-- Hex has neither blanks nor line endings. -/
private theorem mem_toHex {hash : Hash} {letter : Char} (member : letter ∈ hash.toHex.toList) :
    letter ∉ [' ', '\n', '\r', '-'] := by
  rw [toHex_toList] at member
  obtain ⟨byte, -, isDigit⟩ := List.mem_flatMap.mp member
  obtain ⟨high, low⟩ := digits_lt byte
  rcases List.mem_pair.mp isDigit with rfl | rfl
  · exact hexDigit_notSpace high
  · exact hexDigit_notSpace low

/-- A planned update of a ref; without an expected value it creates the ref. -/
structure RefSwing where
  name : String
  expected : Option Hash
  new : Hash
deriving DecidableEq

inductive MigrateError where
  | invalidRefName (name : String)
  | symbolicRef (name : String)
  | casFailed (name : String)
  | duplicateEdit (name : String)
  | wrongKind (id : Hash)
  | tooLarge (size limit : Nat)
  | journalAbsent (blob : Hash)
  | journalNotUtf8
  | journalHeader
  | journalLine (line : String)
  | invalidHash (text : String)
  | foreignRef (name journal : String)
  | missingTarget (name : String) (target : Hash) (journal : String)
  | movedRef (name : String) (current expected : Option Hash) (new : Hash) (journal : String)
deriving DecidableEq

def journalHeader : String := "acetone-migrate-journal v1"

def expectedText : Option Hash → List Char
  | some old => old.toHex.toList
  | none => ['-']

def swingLine (swing : RefSwing) : List Char :=
  expectedText swing.expected ++ ' ' :: (swing.new.toHex.toList ++ ' ' :: swing.name.toList)

def encodeJournal (swings : List RefSwing) : Bytes :=
  utf8 (.ofList (unlines (journalHeader.toList :: swings.map swingLine)))

def parseHash (text : List Char) : Except MigrateError Hash :=
  match hashOfHex text with
  | some hash => .ok hash
  | none => .error (.invalidHash (.ofList text))

def parseSwing (line : List Char) : Except MigrateError RefSwing :=
  match splitOnce ' ' line with
  | none => .error (.journalLine (.ofList line))
  | some (old, rest) =>
      match splitOnce ' ' rest with
      | none => .error (.journalLine (.ofList line))
      | some (new, name) => do
          let expected ← if old = ['-'] then .ok none else (parseHash old).map some
          let target ← parseHash new
          .ok ⟨.ofList name, expected, target⟩

def decodeJournal (data : Bytes) : Except MigrateError (List RefSwing) :=
  match fromUtf8 data with
  | none => .error .journalNotUtf8
  | some text =>
      match lines text.toList with
      | [] => .error .journalHeader
      | header :: rest =>
          if header ≠ journalHeader.toList then .error .journalHeader
          else rest.mapM parseSwing

/-- A name that stands on one line, as git's ref names do. -/
def PlainName (name : String) : Prop := PlainLine name.toList ∧ name ≠ ""

private theorem expectedText_plain (expected : Option Hash) :
    ' ' ∉ expectedText expected ∧ '\n' ∉ expectedText expected := by
  cases expected with
  | none => decide
  | some old =>
      constructor
      · exact fun member => mem_toHex member (by decide)
      · exact fun member => mem_toHex member (by decide)

private theorem toHex_ne_dash (hash : Hash) : hash.toHex.toList ≠ ['-'] := by
  intro same
  exact mem_toHex (same ▸ List.mem_singleton_self '-') (by decide)

theorem parseSwing_swingLine (swing : RefSwing) : parseSwing (swingLine swing) = .ok swing := by
  have noBlank : ' ' ∉ swing.new.toHex.toList := fun member => mem_toHex member (by decide)
  have parsed : ∀ hash : Hash, parseHash hash.toHex.toList = .ok hash := by
    intro hash
    rw [parseHash, hashOfHex_toHex]
  rw [swingLine, parseSwing, splitOnce_append (expectedText_plain _).1]
  simp only [splitOnce_append noBlank, parsed]
  cases isExpected : swing.expected with
  | none =>
      obtain ⟨name, expected, new⟩ := swing
      cases isExpected
      simp [expectedText, String.ofList_toList]
  | some old =>
      obtain ⟨name, expected, new⟩ := swing
      cases isExpected
      simp [expectedText, toHex_ne_dash, parsed, Except.map, String.ofList_toList]

private theorem swingLine_plain {swing : RefSwing} (plain : PlainName swing.name) :
    PlainLine (swingLine swing) := by
  have filled : swing.name.toList ≠ [] := by
    intro empty
    exact plain.2 (String.toList_inj.mp empty)
  constructor
  · intro member
    rcases List.mem_append.mp member with inOld | inRest
    · exact (expectedText_plain _).2 inOld
    · rcases List.mem_cons.mp inRest with isBlank | inRest
      · exact absurd isBlank (by decide)
      · rcases List.mem_append.mp inRest with inNew | inName
        · exact mem_toHex inNew (by decide)
        · rcases List.mem_cons.mp inName with isBlank | inName
          · exact absurd isBlank (by decide)
          · exact plain.1.1 inName
  · have last : (swingLine swing).getLast? = swing.name.toList.getLast? := by
      rw [swingLine, List.getLast?_append_of_ne_nil _ (List.cons_ne_nil _ _),
        List.getLast?_cons_of_ne_nil (by simp),
        List.getLast?_append_of_ne_nil _ (List.cons_ne_nil _ _),
        List.getLast?_cons_of_ne_nil filled]
    rw [last]
    exact plain.1.2

theorem decodeJournal_encodeJournal {swings : List RefSwing}
    (plain : ∀ swing ∈ swings, PlainName swing.name) :
    decodeJournal (encodeJournal swings) = .ok swings := by
  have plainLines : ∀ line ∈ journalHeader.toList :: swings.map swingLine, PlainLine line := by
    intro line member
    rcases List.mem_cons.mp member with rfl | member
    · constructor <;> decide
    · obtain ⟨swing, isSwing, rfl⟩ := List.mem_map.mp member
      exact swingLine_plain (plain swing isSwing)
  rw [decodeJournal, encodeJournal, fromUtf8_utf8]
  simp only [String.toList_ofList, lines_unlines plainLines]
  have inverse : parseSwing ∘ swingLine = fun swing => pure (id swing) :=
    funext parseSwing_swingLine
  rw [if_neg (not_not_intro rfl), List.mapM_map, inverse, List.mapM_pure, List.map_id]
  rfl

end Acetone.Graph

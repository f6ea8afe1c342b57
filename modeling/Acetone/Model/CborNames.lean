import Acetone.Lib.Listing
import Acetone.Model.CborReaders
import Acetone.Model.Schema

/-!
# Name arrays and name-keyed maps

Records, schema entries and the manifest all hold arrays of names and maps from
names, in the canonical text order: shorter names first, equal lengths
bytewise.  The loops that read them differ only in the item they read and the
errors they report.
-/

namespace Acetone.Model

open Acetone.Lib

instance canonicalStrCmpTrans : Std.TransCmp canonicalStrCmp := by
  have lengths : Std.TransCmp fun left right : String =>
      compare (utf8 left).length (utf8 right).length :=
    inferInstanceAs (Std.TransCmp (compareOn fun text : String => (utf8 text).length))
  have contents : Std.TransCmp fun left right : String =>
      lexCmp (utf8 left) (utf8 right) :=
    { eq_swap := Std.OrientedCmp.eq_swap
      isLE_trans := Std.TransCmp.isLE_trans }
  exact inferInstanceAs (Std.TransCmp (compareLex
    (fun left right : String => compare (utf8 left).length (utf8 right).length)
    (fun left right => lexCmp (utf8 left) (utf8 right))))

instance canonicalStrCmpLawful : Std.LawfulEqCmp canonicalStrCmp where
  compare_self := by
    intro text
    rw [canonicalStrCmp, lexCmp_self]
    simp
  eq_of_compare := by
    intro left right same
    rw [canonicalStrCmp, Ordering.then_eq_eq] at same
    exact utf8_injective (Std.LawfulEqCmp.eq_of_compare same.2)

namespace Cbor

def writeNames (names : List String) : Bytes := names.flatMap writeText

theorem writeNames_cons (name : String) (names : List String) :
    writeNames (name :: names) = writeText name ++ writeNames names :=
  List.flatMap_cons

def writeNameArray (names : List String) : Bytes :=
  writeHead majorArray names.length ++ writeNames names

/-- The entries of a map, in the order given. -/
def writeEntries {failure V : Type} (writeItem : V → Except failure Bytes) :
    List (String × V) → Except failure Bytes
  | [] => .ok []
  | (name, item) :: entries => do
      let body ← writeItem item
      let rest ← writeEntries writeItem entries
      .ok (writeText name ++ (body ++ rest))

/-- The entries of a map whose items always have an encoding. -/
def writeItems {V : Type} (writeItem : V → Bytes) (entries : List (String × V)) : Bytes :=
  entries.flatMap fun entry => writeText entry.1 ++ writeItem entry.2

theorem writeEntries_eq_writeItems {failure V : Type} (writeItem : V → Bytes)
    (entries : List (String × V)) :
    writeEntries (fun item => (.ok (writeItem item) : Except failure Bytes)) entries =
      .ok (writeItems writeItem entries) := by
  induction entries with
  | nil => rfl
  | cons entry entries ih =>
      rw [writeEntries, ok_bind, ih, ok_bind, writeItems, writeItems, List.flatMap_cons,
        List.append_assoc]

section

variable {failure : Type} (wrap : ValueDecodeError → failure)

/-- A head whose count cannot exceed the input that remains, every item taking
at least one byte. -/
def readCount (major : Nat) (input : Bytes) : Except failure (Nat × Bytes) := do
  let (count, rest) ← (readHead major input).mapError wrap
  if rest.length < count then .error (wrap (.lengthOverrun count rest.length))
  else .ok (count, rest)

/-- Where an order is demanded, a name is above the one before it. -/
def checkAbove (disorder : Option failure) (previous : Option String)
    (name : String) : Except failure Unit :=
  match disorder, previous with
  | some reason, some before =>
      if canonicalStrCmp before name ≠ .lt then .error reason else .ok ()
  | _, _ => .ok ()

/-- A field of a text-keyed map, by its name. -/
def expectName (reason : failure) (name : String) (input : Bytes) :
    Except failure Bytes := do
  let (got, rest) ← (readText input).mapError wrap
  if got ≠ name then .error reason else .ok rest

def readNames (disorder : Option failure) :
    Option String → Nat → Bytes → Except failure (List String × Bytes)
  | _, 0, input => .ok ([], input)
  | previous, count + 1, input => do
      let (name, input) ← (readText input).mapError wrap
      checkAbove disorder previous name
      let (names, rest) ← readNames disorder (some name) count input
      .ok (name :: names, rest)

def readEntries {V : Type} (checkName : String → Except failure Unit)
    (disorder : failure) (readItem : Bytes → Except failure (V × Bytes)) :
    Option String → Nat → Bytes → Except failure (List (String × V) × Bytes)
  | _, 0, input => .ok ([], input)
  | previous, count + 1, input => do
      let (name, input) ← (readText input).mapError wrap
      checkName name
      checkAbove (some disorder) previous name
      let (item, input) ← readItem input
      let (entries, rest) ← readEntries checkName disorder readItem (some name) count input
      .ok ((name, item) :: entries, rest)

variable {wrap}

theorem readCount_eq_ok {major count : Nat} {input rest : Bytes} (small : major < 8) :
    readCount wrap major input = .ok (count, rest) ↔
      count < 2 ^ 64 ∧ input = writeHead major count ++ rest ∧
        count ≤ rest.length := by
  simp only [readCount, bind_eq_ok, Prod.exists, mapError_eq_ok, guard_eq_ok,
    readHead_eq_ok small, Except.ok.injEq, Prod.mk.injEq]
  constructor
  · rintro ⟨found, after, ⟨bound, rfl⟩, enough, rfl, rfl⟩
    exact ⟨bound, rfl, by omega⟩
  · rintro ⟨bound, rfl, enough⟩
    exact ⟨count, rest, ⟨bound, rfl⟩, by omega, rfl, rfl⟩

theorem expectName_eq_ok {reason : failure} {name : String} {input rest : Bytes}
    (small : (utf8 name).length < 2 ^ 64) :
    expectName wrap reason name input = .ok rest ↔ input = writeText name ++ rest := by
  simp only [expectName, bind_eq_ok, Prod.exists, mapError_eq_ok, guard_eq_ok,
    readText_eq_ok, ne_eq, not_not, Except.ok.injEq]
  constructor
  · rintro ⟨got, after, ⟨-, rfl⟩, rfl, rfl⟩
    rfl
  · rintro rfl
    exact ⟨name, rest, ⟨small, rfl⟩, rfl, rfl⟩

/-- A list of names, after the one before it. -/
def Follows (previous : Option String) (names : List String) : Prop :=
  AscendsIn canonicalStrCmp (previous.toList ++ names)

theorem checkAbove_eq_ok {reason : failure} {previous : Option String} {name : String} :
    checkAbove (some reason) previous name = .ok () ↔
      ∀ before ∈ previous, canonicalStrCmp before name = .lt := by
  cases previous with
  | none => simp [checkAbove]
  | some before => simp [checkAbove]

theorem follows_cons {previous : Option String} {name : String} {names : List String} :
    Follows previous (name :: names) ↔
      (∀ before ∈ previous, canonicalStrCmp before name = .lt) ∧
        Follows (some name) names := by
  cases previous with
  | none => simp [Follows]
  | some before =>
      rw [Follows, Option.toList_some, List.singleton_append, AscendsIn.cons_iff]
      simp [Follows]

theorem follows_nil (previous : Option String) : Follows previous [] := by
  cases previous with
  | none => exact List.Pairwise.nil
  | some before => exact List.pairwise_singleton _ _

theorem readNames_eq_ok {disorder : Option failure} {previous : Option String}
    {count : Nat} {input rest : Bytes} {names : List String} :
    readNames wrap disorder previous count input = .ok (names, rest) ↔
      names.length = count ∧ (∀ name ∈ names, (utf8 name).length < 2 ^ 64) ∧
        (disorder.isSome → Follows previous names) ∧
        input = writeNames names ++ rest := by
  induction count generalizing previous input names rest with
  | zero =>
      rw [readNames, Except.ok.injEq, Prod.mk.injEq]
      constructor
      · rintro ⟨rfl, rfl⟩
        exact ⟨rfl, by simp, fun _ => follows_nil previous, rfl⟩
      · rintro ⟨empty, -, -, rfl⟩
        rw [List.length_eq_zero_iff] at empty
        subst empty
        exact ⟨rfl, rfl⟩
  | succ count ih =>
      have step : ∀ {name}, checkAbove disorder previous name = .ok () ↔
          (disorder.isSome → ∀ before ∈ previous, canonicalStrCmp before name = .lt) := by
        intro name
        cases disorder with
        | none => simp [checkAbove]
        | some reason => simp [checkAbove_eq_ok]
      simp only [readNames, bind_eq_ok, Prod.exists, mapError_eq_ok, readText_eq_ok, ih,
        step, Except.ok.injEq, Prod.mk.injEq]
      constructor
      · rintro ⟨name, after, ⟨bound, rfl⟩, -, above, tail, remainder,
          ⟨length, bounds, follows, rfl⟩, rfl, rfl⟩
        refine ⟨by rw [List.length_cons, length], ?_, ?_, ?_⟩
        · intro other member
          rcases List.mem_cons.mp member with rfl | later
          · exact bound
          · exact bounds other later
        · intro ordered
          exact follows_cons.mpr ⟨above ordered, follows ordered⟩
        · rw [writeNames_cons, List.append_assoc]
      · rintro ⟨length, bounds, follows, rfl⟩
        cases names with
        | nil => cases length
        | cons name names =>
            refine ⟨name, writeNames names ++ rest,
              ⟨bounds name List.mem_cons_self, ?_⟩, (), ?_, names, rest,
              ⟨by simpa using length, fun other member =>
                bounds other (List.mem_cons_of_mem _ member), ?_, rfl⟩, rfl, rfl⟩
            · rw [writeNames_cons, List.append_assoc]
            · exact fun ordered => (follows_cons.mp (follows ordered)).1
            · exact fun ordered => (follows_cons.mp (follows ordered)).2

theorem length_le_writeNames (names : List String) :
    names.length ≤ (writeNames names).length := by
  induction names with
  | nil => exact Nat.zero_le _
  | cons name names ih =>
      rw [writeNames_cons, List.length_append, List.length_cons, writeText,
        writeHead_eq, List.cons_append, List.length_cons]
      omega

theorem length_le_of_mem {names : List String} {name : String} (member : name ∈ names) :
    (utf8 name).length ≤ (writeNames names).length := by
  induction names with
  | nil => cases member
  | cons head names ih =>
      rw [writeNames_cons, List.length_append]
      rcases List.mem_cons.mp member with rfl | later
      · rw [writeText, List.length_append]
        omega
      · have rest := ih later
        omega

variable {V other : Type} {checkName : String → Except failure Unit} {disorder : failure}
  {readItem : Bytes → Except failure (V × Bytes)} {writeItem : V → Except other Bytes}

/-- What is read of a map is what is written of it. -/
theorem writeEntries_of_readEntries
    (strict : ∀ {input rest : Bytes} {item : V}, readItem input = .ok (item, rest) →
      ∃ bytes, writeItem item = .ok bytes ∧ input = bytes ++ rest)
    {previous : Option String} {count : Nat} {input rest : Bytes}
    {entries : List (String × V)}
    (read : readEntries wrap checkName disorder readItem previous count input =
      .ok (entries, rest)) :
    entries.length = count ∧ (∀ entry ∈ entries, checkName entry.1 = .ok ()) ∧
      Follows previous (entries.map Prod.fst) ∧
      ∃ bytes, writeEntries writeItem entries = .ok bytes ∧ input = bytes ++ rest := by
  induction count generalizing previous input entries with
  | zero =>
      rw [readEntries] at read
      cases read
      exact ⟨rfl, by simp, follows_nil previous, [], rfl, rfl⟩
  | succ count ih =>
      simp only [readEntries, bind_eq_ok, Prod.exists, mapError_eq_ok, readText_eq_ok,
        Except.ok.injEq, Prod.mk.injEq] at read
      obtain ⟨name, after, ⟨bound, rfl⟩, ⟨⟩, named, ⟨⟩, above, item, between, readFirst,
        tail, remainder, readRest, rfl, rfl⟩ := read
      obtain ⟨length, checked, follows, rest, written, rfl⟩ := ih readRest
      obtain ⟨body, writtenItem, rfl⟩ := strict readFirst
      refine ⟨by rw [List.length_cons, length], ?_,
        follows_cons.mpr ⟨checkAbove_eq_ok.mp above, follows⟩,
        writeText name ++ (body ++ rest), ?_, ?_⟩
      · intro entry member
        rcases List.mem_cons.mp member with rfl | later
        · exact named
        · exact checked entry later
      · rw [writeEntries, writtenItem, ok_bind, written, ok_bind]
      · simp only [List.append_assoc]

/-- What is written of a map is read back, item by item. -/
theorem readEntries_of_writeEntries {back : V → V} {previous : Option String}
    {entries : List (String × V)} {bytes : Bytes}
    (roundTrip : ∀ entry ∈ entries, ∀ body rest, writeItem entry.2 = .ok body →
      body.length < 2 ^ 64 → readItem (body ++ rest) = .ok (back entry.2, rest))
    (written : writeEntries writeItem entries = .ok bytes)
    (fits : bytes.length < 2 ^ 64)
    (named : ∀ entry ∈ entries, checkName entry.1 = .ok ())
    (follows : Follows previous (entries.map Prod.fst)) (rest : Bytes) :
    readEntries wrap checkName disorder readItem previous entries.length (bytes ++ rest) =
      .ok (entries.map fun entry => (entry.1, back entry.2), rest) := by
  induction entries generalizing previous bytes with
  | nil =>
      cases written
      rfl
  | cons entry entries ih =>
      obtain ⟨name, item⟩ := entry
      simp only [writeEntries, bind_eq_ok, Except.ok.injEq] at written
      obtain ⟨body, writtenItem, tail, writtenRest, rfl⟩ := written
      rw [List.map_cons, follows_cons] at follows
      simp only [List.length_append] at fits
      have text : (readText (writeText name ++ (body ++ tail ++ rest))).mapError wrap =
          .ok (name, body ++ tail ++ rest) := by
        rw [mapError_eq_ok, readText_eq_ok]
        refine ⟨?_, rfl⟩
        rw [writeText, List.length_append] at fits
        omega
      have first := roundTrip (name, item) List.mem_cons_self body (tail ++ rest)
        writtenItem (by omega)
      have others := @ih (some name) tail
        (fun entry member => roundTrip entry (List.mem_cons_of_mem _ member))
        writtenRest (by omega)
        (fun entry member => named entry (List.mem_cons_of_mem _ member)) follows.2
      rw [List.length_cons, readEntries, List.append_assoc, text, ok_bind]
      simp only [named (name, item) List.mem_cons_self,
        @checkAbove_eq_ok _ disorder previous name |>.mpr follows.1, List.append_assoc,
        first, others, ok_bind, List.map_cons]

theorem length_le_writeEntries {entries : List (String × V)} {bytes : Bytes}
    (written : writeEntries writeItem entries = .ok bytes) :
    entries.length ≤ bytes.length := by
  induction entries generalizing bytes with
  | nil => exact Nat.zero_le _
  | cons entry entries ih =>
      obtain ⟨name, item⟩ := entry
      simp only [writeEntries, bind_eq_ok, Except.ok.injEq] at written
      obtain ⟨body, -, tail, writtenRest, rfl⟩ := written
      have rest := ih writtenRest
      rw [writeText, writeHead_eq]
      simp only [List.length_append, List.length_cons]
      omega

end

end Cbor

end Acetone.Model

import Acetone.Lib.ByteString
import Acetone.Lib.Outcome

/-!
# The chunk store a tree is written to

A store is the list of chunks that were put into it, newest first.  A chunk's
address is computed by a function outside this repository; nothing assumes it
to be injective on all byte strings (a digest has 20 or 32 bytes), and
statements that need it say `CollisionFree` of the chunks at hand.
-/

namespace Acetone.Prolly

open Acetone.Lib

/-- The content address of a chunk: a SHA-1 or SHA-256 digest. -/
structure Hash where
  asBytes : Bytes
  width : asBytes.length = 20 ∨ asBytes.length = 32
deriving DecidableEq

namespace Hash

def fromBytes (bytes : Bytes) : Option Hash :=
  if width : bytes.length = 20 ∨ bytes.length = 32 then
    some ⟨bytes, width⟩
  else
    none

@[simp] theorem fromBytes_asBytes (hash : Hash) :
    fromBytes hash.asBytes = some hash :=
  dif_pos hash.width

def hexDigit (digit : Nat) : Char :=
  if digit < 10 then Char.ofNat (48 + digit) else Char.ofNat (87 + digit)

/-- Lower-case hex, as `Display` prints it. -/
def toHex (hash : Hash) : String :=
  String.ofList (hash.asBytes.flatMap (fun byte =>
    [hexDigit (byte.toNat / 16), hexDigit (byte.toNat % 16)]))

end Hash

inductive ProllyError where
  | missingChunk (hash : Hash)
  | corrupt (context reason : String)
  | invalidParams (reason : String)
  | invalidRoot (reason : String)
  | keyTooLong (len max : Nat)
  | valueTooLong (len max : Nat)
  | tooManyEntries
  | paramsMismatch
deriving DecidableEq

/-- Chunks put so far, newest first. -/
abbrev Store := List Bytes

section

variable (address : Bytes → Hash)

/-- `ChunkStore::put`: the store keeps the chunk and answers its address. -/
def put (store : Store) (chunk : Bytes) : Hash × Store :=
  (address chunk, chunk :: store)

/-- `ChunkStore::get`. -/
def Store.get (store : Store) (hash : Hash) : Option Bytes :=
  store.find? (fun chunk => address chunk = hash)

/-- No two different chunks share an address. -/
def CollisionFree (chunks : List Bytes) : Prop :=
  ∀ left ∈ chunks, ∀ right ∈ chunks, address left = address right → left = right

instance (chunks : List Bytes) : Decidable (CollisionFree address chunks) :=
  inferInstanceAs (Decidable (∀ left ∈ chunks, ∀ right ∈ chunks,
    address left = address right → left = right))

variable {address}

theorem CollisionFree.subset {smaller larger : List Bytes}
    (free : CollisionFree address larger) (sub : smaller ⊆ larger) :
    CollisionFree address smaller := by
  intro left leftMember right rightMember
  exact free left (sub leftMember) right (sub rightMember)

theorem Store.get_of_mem {store : Store} (free : CollisionFree address store)
    {chunk : Bytes} (member : chunk ∈ store) :
    store.get address (address chunk) = some chunk := by
  cases found : store.get address (address chunk) with
  | none =>
      have missing := List.find?_eq_none.mp found chunk member
      simp at missing
  | some other =>
      have same := List.find?_some found
      have stored := List.mem_of_find?_eq_some found
      rw [free other stored chunk member (by simpa using same)]

end

end Acetone.Prolly

import Acetone.Lib.ByteString
import Acetone.Lib.Loop
import Acetone.Lib.Outcome

/-!
# Git deltas

The copy and insert stream in which a packed object is stored against another.
The encoder matches blocks of the target against blocks of the base greedily;
what it produces is never trusted but applied again before it is written.
-/

namespace Acetone.Store

open Acetone.Lib

def maxCopy : Nat := 0x10000

def blockSize : Nat := 16

/-- How many positions of the base are tried for one block. -/
def maxCandidates : Nat := 64

/-- Seven bits a byte, least significant first; a `usize` has ten groups. -/
def sizeGroups : Nat → Nat → Bytes
  | 0, _ => []
  | groups + 1, size =>
      if size < 128 then [UInt8.ofNat size]
      else UInt8.ofNat (size % 128 + 128) :: sizeGroups groups (size / 128)

def pushSize (size : Nat) : Bytes := sizeGroups 10 size

/-- One copy instruction: a bit for every non-zero byte of offset and
length. -/
def pushCopy (offset len : Nat) : Bytes :=
  let size := if len = maxCopy then 0 else len
  let parts := (List.range 4).map (fun k => offset / 256 ^ k % 256) ++
    (List.range 3).map (fun k => size / 256 ^ k % 256)
  let command := 128 +
    (parts.zipIdx.map fun (part, k) => if part = 0 then 0 else 2 ^ k).sum
  UInt8.ofNat command :: (parts.filter (· ≠ 0)).map UInt8.ofNat

def pushCopies : Nat → Nat → Nat → Bytes
  | 0, _, _ => []
  | rounds + 1, offset, len =>
      if len = 0 then []
      else
        let take := min len maxCopy
        pushCopy offset take ++ pushCopies rounds (offset + take) (len - take)

/-- Pending literals, at most 127 an instruction. -/
def pushInserts (literals : Bytes) : Bytes :=
  (literals.toChunks 127).flatMap fun chunk => UInt8.ofNat chunk.length :: chunk

/-- A base whose positions do not fit the index is never used. -/
def baseTooLarge (len : Nat) : Bool := 2 ^ 32 - 1 < len

/-- FNV-1a. -/
def blockHash (bytes : Bytes) : UInt64 :=
  bytes.foldl (fun hash byte => (hash ^^^ byte.toUInt64) * 0x100000001b3) 0xcbf29ce484222325

/-- The block-aligned positions of the base whose block has this hash. -/
def indexed (base : Bytes) (hash : UInt64) : List Nat :=
  ((List.range (base.length / blockSize)).map (blockSize * ·)).filter fun position =>
    blockHash ((base.drop position).take blockSize) = hash

/-- How far two strings agree. -/
def commonLength : Bytes → Bytes → Nat
  | left :: lefts, right :: rights =>
      if left = right then commonLength lefts rights + 1 else 0
  | _, _ => 0

/-- The longest match of the rest of the target, the first of several. -/
def bestMatch (base rest : Bytes) : Option (Nat × Nat) :=
  if rest.length < blockSize then none
  else
    let block := rest.take blockSize
    ((indexed base (blockHash block)).take maxCandidates).foldl (fun best candidate =>
      if (base.drop candidate).take blockSize ≠ block then best
      else
        let len := commonLength (base.drop candidate) rest
        if best.all fun found => decide (found.2 < len) then some (candidate, len) else best)
      none

/-- The rest of the target as instructions, with the literals still pending. -/
def encodeRest (base : Bytes) : Nat → Bytes → Bytes → Bytes
  | 0, literals, _ => pushInserts literals
  | rounds + 1, literals, rest =>
      match rest with
      | [] => pushInserts literals
      | byte :: others =>
          match bestMatch base rest with
          | some (candidate, len) =>
              let back := commonLength (base.take candidate).reverse literals.reverse
              pushInserts (literals.take (literals.length - back)) ++
                pushCopies (len + back) (candidate - back) (len + back) ++
                encodeRest base rounds [] (rest.drop len)
          | none => encodeRest base rounds (literals ++ [byte]) others

def encodeDelta (base target : Bytes) : Option Bytes :=
  if baseTooLarge base.length then none
  else some (pushSize base.length ++ pushSize target.length ++
    encodeRest base target.length [] target)

def take1 : Bytes → Except String (UInt8 × Bytes)
  | [] => .error "truncated delta"
  | byte :: rest => .ok (byte, rest)

/-- The groups of a size from the given shift on; at most six are read. -/
def readGroups : Nat → Nat → Bytes → Except String (Nat × Bytes)
  | 0, _, _ => .error "delta size varint too long"
  | groups + 1, shift, delta => do
      let (byte, rest) ← take1 delta
      let part := byte.toNat % 128 * 2 ^ shift
      if byte.toNat < 128 then .ok (part, rest)
      else
        let (size, rest) ← readGroups groups (shift + 7) rest
        .ok (part + size, rest)

def readSize (delta : Bytes) : Except String (Nat × Bytes) := readGroups 6 0 delta

def readOperand (command : Nat) (bit : Nat) : Nat → Nat → Bytes → Except String (Nat × Bytes)
  | 0, _, delta => .ok (0, delta)
  | count + 1, k, delta =>
      if command.testBit (bit + k) then do
        let (byte, rest) ← take1 delta
        let (value, rest) ← readOperand command bit count (k + 1) rest
        .ok (byte.toNat * 256 ^ k + value, rest)
      else readOperand command bit count (k + 1) delta

def applyInstruction (base : Bytes) (command : UInt8) (delta : Bytes) :
    Except String (Bytes × Bytes) :=
  if 128 ≤ command.toNat then do
    let (offset, rest) ← readOperand command.toNat 0 4 0 delta
    let (size, rest) ← readOperand command.toNat 4 3 0 rest
    let size := if size = 0 then maxCopy else size
    if base.length < offset + size then .error "delta copy out of bounds"
    else .ok ((base.drop offset).take size, rest)
  else if command ≠ 0 then
    if delta.length < command.toNat then .error "truncated delta insert"
    else .ok (delta.take command.toNat, delta.drop command.toNat)
  else .error "delta opcode 0 is reserved"

/-- Every instruction takes at least the command byte off the delta. -/
def applyRest (base : Bytes) : Nat → Bytes → Bytes → Except String Bytes
  | _, output, [] => .ok output
  | 0, _, _ :: _ => .error "truncated delta"
  | rounds + 1, output, command :: delta => do
      let (appended, rest) ← applyInstruction base command delta
      applyRest base rounds (output ++ appended) rest

def applyDelta (base delta : Bytes) : Except String Bytes := do
  let (baseSize, delta) ← readSize delta
  if baseSize ≠ base.length then
    .error s!"delta base size {baseSize} != {base.length}"
  else
    let (targetSize, delta) ← readSize delta
    let output ← applyRest base delta.length [] delta
    if output.length ≠ targetSize then
      .error s!"delta produced {output.length} bytes, expected {targetSize}"
    else .ok output

end Acetone.Store

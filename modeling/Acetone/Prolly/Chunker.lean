import Acetone.Lib.Segmentation
import Acetone.Prolly.Node

/-!
# Content-defined chunking

The boundary decision is made once per entry.  It is a function of the bytes
fed since the last boundary: a rolling state over them, their number, and the
number of entries.
-/

namespace Acetone.Prolly

open Acetone.Lib

/-- Format ceiling on `maxBytes`. -/
def maxChunkMaxBytes : Nat := 2 ^ 20

/-- Chunking parameters; a value in existence is valid. -/
structure ChunkParams where
  minBytes : Nat
  maskBits : Nat
  maxBytes : Nat
  minPositive : 0 < minBytes
  minLeMax : minBytes ≤ maxBytes
  maxInFormat : maxBytes ≤ maxChunkMaxBytes
  maskInWord : maskBits < 64
deriving DecidableEq

namespace ChunkParams

def new (minBytes maskBits maxBytes : Nat) : Except ProllyError ChunkParams :=
  if minPositive : minBytes = 0 then
    .error (.invalidParams "min_bytes must be at least 1")
  else if minLeMax : minBytes > maxBytes then
    .error (.invalidParams
      s!"min_bytes {minBytes} exceeds max_bytes {maxBytes}")
  else if maxInFormat : maxBytes > maxChunkMaxBytes then
    .error (.invalidParams
      s!"max_bytes {maxBytes} exceeds the format maximum {maxChunkMaxBytes}")
  else if maskInWord : maskBits ≥ 64 then
    .error (.invalidParams s!"mask_bits {maskBits} must be below 64")
  else
    .ok ⟨minBytes, maskBits, maxBytes, by omega, by omega, by omega, by omega⟩

def mask (params : ChunkParams) : UInt64 :=
  UInt64.ofNat (2 ^ params.maskBits - 1)

end ChunkParams

/-- A rolling hash over the bytes of a chunk, together with its boundary test
against the length of the entry just read. -/
structure Rolling where
  State : Type
  start : State
  roll : State → UInt8 → State
  below : State → Nat → Bool

/-- The slot of the gear table for a byte, drawn by splitmix64 from a fixed
seed. -/
def gearSlot (byte : UInt8) : UInt64 :=
  let state := 0x9ae16a3b2f90404f +
    (UInt64.ofNat (byte.toNat + 1)) * 0x9e3779b97f4a7c15
  let z := (state ^^^ (state >>> 30)) * 0xbf58476d1ce4e5b9
  let z := (z ^^^ (z >>> 27)) * 0x94d049bb133111eb
  z ^^^ (z >>> 31)

def gear (params : ChunkParams) : Rolling where
  State := UInt64
  start := 0
  roll hash byte := (hash <<< 1) + gearSlot byte
  below hash length := (hash &&& params.mask).toNat < length

structure Chunker (rolling : Rolling) where
  params : ChunkParams
  hash : rolling.State
  len : Nat
  entries : Nat

namespace Chunker

variable {rolling : Rolling}

def new (params : ChunkParams) : Chunker rolling :=
  ⟨params, rolling.start, 0, 0⟩

def reset (chunker : Chunker rolling) : Chunker rolling :=
  ⟨chunker.params, rolling.start, 0, 0⟩

/-- Feed one serialised entry; the answer is whether the chunk ends after
it. -/
def feedEntry (chunker : Chunker rolling) (bytes : Bytes) :
    Bool × Chunker rolling :=
  let hash := bytes.foldl rolling.roll chunker.hash
  let len := chunker.len + bytes.length
  let entries := chunker.entries + 1
  let fed := ⟨chunker.params, hash, len, entries⟩
  if entries < 2 then
    (false, fed)
  else if len ≥ chunker.params.maxBytes then
    (true, fed)
  else
    (len ≥ chunker.params.minBytes && rolling.below hash bytes.length, fed)

end Chunker

end Acetone.Prolly

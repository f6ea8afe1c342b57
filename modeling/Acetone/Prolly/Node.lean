import Acetone.Prolly.Store

/-!
# Tree nodes as chunks

A node is a level tag, an entry count and its entries, each framed by its
lengths.  Reading a node checks everything the tree says about it: the level,
strictly ascending keys, the last key its parent declares and the lower bound
its position implies.
-/

namespace Acetone.Prolly

open Acetone.Lib

def maxKeyLen : Nat := 2 ^ 32 - 1
def maxValueLen : Nat := 2 ^ 32 - 1

/-- A child's content address and the largest key beneath it. -/
structure NodeRef where
  lastKey : Bytes
  hash : Hash
deriving DecidableEq

inductive Node where
  | leaf (entries : List (Bytes × Bytes))
  | inner (refs : List NodeRef)
deriving DecidableEq

namespace Node

def lastKey : Node → Option Bytes
  | .leaf entries => entries.getLast?.map Prod.fst
  | .inner refs => refs.getLast?.map NodeRef.lastKey

def firstKey : Node → Option Bytes
  | .leaf entries => entries.head?.map Prod.fst
  | .inner refs => refs.head?.map NodeRef.lastKey

end Node

/-- `corrupt` of the node decoder. -/
def corruptNode (reason : String) : ProllyError :=
  .corrupt "tree node" reason

def take (count : Nat) (input : Bytes) :
    Except ProllyError (Bytes × Bytes) :=
  if input.length < count then
    .error (corruptNode "truncated node")
  else
    .ok (input.take count, input.drop count)

def takeU8 (input : Bytes) : Except ProllyError (Nat × Bytes) := do
  let (bytes, rest) ← take 1 input
  .ok (ofBeBytes bytes, rest)

def takeU32 (input : Bytes) : Except ProllyError (Nat × Bytes) := do
  let (bytes, rest) ← take 4 input
  .ok (ofBeBytes bytes, rest)

/-- The loop over `count` leaf entries; `prev` is the key read last. -/
def decodeLeafEntries (count : Nat) (prev : Option Bytes) (input : Bytes) :
    Except ProllyError (List (Bytes × Bytes) × Bytes) :=
  match count with
  | 0 => .ok ([], input)
  | count + 1 => do
      let (klen, input) ← takeU32 input
      let (key, input) ← take klen input
      let (vlen, input) ← takeU32 input
      let (value, input) ← take vlen input
      if prev.any (fun prev => prev ≥ key) then
        .error (corruptNode "leaf keys not strictly ascending")
      else do
        let (entries, input) ← decodeLeafEntries count (some key) input
        .ok ((key, value) :: entries, input)

def decodeRefs (count : Nat) (prev : Option Bytes) (input : Bytes) :
    Except ProllyError (List NodeRef × Bytes) :=
  match count with
  | 0 => .ok ([], input)
  | count + 1 => do
      let (klen, input) ← takeU32 input
      let (lastKey, input) ← take klen input
      let (hlen, input) ← takeU8 input
      let (hashBytes, input) ← take hlen input
      match Hash.fromBytes hashBytes with
      | none => .error (corruptNode "bad child hash")
      | some hash =>
          if prev.any (fun prev => prev ≥ lastKey) then
            .error (corruptNode "inner keys not strictly ascending")
          else do
            let (refs, input) ← decodeRefs count (some lastKey) input
            .ok (⟨lastKey, hash⟩ :: refs, input)

/-- Nothing may follow the declared entries. -/
def finishNode (node : Node) (input : Bytes) : Except ProllyError Node :=
  if input ≠ [] then
    .error (corruptNode "trailing bytes after declared entries")
  else
    .ok node

def decodeNode (data : Bytes) (expectLevel : Nat) :
    Except ProllyError Node := do
  let (level, input) ← takeU8 data
  if level ≠ expectLevel then
    .error (corruptNode
      s!"level tag {level} where the tree requires level {expectLevel}")
  else do
    let (count, input) ← takeU32 input
    if level = 0 then do
      let (entries, input) ← decodeLeafEntries count none input
      finishNode (.leaf entries) input
    else if count = 0 then
      .error (corruptNode "empty inner node")
    else do
      let (refs, input) ← decodeRefs count none input
      finishNode (.inner refs) input

/-- Whether a node ends at the key its parent declares; nothing is declared
for a root. -/
def endsAt (node : Node) (expectLastKey : Option Bytes) : Bool :=
  match expectLastKey with
  | none => true
  | some want => node.lastKey = some want

/-- Whether a node's keys lie above the exclusive lower bound of its
position. -/
def liesAbove (node : Node) (minKeyExclusive : Option Bytes) : Bool :=
  match minKeyExclusive, node.firstKey with
  | some min, some first => min < first
  | _, _ => true

def readNode (address : Bytes → Hash) (store : Store) (hash : Hash)
    (expectLevel : Nat) (expectLastKey minKeyExclusive : Option Bytes) :
    Except ProllyError Node :=
  match store.get address hash with
  | none => .error (.missingChunk hash)
  | some data => do
      let node ← decodeNode data expectLevel
      let name := hash.toHex
      if ¬endsAt node expectLastKey then
        .error (corruptNode
          s!"chunk {name} does not end at the key its parent declares")
      else if ¬liesAbove node minKeyExclusive then
        .error (corruptNode
          s!"chunk {name} contains keys below its position in the tree")
      else
        .ok node

def encodeLeafEntry (key value : Bytes) : Except ProllyError Bytes :=
  if key.length > maxKeyLen then
    .error (.keyTooLong key.length maxKeyLen)
  else if value.length > maxValueLen then
    .error (.valueTooLong value.length maxValueLen)
  else
    .ok (beBytes 4 key.length ++ key ++ beBytes 4 value.length ++ value)

/-- The width of a digest always fits its one-byte frame. -/
def encodeInnerEntry (lastKey : Bytes) (hash : Hash) :
    Except ProllyError Bytes :=
  if lastKey.length > maxKeyLen then
    .error (.keyTooLong lastKey.length maxKeyLen)
  else
    .ok (beBytes 4 lastKey.length ++ lastKey ++
      beBytes 1 hash.asBytes.length ++ hash.asBytes)

end Acetone.Prolly

import Acetone.Lib.SortedMap
import Acetone.Prolly.Chunker

/-!
# Construction, lookup and batched mutation

Sorted key/value entries are chunked into leaves, the references to the leaves
are chunked into inner nodes, and so on until one node is left.  A batch
descends only where its keys lead; untouched nodes and subtrees travel through
the rebuild as references.

The store is passed explicitly.  A function that may write returns the store
after its writes.
-/

namespace Acetone.Prolly

open Acetone.Lib

abbrev BatchOp := MapOp Bytes Bytes

def maxHeight : Nat := 64

/-- What the tree takes from outside: the content address of a chunk and the
rolling hash of the chunker. -/
structure Substrate where
  address : Bytes → Hash
  rolling : ChunkParams → Rolling

/-- A map's root: its address, its height and the parameters it was built
with. -/
structure Root where
  hash : Hash
  height : Nat
  params : ChunkParams
deriving DecidableEq

namespace Root

def new (hash : Hash) (height : Nat) (params : ChunkParams) :
    Except ProllyError Root :=
  if height = 0 ∨ height > maxHeight then
    .error (.invalidRoot s!"height {height} outside 1..={maxHeight}")
  else
    .ok ⟨hash, height, params⟩

def topLevel (root : Root) : Nat := root.height - 1

end Root

inductive Entry where
  | leaf (key value : Bytes)
  | inner (lastKey : Bytes) (hash : Hash)
deriving DecidableEq

def Entry.key : Entry → Bytes
  | .leaf key _ => key
  | .inner lastKey _ => lastKey

/-- An item of a level's input during a rebuild, in key order. -/
inductive Item where
  /-- An untouched old node of the current level. -/
  | old (node : NodeRef) (isFinal : Bool)
  /-- An untouched old subtree rooted above the current level. -/
  | subtree (node : NodeRef) (level : Nat) (isFinal : Bool)
  /-- Entries to chunk, with the old chunk they were derived from. -/
  | fresh (entries : List Entry) (base : Option Hash)
deriving DecidableEq

/-- An output of chunking a level. -/
inductive OutItem where
  | chunk (node : NodeRef)
  | subtree (node : NodeRef) (level : Nat) (isFinal : Bool)
deriving DecidableEq

structure OpenedInner where
  node : NodeRef
  isFinal : Bool
  children : List Hash
deriving DecidableEq

/-- The `(new chunk, predecessor)` pairs seen while rebuilding, when recording
is on. -/
abbrev Recorder := Option (List (Hash × Hash))

structure LevelBuilder (rolling : Rolling) where
  level : Nat
  chunker : Chunker rolling
  buf : Bytes
  count : Nat
  lastKey : Bytes
  out : List OutItem
  currentBase : Option Hash
  recorder : Recorder

namespace LevelBuilder

variable {rolling : Rolling}

def new (level : Nat) (params : ChunkParams) (recorder : Recorder) :
    LevelBuilder rolling :=
  ⟨level, .new params, [], 0, [], [], none, recorder⟩

def withBase (builder : LevelBuilder rolling) (base : Option Hash) :
    LevelBuilder rolling :=
  { builder with currentBase := base }

def passThrough (builder : LevelBuilder rolling) (item : OutItem) :
    LevelBuilder rolling :=
  { builder with out := builder.out ++ [item] }

def extend (builder : LevelBuilder rolling) (key bytes : Bytes)
    (chunker : Chunker rolling) : LevelBuilder rolling :=
  { builder with
    chunker := chunker
    buf := builder.buf ++ bytes
    count := builder.count + 1
    lastKey := key }

def atBoundary (builder : LevelBuilder rolling) : Bool := builder.count = 0

end LevelBuilder

def encodeEntry : Entry → Except ProllyError Bytes
  | .leaf key value => encodeLeafEntry key value
  | .inner lastKey hash => encodeInnerEntry lastKey hash

def record (recorder : Recorder) (base : Option Hash) (hash : Hash) : Recorder :=
  match recorder, base with
  | some pairs, some base =>
      if base ≠ hash then some (pairs ++ [(hash, base)]) else some pairs
  | recorder, _ => recorder

def nodeEntries : Node → List Entry
  | .leaf entries => entries.map (fun entry => .leaf entry.1 entry.2)
  | .inner refs => refs.map (fun ref => .inner ref.lastKey ref.hash)

section Build

variable (env : Substrate) {rolling : Rolling}

/-- Write the buffered chunk and start the next one. -/
def LevelBuilder.emit (builder : LevelBuilder rolling) (store : Store) :
    LevelBuilder rolling × Store :=
  let chunk := UInt8.ofNat builder.level :: beBytes 4 builder.count ++ builder.buf
  let (hash, store) := put env.address store chunk
  ({ builder with
      chunker := builder.chunker.reset
      buf := []
      count := 0
      lastKey := []
      out := builder.out ++ [.chunk ⟨builder.lastKey, hash⟩]
      recorder := record builder.recorder builder.currentBase hash },
    store)

def LevelBuilder.push (builder : LevelBuilder rolling) (entry : Entry)
    (store : Store) : Except ProllyError (LevelBuilder rolling × Store) := do
  let bytes ← encodeEntry entry
  if builder.count + 1 ≥ 2 ^ 32 then
    .error .tooManyEntries
  else
    let (ends, chunker) := builder.chunker.feedEntry bytes
    let pushed := builder.extend entry.key bytes chunker
    .ok (if ends then pushed.emit env store else (pushed, store))

def LevelBuilder.pushAll (builder : LevelBuilder rolling)
    (entries : List Entry) (store : Store) :
    Except ProllyError (LevelBuilder rolling × Store) :=
  match entries with
  | [] => .ok (builder, store)
  | entry :: entries => do
      let (builder, store) ← builder.push env entry store
      builder.pushAll entries store

/-- Re-queueing a node's children at the front of the queue is feeding them,
in order, before the rest of the queue; a child is last when it is its node's
last child and its node was last. -/
def feedRun (feed : NodeRef → Bool → Bool → LevelBuilder rolling → Store →
      Except ProllyError (LevelBuilder rolling × Store))
    (refs : List NodeRef) (isFinal isLast : Bool)
    (builder : LevelBuilder rolling) (store : Store) :
    Except ProllyError (LevelBuilder rolling × Store) :=
  match refs with
  | [] => .ok (builder, store)
  | ref :: refs => do
      let (builder, store) ←
        feed ref (isFinal && refs.isEmpty) (isLast && refs.isEmpty) builder store
      feedRun feed refs isFinal isLast builder store

/-- Feed an untouched node that lies `above` levels over the current one:
`Item::Old` at height zero, `Item::Subtree` above. -/
def feedNode (above : Nat) (node : NodeRef) (isFinal isLast : Bool)
    (builder : LevelBuilder rolling) (store : Store) :
    Except ProllyError (LevelBuilder rolling × Store) :=
  match above with
  | 0 =>
      if builder.atBoundary && (!isFinal || isLast) then
        .ok (builder.passThrough (.chunk node), store)
      else do
        let opened ← readNode env.address store node.hash builder.level
          (some node.lastKey) none
        (builder.withBase (some node.hash)).pushAll env (nodeEntries opened) store
  | above + 1 =>
      let subLevel := builder.level + (above + 1)
      if builder.atBoundary && (!isFinal || isLast) then
        .ok (builder.passThrough (.subtree node subLevel isFinal), store)
      else do
        match ← readNode env.address store node.hash subLevel
            (some node.lastKey) none with
        | .inner refs => feedRun (feedNode above) refs isFinal isLast builder store
        | .leaf _ => .error (corruptNode "leaf above level 0")

def feedItem (item : Item) (isLast : Bool) (builder : LevelBuilder rolling)
    (store : Store) : Except ProllyError (LevelBuilder rolling × Store) :=
  match item with
  | .fresh entries base => (builder.withBase base).pushAll env entries store
  | .old node isFinal => feedNode env 0 node isFinal isLast builder store
  | .subtree node level isFinal =>
      if level ≤ builder.level then
        .error (corruptNode "subtree at or below current level")
      else
        feedNode env (level - builder.level) node isFinal isLast builder store

def feedItems (items : List Item) (builder : LevelBuilder rolling)
    (store : Store) : Except ProllyError (LevelBuilder rolling × Store) :=
  match items with
  | [] => .ok (builder, store)
  | item :: queue => do
      let (builder, store) ← feedItem env item queue.isEmpty builder store
      feedItems queue builder store

def chunkLevel (store : Store) (level : Nat) (params : ChunkParams)
    (items : List Item) (recorder : Recorder) :
    Except ProllyError (List OutItem × Recorder × Store) := do
  let (builder, store) ← feedItems env items
    (.new level params recorder : LevelBuilder (env.rolling params)) store
  let (builder, store) :=
    if builder.count > 0 then builder.emit env store else (builder, store)
  let (builder, store) :=
    if builder.out.isEmpty && level = 0 then builder.emit env store
    else (builder, store)
  .ok (builder.out, builder.recorder, store)

end Build

/-- Whether the outputs start with chunks of exactly these addresses. -/
def startsWithRun : List Hash → List OutItem → Bool
  | [], _ => true
  | hash :: hashes, .chunk node :: outputs =>
      node.hash = hash && startsWithRun hashes outputs
  | _ :: _, _ => false

/-- Look for the opened parent whose children the outputs start with; answer
the length of the run and the parents still to consider. -/
def matchParent (opened : List OpenedInner) (outputs : List OutItem)
    (ref : NodeRef) : Option Nat × List OpenedInner :=
  match opened with
  | [] => (none, [])
  | parent :: others =>
      if parent.children.head? = some ref.hash &&
          startsWithRun parent.children outputs then
        (some parent.children.length, parent :: others)
      else if parent.node.lastKey ≤ ref.lastKey then
        matchParent others outputs ref
      else
        (none, parent :: others)

def flush (fresh : List Entry) : List Item :=
  if fresh.isEmpty then [] else [.fresh fresh none]

/-- The loop of `promote`; `skip` outputs belong to a parent already
re-attached. -/
def promoteFrom (nextLevel : Nat) (outputs : List OutItem) (skip : Nat)
    (opened : List OpenedInner) (fresh : List Entry) : List Item :=
  match outputs, skip with
  | [], _ => flush fresh
  | _ :: rest, skip + 1 => promoteFrom nextLevel rest skip opened fresh
  | .subtree node level isFinal :: rest, 0 =>
      flush fresh ++
        (if level = nextLevel then .old node isFinal
          else .subtree node level isFinal) ::
        promoteFrom nextLevel rest 0 opened []
  | .chunk ref :: rest, 0 =>
      match matchParent opened (.chunk ref :: rest) ref with
      | (some run, parent :: others) =>
          flush fresh ++ .old parent.node parent.isFinal ::
            promoteFrom nextLevel rest (run - 1) others []
      | (_, others) =>
          promoteFrom nextLevel rest 0 others
            (fresh ++ [.inner ref.lastKey ref.hash])

/-- Turn one level's outputs into the next level's item stream, re-forming
opened parents verbatim where their exact child run survived. -/
def promote (outputs : List OutItem) (opened : List OpenedInner)
    (nextLevel : Nat) : List Item :=
  promoteFrom nextLevel outputs 0 opened []

def openedAt (level : Nat) (opened : List (Nat × OpenedInner)) :
    List OpenedInner :=
  (opened.filter (fun entry => entry.1 = level)).map Prod.snd

section Tree

variable (env : Substrate)

/-- Chunk level after level until a single root remains; `remaining` counts
the levels the format still allows. -/
def buildFrom (remaining level : Nat) (store : Store) (params : ChunkParams)
    (items : List Item) (opened : List (Nat × OpenedInner))
    (recorder : Recorder) : Except ProllyError (Root × Recorder × Store) :=
  match remaining with
  | 0 => .error (.invalidRoot
      s!"tree exceeds the maximum height of {maxHeight}")
  | remaining + 1 => do
      let (outputs, recorder, store) ←
        chunkLevel env store level params items recorder
      match outputs with
      | [.chunk ref] => .ok (⟨ref.hash, level + 1, params⟩, recorder, store)
      | [.subtree node subLevel _] =>
          .ok (⟨node.hash, subLevel + 1, params⟩, recorder, store)
      | outputs =>
          if level + 1 ≥ maxHeight then
            .error (.invalidRoot
              s!"tree exceeds the maximum height of {maxHeight}")
          else
            buildFrom remaining (level + 1) store params
              (promote outputs (openedAt (level + 1) opened) (level + 1))
              opened recorder

def buildLevels (store : Store) (params : ChunkParams) (items : List Item)
    (opened : List (Nat × OpenedInner)) (recorder : Recorder) :
    Except ProllyError (Root × Recorder × Store) :=
  buildFrom env maxHeight 0 store params items opened recorder

/-- Create a map from unsorted pairs; the last pair of a key wins. -/
def bulkLoad (store : Store) (params : ChunkParams)
    (entries : List (Bytes × Bytes)) : Except ProllyError (Root × Store) := do
  let deduped := sortDedupe Prod.fst entries
  let leaves := deduped.map (fun entry => Entry.leaf entry.1 entry.2)
  let (root, _, store) ←
    buildLevels env store params [.fresh leaves none] [] none
  .ok (root, store)

def empty (store : Store) (params : ChunkParams) :
    Except ProllyError (Root × Store) :=
  bulkLoad env store params []

def applyOp : BatchOp → List Entry
  | .put key value => [.leaf key value]
  | .delete _ => []

/-- One old entry against the ops; `rest` continues with the old entries after
it. -/
def mergeEntry (key value : Bytes) (rest : List BatchOp → List Entry) :
    List BatchOp → List Entry
  | [] => .leaf key value :: rest []
  | op :: ops =>
      if key < op.key then .leaf key value :: rest (op :: ops)
      else if key = op.key then applyOp op ++ rest ops
      else applyOp op ++ mergeEntry key value rest ops

/-- Merge a sorted leaf-entry list with a sorted, deduplicated op slice. -/
def mergeOps : List (Bytes × Bytes) → List BatchOp → List Entry
  | [], ops => ops.flatMap applyOp
  | (key, value) :: old, ops => mergeEntry key value (mergeOps old) ops

def untouched (childLevel : Nat) (child : NodeRef) (isFinal : Bool) : Item :=
  if childLevel = 0 then .old child isFinal
  else .subtree child childLevel isFinal

/-- The loop over a node's children: each takes the ops up to its last key,
the last child takes all that remain. -/
def descendRefs (visit : NodeRef → Option Bytes → Bool → List BatchOp →
      Except ProllyError (List Item × List (Nat × OpenedInner)))
    (childLevel : Nat) (isFinal : Bool) (refs : List NodeRef)
    (lower : Option Bytes) (ops : List BatchOp) :
    Except ProllyError (List Item × List (Nat × OpenedInner)) :=
  match refs with
  | [] => .ok ([], [])
  | child :: refs => do
      let isLast := refs.isEmpty
      let mine :=
        if isLast then ops
        else ops.takeWhile (fun op => op.key ≤ child.lastKey)
      let childFinal := isFinal && isLast
      let (items, opened) ←
        if mine.isEmpty then
          .ok ([untouched childLevel child childFinal], [])
        else
          visit child lower childFinal mine
      let (others, moreOpened) ← descendRefs visit childLevel isFinal refs
        (some child.lastKey) (ops.drop mine.length)
      .ok (items ++ others, opened ++ moreOpened)

/-- Visit the node at `hash`: fresh entries where ops landed, untouched
references elsewhere. -/
def descend (store : Store) (level : Nat) (hash : Hash)
    (expectLastKey minKeyExclusive : Option Bytes) (isFinal : Bool)
    (ops : List BatchOp) :
    Except ProllyError (List Item × List (Nat × OpenedInner)) :=
  match level with
  | 0 => do
      match ← readNode env.address store hash 0 expectLastKey
          minKeyExclusive with
      | .leaf entries => .ok ([.fresh (mergeOps entries ops) (some hash)], [])
      | .inner _ => .error (corruptNode "inner node at level 0")
  | childLevel + 1 => do
      match ← readNode env.address store hash (childLevel + 1) expectLastKey
          minKeyExclusive with
      | .leaf entries => .ok ([.fresh (mergeOps entries ops) (some hash)], [])
      | .inner refs => do
          let lastKey := (refs.getLast?.map NodeRef.lastKey).getD []
          let here : OpenedInner :=
            ⟨⟨lastKey, hash⟩, isFinal, refs.map NodeRef.hash⟩
          let visit := fun (child : NodeRef) lower childFinal mine =>
            descend store childLevel child.hash (some child.lastKey) lower
              childFinal mine
          let (items, opened) ← descendRefs visit childLevel isFinal refs
            minKeyExclusive ops
          .ok (items, (childLevel + 1, here) :: opened)

def applyBatchInner (store : Store) (root : Root) (ops : List BatchOp)
    (recorder : Recorder) : Except ProllyError (Root × Recorder × Store) := do
  let ops := sortDedupe MapOp.key ops
  if ops.isEmpty then
    .ok (root, recorder, store)
  else do
    let (items, opened) ←
      descend env store root.topLevel root.hash none none true ops
    buildLevels env store root.params items opened recorder

/-- Apply a batch of puts and deletes; the last op of a key wins. -/
def applyBatch (store : Store) (root : Root) (ops : List BatchOp) :
    Except ProllyError (Root × Store) := do
  let (root, _, store) ← applyBatchInner env store root ops none
  .ok (root, store)

/-- The walk of `get` from a node at `level`.  Keys ascend inside a node, so
the partition point is the end of the run below `key`, and the binary search
of a leaf finds what a linear one does. -/
def getFrom (store : Store) (key : Bytes) (level : Nat) (hash : Hash)
    (expectLastKey minKeyExclusive : Option Bytes) :
    Except ProllyError (Option Bytes) :=
  match level with
  | 0 => do
      match ← readNode env.address store hash 0 expectLastKey
          minKeyExclusive with
      | .leaf entries => .ok (lookup key entries)
      | .inner _ => .error (corruptNode "inner node at level 0")
  | childLevel + 1 => do
      match ← readNode env.address store hash (childLevel + 1) expectLastKey
          minKeyExclusive with
      | .leaf entries => .ok (lookup key entries)
      | .inner refs =>
          let before := refs.takeWhile (fun ref => ref.lastKey < key)
          match refs.drop before.length with
          | [] => .ok none
          | child :: _ =>
              getFrom store key childLevel child.hash (some child.lastKey)
                ((before.getLast?.map NodeRef.lastKey).or minKeyExclusive)

def get (store : Store) (root : Root) (key : Bytes) :
    Except ProllyError (Option Bytes) :=
  getFrom env store key root.topLevel root.hash none none

end Tree

end Acetone.Prolly

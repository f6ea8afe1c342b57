import Acetone.Lib.Iteration
import Acetone.Prolly.Tree

/-!
# Ordered range scans

Both directions share one iterator: the scan seeks the boundary leaf on its
entry side, then steps leaf by leaf and checks the exit bound as it goes.
`Scan.turn` is one turn of the loop in `next`.
-/

namespace Acetone.Prolly

open Acetone.Lib

inductive Direction where
  | forward
  | reverse
deriving DecidableEq

/-- `std::ops::Bound` over keys. -/
inductive Bound where
  | included (key : Bytes)
  | excluded (key : Bytes)
  | unbounded
deriving DecidableEq

/-- One level of the descent path: the children of an inner node and the index
of the child the scan is inside. -/
structure Frame where
  refs : List NodeRef
  idx : Nat
  childLevel : Nat

/-- A scan under way; the innermost frame comes first. -/
structure Scan where
  stack : List Frame
  leaf : List (Bytes × Bytes)
  pos : Nat
  exit : Bound
  dir : Direction
  prevKey : Option Bytes
  done : Bool

namespace Scan

def start (exit : Bound) (dir : Direction) : Scan :=
  ⟨[], [], 0, exit, dir, none, false⟩

/-- Keys ascend inside a node, so a partition point is the length of the
longest prefix below it. -/
def partitionPoint {α : Type} (before : α → Bool) (items : List α) : Nat :=
  (items.takeWhile before).length

/-- The child on the entry side that can hold entries in range; none when
every key lies before the start bound. -/
def entryChild (refs : List NodeRef) (entryBound : Bound) (dir : Direction) :
    Option Nat :=
  let split :=
    match entryBound, dir with
    | .included key, _ => partitionPoint (fun ref => ref.lastKey < key) refs
    | .excluded key, .forward =>
        partitionPoint (fun ref => ref.lastKey ≤ key) refs
    | .excluded key, .reverse =>
        partitionPoint (fun ref => ref.lastKey < key) refs
    | .unbounded, .forward => 0
    | .unbounded, .reverse => refs.length - 1
  match dir with
  | .forward => if split = refs.length then none else some split
  | .reverse => some (min split (refs.length - 1))

def entryPos (entries : List (Bytes × Bytes)) (entryBound : Bound)
    (dir : Direction) : Nat :=
  match dir, entryBound with
  | .forward, .included key => partitionPoint (fun entry => entry.1 < key) entries
  | .forward, .excluded key => partitionPoint (fun entry => entry.1 ≤ key) entries
  | .forward, .unbounded => 0
  | .reverse, .included key => partitionPoint (fun entry => entry.1 ≤ key) entries
  | .reverse, .excluded key => partitionPoint (fun entry => entry.1 < key) entries
  | .reverse, .unbounded => entries.length

def withinExit (scan : Scan) (key : Bytes) : Bool :=
  match scan.exit, scan.dir with
  | .included limit, .forward => key ≤ limit
  | .excluded limit, .forward => key < limit
  | .included limit, .reverse => limit ≤ key
  | .excluded limit, .reverse => limit < key
  | .unbounded, _ => true

/-- Keys must move strictly in the scan direction. -/
def checkMonotonic (scan : Scan) (key : Bytes) : Except ProllyError Unit :=
  match scan.prevKey with
  | none => .ok ()
  | some prev =>
      let ordered : Bool :=
        match scan.dir with
        | .forward => prev < key
        | .reverse => key < prev
      if ordered then .ok ()
      else .error (.corrupt "range scan" "keys not strictly ordered across leaves")

/-- The next entry within the current leaf, if any. -/
def takeFromLeaf (scan : Scan) : Option ((Bytes × Bytes) × Scan) :=
  match scan.dir with
  | .forward =>
      (scan.leaf[scan.pos]?).map fun entry =>
        (entry, { scan with pos := scan.pos + 1 })
  | .reverse =>
      match scan.pos with
      | 0 => none
      | pos + 1 => (scan.leaf[pos]?).map fun entry => (entry, { scan with pos := pos })

def stepFrames (dir : Direction) : List Frame → List Frame
  | [] => []
  | frame :: stack =>
      match dir with
      | .forward =>
          if frame.idx + 1 < frame.refs.length then
            { frame with idx := frame.idx + 1 } :: stack
          else stepFrames dir stack
      | .reverse =>
          if frame.idx > 0 then { frame with idx := frame.idx - 1 } :: stack
          else stepFrames dir stack

def nearChild (refs : List NodeRef) : Direction → Nat
  | .forward => 0
  | .reverse => refs.length - 1

def inside (scan : Scan) (refs : List NodeRef) (idx childLevel : Nat) : Scan :=
  { scan with stack := ⟨refs, idx, childLevel⟩ :: scan.stack }

def atEntry (scan : Scan) (entries : List (Bytes × Bytes)) (entryBound : Bound) :
    Scan :=
  { scan with pos := entryPos entries entryBound scan.dir, leaf := entries }

def atNearEnd (scan : Scan) (entries : List (Bytes × Bytes)) : Scan :=
  { scan with
    pos := match scan.dir with
      | .forward => 0
      | .reverse => entries.length
    leaf := entries }

end Scan

section

variable (env : Substrate) (store : Store)

def seekFrom (entryBound : Bound) (level : Nat) (hash : Hash)
    (expectLastKey : Option Bytes) (scan : Scan) : Except ProllyError Scan :=
  match level with
  | 0 => do
      match ← readNode env.address store hash 0 expectLastKey none with
      | .leaf entries => .ok (scan.atEntry entries entryBound)
      | .inner _ => .error (corruptNode "inner node at level 0")
  | childLevel + 1 => do
      match ← readNode env.address store hash (childLevel + 1) expectLastKey
          none with
      | .leaf entries => .ok (scan.atEntry entries entryBound)
      | .inner refs =>
          match Scan.entryChild refs entryBound scan.dir with
          | none => .ok { scan with done := true }
          | some idx =>
              match refs[idx]? with
              | some child =>
                  seekFrom entryBound childLevel child.hash (some child.lastKey)
                    (scan.inside refs idx childLevel)
              | none => .error (corruptNode "empty inner node")

/-- Descend to the boundary leaf on the scan's entry side. -/
def seek (root : Root) (entryBound exit : Bound) (dir : Direction) :
    Except ProllyError Scan :=
  seekFrom env store entryBound root.topLevel root.hash none (.start exit dir)

def scan (root : Root) (low high : Bound) : Except ProllyError Scan :=
  seek env store root low high .forward

/-- The same entries in descending key order. -/
def scanRev (root : Root) (low high : Bound) : Except ProllyError Scan :=
  seek env store root high low .reverse

/-- Descend to a leaf, entering each inner node on the near side. -/
def enterLeaf (level : Nat) (hash : Hash) (expectLastKey : Bytes) (scan : Scan) :
    Except ProllyError Scan :=
  match level with
  | 0 => do
      match ← readNode env.address store hash 0 (some expectLastKey) none with
      | .leaf entries => .ok (scan.atNearEnd entries)
      | .inner _ => .error (corruptNode "inner node at level 0")
  | childLevel + 1 => do
      match ← readNode env.address store hash (childLevel + 1)
          (some expectLastKey) none with
      | .leaf entries => .ok (scan.atNearEnd entries)
      | .inner refs =>
          let idx := Scan.nearChild refs scan.dir
          match refs[idx]? with
          | some child =>
              enterLeaf childLevel child.hash child.lastKey
                (scan.inside refs idx childLevel)
          | none => .error (corruptNode "empty inner node")

/-- Move to the next leaf; the answer is false when the tree is exhausted. -/
def advanceLeaf (scan : Scan) : Except ProllyError (Bool × Scan) :=
  match Scan.stepFrames scan.dir scan.stack with
  | [] => .ok (false, { scan with stack := [] })
  | frame :: stack =>
      match frame.refs[frame.idx]? with
      | some child => do
          let scan ← enterLeaf env store frame.childLevel child.hash child.lastKey
            { scan with stack := frame :: stack }
          .ok (true, scan)
      | none => .error (corruptNode "empty inner node")

/-- One turn of the loop in `next`. -/
def Scan.turn (scan : Scan) : Turn Scan (Bytes × Bytes) ProllyError :=
  if scan.done then .stop scan
  else
    match scan.takeFromLeaf with
    | some (entry, scan) =>
        if ¬ scan.withinExit entry.1 then .stop { scan with done := true }
        else
          match scan.checkMonotonic entry.1 with
          | .error error => .fail error
          | .ok () => .yield entry { scan with prevKey := some entry.1 }
    | none =>
        match advanceLeaf env store scan with
        | .ok (true, scan) => .again scan
        | .ok (false, scan) => .stop { scan with done := true }
        | .error error => .fail error

end

end Acetone.Prolly

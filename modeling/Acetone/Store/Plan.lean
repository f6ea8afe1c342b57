import Acetone.Store.Pack

/-!
# The emission plan

In which order the objects of a pack are written and against which base each
of them may be stored.  The bases come from hints that nobody vouches for:
cycles and long chains are broken by dropping a base.
-/

namespace Acetone.Store

open Acetone.Lib

/-- A chain is broken with a whole object after this many links. -/
def maxChain : Nat := 32

variable {Oid : Type} [LinearOrder Oid]

/-- The membership test of the walks. -/
def listed (oid : Oid) (oids : List Oid) : Bool := oid ∈ oids

abbrev Bases (Oid : Type) [LinearOrder Oid] := SortedMap Oid Oid

structure Plan (Oid : Type) [LinearOrder Oid] where
  order : List Oid
  base : Bases Oid
deriving DecidableEq

namespace Plan

def provisional (objects : List Oid) (hints : Bases Oid) : Bases Oid :=
  objects.foldl (fun base oid =>
    match hints.get oid with
    | some hint => if hint ≠ oid ∧ hint ∈ objects then base.put oid hint else base
    | none => base) .empty

/-- One step along the base pointers.  The path holds the nodes coloured
since the start, the last one first; the result adds the node whose base
closes a cycle. -/
def chaseStep (base : Bases Oid) (done : List Oid) (state : List Oid × Oid) :
    (List Oid × Oid) ⊕ (List Oid × Option Oid) :=
  let (path, node) := state
  if node ∈ path then .inr (path, path.head?)
  else if node ∈ done then .inr (path, none)
  else
    match base.get node with
    | some next => .inl (node :: path, next)
    | none => .inr (node :: path, none)

def chase (base : Bases Oid) (done : List Oid) (rounds : Nat) (start : Oid) :
    List Oid × Option Oid :=
  (loop (chaseStep base done) rounds ([], start)).getD ([], none)

def breakCycles (objects : List Oid) (base : Bases Oid) : Bases Oid :=
  (objects.foldl (fun (done, base) start =>
    if start ∈ done then (done, base)
    else
      let (path, closing) := chase base done (objects.length + 1) start
      (path ++ done, match closing with
        | some last => base.delete last
        | none => base)) ([], base)).2

/-- One step down a chain whose depths are not known yet; the result is the
path, the depth below it and whether it ends in a root. -/
def descendStep (base : Bases Oid) (depth : SortedMap Oid Nat) (state : List Oid × Oid) :
    (List Oid × Oid) ⊕ (List Oid × Nat × Bool) :=
  let (path, node) := state
  match depth.get node with
  | some known => .inr (path, known, false)
  | none =>
      match base.get node with
      | some next => .inl (node :: path, next)
      | none => .inr (node :: path, 0, true)

def capNode (state : Bases Oid × SortedMap Oid Nat × Nat) (node : Oid) :
    Bases Oid × SortedMap Oid Nat × Nat :=
  let (base, depth, below) := state
  if maxChain ≤ below + 1 then (base.delete node, depth.put node 0, 0)
  else (base, depth.put node (below + 1), below + 1)

def capChain (rounds : Nat) (state : Bases Oid × SortedMap Oid Nat) (start : Oid) :
    Bases Oid × SortedMap Oid Nat :=
  let (base, depth) := state
  if (depth.get start).isSome then (base, depth)
  else
    match loop (descendStep base depth) rounds ([], start) with
    | none => (base, depth)
    | some (path, below, rootInPath) =>
        let (path, depth, below) :=
          match rootInPath, path with
          | true, root :: rest => (rest, depth.put root 0, 0)
          | _, path => (path, depth, below)
        let (base, depth, _) := path.foldl capNode (base, depth, below)
        (base, depth)

def capChains (base : Bases Oid) (sorted : List Oid) : Bases Oid :=
  (sorted.foldl (capChain (sorted.length + 1)) (base, .empty)).1

def dependents (base : Bases Oid) (sorted : List Oid) (oid : Oid) : List Oid :=
  sorted.filter fun other => base.get other = some oid

def emitStep (base : Bases Oid) (sorted : List Oid) (state : List Oid × List Oid) :
    (List Oid × List Oid) ⊕ List Oid :=
  match state with
  | ([], order) => .inr order
  | (oid :: queue, order) => .inl (queue ++ dependents base sorted oid, order ++ [oid])

/-- Bases first: the objects without one, then what is stored against them. -/
def emit (base : Bases Oid) (sorted : List Oid) : List Oid :=
  (loop (emitStep base sorted) (sorted.length + 1)
    (sorted.filter fun oid => base.get oid = none, [])).getD []

def build (objects : List (Oid × ObjectKind)) (hints : Bases Oid) : Plan Oid :=
  let oids := objects.map Prod.fst
  let sorted := (KeySet.ofKeys oids).keys
  let base := capChains (breakCycles oids (provisional oids hints)) sorted
  ⟨emit base sorted, base⟩

end Plan

end Acetone.Store

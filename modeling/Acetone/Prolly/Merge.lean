import Acetone.Lib.ThreeWay
import Acetone.Prolly.Diff

/-!
# Map-level three-way merge

Both sides are diffed against the base; the two diffs are advanced in lock
step.  A change on one side only, or the same change on both, becomes an op; a
key changed differently on both sides is deleted from the merged map and
reported.  The ops are applied to the base.
-/

namespace Acetone.Prolly

open Acetone.Lib

/-- One key changed incompatibly on both sides. -/
abbrev Conflict := Lib.Conflict Bytes Bytes

structure MergeOutcome where
  root : Root
  conflicts : List Conflict
deriving DecidableEq

/-- The op that applies one side's change to the base. -/
def toOp (entry : DiffEntry) : BatchOp :=
  match entry.after with
  | some value => .put entry.key value
  | none => .delete entry.key

section

variable (env : Substrate) (store : Store)

/-- The loop of `merge`: `o` and `t` are the changes at hand, `turns` the budget
of each call to `next` and `rounds` that of the loop. -/
def mergeLoop (turns rounds : Nat) (oursDiff theirsDiff : Diff)
    (o t : Option DiffEntry) (ops : List BatchOp) (conflicts : List Conflict) :
    Option (Except ProllyError (List BatchOp × List Conflict)) :=
  match rounds with
  | 0 => none
  | rounds + 1 =>
      match o, t with
      | none, none => some (.ok (ops, conflicts))
      | some oe, none =>
          andThen (next (Diff.turn env store) turns oursDiff)
            fun (o, oursDiff) =>
              mergeLoop turns rounds oursDiff theirsDiff o none
                (ops ++ [toOp oe]) conflicts
      | none, some te =>
          andThen (next (Diff.turn env store) turns theirsDiff)
            fun (t, theirsDiff) =>
              mergeLoop turns rounds oursDiff theirsDiff none t
                (ops ++ [toOp te]) conflicts
      | some oe, some te =>
          if oe.key < te.key then
            andThen (next (Diff.turn env store) turns oursDiff)
              fun (o, oursDiff) =>
                mergeLoop turns rounds oursDiff theirsDiff o (some te)
                  (ops ++ [toOp oe]) conflicts
          else if te.key < oe.key then
            andThen (next (Diff.turn env store) turns theirsDiff)
              fun (t, theirsDiff) =>
                mergeLoop turns rounds oursDiff theirsDiff (some oe) t
                  (ops ++ [toOp te]) conflicts
          else if oe.before ≠ te.before then
            some (.error (.corrupt "three-way merge"
              "the two diffs disagree on the base value of a key"))
          else
            let clean : Bool := oe.after = te.after
            andThen (next (Diff.turn env store) turns oursDiff)
              fun (o, oursDiff) =>
                andThen (next (Diff.turn env store) turns theirsDiff)
                  fun (t, theirsDiff) =>
                    mergeLoop turns rounds oursDiff theirsDiff o t
                      (ops ++ [if clean then toOp oe else .delete oe.key])
                      (conflicts ++ if clean then []
                        else [⟨oe.key, te.before, oe.after, te.after⟩])

/-- Three-way merge of `ours` and `theirs` against their common `base`; no
answer when the budget is spent. -/
def merge (turns : Nat) (base ours theirs : Root) :
    Option (Except ProllyError (MergeOutcome × Store)) :=
  if base.params ≠ ours.params ∨ base.params ≠ theirs.params then
    some (.error .paramsMismatch)
  else
    andThen (some (diff env store base ours)) fun oursDiff =>
      andThen (some (diff env store base theirs)) fun theirsDiff =>
        andThen (next (Diff.turn env store) turns oursDiff)
          fun (o, oursDiff) =>
            andThen (next (Diff.turn env store) turns theirsDiff)
              fun (t, theirsDiff) =>
                andThen
                  (mergeLoop env store turns turns oursDiff theirsDiff o t [] [])
                  fun (ops, conflicts) =>
                    some (do
                      let (root, store) ← applyBatch env store base ops
                      .ok (⟨root, conflicts⟩, store))

end

end Acetone.Prolly

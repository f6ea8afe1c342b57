import Mathlib.Algebra.BigOperators.Group.List.Basic
import Acetone.Lib.Paths
import Acetone.Store.Plan

/-!
# Consolidation

Rewrite the objects that a graph reaches into one pack, then delete the loose
copies and the earlier packs that it makes superfluous.  Locking, file-system
errors and the durability protocol are left out; what a ref names and how a
commit, a tree and a tag name other objects are parameters.
-/

namespace Acetone.Store

open Acetone.Lib

inductive StoreError where
  | corrupt (context reason : String)
  | objectTooLarge (size limit : Nat)
deriving DecidableEq, Repr

structure ConsolidateOptions where
  pruneLoose : Bool
  pruneSupersededPacks : Bool
deriving DecidableEq

structure ConsolidateStats where
  objects : Nat
  deltas : Nat
  whole : Nat
  prunedLoose : Nat
  prunedPacks : Nat
deriving DecidableEq

/-- How the objects of a repository name others. -/
structure ObjectFormat (Oid : Type) where
  commit : Bytes → Except String (Oid × List Oid)
  tree : Bytes → Except String (List Oid)
  tag : Bytes → Except String Oid

/-- An object database with the two sidecar files, line by line. -/
structure ObjectStore (Oid : Type) [LinearOrder Oid] where
  loose : SortedMap Oid GitObject
  packs : SortedMap String (Pack Oid)
  hintLines : List String
  stemLines : List String
deriving DecidableEq

variable {Oid : Type} [LinearOrder Oid]

namespace ObjectStore

variable (store : ObjectStore Oid)

def read (oid : Oid) : Option GitObject :=
  match store.loose.get oid with
  | some object => some object
  | none => store.packs.entries.findSome? fun (_, pack) => pack.resolve oid

def oids : List Oid :=
  store.loose.keys ++ store.packs.entries.flatMap fun (_, pack) => pack.map Prod.fst

end ObjectStore

section

structure Setting (Oid : Type) [LinearOrder Oid] where
  format : ObjectFormat Oid
  /-- The cap on the size of an object that is read. -/
  maxChunkSize : Nat
  /-- The length of an object id in bytes. -/
  hashLen : Nat
  fromHex : String → Option Oid
  /-- The name of a pack, from the checksum of its bytes. -/
  stemOf : Pack Oid → String

variable (setting : Setting Oid) (store : ObjectStore Oid)

def readAnyCapped (oid : Oid) : Except StoreError (Option GitObject) :=
  match store.read oid with
  | none => .ok none
  | some object =>
      if setting.maxChunkSize < object.data.length then
        .error (.objectTooLarge object.data.length setting.maxChunkSize)
      else .ok (some object)

def linksOf (object : GitObject) : Except StoreError (List Oid) :=
  match object.kind with
  | .commit =>
      match setting.format.commit object.data with
      | .ok (tree, parents) => .ok (tree :: parents)
      | .error reason => .error (.corrupt "commit for consolidation" reason)
  | .tree =>
      match setting.format.tree object.data with
      | .ok entries => .ok entries
      | .error reason => .error (.corrupt "tree for consolidation" reason)
  | .tag =>
      match setting.format.tag object.data with
      | .ok target => .ok [target]
      | .error reason => .error (.corrupt "tag for consolidation" reason)
  | .blob => .ok []

/-- The walk's stack, top first, the objects seen and those found. -/
structure Walk (Oid : Type) where
  stack : List Oid
  seen : List Oid
  out : List (Oid × ObjectKind)

def walkStep (walk : Walk Oid) :
    Walk Oid ⊕ Except StoreError (List (Oid × ObjectKind)) :=
  match walk.stack with
  | [] => .inr (.ok walk.out)
  | oid :: stack =>
      if listed oid walk.seen then .inl { walk with stack := stack }
      else
        match readAnyCapped setting store oid with
        | .error cause => .inr (.error cause)
        | .ok none => .inl { walk with stack := stack, seen := oid :: walk.seen }
        | .ok (some object) =>
            match linksOf setting object with
            | .error cause => .inr (.error cause)
            | .ok links => .inl ⟨links.reverse ++ stack, oid :: walk.seen,
                walk.out ++ [(oid, object.kind)]⟩

/-- What an object adds to the walk. -/
def linkCount (oid : Oid) : Nat :=
  match store.read oid with
  | none => 0
  | some object =>
      match linksOf setting object with
      | .ok links => links.length
      | .error _ => 0

def walkBound (roots : List Oid) : Nat :=
  roots.length + (store.oids.dedup.map (linkCount setting store)).sum + 1

def reachableFrom (roots : List Oid) : Except StoreError (List (Oid × ObjectKind)) :=
  (loop (walkStep setting store) (walkBound setting store roots)
    ⟨roots.reverse, [], []⟩).getD (.ok [])

/-- `str::split_once` at a blank. -/
def splitOnce (line : String) : Option (String × String) :=
  match line.toList.dropWhile (· ≠ ' ') with
  | [] => none
  | _ :: rest => some (.ofList (line.toList.takeWhile (· ≠ ' ')), .ofList rest)

/-- The hints between two objects of the set; the last one for an object
stands, and a line that does not parse is skipped. -/
def loadHints (present : List Oid) : Bases Oid :=
  store.hintLines.foldl (fun hints line =>
    match splitOnce line with
    | none => hints
    | some (new, base) =>
        match setting.fromHex new, setting.fromHex base with
        | some new, some base =>
            if new ≠ base ∧ listed new present ∧ listed base present then hints.put new base
            else hints
        | _, _ => hints) .empty

def readEntry (base : Bases Oid) (oid : Oid) : Except StoreError (PackEntry Oid) := do
  match ← readAnyCapped setting store oid with
  | none => .error (.corrupt "consolidation" "reachable object vanished mid-consolidation")
  | some object =>
      match base.get oid with
      | none => .ok ⟨oid, object.kind, object.data, none⟩
      | some baseOid =>
          match ← readAnyCapped setting store baseOid with
          | none => .error (.corrupt "consolidation" "chosen delta base vanished")
          | some baseObject =>
              .ok ⟨oid, object.kind, object.data, some (baseOid, baseObject.data)⟩

def writePack (plan : Plan Oid) : Except StoreError (Pack Oid) := do
  let entries ← plan.order.mapM (readEntry setting store plan.base)
  .ok (entries.map (packEntry setting.hashLen))

/-- A pack that is installed already is not touched. -/
def installPack (stem : String) (pack : Pack Oid) : ObjectStore Oid :=
  if (store.packs.get stem).isSome then store
  else { store with packs := store.packs.put stem pack }

/-- Delete the loose copies of packed objects, but not those that other refs
reach. -/
def pruneLoose (packed guard : List Oid) : Nat × ObjectStore Oid :=
  let doomed := packed.filter fun oid => ¬ listed oid guard ∧ (store.loose.get oid).isSome
  (doomed.length, { store with loose := doomed.foldl (fun loose oid => loose.delete oid) store.loose })

def isValidPackStem (stem : String) : Bool :=
  match stripStart stem "pack-" with
  | none => false
  | some hex =>
      (hex.length = 40 ∨ hex.length = 64) ∧ hex.toList.all fun digit =>
        digit.isDigit ∨ ('a' ≤ digit ∧ digit ≤ 'f')

def readPackStems : List String := store.stemLines.filter isValidPackStem

/-- Delete the earlier packs whose every object is in the new one; the others
stay tracked. -/
def supersedePacks (newStem : String) (packed : List Oid) : Nat × ObjectStore Oid :=
  let contained := fun stem => (store.packs.get stem).all fun pack =>
    pack.all fun entry => listed entry.1 packed
  let prior := (readPackStems store).filter (· ≠ newStem)
  let superseded := prior.filter fun stem => contained stem
  (superseded.length, { store with
    packs := superseded.foldl (fun packs stem => packs.delete stem) store.packs
    stemLines := prior.filter (fun stem => ¬ contained stem) ++ [newStem] })

/-- Track a pack without deleting any. -/
def recordPackStem (stem : String) : ObjectStore Oid :=
  let stems := readPackStems store
  { store with stemLines := if stem ∈ stems then stems else stems ++ [stem] }

def classifyRefRoots (refs : List (String × Oid)) (isGraphRef : String → Bool) :
    List Oid × List Oid :=
  ((refs.filter fun entry => isGraphRef entry.1).map Prod.snd,
    (refs.filter fun entry => ¬ isGraphRef entry.1).map Prod.snd)

def planPack (refs : List (String × Oid)) (isGraphRef : String → Bool) :
    Except StoreError (Pack Oid × List Oid) := do
  let (packRoots, guardRoots) := classifyRefRoots refs isGraphRef
  let reachable ← reachableFrom setting store packRoots
  let guarded ← reachableFrom setting store guardRoots
  let present := reachable.map Prod.fst
  let plan := Plan.build reachable (loadHints setting store present)
  let pack ← writePack setting store plan
  if (pack.map Prod.fst).dedup.length ≠ present.dedup.length then
    .error (.corrupt "consolidation pack"
      s!"pack indexes {(pack.map Prod.fst).dedup.length} objects but {present.dedup.length} are reachable; refusing to prune")
  else .ok (pack, guarded.map Prod.fst)

def prune (options : ConsolidateOptions) (stem : String) (packed guard : List Oid) :
    Nat × Nat × ObjectStore Oid :=
  let (prunedLoose, store) := if options.pruneLoose then pruneLoose store packed guard else (0, store)
  let (prunedPacks, store) := if options.pruneSupersededPacks then
    supersedePacks store stem packed else (0, recordPackStem store stem)
  (prunedLoose, prunedPacks, store)

def isDelta : Packed Oid → Bool
  | .refDelta _ _ => true
  | .whole _ _ => false

def consolidateScoped (options : ConsolidateOptions) (refs : List (String × Oid))
    (isGraphRef : String → Bool) : Except StoreError (ConsolidateStats × ObjectStore Oid) := do
  let (pack, guard) ← planPack setting store refs isGraphRef
  let stem := setting.stemOf pack
  let installed := installPack store stem pack
  let (prunedLoose, prunedPacks, pruned) :=
    prune installed options stem (pack.map Prod.fst).dedup guard
  .ok (⟨pack.length, (pack.filter fun entry => isDelta entry.2).length,
    (pack.filter fun entry => ¬ isDelta entry.2).length, prunedLoose, prunedPacks⟩, pruned)

end

end Acetone.Store

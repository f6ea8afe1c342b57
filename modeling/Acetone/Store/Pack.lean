import Acetone.Lib.SortedMap
import Acetone.Store.Delta

/-!
# Packs of git objects

What a pack holds for an object: the whole object, or a delta against another
object of the pack.  A delta stands for the kind of its base as much as for its
bytes.  Compression and the byte layout of the file are left out.
-/

namespace Acetone.Store

open Acetone.Lib

inductive ObjectKind where
  | commit
  | tree
  | blob
  | tag
deriving DecidableEq, Repr

structure GitObject where
  kind : ObjectKind
  data : Bytes
deriving DecidableEq, Repr

variable {Oid : Type} [DecidableEq Oid]

structure PackEntry (Oid : Type) where
  oid : Oid
  kind : ObjectKind
  data : Bytes
  base : Option (Oid × Bytes)
deriving DecidableEq

inductive Packed (Oid : Type) where
  | whole (kind : ObjectKind) (data : Bytes)
  | refDelta (base : Oid) (delta : Bytes)
deriving DecidableEq

/-- The entries of a pack file, in file order. -/
abbrev Pack (Oid : Type) := List (Oid × Packed Oid)

/-- The delta to store the entry as, if it is against another object, is
smaller than the object and gives the object's bytes back. -/
def chooseDelta (hashLen : Nat) (entry : PackEntry Oid) : Option (Oid × Bytes) :=
  match entry.base with
  | none => none
  | some (base, baseData) =>
      if base = entry.oid then none
      else
        match encodeDelta baseData entry.data with
        | none => none
        | some delta =>
            if entry.data.length ≤ delta.length + hashLen then none
            else
              match applyDelta baseData delta with
              | .ok rebuilt => if rebuilt = entry.data then some (base, delta) else none
              | .error _ => none

def packEntry (hashLen : Nat) (entry : PackEntry Oid) : Oid × Packed Oid :=
  match chooseDelta hashLen entry with
  | some (base, delta) => (entry.oid, .refDelta base delta)
  | none => (entry.oid, .whole entry.kind entry.data)

/-- What `chooseDelta` promises of a delta. -/
theorem chooseDelta_eq_some {hashLen : Nat} {entry : PackEntry Oid} {base : Oid}
    {delta : Bytes} (chosen : chooseDelta hashLen entry = some (base, delta)) :
    ∃ baseData, entry.base = some (base, baseData) ∧
      applyDelta baseData delta = .ok entry.data := by
  rw [chooseDelta] at chosen
  split at chosen
  · cases chosen
  · next candidate baseData isBase =>
      refine ⟨baseData, ?_⟩
      split at chosen
      · cases chosen
      · split at chosen
        · cases chosen
        · split at chosen
          · cases chosen
          · split at chosen
            · next rebuilt applied =>
                split at chosen
                · next same =>
                    cases chosen
                    exact ⟨isBase, same ▸ applied⟩
                · cases chosen
            · cases chosen

/-- The entry a pack's index names for an object. -/
def Pack.find (pack : Pack Oid) (oid : Oid) : Option (Packed Oid) :=
  (pack.find? fun entry => entry.1 = oid).map Prod.snd

/-- Follow the delta chain of an object, at most `links` entries of it. -/
def Pack.follow (pack : Pack Oid) : Nat → Oid → Option GitObject
  | 0, _ => none
  | links + 1, oid =>
      match pack.find oid with
      | none => none
      | some (.whole kind data) => some ⟨kind, data⟩
      | some (.refDelta base delta) =>
          match pack.follow links base with
          | none => none
          | some object =>
              match applyDelta object.data delta with
              | .ok data => some ⟨object.kind, data⟩
              | .error _ => none

/-- A chain without a repetition has no more links than the pack entries. -/
def Pack.resolve (pack : Pack Oid) (oid : Oid) : Option GitObject :=
  pack.follow pack.length oid

theorem Pack.follow_mono {pack : Pack Oid} {links more : Nat} {oid : Oid}
    {object : GitObject} (followed : pack.follow links oid = some object)
    (le : links ≤ more) : pack.follow more oid = some object := by
  induction links generalizing more oid object with
  | zero => cases followed
  | succ links ih =>
      obtain ⟨more, rfl⟩ : ∃ rest, more = rest + 1 := ⟨more - 1, by omega⟩
      rw [Pack.follow] at followed ⊢
      split at followed
      · cases followed
      · exact followed
      · next base delta isDelta =>
          split at followed
          · cases followed
          · next baseObject resolved =>
              rw [ih resolved (by omega)]
              exact followed

theorem Pack.mem_of_follow {pack : Pack Oid} {links : Nat} {oid : Oid}
    {object : GitObject} (followed : pack.follow links oid = some object) :
    oid ∈ pack.map Prod.fst := by
  cases links with
  | zero => cases followed
  | succ links =>
      rw [Pack.follow] at followed
      cases found : pack.find oid with
      | none =>
          rw [found] at followed
          cases followed
      | some packed =>
          rw [Pack.find, Option.map_eq_some_iff] at found
          obtain ⟨entry, isEntry, -⟩ := found
          have named := List.find?_some isEntry
          exact List.mem_map.mpr ⟨entry, List.mem_of_find?_eq_some isEntry,
            of_decide_eq_true named⟩

end Acetone.Store

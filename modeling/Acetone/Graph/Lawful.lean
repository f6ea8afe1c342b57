import Acetone.Graph.Batches

/-!
# Required properties of relationships

A relationship type declares required properties as a label does, in a schema
document; no surface judges a relationship by them.  A version is lawful if its
nodes and its relationships have what is declared.  A save leaves a lawful
version if the relationships that it puts have what is required after it, and
so have the stored ones where it declares a type anew.
-/

namespace Acetone.Graph

open Acetone.Lib Acetone.Model

/-- A relationship has what its type requires; a discriminator counts unless it
is null. -/
def Carries (decl : RelTypeDef) (edge : EdgeKey) (record : EdgeRecord) : Prop :=
  ∀ name ∈ decl.existence, (decl.discriminator = some name ∧ edge.disc ≠ .null) ∨
    record.properties.get name ≠ none

def RelationshipsObey (rtypes : SortedMap String RelTypeDef) (edges : EdgeMap) : Prop :=
  ∀ {key : Bytes} {record : EdgeRecord} {edge : EdgeKey} {decl : RelTypeDef},
    edges.get key = some record → EdgeKey.decodeFwd key = .ok edge →
      rtypes.get edge.rtype = some decl → Carries decl edge record

/-- A version obeys what it declares of its nodes and of its relationships. -/
structure Lawful (manifest : Manifest) : Prop where
  nodes : Obeyed manifest
  relationships : RelationshipsObey (relTypeDefs manifest.schema) manifest.edgesFwd

/-- The relationships that are stored have what a definition of their type requires. -/
def RelTypeFits (manifest : Manifest) (rtype : String) (decl : RelTypeDef) : Prop :=
  ∀ {key : Bytes} {record : EdgeRecord} {edge : EdgeKey},
    manifest.edgesFwd.get key = some record → EdgeKey.decodeFwd key = .ok edge →
      edge.rtype = rtype → Carries decl edge record

/-- The last put of each relationship has what its type requires. -/
def LastPutsCarry (rtypes : SortedMap String RelTypeDef)
    (edges : List (EdgeKey × EdgeRecord)) : Prop :=
  ∀ put decl, lastFor (fun put : EdgeKey × EdgeRecord => edgeBytes put.1) (edgeBytes put.1) edges =
    some put → rtypes.get put.1.rtype = some decl → Carries decl put.1 put.2

section

variable {decl : RelTypeDef} {edge kept : EdgeKey} {record : EdgeRecord}

theorem Carries.stored {forward : Bytes} (carries : Carries decl edge record)
    (encodes : edge.encodeFwd = .ok forward) (decodes : EdgeKey.decodeFwd forward = .ok kept) :
    Carries decl kept record := by
  intro name required
  rcases carries name required with ⟨isDisc, present⟩ | present
  · refine .inl ⟨isDisc, ?_⟩
    rw [(EdgeKey.disc_of_decodeFwd encodes decodes).2]
    exact fun isNull => present (canonical_eq_null.mp isNull)
  · exact .inr present

variable {txn : Transaction}

theorem RelationshipsObey.applied
    (obey : RelationshipsObey (relTypeDefs txn.base.manifest.schema) txn.base.manifest.edgesFwd)
    (puts : ∀ op key record, lastFor MapOp.key key txn.edgesFwd = some op →
      op.outcome = some record → ∃ edge : EdgeKey, edge.encodeFwd = .ok key ∧
        ∀ decl, (relTypeDefs txn.applied.schema).get edge.rtype = some decl →
          Carries decl edge record)
    (decls : ∀ rtype decl, (relTypeDefs txn.applied.schema).get rtype = some decl →
      (relTypeDefs txn.base.manifest.schema).get rtype = some decl ∨
        RelTypeFits txn.base.manifest rtype decl) :
    RelationshipsObey (relTypeDefs txn.applied.schema) txn.applied.edgesFwd := by
  intro key record edge decl found decodes declared
  have found : (txn.base.manifest.edgesFwd.applyAll txn.edgesFwd).get key = some record := found
  rw [SortedMap.get_applyAll] at found
  cases last : lastFor MapOp.key key txn.edgesFwd with
  | some op =>
      rw [last] at found
      obtain ⟨put, encodes, carries⟩ := puts op key record last found
      have sameType := (EdgeKey.disc_of_decodeFwd encodes decodes).1
      exact (carries decl (sameType ▸ declared)).stored encodes decodes
  | none =>
      rw [last] at found
      rcases decls edge.rtype decl declared with old | fits
      · exact obey found decodes old
      · exact fits found decodes rfl

end

end Acetone.Graph

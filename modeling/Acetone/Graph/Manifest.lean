import Acetone.Model.Schema

/-!
# Manifests

A version of the graph: its maps by contents.  A prolly tree answers as the map
that it holds, so a map is a sorted map under the encoded keys, with its records
decoded.  The root of the tree depends on the batches that made it as well.
-/

namespace Acetone.Graph

open Acetone.Lib Acetone.Model

inductive GraphError where
  | key (cause : GraphKeyError)
  | record (cause : ValueEncodeError)
  | schema (cause : SchemaError)
  | mergeState (reason : String)
  | propertyTypeViolation (node : NodeKey) (property : String)
      (declared actual : PropertyType)
  | edgePropertyTypeViolation (edge : EdgeKey) (property : String)
      (declared actual : PropertyType)
  | labelKeyChanged (label : String)
  | relDiscriminatorChanged (rtype : String)
  | danglingEdge (rtype role : String) (endpoint : NodeKey)
deriving DecidableEq

def liftKey {α : Type} : Except GraphKeyError α → Except GraphError α
  | .ok value => .ok value
  | .error cause => .error (.key cause)

@[simp] theorem liftKey_eq_ok {α : Type} {result : Except GraphKeyError α}
    {value : α} : liftKey result = .ok value ↔ result = .ok value := by
  cases result <;> simp [liftKey]

abbrev SchemaMap := SortedMap Bytes SchemaEntry
abbrev NodeMap := SortedMap Bytes NodeRecord
abbrev EdgeMap := SortedMap Bytes EdgeRecord
abbrev Indexes := SortedMap String (KeySet Bytes)

structure Manifest where
  schema : SchemaMap
  nodes : NodeMap
  edgesFwd : EdgeMap
  edgesRev : KeySet Bytes
  indexes : Indexes
deriving DecidableEq

/-- The rows of a schema map stand under their own keys. -/
def SchemaKeyed (schema : SchemaMap) : Prop :=
  ∀ row ∈ schema.entries, row.2.mapKey = row.1

instance (schema : SchemaMap) : Decidable (SchemaKeyed schema) :=
  inferInstanceAs (Decidable (∀ row ∈ schema.entries, row.2.mapKey = row.1))

def schemaEntries (schema : SchemaMap) : List SchemaEntry :=
  schema.entries.map Prod.snd

/-- The pairs of a kind of entry. -/
def labelPair? : SchemaEntry → Option (String × LabelDef)
  | .label name decl => some (name, decl)
  | _ => none

def relTypePair? : SchemaEntry → Option (String × RelTypeDef)
  | .relType name decl => some (name, decl)
  | _ => none

def indexPair? : SchemaEntry → Option (String × IndexDef)
  | .index name decl => some (name, decl)
  | _ => none

def labelDefs (schema : SchemaMap) : SortedMap String LabelDef :=
  .ofList ((schemaEntries schema).filterMap labelPair?)

def relTypeDefs (schema : SchemaMap) : SortedMap String RelTypeDef :=
  .ofList ((schemaEntries schema).filterMap relTypePair?)

section

variable {schema : SchemaMap}

theorem mem_schemaEntries (keyed : SchemaKeyed schema) {entry : SchemaEntry} :
    entry ∈ schemaEntries schema ↔ schema.get entry.mapKey = some entry := by
  rw [SortedMap.get_eq_some_iff, schemaEntries, List.mem_map]
  constructor
  · rintro ⟨row, member, rfl⟩
    rw [keyed row member]
    exact member
  · intro member
    exact ⟨_, member, rfl⟩

/-- The definitions of one kind, collected by name, are its rows. -/
private theorem defs_get (keyed : SchemaKeyed schema) {D : Type} {kind : String}
    {pair? : SchemaEntry → Option (String × D)} {make : String → D → SchemaEntry}
    (isPair : ∀ {entry pair}, pair? entry = some pair ↔ make pair.1 pair.2 = entry)
    (key : ∀ name decl, (make name decl).mapKey = entryKey kind name)
    {name : String} {decl : D} :
    (SortedMap.ofList ((schemaEntries schema).filterMap pair?)).get name =
        some decl ↔
      schema.get (entryKey kind name) = some (make name decl) := by
  have pairs : ∀ {pair : String × D},
      pair ∈ (schemaEntries schema).filterMap pair? ↔
        schema.get (entryKey kind pair.1) = some (make pair.1 pair.2) := by
    intro pair
    rw [List.mem_filterMap, ← key pair.1 pair.2, ← mem_schemaEntries keyed]
    constructor
    · rintro ⟨entry, member, found⟩
      rw [isPair.mp found]
      exact member
    · intro member
      exact ⟨_, member, isPair.mpr rfl⟩
  rw [SortedMap.get_ofList_eq_some, pairs]
  intro first isFirst second isSecond same
  have found := pairs.mp isFirst
  rw [same, pairs.mp isSecond, Option.some.injEq] at found
  have itself : pair? (make second.1 first.2) = some (second.1, first.2) :=
    isPair.mpr rfl
  rw [isPair.mpr found, Option.some.injEq, Prod.ext_iff] at itself
  exact itself.2.symm

theorem labelDefs_get (keyed : SchemaKeyed schema) {name : String}
    {decl : LabelDef} : (labelDefs schema).get name = some decl ↔
      schema.get (entryKey kindLabel name) = some (.label name decl) := by
  refine defs_get keyed ?_ (fun _ _ => rfl)
  intro entry pair
  cases entry <;> simp [labelPair?, Prod.ext_iff, eq_comm]

theorem relTypeDefs_get (keyed : SchemaKeyed schema) {name : String}
    {decl : RelTypeDef} : (relTypeDefs schema).get name = some decl ↔
      schema.get (entryKey kindRtype name) = some (.relType name decl) := by
  refine defs_get keyed ?_ (fun _ _ => rfl)
  intro entry pair
  cases entry <;> simp [relTypePair?, Prod.ext_iff, eq_comm]

end

end Acetone.Graph

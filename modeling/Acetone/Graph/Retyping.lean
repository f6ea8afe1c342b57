import Acetone.Lib.Grouping
import Acetone.Graph.StagedWrites
import Acetone.Graph.TypedSaves
import Acetone.Graph.Integrity

/-!
# Renaming a relationship type keeps the graph

The edges of the old type come under the new one, with their endpoints and their
discriminators; where an edge of the new type is there already the two are united.
The declaration comes along, reconciled with that of the new type.
-/

namespace Acetone.Graph

open Acetone.Lib Acetone.Model

structure RecordsUnited (old existing united : EdgeRecord) : Prop where
  properties : ∀ property, united.properties.get property =
    (old.properties.get property).or (existing.properties.get property)
  agree : ∀ property value current, old.properties.get property = some value →
    existing.properties.get property = some current → sameValue current.1 value.1

theorem recordsUnited_of_merged {edge : EdgeKey} {old existing united : EdgeRecord}
    (merged : mergeEdgeRecords edge old existing = .ok united) :
    RecordsUnited old existing united := by
  obtain ⟨properties, folded, ⟨⟩⟩ := bind_eq_ok.mp merged
  have step := @SortedMap.get_of_united _ _ _ _
    (fun current value : StoredValue => sameValue current.1 value.1 = true) _
    (fun property => RepositoryError.relTypeRenameConflict (.properties edge property)) _ ?_ _ _ _
    folded
  · exact ⟨step.1, step.2⟩
  · intro map property value
    dsimp only [uniteEntry]
    cases map.get property <;> rfl

theorem RecordsUnited.unique {old existing united again : EdgeRecord}
    (unites : RecordsUnited old existing united) (unitesAgain : RecordsUnited old existing again) :
    united = again := by
  cases united
  cases again
  refine congrArg EdgeRecord.mk (SortedMap.ext_get fun property => ?_)
  exact (unites.properties property).trans (unitesAgain.properties property).symm

structure DeclsUnited (old new united : RelTypeDef) : Prop where
  sameDisc : old.discriminator = new.discriminator
  discriminator : united.discriminator = new.discriminator
  types : ∀ property, united.types.get property =
    (old.types.get property).or (new.types.get property)
  agree : ∀ property declared current, old.types.get property = some declared →
    new.types.get property = some current → current = declared
  existence : ∀ property, property ∈ united.existence ↔
    property ∈ old.existence ∨ property ∈ new.existence

private theorem mem_normaliseNames {names normal : List String} {context : String}
    (done : normaliseNames names context = .ok normal) {name : String} :
    name ∈ normal ↔ name ∈ names := by
  rw [normaliseNames] at done
  split at done
  · cases done
  · cases done
    rw [List.mem_dedup, List.mem_insertionSort]

theorem declsUnited_of_united {old new united : RelTypeDef} (done : uniteDefs old new = .ok united) :
    DeclsUnited old new united := by
  rw [uniteDefs] at done
  split at done
  · cases done
  · next sameDisc =>
      obtain ⟨types, folded, done⟩ := bind_eq_ok.mp done
      have step := @SortedMap.get_of_united _ _ _ _
        (fun current declared : PropertyType => current = declared) _
        (fun property => RepositoryError.relTypeRenameConflict (.types property)) _ ?_ _ _ _ folded
      · split at done
        · next made =>
            cases done
            rw [RelTypeDef.new] at made
            split at made
            · cases made
            · obtain ⟨_, -, made⟩ := bind_eq_ok.mp made
              obtain ⟨existence, normal, ⟨⟩⟩ := bind_eq_ok.mp made
              refine ⟨not_not.mp sameDisc, not_not.mp sameDisc, step.1, step.2, fun property => ?_⟩
              rw [mem_normaliseNames normal, List.mem_append, or_comm]
        · cases done
      · intro map property declared
        dsimp only [uniteEntry]
        cases map.get property <;> rfl

/-- The declaration of the new type when the declaration of the old one has joined it:
that of either alone does not lay a discriminator on the edges of the other. -/
inductive Reconciled (oldUsed newUsed : Prop) :
    Option RelTypeDef → Option RelTypeDef → Option RelTypeDef → Prop
  | neither : Reconciled oldUsed newUsed none none none
  | old {decl : RelTypeDef} (fits : newUsed → decl.discriminator = none) :
      Reconciled oldUsed newUsed (some decl) none (some decl)
  | new {decl : RelTypeDef} (fits : oldUsed → decl.discriminator = none) :
      Reconciled oldUsed newUsed none (some decl) (some decl)
  | both {oldDecl newDecl united : RelTypeDef} (agree : DeclsUnited oldDecl newDecl united) :
      Reconciled oldUsed newUsed (some oldDecl) (some newDecl) (some united)

private theorem Reconciled.undeclared {oldUsed newUsed : Prop}
    {old new united : Option RelTypeDef} (reconciled : Reconciled oldUsed newUsed old new united)
    (none : united = none) : new = Option.none := by
  cases reconciled <;> first | rfl | cases none

/-- The edges of the old type keep their discriminator. -/
theorem Reconciled.ofOld {oldUsed newUsed : Prop} {old new united : Option RelTypeDef}
    (reconciled : Reconciled oldUsed newUsed old new united) (used : oldUsed) :
    united.bind RelTypeDef.discriminator = old.bind RelTypeDef.discriminator := by
  cases reconciled with
  | neither => rfl
  | old fits => rfl
  | new fits => exact fits used
  | both agree => exact agree.discriminator.trans agree.sameDisc.symm

theorem Reconciled.ofNew {oldUsed newUsed : Prop} {old new united : Option RelTypeDef}
    (reconciled : Reconciled oldUsed newUsed old new united) (used : newUsed) :
    united.bind RelTypeDef.discriminator = new.bind RelTypeDef.discriminator := by
  cases reconciled with
  | neither => rfl
  | old fits => exact fits used
  | new fits => rfl
  | both agree => exact agree.discriminator

private theorem carryDef_eq_ok {decl carried : RelTypeDef} {declared undeclared : String}
    {hasEdges : Bool} (done : carryDef decl declared undeclared hasEdges = .ok carried) :
    carried = decl ∧ (hasEdges = true → decl.discriminator = none) := by
  rw [carryDef] at done
  split at done
  · split at done
    · cases done
    · next unused =>
        cases done
        exact ⟨rfl, fun used => absurd used unused⟩
  · next none =>
      cases done
      exact ⟨rfl, fun _ => none⟩

def declOf (entries : List SchemaEntry) (rtype : String) : Option RelTypeDef :=
  ((entries.filterMap relTypePair?).find? fun pair => pair.1 = rtype).map Prod.snd

theorem reconciled_of_ok {entries : List SchemaEntry} {old new : String}
    {oldUsed newUsed : Bool} {entry : Option SchemaEntry}
    (done : reconcileRelTypeEntries entries old new oldUsed newUsed = .ok entry) :
    ∃ decl, entry = decl.map (SchemaEntry.relType new) ∧
      Reconciled (oldUsed = true) (newUsed = true) (declOf entries old) (declOf entries new)
        decl := by
  rw [declOf, declOf]
  dsimp only [reconcileRelTypeEntries] at done
  split at done
  · next noOld noNew =>
      cases done
      rw [noOld, noNew]
      exact ⟨none, rfl, .neither⟩
  · next decl isOld noNew =>
      obtain ⟨carried, carries, ⟨⟩⟩ := bind_eq_ok.mp done
      obtain ⟨rfl, fits⟩ := carryDef_eq_ok carries
      rw [isOld, noNew]
      exact ⟨some carried, rfl, .old fits⟩
  · next decl noOld isNew =>
      obtain ⟨carried, carries, ⟨⟩⟩ := bind_eq_ok.mp done
      obtain ⟨rfl, fits⟩ := carryDef_eq_ok carries
      rw [noOld, isNew]
      exact ⟨some carried, rfl, .new fits⟩
  · next oldDecl newDecl isOld isNew =>
      obtain ⟨united, unites, ⟨⟩⟩ := bind_eq_ok.mp done
      rw [isOld, isNew]
      exact ⟨some united, rfl, .both (declsUnited_of_united unites)⟩

theorem declOf_eq {schema : SchemaMap} (keyed : SchemaKeyed schema) (rtype : String) :
    declOf (schemaEntries schema) rtype = (relTypeDefs schema).get rtype := by
  apply Option.ext
  intro decl
  rw [relTypeDefs_get keyed, declOf, Option.map_eq_some_iff]
  have isPair : ∀ pair : String × RelTypeDef,
      pair ∈ (schemaEntries schema).filterMap relTypePair? ↔
        schema.get (entryKey kindRtype pair.1) = some (.relType pair.1 pair.2) := by
    rintro ⟨name, decl⟩
    rw [List.mem_filterMap]
    constructor
    · rintro ⟨entry, member, found⟩
      cases entry with
      | relType other decl =>
          cases found
          exact (mem_schemaEntries keyed).mp member
      | label other decl => cases found
      | index other decl => cases found
    · intro isStored
      exact ⟨.relType name decl, (mem_schemaEntries keyed).mpr isStored, rfl⟩
  constructor
  · rintro ⟨pair, found, rfl⟩
    have named : pair.1 = rtype := by simpa using List.find?_some found
    rw [← named]
    exact (isPair pair).mp (List.mem_of_find?_eq_some found)
  · intro isStored
    have member := (isPair (rtype, decl)).mpr isStored
    cases found : ((schemaEntries schema).filterMap relTypePair?).find?
        fun pair => pair.1 = rtype with
    | none =>
        exact absurd (decide_eq_true rfl) (List.find?_eq_none.mp found _ member)
    | some pair =>
        have named : pair.1 = rtype := by simpa using List.find?_some found
        have again := (isPair pair).mp (List.mem_of_find?_eq_some found)
        rw [named, isStored] at again
        cases again
        exact ⟨pair, rfl, rfl⟩

def RetypedAs (new : String) (source edge : EdgeKey) : Prop :=
  edge.src = source.src ∧ edge.rtype = new ∧ edge.dst = source.dst ∧ edge.disc = source.disc

/-- An edge of the new type: it was there and no edge of the old type joins it, or it is
what an edge of the old type becomes, united with the one that was there. -/
def ComesUnder (edges : EdgeMap) (old new : String) (edge : EdgeKey) (record : EdgeRecord) :
    Prop :=
  (HoldsEdge edges edge record ∧ ∀ source own, HoldsEdge edges source own → source.rtype = old →
      ¬ RetypedAs new source edge) ∨
    ∃ source own, HoldsEdge edges source own ∧ source.rtype = old ∧ RetypedAs new source edge ∧
      ((record = own ∧ ∀ existing, ¬ HoldsEdge edges edge existing) ∨
        ∃ existing, HoldsEdge edges edge existing ∧ RecordsUnited own existing record)

def UsesType (edges : EdgeMap) (rtype : String) : Prop :=
  ∃ edge record, HoldsEdge edges edge record ∧ edge.rtype = rtype

/-- What a version is checked for.  No check reads what a relationship type requires. -/
structure Enforced (manifest : Manifest) : Prop where
  types : Typed manifest
  endpoints : NoDangling manifest.nodes manifest.edgesFwd
  required : ∀ row ∈ manifest.nodes.entries, ∀ node ∈ nodeOf row.1,
    ∀ decl ∈ (labelDefs manifest.schema).get node.label,
      ∀ property ∈ decl.existence, present decl row.2 property
  unique : ∀ first ∈ manifest.nodes.entries, ∀ second ∈ manifest.nodes.entries,
    ∀ node ∈ nodeOf first.1, ∀ other ∈ nodeOf second.1, node.label = other.label →
      ∀ decl ∈ (labelDefs manifest.schema).get node.label,
        ∀ property ∈ decl.unique, ∀ value ∈ first.2.properties.get property,
          value ∈ second.2.properties.get property → first.1 = second.1

structure DeclaredHold (manifest : Manifest) : Prop where
  enforced : Enforced manifest
  relRequired : ∀ edge record, HoldsEdge manifest.edgesFwd edge record →
    ∀ decl ∈ (relTypeDefs manifest.schema).get edge.rtype, ∀ property ∈ decl.existence,
      decl.discriminator = some property ∨ record.properties.get property ≠ none

/-- No edge and no declaration is under the old type, the edges of the new type are those
of both, and all else is as it was. -/
structure RenamedFrom (before after : Manifest) (old new : String) : Prop where
  readable : ∀ forward record, after.edgesFwd.get forward = some record →
    ∃ edge, EdgeKey.decodeFwd forward = .ok edge
  freed : ∀ edge record, HoldsEdge after.edgesFwd edge record → edge.rtype ≠ old
  renamed : ∀ edge record, edge.rtype = new →
    (HoldsEdge after.edgesFwd edge record ↔ ComesUnder before.edgesFwd old new edge record)
  others : ∀ edge record, edge.rtype ≠ old → edge.rtype ≠ new →
    (HoldsEdge after.edgesFwd edge record ↔ HoldsEdge before.edgesFwd edge record)
  mirrored : Mirrored before.edgesFwd before.edgesRev → Mirrored after.edgesFwd after.edgesRev
  nodes : after.nodes = before.nodes
  undeclared : after.schema.get (entryKey kindRtype old) = none
  declared : SchemaKeyed before.schema →
    Reconciled (UsesType before.edgesFwd old) (UsesType before.edgesFwd new)
      ((relTypeDefs before.schema).get old) ((relTypeDefs before.schema).get new)
      ((relTypeDefs after.schema).get new)
  schema : ∀ key, key ≠ entryKey kindRtype old → key ≠ entryKey kindRtype new →
    after.schema.get key = before.schema.get key
  enforced : Keyed before → Mirrored before.edgesFwd before.edgesRev → Enforced before →
    Enforced after

def retypedEdge (new : String) (edge : EdgeKey) : EdgeKey :=
  (renamedKey new edge).toOption.getD edge

def retypedRecord (new : String) (existing : EdgeMap) (edge : EdgeKey) (record : EdgeRecord) :
    EdgeRecord :=
  match existing.get (edgeBytes (retypedEdge new edge)) with
  | some other => (mergeEdgeRecords edge record other).toOption.getD record
  | none => record

def retypeMove (new : String) (existing : EdgeMap) (row : EdgeKey × EdgeRecord) : EdgeMove :=
  ⟨row.1, retypedEdge new row.1, retypedRecord new existing row.1 row.2⟩

structure Retypes (new : String) (existing : EdgeMap) (edge : EdgeKey) (record : EdgeRecord) :
    Prop where
  renamed : RetypedAs new edge (retypedEdge new edge)
  united : ∀ other, existing.get (edgeBytes (retypedEdge new edge)) = some other →
    RecordsUnited record other (retypedRecord new existing edge record)
  alone : existing.get (edgeBytes (retypedEdge new edge)) = none →
    retypedRecord new existing edge record = record

private theorem renameEdge_eq_ok {new : String} {existing : EdgeMap} {edge : EdgeKey}
    {record : EdgeRecord} {writes : List Write}
    (done : renameEdge new existing edge record = .ok writes) :
    writes = (retypeMove new existing (edge, record)).writes ∧
      Retypes new existing edge record := by
  obtain ⟨renamed, isRenamed, done⟩ := bind_eq_ok.mp done
  obtain ⟨key, encoded, done⟩ := bind_eq_ok.mp done
  rw [liftGraph_eq_ok] at isRenamed encoded
  rw [liftKey_eq_ok] at encoded
  have isEdge : retypedEdge new edge = renamed := by
    rw [retypedEdge, isRenamed]
    rfl
  have retyped : RetypedAs new edge renamed := by
    rw [renamedKey, liftKey_eq_ok, EdgeKey.new_eq_ok] at isRenamed
    exact isRenamed
  have isKey := edgeBytes_of_encode encoded
  split at done
  · next other isOther =>
      obtain ⟨united, unites, ⟨⟩⟩ := bind_eq_ok.mp done
      have isRecord : retypedRecord new existing edge record = united := by
        simp only [retypedRecord, isEdge, isKey, isOther, unites]
        rfl
      refine ⟨by rw [EdgeMove.writes, retypeMove, isEdge, isRecord], isEdge ▸ retyped, ?_, ?_⟩
      · intro another isAnother
        rw [isEdge, isKey, isOther] at isAnother
        cases isAnother
        exact isRecord ▸ recordsUnited_of_merged unites
      · intro none
        rw [isEdge, isKey, isOther] at none
        cases none
  · next none =>
      cases done
      have isRecord : retypedRecord new existing edge record = record := by
        simp only [retypedRecord, isEdge, isKey, none]
      refine ⟨by rw [EdgeMove.writes, retypeMove, isEdge, isRecord], isEdge ▸ retyped, ?_, ?_⟩
      · intro another isAnother
        rw [isEdge, isKey, none] at isAnother
        cases isAnother
      · exact fun _ => isRecord

def ofType (rtype : String) (edges : List (EdgeKey × EdgeRecord)) :
    List (EdgeKey × EdgeRecord) :=
  edges.filter fun row => row.1.rtype = rtype

/-- What a rename that is not refused stages. -/
structure RenameStaged (manifest : Manifest) (old new : String) (writes : List Write) :
    Prop where
  different : old ≠ new
  staged : ∃ edges existing decl, allEdges manifest.edgesFwd = .ok edges ∧
    (∀ key record, existing.get key = some record ↔
      ∃ edge, HoldsEdge manifest.edgesFwd edge record ∧ edge.rtype = new ∧ edgeBytes edge = key) ∧
    (∀ row ∈ ofType old edges, Retypes new existing row.1 row.2) ∧
    Reconciled (UsesType manifest.edgesFwd old) (UsesType manifest.edgesFwd new)
      (declOf (schemaEntries manifest.schema) old) (declOf (schemaEntries manifest.schema) new)
      decl ∧
    writes = ((ofType old edges).map (retypeMove new existing)).flatMap EdgeMove.writes ++
      .deleteSchemaEntry old ::
        (decl.toList.map fun decl => .putSchema (.relType new decl))

section

variable {map : EdgeMap} {edges : List (EdgeKey × EdgeRecord)} {rtype : String}

private theorem mem_ofType (read : allEdges map = .ok edges)
    {row : EdgeKey × EdgeRecord} :
    row ∈ ofType rtype edges ↔ HoldsEdge map row.1 row.2 ∧ row.1.rtype = rtype := by
  rw [ofType, List.mem_filter, decide_eq_true_eq]
  exact and_congr_left fun _ => mem_allEdges read

private theorem usesType_iff (read : allEdges map = .ok edges) :
    UsesType map rtype ↔ ofType rtype edges ≠ [] := by
  constructor
  · rintro ⟨edge, record, holds, isType⟩
    exact List.ne_nil_of_mem ((@mem_ofType _ _ _ read (edge, record)).mpr ⟨holds, isType⟩)
  · intro used
    obtain ⟨row, member⟩ := List.exists_mem_of_ne_nil _ used
    obtain ⟨holds, isType⟩ := (mem_ofType read).mp member
    exact ⟨row.1, row.2, holds, isType⟩

private theorem get_existing (read : allEdges map = .ok edges)
    {rows : List (Bytes × EdgeRecord)}
    (keyed : ((ofType rtype edges).mapM fun row => do
      let key ← liftKey row.1.encodeFwd
      .ok (key, row.2)) = .ok rows) (key : Bytes) (record : EdgeRecord) :
    (SortedMap.ofList rows).get key = some record ↔
      ∃ edge, HoldsEdge map edge record ∧ edge.rtype = rtype ∧
        edgeBytes edge = key := by
  have isRow : ∀ key record, (key, record) ∈ rows ↔
      ∃ edge, HoldsEdge map edge record ∧ edge.rtype = rtype ∧
        edgeBytes edge = key := by
    intro key record
    constructor
    · intro member
      obtain ⟨row, inside, made⟩ := exists_of_mem_mapM keyed member
      obtain ⟨own, encoded, made⟩ := bind_eq_ok.mp made
      cases made
      obtain ⟨holds, isType⟩ := (mem_ofType read).mp inside
      exact ⟨row.1, holds, isType, edgeBytes_of_encode (liftKey_eq_ok.mp encoded)⟩
    · rintro ⟨edge, holds, isType, rfl⟩
      obtain ⟨made, inside, makes⟩ := mem_of_mapM_eq_ok keyed
        ((@mem_ofType _ _ _ read (edge, record)).mpr ⟨holds, isType⟩)
      obtain ⟨own, encoded, makes⟩ := bind_eq_ok.mp makes
      cases makes
      rw [edgeBytes_of_encode (liftKey_eq_ok.mp encoded)]
      exact inside
  rw [SortedMap.get_ofList_eq_some, isRow]
  rintro ⟨leftKey, left⟩ isLeft ⟨rightKey, right⟩ isRight same
  obtain ⟨edge, holds, -, isKey⟩ := (isRow leftKey left).mp isLeft
  obtain ⟨other, otherHolds, -, isOther⟩ := (isRow rightKey right).mp isRight
  have found := holds.get.2.2
  rw [isKey.trans (Eq.trans same isOther.symm), otherHolds.get.2.2] at found
  exact (Option.some.inj found).symm

end

theorem renameWrites_staged {manifest : Manifest} {old new : String} {policy : RenamePolicy}
    {writes : List Write} (accepted : renameWrites manifest old new policy = .ok writes) :
    RenameStaged manifest old new writes := by
  rw [renameWrites] at accepted
  split at accepted
  · cases accepted
  · next different =>
      obtain ⟨edges, read, accepted⟩ := bind_eq_ok.mp accepted
      obtain ⟨rows, keyed, accepted⟩ := bind_eq_ok.mp accepted
      obtain ⟨entries, schemaRead, accepted⟩ := bind_eq_ok.mp accepted
      rw [liftGraph_eq_ok] at read keyed schemaRead
      cases readSchema_eq schemaRead
      dsimp only at accepted
      split at accepted
      · cases accepted
      · obtain ⟨collisions, -, accepted⟩ := bind_eq_ok.mp accepted
        split at accepted
        · cases accepted
        · obtain ⟨entry, reconciles, accepted⟩ := bind_eq_ok.mp accepted
          obtain ⟨moved, gathered, ⟨⟩⟩ := bind_eq_ok.mp accepted
          obtain ⟨decl, rfl, reconciled⟩ := reconciled_of_ok reconciles
          have isExisting := get_existing read keyed
          have newUsed : (¬ (SortedMap.ofList rows).entries.isEmpty = true) ↔
              UsesType manifest.edgesFwd new := by
            rw [List.isEmpty_iff]
            constructor
            · intro used
              obtain ⟨row, member⟩ := List.exists_mem_of_ne_nil _ used
              obtain ⟨edge, holds, isType, -⟩ := (isExisting row.1 row.2).mp
                (SortedMap.get_eq_some_iff.mpr member)
              exact ⟨edge, row.2, holds, isType⟩
            · rintro ⟨edge, record, holds, isType⟩
              exact List.ne_nil_of_mem (SortedMap.get_eq_some_iff.mp
                ((isExisting _ record).mpr ⟨edge, holds, isType, rfl⟩))
          replace reconciled : Reconciled (decide (ofType old edges ≠ []) = true)
              (decide (¬ (SortedMap.ofList rows).entries.isEmpty = true) = true)
              (declOf (schemaEntries manifest.schema) old)
              (declOf (schemaEntries manifest.schema) new) decl := reconciled
          rw [decide_eq_true_eq, decide_eq_true_eq, ← usesType_iff read, newUsed] at reconciled
          have each : ∀ row ∈ ofType old edges, renameEdge new (.ofList rows) row.1 row.2 =
              .ok (retypeMove new (.ofList rows) row).writes ∧
                Retypes new (.ofList rows) row.1 row.2 := by
            intro row member
            obtain ⟨writes, done, -⟩ := gather_eq_ok gathered member
            obtain ⟨rfl, retypes⟩ := renameEdge_eq_ok done
            exact ⟨done, retypes⟩
          have whole := @gather_of_ok _ _ _ (fun row : EdgeKey × EdgeRecord =>
            renameEdge new (.ofList rows) row.1 row.2) _ (ofType old edges)
            fun row member => (each row member).1
          cases whole.symm.trans gathered
          refine ⟨different, edges, .ofList rows, decl, read, isExisting,
            fun row member => (each row member).2, reconciled, ?_⟩
          rw [List.flatMap_map]
          cases decl <;> rfl

section

variable {new : String} {source edge : EdgeKey} {forward : Bytes}

private theorem decodeFwd_of_retyped {stored : Bytes}
    (decoded : EdgeKey.decodeFwd stored = .ok source) (retyped : RetypedAs new source edge)
    (encoded : edge.encodeFwd = .ok forward) : EdgeKey.decodeFwd forward = .ok edge := by
  obtain ⟨isSrc, -, isDst, isDisc⟩ := retyped
  obtain ⟨srcFixed, dstFixed, discFixed⟩ := canonical_of_decodeFwd decoded
  rw [EdgeKey.decodeFwd_eq_ok, decodeKey_of_encodeKey (liftEncode_eq_ok.mp encoded)]
  simp only [canonicalAll, canonical, isSrc, isDst, isDisc, srcFixed, dstFixed, discFixed]

private theorem edge_eq_of_retyped {left right : EdgeKey}
    (leftRetyped : RetypedAs new source left) (rightRetyped : RetypedAs new source right) :
    left = right := by
  obtain ⟨leftSrc, leftType, leftDst, leftDisc⟩ := leftRetyped
  obtain ⟨rightSrc, rightType, rightDst, rightDisc⟩ := rightRetyped
  cases left
  cases right
  simp_all

private theorem source_eq_of_retyped {old : String} {left right : EdgeKey}
    (leftRetyped : RetypedAs new left edge) (rightRetyped : RetypedAs new right edge)
    (leftType : left.rtype = old) (rightType : right.rtype = old) : left = right := by
  obtain ⟨leftSrc, -, leftDst, leftDisc⟩ := leftRetyped
  obtain ⟨rightSrc, -, rightDst, rightDisc⟩ := rightRetyped
  cases left
  cases right
  simp_all

end

structure Retyped (map : EdgeMap) (old new : String)
    (found : List (EdgeKey × EdgeRecord)) (existing : EdgeMap) : Prop where
  different : old ≠ new
  read : allEdges map = .ok found
  isExisting : ∀ key record, existing.get key = some record ↔
    ∃ edge, HoldsEdge map edge record ∧ edge.rtype = new ∧ edgeBytes edge = key
  retypes : ∀ row ∈ ofType old found, Retypes new existing row.1 row.2
  encodes : ∀ write ∈ ((ofType old found).map (retypeMove new existing)).flatMap EdgeMove.writes,
    write.Encodes

namespace Retyped

variable {map : EdgeMap} {old new : String} {found : List (EdgeKey × EdgeRecord)}
  {existing : EdgeMap}

private theorem mem_moves (staged : Retyped map old new found existing)
    {move : Move Bytes EdgeRecord} :
    move ∈ ((ofType old found).map (retypeMove new existing)).map EdgeMove.relocation ↔
      ∃ source own, HoldsEdge map source own ∧ source.rtype = old ∧
        move = ⟨edgeBytes source, edgeBytes (retypedEdge new source),
          retypedRecord new existing source own⟩ := by
  rw [List.map_map, List.mem_map]
  constructor
  · rintro ⟨row, member, rfl⟩
    obtain ⟨holds, isType⟩ := (mem_ofType staged.read).mp member
    exact ⟨row.1, row.2, holds, isType, rfl⟩
  · rintro ⟨source, own, holds, isType, rfl⟩
    exact ⟨(source, own), (mem_ofType staged.read).mpr ⟨holds, isType⟩, rfl⟩

variable {source : EdgeKey} {own : EdgeRecord}

private theorem retypes_of (staged : Retyped map old new found existing)
    (holds : HoldsEdge map source own) (isType : source.rtype = old) :
    Retypes new existing source own :=
  staged.retypes (source, own) ((mem_ofType staged.read).mpr ⟨holds, isType⟩)

private theorem stored_of (staged : Retyped map old new found existing)
    (holds : HoldsEdge map source own) (isType : source.rtype = old) :
    EdgeKey.decodeFwd (edgeBytes (retypedEdge new source)) = .ok (retypedEdge new source) := by
  have member : Write.putEdge (retypedEdge new source) (retypedRecord new existing source own) ∈
      ((ofType old found).map (retypeMove new existing)).flatMap EdgeMove.writes := by
    refine List.mem_flatMap.mpr ⟨retypeMove new existing (source, own), ?_, ?_⟩
    · exact List.mem_map.mpr ⟨_, (mem_ofType staged.read).mpr ⟨holds, isType⟩, rfl⟩
    · exact List.mem_cons_of_mem _ (List.mem_singleton_self _)
  exact decodeFwd_of_retyped holds.get.2.1 (staged.retypes_of holds isType).renamed
    (staged.encodes _ member)

/-- The new edge has the key of a stored edge just if it is that edge. -/
private theorem bytes_eq_iff (staged : Retyped map old new found existing)
    (holds : HoldsEdge map source own) (isType : source.rtype = old) {edge : EdgeKey}
    (stored : EdgeKey.decodeFwd (edgeBytes edge) = .ok edge) :
    edgeBytes (retypedEdge new source) = edgeBytes edge ↔ RetypedAs new source edge := by
  have renamed := (staged.retypes_of holds isType).renamed
  constructor
  · intro same
    have isNew := staged.stored_of holds isType
    rw [same, stored] at isNew
    cases isNew
    exact renamed
  · intro retyped
    rw [edge_eq_of_retyped renamed retyped]

private theorem movable (staged : Retyped map old new found existing) :
    Movable (((ofType old found).map (retypeMove new existing)).map EdgeMove.relocation) where
  apart := by
    intro left isLeft right isRight same
    obtain ⟨source, own, holds, isType, rfl⟩ := staged.mem_moves.mp isLeft
    obtain ⟨other, otherOwn, otherHolds, otherType, rfl⟩ := staged.mem_moves.mp isRight
    have retyped := (staged.bytes_eq_iff holds isType otherHolds.get.2.1).mp same
    exact staged.different (otherType.symm.trans retyped.2.1)
  agree := by
    intro left isLeft right isRight same
    obtain ⟨source, own, holds, isType, rfl⟩ := staged.mem_moves.mp isLeft
    obtain ⟨other, otherOwn, otherHolds, otherType, rfl⟩ := staged.mem_moves.mp isRight
    have stored := staged.stored_of otherHolds otherType
    have retyped := (staged.bytes_eq_iff holds isType stored).mp same
    cases source_eq_of_retyped retyped (staged.retypes_of otherHolds otherType).renamed isType
      otherType
    cases Option.some.inj (holds.get.2.2.symm.trans otherHolds.get.2.2)
    rfl

private theorem get_moved (staged : Retyped map old new found existing) {edge : EdgeKey}
    (stored : EdgeKey.decodeFwd (edgeBytes edge) = .ok edge) (record : EdgeRecord) :
    (map.applyAll ((((ofType old found).map (retypeMove new existing)).map
        EdgeMove.relocation).flatMap Move.ops)).get (edgeBytes edge) = some record ↔
      (∃ source own, HoldsEdge map source own ∧ source.rtype = old ∧ RetypedAs new source edge ∧
        retypedRecord new existing source own = record) ∨
      (HoldsEdge map edge record ∧ edge.rtype ≠ old ∧ ∀ source own, HoldsEdge map source own →
        source.rtype = old → ¬ RetypedAs new source edge) := by
  rw [map.get_applyAll_moves staged.movable]
  constructor
  · rintro (⟨move, member, same, rfl⟩ | ⟨isStored, free⟩)
    · obtain ⟨source, own, holds, isType, rfl⟩ := staged.mem_moves.mp member
      exact .inl ⟨source, own, holds, isType, (staged.bytes_eq_iff holds isType stored).mp same, rfl⟩
    · have holds : HoldsEdge map edge record := ⟨_, stored, isStored⟩
      refine .inr ⟨holds, fun isType => ?_, fun source own sourceHolds isType retyped => ?_⟩
      · exact (free _ (staged.mem_moves.mpr ⟨edge, record, holds, isType, rfl⟩)).1 rfl
      · exact (free _ (staged.mem_moves.mpr ⟨source, own, sourceHolds, isType, rfl⟩)).2
          ((staged.bytes_eq_iff sourceHolds isType stored).mpr retyped)
  · rintro (⟨source, own, holds, isType, retyped, rfl⟩ | ⟨holds, notOld, free⟩)
    · exact .inl ⟨_, staged.mem_moves.mpr ⟨source, own, holds, isType, rfl⟩,
        (staged.bytes_eq_iff holds isType stored).mpr retyped, rfl⟩
    · refine .inr ⟨holds.get.2.2, fun move member => ?_⟩
      obtain ⟨source, own, sourceHolds, isType, rfl⟩ := staged.mem_moves.mp member
      refine ⟨fun same => ?_, fun same => ?_⟩
      · have decoded := sourceHolds.get.2.1
        dsimp only at same
        rw [same, stored] at decoded
        cases decoded
        exact notOld isType
      · exact free source own sourceHolds isType
          ((staged.bytes_eq_iff sourceHolds isType stored).mp same)

private theorem record_iff (staged : Retyped map old new found existing)
    (holds : HoldsEdge map source own) (isType : source.rtype = old) {edge : EdgeKey}
    (retyped : RetypedAs new source edge) (record : EdgeRecord) :
    retypedRecord new existing source own = record ↔
      (record = own ∧ ∀ other, ¬ HoldsEdge map edge other) ∨
        ∃ other, HoldsEdge map edge other ∧ RecordsUnited own other record := by
  have retypes := staged.retypes_of holds isType
  obtain rfl := edge_eq_of_retyped retypes.renamed retyped
  have isThere : ∀ other, existing.get (edgeBytes (retypedEdge new source)) = some other ↔
      HoldsEdge map (retypedEdge new source) other := by
    intro other
    rw [staged.isExisting]
    constructor
    · rintro ⟨edge, edgeHolds, -, same⟩
      have decoded := edgeHolds.get.2.1
      rw [same, staged.stored_of holds isType] at decoded
      cases decoded
      exact edgeHolds
    · exact fun edgeHolds => ⟨_, edgeHolds, retypes.renamed.2.1, rfl⟩
  cases found : existing.get (edgeBytes (retypedEdge new source)) with
  | none =>
      have vacant : ∀ other, ¬ HoldsEdge map (retypedEdge new source) other := by
        intro other edgeHolds
        rw [(isThere other).mpr edgeHolds] at found
        cases found
      rw [retypes.alone found]
      constructor
      · rintro rfl
        exact .inl ⟨rfl, vacant⟩
      · rintro (⟨rfl, -⟩ | ⟨other, edgeHolds, -⟩)
        · rfl
        · exact absurd edgeHolds (vacant other)
  | some other =>
      have united := retypes.united other found
      constructor
      · rintro rfl
        exact .inr ⟨other, (isThere other).mp found, united⟩
      · rintro (⟨-, vacant⟩ | ⟨another, edgeHolds, again⟩)
        · exact absurd ((isThere other).mp found) (vacant other)
        · rw [(isThere another).mpr edgeHolds] at found
          cases found
          exact united.unique again

end Retyped

section

variable {repo : Repository} {next : Workspace} {old new : String} {policy : RenamePolicy}

/-- A rename that is saved: what became of each map. -/
structure RenameSaved (repo : Repository) (old new : String) (next : Workspace) :
    Prop where
  edges : ∃ found existing, Retyped repo.workspace.manifest.edgesFwd old new found existing ∧
    next.manifest.edgesFwd = repo.workspace.manifest.edgesFwd.applyAll
      ((((ofType old found).map (retypeMove new existing)).map EdgeMove.relocation).flatMap
        Move.ops)
  mirrored : Mirrored repo.workspace.manifest.edgesFwd repo.workspace.manifest.edgesRev →
    Mirrored next.manifest.edgesFwd next.manifest.edgesRev
  nodes : next.manifest.nodes = repo.workspace.manifest.nodes
  typed : Keyed repo.workspace.manifest → Typed repo.workspace.manifest → Typed next.manifest
  whole : Mirrored repo.workspace.manifest.edgesFwd repo.workspace.manifest.edgesRev →
    NoDangling repo.workspace.manifest.nodes repo.workspace.manifest.edgesFwd →
      NoDangling next.manifest.nodes next.manifest.edgesFwd
  schema : ∃ decl, Reconciled (UsesType repo.workspace.manifest.edgesFwd old)
      (UsesType repo.workspace.manifest.edgesFwd new)
      (declOf (schemaEntries repo.workspace.manifest.schema) old)
      (declOf (schemaEntries repo.workspace.manifest.schema) new) decl ∧
    next.manifest.schema = repo.workspace.manifest.schema.applyAll
      (.delete (entryKey kindRtype old) ::
        decl.toList.map fun decl => .put (entryKey kindRtype new) (.relType new decl))

private theorem renameSaved_of_savedAs
    (saved : repo.SavedAs (renameWrites repo.workspace.manifest old new policy) next) :
    RenameSaved repo old new next := by
  obtain ⟨writes, txn, accepted, written, saved⟩ := saved
  obtain ⟨different, found, existing, decl, read, isExisting, retypes, reconciled, rfl⟩ :=
    renameWrites_staged accepted
  have staged := stagedBy_of_writeAll written
  have isBase : txn.base = repo.workspace := staged.base
  have maps := Transaction.saveInPlace_maps saved
  obtain ⟨noNodes, noSchema⟩ :=
    EdgeMove.otherOps_writes ((ofType old found).map (retypeMove new existing))
  have declOps : (decl.toList.map fun decl => Write.putSchema (.relType new decl)).flatMap
      Write.nodeOps = [] ∧ (decl.toList.map fun decl => Write.putSchema (.relType new decl)).flatMap
      Write.edgeOps = [] ∧ (decl.toList.map fun decl => Write.putSchema (.relType new decl)).flatMap
      Write.schemaOps = decl.toList.map fun decl =>
        .put (entryKey kindRtype new) (.relType new decl) := by
    cases decl <;> exact ⟨rfl, rfl, rfl⟩
  have inStep := fun mirrored => @Transaction.stage_inStep repo.workspace mirrored
    (((ofType old found).map (retypeMove new existing)).flatMap EdgeMove.writes ++
      .deleteSchemaEntry old ::
        (decl.toList.map fun decl => .putSchema (.relType new decl)))
  have stagedKeys := Transaction.stage_stagedKeys repo.workspace
    (((ofType old found).map (retypeMove new existing)).flatMap EdgeMove.writes ++
      .deleteSchemaEntry old ::
        (decl.toList.map fun decl => .putSchema (.relType new decl)))
  rw [Transaction.writeAll_eq_stage written] at inStep stagedKeys
  refine ⟨⟨found, existing, ⟨different, read, isExisting, retypes, fun write member =>
    staged.encodes write (List.mem_append_left _ member)⟩, ?_⟩, ?_, ?_, ?_, ?_, decl, reconciled, ?_⟩
  · rw [maps, Transaction.applied, staged.edgesFwd, isBase, List.flatMap_append,
      EdgeMove.edgeOps_writes, List.flatMap_cons, declOps.2.1]
    simp [Transaction.beginWrite, Write.edgeOps]
  · intro mirrored
    rw [maps]
    exact inStep mirrored
  · rw [maps, Transaction.applied, staged.nodes, isBase, List.flatMap_append, noNodes,
      List.flatMap_cons, declOps.1]
    rfl
  · rw [← isBase]
    exact fun keyed typed => Transaction.saveInPlace_typed keyed stagedKeys typed saved
  · intro mirrored whole
    rcases Transaction.saveInPlace_cases saved with ⟨-, rfl⟩ | accepted
    · rw [isBase]
      exact whole
    · rw [maps]
      exact Transaction.noDangling_of_checkIntegrity (inStep mirrored) stagedKeys (isBase ▸ whole)
        accepted.integrity
  · rw [maps, Transaction.applied, staged.schema, isBase, List.flatMap_append, noSchema,
      List.flatMap_cons, declOps.2.2]
    rfl

private theorem RenameSaved.get_schema (saved : RenameSaved repo old new next)
    (different : old ≠ new) :
    ∃ decl, Reconciled (UsesType repo.workspace.manifest.edgesFwd old)
      (UsesType repo.workspace.manifest.edgesFwd new)
      (declOf (schemaEntries repo.workspace.manifest.schema) old)
      (declOf (schemaEntries repo.workspace.manifest.schema) new) decl ∧
    ∀ key, next.manifest.schema.get key =
      if key = entryKey kindRtype old then none
      else if key = entryKey kindRtype new then
        (decl.map (SchemaEntry.relType new)).or (repo.workspace.manifest.schema.get key)
      else repo.workspace.manifest.schema.get key := by
  obtain ⟨decl, reconciled, isSchema⟩ := saved.schema
  refine ⟨decl, reconciled, fun key => ?_⟩
  have apart : entryKey kindRtype old ≠ entryKey kindRtype new :=
    fun same => different (entryKey_injective same).2
  cases decl with
  | none =>
      have deleted : next.manifest.schema =
          repo.workspace.manifest.schema.delete (entryKey kindRtype old) := isSchema
      rw [deleted, SortedMap.get_delete, Option.map_none, Option.none_or, ite_self]
      simp only [eq_comm]
  | some decl =>
      have put : next.manifest.schema =
          (repo.workspace.manifest.schema.delete (entryKey kindRtype old)).put
            (entryKey kindRtype new) (.relType new decl) := isSchema
      rw [put, SortedMap.get_put, SortedMap.get_delete, Option.map_some, Option.some_or]
      by_cases isOld : key = entryKey kindRtype old
      · rw [if_pos isOld, if_neg (isOld ▸ apart.symm), if_pos isOld.symm]
      · rw [if_neg isOld, if_neg (Ne.symm isOld)]
        simp only [eq_comm]

private theorem RenameSaved.keyed (saved : RenameSaved repo old new next) (different : old ≠ new)
    (keyed : SchemaKeyed repo.workspace.manifest.schema) : SchemaKeyed next.manifest.schema := by
  obtain ⟨decl, -, rows⟩ := saved.get_schema different
  rintro ⟨key, entry⟩ member
  have isStored := SortedMap.get_eq_some_iff.mpr member
  rw [rows key] at isStored
  split at isStored
  · cases isStored
  · split at isStored
    · next isNew =>
        cases decl with
        | none => exact keyed (key, entry) (SortedMap.get_eq_some_iff.mp isStored)
        | some decl =>
            cases isStored
            exact isNew.symm
    · exact keyed (key, entry) (SortedMap.get_eq_some_iff.mp isStored)

private theorem RenameSaved.declared (saved : RenameSaved repo old new next)
    (different : old ≠ new) (keyed : SchemaKeyed repo.workspace.manifest.schema) :
    Reconciled (UsesType repo.workspace.manifest.edgesFwd old)
      (UsesType repo.workspace.manifest.edgesFwd new)
      ((relTypeDefs repo.workspace.manifest.schema).get old)
      ((relTypeDefs repo.workspace.manifest.schema).get new)
      ((relTypeDefs next.manifest.schema).get new) := by
  have nextKeyed := saved.keyed different keyed
  obtain ⟨decl, reconciled, rows⟩ := saved.get_schema different
  rw [declOf_eq keyed, declOf_eq keyed] at reconciled
  have row := rows (entryKey kindRtype new)
  rw [if_neg fun same => different (entryKey_injective same).2.symm, if_pos rfl] at row
  have isDecl : (relTypeDefs next.manifest.schema).get new = decl := by
    apply Option.ext
    intro other
    rw [relTypeDefs_get nextKeyed, row]
    cases decl with
    | some decl => simp
    | none =>
        rw [Option.map_none, Option.none_or, ← relTypeDefs_get keyed]
        rw [reconciled.undeclared rfl]
  rw [isDecl]
  exact reconciled

private theorem RenameSaved.labels (saved : RenameSaved repo old new next)
    (different : old ≠ new) (keyed : SchemaKeyed repo.workspace.manifest.schema) :
    labelDefs next.manifest.schema = labelDefs repo.workspace.manifest.schema := by
  obtain ⟨decl, -, rows⟩ := saved.get_schema different
  apply SortedMap.ext_get
  intro label
  apply Option.ext
  intro decl
  rw [labelDefs_get (saved.keyed different keyed), labelDefs_get keyed, rows, if_neg, if_neg]
  · exact fun same => absurd (entryKey_injective same).1 (by decide)
  · exact fun same => absurd (entryKey_injective same).1 (by decide)

private theorem RenameSaved.renamedFrom (saved : RenameSaved repo old new next) :
    RenamedFrom repo.workspace.manifest next.manifest old new := by
  obtain ⟨found, existing, staged, isEdges⟩ := saved.edges
  have different := staged.different
  have rows : ∀ edge record, HoldsEdge next.manifest.edgesFwd edge record ↔
      (∃ source own, HoldsEdge repo.workspace.manifest.edgesFwd source own ∧ source.rtype = old ∧
        RetypedAs new source edge ∧ retypedRecord new existing source own = record) ∨
      (HoldsEdge repo.workspace.manifest.edgesFwd edge record ∧ edge.rtype ≠ old ∧
        ∀ source own, HoldsEdge repo.workspace.manifest.edgesFwd source own →
          source.rtype = old → ¬ RetypedAs new source edge) := by
    intro edge record
    constructor
    · intro holds
      have isThere := holds.get.2.2
      rw [isEdges] at isThere
      exact (staged.get_moved holds.get.2.1 record).mp isThere
    · intro comes
      have stored : EdgeKey.decodeFwd (edgeBytes edge) = .ok edge := by
        rcases comes with ⟨source, own, holds, isType, retyped, -⟩ | ⟨holds, -⟩
        · rw [edge_eq_of_retyped retyped (staged.retypes_of holds isType).renamed]
          exact staged.stored_of holds isType
        · exact holds.get.2.1
      refine ⟨_, stored, ?_⟩
      rw [isEdges]
      exact (staged.get_moved stored record).mpr comes
  refine ⟨?_, ?_, ?_, ?_, saved.mirrored, saved.nodes, ?_, saved.declared different, ?_, ?_⟩
  · intro forward record isStored
    rw [isEdges, SortedMap.get_applyAll_moves _ staged.movable] at isStored
    rcases isStored with ⟨move, member, rfl, -⟩ | ⟨isStored, -⟩
    · obtain ⟨source, own, holds, isType, rfl⟩ := staged.mem_moves.mp member
      exact ⟨_, staged.stored_of holds isType⟩
    · obtain ⟨edge, decoded, -⟩ := holdsEdge_of_get staged.read isStored
      exact ⟨edge, decoded⟩
  · intro edge record holds isOld
    rcases (rows edge record).mp holds with ⟨source, own, -, -, retyped, -⟩ | ⟨-, notOld, -⟩
    · exact different (isOld.symm.trans retyped.2.1)
    · exact notOld isOld
  · intro edge record isNew
    rw [rows edge record, ComesUnder, or_comm]
    refine or_congr ?_ ?_
    · constructor
      · rintro ⟨holds, -, free⟩
        exact ⟨holds, free⟩
      · rintro ⟨holds, free⟩
        exact ⟨holds, fun isOld => different (isOld.symm.trans isNew), free⟩
    · constructor
      · rintro ⟨source, own, holds, isType, retyped, isRecord⟩
        exact ⟨source, own, holds, isType, retyped,
          (staged.record_iff holds isType retyped record).mp isRecord⟩
      · rintro ⟨source, own, holds, isType, retyped, isRecord⟩
        exact ⟨source, own, holds, isType, retyped,
          (staged.record_iff holds isType retyped record).mpr isRecord⟩
  · intro edge record notOld notNew
    rw [rows edge record]
    constructor
    · rintro (⟨source, own, -, -, retyped, -⟩ | ⟨holds, -⟩)
      · exact absurd retyped.2.1 notNew
      · exact holds
    · exact fun holds => .inr ⟨holds, notOld, fun source own _ _ retyped => notNew retyped.2.1⟩
  · obtain ⟨decl, -, rows⟩ := saved.get_schema different
    rw [rows, if_pos rfl]
  · intro key notOld notNew
    obtain ⟨decl, -, rows⟩ := saved.get_schema different
    rw [rows, if_neg notOld, if_neg notNew]
  · intro keyed mirrored enforced
    refine ⟨saved.typed keyed enforced.types, saved.whole mirrored enforced.endpoints, ?_, ?_⟩
    · rw [saved.nodes, saved.labels different keyed.schema]
      exact enforced.required
    · rw [saved.nodes, saved.labels different keyed.schema]
      exact enforced.unique

end

theorem renamedFrom_of_savedAs {repo : Repository} {next : Workspace} {old new : String}
    {policy : RenamePolicy}
    (saved : repo.SavedAs (renameWrites repo.workspace.manifest old new policy) next) :
    old ≠ new ∧ RenamedFrom repo.workspace.manifest next.manifest old new := by
  have renamed := renameSaved_of_savedAs saved
  obtain ⟨found, existing, staged, -⟩ := renamed.edges
  exact ⟨staged.different, renamed.renamedFrom⟩

/-- A rename fails and leaves the workspace, or the workspace has the edges and the
declaration of the old type under the new one, and all else as it was: on success, and
also where the commit of what was saved is refused. -/
theorem Repository.renameRelType_keeps_graph (hash : Commit → Nat) (repo : Repository)
    (old new : String) (policy : RenamePolicy) (stamp : Nat) :
    repo.Untouched (repo.renameRelType hash old new policy stamp) ∨
      RenamedFrom repo.workspace.manifest
        (repo.renameRelType hash old new policy stamp).2.workspace.manifest old new ∧
      ∀ commit, (repo.renameRelType hash old new policy stamp).1 = .ok commit →
        commit.manifest =
            (repo.renameRelType hash old new policy stamp).2.workspace.manifest ∧
          (repo.renameRelType hash old new policy stamp).2.headCommit = some commit := by
  rcases @commitWrites_cases hash repo (renameWrites repo.workspace.manifest old new policy)
    stamp with untouched | ⟨next, savedAs⟩
  · exact .inl untouched
  · have commits := @commitWrites_of_saved hash _ _ _ savedAs stamp
    have renamed := (renamedFrom_of_savedAs savedAs).2
    rw [← commits.workspace] at renamed
    refine .inr ⟨renamed, fun commit done => ?_⟩
    obtain ⟨isManifest, isHead⟩ := commits.commit commit done
    exact ⟨isManifest.trans commits.workspace.symm, isHead⟩

/-! A relationship type may declare a property as required, and no writer reads that. -/

def dependsDef : RelTypeDef := ⟨none, .empty, ["since"]⟩

def undeclaredLinks : Repository :=
  Repository.init.perform Repository.sampleHash
    (.commit [.putSchema (.relType "Depends" dependsDef), .putNode (hostKey 1) ⟨∅, .empty⟩,
      .putNode (hostKey 2) ⟨∅, .empty⟩, .putEdge linkKey ⟨.empty⟩] false 0)

def dependsKey : EdgeKey := ⟨hostKey 1, "Depends", hostKey 2, .null, rfl⟩

/-- An edge that comes under a declaration without the property that it requires. -/
theorem Repository.renameRelType_leaves_required :
    ¬ (undeclaredLinks.Untouched
        (undeclaredLinks.renameRelType sampleHash "LINK" "Depends" .refuse 1) ∨
      RenamedFrom undeclaredLinks.workspace.manifest
        (undeclaredLinks.renameRelType sampleHash "LINK" "Depends" .refuse 1).2.workspace.manifest
          "LINK" "Depends" ∧
      DeclaredHold (undeclaredLinks.renameRelType sampleHash "LINK" "Depends" .refuse
        1).2.workspace.manifest) := by
  rintro (⟨⟨cause, failed⟩, -⟩ | ⟨-, hold⟩)
  · have succeeds : (undeclaredLinks.renameRelType sampleHash "LINK" "Depends" .refuse
        1).1.toOption ≠ none := by
      decide +kernel
    rw [failed] at succeeds
    exact succeeds rfl
  · have isThere : EdgeKey.decodeFwd (edgeBytes dependsKey) = .ok dependsKey ∧
        (undeclaredLinks.renameRelType sampleHash "LINK" "Depends" .refuse
          1).2.workspace.manifest.edgesFwd.get (edgeBytes dependsKey) = some ⟨.empty⟩ ∧
        (relTypeDefs (undeclaredLinks.renameRelType sampleHash "LINK" "Depends" .refuse
          1).2.workspace.manifest.schema).get "Depends" = some dependsDef := by
      decide +kernel
    obtain ⟨decoded, isStored, declared⟩ := isThere
    rcases hold.relRequired dependsKey ⟨.empty⟩ ⟨_, decoded, isStored⟩ dependsDef declared "since"
      (List.mem_singleton_self _) with named | present
    · cases named
    · exact present rfl

end Acetone.Graph

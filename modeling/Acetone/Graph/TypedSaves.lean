import Acetone.Graph.Saves
import Acetone.Graph.Validity

/-!
# Declared types over runs of saves

Two partial checks keep every record to its declared types: what a save puts is
judged against the new schema, and what it leaves alone is judged by the
properties whose declaration changed.  An unchanged declaration still reads the
same part of the record, because the key tuple of a label with nodes and the
discriminator of a type with edges are kept.
-/

namespace Acetone.Graph

open Acetone.Lib Acetone.Model

section

variable {K R D S : Type}

def defsOf (rules : TypeRules K R D) (entries : List SchemaEntry) : SortedMap String D :=
  .ofList (entries.filterMap rules.pair?)

def Conforms (rules : TypeRules K R D) (schema : SchemaMap) (map : SortedMap Bytes R) :
    Prop :=
  ∀ row ∈ map.entries, ∀ key ∈ (rules.decode row.1).toOption,
    ∀ decl ∈ (defsOf rules (schemaEntries schema)).get (rules.governs key),
      rules.violations key row.2 decl = []

instance conformsDecidable (rules : TypeRules K R D) (schema : SchemaMap)
    (map : SortedMap Bytes R) : Decidable (Conforms rules schema map) :=
  inferInstanceAs (Decidable (∀ row ∈ map.entries, ∀ key ∈ (rules.decode row.1).toOption,
    ∀ decl ∈ (defsOf rules (schemaEntries schema)).get (rules.governs key),
      rules.violations key row.2 decl = []))

/-- Every staged put conforms, also one that a later update supersedes. -/
def StagedConforms (rules : TypeRules K R D) (schema : SchemaMap)
    (staged : List (MapOp Bytes R)) : Prop :=
  ∀ op ∈ staged, ∀ record ∈ op.outcome, ∀ key ∈ (rules.decode op.key).toOption,
    ∀ decl ∈ (defsOf rules (schemaEntries schema)).get (rules.governs key),
      rules.violations key record decl = []

instance stagedConformsDecidable (rules : TypeRules K R D) (schema : SchemaMap)
    (staged : List (MapOp Bytes R)) : Decidable (StagedConforms rules schema staged) :=
  inferInstanceAs (Decidable (∀ op ∈ staged, ∀ record ∈ op.outcome,
    ∀ key ∈ (rules.decode op.key).toOption,
      ∀ decl ∈ (defsOf rules (schemaEntries schema)).get (rules.governs key),
        rules.violations key record decl = []))

/-- What the argument uses of the rules: a violation is of a declared property,
and depends on its declaration and the shape of the definition only. -/
structure TypeRules.Lawful (rules : TypeRules K R D) (kind : String)
    (make : String → D → SchemaEntry) (shape : D → S) : Prop where
  isPair : ∀ {entry pair}, rules.pair? entry = some pair ↔ make pair.1 pair.2 = entry
  mapKey : ∀ name decl, (make name decl).mapKey = entryKey kind name
  declared : ∀ {key record decl violation},
    violation ∈ rules.violations key record decl →
      (rules.types decl).get violation.1 = some violation.2.1
  shaped : ∀ {key record decl other violation}, shape decl = shape other →
    (rules.types other).get violation.1 = (rules.types decl).get violation.1 →
      violation ∈ rules.violations key record decl →
      violation ∈ rules.violations key record other

variable {rules : TypeRules K R D} {kind : String} {make : String → D → SchemaEntry}
  {shape : D → S} (lawful : rules.Lawful kind make shape)
  {schema : SchemaMap}

include lawful

private theorem pairs_functional (keyed : SchemaKeyed schema) :
    ∀ first ∈ (schemaEntries schema).filterMap rules.pair?,
      ∀ second ∈ (schemaEntries schema).filterMap rules.pair?,
        first.1 = second.1 → first.2 = second.2 := by
  have row : ∀ pair ∈ (schemaEntries schema).filterMap rules.pair?,
      schema.get (entryKey kind pair.1) = some (make pair.1 pair.2) := by
    intro pair member
    obtain ⟨entry, isEntry, isPair⟩ := List.mem_filterMap.mp member
    have made := lawful.isPair.mp isPair
    rw [← lawful.mapKey pair.1 pair.2, made]
    exact (mem_schemaEntries keyed).mp isEntry
  intro first isFirst second isSecond same
  have found := row first isFirst
  rw [same, row second isSecond, Option.some.injEq] at found
  have itself : rules.pair? (make second.1 first.2) = some (second.1, first.2) :=
    lawful.isPair.mpr rfl
  rw [lawful.isPair.mpr found, Option.some.injEq, Prod.ext_iff] at itself
  exact itself.2.symm

private theorem defsOf_get (keyed : SchemaKeyed schema) {name : String} {decl : D} :
    (defsOf rules (schemaEntries schema)).get name = some decl ↔
      (name, decl) ∈ (schemaEntries schema).filterMap rules.pair? :=
  SortedMap.get_ofList_eq_some (pairs_functional lawful keyed)

private theorem typedDefs_get (keyed : SchemaKeyed schema) {name : String} {decl : D} :
    (typedDefs rules (schemaEntries schema)).get name = some decl ↔
      (defsOf rules (schemaEntries schema)).get name = some decl ∧
        (rules.types decl).entries ≠ [] := by
  have functional := pairs_functional lawful keyed
  rw [typedDefs, SortedMap.get_ofList_eq_some, defsOf_get lawful keyed, List.mem_filter]
  · simp
  · intro first isFirst second isSecond
    exact functional first (List.mem_of_mem_filter isFirst) second
      (List.mem_of_mem_filter isSecond)

private theorem violations_of_untyped {key : K} {record : R} {decl : D}
    (untyped : (rules.types decl).entries = []) : rules.violations key record decl = [] := by
  rw [List.eq_nil_iff_forall_not_mem]
  intro violation member
  have declared := SortedMap.get_eq_some_iff.mp (lawful.declared member)
  rw [untyped] at declared
  cases declared

private theorem checkStagedOp_eq_ok (keyed : SchemaKeyed schema) {op : MapOp Bytes R}
    {key : K} (isKey : rules.decode op.key = .ok key) :
    checkStagedOp rules (typedDefs rules (schemaEntries schema)) op = .ok () ↔
      ∀ record ∈ op.outcome,
        ∀ decl ∈ (defsOf rules (schemaEntries schema)).get (rules.governs key),
          rules.violations key record decl = [] := by
  cases op with
  | delete bytes => simp [checkStagedOp, MapOp.outcome]
  | put bytes record =>
      have decoded : rules.decode bytes = .ok key := isKey
      simp only [checkStagedOp, decoded, ok_bind, MapOp.outcome, Option.mem_def,
        Option.some.injEq, forall_eq']
      cases typed : (typedDefs rules (schemaEntries schema)).get (rules.governs key) with
      | none =>
          refine iff_of_true rfl ?_
          intro decl found
          by_cases untyped : (rules.types decl).entries = []
          · exact violations_of_untyped lawful untyped
          · rw [(typedDefs_get lawful keyed).mpr ⟨found, untyped⟩] at typed
            cases typed
      | some decl =>
          have found := ((typedDefs_get lawful keyed).mp typed).1
          rw [found]
          simp only [Option.some.injEq, forall_eq']
          cases rules.violations key record decl with
          | nil => simp [refuseFirst]
          | cons violation violations => simp [refuseFirst]

theorem checkStagedTypes_eq_ok (keyed : SchemaKeyed schema)
    {staged : List (MapOp Bytes R)}
    (decodes : ∀ op ∈ staged, ∃ key, rules.decode op.key = .ok key)
    {entries : List SchemaEntry} (read : readSchema schema = .ok entries) :
    checkStagedTypes rules schema staged = .ok () ↔ StagedConforms rules schema staged := by
  have each : (∀ op ∈ staged,
      checkStagedOp rules (typedDefs rules (schemaEntries schema)) op = .ok ()) ↔
      StagedConforms rules schema staged := by
    refine forall₂_congr fun op member => ?_
    obtain ⟨key, isKey⟩ := decodes op member
    rw [checkStagedOp_eq_ok lawful keyed isKey, isKey]
    simp [Except.toOption]
  rw [← each, checkStagedTypes]
  split
  · next deletes =>
      refine iff_of_true rfl ?_
      intro op member
      have isDelete := List.all_eq_true.mp deletes op member
      cases op with
      | put bytes record => cases isDelete
      | delete bytes => rfl
  · rw [read, ok_bind, readSchema_eq read]
    dsimp only
    split
    · next untyped =>
        refine iff_of_true rfl ?_
        intro op member
        obtain ⟨key, isKey⟩ := decodes op member
        rw [checkStagedOp_eq_ok lawful keyed isKey]
        intro record _ decl found
        apply violations_of_untyped lawful
        by_contra typed
        have inTyped := SortedMap.get_eq_some_iff.mp
          ((typedDefs_get lawful keyed).mpr ⟨found, typed⟩)
        rw [List.isEmpty_iff.mp untyped] at inTyped
        cases inTyped
    · exact checkEach_eq_ok

theorem stagedConforms_of_checked (keyed : SchemaKeyed schema)
    {staged : List (MapOp Bytes R)}
    (decodes : ∀ op ∈ staged, ∃ key, rules.decode op.key = .ok key)
    (checked : checkStagedTypes rules schema staged = .ok ()) :
    StagedConforms rules schema staged := by
  cases read : readSchema schema with
  | ok entries => exact (checkStagedTypes_eq_ok lawful keyed decodes read).mp checked
  | error cause =>
      rw [checkStagedTypes, read] at checked
      split at checked
      · next deletes =>
          intro op member record put
          have isDelete := List.all_eq_true.mp deletes op member
          rw [Option.mem_def.mp put] at isDelete
          cases isDelete
      · cases checked

omit lawful in
private theorem mem_changedTypes {previous : Option Types} {types : Types}
    {property : String} :
    property ∈ changedTypes previous types ↔ ∃ declared,
      types.get property = some declared ∧ previous.bind (·.get property) ≠ some declared := by
  rw [changedTypes, List.mem_map]
  constructor
  · rintro ⟨⟨name, declared⟩, member, rfl⟩
    rw [List.mem_filter, decide_eq_true_eq] at member
    exact ⟨declared, SortedMap.get_eq_some_iff.mpr member.1, member.2⟩
  · rintro ⟨declared, found, different⟩
    exact ⟨(property, declared), List.mem_filter.mpr
      ⟨SortedMap.get_eq_some_iff.mp found, decide_eq_true different⟩, rfl⟩

def changedBy (rules : TypeRules K R D) (oldEntries : List SchemaEntry) (name : String)
    (decl : D) : List String :=
  changedTypes (((defsOf rules oldEntries).get name).map rules.types) (rules.types decl)

omit lawful in
private theorem mem_retyped {oldEntries newEntries : List SchemaEntry} {name : String}
    {decl : D} {changed : List String} :
    (name, decl, changed) ∈ retyped rules oldEntries newEntries ↔
      (name, decl) ∈ newEntries.filterMap rules.pair? ∧
        changed = changedBy rules oldEntries name decl ∧ changed ≠ [] := by
  rw [retyped, List.mem_filterMap]
  constructor
  · rintro ⟨⟨other, found⟩, member, isRetyped⟩
    dsimp only at isRetyped
    split at isRetyped
    · cases isRetyped
    · next nonempty =>
        cases isRetyped
        exact ⟨member, rfl, by simpa using nonempty⟩
  · rintro ⟨member, rfl, nonempty⟩
    refine ⟨(name, decl), member, ?_⟩
    dsimp only
    rw [if_neg (by rwa [List.isEmpty_iff])]
    rfl

omit lawful in
private theorem judgeChanged_eq_ok {key : K} {record : R} {decl : D}
    {changed : List String} :
    judgeChanged rules key record decl changed = .ok () ↔
      ∀ violation ∈ rules.violations key record decl, violation.1 ∉ changed := by
  rw [judgeChanged]
  cases found : (rules.violations key record decl).find?
      fun violation => decide (violation.1 ∈ changed) with
  | none =>
      rw [List.find?_eq_none] at found
      simp only [refuseFirst, true_iff]
      simpa using found
  | some violation =>
      have member := List.mem_of_find?_eq_some found
      have isChanged := List.find?_some found
      simp only [refuseFirst, reduceCtorEq, false_iff]
      intro none
      exact none violation member (by simpa using isChanged)

/-- A record that conformed and is judged by the changed properties conforms
still, if the definition kept its shape. -/
private theorem conforms_of_judged {old : SchemaMap} {key : K} {record : R} {decl : D}
    (before : ∀ previous ∈ (defsOf rules (schemaEntries old)).get (rules.governs key),
      rules.violations key record previous = [] ∧ shape decl = shape previous)
    (judged : ∀ violation ∈ rules.violations key record decl,
      violation.1 ∉ changedBy rules (schemaEntries old) (rules.governs key) decl) :
    rules.violations key record decl = [] := by
  rw [List.eq_nil_iff_forall_not_mem]
  intro violation member
  have declared := lawful.declared member
  have unchanged := judged violation member
  rw [changedBy, mem_changedTypes] at unchanged
  have same : (((defsOf rules (schemaEntries old)).get (rules.governs key)).map
      rules.types).bind (·.get violation.1) = some violation.2.1 := by
    by_contra different
    exact unchanged ⟨_, declared, different⟩
  cases found : (defsOf rules (schemaEntries old)).get (rules.governs key) with
  | none =>
      rw [found] at same
      cases same
  | some previous =>
      rw [found] at same
      obtain ⟨none, sameShape⟩ := before previous found
      have kept := lawful.shaped sameShape (same.trans declared.symm) member
      rw [none] at kept
      cases kept

end

section

variable {K R D : Type}

/-- Every record a transaction leaves alone is without a violation of a changed
declaration. -/
def JudgedByChange (rules : TypeRules K R D) (oldEntries newEntries : List SchemaEntry)
    (map : SortedMap Bytes R) (touched : List Bytes) : Prop :=
  ∀ row ∈ map.entries, row.1 ∉ touched → ∀ key, rules.decode row.1 = .ok key →
    ∀ decl, (rules.governs key, decl) ∈ newEntries.filterMap rules.pair? →
      ∀ violation ∈ rules.violations key row.2 decl,
        violation.1 ∉ changedBy rules oldEntries (rules.governs key) decl

end

section

variable {K R D S : Type} {rules : TypeRules K R D} {kind : String}
  {make : String → D → SchemaEntry} {shape : D → S}
  (lawful : rules.Lawful kind make shape) {old new : SchemaMap} {base : SortedMap Bytes R}
  {ops : List (MapOp Bytes R)}

/-- What is put conforms by the check of what is staged, what is left alone by
`untouched`. -/
private theorem conforms_applyAll (staged : StagedConforms rules new ops)
    (untouched : ∀ row ∈ base.entries, row.1 ∉ ops.map MapOp.key →
      ∀ key, rules.decode row.1 = .ok key →
        ∀ decl, (defsOf rules (schemaEntries new)).get (rules.governs key) = some decl →
          rules.violations key row.2 decl = []) :
    Conforms rules new (base.applyAll ops) := by
  intro row member key isKey decl isDecl
  rcases get_applyAll_cases (SortedMap.get_eq_some_iff.mpr member) with
    ⟨op, isOp, sameKey, put⟩ | ⟨others, found⟩
  · refine staged op isOp row.2 put key ?_ decl isDecl
    rw [sameKey]
    exact isKey
  · refine untouched row (SortedMap.get_eq_some_iff.mp found) ?_ key
      (mem_toOption.mp isKey) decl isDecl
    rintro inOps
    obtain ⟨op, isOp, sameKey⟩ := List.mem_map.mp inOps
    exact others op isOp sameKey

include lawful

private theorem untouched_of_change (keyedNew : SchemaKeyed new)
    (before : Conforms rules old base)
    (stable : ∀ row ∈ base.entries, row.1 ∉ ops.map MapOp.key →
      ∀ key, rules.decode row.1 = .ok key → ∀ previous decl,
        (defsOf rules (schemaEntries old)).get (rules.governs key) = some previous →
        (defsOf rules (schemaEntries new)).get (rules.governs key) = some decl →
        shape decl = shape previous)
    (judged : JudgedByChange rules (schemaEntries old) (schemaEntries new) base
      (ops.map MapOp.key)) :
    ∀ row ∈ base.entries, row.1 ∉ ops.map MapOp.key →
      ∀ key, rules.decode row.1 = .ok key →
        ∀ decl, (defsOf rules (schemaEntries new)).get (rules.governs key) = some decl →
          rules.violations key row.2 decl = [] := by
  intro row member untouched key isKey decl isDecl
  refine @conforms_of_judged _ _ _ _ _ _ _ _ lawful old _ _ _ ?_
    (judged row member untouched key isKey decl ((defsOf_get lawful keyedNew).mp isDecl))
  intro previous isPrevious
  exact ⟨before row member key (mem_toOption.mpr isKey) previous isPrevious,
    stable row member untouched key isKey previous decl isPrevious isDecl⟩

end

private theorem mistyped_spec {property : String} {declared : PropertyType} {value : Value}
    {violation : TypeViolation} (found : mistyped property declared value = some violation) :
    violation.1 = property ∧ violation.2.1 = declared := by
  rw [mistyped] at found
  split at found
  · cases found
  · obtain ⟨actual, -, rfl⟩ := Option.map_eq_some_iff.mp found
    exact ⟨rfl, rfl⟩

private theorem mem_byProperty {types : Types}
    {judge : String → PropertyType → Option TypeViolation} {violation : TypeViolation}
    (judges : ∀ {property declared violation}, judge property declared = some violation →
      violation.1 = property ∧ violation.2.1 = declared) :
    violation ∈ types.entries.filterMap (fun (property, declared) => judge property declared) ↔
      types.get violation.1 = some violation.2.1 ∧
        judge violation.1 violation.2.1 = some violation := by
  rw [List.mem_filterMap]
  constructor
  · rintro ⟨⟨property, declared⟩, member, found⟩
    obtain ⟨rfl, rfl⟩ := judges found
    exact ⟨SortedMap.get_eq_some_iff.mpr member, found⟩
  · rintro ⟨declared, found⟩
    exact ⟨_, SortedMap.get_eq_some_iff.mp declared, found⟩

theorem mem_typeViolations {node : NodeKey} {record : NodeRecord} {decl : LabelDef}
    {violation : TypeViolation} :
    violation ∈ typeViolations node record decl ↔
      decl.types.get violation.1 = some violation.2.1 ∧
        (match decl.key.findIdx? (· = violation.1) with
          | some position => node.key[position]?
          | none => (record.properties.get violation.1).map Subtype.val).bind
            (mistyped violation.1 violation.2.1) = some violation := by
  refine @mem_byProperty _ (fun property declared =>
    (match decl.key.findIdx? (· = property) with
      | some position => node.key[position]?
      | none => (record.properties.get property).map Subtype.val).bind
        (mistyped property declared)) _ ?_
  intro property declared violation found
  obtain ⟨value, -, breach⟩ := Option.bind_eq_some_iff.mp found
  exact mistyped_spec breach

theorem mem_relTypeViolations {edge : EdgeKey} {record : EdgeRecord}
    {decl : RelTypeDef} {violation : TypeViolation} :
    violation ∈ relTypeViolations edge record decl ↔
      decl.types.get violation.1 = some violation.2.1 ∧
        (((record.properties.get violation.1).map Subtype.val).toList ++
          (if decl.discriminator = some violation.1 then some edge.disc
            else none).toList).findSome?
          (mistyped violation.1 violation.2.1) = some violation := by
  refine @mem_byProperty _ (fun property declared =>
    (((record.properties.get property).map Subtype.val).toList ++
      (if decl.discriminator = some property then some edge.disc else none).toList).findSome?
        (mistyped property declared)) _ ?_
  intro property declared violation found
  obtain ⟨value, -, breach⟩ := List.exists_of_findSome?_eq_some found
  exact mistyped_spec breach

theorem nodeTypeRules_lawful : nodeTypeRules.Lawful kindLabel .label LabelDef.key where
  isPair := by
    intro entry pair
    cases entry <;> simp [nodeTypeRules, labelPair?, Prod.ext_iff, eq_comm]
  mapKey _ _ := rfl
  declared member := (mem_typeViolations.mp member).1
  shaped := by
    intro node record decl other violation sameKey sameType member
    obtain ⟨declared, breach⟩ := mem_typeViolations.mp member
    refine mem_typeViolations.mpr ⟨sameType.trans declared, ?_⟩
    rw [← sameKey]
    exact breach

theorem edgeTypeRules_lawful :
    edgeTypeRules.Lawful kindRtype .relType RelTypeDef.discriminator where
  isPair := by
    intro entry pair
    cases entry <;> simp [edgeTypeRules, relTypePair?, Prod.ext_iff, eq_comm]
  mapKey _ _ := rfl
  declared member := (mem_relTypeViolations.mp member).1
  shaped := by
    intro edge record decl other violation sameDisc sameType member
    obtain ⟨declared, breach⟩ := mem_relTypeViolations.mp member
    refine mem_relTypeViolations.mpr ⟨sameType.trans declared, ?_⟩
    rw [← sameDisc]
    exact breach

theorem checkRetypedLabels_eq_ok {baseNodes : NodeMap}
    {oldEntries newEntries : List SchemaEntry} {touched : List Bytes}
    (keyed : ∀ key ∈ baseNodes.keys, ∃ node, NodeKey.decode key = .ok node) :
    checkRetypedLabels baseNodes oldEntries newEntries touched = .ok () ↔
      JudgedByChange nodeTypeRules oldEntries newEntries baseNodes touched := by
  simp only [checkRetypedLabels, checkEach_eq_ok, Prod.forall, mem_scanPrefix]
  constructor
  · intro checked row member untouched node decoded decl isDecl violation isViolation changed
    have isNode : NodeKey.decode row.1 = .ok node := liftKey_eq_ok.mp decoded
    have passed := checked node.label decl _ (mem_retyped.mpr
      ⟨isDecl, rfl, List.ne_nil_of_mem changed⟩) row.1 row.2 ⟨member,
        (nodeLabelPrefix_isPrefix (NodeKey.encode_of_decode isNode)).mpr rfl⟩
    rw [if_neg untouched, decoded, ok_bind, judgeChanged_eq_ok] at passed
    exact passed violation isViolation changed
  · intro judged name decl changed isRetyped bytes record ⟨member, isPrefix⟩
    split
    · rfl
    · next untouched =>
        obtain ⟨node, isNode⟩ := keyed bytes (List.mem_map_of_mem member)
        obtain rfl := (nodeLabelPrefix_isPrefix (NodeKey.encode_of_decode isNode)).mp isPrefix
        obtain ⟨isDecl, rfl, -⟩ := mem_retyped.mp isRetyped
        have decoded : nodeTypeRules.decode bytes = .ok node := liftKey_eq_ok.mpr isNode
        rw [decoded, ok_bind, judgeChanged_eq_ok]
        exact judged (bytes, record) member untouched node decoded decl isDecl

theorem checkRetypedRelTypes_eq_ok {baseEdges : EdgeMap} {oldEntries : List SchemaEntry}
    {schema : SchemaMap} {touched : List Bytes} (keyedNew : SchemaKeyed schema)
    (keyed : ∀ key ∈ baseEdges.keys, ∃ edge, EdgeKey.decodeFwd key = .ok edge) :
    checkRetypedRelTypes baseEdges oldEntries (schemaEntries schema) touched = .ok () ↔
      JudgedByChange edgeTypeRules oldEntries (schemaEntries schema) baseEdges touched := by
  have functional : ∀ first ∈ retyped edgeTypeRules oldEntries (schemaEntries schema),
      ∀ second ∈ retyped edgeTypeRules oldEntries (schemaEntries schema),
        first.1 = second.1 → first.2 = second.2 := by
    rintro ⟨name, decl, changed⟩ isFirst ⟨other, otherDecl, otherChanged⟩ isSecond same
    obtain ⟨isDecl, rfl, -⟩ := mem_retyped.mp isFirst
    obtain ⟨isOther, rfl, -⟩ := mem_retyped.mp isSecond
    cases same
    cases pairs_functional edgeTypeRules_lawful keyedNew _ isDecl _ isOther rfl
    rfl
  have found : ∀ {name decl changed},
      (SortedMap.ofList (retyped edgeTypeRules oldEntries (schemaEntries schema))).get name =
        some (decl, changed) ↔
      (name, decl, changed) ∈ retyped edgeTypeRules oldEntries (schemaEntries schema) :=
    SortedMap.get_ofList_eq_some functional
  have each : (∀ row ∈ baseEdges.entries, row.1 ∉ touched →
      ∀ edge, edgeTypeRules.decode row.1 = .ok edge → ∀ decl changed,
        (SortedMap.ofList (retyped edgeTypeRules oldEntries (schemaEntries schema))).get
          edge.rtype = some (decl, changed) →
        judgeChanged edgeTypeRules edge row.2 decl changed = .ok ()) ↔
      JudgedByChange edgeTypeRules oldEntries (schemaEntries schema) baseEdges touched := by
    refine forall₅_congr fun row member untouched edge decoded => ?_
    constructor
    · intro judged decl isDecl violation isViolation changed
      have passed := judged decl _ (found.mpr (mem_retyped.mpr
        ⟨isDecl, rfl, List.ne_nil_of_mem changed⟩))
      exact judgeChanged_eq_ok.mp passed violation isViolation changed
    · intro judged decl changed isFound
      obtain ⟨isDecl, rfl, -⟩ := mem_retyped.mp (found.mp isFound)
      exact judgeChanged_eq_ok.mpr (judged decl isDecl)
  rw [← each, checkRetypedRelTypes]
  dsimp only
  split
  · next none =>
      refine iff_of_true rfl ?_
      intro row _ _ edge _ decl changed isFound
      have member := SortedMap.get_eq_some_iff.mp isFound
      rw [List.isEmpty_iff.mp none] at member
      cases member
  · rw [checkEach_eq_ok]
    refine forall₂_congr fun row member => ?_
    obtain ⟨edge, isEdge⟩ := keyed row.1 (List.mem_map_of_mem member)
    have decoded : edgeTypeRules.decode row.1 = .ok edge := liftKey_eq_ok.mpr isEdge
    by_cases touches : row.1 ∈ touched
    · simp [touches]
    · simp only [touches, if_false, not_false_iff, true_implies, decoded, ok_bind,
        Except.ok.injEq, forall_eq']
      cases (SortedMap.ofList (retyped edgeTypeRules oldEntries
          (schemaEntries schema))).get edge.rtype with
      | none => simp
      | some pair => simp [Prod.ext_iff]

private theorem labelKey_stable {baseNodes : NodeMap}
    {oldEntries newEntries : List SchemaEntry}
    (stable : checkLabelKeyStability baseNodes (labelKeys oldEntries)
      (labelKeys newEntries) = .ok ()) {bytes : Bytes} {node : NodeKey}
    (present : bytes ∈ baseNodes.keys) (decoded : NodeKey.decode bytes = .ok node)
    {previous decl : LabelDef}
    (isPrevious : (defsOf nodeTypeRules oldEntries).get node.label = some previous)
    (isDecl : (defsOf nodeTypeRules newEntries).get node.label = some decl) :
    decl.key = previous.key := by
  have keys : ∀ entries, (labelKeys entries).get node.label =
      ((defsOf nodeTypeRules entries).get node.label).map LabelDef.key :=
    fun entries => SortedMap.get_ofList_map LabelDef.key _ _
  have newKey := keys newEntries
  rw [isDecl, Option.map_some] at newKey
  have passed := checkEach_eq_ok.mp stable _ (SortedMap.get_eq_some_iff.mp newKey)
  dsimp only at passed
  rw [keys, isPrevious, Option.map_some] at passed
  rw [guard_eq_ok] at passed
  by_contra different
  refine passed.1 ⟨fun same => different same.symm, ?_⟩
  rw [Option.isSome_iff_ne_none, Ne, firstWithPrefix_eq_none]
  intro absent
  exact absent bytes present
    ((nodeLabelPrefix_isPrefix (NodeKey.encode_of_decode decoded)).mpr rfl)

private theorem effective_get (entries : List SchemaEntry) (rtype : String) :
    ((SortedMap.ofList ((entries.filterMap relTypePair?).map
        fun pair => (pair.1, pair.2.discriminator))).get rtype).join =
      ((defsOf edgeTypeRules entries).get rtype).bind RelTypeDef.discriminator := by
  have discs : (SortedMap.ofList ((entries.filterMap relTypePair?).map
      fun pair => (pair.1, pair.2.discriminator))).get rtype =
      ((defsOf edgeTypeRules entries).get rtype).map RelTypeDef.discriminator :=
    SortedMap.get_ofList_map RelTypeDef.discriminator _ _
  rw [discs]
  cases (defsOf edgeTypeRules entries).get rtype <;> rfl

/-- A type with edges kept from the base keeps its discriminator; a type that is not
declared has none. -/
theorem effective_stable {baseEdges newEdges : EdgeMap}
    {oldEntries newEntries : List SchemaEntry}
    (stable : checkRelDiscStability baseEdges newEdges oldEntries newEntries = .ok ())
    {bytes : Bytes} {edge : EdgeKey} (inBase : bytes ∈ baseEdges.keys)
    (kept : bytes ∈ newEdges.keys) (decoded : EdgeKey.decodeFwd bytes = .ok edge) :
    ((defsOf edgeTypeRules newEntries).get edge.rtype).bind RelTypeDef.discriminator =
      ((defsOf edgeTypeRules oldEntries).get edge.rtype).bind RelTypeDef.discriminator := by
  rw [← effective_get, ← effective_get]
  by_contra different
  have changed : edge.rtype ∈ ((SortedMap.ofList ((oldEntries.filterMap relTypePair?).map
        fun pair => (pair.1, pair.2.discriminator))).keys ++
      (SortedMap.ofList ((newEntries.filterMap relTypePair?).map
        fun pair => (pair.1, pair.2.discriminator))).keys).filter fun name =>
      ((SortedMap.ofList ((oldEntries.filterMap relTypePair?).map
          fun pair => (pair.1, pair.2.discriminator))).get name).join ≠
        ((SortedMap.ofList ((newEntries.filterMap relTypePair?).map
          fun pair => (pair.1, pair.2.discriminator))).get name).join := by
    rw [List.mem_filter, decide_eq_true_eq]
    refine ⟨List.mem_append.mpr ?_, fun same => different same.symm⟩
    by_contra neither
    obtain ⟨notOld, notNew⟩ := not_or.mp neither
    rw [SortedMap.mem_keys, not_not] at notOld notNew
    exact different (by rw [notOld, notNew])
  rw [checkRelDiscStability] at stable
  dsimp only at stable
  rw [if_neg (by rw [List.isEmpty_iff]; exact List.ne_nil_of_mem changed),
    checkEach_eq_ok] at stable
  obtain ⟨record, member⟩ := SortedMap.get_ne_none_iff.mp (SortedMap.mem_keys.mp kept)
  have passed := stable _ member
  dsimp only at passed
  rw [decoded] at passed
  simp only [liftKey, ok_bind, guard_eq_ok] at passed
  exact passed.1 ⟨changed, SortedMap.mem_keys.mp inBase⟩

/-- Every node and every edge of a version conforms to its declaration. -/
structure Typed (manifest : Manifest) : Prop where
  nodes : Conforms nodeTypeRules manifest.schema manifest.nodes
  edges : Conforms edgeTypeRules manifest.schema manifest.edgesFwd

namespace Transaction

variable {txn : Transaction} {next : Workspace}

/-- A row of the base that is not touched is in the result as it was. -/
private theorem kept_of_untouched {V : Type} {map : SortedMap Bytes V}
    {ops : List (MapOp Bytes V)} {row : Bytes × V} (member : row ∈ map.entries)
    (untouched : row.1 ∉ ops.map MapOp.key) : row ∈ (map.applyAll ops).entries := by
  rw [← SortedMap.get_eq_some_iff, SortedMap.get_applyAll]
  have none : lastFor MapOp.key row.1 ops = none := by
    rw [lastFor_eq_none]
    intro op isOp same
    exact untouched (List.mem_map.mpr ⟨op, isOp, same⟩)
  rw [none]
  exact SortedMap.get_eq_some_iff.mpr member

private theorem nodes_untouched (keyed : Keyed txn.base.manifest)
    (keyedNew : Keyed txn.applied) (typed : Typed txn.base.manifest)
    (checked : txn.checkSchemaChange = .ok ()) :
    ∀ row ∈ txn.base.manifest.nodes.entries, row.1 ∉ txn.nodes.map MapOp.key →
      ∀ key, nodeTypeRules.decode row.1 = .ok key → ∀ decl,
        (defsOf nodeTypeRules (schemaEntries txn.applied.schema)).get
          (nodeTypeRules.governs key) = some decl →
        nodeTypeRules.violations key row.2 decl = [] := by
  rcases checkSchemaChange_cases checked with unchanged | changed
  · have same : txn.applied.schema = txn.base.manifest.schema := by
      simp only [applied, unchanged]
      rfl
    rw [same]
    intro row member _ key isKey decl isDecl
    exact typed.nodes row member key (mem_toOption.mpr isKey) decl isDecl
  · refine untouched_of_change nodeTypeRules_lawful keyedNew.schema typed.nodes ?_
      ((checkRetypedLabels_eq_ok keyed.nodes).mp changed.labels)
    intro row member _ node isNode previous decl isPrevious isDecl
    exact labelKey_stable changed.labelKeys (List.mem_map_of_mem member)
      (liftKey_eq_ok.mp isNode) isPrevious isDecl

private theorem edges_untouched (keyed : Keyed txn.base.manifest)
    (keyedNew : Keyed txn.applied) (typed : Typed txn.base.manifest)
    (checked : txn.checkSchemaChange = .ok ()) :
    ∀ row ∈ txn.base.manifest.edgesFwd.entries, row.1 ∉ txn.edgesFwd.map MapOp.key →
      ∀ key, edgeTypeRules.decode row.1 = .ok key → ∀ decl,
        (defsOf edgeTypeRules (schemaEntries txn.applied.schema)).get
          (edgeTypeRules.governs key) = some decl →
        edgeTypeRules.violations key row.2 decl = [] := by
  rcases checkSchemaChange_cases checked with unchanged | changed
  · have same : txn.applied.schema = txn.base.manifest.schema := by
      simp only [applied, unchanged]
      rfl
    rw [same]
    intro row member _ key isKey decl isDecl
    exact typed.edges row member key (mem_toOption.mpr isKey) decl isDecl
  · refine untouched_of_change edgeTypeRules_lawful keyedNew.schema typed.edges ?_
      ((checkRetypedRelTypes_eq_ok keyedNew.schema keyed.edges).mp changed.relTypes)
    intro row member untouched edge isEdge previous decl isPrevious isDecl
    have stable := effective_stable changed.discriminators (List.mem_map_of_mem member)
      (List.mem_map_of_mem (kept_of_untouched member untouched)) (liftKey_eq_ok.mp isEdge)
    have ofDecl := congrArg (fun found => found.bind RelTypeDef.discriminator) isDecl
    have ofPrevious := congrArg (fun found => found.bind RelTypeDef.discriminator) isPrevious
    exact ofDecl.symm.trans (stable.trans ofPrevious)

private theorem nodes_decode (staged : txn.StagedKeys) :
    ∀ op ∈ txn.nodes, ∃ key, nodeTypeRules.decode op.key = .ok key := by
  intro op member
  obtain ⟨node, decoded⟩ := staged.nodes op member
  exact ⟨node, liftKey_eq_ok.mpr decoded⟩

private theorem edges_decode (staged : txn.StagedKeys) :
    ∀ op ∈ txn.edgesFwd, ∃ key, edgeTypeRules.decode op.key = .ok key := by
  intro op member
  obtain ⟨edge, decoded⟩ := staged.edges op member
  exact ⟨edge, liftKey_eq_ok.mpr decoded⟩

/-- One save keeps every record to its declared types. -/
theorem saveInPlace_typed {merging : Bool} (keyed : Keyed txn.base.manifest)
    (staged : txn.StagedKeys) (typed : Typed txn.base.manifest)
    (saved : txn.saveInPlace merging = .ok next) : Typed next.manifest := by
  rcases saveInPlace_cases saved with ⟨-, rfl⟩ | accepted
  · exact typed
  · have keyedNew := applied_keyed keyed staged
    rw [accepted.maps]
    constructor
    · exact conforms_applyAll
        (stagedConforms_of_checked nodeTypeRules_lawful keyedNew.schema (nodes_decode staged)
          accepted.nodeTypes)
        (nodes_untouched keyed keyedNew typed accepted.schemaChange)
    · exact conforms_applyAll
        (stagedConforms_of_checked edgeTypeRules_lawful keyedNew.schema (edges_decode staged)
          accepted.edgeTypes)
        (edges_untouched keyed keyedNew typed accepted.schemaChange)

/-- A row that conforms in the result is without a violation. -/
private theorem judged_of_conforms {K R D : Type} {rules : TypeRules K R D}
    {new : SchemaMap} {base : SortedMap Bytes R} {ops : List (MapOp Bytes R)}
    {oldEntries : List SchemaEntry}
    (defs : ∀ {name decl}, (name, decl) ∈ (schemaEntries new).filterMap rules.pair? →
      (defsOf rules (schemaEntries new)).get name = some decl)
    (conforms : Conforms rules new (base.applyAll ops)) :
    JudgedByChange rules oldEntries (schemaEntries new) base (ops.map MapOp.key) := by
  intro row member untouched key isKey decl isDecl violation isViolation
  rw [conforms row (kept_of_untouched member untouched) key (mem_toOption.mpr isKey) decl
    (defs isDecl)] at isViolation
  cases isViolation

end Transaction

theorem Saves.typed {allowed : Transaction → Prop} {workspace : Workspace}
    (run : Saves allowed workspace) : Typed workspace.manifest := by
  induction run with
  | blank => exact ⟨(fun _ member => nomatch member), (fun _ member => nomatch member)⟩
  | @save base next writes merging earlier _ saved ih =>
      have same := Transaction.stage_base base writes
      refine Transaction.saveInPlace_typed ?_ (Transaction.stage_stagedKeys base writes) ?_
        saved
      · rw [same]
        exact earlier.keyed
      · rw [same]
        exact ih

/-- Over every run of saves each node and edge conforms to its declared types;
and a save whose staged puts conform, and whose result does, passes the type
checks. -/
theorem declaredTypes_invariant :
    (∀ workspace, Saves (fun _ => True) workspace → Typed workspace.manifest) ∧
    (∀ base writes, Saves (fun _ => True) base →
      let txn := (Transaction.beginWrite base).stage writes
      readSchema txn.applied.schema = .ok (schemaEntries txn.applied.schema) →
      Typed txn.applied → StagedConforms nodeTypeRules txn.applied.schema txn.nodes →
      StagedConforms edgeTypeRules txn.applied.schema txn.edgesFwd →
      checkStagedNodeTypes txn.applied.schema txn.nodes = .ok () ∧
        checkStagedEdgeTypes txn.applied.schema txn.edgesFwd = .ok () ∧
        checkRetypedLabels base.manifest.nodes (schemaEntries base.manifest.schema)
          (schemaEntries txn.applied.schema) (txn.nodes.map MapOp.key) = .ok () ∧
        checkRetypedRelTypes base.manifest.edgesFwd (schemaEntries base.manifest.schema)
          (schemaEntries txn.applied.schema) (txn.edgesFwd.map MapOp.key) = .ok ()) := by
  refine ⟨fun _ run => run.typed, ?accepted⟩
  case accepted =>
    intro base writes run txn read typed nodesConform edgesConform
    have same : txn.base = base := Transaction.stage_base base writes
    have staged : txn.StagedKeys := Transaction.stage_stagedKeys base writes
    have keyed : Keyed txn.applied :=
      Transaction.applied_keyed (same.symm ▸ run.keyed) staged
    refine ⟨?nodes, ?edges, ?labels, ?relTypes⟩
    case nodes =>
      exact (checkStagedTypes_eq_ok nodeTypeRules_lawful keyed.schema
        (Transaction.nodes_decode staged) read).mpr nodesConform
    case edges =>
      exact (checkStagedTypes_eq_ok edgeTypeRules_lawful keyed.schema
        (Transaction.edges_decode staged) read).mpr edgesConform
    case labels =>
      refine (checkRetypedLabels_eq_ok run.keyed.nodes).mpr ?_
      rw [← same]
      exact Transaction.judged_of_conforms
        (fun isPair => (defsOf_get nodeTypeRules_lawful keyed.schema).mpr isPair) typed.nodes
    case relTypes =>
      refine (checkRetypedRelTypes_eq_ok keyed.schema run.keyed.edges).mpr ?_
      rw [← same]
      exact Transaction.judged_of_conforms
        (fun isPair => (defsOf_get edgeTypeRules_lawful keyed.schema).mpr isPair) typed.edges

def typedWrites : List Write :=
  [.putSchema (.label "Person" personLabel), .putNode (person 1) (mailOf "a")]

/-- A declaration and a conforming node in one save. -/
theorem declaredTypes_invariant_sample :
    (∃ next, ((Transaction.beginWrite blank).stage typedWrites).saveInPlace false = .ok next ∧
      Typed next.manifest) ∧
    checkRetypedLabels blank.manifest.nodes (schemaEntries blank.manifest.schema)
      (schemaEntries ((Transaction.beginWrite blank).stage typedWrites).applied.schema)
      (((Transaction.beginWrite blank).stage typedWrites).nodes.map MapOp.key) = .ok () := by
  have passes : (((Transaction.beginWrite blank).stage typedWrites).saveInPlace
      false).toOption.isSome := by
    decide +kernel
  obtain ⟨next, isNext⟩ := Option.isSome_iff_exists.mp passes
  have saved := mem_toOption.mp isNext
  refine ⟨⟨next, saved, declaredTypes_invariant.1 next (.save .blank trivial saved)⟩, ?_⟩
  have typed : Typed ((Transaction.beginWrite blank).stage typedWrites).applied := by
    constructor <;> decide +kernel
  exact (declaredTypes_invariant.2 blank typedWrites .blank (by decide +kernel) typed
    (by decide +kernel) (by decide +kernel)).2.2.1

def numberedMail : NodeRecord :=
  ⟨∅, .ofList [("mail", ⟨.int 5, by rfl⟩)]⟩

/-- A put that a later put of the same save supersedes is judged all the
same. -/
theorem superseded_put_refused :
    ∃ (base : Workspace) (writes : List Write), Saves (fun _ => True) base ∧
      Typed ((Transaction.beginWrite base).stage writes).applied ∧
      checkStagedNodeTypes ((Transaction.beginWrite base).stage writes).applied.schema
          ((Transaction.beginWrite base).stage writes).nodes =
        .error (.propertyTypeViolation (person 1) "mail" .string .int) := by
  refine ⟨blank, [.putSchema (.label "Person" personLabel), .putNode (person 1) numberedMail,
    .putNode (person 1) (mailOf "a")], .blank, ?_, by decide +kernel⟩
  constructor <;> decide +kernel

end Acetone.Graph

import Acetone.Graph.Surfaces
import Acetone.Graph.Saves

/-!
# What the surfaces keep

A version obeys its constraints if every node has what its label requires and
no two nodes share a UNIQUE value.  Each surface that judges a write against a
version guarantees that the version still obeys after the write: the guard of
a single write, the check of a declaration and the tracker of an import.
-/

namespace Acetone.Graph

open Acetone.Lib Acetone.Model

/-- Every node has what its label requires, and no two nodes share a claim. -/
structure Obeys (labels : SortedMap String LabelDef) (nodes : NodeMap) : Prop where
  required : ∀ {key : Bytes} {record : NodeRecord} {node : NodeKey} {decl : LabelDef},
    nodes.get key = some record → NodeKey.decode key = .ok node →
      labels.get node.label = some decl → missingRequired decl record = []
  unique : ∀ {first second : Bytes} {record other : NodeRecord} {node rival : NodeKey},
    nodes.get first = some record → NodeKey.decode first = .ok node →
      nodes.get second = some other → NodeKey.decode second = .ok rival → first ≠ second →
        ∀ claim ∈ claimsOf labels node record, claim ∉ claimsOf labels rival other

def Obeyed (manifest : Manifest) : Prop := Obeys (labelDefs manifest.schema) manifest.nodes

/-- Only the nodes that were written have to be judged. -/
theorem Obeys.of_written {labels : SortedMap String LabelDef} {base after : NodeMap}
    (obeys : Obeys labels base) (written : List Bytes)
    (untouched : ∀ key ∉ written, ∀ record, after.get key = some record →
      base.get key = some record)
    (required : ∀ key ∈ written, ∀ record node decl, after.get key = some record →
      NodeKey.decode key = .ok node → labels.get node.label = some decl →
        missingRequired decl record = [])
    (unique : ∀ first ∈ written, ∀ second record other node rival,
      after.get first = some record → NodeKey.decode first = .ok node →
      after.get second = some other → NodeKey.decode second = .ok rival → first ≠ second →
        ∀ claim ∈ claimsOf labels node record, claim ∉ claimsOf labels rival other) :
    Obeys labels after := by
  constructor
  · intro key record node decl found decodes declared
    by_cases isWritten : key ∈ written
    · exact required key isWritten record node decl found decodes declared
    · exact obeys.required (untouched key isWritten record found) decodes declared
  · intro first second record other node rival found decodes alsoFound alsoDecodes apart claim
      isClaim alsoClaim
    by_cases isWritten : first ∈ written
    · exact unique first isWritten second record other node rival found decodes alsoFound
        alsoDecodes apart claim isClaim alsoClaim
    · by_cases alsoWritten : second ∈ written
      · exact unique second alsoWritten first other record rival node alsoFound alsoDecodes found
          decodes apart.symm claim alsoClaim isClaim
      · exact obeys.unique (untouched first isWritten record found) decodes
          (untouched second alsoWritten other alsoFound) alsoDecodes apart claim isClaim alsoClaim

theorem Obeys.of_labels {labels fewer : SortedMap String LabelDef} {nodes : NodeMap}
    (obeys : Obeys labels nodes)
    (included : ∀ label decl, fewer.get label = some decl → labels.get label = some decl) :
    Obeys fewer nodes := by
  have claims : ∀ {node : NodeKey} {record : NodeRecord} {claim : UniqueClaim},
      claim ∈ claimsOf fewer node record → claim ∈ claimsOf labels node record := by
    intro node record claim isClaim
    obtain ⟨decl, declared, rest⟩ := mem_claimsOf.mp isClaim
    exact mem_claimsOf.mpr ⟨decl, included _ _ declared, rest⟩
  constructor
  · intro key record node decl found decodes declared
    exact obeys.required found decodes (included _ _ declared)
  · intro first second record other node rival found decodes alsoFound alsoDecodes apart claim
      isClaim alsoClaim
    exact obeys.unique found decodes alsoFound alsoDecodes apart claim (claims isClaim)
      (claims alsoClaim)

theorem mem_labelRows {nodes : NodeMap} {label : String} {key : Bytes} {record : NodeRecord}
    {node : NodeKey} (decodes : NodeKey.decode key = .ok node) :
    (key, record) ∈ labelRows nodes label ↔ nodes.get key = some record ∧ node.label = label := by
  rw [labelRows, mem_scanPrefix, SortedMap.get_eq_some_iff,
    nodeLabelPrefix_isPrefix (NodeKey.encode_of_decode decodes)]

private theorem unconstrained_spec {decl : LabelDef} (free : unconstrained decl) :
    decl.existence = [] ∧ decl.unique = [] :=
  ⟨List.isEmpty_iff.mp (of_decide_eq_true free).1,
    List.isEmpty_iff.mp (of_decide_eq_true free).2.1⟩

/-- A node without breaches has what is required. -/
private theorem missingRequired_of_nodeViolations {node : NodeKey} {record : NodeRecord}
    {decl : LabelDef} (none : nodeViolations node record decl = []) :
    missingRequired decl record = [] := by
  rw [nodeViolations, List.append_eq_nil_iff] at none
  exact List.map_eq_nil_iff.mp none.1

/-- A clean check of a label's stored nodes under a definition. -/
private theorem of_checkLabel {snapshot : Manifest} {label : String} {decl : LabelDef}
    (clean : checkLabel snapshot label decl = .ok []) :
    (∀ {key : Bytes} {record : NodeRecord} {node : NodeKey}, snapshot.nodes.get key = some record →
      NodeKey.decode key = .ok node → node.label = label → missingRequired decl record = []) ∧
    ∀ {first second : Bytes} {record other : NodeRecord} {node rival : NodeKey},
      snapshot.nodes.get first = some record → NodeKey.decode first = .ok node →
      node.label = label → snapshot.nodes.get second = some other →
      NodeKey.decode second = .ok rival → rival.label = label → first ≠ second →
        ∀ claim ∈ uniqueClaims decl label record, claim ∉ uniqueClaims decl label other := by
  rw [checkLabel] at clean
  split at clean
  · next free =>
      obtain ⟨noneRequired, noneUnique⟩ := unconstrained_spec free
      constructor
      · intros
        rw [missingRequired, noneRequired]
        rfl
      · intro _ _ _ _ _ _ _ _ _ _ _ _ _ claim isClaim
        rw [uniqueClaims, noneUnique] at isClaim
        cases isClaim
  · obtain ⟨nodes, reads, clean⟩ := bind_eq_ok.mp clean
    rw [Except.ok.injEq, List.append_eq_nil_iff, List.flatMap_eq_nil_iff,
      List.map_eq_nil_iff] at clean
    have isNode : ∀ {key : Bytes} {record : NodeRecord} {node : NodeKey},
        snapshot.nodes.get key = some record → NodeKey.decode key = .ok node →
        node.label = label → (key, node, record) ∈ nodes := by
      intro key record node found decodes isLabel
      obtain ⟨row, member, made⟩ := mem_of_mapM_eq_ok reads
        ((mem_labelRows decodes).mpr ⟨found, isLabel⟩)
      simp only [decodes, liftKey, ok_bind, Except.ok.injEq] at made
      exact made ▸ member
    constructor
    · intro key record node found decodes isLabel
      exact missingRequired_of_nodeViolations (clean.1 _ (isNode found decodes isLabel))
    · intro first second record other node rival found decodes isLabel alsoFound alsoDecodes
        alsoLabel apart claim isClaim alsoClaim
      have claims : ∀ {key : Bytes} {record : NodeRecord} {node : NodeKey},
          (key, node, record) ∈ nodes → claim ∈ uniqueClaims decl label record →
          (claim, key) ∈ nodes.flatMap fun row =>
            (uniqueClaims decl label row.2.2).map fun claim => (claim, row.1) := by
        intro key record node member isClaim
        exact List.mem_flatMap.mpr ⟨_, member, List.mem_map.mpr ⟨claim, isClaim, rfl⟩⟩
      obtain ⟨members, collide, -⟩ := mem_collisions
        (claims (isNode found decodes isLabel) isClaim)
        (claims (isNode alsoFound alsoDecodes alsoLabel) alsoClaim) apart
      rw [clean.2] at collide
      cases collide

/-- Each label has its old definition, or one that its nodes were checked
under. -/
theorem Obeyed.redeclare {snapshot : Manifest} (obeyed : Obeyed snapshot)
    {labels : SortedMap String LabelDef}
    (checked : ∀ label decl, labels.get label = some decl →
      (labelDefs snapshot.schema).get label = some decl ∨
        checkLabel snapshot label decl = .ok []) :
    Obeys labels snapshot.nodes := by
  constructor
  · intro key record node decl found decodes declared
    rcases checked node.label decl declared with old | clean
    · exact obeyed.required found decodes old
    · exact (of_checkLabel clean).1 found decodes rfl
  · intro first second record other node rival found decodes alsoFound alsoDecodes apart claim
      isClaim alsoClaim
    obtain ⟨decl, declared, isLabel, isUnique, holds⟩ := mem_claimsOf.mp isClaim
    obtain ⟨again, alsoDeclared, alsoLabel, -, alsoHolds⟩ := mem_claimsOf.mp alsoClaim
    have sameLabel : rival.label = node.label := alsoLabel.symm.trans isLabel
    rw [sameLabel, declared, Option.some.injEq] at alsoDeclared
    subst alsoDeclared
    rcases checked node.label decl declared with old | clean
    · exact obeyed.unique found decodes alsoFound alsoDecodes apart claim
        (mem_claimsOf.mpr ⟨decl, old, isLabel, isUnique, holds⟩)
        (mem_claimsOf.mpr ⟨decl, sameLabel ▸ old, alsoLabel, isUnique, alsoHolds⟩)
    · have inClaims : ∀ {record : NodeRecord},
          record.properties.get claim.2.1 = some claim.2.2 →
          claim ∈ uniqueClaims decl node.label record := by
        intro record holds
        rw [uniqueClaims, List.mem_filterMap]
        refine ⟨claim.2.1, isUnique, ?_⟩
        rw [holds, ← isLabel]
        rfl
      exact (of_checkLabel clean).2 found decodes rfl alsoFound alsoDecodes sameLabel apart claim
        (inClaims holds) (inClaims alsoHolds)

theorem declaredFor_eq {snapshot : Manifest} (keyed : SchemaKeyed snapshot.schema)
    (label : String) : declaredFor snapshot label = (labelDefs snapshot.schema).get label := by
  have found : ∀ {decl : LabelDef}, declaredFor snapshot label = some decl →
      (labelDefs snapshot.schema).get label = some decl := by
    intro decl declared
    obtain ⟨before, after, pairs, -⟩ := List.lookup_eq_some_iff.mp declared
    have member : (label, decl) ∈ (schemaEntries snapshot.schema).filterMap labelPair? := by
      rw [pairs]
      simp
    obtain ⟨entry, isEntry, isPair⟩ := List.mem_filterMap.mp member
    cases entry with
    | label name other =>
        cases isPair
        exact (labelDefs_get keyed).mpr ((mem_schemaEntries keyed).mp isEntry)
    | relType => cases isPair
    | index => cases isPair
  cases declared : declaredFor snapshot label with
  | some decl => exact (found declared).symm
  | none =>
      symm
      by_contra some
      obtain ⟨decl, isDecl⟩ := Option.ne_none_iff_exists'.mp some
      have inside : SchemaEntry.label label decl ∈ schemaEntries snapshot.schema :=
        (mem_schemaEntries keyed).mpr ((labelDefs_get keyed).mp isDecl)
      have absent := List.lookup_eq_none_iff.mp declared (label, decl)
        (List.mem_filterMap.mpr ⟨_, inside, rfl⟩)
      simp at absent

/-- The scan for a value finds every other holder. -/
private theorem of_focusCollision {nodes : NodeMap} {own : Bytes} {label property : String}
    {value : StoredValue}
    (clean : focusCollision (labelRows nodes label) own label property value = .ok [])
    {other : Bytes} {record : NodeRecord} {rival : NodeKey} (found : nodes.get other = some record)
    (decodes : NodeKey.decode other = .ok rival) (isLabel : rival.label = label)
    (apart : other ≠ own) : record.properties.get property ≠ some value := by
  intro holds
  obtain ⟨others, scans, clean⟩ := bind_eq_ok.mp clean
  have listed : other ∈ others := by
    refine (mem_gather scans).mpr ⟨_, (mem_labelRows decodes).mpr ⟨found, isLabel⟩, [other], ?_,
      List.mem_singleton_self _⟩
    simp only [decodes, liftKey]
    exact if_pos ⟨apart, holds⟩
  rw [Except.ok.injEq] at clean
  split at clean
  · next none =>
      rw [none] at listed
      cases listed
  · cases clean

/-- A version still obeys after a node that its guard let through. -/
theorem Obeyed.upsert {snapshot : Manifest} (obeyed : Obeyed snapshot)
    (keyed : SchemaKeyed snapshot.schema) {key : NodeKey} {record : NodeRecord} {own : Bytes}
    (encodes : key.encode = .ok own) (clean : checkUpsert snapshot key record = .ok []) :
    Obeys (labelDefs snapshot.schema) (snapshot.nodes.put own record) := by
  obtain ⟨stored, decodes, sameLabel, -⟩ := NodeKey.decode_of_encode encodes
  have isOwn : (snapshot.nodes.put own record).get own = some record :=
    (SortedMap.get_put _ _ _ _).trans (if_pos rfl)
  have isOther : ∀ {other : Bytes}, other ≠ own →
      (snapshot.nodes.put own record).get other = snapshot.nodes.get other :=
    fun apart => (SortedMap.get_put _ _ _ _).trans (if_neg apart.symm)
  have judged : ∀ decl, (labelDefs snapshot.schema).get key.label = some decl →
      missingRequired decl record = [] ∧ ∀ property ∈ decl.unique, ∀ value,
        record.properties.get property = some value → ∀ {other : Bytes} {rivalRecord : NodeRecord}
          {rival : NodeKey}, snapshot.nodes.get other = some rivalRecord →
          NodeKey.decode other = .ok rival → rival.label = key.label → other ≠ own →
            rivalRecord.properties.get property ≠ some value := by
    intro decl declared
    rw [← declaredFor_eq keyed] at declared
    simp only [checkUpsert, declared] at clean
    split at clean
    · next free =>
        obtain ⟨noneRequired, noneUnique⟩ := unconstrained_spec free
        constructor
        · rw [missingRequired, noneRequired]
          rfl
        · intro property isUnique
          rw [noneUnique] at isUnique
          cases isUnique
    · obtain ⟨bytes, isBytes, clean⟩ := bind_eq_ok.mp clean
      rw [liftKey_eq_ok, encodes, Except.ok.injEq] at isBytes
      subst isBytes
      obtain ⟨collisions, scans, clean⟩ := bind_eq_ok.mp clean
      rw [Except.ok.injEq, List.append_eq_nil_iff] at clean
      refine ⟨missingRequired_of_nodeViolations clean.1, ?_⟩
      intro property isUnique value holds other rivalRecord rival found decodesRival isLabel apart
      have wanted : (property, value) ∈ (wantedValues decl record).entries := by
        rw [← SortedMap.get_eq_some_iff, wantedValues, SortedMap.get_ofList_eq_some]
        · exact List.mem_filterMap.mpr ⟨property, isUnique, by rw [holds]; rfl⟩
        · intro first isFirst second isSecond same
          simp only [List.mem_filterMap, Option.map_eq_some_iff] at isFirst isSecond
          obtain ⟨_, -, _, holdsFirst, rfl⟩ := isFirst
          obtain ⟨_, -, _, holdsSecond, rfl⟩ := isSecond
          subst same
          exact Option.some.inj (holdsFirst.symm.trans holdsSecond)
      obtain ⟨reported, scanned, included⟩ := gather_eq_ok scans wanted
      rw [clean.2, List.subset_nil] at included
      exact of_focusCollision (included ▸ scanned) found decodesRival isLabel apart
  apply obeyed.of_written [own]
  case untouched =>
    intro other unwritten rivalRecord found
    rwa [isOther fun same => unwritten (List.mem_singleton.mpr same)] at found
  case required =>
    intro other isWritten again node decl found decodesAgain declared
    cases List.mem_singleton.mp isWritten
    rw [isOwn, Option.some.injEq] at found
    rw [decodes, Except.ok.injEq] at decodesAgain
    subst found decodesAgain
    exact (judged decl (sameLabel ▸ declared)).1
  case unique =>
    intro first isWritten second again other node rival found decodesAgain alsoFound alsoDecodes
      apart claim isClaim alsoClaim
    cases List.mem_singleton.mp isWritten
    rw [isOwn, Option.some.injEq] at found
    rw [decodes, Except.ok.injEq] at decodesAgain
    subst found decodesAgain
    rw [isOther apart.symm] at alsoFound
    obtain ⟨decl, declared, isLabel, isUnique, holds⟩ := mem_claimsOf.mp isClaim
    obtain ⟨-, -, alsoLabel, -, alsoHolds⟩ := mem_claimsOf.mp alsoClaim
    have sameAsKey : rival.label = key.label := alsoLabel.symm.trans (isLabel.trans sameLabel)
    exact (judged decl (sameLabel ▸ declared)).2 _ isUnique _ holds alsoFound alsoDecodes
      sameAsKey apart.symm alsoHolds

end Acetone.Graph

import Acetone.Cypher.WriteBack

/-!
# What the constraint check of a statement looks at

The nodes of a statement are checked in turn: required and typed properties,
the claims made so far in the statement, and the stored holders of a value,
which an index or a scan of the label names.  The loop passes exactly when
every node passes for itself and no claim is made twice.
-/

namespace Acetone.Cypher

open Acetone.Lib Acetone.Model
open Acetone.Graph (Transaction Manifest NodeMap)

namespace Persist

/-- A draft together with the declaration its identity was derived from. -/
structure DraftOf (catalogue : Catalogue) (node : NodeValue) (draft : NodeDraft)
    (decl : LabelDef) : Prop where
  declared : catalogue.label draft.key.label = some decl
  keys : decl.key.mapM (keyValue node draft.key.label) = .ok draft.key.key
  rest : convertMap (node.properties.filterKeys (· ∉ decl.key)) = .ok draft.properties

theorem draftOf_of_made {catalogue : Catalogue} {node : NodeValue} {draft : NodeDraft}
    (made : nodeKeyAndRecord catalogue node = .ok draft) :
    ∃ decl, DraftOf catalogue node draft decl := by
  obtain ⟨decl, keyed, keys, -, rest⟩ := nodeKeyAndRecord_eq_ok made
  have member : (draft.key.label, decl) ∈ keyedLabels catalogue node.labels := by
    rw [keyed]
    exact List.mem_singleton_self _
  exact ⟨decl, (mem_keyedLabels.mp member).2.1, keys, rest⟩

namespace DraftOf

variable {catalogue : Catalogue} {node : NodeValue} {draft : NodeDraft} {decl : LabelDef}
  (drafted : DraftOf catalogue node draft decl)

include drafted

/-- A key property was there, and its value stands in the key. -/
theorem keyProperty {property : String} (isKey : property ∈ decl.key) :
    ∃ value stored position, node.properties.get property = some value ∧
      convertValue value = .ok stored ∧ decl.key.findIdx? (· = property) = some position ∧
      draft.key.key[position]? = some stored := by
  have each := mapM_eq_ok.mp drafted.keys
  generalize draft.key.key = tuple at each ⊢
  generalize decl.key = names at each isKey ⊢
  induction each with
  | nil => cases isKey
  | @cons name stored names tuple reads _ ih =>
      by_cases same : name = property
      · subst same
        rw [keyValue] at reads
        split at reads
        · cases reads
        · next value found =>
            obtain ⟨converted, converts, reads⟩ := bind_eq_ok.mp reads
            split at reads
            · cases reads
            · cases reads
              exact ⟨value, stored, 0, found, converts, by simp [List.findIdx?_cons], rfl⟩
      · have later : property ∈ names := by
          rcases List.mem_cons.mp isKey with rfl | later
          · exact absurd rfl same
          · exact later
        obtain ⟨value, converted, position, found, converts, isPosition, inTuple⟩ := ih later
        refine ⟨value, converted, position + 1, found, converts, ?_, inTuple⟩
        simp [List.findIdx?_cons, same, isPosition]

/-- Any other property is in the draft. -/
theorem otherProperty {property : String} (notKey : property ∉ decl.key) {stored : Model.Value} :
    draft.properties.get property = some stored ↔
      ∃ value, node.properties.get property = some value ∧ convertValue value = .ok stored := by
  rw [SortedMap.get_mapValuesM drafted.rest, SortedMap.get_filterKeys]
  simp [notKey]

theorem converts {property : String} {value : Value}
    (found : node.properties.get property = some value) :
    ∃ stored, convertValue value = .ok stored := by
  by_cases isKey : property ∈ decl.key
  · obtain ⟨other, stored, _, isOther, converts, -⟩ := drafted.keyProperty isKey
    rw [found, Option.some.injEq] at isOther
    exact ⟨stored, isOther ▸ converts⟩
  · have kept : (node.properties.filterKeys (· ∉ decl.key)).get property = some value := by
      rw [SortedMap.get_filterKeys]
      simp [isKey, found]
    exact SortedMap.exists_of_mapValuesM drafted.rest kept

theorem isSome_iff {property : String} :
    (node.properties.get property).isSome ↔
      property ∈ decl.key ∨ (draft.properties.get property).isSome := by
  by_cases isKey : property ∈ decl.key
  · obtain ⟨value, _, _, found, -⟩ := drafted.keyProperty isKey
    simp [isKey, found]
  · simp only [isKey, false_or, Option.isSome_iff_exists]
    constructor
    · rintro ⟨value, found⟩
      obtain ⟨stored, converts⟩ := drafted.converts found
      exact ⟨stored, (drafted.otherProperty isKey).mpr ⟨value, found, converts⟩⟩
    · rintro ⟨stored, found⟩
      obtain ⟨value, isValue, -⟩ := (drafted.otherProperty isKey).mp found
      exact ⟨value, isValue⟩

end DraftOf

private theorem ofValue_canonical (value : Model.Value) :
    PropertyType.ofValue (canonical value) = PropertyType.ofValue value := by
  cases value with
  | _ => rfl

private theorem getElem?_canonicalAll (values : List Model.Value) (position : Nat) :
    (canonicalAll values)[position]? = values[position]?.map canonical := by
  induction values generalizing position with
  | nil => rfl
  | cons value values ih =>
      cases position with
      | zero => rfl
      | succ position => exact ih position

theorem get_encodeProperties {properties : SortedMap String Model.Value} {encoded : Properties}
    (encodes : encodeProperties properties = .ok encoded) {name : String} {stored : StoredValue} :
    encoded.get name = some stored ↔
      ∃ value, properties.get name = some value ∧ encodeValue value = .ok stored := by
  rw [SortedMap.get_mapValuesM encodes]
  simp only [mapError_eq_ok]

theorem isSome_encodeProperties {properties : SortedMap String Model.Value}
    {encoded : Properties} (encodes : encodeProperties properties = .ok encoded) {name : String} :
    (encoded.get name).isSome ↔ (properties.get name).isSome := by
  simp only [Option.isSome_iff_exists]
  constructor
  · rintro ⟨stored, found⟩
    obtain ⟨value, isValue, -⟩ := (get_encodeProperties encodes).mp found
    exact ⟨value, isValue⟩
  · rintro ⟨value, found⟩
    obtain ⟨stored, stores⟩ := SortedMap.exists_of_mapValuesM encodes found
    exact ⟨stored, (get_encodeProperties encodes).mpr ⟨value, found, mapError_eq_ok.mp stores⟩⟩

section

variable {catalogue : Catalogue} {node : NodeValue} {draft : NodeDraft} {decl : LabelDef}
  {labels : Finset String} {properties : Properties} {stored : NodeKey}
  (drafted : DraftOf catalogue node draft decl)
  (encodes : encodeProperties draft.properties = .ok properties)
  (sameKey : stored.key = canonicalAll draft.key.key)

include drafted encodes

theorem checkExistence_iff :
    UniqueChecker.checkExistence node draft.key decl = .ok () ↔
      Graph.missingRequired decl ⟨labels, properties⟩ = [] := by
  rw [UniqueChecker.checkExistence, checkEach_eq_ok, Graph.missingRequired,
    List.filter_eq_nil_iff]
  apply forall₂_congr
  intro property _
  have found : (node.properties.get property).isSome ↔
      Graph.present decl ⟨labels, properties⟩ property := by
    rw [drafted.isSome_iff, Graph.present, decide_eq_true_iff, isSome_encodeProperties encodes]
  by_cases isPresent : Graph.present decl ⟨labels, properties⟩ property
  · simp [found, isPresent]
  · simp [found, isPresent]

include sameKey

private theorem checkTypes_iff :
    UniqueChecker.checkTypes node draft.key decl = .ok () ↔
      Graph.typeViolations stored ⟨labels, properties⟩ decl = [] := by
  rw [UniqueChecker.checkTypes, checkEach_eq_ok, Graph.typeViolations,
    List.filterMap_eq_nil_iff]
  apply forall₂_congr
  rintro ⟨property, declared⟩ _
  by_cases isKey : property ∈ decl.key
  · obtain ⟨value, converted, position, found, converts, isPosition, inKey⟩ :=
      drafted.keyProperty isKey
    have inStored : stored.key[position]? = some (canonical converted) := by
      rw [sameKey, getElem?_canonicalAll, inKey, Option.map_some]
    have sameBreach : Graph.mistyped property declared (canonical converted) =
        Graph.mistyped property declared converted :=
      Graph.mistyped_congr (ofValue_canonical converted)
    simp only [found, converts, ok_bind, isPosition, inStored, Option.bind_some, sameBreach]
    cases Graph.mistyped property declared converted <;> simp
  · have notIndexed : decl.key.findIdx? (· = property) = none := by
      rw [List.findIdx?_eq_none_iff]
      intro name member
      exact decide_eq_false fun same => isKey (same ▸ member)
    have inRecordBreach : ((properties.get property).map Subtype.val).bind
        (Graph.mistyped property declared) =
        (properties.get property).bind fun kept => Graph.mistyped property declared kept.val := by
      cases properties.get property <;> rfl
    simp only [notIndexed]
    rw [inRecordBreach]
    cases found : node.properties.get property with
    | none =>
        have absent : properties.get property = none := by
          rw [← Option.not_isSome_iff_eq_none, isSome_encodeProperties encodes]
          intro inDraft
          have present := drafted.isSome_iff.mpr (.inr inDraft)
          rw [found] at present
          cases present
        simp [absent]
    | some value =>
        obtain ⟨converted, converts⟩ := drafted.converts found
        have inDraft := (drafted.otherProperty isKey).mpr ⟨value, found, converts⟩
        obtain ⟨kept, stores⟩ := SortedMap.exists_of_mapValuesM encodes inDraft
        have isStored := mapError_eq_ok.mp stores
        have inRecord : properties.get property = some kept :=
          (get_encodeProperties encodes).mpr ⟨converted, inDraft, isStored⟩
        have sameBreach : Graph.mistyped property declared kept.val =
            Graph.mistyped property declared converted :=
          Graph.mistyped_congr (Graph.ofValue_encodeValue isStored)
        simp only [inRecord, Option.bind_some, sameBreach, converts, ok_bind]
        cases Graph.mistyped property declared converted <;> simp

theorem checks_iff :
    (UniqueChecker.checkExistence node draft.key decl = .ok () ∧
      UniqueChecker.checkTypes node draft.key decl = .ok ()) ↔
      Graph.nodeViolations stored ⟨labels, properties⟩ decl = [] := by
  rw [Graph.nodeViolations, List.append_eq_nil_iff, List.map_eq_nil_iff, List.map_eq_nil_iff]
  exact and_congr (checkExistence_iff drafted encodes)
    (checkTypes_iff drafted encodes sameKey)

end

def uniqueValues (decl : LabelDef) (draft : NodeDraft) : List (String × Model.Value) :=
  decl.unique.filterMap fun property =>
    (draft.properties.get property).map fun value => (property, value)

theorem mem_uniqueValues {decl : LabelDef} {draft : NodeDraft} {property : String}
    {value : Model.Value} : (property, value) ∈ uniqueValues decl draft ↔
      property ∈ decl.unique ∧ draft.properties.get property = some value := by
  simp only [uniqueValues, List.mem_filterMap, Option.map_eq_some_iff, Prod.mk.injEq]
  constructor
  · rintro ⟨_, isUnique, _, found, rfl, rfl⟩
    exact ⟨isUnique, found⟩
  · rintro ⟨isUnique, found⟩
    exact ⟨property, isUnique, value, found, rfl, rfl⟩

/-- What a draft wants is what it will store. -/
private theorem wanted_eq {catalogue : Catalogue} {node : NodeValue} {draft : NodeDraft}
    {decl : LabelDef} (drafted : DraftOf catalogue node draft decl) :
    UniqueChecker.wanted node decl = .ok (uniqueValues decl draft) := by
  rw [UniqueChecker.wanted, uniqueValues]
  have apart := decl.apart
  generalize decl.unique = names at apart ⊢
  induction names with
  | nil => rfl
  | cons name names ih =>
      have notKey := apart name List.mem_cons_self
      have rest := ih fun other member => apart other (List.mem_cons_of_mem _ member)
      cases found : node.properties.get name with
      | none =>
          have absent : draft.properties.get name = none := by
            rw [← Option.not_isSome_iff_eq_none]
            intro inDraft
            have present := drafted.isSome_iff.mpr (.inr inDraft)
            rw [found] at present
            cases present
          rw [List.filterMap_cons_none (by rw [found]; rfl),
            List.filterMap_cons_none (by rw [absent]; rfl)]
          exact rest
      | some value =>
          obtain ⟨converted, converts⟩ := drafted.converts found
          have inDraft := (drafted.otherProperty notKey).mpr ⟨value, found, converts⟩
          rw [List.filterMap_cons_some (by rw [found]; rfl),
            List.filterMap_cons_some (by rw [inDraft]; rfl), List.mapM_cons, rest, converts]
          rfl

def claimsFor (label : String) (wanted : List (String × Model.Value)) : List StatementClaim :=
  wanted.filterMap fun entry =>
    (encodeKey [entry.2]).toOption.map fun encoded => (label, entry.1, encoded)

theorem mem_claimsFor {label : String} {wanted : List (String × Model.Value)}
    {claim : StatementClaim} : claim ∈ claimsFor label wanted ↔
      claim.1 = label ∧ ∃ value, (claim.2.1, value) ∈ wanted ∧ encodeKey [value] = .ok claim.2.2 := by
  obtain ⟨ofLabel, property, encoded⟩ := claim
  simp only [claimsFor, List.mem_filterMap, Option.map_eq_some_iff, Prod.mk.injEq, Prod.exists]
  constructor
  · rintro ⟨_, value, isWanted, _, encodes, rfl, rfl, rfl⟩
    exact ⟨rfl, value, isWanted, mem_toOption.mp encodes⟩
  · rintro ⟨rfl, value, isWanted, encodes⟩
    exact ⟨property, value, isWanted, encoded, mem_toOption.mpr encodes, rfl, rfl, rfl⟩

namespace UniqueChecker

variable {checker : UniqueChecker}

private theorem checkUnique_eq_ok {own : Bytes} {label : String} {claims after : List StatementClaim}
    {wanted : List (String × Model.Value)} (fresh : claims.Nodup) :
    checker.checkUnique own label claims wanted = .ok after ↔
      (∀ entry ∈ wanted, checker.checkStored own label entry.1 entry.2 = .ok ()) ∧
        after = (claimsFor label wanted).reverse ++ claims ∧ after.Nodup := by
  induction wanted generalizing claims with
  | nil =>
      rw [checkUnique]
      constructor
      · rintro ⟨⟩
        exact ⟨(fun _ member => nomatch member), rfl, fresh⟩
      · rintro ⟨-, rfl, -⟩
        rfl
  | cons entry wanted ih =>
      obtain ⟨property, value⟩ := entry
      rw [checkUnique, List.forall_mem_cons]
      cases encodes : encodeKey [value] with
      | error cause =>
          have unclaimed : claimsFor label ((property, value) :: wanted) = claimsFor label wanted :=
            List.filterMap_cons_none (by simp [encodes, Except.toOption])
          simp only [claim, encodes, ok_bind]
          rw [check_bind_eq_ok, ih fresh, unclaimed, and_assoc]
      | ok encoded =>
          have claimed : claimsFor label ((property, value) :: wanted) =
              (label, property, encoded) :: claimsFor label wanted :=
            List.filterMap_cons_some (by simp [encodes, Except.toOption])
          simp only [claim, encodes]
          by_cases taken : (label, property, encoded) ∈ claims
          · rw [if_pos taken, claimed]
            constructor
            · rintro ⟨⟩
            · rintro ⟨-, rfl, distinct⟩
              rw [List.reverse_cons, List.append_assoc] at distinct
              exact absurd taken (List.nodup_cons.mp distinct.of_append_right).1
          · rw [if_neg taken, ok_bind, check_bind_eq_ok,
              ih (List.nodup_cons.mpr ⟨taken, fresh⟩), claimed, List.reverse_cons,
              List.append_assoc, and_assoc]
            rfl

/-- The checks of one draft, its claims apart. -/
structure Passes (checker : UniqueChecker) (node : NodeValue) (draft : NodeDraft) (own : Bytes)
    (decl : LabelDef) : Prop where
  existence : checkExistence node draft.key decl = .ok ()
  types : checkTypes node draft.key decl = .ok ()
  stored : ∀ entry ∈ uniqueValues decl draft,
    checker.checkStored own draft.key.label entry.1 entry.2 = .ok ()

private theorem check_eq_ok {node : NodeValue} {draft : NodeDraft} {decl : LabelDef} {own : Bytes}
    (drafted : DraftOf checker.catalogue node draft decl) (encodes : draft.key.encode = .ok own)
    {claims after : List StatementClaim} (fresh : claims.Nodup) :
    checker.check claims node draft.key = .ok after ↔
      checker.Passes node draft own decl ∧
        after = (claimsFor draft.key.label (uniqueValues decl draft)).reverse ++ claims ∧
        after.Nodup := by
  have unfolded : checker.check claims node draft.key = .ok after ↔
      checkExistence node draft.key decl = .ok () ∧ checkTypes node draft.key decl = .ok () ∧
        checker.checkUnique own draft.key.label claims (uniqueValues decl draft) = .ok after := by
    simp only [check, drafted.declared, wanted_eq drafted, ok_bind, encodes, ofKey,
      Except.mapError]
    rw [check_bind_eq_ok, check_bind_eq_ok]
    apply and_congr_right'
    apply and_congr_right'
    split
    · next none =>
        rw [none]
        rfl
    · rfl
  rw [unfolded, checkUnique_eq_ok fresh]
  constructor
  · rintro ⟨existence, types, stored, made⟩
    exact ⟨⟨existence, types, stored⟩, made⟩
  · rintro ⟨⟨existence, types, stored⟩, made⟩
    exact ⟨existence, types, stored, made⟩

end UniqueChecker

def draftClaims (catalogue : Catalogue) (draft : NodeDraft) : List StatementClaim :=
  match catalogue.label draft.key.label with
  | none => []
  | some decl => claimsFor draft.key.label (uniqueValues decl draft)

/-- A draft with the key it is stored under. -/
structure Keeps (catalogue : Catalogue) (pair : NodeValue × NodeDraft) (own : Bytes) : Prop where
  made : nodeKeyAndRecord catalogue pair.1 = .ok pair.2
  encodes : pair.2.key.encode = .ok own

structure DerivedFor (catalogue : Catalogue) (derived : Derived) : Prop where
  each : List.Forall₂ (Keeps catalogue) derived.drafts derived.written
  distinct : derived.written.Nodup

theorem derivedFor_of_derives {catalogue : Catalogue} {base : Manifest} {upserts : List NodeValue}
    {deleted : List EntityId} {derived : Derived}
    (derives : upserts.foldlM (deriveNode catalogue base deleted) ⟨[], [], []⟩ = .ok derived) :
    DerivedFor catalogue derived := by
  apply foldlM_invariant _ _ derives
  · intro state node _ next holds steps
    rw [deriveNode] at steps
    obtain ⟨draft, made, steps⟩ := bind_eq_ok.mp steps
    obtain ⟨encoded, encodes, steps⟩ := bind_eq_ok.mp steps
    obtain ⟨⟨⟩, -, steps⟩ := bind_eq_ok.mp steps
    obtain ⟨fresh, ⟨⟩⟩ := guard_eq_ok.mp steps
    constructor
    · exact List.rel_append holds.each (.cons ⟨made, ofKey_eq_ok.mp encodes⟩ .nil)
    · exact List.nodup_append.mpr ⟨holds.distinct, List.nodup_singleton _, by
        intro key isKey other isOther same
        rw [List.mem_singleton] at isOther
        exact fresh (isOther ▸ same ▸ isKey)⟩
  · exact ⟨.nil, List.nodup_nil⟩

section

variable {checker : UniqueChecker}

/-- The whole loop: every draft passes, and no claim is made twice. -/
theorem checkAll_eq_ok {drafts : List (NodeValue × NodeDraft)} {written : List Bytes}
    (each : List.Forall₂ (Keeps checker.catalogue) drafts written)
    {claims after : List StatementClaim} (fresh : claims.Nodup) :
    checker.checkAll claims drafts = .ok after ↔
      List.Forall₂ (fun pair own => ∃ decl, DraftOf checker.catalogue pair.1 pair.2 decl ∧
        checker.Passes pair.1 pair.2 own decl) drafts written ∧
        after = (drafts.flatMap fun pair => draftClaims checker.catalogue pair.2).reverse ++ claims ∧
        after.Nodup := by
  induction each generalizing claims with
  | nil =>
      constructor
      · rintro ⟨⟩
        exact ⟨.nil, rfl, fresh⟩
      · rintro ⟨-, rfl, -⟩
        rfl
  | @cons pair own drafts written keeps _ ih =>
      obtain ⟨node, draft⟩ := pair
      obtain ⟨decl, drafted⟩ := draftOf_of_made keeps.made
      have claimed : draftClaims checker.catalogue draft =
          claimsFor draft.key.label (uniqueValues decl draft) := by
        simp only [draftClaims, drafted.declared]
      rw [UniqueChecker.checkAll, bind_eq_ok, List.flatMap_cons, List.reverse_append,
        List.append_assoc, claimed, List.forall₂_cons]
      constructor
      · rintro ⟨middle, checks, rest⟩
        obtain ⟨passes, rfl, distinct⟩ :=
          (UniqueChecker.check_eq_ok drafted keeps.encodes fresh).mp checks
        obtain ⟨others, made, stillDistinct⟩ := (ih distinct).mp rest
        exact ⟨⟨⟨decl, drafted, passes⟩, others⟩, made, stillDistinct⟩
      · rintro ⟨⟨⟨other, again, passes⟩, others⟩, made, distinct⟩
        have sameDecl : other = decl :=
          Option.some.inj (again.declared.symm.trans drafted.declared)
        subst sameDecl
        have earlier : ((claimsFor draft.key.label (uniqueValues other draft)).reverse ++
            claims).Nodup := by
          rw [made] at distinct
          exact distinct.of_append_right
        exact ⟨_, (UniqueChecker.check_eq_ok drafted keeps.encodes fresh).mpr
          ⟨passes, rfl, earlier⟩, (ih earlier).mpr ⟨others, made, distinct⟩⟩

end

/-- The node keys and the index rows of a stored version decode. -/
structure Readable (base : Manifest) : Prop where
  nodes : ∀ key ∈ base.nodes.keys, ∃ node, NodeKey.decode key = .ok node
  rows : ∀ name index, base.indexes.get name = some index →
    ∀ row ∈ SortedMap.keys index, ∃ entry, IndexEntry.decode row = .ok entry

section

variable (catalogue : Catalogue) (base : Manifest)

/-- A stored node of the label has the property. -/
def StoredAt (label property : String) (other : Bytes) (stored : StoredValue) : Prop :=
  ∃ node record, base.nodes.get other = some record ∧ NodeKey.decode other = .ok node ∧
    node.label = label ∧ record.properties.get property = some stored

/-- The stored nodes of the label are scanned: no index is declared for the
property, or its map is missing. -/
def Scanned (label property : String) (value : Model.Value) : Prop :=
  ∀ name decl, catalogue.indexOn label property = some (name, decl) →
    (∃ leading, indexValuePrefix label [property] [value] = .ok leading) ∧
      base.indexes.get name = none

def Listed (label property : String) (value : Model.Value) (other : Bytes) : Prop :=
  ∃ name decl index row entry, catalogue.indexOn label property = some (name, decl) ∧
    base.indexes.get name = some index ∧
    (∃ leading, indexValuePrefix label [property] [value] = .ok leading) ∧
    row ∈ SortedMap.keys index ∧ IndexEntry.decode row = .ok entry ∧ entry.label = label ∧
    entry.properties = [property] ∧ canonicalAll entry.values = [canonical value] ∧
    entry.node.encode = .ok other

def SeenHolding (label property : String) (value : Model.Value) (other : Bytes) : Prop :=
  (Scanned catalogue base label property value ∧
    ∃ stored, StoredAt base label property other stored ∧ partialEq stored.val value) ∨
  Listed catalogue base label property value other

def Holds (label property : String) (value : Model.Value) (other : Bytes) : Prop :=
  ∃ stored, StoredAt base label property other stored ∧ encodeValue value = .ok stored

end

private theorem indexOn_eq_some {catalogue : Catalogue} {label property name : String}
    {decl : IndexDef} (found : catalogue.indexOn label property = some (name, decl)) :
    decl.properties = [property] := by
  have holds := List.find?_some found
  exact (of_decide_eq_true holds).2

namespace UniqueChecker

variable {checker : UniqueChecker} {label property : String} {value : Model.Value}

private theorem indexedCollisions_none
    (notServed : checker.indexedCollisions label property value = .ok none) :
    Scanned checker.catalogue checker.base label property value ∧
      ∀ other, ¬ Listed checker.catalogue checker.base label property value other := by
  rw [indexedCollisions] at notServed
  split at notServed
  · next undeclared =>
      constructor
      · intro name decl declared
        rw [undeclared] at declared
        cases declared
      · rintro other ⟨name, decl, _, _, _, declared, -⟩
        rw [undeclared] at declared
        cases declared
  · next name decl declared =>
      rw [indexOn_eq_some declared] at notServed
      split at notServed
      · cases notServed
      · next leading isLeading =>
          split at notServed
          · next missing =>
              constructor
              · intro otherName otherDecl again
                rw [declared] at again
                cases again
                exact ⟨⟨leading, isLeading⟩, missing⟩
              · rintro other ⟨otherName, otherDecl, index, _, _, again, present, -⟩
                rw [declared] at again
                cases again
                rw [missing] at present
                cases present
          · obtain ⟨nodes, -, ⟨⟩⟩ := bind_eq_ok.mp notServed

private theorem not_scanned_of_served {name : String} {decl : IndexDef}
    (declared : checker.catalogue.indexOn label property = some (name, decl))
    (served : (∃ cause, indexValuePrefix label [property] [value] = .error cause) ∨
      checker.base.indexes.get name ≠ none) :
    ¬ Scanned checker.catalogue checker.base label property value := by
  intro scanned
  obtain ⟨⟨leading, isLeading⟩, missing⟩ := scanned name decl declared
  rcases served with ⟨cause, fails⟩ | present
  · rw [isLeading] at fails
    cases fails
  · exact present missing

private theorem indexedCollisions_some {nodes : List NodeKey}
    (served : checker.indexedCollisions label property value = .ok (some nodes)) :
    ¬ Scanned checker.catalogue checker.base label property value ∧
      (∀ node ∈ nodes, ∃ other, node.encode = .ok other) ∧
      ∀ other, (∃ node ∈ nodes, node.encode = .ok other) ↔
        Listed checker.catalogue checker.base label property value other := by
  rw [indexedCollisions] at served
  split at served
  · cases served
  · next name decl declared =>
      rw [indexOn_eq_some declared] at served
      split at served
      · next cause fails =>
          cases served
          refine ⟨not_scanned_of_served declared (.inl ⟨cause, fails⟩),
            (fun _ member => nomatch member), fun other => ⟨?_, ?_⟩⟩
          · rintro ⟨_, member, -⟩
            cases member
          · rintro ⟨_, _, _, _, _, -, -, ⟨leading, isLeading⟩, -⟩
            rw [fails] at isLeading
            cases isLeading
      · next leading isLeading =>
          split at served
          · cases served
          · next index present =>
              obtain ⟨found, scans, ⟨⟩⟩ := bind_eq_ok.mp served
              have indexed : checker.base.indexes.get name ≠ none := by
                rw [present]
                exact nofun
              refine ⟨not_scanned_of_served declared (.inr indexed), ?_, fun other => ⟨?_, ?_⟩⟩
              · intro node member
                obtain ⟨row, -, made⟩ := exists_of_mem_mapM scans member
                obtain ⟨entry, decodes, ⟨⟩⟩ := bind_eq_ok.mp made
                exact IndexEntry.encode_node
                  (IndexEntry.encode_of_decode (ofKey_eq_ok.mp decodes))
              · rintro ⟨node, member, encodes⟩
                obtain ⟨row, inside, made⟩ := exists_of_mem_mapM scans member
                obtain ⟨entry, decodes, ⟨⟩⟩ := bind_eq_ok.mp made
                obtain ⟨isRow, starts⟩ := Graph.mem_scanPrefix.mp inside
                have decoded := ofKey_eq_ok.mp decodes
                obtain ⟨sameLabel, sameProperties, sameValues⟩ := (indexValuePrefix_isPrefix
                  isLeading (IndexEntry.encode_of_decode decoded)).mp starts
                exact ⟨name, decl, index, row.1, entry, declared, present, ⟨leading, isLeading⟩,
                  List.mem_map.mpr ⟨row, isRow, rfl⟩, decoded, sameLabel, sameProperties,
                  sameValues, encodes⟩
              · rintro ⟨otherName, otherDecl, otherIndex, row, entry, again, isIndex, -, isRow,
                  decoded, sameLabel, sameProperties, sameValues, encodes⟩
                rw [declared] at again
                cases again
                rw [present] at isIndex
                cases isIndex
                obtain ⟨pair, isPair, rfl⟩ := List.mem_map.mp isRow
                have starts : leading <+: pair.1 := (indexValuePrefix_isPrefix isLeading
                  (IndexEntry.encode_of_decode decoded)).mpr
                    ⟨sameLabel, sameProperties, sameValues⟩
                obtain ⟨node, member, made⟩ := mem_of_mapM_eq_ok scans
                  (Graph.mem_scanPrefix.mpr ⟨isPair, starts⟩)
                obtain ⟨other, decodes, ⟨⟩⟩ := bind_eq_ok.mp made
                rw [ofKey_eq_ok, decoded, Except.ok.injEq] at decodes
                exact ⟨_, member, decodes ▸ encodes⟩

private theorem indexedCollisions_total (readable : Readable checker.base) :
    ∃ found, checker.indexedCollisions label property value = .ok found := by
  rw [indexedCollisions]
  split
  · exact ⟨none, rfl⟩
  · next name decl declared =>
      split
      · exact ⟨some [], rfl⟩
      · next leading isLeading =>
          split
          · exact ⟨none, rfl⟩
          · next index present =>
              have total : ∀ row ∈ Graph.scanPrefix index leading, ∃ node,
                  (fun (row : Bytes × Unit) => (do
                    let entry ← ofKey (IndexEntry.decode row.1)
                    .ok entry.node : Except PersistError NodeKey)) row = .ok node := by
                intro row inside
                obtain ⟨isRow, -⟩ := Graph.mem_scanPrefix.mp inside
                obtain ⟨entry, decodes⟩ := readable.rows name index present row.1
                  (List.mem_map.mpr ⟨row, isRow, rfl⟩)
                exact ⟨entry.node, bind_eq_ok.mpr ⟨entry, ofKey_eq_ok.mpr decodes, rfl⟩⟩
              obtain ⟨nodes, scans⟩ := mapM_total total
              exact ⟨some nodes, bind_eq_ok.mpr ⟨nodes, scans, rfl⟩⟩

private theorem scannedCollisions_some {nodes : List NodeKey}
    (scans : checker.scannedCollisions label property value = .ok nodes) :
    (∀ node ∈ nodes, ∃ other, node.encode = .ok other) ∧
      ∀ other, (∃ node ∈ nodes, node.encode = .ok other) ↔
        ∃ stored, StoredAt checker.base label property other stored ∧
          partialEq stored.val value := by
  obtain ⟨decoded, decodesAll, ⟨⟩⟩ := bind_eq_ok.mp scans
  have isDecoded : ∀ {pair : NodeKey × NodeRecord}, pair ∈ decoded →
      ∃ bytes, (bytes, pair.2) ∈ checker.base.nodes.entries ∧
        NodeKey.decode bytes = .ok pair.1 := by
    intro pair member
    obtain ⟨row, isRow, made⟩ := exists_of_mem_mapM decodesAll member
    obtain ⟨node, decodes, ⟨⟩⟩ := bind_eq_ok.mp made
    exact ⟨row.1, isRow, ofKey_eq_ok.mp decodes⟩
  refine ⟨?_, fun other => ⟨?_, ?_⟩⟩
  · intro node member
    obtain ⟨pair, isPair, rfl⟩ := List.mem_map.mp member
    obtain ⟨bytes, -, decodes⟩ := isDecoded (List.mem_filter.mp isPair).1
    exact ⟨bytes, NodeKey.encode_of_decode decodes⟩
  · rintro ⟨node, member, encodes⟩
    obtain ⟨pair, isPair, rfl⟩ := List.mem_map.mp member
    obtain ⟨inside, matching⟩ := List.mem_filter.mp isPair
    obtain ⟨bytes, isRow, decodes⟩ := isDecoded inside
    rw [NodeKey.encode_of_decode decodes, Except.ok.injEq] at encodes
    subst encodes
    obtain ⟨sameLabel, holds⟩ := of_decide_eq_true matching
    obtain ⟨stored, found, equal⟩ := (Option.any_eq_true _ _).mp holds
    exact ⟨stored, ⟨_, _, SortedMap.get_eq_some_iff.mpr isRow, decodes, sameLabel, found⟩, equal⟩
  · rintro ⟨stored, ⟨node, record, isRow, decodes, sameLabel, found⟩, equal⟩
    obtain ⟨pair, inside, made⟩ := mem_of_mapM_eq_ok decodesAll
      (SortedMap.get_eq_some_iff.mp isRow)
    obtain ⟨again, decodesAgain, ⟨⟩⟩ := bind_eq_ok.mp made
    rw [ofKey_eq_ok, decodes, Except.ok.injEq] at decodesAgain
    subst decodesAgain
    refine ⟨node, List.mem_map.mpr ⟨_, List.mem_filter.mpr ⟨inside, ?_⟩, rfl⟩,
      NodeKey.encode_of_decode decodes⟩
    exact decide_eq_true ⟨sameLabel, (Option.any_eq_true _ _).mpr ⟨stored, found, equal⟩⟩

private theorem scannedCollisions_total (readable : Readable checker.base) :
    ∃ nodes, checker.scannedCollisions label property value = .ok nodes := by
  have total : ∀ row ∈ checker.base.nodes.entries, ∃ found,
      (fun (row : Bytes × NodeRecord) => (do
        let node ← ofKey (NodeKey.decode row.1)
        .ok (node, row.2) : Except PersistError (NodeKey × NodeRecord))) row = .ok found := by
    intro row isRow
    obtain ⟨node, decodes⟩ := readable.nodes row.1 (List.mem_map.mpr ⟨row, isRow, rfl⟩)
    exact ⟨(node, row.2), bind_eq_ok.mpr ⟨node, ofKey_eq_ok.mpr decodes, rfl⟩⟩
  obtain ⟨decoded, decodesAll⟩ := mapM_total total
  exact ⟨_, bind_eq_ok.mpr ⟨decoded, decodesAll, rfl⟩⟩

/-- What the checker finds, by index or by scan, are the holders it sees. -/
private theorem collisions_some {nodes : List NodeKey}
    (colliding : checker.collisions label property value = .ok nodes) :
    (∀ node ∈ nodes, ∃ other, node.encode = .ok other) ∧
      ∀ other, (∃ node ∈ nodes, node.encode = .ok other) ↔
        SeenHolding checker.catalogue checker.base label property value other := by
  obtain ⟨found, indexed, colliding⟩ := bind_eq_ok.mp colliding
  cases found with
  | none =>
      obtain ⟨scanned, unlisted⟩ := indexedCollisions_none indexed
      obtain ⟨encode, holders⟩ := scannedCollisions_some colliding
      refine ⟨encode, fun other => ?_⟩
      rw [holders, SeenHolding]
      simp [scanned, unlisted]
  | some listed =>
      cases colliding
      obtain ⟨notScanned, encode, holders⟩ := indexedCollisions_some indexed
      refine ⟨encode, fun other => ?_⟩
      rw [holders, SeenHolding]
      simp [notScanned]

private theorem collisions_total (readable : Readable checker.base) :
    ∃ nodes, checker.collisions label property value = .ok nodes := by
  obtain ⟨found, indexed⟩ := @indexedCollisions_total checker label property value readable
  cases found with
  | none =>
      obtain ⟨nodes, scans⟩ := @scannedCollisions_total checker label property value readable
      exact ⟨nodes, by rw [collisions, indexed, ok_bind]; exact scans⟩
  | some nodes => exact ⟨nodes, by rw [collisions, indexed, ok_bind]⟩

/-- Every holder the checker sees of a value it admits is replaced or
deleted. -/
theorem superseded_of_checkStored {own : Bytes}
    (passes : checker.checkStored own label property value = .ok ()) {other : Bytes}
    (seen : SeenHolding checker.catalogue checker.base label property value other) :
    checker.superseded own other := by
  obtain ⟨nodes, colliding, checks⟩ := bind_eq_ok.mp passes
  rw [checkEach_eq_ok] at checks
  obtain ⟨node, member, encodes⟩ := ((collisions_some colliding).2 other).mpr seen
  have passes := checks node member
  simp only [encodes, ofKey, Except.mapError, ok_bind] at passes
  by_contra notSuperseded
  rw [if_neg notSuperseded] at passes
  cases passes

theorem checkStored_eq_ok (readable : Readable checker.base) {own : Bytes} :
    checker.checkStored own label property value = .ok () ↔
      ∀ other, SeenHolding checker.catalogue checker.base label property value other →
        checker.superseded own other := by
  refine ⟨fun passes other => superseded_of_checkStored passes, ?_⟩
  obtain ⟨nodes, colliding⟩ := @collisions_total checker label property value readable
  obtain ⟨encode, holders⟩ := collisions_some colliding
  intro superseded
  rw [checkStored, colliding, ok_bind, checkEach_eq_ok]
  intro node member
  obtain ⟨other, encodes⟩ := encode node member
  simp only [encodes, ofKey, Except.mapError, ok_bind]
  rw [if_pos (superseded other ((holders other).mp ⟨node, member, encodes⟩))]

end UniqueChecker

end Persist

end Acetone.Cypher

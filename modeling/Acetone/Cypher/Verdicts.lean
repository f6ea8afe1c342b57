import Acetone.Cypher.Checker

/-!
# Two verdicts on one statement

The constraints of a statement are judged before it is staged, by the claims of
the statement, an index or a scan of the label.  The check of the whole node map
judges the result.  Both find the same missing and mistyped properties; they
differ in which values they take to be equal, and in who holds a value.
-/

namespace Acetone.Cypher

open Acetone.Lib Acetone.Model
open Acetone.Graph (Transaction Manifest NodeMap)

namespace Persist

def resultingNodes (base : Manifest) (deleted : List EntityId) (drafts : List NodeDraft) :
    Except PersistError NodeMap := do
  let txn ← deleted.foldlM deleteNode (.beginWrite ⟨base, none⟩)
  let txn ← drafts.foldlM putNode txn
  .ok (base.nodes.applyAll txn.nodes)

private theorem get_deleteNodes {nodes : NodeMap} {deleted : List EntityId}
    {txn staged : Transaction} (deletes : deleted.foldlM deleteNode txn = .ok staged)
    (key : Bytes) : (nodes.applyAll staged.nodes).get key =
      if key ∈ deleted then none else (nodes.applyAll txn.nodes).get key := by
  induction deleted generalizing txn with
  | nil =>
      cases deletes
      simp
  | cons id deleted ih =>
      rw [List.foldlM_cons] at deletes
      obtain ⟨next, steps, deletes⟩ := bind_eq_ok.mp deletes
      rw [deleteNode] at steps
      obtain ⟨node, decodes, steps⟩ := bind_eq_ok.mp steps
      rw [ofGraph_eq_ok, Transaction.deleteNode] at steps
      obtain ⟨bytes, encodes, ⟨⟩⟩ := bind_eq_ok.mp steps
      rw [Graph.liftKey_eq_ok, NodeKey.encode_of_decode (ofKey_eq_ok.mp decodes),
        Except.ok.injEq] at encodes
      subst encodes
      rw [ih deletes, SortedMap.applyAll_append]
      change (if key ∈ deleted then none else ((nodes.applyAll txn.nodes).delete id).get key) = _
      rw [SortedMap.get_delete]
      by_cases isId : id = key
      · simp [isId]
      · simp [isId, Ne.symm isId]

def Leaves (nodes : NodeMap) (draft : NodeDraft) (own : Bytes) : Prop :=
  ∃ properties, encodeProperties draft.properties = .ok properties ∧
    nodes.get own = some ⟨draft.secondaryLabels.toFinset, properties⟩

private theorem get_putNodes {nodes : NodeMap} {drafts : List NodeDraft} {written : List Bytes}
    (encode : List.Forall₂ (fun draft own => NodeKey.encode draft.key = .ok own) drafts written)
    (distinct : written.Nodup) {txn staged : Transaction}
    (puts : drafts.foldlM putNode txn = .ok staged) :
    List.Forall₂ (Leaves (nodes.applyAll staged.nodes)) drafts written ∧
      ∀ key, key ∉ written →
        (nodes.applyAll staged.nodes).get key = (nodes.applyAll txn.nodes).get key := by
  induction encode generalizing txn with
  | nil =>
      cases puts
      exact ⟨.nil, fun _ _ => rfl⟩
  | @cons draft own drafts written encodes _ ih =>
      obtain ⟨fresh, distinct⟩ := List.nodup_cons.mp distinct
      rw [List.foldlM_cons] at puts
      obtain ⟨next, steps, puts⟩ := bind_eq_ok.mp puts
      rw [putNode] at steps
      obtain ⟨properties, stores, steps⟩ := bind_eq_ok.mp steps
      rw [ofGraph_eq_ok, Transaction.putNode] at steps
      obtain ⟨bytes, isOwn, ⟨⟩⟩ := bind_eq_ok.mp steps
      rw [Graph.liftKey_eq_ok, encodes, Except.ok.injEq] at isOwn
      subst isOwn
      obtain ⟨leave, others⟩ := ih distinct puts
      constructor
      · refine .cons ⟨properties, stores, ?_⟩ leave
        rw [others own fresh, SortedMap.applyAll_append]
        exact (SortedMap.get_put _ own _ own).trans (if_pos rfl)
      · intro key untouched
        rw [List.mem_cons, not_or] at untouched
        rw [others key untouched.2, SortedMap.applyAll_append]
        exact (SortedMap.get_put _ own _ key).trans (if_neg (Ne.symm untouched.1))

theorem resultingNodes_spec {catalogue : Catalogue} {base : Manifest} {deleted : List EntityId}
    {derived : Derived} {after : NodeMap} (holds : DerivedFor catalogue derived)
    (results : resultingNodes base deleted (derived.drafts.map Prod.snd) = .ok after) :
    List.Forall₂ (fun pair own => Leaves after pair.2 own) derived.drafts derived.written ∧
      ∀ key, key ∉ derived.written →
        after.get key = if key ∈ deleted then none else base.nodes.get key := by
  obtain ⟨emptied, deletes, results⟩ := bind_eq_ok.mp results
  obtain ⟨staged, puts, ⟨⟩⟩ := bind_eq_ok.mp results
  have encode : List.Forall₂ (fun draft own => NodeKey.encode draft.key = .ok own)
      (derived.drafts.map Prod.snd) derived.written := by
    rw [List.forall₂_map_left_iff]
    exact holds.each.imp fun _ _ keeps => keeps.encodes
  obtain ⟨leave, others⟩ := get_putNodes encode holds.distinct puts
  rw [List.forall₂_map_left_iff] at leave
  refine ⟨leave, fun key untouched => ?_⟩
  rw [others key untouched, get_deleteNodes deletes]
  rfl

section

variable (catalogue : Catalogue) (base : Manifest) (derived : Derived) (deleted : List EntityId)

/-- A node to be written lacks a required property or has a mistyped one. -/
def Flawed : Prop :=
  ∃ pair ∈ derived.drafts, ∃ decl, catalogue.label pair.2.key.label = some decl ∧
    ((∃ property ∈ decl.existence, pair.1.properties.get property = none) ∨
      ∃ entry ∈ decl.types.entries, ∃ value stored, pair.1.properties.get entry.1 = some value ∧
        convertValue value = .ok stored ∧ Graph.mistyped entry.1 entry.2 stored ≠ none)

/-- The node to be written under a key will hold a value of a UNIQUE property
of its label. -/
def Wants (own : Bytes) (label property : String) (value : Model.Value) : Prop :=
  ∃ pair, (pair, own) ∈ derived.drafts.zip derived.written ∧ pair.2.key.label = label ∧
    (∃ decl, catalogue.label label = some decl ∧ property ∈ decl.unique) ∧
    pair.2.properties.get property = some value

/-- Two nodes, one of them to be written, are taken to hold one value of a
UNIQUE property. -/
inductive Clash (same : Model.Value → Model.Value → Prop)
    (holds : String → String → Model.Value → Bytes → Prop) : Prop
  | written {first second : Bytes} {label property : String} {value other : Model.Value} :
      first ≠ second → Wants catalogue derived first label property value →
      Wants catalogue derived second label property other → same value other → Clash same holds
  | stored {own holder : Bytes} {label property : String} {value : Model.Value} :
      Wants catalogue derived own label property value → holder ∉ derived.written →
      holder ∉ deleted → holds label property value holder → Clash same holds

end

def SameClaim (left right : Model.Value) : Prop :=
  ∃ encoded, encodeKey [left] = .ok encoded ∧ encodeKey [right] = .ok encoded

def SameStored (left right : Model.Value) : Prop :=
  ∃ stored, encodeValue left = .ok stored ∧ encodeValue right = .ok stored

section

variable {catalogue : Catalogue} {base : Manifest} {derived : Derived} {deleted : List EntityId}
  {same otherSame : Model.Value → Model.Value → Prop}
  {holds otherHolds : String → String → Model.Value → Bytes → Prop}

/-- A clash is one of those that another notion also sees, or one of those it
does not. -/
theorem Clash.split : Clash catalogue derived deleted same holds ↔
    Clash catalogue derived deleted (fun left right => same left right ∧ otherSame left right)
      (fun label property value holder => holds label property value holder ∧
        otherHolds label property value holder) ∨
    Clash catalogue derived deleted (fun left right => same left right ∧ ¬ otherSame left right)
      (fun label property value holder => holds label property value holder ∧
        ¬ otherHolds label property value holder) := by
  constructor
  · intro clash
    cases clash with
    | @written _ _ _ _ value other apart wants alsoWants equal =>
        by_cases also : otherSame value other
        · exact .inl (.written apart wants alsoWants ⟨equal, also⟩)
        · exact .inr (.written apart wants alsoWants ⟨equal, also⟩)
    | @stored own holder label property value wants unwritten kept seen =>
        by_cases also : otherHolds label property value holder
        · exact .inl (.stored wants unwritten kept ⟨seen, also⟩)
        · exact .inr (.stored wants unwritten kept ⟨seen, also⟩)
  · rintro ((⟨apart, first, second, equal, -⟩ | ⟨wants, unwritten, kept, seen, -⟩) |
      (⟨apart, first, second, equal, -⟩ | ⟨wants, unwritten, kept, seen, -⟩))
    · exact .written apart first second equal
    · exact .stored wants unwritten kept seen
    · exact .written apart first second equal
    · exact .stored wants unwritten kept seen

end

section

variable {catalogue : Catalogue} {base : Manifest} {derived : Derived} {deleted : List EntityId}

private theorem checkExistence_eq_ok {node : NodeValue} {key : NodeKey} {decl : LabelDef} :
    UniqueChecker.checkExistence node key decl = .ok () ↔
      ¬ ∃ property ∈ decl.existence, node.properties.get property = none := by
  rw [UniqueChecker.checkExistence, checkEach_eq_ok]
  push Not
  apply forall₂_congr
  intro property _
  cases node.properties.get property <;> simp

private theorem checkTypes_eq_ok {node : NodeValue} {draft : NodeDraft} {decl : LabelDef}
    (drafted : DraftOf catalogue node draft decl) :
    UniqueChecker.checkTypes node draft.key decl = .ok () ↔
      ¬ ∃ entry ∈ decl.types.entries, ∃ value stored,
        node.properties.get entry.1 = some value ∧ convertValue value = .ok stored ∧
          Graph.mistyped entry.1 entry.2 stored ≠ none := by
  rw [UniqueChecker.checkTypes, checkEach_eq_ok]
  push Not
  apply forall₂_congr
  rintro ⟨property, declared⟩ _
  cases found : node.properties.get property with
  | none => simp
  | some value =>
      obtain ⟨stored, converts⟩ := drafted.converts found
      have judged : (∀ other kept, some value = some other → convertValue other = .ok kept →
          Graph.mistyped property declared kept = none) ↔
          Graph.mistyped property declared stored = none := by
        constructor
        · intro all
          exact all value stored rfl converts
        · rintro none other kept ⟨⟩ again
          rw [converts, Except.ok.injEq] at again
          exact again ▸ none
      rw [judged]
      simp only [converts, ok_bind]
      cases Graph.mistyped property declared stored <;> simp

/-- What follows of drafts that pass for themselves. -/
private theorem of_passes (holds : DerivedFor catalogue derived)
    (passes : List.Forall₂ (fun pair own => ∃ decl, DraftOf catalogue pair.1 pair.2 decl ∧
      UniqueChecker.Passes ⟨catalogue, base, derived.written, deleted⟩ pair.1 pair.2 own decl)
      derived.drafts derived.written) :
    ¬ Flawed catalogue derived ∧ ∀ own label property value,
      Wants catalogue derived own label property value → ∀ holder,
        SeenHolding catalogue base label property value holder →
          holder ∈ derived.written ∨ holder ∈ deleted := by
  obtain ⟨sameLength, -⟩ := List.forall₂_iff_zip.mp holds.each
  obtain ⟨-, passes⟩ := List.forall₂_iff_zip.mp passes
  constructor
  · rintro ⟨pair, isPair, decl, declared, flaw⟩
    obtain ⟨own, inside⟩ : ∃ own, (pair, own) ∈ derived.drafts.zip derived.written := by
      rw [← List.map_fst_zip sameLength.le] at isPair
      obtain ⟨row, isRow, rfl⟩ := List.mem_map.mp isPair
      exact ⟨row.2, isRow⟩
    obtain ⟨again, drafted, passed⟩ := passes inside
    have sameDecl : again = decl :=
      Option.some.inj (drafted.declared.symm.trans declared)
    subst sameDecl
    rcases flaw with missing | wrong
    · exact checkExistence_eq_ok.mp passed.existence missing
    · exact (checkTypes_eq_ok drafted).mp passed.types wrong
  · rintro own label property value ⟨pair, inside, rfl, ⟨decl, declared, isUnique⟩, found⟩
      holder seen
    obtain ⟨again, drafted, passed⟩ := passes inside
    have sameDecl : again = decl :=
      Option.some.inj (drafted.declared.symm.trans declared)
    subst sameDecl
    have stored := passed.stored (property, value) (mem_uniqueValues.mpr ⟨isUnique, found⟩)
    have superseded := of_decide_eq_true
      (UniqueChecker.superseded_of_checkStored stored seen)
    rcases superseded with rfl | isDeleted | isWritten
    · exact .inl (List.of_mem_zip inside).2
    · exact .inr isDeleted
    · exact .inl isWritten

/-- Every draft passes for itself: none is flawed, and every holder that the
checker sees of a value is replaced or deleted. -/
private theorem passes_iff (readable : Readable base) (holds : DerivedFor catalogue derived) :
    List.Forall₂ (fun pair own => ∃ decl, DraftOf catalogue pair.1 pair.2 decl ∧
      UniqueChecker.Passes ⟨catalogue, base, derived.written, deleted⟩ pair.1 pair.2 own decl)
      derived.drafts derived.written ↔
      ¬ Flawed catalogue derived ∧ ∀ own label property value,
        Wants catalogue derived own label property value → ∀ holder,
          SeenHolding catalogue base label property value holder →
            holder ∈ derived.written ∨ holder ∈ deleted := by
  refine ⟨of_passes holds, ?_⟩
  obtain ⟨sameLength, each⟩ := List.forall₂_iff_zip.mp holds.each
  rw [List.forall₂_iff_zip]
  rintro ⟨flawless, replaced⟩
  refine ⟨sameLength, fun {pair own} inside => ?_⟩
  obtain ⟨decl, drafted⟩ := draftOf_of_made (each inside).made
  have isPair := (List.of_mem_zip inside).1
  refine ⟨decl, drafted, ?_, ?_, ?_⟩
  · apply checkExistence_eq_ok.mpr
    intro missing
    exact flawless ⟨pair, isPair, decl, drafted.declared, .inl missing⟩
  · apply (checkTypes_eq_ok drafted).mpr
    intro wrong
    exact flawless ⟨pair, isPair, decl, drafted.declared, .inr wrong⟩
  · rintro ⟨property, value⟩ wanted
    obtain ⟨isUnique, found⟩ := mem_uniqueValues.mp wanted
    apply (UniqueChecker.checkStored_eq_ok readable).mpr
    intro holder seen
    have wants : Wants catalogue derived own pair.2.key.label property value :=
      ⟨pair, inside, rfl, ⟨decl, drafted.declared, isUnique⟩, found⟩
    apply decide_eq_true
    rcases replaced _ _ _ _ wants holder seen with isWritten | isDeleted
    · exact .inr (.inr isWritten)
    · exact .inr (.inl isDeleted)

private theorem mem_draftClaims {draft : NodeDraft} {claim : StatementClaim} :
    claim ∈ draftClaims catalogue draft ↔ claim.1 = draft.key.label ∧
      (∃ decl, catalogue.label draft.key.label = some decl ∧ claim.2.1 ∈ decl.unique) ∧
      ∃ value, draft.properties.get claim.2.1 = some value ∧
        encodeKey [value] = .ok claim.2.2 := by
  cases declared : catalogue.label draft.key.label with
  | none => simp [draftClaims, declared]
  | some decl =>
      simp only [draftClaims, declared, mem_claimsFor, mem_uniqueValues, Option.some.injEq,
        exists_eq_left']
      constructor
      · rintro ⟨isLabel, value, ⟨isUnique, found⟩, encodes⟩
        exact ⟨isLabel, isUnique, value, found, encodes⟩
      · rintro ⟨isLabel, isUnique, value, found, encodes⟩
        exact ⟨isLabel, value, ⟨isUnique, found⟩, encodes⟩

private theorem draftClaims_nodup
    (named : ∀ label decl, catalogue.label label = some decl → decl.unique.Nodup)
    (draft : NodeDraft) : (draftClaims catalogue draft).Nodup := by
  cases declared : catalogue.label draft.key.label with
  | none => simp [draftClaims, declared]
  | some decl =>
      simp only [draftClaims, declared, claimsFor, uniqueValues, List.filterMap_filterMap]
      refine (named _ _ declared).filterMap ?_
      intro left right claim isLeft isRight
      simp only [Option.mem_def, Option.bind_eq_some_iff, Option.map_eq_some_iff] at isLeft isRight
      obtain ⟨_, ⟨_, -, rfl⟩, _, -, rfl⟩ := isLeft
      obtain ⟨_, ⟨_, -, rfl⟩, _, -, same⟩ := isRight
      exact (congrArg (·.2.1) same).symm

/-- Where no claim is made twice, no two nodes to be written want one value. -/
private theorem separate_of_nodup (holds : DerivedFor catalogue derived)
    (distinct : (derived.drafts.flatMap fun pair => draftClaims catalogue pair.2).Nodup)
    {first second : Bytes} {label property : String} {value other : Model.Value}
    (apart : first ≠ second) (wants : Wants catalogue derived first label property value)
    (alsoWants : Wants catalogue derived second label property other) :
    ¬ SameClaim value other := by
  obtain ⟨sameLength, -⟩ := List.forall₂_iff_zip.mp holds.each
  have paired : (derived.drafts.flatMap fun pair => draftClaims catalogue pair.2) =
      (derived.drafts.zip derived.written).flatMap fun row => draftClaims catalogue row.1.2 := by
    conv_lhs => rw [← List.map_fst_zip sameLength.le]
    rw [List.flatMap_map]
  rw [paired, List.nodup_flatMap] at distinct
  obtain ⟨pair, inside, rfl, isUnique, found⟩ := wants
  obtain ⟨pair', inside', sameLabel, -, found'⟩ := alsoWants
  rintro ⟨encoded, encodes, encodes'⟩
  have symmetric : Std.Symm (Function.onFun List.Disjoint
      fun row : (NodeValue × NodeDraft) × Bytes => draftClaims catalogue row.1.2) :=
    ⟨fun _ _ separate => separate.symm⟩
  have separate := distinct.2.forall inside inside' fun sameRow =>
    apart (congrArg Prod.snd sameRow)
  exact separate
    (mem_draftClaims.mpr ⟨rfl, isUnique, value, found, encodes⟩ :
      (pair.2.key.label, property, encoded) ∈ draftClaims catalogue pair.2)
    (mem_draftClaims.mpr ⟨sameLabel.symm, sameLabel.symm ▸ isUnique, other, found', encodes'⟩)

/-- No claim is made twice: no two nodes to be written want one value. -/
private theorem claims_nodup_iff (holds : DerivedFor catalogue derived)
    (named : ∀ label decl, catalogue.label label = some decl → decl.unique.Nodup) :
    (derived.drafts.flatMap fun pair => draftClaims catalogue pair.2).Nodup ↔
      ∀ first second label property value other, first ≠ second →
        Wants catalogue derived first label property value →
        Wants catalogue derived second label property other → ¬ SameClaim value other := by
  refine ⟨fun distinct _ _ _ _ _ _ => separate_of_nodup holds distinct, ?_⟩
  obtain ⟨sameLength, -⟩ := List.forall₂_iff_zip.mp holds.each
  have keysDistinct : ((derived.drafts.zip derived.written).map Prod.snd).Nodup := by
    rw [List.map_snd_zip sameLength.ge]
    exact holds.distinct
  have paired : (derived.drafts.flatMap fun pair => draftClaims catalogue pair.2) =
      (derived.drafts.zip derived.written).flatMap fun row => draftClaims catalogue row.1.2 := by
    conv_lhs => rw [← List.map_fst_zip sameLength.le]
    rw [List.flatMap_map]
  rw [paired, List.nodup_flatMap]
  intro separate
  refine ⟨fun row _ => draftClaims_nodup named row.1.2, ?_⟩
  refine (List.Nodup.of_map _ keysDistinct).pairwise_of_forall_ne ?_
  rintro ⟨pair, first⟩ inside ⟨pair', second⟩ inside' differ claim isClaim isClaim'
  obtain ⟨isLabel, isUnique, value, found, encodes⟩ := mem_draftClaims.mp isClaim
  obtain ⟨isLabel', -, other, found', encodes'⟩ := mem_draftClaims.mp isClaim'
  have apart : first ≠ second := by
    intro sameKey
    exact differ (List.inj_on_of_nodup_map keysDistinct inside inside' sameKey)
  have sameLabel : pair'.2.key.label = pair.2.key.label := isLabel'.symm.trans isLabel
  exact separate first second _ claim.2.1 value other apart
    ⟨pair, inside, rfl, isUnique, found⟩ ⟨pair', inside', sameLabel, isUnique, found'⟩
    ⟨claim.2.2, encodes, encodes'⟩

/-- An accepted statement has neither a flaw nor a clash in the eyes of the
checker. -/
theorem noClash_of_accepts (holds : DerivedFor catalogue derived)
    {claims : List StatementClaim}
    (accepts : UniqueChecker.checkAll ⟨catalogue, base, derived.written, deleted⟩ []
      derived.drafts = .ok claims) :
    ¬ Flawed catalogue derived ∧
      ¬ Clash catalogue derived deleted SameClaim (SeenHolding catalogue base) := by
  obtain ⟨passes, rfl, distinct⟩ := (checkAll_eq_ok holds.each List.nodup_nil).mp accepts
  rw [List.append_nil, List.nodup_reverse] at distinct
  obtain ⟨flawless, replaced⟩ := of_passes holds passes
  refine ⟨flawless, fun clash => ?_⟩
  cases clash with
  | written apart wants alsoWants same =>
      exact separate_of_nodup holds distinct apart wants alsoWants same
  | stored wants unwritten undeleted seen =>
      rcases replaced _ _ _ _ wants _ seen with isWritten | isDeleted
      · exact unwritten isWritten
      · exact undeleted isDeleted

/-- The statement is refused for a flaw of one of its nodes, or for a clash in
the eyes of the checker. -/
theorem refuses_iff (readable : Readable base) (holds : DerivedFor catalogue derived)
    (named : ∀ label decl, catalogue.label label = some decl → decl.unique.Nodup) :
    (∀ claims, UniqueChecker.checkAll ⟨catalogue, base, derived.written, deleted⟩ []
      derived.drafts ≠ .ok claims) ↔
      Flawed catalogue derived ∨
        Clash catalogue derived deleted SameClaim (SeenHolding catalogue base) := by
  constructor
  · intro refused
    by_contra neither
    obtain ⟨flawless, free⟩ := not_or.mp neither
    have passes := (passes_iff readable holds).mpr ⟨flawless, fun own label property value wants
      holder seen => by
        by_contra kept
        obtain ⟨unwritten, undeleted⟩ := not_or.mp kept
        exact free (.stored wants unwritten undeleted seen)⟩
    have distinct := (claims_nodup_iff holds named).mpr
      fun first second label property value other apart wants alsoWants same =>
        free (.written apart wants alsoWants same)
    refine refused _ ((checkAll_eq_ok holds.each List.nodup_nil).mpr ⟨passes, rfl, ?_⟩)
    rw [List.append_nil, List.nodup_reverse]
    exact distinct
  · intro found claims accepts
    obtain ⟨flawless, free⟩ := noClash_of_accepts holds accepts
    exact found.elim flawless free

variable {after : NodeMap} {nodes : List (Bytes × NodeKey × NodeRecord)}

private theorem row_of_written (holds : DerivedFor catalogue derived)
    (results : resultingNodes base deleted (derived.drafts.map Prod.snd) = .ok after)
    {pair : NodeValue × NodeDraft} {own : Bytes}
    (inside : (pair, own) ∈ derived.drafts.zip derived.written) :
    ∃ properties stored, encodeProperties pair.2.properties = .ok properties ∧
      after.get own = some ⟨pair.2.secondaryLabels.toFinset, properties⟩ ∧
      NodeKey.decode own = .ok stored ∧ stored.label = pair.2.key.label ∧
      stored.key = canonicalAll pair.2.key.key := by
  obtain ⟨properties, encodes, found⟩ :=
    (List.forall₂_iff_zip.mp (resultingNodes_spec holds results).1).2 inside
  obtain ⟨stored, decodes, sameLabel, sameKey⟩ := NodeKey.decode_of_encode
    ((List.forall₂_iff_zip.mp holds.each).2 inside).encodes
  exact ⟨properties, stored, encodes, found, decodes, sameLabel, sameKey⟩

private theorem exists_pair (holds : DerivedFor catalogue derived) {own : Bytes}
    (isWritten : own ∈ derived.written) :
    ∃ pair, (pair, own) ∈ derived.drafts.zip derived.written := by
  obtain ⟨sameLength, -⟩ := List.forall₂_iff_zip.mp holds.each
  rw [← List.map_snd_zip sameLength.ge] at isWritten
  obtain ⟨row, isRow, rfl⟩ := List.mem_map.mp isWritten
  exact ⟨row.1, isRow⟩

/-- The claims of a written node are the values it wants, as they are stored. -/
private theorem claims_of_written (holds : DerivedFor catalogue derived)
    (results : resultingNodes base deleted (derived.drafts.map Prod.snd) = .ok after)
    {own : Bytes} (isWritten : own ∈ derived.written) {node : NodeKey} {record : NodeRecord}
    (found : after.get own = some record) (decodes : NodeKey.decode own = .ok node)
    {claim : Graph.UniqueClaim} :
    claim ∈ Graph.claimsOf catalogue.labels node record ↔
      ∃ value, Wants catalogue derived own claim.1 claim.2.1 value ∧
        encodeValue value = .ok claim.2.2 := by
  have ofPair : ∀ {pair : NodeValue × NodeDraft},
      (pair, own) ∈ derived.drafts.zip derived.written →
      pair.2.key.label = node.label ∧
        encodeProperties pair.2.properties = .ok record.properties := by
    intro pair inside
    obtain ⟨properties, stored, encodes, isRecord, isNode, sameLabel, -⟩ :=
      row_of_written holds results inside
    rw [found, Option.some.injEq] at isRecord
    rw [decodes, Except.ok.injEq] at isNode
    subst isRecord isNode
    exact ⟨sameLabel.symm, encodes⟩
  rw [Graph.mem_claimsOf]
  constructor
  · rintro ⟨decl, declared, isLabel, isUnique, holdsValue⟩
    obtain ⟨pair, inside⟩ := exists_pair holds isWritten
    obtain ⟨sameLabel, encodes⟩ := ofPair inside
    obtain ⟨value, inDraft, stores⟩ := (get_encodeProperties encodes).mp holdsValue
    exact ⟨value, ⟨pair, inside, sameLabel.trans isLabel.symm,
      ⟨decl, isLabel ▸ declared, isUnique⟩, inDraft⟩, stores⟩
  · rintro ⟨value, ⟨pair, inside, isLabel, ⟨decl, declared, isUnique⟩, inDraft⟩, stores⟩
    obtain ⟨sameLabel, encodes⟩ := ofPair inside
    have sameClaim : claim.1 = node.label := isLabel.symm.trans sameLabel
    exact ⟨decl, sameClaim ▸ declared, sameClaim, isUnique,
      (get_encodeProperties encodes).mpr ⟨value, inDraft, stores⟩⟩

private theorem row_of_wants (holds : DerivedFor catalogue derived)
    (results : resultingNodes base deleted (derived.drafts.map Prod.snd) = .ok after)
    {own : Bytes} {label property : String} {value : Model.Value}
    (wants : Wants catalogue derived own label property value) :
    own ∈ derived.written ∧ ∃ node record, after.get own = some record ∧
      NodeKey.decode own = .ok node := by
  obtain ⟨pair, inside, -⟩ := wants
  obtain ⟨properties, node, -, found, decodes, -⟩ := row_of_written holds results inside
  exact ⟨(List.of_mem_zip inside).2, node, _, found, decodes⟩

/-- A flaw is a breach of the row that is left. -/
theorem breach_iff (holds : DerivedFor catalogue derived)
    (results : resultingNodes base deleted (derived.drafts.map Prod.snd) = .ok after)
    (reads : Graph.allNodes after = .ok nodes) :
    (∃ row ∈ nodes, row.1 ∈ derived.written ∧ ∃ decl,
      catalogue.labels.get row.2.1.label = some decl ∧
        Graph.nodeViolations row.2.1 row.2.2 decl ≠ []) ↔ Flawed catalogue derived := by
  have judged : ∀ {pair : NodeValue × NodeDraft} {own : Bytes} {node : NodeKey}
      {record : NodeRecord} {decl : LabelDef},
      (pair, own) ∈ derived.drafts.zip derived.written → after.get own = some record →
      NodeKey.decode own = .ok node → catalogue.label pair.2.key.label = some decl →
      (Graph.nodeViolations node record decl ≠ [] ↔
        (∃ property ∈ decl.existence, pair.1.properties.get property = none) ∨
        ∃ entry ∈ decl.types.entries, ∃ value stored,
          pair.1.properties.get entry.1 = some value ∧ convertValue value = .ok stored ∧
            Graph.mistyped entry.1 entry.2 stored ≠ none) := by
    intro pair own node record decl inside found decodes declared
    obtain ⟨properties, stored, encodes, isRecord, isNode, -, sameKey⟩ :=
      row_of_written holds results inside
    rw [found, Option.some.injEq] at isRecord
    rw [decodes, Except.ok.injEq] at isNode
    subst isRecord isNode
    obtain ⟨again, drafted⟩ := draftOf_of_made
      ((List.forall₂_iff_zip.mp holds.each).2 inside).made
    have sameDecl : again = decl := Option.some.inj (drafted.declared.symm.trans declared)
    subst sameDecl
    rw [Ne, ← checks_iff drafted encodes sameKey, checkExistence_eq_ok,
      checkTypes_eq_ok drafted, not_and_or, not_not, not_not]
  constructor
  · rintro ⟨⟨own, node, record⟩, isRow, isWritten, decl, declared, breached⟩
    obtain ⟨found, decodes⟩ := (Graph.mem_allNodes reads).mp isRow
    obtain ⟨pair, inside⟩ := exists_pair holds isWritten
    obtain ⟨_, stored, -, -, isNode, sameLabel, -⟩ := row_of_written holds results inside
    rw [decodes, Except.ok.injEq] at isNode
    subst isNode
    have isDeclared : catalogue.label pair.2.key.label = some decl := sameLabel ▸ declared
    exact ⟨pair, (List.of_mem_zip inside).1, decl, isDeclared,
      (judged inside found decodes isDeclared).mp breached⟩
  · rintro ⟨pair, isPair, decl, declared, flaw⟩
    obtain ⟨own, inside⟩ : ∃ own, (pair, own) ∈ derived.drafts.zip derived.written := by
      rw [← List.map_fst_zip (List.forall₂_iff_zip.mp holds.each).1.le] at isPair
      obtain ⟨row, isRow, rfl⟩ := List.mem_map.mp isPair
      exact ⟨row.2, isRow⟩
    obtain ⟨_, stored, -, found, decodes, sameLabel, -⟩ := row_of_written holds results inside
    refine ⟨(own, stored, _), (Graph.mem_allNodes reads).mpr ⟨found, decodes⟩,
      (List.of_mem_zip inside).2, decl, ?_, (judged inside found decodes declared).mpr flaw⟩
    exact sameLabel ▸ declared

/-- A node that was written shares a claim with another one exactly when there
is a clash by the values as they are stored. -/
theorem shares_iff (holds : DerivedFor catalogue derived)
    (results : resultingNodes base deleted (derived.drafts.map Prod.snd) = .ok after)
    (reads : Graph.allNodes after = .ok nodes) :
    (∃ first ∈ nodes, ∃ second ∈ nodes, first.1 ∈ derived.written ∧ first.1 ≠ second.1 ∧
      ∃ claim ∈ Graph.claimsOf catalogue.labels first.2.1 first.2.2,
        claim ∈ Graph.claimsOf catalogue.labels second.2.1 second.2.2) ↔
      Clash catalogue derived deleted SameStored (Holds base) := by
  have untouched := (resultingNodes_spec holds results).2
  constructor
  · rintro ⟨⟨first, node, record⟩, isRow, ⟨second, other, otherRecord⟩, isOther, isWritten,
      apart, claim, isClaim, alsoClaim⟩
    obtain ⟨found, decodes⟩ := (Graph.mem_allNodes reads).mp isRow
    obtain ⟨otherFound, otherDecodes⟩ := (Graph.mem_allNodes reads).mp isOther
    obtain ⟨value, wants, stores⟩ :=
      (claims_of_written holds results isWritten found decodes).mp isClaim
    by_cases alsoWritten : second ∈ derived.written
    · obtain ⟨rival, alsoWants, alsoStores⟩ :=
        (claims_of_written holds results alsoWritten otherFound otherDecodes).mp alsoClaim
      exact .written apart wants alsoWants ⟨claim.2.2, stores, alsoStores⟩
    · rw [untouched second alsoWritten] at otherFound
      split at otherFound
      · cases otherFound
      · next undeleted =>
          obtain ⟨decl, -, isLabel, -, holdsValue⟩ := Graph.mem_claimsOf.mp alsoClaim
          exact .stored wants alsoWritten undeleted ⟨claim.2.2,
            ⟨other, otherRecord, otherFound, otherDecodes, isLabel.symm, holdsValue⟩, stores⟩
  · intro clash
    cases clash with
    | @written first second label property value rival apart wants alsoWants same =>
        obtain ⟨stored, stores, alsoStores⟩ := same
        obtain ⟨firstWritten, node, record, found, decodes⟩ := row_of_wants holds results wants
        obtain ⟨secondWritten, other, otherRecord, otherFound, otherDecodes⟩ :=
          row_of_wants holds results alsoWants
        exact ⟨_, (Graph.mem_allNodes reads).mpr ⟨found, decodes⟩,
          _, (Graph.mem_allNodes reads).mpr ⟨otherFound, otherDecodes⟩, firstWritten, apart,
          (label, property, stored),
          (claims_of_written holds results firstWritten found decodes).mpr ⟨value, wants, stores⟩,
          (claims_of_written holds results secondWritten otherFound otherDecodes).mpr
            ⟨rival, alsoWants, alsoStores⟩⟩
    | @stored own holder label property value wants unwritten undeleted seen =>
        obtain ⟨stored, ⟨other, otherRecord, otherFound, otherDecodes, isLabel, holdsValue⟩,
          stores⟩ := seen
        obtain ⟨isWritten, node, record, found, decodes⟩ := row_of_wants holds results wants
        have kept : after.get holder = some otherRecord := by
          rw [untouched holder unwritten, if_neg undeleted, otherFound]
        have isClaim : (label, property, stored) ∈
            Graph.claimsOf catalogue.labels node record :=
          (claims_of_written holds results isWritten found decodes).mpr ⟨value, wants, stores⟩
        obtain ⟨-, -, -, ⟨decl, declared, isUnique⟩, -⟩ := wants
        exact ⟨_, (Graph.mem_allNodes reads).mpr ⟨found, decodes⟩,
          _, (Graph.mem_allNodes reads).mpr ⟨kept, otherDecodes⟩, isWritten,
          fun same : own = holder => unwritten (same ▸ isWritten), (label, property, stored), isClaim,
          Graph.mem_claimsOf.mpr ⟨decl, isLabel.symm ▸ declared, isLabel.symm, isUnique,
            holdsValue⟩⟩

/-- The check of the resulting nodes reports a flaw, or a clash by the values
as they are stored. -/
theorem reports_iff (holds : DerivedFor catalogue derived)
    (named : ∀ label decl, catalogue.label label = some decl → decl.unique.Nodup)
    (results : resultingNodes base deleted (derived.drafts.map Prod.snd) = .ok after)
    (reads : Graph.allNodes after = .ok nodes) :
    Graph.checkNodes catalogue.labels nodes (some derived.written) ≠ [] ↔
      Flawed catalogue derived ∨
        Clash catalogue derived deleted SameStored (Holds base) := by
  have keysDistinct : (nodes.map Prod.fst).Nodup := by
    rw [Graph.allNodes_keys reads]
    exact List.pairwise_map.mpr (after.ascending.imp ne_of_lt)
  rw [Graph.checkNodes_ne_nil keysDistinct named, breach_iff holds results reads,
    shares_iff holds results reads]

/-- A node is flawed, both verdicts see some clash, or clashes that only the
checker sees come with clashes that only the check of the nodes sees.

Only the checker sees values that differ in the sign of a zero, and the nodes
that an index lists for a secondary label.  Only the check of the nodes sees
values with a NaN, which equal nothing as keys, and holders an index does not
list, such as those of null. -/
def Agreeing (catalogue : Catalogue) (base : Manifest) (derived : Derived)
    (deleted : List EntityId) : Prop :=
  Flawed catalogue derived ∨
  Clash catalogue derived deleted
    (fun left right => SameClaim left right ∧ SameStored left right)
    (fun label property value holder => SeenHolding catalogue base label property value holder ∧
      Holds base label property value holder) ∨
  (Clash catalogue derived deleted
    (fun left right => SameClaim left right ∧ ¬ SameStored left right)
    (fun label property value holder => SeenHolding catalogue base label property value holder ∧
      ¬ Holds base label property value holder) ↔
    Clash catalogue derived deleted
      (fun left right => SameStored left right ∧ ¬ SameClaim left right)
      (fun label property value holder => Holds base label property value holder ∧
        ¬ SeenHolding catalogue base label property value holder))

/-- Where the identities of a statement are derived and its records encode, the
checker refuses it exactly when the check of the resulting nodes reports one of
its nodes, if and only if the two are agreeing. -/
theorem verdicts_agree_iff (catalogue : Catalogue) (base : Manifest) (upserts : List NodeValue)
    (deleted : List EntityId) (derived : Derived) (after : NodeMap)
    (nodes : List (Bytes × NodeKey × NodeRecord)) (readable : Readable base)
    (named : ∀ label decl, catalogue.label label = some decl → decl.unique.Nodup)
    (derives : upserts.foldlM (deriveNode catalogue base deleted) ⟨[], [], []⟩ = .ok derived)
    (results : resultingNodes base deleted (derived.drafts.map Prod.snd) = .ok after)
    (reads : Graph.allNodes after = .ok nodes) :
    ((∀ claims, UniqueChecker.checkAll ⟨catalogue, base, derived.written, deleted⟩ []
      derived.drafts ≠ .ok claims) ↔
      Graph.checkNodes catalogue.labels nodes (some derived.written) ≠ []) ↔
    Agreeing catalogue base derived deleted := by
  have holds := derivedFor_of_derives derives
  rw [refuses_iff readable holds named, reports_iff holds named results reads,
    @Clash.split _ _ _ SameClaim SameStored (SeenHolding catalogue base) (Holds base),
    @Clash.split _ _ _ SameStored SameClaim (Holds base) (SeenHolding catalogue base)]
  have commuted : Clash catalogue derived deleted
      (fun left right => SameStored left right ∧ SameClaim left right)
      (fun label property value holder => Holds base label property value holder ∧
        SeenHolding catalogue base label property value holder) ↔
      Clash catalogue derived deleted
      (fun left right => SameClaim left right ∧ SameStored left right)
      (fun label property value holder => SeenHolding catalogue base label property value holder ∧
        Holds base label property value holder) := by
    simp only [and_comm]
  rw [commuted, Agreeing]
  tauto

end

/-- Whether the checker refuses a statement, and whether the check of the
resulting nodes reports it. -/
def verdicts (catalogue : Catalogue) (base : Manifest) (upserts : List NodeValue)
    (deleted : List EntityId) : Option (Bool × Bool) := do
  let derived ← (upserts.foldlM (deriveNode catalogue base deleted) ⟨[], [], []⟩).toOption
  let after ← (resultingNodes base deleted (derived.drafts.map Prod.snd)).toOption
  let nodes ← (Graph.allNodes after).toOption
  some ((UniqueChecker.checkAll ⟨catalogue, base, derived.written, deleted⟩ []
    derived.drafts).toOption.isNone,
    Graph.checkNodes catalogue.labels nodes (some derived.written) ≠ [])

private theorem verdicts_eq_some {catalogue : Catalogue} {base : Manifest}
    {upserts : List NodeValue} {deleted : List EntityId} {refused reported : Bool}
    (given : verdicts catalogue base upserts deleted = some (refused, reported)) :
    ∃ derived after nodes,
      upserts.foldlM (deriveNode catalogue base deleted) ⟨[], [], []⟩ = .ok derived ∧
      resultingNodes base deleted (derived.drafts.map Prod.snd) = .ok after ∧
      Graph.allNodes after = .ok nodes ∧
      ((∀ claims, UniqueChecker.checkAll ⟨catalogue, base, derived.written, deleted⟩ []
        derived.drafts ≠ .ok claims) ↔ refused) ∧
      (Graph.checkNodes catalogue.labels nodes (some derived.written) ≠ [] ↔ reported) := by
  simp only [verdicts, Option.bind_eq_bind, Option.bind_eq_some_iff, Option.some.injEq,
    Prod.mk.injEq] at given
  obtain ⟨derived, derives, after, results, nodes, reads, isRefused, isReported⟩ := given
  refine ⟨derived, after, nodes, mem_toOption.mp derives, mem_toOption.mp results,
    mem_toOption.mp reads, ?_, ?_⟩
  · rw [← isRefused]
    cases UniqueChecker.checkAll ⟨catalogue, base, derived.written, deleted⟩ []
      derived.drafts <;> simp [Except.toOption]
  · rw [← isReported, decide_eq_true_iff]

/-- Sensors by `id`, no two with the same reading. -/
private theorem sensorKey_ne_nil : ["id"] ≠ [] := by decide

private theorem sensorKey_nodup : ["id"].Nodup := by decide

def sensorLabel : LabelDef :=
  ⟨["id"], false, .empty, [], ["reading"], sensorKey_ne_nil, sensorKey_nodup, by decide⟩

def sensorCatalogue : Catalogue := .fromEntries [.label "Sensor" sensorLabel]

def zero : UInt64 := 0

def negativeZero : UInt64 := 0x8000000000000000

def sensorBase : Manifest :=
  Graph.sampleVersion [.label "Sensor" sensorLabel]
    [(⟨"Sensor", [.int 1], rfl⟩, ⟨∅, .ofList [("reading", ⟨.float zero, rfl⟩)]⟩)] []

def createdSensor (reading : Value) : NodeValue :=
  ⟨[overlayIdTag, 0], ["Sensor"], .ofList [("id", .int 2), ("reading", reading)]⟩

/-- A second sensor with the reading minus zero is refused, although the
resulting nodes are in order. -/
theorem negativeZero_refused :
    Graph.checkNodes sensorCatalogue.labels
      ((Graph.allNodes sensorBase.nodes).toOption.getD []) none = [] ∧
    ∃ derived after nodes,
      [createdSensor (.float negativeZero)].foldlM (deriveNode sensorCatalogue sensorBase [])
        ⟨[], [], []⟩ = .ok derived ∧
      resultingNodes sensorBase [] (derived.drafts.map Prod.snd) = .ok after ∧
      Graph.allNodes after = .ok nodes ∧
      ¬ ((∀ claims, UniqueChecker.checkAll ⟨sensorCatalogue, sensorBase, derived.written, []⟩ []
        derived.drafts ≠ .ok claims) ↔
        Graph.checkNodes sensorCatalogue.labels nodes (some derived.written) ≠ []) := by
  refine ⟨by decide +kernel, ?_⟩
  have given : verdicts sensorCatalogue sensorBase [createdSensor (.float negativeZero)] [] =
      some (true, false) := by decide +kernel
  obtain ⟨derived, after, nodes, derives, results, reads, refused, reported⟩ :=
    verdicts_eq_some given
  refine ⟨derived, after, nodes, derives, results, reads, ?_⟩
  rw [refused, reported]
  decide

private theorem sensorBase_readable : Readable sensorBase := by
  have nodes : ∀ key ∈ sensorBase.nodes.keys, (NodeKey.decode key).toOption.isSome := by
    decide +kernel
  constructor
  · intro key member
    obtain ⟨node, decodes⟩ := Option.isSome_iff_exists.mp (nodes key member)
    exact ⟨node, mem_toOption.mp decodes⟩
  · intro name index found
    have none : sensorBase.indexes.get name = none := by
      have empty : sensorBase.indexes = .empty := by decide +kernel
      rw [empty]
      rfl
    rw [none] at found
    cases found

/-- A second sensor with the same reading clashes for both. -/
theorem verdicts_agree_iff_sensor : ∃ derived,
    [createdSensor (.float zero)].foldlM (deriveNode sensorCatalogue sensorBase [])
      ⟨[], [], []⟩ = .ok derived ∧ Agreeing sensorCatalogue sensorBase derived [] := by
  have given : verdicts sensorCatalogue sensorBase [createdSensor (.float zero)] [] =
      some (true, true) := by decide +kernel
  obtain ⟨derived, after, nodes, derives, results, reads, refused, reported⟩ :=
    verdicts_eq_some given
  have named : ∀ label decl, sensorCatalogue.label label = some decl → decl.unique.Nodup := by
    intro label decl declared
    have each : ∀ entry ∈ sensorCatalogue.labels.entries, entry.2.unique.Nodup := by
      decide +kernel
    exact each _ (SortedMap.get_eq_some_iff.mp declared)
  refine ⟨derived, derives, (verdicts_agree_iff sensorCatalogue sensorBase _ _ derived after nodes
    sensorBase_readable named derives results reads).mp ?_⟩
  rw [refused, reported]

end Persist

end Acetone.Cypher

import Acetone.Graph.Manifest

/-!
# Declared constraints

Existence, declared types and uniqueness, as the bulk enforcement points check
them.  `checkNodes` finds nothing exactly when the constraints hold of every
node.
-/

namespace Acetone.Graph

open Acetone.Lib Acetone.Model

abbrev TypeViolation := String × PropertyType × PropertyType

/-- The breach of a declared type by a value; null conforms. -/
def mistyped (property : String) (declared : PropertyType) (value : Value) :
    Option TypeViolation :=
  if declared.admits value then none
  else (PropertyType.ofValue value).map fun actual => (property, declared, actual)

theorem mistyped_congr {property : String} {declared : PropertyType} {left right : Value}
    (same : PropertyType.ofValue left = PropertyType.ofValue right) :
    mistyped property declared left = mistyped property declared right := by
  have admitted : declared.admits left = declared.admits right := by
    cases left <;> cases right <;> cases same <;> cases declared <;> rfl
  rw [mistyped, mistyped, admitted, same]

theorem ofValue_encodeValue {value : Value} {stored : StoredValue}
    (encodes : encodeValue value = .ok stored) :
    PropertyType.ofValue stored.val = PropertyType.ofValue value := by
  have stores := encodeValue_eq_ok.mp encodes
  generalize stored.val = written at stores ⊢
  rw [storeValue.eq_def, if_neg (by decide)] at stores
  cases value with
  | list items =>
      obtain ⟨kept, -, ⟨⟩⟩ := bind_eq_ok.mp stores
      rfl
  | time time =>
      obtain ⟨-, ⟨⟩⟩ := guard_eq_ok.mp stores
      rfl
  | dateTime stamp =>
      obtain ⟨-, ⟨⟩⟩ := guard_eq_ok.mp stores
      rfl
  | _ =>
      cases stores
      rfl

/-- Every declared-type breach of a node.  A key property's value comes from
the key tuple by position, anything else from the record. -/
def typeViolations (node : NodeKey) (record : NodeRecord) (decl : LabelDef) :
    List TypeViolation :=
  decl.types.entries.filterMap fun (property, declared) =>
    let value := match decl.key.findIdx? (· = property) with
      | some position => node.key[position]?
      | none => (record.properties.get property).map Subtype.val
    value.bind (mistyped property declared)

/-- Every declared-type breach of an edge.  The discriminator is judged in the
record and in the key; the first breach counts. -/
def relTypeViolations (edge : EdgeKey) (record : EdgeRecord) (decl : RelTypeDef) :
    List TypeViolation :=
  decl.types.entries.filterMap fun (property, declared) =>
    let inRecord := (record.properties.get property).map Subtype.val
    let inKey := if decl.discriminator = some property then some edge.disc else none
    (inRecord.toList ++ inKey.toList).findSome? (mistyped property declared)

/-- Whether a required property is present: by identity, or in the record. -/
def present (decl : LabelDef) (record : NodeRecord) (property : String) : Bool :=
  property ∈ decl.key ∨ (record.properties.get property).isSome

def missingRequired (decl : LabelDef) (record : NodeRecord) : List String :=
  decl.existence.filter fun property => ¬ present decl record property

abbrev UniqueClaim := String × String × StoredValue

def uniqueClaims (decl : LabelDef) (label : String) (record : NodeRecord) :
    List UniqueClaim :=
  decl.unique.filterMap fun property =>
    (record.properties.get property).map fun value => (label, property, value)

/-- The members of each claim made by two nodes or more. -/
def collisions (claims : List (UniqueClaim × Bytes)) :
    List (UniqueClaim × List Bytes) :=
  ((claims.map Prod.fst).dedup.map fun claim =>
    (claim, (claims.filter (·.1 = claim)).map Prod.snd)).filter
      fun group => 2 ≤ group.2.length

def allClaims (labels : SortedMap String LabelDef)
    (nodes : List (Bytes × NodeKey × NodeRecord)) : List (UniqueClaim × Bytes) :=
  nodes.flatMap fun (key, node, record) =>
    match labels.get node.label with
    | none => []
    | some decl =>
        (uniqueClaims decl node.label record).map fun claim => (claim, key)

inductive ConstraintViolation where
  | missingRequired (node : NodeKey) (property : String)
  | wrongType (node : NodeKey) (property : String)
      (declared actual : PropertyType)
  | unique (label property : String) (value : StoredValue) (nodes : List Bytes)
deriving DecidableEq

/-- The breach of a declared type, as opposed to existence and UNIQUE. -/
def ConstraintViolation.isTypeBreach : ConstraintViolation → Bool
  | .wrongType .. => true
  | _ => false

def nodeViolations (node : NodeKey) (record : NodeRecord) (decl : LabelDef) :
    List ConstraintViolation :=
  (missingRequired decl record).map (.missingRequired node) ++
    (typeViolations node record decl).map fun (property, declared, actual) =>
      .wrongType node property declared actual

/-- Check a final node state; with a focus, only what involves a focus key. -/
def checkNodes (labels : SortedMap String LabelDef)
    (nodes : List (Bytes × NodeKey × NodeRecord)) (focus : Option (List Bytes)) :
    List ConstraintViolation :=
  let inFocus := fun key => focus.all fun keys => decide (key ∈ keys)
  (nodes.flatMap fun (key, node, record) =>
    if ¬ inFocus key then []
    else match labels.get node.label with
      | none => []
      | some decl => nodeViolations node record decl) ++
  (collisions (allClaims labels nodes)).filterMap fun (claim, members) =>
    if members.any inFocus then
      some (.unique claim.1 claim.2.1 claim.2.2 members)
    else none

section

variable {labels : SortedMap String LabelDef} {nodes : List (Bytes × NodeKey × NodeRecord)}

/-- The claims of one node. -/
def claimsOf (labels : SortedMap String LabelDef) (node : NodeKey) (record : NodeRecord) :
    List UniqueClaim :=
  match labels.get node.label with
  | none => []
  | some decl => uniqueClaims decl node.label record

theorem mem_claimsOf {node : NodeKey} {record : NodeRecord} {claim : UniqueClaim} :
    claim ∈ claimsOf labels node record ↔ ∃ decl, labels.get node.label = some decl ∧
      claim.1 = node.label ∧ claim.2.1 ∈ decl.unique ∧
        record.properties.get claim.2.1 = some claim.2.2 := by
  obtain ⟨label, property, value⟩ := claim
  cases declared : labels.get node.label with
  | none => simp [claimsOf, declared]
  | some decl =>
      simp only [claimsOf, declared, uniqueClaims, List.mem_filterMap, Option.map_eq_some_iff,
        Prod.mk.injEq, Option.some.injEq, exists_eq_left']
      constructor
      · rintro ⟨_, isUnique, _, holds, rfl, rfl, rfl⟩
        exact ⟨rfl, isUnique, holds⟩
      · rintro ⟨rfl, isUnique, holds⟩
        exact ⟨property, isUnique, value, holds, rfl, rfl, rfl⟩

theorem allClaims_eq : allClaims labels nodes =
    nodes.flatMap fun row => (claimsOf labels row.2.1 row.2.2).map fun claim => (claim, row.1) := by
  apply List.flatMap_congr
  rintro ⟨key, node, record⟩ -
  cases declared : labels.get node.label with
  | none => simp [claimsOf, declared]
  | some decl => simp [claimsOf, declared]

theorem mem_allClaims {claim : UniqueClaim} {key : Bytes} :
    (claim, key) ∈ allClaims labels nodes ↔
      ∃ node record, (key, node, record) ∈ nodes ∧ claim ∈ claimsOf labels node record := by
  rw [allClaims_eq, List.mem_flatMap]
  constructor
  · rintro ⟨⟨_, node, record⟩, member, listed⟩
    obtain ⟨_, isClaim, same⟩ := List.mem_map.mp listed
    cases same
    exact ⟨node, record, member, isClaim⟩
  · rintro ⟨node, record, member, isClaim⟩
    exact ⟨_, member, List.mem_map.mpr ⟨claim, isClaim, rfl⟩⟩

private theorem two_le_length {α : Type} {items : List α} {first second : α}
    (isFirst : first ∈ items) (isSecond : second ∈ items) (apart : first ≠ second) :
    2 ≤ items.length := by
  match items, isFirst, isSecond with
  | [only], isFirst, isSecond =>
      rw [List.mem_singleton] at isFirst isSecond
      exact absurd (isFirst.trans isSecond.symm) apart
  | _ :: _ :: _, _, _ => exact Nat.le_add_left 2 _

theorem mem_collisions {claims : List (UniqueClaim × Bytes)}
    {claim : UniqueClaim} {first second : Bytes} (isFirst : (claim, first) ∈ claims)
    (isSecond : (claim, second) ∈ claims) (apart : first ≠ second) :
    ∃ members, (claim, members) ∈ collisions claims ∧ first ∈ members ∧
      second ∈ members := by
  have member : ∀ {key : Bytes}, (claim, key) ∈ claims →
      key ∈ (claims.filter (·.1 = claim)).map Prod.snd := by
    intro key inside
    exact List.mem_map.mpr ⟨_, List.mem_filter.mpr ⟨inside, by simp⟩, rfl⟩
  refine ⟨_, List.mem_filter.mpr ⟨List.mem_map.mpr ⟨claim, ?_, rfl⟩, ?_⟩,
    member isFirst, member isSecond⟩
  · exact List.mem_dedup.mpr (List.mem_map.mpr ⟨_, isFirst, rfl⟩)
  · exact decide_eq_true (two_le_length (member isFirst) (member isSecond) apart)

/-- A member of a collision has a rival, if no claim is made twice. -/
theorem exists_rival {claims : List (UniqueClaim × Bytes)} (distinct : claims.Nodup)
    {claim : UniqueClaim} {members : List Bytes} (collide : (claim, members) ∈ collisions claims)
    {first : Bytes} (isFirst : first ∈ members) :
    (claim, first) ∈ claims ∧ ∃ second, (claim, second) ∈ claims ∧ first ≠ second := by
  obtain ⟨grouped, large⟩ := List.mem_filter.mp collide
  obtain ⟨_, -, same⟩ := List.mem_map.mp grouped
  cases same
  have listed : ∀ {key : Bytes}, key ∈ (claims.filter (·.1 = claim)).map Prod.snd →
      (claim, key) ∈ claims := by
    intro key inside
    obtain ⟨⟨_, _⟩, found, rfl⟩ := List.mem_map.mp inside
    obtain ⟨member, isClaim⟩ := List.mem_filter.mp found
    rw [decide_eq_true_iff] at isClaim
    exact isClaim ▸ member
  have nodup : ((claims.filter (·.1 = claim)).map Prod.snd).Nodup := by
    apply (distinct.filter _).map_on
    rintro ⟨_, _⟩ isLeft ⟨_, _⟩ isRight rfl
    have left := of_decide_eq_true (List.mem_filter.mp isLeft).2
    have right := of_decide_eq_true (List.mem_filter.mp isRight).2
    exact Prod.ext (left.trans right.symm) rfl
  obtain ⟨second, isSecond, apart⟩ : ∃ second ∈ (claims.filter (·.1 = claim)).map Prod.snd,
      first ≠ second := by
    by_contra alone
    have only : (claims.filter (·.1 = claim)).map Prod.snd ⊆ [first] := by
      intro key inside
      rw [List.mem_singleton]
      by_contra other
      exact alone ⟨key, inside, Ne.symm other⟩
    have short := (nodup.subperm only).length_le
    have long : 2 ≤ ((claims.filter (·.1 = claim)).map Prod.snd).length :=
      of_decide_eq_true large
    rw [List.length_singleton] at short
    omega
  exact ⟨listed isFirst, second, listed isSecond, apart⟩

private theorem allClaims_nodup (distinct : (nodes.map Prod.fst).Nodup)
    (named : ∀ label decl, labels.get label = some decl → decl.unique.Nodup) :
    (allClaims labels nodes).Nodup := by
  rw [allClaims_eq, List.nodup_flatMap]
  constructor
  · rintro ⟨key, node, record⟩ -
    apply List.Nodup.map fun _ _ same => (Prod.mk.inj same).1
    simp only [claimsOf]
    cases declared : labels.get node.label with
    | none => exact List.nodup_nil
    | some decl =>
        refine (named _ _ declared).filterMap ?_
        simp only [Option.mem_def, Option.map_eq_some_iff]
        rintro left right claim ⟨_, -, rfl⟩ ⟨_, -, same⟩
        exact (congrArg (·.2.1) same).symm
  · refine (List.pairwise_map.mp distinct).imp ?_
    intro left right apart
    simp only [Function.onFun, List.disjoint_left, List.mem_map]
    rintro _ ⟨_, -, rfl⟩ ⟨_, -, same⟩
    exact apart (congrArg Prod.snd same).symm

private theorem collisions_reported {focus : List Bytes} (distinct : (nodes.map Prod.fst).Nodup)
    (named : ∀ label decl, labels.get label = some decl → decl.unique.Nodup) :
    ((collisions (allClaims labels nodes)).filterMap fun (claim, members) =>
      if members.any fun key => (some focus).all fun keys => decide (key ∈ keys) then
        some (ConstraintViolation.unique claim.1 claim.2.1 claim.2.2 members)
      else none) ≠ [] ↔
      ∃ first ∈ nodes, ∃ second ∈ nodes, first.1 ∈ focus ∧ first.1 ≠ second.1 ∧
        ∃ claim ∈ claimsOf labels first.2.1 first.2.2,
          claim ∈ claimsOf labels second.2.1 second.2.2 := by
  rw [Ne, List.filterMap_eq_nil_iff]
  push Not
  constructor
  · rintro ⟨⟨claim, members⟩, collide, reported⟩
    have focused : members.any fun key => decide (key ∈ focus) := by
      by_contra none
      exact reported (if_neg none)
    obtain ⟨first, isFirst, inFocus⟩ := List.any_eq_true.mp focused
    obtain ⟨claims, second, alsoClaims, apart⟩ :=
      exists_rival (allClaims_nodup distinct named) collide isFirst
    obtain ⟨node, record, isRow, isClaim⟩ := mem_allClaims.mp claims
    obtain ⟨other, otherRecord, isOther, alsoClaim⟩ := mem_allClaims.mp alsoClaims
    exact ⟨_, isRow, _, isOther, of_decide_eq_true inFocus, apart, claim, isClaim, alsoClaim⟩
  · rintro ⟨⟨first, node, record⟩, isRow, ⟨second, other, otherRecord⟩, isOther, inFocus, apart,
      claim, isClaim, alsoClaim⟩
    obtain ⟨members, collide, isFirst, -⟩ := mem_collisions
      (mem_allClaims.mpr ⟨node, record, isRow, isClaim⟩)
      (mem_allClaims.mpr ⟨other, otherRecord, isOther, alsoClaim⟩) apart
    refine ⟨_, collide, ?_⟩
    have focused : members.any fun key => decide (key ∈ focus) :=
      List.any_eq_true.mpr ⟨first, isFirst, decide_eq_true inFocus⟩
    simp [focused]

/-- The check of some nodes in focus reports a breach of one of them, or a
claim that one of them shares with another node. -/
theorem checkNodes_ne_nil {focus : List Bytes} (distinct : (nodes.map Prod.fst).Nodup)
    (named : ∀ label decl, labels.get label = some decl → decl.unique.Nodup) :
    checkNodes labels nodes (some focus) ≠ [] ↔
      (∃ row ∈ nodes, row.1 ∈ focus ∧ ∃ decl, labels.get row.2.1.label = some decl ∧
        nodeViolations row.2.1 row.2.2 decl ≠ []) ∨
      (∃ first ∈ nodes, ∃ second ∈ nodes, first.1 ∈ focus ∧ first.1 ≠ second.1 ∧
        ∃ claim ∈ claimsOf labels first.2.1 first.2.2,
          claim ∈ claimsOf labels second.2.1 second.2.2) := by
  rw [checkNodes, Ne, List.append_eq_nil_iff, not_and_or, ← Ne, ← Ne]
  apply or_congr
  · rw [Ne, List.flatMap_eq_nil_iff]
    push Not
    apply exists_congr
    rintro ⟨key, node, record⟩
    apply and_congr_right
    rintro -
    by_cases focused : key ∈ focus
    · cases declared : labels.get node.label <;> simp [focused]
    · simp [focused]
  · exact collisions_reported distinct named

/-- Leaving declared types aside, the check reports what a node in focus lacks or a claim that it
shares. -/
theorem checkNodes_constraints {focus : List Bytes} (distinct : (nodes.map Prod.fst).Nodup)
    (named : ∀ label decl, labels.get label = some decl → decl.unique.Nodup) :
    (∃ violation ∈ checkNodes labels nodes (some focus), ¬ violation.isTypeBreach) ↔
      (∃ row ∈ nodes, row.1 ∈ focus ∧ ∃ decl, labels.get row.2.1.label = some decl ∧
        missingRequired decl row.2.2 ≠ []) ∨
      (∃ first ∈ nodes, ∃ second ∈ nodes, first.1 ∈ focus ∧ first.1 ≠ second.1 ∧
        ∃ claim ∈ claimsOf labels first.2.1 first.2.2,
          claim ∈ claimsOf labels second.2.1 second.2.2) := by
  rw [checkNodes, ← collisions_reported distinct named]
  constructor
  · rintro ⟨violation, member, isConstraint⟩
    rcases List.mem_append.mp member with ofNode | collides
    · obtain ⟨⟨key, node, record⟩, isRow, reported⟩ := List.mem_flatMap.mp ofNode
      by_cases focused : key ∈ focus
      · cases declared : labels.get node.label with
        | none => simp [focused, declared] at reported
        | some decl =>
            simp only [focused, declared, Option.all_some, decide_true, not_true_eq_false,
              if_false] at reported
            rcases List.mem_append.mp reported with lacks | mistyped
            · obtain ⟨property, isMissing, -⟩ := List.mem_map.mp lacks
              exact .inl ⟨_, isRow, focused, decl, declared, List.ne_nil_of_mem isMissing⟩
            · obtain ⟨_, -, rfl⟩ := List.mem_map.mp mistyped
              exact absurd rfl isConstraint
      · simp [focused] at reported
    · exact .inr (List.ne_nil_of_mem collides)
  · rintro (⟨⟨key, node, record⟩, isRow, focused, decl, declared, lacks⟩ | collides)
    · obtain ⟨property, isMissing⟩ := List.exists_mem_of_ne_nil _ lacks
      refine ⟨.missingRequired node property, List.mem_append_left _
        (List.mem_flatMap.mpr ⟨_, isRow, ?_⟩), Bool.false_ne_true⟩
      simp only [focused, declared, Option.all_some, decide_true, not_true_eq_false, if_false]
      exact List.mem_append_left _ (List.mem_map.mpr ⟨property, isMissing, rfl⟩)
    · obtain ⟨violation, member⟩ := List.exists_mem_of_ne_nil _ collides
      refine ⟨violation, List.mem_append_right _ member, ?_⟩
      obtain ⟨⟨claim, members⟩, -, isViolation⟩ := List.mem_filterMap.mp member
      rw [Option.ite_none_right_eq_some, Option.some.injEq] at isViolation
      rw [← isViolation.2]
      exact Bool.false_ne_true

end

end Acetone.Graph

import Acetone.Cypher.Checker
import Acetone.Graph.Surfaces

/-!
# Required properties

A required property is meant to have a value that is not null.  Five surfaces
judge it: queries, imports, single writes, declarations and merges.  All of them
look only at whether the property is there, so a stored null passes them all.
-/

namespace Acetone.Cypher

open Acetone.Lib Acetone.Model Persist
open Acetone.Graph (Transaction Manifest ConstraintViolation missingRequired present)

/-- A node stands under a definition that requires a property. -/
structure Demand where
  node : NodeKey
  record : NodeRecord
  decl : LabelDef
  property : String

namespace Demand

variable (demand : Demand)

def InRecord : Prop :=
  ∃ value, demand.record.properties.get demand.property = some value ∧ value.val ≠ .null

def NonNull : Prop :=
  (∃ position value, demand.decl.key.findIdx? (· = demand.property) = some position ∧
    demand.node.key[position]? = some value ∧ value ≠ .null) ∨ demand.InRecord

/-- The record does not hold the property as null; where the property is one of
the declared key, the key tuple is long enough to hold it. -/
def Fits : Prop :=
  (∀ position, demand.decl.key.findIdx? (· = demand.property) = some position →
    position < demand.node.key.length ∨ demand.InRecord) ∧
  (demand.property ∉ demand.decl.key → ∀ value,
    demand.record.properties.get demand.property = some value → value.val ≠ .null)

end Demand

private theorem key_ne_null {values : List Model.Value} (checked : checkKeyTuple values = .ok ())
    {value : Model.Value} (member : value ∈ values) : value ≠ .null := by
  induction values with
  | nil => cases member
  | cons first values ih =>
      rw [checkKeyTuple] at checked
      obtain ⟨notNull, checked⟩ := guard_eq_ok.mp checked
      obtain ⟨⟨⟩, -, others⟩ := bind_eq_ok.mp checked
      rcases List.mem_cons.mp member with rfl | later
      · exact notNull
      · exact ih others later

private theorem nodeKey_ne_null (node : NodeKey) {value : Model.Value}
    (member : value ∈ node.key) : value ≠ .null := by
  have checked := node.checked
  rw [checkNodeKey] at checked
  obtain ⟨-, checked⟩ := guard_eq_ok.mp checked
  obtain ⟨-, checked⟩ := guard_eq_ok.mp checked
  exact key_ne_null checked member

/-- Where the property is there, only a stored null or a short key is in the
way. -/
theorem Demand.nonNull_iff (demand : Demand)
    (isPresent : present demand.decl demand.record demand.property) :
    demand.NonNull ↔ demand.Fits := by
  have inKey : ∀ {position : Nat} {value : Model.Value},
      demand.node.key[position]? = some value → value ≠ .null := fun found =>
    nodeKey_ne_null demand.node (List.mem_of_getElem? found)
  by_cases isKey : demand.property ∈ demand.decl.key
  · obtain ⟨position, isIndex⟩ : ∃ position,
        demand.decl.key.findIdx? (· = demand.property) = some position := by
      rw [← Option.isSome_iff_exists, List.findIdx?_isSome, List.any_eq_true]
      exact ⟨_, isKey, decide_eq_true rfl⟩
    constructor
    · intro nonNull
      refine ⟨?_, fun notKey => absurd isKey notKey⟩
      intro other isOther
      rcases nonNull with ⟨_, value, again, found, -⟩ | inRecord
      · rw [isOther, Option.some.injEq] at again
        exact .inl (again ▸ (List.getElem?_eq_some_iff.mp found).1)
      · exact .inr inRecord
    · rintro ⟨reaches, -⟩
      rcases reaches position isIndex with long | inRecord
      · have found := List.getElem?_eq_getElem long
        exact .inl ⟨position, _, isIndex, found, inKey found⟩
      · exact .inr inRecord
  · have noIndex : demand.decl.key.findIdx? (· = demand.property) = none := by
      rw [List.findIdx?_eq_none_iff]
      intro name member
      exact decide_eq_false fun same => isKey (same ▸ member)
    have inRecord : (demand.record.properties.get demand.property).isSome := by
      rcases of_decide_eq_true isPresent with inKey | inRecord
      · exact absurd inKey isKey
      · exact inRecord
    obtain ⟨value, found⟩ := Option.isSome_iff_exists.mp inRecord
    constructor
    · rintro (⟨position, _, isIndex, -⟩ | ⟨other, isOther, notNull⟩)
      · rw [noIndex] at isIndex
        cases isIndex
      · refine ⟨fun position isIndex => ?_, fun _ kept isKept => ?_⟩
        · rw [noIndex] at isIndex
          cases isIndex
        · rw [isOther, Option.some.injEq] at isKept
          exact isKept ▸ notNull
    · rintro ⟨-, notNull⟩
      exact .inr ⟨value, found, notNull isKey value found⟩

/-- One use of a surface that writes nodes or validates them again. -/
inductive Event where
  | query (changes : WriteChanges) (txn : Transaction) (catalogue : Catalogue) (base : Manifest)
  | importBatch (tracker : Graph.UniqueTracker) (labels : SortedMap String LabelDef)
      (puts : List (NodeKey × NodeRecord))
  | upsert (snapshot : Manifest) (key : NodeKey) (record : NodeRecord)
  | declare (snapshot : Manifest) (label : String) (decl : LabelDef)
  | merge (base ours theirs merged : Manifest)

def Event.Accepted : Event → Prop
  | .query changes txn catalogue base =>
      ∃ after, persistChanges changes txn catalogue base = .ok after
  | .importBatch tracker labels puts => ∃ after, tracker.applyBatch labels puts = .ok ([], after)
  | .upsert snapshot key record => Graph.checkUpsert snapshot key record = .ok []
  | .declare snapshot label decl => Graph.checkLabel snapshot label decl = .ok []
  | .merge base ours theirs merged => Graph.validateMerged base ours theirs merged = .ok []

/-- The nodes that a surface writes or validates again, under the definition of
their label. -/
inductive Event.Demands : Event → Demand → Prop
  | query {changes : WriteChanges} {txn : Transaction} {catalogue : Catalogue} {base : Manifest}
      {derived : Derived} {pair : NodeValue × NodeDraft} {own : Bytes} {node : NodeKey}
      {properties : Properties} {decl : LabelDef} {property : String} :
      changes.upsertedNodes.foldlM (deriveNode catalogue base changes.deletedNodes)
        ⟨[], [], []⟩ = .ok derived →
      (pair, own) ∈ derived.drafts.zip derived.written → NodeKey.decode own = .ok node →
      encodeProperties pair.2.properties = .ok properties →
      catalogue.label node.label = some decl → property ∈ decl.existence →
      Demands (.query changes txn catalogue base)
        ⟨node, ⟨pair.2.secondaryLabels.toFinset, properties⟩, decl, property⟩
  | importBatch {tracker : Graph.UniqueTracker} {labels : SortedMap String LabelDef}
      {puts : List (NodeKey × NodeRecord)} {surviving : SortedMap Bytes (NodeKey × NodeRecord)}
      {bytes : Bytes} {node : NodeKey} {record : NodeRecord} {decl : LabelDef}
      {property : String} :
      Graph.UniqueTracker.survivors puts = .ok surviving →
      surviving.get bytes = some (node, record) → labels.get node.label = some decl →
      property ∈ decl.existence →
      Demands (.importBatch tracker labels puts) ⟨node, record, decl, property⟩
  | upsert {snapshot : Manifest} {node : NodeKey} {record : NodeRecord} {decl : LabelDef}
      {property : String} :
      Graph.declaredFor snapshot node.label = some decl → property ∈ decl.existence →
      Demands (.upsert snapshot node record) ⟨node, record, decl, property⟩
  | declare {snapshot : Manifest} {label : String} {bytes : Bytes} {node : NodeKey}
      {record : NodeRecord} {decl : LabelDef} {property : String} :
      (bytes, record) ∈ Graph.labelRows snapshot.nodes label → NodeKey.decode bytes = .ok node →
      property ∈ decl.existence →
      Demands (.declare snapshot label decl) ⟨node, record, decl, property⟩
  | merge {base ours theirs merged : Manifest} {bytes : Bytes} {node : NodeKey}
      {record : NodeRecord} {decl : LabelDef} {property : String} :
      merged.nodes.get bytes = some record → NodeKey.decode bytes = .ok node →
      (Graph.labelDefs merged.schema).get node.label = some decl → property ∈ decl.existence →
      (bytes ∈ Graph.changedKeys base.nodes merged.nodes ∨
        ∀ before, (Graph.labelDefs base.schema).get node.label = some before →
          property ∉ before.existence) →
      Demands (.merge base ours theirs merged) ⟨node, record, decl, property⟩

private theorem passed_existence {changes : WriteChanges} {txn after : Transaction}
    {catalogue : Catalogue} {base : Manifest}
    (accepted : persistChanges changes txn catalogue base = .ok after) {derived : Derived}
    (derives : changes.upsertedNodes.foldlM (deriveNode catalogue base changes.deletedNodes)
      ⟨[], [], []⟩ = .ok derived) {pair : NodeValue × NodeDraft} {own : Bytes}
    (inside : (pair, own) ∈ derived.drafts.zip derived.written) :
    ∃ decl, DraftOf catalogue pair.1 pair.2 decl ∧
      UniqueChecker.checkExistence pair.1 pair.2.key decl = .ok () := by
  rw [persistChanges, derives, ok_bind] at accepted
  obtain ⟨claims, checks, -⟩ := bind_eq_ok.mp accepted
  have holds := derivedFor_of_derives derives
  obtain ⟨passes, -⟩ := (checkAll_eq_ok holds.each List.nodup_nil).mp checks
  obtain ⟨decl, drafted, passed⟩ := (List.forall₂_iff_zip.mp passes).2 inside
  exact ⟨decl, drafted, passed.existence⟩

private theorem label_of_draft {catalogue : Catalogue} {derived : Derived}
    (holds : DerivedFor catalogue derived) {pair : NodeValue × NodeDraft} {own : Bytes}
    (inside : (pair, own) ∈ derived.drafts.zip derived.written) {node : NodeKey}
    (decodes : NodeKey.decode own = .ok node) : node.label = pair.2.key.label := by
  obtain ⟨stored, isStored, sameLabel, -⟩ := NodeKey.decode_of_encode
    ((List.forall₂_iff_zip.mp holds.each).2 inside).encodes
  rw [decodes, Except.ok.injEq] at isStored
  rw [isStored, sameLabel]

/-- What is demanded of an accepted surface is there. -/
theorem Event.present_of_accepted {event : Event} {demand : Demand}
    (accepted : event.Accepted) (demands : event.Demands demand) :
    present demand.decl demand.record demand.property := by
  by_contra absent
  have isMissing : ∀ {decl : LabelDef} {record : NodeRecord} {property : String},
      property ∈ decl.existence → ¬ present decl record property →
        property ∈ missingRequired decl record := fun isRequired isAbsent =>
    Graph.mem_missingRequired.mpr ⟨isRequired, isAbsent⟩
  cases demands with
  | @query changes txn catalogue base derived pair own node properties decl property derives
      inside decodes encodes declared isRequired =>
      obtain ⟨after, persists⟩ := accepted
      obtain ⟨again, drafted, exist⟩ := passed_existence persists derives inside
      have sameLabel := label_of_draft (derivedFor_of_derives derives) inside decodes
      have sameDecl : again = decl := by
        rw [sameLabel, drafted.declared, Option.some.injEq] at declared
        exact declared
      subst sameDecl
      have none : missingRequired again ⟨pair.2.secondaryLabels.toFinset, properties⟩ = [] :=
        (checkExistence_iff drafted encodes).mp exist
      exact List.not_mem_nil (none ▸ isMissing isRequired absent)
  | importBatch made found declared isRequired =>
      obtain ⟨after, judges⟩ := accepted
      exact List.not_mem_nil ((Graph.UniqueTracker.applyBatch_missing judges made found
        declared).mpr (isMissing isRequired absent))
  | upsert declared isRequired =>
      exact List.not_mem_nil
        ((Graph.checkUpsert_missing declared accepted).mpr (isMissing isRequired absent))
  | declare isRow decodes isRequired =>
      exact List.not_mem_nil
        ((Graph.checkLabel_missing accepted isRow decodes).mpr (isMissing isRequired absent))
  | merge found decodes declared isRequired responsible =>
      have validated := accepted
      simp only [Event.Accepted, Graph.validateMerged, bind_eq_ok, Except.ok.injEq,
        List.append_eq_nil_iff] at validated
      obtain ⟨_, -, nodes, reads, _, -, _, -, ⟨⟨⟨⟨-, required⟩, -⟩, -⟩, -⟩, -⟩ := validated
      have reported := (Graph.missingRequiredOf_missing reads found decodes declared
        responsible).mpr (isMissing isRequired absent)
      rw [required] at reported
      cases reported

/-- A surface judges whether a record has what a definition requires; the
proposition is that it objects. -/
inductive Judgement : NodeRecord → LabelDef → Prop → Prop
  | query {catalogue : Catalogue} {node : NodeValue} {draft : NodeDraft} {decl : LabelDef}
      {properties : Properties} :
      DraftOf catalogue node draft decl → encodeProperties draft.properties = .ok properties →
      Judgement ⟨draft.secondaryLabels.toFinset, properties⟩ decl
        (UniqueChecker.checkExistence node draft.key decl ≠ .ok ())
  | importBatch {tracker after : Graph.UniqueTracker} {labels : SortedMap String LabelDef}
      {puts : List (NodeKey × NodeRecord)} {violations : List ConstraintViolation}
      {surviving : SortedMap Bytes (NodeKey × NodeRecord)} {bytes : Bytes} {node : NodeKey}
      {record : NodeRecord} {decl : LabelDef} :
      tracker.applyBatch labels puts = .ok (violations, after) →
      Graph.UniqueTracker.survivors puts = .ok surviving →
      surviving.get bytes = some (node, record) → labels.get node.label = some decl →
      Judgement record decl (∃ property, .missingRequired node property ∈ violations)
  | upsert {snapshot : Manifest} {node : NodeKey} {record : NodeRecord} {decl : LabelDef}
      {violations : List ConstraintViolation} :
      Graph.declaredFor snapshot node.label = some decl →
      Graph.checkUpsert snapshot node record = .ok violations →
      Judgement record decl (∃ property, .missingRequired node property ∈ violations)
  | declare {snapshot : Manifest} {label : String} {bytes : Bytes} {node : NodeKey}
      {record : NodeRecord} {decl : LabelDef} {violations : List ConstraintViolation} :
      Graph.checkLabel snapshot label decl = .ok violations →
      (bytes, record) ∈ Graph.labelRows snapshot.nodes label → NodeKey.decode bytes = .ok node →
      Judgement record decl (∃ property, .missingRequired node property ∈ violations)
  | merge {base merged : Manifest} {nodes : List (Bytes × NodeKey × NodeRecord)} {bytes : Bytes}
      {node : NodeKey} {record : NodeRecord} {decl : LabelDef} :
      Graph.allNodes merged.nodes = .ok nodes → merged.nodes.get bytes = some record →
      NodeKey.decode bytes = .ok node →
      (Graph.labelDefs merged.schema).get node.label = some decl →
      bytes ∈ Graph.changedKeys base.nodes merged.nodes →
      Judgement record decl
        (∃ property, .missingRequired bytes property ∈ Graph.missingRequiredOf base merged nodes)

/-- Every surface objects exactly when a required property is absent. -/
theorem Judgement.iff_missing {record : NodeRecord} {decl : LabelDef} {objects : Prop}
    (judges : Judgement record decl objects) : objects ↔ missingRequired decl record ≠ [] := by
  have exists_iff : ∀ {reports : String → Prop},
      (∀ property, reports property ↔ property ∈ missingRequired decl record) →
        ((∃ property, reports property) ↔ missingRequired decl record ≠ []) := by
    intro reports same
    constructor
    · rintro ⟨property, reported⟩
      exact List.ne_nil_of_mem ((same property).mp reported)
    · intro some
      obtain ⟨property, missing⟩ := List.exists_mem_of_ne_nil _ some
      exact ⟨property, (same property).mpr missing⟩
  cases judges with
  | query drafted encodes => exact not_congr (checkExistence_iff drafted encodes)
  | importBatch applies made found declared =>
      exact exists_iff fun _ =>
        Graph.UniqueTracker.applyBatch_missing applies made found declared
  | upsert declared checks => exact exists_iff fun _ => Graph.checkUpsert_missing declared checks
  | declare checks isRow decodes =>
      exact exists_iff fun _ => Graph.checkLabel_missing checks isRow decodes
  | merge reads found decodes declared changed =>
      exact exists_iff fun _ =>
        Graph.missingRequiredOf_missing reads found decodes declared (.inl changed)

/-- After any run of accepted surfaces, every required property has a value that
is not null and the surfaces judge alike, if and only if no required property
was stored as null and no key was too short. -/
theorem required_nonNull_iff (events : List Event)
    (accepted : ∀ event ∈ events, event.Accepted) :
    ((∀ event ∈ events, ∀ demand, event.Demands demand → demand.NonNull) ∧
      ∀ record decl first second, Judgement record decl first → Judgement record decl second →
        (first ↔ second)) ↔
    ∀ event ∈ events, ∀ demand, event.Demands demand → demand.Fits := by
  have alike : ∀ record decl first second, Judgement record decl first →
      Judgement record decl second → (first ↔ second) := by
    intro record decl first second judges alsoJudges
    rw [judges.iff_missing, alsoJudges.iff_missing]
  constructor
  · rintro ⟨nonNull, -⟩ event isEvent demand demands
    have isPresent := Event.present_of_accepted (accepted event isEvent) demands
    exact (demand.nonNull_iff isPresent).mp (nonNull event isEvent demand demands)
  · intro fits
    refine ⟨?_, alike⟩
    intro event isEvent demand demands
    have isPresent := Event.present_of_accepted (accepted event isEvent) demands
    exact (demand.nonNull_iff isPresent).mpr (fits event isEvent demand demands)

def serviceLabel : LabelDef :=
  ⟨["name"], false, .empty, ["tier"], [], by decide, by decide, by decide⟩

def serviceVersion : Manifest := Graph.sampleVersion [.label "Service" serviceLabel] [] []

def service : NodeKey := ⟨"Service", [.string "api"], rfl⟩

def tierOf (tier : StoredValue) : NodeRecord := ⟨∅, .ofList [("tier", tier)]⟩

def idleTracker : Graph.UniqueTracker := ⟨[], [], [], .empty, false⟩

/-- A service with the given tier is imported and written once more. -/
def tierRun (tier : StoredValue) : List Event :=
  [.importBatch idleTracker (.ofList [("Service", serviceLabel)]) [(service, tierOf tier)],
    .upsert serviceVersion service (tierOf tier)]

def nullTier : StoredValue := ⟨.null, rfl⟩

def goldTier : StoredValue := ⟨.string "gold", rfl⟩

private theorem importBatch_accepted {tracker : Graph.UniqueTracker}
    {labels : SortedMap String LabelDef} {puts : List (NodeKey × NodeRecord)}
    (accepts : (tracker.applyBatch labels puts).toOption.map Prod.fst = some []) :
    (Event.importBatch tracker labels puts).Accepted := by
  obtain ⟨⟨_, after⟩, done, rfl⟩ := Option.map_eq_some_iff.mp accepts
  exact ⟨after, mem_toOption.mp done⟩

/-- A null tier is accepted by both surfaces. -/
theorem nullTier_accepted : (∀ event ∈ tierRun nullTier, event.Accepted) ∧
    ¬ ∀ event ∈ tierRun nullTier, ∀ demand, event.Demands demand → demand.NonNull := by
  constructor
  · rw [tierRun, List.forall_mem_cons, List.forall_mem_singleton]
    have writes : Graph.checkUpsert serviceVersion service (tierOf nullTier) = .ok [] := by
      decide +kernel
    exact ⟨importBatch_accepted (by decide +kernel), writes⟩
  · intro nonNull
    have demands : (Event.upsert serviceVersion service (tierOf nullTier)).Demands
        ⟨service, tierOf nullTier, serviceLabel, "tier"⟩ :=
      .upsert (by decide +kernel) (by decide)
    rcases nonNull _ (by simp [tierRun]) _ demands with ⟨position, _, isIndex, -⟩ | inRecord
    · have noIndex : serviceLabel.key.findIdx? (· = "tier") = none := by decide
      rw [noIndex] at isIndex
      cases isIndex
    · obtain ⟨value, found, notNull⟩ := inRecord
      have isNull : (tierOf nullTier).properties.get "tier" = some nullTier := by decide +kernel
      rw [isNull, Option.some.injEq] at found
      exact notNull (found ▸ rfl)

private theorem goldTier_fits {demand : Demand}
    (demands : (Event.upsert serviceVersion service (tierOf goldTier)).Demands demand) :
    demand.Fits := by
  cases demands with
  | @upsert _ _ _ decl property declared isRequired =>
      have isLabel : Graph.declaredFor serviceVersion service.label = some serviceLabel := by
        decide +kernel
      rw [isLabel, Option.some.injEq] at declared
      subst declared
      have isTier : property = "tier" := List.mem_singleton.mp isRequired
      subst isTier
      constructor
      · intro position isIndex
        have noIndex : serviceLabel.key.findIdx? (· = "tier") = none := by decide
        exact absurd (noIndex.symm.trans isIndex) nofun
      · intro _ value found
        have isGold : (tierOf goldTier).properties.get "tier" = some goldTier := by
          decide +kernel
        rw [isGold, Option.some.injEq] at found
        subst found
        decide

theorem required_nonNull_iff_goldTier :
    (Event.upsert serviceVersion service (tierOf goldTier)).Accepted ∧
      ∀ demand, (Event.upsert serviceVersion service (tierOf goldTier)).Demands demand →
        demand.NonNull := by
  have writes : Graph.checkUpsert serviceVersion service (tierOf goldTier) = .ok [] := by
    decide +kernel
  refine ⟨writes, ?_⟩
  have nonNull := ((required_nonNull_iff [.upsert serviceVersion service (tierOf goldTier)]
    (List.forall_mem_singleton.mpr writes)).mpr
      (List.forall_mem_singleton.mpr fun _ demands => goldTier_fits demands)).1
  exact nonNull _ (List.mem_singleton_self _)

end Acetone.Cypher

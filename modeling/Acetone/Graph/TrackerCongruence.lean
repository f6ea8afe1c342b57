import Acetone.Lib.Grouping
import Acetone.Graph.TrackerLimits

/-!
# The tables of the tracker and the nodes written

Between any two calls the tables say who holds which claim: a claim is looked up
by the number that it is read back from, the owners of a number are the nodes
that hold its claim, and a node is listed with the numbers of its claims.  What
a call changes is said once, table by table; a batch is then refused exactly
when the check of the nodes that it leaves would report it, and one that nothing
is reported of leaves the constraints obeyed.
-/

namespace Acetone.Graph

open Acetone.Lib Acetone.Model

namespace UniqueTracker

def claimAt (tracker : UniqueTracker) (number : Nat) : Option UniqueClaim := do
  let (pair, value) ← tracker.claimKeys[number]?
  let (label, property) ← tracker.pairs[pair]?
  some (label, property, value)

/-- Whether a key owns a number, and if so whether as an imported one. -/
def ownedBy (tracker : UniqueTracker) (number : Nat) (own : Bytes) : Option Bool :=
  tracker.owners[number]?.bind (·.get own)

/-- Every number stands for one claim, and no claim has two. -/
structure Numbered (tracker : UniqueTracker) : Prop where
  sized : tracker.Sized
  pairsNodup : tracker.pairs.Nodup
  claimsNodup : tracker.claimKeys.Nodup
  paired : ∀ entry ∈ tracker.claimKeys, entry.1 < tracker.pairs.length

section

variable {tracker middle next : UniqueTracker} {number : Nat} {claim : UniqueClaim}

theorem claimAt_eq_some : tracker.claimAt number = some claim ↔
    ∃ pair, tracker.claimKeys[number]? = some (pair, claim.2.2) ∧
      tracker.pairs[pair]? = some (claim.1, claim.2.1) := by
  obtain ⟨label, property, value⟩ := claim
  simp only [claimAt, Option.bind_eq_bind, Option.bind_eq_some_iff, Option.some.injEq]
  constructor
  · rintro ⟨⟨pair, stored⟩, isKey, ⟨_, _⟩, isPair, ⟨⟩⟩
    exact ⟨pair, isKey, isPair⟩
  · rintro ⟨pair, isKey, isPair⟩
    exact ⟨_, isKey, _, isPair, rfl⟩

theorem claimAt_mono (pairs : tracker.pairs <+: next.pairs)
    (claimKeys : tracker.claimKeys <+: next.claimKeys)
    (isClaim : tracker.claimAt number = some claim) : next.claimAt number = some claim := by
  obtain ⟨pair, isKey, isPair⟩ := claimAt_eq_some.mp isClaim
  exact claimAt_eq_some.mpr
    ⟨pair, getElem?_of_isPrefix claimKeys isKey, getElem?_of_isPrefix pairs isPair⟩

/-- A claim is looked up by the number that it is read back from. -/
theorem Numbered.numberOf_iff (numbered : tracker.Numbered) :
    tracker.numberOf claim = some number ↔ tracker.claimAt number = some claim := by
  rw [claimAt_eq_some, numberOf, Option.bind_eq_some_iff]
  apply exists_congr
  intro pair
  rw [idxOf?_iff_getElem? numbered.pairsNodup, idxOf?_iff_getElem? numbered.claimsNodup, and_comm]

theorem Numbered.unique (numbered : tracker.Numbered) {other : Nat}
    (isClaim : tracker.claimAt number = some claim) (again : tracker.claimAt other = some claim) :
    number = other := by
  have same := (numbered.numberOf_iff.mpr isClaim).symm.trans (numbered.numberOf_iff.mpr again)
  exact Option.some.inj same

theorem Numbered.exists_claimAt (numbered : tracker.Numbered) {own : Bytes}
    (owned : (tracker.ownedBy number own).isSome) : ∃ claim, tracker.claimAt number = some claim := by
  obtain ⟨imported, isOwned⟩ := Option.isSome_iff_exists.mp owned
  obtain ⟨owners, isOwners, -⟩ := Option.bind_eq_some_iff.mp isOwned
  obtain ⟨inside, -⟩ := List.getElem?_eq_some_iff.mp isOwners
  have sized := numbered.sized
  rw [Sized] at sized
  rw [sized] at inside
  have isKey := List.getElem?_eq_getElem inside
  have isPair := List.getElem?_eq_getElem (numbered.paired _ (List.getElem_mem inside))
  exact ⟨(_, _, _), claimAt_eq_some.mpr ⟨_, isKey, isPair⟩⟩

/-- More numbers may be given, and the owners stay. -/
structure Extends (tracker next : UniqueTracker) : Prop where
  numbered : next.Numbered
  kept : ∀ {number : Nat} {claim : UniqueClaim}, tracker.claimAt number = some claim →
    next.claimAt number = some claim
  owners : ∀ number own, next.ownedBy number own = tracker.ownedBy number own
  byKey : next.byKey = tracker.byKey
  active : next.active = tracker.active

theorem Extends.refl (numbered : tracker.Numbered) : Extends tracker tracker :=
  ⟨numbered, id, fun _ _ => rfl, rfl, rfl⟩

private theorem pairId_extends {label property : String} {pair : Nat} (numbered : tracker.Numbered)
    (numbers : tracker.pairId label property = .ok (pair, next)) :
    Extends tracker next ∧ next.pairs[pair]? = some (label, property) := by
  rw [pairId] at numbers
  split at numbers
  · next found =>
      cases numbers
      exact ⟨.refl numbered, getElem?_of_idxOf? found⟩
  · next absent =>
      split at numbers <;> cases numbers
      refine ⟨⟨⟨numbered.sized, nodup_concat numbered.pairsNodup (not_mem_of_idxOf? absent),
        numbered.claimsNodup, ?_⟩, ?_, fun _ _ => rfl, rfl, rfl⟩, List.getElem?_concat_length⟩
      · intro entry member
        have inside := numbered.paired entry member
        rw [List.length_append, List.length_singleton]
        omega
      · intro number claim isClaim
        exact claimAt_mono (List.prefix_append _ _) List.prefix_rfl isClaim

private theorem claimId_extends {label property : String} {value : StoredValue} {pair : Nat}
    (numbered : tracker.Numbered) (isPair : tracker.pairs[pair]? = some (label, property))
    (numbers : tracker.claimId pair value = .ok (number, next)) :
    Extends tracker next ∧ next.claimAt number = some (label, property, value) := by
  rw [claimId] at numbers
  split at numbers
  · next found =>
      cases numbers
      exact ⟨.refl numbered, claimAt_eq_some.mpr ⟨pair, getElem?_of_idxOf? found, isPair⟩⟩
  · next absent =>
      split at numbers <;> cases numbers
      have sized := numbered.sized
      rw [Sized] at sized
      refine ⟨⟨⟨?_, numbered.pairsNodup,
        nodup_concat numbered.claimsNodup (not_mem_of_idxOf? absent), ?_⟩, ?_, ?_, rfl, rfl⟩, ?_⟩
      · simp only [Sized, List.length_append, List.length_singleton, sized]
      · intro entry member
        rcases List.mem_append.mp member with earlier | isEntry
        · exact numbered.paired entry earlier
        · rw [List.mem_singleton.mp isEntry]
          exact (List.getElem?_eq_some_iff.mp isPair).1
      · intro number claim isClaim
        exact @claimAt_mono tracker _ _ _ List.prefix_rfl (List.prefix_append _ _) isClaim
      · intro number own
        rw [ownedBy, ownedBy, List.getElem?_append]
        split
        · rfl
        · next beyond =>
            rw [List.getElem?_eq_none (Nat.le_of_not_lt beyond), List.getElem?_singleton]
            split <;> rfl
      · refine claimAt_eq_some.mpr ⟨pair, ?_, isPair⟩
        rw [sized]
        exact List.getElem?_concat_length

private theorem ownedBy_putOwner {own : Bytes} {imported : Bool} (inside : number <
    tracker.owners.length) (other : Nat) (key : Bytes) :
    ownedBy { tracker with owners := tracker.owners.modify number (·.put own imported) } other key =
      if key = own ∧ other = number then some imported else tracker.ownedBy other key := by
  simp only [ownedBy, List.getElem?_modify]
  by_cases same : number = other
  · subst same
    rw [List.getElem?_eq_getElem inside]
    simp [SortedMap.get_put, eq_comm]
  · rw [if_neg fun both => same both.2.symm]
    cases tracker.owners[other]? <;> simp [same]

/-- What the claims of a record leave: each has a number, which the node owns. -/
structure Takes (own : Bytes) (imported : Bool) (claims : List UniqueClaim)
    (tracker next : UniqueTracker) (held : List Nat) : Prop where
  numbered : next.Numbered
  kept : ∀ {number : Nat} {claim : UniqueClaim}, tracker.claimAt number = some claim →
    next.claimAt number = some claim
  named : List.Forall₂ (fun number claim => next.claimAt number = some claim) held claims
  owners : ∀ number other, next.ownedBy number other =
    if other = own ∧ number ∈ held then some imported else tracker.ownedBy number other
  byKey : next.byKey = tracker.byKey
  active : next.active = tracker.active

private theorem claimAll_takes {label : String} {record : NodeRecord} {own : Bytes}
    {imported : Bool} {properties : List String} {held : List Nat} (numbered : tracker.Numbered)
    (claims : claimAll label record own imported tracker properties = .ok (held, next)) :
    Takes own imported (properties.filterMap fun property =>
      (record.properties.get property).map fun value => (label, property, value))
      tracker next held := by
  induction properties generalizing tracker held with
  | nil =>
      cases claims
      exact ⟨numbered, id, .nil, fun _ _ => by simp, rfl, rfl⟩
  | cons property properties ih =>
      rw [claimAll] at claims
      rw [List.filterMap_cons]
      split at claims
      · next absent =>
          rw [absent]
          exact ih numbered claims
      · next value present =>
          rw [present]
          obtain ⟨⟨pair, paired⟩, numbersPair, claims⟩ := bind_eq_ok.mp claims
          obtain ⟨⟨number, named⟩, numbersClaim, claims⟩ := bind_eq_ok.mp claims
          obtain ⟨⟨others, last⟩, rest, ⟨⟩⟩ := bind_eq_ok.mp claims
          obtain ⟨extended, isPair⟩ := pairId_extends numbered numbersPair
          obtain ⟨further, isClaim⟩ := claimId_extends extended.numbered isPair numbersClaim
          have inside : number < named.owners.length := by
            obtain ⟨pair, isKey, -⟩ := claimAt_eq_some.mp isClaim
            have sized := further.numbered.sized
            rw [Sized] at sized
            rw [sized]
            exact (List.getElem?_eq_some_iff.mp isKey).1
          have owned := @ownedBy_putOwner named number own imported inside
          have numberedNow : Numbered { named with
              owners := named.owners.modify number (·.put own imported) } :=
            ⟨(List.length_modify _ _ _).trans further.numbered.sized, further.numbered.pairsNodup,
              further.numbered.claimsNodup, further.numbered.paired⟩
          obtain ⟨numberedLast, kept, heldRest, ownersRest, byKey, active⟩ := ih numberedNow rest
          refine ⟨numberedLast, ?_, .cons (kept isClaim) heldRest, ?_, ?_, ?_⟩
          · intro other claim isOther
            exact kept (further.kept (extended.kept isOther))
          · intro other key
            rw [ownersRest, owned, further.owners, extended.owners]
            by_cases isOwn : key = own <;> by_cases isNumber : other = number <;>
              simp [isOwn, isNumber]
          · rw [byKey, further.byKey, extended.byKey]
          · rw [active, further.active, extended.active]

private theorem ownedBy_unclaim (own : Bytes) (other : Bytes) :
    (tracker.unclaim own).ownedBy number other =
      if other = own ∧ number ∈ (tracker.byKey.get own).getD [] then none
      else tracker.ownedBy number other := by
  have deleted : ∀ (previous : List Nat) (tables : List (SortedMap Bytes Bool)),
      (previous.foldl (fun owners claim => owners.modify claim (·.delete own)) tables)[number]?.bind
          (·.get other) =
        if other = own ∧ number ∈ previous then none else tables[number]?.bind (·.get other) := by
    intro previous
    induction previous with
    | nil => exact fun tables => by simp
    | cons claim previous ih =>
        intro tables
        rw [List.foldl_cons, ih, List.getElem?_modify]
        by_cases isOwn : other = own <;> by_cases isClaim : number = claim
        · subst isOwn isClaim
          cases tables[number]? <;> simp [SortedMap.get_delete]
        · cases tables[number]? <;> simp [isOwn, isClaim, Ne.symm isClaim]
        · subst isClaim
          cases tables[number]? <;> simp [isOwn, Ne.symm isOwn, SortedMap.get_delete]
        · cases tables[number]? <;> simp [isOwn, Ne.symm isClaim]
  exact deleted _ tracker.owners

private theorem unclaim_numbered (numbered : tracker.Numbered) (own : Bytes) :
    (tracker.unclaim own).Numbered :=
  ⟨(length_unclaim tracker own).trans numbered.sized, numbered.pairsNodup, numbered.claimsNodup,
    numbered.paired⟩

/-- What a node's claims leave in place of those it held. -/
structure Replaces (own : Bytes) (imported : Bool) (claims : List UniqueClaim)
    (tracker next : UniqueTracker) (held : List Nat) : Prop where
  numbered : next.Numbered
  kept : ∀ {number : Nat} {claim : UniqueClaim}, tracker.claimAt number = some claim →
    next.claimAt number = some claim
  named : List.Forall₂ (fun number claim => next.claimAt number = some claim) held claims
  owners : ∀ number other, next.ownedBy number other =
    if other = own ∧ number ∈ held then some imported
    else if other = own ∧ number ∈ (tracker.byKey.get own).getD [] then none
    else tracker.ownedBy number other
  byKey : ∀ other, next.byKey.get other = if own = other then some held else tracker.byKey.get other
  active : next.active = tracker.active

def Constrained (labels : SortedMap String LabelDef) (label : String) : Prop :=
  ∃ decl, labels.get label = some decl ∧ decl.unique ≠ []

private theorem claim_replaces {labels : SortedMap String LabelDef} {key : NodeKey}
    {record : NodeRecord} {own : Bytes} {imported : Bool} {touched : List Nat}
    (numbered : tracker.Numbered) (constrained : Constrained labels key.label)
    (encodes : key.encode = .ok own)
    (claims : tracker.claim labels key record imported = .ok (touched, next)) :
    ∃ held, touched = (tracker.byKey.get own).getD [] ++ held ∧
      Replaces own imported (claimsOf labels key record) tracker next held := by
  obtain ⟨decl, declared, isUnique⟩ := constrained
  have notEmpty : ¬ decl.unique.isEmpty := by simpa using isUnique
  simp only [UniqueTracker.claim, declared, if_neg notEmpty, encodes, liftKey, ofGraphError,
    Except.mapError, ok_bind] at claims
  obtain ⟨⟨held, last⟩, claimsAll, ⟨⟩⟩ := bind_eq_ok.mp claims
  have takes := claimAll_takes (unclaim_numbered numbered own) claimsAll
  refine ⟨held, rfl, ⟨takes.numbered.sized, takes.numbered.pairsNodup, takes.numbered.claimsNodup,
    takes.numbered.paired⟩, takes.kept, ?_, ?_, ?_, takes.active⟩
  · rw [claimsOf, declared]
    exact takes.named
  · intro number other
    rw [← ownedBy_unclaim]
    exact takes.owners number other
  · intro other
    rw [SortedMap.get_put, takes.byKey, unclaim, SortedMap.get_delete]
    split <;> rfl

private theorem claim_unconstrained {labels : SortedMap String LabelDef} {key : NodeKey}
    {record : NodeRecord} {imported : Bool} (free : ¬ Constrained labels key.label) :
    tracker.claim labels key record imported = .ok ([], tracker) := by
  rw [UniqueTracker.claim]
  split
  · rfl
  · next decl declared =>
      refine if_pos ?_
      by_contra notEmpty
      exact free ⟨decl, declared, by simpa using notEmpty⟩

end

structure Describes (labels : SortedMap String LabelDef) (tracker : UniqueTracker)
    (nodes : NodeMap) : Prop where
  numbered : tracker.Numbered
  known : ∀ {own : Bytes} {claim : UniqueClaim}, Holds labels nodes own claim →
    ∃ number, tracker.claimAt number = some claim
  owners : ∀ {number : Nat} {own : Bytes}, (tracker.ownedBy number own).isSome ↔
    ∃ claim, tracker.claimAt number = some claim ∧ Holds labels nodes own claim
  byKey : ∀ {own : Bytes} {held : List Nat}, tracker.byKey.get own = some held ↔
    ∃ record node, nodes.get own = some record ∧ NodeKey.decode own = .ok node ∧
      Constrained labels node.label ∧
        List.Forall₂ (fun number claim => tracker.claimAt number = some claim) held
          (claimsOf labels node record)

section

variable {labels : SortedMap String LabelDef} {tracker next : UniqueTracker} {nodes : NodeMap}

private theorem exists_of_mem_forall₂ {α β : Type} {related : α → β → Prop} {items : List α}
    {others : List β} (each : List.Forall₂ related items others) {item : α}
    (member : item ∈ items) : ∃ other ∈ others, related item other := by
  induction each with
  | nil => cases member
  | cons first _ ih =>
      rcases List.mem_cons.mp member with rfl | later
      · exact ⟨_, List.mem_cons_self, first⟩
      · obtain ⟨other, isOther, holds⟩ := ih later
        exact ⟨other, List.mem_cons_of_mem _ isOther, holds⟩

private theorem exists_forall₂ {α β : Type} {related : α → β → Prop} {others : List β}
    (each : ∀ other ∈ others, ∃ item, related item other) :
    ∃ items, List.Forall₂ related items others := by
  induction others with
  | nil => exact ⟨[], .nil⟩
  | cons first others ih =>
      obtain ⟨item, holds⟩ := each first List.mem_cons_self
      obtain ⟨items, rest⟩ := ih fun other member => each other (List.mem_cons_of_mem _ member)
      exact ⟨item :: items, .cons holds rest⟩

private theorem forall₂_of_mem {α β : Type} {related again : α → β → Prop} {items : List α}
    {others : List β} (each : List.Forall₂ related items others)
    (carries : ∀ item, ∀ other ∈ others, related item other → again item other) :
    List.Forall₂ again items others := by
  induction each with
  | nil => exact .nil
  | cons first _ ih =>
      exact .cons (carries _ _ List.mem_cons_self first)
        (ih fun item other member => carries item other (List.mem_cons_of_mem _ member))

/-- Claims are read back from one list of numbers. -/
private theorem Numbered.held_unique (numbered : tracker.Numbered) {first second : List Nat}
    {claims : List UniqueClaim}
    (isFirst : List.Forall₂ (fun number claim => tracker.claimAt number = some claim) first claims)
    (isSecond : List.Forall₂ (fun number claim => tracker.claimAt number = some claim) second
      claims) : first = second := by
  induction isFirst generalizing second with
  | nil =>
      cases isSecond
      rfl
  | cons isClaim _ ih =>
      cases isSecond with
      | cons again rest => rw [numbered.unique isClaim again, ih rest]

private theorem claimsOf_congr {left right : NodeKey} (same : left.label = right.label)
    (record : NodeRecord) : claimsOf labels left record = claimsOf labels right record := by
  rw [claimsOf, claimsOf, same]

theorem holds_put {key : NodeKey} {record : NodeRecord} {own other : Bytes} {claim : UniqueClaim}
    (encodes : key.encode = .ok own) : Holds labels (nodes.put own record) other claim ↔
      if other = own then claim ∈ claimsOf labels key record
      else Holds labels nodes other claim := by
  obtain ⟨stored, decodes, sameLabel, -⟩ := NodeKey.decode_of_encode encodes
  split
  · next same =>
      subst same
      constructor
      · rintro ⟨found, node, isFound, isNode, isClaim⟩
        rw [SortedMap.get_put, if_pos rfl, Option.some.injEq] at isFound
        rw [decodes, Except.ok.injEq] at isNode
        subst isFound isNode
        rwa [claimsOf_congr sameLabel] at isClaim
      · intro isClaim
        refine ⟨record, stored, (SortedMap.get_put _ _ _ _).trans (if_pos rfl), decodes, ?_⟩
        rwa [claimsOf_congr sameLabel]
  · next apart => simp only [Holds, SortedMap.get_put, if_neg (Ne.symm apart)]

private theorem constrained_of_mem {node : NodeKey} {record : NodeRecord} {claim : UniqueClaim}
    (isClaim : claim ∈ claimsOf labels node record) : Constrained labels node.label := by
  obtain ⟨decl, declared, -, isUnique, -⟩ := mem_claimsOf.mp isClaim
  exact ⟨decl, declared, List.ne_nil_of_mem isUnique⟩

namespace Describes

theorem exists_byKey (describes : Describes labels tracker nodes) {own : Bytes}
    {record : NodeRecord} {node : NodeKey} (found : nodes.get own = some record)
    (decodes : NodeKey.decode own = .ok node) (constrained : Constrained labels node.label) :
    ∃ held, tracker.byKey.get own = some held ∧
      List.Forall₂ (fun number claim => tracker.claimAt number = some claim) held
        (claimsOf labels node record) := by
  obtain ⟨held, each⟩ := exists_forall₂ fun claim isClaim =>
    describes.known ⟨record, node, found, decodes, isClaim⟩
  exact ⟨held, describes.byKey.mpr ⟨record, node, found, decodes, constrained, each⟩, each⟩

/-- The numbers that a node owns are those it is listed with. -/
theorem listed_of_owned (describes : Describes labels tracker nodes) {own : Bytes} {number : Nat}
    (owned : (tracker.ownedBy number own).isSome) :
    number ∈ (tracker.byKey.get own).getD [] := by
  obtain ⟨claim, isNumber, record, node, found, decodes, isClaim⟩ := describes.owners.mp owned
  obtain ⟨held, listed, each⟩ :=
    describes.exists_byKey found decodes (constrained_of_mem isClaim)
  obtain ⟨again, isHeld, isAgain⟩ := exists_of_mem_forall₂ each.flip isClaim
  rw [listed, describes.numbered.unique isNumber isAgain]
  exact isHeld

/-- A number that is kept stands for the same claim as before, if a node held it. -/
private theorem claimAt_of_kept (describes : Describes labels tracker nodes)
    (numbered : next.Numbered) (kept : ∀ {number : Nat} {claim : UniqueClaim},
      tracker.claimAt number = some claim → next.claimAt number = some claim)
    {own : Bytes} {claim : UniqueClaim} (holds : Holds labels nodes own claim) {number : Nat}
    (isNumber : next.claimAt number = some claim) : tracker.claimAt number = some claim := by
  obtain ⟨again, isAgain⟩ := describes.known holds
  rw [numbered.unique isNumber (kept isAgain)]
  exact isAgain

end Describes

structure Turn (own : Bytes) (imported : Bool) (tracker next : UniqueTracker)
    (touched : List Nat) : Prop where
  others : ∀ number other, other ≠ own → next.ownedBy number other = tracker.ownedBy number other
  flagged : ∀ number flag, next.ownedBy number own = some flag → flag = imported
  touched : ∀ number, (next.ownedBy number own).isSome → number ∈ touched
  active : next.active = tracker.active

private theorem Describes.claim_free (describes : Describes labels tracker nodes) {key : NodeKey}
    {record : NodeRecord} {own : Bytes} (encodes : key.encode = .ok own)
    (free : ¬ Constrained labels key.label) (imported : Bool) :
    Describes labels tracker (nodes.put own record) ∧ Turn own imported tracker tracker [] := by
  obtain ⟨stored, decodes, sameLabel, -⟩ := NodeKey.decode_of_encode encodes
  have noneHeld : ∀ {claim}, ¬ Holds labels nodes own claim := by
    rintro claim ⟨found, node, -, isNode, isClaim⟩
    rw [decodes, Except.ok.injEq] at isNode
    subst isNode
    exact free (sameLabel ▸ constrained_of_mem isClaim)
  have noneOwned : ∀ number, tracker.ownedBy number own = none := by
    intro number
    rw [← Option.not_isSome_iff_eq_none]
    intro owned
    obtain ⟨claim, -, holds⟩ := describes.owners.mp owned
    exact noneHeld holds
  have sameHolds : ∀ {other claim}, Holds labels (nodes.put own record) other claim ↔
      Holds labels nodes other claim := by
    intro other claim
    rw [holds_put encodes]
    split
    · next same =>
        subst same
        exact ⟨fun isClaim => absurd (constrained_of_mem isClaim) free, (absurd · noneHeld)⟩
    · rfl
  refine ⟨⟨describes.numbered, ?_, ?_, ?_⟩, ⟨fun _ _ _ => rfl, ?_, ?_, rfl⟩⟩
  · intro other claim holds
    exact describes.known (sameHolds.mp holds)
  · intro number other
    simp only [sameHolds]
    exact describes.owners
  · intro other held
    rw [describes.byKey]
    by_cases same : own = other
    · subst same
      have never : ∀ node, NodeKey.decode own = .ok node → ¬ Constrained labels node.label := by
        intro node isNode
        rw [decodes, Except.ok.injEq] at isNode
        rwa [← isNode, sameLabel]
      constructor
      · rintro ⟨_, node, -, isNode, constrained, -⟩
        exact absurd constrained (never node isNode)
      · rintro ⟨_, node, -, isNode, constrained, -⟩
        exact absurd constrained (never node isNode)
    · simp only [SortedMap.get_put, if_neg same]
  · intro number flag owned
    rw [noneOwned] at owned
    cases owned
  · intro number owned
    rw [noneOwned] at owned
    cases owned

/-- A claim call, for a stored node or for an imported one, keeps the tables true. -/
theorem Describes.claim (describes : Describes labels tracker nodes) {key : NodeKey}
    {record : NodeRecord} {own : Bytes} {imported : Bool} {touched : List Nat}
    (encodes : key.encode = .ok own)
    (claims : tracker.claim labels key record imported = .ok (touched, next)) :
    Describes labels next (nodes.put own record) ∧ Turn own imported tracker next touched := by
  by_cases constrained : Constrained labels key.label
  case neg =>
    rw [claim_unconstrained constrained] at claims
    cases claims
    exact describes.claim_free encodes constrained imported
  obtain ⟨stored, decodes, sameLabel, -⟩ := NodeKey.decode_of_encode encodes
  obtain ⟨held, rfl, replaces⟩ := claim_replaces describes.numbered constrained encodes claims
  have numbered := replaces.numbered
  have isOwned : ∀ number, next.ownedBy number own = if number ∈ held then some imported
      else none := by
    intro number
    rw [replaces.owners]
    by_cases isHeld : number ∈ held
    · simp [isHeld]
    · by_cases owned : (tracker.ownedBy number own).isSome
      · simp [isHeld, describes.listed_of_owned owned]
      · rw [Option.not_isSome_iff_eq_none] at owned
        simp [isHeld, owned]
  have isOther : ∀ number other, other ≠ own →
      next.ownedBy number other = tracker.ownedBy number other := by
    intro number other apart
    simp [replaces.owners, apart]
  refine ⟨⟨numbered, ?_, ?_, ?_⟩, ⟨isOther, ?_, ?_, replaces.active⟩⟩
  · intro other claim holds
    rw [holds_put encodes] at holds
    split at holds
    · obtain ⟨number, -, isNumber⟩ := exists_of_mem_forall₂ replaces.named.flip holds
      exact ⟨number, isNumber⟩
    · obtain ⟨number, isNumber⟩ := describes.known holds
      exact ⟨number, replaces.kept isNumber⟩
  · intro number other
    simp only [holds_put encodes]
    by_cases same : other = own
    · subst same
      simp only [isOwned, if_true]
      constructor
      · intro owned
        split at owned
        · next isHeld =>
            obtain ⟨claim, isClaim, isNumber⟩ := exists_of_mem_forall₂ replaces.named isHeld
            exact ⟨claim, isNumber, isClaim⟩
        · cases owned
      · rintro ⟨claim, isNumber, isClaim⟩
        obtain ⟨again, isHeld, isAgain⟩ := exists_of_mem_forall₂ replaces.named.flip isClaim
        rw [numbered.unique isNumber isAgain, if_pos isHeld]
        rfl
    · simp only [isOther number other same, if_neg same]
      rw [describes.owners]
      constructor
      · rintro ⟨claim, isNumber, holds⟩
        exact ⟨claim, replaces.kept isNumber, holds⟩
      · rintro ⟨claim, isNumber, holds⟩
        exact ⟨claim, describes.claimAt_of_kept numbered replaces.kept holds isNumber, holds⟩
  · intro other list
    rw [replaces.byKey]
    by_cases same : own = other
    · subst same
      rw [if_pos rfl, Option.some.injEq]
      constructor
      · rintro rfl
        refine ⟨record, stored, (SortedMap.get_put _ _ _ _).trans (if_pos rfl), decodes,
          sameLabel ▸ constrained, ?_⟩
        rw [claimsOf_congr sameLabel]
        exact replaces.named
      · rintro ⟨found, node, isFound, isNode, -, each⟩
        rw [SortedMap.get_put, if_pos rfl, Option.some.injEq] at isFound
        rw [decodes, Except.ok.injEq] at isNode
        subst isFound isNode
        rw [claimsOf_congr sameLabel] at each
        exact numbered.held_unique replaces.named each
    · rw [if_neg same, describes.byKey]
      simp only [SortedMap.get_put, if_neg same]
      constructor
      · rintro ⟨found, node, isFound, isNode, isConstrained, each⟩
        exact ⟨found, node, isFound, isNode, isConstrained,
          each.imp fun _ _ isNumber => replaces.kept isNumber⟩
      · rintro ⟨found, node, isFound, isNode, isConstrained, each⟩
        refine ⟨found, node, isFound, isNode, isConstrained, forall₂_of_mem each ?_⟩
        intro number claim isClaim isNumber
        exact describes.claimAt_of_kept numbered replaces.kept
          ⟨found, node, isFound, isNode, isClaim⟩ isNumber
  · intro number flag owned
    rw [isOwned] at owned
    split at owned
    · exact (Option.some.inj owned).symm
    · cases owned
  · intro number owned
    rw [isOwned] at owned
    split at owned
    · next isHeld => exact List.mem_append_right _ isHeld
    · cases owned

def Unimported (tracker : UniqueTracker) : Prop :=
  ∀ number own, tracker.ownedBy number own ≠ some true

theorem describes_nothing (active : Bool)
    (free : nodes = .empty ∨ ∀ label, ¬ Constrained labels label) :
    Describes labels ⟨[], [], [], .empty, active⟩ nodes := by
  have never : ∀ {own record node}, nodes.get own = some record →
      ¬ Constrained labels (NodeKey.label node) := by
    intro own record node found
    rcases free with rfl | free
    · cases found
    · exact free node.label
  have unheld : ∀ {own claim}, ¬ Holds labels nodes own claim := by
    rintro own claim ⟨record, node, found, -, isClaim⟩
    exact never found (constrained_of_mem isClaim)
  refine ⟨⟨rfl, List.nodup_nil, List.nodup_nil, ?_⟩, (absurd · unheld), ?_, ?_⟩
  · intro entry member
    cases member
  · intro number own
    constructor
    · intro owned
      cases owned
    · rintro ⟨claim, -, holds⟩
      exact absurd holds unheld
  · intro own held
    constructor
    · intro listed
      cases listed
    · rintro ⟨record, node, found, -, constrained, -⟩
      exact absurd constrained (never found)

/-- A row that is passed over has no claims. -/
theorem seedRow_eq {row : Bytes × NodeRecord}
    (seeds : seedRow labels tracker row = .ok next) :
    ∃ node touched, NodeKey.decode row.1 = .ok node ∧
      tracker.claim labels node row.2 false = .ok (touched, next) := by
  obtain ⟨node, decodes, seeds⟩ := bind_eq_ok.mp seeds
  rw [ofGraphError, mapError_eq_ok, liftKey_eq_ok] at decodes
  split at seeds
  · next undeclared =>
      cases seeds
      refine ⟨node, [], decodes, ?_⟩
      rw [UniqueTracker.claim, undeclared]
  · next decl declared =>
      split at seeds
      · next none =>
          cases seeds
          refine ⟨node, [], decodes, ?_⟩
          simp only [UniqueTracker.claim, declared, none, if_true]
      · obtain ⟨⟨touched, last⟩, claims, ⟨⟩⟩ := bind_eq_ok.mp seeds
        exact ⟨node, touched, decodes, claims⟩

private theorem seedRows_describes {rows : List (Bytes × NodeRecord)}
    (describes : Describes labels tracker nodes) (unimported : tracker.Unimported)
    (seeds : rows.foldlM (seedRow labels) tracker = .ok next) :
    Describes labels next (nodes.applyAll (rows.map fun row => .put row.1 row.2)) ∧
      next.Unimported ∧ next.active = tracker.active := by
  induction rows generalizing tracker nodes with
  | nil =>
      cases seeds
      exact ⟨describes, unimported, rfl⟩
  | cons row rows ih =>
      rw [List.foldlM_cons] at seeds
      obtain ⟨middle, first, rest⟩ := bind_eq_ok.mp seeds
      obtain ⟨node, touched, decodes, claims⟩ := seedRow_eq first
      obtain ⟨described, turn⟩ := describes.claim (NodeKey.encode_of_decode decodes) claims
      have stillUnimported : middle.Unimported := by
        intro number own owned
        by_cases same : own = row.1
        · subst same
          cases turn.flagged number true owned
        · rw [turn.others number own same] at owned
          exact unimported number own owned
      obtain ⟨describedLast, unimportedLast, active⟩ := ih described stillUnimported rest
      exact ⟨describedLast, unimportedLast, active.trans turn.active⟩

theorem seed_describes (seeds : seed labels nodes = .ok tracker) :
    Describes labels tracker nodes ∧ tracker.Unimported ∧
      (tracker.active = true ∨ ∀ label, ¬ Constrained labels label) := by
  have unowned : ∀ active, Unimported ⟨[], [], [], .empty, active⟩ := by
    intro active number own owned
    cases owned
  rw [seed] at seeds
  dsimp only at seeds
  split at seeds
  · next idle =>
      cases seeds
      have free : ∀ label, ¬ Constrained labels label := by
        rintro label ⟨decl, declared, isUnique⟩
        apply idle
        refine List.any_eq_true.mpr ⟨_, SortedMap.get_eq_some_iff.mp declared, ?_⟩
        simpa using isUnique
      exact ⟨describes_nothing _ (.inr free), unowned _, .inr free⟩
  · next busy =>
      obtain ⟨described, unimported, active⟩ :=
        seedRows_describes (describes_nothing _ (.inl rfl)) (unowned _) seeds
      have whole : SortedMap.empty.applyAll (nodes.entries.map fun row => .put row.1 row.2) =
          nodes :=
        SortedMap.ext_entries (SortedMap.entries_ofList nodes.ascending)
      rw [whole] at described
      exact ⟨described, unimported, .inl (active.trans (not_not.mp busy))⟩

/-- An imported owner of a number is its only one. -/
def Settled (tracker : UniqueTracker) : Prop :=
  ∀ number first second, tracker.ownedBy number first = some true →
    (tracker.ownedBy number second).isSome → first = second

structure Tracks (labels : SortedMap String LabelDef) (tracker : UniqueTracker)
    (nodes : NodeMap) : Prop where
  describes : Describes labels tracker nodes
  settled : tracker.Settled
  watches : tracker.active = true ∨ ∀ label, ¬ Constrained labels label

theorem seed_tracks (seeds : seed labels nodes = .ok tracker) : Tracks labels tracker nodes := by
  obtain ⟨describes, unimported, watches⟩ := seed_describes seeds
  exact ⟨describes, fun number first _ owned _ => absurd owned (unimported number first), watches⟩

def written (nodes : NodeMap) (surviving : SortedMap Bytes (NodeKey × NodeRecord)) : NodeMap :=
  nodes.applyAll (surviving.entries.map fun row => .put row.1 row.2.2)

theorem get_written (nodes : NodeMap) (surviving : SortedMap Bytes (NodeKey × NodeRecord))
    (key : Bytes) : (written nodes surviving).get key =
      ((surviving.get key).map Prod.snd).or (nodes.get key) := by
  have byKey : lastFor (fun row : Bytes × NodeKey × NodeRecord =>
      (MapOp.put row.1 row.2.2).key) key surviving.entries =
        lastFor Prod.fst key surviving.entries := rfl
  rw [written, SortedMap.get_applyAll, lastFor_map, byKey]
  have read := surviving.ascending.lookup_eq_lastFor key
  rw [show surviving.get key = _ from read]
  cases lastFor Prod.fst key surviving.entries <;> rfl

structure BatchTurn (rows : List (Bytes × NodeKey × NodeRecord)) (tracker next : UniqueTracker)
    (touched : List Nat) : Prop where
  others : ∀ number other, (∀ row ∈ rows, row.1 ≠ other) →
    next.ownedBy number other = tracker.ownedBy number other
  flagged : ∀ row ∈ rows, ∀ number flag, next.ownedBy number row.1 = some flag →
    flag = true ∧ number ∈ touched
  active : next.active = tracker.active

private theorem register_eq_claim
    (watches : tracker.active = true ∨ ∀ label, ¬ Constrained labels label) (key : NodeKey)
    (record : NodeRecord) :
    tracker.register labels key record = tracker.claim labels key record true := by
  rw [register]
  split
  · rfl
  · next idle =>
      rcases watches with active | free
      · exact absurd active idle
      · exact (claim_unconstrained (free key.label)).symm

private theorem claimBatch_describes {rows : List (Bytes × NodeKey × NodeRecord)}
    {violations : List ConstraintViolation} {touched : List Nat}
    (describes : Describes labels tracker nodes)
    (watches : tracker.active = true ∨ ∀ label, ¬ Constrained labels label)
    (encoded : ∀ row ∈ rows, row.2.1.encode = .ok row.1)
    (distinct : rows.Pairwise fun left right => left.1 ≠ right.1)
    (claims : claimBatch labels tracker (rows.map Prod.snd) = .ok (violations, touched, next)) :
    Describes labels next (nodes.applyAll (rows.map fun row => .put row.1 row.2.2)) ∧
      BatchTurn rows tracker next touched := by
  induction rows generalizing tracker nodes violations touched with
  | nil =>
      cases claims
      refine ⟨describes, fun _ _ _ => rfl, ?_, rfl⟩
      intro row member
      cases member
  | cons row rows ih =>
      rw [List.map_cons, claimBatch, register_eq_claim watches] at claims
      obtain ⟨⟨numbers, middle⟩, first, claims⟩ := bind_eq_ok.mp claims
      obtain ⟨⟨others, later, last⟩, rest, ⟨⟩⟩ := bind_eq_ok.mp claims
      obtain ⟨described, turn⟩ := describes.claim (encoded row List.mem_cons_self) first
      obtain ⟨apart, distinct⟩ := List.pairwise_cons.mp distinct
      obtain ⟨describedLast, batch⟩ := ih described
        (watches.imp_left fun active => turn.active.trans active)
        (fun row member => encoded row (List.mem_cons_of_mem _ member)) distinct rest
      refine ⟨describedLast, ?_, ?_, batch.active.trans turn.active⟩
      · intro number other outside
        obtain ⟨isOther, outside⟩ := List.forall_mem_cons.mp outside
        rw [batch.others number other outside, turn.others number other isOther.symm]
      · intro other member number flag owned
        rcases List.mem_cons.mp member with rfl | isLater
        · rw [batch.others number other.1 fun later isLater => (apart later isLater).symm] at owned
          refine ⟨turn.flagged number flag owned, List.mem_append_left _ (turn.touched number ?_)⟩
          rw [owned]
          rfl
        · obtain ⟨isImported, isTouched⟩ := batch.flagged other isLater number flag owned
          exact ⟨isImported, List.mem_append_right _ isTouched⟩

/-- A number is reported if it has two owners and one of them was imported. -/
private theorem collision_ne_none (numbered : tracker.Numbered) {number : Nat} :
    tracker.collision number ≠ none ↔ ∃ first second, first ≠ second ∧
      tracker.ownedBy number first = some true ∧ (tracker.ownedBy number second).isSome := by
  rw [collision]
  cases isOwners : tracker.owners[number]? with
  | none => simp [ownedBy, isOwners]
  | some owners =>
      have isGet : ∀ own, tracker.ownedBy number own = owners.get own := by
        intro own
        rw [ownedBy, isOwners, Option.bind_some]
      have shared : (2 ≤ owners.entries.length ∧ owners.entries.any fun owner => owner.2) ↔
          ∃ first second, first ≠ second ∧ owners.get first = some true ∧
            (owners.get second).isSome := by
        constructor
        · rintro ⟨several, someImported⟩
          obtain ⟨⟨first, flag⟩, isFirst, isImported⟩ := List.any_eq_true.mp someImported
          obtain ⟨other, isOther, apart⟩ : ∃ other ∈ owners.keys, first ≠ other := by
            by_contra alone
            push Not at alone
            have only : owners.keys ⊆ [first] := fun other member =>
              List.mem_singleton.mpr (alone other member).symm
            have short := owners.keys_nodup.length_le_of_subset only
            rw [SortedMap.keys, List.length_map, List.length_singleton] at short
            omega
          refine ⟨first, other, apart, ?_, ?_⟩
          · rw [← isImported]
            exact SortedMap.get_eq_some_iff.mpr isFirst
          · exact Option.isSome_iff_ne_none.mpr (SortedMap.mem_keys.mp isOther)
        · rintro ⟨first, second, apart, isFirst, isSecond⟩
          obtain ⟨flag, isSecond⟩ := Option.isSome_iff_exists.mp isSecond
          have firstEntry := SortedMap.get_eq_some_iff.mp isFirst
          have secondEntry := SortedMap.get_eq_some_iff.mp isSecond
          refine ⟨?_, List.any_eq_true.mpr ⟨_, firstEntry, rfl⟩⟩
          rcases shown : owners.entries with _ | ⟨only, _ | ⟨next, rest⟩⟩
          · rw [shown] at firstEntry
            cases firstEntry
          · rw [shown, List.mem_singleton] at firstEntry secondEntry
            exact absurd (congrArg Prod.fst (firstEntry.trans secondEntry.symm)) apart
          · simp
      simp only [isGet, ← shared, Option.bind_eq_bind, Option.bind_some]
      by_cases reports : 2 ≤ owners.entries.length ∧ owners.entries.any fun owner => owner.2
      · obtain ⟨first, -, -, isFirst, -⟩ := shared.mp reports
        obtain ⟨claim, isClaim⟩ := @Numbered.exists_claimAt tracker number numbered first (by
          rw [isGet, isFirst]
          rfl)
        obtain ⟨pair, isKey, isPair⟩ := claimAt_eq_some.mp isClaim
        have silent : ¬ (owners.entries.length < 2 ∨ ¬ owners.entries.any fun owner => owner.2) := by
          rintro (few | unimported)
          · omega
          · exact unimported reports.2
        simp only [if_neg silent, isKey, isPair, Option.bind_some]
        exact iff_of_true (Option.some_ne_none _) reports
      · have silent : owners.entries.length < 2 ∨ ¬ owners.entries.any fun owner => owner.2 := by
          by_contra loud
          push Not at loud
          exact reports loud
        simp only [if_pos silent, reports]
        simp

/-- A node in focus lacks something, or shares a claim with another node. -/
def Breached (labels : SortedMap String LabelDef) (nodes : NodeMap) (focus : List Bytes) : Prop :=
  (∃ key ∈ focus, ∃ record node decl, nodes.get key = some record ∧
    NodeKey.decode key = .ok node ∧ labels.get node.label = some decl ∧
      missingRequired decl record ≠ []) ∨
  ∃ first ∈ focus, ∃ second claim, first ≠ second ∧ Holds labels nodes first claim ∧
    Holds labels nodes second claim

theorem Tracks.applyBatch (tracks : Tracks labels tracker nodes)
    {puts : List (NodeKey × NodeRecord)} {violations : List ConstraintViolation}
    (judges : tracker.applyBatch labels puts = .ok (violations, next))
    {surviving : SortedMap Bytes (NodeKey × NodeRecord)} (made : survivors puts = .ok surviving) :
    Describes labels next (written nodes surviving) ∧
      (violations ≠ [] ↔ Breached labels (written nodes surviving) surviving.keys) ∧
        (violations = [] → Tracks labels next (written nodes surviving)) := by
  rw [UniqueTracker.applyBatch, made, ok_bind] at judges
  obtain ⟨⟨breaches, touched, last⟩, claims, ⟨⟩⟩ := bind_eq_ok.mp judges
  have encoded : ∀ row ∈ surviving.entries, row.2.1.encode = .ok row.1 := fun row member =>
    survivors_encode made (SortedMap.get_eq_some_iff.mpr member)
  obtain ⟨describes, turn⟩ := claimBatch_describes tracks.describes tracks.watches encoded
    (surviving.ascending.imp ne_of_lt) claims
  rw [← written] at describes
  have inBatch : ∀ {own}, own ∈ surviving.keys ↔ ∃ row ∈ surviving.entries, row.1 = own :=
    List.mem_map
  have flagged : ∀ {number own flag}, own ∈ surviving.keys →
      next.ownedBy number own = some flag → flag = true ∧ number ∈ touched := by
    intro number own flag member owned
    obtain ⟨row, isRow, rfl⟩ := inBatch.mp member
    exact turn.flagged row isRow number flag owned
  have kept : ∀ {number own}, own ∉ surviving.keys →
      next.ownedBy number own = tracker.ownedBy number own := by
    intro number own outside
    exact turn.others number own fun row isRow same => outside (inBatch.mpr ⟨row, isRow, same⟩)
  have inFocus : ∀ {number first second}, first ≠ second → next.ownedBy number first = some true →
      (next.ownedBy number second).isSome → first ∈ surviving.keys ∨ second ∈ surviving.keys := by
    intro number first second apart isFirst isSecond
    by_contra neither
    obtain ⟨outside, alsoOutside⟩ := not_or.mp neither
    rw [kept outside] at isFirst
    rw [kept alsoOutside] at isSecond
    exact apart (tracks.settled number first second isFirst isSecond)
  have lacking : breaches ≠ [] ↔ ∃ key ∈ surviving.keys, ∃ record node decl,
      (written nodes surviving).get key = some record ∧ NodeKey.decode key = .ok node ∧
        labels.get node.label = some decl ∧ missingRequired decl record ≠ [] := by
    have isMissing : ∀ {node : NodeKey} {record : NodeRecord}, missing labels node record ≠ [] ↔
        ∃ decl, labels.get node.label = some decl ∧ missingRequired decl record ≠ [] := by
      intro node record
      rw [missing]
      cases labels.get node.label <;> simp
    rw [claimBatch_violations claims, Ne, List.flatMap_eq_nil_iff]
    push Not
    constructor
    · rintro ⟨put, member, lacks⟩
      obtain ⟨row, isRow, rfl⟩ := List.mem_map.mp member
      obtain ⟨decl, declared, lacks⟩ := isMissing.mp lacks
      obtain ⟨stored, decodes, sameLabel, -⟩ := NodeKey.decode_of_encode (encoded row isRow)
      refine ⟨row.1, inBatch.mpr ⟨row, isRow, rfl⟩, row.2.2, stored, decl, ?_, decodes,
        sameLabel ▸ declared, lacks⟩
      rw [get_written, SortedMap.get_eq_some_iff.mpr isRow]
      rfl
    · rintro ⟨key, member, record, node, decl, found, decodes, declared, lacks⟩
      obtain ⟨row, isRow, rfl⟩ := inBatch.mp member
      obtain ⟨stored, alsoDecodes, sameLabel, -⟩ := NodeKey.decode_of_encode (encoded row isRow)
      rw [decodes, Except.ok.injEq] at alsoDecodes
      subst alsoDecodes
      rw [get_written, SortedMap.get_eq_some_iff.mpr isRow] at found
      cases found
      exact ⟨row.2, List.mem_map.mpr ⟨row, isRow, rfl⟩,
        isMissing.mpr ⟨decl, sameLabel ▸ declared, lacks⟩⟩
  have colliding : (touched.mergeSort.dedup).filterMap next.collision ≠ [] ↔
      ∃ first ∈ surviving.keys, ∃ second claim, first ≠ second ∧
        Holds labels (written nodes surviving) first claim ∧
          Holds labels (written nodes surviving) second claim := by
    have reported : (touched.mergeSort.dedup).filterMap next.collision ≠ [] ↔
        ∃ number ∈ touched, next.collision number ≠ none := by
      rw [Ne, List.filterMap_eq_nil_iff]
      push Not
      simp only [List.mem_dedup, List.mem_mergeSort]
    rw [reported]
    constructor
    · rintro ⟨number, -, collides⟩
      obtain ⟨first, second, apart, isFirst, isSecond⟩ :=
        (collision_ne_none describes.numbered).mp collides
      obtain ⟨claim, isClaim, firstHolds⟩ := describes.owners.mp (by
        rw [isFirst]
        rfl : (next.ownedBy number first).isSome)
      obtain ⟨again, isAgain, secondHolds⟩ := describes.owners.mp isSecond
      rw [isClaim, Option.some.injEq] at isAgain
      subst isAgain
      rcases inFocus apart isFirst isSecond with focused | focused
      · exact ⟨first, focused, second, claim, apart, firstHolds, secondHolds⟩
      · exact ⟨second, focused, first, claim, apart.symm, secondHolds, firstHolds⟩
    · rintro ⟨first, focused, second, claim, apart, firstHolds, secondHolds⟩
      obtain ⟨number, isNumber⟩ := describes.known firstHolds
      obtain ⟨flag, isFirst⟩ := Option.isSome_iff_exists.mp
        (describes.owners.mpr ⟨claim, isNumber, firstHolds⟩)
      obtain ⟨rfl, isTouched⟩ := flagged focused isFirst
      refine ⟨number, isTouched, (collision_ne_none describes.numbered).mpr
        ⟨first, second, apart, isFirst, describes.owners.mpr ⟨claim, isNumber, secondHolds⟩⟩⟩
  refine ⟨describes, ?_, ?_⟩
  · rw [Ne, List.append_eq_nil_iff, not_and_or, ← Ne, ← Ne, lacking, colliding, Breached]
  · intro clean
    obtain ⟨-, quiet⟩ := List.append_eq_nil_iff.mp clean
    refine ⟨describes, ?_, tracks.watches.imp_left fun active => turn.active.trans active⟩
    intro number first second isFirst isSecond
    by_contra apart
    have isTouched : number ∈ touched := by
      rcases inFocus apart isFirst isSecond with focused | focused
      · exact (flagged focused isFirst).2
      · obtain ⟨flag, owned⟩ := Option.isSome_iff_exists.mp isSecond
        exact (flagged focused owned).2
    have silent := List.filterMap_eq_nil_iff.mp quiet number (by
      rw [List.mem_dedup, List.mem_mergeSort]
      exact isTouched)
    exact (collision_ne_none describes.numbered).mpr ⟨first, second, apart, isFirst, isSecond⟩
      silent

/-- The claims of a version that the tables describe fit the numbering. -/
theorem Limited.enumerated (limited : tracker.Limited)
    (describes : Describes labels tracker nodes) : Enumerated (Holds labels nodes) := by
  have numbered : ∀ own claim, Holds labels nodes own claim →
      ∃ pair number : Nat, tracker.claimKeys[number]? = some (pair, claim.2.2) ∧
        tracker.pairs[pair]? = some (claimPair claim) := by
    intro own claim isHeld
    obtain ⟨number, isClaim⟩ := describes.known isHeld
    obtain ⟨pair, isKey, isPair⟩ := claimAt_eq_some.mp isClaim
    exact ⟨pair, number, isKey, isPair⟩
  constructor
  · refine ⟨tracker.pairs, limited.pairs, ?_⟩
    intro own claim isHeld
    obtain ⟨pair, number, -, isPair⟩ := numbered own claim isHeld
    exact List.mem_of_getElem? isPair
  · refine ⟨tracker.claimKeys.map tracker.named, ?_, ?_⟩
    · rw [List.length_map]
      exact limited.claims
    · intro own claim isHeld
      obtain ⟨pair, number, isKey, isPair⟩ := numbered own claim isHeld
      refine List.mem_map.mpr ⟨_, List.mem_of_getElem? isKey, ?_⟩
      rw [named, isPair]
      rfl

/-- A batch that nothing is reported of leaves the constraints obeyed and the
tables true. -/
theorem Tracks.kept (tracks : Tracks labels tracker nodes) (obeys : Obeys labels nodes)
    {puts : List (NodeKey × NodeRecord)}
    (clean : tracker.applyBatch labels puts = .ok ([], next))
    {surviving : SortedMap Bytes (NodeKey × NodeRecord)} (made : survivors puts = .ok surviving)
    {after : NodeMap}
    (results : ∀ key, after.get key = ((surviving.get key).map Prod.snd).or (nodes.get key)) :
    Obeys labels after ∧ Tracks labels next after := by
  obtain rfl : after = written nodes surviving :=
    SortedMap.ext_get fun key => (results key).trans (get_written nodes surviving key).symm
  obtain ⟨-, reported, follows⟩ := tracks.applyBatch clean made
  have unbreached : ¬ Breached labels (written nodes surviving) surviving.keys :=
    fun breached => reported.mpr breached rfl
  refine ⟨?_, follows rfl⟩
  apply obeys.of_written surviving.keys
  case untouched =>
    intro key unwritten record found
    rw [SortedMap.mem_keys, not_not] at unwritten
    rwa [results, unwritten] at found
  case required =>
    intro key isWritten record node decl found decodes declared
    by_contra lacks
    exact unbreached (.inl ⟨key, isWritten, record, node, decl, found, decodes, declared, lacks⟩)
  case unique =>
    intro first isWritten second record other node rival found decodes alsoFound alsoDecodes
      apart claim isClaim alsoClaim
    exact unbreached (.inr ⟨first, isWritten, second, claim, apart,
      ⟨record, node, found, decodes, isClaim⟩, other, rival, alsoFound, alsoDecodes, alsoClaim⟩)

/-- The check of the nodes reports existence and UNIQUE where a node in focus is breached. -/
theorem checkNodes_breached {focus : List Bytes} {rows : List (Bytes × NodeKey × NodeRecord)}
    (named : ∀ label decl, labels.get label = some decl → decl.unique.Nodup)
    (reads : allNodes nodes = .ok rows) :
    (∃ violation ∈ checkNodes labels rows (some focus), ¬ violation.isTypeBreach) ↔
      Breached labels nodes focus := by
  have distinct : (rows.map Prod.fst).Nodup := by
    rw [allNodes_keys reads]
    exact nodes.keys_nodup
  rw [checkNodes_constraints distinct named, Breached]
  apply or_congr
  · constructor
    · rintro ⟨⟨key, node, record⟩, isRow, focused, decl, declared, lacks⟩
      obtain ⟨found, decodes⟩ := (mem_allNodes reads).mp isRow
      exact ⟨key, focused, record, node, decl, found, decodes, declared, lacks⟩
    · rintro ⟨key, focused, record, node, decl, found, decodes, declared, lacks⟩
      exact ⟨(key, node, record), (mem_allNodes reads).mpr ⟨found, decodes⟩, focused, decl,
        declared, lacks⟩
  · constructor
    · rintro ⟨⟨first, node, record⟩, isFirst, ⟨second, rival, other⟩, isSecond, focused, apart,
        claim, isClaim, alsoClaim⟩
      obtain ⟨found, decodes⟩ := (mem_allNodes reads).mp isFirst
      obtain ⟨alsoFound, alsoDecodes⟩ := (mem_allNodes reads).mp isSecond
      exact ⟨first, focused, second, claim, apart, ⟨record, node, found, decodes, isClaim⟩,
        other, rival, alsoFound, alsoDecodes, alsoClaim⟩
    · rintro ⟨first, focused, second, claim, apart, ⟨record, node, found, decodes, isClaim⟩,
        other, rival, alsoFound, alsoDecodes, alsoClaim⟩
      exact ⟨(first, node, record), (mem_allNodes reads).mpr ⟨found, decodes⟩,
        (second, rival, other), (mem_allNodes reads).mpr ⟨alsoFound, alsoDecodes⟩, focused, apart,
        claim, isClaim, alsoClaim⟩

end

end UniqueTracker

end Acetone.Graph

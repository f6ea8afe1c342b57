import Acetone.Graph.MergeSpec
import Acetone.Graph.Scans

/-!
# The surfaces that check constraints

Beside the check of a whole node set: the guard of a single write, the check of
a (re)declared label over the stored nodes, and the tracker of a streamed
import.  Each judges on its own whether a required property is there.
-/

namespace Acetone.Graph

open Acetone.Lib Acetone.Model

/-- Nothing is declared that could be breached. -/
def unconstrained (decl : LabelDef) : Bool :=
  decl.existence.isEmpty ∧ decl.unique.isEmpty ∧ decl.types.entries.isEmpty

def labelRows (nodes : NodeMap) (label : String) : List (Bytes × NodeRecord) :=
  scanPrefix nodes (nodeLabelPrefix label)

def wantedValues (decl : LabelDef) (record : NodeRecord) : Properties :=
  .ofList (decl.unique.filterMap fun property =>
    (record.properties.get property).map fun value => (property, value))

def otherHolders (rows : List (Bytes × NodeRecord)) (own : Bytes) (property : String)
    (value : StoredValue) : Except GraphError (List Bytes) :=
  gather (fun (key, other) =>
    if key ≠ own ∧ other.properties.get property = some value then do
      let _ ← liftKey (NodeKey.decode key)
      .ok [key]
    else .ok []) rows

def focusCollision (rows : List (Bytes × NodeRecord)) (own : Bytes) (label property : String)
    (value : StoredValue) : Except GraphError (List ConstraintViolation) := do
  let others ← otherHolders rows own property value
  .ok (if others = [] then []
    else [.unique label property value
      (others.takeWhile (· < own) ++ own :: others.dropWhile (· < own))])

/-- The definition of a label in the schema. -/
def declaredFor (snapshot : Manifest) (label : String) : Option LabelDef :=
  ((schemaEntries snapshot.schema).filterMap labelPair?).lookup label

/-- Judge the write of one node, against the nodes as they would be after
it. -/
def checkUpsert (snapshot : Manifest) (key : NodeKey) (record : NodeRecord) :
    Except GraphError (List ConstraintViolation) :=
  match declaredFor snapshot key.label with
  | none => .ok []
  | some decl =>
      if unconstrained decl then .ok []
      else do
        let own ← liftKey key.encode
        let rows := labelRows snapshot.nodes key.label
        let collisions ← gather
          (fun (property, value) => focusCollision rows own key.label property value)
          (wantedValues decl record).entries
        .ok (nodeViolations key record decl ++ collisions)

/-- Judge the stored nodes of a label under a definition. -/
def checkLabel (snapshot : Manifest) (label : String) (decl : LabelDef) :
    Except GraphError (List ConstraintViolation) :=
  if unconstrained decl then .ok []
  else do
    let nodes ← (labelRows snapshot.nodes label).mapM fun (key, record) => do
      let node ← liftKey (NodeKey.decode key)
      .ok (key, node, record)
    let claims := nodes.flatMap fun (key, _, record) =>
      (uniqueClaims decl label record).map fun claim => (claim, key)
    .ok (nodes.flatMap (fun (_, node, record) => nodeViolations node record decl) ++
      (collisions claims).map fun (claim, members) =>
        .unique label claim.2.1 claim.2.2 members)

inductive ImportError where
  | tooManyPairs
  | tooManyClaims
  | graph (cause : GraphError)
deriving DecidableEq

def ofGraphError {α : Type} (result : Except GraphError α) : Except ImportError α :=
  result.mapError .graph

/-- The claims seen so far.  A claim is a pair of a label and a property, by its
number, and a value; its owners are flagged if they were imported. -/
structure UniqueTracker where
  pairs : List (String × String)
  claimKeys : List (Nat × StoredValue)
  owners : List (SortedMap Bytes Bool)
  byKey : SortedMap Bytes (List Nat)
  active : Bool

namespace UniqueTracker

def pairId (tracker : UniqueTracker) (label property : String) :
    Except ImportError (Nat × UniqueTracker) :=
  match tracker.pairs.idxOf? (label, property) with
  | some id => .ok (id, tracker)
  | none =>
      if tracker.pairs.length ≥ 2 ^ 16 then .error .tooManyPairs
      else .ok (tracker.pairs.length,
        { tracker with pairs := tracker.pairs ++ [(label, property)] })

def claimId (tracker : UniqueTracker) (pair : Nat) (value : StoredValue) :
    Except ImportError (Nat × UniqueTracker) :=
  match tracker.claimKeys.idxOf? (pair, value) with
  | some id => .ok (id, tracker)
  | none =>
      if tracker.owners.length ≥ 2 ^ 32 then .error .tooManyClaims
      else .ok (tracker.owners.length, { tracker with
        claimKeys := tracker.claimKeys ++ [(pair, value)]
        owners := tracker.owners ++ [.empty] })

/-- Give up what a key held. -/
def unclaim (tracker : UniqueTracker) (own : Bytes) : UniqueTracker :=
  let previous := (tracker.byKey.get own).getD []
  { tracker with
    owners := previous.foldl (fun owners claim => owners.modify claim (·.delete own))
      tracker.owners
    byKey := tracker.byKey.delete own }

def claimAll (label : String) (record : NodeRecord) (own : Bytes) (imported : Bool) :
    UniqueTracker → List String → Except ImportError (List Nat × UniqueTracker)
  | tracker, [] => .ok ([], tracker)
  | tracker, property :: properties =>
      match record.properties.get property with
      | none => claimAll label record own imported tracker properties
      | some value => do
          let (pair, tracker) ← tracker.pairId label property
          let (claim, tracker) ← tracker.claimId pair value
          let tracker := { tracker with
            owners := tracker.owners.modify claim (·.put own imported) }
          let (held, tracker) ← claimAll label record own imported tracker properties
          .ok (claim :: held, tracker)

/-- Register the claims of a node in place of those it held; the numbers of the
claims touched. -/
def claim (tracker : UniqueTracker) (labels : SortedMap String LabelDef) (key : NodeKey)
    (record : NodeRecord) (imported : Bool) : Except ImportError (List Nat × UniqueTracker) :=
  match labels.get key.label with
  | none => .ok ([], tracker)
  | some decl =>
      if decl.unique.isEmpty then .ok ([], tracker)
      else do
        let own ← ofGraphError (liftKey key.encode)
        let previous := (tracker.byKey.get own).getD []
        let (held, tracker) ←
          claimAll key.label record own imported (tracker.unclaim own) decl.unique
        .ok (previous ++ held, { tracker with byKey := tracker.byKey.put own held })

def seedRow (labels : SortedMap String LabelDef) (tracker : UniqueTracker)
    (row : Bytes × NodeRecord) : Except ImportError UniqueTracker := do
  let key ← ofGraphError (liftKey (NodeKey.decode row.1))
  match labels.get key.label with
  | none => .ok tracker
  | some decl =>
      if decl.unique.isEmpty then .ok tracker
      else do
        let (_, tracker) ← tracker.claim labels key row.2 false
        .ok tracker

def seed (labels : SortedMap String LabelDef) (nodes : NodeMap) :
    Except ImportError UniqueTracker :=
  let tracker : UniqueTracker :=
    ⟨[], [], [], .empty, labels.entries.any fun entry => ¬ entry.2.unique.isEmpty⟩
  if ¬ tracker.active then .ok tracker
  else nodes.entries.foldlM (seedRow labels) tracker

/-- A claim with several owners, one of them imported. -/
def collision (tracker : UniqueTracker) (claim : Nat) : Option ConstraintViolation := do
  let owners ← tracker.owners[claim]?
  if owners.entries.length < 2 ∨ ¬ owners.entries.any (fun owner => owner.2) then none
  else do
    let (pair, value) ← tracker.claimKeys[claim]?
    let (label, property) ← tracker.pairs[pair]?
    some (.unique label property value owners.keys)

def missing (labels : SortedMap String LabelDef) (key : NodeKey) (record : NodeRecord) :
    List ConstraintViolation :=
  match labels.get key.label with
  | none => []
  | some decl => (missingRequired decl record).map (.missingRequired key)

/-- Claims are tracked if any label declares UNIQUE. -/
def register (tracker : UniqueTracker) (labels : SortedMap String LabelDef) (key : NodeKey)
    (record : NodeRecord) : Except ImportError (List Nat × UniqueTracker) :=
  if tracker.active then tracker.claim labels key record true else .ok ([], tracker)

def claimBatch (labels : SortedMap String LabelDef) :
    UniqueTracker → List (NodeKey × NodeRecord) →
      Except ImportError (List ConstraintViolation × List Nat × UniqueTracker)
  | tracker, [] => .ok ([], [], tracker)
  | tracker, (key, record) :: puts => do
      let (touched, tracker) ← tracker.register labels key record
      let (violations, later, tracker) ← claimBatch labels tracker puts
      .ok (missing labels key record ++ violations, touched ++ later, tracker)

/-- A batch with the keys of its nodes; the last record of a key counts. -/
def survivors (puts : List (NodeKey × NodeRecord)) :
    Except ImportError (SortedMap Bytes (NodeKey × NodeRecord)) := do
  let rows ← puts.mapM fun put => do
    let key ← ofGraphError (liftKey put.1.encode)
    .ok (key, put)
  .ok (.ofList rows)

/-- Judge a batch of an import, in the order of the keys. -/
def applyBatch (tracker : UniqueTracker) (labels : SortedMap String LabelDef)
    (puts : List (NodeKey × NodeRecord)) :
    Except ImportError (List ConstraintViolation × UniqueTracker) := do
  let surviving ← survivors puts
  let (violations, touched, tracker) ←
    claimBatch labels tracker (surviving.entries.map Prod.snd)
  .ok (violations ++ (touched.mergeSort.dedup).filterMap tracker.collision, tracker)

end UniqueTracker

theorem mem_missingRequired {decl : LabelDef} {record : NodeRecord} {property : String} :
    property ∈ missingRequired decl record ↔
      property ∈ decl.existence ∧ ¬ present decl record property := by
  rw [missingRequired, List.mem_filter, decide_eq_true_iff]

theorem missingRequired_mem_nodeViolations {node : NodeKey} {record : NodeRecord}
    {decl : LabelDef} {property : String} :
    .missingRequired node property ∈ nodeViolations node record decl ↔
      property ∈ missingRequired decl record := by
  simp [nodeViolations]

private theorem unconstrained_missing {decl : LabelDef} (free : unconstrained decl)
    (record : NodeRecord) : missingRequired decl record = [] := by
  have none : decl.existence = [] := List.isEmpty_iff.mp (of_decide_eq_true free).1
  rw [missingRequired, none]
  rfl

private theorem focusCollision_unique {rows : List (Bytes × NodeRecord)} {own : Bytes}
    {label property : String} {value : StoredValue} {found : List ConstraintViolation}
    (scans : focusCollision rows own label property value = .ok found)
    {violation : ConstraintViolation} (member : violation ∈ found) :
    ∃ members, violation = .unique label property value members := by
  obtain ⟨others, -, ⟨⟩⟩ := bind_eq_ok.mp scans
  split at member
  · cases member
  · exact ⟨_, List.mem_singleton.mp member⟩

theorem checkUpsert_missing {snapshot : Manifest} {key : NodeKey} {record : NodeRecord}
    {decl : LabelDef} (declared : declaredFor snapshot key.label = some decl)
    {violations : List ConstraintViolation}
    (judges : checkUpsert snapshot key record = .ok violations) {property : String} :
    .missingRequired key property ∈ violations ↔ property ∈ missingRequired decl record := by
  simp only [checkUpsert, declared] at judges
  split at judges
  · next free =>
      cases judges
      rw [unconstrained_missing free]
      simp
  · obtain ⟨own, -, judges⟩ := bind_eq_ok.mp judges
    obtain ⟨collisions, scans, ⟨⟩⟩ := bind_eq_ok.mp judges
    rw [List.mem_append, missingRequired_mem_nodeViolations]
    constructor
    · rintro (missing | collides)
      · exact missing
      · obtain ⟨entry, -, found, fromEntry, inside⟩ := (mem_gather scans).mp collides
        obtain ⟨members, ⟨⟩⟩ := focusCollision_unique fromEntry inside
    · exact .inl

theorem checkLabel_missing {snapshot : Manifest} {label : String} {decl : LabelDef}
    {violations : List ConstraintViolation}
    (judges : checkLabel snapshot label decl = .ok violations) {key : Bytes} {node : NodeKey}
    {record : NodeRecord} (isRow : (key, record) ∈ labelRows snapshot.nodes label)
    (decodes : NodeKey.decode key = .ok node) {property : String} :
    .missingRequired node property ∈ violations ↔ property ∈ missingRequired decl record := by
  rw [checkLabel] at judges
  split at judges
  · next free =>
      cases judges
      rw [unconstrained_missing free]
      simp
  · obtain ⟨nodes, reads, ⟨⟩⟩ := bind_eq_ok.mp judges
    have isNode : ∀ {row : Bytes × NodeKey × NodeRecord}, row ∈ nodes →
        (row.1, row.2.2) ∈ labelRows snapshot.nodes label ∧
          NodeKey.decode row.1 = .ok row.2.1 := by
      intro row member
      obtain ⟨pair, inside, made⟩ := exists_of_mem_mapM reads member
      obtain ⟨found, isFound, ⟨⟩⟩ := bind_eq_ok.mp made
      exact ⟨inside, liftKey_eq_ok.mp isFound⟩
    rw [List.mem_append]
    constructor
    · rintro (breach | collides)
      · obtain ⟨⟨otherKey, other, otherRecord⟩, member, breached⟩ := List.mem_flatMap.mp breach
        have sameNode : node = other := by
          rcases List.mem_append.mp breached with missing | wrong
          · obtain ⟨_, -, ⟨⟩⟩ := List.mem_map.mp missing
            rfl
          · obtain ⟨_, -, ⟨⟩⟩ := List.mem_map.mp wrong
        subst sameNode
        obtain ⟨inside, isKey⟩ := isNode member
        have sameKey : key = otherKey := Except.ok.inj
          ((NodeKey.encode_of_decode decodes).symm.trans (NodeKey.encode_of_decode isKey))
        have sameRecord : record = otherRecord := by
          have left := SortedMap.get_eq_some_iff.mpr (mem_scanPrefix.mp isRow).1
          have right := SortedMap.get_eq_some_iff.mpr (mem_scanPrefix.mp inside).1
          rw [sameKey] at left
          exact Option.some.inj (left.symm.trans right)
        rw [sameRecord]
        exact missingRequired_mem_nodeViolations.mp breached
      · obtain ⟨_, -, ⟨⟩⟩ := List.mem_map.mp collides
    · intro missing
      obtain ⟨row, member, made⟩ := mem_of_mapM_eq_ok reads isRow
      simp only [decodes, liftKey, ok_bind, Except.ok.injEq] at made
      subst made
      exact .inl (List.mem_flatMap.mpr
        ⟨_, member, missingRequired_mem_nodeViolations.mpr missing⟩)

/-- Of a node that changed or is newly held to a property, the merge reports
what is missing. -/
theorem missingRequiredOf_missing {base merged : Manifest}
    {nodes : List (Bytes × NodeKey × NodeRecord)} (reads : allNodes merged.nodes = .ok nodes)
    {key : Bytes} {node : NodeKey} {record : NodeRecord}
    (found : merged.nodes.get key = some record) (decodes : NodeKey.decode key = .ok node)
    {decl : LabelDef} (declared : (labelDefs merged.schema).get node.label = some decl)
    {property : String} (responsible : key ∈ changedKeys base.nodes merged.nodes ∨
      ∀ before, (labelDefs base.schema).get node.label = some before →
        property ∉ before.existence) :
    .missingRequired key property ∈ missingRequiredOf base merged nodes ↔
      property ∈ missingRequired decl record := by
  have newly : (∀ before, (labelDefs base.schema).get node.label = some before →
      property ∉ before.existence) → ((labelDefs base.schema).get node.label).all
        fun before => decide (property ∉ before.existence) := by
    intro unrequired
    cases earlier : (labelDefs base.schema).get node.label with
    | none => rfl
    | some before => exact decide_eq_true (unrequired before earlier)
  rw [missingRequiredOf, List.mem_flatMap]
  constructor
  · rintro ⟨⟨otherKey, other, otherRecord⟩, member, reported⟩
    obtain ⟨otherFound, otherDecodes⟩ := (mem_allNodes reads).mp member
    dsimp only at reported
    split at reported
    · cases reported
    · next otherDecl isDecl =>
        obtain ⟨missing, isMissing, isReport⟩ := List.mem_filterMap.mp reported
        split at isReport
        · cases isReport
          rw [found, Option.some.injEq] at otherFound
          rw [decodes, Except.ok.injEq] at otherDecodes
          subst otherFound otherDecodes
          rw [declared, Option.some.injEq] at isDecl
          exact isDecl ▸ isMissing
        · cases isReport
  · intro missing
    refine ⟨_, (mem_allNodes reads).mpr ⟨found, decodes⟩, ?_⟩
    simp only [declared]
    refine List.mem_filterMap.mpr ⟨property, missing, if_pos ?_⟩
    exact responsible.imp_right newly

namespace UniqueTracker

theorem claimBatch_violations {labels : SortedMap String LabelDef}
    {tracker after : UniqueTracker} {puts : List (NodeKey × NodeRecord)}
    {violations : List ConstraintViolation} {touched : List Nat}
    (claims : claimBatch labels tracker puts = .ok (violations, touched, after)) :
    violations = puts.flatMap fun put => missing labels put.1 put.2 := by
  induction puts generalizing tracker violations touched with
  | nil =>
      cases claims
      rfl
  | cons put puts ih =>
      rw [claimBatch] at claims
      obtain ⟨⟨first, next⟩, -, claims⟩ := bind_eq_ok.mp claims
      obtain ⟨⟨others, later, last⟩, rest, ⟨⟩⟩ := bind_eq_ok.mp claims
      rw [List.flatMap_cons, ← ih rest]

private theorem collision_unique {tracker : UniqueTracker} {claim : Nat}
    {violation : ConstraintViolation} (found : tracker.collision claim = some violation) :
    ∃ label property value members, violation = .unique label property value members := by
  simp only [collision, Option.bind_eq_bind, Option.bind_eq_some_iff] at found
  obtain ⟨owners, -, found⟩ := found
  split at found
  · cases found
  · obtain ⟨⟨pair, value⟩, -, ⟨label, property⟩, -, ⟨⟩⟩ :=
      by simpa only [Option.bind_eq_some_iff] using found
    exact ⟨label, property, value, _, rfl⟩

/-- A batch keeps nodes that it has, each under its key. -/
private theorem exists_of_survivors {puts : List (NodeKey × NodeRecord)}
    {surviving : SortedMap Bytes (NodeKey × NodeRecord)} (made : survivors puts = .ok surviving)
    {bytes : Bytes} {put : NodeKey × NodeRecord} (found : surviving.get bytes = some put) :
    put ∈ puts ∧ put.1.encode = .ok bytes := by
  obtain ⟨rows, reads, ⟨⟩⟩ := bind_eq_ok.mp made
  rw [SortedMap.get_ofList] at found
  obtain ⟨row, isLast, rfl⟩ := Option.map_eq_some_iff.mp found
  obtain ⟨isRow, rfl⟩ := key_of_lastFor Prod.fst isLast
  obtain ⟨other, isPut, made⟩ := exists_of_mem_mapM reads isRow
  obtain ⟨encoded, encodes, ⟨⟩⟩ := bind_eq_ok.mp made
  exact ⟨isPut, liftKey_eq_ok.mp (mapError_eq_ok.mp encodes)⟩

theorem survivors_encode {puts : List (NodeKey × NodeRecord)}
    {surviving : SortedMap Bytes (NodeKey × NodeRecord)} (made : survivors puts = .ok surviving)
    {bytes : Bytes} {key : NodeKey} {record : NodeRecord}
    (found : surviving.get bytes = some (key, record)) : key.encode = .ok bytes :=
  (exists_of_survivors made found).2

theorem mem_of_survivors {puts : List (NodeKey × NodeRecord)}
    {surviving : SortedMap Bytes (NodeKey × NodeRecord)} (made : survivors puts = .ok surviving)
    {bytes : Bytes} {put : NodeKey × NodeRecord} (found : surviving.get bytes = some put) :
    put ∈ puts :=
  (exists_of_survivors made found).1

theorem applyBatch_missing {tracker after : UniqueTracker} {labels : SortedMap String LabelDef}
    {puts : List (NodeKey × NodeRecord)} {violations : List ConstraintViolation}
    (judges : applyBatch tracker labels puts = .ok (violations, after))
    {surviving : SortedMap Bytes (NodeKey × NodeRecord)} (made : survivors puts = .ok surviving)
    {bytes : Bytes} {key : NodeKey} {record : NodeRecord}
    (found : surviving.get bytes = some (key, record)) {decl : LabelDef}
    (declared : labels.get key.label = some decl) {property : String} :
    .missingRequired key property ∈ violations ↔ property ∈ missingRequired decl record := by
  rw [applyBatch, made, ok_bind] at judges
  obtain ⟨⟨breaches, touched, last⟩, claims, ⟨⟩⟩ := bind_eq_ok.mp judges
  rw [List.mem_append, claimBatch_violations claims]
  have isMissing : ∀ {other : NodeKey} {otherRecord : NodeRecord},
      .missingRequired key property ∈ missing labels other otherRecord ↔
        other = key ∧ property ∈ missingRequired decl otherRecord := by
    intro other otherRecord
    rw [missing]
    split
    · next undeclared =>
        constructor
        · nofun
        · rintro ⟨rfl, -⟩
          rw [declared] at undeclared
          cases undeclared
    · next otherDecl isDecl =>
        simp only [List.mem_map, ConstraintViolation.missingRequired.injEq]
        constructor
        · rintro ⟨_, isMissing, rfl, rfl⟩
          rw [declared, Option.some.injEq] at isDecl
          exact ⟨rfl, isDecl ▸ isMissing⟩
        · rintro ⟨rfl, isMissing⟩
          rw [declared, Option.some.injEq] at isDecl
          exact ⟨property, isDecl ▸ isMissing, rfl, rfl⟩
  constructor
  · rintro (breach | collides)
    · obtain ⟨⟨other, otherRecord⟩, member, breached⟩ := List.mem_flatMap.mp breach
      obtain ⟨rfl, missing⟩ := isMissing.mp breached
      obtain ⟨⟨otherBytes, _⟩, isRow, ⟨⟩⟩ := List.mem_map.mp member
      have again := SortedMap.get_eq_some_iff.mpr isRow
      have sameBytes : otherBytes = bytes := Except.ok.inj
        ((survivors_encode made again).symm.trans (survivors_encode made found))
      rw [sameBytes, found, Option.some.injEq, Prod.mk.injEq] at again
      rw [again.2]
      exact missing
    · obtain ⟨claim, -, isCollision⟩ := List.mem_filterMap.mp collides
      obtain ⟨_, _, _, _, ⟨⟩⟩ := collision_unique isCollision
  · intro missing
    refine .inl (List.mem_flatMap.mpr ⟨(key, record), ?_, isMissing.mpr ⟨rfl, missing⟩⟩)
    exact List.mem_map.mpr ⟨_, SortedMap.get_eq_some_iff.mp found, rfl⟩

end UniqueTracker

end Acetone.Graph

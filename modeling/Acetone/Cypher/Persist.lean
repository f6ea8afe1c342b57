import Acetone.Cypher.Value
import Acetone.Graph.Transaction

/-!
# Persisting the changes of a query

The net changes of a statement are replayed into a write transaction.  The
identity of a node is derived from the declared key of its one keyed label; the
declared constraints are checked against the workspace before anything is
staged.
-/

namespace Acetone.Cypher

open Acetone.Lib Acetone.Model
open Acetone.Graph (GraphError Transaction Manifest)

/-- The net effect of a statement, in final states. -/
structure WriteChanges where
  upsertedNodes : List NodeValue
  deletedNodes : List EntityId
  createdRels : List RelValue
  modifiedRels : List RelValue
  deletedRels : List RelValue

inductive IdentityFault where
  | noLabels
  | noKeyedLabel (labels : List String)
  | missingKeyProperty (label property : String)
  | discriminatorImmutable (rtype property : String)
  | discriminatorMissing (rtype property : String)
  | discriminatorNull (rtype property : String)
  | discriminatorType (rtype property typeName : String)
deriving DecidableEq

inductive PersistError where
  | identity (fault : IdentityFault)
  | ambiguousIdentity (labels : List String) (first second : String)
  | duplicateKey (label : String) (key : List Model.Value)
  | duplicateKeyInStatement (label : String) (key : List Model.Value)
  | duplicateEdge (edge : EdgeKey)
  | keyImmutable (label : String)
  | missingRequired (label : String) (key : List Model.Value) (property : String)
  | uniqueViolation (label property : String)
  | wrongType (label : String) (key : List Model.Value) (property : String)
      (declared actual : PropertyType)
  | relWrongType (edge : EdgeKey) (property : String) (declared actual : PropertyType)
  | value (what : String)
  | keyValueType (label property typeName : String)
  | key (cause : GraphKeyError)
  | graph (cause : GraphError)
deriving DecidableEq

def ofKey {α : Type} (result : Except GraphKeyError α) : Except PersistError α :=
  result.mapError .key

def ofGraph {α : Type} (result : Except GraphError α) : Except PersistError α :=
  result.mapError .graph

@[simp] theorem ofKey_eq_ok {α : Type} {result : Except GraphKeyError α} {value : α} :
    ofKey result = .ok value ↔ result = .ok value := mapError_eq_ok

@[simp] theorem ofGraph_eq_ok {α : Type} {result : Except GraphError α} {value : α} :
    ofGraph result = .ok value ↔ result = .ok value := mapError_eq_ok

namespace Persist

mutual

/-- A runtime value as it is stored.  A carrier is stored as the value it
carries; maps and entities cannot be stored. -/
def convertValueAt (value : Value) (depth : Nat) : Except PersistError Model.Value :=
  if depth ≥ maxValueDepth then .error (.value "list nested past the depth limit")
  else
    match value with
    | .null => .ok .null
    | .bool flag => .ok (.bool flag)
    | .int number => .ok (.int number)
    | .float bits => .ok (.float bits)
    | .string text => .ok (.string text)
    | .stored value => .ok value
    | .list items => do
        let items ← convertValuesAt items (depth + 1)
        .ok (.list items)
    | .map _ => .error (.value "map")
    | .node _ _ _ => .error (.value "node")
    | .relationship _ _ _ _ _ => .error (.value "relationship")
    | .path _ _ => .error (.value "path")

def convertValuesAt (values : List Value) (depth : Nat) :
    Except PersistError (List Model.Value) :=
  match values with
  | [] => .ok []
  | value :: values => do
      let value ← convertValueAt value depth
      let values ← convertValuesAt values depth
      .ok (value :: values)

end

def convertValue (value : Value) : Except PersistError Model.Value :=
  convertValueAt value 0

def convertMap (properties : PropertyMap) :
    Except PersistError (SortedMap String Model.Value) :=
  properties.mapValuesM convertValue

/-- The types that must not form an identity. -/
def deferredTypeName : Model.Value → Option String
  | .bytes _ => some "bytes"
  | .date _ => some "date"
  | .time _ => some "time"
  | .dateTime _ => some "datetime"
  | .duration _ => some "duration"
  | _ => none

def encodeProperties (properties : SortedMap String Model.Value) :
    Except PersistError Properties :=
  properties.mapValuesM fun value =>
    (encodeValue value).mapError fun cause => .graph (.record cause)

structure NodeDraft where
  key : NodeKey
  secondaryLabels : List String
  properties : SortedMap String Model.Value

def keyedLabels (catalogue : Catalogue) (labels : List String) : List (String × LabelDef) :=
  labels.filterMap fun label =>
    ((catalogue.label label).filter fun decl => ¬ decl.key.isEmpty).map fun decl => (label, decl)

def keyValue (node : NodeValue) (primary name : String) : Except PersistError Model.Value :=
  match node.properties.get name with
  | none => .error (.identity (.missingKeyProperty primary name))
  | some value => do
      let converted ← convertValue value
      match deferredTypeName converted with
      | some typeName => .error (.keyValueType primary name typeName)
      | none => .ok converted

def nodeKeyAndRecord (catalogue : Catalogue) (node : NodeValue) :
    Except PersistError NodeDraft :=
  match keyedLabels catalogue node.labels with
  | [] => .error (.identity (if node.labels = [] then .noLabels else .noKeyedLabel node.labels))
  | (primary, _) :: (second, _) :: _ =>
      .error (.ambiguousIdentity node.labels primary second)
  | [(primary, decl)] => do
      let keyValues ← decl.key.mapM (keyValue node primary)
      let key ← ofKey (NodeKey.new primary keyValues)
      let properties ← convertMap (node.properties.filterKeys (· ∉ decl.key))
      .ok ⟨key, node.labels.filter (· ≠ primary), properties⟩

/-- The nodes of a statement as far as they are derived: the key of each
entity, the drafts, and the keys written. -/
structure Derived where
  entityToKey : List (EntityId × NodeKey)
  drafts : List (NodeValue × NodeDraft)
  written : List Bytes

/-- An overlay id does not decode: the node is created, and its key must be
free.  A node of the base keeps its key. -/
def checkIdentity (base : Manifest) (deleted : List Bytes) (id : EntityId) (key : NodeKey)
    (encoded : Bytes) : Except PersistError Unit :=
  match NodeKey.decode id with
  | .error _ =>
      if (base.nodes.get encoded).isSome ∧ encoded ∉ deleted then
        .error (.duplicateKey key.label key.key)
      else .ok ()
  | .ok original => do
      let originalEncoded ← ofKey original.encode
      if originalEncoded ≠ encoded then .error (.keyImmutable key.label) else .ok ()

def deriveNode (catalogue : Catalogue) (base : Manifest) (deleted : List Bytes)
    (derived : Derived) (node : NodeValue) : Except PersistError Derived := do
  let draft ← nodeKeyAndRecord catalogue node
  let encoded ← ofKey draft.key.encode
  checkIdentity base deleted node.id draft.key encoded
  if encoded ∈ derived.written then
    .error (.duplicateKeyInStatement draft.key.label draft.key.key)
  else .ok ⟨(node.id, draft.key) :: derived.entityToKey, derived.drafts ++ [(node, draft)],
    derived.written ++ [encoded]⟩

mutual

/-- Equality of model values: floats compare as numbers. -/
def partialEq (left right : Model.Value) : Bool :=
  match left, right with
  | .float x, .float y => ¬ isNan x ∧ ¬ isNan y ∧ normaliseZero x = normaliseZero y
  | .list xs, .list ys => partialEqAll xs ys
  | _, _ => left = right

def partialEqAll : List Model.Value → List Model.Value → Bool
  | [], [] => true
  | x :: xs, y :: ys => partialEq x y && partialEqAll xs ys
  | _, _ => false

end

/-- What the checks of a statement look at. -/
structure UniqueChecker where
  catalogue : Catalogue
  base : Manifest
  written : List Bytes
  deleted : List Bytes

abbrev StatementClaim := String × String × Bytes

namespace UniqueChecker

variable (checker : UniqueChecker)

/-- The stored nodes an index lists under a value; none if no map serves the
property. -/
def indexedCollisions (label property : String) (value : Model.Value) :
    Except PersistError (Option (List NodeKey)) :=
  match checker.catalogue.indexOn label property with
  | none => .ok none
  | some (name, decl) =>
      match indexValuePrefix label decl.properties [value] with
      | .error _ => .ok (some [])
      | .ok leading =>
          match checker.base.indexes.get name with
          | none => .ok none
          | some index => do
              let nodes ← (Graph.scanPrefix index leading).mapM fun (bytes, _) => do
                let entry ← ofKey (IndexEntry.decode bytes)
                .ok entry.node
              .ok (some nodes)

def scannedCollisions (label property : String) (value : Model.Value) :
    Except PersistError (List NodeKey) := do
  let nodes ← checker.base.nodes.entries.mapM fun (bytes, record) => do
    let node ← ofKey (NodeKey.decode bytes)
    .ok (node, record)
  .ok ((nodes.filter fun (node, record) => node.label = label ∧
    (record.properties.get property).any fun stored => partialEq stored.val value).map Prod.fst)

def collisions (label property : String) (value : Model.Value) :
    Except PersistError (List NodeKey) := do
  match ← checker.indexedCollisions label property value with
  | some nodes => .ok nodes
  | none => checker.scannedCollisions label property value

def checkExistence (node : NodeValue) (key : NodeKey) (decl : LabelDef) :
    Except PersistError Unit :=
  checkEach (fun property =>
    if (node.properties.get property).isSome then .ok ()
    else .error (.missingRequired key.label key.key property)) decl.existence

def checkTypes (node : NodeValue) (key : NodeKey) (decl : LabelDef) :
    Except PersistError Unit :=
  checkEach (fun (property, declared) =>
    match node.properties.get property with
    | none => .ok ()
    | some value => do
        let stored ← convertValue value
        match Graph.mistyped property declared stored with
        | none => .ok ()
        | some (_, _, actual) =>
            .error (.wrongType key.label key.key property declared actual)) decl.types.entries

def wanted (node : NodeValue) (decl : LabelDef) :
    Except PersistError (List (String × Model.Value)) :=
  (decl.unique.filterMap fun property =>
    (node.properties.get property).map fun value => (property, value)).mapM fun entry => do
      let value ← convertValue entry.2
      .ok (entry.1, value)

/-- Claim a value for the statement; one that does not encode claims
nothing. -/
def claim (claims : List StatementClaim) (label property : String) (value : Model.Value) :
    Except PersistError (List StatementClaim) :=
  match encodeKey [value] with
  | .error _ => .ok claims
  | .ok encoded =>
      if (label, property, encoded) ∈ claims then .error (.uniqueViolation label property)
      else .ok ((label, property, encoded) :: claims)

/-- Whether the statement replaces or deletes a stored node. -/
def superseded (own other : Bytes) : Bool :=
  other = own ∨ other ∈ checker.deleted ∨ other ∈ checker.written

def checkStored (own : Bytes) (label property : String) (value : Model.Value) :
    Except PersistError Unit := do
  let colliding ← checker.collisions label property value
  checkEach (fun other => do
    let encoded ← ofKey (NodeKey.encode other)
    if checker.superseded own encoded then .ok ()
    else .error (.uniqueViolation label property)) colliding

def checkUnique (own : Bytes) (label : String) :
    List StatementClaim → List (String × Model.Value) →
      Except PersistError (List StatementClaim)
  | claims, [] => .ok claims
  | claims, (property, value) :: wanted => do
      let claims ← claim claims label property value
      checker.checkStored own label property value
      checkUnique own label claims wanted

/-- Existence, declared types and uniqueness of one node to be written. -/
def check (claims : List StatementClaim) (node : NodeValue) (key : NodeKey) :
    Except PersistError (List StatementClaim) :=
  match checker.catalogue.label key.label with
  | none => .ok claims
  | some decl => do
      checkExistence node key decl
      checkTypes node key decl
      let wanted ← wanted node decl
      if wanted = [] then .ok claims
      else do
        let own ← ofKey key.encode
        checker.checkUnique own key.label claims wanted

def checkAll : List StatementClaim → List (NodeValue × NodeDraft) →
    Except PersistError (List StatementClaim)
  | claims, [] => .ok claims
  | claims, (node, draft) :: drafts => do
      let claims ← checker.check claims node draft.key
      checkAll claims drafts

end UniqueChecker

def overlayIdTag : UInt8 := 0xff

/-- The key of an endpoint: a node of the statement, or a stored one. -/
def resolveEndpoint (entityToKey : List (EntityId × NodeKey)) (id : EntityId) :
    Except PersistError NodeKey :=
  match entityToKey.lookup id with
  | some key => .ok key
  | none => ofKey (NodeKey.decode id)

def edgeKey (entityToKey : List (EntityId × NodeKey)) (rel : RelValue) :
    Except PersistError EdgeKey := do
  let src ← resolveEndpoint entityToKey rel.start
  let dst ← resolveEndpoint entityToKey rel.stop
  ofKey (EdgeKey.new src rel.relType dst .null)

/-- The key of a relationship the query bound: that of its id, if it has
one. -/
def boundEdgeKey (entityToKey : List (EntityId × NodeKey)) (rel : RelValue) :
    Except PersistError EdgeKey :=
  if rel.id.head? ≠ some overlayIdTag then
    match EdgeKey.decodeFwd rel.id with
    | .ok key => .ok key
    | .error _ => edgeKey entityToKey rel
  else edgeKey entityToKey rel

def createdEdgeKey (catalogue : Catalogue) (entityToKey : List (EntityId × NodeKey))
    (rel : RelValue) : Except PersistError EdgeKey := do
  let base ← edgeKey entityToKey rel
  match catalogue.discriminator base.rtype with
  | none => .ok base
  | some name =>
      match rel.properties.get name with
      | none => .error (.identity (.discriminatorMissing base.rtype name))
      | some value => do
          let disc ← convertValue value
          if disc = .null then .error (.identity (.discriminatorNull base.rtype name))
          else
            match deferredTypeName disc with
            | some typeName => .error (.identity (.discriminatorType base.rtype name typeName))
            | none => ofKey (EdgeKey.new base.src base.rtype base.dst disc)

/-- The discriminator lives in the key. -/
def recordWithoutDisc (catalogue : Catalogue) (rtype : String)
    (properties : SortedMap String Model.Value) : SortedMap String Model.Value :=
  match catalogue.discriminator rtype with
  | none => properties
  | some name => properties.delete name

def modifiedProperties (catalogue : Catalogue) (edge : EdgeKey)
    (properties : SortedMap String Model.Value) :
    Except PersistError (SortedMap String Model.Value) :=
  match catalogue.discriminator edge.rtype with
  | none => .ok properties
  | some name =>
      if (properties.get name).any (partialEq · edge.disc) then .ok (properties.delete name)
      else .error (.identity (.discriminatorImmutable edge.rtype name))

def checkRelTypes (catalogue : Catalogue) (edge : EdgeKey)
    (properties : SortedMap String Model.Value) : Except PersistError Unit :=
  match catalogue.relType edge.rtype with
  | none => .ok ()
  | some decl => checkEach (fun (property, declared) =>
      let inRecord := properties.get property
      let inKey := if decl.discriminator = some property then some edge.disc else none
      match (inRecord.toList ++ inKey.toList).findSome? (Graph.mistyped property declared) with
      | none => .ok ()
      | some (_, _, actual) => .error (.relWrongType edge property declared actual))
      decl.types.entries

def putEdge (catalogue : Catalogue) (txn : Transaction) (edge : EdgeKey)
    (properties : SortedMap String Model.Value) : Except PersistError Transaction := do
  checkRelTypes catalogue edge properties
  let properties ← encodeProperties properties
  ofGraph (txn.putEdge edge ⟨properties⟩)

def deleteRel (entityToKey : List (EntityId × NodeKey)) (txn : Transaction) (rel : RelValue) :
    Except PersistError Transaction := do
  let edge ← boundEdgeKey entityToKey rel
  ofGraph (txn.deleteEdge edge)

def deleteNode (txn : Transaction) (id : EntityId) : Except PersistError Transaction := do
  let key ← ofKey (NodeKey.decode id)
  ofGraph (txn.deleteNode key)

def putNode (txn : Transaction) (draft : NodeDraft) : Except PersistError Transaction := do
  let properties ← encodeProperties draft.properties
  ofGraph (txn.putNode draft.key ⟨draft.secondaryLabels.toFinset, properties⟩)

def existingEdges (base : Manifest) (deletedRels : List RelValue)
    (entityToKey : List (EntityId × NodeKey)) : Except PersistError (List Bytes) := do
  let deleted ← deletedRels.mapM fun rel => do
    let edge ← boundEdgeKey entityToKey rel
    ofKey edge.encodeFwd
  let stored ← base.edgesFwd.entries.mapM fun (bytes, _) => do
    let edge ← ofKey (EdgeKey.decodeFwd bytes)
    ofKey edge.encodeFwd
  .ok (stored.filter (· ∉ deleted))

def createRels (catalogue : Catalogue) (entityToKey : List (EntityId × NodeKey)) :
    List Bytes → Transaction → List RelValue → Except PersistError Transaction
  | _, txn, [] => .ok txn
  | existing, txn, rel :: rels => do
      let edge ← createdEdgeKey catalogue entityToKey rel
      let encoded ← ofKey edge.encodeFwd
      if encoded ∈ existing then .error (.duplicateEdge edge)
      else do
        let properties ← convertMap rel.properties
        let txn ← putEdge catalogue txn edge (recordWithoutDisc catalogue edge.rtype properties)
        createRels catalogue entityToKey (encoded :: existing) txn rels

def modifyRel (catalogue : Catalogue) (entityToKey : List (EntityId × NodeKey))
    (txn : Transaction) (rel : RelValue) : Except PersistError Transaction := do
  let edge ← boundEdgeKey entityToKey rel
  let properties ← convertMap rel.properties
  let properties ← modifiedProperties catalogue edge properties
  putEdge catalogue txn edge properties

end Persist

open Persist in
/-- Replay the changes of a statement into a transaction.  Deletions come
before the nodes, so that a key deleted and created again is created. -/
def persistChanges (changes : WriteChanges) (txn : Transaction) (catalogue : Catalogue)
    (base : Manifest) : Except PersistError Transaction := do
  let derived ← changes.upsertedNodes.foldlM
    (deriveNode catalogue base changes.deletedNodes) ⟨[], [], []⟩
  let checker : UniqueChecker := ⟨catalogue, base, derived.written, changes.deletedNodes⟩
  let _ ← checker.checkAll [] derived.drafts
  let txn ← changes.deletedRels.foldlM (deleteRel derived.entityToKey) txn
  let txn ← changes.deletedNodes.foldlM deleteNode txn
  let txn ← (derived.drafts.map Prod.snd).foldlM putNode txn
  let txn ←
    if changes.createdRels = [] then .ok txn
    else do
      let existing ← existingEdges base changes.deletedRels derived.entityToKey
      createRels catalogue derived.entityToKey existing txn changes.createdRels
  changes.modifiedRels.foldlM (modifyRel catalogue derived.entityToKey) txn

end Acetone.Cypher

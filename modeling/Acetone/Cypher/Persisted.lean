import Acetone.Cypher.Verdicts
import Acetone.Graph.Lawful

/-!
# What a statement persists

A statement that is accepted stages its nodes and its relationships.  The nodes
obey what their labels declare, if it has no clash that its checker does not
see.  What the types of its relationships require is judged by nobody: they have
it if the statement supplied it.
-/

namespace Acetone.Cypher

open Acetone.Lib Acetone.Model
open Acetone.Graph (Transaction Manifest NodeMap Write Obeys Carries)

namespace Persist

def Follows (txn after : Transaction) : Prop :=
  ∃ writes, txn.writeAll writes = .ok after ∧ after.nodes = txn.nodes ∧ after.schema = txn.schema

private theorem Follows.refl (txn : Transaction) : Follows txn txn := ⟨[], rfl, rfl, rfl⟩

private theorem Follows.trans {txn middle after : Transaction} (first : Follows txn middle)
    (second : Follows middle after) : Follows txn after := by
  obtain ⟨begun, begins, sameNodes, sameSchema⟩ := first
  obtain ⟨ended, ends, alsoNodes, alsoSchema⟩ := second
  exact ⟨begun ++ ended, Transaction.writeAll_append.mpr ⟨middle, begins, ends⟩,
    alsoNodes.trans sameNodes, alsoSchema.trans sameSchema⟩

private theorem writeAll_single {txn after : Transaction} {write : Write}
    (writes : txn.write write = .ok after) : txn.writeAll [write] = .ok after :=
  bind_eq_ok.mpr ⟨after, writes, rfl⟩

private theorem follows_deleteRel {entityToKey : List (EntityId × NodeKey)}
    {txn after : Transaction} {rel : RelValue}
    (deletes : deleteRel entityToKey txn rel = .ok after) : Follows txn after := by
  obtain ⟨edge, -, deletes⟩ := bind_eq_ok.mp deletes
  rw [ofGraph_eq_ok] at deletes
  refine ⟨[.deleteEdge edge], writeAll_single deletes, ?_, ?_⟩
  all_goals
    obtain ⟨_, -, deletes⟩ := bind_eq_ok.mp deletes
    obtain ⟨_, -, ⟨⟩⟩ := bind_eq_ok.mp deletes
    rfl

private theorem follows_putEdge {catalogue : Catalogue} {txn after : Transaction} {edge : EdgeKey}
    {properties : SortedMap String Model.Value}
    (puts : putEdge catalogue txn edge properties = .ok after) : Follows txn after := by
  obtain ⟨⟨⟩, -, puts⟩ := bind_eq_ok.mp puts
  obtain ⟨encoded, -, puts⟩ := bind_eq_ok.mp puts
  rw [ofGraph_eq_ok] at puts
  refine ⟨[.putEdge edge ⟨encoded⟩], writeAll_single puts, ?_, ?_⟩
  all_goals
    obtain ⟨_, -, puts⟩ := bind_eq_ok.mp puts
    obtain ⟨_, -, ⟨⟩⟩ := bind_eq_ok.mp puts
    rfl

private theorem follows_foldlM {α : Type} {step : Transaction → α → Except PersistError Transaction}
    (each : ∀ txn after item, step txn item = .ok after → Follows txn after) {items : List α}
    {txn after : Transaction} (folds : items.foldlM step txn = .ok after) : Follows txn after := by
  induction items generalizing txn with
  | nil =>
      cases folds
      exact .refl _
  | cons item items ih =>
      rw [List.foldlM_cons] at folds
      obtain ⟨middle, first, rest⟩ := bind_eq_ok.mp folds
      exact (each _ _ _ first).trans (ih rest)

private theorem follows_createRels {catalogue : Catalogue}
    {entityToKey : List (EntityId × NodeKey)} {existing : List Bytes} {rels : List RelValue}
    {txn after : Transaction}
    (creates : createRels catalogue entityToKey existing txn rels = .ok after) :
    Follows txn after := by
  induction rels generalizing txn existing with
  | nil =>
      cases creates
      exact .refl _
  | cons rel rels ih =>
      rw [createRels] at creates
      obtain ⟨edge, -, creates⟩ := bind_eq_ok.mp creates
      obtain ⟨encoded, -, creates⟩ := bind_eq_ok.mp creates
      split at creates
      · cases creates
      · obtain ⟨properties, -, creates⟩ := bind_eq_ok.mp creates
        obtain ⟨middle, puts, rest⟩ := bind_eq_ok.mp creates
        exact (follows_putEdge puts).trans (ih rest)

private theorem follows_modifyRel {catalogue : Catalogue} {entityToKey : List (EntityId × NodeKey)}
    {txn after : Transaction} {rel : RelValue}
    (modifies : modifyRel catalogue entityToKey txn rel = .ok after) : Follows txn after := by
  obtain ⟨edge, -, modifies⟩ := bind_eq_ok.mp modifies
  obtain ⟨_, -, modifies⟩ := bind_eq_ok.mp modifies
  obtain ⟨_, -, puts⟩ := bind_eq_ok.mp modifies
  exact follows_putEdge puts

private theorem nodes_foldlM {α : Type} {step : Transaction → α → Except PersistError Transaction}
    {items : List α} {txn after : Transaction} (folds : items.foldlM step txn = .ok after)
    (each : ∀ txn after item, step txn item = .ok after → ∃ write ops,
      txn.write write = .ok after ∧ after = { txn with nodes := txn.nodes ++ ops } ∧
      ∀ other, step other item = .ok { other with nodes := other.nodes ++ ops }) :
    ∃ writes ops, txn.writeAll writes = .ok after ∧
      after = { txn with nodes := txn.nodes ++ ops } ∧
      ∀ other, items.foldlM step other = .ok { other with nodes := other.nodes ++ ops } := by
  induction items generalizing txn with
  | nil =>
      cases folds
      exact ⟨[], [], rfl, by rw [List.append_nil], fun other => by rw [List.append_nil]; rfl⟩
  | cons item items ih =>
      rw [List.foldlM_cons] at folds
      obtain ⟨middle, first, rest⟩ := bind_eq_ok.mp folds
      obtain ⟨write, ops, writes, rfl, anywhere⟩ := each _ _ _ first
      obtain ⟨later, more, writesLater, rfl, anywhereLater⟩ := ih rest
      refine ⟨write :: later, ops ++ more, bind_eq_ok.mpr ⟨_, writes, writesLater⟩, ?_, ?_⟩
      · rw [List.append_assoc]
      · intro other
        rw [List.foldlM_cons, anywhere, ok_bind, anywhereLater, List.append_assoc]

private theorem nodes_deleteNode {txn after : Transaction} {id : EntityId}
    (deletes : deleteNode txn id = .ok after) : ∃ write ops, txn.write write = .ok after ∧
      after = { txn with nodes := txn.nodes ++ ops } ∧
      ∀ other, deleteNode other id = .ok { other with nodes := other.nodes ++ ops } := by
  obtain ⟨key, decodes, deletes⟩ := bind_eq_ok.mp deletes
  rw [ofGraph_eq_ok] at deletes
  obtain ⟨bytes, encodes, made⟩ := bind_eq_ok.mp deletes
  refine ⟨.deleteNode key, [.delete bytes], deletes, ?_, ?_⟩
  · exact (Except.ok.inj made).symm
  · intro other
    refine bind_eq_ok.mpr ⟨key, decodes, ?_⟩
    rw [ofGraph_eq_ok]
    exact bind_eq_ok.mpr ⟨bytes, encodes, rfl⟩

private theorem nodes_putNode {txn after : Transaction} {draft : NodeDraft}
    (puts : putNode txn draft = .ok after) : ∃ write ops, txn.write write = .ok after ∧
      after = { txn with nodes := txn.nodes ++ ops } ∧
      ∀ other, putNode other draft = .ok { other with nodes := other.nodes ++ ops } := by
  obtain ⟨properties, stores, puts⟩ := bind_eq_ok.mp puts
  rw [ofGraph_eq_ok] at puts
  obtain ⟨bytes, encodes, made⟩ := bind_eq_ok.mp puts
  refine ⟨.putNode draft.key ⟨draft.secondaryLabels.toFinset, properties⟩,
    [.put bytes ⟨draft.secondaryLabels.toFinset, properties⟩], puts, ?_, ?_⟩
  · exact (Except.ok.inj made).symm
  · intro other
    refine bind_eq_ok.mpr ⟨properties, stores, ?_⟩
    rw [ofGraph_eq_ok]
    exact bind_eq_ok.mpr ⟨bytes, encodes, rfl⟩

structure Persisted (changes : WriteChanges) (txn : Transaction) (catalogue : Catalogue)
    (base : Manifest) (after : Transaction) (derived : Derived) : Prop where
  derives : changes.upsertedNodes.foldlM (deriveNode catalogue base changes.deletedNodes)
    ⟨[], [], []⟩ = .ok derived
  accepts : ∃ claims, UniqueChecker.checkAll
    ⟨catalogue, base, derived.written, changes.deletedNodes⟩ [] derived.drafts = .ok claims
  results : resultingNodes base changes.deletedNodes (derived.drafts.map Prod.snd) =
    .ok (base.nodes.applyAll after.nodes)
  schema : after.schema = txn.schema
  writes : ∃ writes, txn.writeAll writes = .ok after

theorem persistChanges_spec {changes : WriteChanges} {txn after : Transaction}
    {catalogue : Catalogue} {base : Manifest} (fresh : txn.nodes = [])
    (persists : persistChanges changes txn catalogue base = .ok after) :
    ∃ derived, Persisted changes txn catalogue base after derived := by
  rw [persistChanges] at persists
  obtain ⟨derived, derives, persists⟩ := bind_eq_ok.mp persists
  obtain ⟨claims, accepts, persists⟩ := bind_eq_ok.mp persists
  obtain ⟨unlinked, unlinks, persists⟩ := bind_eq_ok.mp persists
  obtain ⟨emptied, deletes, persists⟩ := bind_eq_ok.mp persists
  obtain ⟨filled, puts, persists⟩ := bind_eq_ok.mp persists
  obtain ⟨linked, links, modifies⟩ : ∃ linked, Follows filled linked ∧
      changes.modifiedRels.foldlM (modifyRel catalogue derived.entityToKey) linked = .ok after := by
    dsimp only at persists
    split at persists
    · exact ⟨filled, .refl _, persists⟩
    · obtain ⟨existing, -, persists⟩ := bind_eq_ok.mp persists
      obtain ⟨linked, creates, modifies⟩ := bind_eq_ok.mp persists
      exact ⟨linked, follows_createRels creates, modifies⟩
  obtain ⟨unlinkWrites, unlinkWritten, sameNodes, sameSchema⟩ :=
    follows_foldlM (fun _ _ _ => follows_deleteRel) unlinks
  obtain ⟨deleteWrites, deleted, deleteWritten, rfl, deletesAnywhere⟩ :=
    nodes_foldlM deletes fun _ _ _ => nodes_deleteNode
  obtain ⟨putWrites, put, putWritten, rfl, putsAnywhere⟩ :=
    nodes_foldlM puts fun _ _ _ => nodes_putNode
  obtain ⟨relWrites, relWritten, finalNodes, finalSchema⟩ :=
    links.trans (follows_foldlM (fun _ _ _ => follows_modifyRel) modifies)
  refine ⟨derived, derives, ⟨claims, accepts⟩, ?_, finalSchema.trans sameSchema, ?_⟩
  · rw [resultingNodes, deletesAnywhere, ok_bind, putsAnywhere, ok_bind, finalNodes, sameNodes,
      fresh]
    rfl
  · have deleteDone := Transaction.writeAll_append.mpr ⟨_, unlinkWritten, deleteWritten⟩
    have putDone := Transaction.writeAll_append.mpr ⟨_, deleteDone, putWritten⟩
    exact ⟨_, Transaction.writeAll_append.mpr ⟨_, putDone, relWritten⟩⟩

/-- Values that are stored as one without making one claim, and holders that the
checker does not see: pairs with a NaN, and nulls beside an index. -/
def Unseen (catalogue : Catalogue) (base : Manifest) (derived : Derived)
    (deleted : List EntityId) : Prop :=
  Clash catalogue derived deleted
    (fun left right => SameStored left right ∧ ¬ SameClaim left right)
    (fun label property value holder => Holds base label property value holder ∧
      ¬ SeenHolding catalogue base label property value holder)

private theorem noClash_of_seen {catalogue : Catalogue} {base : Manifest} {derived : Derived}
    {deleted : List EntityId}
    (none : ¬ Clash catalogue derived deleted SameClaim (SeenHolding catalogue base))
    (seen : ¬ Unseen catalogue base derived deleted) :
    ¬ Clash catalogue derived deleted SameStored (Holds base) := by
  rw [@Clash.split _ _ _ SameStored SameClaim (Holds base) (SeenHolding catalogue base)]
  rintro (both | unseen)
  · apply none
    cases both with
    | written apart wants alsoWants same => exact .written apart wants alsoWants same.2
    | stored wants unwritten undeleted held => exact .stored wants unwritten undeleted held.2
  · exact seen unseen

/-- An accepted statement leaves the constraints obeyed, if it has no clash that
the checker does not see. -/
theorem Persisted.obeys {changes : WriteChanges} {txn after : Transaction} {catalogue : Catalogue}
    {base : Manifest} {derived : Derived}
    (persisted : Persisted changes txn catalogue base after derived)
    (obeys : Obeys catalogue.labels base.nodes)
    (keyed : ∀ key ∈ (base.nodes.applyAll after.nodes).keys, ∃ node, NodeKey.decode key = .ok node)
    (seen : ¬ Unseen catalogue base derived changes.deletedNodes) :
    Obeys catalogue.labels (base.nodes.applyAll after.nodes) := by
  have holds := derivedFor_of_derives persisted.derives
  obtain ⟨claims, accepts⟩ := persisted.accepts
  obtain ⟨flawless, noClash⟩ := noClash_of_accepts holds accepts
  obtain ⟨nodes, reads⟩ : ∃ nodes, Graph.allNodes (base.nodes.applyAll after.nodes) = .ok nodes := by
    apply mapM_total
    rintro ⟨key, record⟩ isRow
    obtain ⟨node, decodes⟩ := keyed key (List.mem_map.mpr ⟨_, isRow, rfl⟩)
    exact ⟨_, bind_eq_ok.mpr ⟨node, Graph.liftKey_eq_ok.mpr decodes, rfl⟩⟩
  have noBreach := mt (breach_iff holds persisted.results reads).mp flawless
  have noShare := mt (shares_iff holds persisted.results reads).mp (noClash_of_seen noClash seen)
  have untouched := (resultingNodes_spec holds persisted.results).2
  apply obeys.of_written derived.written
  case untouched =>
    intro key unwritten record found
    rw [untouched key unwritten] at found
    split at found
    · cases found
    · exact found
  case required =>
    intro key isWritten record node decl found decodes declared
    by_contra missing
    apply noBreach
    refine ⟨_, (Graph.mem_allNodes reads).mpr ⟨found, decodes⟩, isWritten, decl, declared, ?_⟩
    intro none
    rw [Graph.nodeViolations, List.append_eq_nil_iff] at none
    exact missing (List.map_eq_nil_iff.mp none.1)
  case unique =>
    intro first isWritten second record other node rival found decodes alsoFound alsoDecodes
      apart claim isClaim alsoClaim
    exact noShare ⟨_, (Graph.mem_allNodes reads).mpr ⟨found, decodes⟩, _,
      (Graph.mem_allNodes reads).mpr ⟨alsoFound, alsoDecodes⟩, isWritten, apart, claim, isClaim,
      alsoClaim⟩

/-- The statement gives a relationship what its type requires. -/
def Supplied (catalogue : Catalogue) (edge : EdgeKey) (properties : PropertyMap) : Prop :=
  ∀ decl, catalogue.relType edge.rtype = some decl → ∀ name ∈ decl.existence,
    if decl.discriminator = some name then edge.disc ≠ .null else properties.get name ≠ none

/-- The statement gives the relationships that it creates or modifies what their
types require. -/
structure SuppliedBy (catalogue : Catalogue) (derived : Derived) (changes : WriteChanges) :
    Prop where
  created : ∀ rel ∈ changes.createdRels, ∀ edge,
    createdEdgeKey catalogue derived.entityToKey rel = .ok edge →
      Supplied catalogue edge rel.properties
  modified : ∀ rel ∈ changes.modifiedRels, ∀ edge,
    boundEdgeKey derived.entityToKey rel = .ok edge → Supplied catalogue edge rel.properties

/-- Every relationship that is put has what its type requires. -/
def PutsCarry (catalogue : Catalogue) (txn : Transaction) : Prop :=
  ∀ op ∈ txn.edgesFwd, ∀ record, op.outcome = some record →
    ∃ edge : EdgeKey, edge.encodeFwd = .ok op.key ∧
      ∀ decl, catalogue.relType edge.rtype = some decl → Carries decl edge record

section

variable {catalogue : Catalogue} {entityToKey : List (EntityId × NodeKey)}
  {txn after : Transaction}

private theorem PutsCarry.same (carry : PutsCarry catalogue txn)
    (same : after.edgesFwd = txn.edgesFwd) : PutsCarry catalogue after := by
  rw [PutsCarry, same]
  exact carry

private theorem PutsCarry.deleteRel {rel : RelValue} (carry : PutsCarry catalogue txn)
    (deletes : deleteRel entityToKey txn rel = .ok after) : PutsCarry catalogue after := by
  obtain ⟨edge, -, deletes⟩ := bind_eq_ok.mp deletes
  rw [ofGraph_eq_ok] at deletes
  obtain ⟨forward, -, deletes⟩ := bind_eq_ok.mp deletes
  obtain ⟨_, -, ⟨⟩⟩ := bind_eq_ok.mp deletes
  intro op isOp record outcome
  rcases List.mem_append.mp isOp with before | isDelete
  · exact carry op before record outcome
  · rw [List.mem_singleton.mp isDelete] at outcome
    cases outcome

private theorem carries_of_supplied {edge : EdgeKey} {properties : PropertyMap}
    {converted : SortedMap String Model.Value} {stored : Properties}
    (supplied : Supplied catalogue edge properties) (converts : convertMap properties = .ok converted)
    (encodes : encodeProperties (recordWithoutDisc catalogue edge.rtype converted) = .ok stored)
    {decl : RelTypeDef} (declared : catalogue.relType edge.rtype = some decl) :
    Carries decl edge ⟨stored⟩ := by
  intro name required
  have present := supplied decl declared name required
  split at present
  · next isDisc => exact .inl ⟨isDisc, present⟩
  · next other =>
      obtain ⟨value, found⟩ := Option.ne_none_iff_exists'.mp present
      obtain ⟨made, makes⟩ := SortedMap.exists_of_mapValuesM converts found
      have inConverted := (SortedMap.get_mapValuesM converts).mpr ⟨value, found, makes⟩
      have inRecord : (recordWithoutDisc catalogue edge.rtype converted).get name = some made := by
        rw [recordWithoutDisc, Catalogue.discriminator, declared, Option.bind_some]
        split
        · exact inConverted
        · next disc isDisc =>
            have apart : disc ≠ name := fun same => other (same ▸ isDisc)
            rw [SortedMap.get_delete, if_neg apart]
            exact inConverted
      obtain ⟨last, stores⟩ := SortedMap.exists_of_mapValuesM encodes inRecord
      have inStored := (SortedMap.get_mapValuesM encodes).mpr ⟨made, inRecord, stores⟩
      exact .inr (Option.ne_none_iff_exists'.mpr ⟨last, inStored⟩)

private theorem PutsCarry.putEdge {edge : EdgeKey} {properties : PropertyMap}
    {converted : SortedMap String Model.Value} (carry : PutsCarry catalogue txn)
    (supplied : Supplied catalogue edge properties) (converts : convertMap properties = .ok converted)
    (puts : putEdge catalogue txn edge (recordWithoutDisc catalogue edge.rtype converted) =
      .ok after) : PutsCarry catalogue after := by
  obtain ⟨⟨⟩, -, puts⟩ := bind_eq_ok.mp puts
  obtain ⟨stored, encodes, puts⟩ := bind_eq_ok.mp puts
  rw [ofGraph_eq_ok] at puts
  obtain ⟨forward, isForward, puts⟩ := bind_eq_ok.mp puts
  obtain ⟨_, -, ⟨⟩⟩ := bind_eq_ok.mp puts
  intro op isOp record outcome
  rcases List.mem_append.mp isOp with before | isPut
  · exact carry op before record outcome
  · rw [List.mem_singleton.mp isPut] at outcome ⊢
    cases outcome
    exact ⟨edge, Graph.liftKey_eq_ok.mp isForward,
      fun decl declared => carries_of_supplied supplied converts encodes declared⟩

private theorem PutsCarry.createRels {existing : List Bytes} {rels : List RelValue}
    (carry : PutsCarry catalogue txn)
    (supplied : ∀ rel ∈ rels, ∀ edge, createdEdgeKey catalogue entityToKey rel = .ok edge →
      Supplied catalogue edge rel.properties)
    (creates : createRels catalogue entityToKey existing txn rels = .ok after) :
    PutsCarry catalogue after := by
  induction rels generalizing txn existing with
  | nil =>
      cases creates
      exact carry
  | cons rel rels ih =>
      obtain ⟨first, supplied⟩ := List.forall_mem_cons.mp supplied
      rw [Persist.createRels] at creates
      obtain ⟨edge, isEdge, creates⟩ := bind_eq_ok.mp creates
      obtain ⟨encoded, -, creates⟩ := bind_eq_ok.mp creates
      split at creates
      · cases creates
      · obtain ⟨properties, converts, creates⟩ := bind_eq_ok.mp creates
        obtain ⟨middle, puts, rest⟩ := bind_eq_ok.mp creates
        exact ih (carry.putEdge (first edge isEdge) converts puts) supplied rest

private theorem PutsCarry.modifyRel {rel : RelValue} (carry : PutsCarry catalogue txn)
    (supplied : ∀ edge, boundEdgeKey entityToKey rel = .ok edge →
      Supplied catalogue edge rel.properties)
    (modifies : modifyRel catalogue entityToKey txn rel = .ok after) :
    PutsCarry catalogue after := by
  obtain ⟨edge, isEdge, modifies⟩ := bind_eq_ok.mp modifies
  obtain ⟨converted, converts, modifies⟩ := bind_eq_ok.mp modifies
  obtain ⟨properties, keeps, puts⟩ := bind_eq_ok.mp modifies
  have isRecord : properties = recordWithoutDisc catalogue edge.rtype converted := by
    rw [modifiedProperties] at keeps
    rw [recordWithoutDisc]
    split at keeps
    · exact (Except.ok.inj keeps).symm
    · split at keeps
      · exact (Except.ok.inj keeps).symm
      · cases keeps
  subst isRecord
  exact carry.putEdge (supplied edge isEdge) converts puts

private theorem PutsCarry.foldlM {α : Type} {step : Transaction → α → Except PersistError Transaction}
    {items : List α} (carry : PutsCarry catalogue txn)
    (each : ∀ item ∈ items, ∀ txn after, PutsCarry catalogue txn → step txn item = .ok after →
      PutsCarry catalogue after) (folds : items.foldlM step txn = .ok after) :
    PutsCarry catalogue after :=
  foldlM_invariant (fun txn item isItem after carry stepped => each item isItem txn after carry stepped)
    carry folds

end

/-- The relationships that a statement puts have what their types require, if it
supplied them with it. -/
theorem persistChanges_carry {changes : WriteChanges} {txn after : Transaction}
    {catalogue : Catalogue} {base : Manifest} (fresh : txn.edgesFwd = [])
    (supplied : ∀ derived, changes.upsertedNodes.foldlM
      (deriveNode catalogue base changes.deletedNodes) ⟨[], [], []⟩ = .ok derived →
        SuppliedBy catalogue derived changes)
    (persists : persistChanges changes txn catalogue base = .ok after) :
    PutsCarry catalogue after := by
  rw [persistChanges] at persists
  obtain ⟨derived, derives, persists⟩ := bind_eq_ok.mp persists
  obtain ⟨claims, -, persists⟩ := bind_eq_ok.mp persists
  obtain ⟨unlinked, unlinks, persists⟩ := bind_eq_ok.mp persists
  obtain ⟨emptied, deletes, persists⟩ := bind_eq_ok.mp persists
  obtain ⟨filled, puts, persists⟩ := bind_eq_ok.mp persists
  have supplied := supplied derived derives
  have starts : PutsCarry catalogue txn := by
    rw [PutsCarry, fresh]
    exact List.forall_mem_nil _
  have afterUnlinks := starts.foldlM (fun _ _ _ _ carry => carry.deleteRel) unlinks
  obtain ⟨_, _, -, isEmptied, -⟩ := nodes_foldlM deletes fun _ _ _ => nodes_deleteNode
  obtain ⟨_, _, -, isFilled, -⟩ := nodes_foldlM puts fun _ _ _ => nodes_putNode
  have afterNodes : PutsCarry catalogue filled :=
    afterUnlinks.same (by rw [isFilled, isEmptied])
  obtain ⟨linked, afterLinks, modifies⟩ : ∃ linked, PutsCarry catalogue linked ∧
      changes.modifiedRels.foldlM (modifyRel catalogue derived.entityToKey) linked = .ok after := by
    dsimp only at persists
    split at persists
    · exact ⟨filled, afterNodes, persists⟩
    · obtain ⟨existing, -, persists⟩ := bind_eq_ok.mp persists
      obtain ⟨linked, creates, modifies⟩ := bind_eq_ok.mp persists
      exact ⟨linked, afterNodes.createRels supplied.created creates, modifies⟩
  exact afterLinks.foldlM
    (fun rel isRel _ _ carry => carry.modifyRel (supplied.modified rel isRel)) modifies

end Persist

end Acetone.Cypher

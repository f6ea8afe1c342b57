import Acetone.Graph.Saves

/-!
# Referential integrity of a save

The check looks at the edges a transaction puts and the nodes it deletes.  What
it finds there decides whether the resulting maps have a dangling edge, except
for an edge that is put and deleted again: it is judged although it is not in
the result.
-/

namespace Acetone.Graph

open Acetone.Lib Acetone.Model

/-- Both endpoints of the edge under a forward key are in `nodes`. -/
def Anchored (nodes : NodeMap) (forward : Bytes) : Prop :=
  ∀ edge, EdgeKey.decodeFwd forward = .ok edge →
    ∀ endpoint ∈ [edge.src, edge.dst], ∀ key, endpoint.encode = .ok key →
      key ∈ nodes.keys

def NoDangling (nodes : NodeMap) (edgesFwd : EdgeMap) : Prop :=
  ∀ forward ∈ edgesFwd.keys, Anchored nodes forward

section

variable {nodes : NodeMap} {edgesFwd : EdgeMap} {edgesRev : KeySet Bytes}

private theorem checkEndpoints_eq_ok {forward : Bytes} {edge : EdgeKey}
    (decoded : EdgeKey.decodeFwd forward = .ok edge) :
    checkEndpoints nodes forward = .ok () ↔ Anchored nodes forward := by
  obtain ⟨src, dst, encodedSrc, encodedDst, -, -⟩ := EdgeKey.endpoint_of_decodeFwd decoded
  have endpoints : Anchored nodes forward ↔ src ∈ nodes.keys ∧ dst ∈ nodes.keys := by
    constructor
    · intro anchored
      exact ⟨anchored edge decoded edge.src (by simp) src encodedSrc,
        anchored edge decoded edge.dst (by simp) dst encodedDst⟩
    · rintro ⟨srcPresent, dstPresent⟩ other otherDecoded endpoint member key encoded
      rw [decoded] at otherDecoded
      cases otherDecoded
      simp only [List.mem_cons, List.not_mem_nil, or_false] at member
      rcases member with rfl | rfl
      · rw [encodedSrc] at encoded
        cases encoded
        exact srcPresent
      · rw [encodedDst] at encoded
        cases encoded
        exact dstPresent
  rw [endpoints, checkEndpoints, decoded]
  simp only [liftKey, ok_bind, checkEach_eq_ok, List.forall_mem_cons, encodedSrc,
    encodedDst, guard_eq_ok, SortedMap.mem_keys, List.not_mem_nil, false_implies,
    implies_true, and_true, ne_eq]

/-- Stored keys are the same exactly when their bytes are. -/
private theorem same_iff_encode {key stored : Bytes} {node endpoint : NodeKey}
    (isNode : NodeKey.decode key = .ok node) (encoded : endpoint.encode = .ok stored)
    (isStored : NodeKey.decode stored = .ok endpoint) :
    endpoint.Same node ↔ endpoint.encode = .ok key := by
  rw [NodeKey.same_iff, NodeKey.canonical_of_decode isNode,
    NodeKey.canonical_of_decode isStored]
  constructor
  · intro same
    rw [NodeKey.toValue_injective same]
    exact NodeKey.encode_of_decode isNode
  · intro isKey
    rw [encoded] at isKey
    cases isKey
    rw [isNode] at isStored
    cases isStored
    rfl

/-- The key of a node starts exactly the forward keys of its out-edges. -/
private theorem isPrefix_fwd_iff {key forward : Bytes} {node : NodeKey} {edge : EdgeKey}
    (isNode : NodeKey.decode key = .ok node)
    (isEdge : EdgeKey.decodeFwd forward = .ok edge) :
    key <+: forward ↔ edge.src.encode = .ok key := by
  obtain ⟨src, -, encodedSrc, -, storedSrc, -⟩ := EdgeKey.endpoint_of_decodeFwd isEdge
  rw [← same_iff_encode isNode encodedSrc storedSrc]
  exact edgeEndpoint_isPrefix (NodeKey.encode_of_decode isNode)
    (liftEncode_eq_ok.mp (EdgeKey.encodeFwd_of_decodeFwd isEdge))

/-- And the reverse keys of its in-edges. -/
private theorem isPrefix_rev_iff {key backward : Bytes} {node : NodeKey} {edge : EdgeKey}
    {forward : Bytes} (isNode : NodeKey.decode key = .ok node)
    (isEdge : EdgeKey.decodeFwd forward = .ok edge)
    (isReverse : edge.encodeRev = .ok backward) :
    key <+: backward ↔ edge.dst.encode = .ok key := by
  obtain ⟨-, dst, -, encodedDst, -, storedDst⟩ := EdgeKey.endpoint_of_decodeFwd isEdge
  rw [← same_iff_encode isNode encodedDst storedDst]
  exact edgeEndpoint_isPrefix (NodeKey.encode_of_decode isNode)
    (liftEncode_eq_ok.mp isReverse)

def Unreferenced (edgesFwd : EdgeMap) (key : Bytes) : Prop :=
  ∀ forward ∈ edgesFwd.keys, ∀ edge, EdgeKey.decodeFwd forward = .ok edge →
    ∀ endpoint ∈ [edge.src, edge.dst], endpoint.encode ≠ .ok key

private theorem unreferenced_iff {key : Bytes} {node : NodeKey}
    (mirrored : Mirrored edgesFwd edgesRev) (isNode : NodeKey.decode key = .ok node) :
    Unreferenced edgesFwd key ↔
      firstWithPrefix edgesFwd key = none ∧ firstWithPrefix edgesRev key = none := by
  rw [firstWithPrefix_eq_none, firstWithPrefix_eq_none]
  constructor
  · intro unreferenced
    constructor
    · intro forward member isPrefix
      obtain ⟨edge, decoded⟩ := mirrored.keyed forward member
      exact unreferenced forward member edge decoded edge.src (by simp)
        ((isPrefix_fwd_iff isNode decoded).mp isPrefix)
    · intro backward member isPrefix
      obtain ⟨forward, inForward, reversed⟩ := (mirrored.image backward).mp member
      obtain ⟨edge, decoded, encodedRev⟩ := reverseKey_eq_ok.mp reversed
      exact unreferenced forward inForward edge decoded edge.dst (by simp)
        ((isPrefix_rev_iff isNode decoded encodedRev).mp isPrefix)
  · rintro ⟨noOut, noIn⟩ forward member edge decoded endpoint isEndpoint encoded
    simp only [List.mem_cons, List.not_mem_nil, or_false] at isEndpoint
    rcases isEndpoint with rfl | rfl
    · exact noOut forward member ((isPrefix_fwd_iff isNode decoded).mpr encoded)
    · obtain ⟨backward, reversed, -⟩ := reverseKey_of_decodeFwd decoded
      obtain ⟨other, decodedAgain, encodedRev⟩ := reverseKey_eq_ok.mp reversed
      rw [decoded] at decodedAgain
      cases decodedAgain
      exact noIn backward ((mirrored.image backward).mpr ⟨forward, member, reversed⟩)
        ((isPrefix_rev_iff isNode decoded encodedRev).mpr encoded)

private theorem checkUnreferenced_eq_ok {key : Bytes} {node : NodeKey}
    (mirrored : Mirrored edgesFwd edgesRev) (isNode : NodeKey.decode key = .ok node) :
    checkUnreferenced nodes edgesFwd edgesRev key = .ok () ↔
      (key ∉ nodes.keys → Unreferenced edgesFwd key) := by
  rw [unreferenced_iff mirrored isNode, SortedMap.mem_keys, not_not, checkUnreferenced]
  by_cases gone : nodes.get key = none
  · rw [if_neg (not_not.mpr gone), isNode]
    simp only [liftKey, ok_bind, gone, true_implies]
    cases firstWithPrefix edgesFwd key with
    | some hit =>
        simp only [reduceCtorEq, false_and, iff_false, bind_eq_ok, not_exists, not_and]
        rintro edge - ⟨⟩
    | none =>
        cases firstWithPrefix edgesRev key with
        | some hit =>
            simp only [reduceCtorEq, and_false, iff_false, bind_eq_ok, not_exists]
            exact fun _ => not_false
        | none => simp
  · rw [if_pos gone]
    exact iff_of_true rfl fun absent => absurd absent gone

end

namespace Transaction

variable {txn : Transaction}

theorem checkIntegrity_eq_ok (inStep : txn.InStep) (staged : txn.StagedKeys) :
    txn.checkIntegrity = .ok () ↔
      (∀ forward ∈ putKeys txn.edgesFwd, Anchored txn.applied.nodes forward) ∧
      ∀ key ∈ deleteKeys txn.nodes, key ∉ txn.applied.nodes.keys →
        Unreferenced txn.applied.edgesFwd key := by
  have puts : ∀ forward ∈ putKeys txn.edgesFwd,
      ∃ edge, EdgeKey.decodeFwd forward = .ok edge := by
    intro forward member
    obtain ⟨record, isPut⟩ := mem_putKeys.mp member
    exact staged.edges _ isPut
  have deletes : ∀ key ∈ deleteKeys txn.nodes, ∃ node, NodeKey.decode key = .ok node := by
    intro key member
    exact staged.nodes _ (mem_deleteKeys.mp member)
  have checks : checkReferentialIntegrity txn.applied.nodes txn.applied.edgesFwd
      txn.applied.edgesRev (putKeys txn.edgesFwd) (deleteKeys txn.nodes) = .ok () ↔
      (∀ forward ∈ putKeys txn.edgesFwd, Anchored txn.applied.nodes forward) ∧
      ∀ key ∈ deleteKeys txn.nodes, key ∉ txn.applied.nodes.keys →
        Unreferenced txn.applied.edgesFwd key := by
    rw [checkReferentialIntegrity, check_bind_eq_ok, checkEach_eq_ok, checkEach_eq_ok]
    constructor
    · rintro ⟨endpoints, unreferenced⟩
      constructor
      · intro forward member
        obtain ⟨edge, decoded⟩ := puts forward member
        exact (checkEndpoints_eq_ok decoded).mp (endpoints forward member)
      · intro key member
        obtain ⟨node, decoded⟩ := deletes key member
        exact (checkUnreferenced_eq_ok inStep decoded).mp (unreferenced key member)
    · rintro ⟨endpoints, unreferenced⟩
      constructor
      · intro forward member
        obtain ⟨edge, decoded⟩ := puts forward member
        exact (checkEndpoints_eq_ok decoded).mpr (endpoints forward member)
      · intro key member
        obtain ⟨node, decoded⟩ := deletes key member
        exact (checkUnreferenced_eq_ok inStep decoded).mpr (unreferenced key member)
  rw [checkIntegrity]
  split
  · next nothing =>
      rw [List.isEmpty_iff, List.isEmpty_iff] at nothing
      simp [nothing.1, nothing.2]
  · exact checks

theorem noDangling_of_checkIntegrity (inStep : txn.InStep) (staged : txn.StagedKeys)
    (whole : NoDangling txn.base.manifest.nodes txn.base.manifest.edgesFwd)
    (passed : txn.checkIntegrity = .ok ()) :
    NoDangling txn.applied.nodes txn.applied.edgesFwd := by
  obtain ⟨endpoints, unreferenced⟩ := (checkIntegrity_eq_ok inStep staged).mp passed
  intro forward member
  by_cases isPut : forward ∈ putKeys txn.edgesFwd
  · exact endpoints forward isPut
  · have inBase := mem_keys_of_not_put member isPut
    intro edge decoded endpoint isEndpoint key encoded
    by_contra gone
    have deleted := mem_deleteKeys_of_gone
      (whole forward inBase edge decoded endpoint isEndpoint key encoded) gone
    exact unreferenced key deleted gone forward member edge decoded endpoint isEndpoint
      encoded

private theorem unreferenced_of_noDangling
    (whole : NoDangling txn.applied.nodes txn.applied.edgesFwd) {key : Bytes}
    (gone : key ∉ txn.applied.nodes.keys) : Unreferenced txn.applied.edgesFwd key := by
  intro forward member edge decoded endpoint isEndpoint encoded
  exact gone (whole forward member edge decoded endpoint isEndpoint key encoded)

end Transaction

/-- The check agrees with the resulting maps exactly when every edge the
transaction puts and leaves out of the result has its endpoints there, or the
result has a dangling edge anyway. -/
theorem checkIntegrity_exact_iff (base : Workspace) (writes : List Write)
    (mirrored : Mirrored base.manifest.edgesFwd base.manifest.edgesRev)
    (whole : NoDangling base.manifest.nodes base.manifest.edgesFwd) :
    let txn := (Transaction.beginWrite base).stage writes
    ((txn.checkIntegrity = .ok () ↔
        NoDangling txn.applied.nodes txn.applied.edgesFwd) ↔
      ((∀ forward ∈ putKeys txn.edgesFwd, forward ∉ txn.applied.edgesFwd.keys →
          Anchored txn.applied.nodes forward) ∨
        ¬ NoDangling txn.applied.nodes txn.applied.edgesFwd)) := by
  intro txn
  have inStep : txn.InStep := Transaction.stage_inStep mirrored writes
  have staged : txn.StagedKeys := Transaction.stage_stagedKeys base writes
  have wholeBase : NoDangling txn.base.manifest.nodes txn.base.manifest.edgesFwd := by
    have same : txn.base = base := Transaction.stage_base base writes
    rw [same]
    exact whole
  have sound := Transaction.noDangling_of_checkIntegrity inStep staged wholeBase
  rw [Transaction.checkIntegrity_eq_ok inStep staged] at sound ⊢
  constructor
  · intro exact
    by_cases result : NoDangling txn.applied.nodes txn.applied.edgesFwd
    · exact .inl fun forward member _ => (exact.mpr result).1 forward member
    · exact .inr result
  · rintro (anchored | dangling)
    · refine ⟨sound, fun result => ⟨?_, ?_⟩⟩
      · intro forward member
        by_cases present : forward ∈ txn.applied.edgesFwd.keys
        · exact result forward present
        · exact anchored forward member present
      · intro key _ gone
        exact Transaction.unreferenced_of_noDangling result gone
    · exact iff_of_false (fun passed => dangling (sound passed)) dangling

def hostKey (id : Int64) : NodeKey := ⟨"Host", [.int id], rfl⟩

def linkKey : EdgeKey := ⟨hostKey 1, "LINK", hostKey 2, .null, rfl⟩

/-- An edge put together with its endpoints. -/
theorem checkIntegrity_exact_iff_linked :
    let txn := (Transaction.beginWrite blank).stage
      [.putEdge linkKey ⟨.empty⟩, .putNode (hostKey 1) ⟨∅, .empty⟩,
        .putNode (hostKey 2) ⟨∅, .empty⟩]
    txn.checkIntegrity = .ok () ↔ NoDangling txn.applied.nodes txn.applied.edgesFwd := by
  refine (checkIntegrity_exact_iff blank _ Mirrored.empty (fun _ member => nomatch member)).mpr
    (.inl ?_)
  intro forward member absent
  have present : ∀ forward ∈ putKeys ((Transaction.beginWrite blank).stage
      [.putEdge linkKey ⟨.empty⟩, .putNode (hostKey 1) ⟨∅, .empty⟩,
        .putNode (hostKey 2) ⟨∅, .empty⟩]).edgesFwd,
      forward ∈ ((Transaction.beginWrite blank).stage
        [.putEdge linkKey ⟨.empty⟩, .putNode (hostKey 1) ⟨∅, .empty⟩,
          .putNode (hostKey 2) ⟨∅, .empty⟩]).applied.edgesFwd.keys := by
    decide +kernel
  exact absurd (present forward member) absent

/-- An edge put and deleted again leaves nothing behind, but is refused for its
missing endpoints. -/
theorem checkIntegrity_refuses_deleted_edge :
    ∃ (base : Workspace) (writes : List Write),
      Mirrored base.manifest.edgesFwd base.manifest.edgesRev ∧
      NoDangling base.manifest.nodes base.manifest.edgesFwd ∧
      ¬ (((Transaction.beginWrite base).stage writes).checkIntegrity = .ok () ↔
        NoDangling ((Transaction.beginWrite base).stage writes).applied.nodes
          ((Transaction.beginWrite base).stage writes).applied.edgesFwd) := by
  refine ⟨blank, [.putEdge linkKey ⟨.empty⟩, .deleteEdge linkKey], Mirrored.empty,
    (fun _ member => nomatch member), ?_⟩
  have refused : ((Transaction.beginWrite blank).stage
      [.putEdge linkKey ⟨.empty⟩, .deleteEdge linkKey]).checkIntegrity =
      .error (.danglingEdge "LINK" "source" (hostKey 1)) := by
    decide +kernel
  have gone : ((Transaction.beginWrite blank).stage
      [.putEdge linkKey ⟨.empty⟩, .deleteEdge linkKey]).applied.edgesFwd.keys = [] := by
    decide +kernel
  intro exact
  rw [refused] at exact
  refine nomatch exact.mpr ?_
  intro forward member
  rw [gone] at member
  cases member

end Acetone.Graph

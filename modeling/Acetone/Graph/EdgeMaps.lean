import Acetone.Graph.Transaction

/-!
# The two edge maps

`edges_rev` holds the reverse key of every forward edge and nothing else.  Both
keys of an edge determine each other, so a pair of updates that puts or deletes
one edge in both maps keeps them in step, and so does rewriting the record of
an edge that is there.
-/

namespace Acetone.Graph

open Acetone.Lib Acetone.Model

def reverseKey (forward : Bytes) : Except GraphError Bytes := do
  let edge ← liftKey (EdgeKey.decodeFwd forward)
  liftKey edge.encodeRev

/-- The keys of the reverse map are the image of the forward keys. -/
structure Mirrored (edgesFwd : EdgeMap) (edgesRev : KeySet Bytes) : Prop where
  keyed : ∀ forward ∈ edgesFwd.keys, ∃ edge, EdgeKey.decodeFwd forward = .ok edge
  image : ∀ backward, backward ∈ edgesRev.keys ↔
    ∃ forward ∈ edgesFwd.keys, reverseKey forward = .ok backward

theorem reverseKey_eq_ok {forward backward : Bytes} :
    reverseKey forward = .ok backward ↔
      ∃ edge, EdgeKey.decodeFwd forward = .ok edge ∧ edge.encodeRev = .ok backward := by
  simp only [reverseKey, bind_eq_ok, liftKey_eq_ok]

theorem reverseKey_of_decodeFwd {forward : Bytes} {edge : EdgeKey}
    (decoded : EdgeKey.decodeFwd forward = .ok edge) :
    ∃ backward, reverseKey forward = .ok backward ∧
      EdgeKey.decodeRev backward = .ok edge := by
  have encodedFwd := EdgeKey.encodeFwd_of_decodeFwd decoded
  obtain ⟨backward, encodedRev⟩ := EdgeKey.encodeRev_of_encodeFwd encodedFwd
  obtain ⟨stored, fromFwd, fromRev, -⟩ := EdgeKey.decode_of_encode encodedFwd encodedRev
  rw [decoded] at fromFwd
  cases fromFwd
  exact ⟨backward, reverseKey_eq_ok.mpr ⟨edge, decoded, encodedRev⟩, fromRev⟩

theorem reverseKey_injective {left right backward : Bytes}
    (leftReversed : reverseKey left = .ok backward)
    (rightReversed : reverseKey right = .ok backward) : left = right := by
  obtain ⟨edge, leftDecoded, -⟩ := reverseKey_eq_ok.mp leftReversed
  obtain ⟨other, rightDecoded, -⟩ := reverseKey_eq_ok.mp rightReversed
  obtain ⟨_, leftAgain, leftBack⟩ := reverseKey_of_decodeFwd leftDecoded
  obtain ⟨_, rightAgain, rightBack⟩ := reverseKey_of_decodeFwd rightDecoded
  rw [leftReversed] at leftAgain
  rw [rightReversed] at rightAgain
  cases leftAgain
  cases rightAgain
  rw [leftBack] at rightBack
  cases rightBack
  have encoded := EdgeKey.encodeFwd_of_decodeFwd leftDecoded
  rw [EdgeKey.encodeFwd_of_decodeFwd rightDecoded] at encoded
  exact (Except.ok.inj encoded).symm

theorem reverseKey_of_encode {edge : EdgeKey} {forward backward : Bytes}
    (encodedFwd : edge.encodeFwd = .ok forward)
    (encodedRev : edge.encodeRev = .ok backward) :
    reverseKey forward = .ok backward := by
  obtain ⟨stored, fromFwd, fromRev, -⟩ := EdgeKey.decode_of_encode encodedFwd encodedRev
  exact reverseKey_eq_ok.mpr ⟨stored, fromFwd, EdgeKey.encodeRev_of_decodeRev fromRev⟩

theorem keyed_of_reverseKey {forward backward : Bytes}
    (reversed : reverseKey forward = .ok backward) :
    ∃ edge, EdgeKey.decodeFwd forward = .ok edge := by
  obtain ⟨edge, decoded, -⟩ := reverseKey_eq_ok.mp reversed
  exact ⟨edge, decoded⟩

section

variable {V : Type}

theorem mem_keys_put {map : SortedMap Bytes V} {key query : Bytes} {value : V} :
    query ∈ (map.put key value).keys ↔ query = key ∨ query ∈ map.keys := by
  rw [SortedMap.mem_keys, SortedMap.mem_keys, SortedMap.get_put]
  by_cases same : key = query
  · simp [same]
  · rw [if_neg same]
    constructor
    · exact .inr
    · rintro (rfl | member)
      · exact absurd rfl same
      · exact member

theorem mem_keys_delete {map : SortedMap Bytes V} {key query : Bytes} :
    query ∈ (map.delete key).keys ↔ query ≠ key ∧ query ∈ map.keys := by
  rw [SortedMap.mem_keys, SortedMap.mem_keys, SortedMap.get_delete]
  by_cases same : key = query
  · simp [same]
  · rw [if_neg same]
    constructor
    · exact fun member => ⟨fun equal => same equal.symm, member⟩
    · exact And.right

end

namespace Mirrored

variable {edgesFwd : EdgeMap} {edgesRev : KeySet Bytes}

theorem empty : Mirrored .empty .empty where
  keyed _ member := nomatch member
  image _ := ⟨nofun, fun ⟨_, member, _⟩ => nomatch member⟩

theorem put (mirrored : Mirrored edgesFwd edgesRev) {forward backward : Bytes}
    (reversed : reverseKey forward = .ok backward) (record : EdgeRecord) :
    Mirrored (edgesFwd.put forward record) (edgesRev.put backward ()) where
  keyed := by
    intro key member
    rcases mem_keys_put.mp member with rfl | old
    · exact keyed_of_reverseKey reversed
    · exact mirrored.keyed key old
  image := by
    intro query
    rw [mem_keys_put, mirrored.image]
    constructor
    · rintro (rfl | ⟨key, member, isReverse⟩)
      · exact ⟨forward, mem_keys_put.mpr (.inl rfl), reversed⟩
      · exact ⟨key, mem_keys_put.mpr (.inr member), isReverse⟩
    · rintro ⟨key, member, isReverse⟩
      rcases mem_keys_put.mp member with rfl | old
      · rw [reversed] at isReverse
        exact .inl (Except.ok.inj isReverse).symm
      · exact .inr ⟨key, old, isReverse⟩

theorem delete (mirrored : Mirrored edgesFwd edgesRev) {forward backward : Bytes}
    (reversed : reverseKey forward = .ok backward) :
    Mirrored (edgesFwd.delete forward) (edgesRev.delete backward) where
  keyed := by
    intro key member
    exact mirrored.keyed key (mem_keys_delete.mp member).2
  image := by
    intro query
    rw [mem_keys_delete, mirrored.image]
    constructor
    · rintro ⟨different, key, member, isReverse⟩
      refine ⟨key, mem_keys_delete.mpr ⟨?_, member⟩, isReverse⟩
      rintro rfl
      rw [reversed] at isReverse
      exact different (Except.ok.inj isReverse).symm
    · rintro ⟨key, member, isReverse⟩
      obtain ⟨different, old⟩ := mem_keys_delete.mp member
      refine ⟨?_, key, old, isReverse⟩
      rintro rfl
      exact different (reverseKey_injective isReverse reversed)

theorem rewrite (mirrored : Mirrored edgesFwd edgesRev) {forward : Bytes}
    (present : forward ∈ edgesFwd.keys) (record : EdgeRecord) :
    Mirrored (edgesFwd.put forward record) edgesRev := by
  have same : ∀ key, key ∈ (edgesFwd.put forward record).keys ↔ key ∈ edgesFwd.keys := by
    intro key
    rw [mem_keys_put]
    constructor
    · rintro (rfl | member)
      · exact present
      · exact member
    · exact .inr
  refine ⟨fun key member => mirrored.keyed key ((same key).mp member), ?_⟩
  intro query
  simp only [same, mirrored.image]

theorem unique {other : KeySet Bytes} (mirrored : Mirrored edgesFwd edgesRev)
    (again : Mirrored edgesFwd other) : edgesRev = other := by
  apply KeySet.ext
  intro backward
  rw [← KeySet.get_ne_none, ← KeySet.get_ne_none, ← SortedMap.mem_keys, ← SortedMap.mem_keys,
    mirrored.image, again.image]

end Mirrored

theorem applyAll_concat {V : Type} (map : SortedMap Bytes V) (ops : List (MapOp Bytes V))
    (op : MapOp Bytes V) : map.applyAll (ops ++ [op]) = MapOp.apply (map.applyAll ops) op := by
  rw [SortedMap.applyAll, List.foldl_append]
  rfl

namespace Transaction

variable {txn next : Transaction}

def InStep (txn : Transaction) : Prop :=
  Mirrored txn.applied.edgesFwd txn.applied.edgesRev

theorem putEdge_inStep {key : EdgeKey} {record : EdgeRecord}
    (written : txn.putEdge key record = .ok next) (inStep : txn.InStep) : next.InStep := by
  simp only [putEdge, bind_eq_ok, liftKey_eq_ok, Except.ok.injEq] at written
  obtain ⟨forward, encodedFwd, backward, encodedRev, rfl⟩ := written
  have reversed := reverseKey_of_encode encodedFwd encodedRev
  simp only [InStep, applied, applyAll_concat]
  exact inStep.put reversed record

theorem deleteEdge_inStep {key : EdgeKey} (written : txn.deleteEdge key = .ok next)
    (inStep : txn.InStep) : next.InStep := by
  simp only [deleteEdge, bind_eq_ok, liftKey_eq_ok, Except.ok.injEq] at written
  obtain ⟨forward, encodedFwd, backward, encodedRev, rfl⟩ := written
  have reversed := reverseKey_of_encode encodedFwd encodedRev
  simp only [InStep, applied, applyAll_concat]
  exact inStep.delete reversed

theorem write_inStep {write : Write} (written : txn.write write = .ok next)
    (inStep : txn.InStep) : next.InStep := by
  cases write with
  | putNode key record =>
      simp only [Transaction.write, putNode, bind_eq_ok, Except.ok.injEq] at written
      obtain ⟨bytes, -, rfl⟩ := written
      exact inStep
  | deleteNode key =>
      simp only [Transaction.write, deleteNode, bind_eq_ok, Except.ok.injEq] at written
      obtain ⟨bytes, -, rfl⟩ := written
      exact inStep
  | putEdge key record => exact putEdge_inStep written inStep
  | deleteEdge key => exact deleteEdge_inStep written inStep
  | putSchema entry =>
      cases written
      exact inStep
  | deleteSchemaEntry rtype =>
      cases written
      exact inStep

/-- What every write of a sequence preserves holds after the sequence. -/
theorem stage_induction {invariant : Transaction → Prop}
    (step : ∀ {txn next : Transaction} {write : Write}, txn.write write = .ok next →
      invariant txn → invariant next) (writes : List Write) (start : invariant txn) :
    invariant (txn.stage writes) := by
  induction writes generalizing txn with
  | nil => exact start
  | cons write writes ih =>
      rw [stage, List.foldl_cons]
      apply ih
      cases outcome : txn.write write with
      | error cause => exact start
      | ok next => exact step outcome start

private theorem write_base {write : Write} (written : txn.write write = .ok next) :
    next.base = txn.base := by
  cases write <;>
    simp only [Transaction.write, putNode, deleteNode, putEdge, deleteEdge, bind_eq_ok,
      Except.ok.injEq] at written
  case putNode =>
    obtain ⟨_, -, rfl⟩ := written
    rfl
  case deleteNode =>
    obtain ⟨_, -, rfl⟩ := written
    rfl
  case putEdge =>
    obtain ⟨_, -, _, -, rfl⟩ := written
    rfl
  case deleteEdge =>
    obtain ⟨_, -, _, -, rfl⟩ := written
    rfl
  case putSchema =>
    cases written
    rfl
  case deleteSchemaEntry =>
    cases written
    rfl

theorem stage_base (base : Workspace) (writes : List Write) :
    ((beginWrite base).stage writes).base = base :=
  @stage_induction _ (fun txn => txn.base = base)
    (fun written same => (write_base written).trans same) writes rfl

theorem stage_inStep {base : Workspace}
    (mirrored : Mirrored base.manifest.edgesFwd base.manifest.edgesRev)
    (writes : List Write) : ((beginWrite base).stage writes).InStep :=
  stage_induction write_inStep writes mirrored

end Transaction

end Acetone.Graph

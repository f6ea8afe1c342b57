import Acetone.Prolly.History
import Acetone.Prolly.Ranges

/-!
# Runs refine the abstract map

After any run, lookups and scans answer what the abstract map answers, and
every chunk the run wrote passes the reader's checks.
-/

namespace Acetone.Prolly

open Acetone.Lib

section

variable {env : Substrate} {params : ChunkParams}

theorem Denotes.leads {store : Store} {root : Root} {top : Nat} {chunk : Chunk top}
    (denotes : Denotes env params store root chunk) : Leads env store root chunk := by
  rw [denotes.root_eq]
  rcases denotes.held with standing | ⟨leaf, empty, held⟩
  · exact ⟨rfl, rfl, standing.bounded, .inl standing.stored⟩
  · exact ⟨rfl, rfl, by rw [leaf]; decide, .inr ⟨leaf, empty, held⟩⟩

/-- The chunk reads back as a node of some level, at every position whose
declared last key and lower bound the node agrees with. -/
def Accepted (env : Substrate) (store : Store) (bytes : Bytes) : Prop :=
  ∃ level node, level < maxHeight ∧
    ∀ expectLastKey minKeyExclusive : Option Bytes,
      (∀ want ∈ expectLastKey, node.lastKey = some want) →
      (∀ low ∈ minKeyExclusive, ∀ first ∈ node.firstKey, low < first) →
      readNode env.address store (env.address bytes) level expectLastKey
        minKeyExclusive = .ok node

private theorem accepted_of_decode {store : Store}
    (free : CollisionFree env.address store) {bytes : Bytes}
    (member : bytes ∈ store) {level : Nat} (bounded : level < maxHeight)
    {node : Node} (decoded : decodeNode bytes level = .ok node) :
    Accepted env store bytes := by
  refine ⟨level, node, bounded, ?_⟩
  intro expectLastKey minKeyExclusive sameLast above
  have ends : endsAt node expectLastKey = true := by
    cases expectLastKey with
    | none => rfl
    | some want => simp [endsAt, sameLast want rfl]
  have lies : liesAbove node minKeyExclusive = true := by
    cases minKeyExclusive with
    | none => rfl
    | some low =>
        cases isFirst : node.firstKey with
        | none => simp only [liesAbove, isFirst]
        | some first =>
            have higher := above low rfl first isFirst
            simp only [liesAbove, isFirst, higher, decide_true]
  rw [readNode, Store.get_of_mem free member]
  simp only [decoded, ok_bind, ends, lies, not_true_eq_false, if_false]

theorem IsNode.accepted {store : Store} (free : CollisionFree env.address store)
    {bytes : Bytes} (member : bytes ∈ store) (node : IsNode env store bytes) :
    Accepted env store bytes := by
  obtain ⟨level, chunk, bounded, rfl, stored | ⟨rfl, rfl⟩⟩ := node
  · exact accepted_of_decode free member bounded
      (decodeNode_chunk (Nat.lt_trans bounded (by decide)) stored)
  · exact accepted_of_decode free member bounded
      (decodeNode_leaf [] (by decide) nofun .nil)

end

/-- Every run succeeds, and its tree answers as the abstract map does. -/
theorem run_refines_map (env : Substrate) (params : ChunkParams) (store : Store)
    (entries : List (Bytes × Bytes)) (batches : List (List BatchOp))
    (free : CollisionFree env.address
      (chunkSpace env store params (states (loaded entries) batches)))
    (storable : ∀ state ∈ states (loaded entries) batches,
      Storable state.entries) :
    ∃ root after, run env store params entries batches = .ok (root, after) ∧
      (∀ key, get env after root key =
        .ok ((applied (loaded entries) batches).get key)) ∧
      (∃ started, scan env after root .unbounded .unbounded = .ok started ∧
        ∃ enough, ∀ turns, enough ≤ turns →
          collect (Scan.turn env after) turns started =
            some (.ok (applied (loaded entries) batches).entries)) ∧
      ∀ bytes ∈ after, bytes ∉ store → Accepted env after bytes := by
  obtain ⟨root, after, top, chunk, done, built, -⟩ := run_spec free storable
  have free := free.subset built.within
  have leads := built.denotes.leads
  obtain ⟨started, seeks, collected⟩ := scan_spec free leads
  rw [built.contents] at collected
  refine ⟨root, after, done, ?_, ⟨started, seeks, collected.collect⟩, ?_⟩
  · intro key
    rw [get_spec free leads, built.contents]
    rfl
  · intro bytes member fresh
    rcases built.nodes bytes member with old | node
    · exact absurd old fresh
    · exact node.accepted free member

theorem run_refines_map_sample :
    ∃ root after, run sampleEnv [] sampleParams fivePairs [deleteFour] =
        .ok (root, after) ∧
      (∀ key, get sampleEnv after root key =
        .ok ((applied (loaded fivePairs) [deleteFour]).get key)) ∧
      (∃ started, scan sampleEnv after root .unbounded .unbounded =
          .ok started ∧
        ∃ enough, ∀ turns, enough ≤ turns →
          collect (Scan.turn sampleEnv after) turns started =
            some (.ok (applied (loaded fivePairs) [deleteFour]).entries)) ∧
      ∀ bytes ∈ after, bytes ∉ [] → Accepted sampleEnv after bytes :=
  run_refines_map sampleEnv sampleParams [] fivePairs [deleteFour]
    (by decide +kernel) (by decide +kernel)

end Acetone.Prolly

import Acetone.Prolly.Batches

/-!
# History independence

A run is a bulk load followed by batches, each starting from the root before
it.  Whatever the run, its final root leads to a tree of the contents that the
abstract map has; as long as no batch strands a node, the tree is canonical,
and the root is the one a bulk load of those contents yields.
-/

namespace Acetone.Prolly

open Acetone.Lib

abbrev ByteMap := SortedMap Bytes Bytes

/-- The map of a bulk load; the last pair of a key wins. -/
def loaded (entries : List (Bytes × Bytes)) : ByteMap :=
  SortedMap.empty.applyAll (entries.map fun entry => .put entry.1 entry.2)

def applied (map : ByteMap) (batches : List (List BatchOp)) : ByteMap :=
  batches.foldl SortedMap.applyAll map

/-- Every map on the way, the first and the last included. -/
def states (map : ByteMap) : List (List BatchOp) → List ByteMap
  | [] => [map]
  | ops :: batches => map :: states (map.applyAll ops) batches

theorem loaded_entries (entries : List (Bytes × Bytes)) :
    (loaded entries).entries = sortDedupe Prod.fst entries :=
  SortedMap.entries_putAll entries

theorem updated_entries (map : ByteMap) (ops : List BatchOp) :
    updated map.entries ops = (map.applyAll ops).entries := by
  rw [updated, mergeSorted_eq_applyAll map (sortDedupe_ascending MapOp.key ops),
    map.applyAll_sortDedupe]

private theorem head_mem_states (map : ByteMap) (batches : List (List BatchOp)) :
    map ∈ states map batches := by
  cases batches <;> exact List.mem_cons_self

theorem applied_mem_states (map : ByteMap) (batches : List (List BatchOp)) :
    applied map batches ∈ states map batches := by
  induction batches generalizing map with
  | nil => exact List.mem_cons_self
  | cons ops batches ih => exact List.mem_cons_of_mem _ (ih (map.applyAll ops))

section

variable (env : Substrate)

def applyBatches (store : Store) (root : Root) :
    List (List BatchOp) → Except ProllyError (Root × Store)
  | [] => .ok (root, store)
  | ops :: batches => do
      let (root, store) ← applyBatch env store root ops
      applyBatches store root batches

/-- Bulk load, then apply batches. -/
def run (store : Store) (params : ChunkParams) (entries : List (Bytes × Bytes))
    (batches : List (List BatchOp)) : Except ProllyError (Root × Store) := do
  let (root, store) ← bulkLoad env store params entries
  applyBatches env store root batches

def Calm (params : ChunkParams) (map : ByteMap) : List (List BatchOp) → Prop
  | [] => True
  | ops :: batches =>
      ¬ Strands env params map.entries ops ∧ Calm params (map.applyAll ops) batches

/-- Every chunk that a run or a bulk load of one of its states may write. -/
def chunkSpace (store : Store) (params : ChunkParams) (maps : List ByteMap) :
    List Bytes :=
  store ++ maps.flatMap fun map => canonicalChunks env params map.entries

variable {env} {params : ChunkParams}

private theorem store_subset_space (store : Store) (maps : List ByteMap) :
    store ⊆ chunkSpace env store params maps :=
  List.subset_append_left _ _

private theorem roomy_of_mem {store : Store} {maps : List ByteMap} {map : ByteMap}
    (member : map ∈ maps) :
    Roomy env params (chunkSpace env store params maps) map.entries := by
  intro bytes inside
  exact List.mem_append_right _ (List.mem_flatMap.mpr ⟨map, member, inside⟩)

theorem applyBatch_spec {space : List Bytes}
    (free : CollisionFree env.address space) {store : Store}
    (within : store ⊆ space) {root : Root} {top : Nat} {chunk : Chunk top}
    (denotes : Denotes env params store root chunk) {map : ByteMap}
    (holds : chunk.contents = map.entries) (ops : List BatchOp)
    (roomy : Roomy env params space (map.applyAll ops).entries)
    (storable : Storable (map.applyAll ops).entries) :
    ∃ next after under, ∃ node : Chunk under,
      applyBatch env store root ops = .ok (next, after) ∧
      Built env params space store after (map.applyAll ops).entries next node ∧
      (Minimal chunk → ¬ Strands env params map.entries ops → Minimal node) := by
  rw [← updated_entries, ← holds] at roomy storable ⊢
  obtain ⟨next, recorded, after, under, node, done, built, minimal⟩ :=
    applyBatchInner_spec free within denotes (holds ▸ map.ascending) ops roomy
      storable none
  refine ⟨next, after, under, node, ?_, built, minimal⟩
  rw [applyBatch, done, ok_bind]

theorem applyBatches_spec {space : List Bytes}
    (free : CollisionFree env.address space) {store : Store}
    (within : store ⊆ space) {root : Root} {top : Nat} {chunk : Chunk top}
    (denotes : Denotes env params store root chunk) {map : ByteMap}
    (holds : chunk.contents = map.entries) (batches : List (List BatchOp))
    (roomy : ∀ state ∈ states map batches, Roomy env params space state.entries)
    (storable : ∀ state ∈ states map batches, Storable state.entries) :
    ∃ last after under, ∃ node : Chunk under,
      applyBatches env store root batches = .ok (last, after) ∧
      Built env params space store after (applied map batches).entries last
        node ∧
      (Minimal chunk → Calm env params map batches → Minimal node) := by
  induction batches generalizing store root top chunk map with
  | nil =>
      exact ⟨root, store, top, chunk, rfl, ⟨denotes, holds, List.Subset.refl _,
        within, fun _ member => .inl member⟩, fun minimal _ => minimal⟩
  | cons ops batches ih =>
      have next := List.mem_cons_of_mem map
        (head_mem_states (map.applyAll ops) batches)
      obtain ⟨middle, between, under, node, done, built, minimal⟩ :=
        applyBatch_spec free within denotes holds ops (roomy _ next)
          (storable _ next)
      obtain ⟨last, after, bottom, final, finished, further, still⟩ :=
        ih built.within built.denotes built.contents
          (fun state member => roomy state (List.mem_cons_of_mem _ member))
          (fun state member => storable state (List.mem_cons_of_mem _ member))
      refine ⟨last, after, bottom, final, ?_, further.after built.grows built.nodes,
        fun start calm => still (minimal start calm.1) calm.2⟩
      rw [applyBatches, done, ok_bind]
      exact finished

theorem run_spec {store : Store} {entries : List (Bytes × Bytes)}
    {batches : List (List BatchOp)}
    (free : CollisionFree env.address
      (chunkSpace env store params (states (loaded entries) batches)))
    (storable : ∀ state ∈ states (loaded entries) batches,
      Storable state.entries) :
    ∃ root after top, ∃ chunk : Chunk top,
      run env store params entries batches = .ok (root, after) ∧
      Built env params
        (chunkSpace env store params (states (loaded entries) batches)) store
        after (applied (loaded entries) batches).entries root chunk ∧
      (Calm env params (loaded entries) batches → Minimal chunk) := by
  have first := head_mem_states (loaded entries) batches
  have roomy := @roomy_of_mem env params store _ _ first
  have fits := storable _ first
  rw [loaded_entries] at roomy fits
  obtain ⟨root, between, top, chunk, done, built, minimal⟩ :=
    bulkLoad_spec free (store_subset_space store _) roomy fits
  rw [← loaded_entries] at built
  obtain ⟨last, after, under, node, finished, further, still⟩ :=
    applyBatches_spec free built.within built.denotes built.contents batches
      (fun state member => roomy_of_mem member) storable
  refine ⟨last, after, under, node, ?_, further.after built.grows built.nodes,
    still minimal⟩
  rw [run, done, ok_bind]
  exact finished

theorem Denotes.canonical {store : Store} {root : Root} {top : Nat}
    {chunk : Chunk top} (denotes : Denotes env params store root chunk)
    (minimal : Minimal chunk) : Canonical env params chunk.contents top chunk := by
  rcases denotes.held with standing | ⟨rfl, rfl, -⟩
  · exact standing.regular.canonical minimal
  · exact ⟨.inl rfl, rfl, .inl rfl⟩

/-- A minimal tree's root is determined by its contents. -/
theorem Denotes.root_unique {store other : Store} {left right : Root}
    {top under : Nat} {chunk : Chunk top} {node : Chunk under}
    (leftDenotes : Denotes env params store left chunk)
    (rightDenotes : Denotes env params other right node)
    (leftMinimal : Minimal chunk) (rightMinimal : Minimal node)
    (same : chunk.contents = node.contents) : left = right := by
  have leftCanonical := leftDenotes.canonical leftMinimal
  rw [same] at leftCanonical
  obtain ⟨rfl, equal⟩ :=
    leftCanonical.unique (rightDenotes.canonical rightMinimal)
  rw [leftDenotes.root_eq, rightDenotes.root_eq, eq_of_heq equal]

/-- A run without stranding ends in the root that a bulk load of the final
contents yields, into whatever store. -/
theorem run_root_eq_bulkLoad (env : Substrate) (params : ChunkParams)
    (store : Store) (entries : List (Bytes × Bytes))
    (batches : List (List BatchOp))
    (free : CollisionFree env.address
      (chunkSpace env store params (states (loaded entries) batches)))
    (storable : ∀ state ∈ states (loaded entries) batches,
      Storable state.entries)
    (calm : Calm env params (loaded entries) batches) :
    ∃ root after, run env store params entries batches = .ok (root, after) ∧
      ∀ elsewhere : Store,
        CollisionFree env.address (chunkSpace env elsewhere params
          [applied (loaded entries) batches]) →
        ∃ written, bulkLoad env elsewhere params
          (applied (loaded entries) batches).entries = .ok (root, written) := by
  obtain ⟨root, after, top, chunk, done, built, minimal⟩ := run_spec free storable
  refine ⟨root, after, done, ?_⟩
  intro elsewhere alsoFree
  have final := storable _ (applied_mem_states (loaded entries) batches)
  have sorted := (applied (loaded entries) batches).ascending
  obtain ⟨other, written, under, node, loads, loadBuilt, loadMinimal⟩ :=
    @bulkLoad_spec env params _ alsoFree elsewhere
      (store_subset_space elsewhere _) (applied (loaded entries) batches).entries
      (by rw [sorted.sortDedupe_eq]; exact roomy_of_mem List.mem_cons_self)
      (by rw [sorted.sortDedupe_eq]; exact final)
  rw [sorted.sortDedupe_eq] at loadBuilt
  have same := built.denotes.root_unique loadBuilt.denotes (minimal calm)
    loadMinimal (built.contents.trans loadBuilt.contents.symm)
  exact ⟨written, same ▸ loads⟩

/-- A batch that leaves no fewer entries strands nothing. -/
theorem not_strands_of_grown {pairs : List (Bytes × Bytes)} {ops : List BatchOp}
    (grown : pairs.length ≤ (updated pairs ops).length) : ¬ Strands env params pairs ops := by
  rintro ⟨some, level, -, before, node, split, -, beyond, rest⟩
  have joined := segments_flatten (cutAt env params level) (tier env params pairs level)
  rw [split, List.flatten_append, List.flatten_singleton] at joined
  have whole : pairs = Chunk.contents before.flatten ++ node.contents := by
    rw [← Chunk.contents_append, joined]
    exact (contents_tier pairs level).symm
  obtain ⟨op, ops, rfl⟩ := List.exists_cons_of_ne_nil some
  obtain ⟨pair, member, -⟩ := beyond op List.mem_cons_self
  have occupied := List.length_pos_of_mem member
  have total := congrArg List.length whole
  rw [List.length_append] at total
  rw [rest] at grown
  omega

end

/-- A digest for concrete runs: the chunk as a number, reduced to twenty
bytes. -/
def sampleAddress (chunk : Bytes) : Hash :=
  ⟨beBytes 20 (ofBeBytes chunk % (2 ^ 160 - 47)), .inl (beBytes_length _ _)⟩

def sampleEnv : Substrate := ⟨sampleAddress, gear⟩

/-- Every chunk ends after its second entry. -/
def sampleParams : ChunkParams :=
  ⟨1, 0, 1, by decide, by decide, by decide, by decide⟩

def fivePairs : List (Bytes × Bytes) :=
  [([1], []), ([2], []), ([3], []), ([4], []), ([5], [])]

/-- A batch on a tree of three levels. -/
theorem run_root_eq_bulkLoad_sample :
    ∃ root after, run sampleEnv [] sampleParams fivePairs [[.put [2] [7], .put [6] []]] =
        .ok (root, after) ∧
      ∀ elsewhere : Store,
        CollisionFree sampleAddress (chunkSpace sampleEnv elsewhere sampleParams
          [applied (loaded fivePairs) [[.put [2] [7], .put [6] []]]]) →
        ∃ written, bulkLoad sampleEnv elsewhere sampleParams
          (applied (loaded fivePairs) [[.put [2] [7], .put [6] []]]).entries =
            .ok (root, written) :=
  run_root_eq_bulkLoad sampleEnv sampleParams [] fivePairs [[.put [2] [7], .put [6] []]]
    (by decide +kernel) (by decide +kernel)
    ⟨not_strands_of_grown (by decide +kernel), trivial⟩

/-- Deletes all but the last of `fivePairs`, which sits alone under its
parents. -/
def deleteFour : List BatchOp :=
  [.delete [1], .delete [2], .delete [3], .delete [4]]

/-- The surviving entry keeps its single-child parent, so the root is one level
higher than that of a bulk load. -/
theorem run_root_ne_bulkLoad :
    CollisionFree sampleAddress (chunkSpace sampleEnv [] sampleParams
        (states (loaded fivePairs) [deleteFour])) ∧
      (∀ state ∈ states (loaded fivePairs) [deleteFour],
        Storable state.entries) ∧
      ¬ ∃ root after written,
        run sampleEnv [] sampleParams fivePairs [deleteFour] =
            .ok (root, after) ∧
          bulkLoad sampleEnv [] sampleParams
            (applied (loaded fivePairs) [deleteFour]).entries =
              .ok (root, written) := by
  refine ⟨by decide +kernel, by decide +kernel, ?_⟩
  rintro ⟨root, after, written, ran, loads⟩
  have high : (run sampleEnv [] sampleParams fivePairs
      [deleteFour]).toOption.map (fun result => result.1.height) = some 2 := by
    decide +kernel
  have low : (bulkLoad sampleEnv [] sampleParams
      (applied (loaded fivePairs) [deleteFour]).entries).toOption.map
        (fun result => result.1.height) = some 1 := by
    decide +kernel
  rw [ran] at high
  rw [loads] at low
  exact absurd (high.symm.trans low) (by decide)

end Acetone.Prolly

import Acetone.Prolly.MergeExact

/-!
# Scans of the trees that loads and batches make

Whatever its bounds, a scan of a made tree ends, having yielded the pairs of
the range in order.
-/

namespace Acetone.Prolly

open Acetone.Lib

/-- Every chunk that the making of the trees may write. -/
def treeSpace (env : Substrate) (start : Store) (trees : List Made) : List Bytes :=
  start ++ trees.flatMap fun tree => canonicalChunks env tree.params tree.map.entries

theorem Produced.stands {env : Substrate} {start store : Store} {trees : List Made}
    (produced : Produced env start store trees)
    (free : CollisionFree env.address (treeSpace env start trees))
    (storable : ∀ tree ∈ trees, Storable tree.map.entries) :
    CollisionFree env.address store ∧ ∀ tree ∈ trees, tree.Stands env store := by
  have roomy : ∀ tree ∈ trees,
      Roomy env tree.params (treeSpace env start trees) tree.map.entries := by
    intro tree member bytes inside
    exact List.mem_append_right _ (List.mem_flatMap.mpr ⟨tree, member, inside⟩)
  obtain ⟨within, stand⟩ := produced.stand free (List.subset_append_left _ _) roomy storable
  exact ⟨free.subset within, stand⟩

/-- A forward scan yields the pairs within its bounds in ascending order and
ends; a reverse scan yields the same pairs in descending order and ends. -/
theorem range_scans_exact (env : Substrate) (start store : Store) (trees : List Made)
    (produced : Produced env start store trees) (tree : Made) (isTree : tree ∈ trees)
    (free : CollisionFree env.address (treeSpace env start trees))
    (storable : ∀ tree ∈ trees, Storable tree.map.entries) (low high : Bound) :
    Ascending (inRange low high tree.map.entries) ∧
    (∃ started enough, scan env store tree.root low high = .ok started ∧
      ∀ turns, enough ≤ turns → collect (Scan.turn env store) turns started =
        some (.ok (inRange low high tree.map.entries))) ∧
    ∃ started enough, scanRev env store tree.root low high = .ok started ∧
      ∀ turns, enough ≤ turns → collect (Scan.turn env store) turns started =
        some (.ok (inRange low high tree.map.entries).reverse) := by
  obtain ⟨storeFree, stand⟩ := produced.stands free storable
  obtain ⟨top, chunk, denotes, contents⟩ := stand tree isTree
  rw [← contents]
  refine ⟨denotes.leads.ascending.filter _, ?_, ?_⟩
  · obtain ⟨started, begins, yields⟩ := scan_range storeFree denotes.leads low high
    obtain ⟨enough, ends⟩ := yields.collect
    exact ⟨started, enough, begins, ends⟩
  · obtain ⟨started, begins, yields⟩ := scanRev_range storeFree denotes.leads low high
    obtain ⟨enough, ends⟩ := yields.collect
    exact ⟨started, enough, begins, ends⟩

/-- The keys above the first, up to one that is not there. -/
theorem range_scans_exact_sample :
    Ascending (inRange (.excluded [1]) (.included [3]) madeBase.map.entries) ∧
    (∃ started enough, scan sampleEnv (sampleTheirs sampleParams).2 madeBase.root
        (.excluded [1]) (.included [3]) = .ok started ∧
      ∀ turns, enough ≤ turns →
        collect (Scan.turn sampleEnv (sampleTheirs sampleParams).2) turns started =
          some (.ok (inRange (.excluded [1]) (.included [3]) madeBase.map.entries))) ∧
    ∃ started enough, scanRev sampleEnv (sampleTheirs sampleParams).2 madeBase.root
        (.excluded [1]) (.included [3]) = .ok started ∧
      ∀ turns, enough ≤ turns →
        collect (Scan.turn sampleEnv (sampleTheirs sampleParams).2) turns started =
          some (.ok (inRange (.excluded [1]) (.included [3]) madeBase.map.entries).reverse) :=
  range_scans_exact sampleEnv [] _ (madeTrees sampleParams)
    (produced_madeTrees sampleParams (by decide +kernel) (by decide +kernel))
    madeBase (by simp [madeTrees]) (by decide +kernel) (by decide +kernel) (.excluded [1])
    (.included [3])

end Acetone.Prolly

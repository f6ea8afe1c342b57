import Acetone.Cypher.Probes
import Acetone.Prolly.ScanExact

/-!
# Index readers over stored trees

An index map has its entries as the keys of a tree.  What the scans of such a tree
yield is a reader of the index.
-/

namespace Acetone.Cypher

open Acetone.Lib Acetone.Prolly

/-- The reader whose scans meet the keys of a tree within their bounds. -/
def IndexReader.ofTree (tree : Made) : IndexReader where
  keys := tree.map.mapValues fun _ => ()
  scan low high := .ok ((inRange low high tree.map.entries).map fun pair => .ok pair.1)
  scan_spec low high items scanned := by
    cases scanned
    refine .inl ?_
    rw [SortedMap.mapValues, List.filter_map, List.map_map]
    rfl

/-- In a tree that loads and batches have made, the reader meets what the scan of the
stored chunks collects. -/
theorem IndexReader.ofTree_scans {env : Substrate} {start store : Store} {trees : List Made}
    (produced : Produced env start store trees)
    (free : CollisionFree env.address (treeSpace env start trees))
    (storable : ∀ tree ∈ trees, Storable tree.map.entries) {tree : Made} (isTree : tree ∈ trees)
    (low high : Bound) :
    ∃ started enough pairs, Prolly.scan env store tree.root low high = .ok started ∧
      (∀ turns, enough ≤ turns →
        collect (Scan.turn env store) turns started = some (.ok pairs)) ∧
      (ofTree tree).scan low high = .ok (pairs.map fun pair => .ok pair.1) := by
  obtain ⟨storeFree, stand⟩ := produced.stands free storable
  obtain ⟨top, chunk, denotes, contents⟩ := stand tree isTree
  obtain ⟨started, begins, yields⟩ := scan_range storeFree denotes.leads low high
  obtain ⟨enough, ends⟩ := yields.collect
  rw [contents] at ends
  exact ⟨started, enough, _, begins, ends, rfl⟩

end Acetone.Cypher

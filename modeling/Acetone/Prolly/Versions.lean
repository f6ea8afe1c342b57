import Acetone.Prolly.ScanExact
import Acetone.Prolly.Walk

/-!
# Versions in one store

The trees that were made so far share a store.  Each of them passes
verification, and the diff of two is a patch from one to the other.  Of a store
with many versions, the chunks that `collect_reachable_chunks` finds are those
that the versions in use cannot do without.
-/

namespace Acetone.Prolly

open Acetone.Lib

section

variable {address : Bytes → Hash} {store kept : Store}

private theorem unfolds_retained {level : Nat} {hash : Hash} {entries : List (Bytes × Bytes)}
    (unfolds : Unfolds (store.fetch address) level hash entries)
    (keeps : ∀ target, Reaches (store.fetch address) hash target →
      kept.get address target = store.get address target) :
    Unfolds (kept.fetch address) level hash entries := by
  induction level generalizing hash entries with
  | zero =>
      obtain ⟨bytes, found, decodes⟩ := unfolds
      refine ⟨bytes, ?_, decodes⟩
      rw [← found, Store.fetch, Store.fetch, keeps hash .refl]
  | succ level ih =>
      obtain ⟨bytes, refs, parts, found, decodes, each, rfl⟩ := unfolds
      have children : childrenAt (store.fetch address) hash = refs := by
        simp only [childrenAt, found, decodeNodeSelf_eq_ok.mpr decodes]
      refine ⟨bytes, refs, parts, ?_, decodes, ?_, rfl⟩
      · rw [← found, Store.fetch, Store.fetch, keeps hash .refl]
      · obtain ⟨sameLength, each⟩ := List.forall₂_iff_zip.mp each
        refine List.forall₂_iff_zip.mpr ⟨sameLength, fun {ref part} inside => ?_⟩
        obtain ⟨below, ends⟩ := each inside
        refine ⟨ih below fun target reaches => keeps target (.head ?_ reaches), ends⟩
        exact ⟨ref, children.symm ▸ (List.of_mem_zip inside).1, rfl⟩

/-- What is read where chunks were dropped has all its chunks. -/
private theorem kept_of_unfolds {level : Nat} {hash : Hash} {entries : List (Bytes × Bytes)}
    (fewer : ∀ hash, kept.get address hash = none ∨
      kept.get address hash = store.get address hash)
    (unfolds : Unfolds (kept.fetch address) level hash entries) {target : Hash}
    (reaches : Reaches (store.fetch address) hash target) :
    kept.get address target = store.get address target := by
  have same : ∀ {hash : Hash} {bytes : Bytes}, kept.fetch address hash = .ok (some bytes) →
      kept.get address hash = store.get address hash ∧
        store.fetch address hash = .ok (some bytes) := by
    intro hash bytes found
    have isKept : kept.get address hash = some bytes := Except.ok.inj found
    have isSame : kept.get address hash = store.get address hash := (fewer hash).resolve_left
      (by rw [isKept]; exact Option.some_ne_none bytes)
    exact ⟨isSame, by rw [Store.fetch, ← isSame, isKept]⟩
  induction level generalizing hash entries with
  | zero =>
      obtain ⟨bytes, found, decodes⟩ := unfolds
      obtain ⟨isSame, inStore⟩ := same found
      rcases Relation.ReflTransGen.cases_head reaches with rfl | ⟨child, ⟨ref, member, -⟩, -⟩
      · exact isSame
      · simp only [childrenAt, inStore, decodeNodeSelf_eq_ok.mpr decodes] at member
        cases member
  | succ level ih =>
      obtain ⟨bytes, refs, parts, found, decodes, each, -⟩ := unfolds
      obtain ⟨isSame, inStore⟩ := same found
      rcases Relation.ReflTransGen.cases_head reaches with rfl | ⟨child, ⟨ref, member, rfl⟩, rest⟩
      · exact isSame
      · simp only [childrenAt, inStore, decodeNodeSelf_eq_ok.mpr decodes] at member
        obtain ⟨sameLength, each⟩ := List.forall₂_iff_zip.mp each
        rw [← List.map_fst_zip sameLength.le] at member
        obtain ⟨⟨child, part⟩, inside, rfl⟩ := List.mem_map.mp member
        exact ih (each inside).1 rest

end

/-- Of a store with well-formed trees, the chunks collected from their roots are
exactly those to keep: with the others dropped every tree still verifies and
holds what it held, and with one of them dropped some tree does not. -/
theorem retention_exact (address : Bytes → Hash) (store kept : Store) (roots : List Root)
    (wellFormed : ∀ root ∈ roots, WellFormed (store.fetch address) root)
    (fewer : ∀ hash, kept.get address hash = none ∨
      kept.get address hash = store.get address hash) :
    ∃ out, collectRoots address store roots ∅ = .ok out ∧
      ((∀ root ∈ roots, verifyReachable (kept.fetch address) root = []) ↔
        ∀ hash ∈ out, kept.get address hash = store.get address hash) ∧
      ((∀ hash ∈ out, kept.get address hash = store.get address hash) →
        ∀ root ∈ roots, ∀ entries,
          Unfolds (store.fetch address) root.topLevel root.hash entries →
            Unfolds (kept.fetch address) root.topLevel root.hash entries) := by
  obtain ⟨out, collects, -, starts, sound, closed⟩ := @collectRoots_spec address store
    (fun hash => ∃ root ∈ roots, Reaches (store.fetch address) root.hash hash) roots wellFormed
    (fun root isRoot => ⟨root, isRoot, .refl⟩)
    (fun hash child ⟨root, isRoot, reaches⟩ contains => ⟨root, isRoot, reaches.tail contains⟩)
    ∅ (fun hash member => absurd member (Finset.notMem_empty hash))
    (fun hash member => absurd member (Finset.notMem_empty hash))
  have holds : (∀ hash ∈ out, kept.get address hash = store.get address hash) →
      ∀ root ∈ roots, ∀ entries, Unfolds (store.fetch address) root.topLevel root.hash entries →
        Unfolds (kept.fetch address) root.topLevel root.hash entries := by
    intro keeps root isRoot entries unfolds
    apply unfolds_retained unfolds
    intro target reaches
    exact keeps target (closed.reaches (starts root isRoot) reaches)
  refine ⟨out, collects, ⟨?_, ?_⟩, holds⟩
  · intro verified hash member
    obtain ⟨root, isRoot, reaches⟩ := sound hash member
    obtain ⟨entries, unfolds, -⟩ := verifyReachable_wellFormed.mp (verified root isRoot)
    exact kept_of_unfolds fewer unfolds reaches
  · intro keeps root isRoot
    obtain ⟨entries, unfolds, ascending⟩ := wellFormed root isRoot
    exact verifyReachable_wellFormed.mpr ⟨entries, holds keeps root isRoot entries unfolds, ascending⟩

/-- A store that has lost the only leaf. -/
theorem retention_exact_pair :
    ∃ out, collectRoots sampleAddress [pairInner, pairLeaf] [pairRoot] ∅ = .ok out ∧
      ((∀ root ∈ [pairRoot], verifyReachable (Store.fetch sampleAddress [pairInner]) root = []) ↔
        ∀ hash ∈ out, Store.get sampleAddress [pairInner] hash =
          Store.get sampleAddress [pairInner, pairLeaf] hash) := by
  obtain ⟨out, collects, isExact, -⟩ := retention_exact sampleAddress [pairInner, pairLeaf]
    [pairInner] [pairRoot]
    (by
      rw [List.forall_mem_singleton]
      exact verifyReachable_wellFormed.mp pair_clean)
    (by
      intro hash
      by_cases same : sampleAddress pairInner = hash
      · exact .inr (by simp [Store.get, same])
      · exact .inl (by simp [Store.get, same]))
  exact ⟨out, collects, isExact⟩

section

variable {env : Substrate} {store : Store}

/-- A stored tree reads back as what it was made of. -/
private theorem unfolds_of_stored (free : CollisionFree env.address store) {level : Nat}
    (bounded : level < 256) {chunk : Chunk level}
    (stored : Stored env.address store (level + 1) chunk.elem) :
    Unfolds (store.fetch env.address) level (refOf env.address level chunk).hash
      chunk.contents := by
  have held : store.fetch env.address (refOf env.address level chunk).hash =
      .ok (some (chunkBytes env.address level chunk)) :=
    congrArg Except.ok (Store.get_of_mem free (stored_succ.mp stored).2.2.2.1)
  have decodes := decodeNode_chunk bounded stored
  induction level with
  | zero =>
      rw [Chunk.contents_zero]
      exact ⟨_, held, decodes⟩
  | succ level ih =>
      refine ⟨_, _, chunk.map fun elem => Chunk.contents (Elem.chunk elem), held, decodes, ?_,
        List.flatMap_def⟩
      rw [List.forall₂_map_left_iff, List.forall₂_map_right_iff, List.forall₂_same]
      intro elem member
      have below := (stored_succ.mp stored).2.2.2.2 elem member
      refine ⟨ih (by omega) below ?_ ?_, below.contents_getLast⟩
      · exact congrArg Except.ok (Store.get_of_mem free (stored_succ.mp below).2.2.2.1)
      · exact decodeNode_chunk (by omega) below

end

/-- Verification finds no fault in any tree that loads and batches have made,
whatever was made since, and the tree unfolds to the pairs it was made to hold. -/
theorem made_trees_verify (env : Substrate) (start store : Store) (trees : List Made)
    (produced : Produced env start store trees)
    (free : CollisionFree env.address (treeSpace env start trees))
    (storable : ∀ tree ∈ trees, Storable tree.map.entries) (tree : Made) (isTree : tree ∈ trees) :
    verifyReachable (store.fetch env.address) tree.root = [] ∧
      Unfolds (store.fetch env.address) tree.root.topLevel tree.root.hash tree.map.entries := by
  obtain ⟨storeFree, stand⟩ := produced.stands free storable
  obtain ⟨top, chunk, denotes, contents⟩ := stand tree isTree
  have leads := denotes.leads
  have unfolds : Unfolds (store.fetch env.address) tree.root.topLevel tree.root.hash
      chunk.contents := by
    rw [leads.topLevel, leads.hash]
    rcases leads.held with stored | ⟨rfl, rfl, held⟩
    · exact unfolds_of_stored storeFree (Nat.lt_trans leads.bounded (by decide)) stored
    · exact ⟨_, congrArg Except.ok (Store.get_of_mem storeFree held),
        decodeNode_leaf [] (by decide) nofun .nil⟩
  rw [← contents]
  exact ⟨verifyReachable_wellFormed.mpr ⟨_, unfolds, leads.ascending⟩, unfolds⟩

theorem made_trees_verify_sample :
    verifyReachable (Store.fetch sampleAddress (sampleTheirs sampleParams).2) madeBase.root = [] ∧
      Unfolds (Store.fetch sampleAddress (sampleTheirs sampleParams).2) madeBase.root.topLevel
        madeBase.root.hash madeBase.map.entries :=
  made_trees_verify sampleEnv [] _ (madeTrees sampleParams)
    (produced_madeTrees sampleParams (by decide +kernel) (by decide +kernel)) (by decide +kernel)
    (by decide +kernel) madeBase (by simp [madeTrees])

private theorem applyAll_patch (before after : ByteMap) :
    before.applyAll ((changes before.entries after.entries).map toOp) = after := by
  have alone : ∀ found : List DiffEntry, joinSorted Change.key found [] = found.map .left := by
    intro found
    induction found with
    | nil => rw [joinSorted, List.map_nil]
    | cons entry found ih => rw [joinSorted, ih, List.map_cons]
  have ops : (changes before.entries after.entries).map toOp =
      (joinedChanges before after before).map opOf := by
    rw [joinedChanges, show changed before before = [] from changes_self before.ascending, alone,
      List.map_map]
    refine List.map_congr_left fun entry _ => ?_
    rw [toOp, Function.comp_apply, opOf]
    cases entry.after <;> rfl
  rw [ops, applyAll_ops]
  apply SortedMap.ext_get
  intro key
  rw [get_threeWay, mergedValue]
  split
  · next same => exact same.symm
  · rw [if_pos rfl]

/-- The diff of one tree to another with the same parameters, taken as a batch,
makes the first into a tree that answers as the second does. -/
theorem diff_patches (env : Substrate) (start store : Store) (trees : List Made)
    (produced : Produced env start store trees)
    (free : CollisionFree env.address (treeSpace env start trees))
    (storable : ∀ tree ∈ trees, Storable tree.map.entries) (left right : Made)
    (isLeft : left ∈ trees) (isRight : right ∈ trees) (sameParams : left.params = right.params) :
    ∃ started found enough next after, diff env store left.root right.root = .ok started ∧
      (∀ turns, enough ≤ turns →
        collect (Diff.turn env store) turns started = some (.ok found)) ∧
      applyBatch env store left.root (found.map toOp) = .ok (next, after) ∧
      ∀ key, get env after next key = get env store right.root key := by
  have roomy : ∀ tree ∈ trees,
      Roomy env tree.params (treeSpace env start trees) tree.map.entries :=
    fun tree isTree bytes inside =>
      List.mem_append_right _ (List.mem_flatMap.mpr ⟨tree, isTree, inside⟩)
  obtain ⟨within, stand⟩ := produced.stand free (List.subset_append_left _ _) roomy storable
  have storeFree := free.subset within
  obtain ⟨_, chunk, leftDenotes, leftHolds⟩ := stand left isLeft
  obtain ⟨_, node, rightDenotes, rightHolds⟩ := stand right isRight
  obtain ⟨started, begins, yields⟩ := diff_spec storeFree leftDenotes.leads rightDenotes.leads
  obtain ⟨enough, ends⟩ := yields.collect
  have patched : left.map.applyAll ((changes chunk.contents node.contents).map toOp) =
      right.map := by
    rw [leftHolds, rightHolds, applyAll_patch]
  obtain ⟨next, after, _, _, applies, built, -⟩ := applyBatch_spec free within leftDenotes leftHolds
    ((changes chunk.contents node.contents).map toOp)
    (by rw [patched, sameParams]; exact roomy right isRight) (patched ▸ storable right isRight)
  refine ⟨started, _, enough, next, after, begins, ends, applies, fun key => ?_⟩
  rw [get_spec (free.subset built.within) built.denotes.leads, built.contents, patched,
    get_spec storeFree rightDenotes.leads, rightHolds]

theorem diff_patches_sample :
    ∃ started found enough next after,
      diff sampleEnv (sampleTheirs sampleParams).2 madeBase.root
        (madeTheirs sampleParams).root = .ok started ∧
      (∀ turns, enough ≤ turns →
        collect (Diff.turn sampleEnv (sampleTheirs sampleParams).2) turns started =
          some (.ok found)) ∧
      applyBatch sampleEnv (sampleTheirs sampleParams).2 madeBase.root (found.map toOp) =
        .ok (next, after) ∧
      ∀ key, get sampleEnv after next key =
        get sampleEnv (sampleTheirs sampleParams).2 (madeTheirs sampleParams).root key :=
  diff_patches sampleEnv [] _ (madeTrees sampleParams)
    (produced_madeTrees sampleParams (by decide +kernel) (by decide +kernel)) (by decide +kernel)
    (by decide +kernel) madeBase (madeTheirs sampleParams) (by simp [madeTrees])
    (by simp [madeTrees]) rfl

end Acetone.Prolly

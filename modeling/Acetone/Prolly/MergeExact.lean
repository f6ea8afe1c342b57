import Acetone.Prolly.DiffExact
import Acetone.Prolly.Merge

/-!
# The three-way merge decides every key by its three values

The loop of `merge` joins the two diffs by key, so the ops and the conflicts
are images of the joined changes.  Applied to the base, the ops leave under
each key what `threeWay` prescribes; swapping the sides swaps the joined pairs
and changes no op.
-/

namespace Acetone.Prolly

open Acetone.Lib

private theorem toOp_eq_settle (entry : DiffEntry) :
    toOp entry = settle entry.key entry.after := by
  rw [toOp]
  cases entry.after <;> rfl

section

variable {env : Substrate} {store : Store}

/-- The diff has handed out the first of these changes and has the others to
go. -/
def Holding (env : Substrate) (store : Store) (diff : Diff)
    (entries : List DiffEntry) : Prop :=
  entries ≠ [] → Yields (Diff.turn env store) diff entries.tail

private theorem Holding.next {diff : Diff} {entry : DiffEntry}
    {entries : List DiffEntry} (holding : Holding env store diff (entry :: entries)) :
    ∃ after enough,
      (∀ turns, enough ≤ turns → next (Diff.turn env store) turns diff =
        some (.ok (entries.head?, after))) ∧
      Holding env store after entries :=
  (holding (List.cons_ne_nil _ _)).next

/-- With budget enough, the loop ends with the images of the joined changes. -/
private theorem mergeLoop_spec {os ts : List DiffEntry}
    (agree : ∀ o ∈ os, ∀ t ∈ ts, o.key = t.key → o.before = t.before)
    {oursDiff theirsDiff : Diff} (ours : Holding env store oursDiff os)
    (theirs : Holding env store theirsDiff ts) (ops : List BatchOp)
    (conflicts : List Conflict) :
    ∃ enough, ∀ turns rounds, enough ≤ turns → enough ≤ rounds →
      mergeLoop env store turns rounds oursDiff theirsDiff os.head? ts.head? ops
        conflicts =
      some (.ok (ops ++ (joinSorted Change.key os ts).map opOf,
        conflicts ++ (joinSorted Change.key os ts).flatMap conflictsOf)) := by
  induction os, ts using joinSorted.induct (Change.key : DiffEntry → Bytes)
    generalizing oursDiff theirsDiff ops conflicts with
  | case1 =>
      refine ⟨1, fun turns rounds _ enough => ?_⟩
      obtain ⟨fewer, rfl⟩ : ∃ fewer, rounds = fewer + 1 := ⟨rounds - 1, by omega⟩
      rw [joinSorted, List.map_nil, List.flatMap_nil, List.append_nil,
        List.append_nil]
      rfl
  | case2 o os ih =>
      obtain ⟨after, bound, moves, still⟩ := ours.next
      obtain ⟨more, rest⟩ := ih (fun other member => agree other
        (List.mem_cons_of_mem _ member)) still theirs (ops ++ [opOf (.left o)]) conflicts
      refine ⟨max bound more + 1, fun turns rounds moveBudget enough => ?_⟩
      obtain ⟨fewer, rfl⟩ : ∃ fewer, rounds = fewer + 1 := ⟨rounds - 1, by omega⟩
      rw [joinSorted, List.map_cons, List.flatMap_cons, List.append_cons]
      show mergeLoop env store turns (fewer + 1) oursDiff theirsDiff (some o) none ops
        conflicts = _
      rw [mergeLoop, moves turns (by omega), andThen_ok, toOp_eq_settle]
      exact rest turns fewer (by omega) (by omega)
  | case3 t ts ih =>
      obtain ⟨after, bound, moves, still⟩ := theirs.next
      obtain ⟨more, rest⟩ := ih (fun other member => absurd member
        List.not_mem_nil) ours still (ops ++ [opOf (.right t)]) conflicts
      refine ⟨max bound more + 1, fun turns rounds moveBudget enough => ?_⟩
      obtain ⟨fewer, rfl⟩ : ∃ fewer, rounds = fewer + 1 := ⟨rounds - 1, by omega⟩
      rw [joinSorted, List.map_cons, List.flatMap_cons, List.append_cons]
      show mergeLoop env store turns (fewer + 1) oursDiff theirsDiff none (some t) ops
        conflicts = _
      rw [mergeLoop, moves turns (by omega), andThen_ok, toOp_eq_settle]
      exact rest turns fewer (by omega) (by omega)
  | case4 o os t ts less ih =>
      obtain ⟨after, bound, moves, still⟩ := ours.next
      obtain ⟨more, rest⟩ := ih (fun other member => agree other
        (List.mem_cons_of_mem _ member)) still theirs (ops ++ [opOf (.left o)]) conflicts
      refine ⟨max bound more + 1, fun turns rounds moveBudget enough => ?_⟩
      obtain ⟨fewer, rfl⟩ : ∃ fewer, rounds = fewer + 1 := ⟨rounds - 1, by omega⟩
      rw [joinSorted, if_pos less, List.map_cons, List.flatMap_cons, List.append_cons]
      show mergeLoop env store turns (fewer + 1) oursDiff theirsDiff (some o) (some t)
        ops conflicts = _
      rw [mergeLoop, if_pos less, moves turns (by omega), andThen_ok, toOp_eq_settle]
      exact rest turns fewer (by omega) (by omega)
  | case5 o os t ts notLess greater ih =>
      obtain ⟨after, bound, moves, still⟩ := theirs.next
      obtain ⟨more, rest⟩ := ih (fun o oMember other member => agree o oMember other
        (List.mem_cons_of_mem _ member)) ours still (ops ++ [opOf (.right t)]) conflicts
      refine ⟨max bound more + 1, fun turns rounds moveBudget enough => ?_⟩
      obtain ⟨fewer, rfl⟩ : ∃ fewer, rounds = fewer + 1 := ⟨rounds - 1, by omega⟩
      rw [joinSorted, if_neg notLess, if_pos greater, List.map_cons,
        List.flatMap_cons, List.append_cons]
      show mergeLoop env store turns (fewer + 1) oursDiff theirsDiff (some o) (some t)
        ops conflicts = _
      rw [mergeLoop, if_neg notLess, if_pos greater, moves turns (by omega), andThen_ok, toOp_eq_settle]
      exact rest turns fewer (by omega) (by omega)
  | case6 o os t ts notLess notGreater ih =>
      have sameKey : o.key = t.key :=
        le_antisymm (not_lt.mp notGreater) (not_lt.mp notLess)
      have sameBase := agree o List.mem_cons_self t List.mem_cons_self sameKey
      obtain ⟨oursAfter, oursBound, oursMoves, oursStill⟩ := ours.next
      obtain ⟨theirsAfter, theirsBound, theirsMoves, theirsStill⟩ := theirs.next
      obtain ⟨more, rest⟩ := ih
        (fun o oMember t tMember => agree o (List.mem_cons_of_mem _ oMember) t
          (List.mem_cons_of_mem _ tMember)) oursStill theirsStill
        (ops ++ [opOf (.both o t)]) (conflicts ++ conflictsOf (.both o t))
      refine ⟨max (max oursBound theirsBound) more + 1,
        fun turns rounds moveBudget enough => ?_⟩
      obtain ⟨fewer, rfl⟩ : ∃ fewer, rounds = fewer + 1 := ⟨rounds - 1, by omega⟩
      rw [joinSorted, if_neg notLess, if_neg notGreater, List.map_cons,
        List.flatMap_cons, List.append_cons, ← List.append_assoc]
      show mergeLoop env store turns (fewer + 1) oursDiff theirsDiff (some o) (some t)
        ops conflicts = _
      rw [mergeLoop, if_neg notLess, if_neg notGreater,
        if_neg (fun differ => differ sameBase)]
      simp only [oursMoves turns (by omega), theirsMoves turns (by omega), andThen_ok]
      rw [← rest turns fewer (by omega) (by omega)]
      simp only [opOf, conflictsOf, decide_eq_true_eq, toOp_eq_settle]

private theorem mergeLoop_start {os ts : List DiffEntry}
    (agree : ∀ o ∈ os, ∀ t ∈ ts, o.key = t.key → o.before = t.before)
    {oursDiff theirsDiff : Diff}
    (ours : Yields (Diff.turn env store) oursDiff os)
    (theirs : Yields (Diff.turn env store) theirsDiff ts) :
    ∃ oursAfter theirsAfter enough, ∀ turns, enough ≤ turns →
      next (Diff.turn env store) turns oursDiff =
        some (.ok (os.head?, oursAfter)) ∧
      next (Diff.turn env store) turns theirsDiff =
        some (.ok (ts.head?, theirsAfter)) ∧
      mergeLoop env store turns turns oursAfter theirsAfter os.head? ts.head? [] [] =
        some (.ok ((joinSorted Change.key os ts).map opOf,
          (joinSorted Change.key os ts).flatMap conflictsOf)) := by
  obtain ⟨oursAfter, oursBound, oursMoves, oursStill⟩ := ours.next
  obtain ⟨theirsAfter, theirsBound, theirsMoves, theirsStill⟩ := theirs.next
  obtain ⟨more, loops⟩ := mergeLoop_spec agree oursStill theirsStill [] []
  refine ⟨oursAfter, theirsAfter, max (max oursBound theirsBound) more,
    fun turns enough => ⟨oursMoves turns (by omega), theirsMoves turns (by omega),
      ?_⟩⟩
  exact loops turns turns (by omega) (by omega)

end

/-- A tree as it was made: its root, its chunk parameters and the map it is to
hold. -/
structure Made where
  root : Root
  params : ChunkParams
  map : ByteMap

/-- The trees in a store that bulk loads and batches have made, in any order
and from any of the trees before. -/
inductive Produced (env : Substrate) (start : Store) : Store → List Made → Prop
  | start : Produced env start start []
  | load {store after : Store} {trees : List Made} {root : Root}
      (params : ChunkParams) (entries : List (Bytes × Bytes)) :
      Produced env start store trees →
      bulkLoad env store params entries = .ok (root, after) →
      Produced env start after (⟨root, params, loaded entries⟩ :: trees)
  | batch {store after : Store} {trees : List Made} {tree : Made} {root : Root}
      (ops : List BatchOp) :
      Produced env start store trees → tree ∈ trees →
      applyBatch env store tree.root ops = .ok (root, after) →
      Produced env start after
        (⟨root, tree.params, tree.map.applyAll ops⟩ :: trees)

/-- Every chunk that the making of the trees and of one more map may write. -/
def madeSpace (env : Substrate) (start : Store) (trees : List Made)
    (params : ChunkParams) (map : ByteMap) : List Bytes :=
  start ++ (trees.flatMap (fun tree =>
      canonicalChunks env tree.params tree.map.entries) ++
    canonicalChunks env params map.entries)

section

variable {env : Substrate} {start store : Store} {space : List Bytes}

def Made.Stands (env : Substrate) (store : Store) (tree : Made) : Prop :=
  ∃ top, ∃ chunk : Chunk top, Denotes env tree.params store tree.root chunk ∧
    chunk.contents = tree.map.entries

theorem Made.Stands.mono {after : Store} {tree : Made}
    (stands : tree.Stands env store) (grows : store ⊆ after) :
    tree.Stands env after := by
  obtain ⟨top, chunk, denotes, contents⟩ := stands
  exact ⟨top, chunk, denotes.mono grows, contents⟩

theorem Produced.stand (free : CollisionFree env.address space)
    (within : start ⊆ space) {trees : List Made}
    (produced : Produced env start store trees)
    (roomy : ∀ tree ∈ trees, Roomy env tree.params space tree.map.entries)
    (storable : ∀ tree ∈ trees, Storable tree.map.entries) :
    store ⊆ space ∧ ∀ tree ∈ trees, tree.Stands env store := by
  induction produced with
  | start => exact ⟨within, nofun⟩
  | @load store after trees root params entries _ loads ih =>
      obtain ⟨fits, stand⟩ := ih
        (fun tree member => roomy tree (List.mem_cons_of_mem _ member))
        (fun tree member => storable tree (List.mem_cons_of_mem _ member))
      have room := roomy _ List.mem_cons_self
      have small := storable _ List.mem_cons_self
      rw [loaded_entries] at room small
      obtain ⟨next, written, top, chunk, done, built, -⟩ :=
        bulkLoad_spec free fits room small
      rw [loads] at done
      cases done
      refine ⟨built.within, List.forall_mem_cons.mpr ⟨⟨top, chunk, built.denotes,
        built.contents.trans (loaded_entries entries).symm⟩, ?_⟩⟩
      exact fun tree member => (stand tree member).mono built.grows
  | @batch store after trees tree root ops _ member applies ih =>
      obtain ⟨fits, stand⟩ := ih
        (fun tree member => roomy tree (List.mem_cons_of_mem _ member))
        (fun tree member => storable tree (List.mem_cons_of_mem _ member))
      obtain ⟨top, chunk, denotes, contents⟩ := stand tree member
      obtain ⟨next, written, under, node, done, built, -⟩ :=
        applyBatch_spec free fits denotes contents ops
          (roomy _ List.mem_cons_self) (storable _ List.mem_cons_self)
      rw [applies] at done
      cases done
      refine ⟨built.within, List.forall_mem_cons.mpr ⟨⟨under, node, built.denotes,
        built.contents⟩, ?_⟩⟩
      exact fun tree member => (stand tree member).mono built.grows

/-- The merge of standing trees applies the ops of the joined changes to the
base. -/
private theorem merge_eq_applyBatch (free : CollisionFree env.address store)
    {base ours theirs : Made} (sameOurs : base.params = ours.params)
    (sameTheirs : base.params = theirs.params) (baseStands : base.Stands env store)
    (oursStands : ours.Stands env store) (theirsStands : theirs.Stands env store) :
    ∃ enough, ∀ turns, enough ≤ turns →
      merge env store turns base.root ours.root theirs.root =
        some (do
          let (root, after) ← applyBatch env store base.root
            ((joinedChanges base.map ours.map theirs.map).map opOf)
          .ok (⟨root, conflicts base.map ours.map theirs.map⟩, after)) := by
  obtain ⟨_, _, baseDenotes, baseHolds⟩ := baseStands
  obtain ⟨_, _, oursDenotes, oursHolds⟩ := oursStands
  obtain ⟨_, _, theirsDenotes, theirsHolds⟩ := theirsStands
  obtain ⟨oursDiff, oursBegun, oursYields⟩ :=
    diff_spec free baseDenotes.leads oursDenotes.leads
  obtain ⟨theirsDiff, theirsBegun, theirsYields⟩ :=
    diff_spec free baseDenotes.leads theirsDenotes.leads
  rw [baseHolds, oursHolds] at oursYields
  rw [baseHolds, theirsHolds] at theirsYields
  obtain ⟨oursAfter, theirsAfter, enough, started⟩ :=
    mergeLoop_start agree_on_base oursYields theirsYields
  refine ⟨enough, fun turns budget => ?_⟩
  obtain ⟨oursMoves, theirsMoves, loops⟩ := started turns budget
  have sameParams : ¬ (base.root.params ≠ ours.root.params ∨
      base.root.params ≠ theirs.root.params) := by
    rw [baseDenotes.root_eq, oursDenotes.root_eq, theirsDenotes.root_eq]
    exact fun differ => differ.elim (· sameOurs) (· sameTheirs)
  rw [merge, if_neg sameParams]
  simp only [oursBegun, theirsBegun, andThen_ok, oursMoves, theirsMoves, loops]
  rfl

end

/-- Merging trees of the same parameters succeeds and decides every key as
`mergedValue` does, with exactly the disagreements as conflicts; exchanging the
sides gives the same root and mirrors the conflicts.  Trees of different
parameters are refused. -/
theorem merge_exact (env : Substrate) (start store : Store) (trees : List Made)
    (produced : Produced env start store trees) (base ours theirs : Made)
    (isBase : base ∈ trees) (isOurs : ours ∈ trees) (isTheirs : theirs ∈ trees)
    (free : CollisionFree env.address (madeSpace env start trees base.params
      (threeWay base.map ours.map theirs.map)))
    (storable : ∀ tree ∈ trees, Storable tree.map.entries)
    (mergedStorable :
      Storable (threeWay base.map ours.map theirs.map).entries) :
    (base.params = ours.params ∧ base.params = theirs.params →
      ∃ outcome after enough,
        (∀ turns, enough ≤ turns →
          merge env store turns base.root ours.root theirs.root =
            some (.ok (outcome, after))) ∧
        (∀ key, get env after outcome.root key =
          .ok (mergedValue (base.map.get key) (ours.map.get key)
            (theirs.map.get key))) ∧
        outcome.conflicts.Pairwise (fun first second => first.key < second.key) ∧
        (∀ conflict, conflict ∈ outcome.conflicts ↔
          Conflicting base.map ours.map theirs.map conflict) ∧
        (∀ turns, enough ≤ turns →
          merge env store turns base.root theirs.root ours.root =
            some (.ok (⟨outcome.root, outcome.conflicts.map Conflict.mirror⟩,
              after)))) ∧
    (¬ (base.params = ours.params ∧ base.params = theirs.params) →
      ∀ turns, merge env store turns base.root ours.root theirs.root =
        some (.error .paramsMismatch)) := by
  have roomy : ∀ tree ∈ trees, Roomy env tree.params
      (madeSpace env start trees base.params
        (threeWay base.map ours.map theirs.map)) tree.map.entries := by
    intro tree member bytes inside
    exact List.mem_append_right _ (List.mem_append_left _
      (List.mem_flatMap.mpr ⟨tree, member, inside⟩))
  have mergedRoomy : Roomy env base.params
      (madeSpace env start trees base.params
        (threeWay base.map ours.map theirs.map))
      (threeWay base.map ours.map theirs.map).entries := fun bytes inside =>
    List.mem_append_right _ (List.mem_append_right _ inside)
  obtain ⟨within, stand⟩ :=
    produced.stand free (List.subset_append_left _ _) roomy storable
  have storeFree := free.subset within
  obtain ⟨top, chunk, denotes, contents⟩ := stand base isBase
  constructor
  · rintro ⟨sameOurs, sameTheirs⟩
    obtain ⟨bound, forward⟩ := merge_eq_applyBatch storeFree sameOurs sameTheirs
      (stand base isBase) (stand ours isOurs) (stand theirs isTheirs)
    obtain ⟨mirrored, backward⟩ := merge_eq_applyBatch storeFree sameTheirs sameOurs
      (stand base isBase) (stand theirs isTheirs) (stand ours isOurs)
    rw [ops_swap, conflicts_swap] at backward
    obtain ⟨root, after, under, node, done, built, -⟩ :=
      applyBatch_spec free within denotes contents
        ((joinedChanges base.map ours.map theirs.map).map opOf)
        (by rw [applyAll_ops]; exact mergedRoomy)
        (by rw [applyAll_ops]; exact mergedStorable)
    rw [applyAll_ops] at built
    refine ⟨⟨root, conflicts base.map ours.map theirs.map⟩, after, max bound mirrored, ?_, ?_, conflicts_ascending,
      fun conflict => mem_conflicts, ?_⟩
    · intro turns enough
      rw [forward turns (by omega), done, ok_bind]
    · intro key
      rw [get_spec (free.subset built.within) built.denotes.leads, built.contents]
      exact congrArg Except.ok (get_threeWay _ _ _ key)
    · intro turns enough
      rw [backward turns (by omega), done, ok_bind]
  · intro differ turns
    obtain ⟨_, _, oursDenotes, -⟩ := stand ours isOurs
    obtain ⟨_, _, theirsDenotes, -⟩ := stand theirs isTheirs
    have apart : base.root.params ≠ ours.root.params ∨
        base.root.params ≠ theirs.root.params := by
      rw [denotes.root_eq, oursDenotes.root_eq, theirsDenotes.root_eq]
      exact not_and_or.mp differ
    rw [merge, if_pos apart]

/-- Three trees: a load, another load, and a batch on the first. -/
def sampleBase : Root × Store :=
  (bulkLoad sampleEnv [] sampleParams [([1], []), ([2], [])]).toOption.getD
    (⟨sampleAddress [], 0, sampleParams⟩, [])

def sampleOurs (params : ChunkParams) : Root × Store :=
  (bulkLoad sampleEnv sampleBase.2 params [([1], [7]), ([2], [])]).toOption.getD
    (⟨sampleAddress [], 0, params⟩, [])

def sampleOps : List BatchOp := [.put [1] [8], .delete [2]]

def sampleTheirs (params : ChunkParams) : Root × Store :=
  (applyBatch sampleEnv (sampleOurs params).2 sampleBase.1 sampleOps).toOption.getD
    (⟨sampleAddress [], 0, params⟩, [])

def madeBase : Made :=
  ⟨sampleBase.1, sampleParams, loaded [([1], []), ([2], [])]⟩

def madeOurs (params : ChunkParams) : Made :=
  ⟨(sampleOurs params).1, params, loaded [([1], [7]), ([2], [])]⟩

def madeTheirs (params : ChunkParams) : Made :=
  ⟨(sampleTheirs params).1, sampleParams, madeBase.map.applyAll sampleOps⟩

def madeTrees (params : ChunkParams) : List Made :=
  [madeTheirs params, madeOurs params, madeBase]

theorem produced_madeTrees (params : ChunkParams)
    (loads : bulkLoad sampleEnv sampleBase.2 params [([1], [7]), ([2], [])] =
      .ok (sampleOurs params))
    (applies : applyBatch sampleEnv (sampleOurs params).2 sampleBase.1 sampleOps =
      .ok (sampleTheirs params)) :
    Produced sampleEnv [] (sampleTheirs params).2 (madeTrees params) := by
  have first : Produced sampleEnv [] sampleBase.2 [madeBase] :=
    .load sampleParams _ .start (by decide +kernel)
  have second : Produced sampleEnv [] (sampleOurs params).2
      [madeOurs params, madeBase] := .load params _ first loads
  have isBase : madeBase ∈ [madeOurs params, madeBase] :=
    List.mem_cons_of_mem _ List.mem_cons_self
  exact .batch sampleOps second isBase applies

theorem merge_exact_sample :
    ∃ outcome after enough,
      (∀ turns, enough ≤ turns →
        merge sampleEnv (sampleTheirs sampleParams).2 turns sampleBase.1
            (sampleOurs sampleParams).1 (sampleTheirs sampleParams).1 =
          some (.ok (outcome, after))) ∧
      (∀ key, get sampleEnv after outcome.root key =
        .ok (mergedValue (madeBase.map.get key)
          ((madeOurs sampleParams).map.get key)
          ((madeTheirs sampleParams).map.get key))) ∧
      outcome.conflicts.Pairwise (fun first second => first.key < second.key) ∧
      (∀ conflict, conflict ∈ outcome.conflicts ↔
        Conflicting madeBase.map (madeOurs sampleParams).map
          (madeTheirs sampleParams).map conflict) ∧
      (∀ turns, enough ≤ turns →
        merge sampleEnv (sampleTheirs sampleParams).2 turns sampleBase.1
            (sampleTheirs sampleParams).1 (sampleOurs sampleParams).1 =
          some (.ok (⟨outcome.root, outcome.conflicts.map Conflict.mirror⟩,
            after))) :=
  (merge_exact sampleEnv [] _ (madeTrees sampleParams)
    (produced_madeTrees sampleParams (by decide +kernel) (by decide +kernel))
    madeBase (madeOurs sampleParams) (madeTheirs sampleParams) (by simp [madeTrees])
    (by simp [madeTrees]) (by simp [madeTrees]) (by decide +kernel)
    (by decide +kernel) (by decide +kernel)).1 ⟨rfl, rfl⟩

/-- Every chunk ends after its third entry. -/
private theorem noMask_inWord : 0 < 64 := by decide

def otherParams : ChunkParams :=
  ⟨1, 0, 2, Nat.one_pos, by decide, by decide, noMask_inWord⟩

/-- Trees made under different parameters are not merged. -/
theorem merge_refuses_otherParams :
    Produced sampleEnv [] (sampleTheirs otherParams).2 (madeTrees otherParams) ∧
      (∀ tree ∈ madeTrees otherParams, Storable tree.map.entries) ∧
      CollisionFree sampleAddress (madeSpace sampleEnv [] (madeTrees otherParams)
        sampleParams (threeWay madeBase.map (madeOurs otherParams).map
          (madeTheirs otherParams).map)) ∧
      ∀ turns, merge sampleEnv (sampleTheirs otherParams).2 turns sampleBase.1
          (sampleOurs otherParams).1 (sampleTheirs otherParams).1 =
        some (.error .paramsMismatch) := by
  refine ⟨produced_madeTrees otherParams (by decide +kernel) (by decide +kernel),
    by decide +kernel, by decide +kernel, ?_⟩
  intro turns
  have differ : sampleBase.1.params ≠ (sampleOurs otherParams).1.params := by
    decide +kernel
  rw [merge, if_pos (.inl differ)]

end Acetone.Prolly

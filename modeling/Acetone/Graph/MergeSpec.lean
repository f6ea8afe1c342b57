import Acetone.Graph.Merge

/-!
# What a clean merge decides

A merge without conflicts takes every schema row from one side, and every node
and edge from a side or cell by cell from both.  A record that comes out as it
was in the base was left alone by both sides.
-/

namespace Acetone.Graph

open Acetone.Lib Acetone.Model

section

variable {R : Type} [DecidableEq R] {rules : CellRules R}
  {base ours theirs : SortedMap Bytes R}

/-- A key is decided by a side, or merged cell by cell from both. -/
inductive Settled (rules : CellRules R) (base ours theirs merged : Option R) : Prop
  | decided (one : Decided base ours theirs merged)
  | cells (left right : R) (isOurs : ours = some left) (isTheirs : theirs = some right)
      (taken : merged = some (rules.merge (base.getD rules.empty) left right).1)
      (clean : (rules.merge (base.getD rules.empty) left right).2 = [])

omit [DecidableEq R] in
private theorem refine_key {conflict : Conflict Bytes R} {entry : Bytes × R}
    (put : (refine rules conflict).1 = some entry) : entry.1 = conflict.key := by
  rw [refine] at put
  split at put
  · cases put
    rfl
  · cases put

private abbrev written (rules : CellRules R) (base ours theirs : SortedMap Bytes R) :
    List (MapOp Bytes R) :=
  (((conflicts base ours theirs).map (refine rules)).filterMap Prod.fst).map
    fun (key, record) => .put key record

private theorem mem_written {op : MapOp Bytes R} :
    op ∈ written rules base ours theirs ↔
      ∃ conflict ∈ conflicts base ours theirs, ∃ entry,
        (refine rules conflict).1 = some entry ∧ op = .put entry.1 entry.2 := by
  simp only [written, List.filterMap_map, List.mem_map, List.mem_filterMap,
    Function.comp_apply]
  constructor
  · rintro ⟨entry, ⟨conflict, member, put⟩, rfl⟩
    exact ⟨conflict, member, entry, put, rfl⟩
  · rintro ⟨conflict, member, entry, put, rfl⟩
    exact ⟨entry, ⟨conflict, member, put⟩, rfl⟩

private theorem written_ascending : AscendingOps (written rules base ours theirs) := by
  rw [AscendingOps, List.pairwise_map, List.filterMap_map, List.pairwise_filterMap]
  refine conflicts_ascending.imp ?_
  intro first second lower firstEntry firstPut secondEntry secondPut
  show firstEntry.1 < secondEntry.1
  rw [refine_key firstPut, refine_key secondPut]
  exact lower

theorem mergeOne_get (rules : CellRules R) (base ours theirs : SortedMap Bytes R) (key : Bytes) :
    Decided (base.get key) (ours.get key) (theirs.get key)
        ((mergeOne rules base ours theirs).1.get key) ∨
      (Conflicting base ours theirs ⟨key, base.get key, ours.get key, theirs.get key⟩ ∧
        ∀ left right, ours.get key = some left → theirs.get key = some right →
          (mergeOne rules base ours theirs).1.get key =
            some (rules.merge ((base.get key).getD rules.empty) left right).1) := by
  have byOps : (mergeOne rules base ours theirs).1.get key =
      effect (written rules base ours theirs) key
        ((threeWay base ours theirs).get key) :=
    SortedMap.get_applyAll_effect _ _ _
  rw [byOps]
  rcases @decided_or_conflicting _ _ _ _ base ours theirs key with
    decided | conflicting
  · have untouched : ∀ op ∈ written rules base ours theirs, op.key ≠ key := by
      intro op member same
      obtain ⟨conflict, inside, entry, put, rfl⟩ := mem_written.mp member
      obtain rfl : conflict.key = key := (refine_key put).symm.trans same
      exact decided.not_conflicting (mem_conflicts.mp inside)
    rw [effect_of_absent untouched]
    exact .inl decided
  · refine .inr ⟨conflicting, ?_⟩
    intro left right isOurs isTheirs
    have member := mem_conflicts.mpr conflicting
    rw [isOurs, isTheirs] at member
    have put : MapOp.put key
        (rules.merge ((base.get key).getD rules.empty) left right).1 ∈
        written rules base ours theirs :=
      mem_written.mpr ⟨_, member, _, rfl, rfl⟩
    exact effect_of_mem written_ascending put _

theorem mergeOne_settled (clean : (mergeOne rules base ours theirs).2 = [])
    (key : Bytes) : Settled rules (base.get key) (ours.get key) (theirs.get key)
      ((mergeOne rules base ours theirs).1.get key) := by
  rcases mergeOne_get rules base ours theirs key with decided | ⟨conflicting, merged⟩
  · exact .decided decided
  · have member := mem_conflicts.mpr conflicting
    have noCells : (refine rules ⟨key, base.get key, ours.get key,
        theirs.get key⟩).2 = [] :=
      List.flatMap_eq_nil_iff.mp clean _ (List.mem_map_of_mem member)
    cases isOurs : ours.get key with
    | none =>
        rw [refine, isOurs] at noCells
        cases noCells
    | some left =>
        cases isTheirs : theirs.get key with
        | none =>
            rw [refine, isOurs, isTheirs] at noCells
            cases noCells
        | some right =>
            simp only [refine, isOurs, isTheirs, List.map_eq_nil_iff] at noCells
            exact .cells left right rfl rfl (merged left right isOurs isTheirs) noCells

/-- A cell names its map; the record of a disputed property is in the merged
map. -/
theorem mergeOne_cell {cell : CellConflict} (member : cell ∈ (mergeOne rules base ours theirs).2) :
    cell.map = rules.map ∧
      (cell.property ≠ none → cell.key ∈ (mergeOne rules base ours theirs).1.keys) := by
  obtain ⟨refined, isRefined, inside⟩ := List.mem_flatMap.mp member
  obtain ⟨conflict, isConflict, rfl⟩ := List.mem_map.mp isRefined
  cases isOurs : conflict.ours with
  | none =>
      rw [refine, isOurs, List.mem_singleton] at inside
      exact ⟨congrArg CellConflict.map inside,
        fun disputed => absurd (congrArg CellConflict.property inside) disputed⟩
  | some left =>
      cases isTheirs : conflict.theirs with
      | none =>
          rw [refine, isOurs, isTheirs, List.mem_singleton] at inside
          exact ⟨congrArg CellConflict.map inside,
            fun disputed => absurd (congrArg CellConflict.property inside) disputed⟩
      | some right =>
          simp only [refine, isOurs, isTheirs, List.mem_map] at inside
          obtain ⟨property, -, rfl⟩ := inside
          refine ⟨rfl, fun _ => ?_⟩
          have put : MapOp.put conflict.key
              (rules.merge (conflict.base.getD rules.empty) left right).1 ∈
              written rules base ours theirs :=
            mem_written.mpr ⟨conflict, isConflict, (conflict.key, _),
              by simp only [refine, isOurs, isTheirs], rfl⟩
          have stored := effect_of_mem written_ascending put
            ((threeWay base ours theirs).get conflict.key)
          rw [SortedMap.mem_keys, mergeOne, SortedMap.get_applyAll_effect]
          exact Option.ne_none_iff_exists'.mpr ⟨_, stored⟩

end

structure CleanMerge (base ours theirs merged : Manifest) : Prop where
  schema : ∀ key, Decided (base.schema.get key) (ours.schema.get key)
    (theirs.schema.get key) (merged.schema.get key)
  nodes : ∀ key, Settled nodeRules (base.nodes.get key) (ours.nodes.get key)
    (theirs.nodes.get key) (merged.nodes.get key)
  edges : ∀ key, Settled edgeRules (base.edgesFwd.get key) (ours.edgesFwd.get key)
    (theirs.edgesFwd.get key) (merged.edgesFwd.get key)
  reverse : rebuildReverse merged.edgesFwd = .ok merged.edgesRev
  indexes : rebuildAll merged.nodes (schemaEntries merged.schema) =
    .ok merged.indexes
  validated : validateMerged base ours theirs merged = .ok []

theorem mergeManifests_clean {base ours theirs merged : Manifest}
    (clean : mergeManifests base ours theirs = .ok (.clean merged)) :
    CleanMerge base ours theirs merged := by
  rw [mergeManifests] at clean
  simp only [bind_eq_ok] at clean
  obtain ⟨edgesRev, reverse, indexes, rebuilt, rest⟩ := clean
  split at rest
  · cases rest
  · next noCells =>
      obtain ⟨violations, validated, final⟩ := bind_eq_ok.mp rest
      split at final
      · cases final
      · next none =>
          cases final
          rw [not_not] at noCells none
          rw [none] at validated
          rw [List.append_eq_nil_iff, List.append_eq_nil_iff] at noCells
          obtain ⟨⟨noSchemaCells, noNodeCells⟩, noEdgeCells⟩ := noCells
          exact ⟨decided_of_no_conflicts (List.map_eq_nil_iff.mp noSchemaCells),
            mergeOne_settled noNodeCells, mergeOne_settled noEdgeCells, reverse,
            rebuilt, validated⟩

section

variable {R : Type} {rules : CellRules R} {base ours theirs merged : Option R}

/-- A record that comes out as it was is in both sides. -/
def CellRules.Conservative (rules : CellRules R) : Prop :=
  ∀ base left right, (rules.merge base left right).2 = [] →
    (rules.merge base left right).1 = base → left = base ∧ right = base

theorem nodeRules_conservative : nodeRules.Conservative :=
  fun _ _ _ => mergeNodeRecord_eq_base

theorem edgeRules_conservative : edgeRules.Conservative :=
  fun _ _ _ => mergeEdgeRecord_eq_base

theorem Settled.unchanged (conservative : rules.Conservative)
    (settled : Settled rules base ours theirs merged) {record : R}
    (isBase : base = some record) (isMerged : merged = some record) :
    ours = some record ∧ theirs = some record := by
  cases settled with
  | decided decided =>
      cases decided with
      | ours kept taken =>
          exact ⟨taken.symm.trans isMerged, kept.trans isBase⟩
      | theirs kept taken =>
          exact ⟨kept.trans isBase, taken.symm.trans isMerged⟩
      | both agreed taken =>
          have isOurs := taken.symm.trans isMerged
          exact ⟨isOurs, agreed.symm.trans isOurs⟩
  | cells left right isOurs isTheirs taken clean =>
      rw [isBase, Option.getD_some] at taken clean
      rw [isMerged, Option.some.injEq] at taken
      obtain ⟨sameLeft, sameRight⟩ := conservative record left right clean taken.symm
      exact ⟨sameLeft ▸ isOurs, sameRight ▸ isTheirs⟩

theorem Settled.in_side (settled : Settled rules base ours theirs merged)
    (present : merged ≠ none) : ours ≠ none ∨ theirs ≠ none := by
  cases settled with
  | decided decided =>
      cases decided with
      | ours kept taken => exact .inl (taken ▸ present)
      | theirs kept taken => exact .inr (taken ▸ present)
      | both agreed taken => exact .inl (taken ▸ present)
  | cells left right isOurs _ _ _ =>
      rw [isOurs]
      exact .inl nofun

end

section

variable {R : Type} {rules : CellRules R} {base ours theirs merged : Option R}
  (settled : Settled rules base ours theirs merged)

include settled

/-- What a side holds is kept unless the other deleted it. -/
theorem Settled.keeps_ours (present : ours ≠ none) :
    merged ≠ none ↔ theirs ≠ none ∨ base = none := by
  cases settled with
  | decided decided =>
      cases decided with
      | ours kept taken =>
          rw [taken, kept]
          exact iff_of_true present (em' _)
      | theirs kept taken =>
          rw [taken, ← kept, or_iff_left present]
      | both agreed taken =>
          rw [taken]
          exact iff_of_true present (.inl (agreed ▸ present))
  | cells left right isOurs isTheirs taken clean =>
      rw [taken, isTheirs]
      exact iff_of_true nofun (.inl nofun)

theorem Settled.keeps_theirs (present : theirs ≠ none) :
    merged ≠ none ↔ ours ≠ none ∨ base = none := by
  cases settled with
  | decided decided =>
      cases decided with
      | ours kept taken =>
          rw [taken, ← kept, or_iff_left present]
      | theirs kept taken =>
          rw [taken, kept]
          exact iff_of_true present (em' _)
      | both agreed taken =>
          rw [taken, agreed]
          exact iff_of_true present (.inl present)
  | cells left right isOurs isTheirs taken clean =>
      rw [taken, isOurs]
      exact iff_of_true nofun (.inl nofun)

end

section

variable {R : Type} [DecidableEq R] {base merged : SortedMap Bytes R} {key : Bytes}

private theorem mem_changes_get {change : Change Bytes R} :
    change ∈ changes base.entries merged.entries ↔
      base.get change.key = change.before ∧ merged.get change.key = change.after ∧
        change.before ≠ change.after :=
  mem_changes base.ascending merged.ascending

theorem mem_changedKeys : key ∈ changedKeys base merged ↔
    merged.get key ≠ none ∧ base.get key ≠ merged.get key := by
  rw [changedKeys, List.mem_filterMap]
  constructor
  · rintro ⟨change, member, isKey⟩
    obtain ⟨before, after, differ⟩ := mem_changes_get.mp member
    split at isKey
    · next record isAfter =>
        cases isKey
        rw [before, after]
        exact ⟨isAfter ▸ nofun, differ⟩
    · cases isKey
  · rintro ⟨present, differ⟩
    obtain ⟨record, isMerged⟩ := Option.ne_none_iff_exists'.mp present
    refine ⟨⟨key, base.get key, merged.get key⟩,
      mem_changes_get.mpr ⟨rfl, rfl, differ⟩, ?_⟩
    rw [isMerged]

theorem mem_deletedKeys : key ∈ deletedKeys base merged ↔
    base.get key ≠ none ∧ merged.get key = none := by
  rw [deletedKeys, List.mem_filterMap]
  constructor
  · rintro ⟨change, member, isKey⟩
    obtain ⟨before, after, differ⟩ := mem_changes_get.mp member
    split at isKey
    · next isBefore isAfter =>
        cases isKey
        rw [before, after]
        exact ⟨isBefore ▸ nofun, isAfter⟩
    · cases isKey
  · rintro ⟨present, absent⟩
    obtain ⟨record, isBase⟩ := Option.ne_none_iff_exists'.mp present
    refine ⟨⟨key, base.get key, merged.get key⟩,
      mem_changes_get.mpr ⟨rfl, rfl, absent ▸ present⟩, ?_⟩
    rw [isBase, absent]

theorem mem_addedKeys : key ∈ addedKeys base merged ↔
    base.get key = none ∧ merged.get key ≠ none := by
  rw [addedKeys, List.mem_filterMap]
  constructor
  · rintro ⟨change, member, isKey⟩
    obtain ⟨before, after, differ⟩ := mem_changes_get.mp member
    split at isKey
    · next isBefore isAfter =>
        cases isKey
        rw [before, after]
        exact ⟨isBefore, isAfter ▸ nofun⟩
    · cases isKey
  · rintro ⟨absent, present⟩
    obtain ⟨record, isMerged⟩ := Option.ne_none_iff_exists'.mp present
    refine ⟨⟨key, base.get key, merged.get key⟩,
      mem_changes_get.mpr ⟨rfl, rfl, absent ▸ present.symm⟩, ?_⟩
    rw [absent, isMerged]

theorem get_base_of_unchanged {record : R} (isMerged : merged.get key = some record)
    (unchanged : key ∉ changedKeys base merged) : base.get key = some record := by
  rw [mem_changedKeys, isMerged, not_and, not_not] at unchanged
  exact unchanged nofun

end

structure Unbreached (base ours theirs merged : Manifest)
    (nodes : List (Bytes × NodeKey × NodeRecord)) : Prop where
  dangling : danglingEdges base merged = .ok []
  decoded : allNodes merged.nodes = .ok nodes
  required : missingRequiredOf base merged nodes = []
  typed : wrongTypes base merged nodes = []
  edgeTyped : edgeWrongTypes base merged = .ok []
  stale : staleDiscriminators merged ours theirs = .ok []
  unique : uniqueViolations base merged nodes = []

theorem CleanMerge.unbreached {base ours theirs merged : Manifest}
    (clean : CleanMerge base ours theirs merged) :
    ∃ nodes, Unbreached base ours theirs merged nodes := by
  have validated := clean.validated
  simp only [validateMerged, bind_eq_ok, Except.ok.injEq,
    List.append_eq_nil_iff] at validated
  obtain ⟨_, dangling, nodes, decoded, _, edgeTyped, _, stale,
    ⟨⟨⟨⟨rfl, required⟩, typed⟩, rfl⟩, rfl⟩, unique⟩ := validated
  exact ⟨nodes, dangling, decoded, required, typed, edgeTyped, stale, unique⟩

end Acetone.Graph

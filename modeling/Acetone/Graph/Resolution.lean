import Acetone.Graph.MergeSafety
import Acetone.Graph.MergeSymmetry
import Acetone.Graph.Mirroring

/-!
# What a resolution takes

Resolving a merge from a side stages one update for each disputed record and
saves them.  The save judges them like any other writes; one that it accepts
leaves the side's value wherever the merge reported a dispute, and the merged
version everywhere else.
-/

namespace Acetone.Graph

open Acetone.Lib Acetone.Model

section

variable {V : Type} {map : SortedMap Bytes V} {ops : List (MapOp Bytes V)}
  {asked other : Bytes → Prop} {answer : Bytes → Option V} {key : Bytes}

/-- The updates leave the answer under every key asked for and touch no other
key. -/
structure Answering (ops : List (MapOp Bytes V)) (asked : Bytes → Prop)
    (answer : Bytes → Option V) : Prop where
  each : ∀ op ∈ ops, asked op.key ∧ op.outcome = answer op.key
  every : ∀ key, asked key → ∃ op ∈ ops, op.key = key

namespace Answering

theorem nil (nothing : ∀ key, ¬ asked key) : Answering [] asked answer :=
  ⟨(fun _ member => nomatch member), fun key isAsked => absurd isAsked (nothing key)⟩

theorem congr (answering : Answering ops asked answer)
    (same : ∀ key, asked key ↔ other key) : Answering ops other answer := by
  refine ⟨fun op member => ?_, fun key isAsked => answering.every key ((same key).mpr isAsked)⟩
  obtain ⟨isAsked, outcome⟩ := answering.each op member
  exact ⟨(same op.key).mp isAsked, outcome⟩

theorem concat (answering : Answering ops asked answer) {op : MapOp Bytes V}
    (outcome : op.outcome = answer op.key) :
    Answering (ops ++ [op]) (fun key => key = op.key ∨ asked key) answer := by
  constructor
  · intro staged member
    rcases List.mem_append.mp member with old | new
    · obtain ⟨isAsked, outcome⟩ := answering.each staged old
      exact ⟨.inr isAsked, outcome⟩
    · rw [List.mem_singleton.mp new]
      exact ⟨.inl rfl, outcome⟩
  · rintro key (rfl | isAsked)
    · exact ⟨op, List.mem_append_right _ (List.mem_singleton_self op), rfl⟩
    · obtain ⟨staged, member, same⟩ := answering.every key isAsked
      exact ⟨staged, List.mem_append_left _ member, same⟩

theorem get_asked (answering : Answering ops asked answer) (isAsked : asked key) :
    (map.applyAll ops).get key = answer key := by
  rw [SortedMap.get_applyAll]
  cases last : lastFor MapOp.key key ops with
  | none =>
      obtain ⟨op, member, same⟩ := answering.every key isAsked
      exact absurd same ((lastFor_eq_none _).mp last op member)
  | some op =>
      obtain ⟨member, rfl⟩ := key_of_lastFor _ last
      exact (answering.each op member).2

theorem get_other (answering : Answering ops asked answer) (notAsked : ¬ asked key) :
    (map.applyAll ops).get key = map.get key := by
  apply SortedMap.get_applyAll_of_absent
  rintro op member rfl
  exact notAsked (answering.each op member).1

end Answering

end

/-- The disputed properties are the side's, the others as they were merged. -/
structure CellsTaken (disputed : String → Prop) (merged side taken : Properties) : Prop where
  fromSide : ∀ name, disputed name → taken.get name = side.get name
  asMerged : ∀ name, ¬ disputed name → taken.get name = merged.get name

/-- A record after the resolution.  `update` replaces the properties of a
record and keeps the rest of it. -/
inductive RecordTaken {R : Type} (cells : R → Properties) (update : R → Properties → R)
    (disputed : Option String → Prop) (merged side taken : Option R) : Prop
  | whole (isDisputed : disputed none) (isSide : taken = side)
  | cells (old held : R) (properties : Properties) (notWhole : ¬ disputed none)
      (isMerged : merged = some old) (isSide : side = some held)
      (isTaken : taken = some (update old properties))
      (each : CellsTaken (fun name => disputed (some name)) (cells old) (cells held) properties)
  | kept (undisputed : ∀ property, ¬ disputed property) (asMerged : taken = merged)

def nodeWith (record : NodeRecord) (properties : Properties) : NodeRecord :=
  ⟨record.secondaryLabels, properties⟩

def edgeWith (_ : EdgeRecord) (properties : Properties) : EdgeRecord :=
  ⟨properties⟩

/-- The version that comes of a merged one by taking a side's value for each of
some cells. -/
structure TakesSide (cells : List ConflictCell) (side merged taken : Manifest) : Prop where
  disputedEntry : ∀ key, ⟨.schema, key, none⟩ ∈ cells →
    taken.schema.get key = side.schema.get key
  otherEntry : ∀ key, ⟨.schema, key, none⟩ ∉ cells →
    taken.schema.get key = merged.schema.get key
  nodes : ∀ key, RecordTaken NodeRecord.properties nodeWith
    (fun property => ⟨.nodes, key, property⟩ ∈ cells)
    (merged.nodes.get key) (side.nodes.get key) (taken.nodes.get key)
  edges : ∀ key, RecordTaken EdgeRecord.properties edgeWith
    (fun property => ⟨.edges, key, property⟩ ∈ cells)
    (merged.edgesFwd.get key) (side.edgesFwd.get key) (taken.edgesFwd.get key)
  reverse : taken.EdgesMirrored

/-- A transaction on the merged version that stages the side's values and
nothing else. -/
structure Resolution (cells : List ConflictCell) (side merged : Manifest)
    (txn : Transaction) : Prop where
  base : txn.base = ⟨merged, none⟩
  schema : ∀ op ∈ txn.schema, ∃ property, ⟨.schema, op.key, property⟩ ∈ cells
  nodes : ∀ op ∈ txn.nodes, ∃ property, ⟨.nodes, op.key, property⟩ ∈ cells
  edges : ∀ op ∈ txn.edgesFwd, ∃ property, ⟨.edges, op.key, property⟩ ∈ cells
  takes : TakesSide cells side merged txn.applied

section

variable {merged : Properties} {side : Option Properties}

private theorem get_overwrite {names : List String} {name : String} :
    (overwrite merged side names).get name =
      if name ∈ names then side.bind fun held => held.get name else merged.get name := by
  rw [overwrite]
  induction names generalizing merged with
  | nil => rw [List.foldl_nil, if_neg List.not_mem_nil]
  | cons first rest ih =>
      rw [List.foldl_cons, ih]
      cases taken : side.bind fun held => held.get first with
      | none =>
          show (if name ∈ rest then _ else (merged.delete first).get name) = _
          rw [SortedMap.get_delete]
          by_cases same : first = name
          · subst same
            simp [taken]
          · simp [same, Ne.symm same]
      | some value =>
          show (if name ∈ rest then _ else (merged.put first value).get name) = _
          rw [SortedMap.get_put]
          by_cases same : first = name
          · subst same
            simp [taken]
          · simp [same, Ne.symm same]

end

section

variable (cells : List ConflictCell) (source merged : Manifest)

/-- What a resolution stages for a record: what the side holds, or the merged
record with the disputed properties overwritten. -/
def recordAnswer {R : Type} (properties : R → Properties) (update : R → Properties → R)
    (empty : R) (map : ConflictMap) (source merged : SortedMap Bytes R) (key : Bytes) :
    Option R :=
  if (disputedProperties cells map key).contains none then source.get key
  else
    let record := (merged.get key).getD empty
    some (update record (overwrite (properties record) ((source.get key).map properties)
      ((disputedProperties cells map key).filterMap id)))

def nodeAnswer : Bytes → Option NodeRecord :=
  recordAnswer cells NodeRecord.properties nodeWith ⟨∅, .empty⟩ .nodes source.nodes merged.nodes

def edgeAnswer : Bytes → Option EdgeRecord :=
  recordAnswer cells EdgeRecord.properties edgeWith ⟨.empty⟩ .edges source.edgesFwd
    merged.edgesFwd

/-- The cells are such as a merge reports: an entry is disputed as a whole, a
property of a record that both the side and the merged version hold, and an edge
has a key that reads back. -/
structure Resolvable : Prop where
  schema : ∀ key property, ⟨.schema, key, property⟩ ∈ cells → property = none
  nodes : ∀ key property, ⟨.nodes, key, some property⟩ ∈ cells →
    merged.nodes.get key ≠ none ∧ source.nodes.get key ≠ none
  edges : ∀ key property, ⟨.edges, key, some property⟩ ∈ cells →
    merged.edgesFwd.get key ≠ none ∧ source.edgesFwd.get key ≠ none
  keyed : ∀ key, ⟨.edges, key, none⟩ ∈ cells → ∃ backward, reverseKey key = .ok backward

structure Resolved (base : Workspace) (done : List (ConflictMap × Bytes))
    (txn : Transaction) : Prop where
  onBase : txn.base = base
  schema : Answering txn.schema (fun key => (.schema, key) ∈ done) source.schema.get
  nodes : Answering txn.nodes (fun key => (.nodes, key) ∈ done)
    (nodeAnswer cells source base.manifest)
  edges : Answering txn.edgesFwd (fun key => (.edges, key) ∈ done)
    (edgeAnswer cells source base.manifest)

end

section

variable {cells : List ConflictCell} {source : Manifest} {base : Workspace}
  {done : List (ConflictMap × Bytes)} {txn : Transaction}

private theorem mem_disputedProperties {map : ConflictMap} {key : Bytes}
    {property : Option String} :
    property ∈ disputedProperties cells map key ↔ ⟨map, key, property⟩ ∈ cells := by
  rw [disputedProperties, List.mem_map]
  constructor
  · rintro ⟨cell, member, rfl⟩
    obtain ⟨isCell, found⟩ := List.mem_filter.mp member
    obtain ⟨rfl, rfl⟩ := of_decide_eq_true found
    exact isCell
  · intro isCell
    exact ⟨_, List.mem_filter.mpr ⟨isCell, decide_eq_true ⟨rfl, rfl⟩⟩, rfl⟩

private theorem takeOp_key {V : Type} (key : Bytes) (value : Option V) :
    (takeOp key value).key = key := by
  cases value <;> rfl

private theorem takeOp_outcome {V : Type} (key : Bytes) (value : Option V) :
    (takeOp key value).outcome = value := by
  cases value <;> rfl

private theorem Answering.next {V : Type} {ops : List (MapOp Bytes V)}
    {answer : Bytes → Option V} {map : ConflictMap} {key : Bytes} {op : MapOp Bytes V}
    (answering : Answering ops (fun key => (map, key) ∈ done) answer) (isKey : op.key = key)
    (outcome : op.outcome = answer key) :
    Answering (ops ++ [op]) (fun other => (map, other) ∈ (map, key) :: done) answer := by
  subst isKey
  refine (answering.concat outcome).congr fun other => ?_
  rw [List.mem_cons, Prod.mk.injEq, and_iff_right rfl]

private theorem Answering.kept {V : Type} {ops : List (MapOp Bytes V)}
    {answer : Bytes → Option V} {map : ConflictMap} {record : ConflictMap × Bytes}
    (answering : Answering ops (fun key => (map, key) ∈ done) answer)
    (apart : record.1 ≠ map) :
    Answering ops (fun other => (map, other) ∈ record :: done) answer := by
  refine answering.congr fun other => ?_
  rw [List.mem_cons, or_iff_right fun same => apart (congrArg Prod.fst same).symm]

private theorem resolveRecord_resolved (resolvable : Resolvable cells source base.manifest)
    (resolved : Resolved cells source base done txn) {record : ConflictMap × Bytes}
    (member : record ∈ conflictKeys cells) :
    ∃ next, resolveRecord source cells txn record = .ok next ∧
      Resolved cells source base (record :: done) next := by
  obtain ⟨map, key⟩ := record
  rw [conflictKeys, List.mem_dedup, List.mem_map] at member
  obtain ⟨⟨map, key, property⟩, isCell, ⟨⟩⟩ := member
  rw [resolveRecord]
  cases map with
  | schema =>
      cases resolvable.schema key property isCell
      rw [if_pos (mem_disputedProperties.mpr isCell)]
      refine ⟨_, rfl, resolved.onBase, ?_, resolved.nodes.kept (by simp), resolved.edges.kept (by simp)⟩
      exact resolved.schema.next (takeOp_key _ _) (takeOp_outcome _ _)
  | nodes =>
      by_cases whole : none ∈ disputedProperties cells .nodes key
      · rw [if_pos whole]
        refine ⟨_, rfl, resolved.onBase, resolved.schema.kept (by simp), ?_,
          resolved.edges.kept (by simp)⟩
        refine resolved.nodes.next (takeOp_key _ _) ?_
        rw [takeOp_outcome, nodeAnswer, recordAnswer, if_pos (List.contains_iff_mem.mpr whole)]
      · rw [if_neg whole]
        refine ⟨_, rfl, resolved.onBase, resolved.schema.kept (by simp), ?_,
          resolved.edges.kept (by simp)⟩
        refine resolved.nodes.next rfl ?_
        rw [nodeAnswer, recordAnswer, if_neg (mt List.contains_iff_mem.mp whole), ← resolved.onBase]
        rfl
  | edges =>
      by_cases whole : none ∈ disputedProperties cells .edges key
      · rw [if_pos whole]
        obtain ⟨backward, reversed⟩ := resolvable.keyed key (mem_disputedProperties.mp whole)
        simp only [resolveWholeRecord, reversed, ok_bind]
        refine ⟨_, rfl, resolved.onBase, resolved.schema.kept (by simp),
          resolved.nodes.kept (by simp), ?_⟩
        refine resolved.edges.next (takeOp_key _ _) ?_
        rw [takeOp_outcome, edgeAnswer, recordAnswer, if_pos (List.contains_iff_mem.mpr whole)]
      · rw [if_neg whole]
        refine ⟨_, rfl, resolved.onBase, resolved.schema.kept (by simp),
          resolved.nodes.kept (by simp), ?_⟩
        refine resolved.edges.next rfl ?_
        rw [edgeAnswer, recordAnswer, if_neg (mt List.contains_iff_mem.mp whole), ← resolved.onBase]
        rfl

private theorem foldlM_resolved (resolvable : Resolvable cells source base.manifest)
    (records : List (ConflictMap × Bytes)) (among : ∀ record ∈ records, record ∈ conflictKeys cells)
    (resolved : Resolved cells source base done txn) :
    ∃ next, records.foldlM (resolveRecord source cells) txn = .ok next ∧
      Resolved cells source base (records.reverse ++ done) next := by
  induction records generalizing done txn with
  | nil => exact ⟨txn, rfl, resolved⟩
  | cons record rest ih =>
      obtain ⟨middle, first, still⟩ :=
        resolveRecord_resolved resolvable resolved (among record List.mem_cons_self)
      obtain ⟨next, later, final⟩ :=
        ih (fun other member => among other (List.mem_cons_of_mem _ member)) still
      refine ⟨next, ?_, ?_⟩
      · rw [List.foldlM_cons, first, ok_bind]
        exact later
      · rw [List.reverse_cons, List.append_assoc]
        exact final

private def Asked (cells : List ConflictCell) (map : ConflictMap) (key : Bytes) : Prop :=
  ∃ property, ⟨map, key, property⟩ ∈ cells

private theorem mem_conflictKeys {map : ConflictMap} {key : Bytes} :
    (map, key) ∈ conflictKeys cells ↔ Asked cells map key := by
  rw [conflictKeys, List.mem_dedup, List.mem_map]
  constructor
  · rintro ⟨⟨map, key, property⟩, isCell, ⟨⟩⟩
    exact ⟨property, isCell⟩
  · rintro ⟨property, isCell⟩
    exact ⟨_, isCell, rfl⟩

private theorem mem_properties {map : ConflictMap} {key : Bytes} {name : String} :
    name ∈ (disputedProperties cells map key).filterMap id ↔ ⟨map, key, some name⟩ ∈ cells := by
  rw [List.mem_filterMap, ← mem_disputedProperties]
  exact ⟨fun ⟨_, member, same⟩ => same ▸ member, fun member => ⟨_, member, rfl⟩⟩

private theorem cellsTaken_overwrite (map : ConflictMap) (key : Bytes)
    (merged side : Properties) :
    CellsTaken (fun name => ⟨map, key, some name⟩ ∈ cells) merged side
      (overwrite merged (some side) ((disputedProperties cells map key).filterMap id)) := by
  constructor
  · intro name disputed
    rw [get_overwrite, if_pos (mem_properties.mpr disputed)]
    rfl
  · intro name undisputed
    rw [get_overwrite, if_neg fun member => undisputed (mem_properties.mp member)]

/-- The answer for a record under dispute, and the merged record elsewhere. -/
private theorem recordTaken {R : Type} {properties : R → Properties}
    {update : R → Properties → R} (empty : R) {map : ConflictMap}
    {held merged : SortedMap Bytes R}
    (inBoth : ∀ key property, ⟨map, key, some property⟩ ∈ cells →
      merged.get key ≠ none ∧ held.get key ≠ none) {key : Bytes} {taken : Option R}
    (asked : Asked cells map key →
      taken = recordAnswer cells properties update empty map held merged key)
    (other : ¬ Asked cells map key → taken = merged.get key) :
    RecordTaken properties update (fun property => ⟨map, key, property⟩ ∈ cells)
      (merged.get key) (held.get key) taken := by
  by_cases isAsked : Asked cells map key
  · have answer := asked isAsked
    rw [recordAnswer] at answer
    by_cases whole : none ∈ disputedProperties cells map key
    · rw [if_pos (List.contains_iff_mem.mpr whole)] at answer
      exact .whole (mem_disputedProperties.mp whole) answer
    · rw [if_neg (mt List.contains_iff_mem.mp whole)] at answer
      rw [mem_disputedProperties] at whole
      obtain ⟨property, isCell⟩ := isAsked
      cases property with
      | none => exact absurd isCell whole
      | some name =>
          obtain ⟨inMerged, inSide⟩ := inBoth key name isCell
          obtain ⟨old, isMerged⟩ := Option.ne_none_iff_exists'.mp inMerged
          obtain ⟨record, isSide⟩ := Option.ne_none_iff_exists'.mp inSide
          rw [isMerged, isSide] at answer
          exact .cells old record _ whole isMerged isSide answer
            (cellsTaken_overwrite map key (properties old) (properties record))
  · exact .kept (fun property isCell => isAsked ⟨property, isCell⟩) (other isAsked)

/-- Once every record under dispute is resolved, the staged updates take the
side. -/
private theorem Resolved.takes (resolvable : Resolvable cells source base.manifest)
    (resolved : Resolved cells source base done txn)
    (every : ∀ map key, (map, key) ∈ done ↔ Asked cells map key) (inStep : txn.InStep) :
    TakesSide cells source base.manifest txn.applied := by
  have schema := resolved.schema.congr fun key => every .schema key
  have nodes := resolved.nodes.congr fun key => every .nodes key
  have edges := resolved.edges.congr fun key => every .edges key
  have onBase := resolved.onBase
  refine ⟨fun key isCell => ?_, fun key notCell => ?_, fun key => ?_, fun key => ?_, inStep⟩
  · exact schema.get_asked ⟨none, isCell⟩
  · rw [← onBase]
    refine schema.get_other fun ⟨property, isCell⟩ => notCell ?_
    rwa [resolvable.schema key property isCell] at isCell
  · refine recordTaken ⟨∅, .empty⟩ resolvable.nodes (fun asked => ?_) fun other => ?_
    · exact nodes.get_asked asked
    · rw [← onBase]
      exact nodes.get_other other
  · refine recordTaken ⟨.empty⟩ resolvable.edges (fun asked => ?_) fun other => ?_
    · exact edges.get_asked asked
    · rw [← onBase]
      exact edges.get_other other

/-- Resolving cells such as a merge reports succeeds, and stages the side's
values. -/
theorem resolveConflictsFrom_takes {conflicts : Conflicts} (mirrored : base.EdgesMirrored)
    (resolvable : Resolvable conflicts.cells source base.manifest)
    (isConflicts : base.conflicts = some conflicts) (noMarkers : conflicts.graphMarkers = [])
    (someCell : conflicts.cells ≠ []) :
    ∃ txn, resolveConflictsFrom source (.beginWrite base) = .ok (conflicts.cells.length, txn) ∧
      txn.isDirty = true ∧ Resolution conflicts.cells source base.manifest txn := by
  have start : Resolved conflicts.cells source base [] (.beginWrite base) :=
    ⟨rfl, .nil fun _ => List.not_mem_nil, .nil fun _ => List.not_mem_nil,
      .nil fun _ => List.not_mem_nil⟩
  obtain ⟨last, folded, resolved⟩ := foldlM_resolved resolvable (conflictKeys conflicts.cells)
    (fun _ member => member) start
  have every : ∀ map key, (map, key) ∈ (conflictKeys conflicts.cells).reverse ++ [] ↔
      Asked conflicts.cells map key := by
    intro map key
    rw [List.append_nil, List.mem_reverse, mem_conflictKeys]
  have done : resolveConflictsFrom source (.beginWrite base) =
      .ok (conflicts.cells.length, { last with base := { last.base with conflicts := none } }) := by
    have isBase : (Transaction.beginWrite base).base.conflicts = some conflicts := isConflicts
    simp only [resolveConflictsFrom, isBase]
    rw [if_neg (not_not.mpr noMarkers), folded, ok_bind]
  refine ⟨_, done, ?_, ?_⟩
  · obtain ⟨⟨map, key, property⟩, isCell⟩ := List.exists_mem_of_ne_nil _ someCell
    have asked := (every map key).mpr ⟨property, isCell⟩
    cases map with
    | schema =>
        obtain ⟨op, member, -⟩ := resolved.schema.every key asked
        simp [Transaction.isDirty, List.ne_nil_of_mem member]
    | nodes =>
        obtain ⟨op, member, -⟩ := resolved.nodes.every key asked
        simp [Transaction.isDirty, List.ne_nil_of_mem member]
    | edges =>
        obtain ⟨op, member, -⟩ := resolved.edges.every key asked
        simp [Transaction.isDirty, List.ne_nil_of_mem member]
  · have inStep := (resolveConflictsFrom_mirrored mirrored done).2
    have takes := resolved.takes resolvable every inStep
    refine ⟨?_, ?_, ?_, ?_, takes⟩
    · show (⟨last.base.manifest, none⟩ : Workspace) = _
      rw [resolved.onBase]
    · exact fun op member => (every _ _).mp (resolved.schema.each op member).1
    · exact fun op member => (every _ _).mp (resolved.nodes.each op member).1
    · exact fun op member => (every _ _).mp (resolved.edges.each op member).1

end

theorem resolveConflictsFrom_refuses (source : Manifest) {base : Workspace}
    {conflicts : Conflicts} (isConflicts : base.conflicts = some conflicts)
    (markers : conflicts.graphMarkers ≠ []) :
    ∃ cause, resolveConflictsFrom source (.beginWrite base) = .error cause := by
  have isBase : (Transaction.beginWrite base).base.conflicts = some conflicts := isConflicts
  refine ⟨.mergeState ("graph-level violations must be resolved by editing the " ++
    "graph, not by picking a side"), ?_⟩
  simp only [resolveConflictsFrom, isBase]
  exact if_pos markers

section

variable {R : Type} [DecidableEq R] {rules : CellRules R} {properties : R → Properties}
  {base ours theirs : SortedMap Bytes R} {cell : CellConflict}

omit [DecidableEq R] in
private theorem Disputed.map_eq (disputed : Disputed rules properties base ours theirs cell) :
    cell.map = rules.map := by
  cases disputed <;> rfl

/-- A disputed property is one of a record that both sides hold. -/
private theorem Disputed.in_both (disputed : Disputed rules properties base ours theirs cell)
    (isProperty : cell.property ≠ none) :
    ours.get cell.key ≠ none ∧ theirs.get cell.key ≠ none ∧
      (mergeOne rules base ours theirs).1.get cell.key ≠ none := by
  cases disputed with
  | whole conflicting deleted => exact absurd rfl isProperty
  | @property conflict left right cell conflicting isOurs isTheirs disputed =>
      have inOurs := conflicting.2.1.symm.trans isOurs
      have inTheirs := conflicting.2.2.1.symm.trans isTheirs
      refine ⟨by rw [cellConflict, inOurs]; exact nofun,
        by rw [cellConflict, inTheirs]; exact nofun, ?_⟩
      rcases mergeOne_get rules base ours theirs conflict.key with decided | ⟨-, merged⟩
      · exact absurd conflicting decided.not_conflicting
      · rw [cellConflict, merged left right inOurs inTheirs]
        exact nofun

omit [DecidableEq R] in
private theorem Disputed.in_side (disputed : Disputed rules properties base ours theirs cell) :
    ours.get cell.key ≠ none ∨ theirs.get cell.key ≠ none := by
  have apart : ∀ {conflict : Conflict Bytes R}, Conflicting base ours theirs conflict →
      ours.get conflict.key ≠ none ∨ theirs.get conflict.key ≠ none := by
    rintro conflict ⟨-, isOurs, isTheirs, -, -, differ⟩
    by_contra neither
    rw [not_or, not_not, not_not, ← isOurs, ← isTheirs] at neither
    exact differ (neither.1.trans neither.2.symm)
  cases disputed with
  | whole conflicting deleted => exact apart conflicting
  | property conflicting isOurs isTheirs disputed => exact apart conflicting

end

section

variable {base ours theirs merged : Manifest} {found : List MergeConflict}

private theorem mem_reported {cell : ConflictCell} :
    cell ∈ (buildConflictsMap found).cells ↔
      ∃ conflict, .cell conflict ∈ found ∧
        cell = ⟨conflict.map, conflict.key, conflict.property⟩ := by
  rw [buildConflictsMap, List.mem_filterMap]
  constructor
  · rintro ⟨reported, member, isCell⟩
    cases reported with
    | cell conflict => exact ⟨conflict, member, (Option.some.inj isCell).symm⟩
    | graph violation => cases isCell
  · rintro ⟨conflict, member, rfl⟩
    exact ⟨_, member, rfl⟩

private theorem disputedIn_of_reported
    (outcome : mergeManifests base ours theirs = .ok (.conflicts merged found))
    {cell : ConflictCell} (reported : cell ∈ (buildConflictsMap found).cells) :
    ∃ conflict, cell = ⟨conflict.map, conflict.key, conflict.property⟩ ∧
      DisputedIn base ours theirs conflict := by
  obtain ⟨conflict, member, isCell⟩ := mem_reported.mp reported
  refine ⟨conflict, isCell, (mem_cells outcome).mp ?_⟩
  exact List.mem_filterMap.mpr ⟨_, member, rfl⟩

private theorem reverseKey_of_valid {side : Manifest} (valid : Valid side) {key : Bytes}
    (inSide : side.edgesFwd.get key ≠ none) : ∃ backward, reverseKey key = .ok backward := by
  obtain ⟨record, isRecord⟩ := Option.ne_none_iff_exists'.mp inSide
  obtain ⟨edge, isEdge, -⟩ := valid.endpoints (key, record) (SortedMap.get_eq_some_iff.mp isRecord)
  rw [Option.mem_def, edgeOf, ← Option.mem_def, mem_toOption] at isEdge
  obtain ⟨backward, reversed, -⟩ := reverseKey_of_decodeFwd isEdge
  exact ⟨backward, reversed⟩

/-- The cells a merge of valid versions reports can be resolved from a side. -/
theorem reported_resolvable
    (outcome : mergeManifests base ours theirs = .ok (.conflicts merged found))
    (oursValid : Valid ours) (theirsValid : Valid theirs) {source : Manifest}
    (isSide : IsSide ours theirs source) :
    Resolvable (buildConflictsMap found).cells source merged := by
  obtain ⟨nodes, edges, -⟩ := mergeManifests_parts outcome
  refine ⟨?_, ?_, ?_, ?_⟩
  · intro key property reported
    obtain ⟨conflict, isCell, disputed⟩ := disputedIn_of_reported outcome reported
    obtain ⟨isMap, rfl, rfl⟩ := ConflictCell.mk.inj isCell
    cases disputed with
    | schema conflict conflicting isWhole => rw [isWhole]; rfl
    | nodes disputed => cases isMap.trans disputed.map_eq
    | edges disputed => cases isMap.trans disputed.map_eq
  · intro key property reported
    obtain ⟨conflict, isCell, disputed⟩ := disputedIn_of_reported outcome reported
    obtain ⟨isMap, rfl, isProperty⟩ := ConflictCell.mk.inj isCell
    cases disputed with
    | schema conflict conflicting isWhole => subst isWhole; cases isMap
    | nodes disputed =>
        obtain ⟨inOurs, inTheirs, inMerged⟩ := disputed.in_both (isProperty ▸ nofun)
        rw [show merged.nodes = _ from nodes]
        refine ⟨inMerged, ?_⟩
        rcases isSide with rfl | rfl
        · exact inOurs
        · exact inTheirs
    | edges disputed => cases isMap.trans disputed.map_eq
  · intro key property reported
    obtain ⟨conflict, isCell, disputed⟩ := disputedIn_of_reported outcome reported
    obtain ⟨isMap, rfl, isProperty⟩ := ConflictCell.mk.inj isCell
    cases disputed with
    | schema conflict conflicting isWhole => subst isWhole; cases isMap
    | nodes disputed => cases isMap.trans disputed.map_eq
    | edges disputed =>
        obtain ⟨inOurs, inTheirs, inMerged⟩ := disputed.in_both (isProperty ▸ nofun)
        rw [show merged.edgesFwd = _ from edges]
        refine ⟨inMerged, ?_⟩
        rcases isSide with rfl | rfl
        · exact inOurs
        · exact inTheirs
  · intro key reported
    obtain ⟨conflict, isCell, disputed⟩ := disputedIn_of_reported outcome reported
    obtain ⟨isMap, rfl, -⟩ := ConflictCell.mk.inj isCell
    cases disputed with
    | schema conflict conflicting isWhole => subst isWhole; cases isMap
    | nodes disputed => cases isMap.trans disputed.map_eq
    | edges disputed =>
        rcases disputed.in_side with inOurs | inTheirs
        · exact reverseKey_of_valid oursValid inOurs
        · exact reverseKey_of_valid theirsValid inTheirs

end

namespace Repository

section

variable {base ours theirs merged : Manifest} {found : List MergeConflict}

private theorem found_cases
    (outcome : mergeManifests base ours theirs = .ok (.conflicts merged found)) :
    (∃ cells, cells ≠ [] ∧ found = cells.map MergeConflict.cell) ∨
      ∃ violations, violations ≠ [] ∧ found = violations.map MergeConflict.graph := by
  rw [mergeManifests] at outcome
  simp only [bind_eq_ok] at outcome
  obtain ⟨edgesRev, reverse, indexes, rebuilt, rest⟩ := outcome
  split at rest
  · next someCell =>
      cases rest
      exact .inl ⟨_, someCell, rfl⟩
  · obtain ⟨violations, validated, final⟩ := bind_eq_ok.mp rest
    split at final
    · next someViolation =>
        cases final
        exact .inr ⟨_, someViolation, rfl⟩
    · cases final

private theorem buildConflictsMap_cells (cells : List CellConflict) :
    buildConflictsMap (cells.map .cell) =
      ⟨cells.map fun conflict => ⟨conflict.map, conflict.key, conflict.property⟩, []⟩ := by
  rw [buildConflictsMap, List.filterMap_map, List.filterMap_map]
  congr 1
  · exact congrFun List.filterMap_eq_map cells
  · rw [List.filterMap_eq_nil_iff]
    intro cell _
    rfl

private theorem graphMarkers_ne_nil {violation : GraphViolation}
    (member : .graph violation ∈ found) : (buildConflictsMap found).graphMarkers ≠ [] :=
  List.ne_nil_of_mem (List.mem_filterMap.mpr ⟨_, member, rfl⟩)

end

section

variable {hash : Commit → Nat} {repo : Repository} {ours theirs : Commit} {stamp : Nat}
  {found : List MergeConflict} (isTip : repo.headCommit = some ours)
  (conflicted : (repo.merge hash theirs stamp).1 = .ok (.conflicts found))

include isTip conflicted

private theorem merge_of_conflicts :
    ∃ base merged, mergeManifests base ours.manifest theirs.manifest =
        .ok (.conflicts merged found) ∧
      (repo.merge hash theirs stamp).2 =
        { repo with
          workspace := ⟨merged, some (buildConflictsMap found)⟩
          mergeHead := some theirs } := by
  have effect := @merge_effect hash repo theirs stamp
  generalize repo.merge hash theirs stamp = result at effect conflicted ⊢
  cases effect with
  | none settled => exact absurd conflicted (settled found)
  | forwarded clean known behind => cases conflicted
  | merged clean known isHead unrelated isBase outcome => cases conflicted
  | conflicts isHead unrelated isBase outcome =>
      rw [isTip] at isHead
      cases isHead
      cases conflicted
      exact ⟨_, _, outcome, rfl⟩

end

/-- A save of a resolution leaves the side's values and no conflicts. -/
private theorem takes_of_saved {cells : List ConflictCell} {side merged : Manifest}
    {txn : Transaction} {next : Workspace} (resolution : Resolution cells side merged txn)
    (saved : txn.saveInPlace true = .ok next) :
    TakesSide cells side merged next.manifest ∧ next.conflicts = none := by
  have takes := resolution.takes
  constructor
  · rw [Transaction.saveInPlace_maps saved]
    exact ⟨takes.disputedEntry, takes.otherEntry, takes.nodes, takes.edges, takes.reverse⟩
  · rcases Transaction.saveInPlace_cases saved with ⟨-, rfl⟩ | accepted
    · rw [resolution.base]
    · rw [accepted.conflicts, Transaction.remainingConflicts, resolution.base]

section

variable {repo : Repository} {ours theirs : Commit} {side : ResolveSide}
  (isTip : repo.headCommit = some ours) (isHead : repo.mergeHead = some theirs)

include isTip isHead

private theorem resolveAll_refused {cause : GraphError}
    (refused : resolveConflictsFrom (side.source ours theirs) (.beginWrite repo.workspace) =
      .error cause) : repo.resolveAll side = (.error (.graph cause), repo) := by
  simp only [resolveAll, isTip, isHead, refused]

private theorem resolveAll_saves {count : Nat} {txn : Transaction}
    (resolved : resolveConflictsFrom (side.source ours theirs) (.beginWrite repo.workspace) =
      .ok (count, txn)) (dirty : txn.isDirty = true) :
    repo.resolveAll side =
      ((repo.save txn).1.map fun _ => count, (repo.save txn).2) := by
  simp only [resolveAll, isTip, isHead, resolved, dirty, if_true]

end

/-- Resolving a merge of valid versions from a side.  Violations of the merged
graph are not resolved.  Disputed cells are, by a transaction that stages the
side's values: the resolution is refused, and changes nothing, exactly when a
save of it is; otherwise every disputed record or property is the side's, all
else is as it was merged, and no conflict is left. -/
theorem resolveAll_takes_side (hash : Commit → Nat) (repo : Repository) {ours theirs : Commit}
    {stamp : Nat} {found : List MergeConflict} (isTip : repo.headCommit = some ours)
    (oursValid : Valid ours.manifest) (theirsValid : Valid theirs.manifest)
    (conflicted : (repo.merge hash theirs stamp).1 = .ok (.conflicts found))
    (side : ResolveSide) :
    let begun := (repo.merge hash theirs stamp).2
    let cells := (buildConflictsMap found).cells
    let source := side.source ours theirs
    ((∃ violation, .graph violation ∈ found) →
      ∃ cause, begun.resolveAll side = (.error cause, begun)) ∧
    ((∀ violation, .graph violation ∉ found) →
      ∃ txn, Resolution cells source begun.workspace.manifest txn ∧
        (∀ cause, txn.saveInPlace true = .error cause →
          begun.resolveAll side = (.error (.graph cause), begun)) ∧
        ∀ next, txn.saveInPlace true = .ok next →
          begun.resolveAll side = (.ok found.length, { begun with workspace := next }) ∧
            TakesSide cells source begun.workspace.manifest next.manifest ∧
            next.conflicts = none) := by
  intro begun cells source
  obtain ⟨base, merged, outcome, isBegun⟩ := merge_of_conflicts isTip conflicted
  have isOurs : begun.headCommit = some ours := by
    rw [show begun = _ from isBegun]
    exact isTip
  have isTheirs : begun.mergeHead = some theirs := congrArg mergeHead isBegun
  have isWorkspace : begun.workspace = ⟨merged, some (buildConflictsMap found)⟩ :=
    congrArg workspace isBegun
  constructor
  · rintro ⟨violation, member⟩
    obtain ⟨cause, refused⟩ := resolveConflictsFrom_refuses source
      (congrArg Workspace.conflicts isWorkspace) (graphMarkers_ne_nil member)
    exact ⟨_, resolveAll_refused isOurs isTheirs refused⟩
  · intro noViolation
    obtain ⟨reported, someCell, rfl⟩ : ∃ reported, reported ≠ [] ∧
        found = reported.map MergeConflict.cell := by
      rcases found_cases outcome with cellsOnly | ⟨violations, someViolation, rfl⟩
      · exact cellsOnly
      · obtain ⟨violation, member⟩ := List.exists_mem_of_ne_nil _ someViolation
        exact absurd (List.mem_map_of_mem member) (noViolation violation)
    have isSide : IsSide ours.manifest theirs.manifest source := by
      cases side
      · exact .inl rfl
      · exact .inr rfl
    have mirrored : begun.workspace.EdgesMirrored := by
      rw [isWorkspace]
      exact mergeManifests_mirrored outcome
    have resolvable := reported_resolvable outcome oursValid theirsValid isSide
    have isMerged : begun.workspace.manifest = merged := congrArg Workspace.manifest isWorkspace
    rw [← isMerged] at resolvable
    have count : cells.length = (reported.map MergeConflict.cell).length := by
      simp only [cells, buildConflictsMap_cells, List.length_map]
    obtain ⟨txn, resolved, dirty, resolution⟩ := resolveConflictsFrom_takes mirrored resolvable
      (congrArg Workspace.conflicts isWorkspace) (by rw [buildConflictsMap_cells])
      (by rw [buildConflictsMap_cells]; exact mt List.map_eq_nil_iff.mp someCell)
    have saves := resolveAll_saves isOurs isTheirs resolved dirty
    refine ⟨txn, resolution, fun cause refused => ?_, fun next saved => ?_⟩
    · rw [saves, save, isTheirs, Option.isSome_some, refused]
      rfl
    · refine ⟨?_, takes_of_saved resolution saved⟩
      rw [saves, save, isTheirs, Option.isSome_some, saved, ← count]
      rfl

/-- The branch stands at one of two children of a commit, and the other is
there to be merged. -/
def forkedAt (base ours theirs : Manifest) : Repository :=
  let root := Commit.initial base 0
  ⟨defaultBranch, .ofList [(defaultBranch, .child root ours 1)],
    [.child root theirs 2, .child root ours 1, root], ⟨ours, none⟩, none⟩

def rivalRepository : Repository :=
  forkedAt sampleBaseVersion sampleTheirsVersion rivalVersion

def rivalCommit : Commit := .child (.initial sampleBaseVersion 0) rivalVersion 2

theorem resolveAll_takes_side_rival :
    let begun := (rivalRepository.merge sampleHash rivalCommit 3).2
    let resolved := begun.resolveAll .theirs
    resolved.1 = .ok 1 ∧
      TakesSide (buildConflictsMap (rivalOutcome.cells.map .cell)).cells rivalCommit.manifest
        begun.workspace.manifest resolved.2.workspace.manifest ∧
      resolved.2.workspace.conflicts = none := by
  dsimp only
  have conflicted : (rivalRepository.merge sampleHash rivalCommit 3).1 =
      .ok (.conflicts (rivalOutcome.cells.map .cell)) := by
    decide +kernel
  have accepted :
      ((rivalRepository.merge sampleHash rivalCommit 3).2.resolveAll .theirs).1 = .ok 1 := by
    decide +kernel
  obtain ⟨txn, resolution, refused, taken⟩ := (resolveAll_takes_side sampleHash rivalRepository
    (show _ = some (.child (.initial sampleBaseVersion 0) sampleTheirsVersion 1) by
      decide +kernel) (by constructor <;> decide +kernel) (by constructor <;> decide +kernel)
    conflicted .theirs).2 (by simp)
  refine ⟨accepted, ?_⟩
  cases saved : txn.saveInPlace true with
  | error cause =>
      rw [refused cause saved] at accepted
      cases accepted
  | ok next =>
      obtain ⟨done, takes⟩ := taken next saved
      rw [done]
      exact takes

theorem friendship_checked : checkEdgeKey "Knows" .null = .ok () := rfl

def friendship : EdgeKey := ⟨person 1, "Knows", person 2, .null, friendship_checked⟩

theorem stored_since (since : String) : storeValue (.string since) 0 = .ok (.string since) := rfl

def friendsVersion (since : String) : Manifest :=
  sampleVersion sampleSchema [(person 1, mailOf "a"), (person 2, mailOf "b")]
    [(friendship, ⟨.ofList [("since", ⟨.string since, stored_since since⟩)]⟩)]

def aloneVersion : Manifest := sampleVersion sampleSchema [(person 1, mailOf "a")] []

def partedRepository : Repository :=
  forkedAt (friendsVersion "x") (friendsVersion "y") aloneVersion

def partedOutcome : ManifestMerge :=
  (mergeManifests (friendsVersion "x") (friendsVersion "y") aloneVersion).toOption.getD
    (.clean aloneVersion)

/-- One side rewrites a relationship, the other deletes it with its target.  Our
relationship would lack its target, so its resolution to ours is refused. -/
theorem resolution_to_ours_refused :
    let theirs := Commit.child (.initial (friendsVersion "x") 0) aloneVersion 2
    let found := partedOutcome.cells.map MergeConflict.cell
    let begun := (partedRepository.merge sampleHash theirs 3).2
    let resolved := (begun.resolveAll .ours).2
    Valid (friendsVersion "x") ∧ Valid (friendsVersion "y") ∧ Valid aloneVersion ∧
      (partedRepository.merge sampleHash theirs 3).1 = .ok (.conflicts found) ∧
      ¬ (TakesSide (buildConflictsMap found).cells (friendsVersion "y")
        begun.workspace.manifest resolved.workspace.manifest ∧
          resolved.workspace.conflicts = none) := by
  intro theirs found begun resolved
  refine ⟨?_, ?_, ?_, by decide +kernel, fun taken => ?_⟩
  · constructor <;> decide +kernel
  · constructor <;> decide +kernel
  · constructor <;> decide +kernel
  · have left : resolved.workspace.conflicts ≠ none := by decide +kernel
    exact left taken.2

end Repository

end Acetone.Graph

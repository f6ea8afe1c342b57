import Acetone.Cypher.OverlayView

/-!
# The net changes of the overlay

At the end of a statement the tables are read off as final states.  Applied to
the base they give the graph the overlay shows, with the ids of the created
entities replaced by stable ones.
-/

namespace Acetone.Cypher

open Acetone.Lib Acetone.Lib.KeyedView

namespace MutableGraph

section

variable {α : Type} {key : α → EntityId}

private def look (key : α → EntityId) (state : List α × List EntityId) (item : α) :
    List α × List EntityId :=
  if key item ∈ state.2 then state else (state.1 ++ [item], key item :: state.2)

private theorem mem_look_snd {state : List α × List EntityId} {item : α} {id : EntityId} :
    id ∈ (look key state item).2 ↔ id ∈ state.2 ∨ id = key item := by
  rw [look]
  split
  · next seen =>
      constructor
      · exact .inl
      · rintro (old | rfl)
        · exact old
        · exact seen
  · rw [List.mem_cons]
    exact or_comm

private theorem foldl_look_snd (items : List α) (state : List α × List EntityId)
    {id : EntityId} :
    id ∈ (items.foldl (look key) state).2 ↔ id ∈ state.2 ∨ id ∈ items.map key := by
  induction items generalizing state with
  | nil => simp
  | cons item items induction =>
      rw [List.foldl_cons, induction, mem_look_snd, List.map_cons, List.mem_cons, or_assoc]

private theorem mem_foldl_look_fst (items : List α) (state : List α × List EntityId) {item : α}
    (taken : item ∈ (items.foldl (look key) state).1) :
    item ∈ state.1 ∨ item ∈ items ∧ key item ∉ state.2 := by
  induction items generalizing state with
  | nil => exact .inl taken
  | cons first items induction =>
      rcases induction _ taken with before | ⟨later, fresh⟩
      · rw [look] at before
        split at before
        · exact .inl before
        · next fresh =>
            rcases List.mem_append.mp before with before | last
            · exact .inl before
            · rw [List.mem_singleton.mp last]
              exact .inr ⟨List.mem_cons_self, fresh⟩
      · rw [mem_look_snd, not_or] at fresh
        exact .inr ⟨List.mem_cons_of_mem _ later, fresh.1⟩

private theorem foldl_look_fst (items : List α) (distinct : (items.map key).Nodup)
    (state : List α × List EntityId) :
    (items.foldl (look key) state).1 =
      state.1 ++ items.filter (fun item => key item ∉ state.2) := by
  induction items generalizing state with
  | nil => simp
  | cons item items induction =>
      obtain ⟨fresh, distinct⟩ := List.nodup_cons.mp distinct
      have others : (items.filter fun later => key later ∉ (look key state item).2) =
          items.filter fun later => key later ∉ state.2 := by
        apply List.filter_congr
        intro later isLater
        have differs : key later ≠ key item := fun same =>
          fresh (List.mem_map.mpr ⟨later, isLater, same⟩)
        rw [decide_eq_decide, mem_look_snd, not_or]
        exact ⟨fun both => both.1, fun notSeen => ⟨notSeen, differs⟩⟩
      rw [List.foldl_cons, induction distinct, others, look]
      by_cases before : key item ∈ state.2
      · rw [if_pos before, List.filter_cons_of_neg (by simpa using before)]
      · rw [if_neg before, List.filter_cons_of_pos (by simpa using before), List.append_assoc,
          List.singleton_append]

theorem unseen_fst {items : List α} (distinct : (items.map key).Nodup) (seen : List EntityId) :
    (unseen key items seen).1 = items.filter fun item => key item ∉ seen :=
  foldl_look_fst items distinct ([], seen)

theorem mem_unseen_fst {items : List α} {seen : List EntityId} {item : α}
    (taken : item ∈ (unseen key items seen).1) : item ∈ items ∧ key item ∉ seen :=
  (mem_foldl_look_fst items ([], seen) taken).resolve_left List.not_mem_nil

theorem mem_unseen_snd {items : List α} {seen : List EntityId} {id : EntityId} :
    id ∈ (unseen key items seen).2 ↔ id ∈ seen ∨ id ∈ items.map key :=
  foldl_look_snd items ([], seen)

end

variable {base : PropertyGraph} {graph : MutableGraph}

private theorem nodup_entries {V : Type} (map : SortedMap EntityId V) (keep : EntityId × V → Bool) :
    ((map.entries.filter keep).map Prod.fst).Nodup :=
  (map.ascending.imp fun less => less.ne).filter _ |>.map _ fun _ _ differ => differ

private theorem nodup_live {α : Type} {key : α → EntityId} {earlier items : List α}
    (distinct : ((earlier ++ items).map key).Nodup) (keep : α → Bool) :
    ((items.filter keep).map key).Nodup := by
  rw [List.map_append] at distinct
  exact distinct.of_append_right.sublist (List.filter_sublist.map key)

/-- The overrides left after the created items are the changed ones. -/
private theorem unseen_rewritten {α : Type} {key : α → EntityId} {created : List α}
    (overrides : SortedMap EntityId α) (deleted : EntityId → Bool) :
    ((unseen Prod.fst (overrides.entries.filter fun entry => !deleted entry.1)
      (unseen key (created.filter fun item => !deleted (key item)) []).2).1).map Prod.snd =
        rewritten key created overrides deleted := by
  rw [unseen_fst (nodup_entries overrides _), List.filter_filter]
  apply rewritten_eq
  intro entry
  rw [Bool.and_eq_true, decide_eq_true_iff, mem_unseen_snd]
  simp only [List.not_mem_nil, false_or]
  exact and_comm

private theorem unseen_nil {α : Type} {key : α → EntityId} {items : List α}
    (distinct : (items.map key).Nodup) : (unseen key items []).1 = items := by
  rw [unseen_fst distinct]
  apply List.filter_eq_self.mpr
  intro item _
  rfl

theorem changes_upsertedNodes (consistent : graph.Consistent base) :
    graph.changes.upsertedNodes =
      view NodeValue.id graph.createdNodes graph.nodeOverrides graph.nodeDeleted ++
        rewritten NodeValue.id graph.createdNodes graph.nodeOverrides graph.nodeDeleted := by
  have isRewritten := @unseen_rewritten _ NodeValue.id graph.createdNodes graph.nodeOverrides
    graph.nodeDeleted
  have taken := unseen_nil (nodup_live consistent.nodeIds fun node => !graph.nodeDeleted node.id)
  refine congrArg₂ (· ++ ·) ((congrArg (List.filterMap _) taken).trans ?_) isRewritten
  rw [view, ← List.filterMap_eq_map]
  apply List.filterMap_congr
  intro node member
  obtain ⟨isCreated, live⟩ := List.mem_filter.mp member
  rw [Bool.not_eq_true'] at live
  have found : findAt NodeValue.id node.id (base.nodes ++ graph.createdNodes) = some node :=
    (findAt_eq_some consistent.nodeIds).mpr ⟨List.mem_append_right _ isCreated, rfl⟩
  rw [currentNode_shown consistent, PropertyGraph.node, shown,
    findAt_view consistent.nodeProper consistent.nodeIds, found, live, Function.comp_apply]
  rfl

theorem changes_rels (consistent : graph.Consistent base) :
    graph.changes.createdRels ++ graph.changes.modifiedRels =
      view RelValue.id graph.createdRels graph.relOverrides graph.relDeleted ++
        rewritten RelValue.id graph.createdRels graph.relOverrides graph.relDeleted := by
  have isRewritten := @unseen_rewritten _ RelValue.id graph.createdRels graph.relOverrides
    graph.relDeleted
  have taken := unseen_nil (nodup_live consistent.relIds fun rel => !graph.relDeleted rel.id)
  exact congrArg₂ (· ++ ·) (congrArg (List.map graph.overlayRel) taken) isRewritten

theorem mem_changes_deletedNodes (consistent : graph.Consistent base) {node : NodeValue}
    (member : node ∈ base.nodes) :
    node.id ∈ graph.changes.deletedNodes ↔ graph.nodeDeleted node.id = true := by
  have notCreated : node.id ∉ graph.createdNodes.map NodeValue.id := by
    intro created
    have distinct := consistent.nodeIds
    rw [List.map_append] at distinct
    exact List.disjoint_of_nodup_append distinct (List.mem_map_of_mem member) created
  have isKey : node.id ∈ graph.deletedNodes.keys ↔ graph.nodeDeleted node.id = true := by
    rw [SortedMap.mem_keys, nodeDeleted, Option.isSome_iff_ne_none]
  rw [← isKey]
  constructor
  · exact fun inside => List.mem_of_mem_filter inside
  · exact fun inside => List.mem_filter.mpr ⟨inside, decide_eq_true notCreated⟩

theorem mem_changes_deletedRels (consistent : graph.Consistent base) {rel : RelValue}
    (member : rel ∈ base.rels) :
    rel.id ∈ graph.changes.deletedRels.map RelValue.id ↔ graph.relDeleted rel.id = true := by
  have notCreated : rel.id ∉ graph.createdRels.map RelValue.id := by
    intro created
    have distinct := consistent.relIds
    rw [List.map_append] at distinct
    exact List.disjoint_of_nodup_append distinct (List.mem_map_of_mem member) created
  rw [relDeleted, Option.isSome_iff_exists, List.mem_map]
  constructor
  · rintro ⟨deleted, isDeleted, same⟩
    obtain ⟨entry, isEntry, rfl⟩ := List.mem_map.mp isDeleted
    have found : graph.deletedRels.get entry.1 = some entry.2 :=
      SortedMap.get_eq_some_iff.mpr (List.mem_of_mem_filter isEntry)
    rw [← same, consistent.deletedProper entry.1 entry.2 found]
    exact ⟨entry.2, found⟩
  · rintro ⟨deleted, found⟩
    refine ⟨deleted, List.mem_map.mpr ⟨(rel.id, deleted), ?_, rfl⟩,
      consistent.deletedProper _ deleted found⟩
    exact List.mem_filter.mpr ⟨SortedMap.get_eq_some_iff.mp found, decide_eq_true notCreated⟩

end MutableGraph

namespace MemoryGraph

theorem stableId_inj {left right : Nat} (same : stableId left = stableId right) :
    left = right := by
  have texts : "s" ++ toString left = "s" ++ toString right := Model.utf8_injective same
  have digits : Nat.toDigits 10 left = Nat.toDigits 10 right := by
    rw [← Nat.toList_repr, ← Nat.toList_repr]
    exact congrArg String.toList ((String.append_right_inj "s").mp texts)
  rw [← @Nat.ofDigitChars_toDigits 10 left (by decide) (by decide), digits,
    Nat.ofDigitChars_toDigits (by decide) (by decide)]

theorem head?_stableId (number : Nat) : (stableId number).head? = some 115 := by
  have letter : "s".toByteArray.data.toList = [115] := by decide
  have all : stableId number = [115] ++ Model.utf8 (toString number) := by
    rw [stableId, Model.utf8, Model.utf8, ← letter]
    simp
  rw [all]
  rfl

def Remap.renaming (remap : Remap) (id : EntityId) : EntityId :=
  if isOverlay id then (remap.table.get id).getD id else id

/-- Overlay ids have different stable ids, numbered from `first`. -/
structure Remap.Sound (first : Nat) (remap : Remap) : Prop where
  after : first ≤ remap.next
  numbers : ∀ id new, remap.table.get id = some new →
    ∃ number, first ≤ number ∧ number < remap.next ∧ new = stableId number
  injective : ∀ left right new, remap.table.get left = some new →
    remap.table.get right = some new → left = right

def Remap.Extends (remap later : Remap) : Prop :=
  ∀ id new, remap.table.get id = some new → later.table.get id = some new

def Remap.Resolves (remap : Remap) (id : EntityId) : Prop :=
  isOverlay id = true → remap.table.get id ≠ none

theorem Remap.Extends.refl (remap : Remap) : remap.Extends remap := fun _ _ found => found

theorem Remap.Extends.trans {first second third : Remap} (left : first.Extends second)
    (right : second.Extends third) : first.Extends third :=
  fun id new found => right id new (left id new found)

theorem Remap.Resolves.extends {remap later : Remap} {id : EntityId} (resolves : remap.Resolves id)
    (more : remap.Extends later) : later.Resolves id := by
  intro overlay absent
  obtain ⟨new, found⟩ := Option.ne_none_iff_exists'.mp (resolves overlay)
  rw [more id new found] at absent
  cases absent

theorem Remap.Extends.renaming_eq {remap later : Remap} {id : EntityId}
    (more : remap.Extends later) (resolves : remap.Resolves id) :
    later.renaming id = remap.renaming id := by
  rw [Remap.renaming, Remap.renaming]
  by_cases overlay : isOverlay id
  · obtain ⟨new, found⟩ := Option.ne_none_iff_exists'.mp (resolves overlay)
    rw [if_pos overlay, if_pos overlay, found, more id new found]
  · rw [if_neg overlay, if_neg overlay]

theorem Remap.Sound.put {first : Nat} {remap : Remap} (sound : remap.Sound first)
    (old : EntityId) :
    Remap.Sound first ⟨remap.table.put old (stableId remap.next), remap.next + 1⟩ := by
  have fresh : ∀ id, remap.table.get id ≠ some (stableId remap.next) := by
    intro id found
    obtain ⟨number, -, below, same⟩ := sound.numbers id _ found
    exact absurd (stableId_inj same) (Nat.ne_of_gt below)
  refine ⟨Nat.le_succ_of_le sound.after, ?_, ?_⟩
  · intro id new found
    rw [SortedMap.get_put] at found
    split at found
    · exact ⟨remap.next, sound.after, Nat.lt_succ_self _, (Option.some.inj found).symm⟩
    · obtain ⟨number, above, below, same⟩ := sound.numbers id new found
      exact ⟨number, above, Nat.lt_succ_of_lt below, same⟩
  · intro left right new isLeft isRight
    rw [SortedMap.get_put] at isLeft isRight
    split at isLeft
    · next leftOld =>
        split at isRight
        · next rightOld => exact leftOld.symm.trans rightOld
        · exact absurd (isRight.trans isLeft.symm) (fresh right)
    · split at isRight
      · exact absurd (isLeft.trans isRight.symm) (fresh left)
      · exact sound.injective left right new isLeft isRight

/-- A renaming step on the ids of a value: the table grows, every id of the
value is resolved, and the value is renamed by the new table. -/
structure Renames {α : Type} (ids : α → List EntityId) (rebuild : (EntityId → EntityId) → α → α)
    (rename : Remap → α → α × Remap) : Prop where
  sound : ∀ {first : Nat} {remap : Remap} (item : α), remap.Sound first →
    (rename remap item).2.Sound first
  grows : ∀ (remap : Remap) (item : α), remap.Extends (rename remap item).2
  resolves : ∀ (remap : Remap) (item : α), ∀ id ∈ ids item, (rename remap item).2.Resolves id
  renamed : ∀ (remap : Remap) (item : α),
    (rename remap item).1 = rebuild (rename remap item).2.renaming item
  congr : ∀ (item : α) {left right : EntityId → EntityId},
    (∀ id ∈ ids item, left id = right id) → rebuild left item = rebuild right item

theorem stable_renames : Renames (fun id => [id]) (fun rename id => rename id) stable where
  sound := by
    intro first remap old sound
    rw [stable]
    split
    · split
      · exact sound
      · exact sound.put old
    · exact sound
  grows := by
    intro remap old
    rw [stable]
    split
    · split
      · exact .refl remap
      · next absent =>
          intro id new found
          rw [SortedMap.get_put]
          split
          · next same =>
              rw [← same, absent] at found
              cases found
          · exact found
    · exact .refl remap
  resolves := by
    intro remap old id member
    rw [List.mem_singleton.mp member, stable]
    intro overlay
    rw [if_pos overlay]
    split
    · next found =>
        rw [found]
        exact Option.some_ne_none _
    · rw [SortedMap.get_put, if_pos rfl]
      exact Option.some_ne_none _
  renamed := by
    intro remap old
    rw [stable]
    by_cases overlay : isOverlay old
    · rw [if_pos overlay, Remap.renaming, if_pos overlay]
      split
      · next found => rw [found, Option.getD_some]
      · rw [SortedMap.get_put, if_pos rfl, Option.getD_some]
    · rw [if_neg overlay, Remap.renaming, if_neg overlay]
  congr := fun id _ _ same => same id (List.mem_singleton_self id)

end MemoryGraph

def NodeValue.rename (rename : EntityId → EntityId) (node : NodeValue) : NodeValue :=
  { node with id := rename node.id }

def RelValue.rename (rename : EntityId → EntityId) (rel : RelValue) : RelValue :=
  { rel with id := rename rel.id, start := rename rel.start, stop := rename rel.stop }

namespace MemoryGraph

theorem stableNode_renames : Renames (fun node => [node.id]) NodeValue.rename stableNode where
  sound node sound := stable_renames.sound node.id sound
  grows remap node := stable_renames.grows remap node.id
  resolves remap node := stable_renames.resolves remap node.id
  renamed remap node :=
    congrArg (NodeValue.mk · node.labels node.properties) (stable_renames.renamed remap node.id)
  congr node left right same := by
    rw [NodeValue.rename, NodeValue.rename, same node.id (List.mem_singleton_self _)]

theorem stableRel_renames :
    Renames (fun rel => [rel.id, rel.start, rel.stop]) RelValue.rename stableRel where
  sound rel sound := stable_renames.sound rel.stop
    (stable_renames.sound rel.start (stable_renames.sound rel.id sound))
  grows remap rel := ((stable_renames.grows remap rel.id).trans
    (stable_renames.grows _ rel.start)).trans (stable_renames.grows _ rel.stop)
  resolves remap rel := by
    have isId := stable_renames.resolves remap rel.id rel.id (List.mem_singleton_self _)
    have isStart := stable_renames.resolves (stable remap rel.id).2 rel.start rel.start
      (List.mem_singleton_self _)
    have isStop := stable_renames.resolves (stable (stable remap rel.id).2 rel.start).2 rel.stop
      rel.stop (List.mem_singleton_self _)
    have startGrows := stable_renames.grows (stable remap rel.id).2 rel.start
    have stopGrows := stable_renames.grows (stable (stable remap rel.id).2 rel.start).2 rel.stop
    intro id member
    rcases List.mem_cons.mp member with rfl | member
    · exact isId.extends (startGrows.trans stopGrows)
    · rcases List.mem_cons.mp member with rfl | member
      · exact isStart.extends stopGrows
      · rw [List.mem_singleton.mp member]
        exact isStop
  renamed remap rel := by
    have isId := stable_renames.resolves remap rel.id rel.id (List.mem_singleton_self _)
    have isStart := stable_renames.resolves (stable remap rel.id).2 rel.start rel.start
      (List.mem_singleton_self _)
    have startGrows := stable_renames.grows (stable remap rel.id).2 rel.start
    have stopGrows := stable_renames.grows (stable (stable remap rel.id).2 rel.start).2 rel.stop
    have newId := (startGrows.trans stopGrows).renaming_eq isId
    have newStart := stopGrows.renaming_eq isStart
    rw [← stable_renames.renamed remap rel.id] at newId
    rw [← stable_renames.renamed (stable remap rel.id).2 rel.start] at newStart
    have newStop := stable_renames.renamed (stable (stable remap rel.id).2 rel.start).2 rel.stop
    exact (RelValue.mk.injEq ..).mpr ⟨newId.symm, rfl, newStart.symm, newStop, rfl⟩
  congr rel left right same := by
    rw [RelValue.rename, RelValue.rename, same rel.id (by simp), same rel.start (by simp),
      same rel.stop (by simp)]

/-- Writing renamed items one by one is writing the items under the final
renaming. -/
theorem upsertAll_spec {α : Type} {key : α → EntityId} {ids : α → List EntityId}
    {rebuild : (EntityId → EntityId) → α → α} {rename : Remap → α → α × Remap}
    (renames : Renames ids rebuild rename) (written : List α) (items : List α) (remap : Remap)
    {first : Nat} (sound : remap.Sound first) :
    (upsertAll key rename items written remap).2.Sound first ∧
      remap.Extends (upsertAll key rename items written remap).2 ∧
      (∀ item ∈ written, ∀ id ∈ ids item,
        (upsertAll key rename items written remap).2.Resolves id) ∧
      ∀ final, (upsertAll key rename items written remap).2.Extends final →
        (upsertAll key rename items written remap).1 =
          (written.map (rebuild final.renaming)).foldl (upsert key) items := by
  induction written generalizing items remap with
  | nil =>
      refine ⟨sound, .refl remap, ?_, ?_⟩
      · intro item member
        cases member
      · intro final _
        rfl
  | cons item written induction =>
      obtain ⟨soundAfter, grows, resolves, result⟩ := induction
        (upsert key items (rename remap item).1) (rename remap item).2
        (renames.sound item sound)
      refine ⟨soundAfter, (renames.grows remap item).trans grows, ?_, ?_⟩
      · intro other member id isId
        rcases List.mem_cons.mp member with rfl | later
        · exact (renames.resolves remap other id isId).extends grows
        · exact resolves other later id isId
      · intro final more
        refine (result final more).trans ?_
        rw [List.map_cons, List.foldl_cons, renames.renamed remap item]
        congr 2
        apply renames.congr
        intro id isId
        exact ((grows.trans more).renaming_eq (renames.resolves remap item id isId)).symm

/-- No id of the graph is a stable id yet to be given out. -/
structure Numbered (graph : MemoryGraph) : Prop where
  nodes : ∀ node ∈ graph.nodes, ∀ number ≥ graph.nextId, node.id ≠ stableId number
  rels : ∀ rel ∈ graph.rels, ∀ number ≥ graph.nextId, rel.id ≠ stableId number

/-- A renaming of the created entities: other ids stay, and the ids of the graph
stay apart. -/
structure Renaming (shown : PropertyGraph) (rename : EntityId → EntityId) : Prop where
  stored : ∀ id, isOverlay id = false → rename id = id
  nodes : ∀ left ∈ shown.nodes, ∀ right ∈ shown.nodes, rename left.id = rename right.id →
    left.id = right.id
  rels : ∀ left ∈ shown.rels, ∀ right ∈ shown.rels, rename left.id = rename right.id →
    left.id = right.id

def renamed (shown : PropertyGraph) (rename : EntityId → EntityId) : PropertyGraph where
  nodes := shown.nodes.map (NodeValue.rename rename)
  rels := shown.rels.map (RelValue.rename rename)

theorem Remap.renaming_stored (remap : Remap) {id : EntityId} (stored : isOverlay id = false) :
    remap.renaming id = id := by
  rw [Remap.renaming, stored]
  rfl

theorem Remap.Sound.renaming_overlay {remap : Remap} {first : Nat} (sound : remap.Sound first)
    {id : EntityId} (overlay : isOverlay id = true) (resolves : remap.Resolves id) :
    remap.table.get id = some (remap.renaming id) ∧
      ∃ number ≥ first, remap.renaming id = stableId number := by
  obtain ⟨new, found⟩ := Option.ne_none_iff_exists'.mp (resolves overlay)
  have isNew : remap.renaming id = new := by
    rw [Remap.renaming, if_pos overlay, found, Option.getD_some]
  obtain ⟨number, above, -, same⟩ := sound.numbers id new found
  rw [isNew]
  exact ⟨found, number, above, same⟩

/-- Resolved ids that are no stable ids yet to be given out stay apart. -/
theorem Remap.Sound.renaming_inj {remap : Remap} {first : Nat} (sound : remap.Sound first)
    {left right : EntityId} (leftResolves : remap.Resolves left)
    (rightResolves : remap.Resolves right)
    (leftFree : isOverlay left = false → ∀ number ≥ first, left ≠ stableId number)
    (rightFree : isOverlay right = false → ∀ number ≥ first, right ≠ stableId number)
    (same : remap.renaming left = remap.renaming right) : left = right := by
  cases leftOverlay : isOverlay left with
  | true =>
      obtain ⟨leftFound, number, above, isNumber⟩ :=
        sound.renaming_overlay leftOverlay leftResolves
      cases rightOverlay : isOverlay right with
      | true =>
          obtain ⟨rightFound, -⟩ := sound.renaming_overlay rightOverlay rightResolves
          exact sound.injective left right _ leftFound (same ▸ rightFound)
      | false =>
          rw [remap.renaming_stored rightOverlay] at same
          exact absurd (same.symm.trans isNumber) (rightFree rightOverlay number above)
  | false =>
      rw [remap.renaming_stored leftOverlay] at same
      cases rightOverlay : isOverlay right with
      | true =>
          obtain ⟨-, number, above, isNumber⟩ := sound.renaming_overlay rightOverlay rightResolves
          exact absurd (same.trans isNumber) (leftFree leftOverlay number above)
      | false => rw [same, remap.renaming_stored rightOverlay]

section

variable {α : Type} {key : α → EntityId} {base created : List α}
  {overrides : SortedMap EntityId α} {deleted : EntityId → Bool} {remap : Remap} {first : Nat}

/-- Writing a table back under a renaming of what was created. -/
private theorem foldl_upsert_renamed (sound : remap.Sound first) (proper : Proper key overrides)
    (distinct : ((base ++ created).map key).Nodup)
    (known : ∀ target, overrides.get target ≠ none →
      deleted target ∨ target ∈ (base ++ created).map key)
    {rename : α → α} (renamedKey : ∀ item, key (rename item) = remap.renaming (key item))
    (fixed : ∀ item ∈ base, deleted (key item) = false →
      rename (current key overrides item) = current key overrides item)
    (overlay : ∀ item ∈ created, isOverlay (key item) = true)
    (resolves : ∀ item ∈ view key created overrides deleted, remap.Resolves (key item))
    (free : ∀ item ∈ base, ∀ number ≥ first, key item ≠ stableId number) :
    ((view key created overrides deleted ++ rewritten key created overrides deleted).map
      rename).foldl (upsert key) (base.filter fun item => !deleted (key item)) =
        (view key (base ++ created) overrides deleted).map rename := by
  have isOverlayKey : ∀ item ∈ view key created overrides deleted,
      isOverlay (key item) = true := by
    intro item member
    obtain ⟨origin, isOrigin, -, rfl⟩ := mem_view.mp member
    rw [key_current proper]
    exact overlay origin isOrigin
  have createdDistinct : (created.map key).Nodup := by
    rw [List.map_append] at distinct
    exact distinct.of_append_right
  apply foldl_upsert_view proper distinct fixed _ _ known
  · have keys : ((view key created overrides deleted).map rename).map key =
        ((view key created overrides deleted).map key).map remap.renaming := by
      rw [List.map_map, List.map_map]
      exact List.map_congr_left fun item _ => renamedKey item
    rw [keys]
    apply (nodup_view proper createdDistinct).map_on
    intro left isLeft right isRight same
    obtain ⟨leftItem, leftMember, rfl⟩ := List.mem_map.mp isLeft
    obtain ⟨rightItem, rightMember, rfl⟩ := List.mem_map.mp isRight
    apply sound.renaming_inj (resolves _ leftMember) (resolves _ rightMember) _ _ same
    · intro plain
      rw [isOverlayKey _ leftMember] at plain
      cases plain
    · intro plain
      rw [isOverlayKey _ rightMember] at plain
      cases plain
  · intro item member inBase
    obtain ⟨origin, isOrigin, same⟩ := List.mem_map.mp inBase
    obtain ⟨-, number, above, isNumber⟩ :=
      sound.renaming_overlay (isOverlayKey item member) (resolves item member)
    rw [renamedKey, isNumber] at same
    exact free origin isOrigin number above same

/-- The renaming keeps the keys of the view apart. -/
private theorem renaming_view_inj (sound : remap.Sound first) (proper : Proper key overrides)
    (stored : ∀ item ∈ base, isOverlay (key item) = false)
    (overlay : ∀ item ∈ created, isOverlay (key item) = true)
    (resolves : ∀ item ∈ view key created overrides deleted, remap.Resolves (key item))
    (free : ∀ item ∈ base, ∀ number ≥ first, key item ≠ stableId number)
    {left right : α} (isLeft : left ∈ view key (base ++ created) overrides deleted)
    (isRight : right ∈ view key (base ++ created) overrides deleted)
    (same : remap.renaming (key left) = remap.renaming (key right)) : key left = key right := by
  have described : ∀ item ∈ view key (base ++ created) overrides deleted,
      remap.Resolves (key item) ∧
        (isOverlay (key item) = false → ∀ number ≥ first, key item ≠ stableId number) := by
    intro item member
    rw [view_append] at member
    rcases List.mem_append.mp member with inBase | isCreated
    · obtain ⟨origin, isOrigin, -, rfl⟩ := mem_view.mp inBase
      rw [key_current proper]
      refine ⟨?_, fun _ => free origin isOrigin⟩
      intro isOverlay
      rw [stored origin isOrigin] at isOverlay
      cases isOverlay
    · refine ⟨resolves item isCreated, ?_⟩
      obtain ⟨origin, isOrigin, -, rfl⟩ := mem_view.mp isCreated
      rw [key_current proper, overlay origin isOrigin]
      intro plain
      cases plain
  obtain ⟨leftResolves, leftFree⟩ := described left isLeft
  obtain ⟨rightResolves, rightFree⟩ := described right isRight
  exact sound.renaming_inj leftResolves rightResolves leftFree rightFree same

end

/-- Changes are applied by writing them under one renaming, which resolves
every id written. -/
theorem apply_spec (memory : MemoryGraph) (changes : WriteChanges) : ∃ remap : Remap,
    remap.Sound memory.nextId ∧
      (∀ node ∈ changes.upsertedNodes, remap.Resolves node.id) ∧
      (∀ rel ∈ changes.createdRels ++ changes.modifiedRels, remap.Resolves rel.id) ∧
      (memory.apply changes).nodes =
        (changes.upsertedNodes.map (NodeValue.rename remap.renaming)).foldl
          (upsert NodeValue.id) (memory.nodes.filter fun node => node.id ∉ changes.deletedNodes) ∧
      (memory.apply changes).rels =
        ((changes.createdRels ++ changes.modifiedRels).map
          (RelValue.rename remap.renaming)).foldl (upsert RelValue.id)
          (memory.rels.filter fun rel => rel.id ∉ changes.deletedRels.map RelValue.id) := by
  have start : Remap.Sound memory.nextId ⟨.empty, memory.nextId⟩ := by
    refine ⟨Nat.le_refl _, ?_, ?_⟩
    · intro id new found
      cases found
    · intro left right new found
      cases found
  obtain ⟨nodesSound, -, nodesResolve, nodesResult⟩ := upsertAll_spec stableNode_renames
    changes.upsertedNodes (memory.nodes.filter fun node => node.id ∉ changes.deletedNodes) _ start
  obtain ⟨sound, grows, relsResolve, relsResult⟩ := upsertAll_spec stableRel_renames
    (changes.createdRels ++ changes.modifiedRels)
    (memory.rels.filter fun rel => rel.id ∉ changes.deletedRels.map RelValue.id) _ nodesSound
  refine ⟨_, sound, ?_, ?_, nodesResult _ grows, relsResult _ (.refl _)⟩
  · intro node member
    exact (nodesResolve node member node.id (List.mem_singleton_self _)).extends grows
  · intro rel member
    exact relsResolve rel member rel.id List.mem_cons_self

variable {memory : MemoryGraph} {graph : MutableGraph}

private theorem kept_nodes (consistent : graph.Consistent memory.toPropertyGraph) :
    (memory.nodes.filter fun node => node.id ∉ graph.changes.deletedNodes) =
      memory.nodes.filter fun node => !graph.nodeDeleted node.id := by
  apply List.filter_congr
  intro node member
  rw [Bool.eq_iff_iff, decide_eq_true_iff,
    MutableGraph.mem_changes_deletedNodes consistent member, Bool.not_eq_true, Bool.not_eq_true']

private theorem kept_rels (consistent : graph.Consistent memory.toPropertyGraph) :
    (memory.rels.filter fun rel => rel.id ∉ graph.changes.deletedRels.map RelValue.id) =
      memory.rels.filter fun rel => !graph.relDeleted rel.id := by
  apply List.filter_congr
  intro rel member
  rw [Bool.eq_iff_iff, decide_eq_true_iff,
    MutableGraph.mem_changes_deletedRels consistent member, Bool.not_eq_true, Bool.not_eq_true']

private theorem rename_stored_rel {base : PropertyGraph} (stored : base.Stored) (remap : Remap)
    {rel item : RelValue} (member : item ∈ base.rels) (same : rel.SameShape item) :
    rel.rename remap.renaming = rel := by
  have plainEnd : ∀ id ∈ base.nodes.map NodeValue.id, remap.renaming id = id := by
    intro id inside
    obtain ⟨node, isNode, rfl⟩ := List.mem_map.mp inside
    exact remap.renaming_stored (stored.storedNodes node isNode)
  rw [RelValue.rename, same.id, same.start, same.stop,
    remap.renaming_stored (stored.storedRels item member),
    plainEnd _ (stored.start item member), plainEnd _ (stored.stop item member), ← same.id,
    ← same.start, ← same.stop]

/-- Applying the net changes to the base gives the graph shown, with the created
entities renamed. -/
theorem apply_changes (stored : memory.toPropertyGraph.Stored) (numbered : memory.Numbered)
    (consistent : graph.Consistent memory.toPropertyGraph) :
    ∃ rename, Renaming (graph.shown memory.toPropertyGraph) rename ∧
      (memory.apply graph.changes).toPropertyGraph =
        renamed (graph.shown memory.toPropertyGraph) rename := by
  obtain ⟨remap, sound, nodesResolve, relsResolve, nodesAre, relsAre⟩ :=
    apply_spec memory graph.changes
  rw [MutableGraph.changes_upsertedNodes consistent] at nodesResolve nodesAre
  rw [MutableGraph.changes_rels consistent] at relsResolve relsAre
  rw [kept_nodes consistent] at nodesAre
  rw [kept_rels consistent] at relsAre
  have nodeOverlay : ∀ node ∈ graph.createdNodes, isOverlay node.id = true := by
    intro node member
    obtain ⟨number, -, isNumber⟩ := consistent.createdNodes node member
    rw [isNumber, isOverlay_overlayId]
  have relOverlay : ∀ rel ∈ graph.createdRels, isOverlay rel.id = true := by
    intro rel member
    obtain ⟨number, -, isNumber⟩ := consistent.createdRels rel member
    rw [isNumber, isOverlay_overlayId]
  have nodeResolves := fun node member => nodesResolve node (List.mem_append_left _ member)
  have relResolves := fun rel member => relsResolve rel (List.mem_append_left _ member)
  refine ⟨remap.renaming, ⟨fun id => remap.renaming_stored, ?_, ?_⟩, ?_⟩
  · intro left isLeft right isRight same
    exact renaming_view_inj sound consistent.nodeProper stored.storedNodes nodeOverlay
      nodeResolves numbered.nodes isLeft isRight same
  · intro left isLeft right isRight same
    exact renaming_view_inj sound consistent.relProper stored.storedRels relOverlay
      relResolves numbered.rels isLeft isRight same
  · have nodesFixed : ∀ node ∈ memory.nodes, graph.nodeDeleted node.id = false →
        (current NodeValue.id graph.nodeOverrides node).rename remap.renaming =
          current NodeValue.id graph.nodeOverrides node := by
      intro node member _
      have isStored := stored.storedNodes node member
      rw [← key_current consistent.nodeProper node] at isStored
      rw [NodeValue.rename, remap.renaming_stored isStored]
    have relsFixed : ∀ rel ∈ memory.rels, graph.relDeleted rel.id = false →
        (current RelValue.id graph.relOverrides rel).rename remap.renaming =
          current RelValue.id graph.relOverrides rel := by
      intro rel member live
      exact rename_stored_rel stored remap member
        (consistent.shape rel (List.mem_append_left _ member) live)
    rw [foldl_upsert_renamed sound consistent.nodeProper consistent.nodeIds
      (fun id found => .inr (consistent.nodeKnown id found)) (fun _ => rfl) nodesFixed nodeOverlay
      nodeResolves numbered.nodes] at nodesAre
    rw [foldl_upsert_renamed sound consistent.relProper consistent.relIds consistent.relKnown
      (fun _ => rfl) relsFixed relOverlay relResolves numbered.rels] at relsAre
    exact congrArg₂ PropertyGraph.mk nodesAre relsAre

end MemoryGraph

end Acetone.Cypher

import Acetone.Store.Consolidate

/-!
# Consolidation changes the representation only

The order of a plan puts every base before what is stored against it, so every
delta chain of the written pack ends in a whole object, and the delta was
checked to give the object's bytes.  Its kind is the kind of that whole object:
it is the object's own exactly if every delta taken is against a base of the
same kind.
-/

namespace Acetone.Store

open Acetone.Lib

variable {Oid : Type} [LinearOrder Oid]

def BasesFirst (base : Bases Oid) (order : List Oid) : Prop :=
  ∀ before oid after, order = before ++ oid :: after →
    ∀ target, base.get oid = some target → target ∈ before

theorem BasesFirst.snoc {base : Bases Oid} {order : List Oid} {last : Oid}
    (first : BasesFirst base order)
    (ready : ∀ target, base.get last = some target → target ∈ order) :
    BasesFirst base (order ++ [last]) := by
  intro before oid after split target isBase
  obtain ⟨rest, rfl, isRest⟩ | ⟨rest, rfl, isRest⟩ := List.append_eq_append_iff.mp split
  · cases rest with
    | nil =>
        simp only [List.nil_append, List.cons.injEq] at isRest
        rw [List.append_nil]
        exact ready target (isRest.1 ▸ isBase)
    | cons head tail =>
        simp at isRest
  · cases rest with
    | nil =>
        simp only [List.nil_append, List.cons.injEq] at isRest
        rw [List.append_nil] at ready
        exact ready target (isRest.1 ▸ isBase)
    | cons head tail =>
        simp only [List.cons_append, List.cons.injEq] at isRest
        exact first before head tail rfl target (isRest.1 ▸ isBase)

/-- What the emission loop keeps: the queue is ready to be written. -/
private def Ready (base : Bases Oid) (state : List Oid × List Oid) : Prop :=
  BasesFirst base state.2 ∧
    ∀ oid ∈ state.1, ∀ target, base.get oid = some target → target ∈ state.2

private theorem emitStep_ready {base : Bases Oid} {sorted : List Oid}
    {state next : List Oid × List Oid} (ready : Ready base state)
    (step : Plan.emitStep base sorted state = .inl next) : Ready base next := by
  obtain ⟨queue, order⟩ := state
  cases queue with
  | nil => cases step
  | cons oid queue =>
      cases step
      refine ⟨ready.1.snoc (ready.2 oid List.mem_cons_self), ?_⟩
      intro waiting member target isBase
      obtain queued | child := List.mem_append.mp member
      · exact List.mem_append_left _
          (ready.2 waiting (List.mem_cons_of_mem _ queued) target isBase)
      · have stored := of_decide_eq_true (List.mem_filter.mp child).2
        rw [stored] at isBase
        cases isBase
        exact List.mem_append_right _ List.mem_cons_self

theorem Plan.emit_basesFirst (base : Bases Oid) (sorted : List Oid) :
    BasesFirst base (Plan.emit base sorted) := by
  rw [Plan.emit]
  cases ended : loop (Plan.emitStep base sorted) (sorted.length + 1)
      (sorted.filter fun oid => base.get oid = none, []) with
  | none =>
      intro before oid after split
      cases before <;> cases split
  | some order =>
      have start : Ready base (sorted.filter fun oid => base.get oid = none, []) := by
        constructor
        · intro before oid after split
          cases before <;> cases split
        intro oid member target isBase
        rw [of_decide_eq_true (List.mem_filter.mp member).2] at isBase
        cases isBase
      refine loop_spec (fun _ _ => emitStep_ready) ?_ start ended
      intro state result ready step
      obtain ⟨queue, order⟩ := state
      cases queue with
      | nil =>
          cases step
          exact ready.1
      | cons oid queue => cases step

section

variable {setting : Setting Oid} {store : ObjectStore Oid}

theorem readAnyCapped_eq_some {oid : Oid} {object : GitObject}
    (readable : readAnyCapped setting store oid = .ok (some object)) :
    store.read oid = some object := by
  rw [readAnyCapped] at readable
  split at readable
  · cases readable
  · next found isFound =>
      split at readable
      · cases readable
      · cases readable
        exact isFound

/-- What an entry holds: the object, and the bytes of its base. -/
theorem readEntry_eq_ok {base : Bases Oid} {oid : Oid} {entry : PackEntry Oid}
    (done : readEntry setting store base oid = .ok entry) :
    entry.oid = oid ∧ store.read oid = some ⟨entry.kind, entry.data⟩ ∧
      ∀ target data, entry.base = some (target, data) →
        base.get oid = some target ∧
          ∃ object, store.read target = some object ∧ object.data = data := by
  rw [readEntry, bind_eq_ok] at done
  obtain ⟨found, isFound, rest⟩ := done
  cases found with
  | none => cases rest
  | some object =>
      have readable := readAnyCapped_eq_some isFound
      dsimp only at rest
      cases isBase : base.get oid with
      | none =>
          rw [isBase] at rest
          cases rest
          exact ⟨rfl, readable, fun target data none => by cases none⟩
      | some target =>
          rw [isBase] at rest
          obtain ⟨baseFound, isBaseFound, last⟩ := bind_eq_ok.mp rest
          cases baseFound with
          | none => cases last
          | some baseObject =>
              cases last
              refine ⟨rfl, readable, ?_⟩
              rintro other data ⟨⟩
              exact ⟨rfl, baseObject, readAnyCapped_eq_some isBaseFound, rfl⟩

private theorem packEntry_fst (hashLen : Nat) (entry : PackEntry Oid) :
    (packEntry hashLen entry).1 = entry.oid := by
  rw [packEntry]
  split <;> rfl

/-- The entries of a plan, one for every object of the order. -/
private theorem writePack_eq_ok {plan : Plan Oid} {pack : Pack Oid}
    (written : writePack setting store plan = .ok pack) :
    List.Forall₂ (fun oid packed => ∃ entry, readEntry setting store plan.base oid = .ok entry ∧
      packed = packEntry setting.hashLen entry) plan.order pack := by
  rw [writePack, bind_eq_ok] at written
  obtain ⟨entries, areEntries, ⟨⟩⟩ := written
  rw [List.forall₂_map_right_iff]
  exact (mapM_eq_ok.mp areEntries).imp fun oid entry isEntry => ⟨entry, isEntry, rfl⟩

theorem oids_writePack {plan : Plan Oid} {pack : Pack Oid}
    (written : writePack setting store plan = .ok pack) :
    pack.map Prod.fst = plan.order := by
  have each := writePack_eq_ok written
  clear written
  generalize plan.order = order at each ⊢
  induction each with
  | nil => rfl
  | cons first _ ih =>
      obtain ⟨entry, isEntry, rfl⟩ := first
      rw [List.map_cons, packEntry_fst, (readEntry_eq_ok isEntry).1, ih]

theorem find_writePack {plan : Plan Oid} {pack : Pack Oid}
    (written : writePack setting store plan = .ok pack) {oid : Oid}
    (member : oid ∈ plan.order) :
    ∃ entry, readEntry setting store plan.base oid = .ok entry ∧
      pack.find oid = some (packEntry setting.hashLen entry).2 := by
  have each := writePack_eq_ok written
  clear written
  generalize plan.order = order at each member
  induction each with
  | nil => cases member
  | @cons current packed _ _ first _ ih =>
      obtain ⟨entry, isEntry, rfl⟩ := first
      have named : (packEntry setting.hashLen entry).1 = current := by
        rw [packEntry_fst, (readEntry_eq_ok isEntry).1]
      by_cases same : current = oid
      · subst same
        refine ⟨entry, isEntry, ?_⟩
        simp only [Pack.find, List.find?_cons, named, decide_true, Option.map_some]
      · obtain ⟨later, isLater, found⟩ := ih (List.mem_of_ne_of_mem (Ne.symm same) member)
        refine ⟨later, isLater, ?_⟩
        simp only [Pack.find, List.find?_cons, named, decide_eq_false same]
        exact found

/-- Every delta that is taken is against a base of the object's own kind. -/
def KindsAgree (setting : Setting Oid) (store : ObjectStore Oid) (plan : Plan Oid) : Prop :=
  ∀ oid ∈ plan.order, ∀ entry, readEntry setting store plan.base oid = .ok entry →
    ∀ base delta, chooseDelta setting.hashLen entry = some (base, delta) →
      ∃ object, store.read base = some object ∧ object.kind = entry.kind

section

variable {plan : Plan Oid} {pack : Pack Oid}
  (written : writePack setting store plan = .ok pack)

include written

private theorem follow_succ {oid : Oid} (member : oid ∈ plan.order) {entry : PackEntry Oid}
    (isEntry : readEntry setting store plan.base oid = .ok entry) (links : Nat) :
    pack.follow (links + 1) oid =
      match chooseDelta setting.hashLen entry with
      | none => some ⟨entry.kind, entry.data⟩
      | some (base, delta) =>
          match pack.follow links base with
          | none => none
          | some object =>
              match applyDelta object.data delta with
              | .ok data => some ⟨object.kind, data⟩
              | .error _ => none := by
  obtain ⟨found, isFound, inPack⟩ := find_writePack written member
  rw [isEntry] at isFound
  cases isFound
  rw [Pack.follow, inPack, packEntry]
  cases chooseDelta setting.hashLen entry <;> rfl

/-- Every object resolves to its own bytes, within the links that precede it
in the order; to its own kind as well if the kinds agree along the chain. -/
private theorem follow_bytes (first : BasesFirst plan.base plan.order) (position : Nat) :
    ∀ before oid after, plan.order = before ++ oid :: after → before.length = position →
      ∃ object kind, store.read oid = some object ∧
        pack.follow (position + 1) oid = some ⟨kind, object.data⟩ ∧
        (KindsAgree setting store plan → kind = object.kind) := by
  induction position using Nat.strong_induction_on with
  | _ position ih =>
      intro before oid after split isPosition
      have member : oid ∈ plan.order := by
        rw [split]
        exact List.mem_append_right _ List.mem_cons_self
      obtain ⟨entry, isEntry, -⟩ := find_writePack written member
      have parts := readEntry_eq_ok isEntry
      refine ⟨⟨entry.kind, entry.data⟩, ?_⟩
      rw [follow_succ written member isEntry]
      cases chosen : chooseDelta setting.hashLen entry with
      | none => exact ⟨entry.kind, parts.2.1, rfl, fun _ => rfl⟩
      | some taken =>
          obtain ⟨base, delta⟩ := taken
          obtain ⟨baseData, isBase, applies⟩ := chooseDelta_eq_some chosen
          obtain ⟨named, baseObject, isRead, sameData⟩ := parts.2.2 base baseData isBase
          have earlier := first before oid after split base named
          obtain ⟨left, right, isBefore⟩ := List.append_of_mem earlier
          have shorter : left.length < position := by
            rw [← isPosition, isBefore, List.length_append, List.length_cons]
            omega
          obtain ⟨object, kind, objectRead, followed, agrees⟩ := ih left.length shorter left base
            (right ++ oid :: after) (by rw [split, isBefore, List.append_assoc,
              List.cons_append]) rfl
          rw [isRead] at objectRead
          cases objectRead
          refine ⟨kind, parts.2.1, ?_, ?_⟩
          · dsimp only
            rw [Pack.follow_mono followed (by omega)]
            dsimp only
            rw [sameData, applies]
          · intro kinds
            obtain ⟨other, otherRead, sameKind⟩ := kinds oid member entry isEntry base delta chosen
            rw [isRead] at otherRead
            cases otherRead
            rw [agrees kinds, sameKind]

private theorem length_eq : pack.length = plan.order.length := by
  rw [← oids_writePack written, List.length_map]

theorem resolve_bytes (first : BasesFirst plan.base plan.order) {oid : Oid}
    (member : oid ∈ plan.order) :
    ∃ object kind, store.read oid = some object ∧
      pack.resolve oid = some ⟨kind, object.data⟩ ∧
      (KindsAgree setting store plan → kind = object.kind) := by
  obtain ⟨before, after, split⟩ := List.append_of_mem member
  obtain ⟨object, kind, isRead, followed, agrees⟩ :=
    follow_bytes written first before.length before oid after split rfl
  refine ⟨object, kind, isRead, Pack.follow_mono followed ?_, agrees⟩
  rw [length_eq written, split, List.length_append, List.length_cons]
  omega

/-- The pack resolves every object of it to the object that was read exactly
if the kinds agree. -/
theorem resolve_iff_kindsAgree (first : BasesFirst plan.base plan.order) :
    (∀ oid ∈ plan.order, pack.resolve oid = store.read oid) ↔
      KindsAgree setting store plan := by
  constructor
  · intro resolves oid member entry isEntry base delta chosen
    have parts := readEntry_eq_ok isEntry
    obtain ⟨baseData, isBase, applies⟩ := chooseDelta_eq_some chosen
    obtain ⟨named, baseObject, isRead, sameData⟩ := parts.2.2 base baseData isBase
    obtain ⟨before, after, split⟩ := List.append_of_mem member
    have baseMember : base ∈ plan.order := by
      rw [split]
      exact List.mem_append_left _ (first before oid after split base named)
    refine ⟨baseObject, isRead, ?_⟩
    have positive : pack.length = pack.length - 1 + 1 := by
      have nonempty := List.length_pos_of_mem member
      rw [length_eq written]
      omega
    have resolved := resolves oid member
    rw [parts.2.1, Pack.resolve, positive, follow_succ written member isEntry, chosen]
      at resolved
    dsimp only at resolved
    cases followed : pack.follow (pack.length - 1) base with
    | none =>
        rw [followed] at resolved
        cases resolved
    | some object =>
        have baseResolved := Pack.follow_mono followed (Nat.sub_le pack.length 1)
        have sameObject := resolves base baseMember
        rw [Pack.resolve, baseResolved, isRead] at sameObject
        cases sameObject
        rw [followed] at resolved
        dsimp only at resolved
        rw [sameData, applies] at resolved
        exact congrArg GitObject.kind (Option.some.inj resolved)
  · intro kinds oid member
    obtain ⟨object, kind, isRead, resolved, agrees⟩ := resolve_bytes written first member
    rw [resolved, isRead, agrees kinds]

end

end

/-- The objects of the database stand under their own addresses, and a pack's
name fixes its contents: both are hashes. -/
structure Addressed (address : GitObject → Oid) (stemOf : Pack Oid → String)
    (store : ObjectStore Oid) : Prop where
  loose : ∀ oid object, store.loose.get oid = some object → address object = oid
  packed : ∀ stem pack oid object, store.packs.get stem = some pack →
    pack.resolve oid = some object → address object = oid
  named : ∀ pack other, store.packs.get (stemOf other) = some pack → pack = other

/-- What a consolidation may not change: the pack holds the objects as they
were, and every object that was readable still is. -/
structure RepresentationOnly (before : ObjectStore Oid) (pack : Pack Oid) (stem : String)
    (after : ObjectStore Oid) : Prop where
  installed : after.packs.get stem = some pack
  resolves : ∀ oid ∈ pack.map Prod.fst,
    ∃ object, before.read oid = some object ∧ pack.resolve oid = some object
  readable : ∀ oid object, before.read oid = some object → after.read oid = some object

section

variable {store : ObjectStore Oid}

theorem read_eq_some {oid : Oid} {object : GitObject} (found : store.read oid = some object) :
    store.loose.get oid = some object ∨
      ∃ stem pack, store.packs.get stem = some pack ∧ pack.resolve oid = some object := by
  rw [ObjectStore.read] at found
  split at found
  · next isLoose =>
      cases found
      exact .inl isLoose
  · obtain ⟨⟨stem, pack⟩, member, resolved⟩ := List.exists_of_findSome?_eq_some found
    exact .inr ⟨stem, pack, SortedMap.get_eq_some_iff.mpr member, resolved⟩

theorem read_of_unique {oid : Oid} {object : GitObject}
    (looseSame : ∀ other, store.loose.get oid = some other → other = object)
    (packedSame : ∀ stem pack other, store.packs.get stem = some pack →
      pack.resolve oid = some other → other = object)
    (there : store.loose.get oid = some object ∨
      ∃ stem pack, store.packs.get stem = some pack ∧ pack.resolve oid = some object) :
    store.read oid = some object := by
  cases found : store.read oid with
  | some other =>
      obtain isLoose | ⟨stem, pack, isPack, resolved⟩ := read_eq_some found
      · rw [looseSame other isLoose]
      · rw [packedSame stem pack other isPack resolved]
  | none =>
      rw [ObjectStore.read] at found
      split at found
      · cases found
      · next noLoose =>
          obtain isLoose | ⟨stem, pack, isPack, resolved⟩ := there
          · rw [noLoose] at isLoose
            cases isLoose
          · have missed := List.findSome?_eq_none_iff.mp found (stem, pack)
              (SortedMap.get_eq_some_iff.mp isPack)
            dsimp only at missed
            rw [resolved] at missed
            cases missed

/-- What pruning leaves: the loose copies of objects that were not packed, and
the packs that hold one of those. -/
structure Pruned (installed : ObjectStore Oid) (stem : String) (packed : List Oid)
    (after : ObjectStore Oid) : Prop where
  looseKept : ∀ oid, oid ∉ packed → after.loose.get oid = installed.loose.get oid
  looseOnly : ∀ oid object, after.loose.get oid = some object →
    installed.loose.get oid = some object
  packKept : ∀ name pack, installed.packs.get name = some pack →
    name = stem ∨ (∃ oid ∈ pack.map Prod.fst, oid ∉ packed) →
      after.packs.get name = some pack
  packOnly : ∀ name pack, after.packs.get name = some pack →
    installed.packs.get name = some pack

theorem Pruned.refl (stem : String) (packed : List Oid) : Pruned store stem packed store :=
  ⟨fun _ _ => rfl, fun _ _ same => same, fun _ _ same _ => same, fun _ _ same => same⟩

theorem Pruned.trans {first second third : ObjectStore Oid} {stem : String}
    {packed : List Oid} (left : Pruned first stem packed second)
    (right : Pruned second stem packed third) : Pruned first stem packed third where
  looseKept oid absent := by rw [right.looseKept oid absent, left.looseKept oid absent]
  looseOnly oid object found := left.looseOnly oid object (right.looseOnly oid object found)
  packKept name pack found needed :=
    right.packKept name pack (left.packKept name pack found needed) needed
  packOnly name pack found := left.packOnly name pack (right.packOnly name pack found)

theorem pruneLoose_pruned (stem : String) (packed guard : List Oid) :
    Pruned store stem packed (pruneLoose store packed guard).2 where
  looseKept oid absent := by
    rw [pruneLoose]
    dsimp only
    rw [SortedMap.get_foldl_delete, if_neg]
    intro member
    exact absent (List.mem_filter.mp member).1
  looseOnly oid object found := by
    rw [pruneLoose] at found
    dsimp only at found
    rw [SortedMap.get_foldl_delete] at found
    split at found
    · cases found
    · exact found
  packKept _ _ found _ := found
  packOnly _ _ found := found

theorem supersedePacks_pruned (stem : String) (packed : List Oid) :
    Pruned store stem packed (supersedePacks store stem packed).2 where
  looseKept _ _ := rfl
  looseOnly _ _ found := found
  packKept name pack found needed := by
    rw [supersedePacks]
    dsimp only
    rw [SortedMap.get_foldl_delete, if_neg]
    · exact found
    · intro member
      obtain ⟨prior, contained⟩ := List.mem_filter.mp member
      rw [found] at contained
      obtain rfl | ⟨oid, inPack, absent⟩ := needed
      · exact of_decide_eq_true (List.mem_filter.mp prior).2 rfl
      · obtain ⟨entry, inside, rfl⟩ := List.mem_map.mp inPack
        exact absent (of_decide_eq_true (List.all_eq_true.mp contained entry inside))
  packOnly name pack found := by
    rw [supersedePacks] at found
    dsimp only at found
    rw [SortedMap.get_foldl_delete] at found
    split at found
    · cases found
    · exact found

theorem prune_pruned (options : ConsolidateOptions) (stem : String) (packed guard : List Oid) :
    Pruned store stem packed (prune store options stem packed guard).2.2 := by
  rw [prune]
  have recorded : ∀ other : ObjectStore Oid,
      Pruned other stem packed (recordPackStem other stem) := fun other =>
    ⟨fun _ _ => rfl, fun _ _ same => same, fun _ _ same _ => same, fun _ _ same => same⟩
  obtain ⟨loose, superseded⟩ := options
  cases loose <;> cases superseded
  · exact recorded store
  · exact supersedePacks_pruned stem packed
  · exact (pruneLoose_pruned stem packed guard).trans (recorded _)
  · exact (pruneLoose_pruned stem packed guard).trans (supersedePacks_pruned stem packed)

end

def planOf (setting : Setting Oid) (store : ObjectStore Oid) (refs : List (String × Oid))
    (isGraphRef : String → Bool) : Except StoreError (Plan Oid) := do
  let reachable ← reachableFrom setting store (classifyRefRoots refs isGraphRef).1
  .ok (Plan.build reachable (loadHints setting store (reachable.map Prod.fst)))

section

variable {setting : Setting Oid} {store : ObjectStore Oid} {refs : List (String × Oid)}
  {isGraphRef : String → Bool}

theorem planPack_eq_ok {pack : Pack Oid} {guard : List Oid}
    (planned : planPack setting store refs isGraphRef = .ok (pack, guard)) :
    ∃ plan, planOf setting store refs isGraphRef = .ok plan ∧
      BasesFirst plan.base plan.order ∧ writePack setting store plan = .ok pack := by
  rw [planPack] at planned
  obtain ⟨reachable, isReachable, rest⟩ := bind_eq_ok.mp planned
  obtain ⟨guarded, -, rest⟩ := bind_eq_ok.mp rest
  obtain ⟨written, isWritten, rest⟩ := bind_eq_ok.mp rest
  split at rest
  · cases rest
  · cases rest
    refine ⟨Plan.build reachable (loadHints setting store (reachable.map Prod.fst)), ?_,
      Plan.emit_basesFirst _ _, isWritten⟩
    exact bind_eq_ok.mpr ⟨reachable, isReachable, rfl⟩

theorem installPack_installed {address : GitObject → Oid} {pack : Pack Oid}
    (addressed : Addressed address setting.stemOf store) :
    (installPack store (setting.stemOf pack) pack).packs.get (setting.stemOf pack) =
      some pack := by
  rw [installPack]
  split
  · next present =>
      obtain ⟨other, isOther⟩ := Option.isSome_iff_exists.mp present
      rw [isOther, addressed.named other pack isOther]
  · dsimp only
    rw [SortedMap.get_put, if_pos rfl]

theorem installPack_packs {stem name : String} {pack other : Pack Oid}
    (found : (installPack store stem pack).packs.get name = some other) :
    store.packs.get name = some other ∨ other = pack := by
  rw [installPack] at found
  split at found
  · exact .inl found
  · dsimp only at found
    rw [SortedMap.get_put] at found
    split at found
    · cases found
      exact .inr rfl
    · exact .inl found

theorem installPack_kept {stem name : String} {pack other : Pack Oid}
    (found : store.packs.get name = some other) :
    (installPack store stem pack).packs.get name = some other := by
  rw [installPack]
  split
  · exact found
  · next absent =>
      dsimp only
      rw [SortedMap.get_put, if_neg]
      · exact found
      · rintro rfl
        rw [found] at absent
        exact absent rfl

theorem installPack_loose (stem : String) (pack : Pack Oid) :
    (installPack store stem pack).loose = store.loose := by
  rw [installPack]
  split <;> rfl

theorem consolidateScoped_of_planned {pack : Pack Oid} {guard : List Oid}
    (planned : planPack setting store refs isGraphRef = .ok (pack, guard))
    (options : ConsolidateOptions) :
    ∃ stats after, consolidateScoped setting store options refs isGraphRef =
      .ok (stats, after) ∧ stats.deltas = (pack.filter fun entry => isDelta entry.2).length := by
  rw [consolidateScoped, planned, ok_bind]
  exact ⟨_, _, rfl, rfl⟩

/-- Consolidation changes the representation only, exactly if every delta it
takes is against a base of the object's own kind. -/
theorem consolidate_representationOnly_iff {address : GitObject → Oid}
    (injective : Function.Injective address)
    (addressed : Addressed address setting.stemOf store) {options : ConsolidateOptions}
    {pack : Pack Oid} {guard : List Oid} {stats : ConsolidateStats} {after : ObjectStore Oid}
    (planned : planPack setting store refs isGraphRef = .ok (pack, guard))
    (ran : consolidateScoped setting store options refs isGraphRef = .ok (stats, after)) :
    RepresentationOnly store pack (setting.stemOf pack) after ↔
      ∀ plan, planOf setting store refs isGraphRef = .ok plan →
        KindsAgree setting store plan := by
  obtain ⟨plan, isPlan, first, written⟩ := planPack_eq_ok planned
  have onlyPlan : (∀ other, planOf setting store refs isGraphRef = .ok other →
      KindsAgree setting store other) ↔ KindsAgree setting store plan := by
    rw [isPlan]
    constructor
    · exact fun all => all plan rfl
    · rintro kinds other ⟨⟩
      exact kinds
  have resolvesIff := resolve_iff_kindsAgree written first
  have oids := oids_writePack written
  rw [onlyPlan, ← resolvesIff]
  constructor
  · intro only oid member
    obtain ⟨object, isRead, resolved⟩ := only.resolves oid (oids ▸ member)
    rw [resolved, isRead]
  · intro resolves
    have inPack : ∀ oid ∈ plan.order,
        ∃ object, store.read oid = some object ∧ pack.resolve oid = some object := by
      intro oid member
      obtain ⟨object, kind, isRead, -⟩ := resolve_bytes written first member
      exact ⟨object, isRead, by rw [resolves oid member, isRead]⟩
    rw [consolidateScoped, planned, ok_bind] at ran
    dsimp only at ran
    cases ran
    have pruned : Pruned (installPack store (setting.stemOf pack) pack) (setting.stemOf pack)
        (pack.map Prod.fst).dedup _ :=
      prune_pruned options (setting.stemOf pack) (pack.map Prod.fst).dedup guard
    have installed := pruned.packKept _ _ (installPack_installed addressed) (.inl rfl)
    refine ⟨installed, fun oid member => inPack oid (oids ▸ member), ?_⟩
    intro oid object isRead
    have address_eq : address object = oid := by
      obtain isLoose | ⟨stem, other, isPack, resolved⟩ := read_eq_some isRead
      · exact addressed.loose oid object isLoose
      · exact addressed.packed stem other oid object isPack resolved
    apply read_of_unique
    · intro other isLoose
      have earlier := pruned.looseOnly oid other isLoose
      rw [installPack_loose] at earlier
      exact injective ((addressed.loose oid other earlier).trans address_eq.symm)
    · intro stem held other isPack resolved
      obtain earlier | rfl := installPack_packs (pruned.packOnly stem held isPack)
      · exact injective ((addressed.packed stem held oid other earlier resolved).trans
          address_eq.symm)
      · have member : oid ∈ plan.order := oids ▸ Pack.mem_of_follow resolved
        rw [resolves oid member, isRead] at resolved
        exact (Option.some.inj resolved).symm
    · by_cases member : oid ∈ plan.order
      · exact .inr ⟨_, _, installed, by rw [resolves oid member, isRead]⟩
      · have absent : oid ∉ (pack.map Prod.fst).dedup := by
          rw [List.mem_dedup, oids]
          exact member
        obtain isLoose | ⟨stem, held, isPack, resolved⟩ := read_eq_some isRead
        · left
          rw [pruned.looseKept oid absent, installPack_loose]
          exact isLoose
        · right
          refine ⟨stem, held, pruned.packKept stem held (installPack_kept isPack) (.inr ?_),
            resolved⟩
          exact ⟨oid, Pack.mem_of_follow resolved, absent⟩

end

/-- Among objects of one kind any hint will do. -/
theorem kindsAgree_of_uniform {setting : Setting Oid} {store : ObjectStore Oid}
    {kind : ObjectKind} (uniform : ∀ oid object, store.read oid = some object → object.kind = kind)
    (plan : Plan Oid) : KindsAgree setting store plan := by
  intro oid member entry isEntry base delta chosen
  obtain ⟨data, isBase, -⟩ := chooseDelta_eq_some chosen
  obtain ⟨-, isRead, bases⟩ := readEntry_eq_ok isEntry
  obtain ⟨-, object, baseRead, -⟩ := bases base data isBase
  exact ⟨object, baseRead, (uniform base object baseRead).trans (uniform oid _ isRead).symm⟩

section

private def spelledAddress (object : GitObject) : Bytes :=
  (match object.kind with
    | .commit => 1
    | .tree => 2
    | .blob => 3
    | .tag => 4) :: object.data

private theorem spelledAddress_injective : Function.Injective spelledAddress := by
  rintro ⟨leftKind, leftData⟩ ⟨rightKind, rightData⟩ same
  simp only [spelledAddress, List.cons.injEq] at same
  obtain ⟨kinds, rfl⟩ := same
  cases leftKind <;> cases rightKind <;> first | rfl | cases kinds

private def hexDigit (digit : Char) : Option Nat :=
  if '0' ≤ digit ∧ digit ≤ '9' then some (digit.toNat - 48)
  else if 'a' ≤ digit ∧ digit ≤ 'f' then some (digit.toNat - 87)
  else none

private def hexBytes : List Char → Option Bytes
  | [] => some []
  | [_] => none
  | high :: low :: digits =>
      match hexDigit high, hexDigit low, hexBytes digits with
      | some high, some low, some bytes => some (UInt8.ofNat (16 * high + low) :: bytes)
      | _, _, _ => none

/-- A tree of one entry is its mode, its name and the id of the entry. -/
private def sampleSetting : Setting Bytes where
  format := ⟨fun _ => .error "not a commit", fun data => .ok [data.drop 9],
    fun _ => .error "not a tag"⟩
  maxChunkSize := 1000
  hashLen := 20
  fromHex text := hexBytes text.toList
  stemOf _ := "pack-00000000000000000000"

/-- The entry `100644 x` of a tree, under an id that is not in the database. -/
private def entryBytes : Bytes := [49, 48, 48, 54, 52, 52, 32, 120, 0] ++ List.replicate 20 7

private def treeObject : GitObject := ⟨.tree, entryBytes⟩
private def blobObject : GitObject := ⟨.blob, entryBytes⟩
private def longerBlob : GitObject := ⟨.blob, entryBytes ++ [1]⟩

private def databaseOf (objects : List GitObject) (hints : List String) :
    ObjectStore Bytes where
  loose := .ofList (objects.map fun object => (spelledAddress object, object))
  packs := .empty
  hintLines := hints
  stemLines := []

private theorem databaseOf_addressed (objects : List GitObject) (hints : List String) :
    Addressed spelledAddress sampleSetting.stemOf (databaseOf objects hints) where
  loose oid object found := by
    have functional : ∀ first ∈ objects.map fun object => (spelledAddress object, object),
        ∀ second ∈ objects.map fun object => (spelledAddress object, object),
          first.1 = second.1 → first.2 = second.2 := by
      intro first inFirst second inSecond same
      obtain ⟨left, -, rfl⟩ := List.mem_map.mp inFirst
      obtain ⟨right, -, rfl⟩ := List.mem_map.mp inSecond
      exact spelledAddress_injective same
    obtain ⟨other, -, same⟩ := List.mem_map.mp
      ((SortedMap.get_ofList_eq_some functional).mp found)
    cases same
    rfl
  packed _ _ _ _ found _ := by cases found
  named _ _ found := by cases found

/-- A hint from the second blob to the first. -/
private def blobDatabase : ObjectStore Bytes := databaseOf [blobObject, longerBlob]
  ["03313030363434207800070707070707070707070707070707070707070701 033130303634342078000707070707070707070707070707070707070707"]

private def blobRefs : List (String × Bytes) :=
  [("refs/tags/a", spelledAddress blobObject), ("refs/tags/b", spelledAddress longerBlob)]

private def blobPack : Pack Bytes :=
  [(spelledAddress blobObject, .whole .blob entryBytes),
    (spelledAddress longerBlob, .refDelta (spelledAddress blobObject) [29, 30, 144, 29, 1, 1])]

/-- A blob against a blob: the pack holds a delta and nothing is lost. -/
theorem consolidate_representationOnly_sample : ∃ stats after,
    consolidateScoped sampleSetting blobDatabase ⟨true, true⟩ blobRefs (fun _ => true) =
      .ok (stats, after) ∧ stats.deltas = 1 ∧
      RepresentationOnly blobDatabase blobPack (sampleSetting.stemOf blobPack) after := by
  have planned : planPack sampleSetting blobDatabase blobRefs (fun _ => true) =
      .ok (blobPack, []) := by decide +kernel
  have blobs : ∀ oid object, blobDatabase.read oid = some object → object.kind = .blob := by
    intro oid object found
    obtain isLoose | ⟨stem, pack, isPack, -⟩ := read_eq_some found
    · have all : ∀ entry ∈ blobDatabase.loose.entries, entry.2.kind = .blob := by
        decide +kernel
      exact all _ (SortedMap.get_eq_some_iff.mp isLoose)
    · cases isPack
  obtain ⟨stats, after, ran, deltas⟩ := consolidateScoped_of_planned planned ⟨true, true⟩
  refine ⟨stats, after, ran, by rw [deltas]; decide, ?_⟩
  exact (consolidate_representationOnly_iff spelledAddress_injective
    (databaseOf_addressed _ _) planned ran).mpr fun plan _ => kindsAgree_of_uniform blobs plan

/-- A tree and a blob of the same bytes, and a hint from the tree to the blob:
the tree comes back as a blob. -/
private def mixedDatabase : ObjectStore Bytes := databaseOf [treeObject, blobObject]
  ["023130303634342078000707070707070707070707070707070707070707 033130303634342078000707070707070707070707070707070707070707"]

private def mixedRefs : List (String × Bytes) :=
  [("refs/tags/a", spelledAddress treeObject), ("refs/tags/b", spelledAddress blobObject)]

private def mixedPack : Pack Bytes :=
  [(spelledAddress blobObject, .whole .blob entryBytes),
    (spelledAddress treeObject, .refDelta (spelledAddress blobObject) [29, 29, 144, 29])]

/-- A delta against a base of another kind changes the object's kind. -/
theorem consolidate_changes_kind : ¬ ∀ (setting : Setting Bytes) (store : ObjectStore Bytes)
    (address : GitObject → Bytes) (options : ConsolidateOptions) (refs : List (String × Bytes))
    (isGraphRef : String → Bool) (pack : Pack Bytes) (guard : List Bytes)
    (stats : ConsolidateStats) (after : ObjectStore Bytes),
    Function.Injective address → Addressed address setting.stemOf store →
      planPack setting store refs isGraphRef = .ok (pack, guard) →
      consolidateScoped setting store options refs isGraphRef = .ok (stats, after) →
      RepresentationOnly store pack (setting.stemOf pack) after := by
  intro always
  have planned : planPack sampleSetting mixedDatabase mixedRefs (fun _ => true) =
      .ok (mixedPack, []) := by decide +kernel
  obtain ⟨stats, after, ran, -⟩ := consolidateScoped_of_planned planned ⟨true, true⟩
  have only := always sampleSetting mixedDatabase spelledAddress ⟨true, true⟩ mixedRefs
    (fun _ => true) mixedPack [] stats after spelledAddress_injective
    (databaseOf_addressed _ _) planned ran
  obtain ⟨object, isRead, resolved⟩ := only.resolves (spelledAddress treeObject) (by decide)
  have before : mixedDatabase.read (spelledAddress treeObject) = some treeObject := by
    decide +kernel
  rw [before] at isRead
  cases isRead
  revert resolved
  decide +kernel

end

end Acetone.Store

import Acetone.Lib.ParentForest
import Acetone.Store.Representation

/-!
# The plan is well-founded

Whatever the hints are, the loops of the plan end, every object is written once
and after its base, and no chain of bases is longer than the cap.
-/

namespace Acetone.Store

open Acetone.Lib

variable {Oid : Type} [LinearOrder Oid]

namespace Plan

/-- The bases after a walk that closes a cycle, if it does. -/
def cutClosing (base : Bases Oid) : Option Oid → Bases Oid
  | some last => base.delete last
  | none => base

/-- One walk of `breakCycles`; it has no result if it is not over after so many
rounds. -/
def breakCycleWithin (rounds : Nat) (state : List Oid × Bases Oid) (start : Oid) :
    Option (List Oid × Bases Oid) :=
  if listed start state.1 then some state
  else
    match loop (chaseStep state.2 state.1) rounds ([], start) with
    | none => none
    | some (path, closing) => some (path ++ state.1, cutClosing state.2 closing)

def breakCyclesWithin (rounds : Nat) (objects : List Oid) (base : Bases Oid) :
    Option (Bases Oid) :=
  (objects.foldlM (breakCycleWithin rounds) ([], base)).map Prod.snd

def capChainWithin (rounds : Nat) (state : Bases Oid × SortedMap Oid Nat) (start : Oid) :
    Option (Bases Oid × SortedMap Oid Nat) :=
  if (state.2.get start).isSome then some state
  else (loop (descendStep state.1 state.2) rounds ([], start)).map fun _ =>
    capChain rounds state start

def capChainsWithin (rounds : Nat) (base : Bases Oid) (sorted : List Oid) :
    Option (Bases Oid) :=
  (sorted.foldlM (capChainWithin rounds) (base, .empty)).map Prod.fst

def emitWithin (rounds : Nat) (base : Bases Oid) (sorted : List Oid) : Option (List Oid) :=
  loop (emitStep base sorted) rounds (sorted.filter fun oid => base.get oid = none, [])

/-- The plan, if none of its loops takes more rounds than these. -/
def buildWithin (rounds : Nat) (objects : List (Oid × ObjectKind)) (hints : Bases Oid) :
    Option (Plan Oid) := do
  let oids := objects.map Prod.fst
  let sorted := (KeySet.ofKeys oids).keys
  let acyclic ← breakCyclesWithin rounds oids (provisional oids hints)
  let base ← capChainsWithin rounds acyclic sorted
  let order ← emitWithin rounds base sorted
  some ⟨order, base⟩

/-- A base that is kept is a hint for another object of the set. -/
def Hinted (objects : List Oid) (hints base : Bases Oid) : Prop :=
  ∀ oid target, base.get oid = some target →
    hints.get oid = some target ∧ oid ∈ objects ∧ target ∈ objects

theorem provisional_hinted (objects : List Oid) (hints : Bases Oid) :
    Hinted objects hints (provisional objects hints) := by
  rw [provisional]
  refine List.foldlRecOn objects _ ?_ ?_
  · intro oid target found
    cases found
  · intro base hinted oid isObject
    split
    · next hint isHint =>
        split
        · next fits =>
            intro other target found
            rw [SortedMap.get_put] at found
            split at found
            · next same =>
                cases found
                subst same
                exact ⟨isHint, isObject, fits.2⟩
            · exact hinted other target found
        · exact hinted
    · exact hinted

theorem Hinted.of_isCut {objects : List Oid} {hints base cut : Bases Oid}
    (hinted : Hinted objects hints base) (isCut : IsCut base.get cut.get) :
    Hinted objects hints cut :=
  fun oid target found => hinted oid target (isCut.eq_some found)

theorem isCut_delete (base : Bases Oid) (oid : Oid) : IsCut base.get (base.delete oid).get := by
  intro node
  rw [SortedMap.get_delete]
  split
  · exact .inl rfl
  · exact .inr rfl

/-- Every finished object leads to a root. -/
def Grounded (base : Bases Oid) (done : List Oid) : Prop :=
  ∀ oid ∈ done, ∃ count, Links base.get oid count

theorem Grounded.of_isCut {base cut : Bases Oid} {done : List Oid}
    (grounded : Grounded base done) (isCut : IsCut base.get cut.get) : Grounded cut done := by
  intro oid isDone
  obtain ⟨count, links⟩ := grounded oid isDone
  exact links.of_isCut isCut

/-- What holds of a walk along the bases: it has not come back, and has met
nothing finished. -/
private structure Chasing (objects done : List Oid) (base : Bases Oid) (start : Oid)
    (state : List Oid × Oid) : Prop where
  trail : Trail base.get state.1 state.2
  nodup : state.1.Nodup
  within : state.1 ⊆ objects
  current : state.2 ∈ objects
  started : start ∈ state.2 :: state.1

/-- What a walk leaves: everything on it leads to a root. -/
private def Chased (done : List Oid) (base : Bases Oid) (start : Oid)
    (result : List Oid × Option Oid) : Prop :=
  start ∈ result.1 ++ done ∧ Grounded (cutClosing base result.2) (result.1 ++ done)

private theorem chase_spec {objects done : List Oid} {base : Bases Oid} {start : Oid}
    (stays : ∀ oid target, base.get oid = some target → target ∈ objects)
    (grounded : Grounded base done) (isObject : start ∈ objects) :
    ∃ result, loop (chaseStep base done) (objects.length + 1) ([], start) = some result ∧
      Chased done base start result := by
  have begins : Chasing objects done base start ([], start) :=
    ⟨trivial, List.nodup_nil, List.nil_subset _, isObject, List.mem_cons_self⟩
  have keeps : ∀ state next, Chasing objects done base start state →
      chaseStep base done state = .inl next →
      Chasing objects done base start next ∧ next.1.length = state.1.length + 1 := by
    rintro ⟨path, node⟩ next chasing step
    simp only [chaseStep] at step
    split at step
    · cases step
    · next fresh =>
        split at step
        · cases step
        · split at step
          · next target found =>
              cases step
              exact ⟨⟨⟨found, chasing.trail⟩, List.nodup_cons.mpr ⟨fresh, chasing.nodup⟩,
                List.cons_subset.mpr ⟨chasing.current, chasing.within⟩, stays node target found,
                List.mem_cons_of_mem _ chasing.started⟩, rfl⟩
          · cases step
  have breaks : ∀ state result, Chasing objects done base start state →
      chaseStep base done state = .inr result → Chased done base start result := by
    rintro ⟨path, node⟩ result chasing step
    simp only [chaseStep] at step
    split at step
    · next back =>
        cases step
        have met : start ∈ path := by
          rcases List.mem_cons.mp chasing.started with rfl | earlier
          · exact back
          · exact earlier
        refine ⟨List.mem_append_left _ met, ?_⟩
        cases path with
        | nil => cases back
        | cons last path =>
            have isCut := isCut_delete base last
            intro oid member
            rcases List.mem_append.mp member with onPath | isDone
            · refine @Trail.links_cut _ _ _ _ ?_ 0 (.root ?_) oid onPath
              · refine chasing.trail.2.congr fun other isOther => ?_
                have apart : last ≠ other := by
                  rintro rfl
                  exact (List.nodup_cons.mp chasing.nodup).1 isOther
                exact (SortedMap.get_delete base last other).trans (if_neg apart)
              · exact (SortedMap.get_delete base last last).trans (if_pos rfl)
            · exact grounded.of_isCut isCut oid isDone
    · split at step
      · next met =>
          cases step
          refine ⟨?_, fun oid member => ?_⟩
          · rcases List.mem_cons.mp chasing.started with rfl | earlier
            · exact List.mem_append_right _ met
            · exact List.mem_append_left _ earlier
          · rcases List.mem_append.mp member with onPath | isDone
            · obtain ⟨count, links⟩ := grounded node met
              obtain ⟨further, -, found⟩ := chasing.trail.links links onPath
              exact ⟨further, found⟩
            · exact grounded oid isDone
      · split at step
        · cases step
        · next isRoot =>
            cases step
            refine ⟨List.mem_append_left _ chasing.started, fun oid member => ?_⟩
            rcases List.mem_append.mp member with onPath | isDone
            · exact chasing.trail.links_cut (.root isRoot) oid onPath
            · exact grounded oid isDone
  have ends := @loop_isSome _ _ (chaseStep base done) (Chasing objects done base start)
    (fun state => objects.length - state.1.length)
    (fun state next chasing step => (keeps state next chasing step).1)
    (fun state next chasing step => by
      obtain ⟨after, longer⟩ := keeps state next chasing step
      have bound := (List.subperm_of_subset after.nodup after.within).length_le
      omega)
    (objects.length + 1) _ begins (by simp only [List.length_nil]; omega)
  obtain ⟨result, ended⟩ := Option.isSome_iff_exists.mp ends
  exact ⟨result, ended, loop_spec (fun state next chasing step => (keeps state next chasing step).1)
    breaks begins ended⟩

/-- What the walks keep. -/
private structure CyclesBroken (objects : List Oid) (hints : Bases Oid)
    (state : List Oid × Bases Oid) : Prop where
  grounded : Grounded state.2 state.1
  hinted : Hinted objects hints state.2

private theorem breakCycle_spec {objects : List Oid} {hints : Bases Oid}
    {state : List Oid × Bases Oid} (broken : CyclesBroken objects hints state) {start : Oid}
    (isObject : start ∈ objects) {rounds : Nat} (enough : objects.length + 1 ≤ rounds) :
    ∃ next, breakCycleWithin rounds state start = some next ∧
      CyclesBroken objects hints next ∧ state.1 ⊆ next.1 ∧ start ∈ next.1 ∧
      next = (if start ∈ state.1 then state
        else
          let (path, closing) := chase state.2 state.1 (objects.length + 1) start
          (path ++ state.1, match closing with
            | some last => state.2.delete last
            | none => state.2)) := by
  obtain ⟨done, base⟩ := state
  by_cases isDone : start ∈ done
  · refine ⟨(done, base), ?_, broken, List.Subset.refl _, isDone, ?_⟩
    · exact if_pos (decide_eq_true isDone)
    · exact (if_pos isDone).symm
  · obtain ⟨⟨path, closing⟩, ended, started, grounded⟩ := chase_spec
      (fun oid target found => (broken.hinted oid target found).2.2) broken.grounded isObject
    have isCut : IsCut base.get (cutClosing base closing).get := by
      cases closing with
      | none => exact .refl _
      | some last => exact isCut_delete base last
    refine ⟨(path ++ done, cutClosing base closing), ?_, ⟨grounded, broken.hinted.of_isCut isCut⟩,
      List.subset_append_right _ _, started, ?_⟩
    · rw [breakCycleWithin, listed, decide_eq_false isDone, if_neg Bool.false_ne_true]
      simp only [loop_mono enough ended]
    · simp only [if_neg isDone, chase, ended, Option.getD_some]
      cases closing <;> rfl

private theorem breakCycles_fold {objects : List Oid} {hints : Bases Oid} {rounds : Nat}
    (enough : objects.length + 1 ≤ rounds) {starts : List Oid} (within : starts ⊆ objects)
    {state : List Oid × Bases Oid} (broken : CyclesBroken objects hints state) :
    ∃ final, starts.foldlM (breakCycleWithin rounds) state = some final ∧
      CyclesBroken objects hints final ∧ state.1 ⊆ final.1 ∧ starts ⊆ final.1 ∧
      final = starts.foldl (fun (done, base) start =>
        if start ∈ done then (done, base)
        else
          let (path, closing) := chase base done (objects.length + 1) start
          (path ++ done, match closing with
            | some last => base.delete last
            | none => base)) state := by
  induction starts generalizing state with
  | nil => exact ⟨state, rfl, broken, List.Subset.refl _, List.nil_subset _, rfl⟩
  | cons start starts ih =>
      obtain ⟨isObject, rest⟩ := List.cons_subset.mp within
      obtain ⟨next, walked, nextBroken, kept, started, same⟩ :=
        breakCycle_spec broken isObject enough
      obtain ⟨final, folded, finalBroken, further, all, isFold⟩ := ih rest nextBroken
      refine ⟨final, ?_, finalBroken, List.Subset.trans kept further,
        List.cons_subset.mpr ⟨further started, all⟩, ?_⟩
      · rw [List.foldlM_cons, walked]
        exact folded
      · rw [isFold, List.foldl_cons, same]

theorem breakCycles_spec {objects : List Oid} {hints base : Bases Oid}
    (hinted : Hinted objects hints base) {rounds : Nat} (enough : objects.length + 1 ≤ rounds) :
    breakCyclesWithin rounds objects base = some (breakCycles objects base) ∧
      Hinted objects hints (breakCycles objects base) ∧
      Grounded (breakCycles objects base) objects := by
  have start : CyclesBroken objects hints ([], base) :=
    ⟨fun _ member => absurd member List.not_mem_nil, hinted⟩
  obtain ⟨final, folded, broken, -, all, isFold⟩ :=
    breakCycles_fold enough (List.Subset.refl objects) start
  have result : breakCycles objects base = final.2 := (congrArg Prod.snd isFold).symm
  rw [result]
  refine ⟨?_, broken.hinted, fun oid isObject => broken.grounded oid (all isObject)⟩
  rw [breakCyclesWithin, folded]
  rfl

/-- What is known of the depths: a chain is as long as its depth says, and the
base of an object of known depth has a known depth. -/
structure Measured (base : Bases Oid) (depth : SortedMap Oid Nat) : Prop where
  links : ∀ oid count, depth.get oid = some count → Links base.get oid count ∧ count < maxChain
  closed : ∀ oid target, depth.get oid ≠ none → base.get oid = some target →
    depth.get target ≠ none

/-- A new object of known depth leaves the chains of the others alone. -/
theorem Measured.add {base cut : Bases Oid} {depth : SortedMap Oid Nat}
    (measured : Measured base depth) {oid : Oid} {count : Nat} (unknown : depth.get oid = none)
    (same : ∀ other, other ≠ oid → cut.get other = base.get other)
    (links : Links cut.get oid count) (short : count < maxChain)
    (below : ∀ target, cut.get oid = some target → depth.get target ≠ none) :
    Measured cut (depth.put oid count) := by
  have apart : ∀ other, depth.get other ≠ none → other ≠ oid := by
    rintro other known rfl
    exact known unknown
  refine ⟨fun other found isFound => ?_, fun other target known step => ?_⟩
  · rw [SortedMap.get_put] at isFound
    split at isFound
    · next isNew =>
        cases isFound
        subst isNew
        exact ⟨links, short⟩
    · have known : depth.get other ≠ none := by
        rw [isFound]
        exact Option.some_ne_none found
      obtain ⟨old, oldShort⟩ := measured.links other found isFound
      refine ⟨@Links.congr _ _ _ _ (fun node => depth.get node ≠ none) measured.closed ?_ _ old
        known, oldShort⟩
      exact fun node isKnown => same node (apart node isKnown)
  · rw [SortedMap.get_put] at known ⊢
    split
    · exact Option.some_ne_none count
    · by_cases isNew : oid = other
      · subst isNew
        exact below target step
      · rw [if_neg isNew] at known
        exact measured.closed other target known ((same other (Ne.symm isNew)).symm.trans step)

/-- What the fold over a chain keeps, upwards from the object of which the
depth below is known. -/
private structure Capping (original : Bases Oid) (node : Oid) (path : List Oid)
    (state : Bases Oid × SortedMap Oid Nat × Nat) : Prop where
  measured : Measured state.1 state.2.1
  isCut : IsCut original.get state.1.get
  below : state.2.1.get node = some state.2.2
  trail : Trail state.1.get path node
  unknown : ∀ oid ∈ path, state.2.1.get oid = none
  nodup : path.Nodup

private theorem capNode_spec {original : Bases Oid} {node next : Oid} {path : List Oid}
    {state : Bases Oid × SortedMap Oid Nat × Nat}
    (capping : Capping original node (next :: path) state) :
    Capping original next path (capNode state next) ∧
      (∀ oid, state.2.1.get oid ≠ none → (capNode state next).2.1.get oid ≠ none) := by
  obtain ⟨base, depth, below⟩ := state
  obtain ⟨links, short⟩ := capping.measured.links node below capping.below
  have unknown : depth.get next = none := capping.unknown next List.mem_cons_self
  obtain ⟨fresh, nodup⟩ := List.nodup_cons.mp capping.nodup
  have later : ∀ oid ∈ path, oid ≠ next := by
    rintro oid member rfl
    exact fresh member
  have kept : ∀ count oid, depth.get oid ≠ none → (depth.put next count).get oid ≠ none := by
    intro count oid known
    rw [SortedMap.get_put]
    split
    · exact Option.some_ne_none count
    · exact known
  have stillUnknown : ∀ count, ∀ oid ∈ path, (depth.put next count).get oid = none := by
    intro count oid member
    rw [SortedMap.get_put, if_neg (Ne.symm (later oid member))]
    exact capping.unknown oid (List.mem_cons_of_mem _ member)
  have put : ∀ count, (depth.put next count).get next = some count := by
    intro count
    rw [SortedMap.get_put, if_pos rfl]
  simp only [capNode]
  split
  · have same : ∀ other, other ≠ next → (base.delete next).get other = base.get other := by
      intro other apart
      rw [SortedMap.get_delete, if_neg (Ne.symm apart)]
    have isRoot : (base.delete next).get next = none := by
      rw [SortedMap.get_delete, if_pos rfl]
    refine ⟨⟨?_, capping.isCut.trans (isCut_delete base next), put 0, ?_, stillUnknown 0, nodup⟩,
      kept 0⟩
    · refine capping.measured.add unknown same (.root isRoot) (by decide) ?_
      intro target step
      rw [isRoot] at step
      cases step
    · exact capping.trail.2.congr fun oid member => same oid (later oid member)
  · next room =>
      refine ⟨⟨?_, capping.isCut, put (below + 1), capping.trail.2, stillUnknown (below + 1),
        nodup⟩, kept (below + 1)⟩
      refine capping.measured.add unknown (fun _ _ => rfl) (.link capping.trail.1 links)
        (by omega) ?_
      intro target step
      rw [capping.trail.1] at step
      cases step
      rw [capping.below]
      exact Option.some_ne_none below

private theorem capNodes_spec {original : Bases Oid} {node : Oid} {path : List Oid}
    {state : Bases Oid × SortedMap Oid Nat × Nat} (capping : Capping original node path state) :
    let final := path.foldl capNode state
    Measured final.1 final.2.1 ∧ IsCut original.get final.1.get ∧
      (∀ oid, state.2.1.get oid ≠ none → final.2.1.get oid ≠ none) ∧
      ∀ oid ∈ path, final.2.1.get oid ≠ none := by
  induction path generalizing node state with
  | nil =>
      exact ⟨capping.measured, capping.isCut, fun _ known => known,
        fun _ member => absurd member List.not_mem_nil⟩
  | cons next path ih =>
      obtain ⟨after, kept⟩ := capNode_spec capping
      obtain ⟨measured, isCut, further, all⟩ := ih after
      refine ⟨measured, isCut, fun oid known => further oid (kept oid known), ?_⟩
      intro oid member
      rcases List.mem_cons.mp member with rfl | later
      · refine further oid ?_
        rw [after.below]
        exact Option.some_ne_none _
      · exact all oid later

/-- What holds of a walk down a chain whose depths are not known yet. -/
private structure Descending (objects : List Oid) (base : Bases Oid)
    (depth : SortedMap Oid Nat) (start : Oid) (state : List Oid × Oid) : Prop where
  trail : Trail base.get state.1 state.2
  within : state.1 ⊆ objects
  current : state.2 ∈ objects
  unknown : ∀ oid ∈ state.1, depth.get oid = none
  started : start ∈ state.2 :: state.1

/-- Where a walk down a chain ends: at a known depth or at a root. -/
private def Descended (base : Bases Oid) (depth : SortedMap Oid Nat) (start : Oid)
    (result : List Oid × Nat × Bool) : Prop :=
  start ∈ result.1 ∧ (∀ oid ∈ result.1, depth.get oid = none) ∧
    ((∃ node, result.2.2 = false ∧ depth.get node = some result.2.1 ∧
        Trail base.get result.1 node) ∨
      ∃ root rest, result = (root :: rest, 0, true) ∧ base.get root = none ∧
        Trail base.get rest root)

private theorem descend_spec {objects : List Oid} {base : Bases Oid}
    {depth : SortedMap Oid Nat} {start : Oid}
    (stays : ∀ oid target, base.get oid = some target → target ∈ objects)
    (grounded : Grounded base objects) (isObject : start ∈ objects)
    (fresh : depth.get start = none) :
    ∃ result, loop (descendStep base depth) (objects.length + 1) ([], start) = some result ∧
      Descended base depth start result := by
  have begins : Descending objects base depth start ([], start) :=
    ⟨trivial, List.nil_subset _, isObject, fun _ member => absurd member List.not_mem_nil,
      List.mem_cons_self⟩
  have keeps : ∀ state next, Descending objects base depth start state →
      descendStep base depth state = .inl next →
      Descending objects base depth start next ∧ next.1.length = state.1.length + 1 := by
    rintro ⟨path, node⟩ next descending step
    simp only [descendStep] at step
    split at step
    · cases step
    · next unknown =>
        split at step
        · next target found =>
            cases step
            refine ⟨⟨⟨found, descending.trail⟩,
              List.cons_subset.mpr ⟨descending.current, descending.within⟩,
              stays node target found, ?_, List.mem_cons_of_mem _ descending.started⟩, rfl⟩
            intro oid member
            rcases List.mem_cons.mp member with rfl | earlier
            · exact unknown
            · exact descending.unknown oid earlier
        · cases step
  have breaks : ∀ state result, Descending objects base depth start state →
      descendStep base depth state = .inr result → Descended base depth start result := by
    rintro ⟨path, node⟩ result descending step
    simp only [descendStep] at step
    split at step
    · next known found =>
        cases step
        have apart : start ≠ node := by
          rintro rfl
          rw [fresh] at found
          cases found
        have met : start ∈ path := (List.mem_cons.mp descending.started).resolve_left apart
        exact ⟨met, descending.unknown, .inl ⟨node, rfl, found, descending.trail⟩⟩
    · next unknown =>
        split at step
        · cases step
        · next isRoot =>
            cases step
            refine ⟨descending.started, ?_, .inr ⟨node, path, rfl, isRoot, descending.trail⟩⟩
            intro oid member
            rcases List.mem_cons.mp member with rfl | earlier
            · exact unknown
            · exact descending.unknown oid earlier
  have ends := @loop_isSome _ _ (descendStep base depth) (Descending objects base depth start)
    (fun state => objects.length - state.1.length)
    (fun state next descending step => (keeps state next descending step).1)
    (fun state next descending step => by
      obtain ⟨after, longer⟩ := keeps state next descending step
      obtain ⟨count, links⟩ := grounded next.2 after.current
      have bound := (List.subperm_of_subset (after.trail.nodup links) after.within).length_le
      omega)
    (objects.length + 1) _ begins (by simp only [List.length_nil]; omega)
  obtain ⟨result, ended⟩ := Option.isSome_iff_exists.mp ends
  exact ⟨result, ended, loop_spec
    (fun state next descending step => (keeps state next descending step).1) breaks begins ended⟩

/-- What the capping of the chains keeps. -/
private structure ChainsCapped (original : Bases Oid)
    (state : Bases Oid × SortedMap Oid Nat) : Prop where
  measured : Measured state.1 state.2
  isCut : IsCut original.get state.1.get

private theorem capChain_spec {objects : List Oid} {original : Bases Oid}
    (stays : ∀ oid target, original.get oid = some target → target ∈ objects)
    (grounded : Grounded original objects) {state : Bases Oid × SortedMap Oid Nat}
    (capped : ChainsCapped original state) {start : Oid} (isObject : start ∈ objects)
    {rounds : Nat} (enough : objects.length + 1 ≤ rounds) :
    capChainWithin rounds state start = some (capChain (objects.length + 1) state start) ∧
      ChainsCapped original (capChain (objects.length + 1) state start) ∧
      (capChain (objects.length + 1) state start).2.get start ≠ none ∧
      ∀ oid, state.2.get oid ≠ none →
        (capChain (objects.length + 1) state start).2.get oid ≠ none := by
  obtain ⟨base, depth⟩ := state
  cases isKnown : depth.get start with
  | some known =>
      have unchanged : ∀ rounds, capChain rounds (base, depth) start = (base, depth) := by
        intro rounds
        simp only [capChain, isKnown, Option.isSome_some, if_true]
      rw [unchanged]
      refine ⟨?_, capped, ?_, fun _ known => known⟩
      · simp only [capChainWithin, isKnown, Option.isSome_some, if_true]
      · rw [isKnown]
        exact Option.some_ne_none known
  | none =>
      obtain ⟨result, ended, met, unknown, found⟩ := descend_spec
        (fun oid target step => stays oid target (capped.isCut.eq_some step))
        (grounded.of_isCut capped.isCut) isObject isKnown
      have longEnded := loop_mono enough ended
      have sameResult : capChain rounds (base, depth) start =
          capChain (objects.length + 1) (base, depth) start := by
        simp only [capChain, ended, longEnded]
      have walked : capChainWithin rounds (base, depth) start =
          some (capChain (objects.length + 1) (base, depth) start) := by
        rw [← sameResult, capChainWithin, longEnded]
        simp only [isKnown, Option.isSome_none, Bool.false_eq_true, if_false, Option.map_some]
      refine ⟨walked, ?_⟩
      simp only [capChain, isKnown, Option.isSome_none, Bool.false_eq_true, if_false, ended]
      rcases found with ⟨node, notRoot, below, trail⟩ | ⟨root, rest, rfl, isRoot, trail⟩
      · obtain ⟨path, known, rootInPath⟩ := result
        cases notRoot
        have links := (capped.measured.links node known below).1
        have capping : Capping original node path (base, depth, known) :=
          ⟨capped.measured, capped.isCut, below, trail, unknown, trail.nodup links⟩
        obtain ⟨measured, isCut, kept, all⟩ := capNodes_spec capping
        exact ⟨⟨measured, isCut⟩, all start met, kept⟩
      · have fresh : depth.get root = none := unknown root List.mem_cons_self
        have rootLinks : Links base.get root 0 := .root isRoot
        have measured : Measured base (depth.put root 0) :=
          capped.measured.add fresh (fun _ _ => rfl) rootLinks (by decide) (by
            intro target step
            rw [isRoot] at step
            cases step)
        have rootKnown : (depth.put root 0).get root = some 0 := by
          rw [SortedMap.get_put, if_pos rfl]
        have stillUnknown : ∀ oid ∈ rest, (depth.put root 0).get oid = none := by
          intro oid member
          have apart : root ≠ oid := by
            rintro rfl
            exact trail.not_mem rootLinks member
          rw [SortedMap.get_put, if_neg apart]
          exact unknown oid (List.mem_cons_of_mem _ member)
        have capping : Capping original root rest (base, depth.put root 0, 0) :=
          ⟨measured, capped.isCut, rootKnown, trail, stillUnknown, trail.nodup rootLinks⟩
        obtain ⟨after, isCut, kept, all⟩ := capNodes_spec capping
        refine ⟨⟨after, isCut⟩, ?_, fun oid known => kept oid ?_⟩
        · rcases List.mem_cons.mp met with rfl | later
          · refine kept start ?_
            rw [rootKnown]
            exact Option.some_ne_none 0
          · exact all start later
        · rw [SortedMap.get_put]
          split
          · exact Option.some_ne_none 0
          · exact known

private theorem capChains_fold {objects : List Oid} {original : Bases Oid}
    (stays : ∀ oid target, original.get oid = some target → target ∈ objects)
    (grounded : Grounded original objects) {rounds : Nat} (enough : objects.length + 1 ≤ rounds)
    {starts : List Oid} (within : starts ⊆ objects) {state : Bases Oid × SortedMap Oid Nat}
    (capped : ChainsCapped original state) :
    let final := starts.foldl (capChain (objects.length + 1)) state
    starts.foldlM (capChainWithin rounds) state = some final ∧ ChainsCapped original final ∧
      (∀ oid, state.2.get oid ≠ none → final.2.get oid ≠ none) ∧
      ∀ oid ∈ starts, final.2.get oid ≠ none := by
  induction starts generalizing state with
  | nil =>
      exact ⟨rfl, capped, fun _ known => known, fun _ member => absurd member List.not_mem_nil⟩
  | cons start starts ih =>
      obtain ⟨isObject, rest⟩ := List.cons_subset.mp within
      obtain ⟨walked, after, started, kept⟩ :=
        capChain_spec stays grounded capped isObject enough
      obtain ⟨folded, final, further, all⟩ := ih rest after
      refine ⟨?_, final, fun oid known => further oid (kept oid known), ?_⟩
      · rw [List.foldlM_cons, walked]
        exact folded
      · intro oid member
        rcases List.mem_cons.mp member with rfl | later
        · exact further oid started
        · exact all oid later

theorem capChains_spec {sorted : List Oid} {base : Bases Oid}
    (stays : ∀ oid target, base.get oid = some target → oid ∈ sorted ∧ target ∈ sorted)
    (grounded : Grounded base sorted) {rounds : Nat} (enough : sorted.length + 1 ≤ rounds) :
    capChainsWithin rounds base sorted = some (capChains base sorted) ∧
      IsCut base.get (capChains base sorted).get ∧
      ∀ oid, ∃ count < maxChain, Links (capChains base sorted).get oid count := by
  have start : ChainsCapped base (base, .empty) :=
    ⟨⟨fun _ _ found => (by cases found), fun _ _ known _ => absurd rfl known⟩, .refl _⟩
  obtain ⟨folded, capped, -, all⟩ := capChains_fold (fun oid target step => (stays oid target step).2)
    grounded enough (List.Subset.refl sorted) start
  refine ⟨?_, capped.isCut, fun oid => ?_⟩
  · rw [capChainsWithin, folded]
    rfl
  · cases step : (capChains base sorted).get oid with
    | none => exact ⟨0, by decide, .root step⟩
    | some target =>
        have known := all oid (stays oid target (capped.isCut.eq_some step)).1
        obtain ⟨count, isCount⟩ := Option.ne_none_iff_exists'.mp known
        obtain ⟨links, short⟩ := capped.measured.links oid count isCount
        exact ⟨count, short, links⟩

/-- What the emission keeps: nothing is queued or written twice, and whatever
may be written already is. -/
private structure Emitting (base : Bases Oid) (sorted : List Oid)
    (state : List Oid × List Oid) : Prop where
  nodup : (state.2 ++ state.1).Nodup
  within : state.2 ++ state.1 ⊆ sorted
  roots : ∀ oid ∈ sorted, base.get oid = none → oid ∈ state.2 ++ state.1
  children : ∀ oid ∈ sorted, ∀ target ∈ state.2, base.get oid = some target →
    oid ∈ state.2 ++ state.1
  ready : ∀ oid ∈ state.2 ++ state.1, ∀ target, base.get oid = some target → target ∈ state.2

private theorem emitStep_emitting {base : Bases Oid} {sorted : List Oid} (distinct : sorted.Nodup)
    {state next : List Oid × List Oid} (emitting : Emitting base sorted state)
    (step : emitStep base sorted state = .inl next) :
    Emitting base sorted next ∧ next.2.length = state.2.length + 1 := by
  obtain ⟨queue, order⟩ := state
  cases queue with
  | nil => cases step
  | cons oid queue =>
      cases step
      have isChild : ∀ other, other ∈ dependents base sorted oid ↔
          other ∈ sorted ∧ base.get other = some oid := by
        intro other
        rw [dependents, List.mem_filter, decide_eq_true_eq]
      have reordered : order ++ [oid] ++ (queue ++ dependents base sorted oid) =
          order ++ oid :: queue ++ dependents base sorted oid := by simp
      have waiting : oid ∈ order ++ oid :: queue :=
        List.mem_append_right _ List.mem_cons_self
      have unwritten : oid ∉ order := fun written =>
        (List.nodup_append.mp emitting.nodup).2.2 oid written oid List.mem_cons_self rfl
      refine ⟨⟨?_, ?_, ?_, ?_, ?_⟩, by simp⟩
      · rw [reordered]
        refine List.nodup_append.mpr ⟨emitting.nodup, distinct.filter _, ?_⟩
        rintro other queued _ child rfl
        exact unwritten (emitting.ready other queued oid ((isChild other).mp child).2)
      · rw [reordered]
        exact List.append_subset.mpr
          ⟨emitting.within, fun other child => ((isChild other).mp child).1⟩
      · intro other member isRoot
        rw [reordered]
        exact List.mem_append_left _ (emitting.roots other member isRoot)
      · intro other member target written isBase
        rw [reordered]
        rcases List.mem_append.mp written with before | now
        · exact List.mem_append_left _ (emitting.children other member target before isBase)
        · obtain rfl := List.mem_singleton.mp now
          exact List.mem_append_right _ ((isChild other).mpr ⟨member, isBase⟩)
      · intro other member target isBase
        rw [reordered] at member
        rcases List.mem_append.mp member with before | child
        · exact List.mem_append_left _ (emitting.ready other before target isBase)
        · have stored := ((isChild other).mp child).2
          rw [stored] at isBase
          cases isBase
          exact List.mem_append_right _ List.mem_cons_self

theorem emit_spec {base : Bases Oid} {sorted : List Oid} (distinct : sorted.Nodup)
    (stays : ∀ oid target, base.get oid = some target → oid ∈ sorted ∧ target ∈ sorted)
    (grounded : Grounded base sorted) {rounds : Nat} (enough : sorted.length + 1 ≤ rounds) :
    emitWithin rounds base sorted = some (emit base sorted) ∧ (emit base sorted).Perm sorted := by
  have isRoot : ∀ oid, oid ∈ sorted.filter (fun oid => base.get oid = none) ↔
      oid ∈ sorted ∧ base.get oid = none := by
    intro oid
    rw [List.mem_filter, decide_eq_true_eq]
  have begins : Emitting base sorted (sorted.filter fun oid => base.get oid = none, []) := by
    refine ⟨distinct.filter _, fun oid member => ((isRoot oid).mp member).1,
      fun oid member root => (isRoot oid).mpr ⟨member, root⟩,
      fun _ _ _ written => absurd written List.not_mem_nil, fun oid member target isBase => ?_⟩
    rw [((isRoot oid).mp member).2] at isBase
    cases isBase
  have breaks : ∀ state result, Emitting base sorted state →
      emitStep base sorted state = .inr result → result.Perm sorted := by
    rintro ⟨queue, order⟩ result emitting step
    cases queue with
    | cons oid queue => cases step
    | nil =>
        cases step
        have nodup := emitting.nodup
        have within := emitting.within
        have roots := emitting.roots
        have children := emitting.children
        rw [List.append_nil] at nodup within roots children
        have written : ∀ oid count, Links base.get oid count → oid ∈ sorted → oid ∈ order := by
          intro oid count links
          induction links with
          | root isRoot => exact fun member => roots _ member isRoot
          | link step _ ih =>
              exact fun member => children _ member _ (ih (stays _ _ step).2) step
        refine (List.perm_ext_iff_of_nodup nodup distinct).mpr fun oid => ⟨fun member =>
          within member, fun member => ?_⟩
        obtain ⟨count, links⟩ := grounded oid member
        exact written oid count links member
  have ends := @loop_isSome _ _ (emitStep base sorted) (Emitting base sorted)
    (fun state => sorted.length - state.2.length)
    (fun state next emitting step => (emitStep_emitting distinct emitting step).1)
    (fun state next emitting step => by
      obtain ⟨after, longer⟩ := emitStep_emitting distinct emitting step
      have bound := (List.subperm_of_subset after.nodup after.within).length_le
      rw [List.length_append] at bound
      omega)
    (sorted.length + 1) _ begins (by simp only [List.length_nil]; omega)
  obtain ⟨order, ended⟩ := Option.isSome_iff_exists.mp ends
  have result : emit base sorted = order := by rw [emit, ended, Option.getD_some]
  rw [result]
  exact ⟨loop_mono enough ended, loop_spec
    (fun state next emitting step => (emitStep_emitting distinct emitting step).1) breaks begins
    ended⟩

structure WellFounded (objects : List Oid) (hints : Bases Oid) (plan : Plan Oid) : Prop where
  order : plan.order.Perm objects.dedup
  hinted : Hinted objects hints plan.base
  first : ∀ before oid after, plan.order = before ++ oid :: after →
    ∀ target, plan.base.get oid = some target → target ∈ before
  short : ∀ oid, ∃ count ≤ maxChain, Links plan.base.get oid count

private theorem mem_sorted {objects : List Oid} {oid : Oid} :
    oid ∈ (KeySet.ofKeys objects).keys ↔ oid ∈ objects := by
  rw [SortedMap.mem_keys, KeySet.get_ne_none, KeySet.get_ofKeys]

private theorem Hinted.sorted {objects : List Oid} {hints base : Bases Oid}
    (hinted : Hinted objects hints base) (oid target : Oid) (found : base.get oid = some target) :
    oid ∈ (KeySet.ofKeys objects).keys ∧ target ∈ (KeySet.ofKeys objects).keys := by
  rw [mem_sorted, mem_sorted]
  exact (hinted oid target found).2

private theorem acyclic_spec (objects : List Oid) (hints : Bases Oid) :
    Hinted objects hints (breakCycles objects (provisional objects hints)) ∧
      Grounded (breakCycles objects (provisional objects hints))
        (KeySet.ofKeys objects).keys := by
  obtain ⟨-, hinted, grounded⟩ :=
    breakCycles_spec (provisional_hinted objects hints) (Nat.le_refl _)
  exact ⟨hinted, fun oid member => grounded oid (mem_sorted.mp member)⟩

theorem build_hinted (objects : List (Oid × ObjectKind)) (hints : Bases Oid) :
    Hinted (objects.map Prod.fst) hints (build objects hints).base := by
  obtain ⟨hinted, grounded⟩ := acyclic_spec (objects.map Prod.fst) hints
  obtain ⟨-, isCut, -⟩ := capChains_spec hinted.sorted grounded (Nat.le_refl _)
  exact hinted.of_isCut isCut

/-- Building the plan ends, whatever the hints are, and the plan is
well-founded. -/
theorem build_wellFounded (objects : List (Oid × ObjectKind)) (hints : Bases Oid) :
    (∀ extra, buildWithin (objects.length + 1 + extra) objects hints =
      some (build objects hints)) ∧
    WellFounded (objects.map Prod.fst) hints (build objects hints) := by
  have distinct := (KeySet.ofKeys (objects.map Prod.fst)).keys_nodup
  have enough : (KeySet.ofKeys (objects.map Prod.fst)).keys.length ≤ objects.length := by
    have bound := (List.subperm_of_subset distinct fun oid => mem_sorted.mp).length_le
    rwa [List.length_map] at bound
  have cycles := fun rounds (enough : _ ≤ rounds) => breakCycles_spec
    (provisional_hinted (objects.map Prod.fst) hints) enough
  obtain ⟨hinted, grounded⟩ := acyclic_spec (objects.map Prod.fst) hints
  have chains := fun rounds (enough : _ ≤ rounds) => capChains_spec hinted.sorted grounded enough
  obtain ⟨-, isCut, short⟩ := chains _ (Nat.le_refl _)
  have orders := fun rounds (enough : _ ≤ rounds) => emit_spec distinct
    (fun oid target found => hinted.sorted oid target (isCut.eq_some found))
    (grounded.of_isCut isCut) enough
  obtain ⟨-, perm⟩ := orders _ (Nat.le_refl _)
  refine ⟨fun extra => ?_, ?_, ?_, Plan.emit_basesFirst _ _, fun oid => ?_⟩
  · have objectRounds : (objects.map Prod.fst).length + 1 ≤ objects.length + 1 + extra := by
      rw [List.length_map]
      omega
    rw [buildWithin, (cycles _ objectRounds).1]
    simp only [bind, Option.bind, (chains (objects.length + 1 + extra) (by omega)).1,
      (orders (objects.length + 1 + extra) (by omega)).1]
    rfl
  · refine perm.trans ((List.perm_ext_iff_of_nodup distinct (List.nodup_dedup _)).mpr ?_)
    intro oid
    rw [mem_sorted, List.mem_dedup]
  · exact build_hinted objects hints
  · obtain ⟨count, below, links⟩ := short oid
    exact ⟨count, Nat.le_of_lt below, links⟩

end Plan

/-- The hint file pairs an object with a base. -/
def HintLine (setting : Setting Oid) (store : ObjectStore Oid) (oid target : Oid) : Prop :=
  ∃ line ∈ store.hintLines, ∃ new base, splitOnce line = some (new, base) ∧
    setting.fromHex new = some oid ∧ setting.fromHex base = some target

theorem loadHints_line (setting : Setting Oid) (store : ObjectStore Oid) (present : List Oid) :
    ∀ oid target, (loadHints setting store present).get oid = some target →
      HintLine setting store oid target := by
  rw [loadHints]
  refine List.foldlRecOn store.hintLines _ (motive := fun hints : Bases Oid =>
    ∀ oid target, hints.get oid = some target → HintLine setting store oid target) ?_ ?_
  · intro oid target found
    cases found
  intro hints ih line member oid target found
  split at found
  · exact ih oid target found
  · next new base isLine =>
    split at found
    · next parsed parsedBase isNew isBase =>
      split at found
      · rw [SortedMap.get_put] at found
        split at found
        · next same =>
          cases found
          exact ⟨line, member, new, base, isLine, same ▸ isNew, isBase⟩
        · exact ih oid target found
      · exact ih oid target found
    · exact ih oid target found

/-- Where no hint pairs objects of two kinds, any plan will do. -/
theorem kindsAgree_of_hints {setting : Setting Oid} {store : ObjectStore Oid}
    {refs : List (String × Oid)} {isGraphRef : String → Bool} {plan : Plan Oid}
    (planned : planOf setting store refs isGraphRef = .ok plan)
    (paired : ∀ oid target, HintLine setting store oid target →
      ∀ left right, store.read oid = some left → store.read target = some right →
        right.kind = left.kind) :
    KindsAgree setting store plan := by
  obtain ⟨reachable, -, ⟨⟩⟩ := bind_eq_ok.mp planned
  intro oid member entry isEntry base delta chosen
  obtain ⟨data, isBase, -⟩ := chooseDelta_eq_some chosen
  obtain ⟨-, isRead, bases⟩ := readEntry_eq_ok isEntry
  obtain ⟨isPlanned, object, baseRead, -⟩ := bases base data isBase
  obtain ⟨hinted, -⟩ := Plan.build_hinted _ _ oid base isPlanned
  exact ⟨object, baseRead,
    paired oid base (loadHints_line _ _ _ oid base hinted) _ object isRead baseRead⟩

end Acetone.Store

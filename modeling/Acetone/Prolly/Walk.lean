import Acetone.Prolly.NodeFormat
import Acetone.Prolly.VerifyExact
import Mathlib.Data.Finset.Insert
import Mathlib.Logic.Relation

/-!
# Collecting the chunks of several trees

A commit anchors every chunk beneath its roots.  The roots are walked one after
another into one set, and a chunk that the set has already is not read again.
That loses nothing, because between walks the set holds with a chunk everything
beneath it.
-/

namespace Acetone.Prolly

open Acetone.Lib

/-- An inner node still to read, with its parent's last-key claim. -/
structure Unread where
  hash : Hash
  level : Nat
  claim : Option Bytes

/-- The state of a walk; the next node is at the head of the frontier. -/
structure Gathering where
  frontier : List Unread
  out : Finset Hash

/-- Add a child of a node at `level`; leaves are added without being read. -/
def Gathering.add (level : Nat) (walk : Gathering) (ref : NodeRef) : Gathering :=
  if ref.hash ∈ walk.out then walk
  else
    { frontier :=
        if level > 1 then ⟨ref.hash, level - 1, some ref.lastKey⟩ :: walk.frontier
        else walk.frontier
      out := insert ref.hash walk.out }

section

variable (address : Bytes → Hash) (store : Store)

def Gathering.weight (walk : Gathering) : Nat :=
  (walk.frontier.map fun unread => places (store.fetch address) unread.level unread.hash).sum

variable {address store}

private theorem weight_add (level : Nat) (walk : Gathering) (ref : NodeRef) :
    (walk.add level ref).weight address store ≤
      walk.weight address store + places (store.fetch address) (level - 1) ref.hash := by
  rw [Gathering.add]
  split
  · exact Nat.le_add_right ..
  · split
    · simp [Gathering.weight, Nat.add_comm]
    · exact Nat.le_add_right ..

private theorem weight_addAll (level : Nat) (refs : List NodeRef) (walk : Gathering) :
    (refs.foldl (Gathering.add level) walk).weight address store ≤
      walk.weight address store +
        (refs.map fun ref => places (store.fetch address) (level - 1) ref.hash).sum := by
  induction refs generalizing walk with
  | nil => exact Nat.le_refl _
  | cons ref refs ih =>
      rw [List.foldl_cons, List.map_cons, List.sum_cons]
      have first := @weight_add address store level walk ref
      have rest := ih (walk.add level ref)
      omega

private theorem places_of_read {hash : Hash} {level : Nat} {claim min : Option Bytes}
    {refs : List NodeRef} (read : readNode address store hash level claim min = .ok (.inner refs)) :
    (refs.map fun ref => places (store.fetch address) (level - 1) ref.hash).sum <
      places (store.fetch address) level hash := by
  obtain ⟨bytes, found, decodes⟩ := readNode_eq_ok read
  cases level with
  | zero =>
      obtain ⟨entries, isLeaf, -⟩ := decodeNode_zero_eq_ok decodes
      cases isLeaf
  | succ level =>
      have isChildren : childrenAt (store.fetch address) hash = refs := by
        simp only [childrenAt, Store.fetch, found, decodeNodeSelf_eq_ok.mpr decodes]
      rw [places, isChildren, Nat.add_sub_cancel]
      omega

end

def Gathering.run (address : Bytes → Hash) (store : Store) (walk : Gathering) :
    Except ProllyError (Finset Hash) :=
  match _shown : walk.frontier with
  | [] => .ok walk.out
  | next :: rest =>
      match _read : readNode address store next.hash next.level next.claim none with
      | .error error => .error error
      | .ok (.leaf _) => .error (corruptNode "leaf above level 0")
      | .ok (.inner refs) =>
          run address store (refs.foldl (Gathering.add next.level) ⟨rest, walk.out⟩)
termination_by walk.weight address store
decreasing_by
  have below := places_of_read _read
  have added := @weight_addAll address store next.level refs ⟨rest, walk.out⟩
  rw [Gathering.weight.eq_def address store walk, _shown, List.map_cons, List.sum_cons]
  rw [Gathering.weight.eq_def address store ⟨rest, walk.out⟩] at added
  dsimp only at added
  omega

section

variable (address : Bytes → Hash) (store : Store)

def collectReachableChunks (root : Root) (out : Finset Hash) : Except ProllyError (Finset Hash) :=
  if root.hash ∈ out then .ok out
  else
    Gathering.run address store
      { frontier := if root.topLevel > 0 then [⟨root.hash, root.topLevel, none⟩] else []
        out := insert root.hash out }

def collectRoots : List Root → Finset Hash → Except ProllyError (Finset Hash)
  | [], out => .ok out
  | root :: roots, out => do
      let out ← collectReachableChunks address store root out
      collectRoots roots out

end

/-- The first chunk is an inner node with the second as a child. -/
def Contains (fetch : Fetch) (hash child : Hash) : Prop :=
  ∃ ref ∈ childrenAt fetch hash, ref.hash = child

/-- The second chunk is the first or lies beneath it. -/
def Reaches (fetch : Fetch) : Hash → Hash → Prop := Relation.ReflTransGen (Contains fetch)

def ClosedSet (fetch : Fetch) (out : Finset Hash) : Prop :=
  ∀ hash ∈ out, ∀ child, Contains fetch hash child → child ∈ out

/-- A walk under way that has found only what `scope` allows.  What it has
found is expanded, is `busy` being expanded or waits on the frontier. -/
structure Gathered (fetch : Fetch) (scope busy : Hash → Prop) (walk : Gathering) : Prop where
  sound : ∀ hash ∈ walk.out, scope hash
  closed : ∀ hash ∈ walk.out, busy hash ∨ (∃ unread ∈ walk.frontier, unread.hash = hash) ∨
    ∀ child, Contains fetch hash child → child ∈ walk.out
  awaited : ∀ unread ∈ walk.frontier, unread.hash ∈ walk.out ∧ ∃ level minKey,
    unread.level = level + 1 ∧
      Passes fetch (level + 1) ⟨unread.hash, level + 1, unread.claim, minKey⟩

section

variable {fetch : Fetch} {scope busy : Hash → Prop} {walk : Gathering}

private theorem childrenAt_leaf {reference : Reference} {entries : List (Bytes × Bytes)}
    (sits : Sits fetch reference (.leaf entries)) : childrenAt fetch reference.hash = [] := by
  obtain ⟨bytes, found, decodes, -⟩ := sits
  simp only [childrenAt, found, decodeNodeSelf_eq_ok.mpr decodes]

private theorem childrenAt_inner {reference : Reference} {refs : List NodeRef}
    (sits : Sits fetch reference (.inner refs)) : childrenAt fetch reference.hash = refs := by
  obtain ⟨bytes, found, decodes, -⟩ := sits
  simp only [childrenAt, found, decodeNodeSelf_eq_ok.mpr decodes]

private theorem not_contains_of_passes {reference : Reference}
    (passes : Passes fetch 0 reference) (child : Hash) :
    ¬ Contains fetch reference.hash child := by
  obtain ⟨-, entries, sits⟩ := passes
  rintro ⟨ref, member, -⟩
  rw [childrenAt_leaf sits] at member
  cases member

private theorem Gathered.add (gathered : Gathered fetch scope busy walk) {level : Nat}
    {ref : NodeRef} {minKey : Option Bytes}
    (passes : Passes fetch level ⟨ref.hash, level, some ref.lastKey, minKey⟩)
    (allowed : scope ref.hash) :
    Gathered fetch scope busy (walk.add (level + 1) ref) ∧
      ref.hash ∈ (walk.add (level + 1) ref).out ∧ walk.out ⊆ (walk.add (level + 1) ref).out := by
  by_cases known : ref.hash ∈ walk.out
  · rw [Gathering.add, if_pos known]
    exact ⟨gathered, known, Finset.Subset.refl _⟩
  have later : ∀ {frontier : List Unread}, (∀ unread ∈ walk.frontier, unread ∈ frontier) →
      (∀ unread ∈ frontier, unread ∈ walk.frontier ∨
        (unread.hash = ref.hash ∧ ∃ under, level = under + 1 ∧ unread.level = level ∧
          unread.claim = some ref.lastKey)) →
      (level = 0 ∨ ∃ unread ∈ frontier, unread.hash = ref.hash) →
      Gathered fetch scope busy ⟨frontier, insert ref.hash walk.out⟩ := by
    intro frontier kept origin placed
    refine ⟨?_, ?_, ?_⟩
    · intro hash member
      rcases Finset.mem_insert.mp member with rfl | before
      · exact allowed
      · exact gathered.sound hash before
    · intro hash member
      rcases Finset.mem_insert.mp member with rfl | before
      · rcases placed with rfl | waits
        · exact .inr (.inr fun child contains =>
            absurd contains (not_contains_of_passes passes child))
        · exact .inr (.inl waits)
      · rcases gathered.closed hash before with isBusy | ⟨unread, waits, same⟩ | expanded
        · exact .inl isBusy
        · exact .inr (.inl ⟨unread, kept unread waits, same⟩)
        · exact .inr (.inr fun child contains =>
            Finset.mem_insert_of_mem (expanded child contains))
    · intro unread member
      rcases origin unread member with before | ⟨same, under, isLevel, ofLevel, isClaim⟩
      · obtain ⟨inOut, rest⟩ := gathered.awaited unread before
        exact ⟨Finset.mem_insert_of_mem inOut, rest⟩
      · subst isLevel
        refine ⟨same ▸ Finset.mem_insert_self .., under, minKey, ofLevel, ?_⟩
        rw [same, isClaim]
        exact passes
  rw [Gathering.add, if_neg known]
  refine ⟨?_, Finset.mem_insert_self .., Finset.subset_insert ..⟩
  cases level with
  | zero =>
      exact later (fun unread member => member) (fun unread member => .inl member) (.inl rfl)
  | succ under =>
      rw [if_pos (by omega), Nat.add_sub_cancel]
      refine later (fun unread member => List.mem_cons_of_mem _ member) ?_
        (.inr ⟨_, List.mem_cons_self, rfl⟩)
      intro unread member
      rcases List.mem_cons.mp member with rfl | before
      · exact .inr ⟨rfl, under, rfl, rfl, rfl⟩
      · exact .inl before

private theorem Gathered.addAll (gathered : Gathered fetch scope busy walk) {level : Nat}
    {refs : List NodeRef} {minKey : Option Bytes}
    (passes : ∀ child ∈ childReferences level minKey refs, Passes fetch level child)
    (allowed : ∀ ref ∈ refs, scope ref.hash) :
    Gathered fetch scope busy (refs.foldl (Gathering.add (level + 1)) walk) ∧
      (∀ ref ∈ refs, ref.hash ∈ (refs.foldl (Gathering.add (level + 1)) walk).out) ∧
      walk.out ⊆ (refs.foldl (Gathering.add (level + 1)) walk).out := by
  induction refs generalizing walk minKey with
  | nil => exact ⟨gathered, List.forall_mem_nil _, Finset.Subset.refl _⟩
  | cons ref refs ih =>
      rw [childReferences, List.forall_mem_cons] at passes
      rw [List.forall_mem_cons] at allowed
      obtain ⟨first, inOut, grows⟩ := gathered.add passes.1 allowed.1
      obtain ⟨rest, others, further⟩ := ih first passes.2 allowed.2
      exact ⟨rest, List.forall_mem_cons.mpr ⟨further inOut, others⟩, grows.trans further⟩

end

section

variable {address : Bytes → Hash} {store : Store} {scope : Hash → Prop}

/-- What no chunk is busy with. -/
private def idle : Hash → Prop := fun _ => False

private theorem readNode_of_passes {unread : Unread} {level : Nat} {minKey : Option Bytes}
    (isLevel : unread.level = level + 1)
    (passes : Passes (store.fetch address) (level + 1)
      ⟨unread.hash, level + 1, unread.claim, minKey⟩) :
    ∃ refs, readNode address store unread.hash unread.level unread.claim none =
        .ok (.inner refs) ∧
      childrenAt (store.fetch address) unread.hash = refs ∧
      ∀ child ∈ childReferences level minKey refs, Passes (store.fetch address) level child := by
  obtain ⟨-, refs, sits, children⟩ := passes
  have isChildren := childrenAt_inner sits
  obtain ⟨bytes, found, decodes, ends, -⟩ := sits
  refine ⟨refs, ?_, isChildren, children⟩
  have held : store.get address unread.hash = some bytes := Except.ok.inj found
  rw [readNode, held, isLevel]
  dsimp only at decodes ends ⊢
  rw [decodes, ok_bind]
  simp only [ends, liesAbove, not_true_eq_false, if_false]

private theorem run_nil {walk : Gathering} (empty : walk.frontier = []) :
    walk.run address store = .ok walk.out := by
  rw [Gathering.run]
  split
  case h_1 => rfl
  case h_2 shown => cases empty.symm.trans shown

private theorem run_cons {walk : Gathering} {next : Unread} {rest : List Unread}
    (shown : walk.frontier = next :: rest) {refs : List NodeRef}
    (read : readNode address store next.hash next.level next.claim none = .ok (.inner refs)) :
    walk.run address store =
      Gathering.run address store (refs.foldl (Gathering.add next.level) ⟨rest, walk.out⟩) := by
  rw [Gathering.run]
  split
  case h_1 empty => cases empty.symm.trans shown
  case h_2 first others isCons =>
    cases isCons.symm.trans shown
    split
    case h_1 error failed => cases failed.symm.trans read
    case h_2 entries isLeaf => cases isLeaf.symm.trans read
    case h_3 again isInner =>
      cases isInner.symm.trans read
      rfl

/-- A walk ends with a closed set of what it was allowed to find. -/
private theorem Gathered.run_spec {walk : Gathering}
    (gathered : Gathered (store.fetch address) scope idle walk)
    (downward : ∀ hash child, scope hash → Contains (store.fetch address) hash child →
      scope child) :
    ∃ out, walk.run address store = .ok out ∧ walk.out ⊆ out ∧ (∀ hash ∈ out, scope hash) ∧
      ClosedSet (store.fetch address) out := by
  induction walk using Gathering.run.induct address store with
  | case1 walk empty =>
      refine ⟨walk.out, run_nil empty, Finset.Subset.refl _, gathered.sound, ?_⟩
      intro hash member child contains
      rcases gathered.closed hash member with isBusy | ⟨unread, waits, -⟩ | expanded
      · exact isBusy.elim
      · rw [empty] at waits
        cases waits
      · exact expanded child contains
  | case2 walk next rest shown error read =>
      obtain ⟨-, level, minKey, isLevel, passes⟩ :=
        gathered.awaited next (shown ▸ List.mem_cons_self)
      obtain ⟨refs, reads, -⟩ := readNode_of_passes isLevel passes
      cases read.symm.trans reads
  | case3 walk next rest shown entries read =>
      obtain ⟨-, level, minKey, isLevel, passes⟩ :=
        gathered.awaited next (shown ▸ List.mem_cons_self)
      obtain ⟨refs, reads, -⟩ := readNode_of_passes isLevel passes
      cases read.symm.trans reads
  | case4 walk next rest shown refs read ih =>
      obtain ⟨inOut, level, minKey, isLevel, passes⟩ :=
        gathered.awaited next (shown ▸ List.mem_cons_self)
      obtain ⟨others, reads, isChildren, children⟩ := readNode_of_passes isLevel passes
      cases read.symm.trans reads
      have started : Gathered (store.fetch address) scope (· = next.hash) ⟨rest, walk.out⟩ := by
        refine ⟨gathered.sound, ?_, fun unread member =>
          gathered.awaited unread (shown ▸ List.mem_cons_of_mem _ member)⟩
        intro hash member
        rcases gathered.closed hash member with isBusy | ⟨unread, waits, same⟩ | expanded
        · exact isBusy.elim
        · rw [shown] at waits
          rcases List.mem_cons.mp waits with rfl | later
          · exact .inl same.symm
          · exact .inr (.inl ⟨unread, later, same⟩)
        · exact .inr (.inr expanded)
      have allowed : ∀ ref ∈ refs, scope ref.hash := by
        intro ref member
        exact downward next.hash ref.hash (gathered.sound _ inOut)
          ⟨ref, isChildren ▸ member, rfl⟩
      obtain ⟨grown, added, grows⟩ := started.addAll children allowed
      rw [← isLevel] at grown added grows
      have settled : Gathered (store.fetch address) scope idle
          (refs.foldl (Gathering.add next.level) ⟨rest, walk.out⟩) := by
        refine ⟨grown.sound, ?_, grown.awaited⟩
        intro hash member
        rcases grown.closed hash member with rfl | waits | expanded
        · refine .inr (.inr ?_)
          rintro child ⟨ref, isRef, rfl⟩
          exact added ref (isChildren ▸ isRef)
        · exact .inr (.inl waits)
        · exact .inr (.inr expanded)
      obtain ⟨out, ends, further, sound, closed⟩ := ih settled
      exact ⟨out, (run_cons shown read).trans ends, grows.trans further, sound, closed⟩

private theorem collectReachableChunks_spec {root : Root}
    (wellFormed : WellFormed (store.fetch address) root) (allowed : scope root.hash)
    (downward : ∀ hash child, scope hash → Contains (store.fetch address) hash child →
      scope child) {out : Finset Hash} (sound : ∀ hash ∈ out, scope hash)
    (closed : ClosedSet (store.fetch address) out) :
    ∃ after, collectReachableChunks address store root out = .ok after ∧ out ⊆ after ∧
      root.hash ∈ after ∧ (∀ hash ∈ after, scope hash) ∧
      ClosedSet (store.fetch address) after := by
  rw [collectReachableChunks]
  by_cases known : root.hash ∈ out
  · rw [if_pos known]
    exact ⟨out, rfl, Finset.Subset.refl _, known, sound, closed⟩
  have passes := verifyReachable_eq_nil.mp (verifyReachable_wellFormed.mpr wellFormed)
  have started : Gathered (store.fetch address) scope idle
      { frontier := if root.topLevel > 0 then [⟨root.hash, root.topLevel, none⟩] else []
        out := insert root.hash out } := by
    refine ⟨?_, ?_, ?_⟩
    · intro hash member
      rcases Finset.mem_insert.mp member with rfl | before
      · exact allowed
      · exact sound hash before
    · intro hash member
      rcases Finset.mem_insert.mp member with rfl | before
      · cases isLevel : root.topLevel with
        | zero =>
            rw [isLevel] at passes
            exact .inr (.inr fun child contains =>
              absurd contains (not_contains_of_passes passes child))
        | succ level => exact .inr (.inl ⟨_, List.mem_singleton_self _, rfl⟩)
      · exact .inr (.inr fun child contains =>
          Finset.mem_insert_of_mem (closed hash before child contains))
    · intro unread member
      cases isLevel : root.topLevel with
      | zero =>
          rw [isLevel] at member
          cases member
      | succ level =>
          rw [isLevel] at member passes
          obtain rfl := List.mem_singleton.mp member
          exact ⟨Finset.mem_insert_self .., level, none, rfl, passes⟩
  obtain ⟨after, ends, grows, allSound, allClosed⟩ := started.run_spec downward
  rw [if_neg known]
  exact ⟨after, ends, (Finset.subset_insert ..).trans grows,
    grows (Finset.mem_insert_self ..), allSound, allClosed⟩

theorem collectRoots_spec {roots : List Root}
    (wellFormed : ∀ root ∈ roots, WellFormed (store.fetch address) root)
    (allowed : ∀ root ∈ roots, scope root.hash)
    (downward : ∀ hash child, scope hash → Contains (store.fetch address) hash child →
      scope child) {out : Finset Hash} (sound : ∀ hash ∈ out, scope hash)
    (closed : ClosedSet (store.fetch address) out) :
    ∃ after, collectRoots address store roots out = .ok after ∧ out ⊆ after ∧
      (∀ root ∈ roots, root.hash ∈ after) ∧ (∀ hash ∈ after, scope hash) ∧
      ClosedSet (store.fetch address) after := by
  induction roots generalizing out with
  | nil => exact ⟨out, rfl, Finset.Subset.refl _, List.forall_mem_nil _, sound, closed⟩
  | cons root roots ih =>
      rw [List.forall_mem_cons] at wellFormed allowed
      obtain ⟨middle, walked, grows, isIn, stillSound, stillClosed⟩ :=
        collectReachableChunks_spec wellFormed.1 allowed.1 downward sound closed
      obtain ⟨after, ends, further, others, allSound, allClosed⟩ :=
        ih wellFormed.2 allowed.2 stillSound stillClosed
      refine ⟨after, ?_, grows.trans further, List.forall_mem_cons.mpr ⟨further isIn, others⟩,
        allSound, allClosed⟩
      rw [collectRoots, walked, ok_bind]
      exact ends

theorem ClosedSet.reaches {fetch : Fetch} {out : Finset Hash} (closed : ClosedSet fetch out)
    {hash target : Hash} (member : hash ∈ out) (reaches : Reaches fetch hash target) :
    target ∈ out := by
  induction reaches with
  | refl => exact member
  | tail _ contains ih => exact closed _ ih _ contains

end

/-- Collecting well-formed roots one after another finds exactly the chunks at
and beneath them, in whatever order the roots come. -/
theorem collectRoots_exact (address : Bytes → Hash) (store : Store) (roots : List Root)
    (wellFormed : ∀ root ∈ roots, WellFormed (store.fetch address) root) :
    ∃ out, (∀ hash, hash ∈ out ↔
        ∃ root ∈ roots, Reaches (store.fetch address) root.hash hash) ∧
      ∀ order : List Root, order.Perm roots → collectRoots address store order ∅ = .ok out := by
  have downward : ∀ hash child,
      (∃ root ∈ roots, Reaches (store.fetch address) root.hash hash) →
      Contains (store.fetch address) hash child →
      ∃ root ∈ roots, Reaches (store.fetch address) root.hash child := by
    rintro hash child ⟨root, isRoot, reaches⟩ contains
    exact ⟨root, isRoot, reaches.tail contains⟩
  have collected : ∀ order : List Root, order.Perm roots →
      ∃ out, collectRoots address store order ∅ = .ok out ∧ ∀ hash, hash ∈ out ↔
        ∃ root ∈ roots, Reaches (store.fetch address) root.hash hash := by
    intro order perm
    obtain ⟨out, ends, -, starts, sound, closed⟩ :=
      @collectRoots_spec address store
        (fun hash => ∃ root ∈ roots, Reaches (store.fetch address) root.hash hash) order
        (fun root member => wellFormed root (perm.mem_iff.mp member))
        (fun root member => ⟨root, perm.mem_iff.mp member, .refl⟩) downward ∅ (fun hash member => absurd member (Finset.notMem_empty hash))
        (fun hash member => absurd member (Finset.notMem_empty hash))
    refine ⟨out, ends, fun hash => ⟨sound hash, ?_⟩⟩
    rintro ⟨root, isRoot, reaches⟩
    exact closed.reaches (starts root (perm.mem_iff.mpr isRoot)) reaches
  obtain ⟨out, -, isUnion⟩ := collected roots (.refl roots)
  refine ⟨out, isUnion, fun order perm => ?_⟩
  obtain ⟨other, ends, alsoUnion⟩ := collected order perm
  have same : other = out := Finset.ext fun hash => (alsoUnion hash).trans (isUnion hash).symm
  rw [ends, same]

/-- The leaf of the other tree as a tree of its own. -/
def leafRoot : Root := ⟨sampleAddress pairLeaf, 1, sampleParams⟩

private theorem leafRoot_wellFormed :
    WellFormed (Store.fetch sampleAddress [pairInner, pairLeaf]) leafRoot := by
  have held : Store.get sampleAddress [pairInner, pairLeaf] (sampleAddress pairLeaf) =
      some pairLeaf := by decide +kernel
  have decodes : decodeNode pairLeaf 0 = .ok (.leaf [([1], [7])]) :=
    decodeNode_leaf [([1], [7])] (by decide) (by decide) (List.pairwise_singleton _ _)
  exact ⟨[([1], [7])], ⟨pairLeaf, congrArg Except.ok held, decodes⟩, List.pairwise_singleton _ _⟩

/-- One tree's root is another tree's leaf. -/
theorem collectRoots_exact_shared :
    ∃ out, (∀ hash, hash ∈ out ↔ ∃ root ∈ [leafRoot, pairRoot],
        Reaches (Store.fetch sampleAddress [pairInner, pairLeaf]) root.hash hash) ∧
      ∀ order : List Root, order.Perm [leafRoot, pairRoot] →
        collectRoots sampleAddress [pairInner, pairLeaf] order ∅ = .ok out := by
  apply collectRoots_exact
  rw [List.forall_mem_cons, List.forall_mem_singleton]
  exact ⟨leafRoot_wellFormed, verifyReachable_wellFormed.mp pair_clean⟩

end Acetone.Prolly

import Acetone.Graph.BranchHistory
import Acetone.Graph.CommitWalks

/-!
# Commits and their objects

The operations of a repository compare whole histories.  In the store a history
is objects that name one another by address, and the walks over these find the
same ancestors and the same merge base.
-/

namespace Acetone.Graph

open Acetone.Lib Acetone.Model

namespace Commit

theorem induct_parents {motive : Commit → Prop}
    (step : ∀ commit, (∀ parent ∈ commit.parents, motive parent) → motive commit)
    (commit : Commit) : motive commit := by
  induction commit with
  | initial manifest stamp => exact step _ fun parent isParent => nomatch isParent
  | child tip manifest stamp ih =>
      exact step _ fun parent isParent => List.mem_singleton.mp isParent ▸ ih
  | merged ours theirs manifest stamp ihOurs ihTheirs =>
      refine step _ fun parent isParent => ?_
      rcases List.mem_pair.mp isParent with rfl | rfl
      · exact ihOurs
      · exact ihTheirs

/-- The commits behind a commit. -/
def behind (commit : Commit) : List Commit := commit.parents.flatMap ancestors

theorem ancestors_eq (commit : Commit) : commit.ancestors = commit :: commit.behind := by
  cases commit <;> simp [ancestors, behind, parents]

theorem ancestors_subset {commits : List Commit}
    (closed : ∀ commit ∈ commits, ∀ parent ∈ commit.parents, parent ∈ commits)
    (commit : Commit) (isStored : commit ∈ commits) : commit.ancestors ⊆ commits := by
  induction commit using induct_parents with
  | step commit ih =>
      rw [ancestors_eq]
      refine List.cons_subset.mpr ⟨isStored, fun older member => ?_⟩
      obtain ⟨parent, isParent, isOlder⟩ := List.mem_flatMap.mp member
      exact ih parent isParent (closed commit isStored parent isParent) isOlder

theorem mem_maximalCommon {left right commit : Commit} :
    commit ∈ left.maximalCommon right ↔
      (commit ∈ left.ancestors ∧ commit ∈ right.ancestors) ∧
        ∀ other, other ∈ left.ancestors → other ∈ right.ancestors → commit ∉ other.behind := by
  rw [maximalCommon, List.mem_filter, List.mem_filter, decide_eq_true_eq, decide_eq_true_eq]
  refine and_congr_right fun _ => ⟨fun free other isLeft isRight isBehind => free ?_, ?_⟩
  · exact List.mem_flatMap.mpr
      ⟨other, List.mem_filter.mpr ⟨isLeft, decide_eq_true isRight⟩, isBehind⟩
  · intro free dominated
    obtain ⟨other, isCommon, isBehind⟩ := List.mem_flatMap.mp dominated
    obtain ⟨isLeft, isRight⟩ := List.mem_filter.mp isCommon
    exact free other isLeft (of_decide_eq_true isRight) isBehind

end Commit

private theorem head?_keys_of_least {V : Type} {map : SortedMap Nat V} {key : Nat}
    (member : key ∈ map.keys) (least : ∀ other ∈ map.keys, key ≤ other) :
    map.keys.head? = some key := by
  have ascending : map.keys.Pairwise (· < ·) := List.pairwise_map.mpr map.ascending
  cases isKeys : map.keys with
  | nil =>
      rw [isKeys] at member
      cases member
  | cons first rest =>
      rw [isKeys] at member least ascending
      rcases List.mem_cons.mp member with rfl | later
      · rfl
      · exact absurd (List.rel_of_pairwise_cons ascending later)
          (Nat.not_lt.mpr (least first List.mem_cons_self))

namespace CommitGraph

/-- The graph holds the objects of the commits, under addresses that tell them
apart. -/
structure Stores (graph : CommitGraph Nat) (hash : Commit → Nat) (commits : List Commit) :
    Prop where
  object : ∀ commit ∈ commits, (graph.objects.get (hash commit)).map CommitObject.parents =
    some (commit.parents.map hash)
  apart : ∀ left ∈ commits, ∀ right ∈ commits, hash left = hash right → left = right

variable {graph : CommitGraph Nat} {hash : Commit → Nat} {commits : List Commit}

namespace Stores

theorem stored (stores : graph.Stores hash commits) {commit : Commit}
    (isStored : commit ∈ commits) : graph.objects.get (hash commit) ≠ none := by
  intro absent
  have object := stores.object commit isStored
  rw [absent] at object
  cases object

theorem hasParent_iff (stores : graph.Stores hash commits) {commit : Commit}
    (isStored : commit ∈ commits) {id : Nat} :
    graph.HasParent (hash commit) id ↔ ∃ parent ∈ commit.parents, hash parent = id := by
  obtain ⟨object, isObject, isParents⟩ :=
    Option.map_eq_some_iff.mp (stores.object commit isStored)
  rw [CommitStore.hasParent_iff, ← List.mem_map, ← isParents]
  constructor
  · rintro ⟨other, isOther, isParent⟩
    cases isObject.symm.trans isOther
    exact isParent
  · exact fun isParent => ⟨object, isObject, isParent⟩

/-- From what leads to the parents. -/
private theorem behind_iff (stores : graph.Stores hash commits) {commit : Commit}
    (isStored : commit ∈ commits) {id : Nat}
    (ofParents : ∀ parent ∈ commit.parents,
      graph.IsAncestor id (hash parent) ↔ ∃ older ∈ parent.ancestors, hash older = id) :
    graph.IsProperAncestor id (hash commit) ↔ ∃ older ∈ commit.behind, hash older = id := by
  rw [CommitStore.IsProperAncestor, Relation.TransGen.head'_iff]
  constructor
  · rintro ⟨next, edge, reaches⟩
    obtain ⟨parent, isParent, rfl⟩ := (stores.hasParent_iff isStored).mp edge
    obtain ⟨older, isOlder, isId⟩ := (ofParents parent isParent).mp reaches
    exact ⟨older, List.mem_flatMap.mpr ⟨parent, isParent, isOlder⟩, isId⟩
  · rintro ⟨older, isBehind, isId⟩
    obtain ⟨parent, isParent, isOlder⟩ := List.mem_flatMap.mp isBehind
    exact ⟨hash parent, (stores.hasParent_iff isStored).mpr ⟨parent, isParent, rfl⟩,
      (ofParents parent isParent).mpr ⟨older, isOlder, isId⟩⟩

variable (stores : graph.Stores hash commits)
  (closed : ∀ commit ∈ commits, ∀ parent ∈ commit.parents, parent ∈ commits)

include stores closed

theorem isAncestor_iff {commit : Commit} (isStored : commit ∈ commits) {id : Nat} :
    graph.IsAncestor id (hash commit) ↔ ∃ older ∈ commit.ancestors, hash older = id := by
  induction commit using Commit.induct_parents with
  | step commit ih =>
      have behind := stores.behind_iff isStored fun parent isParent =>
        ih parent isParent (closed commit isStored parent isParent)
      rw [CommitStore.IsAncestor, Relation.reflTransGen_iff_eq_or_transGen, Commit.ancestors_eq,
        List.exists_mem_cons_iff, ← behind]
      exact or_congr_left eq_comm

theorem isProperAncestor_iff {commit : Commit} (isStored : commit ∈ commits) {id : Nat} :
    graph.IsProperAncestor id (hash commit) ↔ ∃ older ∈ commit.behind, hash older = id :=
  stores.behind_iff isStored fun parent isParent =>
    stores.isAncestor_iff closed (closed commit isStored parent isParent)

variable {left right : Commit} (isLeft : left ∈ commits) (isRight : right ∈ commits)

include isLeft isRight

theorem isCommon_iff {id : Nat} : graph.IsCommon (hash left) (hash right) id ↔
    ∃ older, older ∈ left.ancestors ∧ older ∈ right.ancestors ∧ hash older = id := by
  rw [IsCommon, stores.isAncestor_iff closed isLeft, stores.isAncestor_iff closed isRight]
  constructor
  · rintro ⟨⟨older, isOlder, rfl⟩, other, isOther, same⟩
    have one := stores.apart _ (Commit.ancestors_subset closed right isRight isOther) _
      (Commit.ancestors_subset closed left isLeft isOlder) same
    exact ⟨older, isOlder, one ▸ isOther, rfl⟩
  · rintro ⟨older, inLeft, inRight, isId⟩
    exact ⟨⟨older, inLeft, isId⟩, older, inRight, isId⟩

theorem isBest_iff {id : Nat} : graph.IsBest (hash left) (hash right) id ↔
    ∃ base ∈ left.maximalCommon right, hash base = id := by
  have within := fun {older} => @Commit.ancestors_subset commits closed left isLeft older
  rw [IsBest, stores.isCommon_iff closed isLeft isRight]
  constructor
  · rintro ⟨⟨base, inLeft, inRight, rfl⟩, free⟩
    refine ⟨base, Commit.mem_maximalCommon.mpr ⟨⟨inLeft, inRight⟩, ?_⟩, rfl⟩
    intro other otherLeft otherRight isBehind
    exact free (hash other) ((stores.isCommon_iff closed isLeft isRight).mpr
      ⟨other, otherLeft, otherRight, rfl⟩)
      ((stores.isProperAncestor_iff closed (within otherLeft)).mpr ⟨base, isBehind, rfl⟩)
  · rintro ⟨base, isBase, rfl⟩
    obtain ⟨⟨inLeft, inRight⟩, free⟩ := Commit.mem_maximalCommon.mp isBase
    refine ⟨⟨base, inLeft, inRight, rfl⟩, fun id common proper => ?_⟩
    obtain ⟨other, otherLeft, otherRight, rfl⟩ :=
      (stores.isCommon_iff closed isLeft isRight).mp common
    obtain ⟨older, isBehind, same⟩ :=
      (stores.isProperAncestor_iff closed (within otherLeft)).mp proper
    have inOther : older ∈ other.ancestors :=
      other.ancestors_eq ▸ List.mem_cons_of_mem other isBehind
    cases stores.apart _ (within (Commit.ancestors_trans inOther otherLeft)) _ (within inLeft) same
    exact free other otherLeft otherRight isBehind

/-- Both take the first by address. -/
theorem mergeBase_eq :
    graph.mergeBase (hash left) (hash right) = .ok ((left.mergeBase hash right).map hash) := by
  obtain ⟨best, isBase, members⟩ :=
    mergeBase_spec (stores.stored isLeft) (stores.stored isRight)
  have isKey : ∀ id, id ∈ best.keys ↔ ∃ base ∈ left.maximalCommon right, hash base = id := by
    intro id
    rw [SortedMap.mem_keys, ← Option.isSome_iff_ne_none, members]
    exact stores.isBest_iff closed isLeft isRight
  rw [isBase]
  refine congrArg Except.ok ?_
  cases isLeast : left.mergeBase hash right with
  | none =>
      rw [Commit.mergeBase, List.argmin_eq_none] at isLeast
      rw [Option.map_none, List.head?_eq_none_iff, List.eq_nil_iff_forall_not_mem]
      intro id member
      obtain ⟨base, isBase, -⟩ := (isKey id).mp member
      rw [isLeast] at isBase
      cases isBase
  | some base =>
      refine head?_keys_of_least ((isKey _).mpr ⟨base, List.argmin_mem isLeast, rfl⟩) ?_
      intro id member
      obtain ⟨other, isOther, rfl⟩ := (isKey id).mp member
      exact List.le_of_mem_argmin isOther isLeast

end Stores

end CommitGraph

namespace Traced

/-- Whatever commits operations have stored, wherever they stopped: the walks
over the objects answer as the histories do. -/
theorem walks_agree (hash : Commit → Nat) (state : Traced)
    (run : state.Run hash fun _ _ _ => True) (graph : CommitGraph Nat)
    (stores : graph.Stores hash state.repo.commits) (left right : Commit)
    (isLeft : left ∈ state.repo.commits) (isRight : right ∈ state.repo.commits) :
    graph.isAncestor (hash left) (hash right) = .ok (left.isAncestor right) ∧
      graph.mergeBase (hash left) (hash right) = .ok ((left.mergeBase hash right).map hash) := by
  have closed := run.grounded.parents
  refine ⟨?_, stores.mergeBase_eq closed isLeft isRight⟩
  obtain ⟨answer, isAnswer, correct⟩ :=
    CommitGraph.isAncestor_spec (stores.stored isRight) (hash left)
  rw [stores.isAncestor_iff closed isRight] at correct
  rw [isAnswer, Commit.isAncestor]
  refine congrArg Except.ok (Bool.eq_iff_iff.mpr ?_)
  rw [correct, decide_eq_true_eq]
  constructor
  · rintro ⟨older, isOlder, same⟩
    have one := stores.apart _ (Commit.ancestors_subset closed right isRight isOlder) _ isLeft same
    exact one ▸ isOlder
  · exact fun isOlder => ⟨left, isOlder, rfl⟩

/-- The commits of the three branches, by their stamps. -/
def stampAddress : Commit → Nat
  | .initial _ stamp => stamp + 1
  | .child _ _ stamp => stamp + 1
  | .merged _ _ _ stamp => stamp + 1

def stamped : Traced := after stampAddress threeBranches

private theorem crissCross_stores : crissCross.Stores stampAddress stamped.repo.commits :=
  ⟨by decide +kernel, by decide +kernel⟩

theorem walks_agree_threeBranches :
    (tipOf "side").mergeBase stampAddress (tipOf "main") ≠ none ∧
      crissCross.isAncestor (stampAddress (tipOf "side")) (stampAddress (tipOf "main")) =
        .ok ((tipOf "side").isAncestor (tipOf "main")) ∧
      crissCross.mergeBase (stampAddress (tipOf "side")) (stampAddress (tipOf "main")) =
        .ok (((tipOf "side").mergeBase stampAddress (tipOf "main")).map stampAddress) :=
  ⟨by decide +kernel, walks_agree stampAddress stamped (run_after _ _) crissCross crissCross_stores
    (tipOf "side") (tipOf "main") (by decide +kernel) (by decide +kernel)⟩

end Traced

end Acetone.Graph

import Acetone.Lib.Reachability

/-!
# Walks over the stored commits

A commit object names its parents by their addresses, and a walk over the history
reads one object after the other.  What such walks answer is compared with the
relation between a commit and its parents.
-/

namespace Acetone.Graph

open Acetone.Lib

structure CommitObject (Oid : Type) where
  message : String
  trailers : List (String × String)
  parents : List Oid
  /-- The committer's time in seconds. -/
  timeSeconds : Int
deriving DecidableEq

/-- Why a walk fails.  No walk is `exhausted`: the bound on its rounds is for the
definition alone. -/
inductive WalkError (Oid : Type) where
  | notACommit (name : Oid)
  | exhausted
deriving DecidableEq

structure CommitStore (Oid : Type) [LinearOrder Oid] where
  objects : SortedMap Oid (CommitObject Oid)
deriving DecidableEq

variable {Oid : Type} [LinearOrder Oid]

namespace CommitStore

variable (store : CommitStore Oid)

def readCommit (id : Oid) : Except (WalkError Oid) (CommitObject Oid) :=
  match store.objects.get id with
  | none => .error (.notACommit id)
  | some commit => .ok commit

def degree (id : Oid) : Nat := ((store.objects.get id).elim [] CommitObject.parents).length

/-- More than the rounds that a walk from these commits takes. -/
def roundsFor (starts : List Oid) : Nat :=
  starts.length + (store.objects.keys.map store.degree).sum + 1

/-- A stack starts with its last element on top. -/
def ancestorsOf (stack : List Oid) : Except (WalkError Oid) (KeySet Oid) :=
  explore store.readCommit CommitObject.parents (fun _ => ()) .exhausted (store.roundsFor stack)
    stack.reverse

/-- Every commit reachable by following parents, the commit itself included. -/
def ancestors (start : Oid) : Except (WalkError Oid) (KeySet Oid) := store.ancestorsOf [start]

def isAncestorStep (anc : Oid) (state : KeySet Oid × List Oid) :
    (KeySet Oid × List Oid) ⊕ Except (WalkError Oid) Bool :=
  if state.2.head? = some anc then .inr (.ok true)
  else
    (exploreStep store.readCommit CommitObject.parents (fun _ => ()) state).map id
      (Except.map fun _ => false)

def isAncestor (anc desc : Oid) : Except (WalkError Oid) Bool :=
  (loop (store.isAncestorStep anc) (store.roundsFor [desc]) (.empty, [desc])).getD
    (.error .exhausted)

/-- The common ancestors that are a strict ancestor of no other one; of several, the
first by address. -/
def mergeBase (a b : Oid) : Except (WalkError Oid) (Option Oid) := do
  let ancA ← store.ancestors a
  let ancB ← store.ancestors b
  let common := ancA.filterKeys fun id => (ancB.get id).isSome
  if common.entries.isEmpty then .ok none
  else do
    let parents ← gather (fun id => (store.readCommit id).map CommitObject.parents) common.keys
    let dominated ← store.ancestorsOf parents
    .ok (common.filterKeys fun id => (dominated.get id).isNone).keys.head?

end CommitStore

/-- Commit objects whose parents are all stored, without a cycle. -/
structure CommitGraph (Oid : Type) [LinearOrder Oid] extends CommitStore Oid where
  closed : ∀ id commit, objects.get id = some commit → ∀ parent ∈ commit.parents,
    objects.get parent ≠ none
  acyclic : ∀ id, ¬ Relation.TransGen
    (Leads toCommitStore.readCommit CommitObject.parents) id id

namespace CommitStore

variable (store : CommitStore Oid)

abbrev HasParent : Oid → Oid → Prop := Leads store.readCommit CommitObject.parents

/-- A commit counts as its own ancestor. -/
def IsAncestor (anc desc : Oid) : Prop := Relation.ReflTransGen store.HasParent desc anc

def IsProperAncestor (anc desc : Oid) : Prop := Relation.TransGen store.HasParent desc anc

variable {store}

theorem readCommit_eq_ok {id : Oid} {commit : CommitObject Oid} :
    store.readCommit id = .ok commit ↔ store.objects.get id = some commit := by
  rw [readCommit]
  cases store.objects.get id <;> simp

theorem hasParent_iff {id parent : Oid} :
    store.HasParent id parent ↔
      ∃ commit, store.objects.get id = some commit ∧ parent ∈ commit.parents := by
  simp only [HasParent, Leads, readCommit_eq_ok]

theorem finite (id : Oid) (commit : CommitObject Oid)
    (isRead : store.readCommit id = .ok commit) :
    id ∈ store.objects.keys ∧ commit.parents.length ≤ store.degree id := by
  have stored := readCommit_eq_ok.mp isRead
  refine ⟨SortedMap.mem_keys.mpr ?_, ?_⟩
  · rw [stored]
    exact Option.some_ne_none commit
  · rw [degree, stored]
    exact Nat.le_refl _

theorem enough (stack : List Oid) :
    stack.reverse.length + (store.objects.keys.map store.degree).sum < store.roundsFor stack := by
  rw [List.length_reverse]
  exact Nat.lt_succ_self _

end CommitStore

namespace CommitGraph

variable {graph : CommitGraph Oid}

/-- Whatever is reached from stored commits is stored. -/
theorem stored_of_reaches {start id : Oid} (stored : graph.objects.get start ≠ none)
    (reaches : Relation.ReflTransGen graph.HasParent start id) : graph.objects.get id ≠ none := by
  induction reaches with
  | refl => exact stored
  | tail _ edge _ =>
      obtain ⟨commit, isCommit, isParent⟩ := CommitStore.hasParent_iff.mp edge
      exact graph.closed _ commit isCommit _ isParent

theorem reads_of_stored {stack : List Oid} (stored : ∀ id ∈ stack, graph.objects.get id ≠ none)
    (id : Oid) (reached : ReachedFrom graph.HasParent stack id) :
    ∃ commit, graph.readCommit id = .ok commit := by
  obtain ⟨start, isStart, reaches⟩ := reached
  obtain ⟨commit, isCommit⟩ :=
    Option.ne_none_iff_exists'.mp (stored_of_reaches (stored start isStart) reaches)
  exact ⟨commit, CommitStore.readCommit_eq_ok.mpr isCommit⟩

theorem ancestorsOf_spec {stack : List Oid} (stored : ∀ id ∈ stack, graph.objects.get id ≠ none) :
    ∃ seen, graph.ancestorsOf stack = .ok seen ∧
      ∀ id, (seen.get id).isSome ↔ ∃ start ∈ stack, graph.IsAncestor id start := by
  have reads := @reads_of_stored _ _ graph stack.reverse fun id member =>
    stored id (List.mem_reverse.mp member)
  obtain ⟨seen, isSeen, members⟩ := @explore_spec _ _ _ _ _ graph.readCommit CommitObject.parents
    (fun _ => ()) .exhausted (graph.roundsFor stack) stack.reverse graph.objects.keys
    graph.degree graph.objects.keys_nodup CommitStore.finite (CommitStore.enough stack) reads
  refine ⟨seen, isSeen, fun id => ?_⟩
  rw [Option.isSome_iff_exists]
  constructor
  · rintro ⟨_, isKept⟩
    obtain ⟨⟨start, isStart, reaches⟩, -⟩ := (members id ()).mp isKept
    exact ⟨start, List.mem_reverse.mp isStart, reaches⟩
  · rintro ⟨start, isStart, reaches⟩
    have reached : ReachedFrom graph.HasParent stack.reverse id :=
      ⟨start, List.mem_reverse.mpr isStart, reaches⟩
    obtain ⟨commit, isRead⟩ := reads id reached
    exact ⟨(), (members id ()).mpr ⟨reached, commit, isRead, rfl⟩⟩

theorem isAncestor_spec {desc : Oid} (stored : graph.objects.get desc ≠ none) (anc : Oid) :
    ∃ answer, graph.isAncestor anc desc = .ok answer ∧
      (answer = true ↔ graph.IsAncestor anc desc) := by
  have reads := @reads_of_stored _ _ graph [desc] fun id member =>
    (List.mem_singleton.mp member).symm ▸ stored
  have follows : ∀ state after, graph.isAncestorStep anc state = .inl after →
      state.2.head? ≠ some anc ∧ exploreStep graph.readCommit CommitObject.parents
        (fun _ => ()) state = .inl after := by
    intro state after steps
    rw [CommitStore.isAncestorStep] at steps
    split at steps
    · cases steps
    · next other =>
        refine ⟨other, ?_⟩
        cases explored : exploreStep graph.readCommit CommitObject.parents (fun _ => ()) state with
        | inl next =>
            rw [explored] at steps
            cases steps
            rfl
        | inr result =>
            rw [explored] at steps
            cases steps
  obtain ⟨answer, isAnswer⟩ := Option.isSome_iff_exists.mp
    (@exploreStep_ends _ _ _ _ _ graph.readCommit CommitObject.parents (fun _ => ())
      (graph.roundsFor [desc]) [desc] graph.objects.keys graph.degree graph.objects.keys_nodup
      CommitStore.finite _ (graph.isAncestorStep anc) (fun _ _ steps => (follows _ _ steps).2)
      (CommitStore.enough [desc]))
  have answers := @loop_spec _ _ (graph.isAncestorStep anc)
    (fun state => Exploration graph.readCommit CommitObject.parents (fun _ => ()) [desc] state ∧
      (state.1.get anc).isSome = false)
    (fun result => ∃ answer, result = .ok answer ∧ (answer = true ↔ graph.IsAncestor anc desc))
    ?_ ?_ _ _ ⟨Exploration.start, rfl⟩ _ isAnswer
  · obtain ⟨found, rfl, correct⟩ := answers
    refine ⟨found, ?_, correct⟩
    rw [CommitStore.isAncestor, isAnswer]
    rfl
  · rintro state after ⟨exploration, unseen⟩ steps
    obtain ⟨other, explored⟩ := follows state after steps
    refine ⟨exploration.step explored, Bool.eq_false_of_not_eq_true fun isSeen => ?_⟩
    rcases exploreStep_seen explored isSeen with before | onTop
    · rw [unseen] at before
      cases before
    · exact other onTop
  · rintro state result ⟨exploration, unseen⟩ breaks
    rw [CommitStore.isAncestorStep] at breaks
    split at breaks
    · next onTop =>
        cases breaks
        refine ⟨true, rfl, iff_of_true rfl ?_⟩
        obtain ⟨start, isStart, reaches⟩ :=
          exploration.exploring.found anc (.inr (List.mem_of_mem_head? onTop))
        rwa [List.mem_singleton.mp isStart] at reaches
    · cases explored : exploreStep graph.readCommit CommitObject.parents (fun _ => ()) state with
      | inl next =>
          rw [explored] at breaks
          cases breaks
      | inr outcome =>
          rw [explored] at breaks
          obtain ⟨done, rfl⟩ := exploration.break reads explored
          cases breaks
          refine ⟨false, rfl, iff_of_false Bool.false_ne_true fun isAncestor => ?_⟩
          have exploring := exploration.exploring
          rw [done] at exploring
          have isSeen := (exploring.done anc).mpr ⟨desc, List.mem_singleton_self desc, isAncestor⟩
          rw [unseen] at isSeen
          cases isSeen

def IsCommon (graph : CommitGraph Oid) (a b id : Oid) : Prop :=
  graph.IsAncestor id a ∧ graph.IsAncestor id b

/-- A common ancestor that is a proper ancestor of no other. -/
def IsBest (graph : CommitGraph Oid) (a b id : Oid) : Prop :=
  graph.IsCommon a b id ∧ ∀ other, graph.IsCommon a b other → ¬ graph.IsProperAncestor id other

theorem IsCommon.swap {a b id : Oid} (common : graph.IsCommon a b id) : graph.IsCommon b a id :=
  And.symm common

theorem isBest_swap {a b id : Oid} : graph.IsBest a b id ↔ graph.IsBest b a id := by
  have half : ∀ {a b}, graph.IsBest a b id → graph.IsBest b a id := fun best =>
    ⟨best.1.swap, fun other common => best.2 other common.swap⟩
  exact ⟨half, half⟩

private theorem isDominated_iff {common : KeySet Oid} {id : Oid} {parents : List Oid}
    (isParents : ∀ parent, parent ∈ parents ↔
      ∃ child, (common.get child).isSome ∧ graph.HasParent child parent) :
    (∃ start ∈ parents, graph.IsAncestor id start) ↔
      ∃ child, (common.get child).isSome ∧ graph.IsProperAncestor id child := by
  constructor
  · rintro ⟨parent, isParent, isAncestor⟩
    obtain ⟨child, isCommon, edge⟩ := (isParents parent).mp isParent
    exact ⟨child, isCommon, Relation.TransGen.head' edge isAncestor⟩
  · rintro ⟨child, isCommon, isProper⟩
    obtain ⟨parent, edge, isAncestor⟩ := Relation.TransGen.head'_iff.mp isProper
    exact ⟨parent, (isParents parent).mpr ⟨child, isCommon, edge⟩, isAncestor⟩

theorem mergeBase_spec {a b : Oid} (storedA : graph.objects.get a ≠ none)
    (storedB : graph.objects.get b ≠ none) :
    ∃ best : KeySet Oid, graph.mergeBase a b = .ok best.keys.head? ∧
      ∀ id, (best.get id).isSome ↔ graph.IsBest a b id := by
  have single : ∀ {id : Oid}, graph.objects.get id ≠ none →
      ∀ other ∈ [id], graph.objects.get other ≠ none := fun stored other member =>
    (List.mem_singleton.mp member).symm ▸ stored
  obtain ⟨ancA, isAncA, membersA⟩ := ancestorsOf_spec (single storedA)
  obtain ⟨ancB, isAncB, membersB⟩ := ancestorsOf_spec (single storedB)
  simp only [List.mem_singleton, exists_eq_left] at membersA membersB
  let common := ancA.filterKeys fun id => (ancB.get id).isSome
  have isCommon : ∀ id, (common.get id).isSome ↔ graph.IsCommon a b id := by
    intro id
    rw [SortedMap.get_filterKeys, IsCommon, ← membersA, ← membersB]
    cases ancB.get id <;> simp
  have start : graph.mergeBase a b = (if common.entries.isEmpty then .ok none else do
      let parents ← gather (fun id => (graph.readCommit id).map CommitObject.parents) common.keys
      let dominated ← graph.ancestorsOf parents
      .ok (common.filterKeys fun id => (dominated.get id).isNone).keys.head?) := by
    rw [CommitStore.mergeBase, CommitStore.ancestors, CommitStore.ancestors, isAncA, isAncB]
    rfl
  by_cases empty : common.entries.isEmpty
  · refine ⟨.empty, by rw [start, if_pos empty]; rfl, fun id => iff_of_false Bool.false_ne_true ?_⟩
    intro best
    have isSome := (isCommon id).mpr best.1
    have isEmpty : common = .empty := SortedMap.ext_entries (List.isEmpty_iff.mp empty)
    rw [isEmpty] at isSome
    cases isSome
  · rw [if_neg empty] at start
    have stored : ∀ id ∈ common.keys, ∃ commit, graph.readCommit id = .ok commit := by
      intro id member
      apply reads_of_stored (single storedA)
      have isMember := Option.isSome_iff_ne_none.mpr (SortedMap.mem_keys.mp member)
      exact ⟨a, List.mem_singleton_self a, ((isCommon id).mp isMember).1⟩
    obtain ⟨parents, isParents⟩ : ∃ parents, gather (fun id =>
        (graph.readCommit id).map CommitObject.parents) common.keys = .ok parents := by
      apply bind_total (mapM_total fun id member => ?_) fun parts => ⟨_, rfl⟩
      obtain ⟨commit, isRead⟩ := stored id member
      exact ⟨commit.parents, by rw [isRead]; rfl⟩
    have fromCommon : ∀ parent, parent ∈ parents ↔
        ∃ child, (common.get child).isSome ∧ graph.HasParent child parent := by
      intro parent
      rw [mem_gather isParents]
      constructor
      · rintro ⟨child, member, found, isFound, inside⟩
        obtain ⟨commit, isRead⟩ := stored child member
        rw [isRead] at isFound
        cases isFound
        exact ⟨child, Option.isSome_iff_ne_none.mpr (SortedMap.mem_keys.mp member), commit,
          isRead, inside⟩
      · rintro ⟨child, isMember, commit, isRead, inside⟩
        refine ⟨child, SortedMap.mem_keys.mpr (Option.isSome_iff_ne_none.mp isMember),
          commit.parents, ?_, inside⟩
        rw [isRead]
        rfl
    obtain ⟨dominated, isDominated, members⟩ := @ancestorsOf_spec _ _ graph parents (by
      intro parent member
      obtain ⟨child, -, edge⟩ := (fromCommon parent).mp member
      obtain ⟨commit, isCommit, isParent⟩ := CommitStore.hasParent_iff.mp edge
      exact graph.closed child commit isCommit parent isParent)
    refine ⟨common.filterKeys fun id => (dominated.get id).isNone, ?_, fun id => ?_⟩
    · rw [start, isParents, ok_bind, isDominated, ok_bind]
    · have isBehind : (dominated.get id).isSome ↔
          ∃ other, graph.IsCommon a b other ∧ graph.IsProperAncestor id other := by
        rw [members id, isDominated_iff fromCommon]
        simp only [isCommon]
      rw [SortedMap.get_filterKeys, IsBest, ← isCommon]
      cases behind : dominated.get id with
      | none =>
          rw [behind] at isBehind
          have free : ¬ ∃ other, graph.IsCommon a b other ∧ graph.IsProperAncestor id other :=
            fun exists_ => Bool.false_ne_true (isBehind.mpr exists_)
          refine (and_iff_left ?_).symm
          exact fun other isOther proper => free ⟨other, isOther, proper⟩
      | some _ =>
          rw [behind] at isBehind
          obtain ⟨other, isOther, proper⟩ := isBehind.mp rfl
          refine iff_of_false Bool.false_ne_true fun best => ?_
          exact best.2 other isOther proper

theorem exists_best {a b id : Oid} (storedA : graph.objects.get a ≠ none)
    (common : graph.IsCommon a b id) : ∃ best, graph.IsBest a b best := by
  classical
  let candidates := graph.objects.keys.filter fun other => graph.IsCommon a b other
  have isCandidate : ∀ other, other ∈ candidates ↔ graph.IsCommon a b other := by
    intro other
    rw [List.mem_filter, decide_eq_true_eq]
    refine and_iff_right_of_imp fun isCommon => ?_
    exact SortedMap.mem_keys.mpr (stored_of_reaches storedA isCommon.1)
  obtain ⟨best, isBest, first⟩ := @exists_behind_none _ graph.HasParent graph.acyclic candidates
    (List.ne_nil_of_mem ((isCandidate id).mpr common))
  exact ⟨best, (isCandidate best).mp isBest,
    fun other isOther => first other ((isCandidate other).mpr isOther)⟩

/-- An ancestor is the only best common ancestor. -/
theorem isBest_iff_of_isAncestor {a b : Oid} (isAncestor : graph.IsAncestor a b) (id : Oid) :
    graph.IsBest a b id ↔ id = a := by
  have common : graph.IsCommon a b a := ⟨.refl, isAncestor⟩
  constructor
  · intro best
    rcases Relation.reflTransGen_iff_eq_or_transGen.mp best.1.1 with same | proper
    · exact same
    · exact absurd proper (best.2 a common)
  · rintro rfl
    exact ⟨common, fun other isOther proper => graph.acyclic _ (proper.trans_left isOther.1)⟩

/-- The merge base is none exactly without a common ancestor, and else a common
ancestor that is a proper ancestor of no other; it is the first commit exactly when
that is an ancestor of the second; and the order of the two does not matter. -/
theorem mergeBase_best (graph : CommitGraph Oid) (a b : Oid) (storedA : graph.objects.get a ≠ none)
    (storedB : graph.objects.get b ≠ none) :
    ∃ base, graph.mergeBase a b = .ok base ∧ graph.mergeBase b a = .ok base ∧
      (base = none ↔ ¬ ∃ id, graph.IsCommon a b id) ∧
      (∀ id, base = some id → graph.IsCommon a b id ∧
        ∀ other, graph.IsCommon a b other → ¬ graph.IsProperAncestor id other) ∧
      ∃ answer, graph.isAncestor a b = .ok answer ∧ (answer = true ↔ base = some a) := by
  obtain ⟨best, isBase, members⟩ := mergeBase_spec storedA storedB
  obtain ⟨swapped, isSwapped, swappedMembers⟩ := mergeBase_spec storedB storedA
  obtain ⟨answer, isAnswer, correct⟩ := isAncestor_spec storedB a
  have same : swapped = best := by
    apply KeySet.ext
    intro id
    have isSome : ∀ {found : Option Unit}, found = some () ↔ found.isSome := by
      intro found
      cases found <;> simp
    rw [isSome, isSome, members, swappedMembers]
    exact isBest_swap
  have ofHead : ∀ id, best.keys.head? = some id → graph.IsBest a b id := fun id isHead =>
    (members id).mp (Option.isSome_iff_ne_none.mpr
      (SortedMap.mem_keys.mp (List.mem_of_mem_head? isHead)))
  refine ⟨best.keys.head?, isBase, same ▸ isSwapped, ?_, fun id isHead => ofHead id isHead,
    answer, isAnswer, ?_⟩
  · rw [List.head?_eq_none_iff]
    constructor
    · rintro empty ⟨id, common⟩
      obtain ⟨found, isBest⟩ := exists_best storedA common
      have member := SortedMap.mem_keys.mpr (Option.isSome_iff_ne_none.mp ((members found).mpr isBest))
      rw [empty] at member
      cases member
    · intro unrelated
      rw [List.eq_nil_iff_forall_not_mem]
      intro id member
      have isMember := Option.isSome_iff_ne_none.mpr (SortedMap.mem_keys.mp member)
      exact unrelated ⟨id, ((members id).mp isMember).1⟩
  · rw [correct]
    constructor
    · intro isAncestor
      have only := isBest_iff_of_isAncestor isAncestor
      cases isHead : best.keys.head? with
      | none =>
          have member := SortedMap.mem_keys.mpr
            (Option.isSome_iff_ne_none.mp ((members a).mpr ((only a).mpr rfl)))
          rw [List.head?_eq_none_iff.mp isHead] at member
          cases member
      | some id => exact congrArg some ((only id).mp (ofHead id isHead))
    · exact fun isHead => (ofHead a isHead).1.2

end CommitGraph

theorem CommitStore.acyclic_of_older {store : CommitStore Oid}
    (older : ∀ id commit, store.objects.get id = some commit → ∀ parent ∈ commit.parents,
      parent < id) (id : Oid) : ¬ Relation.TransGen store.HasParent id id := by
  have descends : ∀ {newer : Oid}, Relation.TransGen store.HasParent id newer → newer < id := by
    intro newer reaches
    induction reaches with
    | single edge =>
        obtain ⟨commit, isCommit, isParent⟩ := CommitStore.hasParent_iff.mp edge
        exact older _ commit isCommit _ isParent
    | tail _ edge ih =>
        obtain ⟨commit, isCommit, isParent⟩ := CommitStore.hasParent_iff.mp edge
        exact (older _ commit isCommit _ isParent).trans ih
  exact fun cycle => lt_irrefl id (descends cycle)

/-- Two branches that merged each other, and a root of its own. -/
def crissCrossStore : CommitStore Nat :=
  ⟨.ofList [(1, ⟨"root", [], [], 0⟩), (2, ⟨"left", [], [1], 5⟩), (3, ⟨"right", [], [1], 5⟩),
    (4, ⟨"left merges", [], [2, 3], 4⟩), (5, ⟨"right merges", [], [3, 2], 9⟩),
    (6, ⟨"other root", [], [], 9⟩)]⟩

private theorem crissCross_parents : ∀ entry ∈ crissCrossStore.objects.entries,
    ∀ parent ∈ entry.2.parents, parent < entry.1 ∧ crissCrossStore.objects.get parent ≠ none := by
  decide

theorem crissCross_closed (id : Nat) (commit : CommitObject Nat)
    (isCommit : crissCrossStore.objects.get id = some commit) (parent : Nat)
    (isParent : parent ∈ commit.parents) : crissCrossStore.objects.get parent ≠ none :=
  (crissCross_parents _ (SortedMap.get_eq_some_iff.mp isCommit) parent isParent).2

theorem crissCross_acyclic (id : Nat) : ¬ Relation.TransGen crissCrossStore.HasParent id id :=
  CommitStore.acyclic_of_older (fun _ _ isCommit parent isParent =>
    (crissCross_parents _ (SortedMap.get_eq_some_iff.mp isCommit) parent isParent).1) id

def crissCross : CommitGraph Nat where
  toCommitStore := crissCrossStore
  closed := crissCross_closed
  acyclic := crissCross_acyclic

theorem mergeBase_best_crissCross :
    crissCross.mergeBase 4 5 = .ok (some 2) ∧ crissCross.mergeBase 4 6 = .ok none ∧
      ∃ base, crissCross.mergeBase 4 5 = .ok base ∧ crissCross.mergeBase 5 4 = .ok base ∧
        (base = none ↔ ¬ ∃ id, crissCross.IsCommon 4 5 id) ∧
        (∀ id, base = some id → crissCross.IsCommon 4 5 id ∧
          ∀ other, crissCross.IsCommon 4 5 other → ¬ crissCross.IsProperAncestor id other) ∧
        ∃ answer, crissCross.isAncestor 4 5 = .ok answer ∧ (answer = true ↔ base = some 4) :=
  ⟨by decide +kernel, by decide +kernel,
    CommitGraph.mergeBase_best crissCross 4 5 (by decide) (by decide)⟩

end Acetone.Graph

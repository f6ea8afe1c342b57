import Acetone.Graph.CommitWalks

/-!
# The log of all branches

The commits reachable from the branch tips are loaded, and then emitted one at a
time: a commit is ready when all of its loaded children have been emitted, and of
those that are ready the newest goes first.  Every commit is emitted once and before
its parents, whatever the times say.
-/

namespace Acetone.Graph

open Acetone.Lib

variable {Oid : Type} [LinearOrder Oid]

structure LogEntry (Oid : Type) where
  id : Oid
  message : String
  trailers : List (String × String)
  parents : List Oid
deriving DecidableEq

def CommitObject.entry (id : Oid) (commit : CommitObject Oid) : LogEntry Oid :=
  ⟨id, commit.message, commit.trailers, commit.parents⟩

/-- The order of the heap: by time, then by address. -/
def outranks (left right : Int × Oid) : Bool :=
  right.1 < left.1 ∨ right.1 = left.1 ∧ right.2 < left.2

def popNewest : List (Int × Oid) → Option ((Int × Oid) × List (Int × Oid))
  | [] => none
  | first :: rest =>
      let newest := rest.foldl (fun best other => if outranks other best then other else best) first
      some (newest, (first :: rest).erase newest)

namespace CommitStore

variable (store : CommitStore Oid)

def loadAll (tips : List Oid) : Except (WalkError Oid) (SortedMap Oid (CommitObject Oid)) :=
  explore store.readCommit CommitObject.parents id .exhausted (store.roundsFor tips) tips.reverse

end CommitStore

section

variable (commits : SortedMap Oid (CommitObject Oid))

def countChild (pending : SortedMap Oid Nat) (parent : Oid) : SortedMap Oid Nat :=
  match pending.get parent with
  | some children => pending.put parent (children + 1)
  | none => pending

/-- For every loaded commit, how many times loaded commits name it as a parent. -/
def pendingChildren : SortedMap Oid Nat :=
  commits.entries.foldl (fun pending loaded => loaded.2.parents.foldl countChild pending)
    (commits.mapValues fun _ => 0)

/-- What is left to emit, what is ready, and what has been emitted. -/
structure Emission (Oid : Type) [LinearOrder Oid] where
  pending : SortedMap Oid Nat
  ready : List (Int × Oid)
  entries : List (LogEntry Oid)

def startEmission : Emission Oid where
  pending := pendingChildren commits
  ready := (commits.entries.filter fun loaded => (pendingChildren commits).get loaded.1 = some 0).map
    fun loaded => (loaded.2.timeSeconds, loaded.1)
  entries := []

def releaseParent (emission : Emission Oid) (parent : Oid) : Emission Oid :=
  match emission.pending.get parent with
  | none => emission
  | some children =>
      { emission with
        pending := emission.pending.put parent (children - 1)
        ready :=
          if children - 1 = 0 then
            ((commits.get parent).map fun commit => (commit.timeSeconds, parent)).toList ++
              emission.ready
          else emission.ready }

def emitStep (emission : Emission Oid) : Emission Oid ⊕ List (LogEntry Oid) :=
  match popNewest emission.ready with
  | none => .inr emission.entries
  | some ((_, id), ready) =>
      match commits.get id with
      | none => .inl { emission with ready := ready }
      | some commit =>
          let released := commit.parents.foldl (releaseParent commits)
            { emission with ready := ready }
          .inl { released with entries := released.entries ++ [commit.entry id] }

end

def CommitStore.logAll (store : CommitStore Oid) (tips : List Oid) :
    Except (WalkError Oid) (List (LogEntry Oid)) := do
  let commits ← store.loadAll tips
  (loop (emitStep commits) (commits.entries.length + 1) (startEmission commits)).elim
    (.error .exhausted) .ok

private theorem newest_mem (first : Int × Oid) (rest : List (Int × Oid)) :
    rest.foldl (fun best other => if outranks other best then other else best) first ∈
      first :: rest := by
  induction rest generalizing first with
  | nil => exact List.mem_singleton_self first
  | cons other rest ih =>
      rw [List.foldl_cons]
      rcases List.mem_cons.mp (ih (if outranks other first then other else first)) with same | later
      · rw [same]
        split
        · exact List.mem_cons_of_mem _ List.mem_cons_self
        · exact List.mem_cons_self
      · exact List.mem_cons_of_mem _ (List.mem_cons_of_mem _ later)

theorem popNewest_perm {ready rest : List (Int × Oid)} {newest : Int × Oid}
    (pops : popNewest ready = some (newest, rest)) : ready.Perm (newest :: rest) := by
  cases ready with
  | nil => cases pops
  | cons first ready =>
      cases pops
      exact List.perm_cons_erase (newest_mem first ready)

theorem popNewest_eq_none {ready : List (Int × Oid)} (pops : popNewest ready = none) :
    ready = [] := by
  cases ready with
  | nil => rfl
  | cons first ready => cases pops

section

variable (commits : SortedMap Oid (CommitObject Oid))

def timesNamed (parent child : Oid) : Nat :=
  ((commits.get child).elim [] CommitObject.parents).count parent

/-- How often the commits that have not been emitted name a parent. -/
def waitsFor (emitted : List Oid) (parent : Oid) : Nat :=
  unseenWeight (timesNamed commits parent) commits.keys fun id => emitted.contains id

variable {commits}

private theorem get_countChild (pending : SortedMap Oid Nat) (parents : List Oid) (id : Oid) :
    (parents.foldl countChild pending).get id =
      (pending.get id).map (· + parents.count id) := by
  induction parents generalizing pending with
  | nil => simp
  | cons parent parents ih =>
      rw [List.foldl_cons, ih, countChild]
      cases known : pending.get parent with
      | none =>
          by_cases same : parent = id
          · subst same
            simp [known]
          · simp [same]
      | some children =>
          rw [SortedMap.get_put]
          by_cases same : parent = id
          · subst same
            simp [known, Nat.add_assoc, Nat.add_comm 1]
          · simp [same]

private theorem get_countChildren (loaded : List (Oid × CommitObject Oid))
    (pending : SortedMap Oid Nat) (id : Oid) :
    (loaded.foldl (fun pending loaded => loaded.2.parents.foldl countChild pending) pending).get id =
      (pending.get id).map (· + (loaded.map fun loaded => loaded.2.parents.count id).sum) := by
  induction loaded generalizing pending with
  | nil => simp
  | cons first rest ih =>
      rw [List.foldl_cons, ih, get_countChild, Option.map_map]
      congr 1
      funext children
      simp [Nat.add_assoc]

theorem get_pendingChildren (id : Oid) :
    (pendingChildren commits).get id = (commits.get id).map fun _ => waitsFor commits [] id := by
  have total : waitsFor commits [] id =
      (commits.entries.map fun loaded => loaded.2.parents.count id).sum := by
    rw [waitsFor, unseenWeight_of_unseen fun _ _ => by simp, SortedMap.keys, List.map_map]
    congr 1
    apply List.map_congr_left
    intro loaded member
    rw [Function.comp_apply, timesNamed, SortedMap.get_eq_some_iff.mpr member]
    rfl
  rw [pendingChildren, get_countChildren, SortedMap.get_mapValues, Option.map_map, total]
  congr 1
  funext _
  exact Nat.zero_add _

theorem waitsFor_emit {emitted : List Oid} {id : Oid} {commit : CommitObject Oid}
    (isCommit : commits.get id = some commit) (fresh : id ∉ emitted) (parent : Oid) :
    waitsFor commits emitted parent =
      waitsFor commits (emitted ++ [id]) parent + commit.parents.count parent := by
  have member : id ∈ commits.keys := by
    rw [SortedMap.mem_keys, isCommit]
    exact Option.some_ne_none commit
  have named : timesNamed commits parent id = commit.parents.count parent := by
    rw [timesNamed, isCommit]
    rfl
  rw [waitsFor, waitsFor, ← named]
  apply unseenWeight_see commits.keys_nodup member
  · rwa [← Bool.not_eq_true, List.contains_iff_mem]
  · exact List.contains_iff_mem.mpr (List.mem_append_right _ (List.mem_singleton_self id))
  · intro other apart
    simp [apart]

/-- A commit that is not waited for is named by emitted commits only. -/
theorem not_mem_parents {emitted : List Oid} {parent id : Oid} {commit : CommitObject Oid}
    (settled : waitsFor commits emitted parent = 0) (isCommit : commits.get id = some commit)
    (fresh : id ∉ emitted) : parent ∉ commit.parents := by
  rw [waitsFor_emit isCommit fresh] at settled
  exact List.count_eq_zero.mp (Nat.eq_zero_of_add_eq_zero_left settled)

end

section

variable {commits : SortedMap Oid (CommitObject Oid)} {emission : Emission Oid}

/-- While the parents of a commit are released, each is still waited for as often as
it is left in the list. -/
structure Releasing (commits : SortedMap Oid (CommitObject Oid)) (emitted rest : List Oid)
    (emission : Emission Oid) : Prop where
  pending : ∀ id, emission.pending.get id =
    (commits.get id).map fun _ => waitsFor commits emitted id + rest.count id
  settled : ∀ id ∈ emitted, waitsFor commits emitted id + rest.count id = 0
  nodup : (emission.ready.map Prod.snd).Nodup
  ready : ∀ id, id ∈ emission.ready.map Prod.snd ↔
    commits.get id ≠ none ∧ id ∉ emitted ∧ waitsFor commits emitted id + rest.count id = 0

private theorem Releasing.step {emitted rest : List Oid} {parent : Oid}
    (releasing : Releasing commits emitted (parent :: rest) emission) :
    Releasing commits emitted rest (releaseParent commits emission parent) := by
  have countSelf : (parent :: rest).count parent = rest.count parent + 1 := List.count_cons_self
  have countOther : ∀ id, id ≠ parent → (parent :: rest).count id = rest.count id :=
    fun id apart => List.count_cons_of_ne (Ne.symm apart)
  have fresh : parent ∉ emitted := by
    intro member
    have none := releasing.settled parent member
    omega
  have notReady : parent ∉ emission.ready.map Prod.snd := by
    intro member
    have none := ((releasing.ready parent).mp member).2.2
    omega
  have settled : ∀ id ∈ emitted, waitsFor commits emitted id + rest.count id = 0 := by
    intro id member
    rw [← countOther id fun same => fresh (same ▸ member)]
    exact releasing.settled id member
  have isPending := releasing.pending parent
  rw [releaseParent]
  cases isCommit : commits.get parent with
  | none =>
      rw [isCommit, Option.map_none] at isPending
      rw [isPending]
      refine ⟨fun id => ?_, settled, releasing.nodup, fun id => ?_⟩
      · by_cases same : id = parent
        · rw [same, isPending, isCommit, Option.map_none]
        · rw [releasing.pending id, countOther id same]
      · by_cases same : id = parent
        · rw [same, isCommit]
          exact iff_of_false notReady fun known => known.1 rfl
        · rw [releasing.ready id, countOther id same]
  | some commit =>
      rw [isCommit, Option.map_some, countSelf] at isPending
      rw [isPending]
      have less : waitsFor commits emitted parent + (rest.count parent + 1) - 1 =
          waitsFor commits emitted parent + rest.count parent := rfl
      dsimp only
      rw [less]
      refine ⟨fun id => ?_, settled, ?_, fun id => ?_⟩
      · rw [SortedMap.get_put]
        by_cases same : parent = id
        · rw [if_pos same, ← same, isCommit, Option.map_some]
        · rw [if_neg same, releasing.pending id, countOther id (Ne.symm same)]
      · split
        · exact List.nodup_cons.mpr ⟨notReady, releasing.nodup⟩
        · exact releasing.nodup
      · by_cases same : id = parent
        · rw [same, isCommit]
          split
          · next none =>
              exact iff_of_true List.mem_cons_self ⟨Option.some_ne_none commit, fresh, none⟩
          · next waits => exact iff_of_false notReady fun known => waits known.2.2
        · rw [← countOther id same, ← releasing.ready id]
          split
          · simp [same]
          · exact Iff.rfl

private theorem Releasing.fold {emitted : List Oid} (parents : List Oid)
    (releasing : Releasing commits emitted parents emission) :
    Releasing commits emitted [] (parents.foldl (releaseParent commits) emission) := by
  induction parents generalizing emission with
  | nil => exact releasing
  | cons parent parents ih => exact ih releasing.step

private theorem entries_releaseParent (parents : List Oid) :
    (parents.foldl (releaseParent commits) emission).entries = emission.entries := by
  induction parents generalizing emission with
  | nil => rfl
  | cons parent parents ih =>
      rw [List.foldl_cons, ih, releaseParent]
      cases emission.pending.get parent <;> rfl

def Emission.ids (emission : Emission Oid) : List Oid := emission.entries.map LogEntry.id

/-- Commits are emitted once and before their parents, and those that nothing waits
for are ready. -/
structure Emitting (commits : SortedMap Oid (CommitObject Oid)) (emission : Emission Oid) :
    Prop where
  distinct : emission.ids.Nodup
  loaded : ∀ entry ∈ emission.entries, ∃ commit, commits.get entry.id = some commit ∧
    entry = commit.entry entry.id
  ordered : emission.entries.Pairwise fun earlier later => earlier.id ∉ later.parents
  releasing : Releasing commits emission.ids [] emission

theorem Emitting.start : Emitting commits (startEmission commits) where
  distinct := List.nodup_nil
  loaded _ member := absurd member List.not_mem_nil
  ordered := List.Pairwise.nil
  releasing := by
    have chosen : (startEmission commits).ready.map Prod.snd =
        commits.keys.filter fun id => (pendingChildren commits).get id = some 0 := by
      rw [startEmission, SortedMap.keys, List.filter_map, List.map_map]
      rfl
    refine ⟨get_pendingChildren, fun id member => absurd member List.not_mem_nil, ?_, fun id => ?_⟩
    · rw [chosen]
      exact commits.keys_nodup.filter _
    · rw [chosen, List.mem_filter, SortedMap.mem_keys, get_pendingChildren, decide_eq_true_eq]
      cases commits.get id <;> simp [startEmission, Emission.ids]

private theorem Emitting.emit (emitting : Emitting commits emission) {time : Int} {id : Oid}
    {ready : List (Int × Oid)} (pops : popNewest emission.ready = some ((time, id), ready))
    {commit : CommitObject Oid} (isCommit : commits.get id = some commit) :
    Releasing commits (emission.ids ++ [id]) commit.parents { emission with ready := ready } := by
  have perm := (popNewest_perm pops).map Prod.snd
  have distinct := (perm.nodup_iff.mp emitting.releasing.nodup)
  obtain ⟨fresh, none⟩ := ((emitting.releasing.ready id).mp
    (perm.mem_iff.mpr List.mem_cons_self)).2
  have same : ∀ other, waitsFor commits (emission.ids ++ [id]) other + commit.parents.count other =
      waitsFor commits emission.ids other + List.count other [] :=
    fun other => (waitsFor_emit isCommit fresh other).symm
  refine ⟨fun other => ?_, fun other member => ?_, (List.nodup_cons.mp distinct).2, fun other => ?_⟩
  · rw [same other]
    exact emitting.releasing.pending other
  · rw [same other]
    rcases List.mem_append.mp member with before | last
    · exact emitting.releasing.settled other before
    · rwa [List.mem_singleton.mp last]
  · have before := emitting.releasing.ready other
    rw [perm.mem_iff, List.map_cons, List.mem_cons] at before
    rw [same other, List.mem_append, List.mem_singleton, not_or]
    constructor
    · intro member
      obtain ⟨known, notYet, settled⟩ := before.mp (.inr member)
      refine ⟨known, ⟨notYet, fun equal => ?_⟩, settled⟩
      exact (List.nodup_cons.mp distinct).1 (equal ▸ member)
    · rintro ⟨known, ⟨notYet, apart⟩, settled⟩
      exact (before.mpr ⟨known, notYet, settled⟩).resolve_left apart

theorem Emitting.step {after : Emission Oid} (emitting : Emitting commits emission)
    (steps : emitStep commits emission = .inl after) :
    Emitting commits after ∧ after.entries.length = emission.entries.length + 1 := by
  rw [emitStep] at steps
  cases pops : popNewest emission.ready with
  | none =>
      rw [pops] at steps
      cases steps
  | some popped =>
      obtain ⟨⟨time, id⟩, ready⟩ := popped
      rw [pops] at steps
      dsimp only at steps
      obtain ⟨known, fresh, none⟩ := (emitting.releasing.ready id).mp
        (((popNewest_perm pops).map Prod.snd).mem_iff.mpr List.mem_cons_self)
      obtain ⟨commit, isCommit⟩ := Option.ne_none_iff_exists'.mp known
      rw [isCommit] at steps
      cases steps
      have released := (emitting.emit pops isCommit).fold
      have same := @entries_releaseParent _ _ commits { emission with ready := ready } commit.parents
      have ids : (emission.entries ++ [commit.entry id]).map LogEntry.id = emission.ids ++ [id] :=
        List.map_append
      rw [same]
      refine ⟨⟨?_, ?_, ?_, ?_⟩, List.length_append⟩
      · rw [Emission.ids, ids]
        exact List.Nodup.append emitting.distinct (List.nodup_singleton id)
          (List.disjoint_singleton.mpr fresh)
      · intro entry member
        rcases List.mem_append.mp member with before | last
        · exact emitting.loaded entry before
        · rw [List.mem_singleton.mp last]
          exact ⟨commit, isCommit, rfl⟩
      · refine List.pairwise_append.mpr ⟨emitting.ordered, List.pairwise_singleton _ _, ?_⟩
        intro earlier before later last
        rw [List.mem_singleton.mp last]
        apply not_mem_parents (emitting.releasing.settled earlier.id ?_) isCommit fresh
        exact List.mem_map_of_mem before
      · rw [Emission.ids, ids]
        exact ⟨released.pending, released.settled, released.nodup, released.ready⟩

theorem Emitting.length_le (emitting : Emitting commits emission) :
    emission.entries.length ≤ commits.entries.length := by
  have within : emission.ids ⊆ commits.keys := by
    intro id member
    obtain ⟨entry, isEntry, rfl⟩ := List.mem_map.mp member
    obtain ⟨commit, isCommit, -⟩ := emitting.loaded entry isEntry
    rw [SortedMap.mem_keys, isCommit]
    exact Option.some_ne_none commit
  have fewer := (emitting.distinct.subperm within).length_le
  rwa [Emission.ids, SortedMap.keys, List.length_map, List.length_map] at fewer

/-- With no commit ready every commit has been emitted: of commits that are left one
would not be waited for. -/
theorem Emitting.complete (emitting : Emitting commits emission) (idle : emission.ready = [])
    (acyclic : ∀ id, ¬ Relation.TransGen (fun child parent => timesNamed commits parent child ≠ 0)
      id id) (id : Oid) : id ∈ emission.ids ↔ commits.get id ≠ none := by
  constructor
  · intro member
    obtain ⟨entry, isEntry, rfl⟩ := List.mem_map.mp member
    obtain ⟨commit, isCommit, -⟩ := emitting.loaded entry isEntry
    rw [isCommit]
    exact Option.some_ne_none commit
  · intro known
    by_contra left
    have some : commits.keys.filter (· ∉ emission.ids) ≠ [] :=
      List.ne_nil_of_mem (List.mem_filter.mpr ⟨SortedMap.mem_keys.mpr known, by simpa using left⟩)
    obtain ⟨first, isFirst, free⟩ := exists_behind_none acyclic some
    obtain ⟨isKey, fresh⟩ := List.mem_filter.mp isFirst
    have waited : waitsFor commits emission.ids first ≠ 0 := by
      intro none
      have isReady := (emitting.releasing.ready first).mpr
        ⟨SortedMap.mem_keys.mp isKey, by simpa using fresh, none⟩
      rw [idle] at isReady
      cases isReady
    obtain ⟨child, isChild, unseen, names⟩ := exists_of_unseenWeight_ne_zero waited
    refine free child (List.mem_filter.mpr ⟨isChild, ?_⟩) (.single names)
    rw [← Bool.not_eq_true, List.contains_iff_mem] at unseen
    exact decide_eq_true unseen

end

namespace CommitGraph

variable {graph : CommitGraph Oid}

theorem loadAll_spec {tips : List Oid} (stored : ∀ tip ∈ tips, graph.objects.get tip ≠ none) :
    ∃ commits, graph.loadAll tips = .ok commits ∧ ∀ id commit, commits.get id = some commit ↔
      graph.objects.get id = some commit ∧ ∃ tip ∈ tips, graph.IsAncestor id tip := by
  obtain ⟨commits, isLoaded, members⟩ := @explore_spec _ _ _ _ _ graph.readCommit
    CommitObject.parents id .exhausted (graph.roundsFor tips) tips.reverse graph.objects.keys
    graph.degree graph.objects.keys_nodup CommitStore.finite (CommitStore.enough tips)
    (reads_of_stored fun id member => stored id (List.mem_reverse.mp member))
  refine ⟨commits, isLoaded, fun id commit => ?_⟩
  simp only [members, ReachedFrom, List.mem_reverse, CommitStore.readCommit_eq_ok, id_eq,
    exists_eq_right]
  exact and_comm

private theorem hasParent_of_timesNamed {tips : List Oid}
    {commits : SortedMap Oid (CommitObject Oid)}
    (members : ∀ id commit, commits.get id = some commit ↔
      graph.objects.get id = some commit ∧ ∃ tip ∈ tips, graph.IsAncestor id tip)
    {child parent : Oid} (names : timesNamed commits parent child ≠ 0) :
    graph.HasParent child parent := by
  rw [timesNamed] at names
  cases isCommit : commits.get child with
  | none =>
      rw [isCommit] at names
      exact absurd rfl names
  | some commit =>
      rw [isCommit] at names
      exact CommitStore.hasParent_iff.mpr ⟨commit, ((members child commit).mp isCommit).1,
        List.count_pos_iff.mp (Nat.pos_of_ne_zero names)⟩

private theorem emission_spec {tips : List Oid} {commits : SortedMap Oid (CommitObject Oid)}
    (members : ∀ id commit, commits.get id = some commit ↔
      graph.objects.get id = some commit ∧ ∃ tip ∈ tips, graph.IsAncestor id tip) :
    ∃ emission, Emitting commits emission ∧
      (∀ id, id ∈ emission.ids ↔ commits.get id ≠ none) ∧
      loop (emitStep commits) (commits.entries.length + 1) (startEmission commits) =
        some emission.entries := by
  obtain ⟨result, ends⟩ := Option.isSome_iff_exists.mp
    (@loop_isSome _ _ (emitStep commits) (Emitting commits)
      (fun emission => commits.entries.length - emission.entries.length)
      (fun _ _ emitting steps => (emitting.step steps).1) (by
        intro emission after emitting steps
        obtain ⟨emitted, longer⟩ := emitting.step steps
        have within := emitted.length_le
        omega) _ _ Emitting.start (Nat.lt_succ_of_le (Nat.sub_le _ _)))
  have acyclic : ∀ id, ¬ Relation.TransGen
      (fun child parent => timesNamed commits parent child ≠ 0) id id := fun id cycle =>
    graph.acyclic id (cycle.lift (fun other => other) fun _ _ names =>
      hasParent_of_timesNamed members names)
  have breaks : ∀ emission result, Emitting commits emission →
      emitStep commits emission = .inr result → result = emission.entries ∧
        emission.ready = [] := by
    intro emission result emitting breaks
    rw [emitStep] at breaks
    cases pops : popNewest emission.ready with
    | none =>
        rw [pops] at breaks
        cases breaks
        exact ⟨rfl, popNewest_eq_none pops⟩
    | some popped =>
        obtain ⟨⟨time, id⟩, ready⟩ := popped
        rw [pops] at breaks
        dsimp only at breaks
        cases known : commits.get id with
        | none =>
            rw [known] at breaks
            cases breaks
        | some commit =>
            rw [known] at breaks
            cases breaks
  obtain ⟨emission, emitting, rfl, idle⟩ := @loop_spec _ _ (emitStep commits) (Emitting commits)
    (fun result => ∃ emission, Emitting commits emission ∧ result = emission.entries ∧
      emission.ready = []) (fun _ _ emitting steps => (emitting.step steps).1)
    (fun emission result emitting broken => ⟨emission, emitting, breaks _ _ emitting broken⟩)
    _ _ Emitting.start _ ends
  exact ⟨emission, emitting, emitting.complete idle acyclic, ends⟩

/-- Every commit that can be reached from a tip is listed once, as it is stored, and
before its parents, whatever the times of the commits. -/
theorem logAll_topological (graph : CommitGraph Oid) (tips : List Oid)
    (stored : ∀ tip ∈ tips, graph.objects.get tip ≠ none) :
    ∃ entries, graph.logAll tips = .ok entries ∧
      (∀ entry ∈ entries, ∃ commit, graph.objects.get entry.id = some commit ∧
        entry = commit.entry entry.id) ∧
      (entries.map LogEntry.id).Nodup ∧
      (∀ id, id ∈ entries.map LogEntry.id ↔ ∃ tip ∈ tips, graph.IsAncestor id tip) ∧
      ∀ (i j : Nat) (child parent : LogEntry Oid), entries[i]? = some child →
        entries[j]? = some parent → parent.id ∈ child.parents → i < j := by
  obtain ⟨commits, isLoaded, members⟩ := loadAll_spec stored
  obtain ⟨emission, emitting, complete, ends⟩ := emission_spec members
  have asStored : ∀ entry ∈ emission.entries, ∃ commit,
      graph.objects.get entry.id = some commit ∧ entry = commit.entry entry.id := by
    intro entry member
    obtain ⟨commit, isCommit, isEntry⟩ := emitting.loaded entry member
    exact ⟨commit, ((members entry.id commit).mp isCommit).1, isEntry⟩
  refine ⟨emission.entries, ?_, asStored, emitting.distinct, fun id => ?_, ?_⟩
  · rw [CommitStore.logAll, isLoaded, ok_bind, ends]
    rfl
  · refine (complete id).trans ?_
    constructor
    · intro known
      obtain ⟨commit, isCommit⟩ := Option.ne_none_iff_exists'.mp known
      exact ((members id commit).mp isCommit).2
    · rintro ⟨tip, isTip, isAncestor⟩
      obtain ⟨commit, isCommit⟩ :=
        Option.ne_none_iff_exists'.mp (stored_of_reaches (stored tip isTip) isAncestor)
      rw [(members id commit).mpr ⟨isCommit, tip, isTip, isAncestor⟩]
      exact Option.some_ne_none commit
  · intro i j child parent isChild isParent names
    by_contra notBefore
    rcases Nat.lt_or_eq_of_le (Nat.le_of_not_lt notBefore) with earlier | rfl
    · obtain ⟨within, rfl⟩ := List.getElem?_eq_some_iff.mp isChild
      obtain ⟨withinToo, rfl⟩ := List.getElem?_eq_some_iff.mp isParent
      exact List.pairwise_iff_getElem.mp emitting.ordered j i withinToo within earlier names
    · cases isChild.symm.trans isParent
      obtain ⟨commit, isCommit, isEntry⟩ := asStored child (List.mem_of_getElem? isChild)
      rw [isEntry] at names
      exact graph.acyclic child.id
        (.single (CommitStore.hasParent_iff.mpr ⟨commit, isCommit, names⟩))

end CommitGraph

theorem logAll_topological_crissCross :
    (crissCross.logAll [4, 6, 5]).toOption.map (List.map LogEntry.id) = some [6, 5, 4, 3, 2, 1] ∧
      ∃ entries, crissCross.logAll [4, 6, 5] = .ok entries ∧
        (∀ entry ∈ entries, ∃ commit, crissCross.objects.get entry.id = some commit ∧
          entry = commit.entry entry.id) ∧
        (entries.map LogEntry.id).Nodup ∧
        (∀ id, id ∈ entries.map LogEntry.id ↔ ∃ tip ∈ [4, 6, 5], crissCross.IsAncestor id tip) ∧
        ∀ (i j : Nat) (child parent : LogEntry Nat), entries[i]? = some child →
          entries[j]? = some parent → parent.id ∈ child.parents → i < j :=
  ⟨by decide +kernel, CommitGraph.logAll_topological crissCross [4, 6, 5] (by decide)⟩

end Acetone.Graph

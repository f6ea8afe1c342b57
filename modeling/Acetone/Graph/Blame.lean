import Acetone.Graph.Differences
import Acetone.Graph.Repository

/-!
# Blame

The commits of the first-parent chain that changed a node's record.  The records
are decoded and compared as values along the chain, so a record with a NaN counts
as changed in every commit, and a zero that only changes its sign does not count.
-/

namespace Acetone.Graph

open Acetone.Lib Acetone.Model

def sameRecord (left right : NodeRecord) : Bool :=
  decide (left.secondaryLabels = right.secondaryLabels) &&
    (decide (left.properties.keys = right.properties.keys) &&
      (left.properties.entries.zip right.properties.entries).all fun pair =>
        sameValue pair.1.2.1 pair.2.2.1)

def sameAt : Option NodeRecord → Option NodeRecord → Bool
  | none, none => true
  | some left, some right => sameRecord left right
  | _, _ => false

def unsigned (record : NodeRecord) : Finset String × List (String × Value) :=
  (record.secondaryLabels, record.properties.entries.map fun entry =>
    (entry.1, canonical entry.2.1))

def holdsNan (record : NodeRecord) : Bool :=
  record.properties.entries.any fun entry => hasNan entry.2.1

private theorem sameEntries_iff (left right : List (String × StoredValue)) :
    (left.map Prod.fst = right.map Prod.fst ∧
      (left.zip right).all (fun pair => sameValue pair.1.2.1 pair.2.2.1) = true) ↔
      left.map (fun entry => (entry.1, canonical entry.2.1)) =
          right.map (fun entry => (entry.1, canonical entry.2.1)) ∧
        left.any (fun entry => hasNan entry.2.1) = false := by
  induction left generalizing right with
  | nil => cases right <;> simp
  | cons entry left ih =>
      cases right with
      | nil => simp
      | cons other right =>
          have rest := ih right
          simp only [List.map_cons, List.zip_cons_cons, List.all_cons, List.any_cons,
            List.cons.injEq, Prod.mk.injEq, Bool.and_eq_true, Bool.or_eq_false_iff, sameValue,
            decide_eq_true_iff, Bool.not_eq_true] at rest ⊢
          tauto

theorem sameRecord_iff {left right : NodeRecord} :
    sameRecord left right = true ↔ unsigned left = unsigned right ∧ holdsNan left = false := by
  rw [sameRecord, Bool.and_eq_true, Bool.and_eq_true, decide_eq_true_iff, decide_eq_true_iff,
    SortedMap.keys, SortedMap.keys, sameEntries_iff, unsigned, unsigned, Prod.mk.injEq, holdsNan,
    and_assoc]

/-- Equal records without a NaN, or different records that hold one or do not
differ merely in the signs of zeros. -/
def Revealed (older current : Option NodeRecord) : Prop :=
  ∀ past now, older = some past → current = some now →
    (past = now → holdsNan now = false) ∧
      (past ≠ now → unsigned past = unsigned now → holdsNan now = true)

theorem revealed_iff {older current : Option NodeRecord} :
    Revealed older current ↔ (sameAt current older = true ↔ older = current) := by
  cases older with
  | none => cases current <;> simp [Revealed, sameAt]
  | some past =>
      cases current with
      | none => simp [Revealed, sameAt]
      | some now =>
          rw [sameAt, sameRecord_iff, Option.some.injEq]
          constructor
          · intro revealed
            obtain ⟨same, differ⟩ := revealed past now rfl rfl
            constructor
            · rintro ⟨sameUnsigned, free⟩
              by_contra different
              exact Bool.false_ne_true (free.symm.trans (differ different sameUnsigned.symm))
            · rintro rfl
              exact ⟨rfl, same rfl⟩
          · rintro agrees _ _ ⟨⟩ ⟨⟩
            refine ⟨fun isSame => (agrees.mpr isSame).2, fun different sameUnsigned => ?_⟩
            by_contra free
            exact different (agrees.mp ⟨sameUnsigned.symm, Bool.not_eq_true _ ▸ free⟩)

inductive BlameError where
  | graph (cause : GraphError)
  | keyArityMismatch (label columns : String) (expected got : Nat)
deriving DecidableEq

def liftBlame {α : Type} : Except GraphError α → Except BlameError α
  | .ok value => .ok value
  | .error cause => .error (.graph cause)

def Commit.firstParents : Commit → List Commit
  | .initial manifest stamp => [.initial manifest stamp]
  | .child parent manifest stamp => .child parent manifest stamp :: firstParents parent
  | .merged ours theirs manifest stamp => .merged ours theirs manifest stamp :: firstParents ours

def recordAt (commit : Commit) (key : NodeKey) : Except GraphError (Option NodeRecord) := do
  let bytes ← liftKey key.encode
  .ok (commit.manifest.nodes.get bytes)

def blameWalk (key : NodeKey) (older : Option NodeRecord) :
    List Commit → Except GraphError (List Commit)
  | [] => .ok []
  | commit :: newer => do
      let current ← recordAt commit key
      let touching ← blameWalk key current newer
      .ok (if sameAt current older then touching else commit :: touching)

namespace Repository

def headChain (repo : Repository) : List Commit := repo.headCommit.elim [] Commit.firstParents

def checkArity (formatLabel : String → String) (repo : Repository) (key : NodeKey) :
    Except BlameError Unit :=
  let declared := ((schemaEntries repo.workspace.manifest.schema).filterMap labelPair?).find?
    fun entry => entry.1 = key.label
  match declared with
  | none => .ok ()
  | some (_, decl) =>
      if decl.key.length = key.key.length then .ok ()
      else .error (.keyArityMismatch key.label
        ("[" ++ String.intercalate ", " (decl.key.map formatLabel) ++ "]")
        decl.key.length key.key.length)

/-- The commits that changed the node's record, newest first. -/
def blame (formatLabel : String → String) (repo : Repository) (key : NodeKey) :
    Except BlameError (List Commit) := do
  repo.checkArity formatLabel key
  let touching ← liftBlame (blameWalk key none repo.headChain.reverse)
  .ok touching.reverse

end Repository

/-- The version a commit is compared with: its first parent's, or the empty one. -/
def Commit.before (commit : Commit) : Manifest :=
  commit.parents.head?.elim blank.manifest Commit.manifest

def Manifest.stored (manifest : Manifest) (key : NodeKey) : Option NodeRecord :=
  key.encode.toOption.bind manifest.nodes.get

section

variable {key : NodeKey} {bytes : Bytes}

private theorem stored_encoded (encoded : key.encode = .ok bytes) (manifest : Manifest) :
    manifest.stored key = manifest.nodes.get bytes := by
  rw [Manifest.stored, encoded]
  rfl

private theorem recordAt_eq (encoded : key.encode = .ok bytes) (commit : Commit) :
    recordAt commit key = .ok (commit.manifest.stored key) := by
  rw [recordAt, encoded, stored_encoded encoded]
  rfl

private theorem blameWalk_cons (encoded : key.encode = .ok bytes) {older : Option NodeRecord}
    {commit : Commit} {newer touching : List Commit} :
    blameWalk key older (commit :: newer) = .ok touching ↔
      ∃ later, blameWalk key (commit.manifest.stored key) newer = .ok later ∧
        (if sameAt (commit.manifest.stored key) older then later else commit :: later) =
          touching := by
  rw [blameWalk, recordAt_eq encoded, ok_bind, bind_eq_ok]
  simp only [Except.ok.injEq]

/-- The newest commit is compared with the one before it. -/
private theorem blameWalk_concat (encoded : key.encode = .ok bytes) {older : Option NodeRecord}
    {commits touching : List Commit} (walked : blameWalk key older commits = .ok touching)
    (commit : Commit) :
    blameWalk key older (commits ++ [commit]) = .ok (touching ++
      if sameAt (commit.manifest.stored key)
          (commits.getLast?.elim older fun last => last.manifest.stored key) then []
      else [commit]) := by
  induction commits generalizing older touching with
  | nil =>
      cases walked
      rw [List.nil_append, List.nil_append, blameWalk_cons encoded]
      exact ⟨[], rfl, rfl⟩
  | cons first rest ih =>
      obtain ⟨later, walkedLater, rfl⟩ := (blameWalk_cons encoded).mp walked
      have last : ((first :: rest).getLast?.elim older fun last => last.manifest.stored key) =
          rest.getLast?.elim (first.manifest.stored key) fun last => last.manifest.stored key := by
        cases rest <;> rfl
      rw [List.cons_append, blameWalk_cons encoded, last]
      refine ⟨_, ih walkedLater, ?_⟩
      split <;> rfl

/-- A key that was looked up could be encoded. -/
private theorem encoded_of_walk {older : Option NodeRecord} {commits touching : List Commit}
    (walked : blameWalk key older commits = .ok touching) (some : commits ≠ []) :
    ∃ bytes, key.encode = .ok bytes := by
  cases commits with
  | nil => exact absurd rfl some
  | cons commit newer =>
      cases encoded : key.encode with
      | ok bytes => exact ⟨bytes, rfl⟩
      | error cause =>
          rw [blameWalk, recordAt, encoded] at walked
          cases walked

private theorem head_firstParents (commit : Commit) :
    ∃ older, commit.firstParents = commit :: older := by
  cases commit <;> exact ⟨_, rfl⟩

/-- A commit is listed when its record is not that of its first parent. -/
private theorem blameWalk_firstParents (encoded : key.encode = .ok bytes) (commit : Commit) :
    blameWalk key none commit.firstParents.reverse = .ok (commit.firstParents.filter fun commit =>
      !sameAt (commit.manifest.stored key) (commit.before.stored key)).reverse := by
  have step : ∀ {commit parent : Commit}, commit.before = parent.manifest →
      commit.firstParents = commit :: parent.firstParents →
      blameWalk key none parent.firstParents.reverse =
        .ok (parent.firstParents.filter fun commit =>
          !sameAt (commit.manifest.stored key) (commit.before.stored key)).reverse →
      blameWalk key none commit.firstParents.reverse =
        .ok (commit.firstParents.filter fun commit =>
          !sameAt (commit.manifest.stored key) (commit.before.stored key)).reverse := by
    intro commit parent before chain walked
    obtain ⟨older, parents⟩ := head_firstParents parent
    have newest : parent.firstParents.reverse.getLast? = some parent := by
      rw [List.getLast?_reverse, parents]
      rfl
    rw [chain, List.reverse_cons, blameWalk_concat encoded walked, newest, Option.elim_some,
      List.filter_cons, ← before]
    cases sameAt (commit.manifest.stored key) (commit.before.stored key) <;> simp
  induction commit with
  | initial manifest stamp =>
      have absent : blank.manifest.stored key = none := by
        rw [stored_encoded encoded]
        rfl
      rw [Commit.firstParents, List.reverse_singleton, blameWalk_cons encoded]
      refine ⟨[], rfl, ?_⟩
      rw [List.filter_cons, List.filter_nil, Commit.before, Commit.parents, List.head?_nil,
        Option.elim_none, absent]
      cases sameAt ((Commit.initial manifest stamp).manifest.stored key) none <;> rfl
  | child parent manifest stamp ih => exact step rfl rfl ih
  | merged ours theirs manifest stamp ih _ => exact step rfl rfl ih

end

private theorem liftBlame_eq_ok {α : Type} {result : Except GraphError α} {value : α} :
    liftBlame result = .ok value ↔ result = .ok value := by
  cases result <;> simp [liftBlame]

/-- A filter by a condition is a filter by another one when they agree. -/
private theorem filter_eq_filter {α : Type} {items : List α} {first second : α → Bool} :
    items.filter first = items.filter second ↔ ∀ item ∈ items, first item = second item := by
  constructor
  · intro same item member
    have both := congrArg (item ∈ ·) same
    simp only [List.mem_filter, member, true_and, eq_iff_iff] at both
    exact Bool.eq_iff_iff.mpr both
  · exact List.filter_congr

variable {formatLabel : String → String} {repo : Repository} {key : NodeKey}
  {touching : List Commit}

private theorem walk_of_blame (accepted : repo.blame formatLabel key = .ok touching) :
    blameWalk key none repo.headChain.reverse = .ok touching.reverse := by
  obtain ⟨-, accepted⟩ := check_bind_eq_ok.mp accepted
  obtain ⟨walked, isWalked, isTouching⟩ := bind_eq_ok.mp accepted
  cases isTouching
  rw [List.reverse_reverse]
  exact liftBlame_eq_ok.mp isWalked

private theorem encoded_of_blame (accepted : repo.blame formatLabel key = .ok touching)
    {commit : Commit} (member : commit ∈ repo.headChain) : ∃ bytes, key.encode = .ok bytes :=
  encoded_of_walk (walk_of_blame accepted)
    (List.reverse_eq_nil_iff.not.mpr (List.ne_nil_of_mem member))

private theorem blame_eq_ok (accepted : repo.blame formatLabel key = .ok touching) :
    touching = repo.headChain.filter fun commit =>
      !sameAt (commit.manifest.stored key) (commit.before.stored key) := by
  have walked := walk_of_blame accepted
  cases tip : repo.headCommit with
  | none =>
      rw [Repository.headChain, tip, Option.elim_none] at walked ⊢
      exact (List.reverse_eq_nil_iff.mp (Except.ok.inj walked).symm)
  | some commit =>
      have chain : repo.headChain = commit.firstParents := by
        rw [Repository.headChain, tip, Option.elim_some]
      obtain ⟨older, newest⟩ := head_firstParents commit
      obtain ⟨bytes, encoded⟩ := encoded_of_blame accepted
        (chain ▸ newest ▸ List.mem_cons_self : commit ∈ repo.headChain)
      rw [chain, blameWalk_firstParents encoded] at walked
      rw [chain]
      exact List.reverse_injective (Except.ok.inj walked).symm

/-- The difference to the first parent lists the node when its record is
another one there. -/
private theorem mem_diff_iff {commit : Commit} {diff : GraphDiff} {bytes : Bytes}
    (encoded : key.encode = .ok bytes)
    (isDiff : commit.before.diff commit.manifest = .ok diff) :
    (∃ change ∈ diff.nodes, change.key.encode = key.encode) ↔
      commit.before.stored key ≠ commit.manifest.stored key := by
  obtain ⟨nodes, isNodes, rest⟩ := bind_eq_ok.mp isDiff
  obtain ⟨edges, -, isBoth⟩ := bind_eq_ok.mp rest
  cases isBoth
  rw [encoded, stored_encoded encoded, stored_encoded encoded]
  exact exists_mem_elementChanges NodeKey.encode_of_decode isNodes

/-- Blame lists the commits of the chain that change the stored record, which are
those whose difference to the first parent lists the node, when no commit keeps a
record with a NaN and none changes merely signs of zeros. -/
theorem blame_iff (accepted : repo.blame formatLabel key = .ok touching) :
    (touching = repo.headChain.filter
        (fun commit => commit.before.stored key ≠ commit.manifest.stored key) ∧
      ∀ commit ∈ repo.headChain, ∀ diff, commit.before.diff commit.manifest = .ok diff →
        (commit ∈ touching ↔ ∃ change ∈ diff.nodes, change.key.encode = key.encode)) ↔
      ∀ commit ∈ repo.headChain,
        Revealed (commit.before.stored key) (commit.manifest.stored key) := by
  have listed := blame_eq_ok accepted
  have agree : touching = repo.headChain.filter
        (fun commit => commit.before.stored key ≠ commit.manifest.stored key) ↔
      ∀ commit ∈ repo.headChain,
        Revealed (commit.before.stored key) (commit.manifest.stored key) := by
    rw [listed, filter_eq_filter]
    refine forall₂_congr fun commit _ => ?_
    rw [revealed_iff]
    by_cases same : commit.before.stored key = commit.manifest.stored key <;>
      cases sameAt (commit.manifest.stored key) (commit.before.stored key) <;> simp [same]
  rw [← agree]
  refine ⟨And.left, fun exactly => ⟨exactly, fun commit member diff isDiff => ?_⟩⟩
  obtain ⟨bytes, encoded⟩ := encoded_of_blame accepted member
  rw [exactly, List.mem_filter, decide_eq_true_iff, mem_diff_iff encoded isDiff]
  exact and_iff_right member

/-- A node whose record a second commit keeps. -/
def keptRecord (value : StoredValue) : Repository :=
  let first : Commit := .initial (withReading value) 0
  let tip : Commit := .child first (withReading value) 1
  ⟨defaultBranch, SortedMap.empty.put defaultBranch tip, [first, tip], tip.checkedOut, none⟩

theorem blame_iff_kept :
    let repo := keptRecord ⟨.int 1, by decide⟩
    let touching := repo.headChain.drop 1
    repo.blame id sensor = .ok touching ∧
      (touching = repo.headChain.filter
          (fun commit => commit.before.stored sensor ≠ commit.manifest.stored sensor) ∧
        ∀ commit ∈ repo.headChain, ∀ diff, commit.before.diff commit.manifest = .ok diff →
          (commit ∈ touching ↔ ∃ change ∈ diff.nodes, change.key.encode = sensor.encode)) := by
  have accepted : (keptRecord ⟨.int 1, by decide⟩).blame id sensor =
      .ok ((keptRecord ⟨.int 1, by decide⟩).headChain.drop 1) := by decide
  refine ⟨accepted, (blame_iff accepted).mpr fun commit member => ?_⟩
  rw [revealed_iff]
  revert commit
  decide

/-- A record with a NaN is listed at every commit, and not only at the one that
stored it. -/
theorem blame_kept_nan :
    let repo := keptRecord ⟨.float canonicalNanBits, by decide⟩
    repo.blame id sensor = .ok repo.headChain ∧
      repo.headChain ≠ repo.headChain.filter
        (fun commit => commit.before.stored sensor ≠ commit.manifest.stored sensor) := by
  decide

end Acetone.Graph

import Acetone.Graph.RefStore

/-!
# The journalled swing of a migration

A migration plans the swings of its refs, journals them, applies them as one
batch and clears the journal; recovery finishes what a journal describes.  The
steps of both are laid out one by one, so that a death can fall between any
two of them or leave any part of a batch applied.
-/

namespace Acetone.Graph

open Acetone.Lib Acetone.Model
open Acetone.Prolly (Hash)

section

variable (git : GitBackend) (layout : GraphRefNamespace) (world : RefWorld)

def pendingMigration : Except MigrateError (Option (List RefSwing)) := do
  match ← world.readRef git layout.migrateJournalRef with
  | none => .ok none
  | some blob =>
      match ← world.getBlob git blob with
      | none => .error (.journalAbsent blob)
      | some data => (decodeJournal data).map some

/-- Of the worktree's refs only the workspace may be swung. -/
def migrateMaySwing (name : String) : Bool :=
  if startsWith name "refs/worktree/" then name = worktreeWorkspaceRef else layout.ownsRef name

def validateSwing (swing : RefSwing) : Except MigrateError Unit :=
  if !migrateMaySwing layout swing.name then
    .error (.foreignRef swing.name layout.migrateJournalRef)
  else if !world.containsObject git swing.new then
    .error (.missingTarget swing.name swing.new layout.migrateJournalRef)
  else .ok ()

def validateJournalSwings (swings : List RefSwing) : Except MigrateError Unit :=
  checkEach (validateSwing git layout world) swings

def remainingSwings : List RefSwing → Except MigrateError (List RefSwing)
  | [] => .ok []
  | swing :: swings => do
      let current ← world.readRef git swing.name
      if current = some swing.new then remainingSwings swings
      else if current = swing.expected then
        return swing :: (← remainingSwings swings)
      else .error (.movedRef swing.name current swing.expected swing.new
        layout.migrateJournalRef)

/-- `recover_pending`: what it returns and the repository it leaves. -/
def recoverPending : Except MigrateError Bool × RefWorld :=
  match pendingMigration git layout world with
  | .error reason => (.error reason, world)
  | .ok none => (.ok false, world)
  | .ok (some swings) =>
      match validateJournalSwings git layout world swings with
      | .error reason => (.error reason, world)
      | .ok () =>
          match remainingSwings git layout world swings with
          | .error reason => (.error reason, world)
          | .ok remaining =>
              match world.writeRefsAtomic git remaining with
              | .error reason => (.error reason, world)
              | .ok moved =>
                  match moved.deleteRef git layout.migrateJournalRef with
                  | .error reason => (.error reason, moved)
                  | .ok cleared => (.ok true, cleared)

variable {git layout world}

private theorem validateSwing_eq_ok {swing : RefSwing} :
    validateSwing git layout world swing = .ok () ↔
      migrateMaySwing layout swing.name = true ∧ world.containsObject git swing.new = true := by
  rw [validateSwing]
  cases migrateMaySwing layout swing.name
  · simp
  · cases world.containsObject git swing.new <;> simp

theorem validateJournalSwings_eq_ok {swings : List RefSwing} :
    validateJournalSwings git layout world swings = .ok () ↔
      ∀ swing ∈ swings, migrateMaySwing layout swing.name = true ∧
        world.containsObject git swing.new = true := by
  simp only [validateJournalSwings, checkEach_eq_ok, validateSwing_eq_ok]

def Swung (world : RefWorld) (swing : RefSwing) : Prop :=
  world.Holds swing.name (some swing.new)

instance decidableSwung (world : RefWorld) (swing : RefSwing) : Decidable (Swung world swing) :=
  inferInstanceAs (Decidable (_ = _))

theorem remainingSwings_eq_ok {swings remaining : List RefSwing} :
    remainingSwings git layout world swings = .ok remaining ↔
      (∀ swing ∈ swings, RefWorld.Named git swing.name ∧
        (Swung world swing ∨ world.Holds swing.name swing.expected)) ∧
        remaining = swings.filter fun swing => ¬ Swung world swing := by
  induction swings generalizing remaining with
  | nil => simp [remainingSwings, eq_comm]
  | cons swing swings ih =>
      rw [remainingSwings, bind_eq_ok, List.forall_mem_cons]
      simp only [RefWorld.readRef_eq_ok]
      constructor
      · rintro ⟨current, ⟨named, holds⟩, done⟩
        by_cases swung : current = some swing.new
        · rw [if_pos swung] at done
          obtain ⟨rest, rfl⟩ := ih.mp done
          have isSwung : Swung world swing := by
            rw [Swung, ← swung]
            exact holds
          refine ⟨⟨⟨named, .inl isSwung⟩, rest⟩, ?_⟩
          rw [List.filter_cons_of_neg (by simp [isSwung])]
        · rw [if_neg swung] at done
          have notSwung : ¬ Swung world swing := fun isSwung => swung (holds.unique isSwung)
          split at done
          case isTrue unmoved =>
            obtain ⟨others, isOthers, ⟨⟩⟩ := bind_eq_ok.mp done
            obtain ⟨rest, rfl⟩ := ih.mp isOthers
            refine ⟨⟨⟨named, .inr (unmoved ▸ holds)⟩, rest⟩, ?_⟩
            rw [List.filter_cons_of_pos (by simp [notSwung])]
          case isFalse => cases done
      · rintro ⟨⟨⟨named, placed⟩, rest⟩, rfl⟩
        by_cases isSwung : Swung world swing
        · refine ⟨some swing.new, ⟨named, isSwung⟩, ?_⟩
          rw [if_pos rfl, List.filter_cons_of_neg (by simp [isSwung])]
          exact ih.mpr ⟨rest, rfl⟩
        · have holds := placed.resolve_left isSwung
          have notNew : swing.expected ≠ some swing.new := by
            intro same
            rw [same] at holds
            exact isSwung holds
          refine ⟨swing.expected, ⟨named, holds⟩, ?_⟩
          rw [if_neg notNew, if_pos rfl, ih.mpr ⟨rest, rfl⟩,
            List.filter_cons_of_pos (by simp [isSwung])]
          rfl

/-- The layouts there are. -/
def GraphRefNamespace.Built (layout : GraphRefNamespace) : Prop :=
  layout = .standalone ∨ ∃ graph, layout = .coTenant graph

private theorem workspace_owned (built : layout.Built) :
    (layout.ownsWholeRepo || layout.privatePrefixes.any (startsWith worktreeWorkspaceRef) ||
      layout.privateRefs.any (worktreeWorkspaceRef = ·)) = true := by
  have shared : startsWith worktreeWorkspaceRef "refs/worktree/acetone/" = true := by decide
  cases built with
  | inl isStandalone =>
      have whole : layout.ownsWholeRepo = true := congrArg _ isStandalone
      rw [whole, Bool.true_or, Bool.true_or]
  | inr isCoTenant =>
      obtain ⟨graph, isCoTenant⟩ := isCoTenant
      have listed : "refs/worktree/acetone/" ∈ layout.privatePrefixes := by
        rw [isCoTenant]
        exact List.mem_cons_of_mem _ (List.mem_cons_of_mem _ (List.mem_cons_of_mem _
          List.mem_cons_self))
      rw [List.any_eq_true.mpr ⟨_, listed, shared⟩, Bool.or_true, Bool.true_or]

/-- What a migration may swing is the graph's own. -/
theorem ownsRef_of_maySwing (built : layout.Built) {name : String}
    (allowed : migrateMaySwing layout name = true) : layout.ownsRef name = true := by
  rw [migrateMaySwing] at allowed
  split at allowed
  case isFalse => exact allowed
  case isTrue =>
    have isWorkspace : name = worktreeWorkspaceRef := by simpa using allowed
    have notHeads : startsWith worktreeWorkspaceRef "refs/heads/" = false := by decide
    have notTags : startsWith worktreeWorkspaceRef "refs/tags/" = false := by decide
    have notHead : worktreeWorkspaceRef ≠ "HEAD" := by decide
    simp only [isWorkspace, GraphRefNamespace.ownsRef, notHeads, notTags, notHead,
      Bool.false_eq_true, if_false, workspace_owned built]

/-- A swing that recovery must not make or cannot make. -/
def Refusable (git : GitBackend) (layout : GraphRefNamespace) (world : RefWorld)
    (swing : RefSwing) : Prop :=
  layout.ownsRef swing.name = false ∨ world.containsObject git swing.new = false ∨
    ¬ world.Holds swing.name swing.expected ∧ ¬ world.Holds swing.name (some swing.new)

theorem recoverPending_refuses (built : layout.Built) {swings : List RefSwing}
    (pending : pendingMigration git layout world = .ok (some swings)) {swing : RefSwing}
    (member : swing ∈ swings) (refusable : Refusable git layout world swing) :
    ∃ reason, recoverPending git layout world = (.error reason, world) := by
  rw [recoverPending, pending]
  cases checked : validateJournalSwings git layout world swings with
  | error reason => exact ⟨reason, by simp only [checked]⟩
  | ok _ =>
      obtain ⟨allowed, present⟩ := validateJournalSwings_eq_ok.mp checked swing member
      cases left : remainingSwings git layout world swings with
      | error reason => exact ⟨reason, by simp only [checked, left]⟩
      | ok remaining =>
          have placed := ((remainingSwings_eq_ok.mp left).1 swing member).2
          rcases refusable with foreign | missing | moved
          · rw [ownsRef_of_maySwing built allowed] at foreign
            cases foreign
          · rw [present] at missing
            cases missing
          · exact (placed.elim moved.2 moved.1).elim

variable (git layout world)

/-- What the rewriting of the objects yields: the new target of each ref's
target, and the tree of a workspace that is not virtual. -/
structure Rewritten where
  image : Hash → Hash
  workspace : Option Hash

/-- The swings of branches and tags; a target that is its own image stays. -/
def refSwings (rewritten : Rewritten) : List RefSwing :=
  (world.listRefs git layout.branchPrefix ++ world.listRefs git layout.tagPrefix).filterMap
    fun entry =>
      if rewritten.image entry.2 ≠ entry.2 then
        some ⟨entry.1, some entry.2, rewritten.image entry.2⟩
      else none

def planSwings (rewritten : Rewritten) : Except MigrateError (List RefSwing) :=
  match rewritten.workspace with
  | none => .ok (refSwings git layout world rewritten)
  | some tree => do
      let current ← world.readRef git worktreeWorkspaceRef
      if current ≠ some tree then
        .ok (refSwings git layout world rewritten ++ [⟨worktreeWorkspaceRef, current, tree⟩])
      else .ok (refSwings git layout world rewritten)

end

section

variable {git : GitBackend} {layout : GraphRefNamespace} {world : RefWorld}

private theorem startsWith_stem (stem middle rest : String) :
    startsWith (stem ++ middle ++ rest) stem = true := by
  rw [String.append_assoc]
  exact startsWith_self_append _ _

private theorem hierarchies (built : layout.Built) :
    startsWith layout.branchPrefix "refs/heads/" = true ∧
      startsWith layout.tagPrefix "refs/tags/" = true ∧
      startsWith layout.migrateJournalRef "refs/acetone/" = true := by
  rcases built with isStandalone | ⟨graph, isCoTenant⟩
  · rw [isStandalone]
    decide
  · have heads : startsWith "refs/heads/acetone/" "refs/heads/" = true := by decide
    have tags : startsWith "refs/tags/acetone/" "refs/tags/" = true := by decide
    rw [isCoTenant]
    exact ⟨startsWith_trans (startsWith_stem _ graph _) heads,
      startsWith_trans (startsWith_stem _ graph _) tags, startsWith_stem _ graph _⟩

theorem mem_listRefs {hierarchy name : String} {id : Hash} :
    (name, id) ∈ world.listRefs git hierarchy ↔
      world.Holds name (some id) ∧ startsWith name hierarchy = true ∧ git.legal name = true := by
  rw [RefWorld.listRefs, List.mem_filterMap]
  constructor
  · rintro ⟨⟨stored, target⟩, member, listed⟩
    cases target with
    | symbolic other => cases listed
    | object stands =>
        dsimp only at listed
        split at listed
        case isTrue under =>
          cases listed
          exact ⟨SortedMap.get_eq_some_iff.mpr member, (Bool.and_eq_true _ _).mp under⟩
        case isFalse => cases listed
  · rintro ⟨holds, under, legal⟩
    refine ⟨(name, .object id), SortedMap.get_eq_some_iff.mp holds, ?_⟩
    dsimp only
    rw [if_pos (by rw [under, legal]; rfl)]

private theorem map_filterMap_sublist {α β γ : Type} {f : α → Option β} {name : β → γ}
    {origin : α → γ} (kept : ∀ item picked, f item = some picked → name picked = origin item)
    (items : List α) : ((items.filterMap f).map name).Sublist (items.map origin) := by
  induction items with
  | nil => exact .slnil
  | cons item items ih =>
      cases picked : f item with
      | none =>
          rw [List.filterMap_cons_none picked]
          exact ih.cons _
      | some one =>
          rw [List.filterMap_cons_some picked, List.map_cons, List.map_cons,
            kept item one picked]
          exact ih.cons_cons _

theorem listRefs_nodup (hierarchy : String) :
    ((world.listRefs git hierarchy).map Prod.fst).Nodup := by
  have kept : ((world.listRefs git hierarchy).map Prod.fst).Sublist world.refs.keys := by
    apply map_filterMap_sublist
    rintro ⟨name, target⟩ picked listed
    cases target with
    | symbolic other => cases listed
    | object id =>
        dsimp only at listed
        split at listed <;> cases listed
        rfl
  exact kept.nodup world.refs.keys_nodup

/-- What the swings of a plan have in common when it is made. -/
structure WellPlanned (git : GitBackend) (layout : GraphRefNamespace) (plan : List RefSwing)
    (world : RefWorld) : Prop where
  named : ∀ swing ∈ plan, RefWorld.Named git swing.name
  apart : (plan.map RefSwing.name).Nodup
  aside : ∀ swing ∈ plan, swing.name ≠ layout.migrateJournalRef
  moves : ∀ swing ∈ plan, swing.expected ≠ some swing.new
  unmoved : ∀ swing ∈ plan, world.Holds swing.name swing.expected

private theorem mem_refSwings {rewritten : Rewritten} {swing : RefSwing}
    (member : swing ∈ refSwings git layout world rewritten) :
    (startsWith swing.name layout.branchPrefix = true ∨
        startsWith swing.name layout.tagPrefix = true) ∧ git.legal swing.name = true ∧
      world.Holds swing.name swing.expected ∧ swing.expected ≠ some swing.new := by
  obtain ⟨⟨name, id⟩, listed, isSwing⟩ := List.mem_filterMap.mp member
  dsimp only at isSwing
  split at isSwing
  case isFalse => cases isSwing
  case isTrue changed =>
    cases isSwing
    have moves : some id ≠ some (rewritten.image id) :=
      fun same => changed (Option.some.inj same).symm
    rcases List.mem_append.mp listed with branch | tag
    · obtain ⟨holds, under, legal⟩ := mem_listRefs.mp branch
      exact ⟨.inl under, legal, holds, moves⟩
    · obtain ⟨holds, under, legal⟩ := mem_listRefs.mp tag
      exact ⟨.inr under, legal, holds, moves⟩

private theorem refSwings_nodup (built : layout.Built) (rewritten : Rewritten) :
    ((refSwings git layout world rewritten).map RefSwing.name).Nodup := by
  have kept : ((refSwings git layout world rewritten).map RefSwing.name).Sublist
      ((world.listRefs git layout.branchPrefix ++
        world.listRefs git layout.tagPrefix).map Prod.fst) := by
    apply map_filterMap_sublist
    intro entry picked isPicked
    split at isPicked <;> cases isPicked
    rfl
  refine kept.nodup ?_
  rw [List.map_append, List.nodup_append]
  refine ⟨listRefs_nodup _, listRefs_nodup _, ?_⟩
  rintro name branch _ tag rfl
  obtain ⟨⟨_, id⟩, isBranch, rfl⟩ := List.mem_map.mp branch
  obtain ⟨⟨_, other⟩, isTag, rfl⟩ := List.mem_map.mp tag
  obtain ⟨heads, tags, -⟩ := hierarchies built
  have apart := startsWith_comparable (startsWith_trans (mem_listRefs.mp isBranch).2.1 heads)
    (startsWith_trans (mem_listRefs.mp isTag).2.1 tags)
  revert apart
  decide

private theorem named_of_under {name stem : String} (under : startsWith name stem = true)
    (inRefs : startsWith stem "refs/" = true) (legal : git.legal name = true) :
    RefWorld.Named git name := by
  rw [RefWorld.Named, RefWorld.validatedRefName, startsWith_trans under inRefs, legal]
  rfl

private theorem ne_journal_of_under (built : layout.Built) {name stem : String}
    (under : startsWith name stem = true) (apart : startsWith stem "refs/acetone/" = false)
    (apartToo : startsWith "refs/acetone/" stem = false) :
    name ≠ layout.migrateJournalRef := by
  rintro rfl
  rcases startsWith_comparable under (hierarchies built).2.2 with below | above
  · rw [apart] at below
    cases below
  · rw [apartToo] at above
    cases above

private theorem wellPlanned_refSwings (built : layout.Built) (rewritten : Rewritten) :
    WellPlanned git layout (refSwings git layout world rewritten) world := by
  obtain ⟨heads, tags, -⟩ := hierarchies built
  have under : ∀ swing ∈ refSwings git layout world rewritten,
      startsWith swing.name "refs/heads/" = true ∨ startsWith swing.name "refs/tags/" = true := by
    intro swing member
    exact (mem_refSwings member).1.imp (startsWith_trans · heads) (startsWith_trans · tags)
  refine ⟨?_, refSwings_nodup built rewritten, ?_, fun swing member =>
    (mem_refSwings member).2.2.2, fun swing member => (mem_refSwings member).2.2.1⟩
  · intro swing member
    rcases under swing member with branch | tag
    · exact named_of_under branch (by decide) (mem_refSwings member).2.1
    · exact named_of_under tag (by decide) (mem_refSwings member).2.1
  · intro swing member
    rcases under swing member with branch | tag
    · exact ne_journal_of_under built branch (by decide) (by decide)
    · exact ne_journal_of_under built tag (by decide) (by decide)

/-- The workspace is no branch and no tag. -/
private theorem workspace_not_in_refSwings (built : layout.Built) {rewritten : Rewritten}
    {swing : RefSwing} (member : swing ∈ refSwings git layout world rewritten) :
    swing.name ≠ worktreeWorkspaceRef := by
  intro isWorkspace
  obtain ⟨heads, tags, -⟩ := hierarchies built
  have under := (mem_refSwings member).1.imp (startsWith_trans · heads) (startsWith_trans · tags)
  rw [isWorkspace] at under
  revert under
  decide

theorem wellPlanned_of_planSwings (built : layout.Built) {rewritten : Rewritten}
    {plan : List RefSwing} (planned : planSwings git layout world rewritten = .ok plan) :
    WellPlanned git layout plan world := by
  have refs := @wellPlanned_refSwings git layout world built rewritten
  rw [planSwings] at planned
  cases isVirtual : rewritten.workspace with
  | none =>
      rw [isVirtual] at planned
      cases planned
      exact refs
  | some tree =>
      simp only [isVirtual, bind_eq_ok] at planned
      obtain ⟨current, read, planned⟩ := planned
      obtain ⟨named, holds⟩ := RefWorld.readRef_eq_ok.mp read
      split at planned
      case isFalse =>
        cases planned
        exact refs
      case isTrue changed =>
        cases planned
        have aside : worktreeWorkspaceRef ≠ layout.migrateJournalRef :=
          ne_journal_of_under built (by decide : startsWith _ "refs/worktree/" = true)
            (by decide) (by decide)
        have each : ∀ {holds : RefSwing → Prop},
            (∀ swing ∈ refSwings git layout world rewritten, holds swing) →
            holds ⟨worktreeWorkspaceRef, current, tree⟩ →
            ∀ swing ∈ refSwings git layout world rewritten ++
              [⟨worktreeWorkspaceRef, current, tree⟩], holds swing := by
          intro holds ofRefs ofWorkspace swing member
          rcases List.mem_append.mp member with inRefs | isWorkspace
          · exact ofRefs swing inRefs
          · exact List.mem_singleton.mp isWorkspace ▸ ofWorkspace
        refine ⟨each refs.named named, ?_, each refs.aside aside, each refs.moves changed,
          each refs.unmoved holds⟩
        rw [List.map_append, List.nodup_append]
        refine ⟨refs.apart, List.nodup_singleton _, ?_⟩
        rintro name inRefs _ isWorkspace rfl
        obtain ⟨swing, member, isName⟩ := List.mem_map.mp inRefs
        exact workspace_not_in_refSwings built member
          (isName.trans (List.mem_singleton.mp isWorkspace))

end

inductive MigratePhase where
  | preparing
  | journalled
  | swung
  | finished
  | down
  | recovering (remaining : List RefSwing)
  | recovered
deriving DecidableEq

structure MigrateState where
  phase : MigratePhase
  world : RefWorld

section

variable (git : GitBackend) (layout : GraphRefNamespace) (plan : List RefSwing)

/-- Someone else's work: it moves neither a planned ref nor the journal, and
takes no object away. -/
structure Elsewhere (world next : RefWorld) : Prop where
  planned : ∀ swing ∈ plan, next.refs.get swing.name = world.refs.get swing.name
  journal : next.refs.get layout.migrateJournalRef = world.refs.get layout.migrateJournalRef
  kept : world.objects ⊆ next.objects

/-- One step of a migration, of its recovery, of its end, or of someone else. -/
inductive MigrateStep : MigrateState → MigrateState → Prop
  | write {world : RefWorld} (object : GitObject) :
      MigrateStep ⟨.preparing, world⟩ ⟨.preparing, world.add object⟩
  | idle {world : RefWorld} (empty : plan = []) :
      MigrateStep ⟨.preparing, world⟩ ⟨.finished, world⟩
  | journal {world stored next : RefWorld} {blob : Hash} (filled : plan ≠ [])
      (valid : validateJournalSwings git layout world plan = .ok ())
      (put : world.putBlob git (encodeJournal plan) = .ok (blob, stored))
      (written : stored.writeRef git ⟨layout.migrateJournalRef, none, blob⟩ = .ok next) :
      MigrateStep ⟨.preparing, world⟩ ⟨.journalled, next⟩
  | swing {world next : RefWorld} (written : world.writeRefsAtomic git plan = .ok next) :
      MigrateStep ⟨.journalled, world⟩ ⟨.swung, next⟩
  | clear {world next : RefWorld}
      (deleted : world.deleteRef git layout.migrateJournalRef = .ok next) :
      MigrateStep ⟨.swung, world⟩ ⟨.finished, next⟩
  | crash {phase : MigratePhase} {world : RefWorld} :
      MigrateStep ⟨phase, world⟩ ⟨.down, world⟩
  | tear {world next : RefWorld} {applied : List RefSwing}
      (written : world.writeRefsAtomic git plan = .ok next) (part : applied.Sublist plan) :
      MigrateStep ⟨.journalled, world⟩ ⟨.down, world.applySwings applied⟩
  | recover {world : RefWorld} {swings remaining : List RefSwing}
      (pending : pendingMigration git layout world = .ok (some swings))
      (valid : validateJournalSwings git layout world swings = .ok ())
      (left : remainingSwings git layout world swings = .ok remaining) :
      MigrateStep ⟨.down, world⟩ ⟨.recovering remaining, world⟩
  | resume {remaining : List RefSwing} {world next : RefWorld}
      (written : world.writeRefsAtomic git remaining = .ok next) :
      MigrateStep ⟨.recovering remaining, world⟩ ⟨.recovered, next⟩
  | tearAgain {remaining applied : List RefSwing} {world next : RefWorld}
      (written : world.writeRefsAtomic git remaining = .ok next)
      (part : applied.Sublist remaining) :
      MigrateStep ⟨.recovering remaining, world⟩ ⟨.down, world.applySwings applied⟩
  | clearAgain {world next : RefWorld}
      (deleted : world.deleteRef git layout.migrateJournalRef = .ok next) :
      MigrateStep ⟨.recovered, world⟩ ⟨.finished, next⟩
  | elsewhere {phase : MigratePhase} {world next : RefWorld}
      (other : Elsewhere layout plan world next) :
      MigrateStep ⟨phase, world⟩ ⟨phase, next⟩

/-- The states of a migration of `plan`, while ids tell objects apart. -/
inductive MigrateReaches (start : RefWorld) : MigrateState → Prop
  | start : MigrateReaches start ⟨.preparing, start⟩
  | step {state next : MigrateState} (before : MigrateReaches start state)
      (moves : MigrateStep git layout plan state next)
      (free : next.world.CollisionFree git) : MigrateReaches start next

end

section

variable {git : GitBackend} {layout : GraphRefNamespace} {plan : List RefSwing}
  {world next : RefWorld}

/-- The journal holds the plan, and every planned ref is at one end of its swing. -/
structure Journalled (git : GitBackend) (layout : GraphRefNamespace) (plan : List RefSwing)
    (world : RefWorld) : Prop where
  named : RefWorld.Named git layout.migrateJournalRef
  entry : world.Holds layout.migrateJournalRef
    (some (git.identify ⟨.blob, encodeJournal plan⟩))
  blob : ⟨.blob, encodeJournal plan⟩ ∈ world.objects
  fits : (encodeJournal plan).length ≤ git.maxChunkSize
  valid : ∀ swing ∈ plan, migrateMaySwing layout swing.name = true ∧
    world.containsObject git swing.new = true
  placed : ∀ swing ∈ plan, Swung world swing ∨ world.Holds swing.name swing.expected

/-- There is no journal, and the refs have not moved or have all moved. -/
structure Cleared (layout : GraphRefNamespace) (world : RefWorld)
    (each : RefSwing → Prop) (plan : List RefSwing) : Prop where
  clear : world.Holds layout.migrateJournalRef none
  all : ∀ swing ∈ plan, each swing

def Untouched (layout : GraphRefNamespace) (plan : List RefSwing) (world : RefWorld) : Prop :=
  Cleared layout world (fun swing => world.Holds swing.name swing.expected) plan

def Completed (layout : GraphRefNamespace) (plan : List RefSwing) (world : RefWorld) : Prop :=
  Cleared layout world (Swung world) plan

/-- What holds in each phase. -/
def MigrateInv (git : GitBackend) (layout : GraphRefNamespace) (plan : List RefSwing)
    (state : MigrateState) : Prop :=
  match state.phase with
  | .preparing => Untouched layout plan state.world
  | .journalled => Journalled git layout plan state.world
  | .swung | .recovered =>
      Journalled git layout plan state.world ∧ ∀ swing ∈ plan, Swung state.world swing
  | .finished => Completed layout plan state.world
  | .down =>
      Journalled git layout plan state.world ∨ Untouched layout plan state.world ∨
        Completed layout plan state.world
  | .recovering remaining =>
      Journalled git layout plan state.world ∧ remaining.Sublist plan ∧
        ∀ swing ∈ plan, swing ∉ remaining → Swung state.world swing

theorem Journalled.pending (plain : ∀ name, git.legal name = true → PlainName name)
    (wellPlanned : ∀ swing ∈ plan, RefWorld.Named git swing.name)
    (free : world.CollisionFree git) (journalled : Journalled git layout plan world) :
    pendingMigration git layout world = .ok (some plan) := by
  have plainNames : ∀ swing ∈ plan, PlainName swing.name := by
    intro swing member
    have named := wellPlanned swing member
    rw [RefWorld.Named, RefWorld.validatedRefName] at named
    split at named
    case isTrue legal => exact plain _ ((Bool.and_eq_true _ _).mp legal).2
    case isFalse => cases named
  rw [pendingMigration, RefWorld.readRef_eq_ok.mpr ⟨journalled.named, journalled.entry⟩]
  refine bind_eq_ok.mpr ⟨_, rfl, ?_⟩
  refine bind_eq_ok.mpr ⟨_, RefWorld.getBlob_of_mem free journalled.blob journalled.fits, ?_⟩
  exact congrArg (Except.map some) (decodeJournal_encodeJournal plainNames)

theorem Journalled.transport (journalled : Journalled git layout plan world)
    (same : next.refs.get layout.migrateJournalRef = world.refs.get layout.migrateJournalRef)
    (kept : world.objects ⊆ next.objects)
    (placed : ∀ swing ∈ plan, Swung next swing ∨ next.Holds swing.name swing.expected) :
    Journalled git layout plan next where
  named := journalled.named
  entry := (RefWorld.holds_congr same).mpr journalled.entry
  blob := kept journalled.blob
  fits := journalled.fits
  valid swing member := by
    obtain ⟨allowed, present⟩ := journalled.valid swing member
    exact ⟨allowed, RefWorld.containsObject_mono kept present⟩
  placed := placed

/-- A batch of planned swings leaves the journal alone. -/
theorem Journalled.applySwings (apart : (plan.map RefSwing.name).Nodup)
    (aside : ∀ swing ∈ plan, swing.name ≠ layout.migrateJournalRef)
    (journalled : Journalled git layout plan world) {applied : List RefSwing}
    (part : applied.Sublist plan) :
    Journalled git layout plan (world.applySwings applied) := by
  apply journalled.transport
  · apply RefWorld.get_applySwings_of_absent
    intro inBatch
    obtain ⟨swing, member, isJournal⟩ := List.mem_map.mp inBatch
    exact aside swing (part.subset member) isJournal
  · rw [RefWorld.objects_applySwings]
    exact List.Subset.refl _
  · intro swing member
    by_cases inBatch : swing.name ∈ applied.map RefSwing.name
    · obtain ⟨other, isApplied, sameName⟩ := List.mem_map.mp inBatch
      have isSwing : other = swing :=
        List.inj_on_of_nodup_map apart (part.subset isApplied) member sameName
      subst isSwing
      exact .inl (RefWorld.holds_applySwings ((part.map _).nodup apart) isApplied)
    · have same := @RefWorld.get_applySwings_of_absent world _ _ inBatch
      exact (journalled.placed swing member).imp (RefWorld.holds_congr same).mpr
        (RefWorld.holds_congr same).mpr

theorem Cleared.transport {each after : RefSwing → Prop} (cleared : Cleared layout world each plan)
    (same : next.refs.get layout.migrateJournalRef = world.refs.get layout.migrateJournalRef)
    (imp : ∀ swing ∈ plan, each swing → after swing) : Cleared layout next after plan :=
  ⟨(RefWorld.holds_congr same).mpr cleared.clear,
    fun swing member => imp swing member (cleared.all swing member)⟩

private theorem Elsewhere.inv {phase : MigratePhase} (other : Elsewhere layout plan world next)
    (inv : MigrateInv git layout plan ⟨phase, world⟩) :
    MigrateInv git layout plan ⟨phase, next⟩ := by
  have stays : ∀ swing ∈ plan, ∀ value, world.Holds swing.name value →
      next.Holds swing.name value := fun swing member _ =>
    (RefWorld.holds_congr (other.planned swing member)).mpr
  have journal : Journalled git layout plan world → Journalled git layout plan next := by
    intro journalled
    apply journalled.transport other.journal other.kept
    intro swing member
    exact (journalled.placed swing member).imp (stays swing member _) (stays swing member _)
  have untouched : Untouched layout plan world → Untouched layout plan next := fun cleared =>
    cleared.transport other.journal fun swing member => stays swing member _
  have completed : Completed layout plan world → Completed layout plan next := fun cleared =>
    cleared.transport other.journal fun swing member => stays swing member _
  cases phase with
  | preparing => exact untouched inv
  | journalled => exact journal inv
  | swung => exact ⟨journal inv.1, fun swing member => stays swing member _ (inv.2 swing member)⟩
  | finished => exact completed inv
  | down => exact inv.imp journal (Or.imp untouched completed)
  | recovering remaining =>
      exact ⟨journal inv.1, inv.2.1, fun swing member absent =>
        stays swing member _ (inv.2.2 swing member absent)⟩
  | recovered =>
      exact ⟨journal inv.1, fun swing member => stays swing member _ (inv.2 swing member)⟩

private theorem inv_crash {phase : MigratePhase}
    (inv : MigrateInv git layout plan ⟨phase, world⟩) :
    MigrateInv git layout plan ⟨.down, world⟩ := by
  cases phase with
  | preparing => exact .inr (.inl inv)
  | journalled => exact .inl inv
  | swung => exact .inl inv.1
  | finished => exact .inr (.inr inv)
  | down => exact inv
  | recovering remaining => exact .inl inv.1
  | recovered => exact .inl inv.1

private theorem journalled_of_written {stored : RefWorld} {blob : Hash}
    (untouched : Untouched layout plan world)
    (aside : ∀ swing ∈ plan, swing.name ≠ layout.migrateJournalRef)
    (valid : validateJournalSwings git layout world plan = .ok ())
    (put : world.putBlob git (encodeJournal plan) = .ok (blob, stored))
    (written : stored.writeRef git ⟨layout.migrateJournalRef, none, blob⟩ = .ok next) :
    Journalled git layout plan next := by
  obtain ⟨fits, rfl, rfl⟩ := RefWorld.putBlob_eq_ok.mp put
  obtain ⟨named, -, rfl⟩ := RefWorld.writeRef_eq_ok.mp written
  have kept : world.objects ⊆ (world.add ⟨.blob, encodeJournal plan⟩).objects :=
    List.subset_append_left _ _
  refine ⟨named, ?_, List.mem_append_right _ (List.mem_singleton_self _), fits, ?_, ?_⟩
  · exact (SortedMap.get_put ..).trans (if_pos rfl)
  · intro swing member
    obtain ⟨allowed, present⟩ := validateJournalSwings_eq_ok.mp valid swing member
    exact ⟨allowed, RefWorld.containsObject_mono kept present⟩
  · intro swing member
    refine .inr (Eq.trans ?_ (untouched.all swing member))
    exact (SortedMap.get_put ..).trans (if_neg (Ne.symm (aside swing member)))

private theorem completed_of_deleted (journalled : Journalled git layout plan world)
    (swung : ∀ swing ∈ plan, Swung world swing)
    (aside : ∀ swing ∈ plan, swing.name ≠ layout.migrateJournalRef)
    (deleted : world.deleteRef git layout.migrateJournalRef = .ok next) :
    Completed layout plan next := by
  rw [RefWorld.deleteRef_of_holds journalled.named journalled.entry] at deleted
  cases deleted
  constructor
  · exact (SortedMap.get_delete ..).trans (if_pos rfl)
  · intro swing member
    refine Eq.trans ?_ (swung swing member)
    exact (SortedMap.get_delete ..).trans (if_neg (Ne.symm (aside swing member)))

private theorem swung_of_remaining {remaining : List RefSwing}
    (apart : (plan.map RefSwing.name).Nodup) (part : remaining.Sublist plan)
    (others : ∀ swing ∈ plan, swing ∉ remaining → Swung world swing) :
    ∀ swing ∈ plan, Swung (world.applySwings remaining) swing := by
  intro swing member
  by_cases left : swing ∈ remaining
  · exact RefWorld.holds_applySwings ((part.map _).nodup apart) left
  · have absent : swing.name ∉ remaining.map RefSwing.name := by
      intro inBatch
      obtain ⟨other, isLeft, sameName⟩ := List.mem_map.mp inBatch
      exact left (List.inj_on_of_nodup_map apart (part.subset isLeft) member sameName ▸ isLeft)
    exact (RefWorld.holds_congr (RefWorld.get_applySwings_of_absent absent)).mpr
      (others swing member left)

private theorem remaining_of_pending {swings remaining : List RefSwing}
    (pending : pendingMigration git layout world = .ok (some plan))
    (read : pendingMigration git layout world = .ok (some swings))
    (left : remainingSwings git layout world swings = .ok remaining) :
    remaining.Sublist plan ∧ ∀ swing ∈ plan, swing ∉ remaining → Swung world swing := by
  rw [pending] at read
  cases read
  obtain ⟨-, rfl⟩ := remainingSwings_eq_ok.mp left
  refine ⟨List.filter_sublist, ?_⟩
  intro swing member absent
  by_contra notSwung
  exact absent (List.mem_filter.mpr ⟨member, decide_eq_true notSwung⟩)

private theorem pending_of_clear {found : Option (List RefSwing)}
    (clear : world.Holds layout.migrateJournalRef none)
    (pending : pendingMigration git layout world = .ok found) : found = none := by
  obtain ⟨value, read, rest⟩ := bind_eq_ok.mp pending
  rw [(RefWorld.readRef_eq_ok.mp read).2.unique clear] at rest
  exact (Except.ok.inj rest).symm

section Plan

variable {start : RefWorld} (plain : ∀ name, git.legal name = true → PlainName name)
  (planned : WellPlanned git layout plan start)

include plain planned

theorem MigrateStep.inv {state next : MigrateState} (free : state.world.CollisionFree git)
    (step : MigrateStep git layout plan state next) (inv : MigrateInv git layout plan state) :
    MigrateInv git layout plan next := by
  cases step with
  | write object => exact inv.transport rfl fun _ _ holds => holds
  | idle empty =>
      refine ⟨inv.clear, ?_⟩
      rw [empty]
      exact nofun
  | journal filled valid put written =>
      exact journalled_of_written inv planned.aside valid put written
  | swing written =>
      obtain ⟨-, -, rfl⟩ := RefWorld.writeRefsAtomic_eq_ok.mp written
      exact ⟨inv.applySwings planned.apart planned.aside (List.Sublist.refl _),
        fun swing member => RefWorld.holds_applySwings planned.apart member⟩
  | clear deleted => exact completed_of_deleted inv.1 inv.2 planned.aside deleted
  | crash => exact inv_crash inv
  | tear _ part => exact .inl (inv.applySwings planned.apart planned.aside part)
  | recover pending _ left =>
      rcases inv with journalled | untouched | completed
      · exact ⟨journalled, remaining_of_pending (journalled.pending plain planned.named free)
          pending left⟩
      · cases pending_of_clear untouched.clear pending
      · cases pending_of_clear completed.clear pending
  | resume written =>
      obtain ⟨-, -, rfl⟩ := RefWorld.writeRefsAtomic_eq_ok.mp written
      exact ⟨inv.1.applySwings planned.apart planned.aside inv.2.1,
        swung_of_remaining planned.apart inv.2.1 inv.2.2⟩
  | tearAgain _ part =>
      exact .inl (inv.1.applySwings planned.apart planned.aside (part.trans inv.2.1))
  | clearAgain deleted => exact completed_of_deleted inv.1 inv.2 planned.aside deleted
  | elsewhere other => exact other.inv inv

theorem MigrateReaches.inv {state : MigrateState} (startFree : start.CollisionFree git)
    (noJournal : start.Holds layout.migrateJournalRef none)
    (reaches : MigrateReaches git layout plan start state) :
    MigrateInv git layout plan state ∧ state.world.CollisionFree git := by
  induction reaches with
  | start => exact ⟨⟨noJournal, planned.unmoved⟩, startFree⟩
  | step _ moves free ih => exact ⟨moves.inv plain planned ih.2 ih.1, free⟩

theorem recoverPending_of_journalled (free : world.CollisionFree git)
    (journalled : Journalled git layout plan world) :
    ∃ done, recoverPending git layout world = (.ok true, done) ∧ Completed layout plan done := by
  have pending := journalled.pending plain planned.named free
  have valid := validateJournalSwings_eq_ok.mpr journalled.valid
  obtain ⟨remaining, left⟩ : ∃ remaining,
      remainingSwings git layout world plan = .ok remaining :=
    ⟨_, remainingSwings_eq_ok.mpr ⟨fun swing member =>
      ⟨planned.named swing member, journalled.placed swing member⟩, rfl⟩⟩
  obtain ⟨part, others⟩ := remaining_of_pending pending pending left
  have expected : ∀ swing ∈ remaining, world.Holds swing.name swing.expected := by
    intro swing member
    obtain ⟨-, rfl⟩ := remainingSwings_eq_ok.mp left
    obtain ⟨inPlan, notSwung⟩ := List.mem_filter.mp member
    exact (journalled.placed swing inPlan).resolve_left (of_decide_eq_true notSwung)
  have moved : world.writeRefsAtomic git remaining = .ok (world.applySwings remaining) :=
    RefWorld.writeRefsAtomic_eq_ok.mpr ⟨fun swing member =>
      ⟨planned.named swing (part.subset member), expected swing member⟩,
      (part.map _).nodup planned.apart, rfl⟩
  have after := journalled.applySwings planned.apart planned.aside part
  have cleared := RefWorld.deleteRef_of_holds after.named after.entry
  refine ⟨_, ?_, completed_of_deleted after
    (swung_of_remaining planned.apart part others) planned.aside cleared⟩
  simp only [recoverPending, pending, valid, left, moved, cleared]

end Plan

end

/-- What holds of a migration that may die, and be recovered, any number of
times.  A plan that is only partly carried out stands in the journal; recovery
finishes every journalled plan, and leaves a repository without a journal, where
all planned refs are old or all are new, as it is. -/
structure CrashSafe (git : GitBackend) (layout : GraphRefNamespace) (plan : List RefSwing)
    (world : RefWorld) : Prop where
  detected : ∀ moved ∈ plan, ∀ unmoved ∈ plan, Swung world moved → ¬ Swung world unmoved →
    pendingMigration git layout world = .ok (some plan)
  finished : ∀ blob, world.Holds layout.migrateJournalRef (some blob) →
    ∃ done, recoverPending git layout world = (.ok true, done) ∧ Completed layout plan done
  cleared : world.Holds layout.migrateJournalRef none →
    (Untouched layout plan world ∨ Completed layout plan world) ∧
      ∀ outcome done, recoverPending git layout world = (outcome, done) → done = world

section

variable {git : GitBackend} {layout : GraphRefNamespace}

private theorem clear_of_recovered {before start : RefWorld} {found : Bool}
    (recovered : recoverPending git layout before = (.ok found, start)) :
    start.Holds layout.migrateJournalRef none := by
  rw [recoverPending] at recovered
  split at recovered
  case h_1 => cases recovered
  case h_2 pending =>
    cases recovered
    obtain ⟨value, read, rest⟩ := bind_eq_ok.mp pending
    obtain ⟨-, holds⟩ := RefWorld.readRef_eq_ok.mp read
    cases value with
    | none => exact holds
    | some blob =>
        obtain ⟨data, -, decoded⟩ := bind_eq_ok.mp rest
        cases data with
        | none => cases decoded
        | some data => cases isDecoded : decodeJournal data <;> simp [isDecoded, Except.map] at decoded
  case h_3 =>
    split at recovered
    case h_1 => cases recovered
    case h_2 =>
      split at recovered
      case h_1 => cases recovered
      case h_2 =>
        split at recovered
        case h_1 => cases recovered
        case h_2 =>
          split at recovered
          case h_1 => cases recovered
          case h_2 deleted =>
            cases recovered
            exact RefWorld.clear_of_deleteRef deleted

private theorem recoverPending_of_clear {world : RefWorld}
    (clear : world.Holds layout.migrateJournalRef none) :
    (recoverPending git layout world).2 = world := by
  rw [recoverPending]
  cases pending : pendingMigration git layout world with
  | error reason => rfl
  | ok found =>
      rw [pending_of_clear clear pending]

/-- A migration is crash-safe, and recovery refuses, without moving anything, a
journal with a swing that is not the graph's to make, leads to no object, or
starts from a ref that has moved elsewhere. -/
theorem migration_crash_safe (plain : ∀ name, git.legal name = true → PlainName name)
    (built : layout.Built) {before start : RefWorld} {found : Bool} {rewritten : Rewritten}
    {plan : List RefSwing}
    (recovered : recoverPending git layout before = (.ok found, start))
    (free : start.CollisionFree git)
    (planned : planSwings git layout start rewritten = .ok plan) :
    (∀ state, MigrateReaches git layout plan start state →
        CrashSafe git layout plan state.world) ∧
      ∀ world swings, pendingMigration git layout world = .ok (some swings) →
        ∀ swing ∈ swings, Refusable git layout world swing →
          ∃ reason, recoverPending git layout world = (.error reason, world) := by
  have wellPlanned := wellPlanned_of_planSwings built planned
  refine ⟨?_, fun world swings pending swing member => recoverPending_refuses built pending member⟩
  intro state reaches
  obtain ⟨inv, stateFree⟩ := reaches.inv plain wellPlanned free (clear_of_recovered recovered)
  rcases inv_crash inv with journalled | untouched | completed
  · constructor
    · intro moved _ unmoved _ _ _
      exact journalled.pending plain wellPlanned.named stateFree
    · intro blob _
      exact recoverPending_of_journalled plain wellPlanned stateFree journalled
    · intro clear
      cases clear.unique journalled.entry
  · constructor
    · intro moved member _ _ swung
      have same := (untouched.all moved member).unique swung
      exact absurd same (wellPlanned.moves moved member)
    · intro blob holds
      cases holds.unique untouched.clear
    · intro clear
      refine ⟨.inl untouched, ?_⟩
      rintro outcome done result
      exact (congrArg Prod.snd result).symm.trans (recoverPending_of_clear clear)
  · constructor
    · intro _ _ unmoved member _ notSwung
      exact absurd (completed.all unmoved member) notSwung
    · intro blob holds
      cases holds.unique completed.clear
    · intro clear
      refine ⟨.inr completed, ?_⟩
      rintro outcome done result
      exact (congrArg Prod.snd result).symm.trans (recoverPending_of_clear clear)

end

private theorem sampleId_width (byte : UInt8) :
    (List.replicate 20 byte).length = 20 ∨ (List.replicate 20 byte).length = 32 :=
  .inl List.length_replicate

def sampleId (byte : UInt8) : Hash := ⟨List.replicate 20 byte, sampleId_width byte⟩

/-- A repository with a branch and a tag on one commit, and the commit's rewrite. -/
def sampleBackend : GitBackend where
  legal name := name ∈ ["refs/heads/main", "refs/tags/v1", "refs/acetone/migrate-journal"]
  identify object := sampleId (object.body.headD 0)
  maxChunkSize := 1000

def sampleRepository : RefWorld where
  refs := ⟨[("refs/heads/main", .object (sampleId 1)), ("refs/tags/v1", .object (sampleId 1))],
    List.pairwise_pair.mpr (by decide)⟩
  objects := [⟨.commit, [1]⟩, ⟨.commit, [2]⟩]

def sampleRewritten : Rewritten := ⟨fun _ => sampleId 2, none⟩

def samplePlan : List RefSwing :=
  [⟨"refs/heads/main", some (sampleId 1), sampleId 2⟩,
    ⟨"refs/tags/v1", some (sampleId 1), sampleId 2⟩]

private theorem sample_planned : planSwings sampleBackend .standalone sampleRepository sampleRewritten =
    .ok samplePlan := by
  rfl

private theorem sample_recovered : recoverPending sampleBackend .standalone sampleRepository =
    (.ok false, sampleRepository) := by rfl

private theorem sample_free : sampleRepository.CollisionFree sampleBackend := by
  unfold RefWorld.CollisionFree
  decide

private theorem sample_plain (name : String) (legal : sampleBackend.legal name = true) :
    PlainName name := by
  have listed : name = "refs/heads/main" ∨ name = "refs/tags/v1" ∨
      name = "refs/acetone/migrate-journal" := by
    simpa [sampleBackend] using legal
  rcases listed with rfl | rfl | rfl <;> refine ⟨⟨?_, ?_⟩, ?_⟩ <;> decide

def sampleJournalled : RefWorld :=
  (sampleRepository.add ⟨.blob, encodeJournal samplePlan⟩).applySwing
    ⟨"refs/acetone/migrate-journal", none,
      sampleBackend.identify ⟨.blob, encodeJournal samplePlan⟩⟩

private theorem sampleJournalled_free : sampleJournalled.CollisionFree sampleBackend := by
  unfold RefWorld.CollisionFree
  decide +kernel

private theorem sampleJournalled_reached :
    MigrateReaches sampleBackend .standalone samplePlan sampleRepository
      ⟨.journalled, sampleJournalled⟩ := by
  apply MigrateReaches.step .start _ sampleJournalled_free
  have valid : validateJournalSwings sampleBackend .standalone sampleRepository samplePlan =
      .ok () := by rfl
  have put : sampleRepository.putBlob sampleBackend (encodeJournal samplePlan) =
      .ok (sampleBackend.identify ⟨.blob, encodeJournal samplePlan⟩,
        sampleRepository.add ⟨.blob, encodeJournal samplePlan⟩) :=
    RefWorld.putBlob_eq_ok.mpr ⟨by decide +kernel, rfl, rfl⟩
  exact .journal (by decide) valid put (by rfl)

private theorem sampleTorn_reached :
    MigrateReaches sampleBackend .standalone samplePlan sampleRepository
      ⟨.down, sampleJournalled.applySwings (samplePlan.take 1)⟩ := by
  have written : sampleJournalled.writeRefsAtomic sampleBackend samplePlan =
      .ok (sampleJournalled.applySwings samplePlan) := by rfl
  exact .step sampleJournalled_reached (.tear written (List.take_sublist 1 samplePlan))
    sampleJournalled_free

theorem migration_crash_safe_torn :
    CrashSafe sampleBackend .standalone samplePlan
        (sampleJournalled.applySwings (samplePlan.take 1)) :=
  (migration_crash_safe sample_plain (.inl rfl) sample_recovered sample_free sample_planned).1 _
    sampleTorn_reached

/-- A migration that dies before its journal exists is not recovered: its refs
stay where they were. -/
theorem unjournalled_crash_stays_old :
    ¬ ∀ (git : GitBackend) (layout : GraphRefNamespace) (before start : RefWorld) (found : Bool)
        (rewritten : Rewritten) (plan : List RefSwing) (state : MigrateState),
      (∀ name, git.legal name = true → PlainName name) → layout.Built →
      recoverPending git layout before = (.ok found, start) → start.CollisionFree git →
      planSwings git layout start rewritten = .ok plan →
      MigrateReaches git layout plan start state →
      ∃ outcome done, recoverPending git layout state.world = (outcome, done) ∧
        Completed layout plan done := by
  intro always
  have crashed : MigrateReaches sampleBackend .standalone samplePlan sampleRepository
      ⟨.down, sampleRepository⟩ := .step .start .crash sample_free
  obtain ⟨outcome, done, result, completed⟩ := always _ _ _ _ _ _ _ _ sample_plain (.inl rfl)
    sample_recovered sample_free sample_planned crashed
  rw [sample_recovered] at result
  cases result
  have swung := completed.all _ List.mem_cons_self
  exact absurd swung (by decide)

end Acetone.Graph

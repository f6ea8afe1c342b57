import Mathlib.Logic.Function.Basic

/-!
# The writer lock of a worktree

Writers create the lock file exclusively, record themselves in it and remove it
when they are done; a writer that dies leaves it behind.  One daemon recovers
such a file: it reads it, probes the recorded process and removes what is then
at the path, one file-system step after the other.  Files are told apart by
their inode, which no process reads.
-/

namespace Acetone.Graph.WriterLock

abbrev Pid := Nat

/-- What a holder writes into its file. -/
structure HolderInfo where
  pid : Pid
  unixTime : Nat
  start : Option Nat

/-- A lock file; its holder may not have written into it. -/
structure LockFile where
  inode : Nat
  contents : Option HolderInfo

/-- Where a writer stands: the file exists from `opening` on, and the lock is
held once the holder's line has been attempted. -/
inductive Phase where
  | idle
  | opening (inode : Nat)
  | holding (inode : Nat)

/-- Where the daemon's recovery stands. -/
inductive Recovery where
  | idle
  | judging (inode : Nat) (info : HolderInfo)
  | removing (inode : Nat)

/-- The worktree and the processes around it.  A process that has died stays
dead: pids are not reused. -/
structure World where
  file : Option LockFile
  alive : Pid → Bool
  phase : Pid → Phase
  recovery : Recovery
  nextInode : Nat

/-- No lock file, every process alive and idle. -/
def initial : World := ⟨none, fun _ => true, fun _ => .idle, .idle, 0⟩

/-- A step of a writer or of the daemon's recovery. -/
inductive Event where
  | create (pid : Pid)
  | record (pid : Pid) (now : Nat) (written : Bool)
  | release (pid : Pid)
  | die (pid : Pid)
  | read
  | probe
  | remove

section

variable (startTimes : Pid → Option Nat) (daemon : Pid)

def processStartTime (world : World) (pid : Pid) : Option Nat :=
  if world.alive pid then startTimes pid else none

def parseLockPid (file : LockFile) : Option HolderInfo :=
  file.contents.filter fun info => 0 < info.pid

/-- The live process under the pid started at another time than the recorded
holder. -/
def recordedHolderIsDead (world : World) (info : HolderInfo) : Bool :=
  match info.start, processStartTime startTimes world info.pid with
  | some recorded, some actual => recorded ≠ actual
  | _, _ => false

def World.setPhase (world : World) (pid : Pid) (phase : Phase) : World :=
  { world with phase := Function.update world.phase pid phase }

/-- Write into a file through its handle; a file that is no longer at the path
is out of sight. -/
def writeContents (inode : Nat) (info : HolderInfo) (file : LockFile) : LockFile :=
  if file.inode = inode then { file with contents := some info } else file

/-- One step.  A step that its process cannot take now gives none. -/
def perform (world : World) : Event → Option World
  | .create pid =>
      match world.alive pid, world.phase pid with
      | true, .idle =>
          match world.file with
          | some _ => some world
          | none => some { world.setPhase pid (.opening world.nextInode) with
              file := some ⟨world.nextInode, none⟩, nextInode := world.nextInode + 1 }
      | _, _ => none
  | .record pid now written =>
      match world.alive pid, world.phase pid with
      | true, .opening inode =>
          let info : HolderInfo := ⟨pid, now, processStartTime startTimes world pid⟩
          some { world.setPhase pid (.holding inode) with
            file := if written then world.file.map (writeContents inode info) else world.file }
      | _, _ => none
  | .release pid =>
      match world.alive pid, world.phase pid with
      | true, .holding _ => some { world.setPhase pid .idle with file := none }
      | _, _ => none
  | .die pid =>
      if world.alive pid then
        some { world with alive := Function.update world.alive pid false }
      else none
  | .read =>
      match world.alive daemon, world.recovery with
      | true, .idle =>
          match world.file with
          | none => some world
          | some file =>
              match parseLockPid file with
              | none => some world
              | some info => some { world with recovery := .judging file.inode info }
      | _, _ => none
  | .probe =>
      match world.alive daemon, world.recovery with
      | true, .judging inode info =>
          if world.alive info.pid && !recordedHolderIsDead startTimes world info then
            some { world with recovery := .idle }
          else some { world with recovery := .removing inode }
      | _, _ => none
  | .remove =>
      match world.alive daemon, world.recovery with
      | true, .removing _ => some { world with file := none, recovery := .idle }
      | _, _ => none

/-- The worlds of every interleaving whose steps are allowed. -/
inductive Reachable (Allowed : World → Event → Prop) : World → Prop
  | start : Reachable Allowed initial
  | step {world next : World} {event : Event} : Reachable Allowed world → Allowed world event →
      perform startTimes daemon world event = some next → Reachable Allowed next

end

def Holds (world : World) (pid : Pid) : Prop :=
  world.alive pid = true ∧ ∃ inode, world.phase pid = .holding inode

/-- No two live processes hold the lock. -/
def AtMostOneHolder (world : World) : Prop :=
  ∀ left right, Holds world left → Holds world right → left = right

/-- The file that a recovery removes is the one that it has read. -/
def Undisturbed (world : World) (event : Event) : Prop :=
  event = .remove → ∀ inode, world.recovery = .removing inode →
    ∀ file, world.file = some file → file.inode = inode

/-- The file of a process that is past its exclusive create. -/
def Phase.inode : Phase → Option Nat
  | .idle => none
  | .opening inode => some inode
  | .holding inode => some inode

/-- The process has created this file and not released it; it may be dead. -/
def Occupies (world : World) (pid : Pid) (inode : Nat) : Prop :=
  (world.phase pid).inode = some inode

/-- The line of a holder, written with its start time. -/
def Truthful (startTimes : Pid → Option Nat) (world : World) (inode : Nat) (info : HolderInfo) :
    Prop :=
  Occupies world info.pid inode ∧ info.start = startTimes info.pid

/-- A live occupant's file is at the path, and a file says truly whose it is:
also to a recovery that has read it, as long as it stays at the path. -/
structure Sound (startTimes : Pid → Option Nat) (world : World) : Prop where
  present : ∀ pid inode, world.alive pid = true → Occupies world pid inode →
    ∃ file, world.file = some file ∧ file.inode = inode
  single : ∀ left right inode, Occupies world left inode → Occupies world right inode →
    left = right
  recorded : ∀ file info, world.file = some file → file.contents = some info →
    Truthful startTimes world file.inode info
  judged : ∀ inode info, world.recovery = .judging inode info →
    ∀ file, world.file = some file → file.inode = inode → Truthful startTimes world inode info
  condemned : ∀ inode, world.recovery = .removing inode →
    ∀ file, world.file = some file → file.inode = inode →
      ∃ pid, world.alive pid = false ∧ Occupies world pid inode
  freshFile : ∀ file, world.file = some file → file.inode < world.nextInode
  freshPhase : ∀ pid inode, Occupies world pid inode → inode < world.nextInode
  freshJudged : ∀ inode info, world.recovery = .judging inode info → inode < world.nextInode
  freshCondemned : ∀ inode, world.recovery = .removing inode → inode < world.nextInode

section

variable {startTimes : Pid → Option Nat} {daemon : Pid} {world next : World}

theorem Sound.atMostOneHolder (sound : Sound startTimes world) : AtMostOneHolder world := by
  rintro left right ⟨leftAlive, inode, leftHolds⟩ ⟨rightAlive, other, rightHolds⟩
  have leftOccupies : Occupies world left inode := congrArg Phase.inode leftHolds
  have rightOccupies : Occupies world right other := congrArg Phase.inode rightHolds
  obtain ⟨file, isFile, rfl⟩ := sound.present left inode leftAlive leftOccupies
  obtain ⟨same, isSame, rfl⟩ := sound.present right other rightAlive rightOccupies
  cases isFile.symm.trans isSame
  exact sound.single left right _ leftOccupies rightOccupies

theorem Sound.initial : Sound startTimes initial where
  present _ _ _ occupies := nomatch occupies
  single _ _ _ occupies := nomatch occupies
  recorded _ _ isFile := nomatch isFile
  judged _ _ isJudging := nomatch isJudging
  condemned _ isRemoving := nomatch isRemoving
  freshFile _ isFile := nomatch isFile
  freshPhase _ _ occupies := nomatch occupies
  freshJudged _ _ isJudging := nomatch isJudging
  freshCondemned _ isRemoving := nomatch isRemoving

private theorem inode_opening (inode : Nat) : (Phase.opening inode).inode = some inode := rfl

private theorem inode_idle : Phase.idle.inode = none := rfl

private theorem inode_update {phases : Pid → Phase} {pid other : Pid} {phase : Phase} :
    (Function.update phases pid phase other).inode =
      if other = pid then phase.inode else (phases other).inode := by
  rw [Function.update_apply]
  split <;> rfl

private theorem Sound.create (sound : Sound startTimes world) {pid : Pid}
    (performs : perform startTimes daemon world (.create pid) = some next) :
    Sound startTimes next := by
  rw [perform] at performs
  split at performs
  · next isAlive isIdle =>
      split at performs
      · cases performs
        exact sound
      · next absent =>
          cases performs
          have nobody : ∀ other inode, world.alive other = true → ¬Occupies world other inode := by
            intro other inode alive occupies
            obtain ⟨file, isFile, -⟩ := sound.present other inode alive occupies
            cases absent.symm.trans isFile
          obtain ⟨-, single, -, -, -, -, freshPhase, freshJudged, freshCondemned⟩ := sound
          simp only [Occupies] at nobody single freshPhase
          constructor
          all_goals simp only [Occupies, Truthful, World.setPhase, inode_update, inode_opening]
          all_goals grind
  · cases performs

private theorem Sound.record (sound : Sound startTimes world) {pid : Pid} {now : Nat}
    {written : Bool}
    (performs : perform startTimes daemon world (.record pid now written) = some next) :
    Sound startTimes next := by
  rw [perform] at performs
  split at performs
  · next inode isAlive isOpening =>
      cases performs
      have occupies : Occupies world pid inode := congrArg Phase.inode isOpening
      obtain ⟨file, isFile, rfl⟩ := sound.present pid inode isAlive occupies
      have sameOccupants : ∀ other,
          (Function.update world.phase pid (.holding file.inode) other).inode =
            (world.phase other).inode := by
        intro other
        rw [inode_update]
        split
        · next same => rw [same, isOpening]; rfl
        · rfl
      have started : processStartTime startTimes world pid = startTimes pid := if_pos isAlive
      obtain ⟨present, single, recorded, judged, condemned, freshFile, freshPhase, freshJudged,
        freshCondemned⟩ := sound
      simp only [Occupies, Truthful] at occupies present single recorded judged condemned freshPhase
      constructor
      all_goals simp only [Occupies, Truthful, World.setPhase, sameOccupants, isFile, started,
        Option.map_some, writeContents]
      all_goals grind
  · cases performs

private theorem Sound.release (sound : Sound startTimes world) {pid : Pid}
    (performs : perform startTimes daemon world (.release pid) = some next) :
    Sound startTimes next := by
  rw [perform] at performs
  split at performs
  · next inode isAlive isHolding =>
      cases performs
      have occupies : Occupies world pid inode := congrArg Phase.inode isHolding
      obtain ⟨file, isFile, rfl⟩ := sound.present pid inode isAlive occupies
      have nobody : ∀ other inode, world.alive other = true → other ≠ pid →
          ¬Occupies world other inode := by
        intro other inode alive apart alsoOccupies
        obtain ⟨same, isSame, rfl⟩ := sound.present other inode alive alsoOccupies
        cases isFile.symm.trans isSame
        exact apart (sound.single other pid _ alsoOccupies occupies)
      obtain ⟨-, single, -, -, -, -, freshPhase, freshJudged, freshCondemned⟩ := sound
      simp only [Occupies] at nobody single freshPhase
      constructor
      all_goals simp only [Occupies, Truthful, World.setPhase, inode_update, inode_idle]
      all_goals grind
  · cases performs

private theorem Sound.die (sound : Sound startTimes world) {pid : Pid}
    (performs : perform startTimes daemon world (.die pid) = some next) :
    Sound startTimes next := by
  rw [perform] at performs
  split at performs
  · cases performs
    have fewer : ∀ other, Function.update world.alive pid false other = true →
        world.alive other = true := by
      intro other alive
      rw [Function.update_apply] at alive
      split at alive
      · cases alive
      · exact alive
    have stayDead : ∀ other, world.alive other = false →
        Function.update world.alive pid false other = false := by
      intro other dead
      rw [Function.update_apply]
      split
      · rfl
      · exact dead
    refine ⟨?_, sound.single, sound.recorded, sound.judged, ?_, sound.freshFile, sound.freshPhase,
      sound.freshJudged, sound.freshCondemned⟩
    · intro other inode alive occupies
      exact sound.present other inode (fewer other alive) occupies
    · intro inode isRemoving file isFile same
      obtain ⟨dead, isDead, occupies⟩ := sound.condemned inode isRemoving file isFile same
      exact ⟨dead, stayDead dead isDead, occupies⟩
  · cases performs

private theorem Sound.read (sound : Sound startTimes world)
    (performs : perform startTimes daemon world .read = some next) : Sound startTimes next := by
  rw [perform] at performs
  split at performs
  · split at performs
    · cases performs
      exact sound
    · next file isFile =>
        split at performs
        · cases performs
          exact sound
        · next info isInfo =>
            cases performs
            have contents : file.contents = some info := (Option.filter_eq_some_iff.mp isInfo).1
            refine ⟨sound.present, sound.single, sound.recorded, ?_, nofun, sound.freshFile,
              sound.freshPhase, ?_, nofun⟩
            · rintro inode other ⟨⟩ same isSame -
              exact sound.recorded file info isFile contents
            · rintro inode other ⟨⟩
              exact sound.freshFile file isFile
  · cases performs

private theorem Sound.probe (sound : Sound startTimes world)
    (performs : perform startTimes daemon world .probe = some next) : Sound startTimes next := by
  rw [perform] at performs
  split at performs
  · next inode info isAlive isJudging =>
      split at performs
      · cases performs
        exact ⟨sound.present, sound.single, sound.recorded, nofun, nofun, sound.freshFile,
          sound.freshPhase, nofun, nofun⟩
      · next notLive =>
          cases performs
          refine ⟨sound.present, sound.single, sound.recorded, nofun, ?_, sound.freshFile,
            sound.freshPhase, nofun, ?_⟩
          · rintro other ⟨⟩ file isFile same
            obtain ⟨occupies, started⟩ := sound.judged inode info isJudging file isFile same
            refine ⟨info.pid, ?_, occupies⟩
            cases alive : world.alive info.pid with
            | false => rfl
            | true =>
                have notDead : recordedHolderIsDead startTimes world info = false := by
                  rw [recordedHolderIsDead, processStartTime, alive, started, if_pos rfl]
                  cases startTimes info.pid <;> simp
                rw [alive, notDead] at notLive
                exact absurd rfl notLive
          · rintro other ⟨⟩
            exact sound.freshJudged inode info isJudging
  · cases performs

private theorem Sound.remove (sound : Sound startTimes world)
    (undisturbed : Undisturbed world .remove)
    (performs : perform startTimes daemon world .remove = some next) : Sound startTimes next := by
  rw [perform] at performs
  split at performs
  · next inode isAlive isRemoving =>
      cases performs
      refine ⟨?_, sound.single, nofun, nofun, nofun, nofun, sound.freshPhase, nofun, nofun⟩
      intro pid other alive occupies
      obtain ⟨file, isFile, rfl⟩ := sound.present pid other alive occupies
      have same := undisturbed rfl inode isRemoving file isFile
      obtain ⟨dead, isDead, alsoOccupies⟩ := sound.condemned inode isRemoving file isFile same
      rw [← same] at alsoOccupies
      cases sound.single pid dead _ occupies alsoOccupies
      cases alive.symm.trans isDead
  · cases performs

theorem Sound.step {event : Event} (sound : Sound startTimes world)
    (undisturbed : Undisturbed world event)
    (performs : perform startTimes daemon world event = some next) : Sound startTimes next := by
  cases event with
  | create pid => exact sound.create performs
  | record pid now written => exact sound.record performs
  | release pid => exact sound.release performs
  | die pid => exact sound.die performs
  | read => exact sound.read performs
  | probe => exact sound.probe performs
  | remove => exact sound.remove undisturbed performs

theorem Reachable.sound (reachable : Reachable startTimes daemon Undisturbed world) :
    Sound startTimes world := by
  induction reachable with
  | start => exact .initial
  | step _ undisturbed performs ih => exact ih.step undisturbed performs

end

/-- As long as no recovery removes another file than the one it has read, at
most one live process holds the lock. -/
theorem atMostOneHolder_of_undisturbed (startTimes : Pid → Option Nat) (daemon : Pid)
    (world : World) (reachable : Reachable startTimes daemon Undisturbed world) :
    AtMostOneHolder world :=
  reachable.sound.atMostOneHolder

def schedule (daemon : Pid) (events : List Event) : Option World :=
  events.foldlM (perform (fun _ => none) daemon) initial

private theorem Reachable.schedule {Allowed : World → Event → Prop} {daemon : Pid}
    {world last : World} (events : List Event)
    (reachable : Reachable (fun _ => none) daemon Allowed world)
    (allowed : ∀ event ∈ events, ∀ world, Allowed world event)
    (performs : events.foldlM (perform (fun _ => none) daemon) world = some last) :
    Reachable (fun _ => none) daemon Allowed last := by
  induction events generalizing world with
  | nil =>
      cases performs
      exact reachable
  | cons event events ih =>
      rw [List.foldlM_cons] at performs
      obtain ⟨next, steps, rest⟩ := Option.bind_eq_some_iff.mp performs
      apply ih (.step reachable (allowed event List.mem_cons_self world) steps)
      · intro other member
        exact allowed other (List.mem_cons_of_mem _ member)
      · exact rest

/-- A writer takes the lock and dies; the daemon reads and probes. -/
def abandoned : List Event :=
  [.create 1, .record 1 0 true, .die 1, .read, .probe]

def condemnedLock : World := (schedule 9 abandoned).getD initial

theorem atMostOneHolder_of_undisturbed_abandoned :
    ∃ world, schedule 9 (abandoned ++ [.remove, .create 2, .record 2 0 true]) = some world ∧
      Holds world 2 ∧ AtMostOneHolder world := by
  have judged : Reachable (fun _ => none) 9 Undisturbed condemnedLock :=
    Reachable.schedule abandoned .start (by simp [abandoned, Undisturbed]) rfl
  have removed : Undisturbed condemnedLock .remove := by
    rintro - inode ⟨⟩ file ⟨⟩
    rfl
  have retaken := Reachable.schedule [.create 2, .record 2 0 true] (.step judged removed rfl)
    (by simp [Undisturbed]) rfl
  exact ⟨_, rfl, ⟨rfl, 1, rfl⟩, atMostOneHolder_of_undisturbed (fun _ => none) 9 _ retaken⟩

/-- A writer releases the lock and exits after the daemon has read it, and
another takes it before the daemon removes it. -/
def overtaken : List Event :=
  [.create 1, .record 1 0 true, .read, .release 1, .die 1, .create 2, .record 2 0 true, .probe,
    .remove, .create 3, .record 3 0 true]

theorem recovery_removes_live_lock :
    ¬∀ world, Reachable (fun _ => none) 9 (fun _ _ => True) world → AtMostOneHolder world := by
  intro always
  have reached : ∃ world, schedule 9 overtaken = some world ∧ Holds world 2 ∧ Holds world 3 :=
    ⟨_, rfl, ⟨rfl, 1, rfl⟩, ⟨rfl, 2, rfl⟩⟩
  obtain ⟨world, performs, second, third⟩ := reached
  have reachable : Reachable (fun _ => none) 9 (fun _ _ => True) world :=
    Reachable.schedule overtaken .start (fun _ _ _ => trivial) performs
  have same := always world reachable 2 3 second third
  cases same

end Acetone.Graph.WriterLock

import Acetone.Graph.MigrateJournal
import Acetone.Graph.RefNamespace
import Acetone.Lib.SortedMap

/-!
# Refs and objects

A git repository as the migration uses it: refs by full name, objects by id,
and the compare-and-swap updates of the one against the other.  How git checks
a name and forms an id is a parameter.
-/

namespace Acetone.Graph

open Acetone.Lib Acetone.Model
open Acetone.Prolly (Hash)

inductive ObjectKind where
  | blob
  | tree
  | commit
  | tag
deriving DecidableEq

structure GitObject where
  kind : ObjectKind
  body : Bytes
deriving DecidableEq

inductive RefTarget where
  | object (id : Hash)
  | symbolic (target : String)
deriving DecidableEq

/-- What git decides for the store. -/
structure GitBackend where
  legal : String → Bool
  identify : GitObject → Hash
  maxChunkSize : Nat

structure RefWorld where
  refs : SortedMap String RefTarget
  objects : List GitObject

namespace RefWorld

variable (git : GitBackend) (world : RefWorld)

def find (id : Hash) : Option GitObject := world.objects.find? (git.identify · = id)

def containsObject (id : Hash) : Bool := (world.find git id).isSome

/-- An object whose id is taken is never found. -/
def add (object : GitObject) : RefWorld :=
  { world with objects := world.objects ++ [object] }

def putBlob (data : Bytes) : Except MigrateError (Hash × RefWorld) :=
  if git.maxChunkSize < data.length then .error (.tooLarge data.length git.maxChunkSize)
  else .ok (git.identify ⟨.blob, data⟩, world.add ⟨.blob, data⟩)

def getBlob (id : Hash) : Except MigrateError (Option Bytes) :=
  match world.find git id with
  | none => .ok none
  | some object =>
      if object.kind ≠ .blob then .error (.wrongKind id)
      else if git.maxChunkSize < object.body.length then
        .error (.tooLarge object.body.length git.maxChunkSize)
      else .ok (some object.body)

def validatedRefName (name : String) : Except MigrateError Unit :=
  if startsWith name "refs/" && git.legal name then .ok () else .error (.invalidRefName name)

def readRef (name : String) : Except MigrateError (Option Hash) := do
  validatedRefName git name
  match world.refs.get name with
  | none => .ok none
  | some (.object id) => .ok (some id)
  | some (.symbolic _) => .error (.symbolicRef name)

def listRefs (hierarchy : String) : List (String × Hash) :=
  world.refs.entries.filterMap fun entry =>
    match entry.2 with
    | .object id =>
        if startsWith entry.1 hierarchy && git.legal entry.1 then some (entry.1, id) else none
    | .symbolic _ => none

/-- The precondition of an update, once its name is checked. -/
def checkSwing (swing : RefSwing) : Except MigrateError Unit :=
  match swing.expected with
  | none => do
      match ← world.readRef git swing.name with
      | some _ => .error (.casFailed swing.name)
      | none => .ok ()
  | some old =>
      if world.refs.get swing.name = some (.object old) then .ok ()
      else .error (.casFailed swing.name)

def applySwing (swing : RefSwing) : RefWorld :=
  { world with refs := world.refs.put swing.name (.object swing.new) }

def applySwings (swings : List RefSwing) : RefWorld := swings.foldl applySwing world

def writeRef (swing : RefSwing) : Except MigrateError RefWorld := do
  validatedRefName git swing.name
  world.checkSwing git swing
  .ok (world.applySwing swing)

/-- The first name that a batch edits twice. -/
def duplicate : List RefSwing → Option String
  | [] => none
  | swing :: swings =>
      if swings.any (·.name = swing.name) then some swing.name else duplicate swings

/-- Every precondition is checked before a ref moves. -/
def writeRefsAtomic (swings : List RefSwing) : Except MigrateError RefWorld :=
  if swings = [] then .ok world
  else do
    checkEach (fun swing => validatedRefName git swing.name) swings
    checkEach (world.checkSwing git) swings
    match duplicate swings with
    | some name => .error (.duplicateEdit name)
    | none => .ok (world.applySwings swings)

def deleteRef (name : String) : Except MigrateError RefWorld := do
  match ← world.readRef git name with
  | none => .ok world
  | some _ => .ok { world with refs := world.refs.delete name }

def Named (name : String) : Prop := validatedRefName git name = .ok ()

/-- A ref holds a value, or is absent. -/
def Holds (name : String) (value : Option Hash) : Prop :=
  world.refs.get name = value.map .object

variable {git : GitBackend} {world : RefWorld}

theorem readRef_eq_ok {name : String} {value : Option Hash} :
    world.readRef git name = .ok value ↔ Named git name ∧ world.Holds name value := by
  rw [readRef, bind_eq_ok]
  constructor
  · rintro ⟨_, named, read⟩
    refine ⟨named, ?_⟩
    split at read
    case h_1 absent => cases read; exact absent
    case h_2 id direct => cases read; exact direct
    case h_3 => cases read
  · rintro ⟨named, holds⟩
    refine ⟨(), named, ?_⟩
    rw [Holds] at holds
    rw [holds]
    cases value <;> rfl

theorem checkSwing_eq_ok {swing : RefSwing} (named : Named git swing.name) :
    world.checkSwing git swing = .ok () ↔ world.Holds swing.name swing.expected := by
  rw [checkSwing]
  split
  case h_1 creates =>
    rw [creates, bind_eq_ok]
    constructor
    · rintro ⟨value, read, unset⟩
      cases value with
      | none => exact (readRef_eq_ok.mp read).2
      | some old => cases unset
    · intro holds
      exact ⟨none, readRef_eq_ok.mpr ⟨named, holds⟩, rfl⟩
  case h_2 old moves =>
    rw [moves, Holds]
    constructor
    · intro checked
      split at checked
      · assumption
      · cases checked
    · exact fun holds => if_pos holds

theorem duplicate_eq_none {swings : List RefSwing} :
    duplicate swings = none ↔ (swings.map RefSwing.name).Nodup := by
  induction swings with
  | nil => exact ⟨fun _ => List.nodup_nil, fun _ => rfl⟩
  | cons swing swings ih =>
      rw [duplicate, List.map_cons, List.nodup_cons, ← ih]
      by_cases again : swings.any (·.name = swing.name)
      · rw [if_pos again]
        refine ⟨nofun, fun apart => absurd ?_ apart.1⟩
        obtain ⟨other, member, same⟩ := List.any_eq_true.mp again
        exact List.mem_map.mpr ⟨other, member, of_decide_eq_true same⟩
      · rw [if_neg again]
        refine ⟨fun rest => ⟨fun member => again ?_, rest⟩, And.right⟩
        obtain ⟨other, member, same⟩ := List.mem_map.mp member
        exact List.any_eq_true.mpr ⟨other, member, decide_eq_true same⟩

/-- A batch goes through exactly when every ref is where its swing expects it. -/
theorem writeRefsAtomic_eq_ok {swings : List RefSwing} {next : RefWorld} :
    world.writeRefsAtomic git swings = .ok next ↔
      (∀ swing ∈ swings, Named git swing.name ∧ world.Holds swing.name swing.expected) ∧
        (swings.map RefSwing.name).Nodup ∧ next = world.applySwings swings := by
  rw [writeRefsAtomic]
  split
  case isTrue empty =>
    subst empty
    simp [applySwings, eq_comm]
  case isFalse filled =>
    simp only [check_bind_eq_ok, checkEach_eq_ok]
    constructor
    · rintro ⟨named, checked, applied⟩
      have each : ∀ swing ∈ swings, Named git swing.name ∧
          world.Holds swing.name swing.expected := by
        intro swing member
        have isNamed := named swing member
        exact ⟨isNamed, (checkSwing_eq_ok isNamed).mp (checked swing member)⟩
      cases twice : duplicate swings with
      | some name =>
          rw [twice] at applied
          cases applied
      | none =>
          rw [twice] at applied
          cases applied
          exact ⟨each, duplicate_eq_none.mp twice, rfl⟩
    · rintro ⟨each, apart, rfl⟩
      refine ⟨fun swing member => (each swing member).1, ?_, ?_⟩
      · intro swing member
        exact (checkSwing_eq_ok (each swing member).1).mpr (each swing member).2
      · rw [duplicate_eq_none.mpr apart]

theorem writeRef_eq_ok {swing : RefSwing} {next : RefWorld} :
    world.writeRef git swing = .ok next ↔
      Named git swing.name ∧ world.Holds swing.name swing.expected ∧
        next = world.applySwing swing := by
  simp only [writeRef, bind_eq_ok]
  constructor
  · rintro ⟨_, named, _, checked, ⟨⟩⟩
    exact ⟨named, (checkSwing_eq_ok named).mp checked, rfl⟩
  · rintro ⟨named, holds, rfl⟩
    exact ⟨(), named, (), (checkSwing_eq_ok named).mpr holds, rfl⟩

theorem deleteRef_of_holds {name : String} {old : Hash} (named : Named git name)
    (holds : world.Holds name (some old)) :
    world.deleteRef git name = .ok { world with refs := world.refs.delete name } := by
  rw [deleteRef, readRef_eq_ok.mpr ⟨named, holds⟩]
  rfl

theorem clear_of_deleteRef {name : String} {next : RefWorld}
    (deleted : world.deleteRef git name = .ok next) : next.Holds name none := by
  obtain ⟨value, read, rest⟩ := bind_eq_ok.mp deleted
  cases value with
  | none =>
      cases rest
      exact (readRef_eq_ok.mp read).2
  | some old =>
      cases rest
      exact (SortedMap.get_delete ..).trans (if_pos rfl)

theorem holds_congr {next : RefWorld} {name : String} {value : Option Hash}
    (same : next.refs.get name = world.refs.get name) :
    next.Holds name value ↔ world.Holds name value := by
  rw [Holds, Holds, same]

theorem Holds.unique {name : String} {left right : Option Hash} (first : world.Holds name left)
    (second : world.Holds name right) : left = right :=
  Option.map_injective (fun _ _ => RefTarget.object.inj) (first.symm.trans second)

theorem objects_applySwings (world : RefWorld) (swings : List RefSwing) :
    (world.applySwings swings).objects = world.objects := by
  induction swings generalizing world with
  | nil => rfl
  | cons swing swings ih => exact ih (world.applySwing swing)

theorem get_applySwings_of_absent {name : String} {swings : List RefSwing}
    (absent : name ∉ swings.map RefSwing.name) :
    (world.applySwings swings).refs.get name = world.refs.get name := by
  induction swings generalizing world with
  | nil => rfl
  | cons swing swings ih =>
      rw [List.map_cons, List.mem_cons, not_or] at absent
      refine (@ih (world.applySwing swing) absent.2).trans ?_
      rw [applySwing, SortedMap.get_put, if_neg (Ne.symm absent.1)]

theorem holds_applySwings {swing : RefSwing} {swings : List RefSwing}
    (apart : (swings.map RefSwing.name).Nodup) (member : swing ∈ swings) :
    (world.applySwings swings).Holds swing.name (some swing.new) := by
  induction swings generalizing world with
  | nil => cases member
  | cons first swings ih =>
      obtain ⟨absent, apart⟩ := List.nodup_cons.mp apart
      rcases List.mem_cons.mp member with rfl | later
      · refine (get_applySwings_of_absent absent).trans ?_
        rw [applySwing, SortedMap.get_put, if_pos rfl]
        rfl
      · exact @ih (world.applySwing first) apart later

/-- No two objects of the repository share an id. -/
def CollisionFree (git : GitBackend) (world : RefWorld) : Prop :=
  ∀ left ∈ world.objects, ∀ right ∈ world.objects,
    git.identify left = git.identify right → left = right

theorem containsObject_iff {id : Hash} :
    world.containsObject git id ↔ ∃ object ∈ world.objects, git.identify object = id := by
  simp [containsObject, find, List.find?_isSome]

theorem containsObject_mono {next : RefWorld} (kept : world.objects ⊆ next.objects) {id : Hash}
    (present : world.containsObject git id) : next.containsObject git id := by
  obtain ⟨object, member, isObject⟩ := containsObject_iff.mp present
  exact containsObject_iff.mpr ⟨object, kept member, isObject⟩

theorem putBlob_eq_ok {data : Bytes} {id : Hash} {next : RefWorld} :
    world.putBlob git data = .ok (id, next) ↔
      data.length ≤ git.maxChunkSize ∧ id = git.identify ⟨.blob, data⟩ ∧
        next = world.add ⟨.blob, data⟩ := by
  rw [putBlob]
  split
  case isTrue large => exact ⟨nofun, fun stored => absurd large (Nat.not_lt.mpr stored.1)⟩
  case isFalse fits =>
    rw [Except.ok.injEq, Prod.mk.injEq, eq_comm, @eq_comm _ _ next]
    exact ⟨fun same => ⟨Nat.not_lt.mp fits, same⟩, And.right⟩

theorem getBlob_of_mem {data : Bytes} (free : world.CollisionFree git)
    (member : ⟨.blob, data⟩ ∈ world.objects) (fits : data.length ≤ git.maxChunkSize) :
    world.getBlob git (git.identify ⟨.blob, data⟩) = .ok (some data) := by
  have found : world.find git (git.identify ⟨.blob, data⟩) = some ⟨.blob, data⟩ := by
    cases isFound : world.find git (git.identify ⟨.blob, data⟩) with
    | none =>
        have missing := List.find?_eq_none.mp isFound _ member
        simp at missing
    | some object =>
        have same := List.find?_some isFound
        exact congrArg some (free object (List.mem_of_find?_eq_some isFound) _ member
          (of_decide_eq_true same))
  rw [getBlob, found]
  simp [Nat.not_lt.mpr fits]

end RefWorld

end Acetone.Graph

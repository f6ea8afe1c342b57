import Acetone.Graph.Transaction

/-!
# Commits

A commit holds a version and names its parents: none, the tip it was made on,
or the tip and the merged commit.  A commit is addressed by what it holds, its
history included, so two commits are the same when they are equal.
-/

namespace Acetone.Graph

open Acetone.Lib Acetone.Model

/-- A commit; `stamp` stands for the rest of the object: message, trailers,
author and time. -/
inductive Commit where
  | initial (manifest : Manifest) (stamp : Nat)
  | child (parent : Commit) (manifest : Manifest) (stamp : Nat)
  | merged (ours theirs : Commit) (manifest : Manifest) (stamp : Nat)
deriving DecidableEq

namespace Commit

def manifest : Commit → Manifest
  | .initial manifest _ => manifest
  | .child _ manifest _ => manifest
  | .merged _ _ manifest _ => manifest

def parents : Commit → List Commit
  | .initial _ _ => []
  | .child parent _ _ => [parent]
  | .merged ours theirs _ _ => [ours, theirs]

def checkedOut (commit : Commit) : Workspace := ⟨commit.manifest, none⟩

/-- Every commit reachable by following parents, the commit itself included. -/
def ancestors : Commit → List Commit
  | .initial manifest stamp => [.initial manifest stamp]
  | .child parent manifest stamp => .child parent manifest stamp :: ancestors parent
  | .merged ours theirs manifest stamp =>
      .merged ours theirs manifest stamp :: (ancestors ours ++ ancestors theirs)

def isAncestor (anc desc : Commit) : Bool := anc ∈ ancestors desc

def maximalCommon (left right : Commit) : List Commit :=
  let common := (ancestors left).filter (· ∈ ancestors right)
  let dominated := common.flatMap fun commit => commit.parents.flatMap ancestors
  common.filter (· ∉ dominated)

/-- A lowest common ancestor; of several, the one with the smallest hash. -/
def mergeBase (hash : Commit → Nat) (left right : Commit) : Option Commit :=
  (maximalCommon left right).argmin hash

theorem mem_ancestors_self (commit : Commit) : commit ∈ commit.ancestors := by
  cases commit <;> exact List.mem_cons_self

theorem ancestors_trans {older middle newer : Commit} (first : older ∈ middle.ancestors)
    (second : middle ∈ newer.ancestors) : older ∈ newer.ancestors := by
  induction newer with
  | initial manifest stamp =>
      rw [ancestors, List.mem_singleton] at second
      rwa [second] at first
  | child parent manifest stamp ih =>
      rcases List.mem_cons.mp second with rfl | later
      · exact first
      · exact List.mem_cons_of_mem _ (ih later)
  | merged ours theirs manifest stamp ihOurs ihTheirs =>
      rcases List.mem_cons.mp second with rfl | later
      · exact first
      · rcases List.mem_append.mp later with inOurs | inTheirs
        · exact List.mem_cons_of_mem _ (List.mem_append_left _ (ihOurs inOurs))
        · exact List.mem_cons_of_mem _ (List.mem_append_right _ (ihTheirs inTheirs))

end Commit

/-- Why a relationship type is not renamed. -/
inductive RenameConflict where
  | sameType (name : String)
  | collapse (count : Nat) (sample : List EdgeKey)
  | undeclaredEdges (declared undeclared discriminator : String)
  | discriminators (old new : Option String)
  | types (property : String)
  | invalid (cause : SchemaError)
  | properties (edge : EdgeKey) (property : String)
deriving DecidableEq

/-- What the operations of a repository are refused with. -/
inductive RepositoryError where
  | graph (cause : GraphError)
  | dirtyWorkspace
  | noSuchBranch (name : String)
  | branchExists (name : String)
  | branchCheckedOut (name : String)
  | noCurrentBranch
  | unresolvedRefspec
  | noMergeBase (ours theirs : Commit)
  | mergeState (reason : String)
  | mergeViolations (violations : List GraphViolation)
  | mergeInProgress
  | discardDuringMerge
  | nothingToCommit
  | rekeyConflict (node : NodeKey)
  | noSuchNode (node : NodeKey)
  | noSuchRelType (name : String)
  | relTypeRenameConflict (reason : RenameConflict)
  | importConfig (branch : String)
deriving DecidableEq

def liftGraph {α : Type} : Except GraphError α → Except RepositoryError α
  | .ok value => .ok value
  | .error cause => .error (.graph cause)

@[simp] theorem liftGraph_eq_ok {α : Type} {result : Except GraphError α} {value : α} :
    liftGraph result = .ok value ↔ result = .ok value := by
  cases result <;> simp [liftGraph]

end Acetone.Graph

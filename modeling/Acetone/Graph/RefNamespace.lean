import Acetone.Lib.Paths

/-!
# Where a graph's refs live

The map between the branch and tag names of a graph and the git refs that hold
them, and the test by which garbage collection tells a graph's refs from
another's.  Two co-tenant graphs of one repository stay apart exactly when
neither takes the name of a fixed segment of the private hierarchy.
-/

namespace Acetone.Graph

open Acetone.Lib

def worktreeWorkspaceRef : String := "refs/worktree/acetone/workspace"
def worktreeMergeHeadRef : String := "refs/worktree/acetone/merge-head"
def worktreeAnchorPrefix : String := "refs/acetone/worktree-anchors/"
def worktreeGraphAnchorPrefix : String := "refs/acetone/worktree-graph-anchors/"
def graphsRefPrefix : String := "refs/acetone/graphs/"
def branchRefPrefix : String := "refs/heads/"
def tagRefPrefix : String := "refs/tags/"

structure InvalidGraphName where
  name : String
  reason : String
deriving DecidableEq

/-- `char::is_ascii_control`, or one of the characters git forbids. -/
def forbiddenInRef (letter : Char) : Bool :=
  letter.toNat < 32 ∨ letter.toNat = 127 ∨
    letter ∈ [' ', '~', '^', ':', '?', '*', '[', '\\']

def validateGraphName (graph : String) : Except InvalidGraphName Unit :=
  if graph = "" then .error ⟨graph, "empty"⟩
  else if '/' ∈ graph.toList then
    .error ⟨graph, "must be a single ref-path component (no '/')"⟩
  else if graph = "." ∨ graph = ".." ∨ ['.', '.'] <:+: graph.toList then
    .error ⟨graph, "must not contain '..'"⟩
  else if startsWith graph "." then .error ⟨graph, "must not start with '.'"⟩
  else if ".lock".toList <:+ graph.toList then
    .error ⟨graph, "must not end with '.lock'"⟩
  else if graph.toList.any forbiddenInRef then
    .error ⟨graph, "contains a character git forbids in a ref component"⟩
  else .ok ()

theorem isComponent_of_validateGraphName {graph : String}
    (accepted : validateGraphName graph = .ok ()) : IsComponent graph := by
  intro slash
  rw [validateGraphName, if_pos slash] at accepted
  split at accepted <;> cases accepted

structure GraphRefNamespace where
  branchPrefix : String
  tagPrefix : String
  headRef : String
  ownsWholeRepo : Bool
  privatePrefixes : List String
  privateRefs : List String
  migrateJournalRef : String
  workspaceRef : String
  mergeHeadRef : String
  legacyWorktreeRefs : Option (String × String)
deriving DecidableEq

namespace GraphRefNamespace

/-- The repository is the graph. -/
def standalone : GraphRefNamespace where
  branchPrefix := branchRefPrefix
  tagPrefix := tagRefPrefix
  headRef := "HEAD"
  ownsWholeRepo := true
  privatePrefixes := []
  privateRefs := []
  migrateJournalRef := "refs/acetone/migrate-journal"
  workspaceRef := worktreeWorkspaceRef
  mergeHeadRef := worktreeMergeHeadRef
  legacyWorktreeRefs := none

/-- A graph inside a code repository, on refs of its own. -/
def coTenant (graph : String) : GraphRefNamespace where
  branchPrefix := "refs/heads/acetone/" ++ graph ++ "/"
  tagPrefix := "refs/tags/acetone/" ++ graph ++ "/"
  headRef := "refs/acetone/" ++ graph ++ "/HEAD"
  ownsWholeRepo := false
  privatePrefixes := ["refs/acetone/" ++ graph ++ "/", worktreeAnchorPrefix,
    worktreeGraphAnchorPrefix, "refs/worktree/acetone/"]
  privateRefs := [graphsRefPrefix ++ graph]
  migrateJournalRef := "refs/acetone/" ++ graph ++ "/migrate-journal"
  workspaceRef := "refs/worktree/acetone/" ++ graph ++ "/workspace"
  mergeHeadRef := "refs/worktree/acetone/" ++ graph ++ "/merge-head"
  legacyWorktreeRefs := some (worktreeWorkspaceRef, worktreeMergeHeadRef)

variable (layout : GraphRefNamespace)

def branchRef (name : String) : String := layout.branchPrefix ++ name

def branchName (full : String) : Option String := stripStart full layout.branchPrefix

def tagRef (name : String) : String := layout.tagPrefix ++ name

def ownsRef (full : String) : Bool :=
  if startsWith full "refs/heads/" then startsWith full layout.branchPrefix
  else if startsWith full "refs/tags/" then startsWith full layout.tagPrefix
  else if full = "HEAD" then layout.headRef = "HEAD"
  else layout.ownsWholeRepo || layout.privatePrefixes.any (startsWith full) ||
    layout.privateRefs.any (full = ·)

theorem branchName_branchRef (name : String) :
    layout.branchName (layout.branchRef name) = some name :=
  stripStart_append _ _

end GraphRefNamespace

open GraphRefNamespace

/-- The refs that co-tenant graphs share by design: the worktree anchors and
the per-worktree state. -/
def SharedRef (full : String) : Prop :=
  startsWith full worktreeAnchorPrefix ∨ startsWith full worktreeGraphAnchorPrefix ∨
    startsWith full "refs/worktree/acetone/"

/-- The refs that a co-tenant graph keeps for itself. -/
inductive Constructed (graph : String) : String → Prop
  | branch (name : String) : Constructed graph ((coTenant graph).branchRef name)
  | tag (name : String) : Constructed graph ((coTenant graph).tagRef name)
  | head : Constructed graph (coTenant graph).headRef
  | marker : Constructed graph (graphsRefPrefix ++ graph)
  | journal : Constructed graph (coTenant graph).migrateJournalRef

def stateRefs (graph : String) : List String :=
  [(coTenant graph).workspaceRef, (coTenant graph).mergeHeadRef,
    (coTenant graph).headRef, (coTenant graph).migrateJournalRef]

/-- The co-tenant graph `graph` keeps off the refs of `other`. -/
structure Isolated (graph other : String) : Prop where
  disjoint : ∀ full, ¬ SharedRef full →
    ¬ ((coTenant graph).ownsRef full ∧ (coTenant other).ownsRef full)
  foreign : ∀ full, Constructed other full → (coTenant graph).ownsRef full = false
  apart : (stateRefs graph ++ stateRefs other).Nodup
  inverts : ∀ name, (coTenant graph).branchName ((coTenant graph).branchRef name) = some name

section

variable {graph other : String}

private theorem branchPrefix_coTenant :
    (coTenant graph).branchPrefix = "refs/heads/acetone/" ++ (graph ++ "/") :=
  String.append_assoc

private theorem tagPrefix_coTenant :
    (coTenant graph).tagPrefix = "refs/tags/acetone/" ++ (graph ++ "/") :=
  String.append_assoc

private theorem headRef_coTenant :
    (coTenant graph).headRef = "refs/acetone/" ++ (graph ++ "/" ++ "HEAD") := by
  have spelled : "/HEAD" = "/" ++ "HEAD" := by decide
  rw [String.append_assoc, ← spelled, ← String.append_assoc]
  rfl

private theorem migrateJournalRef_coTenant :
    (coTenant graph).migrateJournalRef =
      "refs/acetone/" ++ (graph ++ "/" ++ "migrate-journal") := by
  have spelled : "/migrate-journal" = "/" ++ "migrate-journal" := by decide
  rw [String.append_assoc, ← spelled, ← String.append_assoc]
  rfl

private theorem privatePrefixes_coTenant :
    (coTenant graph).privatePrefixes = ["refs/acetone/" ++ graph ++ "/",
      worktreeAnchorPrefix, worktreeGraphAnchorPrefix, "refs/worktree/acetone/"] := rfl

private theorem privateRefs_coTenant :
    (coTenant graph).privateRefs = ["refs/acetone/" ++ ("graphs/" ++ graph)] := by
  have spelled : graphsRefPrefix = "refs/acetone/" ++ "graphs/" := by decide
  rw [← String.append_assoc, ← spelled]
  rfl

private theorem ownsRef_heads (rest : String) :
    (coTenant graph).ownsRef ("refs/heads/acetone/" ++ rest) =
      startsWith rest (graph ++ "/") := by
  have heads : startsWith ("refs/heads/acetone/" ++ rest) "refs/heads/" = true := by
    simp [startsWith]
  simp only [ownsRef, heads, if_true, branchPrefix_coTenant, startsWith_append]

private theorem ownsRef_tags (rest : String) :
    (coTenant graph).ownsRef ("refs/tags/acetone/" ++ rest) =
      startsWith rest (graph ++ "/") := by
  have notHeads : startsWith ("refs/tags/acetone/" ++ rest) "refs/heads/" = false := by
    simp [startsWith, List.isPrefixOf]
  have tags : startsWith ("refs/tags/acetone/" ++ rest) "refs/tags/" = true := by
    simp [startsWith]
  simp only [ownsRef, notHeads, Bool.false_eq_true, if_false, tags, if_true,
    tagPrefix_coTenant, startsWith_append]

private theorem private_ne_head (rest : String) : "refs/acetone/" ++ rest ≠ "HEAD" := by
  intro same
  have chars := congrArg String.toList same
  simp at chars

private theorem ownsRef_private (rest : String) :
    (coTenant graph).ownsRef ("refs/acetone/" ++ rest) =
      (startsWith rest (graph ++ "/") || startsWith rest "worktree-anchors/" ||
        startsWith rest "worktree-graph-anchors/" ||
        decide (rest = "graphs/" ++ graph)) := by
  have notHeads : startsWith ("refs/acetone/" ++ rest) "refs/heads/" = false := by
    simp [startsWith, List.isPrefixOf]
  have notTags : startsWith ("refs/acetone/" ++ rest) "refs/tags/" = false := by
    simp [startsWith, List.isPrefixOf]
  have notHead := private_ne_head rest
  have notWorktree : startsWith ("refs/acetone/" ++ rest) "refs/worktree/acetone/" = false := by
    simp [startsWith, List.isPrefixOf]
  have anchors : startsWith ("refs/acetone/" ++ rest) worktreeAnchorPrefix =
      startsWith rest "worktree-anchors/" := by
    have spelled : worktreeAnchorPrefix = "refs/acetone/" ++ "worktree-anchors/" := by decide
    rw [spelled, startsWith_append]
  have graphAnchors : startsWith ("refs/acetone/" ++ rest) worktreeGraphAnchorPrefix =
      startsWith rest "worktree-graph-anchors/" := by
    have spelled : worktreeGraphAnchorPrefix =
        "refs/acetone/" ++ "worktree-graph-anchors/" := by decide
    rw [spelled, startsWith_append]
  have own : startsWith ("refs/acetone/" ++ rest) ("refs/acetone/" ++ graph ++ "/") =
      startsWith rest (graph ++ "/") := by
    rw [String.append_assoc, startsWith_append]
  have listed : (coTenant graph).privatePrefixes.any (startsWith ("refs/acetone/" ++ rest)) =
      (startsWith rest (graph ++ "/") || startsWith rest "worktree-anchors/" ||
        startsWith rest "worktree-graph-anchors/") := by
    simp only [privatePrefixes_coTenant, List.any_cons, List.any_nil, own, anchors,
      graphAnchors, notWorktree, Bool.or_false, Bool.or_assoc]
  have named : (coTenant graph).privateRefs.any ("refs/acetone/" ++ rest = ·) =
      decide (rest = "graphs/" ++ graph) := by
    simp only [privateRefs_coTenant, List.any_cons, List.any_nil, Bool.or_false,
      String.append_right_inj]
  have part : (coTenant graph).ownsWholeRepo = false := rfl
  simp only [ownsRef, notHeads, notTags, Bool.false_eq_true, if_false, notHead, part,
    Bool.false_or, listed, named]

private theorem owned_cases {full : String} (owned : (coTenant graph).ownsRef full = true) :
    SharedRef full ∨ (∃ rest, full = "refs/heads/acetone/" ++ (graph ++ "/" ++ rest)) ∨
      (∃ rest, full = "refs/tags/acetone/" ++ (graph ++ "/" ++ rest)) ∨
      (∃ rest, full = "refs/acetone/" ++ (graph ++ "/" ++ rest)) ∨
      full = "refs/acetone/" ++ ("graphs/" ++ graph) := by
  have whole : (coTenant graph).ownsWholeRepo = false := rfl
  rw [ownsRef, whole, branchPrefix_coTenant, tagPrefix_coTenant, privatePrefixes_coTenant,
    privateRefs_coTenant] at owned
  split at owned
  · obtain ⟨rest, isRest⟩ := exists_of_startsWith owned
    refine .inr (.inl ⟨rest, ?_⟩)
    rw [isRest]
    simp only [String.append_assoc]
  · split at owned
    · obtain ⟨rest, isRest⟩ := exists_of_startsWith owned
      refine .inr (.inr (.inl ⟨rest, ?_⟩))
      rw [isRest]
      simp only [String.append_assoc]
    · split at owned
      · exact absurd (headRef_coTenant ▸ of_decide_eq_true owned) (private_ne_head _)
      · simp only [Bool.false_or, List.any_cons, List.any_nil, Bool.or_false,
          Bool.or_eq_true, decide_eq_true_eq] at owned
        obtain (own | anchors | graphAnchors | worktree) | marker := owned
        · obtain ⟨rest, isRest⟩ := exists_of_startsWith own
          refine .inr (.inr (.inr (.inl ⟨rest, ?_⟩)))
          rw [isRest]
          simp only [String.append_assoc]
        · exact .inl (.inl anchors)
        · exact .inl (.inr (.inl graphAnchors))
        · exact .inl (.inr (.inr worktree))
        · exact .inr (.inr (.inr (.inr marker)))

private theorem startsWith_graphs (other rest : String) (plain : IsComponent other) :
    startsWith (other ++ "/" ++ rest) "worktree-anchors/" =
        decide ("worktree-anchors" = other) ∧
      startsWith (other ++ "/" ++ rest) "worktree-graph-anchors/" =
        decide ("worktree-graph-anchors" = other) := by
  have anchors : "worktree-anchors/" = "worktree-anchors" ++ "/" := by decide
  have graphAnchors : "worktree-graph-anchors/" = "worktree-graph-anchors" ++ "/" := by decide
  rw [anchors, graphAnchors]
  exact ⟨startsWith_component (by decide) plain rest,
    startsWith_component (by decide) plain rest⟩

variable (graphPlain : IsComponent graph) (otherPlain : IsComponent other)

include graphPlain otherPlain

private theorem ownsRef_other (distinct : graph ≠ other) (rest : String) :
    (coTenant graph).ownsRef ("refs/acetone/" ++ (other ++ "/" ++ rest)) =
      (decide ("worktree-anchors" = other) || decide ("worktree-graph-anchors" = other) ||
        decide (other = "graphs" ∧ rest = graph)) := by
  have own : startsWith (other ++ "/" ++ rest) (graph ++ "/") = false := by
    rw [startsWith_component graphPlain otherPlain, decide_eq_false distinct]
  have marker : (other ++ "/" ++ rest = "graphs/" ++ graph) =
      (other = "graphs" ∧ rest = graph) := by
    have spelled : "graphs/" = "graphs" ++ "/" := by decide
    rw [spelled]
    exact propext (component_append_inj otherPlain (by decide))
  rw [ownsRef_private, own, (startsWith_graphs other rest otherPlain).1,
    (startsWith_graphs other rest otherPlain).2]
  simp only [Bool.false_or, marker]

omit otherPlain in
private theorem ownsRef_marker (distinct : graph ≠ other) :
    (coTenant graph).ownsRef (graphsRefPrefix ++ other) = decide (graph = "graphs") := by
  have spelled : graphsRefPrefix ++ other = "refs/acetone/" ++ ("graphs" ++ "/" ++ other) := by
    have parts : graphsRefPrefix = "refs/acetone/" ++ ("graphs" ++ "/") := by decide
    rw [parts, String.append_assoc]
  have anchors := startsWith_graphs "graphs" other (by decide)
  have marker : ("graphs" ++ "/" ++ other = "graphs/" ++ graph) = False := by
    have parts : "graphs/" = "graphs" ++ "/" := by decide
    rw [parts, String.append_right_inj, eq_iff_iff, iff_false]
    exact distinct.symm
  rw [spelled, ownsRef_private, startsWith_component graphPlain (by decide), anchors.1,
    anchors.2]
  have unlike : decide ("worktree-anchors" = "graphs") = false ∧
      decide ("worktree-graph-anchors" = "graphs") = false := by decide
  simp only [marker, unlike, decide_false, Bool.or_false]

/-- Refs of the other graph are foreign, unless a name is one of the fixed
segments. -/
private theorem foreign_of (distinct : graph ≠ other) (ordinary : graph ≠ "graphs")
    (otherOrdinary : other ≠ "graphs") (noAnchors : other ≠ "worktree-anchors")
    (noGraphAnchors : other ≠ "worktree-graph-anchors") {full : String}
    (constructed : Constructed other full) : (coTenant graph).ownsRef full = false := by
  have unlike : ∀ rest, (coTenant graph).ownsRef
      ("refs/acetone/" ++ (other ++ "/" ++ rest)) = false := by
    intro rest
    rw [ownsRef_other graphPlain otherPlain distinct, decide_eq_false noAnchors.symm,
      decide_eq_false noGraphAnchors.symm, decide_eq_false (fun both => otherOrdinary both.1)]
    rfl
  cases constructed with
  | branch name =>
      rw [branchRef, branchPrefix_coTenant, String.append_assoc, ownsRef_heads,
        startsWith_component graphPlain otherPlain, decide_eq_false distinct]
  | tag name =>
      rw [tagRef, tagPrefix_coTenant, String.append_assoc, ownsRef_tags,
        startsWith_component graphPlain otherPlain, decide_eq_false distinct]
  | head => rw [headRef_coTenant, unlike]
  | marker =>
      rw [ownsRef_marker graphPlain distinct, decide_eq_false ordinary]
  | journal => rw [migrateJournalRef_coTenant, unlike]

private theorem disjoint_of (distinct : graph ≠ other) (ordinary : graph ≠ "graphs")
    (otherOrdinary : other ≠ "graphs") {full : String} (unshared : ¬ SharedRef full)
    (owned : (coTenant graph).ownsRef full = true) :
    (coTenant other).ownsRef full = false := by
  obtain shared | ⟨rest, rfl⟩ | ⟨rest, rfl⟩ | ⟨rest, rfl⟩ | rfl := owned_cases owned
  · exact absurd shared unshared
  · rw [ownsRef_heads, startsWith_component otherPlain graphPlain,
      decide_eq_false distinct.symm]
  · rw [ownsRef_tags, startsWith_component otherPlain graphPlain,
      decide_eq_false distinct.symm]
  · rw [ownsRef_other otherPlain graphPlain distinct.symm]
    have noAnchors : "worktree-anchors" ≠ graph := by
      rintro rfl
      exact unshared (.inl (by simp [startsWith, worktreeAnchorPrefix]))
    have noGraphAnchors : "worktree-graph-anchors" ≠ graph := by
      rintro rfl
      exact unshared (.inr (.inl (by simp [startsWith, worktreeGraphAnchorPrefix])))
    rw [decide_eq_false noAnchors, decide_eq_false noGraphAnchors,
      decide_eq_false (fun both => ordinary both.1)]
    rfl
  · have spelled : "refs/acetone/" ++ ("graphs/" ++ graph) = graphsRefPrefix ++ graph := by
      rw [← String.append_assoc]
      rfl
    rw [spelled, ownsRef_marker otherPlain distinct.symm,
      decide_eq_false otherOrdinary]

omit graphPlain otherPlain in
private theorem stateRefs_spelled :
    stateRefs graph = ["refs/worktree/acetone/" ++ (graph ++ "/" ++ "workspace"),
      "refs/worktree/acetone/" ++ (graph ++ "/" ++ "merge-head"),
      "refs/acetone/" ++ (graph ++ "/" ++ "HEAD"),
      "refs/acetone/" ++ (graph ++ "/" ++ "migrate-journal")] := by
  have workspace : (coTenant graph).workspaceRef =
      "refs/worktree/acetone/" ++ (graph ++ "/" ++ "workspace") := by
    have spelled : "/workspace" = "/" ++ "workspace" := by decide
    rw [String.append_assoc, ← spelled, ← String.append_assoc]
    rfl
  have mergeHead : (coTenant graph).mergeHeadRef =
      "refs/worktree/acetone/" ++ (graph ++ "/" ++ "merge-head") := by
    have spelled : "/merge-head" = "/" ++ "merge-head" := by decide
    rw [String.append_assoc, ← spelled, ← String.append_assoc]
    rfl
  rw [stateRefs, workspace, mergeHead, headRef_coTenant, migrateJournalRef_coTenant]

omit graphPlain otherPlain in
private theorem stems_ne (left right : String) :
    "refs/worktree/acetone/" ++ left ≠ "refs/acetone/" ++ right := by
  intro same
  have chars := congrArg String.toList same
  simp at chars

omit graphPlain otherPlain in
private theorem mem_stateRefs {full : String} (member : full ∈ stateRefs graph) :
    ∃ rest, full = "refs/worktree/acetone/" ++ (graph ++ "/" ++ rest) ∨
      full = "refs/acetone/" ++ (graph ++ "/" ++ rest) := by
  simp only [stateRefs_spelled, List.mem_cons, List.not_mem_nil, or_false] at member
  obtain rfl | rfl | rfl | rfl := member
  · exact ⟨_, .inl rfl⟩
  · exact ⟨_, .inl rfl⟩
  · exact ⟨_, .inr rfl⟩
  · exact ⟨_, .inr rfl⟩

omit graphPlain otherPlain in
private theorem stateRefs_nodup : (stateRefs graph).Nodup := by
  simp only [stateRefs_spelled, List.nodup_cons, List.mem_cons, List.not_mem_nil, or_false,
    not_false_eq_true, String.append_right_inj, stems_ne, List.nodup_nil, and_true]
  decide

private theorem stateRefs_apart (distinct : graph ≠ other) :
    (stateRefs graph ++ stateRefs other).Nodup := by
  apply List.nodup_append.mpr
  refine ⟨stateRefs_nodup, stateRefs_nodup, ?_⟩
  rintro full member _ otherMember rfl
  have foreign : ∀ left right, graph ++ "/" ++ left ≠ other ++ "/" ++ right := by
    intro left right same
    exact distinct ((component_append_inj graphPlain otherPlain).mp same).1
  obtain ⟨left, rfl | rfl⟩ := mem_stateRefs member <;>
    obtain ⟨right, same | same⟩ := mem_stateRefs otherMember
  · exact foreign _ _ (String.append_right_inj _ |>.mp same)
  · exact stems_ne _ _ same
  · exact stems_ne _ _ same.symm
  · exact foreign _ _ (String.append_right_inj _ |>.mp same)

end

/-- Two graphs of one repository are isolated unless one takes the name of the
marker directory, or the other that of an anchor directory. -/
theorem isolated_iff {graph other : String} (accepted : validateGraphName graph = .ok ())
    (otherAccepted : validateGraphName other = .ok ()) (distinct : graph ≠ other) :
    Isolated graph other ↔ graph ≠ "graphs" ∧ other ≠ "graphs" ∧
      other ≠ "worktree-anchors" ∧ other ≠ "worktree-graph-anchors" := by
  have plain := isComponent_of_validateGraphName accepted
  have otherPlain := isComponent_of_validateGraphName otherAccepted
  constructor
  · intro isolated
    have headForeign := isolated.foreign _ .head
    rw [headRef_coTenant, ownsRef_other plain otherPlain distinct] at headForeign
    simp only [Bool.or_eq_false_iff, decide_eq_false_iff_not] at headForeign
    refine ⟨?_, ?_, fun same => headForeign.1.1 same.symm,
      fun same => headForeign.1.2 same.symm⟩
    · have markerForeign := isolated.foreign _ .marker
      rw [ownsRef_marker plain distinct] at markerForeign
      exact of_decide_eq_false markerForeign
    · intro same
      have own : (coTenant graph).ownsRef (graphsRefPrefix ++ graph) = true := by
        have spelled : graphsRefPrefix ++ graph = "refs/acetone/" ++ ("graphs/" ++ graph) := by
          rw [← String.append_assoc]
          rfl
        rw [spelled, ownsRef_private, decide_eq_true rfl, Bool.or_true]
      have taken : (coTenant other).ownsRef (graphsRefPrefix ++ graph) = true := by
        rw [ownsRef_marker otherPlain distinct.symm, decide_eq_true same]
      have unshared : ¬ SharedRef (graphsRefPrefix ++ graph) := by
        simp [SharedRef, startsWith, graphsRefPrefix, worktreeAnchorPrefix,
          worktreeGraphAnchorPrefix, List.isPrefixOf]
      exact isolated.disjoint _ unshared ⟨own, taken⟩
  · rintro ⟨ordinary, otherOrdinary, noAnchors, noGraphAnchors⟩
    refine ⟨?_, fun full => foreign_of plain otherPlain distinct ordinary otherOrdinary
      noAnchors noGraphAnchors, stateRefs_apart plain otherPlain distinct,
      branchName_branchRef _⟩
    rintro full unshared ⟨owned, otherOwned⟩
    rw [disjoint_of plain otherPlain distinct ordinary otherOrdinary unshared owned]
      at otherOwned
    cases otherOwned

theorem isolated_sample : Isolated "web" "infra" :=
  (isolated_iff (by decide) (by decide) (by decide)).mpr (by decide)

/-- A graph named like the marker directory owns every other graph's marker. -/
theorem marker_directory_owned : ¬ ∀ graph other : String,
    validateGraphName graph = .ok () → validateGraphName other = .ok () →
      graph ≠ other → Isolated graph other := by
  intro always
  have isolated := always "graphs" "web" (by decide) (by decide) (by decide)
  have foreign := isolated.foreign _ .marker
  rw [ownsRef_marker (by decide) (by decide)] at foreign
  exact absurd foreign (by decide)

end Acetone.Graph

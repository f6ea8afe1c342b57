import Acetone.Cypher.OverlayChanges

/-!
# Runs of the overlay

A statement performs one mutation after another.  While it sets relationships
only through values the overlay can trust, every read returns what the plain
graph with the same mutations returns, and the net changes applied to the base
give that graph.  A relationship value read from another version is trusted
without being looked up: its properties then replace those of the base.
-/

namespace Acetone.Cypher

open Acetone.Lib Acetone.Lib.KeyedView

/-- The overlay and the plain graph after the same mutations, each step within
what is allowed. -/
inductive MutableGraph.Run (base : PropertyGraph) (source : GraphSource)
    (allowed : MutableGraph → Mutation → Prop) : MutableGraph → PropertyGraph → Prop where
  | start : Run base source allowed (.new source) base
  | step {graph : MutableGraph} {plain : PropertyGraph} {mutation : Mutation} :
      Run base source allowed graph plain → allowed graph mutation →
      Run base source allowed (graph.perform mutation)
        (plain.perform (overlayId graph.nextId) mutation)

/-- A source that reads the plain graph.  Its seeks are those of the base while
the nodes are those of the base, and else decline. -/
structure GraphSource.Mirrors (source : GraphSource) (base : GraphSource)
    (plain : PropertyGraph) : Prop extends source.Reads plain where
  seeks : (plain.nodes = base.allNodes ∧ source.nodesByIndex = base.nodesByIndex ∧
      source.nodesByIndexRange = base.nodesByIndexRange ∧ source.nodesByKey = base.nodesByKey ∧
      source.seekCount = base.seekCount) ∨
    ((∀ name properties values, source.nodesByIndex name properties values = none) ∧
      (∀ name property lower upper,
        source.nodesByIndexRange name property lower upper = none) ∧
      (∀ label values, source.nodesByKey label values = none) ∧
      ∀ probe, source.seekCount probe = none)

namespace MutableGraph

variable {base : PropertyGraph} {graph : MutableGraph}

theorem Consistent.mirrors (consistent : graph.Consistent base) (stored : base.WellFormed) :
    graph.toSource.Mirrors graph.base (graph.shown base) where
  allNodes := allNodes_shown consistent
  node := currentNode_shown consistent
  expand := expand_shown stored consistent
  seeks := by
    cases dirty : graph.overlayDirty with
    | true =>
        right
        simp [toSource, dirty]
    | false =>
        left
        obtain ⟨⟨noneCreated, noneChanged⟩, noneDeleted⟩ : (graph.createdNodes = [] ∧
            graph.nodeOverrides.entries = []) ∧ graph.deletedNodes.entries = [] := by
          simpa [overlayDirty] using dirty
        have overrides : graph.nodeOverrides = .empty := SortedMap.ext_entries noneChanged
        have deleted : ∀ id, graph.nodeDeleted id = false := by
          intro id
          rw [nodeDeleted, SortedMap.get, noneDeleted, lookup_nil]
          rfl
        have shownNodes : (graph.shown base).nodes = graph.base.allNodes := by
          rw [shown, noneCreated, List.append_nil, overrides, view_empty deleted,
            consistent.reads.allNodes]
        refine ⟨shownNodes, ?_⟩
        simp [toSource, dirty]

/-- A trusted run keeps the tables consistent, and they show the plain graph. -/
theorem Run.shows {source : GraphSource} {plain : PropertyGraph} (stored : base.Stored)
    (reads : source.Reads base)
    (run : Run base source (fun graph mutation =>
      graph.Performable mutation ∧ graph.Trusted base mutation) graph plain) :
    graph.Consistent base ∧ graph.base = source ∧ graph.shown base = plain := by
  induction run with
  | start => exact ⟨.new reads stored, rfl, shown_new source⟩
  | @step graph plain mutation _ allowed induction =>
      obtain ⟨consistent, sameBase, isShown⟩ := induction
      obtain ⟨next, shownNext⟩ := perform_spec stored consistent allowed.1 allowed.2
      refine ⟨next, ?_, ?_⟩
      · rw [base_perform, sameBase]
      · rw [shownNext, isShown]

/-- After every trusted run the overlay reads as the plain graph with the same
mutations, and applying the net changes to the base gives that graph, with the
created entities renamed. -/
theorem run_refines {source : GraphSource} {plain : PropertyGraph} (stored : base.Stored)
    (reads : source.Reads base)
    (run : Run base source (fun graph mutation =>
      graph.Performable mutation ∧ graph.Trusted base mutation) graph plain) :
    graph.toSource.Mirrors source plain ∧
      ∀ memory : MemoryGraph, memory.toPropertyGraph = base → memory.Numbered →
        ∃ rename, MemoryGraph.Renaming plain rename ∧
          (memory.apply graph.changes).toPropertyGraph = MemoryGraph.renamed plain rename := by
  obtain ⟨consistent, sameBase, isShown⟩ := run.shows stored reads
  constructor
  · have mirrors := consistent.mirrors stored.toWellFormed
    rw [sameBase, isShown] at mirrors
    exact mirrors
  · intro memory isBase numbered
    rw [← isShown]
    subst isBase
    exact MemoryGraph.apply_changes stored numbered consistent

end MutableGraph

namespace MutableGraph

def linkedHosts : MemoryGraph where
  nodes := [⟨[1], ["Host"], .empty⟩, ⟨[2], ["Host"], .empty⟩]
  rels := [⟨[3], "LINK", [1], [2], SortedMap.ofList [("weight", .int 1)]⟩]
  nextId := 0

def earlierLink : RelValue := ⟨[3], "LINK", [1], [2], SortedMap.ofList [("weight", .int 2)]⟩

theorem linkedHosts_stored : linkedHosts.toPropertyGraph.Stored where
  nodeIds := by decide
  relIds := by decide
  start := by decide
  stop := by decide
  storedNodes := by decide
  storedRels := by decide

theorem linkedHosts_numbered : linkedHosts.Numbered where
  nodes := by
    have heads : ∀ node ∈ linkedHosts.nodes, node.id.head? ≠ some 115 := by decide
    intro node member number _ same
    exact heads node member (same ▸ MemoryGraph.head?_stableId number)
  rels := by
    have heads : ∀ rel ∈ linkedHosts.rels, rel.id.head? ≠ some 115 := by decide
    intro rel member number _ same
    exact heads rel member (same ▸ MemoryGraph.head?_stableId number)

/-- Create a host, link it to the first one, set the link of the base, and
detach and delete the second host. -/
theorem run_refines_linkedHosts : ∃ graph plain,
    Run linkedHosts.toPropertyGraph linkedHosts.toSource (fun graph mutation =>
      graph.Performable mutation ∧ graph.Trusted linkedHosts.toPropertyGraph mutation)
      graph plain ∧
    plain.nodes.map NodeValue.id = [[1], overlayId 0] ∧
    plain.rels.map RelValue.id = [overlayId 1] ∧
    graph.toSource.Mirrors linkedHosts.toSource plain ∧
    ∃ rename, MemoryGraph.Renaming plain rename ∧
      (linkedHosts.apply graph.changes).toPropertyGraph = MemoryGraph.renamed plain rename := by
  have room : ∀ number < 2, number < 2 ^ 64 := fun number below => below.trans (by decide)
  have created : Run linkedHosts.toPropertyGraph linkedHosts.toSource (fun graph mutation =>
      graph.Performable mutation ∧ graph.Trusted linkedHosts.toPropertyGraph mutation) _ _ :=
    @Run.step _ _ _ _ _ (.createNode ["Host"] .empty) .start ⟨room 0 (by decide), trivial⟩
  have linked := @Run.step _ _ _ _ _ (.createRel (overlayId 0) "LINK" [1] .empty) created
    ⟨⟨room 1 (by decide), by decide, by decide⟩, trivial⟩
  have set := @Run.step _ _ _ _ _ (.setRelProperty
    ⟨[3], "LINK", [1], [2], SortedMap.ofList [("weight", .int 1)]⟩ "note" none) linked
    ⟨trivial, .inr (.inr (.inr List.mem_cons_self))⟩
  have held : ∀ number, (2 : Nat) ≤ number → number < 2 ^ 64 → [2] ≠ overlayId number := by
    intro number _ _ same
    cases same
  have deleted := @Run.step _ _ _ _ _ (.detachDeleteNode [2]) set ⟨held, trivial⟩
  obtain ⟨mirrors, applied⟩ := run_refines linkedHosts_stored linkedHosts.toSource_reads deleted
  exact ⟨_, _, deleted, rfl, rfl, mirrors, applied linkedHosts rfl linkedHosts_numbered⟩

/-- A link set through the value of another version takes the properties of that
version. -/
theorem earlierLink_reverts :
    ¬ ∀ (base : PropertyGraph) (source : GraphSource) (graph : MutableGraph)
      (plain : PropertyGraph), base.Stored → source.Reads base →
      Run base source Performable graph plain → graph.toSource.Reads plain := by
  intro refines
  have run : Run linkedHosts.toPropertyGraph linkedHosts.toSource Performable _ _ :=
    @Run.step _ _ _ _ _ (.setRelProperty earlierLink "note" (some (.bool true))) .start trivial
  have reads := refines _ _ _ _ linkedHosts_stored linkedHosts.toSource_reads run
  have weights := (reads.expand [1] .outgoing []).map fun pair => pair.1.properties.get "weight"
  have differ : [some (Value.int 2)].Perm [some (.int 1)] := weights
  cases List.perm_singleton.mp differ

end MutableGraph

end Acetone.Cypher

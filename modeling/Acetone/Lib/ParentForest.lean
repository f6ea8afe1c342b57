import Mathlib.Data.List.Nodup

/-!
# Parent pointers

Nodes that point to at most one other node each.  A node from which a root is
reached is as many links away from it; cutting pointers only shortens that way.
-/

namespace Acetone.Lib

variable {α : Type}

/-- A root is reached from the node after so many links. -/
inductive Links (parent : α → Option α) : α → Nat → Prop where
  | root {node : α} (isRoot : parent node = none) : Links parent node 0
  | link {node next : α} {count : Nat} (step : parent node = some next)
      (rest : Links parent next count) : Links parent node (count + 1)

/-- The path to a node, the last node first. -/
def Trail (parent : α → Option α) : List α → α → Prop
  | [], _ => True
  | last :: path, node => parent last = some node ∧ Trail parent path last

def IsCut (parent cut : α → Option α) : Prop := ∀ node, cut node = none ∨ cut node = parent node

variable {parent cut : α → Option α} {node : α}

theorem IsCut.refl (parent : α → Option α) : IsCut parent parent := fun _ => .inr rfl

theorem IsCut.trans {further : α → Option α} (first : IsCut parent cut)
    (second : IsCut cut further) : IsCut parent further := by
  intro node
  rcases second node with gone | kept
  · exact .inl gone
  · rw [kept]
    exact first node

theorem IsCut.eq_some (isCut : IsCut parent cut) {next : α} (step : cut node = some next) :
    parent node = some next := by
  rcases isCut node with gone | kept
  · rw [gone] at step
    cases step
  · exact kept ▸ step

theorem Links.of_isCut (isCut : IsCut parent cut) {count : Nat} (links : Links parent node count) :
    ∃ fewer, Links cut node fewer := by
  induction links with
  | root isRoot =>
      refine ⟨0, .root ?_⟩
      rcases isCut _ with gone | kept
      · exact gone
      · rw [kept, isRoot]
  | link step _ ih =>
      rcases isCut _ with gone | kept
      · exact ⟨0, .root gone⟩
      · obtain ⟨fewer, shorter⟩ := ih
        exact ⟨fewer + 1, .link (kept.trans step) shorter⟩

/-- Within a set of nodes that no pointer leaves, pointers outside of it do not
matter. -/
theorem Links.congr {Inside : α → Prop}
    (closed : ∀ node next, Inside node → parent node = some next → Inside next)
    (same : ∀ node, Inside node → cut node = parent node) {count : Nat}
    (links : Links parent node count) (inside : Inside node) : Links cut node count := by
  induction links with
  | root isRoot => exact .root ((same _ inside).trans isRoot)
  | link step _ ih =>
      exact .link ((same _ inside).trans step) (ih (closed _ _ inside step))

theorem Links.unique {count other : Nat} (links : Links parent node count)
    (others : Links parent node other) : count = other := by
  induction links generalizing other with
  | root isRoot =>
      cases others with
      | root => rfl
      | link step =>
          rw [isRoot] at step
          cases step
  | link step _ ih =>
      cases others with
      | root isRoot =>
          rw [isRoot] at step
          cases step
      | link otherStep rest =>
          rw [step] at otherStep
          cases otherStep
          rw [ih rest]

theorem Trail.links {path : List α} (trail : Trail parent path node) {count : Nat}
    (links : Links parent node count) {member : α} (isMember : member ∈ path) :
    ∃ further, count < further ∧ Links parent member further := by
  induction path generalizing node count with
  | nil => cases isMember
  | cons last path ih =>
      have lastLinks := Links.link trail.1 links
      rcases List.mem_cons.mp isMember with rfl | earlier
      · exact ⟨count + 1, Nat.lt_succ_self count, lastLinks⟩
      · obtain ⟨further, beyond, found⟩ := ih trail.2 lastLinks earlier
        exact ⟨further, by omega, found⟩

theorem Trail.not_mem {path : List α} (trail : Trail parent path node) {count : Nat}
    (links : Links parent node count) : node ∉ path := by
  intro isMember
  obtain ⟨further, beyond, again⟩ := trail.links links isMember
  have same := links.unique again
  omega

theorem Trail.nodup {path : List α} (trail : Trail parent path node) {count : Nat}
    (links : Links parent node count) : path.Nodup := by
  induction path generalizing node count with
  | nil => exact List.nodup_nil
  | cons last path ih =>
      have lastLinks := Links.link trail.1 links
      exact List.nodup_cons.mpr ⟨trail.2.not_mem lastLinks, ih trail.2 lastLinks⟩

theorem Trail.congr {path : List α} (same : ∀ member ∈ path, cut member = parent member)
    (trail : Trail parent path node) : Trail cut path node := by
  induction path generalizing node with
  | nil => trivial
  | cons last path ih =>
      exact ⟨(same last List.mem_cons_self).trans trail.1,
        ih (fun member isMember => same member (List.mem_cons_of_mem _ isMember)) trail.2⟩

/-- A path whose last node became a root reaches that root from everywhere. -/
theorem Trail.links_cut {last : α} {path : List α} (trail : Trail parent path last)
    {count : Nat} (links : Links parent last count) :
    ∀ member ∈ last :: path, ∃ further, Links parent member further := by
  intro member isMember
  rcases List.mem_cons.mp isMember with rfl | earlier
  · exact ⟨count, links⟩
  · obtain ⟨further, -, found⟩ := trail.links links earlier
    exact ⟨further, found⟩

end Acetone.Lib

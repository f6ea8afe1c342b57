import Acetone.Lib.Loop
import Acetone.Lib.MapValues
import Mathlib.Logic.Relation
import Mathlib.Algebra.Order.BigOperators.Group.List
import Mathlib.Algebra.Order.Ring.Nat
import Mathlib.Data.Fintype.Sets
import Mathlib.Data.Fintype.Order

/-!
# Reachability in a graph that is read vertex by vertex

A walk with a stack reads every vertex that can be reached from where it starts,
each of them once.  It needs as many rounds as there are edges, so that it ends on
graphs with cycles as well.  Among finitely many vertices without a cycle one is
behind no other.
-/

namespace Acetone.Lib

section

variable {V : Type}

def ReachedFrom (leads : V → V → Prop) (starts : List V) (vertex : V) : Prop :=
  ∃ start ∈ starts, Relation.ReflTransGen leads start vertex

/-- Whatever can be reached has been seen or is behind a vertex on the stack. -/
structure Exploring (leads : V → V → Prop) (starts : List V) (seen : V → Prop)
    (stack : List V) : Prop where
  started : ∀ vertex ∈ starts, seen vertex ∨ vertex ∈ stack
  closed : ∀ vertex, seen vertex → ∀ next, leads vertex next → seen next ∨ next ∈ stack
  found : ∀ vertex, seen vertex ∨ vertex ∈ stack → ReachedFrom leads starts vertex

namespace Exploring

variable {leads : V → V → Prop} {starts stack successors : List V} {seen : V → Prop} {vertex : V}

theorem start (none : ∀ vertex, ¬ seen vertex) : Exploring leads starts seen starts where
  started _ member := .inr member
  closed vertex isSeen := absurd isSeen (none vertex)
  found vertex either := ⟨vertex, either.resolve_left (none vertex), .refl⟩

theorem skip (exploring : Exploring leads starts seen (vertex :: stack)) (isSeen : seen vertex) :
    Exploring leads starts seen stack := by
  have drop : ∀ other, seen other ∨ other ∈ vertex :: stack → seen other ∨ other ∈ stack := by
    rintro other (known | member)
    · exact .inl known
    · rcases List.mem_cons.mp member with rfl | later
      · exact .inl isSeen
      · exact .inr later
  exact ⟨fun other member => drop other (exploring.started other member),
    fun other known next edge => drop next (exploring.closed other known next edge),
    fun other either => exploring.found other (either.imp_right (List.mem_cons_of_mem vertex))⟩

theorem visit {after : V → Prop} (exploring : Exploring leads starts seen (vertex :: stack))
    (isAfter : ∀ other, after other ↔ other = vertex ∨ seen other)
    (isNext : ∀ next, leads vertex next ↔ next ∈ successors) :
    Exploring leads starts after (successors ++ stack) := by
  have keep : ∀ other, seen other ∨ other ∈ vertex :: stack →
      after other ∨ other ∈ successors ++ stack := by
    rintro other (known | member)
    · exact .inl ((isAfter other).mpr (.inr known))
    · rcases List.mem_cons.mp member with same | later
      · exact .inl ((isAfter other).mpr (.inl same))
      · exact .inr (List.mem_append_right _ later)
  refine ⟨fun other member => keep other (exploring.started other member), ?_, ?_⟩
  · intro other known next edge
    rcases (isAfter other).mp known with rfl | before
    · exact .inr (List.mem_append_left _ ((isNext next).mp edge))
    · exact keep next (exploring.closed other before next edge)
  · have here := exploring.found vertex (.inr List.mem_cons_self)
    rintro other (known | member)
    · rcases (isAfter other).mp known with rfl | before
      · exact here
      · exact exploring.found other (.inl before)
    · rcases List.mem_append.mp member with isSuccessor | later
      · obtain ⟨start, isStart, reached⟩ := here
        exact ⟨start, isStart, reached.tail ((isNext other).mpr isSuccessor)⟩
      · exact exploring.found other (.inr (List.mem_cons_of_mem vertex later))

/-- A walk that has emptied its stack has seen what can be reached. -/
theorem done (exploring : Exploring leads starts seen []) (vertex : V) :
    seen vertex ↔ ReachedFrom leads starts vertex := by
  constructor
  · exact fun isSeen => exploring.found vertex (.inl isSeen)
  · rintro ⟨start, isStart, reached⟩
    induction reached with
    | refl => exact (exploring.started start isStart).resolve_right List.not_mem_nil
    | tail _ edge ih => exact (exploring.closed _ ih _ edge).resolve_right List.not_mem_nil

end Exploring

end

section

variable {V : Type} (weight : V → Nat) (vertices : List V)

def unseenWeight (seen : V → Bool) : Nat :=
  ((vertices.filter fun vertex => ! seen vertex).map weight).sum

variable {weight vertices} {seen after : V → Bool}

theorem unseenWeight_le : unseenWeight weight vertices seen ≤ (vertices.map weight).sum :=
  List.Sublist.sum_le_sum (List.filter_sublist.map weight) fun _ _ => Nat.zero_le _

theorem unseenWeight_of_unseen (none : ∀ vertex ∈ vertices, seen vertex = false) :
    unseenWeight weight vertices seen = (vertices.map weight).sum := by
  rw [unseenWeight, List.filter_eq_self.mpr fun vertex member => by rw [none vertex member]; rfl]

theorem exists_of_unseenWeight_ne_zero (left : unseenWeight weight vertices seen ≠ 0) :
    ∃ vertex ∈ vertices, seen vertex = false ∧ weight vertex ≠ 0 := by
  by_contra none
  apply left
  apply List.sum_eq_zero
  intro amount member
  obtain ⟨vertex, kept, rfl⟩ := List.mem_map.mp member
  obtain ⟨isVertex, unseen⟩ := List.mem_filter.mp kept
  by_contra heavy
  exact none ⟨vertex, isVertex, by simpa using unseen, heavy⟩

private theorem unseenWeight_congr (same : ∀ vertex ∈ vertices, after vertex = seen vertex) :
    unseenWeight weight vertices after = unseenWeight weight vertices seen := by
  rw [unseenWeight, unseenWeight, List.filter_congr fun vertex member => by rw [same vertex member]]

theorem unseenWeight_see (nodup : vertices.Nodup) {vertex : V} (member : vertex ∈ vertices)
    (fresh : seen vertex = false) (isSeen : after vertex = true)
    (same : ∀ other, other ≠ vertex → after other = seen other) :
    unseenWeight weight vertices seen = unseenWeight weight vertices after + weight vertex := by
  induction vertices with
  | nil => cases member
  | cons other others ih =>
      obtain ⟨notLater, nodup⟩ := List.nodup_cons.mp nodup
      rcases List.mem_cons.mp member with rfl | later
      · have rest := @unseenWeight_congr V weight others seen after fun other isOther =>
          same other fun equal => notLater (equal ▸ isOther)
        simp only [unseenWeight, List.filter_cons, isSeen, fresh, Bool.not_true, Bool.not_false,
          Bool.false_eq_true, if_true, if_false, List.map_cons, List.sum_cons] at rest ⊢
        omega
      · have rest := ih nodup later
        have here := same other fun equal => notLater (equal ▸ later)
        cases known : seen other <;>
          simp only [unseenWeight, List.filter_cons, here, known, Bool.not_true, Bool.not_false,
            Bool.false_eq_true, if_true, if_false, List.map_cons, List.sum_cons] at rest ⊢ <;>
          omega

end

section

variable {V P K ε : Type} [LinearOrder V]

/-- Drop the vertex on top if it has been seen, else read it and put its successors
on top, the last of them first. -/
def exploreStep (read : V → Except ε P) (next : P → List V) (keep : P → K)
    (state : SortedMap V K × List V) :
    (SortedMap V K × List V) ⊕ Except ε (SortedMap V K) :=
  match state.2 with
  | [] => .inr (.ok state.1)
  | vertex :: stack =>
      if (state.1.get vertex).isSome then .inl (state.1, stack)
      else
        match read vertex with
        | .error cause => .inr (.error cause)
        | .ok found => .inl (state.1.put vertex (keep found), (next found).reverse ++ stack)

def explore (read : V → Except ε P) (next : P → List V) (keep : P → K) (exhausted : ε)
    (rounds : Nat) (starts : List V) : Except ε (SortedMap V K) :=
  (loop (exploreStep read next keep) rounds (.empty, starts)).getD (.error exhausted)

def Leads (read : V → Except ε P) (next : P → List V) (vertex other : V) : Prop :=
  ∃ found, read vertex = .ok found ∧ other ∈ next found

variable {read : V → Except ε P} {next : P → List V} {keep : P → K} {exhausted : ε} {rounds : Nat}
  {starts vertices : List V} {degree : V → Nat}

structure Exploration (read : V → Except ε P) (next : P → List V) (keep : P → K) (starts : List V)
    (state : SortedMap V K × List V) : Prop where
  exploring : Exploring (Leads read next) starts (fun vertex => (state.1.get vertex).isSome) state.2
  kept : ∀ vertex value, state.1.get vertex = some value →
    ∃ found, read vertex = .ok found ∧ keep found = value

theorem Exploration.start : Exploration read next keep starts (.empty, starts) where
  exploring := Exploring.start fun _ => Bool.false_ne_true
  kept _ _ isKept := by cases isKept

omit [LinearOrder V] in
private theorem leads_iff {vertex : V} {found : P} (isRead : read vertex = .ok found) (other : V) :
    Leads read next vertex other ↔ other ∈ (next found).reverse := by
  rw [List.mem_reverse]
  constructor
  · rintro ⟨again, isAgain, member⟩
    cases isRead.symm.trans isAgain
    exact member
  · exact fun member => ⟨found, isRead, member⟩

private theorem isSome_put {seen : SortedMap V K} {vertex other : V} {value : K} :
    ((seen.put vertex value).get other).isSome ↔ other = vertex ∨ (seen.get other).isSome := by
  rw [SortedMap.get_put]
  split
  · next same => simp [same]
  · next apart => simp [Ne.symm apart]

theorem Exploration.step {state after : SortedMap V K × List V}
    (exploration : Exploration read next keep starts state)
    (steps : exploreStep read next keep state = .inl after) :
    Exploration read next keep starts after := by
  obtain ⟨seen, stack⟩ := state
  cases stack with
  | nil => cases steps
  | cons vertex stack =>
      rw [exploreStep] at steps
      dsimp only at steps
      split at steps
      · next isSeen =>
          cases steps
          exact ⟨exploration.exploring.skip isSeen, exploration.kept⟩
      · cases isRead : read vertex with
        | error cause =>
            rw [isRead] at steps
            cases steps
        | ok found =>
            rw [isRead] at steps
            cases steps
            refine ⟨exploration.exploring.visit (fun _ => isSome_put) (leads_iff isRead), ?_⟩
            intro other value isKept
            rw [SortedMap.get_put] at isKept
            split at isKept
            · next same =>
                cases isKept
                exact ⟨found, same ▸ isRead, rfl⟩
            · exact exploration.kept other value isKept

theorem exploreStep_seen {state after : SortedMap V K × List V}
    (steps : exploreStep read next keep state = .inl after) {vertex : V}
    (isSeen : (after.1.get vertex).isSome) :
    (state.1.get vertex).isSome ∨ state.2.head? = some vertex := by
  obtain ⟨seen, stack⟩ := state
  cases stack with
  | nil => cases steps
  | cons top stack =>
      rw [exploreStep] at steps
      dsimp only at steps
      split at steps
      · cases steps
        exact .inl isSeen
      · cases isRead : read top with
        | error cause =>
            rw [isRead] at steps
            cases steps
        | ok found =>
            rw [isRead] at steps
            cases steps
            exact (isSome_put.mp isSeen).symm.imp_right fun same => congrArg some same.symm

/-- Each round takes a vertex off the stack or an edge off those not followed. -/
private theorem exploreStep_decreases
    (nodup : vertices.Nodup) (finite : ∀ vertex found, read vertex = .ok found →
      vertex ∈ vertices ∧ (next found).length ≤ degree vertex)
    {state after : SortedMap V K × List V} (steps : exploreStep read next keep state = .inl after) :
    after.2.length + unseenWeight degree vertices (fun vertex => (after.1.get vertex).isSome) <
      state.2.length + unseenWeight degree vertices fun vertex => (state.1.get vertex).isSome := by
  obtain ⟨seen, stack⟩ := state
  cases stack with
  | nil => cases steps
  | cons vertex stack =>
      rw [exploreStep] at steps
      dsimp only at steps
      split at steps
      · cases steps
        exact Nat.add_lt_add_right (Nat.lt_succ_self _) _
      · next fresh =>
          cases isRead : read vertex with
          | error cause =>
              rw [isRead] at steps
              cases steps
          | ok found =>
              rw [isRead] at steps
              cases steps
              obtain ⟨member, narrow⟩ := finite vertex found isRead
              have fewer := @unseenWeight_see V degree vertices
                (fun other => (seen.get other).isSome)
                (fun other => ((seen.put vertex (keep found)).get other).isSome) nodup vertex member
                (Bool.eq_false_of_not_eq_true fresh) (isSome_put.mpr (.inl rfl)) fun other apart =>
                  congrArg Option.isSome ((SortedMap.get_put _ _ _ _).trans (if_neg (Ne.symm apart)))
              dsimp only
              rw [List.length_append, List.length_reverse, List.length_cons]
              omega

theorem exploreStep_ends (nodup : vertices.Nodup)
    (finite : ∀ vertex found, read vertex = .ok found →
      vertex ∈ vertices ∧ (next found).length ≤ degree vertex)
    {ρ : Type} {body : SortedMap V K × List V → (SortedMap V K × List V) ⊕ ρ}
    (follows : ∀ state after, body state = .inl after →
      exploreStep read next keep state = .inl after)
    (enough : starts.length + (vertices.map degree).sum < rounds) :
    (loop body rounds (.empty, starts)).isSome := by
  have most := @unseenWeight_le V degree vertices
    fun vertex => ((SortedMap.empty : SortedMap V K).get vertex).isSome
  refine @loop_isSome _ _ body (fun _ => True) (fun state =>
    state.2.length + unseenWeight degree vertices fun vertex => (state.1.get vertex).isSome)
    (fun _ _ _ _ => trivial)
    (fun _ _ _ steps => exploreStep_decreases nodup finite (follows _ _ steps)) _ _ trivial ?_
  dsimp only
  omega

/-- A walk that reads whatever it reaches breaks with an empty stack. -/
theorem Exploration.break {state : SortedMap V K × List V}
    {result : Except ε (SortedMap V K)}
    (exploration : Exploration read next keep starts state)
    (reads : ∀ vertex, ReachedFrom (Leads read next) starts vertex →
      ∃ found, read vertex = .ok found)
    (breaks : exploreStep read next keep state = .inr result) :
    state.2 = [] ∧ result = .ok state.1 := by
  obtain ⟨seen, stack⟩ := state
  cases stack with
  | nil =>
      cases breaks
      exact ⟨rfl, rfl⟩
  | cons vertex stack =>
      obtain ⟨found, isRead⟩ := reads vertex
        (exploration.exploring.found vertex (.inr List.mem_cons_self))
      rw [exploreStep] at breaks
      dsimp only at breaks
      rw [isRead] at breaks
      split at breaks <;> cases breaks

/-- What a walk has seen is what can be reached, if all of that can be read. -/
theorem explore_spec (nodup : vertices.Nodup)
    (finite : ∀ vertex found, read vertex = .ok found →
      vertex ∈ vertices ∧ (next found).length ≤ degree vertex)
    (enough : starts.length + (vertices.map degree).sum < rounds)
    (reads : ∀ vertex, ReachedFrom (Leads read next) starts vertex →
      ∃ found, read vertex = .ok found) :
    ∃ seen, explore read next keep exhausted rounds starts = .ok seen ∧
      ∀ vertex value, seen.get vertex = some value ↔
        ReachedFrom (Leads read next) starts vertex ∧
          ∃ found, read vertex = .ok found ∧ keep found = value := by
  obtain ⟨result, isResult⟩ := Option.isSome_iff_exists.mp
    (@exploreStep_ends _ _ _ _ _ read next keep rounds starts vertices degree nodup finite _ _
      (fun _ _ steps => steps) enough)
  have breaks : ∀ state result, Exploration read next keep starts state →
      exploreStep read next keep state = .inr result →
        ∃ seen, result = .ok seen ∧ Exploration read next keep starts (seen, []) := by
    intro state result exploration breaks
    obtain ⟨done, isResult⟩ := exploration.break reads breaks
    refine ⟨state.1, isResult, ?_⟩
    rwa [← done]
  obtain ⟨seen, rfl, exploration⟩ := loop_spec
    (fun _ _ exploration steps => Exploration.step exploration steps) breaks Exploration.start
    isResult
  refine ⟨seen, by rw [explore, isResult]; rfl, ?_⟩
  have all := exploration.exploring.done
  intro vertex value
  constructor
  · intro isKept
    exact ⟨(all vertex).mp (by rw [isKept]; rfl), exploration.kept vertex value isKept⟩
  · rintro ⟨reached, found, isRead, rfl⟩
    obtain ⟨kept, isKept⟩ := Option.isSome_iff_exists.mp ((all vertex).mpr reached)
    obtain ⟨again, isAgain, rfl⟩ := exploration.kept vertex kept isKept
    cases isRead.symm.trans isAgain
    exact isKept

end

section

variable {V : Type} {leads : V → V → Prop}

/-- Among finitely many vertices one is behind no other. -/
theorem exists_behind_none (acyclic : ∀ vertex, ¬ Relation.TransGen leads vertex vertex)
    {vertices : List V} (nonempty : vertices ≠ []) :
    ∃ first ∈ vertices, ∀ other ∈ vertices, ¬ Relation.TransGen leads other first := by
  classical
  let before (left right : { vertex // vertex ∈ vertices }) : Prop :=
    Relation.TransGen leads left.1 right.1
  have : IsTrans _ before := ⟨fun _ _ _ first second => first.trans second⟩
  have : Std.Irrefl before := ⟨fun vertex => acyclic vertex.1⟩
  have wellFounded : WellFounded before := Finite.wellFounded_of_trans_of_irrefl before
  obtain ⟨vertex, member⟩ := List.exists_mem_of_ne_nil vertices nonempty
  obtain ⟨first, -, none⟩ := wellFounded.has_min Set.univ ⟨⟨vertex, member⟩, trivial⟩
  exact ⟨first.1, first.2, fun other isOther => none ⟨other, isOther⟩ trivial⟩

end

end Acetone.Lib

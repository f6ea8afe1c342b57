import Mathlib.Data.List.Induction

/-!
# Content-defined segmentation

A list is cut into segments from left to right.  Whether a segment ends after
an item is decided by `cut`, a function of the items since the last boundary,
so segmentation can be restarted at any boundary: this is `segment_append`
and, for whole segments, `segment_flatten`.
-/

namespace Acetone.Lib

variable {α : Type} (cut : List α → Bool)

/-- The segments closed while reading `items`, starting inside the open
segment `current`, and the segment still open at the end. -/
def segment (current : List α) : List α → List (List α) × List α
  | [] => ([], current)
  | item :: items =>
      if cut (current ++ [item]) then
        let result := segment [] items
        ((current ++ [item]) :: result.1, result.2)
      else
        segment (current ++ [item]) items

/-- The end of the input closes a segment that holds anything. -/
def closeLast (result : List (List α) × List α) : List (List α) :=
  if result.2 = [] then result.1 else result.1 ++ [result.2]

def segmentsFrom (current items : List α) : List (List α) :=
  closeLast (segment cut current items)

def segments (items : List α) : List (List α) := segmentsFrom cut [] items

/-- A segment that ends where `cut` says so, and not before. -/
def Closed (run : List α) : Prop := segment cut [] run = ([run], [])

/-- A segment that `cut` never ends. -/
def Open (run : List α) : Prop := segment cut [] run = ([], run)

theorem segment_append (current left right : List α) :
    segment cut current (left ++ right) =
      ((segment cut current left).1 ++
          (segment cut (segment cut current left).2 right).1,
        (segment cut (segment cut current left).2 right).2) := by
  induction left generalizing current with
  | nil => rfl
  | cons item left ih =>
      rw [List.cons_append, segment, segment]
      split
      · rw [ih []]
        rfl
      · exact ih _

theorem segmentsFrom_append (current left right : List α) :
    segmentsFrom cut current (left ++ right) =
      (segment cut current left).1 ++
        segmentsFrom cut (segment cut current left).2 right := by
  rw [segmentsFrom, segment_append, segmentsFrom]
  unfold closeLast
  split
  · rfl
  · rw [List.append_assoc]

theorem segment_flatten_append {runs : List (List α)}
    (closed : ∀ run ∈ runs, Closed cut run) (rest : List α) :
    segment cut [] (runs.flatten ++ rest) =
      (runs ++ (segment cut [] rest).1, (segment cut [] rest).2) := by
  induction runs with
  | nil => rfl
  | cons run runs ih =>
      have first : segment cut [] run = ([run], []) :=
        closed run List.mem_cons_self
      have others := ih (fun other member =>
        closed other (List.mem_cons_of_mem _ member))
      rw [List.flatten_cons, List.append_assoc, segment_append, first, others]
      rfl

theorem segment_flatten {runs : List (List α)}
    (closed : ∀ run ∈ runs, Closed cut run) :
    segment cut [] runs.flatten = (runs, []) := by
  have joined := segment_flatten_append cut closed []
  rw [List.append_nil] at joined
  rw [joined, segment, List.append_nil]

theorem segment_join (current items : List α) :
    (segment cut current items).1.flatten ++ (segment cut current items).2 =
      current ++ items := by
  induction items generalizing current with
  | nil => simp [segment]
  | cons item items ih =>
      rw [segment]
      split
      · rw [List.flatten_cons, List.append_assoc, ih []]
        simp
      · rw [ih]
        simp

theorem segmentsFrom_flatten (current items : List α) :
    (segmentsFrom cut current items).flatten = current ++ items := by
  rw [segmentsFrom, closeLast, ← segment_join cut current items]
  split
  · next empty => simp [empty]
  · simp

theorem segments_flatten (items : List α) :
    (segments cut items).flatten = items :=
  segmentsFrom_flatten cut [] items

theorem segment_map {β : Type} (label : β → α) (current items : List β) :
    segment cut (current.map label) (items.map label) =
      ((segment (fun run => cut (run.map label)) current items).1.map
          (List.map label),
        (segment (fun run => cut (run.map label)) current items).2.map label) := by
  induction items generalizing current with
  | nil => rfl
  | cons item items ih =>
      have next : current.map label ++ [label item] =
          (current ++ [item]).map label := by simp
      rw [List.map_cons, segment, segment, next]
      split
      · have rest := ih []
        rw [List.map_nil] at rest
        rw [rest]
        rfl
      · exact ih (current ++ [item])

theorem open_map {β : Type} (label : β → α) {run : List β} :
    Open cut (run.map label) ↔ Open (fun run => cut (run.map label)) run := by
  have mapped := segment_map cut label [] run
  rw [List.map_nil] at mapped
  rw [Open, Open, mapped]
  constructor
  · intro whole
    rw [Prod.mk.injEq, List.map_eq_nil_iff] at whole
    have joined := segment_join (fun run => cut (run.map label)) [] run
    rw [whole.1] at joined
    exact Prod.ext whole.1 joined
  · intro whole
    rw [whole]
    rfl

theorem closed_map {β : Type} (label : β → α) {run : List β}
    (closed : Closed (fun run => cut (run.map label)) run) :
    Closed cut (run.map label) := by
  have mapped := segment_map cut label [] run
  have whole : segment (fun run => cut (run.map label)) [] run = ([run], []) :=
    closed
  rw [List.map_nil, whole] at mapped
  exact mapped

/-- The segments closed while reading a front part are segments of the
whole. -/
theorem closed_subset_segmentsFrom (current left right : List α) :
    (segment cut current left).1 ⊆ segmentsFrom cut current (left ++ right) := by
  intro run member
  rw [segmentsFrom_append]
  exact List.mem_append_left _ member

theorem Closed.ne_nil {run : List α} (closed : Closed cut run) : run ≠ [] := by
  rintro rfl
  cases closed

private theorem segment_concat (run : List α) (item : α) :
    segment cut [] (run ++ [item]) =
      if cut ((segment cut [] run).2 ++ [item]) then
        ((segment cut [] run).1 ++ [(segment cut [] run).2 ++ [item]], [])
      else
        ((segment cut [] run).1, (segment cut [] run).2 ++ [item]) := by
  rw [segment_append, segment]
  split
  · rfl
  · rw [segment, List.append_nil]

private theorem open_of_no_closed {run : List α}
    (none : (segment cut [] run).1 = []) : Open cut run := by
  have joined := segment_join cut [] run
  rw [none] at joined
  exact Prod.ext none joined

theorem closed_concat {run : List α} {item : α} :
    Closed cut (run ++ [item]) ↔
      Open cut run ∧ cut (run ++ [item]) = true := by
  rw [Closed, segment_concat]
  constructor
  · intro whole
    split at whole
    · next ends =>
        rw [Prod.mk.injEq] at whole
        have none : (segment cut [] run).1 = [] := by
          have count := congrArg List.length whole.1
          simpa using count
        have opened := open_of_no_closed cut none
        have inside : segment cut [] run = ([], run) := opened
        rw [inside] at ends
        exact ⟨opened, ends⟩
    · rw [Prod.mk.injEq] at whole
      simp at whole
  · rintro ⟨opened, ends⟩
    have inside : segment cut [] run = ([], run) := opened
    rw [inside]
    simp [ends]

theorem open_concat {run : List α} {item : α} :
    Open cut (run ++ [item]) ↔
      Open cut run ∧ cut (run ++ [item]) = false := by
  rw [Open, segment_concat]
  constructor
  · intro whole
    split at whole
    · rw [Prod.mk.injEq] at whole
      simp at whole
    · next goesOn =>
        rw [Prod.mk.injEq] at whole
        have opened := open_of_no_closed cut whole.1
        have inside : segment cut [] run = ([], run) := opened
        rw [inside] at goesOn
        exact ⟨opened, by simpa using goesOn⟩
  · rintro ⟨opened, goesOn⟩
    have inside : segment cut [] run = ([], run) := opened
    rw [inside]
    simp [goesOn]

theorem Closed.cut_eq {run : List α} (closed : Closed cut run) :
    cut run = true := by
  induction run using List.reverseRecOn with
  | nil => cases closed
  | append_singleton run item _ => exact ((closed_concat cut).mp closed).2

/-- Reading on from an open segment closes only closed segments and leaves an
open one. -/
theorem segment_spec {current : List α} (opened : Open cut current)
    (items : List α) :
    (∀ run ∈ (segment cut current items).1, Closed cut run) ∧
      Open cut (segment cut current items).2 := by
  induction items generalizing current with
  | nil => exact ⟨nofun, opened⟩
  | cons item items ih =>
      rw [segment]
      split
      · next ends =>
          have closed := (closed_concat cut).mpr ⟨opened, ends⟩
          obtain ⟨others, final⟩ := @ih [] rfl
          refine ⟨?_, final⟩
          intro run member
          rcases List.mem_cons.mp member with rfl | later
          · exact closed
          · exact others run later
      · next goesOn =>
          exact ih ((open_concat cut).mpr ⟨opened, by simpa using goesOn⟩)

theorem segmentsFrom_ne_nil {current items : List α}
    (some : current ++ items ≠ []) : segmentsFrom cut current items ≠ [] := by
  intro empty
  have joined := segmentsFrom_flatten cut current items
  rw [empty] at joined
  exact some joined.symm

/-- All segments but the last are closed; the last is closed or was left
open. -/
theorem segments_split {items : List α} (filled : items ≠ []) :
    ∃ front last, segments cut items = front ++ [last] ∧
      (∀ run ∈ front, Closed cut run) ∧
      (Closed cut last ∨ (Open cut last ∧ last ≠ [])) := by
  obtain ⟨closed, opened⟩ := @segment_spec _ cut [] rfl items
  have some := @segmentsFrom_ne_nil _ cut [] items filled
  rw [segmentsFrom, closeLast] at some
  rw [segments, segmentsFrom, closeLast]
  split
  · next nothing =>
      rw [if_pos nothing] at some
      refine ⟨_, _, (List.dropLast_concat_getLast some).symm, ?_, .inl ?_⟩
      · intro run member
        exact closed run (List.dropLast_subset _ member)
      · exact closed _ (List.getLast_mem some)
  · next rest => exact ⟨_, _, rfl, closed, .inr ⟨opened, rest⟩⟩

/-- With at least two items to a closed segment, segmentation at least halves
a list. -/
theorem segments_length_le (pairs : ∀ run, cut run = true → 2 ≤ run.length)
    (items : List α) :
    2 * (segments cut items).length ≤ items.length + 1 := by
  have closed := (@segment_spec _ cut [] rfl items).1
  have joined := segment_join cut [] items
  have bound : ∀ runs : List (List α), (∀ run ∈ runs, Closed cut run) →
      2 * runs.length ≤ runs.flatten.length := by
    intro runs
    induction runs with
    | nil => simp
    | cons run runs ih =>
        intro all
        have first := pairs run (all run List.mem_cons_self).cut_eq
        have rest := ih (fun other member =>
          all other (List.mem_cons_of_mem _ member))
        rw [List.length_cons, List.flatten_cons, List.length_append]
        omega
  have inside := bound _ closed
  have total := congrArg List.length joined
  rw [List.length_append, List.nil_append] at total
  rw [segments, segmentsFrom, closeLast]
  split
  · omega
  · next rest =>
      have positive := List.length_pos_iff.mpr rest
      rw [List.length_append, List.length_singleton]
      omega

end Acetone.Lib

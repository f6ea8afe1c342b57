import Acetone.Lib.Outcome

/-!
# Cutting a list

The pieces that a list is cut into make up the list again, none of them is
empty, and none is longer than asked for.
-/

namespace Acetone.Lib

private theorem flatten_chunks {α : Type} {size : Nat} {items : List α} {current : Array α}
    {done : Array (List α)} : (List.toChunks.go size items current done).flatten =
      done.toList.flatten ++ (current.toList ++ items) := by
  induction items generalizing current done with
  | nil => simp [List.toChunks.go]
  | cons item items ih =>
      rw [List.toChunks.go]
      split
      · rw [ih]
        simp
      · rw [ih]
        simp

theorem flatten_toChunks {α : Type} (size : Nat) (items : List α) :
    (items.toChunks size).flatten = items := by
  unfold List.toChunks
  split
  · rfl
  · simp
  · rw [flatten_chunks]
    simp

private theorem nonempty_chunks {α : Type} {size : Nat} {items : List α} {current : Array α}
    {done : Array (List α)} (started : current.toList ≠ [])
    (nonempty : ∀ chunk ∈ done.toList, chunk ≠ []) :
    ∀ chunk ∈ List.toChunks.go size items current done, chunk ≠ [] := by
  induction items generalizing current done with
  | nil =>
      intro chunk member
      rw [List.toChunks.go, Array.toList_push, List.mem_append, List.mem_singleton] at member
      rcases member with earlier | rfl
      · exact nonempty chunk earlier
      · exact started
  | cons item items ih =>
      rw [List.toChunks.go]
      split
      · refine ih (by simp) ?_
        intro chunk member
        rw [Array.toList_push, List.mem_append, List.mem_singleton] at member
        rcases member with earlier | rfl
        · exact nonempty chunk earlier
        · exact started
      · exact ih (by simp) nonempty

theorem ne_nil_of_mem_toChunks {α : Type} {size : Nat} {items chunk : List α}
    (member : chunk ∈ items.toChunks size) : chunk ≠ [] := by
  unfold List.toChunks at member
  split at member
  · cases member
  · rw [List.mem_singleton] at member
    rw [member]
    assumption
  · exact nonempty_chunks (by simp) (by simp) chunk member

private theorem chunks_length_le {α : Type} {size : Nat} {items : List α} {current : Array α}
    {done : Array (List α)} (positive : 1 ≤ size) (started : current.size ≤ size)
    (short : ∀ chunk ∈ done.toList, chunk.length ≤ size) :
    ∀ chunk ∈ List.toChunks.go size items current done, chunk.length ≤ size := by
  have full : ∀ chunk ∈ (done.push current.toList).toList, chunk.length ≤ size := by
    intro chunk member
    rw [Array.toList_push, List.mem_append, List.mem_singleton] at member
    rcases member with earlier | rfl
    · exact short chunk earlier
    · exact started
  induction items generalizing current done with
  | nil => exact full
  | cons item items ih =>
      rw [List.toChunks.go]
      split
      · refine ih (by simpa using positive) full ?_
        intro chunk member
        rw [Array.toList_push, List.mem_append, List.mem_singleton] at member
        rcases member with earlier | rfl
        · exact full chunk earlier
        · simpa using positive
      · next room =>
        have different : current.size ≠ size := by simpa using room
        have grown : (current.push item).size ≤ size := by
          rw [Array.size_push]
          omega
        refine ih grown short ?_
        intro chunk member
        rw [Array.toList_push, List.mem_append, List.mem_singleton] at member
        rcases member with earlier | rfl
        · exact short chunk earlier
        · exact grown

theorem length_le_of_mem_toChunks {α : Type} {size : Nat} {items chunk : List α}
    (positive : 1 ≤ size) (member : chunk ∈ items.toChunks size) : chunk.length ≤ size := by
  unfold List.toChunks at member
  split at member
  · cases member
  · cases positive
  · exact chunks_length_le positive (by simpa using positive) (by simp) chunk member

end Acetone.Lib

import Acetone.Lib.Outcome
import Acetone.Lib.SortedMap
import Mathlib.Data.List.Induction
import Mathlib.Data.List.Perm.Subperm

/-!
# Moving and uniting entries of maps

An entry is moved by deleting it under one key and putting a value under another.
Moves whose targets are no sources can be made one after the other: every source ends
up vacant, and every target with the value of its moves.  Two maps are united by putting
the entries of one into the other, if the two agree where they meet.
-/

namespace Acetone.Lib

structure Move (K V : Type) where
  source : K
  target : K
  value : V

def Move.ops {K V : Type} (move : Move K V) : List (MapOp K V) :=
  [.delete move.source, .put move.target move.value]

variable {K V : Type} [LinearOrder K] {moves : List (Move K V)}

/-- No target is a source, and moves to one target agree on the value. -/
structure Movable (moves : List (Move K V)) : Prop where
  apart : ∀ left ∈ moves, ∀ right ∈ moves, left.target ≠ right.source
  agree : ∀ left ∈ moves, ∀ right ∈ moves, left.target = right.target → left.value = right.value

omit [LinearOrder K] in
private theorem Movable.init {last : Move K V} (movable : Movable (moves ++ [last])) :
    Movable moves where
  apart left isLeft right isRight :=
    movable.apart left (List.mem_append_left _ isLeft) right (List.mem_append_left _ isRight)
  agree left isLeft right isRight :=
    movable.agree left (List.mem_append_left _ isLeft) right (List.mem_append_left _ isRight)

/-- What the map holds after the moves. -/
theorem SortedMap.get_applyAll_moves (map : SortedMap K V) (movable : Movable moves) (key : K)
    (value : V) :
    (map.applyAll (moves.flatMap Move.ops)).get key = some value ↔
      (∃ move ∈ moves, move.target = key ∧ move.value = value) ∨
        map.get key = some value ∧ ∀ move ∈ moves, move.source ≠ key ∧ move.target ≠ key := by
  induction moves using List.reverseRecOn with
  | nil => simp [SortedMap.applyAll]
  | append_singleton moves last ih =>
      have isLast : last ∈ moves ++ [last] := List.mem_append_right _ (List.mem_singleton_self last)
      have split : map.applyAll ((moves ++ [last]).flatMap Move.ops) =
          ((map.applyAll (moves.flatMap Move.ops)).delete last.source).put last.target
            last.value := by
        rw [List.flatMap_append, SortedMap.applyAll_append, List.flatMap_singleton]
        rfl
      rw [split, SortedMap.get_put, SortedMap.get_delete]
      split
      · next isTarget =>
          constructor
          · intro same
            exact .inl ⟨last, isLast, isTarget, Option.some.inj same⟩
          · rintro (⟨move, member, same, rfl⟩ | ⟨-, free⟩)
            · exact congrArg some (movable.agree last isLast move member (isTarget.trans same.symm))
            · exact absurd isTarget (free last isLast).2
      · next notTarget =>
          split
          · next isSource =>
              constructor
              · intro absurd_
                cases absurd_
              · rintro (⟨move, member, same, -⟩ | ⟨-, free⟩)
                · exact absurd (same.trans isSource.symm) (movable.apart move member last isLast)
                · exact absurd isSource (free last isLast).1
          · next notSource =>
              rw [ih movable.init]
              refine or_congr ?_ (and_congr_right fun _ => ?_)
              · constructor
                · rintro ⟨move, member, ends⟩
                  exact ⟨move, List.mem_append_left _ member, ends⟩
                · rintro ⟨move, member, same, isValue⟩
                  rcases List.mem_append.mp member with before | final
                  · exact ⟨move, before, same, isValue⟩
                  · rw [List.mem_singleton.mp final] at same
                    exact absurd same notTarget
              · constructor
                · intro free move member
                  rcases List.mem_append.mp member with before | final
                  · exact free move before
                  · rw [List.mem_singleton.mp final]
                    exact ⟨notSource, notTarget⟩
                · exact fun free move member => free move (List.mem_append_left _ member)

section

variable {failure : Type} {agrees : V → V → Prop} [∀ current value, Decidable (agrees current value)]
  {refusal : K → failure}

def uniteEntry (agrees : V → V → Prop) [∀ current value, Decidable (agrees current value)]
    (refusal : K → failure) (map : SortedMap K V) (entry : K × V) :
    Except failure (SortedMap K V) :=
  match map.get entry.1 with
  | some current =>
      if agrees current entry.2 then .ok (map.put entry.1 entry.2)
      else .error (refusal entry.1)
  | none => .ok (map.put entry.1 entry.2)

private theorem uniteEntry_eq_ok {map next : SortedMap K V} {entry : K × V}
    (done : uniteEntry agrees refusal map entry = .ok next) :
    next = map.put entry.1 entry.2 ∧
      ∀ current, map.get entry.1 = some current → agrees current entry.2 := by
  rw [uniteEntry] at done
  split at done
  · next current isHere =>
      split at done
      · next agree =>
          cases done
          refine ⟨rfl, fun other found => ?_⟩
          cases isHere.symm.trans found
          exact agree
      · cases done
  · next none =>
      cases done
      exact ⟨rfl, fun current found => by cases none.symm.trans found⟩

private theorem foldlM_uniteEntry {entries : List (K × V)}
    (apart : entries.Pairwise fun left right => left.1 ≠ right.1) {start united : SortedMap K V}
    (folded : entries.foldlM (uniteEntry agrees refusal) start = .ok united) :
    (∀ entry ∈ entries, united.get entry.1 = some entry.2) ∧
      (∀ key, (∀ entry ∈ entries, entry.1 ≠ key) → united.get key = start.get key) ∧
      ∀ entry ∈ entries, ∀ current, start.get entry.1 = some current →
        agrees current entry.2 := by
  induction entries generalizing start with
  | nil =>
      cases folded
      exact ⟨fun _ member => absurd member List.not_mem_nil, fun _ _ => rfl,
        fun _ member => absurd member List.not_mem_nil⟩
  | cons entry entries ih =>
      obtain ⟨next, first, rest⟩ := bind_eq_ok.mp folded
      obtain ⟨rfl, agree⟩ := uniteEntry_eq_ok first
      obtain ⟨away, apart⟩ := List.pairwise_cons.mp apart
      obtain ⟨holds, keeps, agrees⟩ := ih apart rest
      refine ⟨?_, ?_, ?_⟩
      · intro other member
        rcases List.mem_cons.mp member with rfl | later
        · rw [keeps _ fun later isLater => (away later isLater).symm, SortedMap.get_put,
            if_pos rfl]
        · exact holds other later
      · intro key free
        obtain ⟨notFirst, notLater⟩ := List.forall_mem_cons.mp free
        rw [keeps key notLater, SortedMap.get_put, if_neg notFirst]
      · intro other member current isCurrent
        rcases List.mem_cons.mp member with rfl | later
        · exact agree current isCurrent
        · refine agrees other later current ?_
          rw [SortedMap.get_put, if_neg (away other later), isCurrent]

/-- The union of two maps that agree. -/
theorem SortedMap.get_of_united
    {step : SortedMap K V → K × V → Except failure (SortedMap K V)}
    (unites : ∀ map key value, step map (key, value) = uniteEntry agrees refusal map (key, value))
    {added start united : SortedMap K V}
    (folded : added.entries.foldlM step start = .ok united) :
    (∀ key, united.get key = (added.get key).or (start.get key)) ∧
      ∀ key value current, added.get key = some value → start.get key = some current →
        agrees current value := by
  have apart : added.entries.Pairwise fun left right => left.1 ≠ right.1 :=
    added.ascending.imp fun less => ne_of_lt less
  obtain rfl : step = uniteEntry agrees refusal := by
    funext map entry
    exact unites map entry.1 entry.2
  obtain ⟨holds, keeps, agree⟩ := foldlM_uniteEntry apart folded
  constructor
  · intro key
    cases isAdded : added.get key with
    | some value => exact holds (key, value) (SortedMap.get_eq_some_iff.mp isAdded)
    | none =>
        rw [Option.none_or]
        refine keeps key ?_
        rintro ⟨other, value⟩ member rfl
        rw [SortedMap.get_eq_some_iff.mpr member] at isAdded
        cases isAdded
  · intro key value current isAdded isCurrent
    exact agree (key, value) (SortedMap.get_eq_some_iff.mp isAdded) current isCurrent

end

/-- Rows keep apart under new keys just if there are as many keys as rows. -/
theorem nodup_map_iff_length {Row Key : Type} {keyOf : Row → Key} {rows : List Row}
    {keys : List Key} (distinct : keys.Nodup)
    (reached : ∀ key, key ∈ keys ↔ ∃ row ∈ rows, keyOf row = key) :
    (rows.map keyOf).Nodup ↔ keys.length = rows.length := by
  constructor
  · intro apart
    have perm : keys.Perm (rows.map keyOf) := by
      rw [List.perm_ext_iff_of_nodup distinct apart]
      intro key
      rw [reached, List.mem_map]
    rw [perm.length_eq, List.length_map]
  · intro count
    have within : keys ⊆ rows.map keyOf := by
      intro key member
      exact List.mem_map.mpr ((reached key).mp member)
    have perm := (List.subperm_of_subset distinct within).perm_of_length_le
      (by rw [List.length_map, count])
    exact perm.nodup distinct

end Acetone.Lib

import Acetone.Cypher.Governor

/-!
# The `range` function

The number of terms is computed in 128 bits and charged in 64, the terms
themselves stay in 64.
-/

namespace Acetone.Cypher

/-- How a call ends a process instead of answering it. -/
inductive Abort where
  | overflow
  | capacity
deriving DecidableEq

def rangeBound : Value → Except ExecError Int64
  | .int number => .ok number
  | other => .error (.invalidArgument ("range() needs integers, got " ++ other.typeName))

/-- The number of terms; the quotient is cut off towards zero. -/
def rangeCount (start stop step : Int64) : Nat :=
  let spanLen := stop.toInt - start.toInt
  if (0 < step.toInt ∧ spanLen < 0) ∨ (step.toInt < 0 ∧ 0 < spanLen) then 0
  else (spanLen.tdiv step.toInt + 1).toNat

def checkedAdd (left right : Int64) : Except Abort Int64 :=
  let sum := left.toInt + right.toInt
  if -2 ^ 63 ≤ sum ∧ sum < 2 ^ 63 then .ok (.ofInt sum) else .error .overflow

/-- The terms from one on.  The step is taken between two terms only. -/
def rangeTerms (step : Int64) : Int64 → Nat → Except Abort (List Int64)
  | _, 0 => .ok []
  | term, 1 => .ok [term]
  | term, count + 2 => do
      let next ← checkedAdd term step
      let terms ← rangeTerms step next (count + 1)
      .ok (term :: terms)

/-- The terms of a range, charged before they are allocated.  Whether a vector
of so many values can be allocated is for the allocator to say. -/
def rangeList (allocates : Nat → Bool) (governor : Governor) (start stop step : Int64) :
    Except Abort (Except ExecError Value × Governor) :=
  let count := rangeCount start stop step
  match governor.charge (.collection (.ofNat (min count (2 ^ 64 - 1)))) with
  | (some limit, charged) => .ok (.error (.resourceExceeded limit), charged)
  | (none, charged) =>
      let count := count % 2 ^ 64
      if allocates count then do
        let terms ← rangeTerms step start count
        .ok (.ok (.list (terms.map .int)), charged)
      else .error .capacity

def callRange (allocates : Nat → Bool) (governor : Governor) (arguments : List Value) :
    Except Abort (Except ExecError Value × Governor) :=
  match arguments.mapM rangeBound with
  | .error failure => .ok (.error failure, governor)
  | .ok bounds =>
      let step := bounds[2]?.getD 1
      if step = 0 then
        .ok (.error (.invalidArgument "range() step cannot be zero"), governor)
      else
        match bounds with
        | start :: stop :: _ => rangeList allocates governor start stop step
        | _ => .ok (.error (.invalidArgument "range() needs a start and an end"), governor)

/-- Whether a number is not beyond the end of a progression with this step. -/
def NotBeyond (stop step term : Int) : Prop :=
  (0 < step ∧ term ≤ stop) ∨ (step < 0 ∧ stop ≤ term)

instance decidableNotBeyond (stop step term : Int) : Decidable (NotBeyond stop step term) :=
  instDecidableOr

/-- All terms of an arithmetic progression that are not beyond its end, in
order. -/
def IsProgression (start stop step : Int64) (terms : List Int64) : Prop :=
  ∀ index : Nat, (terms.map Int64.toInt)[index]? =
    if NotBeyond stop.toInt step.toInt (start.toInt + index * step.toInt)
    then some (start.toInt + index * step.toInt) else none

/-- A call answers with the progression, unless the governor refuses the
collection. -/
def RangeExact (start stop step : Int64)
    (outcome : Except Abort (Except ExecError Value × Governor)) : Prop :=
  (∃ limit charged, outcome = .ok (.error (.resourceExceeded limit), charged)) ∨
    ∃ terms charged, outcome = .ok (.ok (.list (terms.map .int)), charged) ∧
      IsProgression start stop step terms

theorem lt_rangeCount_iff {start stop step : Int64} (nonzero : step ≠ 0) (index : Nat) :
    index < rangeCount start stop step ↔
      NotBeyond stop.toInt step.toInt (start.toInt + index * step.toInt) := by
  have moves : step.toInt ≠ 0 := fun zero => nonzero (Int64.toInt_inj.mp zero)
  simp only [rangeCount, NotBeyond]
  rcases Int.lt_or_gt_of_ne moves with down | up
  · have distance : (stop.toInt - start.toInt).tdiv step.toInt =
        (start.toInt - stop.toInt).tdiv (-step.toInt) := by
      rw [← Int.neg_tdiv_neg]
      congr 1
      omega
    by_cases away : 0 < stop.toInt - start.toInt
    · rw [if_pos (Or.inr ⟨down, away⟩)]
      have negative : index * step.toInt ≤ 0 :=
        Int.mul_nonpos_of_nonneg_of_nonpos (Int.natCast_nonneg _) (Int.le_of_lt down)
      omega
    · have within : index ≤ (start.toInt - stop.toInt) / -step.toInt ↔
          index * -step.toInt ≤ start.toInt - stop.toInt :=
        Int.le_ediv_iff_mul_le (by omega)
      have nonneg : 0 ≤ (start.toInt - stop.toInt) / -step.toInt :=
        Int.ediv_nonneg (by omega) (by omega)
      rw [if_neg (by omega), distance, Int.tdiv_eq_ediv_of_nonneg (by omega)]
      rw [Int.mul_neg] at within
      omega
  · by_cases away : stop.toInt - start.toInt < 0
    · rw [if_pos (Or.inl ⟨up, away⟩)]
      have positive : 0 ≤ index * step.toInt :=
        Int.mul_nonneg (Int.natCast_nonneg _) (Int.le_of_lt up)
      omega
    · have within : index ≤ (stop.toInt - start.toInt) / step.toInt ↔
          index * step.toInt ≤ stop.toInt - start.toInt :=
        Int.le_ediv_iff_mul_le up
      have nonneg : 0 ≤ (stop.toInt - start.toInt) / step.toInt :=
        Int.ediv_nonneg (by omega) (by omega)
      rw [if_neg (by omega), Int.tdiv_eq_ediv_of_nonneg (by omega)]
      omega

/-- The whole range of 64-bit integers, one by one: the only progression whose
terms a 64-bit word cannot count. -/
def IsWholeRange (start stop step : Int64) : Prop :=
  (start = .minValue ∧ stop = .maxValue ∧ step = 1) ∨
    (start = .maxValue ∧ stop = .minValue ∧ step = -1)

instance decidableIsWholeRange (start stop step : Int64) :
    Decidable (IsWholeRange start stop step) :=
  instDecidableOr

theorem rangeCount_le {start stop step : Int64} (nonzero : step ≠ 0) :
    rangeCount start stop step ≤ 2 ^ 64 ∧
      (rangeCount start stop step = 2 ^ 64 ↔ IsWholeRange start stop step) := by
  have startLow := start.le_toInt
  have startHigh := start.toInt_lt
  have stopLow := stop.le_toInt
  have stopHigh := stop.toInt_lt
  have beyond := @lt_rangeCount_iff start stop step nonzero (2 ^ 64)
  have last := @lt_rangeCount_iff start stop step nonzero (2 ^ 64 - 1)
  simp only [NotBeyond] at beyond last
  refine ⟨by omega, fun full => ?_, ?_⟩
  · have least : (Int64.minValue).toInt = -2 ^ 63 := rfl
    have most : (Int64.maxValue).toInt = 2 ^ 63 - 1 := rfl
    have up : (1 : Int64).toInt = 1 := rfl
    have down : (-1 : Int64).toInt = -1 := rfl
    simp only [IsWholeRange, ← Int64.toInt_inj, least, most, up, down]
    omega
  · rintro (⟨rfl, rfl, rfl⟩ | ⟨rfl, rfl, rfl⟩) <;> decide

theorem rangeTerms_eq_ok {step first : Int64} {count : Nat}
    (fits : ∀ index < count, -2 ^ 63 ≤ first.toInt + index * step.toInt ∧
      first.toInt + index * step.toInt < 2 ^ 63) :
    ∃ terms, rangeTerms step first count = .ok terms ∧
      terms.map Int64.toInt =
        (List.range count).map fun index : Nat => first.toInt + index * step.toInt := by
  induction count using Nat.twoStepInduction generalizing first with
  | zero => exact ⟨[], rfl, rfl⟩
  | one => exact ⟨[first], rfl, by simp⟩
  | more count _ ih =>
      obtain ⟨low, high⟩ := fits 1 (by omega)
      rw [Nat.cast_one, Int.one_mul] at low high
      have next : (Int64.ofInt (first.toInt + step.toInt)).toInt = first.toInt + step.toInt :=
        Int64.toInt_ofInt_of_le low high
      have later : ∀ index < count + 1,
          -2 ^ 63 ≤ (Int64.ofInt (first.toInt + step.toInt)).toInt + index * step.toInt ∧
            (Int64.ofInt (first.toInt + step.toInt)).toInt + index * step.toInt < 2 ^ 63 := by
        intro index below
        have term := fits (index + 1) (by omega)
        rw [Nat.cast_succ, Int.add_mul, Int.one_mul] at term
        rw [next]
        omega
      obtain ⟨terms, made, same⟩ := ih later
      refine ⟨first :: terms, ?_, ?_⟩
      · rw [rangeTerms, checkedAdd, if_pos ⟨low, high⟩]
        simp only [bind, Except.bind, made]
      · rw [List.map_cons, same, next, List.range_succ_eq_map (n := count + 1)]
        simp only [List.map_cons, List.map_map, Nat.cast_zero, Int.zero_mul, Int.add_zero]
        congr 1
        apply List.map_congr_left
        intro index _
        simp only [Function.comp, Nat.succ_eq_add_one, Nat.cast_add, Nat.cast_one, Int.add_mul,
          Int.one_mul]
        omega

private theorem getElem?_terms (start step : Int) (count index : Nat) :
    ((List.range count).map fun index : Nat => start + index * step)[index]? =
      if index < count then some (start + index * step) else none := by
  rw [List.getElem?_map]
  by_cases within : index < count
  · rw [List.getElem?_range within, if_pos within]
    rfl
  · rw [List.getElem?_eq_none (by simpa using within), if_neg within]
    rfl

theorem rangeTerms_progression {start stop step : Int64} (nonzero : step ≠ 0) :
    ∃ terms, rangeTerms step start (rangeCount start stop step) = .ok terms ∧
      IsProgression start stop step terms := by
  have fits : ∀ index < rangeCount start stop step,
      -2 ^ 63 ≤ start.toInt + index * step.toInt ∧
        start.toInt + index * step.toInt < 2 ^ 63 := by
    intro index counted
    have startLow := start.le_toInt
    have startHigh := start.toInt_lt
    have stopLow := stop.le_toInt
    have stopHigh := stop.toInt_lt
    rcases (lt_rangeCount_iff nonzero index).mp counted with ⟨up, before⟩ | ⟨down, before⟩
    · have forward : 0 ≤ index * step.toInt :=
        Int.mul_nonneg (Int.natCast_nonneg _) (Int.le_of_lt up)
      omega
    · have backward : index * step.toInt ≤ 0 :=
        Int.mul_nonpos_of_nonneg_of_nonpos (Int.natCast_nonneg _) (Int.le_of_lt down)
      omega
  obtain ⟨terms, made, same⟩ := rangeTerms_eq_ok fits
  refine ⟨terms, made, fun index => ?_⟩
  rw [same, getElem?_terms]
  simp only [lt_rangeCount_iff nonzero index]

/-- What the governor is asked for before a range is built. -/
def rangeCharge (governor : Governor) (start stop step : Int64) :
    Option ResourceLimit × Governor :=
  governor.charge (.collection (.ofNat (min (rangeCount start stop step) (2 ^ 64 - 1))))

private theorem not_exact_capacity {start stop step : Int64} :
    ¬ RangeExact start stop step (.error .capacity) := by
  rintro (⟨_, _, outcome⟩ | ⟨_, _, outcome, _⟩) <;> cases outcome

/-- A progression has at least its first term, unless that is beyond the end. -/
private theorem not_exact_nil {start stop step : Int64} (nonzero : step ≠ 0)
    {charged : Governor} (some : 0 < rangeCount start stop step) :
    ¬ RangeExact start stop step (.ok (.ok (.list []), charged)) := by
  rintro (⟨_, _, outcome⟩ | ⟨terms, _, outcome, progression⟩)
  · cases outcome
  · have empty : terms = [] := by
      injection outcome with pair
      injection pair with answer
      injection answer with value
      injection value with items
      exact List.map_eq_nil_iff.mp items.symm
    have first := progression 0
    rw [if_pos ((lt_rangeCount_iff nonzero 0).mp some), empty] at first
    cases first

theorem rangeList_exact_iff (allocates : Nat → Bool) (governor : Governor)
    {start stop step : Int64} (nonzero : step ≠ 0) :
    rangeList allocates governor start stop step ≠ .error .overflow ∧
      (RangeExact start stop step (rangeList allocates governor start stop step) ↔
        (rangeCharge governor start stop step).1.isSome ∨
          (¬ IsWholeRange start stop step ∧ allocates (rangeCount start stop step))) := by
  obtain ⟨bound, whole⟩ := @rangeCount_le start stop step nonzero
  rw [rangeList, rangeCharge]
  rcases governor.charge (.collection (.ofNat (min (rangeCount start stop step) (2 ^ 64 - 1))))
    with ⟨refusal, charged⟩
  cases refusal with
  | some limit =>
      exact ⟨by rintro ⟨⟩, iff_of_true (.inl ⟨limit, charged, rfl⟩) (.inl rfl)⟩
  | none =>
      simp only [Option.isSome_none, Bool.false_eq_true, false_or]
      by_cases isWhole : IsWholeRange start stop step
      · have full := whole.mpr isWhole
        rw [full]
        simp only [isWhole, not_true_eq_false, false_and, iff_false]
        split
        · exact ⟨by rintro ⟨⟩, not_exact_nil nonzero (by omega)⟩
        · exact ⟨by rintro ⟨⟩, not_exact_capacity⟩
      · have counted : rangeCount start stop step < 2 ^ 64 := by
          have notFull := mt whole.mp isWhole
          omega
        rw [Nat.mod_eq_of_lt counted]
        obtain ⟨terms, made, progression⟩ := @rangeTerms_progression start stop step nonzero
        simp only [isWhole, not_false_eq_true, true_and]
        split
        · next granted =>
            rw [made]
            exact ⟨by rintro ⟨⟩, iff_of_true (.inr ⟨terms, charged, rfl, progression⟩) granted⟩
        · next refused => exact ⟨by rintro ⟨⟩, iff_of_false not_exact_capacity refused⟩

def rangeArguments (start stop : Int64) (step : Option Int64) : List Value :=
  .int start :: .int stop :: (step.map .int).toList

private theorem callRange_arguments {allocates : Nat → Bool} {governor : Governor}
    {start stop : Int64} {step : Option Int64} (nonzero : step.getD 1 ≠ 0) :
    callRange allocates governor (rangeArguments start stop step) =
      rangeList allocates governor start stop (step.getD 1) := by
  cases step with
  | none => rfl
  | some step =>
      have bounds : (rangeArguments start stop (some step)).mapM rangeBound =
          .ok [start, stop, step] := rfl
      have third : [start, stop, step][2]?.getD 1 = step := rfl
      simp only [callRange, bounds, third]
      exact if_neg nonzero

/-- A range is exact as long as a machine word counts its terms. -/
theorem range_exact_iff (allocates : Nat → Bool) (governor : Governor) (start stop : Int64)
    (step : Option Int64) (nonzero : step.getD 1 ≠ 0) :
    callRange allocates governor (rangeArguments start stop step) ≠ .error .overflow ∧
      (RangeExact start stop (step.getD 1)
          (callRange allocates governor (rangeArguments start stop step)) ↔
        (rangeCharge governor start stop (step.getD 1)).1.isSome ∨
          (¬ IsWholeRange start stop (step.getD 1) ∧
            allocates (rangeCount start stop (step.getD 1)))) := by
  rw [callRange_arguments nonzero]
  exact rangeList_exact_iff allocates governor nonzero

/-- Three steps down from the greatest integer, under the widest caps. -/
theorem range_exact_sample :
    RangeExact .maxValue 0x7ffffffffffffff0 (-7) (callRange (fun _ => true)
      (.new .unbounded none) (rangeArguments .maxValue 0x7ffffffffffffff0 (some (-7)))) :=
  (range_exact_iff (fun _ => true) (.new .unbounded none) .maxValue 0x7ffffffffffffff0
    (some (-7)) (by decide)).2.mpr (.inr ⟨by decide, rfl⟩)

/-- Counting all 64-bit integers yields none of them. -/
theorem range_whole_empty :
    callRange (fun _ => true) (.new .unbounded none)
        (rangeArguments .minValue .maxValue none) =
        .ok (.ok (.list []), { Governor.new .unbounded none with work := .ofNat (2 ^ 64 - 1) }) ∧
      ¬ ∀ (allocates : Nat → Bool) (governor : Governor) (start stop : Int64)
        (step : Option Int64), step.getD 1 ≠ 0 →
        RangeExact start stop (step.getD 1)
          (callRange allocates governor (rangeArguments start stop step)) := by
  have empty : callRange (fun _ => true) (.new .unbounded none)
      (rangeArguments .minValue .maxValue none) =
        .ok (.ok (.list []), { Governor.new .unbounded none with work := .ofNat (2 ^ 64 - 1) }) := by
    rfl
  refine ⟨empty, fun always => ?_⟩
  have exact := always (fun _ => true) (.new .unbounded none) .minValue .maxValue none (by decide)
  rw [empty] at exact
  exact not_exact_nil (by decide) (by decide) exact

end Acetone.Cypher

import Acetone.Cypher.Projection
import Acetone.Cypher.Range

/-!
# The row cap of `UNWIND`

An `UNWIND` in front of a `WITH` that cuts its rows off makes only the rows that
are kept.  Nothing is charged for that would not be charged for without the
cap, but for the bounds themselves, which are evaluated once more.
-/

namespace Acetone.Cypher

open Acetone.Lib Acetone.Model

namespace Governor

/-- The clock never comes too late. -/
def Punctual (governor : Governor) : Prop :=
  ∀ isLate, governor.deadline = some isLate → ∀ work, isLate work = false

/-- The same limits, and no more has been done. -/
structure Lighter (light heavy : Governor) : Prop where
  limits : light.limits = heavy.limits
  work : light.work ≤ heavy.work
  expansion : light.expansion ≤ heavy.expansion
  scanned : light.scanned ≤ heavy.scanned
  lightPunctual : light.Punctual
  heavyPunctual : heavy.Punctual

theorem Lighter.self {governor : Governor} (punctual : governor.Punctual) :
    governor.Lighter governor :=
  ⟨rfl, UInt64.le_refl _, UInt64.le_refl _, UInt64.le_refl _, punctual, punctual⟩

private theorem le_saturatingAdd (left right : UInt64) : left ≤ saturatingAdd left right := by
  have bound := left.toNat_lt
  rw [UInt64.le_iff_toNat_le, toNat_saturatingAdd]
  omega

private theorem saturatingAdd_mono {low high : UInt64} (le : low ≤ high) (right : UInt64) :
    saturatingAdd low right ≤ saturatingAdd high right := by
  rw [UInt64.le_iff_toNat_le] at le ⊢
  rw [toNat_saturatingAdd, toNat_saturatingAdd]
  omega

private theorem chargeWork_spec {governor : Governor} (punctual : governor.Punctual)
    (units : UInt64) :
    ((governor.chargeWork units).1 = none ↔
      ¬ governor.limits.maxWorkUnits < saturatingAdd governor.work units) ∧
    ∃ poll, (governor.chargeWork units).2 =
      { governor with work := saturatingAdd governor.work units, workAtLastPoll := poll } := by
  rw [chargeWork]
  dsimp only
  split
  · next exceeds => exact ⟨⟨nofun, fun fits => absurd exceeds fits⟩, _, rfl⟩
  · next fits =>
    split
    · exact ⟨⟨fun _ => fits, fun _ => rfl⟩, _, rfl⟩
    · next isLate isDeadline =>
      have inTime := punctual isLate isDeadline
      split
      · rw [inTime]
        exact ⟨⟨fun _ => fits, fun _ => rfl⟩, _, rfl⟩
      · exact ⟨⟨fun _ => fits, fun _ => rfl⟩, _, rfl⟩

private theorem chargeWork_lighter {light heavy : Governor} (lighter : light.Lighter heavy)
    {units : UInt64} (accepted : (heavy.chargeWork units).1 = none) :
    ((light.chargeWork units).1 = none ∧
      (light.chargeWork units).2.Lighter (heavy.chargeWork units).2) ∧
    light.Lighter (heavy.chargeWork units).2 := by
  obtain ⟨heavyFits, heavyPoll, isHeavy⟩ := chargeWork_spec lighter.heavyPunctual units
  obtain ⟨lightFits, lightPoll, isLight⟩ := chargeWork_spec lighter.lightPunctual units
  have more := saturatingAdd_mono lighter.work units
  have fits := heavyFits.mp accepted
  rw [UInt64.not_lt] at fits
  rw [isHeavy, isLight, lightFits, lighter.limits, UInt64.not_lt]
  exact ⟨⟨UInt64.le_trans more fits, rfl, more, lighter.expansion, lighter.scanned,
    lighter.lightPunctual, lighter.heavyPunctual⟩, lighter.limits,
    UInt64.le_trans lighter.work (le_saturatingAdd _ _), lighter.expansion, lighter.scanned,
    lighter.lightPunctual, lighter.heavyPunctual⟩

theorem charge_lighter {light heavy : Governor} (lighter : light.Lighter heavy) {charge : Charge}
    (accepted : (heavy.charge charge).1 = none) :
    ((light.charge charge).1 = none ∧ (light.charge charge).2.Lighter (heavy.charge charge).2) ∧
      light.Lighter (heavy.charge charge).2 := by
  cases charge with
  | row setLen =>
      simp only [Governor.charge, lighter.limits] at accepted ⊢
      split at accepted
      · cases accepted
      · next fits =>
        rw [if_neg fits, if_neg fits]
        exact chargeWork_lighter lighter accepted
  | collection len =>
      simp only [Governor.charge, lighter.limits] at accepted ⊢
      split at accepted
      · cases accepted
      · next fits =>
        rw [if_neg fits, if_neg fits]
        exact chargeWork_lighter lighter accepted
  | collectionPush currentLen =>
      simp only [Governor.charge, lighter.limits] at accepted ⊢
      split at accepted
      · cases accepted
      · next fits =>
        rw [if_neg fits, if_neg fits]
        exact chargeWork_lighter lighter accepted
  | hop =>
      have more := saturatingAdd_mono lighter.expansion 1
      simp only [Governor.charge] at accepted ⊢
      split at accepted
      · cases accepted
      · next fits =>
        have lightFits : ¬ light.limits.maxExpansionSteps < saturatingAdd light.expansion 1 := by
          rw [lighter.limits]
          exact fun exceeds => fits (UInt64.lt_of_lt_of_le exceeds more)
        rw [if_neg fits, if_neg lightFits]
        have both : Lighter { light with expansion := saturatingAdd light.expansion 1 }
            { heavy with expansion := saturatingAdd heavy.expansion 1 } :=
          ⟨lighter.limits, lighter.work, more, lighter.scanned, lighter.lightPunctual,
            lighter.heavyPunctual⟩
        have one : light.Lighter { heavy with expansion := saturatingAdd heavy.expansion 1 } :=
          ⟨lighter.limits, lighter.work, UInt64.le_trans lighter.expansion (le_saturatingAdd _ _),
            lighter.scanned, lighter.lightPunctual, lighter.heavyPunctual⟩
        exact ⟨(chargeWork_lighter both accepted).1, (chargeWork_lighter one accepted).2⟩
  | scan candidates =>
      have more := saturatingAdd_mono lighter.scanned candidates
      simp only [Governor.charge] at accepted ⊢
      split at accepted
      · cases accepted
      · next fits =>
        have lightFits :
            ¬ light.limits.maxScannedCandidates < saturatingAdd light.scanned candidates := by
          rw [lighter.limits]
          exact fun exceeds => fits (UInt64.lt_of_lt_of_le exceeds more)
        rw [if_neg fits, if_neg lightFits]
        have both : Lighter { light with scanned := saturatingAdd light.scanned candidates }
            { heavy with scanned := saturatingAdd heavy.scanned candidates } :=
          ⟨lighter.limits, lighter.work, lighter.expansion, more, lighter.lightPunctual,
            lighter.heavyPunctual⟩
        have one :
            light.Lighter { heavy with scanned := saturatingAdd heavy.scanned candidates } :=
          ⟨lighter.limits, lighter.work, lighter.expansion,
            UInt64.le_trans lighter.scanned (le_saturatingAdd _ _), lighter.lightPunctual,
            lighter.heavyPunctual⟩
        exact ⟨(chargeWork_lighter both accepted).1, (chargeWork_lighter one accepted).2⟩

end Governor

/-- Work weighs: what is accepted after more work is accepted after less. -/
theorem governorMeter_weighs : governorMeter.Weighs Governor.Lighter where
  accepts _ _ _ lighter accepted := (Governor.charge_lighter lighter accepted).1
  skips _ _ _ lighter accepted := (Governor.charge_lighter lighter accepted).2

variable {Graph : Type}

private theorem unwindItems_prefix {alias_ : VarId} {row : Row} {items : List Value}
    {out rows : List Row} {met : Bool} {charges : List Charge}
    (yields : (unwindItems alias_ row none items out).Yields charges (rows, met)) :
    met = false ∧ out <+: rows := by
  induction items generalizing out charges with
  | nil =>
      obtain ⟨-, same⟩ := Metered.yields_pure.mp yields
      obtain ⟨rfl, rfl⟩ := Prod.mk.inj same
      exact ⟨rfl, List.prefix_refl _⟩
  | cons item items ih =>
      rw [unwindItems, Option.any_none, if_neg Bool.false_ne_true, Metered.yields_bind] at yields
      obtain ⟨_, _, _, -, rest, -⟩ := yields
      obtain ⟨notMet, starts⟩ := ih rest
      exact ⟨notMet, (List.prefix_append _ _).trans starts⟩

/-- The items of one list under the cap: the first rows, and no more charges. -/
private theorem unwindItems_cap {alias_ : VarId} {row : Row} {cap : Nat} {items : List Value}
    {out rows : List Row} {met : Bool} {charges : List Charge} (room : out.length ≤ cap)
    (yields : (unwindItems alias_ row none items out).Yields charges (rows, met)) :
    ∃ fewer met', (unwindItems alias_ row (some cap) items out).Yields fewer (rows.take cap, met') ∧
      fewer.Sublist charges ∧ (met' = true → cap ≤ rows.length) ∧
      (met' = false → rows.length ≤ cap) := by
  induction items generalizing out charges with
  | nil =>
      obtain ⟨rfl, same⟩ := Metered.yields_pure.mp yields
      obtain ⟨rfl, -⟩ := Prod.mk.inj same
      exact ⟨[], false, by rw [List.take_of_length_le room]; rfl, .slnil, nofun, fun _ => room⟩
  | cons item items ih =>
      rw [unwindItems, Option.any_none, if_neg Bool.false_ne_true, Metered.yields_bind] at yields
      obtain ⟨before, _, after, isCharge, rest, rfl⟩ := yields
      obtain ⟨-, starts⟩ := unwindItems_prefix rest
      have longer : out.length < rows.length := by
        have bound := starts.length_le
        rw [List.length_append, List.length_singleton] at bound
        omega
      by_cases full : cap ≤ out.length
      · obtain rfl : out.length = cap := le_antisymm room full
        refine ⟨[], true, ?_, List.nil_sublist _, fun _ => by omega, nofun⟩
        rw [unwindItems, Option.any_some, decide_eq_true (le_refl _), if_pos rfl]
        have first : out = rows.take out.length := by
          obtain ⟨behind, rfl⟩ := (List.prefix_append out _).trans starts
          exact List.take_left.symm
        rw [← first]
        rfl
      · obtain ⟨fewer, met', capped, sublist, isMet, notMet⟩ := ih (by
          rw [List.length_append, List.length_singleton]
          omega) rest
        refine ⟨before ++ fewer, met', ?_, (List.append_sublist_append_left _).mpr sublist, isMet,
          notMet⟩
        rw [unwindItems, Option.any_some, decide_eq_false full, if_neg Bool.false_ne_true,
          Metered.yields_bind]
        exact ⟨before, _, fewer, isCharge, capped, rfl⟩

private theorem unwindRows_prefix {graph : Graph} {expr : MeteredExpr Graph} {alias_ : VarId}
    {input out rows : List Row} {charges : List Charge}
    (yields : (unwindRows graph expr alias_ none input out).Yields charges rows) :
    out <+: rows := by
  induction input generalizing out charges with
  | nil =>
      obtain ⟨-, rfl⟩ := Metered.yields_pure.mp yields
      exact List.prefix_refl _
  | cons row input ih =>
      rw [unwindRows, Metered.yields_bind] at yields
      obtain ⟨_, list, _, -, rest, -⟩ := yields
      split at rest
      · exact ih rest
      · rw [Metered.yields_bind] at rest
        obtain ⟨_, ⟨made, met⟩, _, isMade, rest, -⟩ := rest
        obtain ⟨rfl, starts⟩ := unwindItems_prefix isMade
        exact starts.trans (ih rest)
      · obtain ⟨-, failed⟩ := Metered.yields_free.mp rest
        cases failed

/-- `UNWIND` under the cap makes the first of the rows that it makes without,
and is charged for no more. -/
private theorem unwindRows_cap {graph : Graph} {expr : MeteredExpr Graph} {alias_ : VarId}
    {cap : Nat} {input out rows : List Row} {charges : List Charge} (room : out.length ≤ cap)
    (yields : (unwindRows graph expr alias_ none input out).Yields charges rows) :
    ∃ fewer, (unwindRows graph expr alias_ (some cap) input out).Yields fewer (rows.take cap) ∧
      fewer.Sublist charges := by
  induction input generalizing out charges with
  | nil =>
      obtain ⟨rfl, rfl⟩ := Metered.yields_pure.mp yields
      exact ⟨[], by rw [List.take_of_length_le room]; rfl, .slnil⟩
  | cons row input ih =>
      rw [unwindRows, Metered.yields_bind] at yields
      obtain ⟨before, list, after, isList, rest, rfl⟩ := yields
      cases list with
      | null =>
          obtain ⟨fewer, capped, sublist⟩ := ih room rest
          refine ⟨before ++ fewer, ?_, (List.append_sublist_append_left _).mpr sublist⟩
          rw [unwindRows, Metered.yields_bind]
          exact ⟨before, _, fewer, isList, capped, rfl⟩
      | list items =>
          dsimp only at rest
          rw [Metered.yields_bind] at rest
          obtain ⟨making, ⟨made, met⟩, further, isMade, rest, rfl⟩ := rest
          obtain ⟨rfl, -⟩ := unwindItems_prefix isMade
          obtain ⟨fewer, met', capped, sublist, isMet, notMet⟩ := unwindItems_cap room isMade
          cases met' with
          | true =>
              obtain ⟨behind, rfl⟩ := unwindRows_prefix rest
              refine ⟨before ++ fewer, ?_, (List.append_sublist_append_left _).mpr
                (sublist.trans (List.sublist_append_left _ _))⟩
              rw [unwindRows, Metered.yields_bind]
              refine ⟨before, _, fewer, isList, ?_, rfl⟩
              dsimp only
              rw [Metered.yields_bind]
              refine ⟨fewer, _, [], capped, ?_, (List.append_nil _).symm⟩
              rw [List.take_append_of_le_length (isMet rfl)]
              rfl
          | false =>
              have fits := notMet rfl
              rw [List.take_of_length_le fits] at capped
              obtain ⟨fewest, next, nextSublist⟩ := ih fits rest
              refine ⟨before ++ (fewer ++ fewest), ?_, (List.append_sublist_append_left _).mpr
                (sublist.append nextSublist)⟩
              rw [unwindRows, Metered.yields_bind]
              refine ⟨before, _, fewer ++ fewest, isList, ?_, rfl⟩
              dsimp only
              rw [Metered.yields_bind]
              exact ⟨fewer, _, fewest, capped, next, rfl⟩
      | _ =>
          obtain ⟨-, failed⟩ := Metered.yields_free.mp rest
          cases failed

private theorem mergeRows_prefix {graph : Graph} {items : List (BoundProjectionItem Graph)}
    {rows merged out : List Row} {charges : List Charge}
    (yields : (mergeRows graph items rows merged).Yields charges out) : merged <+: out := by
  induction rows generalizing merged charges with
  | nil =>
      obtain ⟨-, rfl⟩ := Metered.yields_pure.mp yields
      exact List.prefix_refl _
  | cons row rows ih =>
      rw [mergeRows, Metered.yields_bind] at yields
      obtain ⟨_, projected, _, -, rest, -⟩ := yields
      rw [Metered.yields_bind] at rest
      obtain ⟨_, _, _, -, rest, -⟩ := rest
      exact (List.prefix_append _ _).trans (ih rest)

private theorem mergeRows_take {graph : Graph} {items : List (BoundProjectionItem Graph)}
    {rows merged out : List Row} {charges : List Charge}
    (yields : (mergeRows graph items rows merged).Yields charges out) (count : Nat) :
    ∃ fewer, (mergeRows graph items (rows.take count) merged).Yields fewer
      (out.take (merged.length + count)) ∧ fewer.Sublist charges := by
  induction rows generalizing merged charges count with
  | nil =>
      obtain ⟨rfl, rfl⟩ := Metered.yields_pure.mp yields
      rw [List.take_nil, List.take_of_length_le (Nat.le_add_right _ _)]
      exact ⟨[], rfl, .slnil⟩
  | cons row rows ih =>
      cases count with
      | zero =>
          obtain ⟨behind, rfl⟩ := mergeRows_prefix yields
          refine ⟨[], ?_, List.nil_sublist _⟩
          rw [Nat.add_zero, List.take_left, List.take_zero]
          rfl
      | succ count =>
          rw [mergeRows, Metered.yields_bind] at yields
          obtain ⟨before, projected, after, isProjected, rest, rfl⟩ := yields
          rw [Metered.yields_bind] at rest
          obtain ⟨charge, _, further, isCharge, rest, rfl⟩ := rest
          obtain ⟨fewer, first, sublist⟩ := ih rest count
          refine ⟨before ++ (charge ++ fewer), ?_, (List.append_sublist_append_left _).mpr
            ((List.append_sublist_append_left _).mpr sublist)⟩
          rw [List.take_succ_cons, mergeRows, Metered.yields_bind]
          refine ⟨before, projected, charge ++ fewer, isProjected, ?_, rfl⟩
          rw [Metered.yields_bind]
          refine ⟨charge, _, fewer, isCharge, ?_, rfl⟩
          rwa [List.length_append, List.length_singleton, Nat.add_right_comm, Nat.add_assoc] at first

variable {format : Value → String}

private theorem usizeBound_lt {value : Value} {count : Nat}
    (isBound : usizeBound format value = .ok count) : count < 2 ^ 63 := by
  cases value with
  | int number =>
      have bound := number.toInt_lt
      rw [usizeBound] at isBound
      split at isBound
      · cases isBound
        omega
      · cases isBound
  | _ => cases isBound

private theorem evalBound_lt {graph : Graph} {expr : MeteredExpr Graph} {count : Nat}
    {charges : List Charge} (yields : (evalBound format graph expr).Yields charges count) :
    count < 2 ^ 63 := by
  rw [evalBound, Metered.yields_bind] at yields
  obtain ⟨_, _, _, -, isBound, -⟩ := yields
  exact usizeBound_lt (Metered.yields_free.mp isBound).2

private def Bounded (projection : BoundProjection Graph) : Prop :=
  projection.distinct = false ∧ projection.aggregating = false ∧
    projection.orderBy.isEmpty = true ∧ projection.limit ≠ none

private theorem unwindRowCap_of_unbounded {graph : Graph} {projection : BoundProjection Graph}
    (unbounded : ¬ Bounded projection) :
    unwindRowCap format graph (some (.with_ projection)) = pure none := by
  rw [unwindRowCap]
  split
  · rfl
  · next plain =>
    split
    · rfl
    · next limit isLimit =>
      refine absurd ⟨?_, ?_, ?_, by rw [isLimit]; exact nofun⟩ unbounded <;> simp_all

private theorem unwindRowCap_some {graph : Graph} {next : Option (BoundClause Graph)} {cap : Nat}
    {charges : List Charge}
    (yields : (unwindRowCap format graph next).Yields charges (some cap)) :
    ∃ projection, next = some (.with_ projection) ∧ Bounded projection := by
  unfold unwindRowCap at yields
  split at yields
  · next projection =>
    refine ⟨projection, rfl, ?_⟩
    by_contra unbounded
    rw [← unwindRowCap, unwindRowCap_of_unbounded unbounded] at yields
    cases (Metered.yields_pure.mp yields).2
  · cases (Metered.yields_pure.mp yields).2

private theorem truncateRows_take {graph : Graph} {projection : BoundProjection Graph} {cap : Nat}
    {rows kept : List Row} {charges capCharges : List Charge} (bounded : Bounded projection)
    (isCap : (unwindRowCap format graph (some (.with_ projection))).Yields capCharges (some cap))
    (yields : (truncateRows format graph projection rows).Yields charges kept) :
    (truncateRows format graph projection (rows.take cap)).Yields charges kept := by
  obtain ⟨notDistinct, notAggregating, noOrder, hasLimit⟩ := bounded
  obtain ⟨limit, isLimit⟩ := Option.ne_none_iff_exists'.mp hasLimit
  rw [unwindRowCap, notDistinct, notAggregating, noOrder, isLimit] at isCap
  simp only [Bool.or_false, Bool.not_true, Bool.false_eq_true, if_false] at isCap
  rw [Metered.yields_bind] at isCap
  obtain ⟨_, count, _, isCount, isCap, -⟩ := isCap
  have countBound := evalBound_lt isCount
  rw [truncateRows, isLimit, Metered.yields_bind] at yields ⊢
  obtain ⟨before, skipped, after, isSkipped, isKept, rfl⟩ := yields
  rw [limitRows, Metered.yields_bind] at isKept
  obtain ⟨limitCharges, taken, nothing, isTaken, isKept, rfl⟩ := isKept
  obtain ⟨rfl, rfl⟩ := Metered.yields_pure.mp isKept
  obtain ⟨-, rfl⟩ := isCount.unique isTaken
  cases isSkip : projection.skip with
  | none =>
      rw [isSkip] at isSkipped isCap
      obtain ⟨rfl, rfl⟩ := Metered.yields_pure.mp isSkipped
      obtain ⟨-, same⟩ := Metered.yields_pure.mp isCap
      obtain rfl : count = cap := Option.some.inj same
      refine ⟨[], _, limitCharges ++ [], rfl, ?_, rfl⟩
      rw [limitRows, Metered.yields_bind]
      refine ⟨limitCharges, count, [], isTaken, ?_, rfl⟩
      rw [List.take_take, min_self]
      rfl
  | some skip =>
      rw [isSkip] at isSkipped isCap
      dsimp only at isCap
      rw [skipRows, Metered.yields_bind] at isSkipped
      rw [Metered.yields_bind] at isCap
      obtain ⟨skipCharges, offset, _, isOffset, isSkipped, rfl⟩ := isSkipped
      obtain ⟨rfl, rfl⟩ := Metered.yields_pure.mp isSkipped
      obtain ⟨_, capOffset, _, isCapOffset, isCap, -⟩ := isCap
      obtain ⟨-, rfl⟩ := isCapOffset.unique isOffset
      have offsetBound := evalBound_lt isOffset
      obtain ⟨-, same⟩ := Metered.yields_pure.mp isCap
      obtain rfl : count + capOffset = cap := by
        have sum := Option.some.inj same
        omega
      refine ⟨skipCharges ++ [], (rows.take (count + capOffset)).drop capOffset,
        limitCharges ++ [], ?_, ?_, rfl⟩
      · rw [skipRows, Metered.yields_bind]
        exact ⟨skipCharges, capOffset, [], isOffset, rfl, rfl⟩
      · rw [limitRows, Metered.yields_bind]
        refine ⟨limitCharges, count, [], isTaken, ?_, rfl⟩
        rw [List.drop_take, Nat.add_sub_cancel, List.take_take, min_self]
        rfl

private theorem project_bounded (graph : Graph) {projection : BoundProjection Graph}
    (bounded : Bounded projection) (isWith : Bool) :
    ∃ last : List Row → Exec (List String × List Row), ∀ rows,
      project format graph rows projection isWith =
        mergeRows graph projection.items rows [] >>= fun merged =>
          truncateRows format graph projection merged >>= last := by
  obtain ⟨notDistinct, notAggregating, noOrder, -⟩ := bounded
  let named := fun rows : List Row => (projection.items.map BoundProjectionItem.name, rows)
  refine ⟨fun merged => (if isWith then projection.whereClause else none).elim
    (pure (named merged)) fun predicate => do
      let kept ← filterRows graph predicate merged
      pure (named kept), fun rows => ?_⟩
  rw [project, notDistinct, notAggregating, noOrder]
  cases isWith <;> cases projection.whereClause <;> rfl

private theorem project_take {graph : Graph} {projection : BoundProjection Graph} {isWith : Bool}
    {cap : Nat} {rows : List Row} {charges capCharges : List Charge}
    {answer : List String × List Row} (bounded : Bounded projection)
    (isCap : (unwindRowCap format graph (some (.with_ projection))).Yields capCharges (some cap))
    (yields : (project format graph rows projection isWith).Yields charges answer) :
    ∃ fewer, (project format graph (rows.take cap) projection isWith).Yields fewer answer ∧
      fewer.Sublist charges := by
  obtain ⟨last, isProject⟩ := @project_bounded Graph format graph projection bounded isWith
  rw [isProject, Metered.yields_bind] at yields
  obtain ⟨merging, merged, after, isMerged, isRest, rfl⟩ := yields
  rw [Metered.yields_bind] at isRest
  obtain ⟨cutting, kept, further, isKept, isLast, rfl⟩ := isRest
  obtain ⟨fewer, first, sublist⟩ := mergeRows_take isMerged cap
  rw [List.length_nil, Nat.zero_add] at first
  refine ⟨fewer ++ (cutting ++ further), ?_, (List.append_sublist_append_right _).mpr sublist⟩
  rw [isProject, Metered.yields_bind]
  refine ⟨fewer, _, cutting ++ further, first, ?_, rfl⟩
  rw [Metered.yields_bind]
  exact ⟨cutting, kept, further, truncateRows_take bounded isCap isKept, isLast, rfl⟩

/-- `UNWIND` makes every row. -/
def noCap : RowCap Graph := fun _ _ => pure none

/-- The bounds are evaluated, but `UNWIND` makes every row. -/
def boundsOnly (format : Value → String) : RowCap Graph := fun graph next => do
  let _ ← unwindRowCap format graph next
  return none

/-- The evaluation of the bounds of a `WITH` is charged for nothing. -/
def BoundsFree (clauses : List (BoundClause Graph)) : Prop :=
  ∀ projection, .with_ projection ∈ clauses → ∀ expr,
    projection.limit = some expr ∨ projection.skip = some expr →
      ∀ graph, (expr.eval graph .empty).charges = []

private theorem runClause_of_not_unwind {rowCap other : RowCap Graph}
    {next : Option (BoundClause Graph)} {clause : BoundClause Graph} (state : Running Graph)
    (notUnwind : ∀ expr alias_, clause ≠ .unwind expr alias_) :
    runClause format rowCap next state clause = runClause format other next state clause := by
  cases clause with
  | unwind expr alias_ => exact absurd rfl (notUnwind expr alias_)
  | _ => rfl

/-- The state under the cap: the same, but for the rows in front of a `WITH`
that bounds them. -/
private def Kept (format : Value → String) (clauses : List (BoundClause Graph))
    (capped state : Running Graph) : Prop :=
  capped = state ∨ ∃ projection rest cap charges, clauses = .with_ projection :: rest ∧
    (unwindRowCap format state.graph (some (.with_ projection))).Yields charges (some cap) ∧
      capped = { state with rows := state.rows.take cap }

private theorem runClause_capped {clause : BoundClause Graph} {clauses : List (BoundClause Graph)}
    {capped state after : Running Graph} {charges : List Charge}
    (kept : Kept format (clause :: clauses) capped state)
    (yields : (runClause format (boundsOnly format) clauses.head? state clause).Yields charges
      after) :
    ∃ fewer cappedAfter,
      (runClause format (unwindRowCap format) clauses.head? capped clause).Yields fewer cappedAfter ∧
        fewer.Sublist charges ∧ Kept format clauses cappedAfter after := by
  rcases kept with rfl | ⟨projection, rest, cap, capCharges, isClause, isCap, rfl⟩
  · by_cases isUnwind : ∃ expr alias_, clause = .unwind expr alias_
    · obtain ⟨expr, alias_, rfl⟩ := isUnwind
      rw [runClause, Metered.yields_bind] at yields
      obtain ⟨bounding, none_, making, isBounds, isRest, rfl⟩ := yields
      rw [boundsOnly, Metered.yields_bind] at isBounds
      obtain ⟨bounding, cap, nothing, isCap, isNone, rfl⟩ := isBounds
      obtain ⟨rfl, rfl⟩ := Metered.yields_pure.mp isNone
      rw [Metered.yields_bind] at isRest
      obtain ⟨making, rows, nothing, isRows, isAfter, rfl⟩ := isRest
      obtain ⟨rfl, rfl⟩ := Metered.yields_pure.mp isAfter
      rw [List.append_nil, List.append_nil]
      cases cap with
      | none =>
          refine ⟨bounding ++ (making ++ []), _, ?_, by rw [List.append_nil], .inl rfl⟩
          rw [runClause, Metered.yields_bind]
          refine ⟨bounding, none, making ++ [], isCap, ?_, rfl⟩
          rw [Metered.yields_bind]
          exact ⟨making, rows, [], isRows, rfl, rfl⟩
      | some cap =>
          obtain ⟨projection, isNext, -⟩ := unwindRowCap_some isCap
          obtain ⟨others, rfl⟩ := List.head?_eq_some_iff.mp isNext
          obtain ⟨fewer, isFewer, sublist⟩ := unwindRows_cap (Nat.zero_le _) isRows
          refine ⟨bounding ++ (fewer ++ []), _, ?_, ?_,
            .inr ⟨projection, others, cap, bounding, rfl, isCap, rfl⟩⟩
          · rw [runClause, Metered.yields_bind]
            refine ⟨bounding, some cap, fewer ++ [], isCap, ?_, rfl⟩
            rw [Metered.yields_bind]
            exact ⟨fewer, _, [], isFewer, rfl, rfl⟩
          · rw [List.append_nil]
            exact (List.append_sublist_append_left _).mpr sublist
    · have notUnwind : ∀ expr alias_, clause ≠ .unwind expr alias_ := fun expr alias_ same =>
        isUnwind ⟨expr, alias_, same⟩
      rw [@runClause_of_not_unwind Graph format _ (unwindRowCap format) _ _ _ notUnwind] at yields
      exact ⟨charges, after, yields, List.Sublist.refl _, .inl rfl⟩
  · obtain ⟨rfl, rfl⟩ := List.cons.inj isClause
    obtain ⟨other, same, bounded⟩ := unwindRowCap_some isCap
    obtain rfl : projection = other := BoundClause.with_.inj (Option.some.inj same)
    rw [runClause, Metered.yields_bind] at yields
    obtain ⟨projecting, answer, nothing, isAnswer, isAfter, rfl⟩ := yields
    obtain ⟨rfl, rfl⟩ := Metered.yields_pure.mp isAfter
    obtain ⟨fewer, isFewer, sublist⟩ := project_take bounded isCap isAnswer
    refine ⟨fewer ++ [], _, ?_, (List.append_sublist_append_right _).mpr sublist, .inl rfl⟩
    rw [runClause, Metered.yields_bind]
    exact ⟨fewer, answer, [], isFewer, rfl, rfl⟩

private theorem runClauses_capped {clauses : List (BoundClause Graph)}
    {capped state last : Running Graph} {charges : List Charge}
    (kept : Kept format clauses capped state)
    (yields : (runClauses format (boundsOnly format) clauses state).Yields charges last) :
    ∃ fewer, (runClauses format (unwindRowCap format) clauses capped).Yields fewer last ∧
      fewer.Sublist charges := by
  induction clauses generalizing capped state charges with
  | nil =>
      rcases kept with rfl | ⟨_, _, _, _, isClause, -, -⟩
      · exact ⟨charges, yields, List.Sublist.refl _⟩
      · cases isClause
  | cons clause clauses ih =>
      rw [runClauses, Metered.yields_bind] at yields
      obtain ⟨before, after, further, isAfter, isLast, rfl⟩ := yields
      obtain ⟨fewer, cappedAfter, isCapped, sublist, keptAfter⟩ := runClause_capped kept isAfter
      obtain ⟨fewest, isRest, restSublist⟩ := ih keptAfter isLast
      refine ⟨fewer ++ fewest, ?_, sublist.append restSublist⟩
      rw [runClauses, Metered.yields_bind]
      exact ⟨fewer, cappedAfter, fewest, isCapped, isRest, rfl⟩

private theorem unwindRowCap_of_project {graph : Graph} {projection : BoundProjection Graph}
    {isWith : Bool} {rows : List Row} {charges : List Charge} {answer : List String × List Row}
    (yields : (project format graph rows projection isWith).Yields charges answer) :
    ∃ more cap, (unwindRowCap format graph (some (.with_ projection))).Yields more cap ∧
      ((∀ expr, projection.limit = some expr ∨ projection.skip = some expr →
        (expr.eval graph .empty).charges = []) → more = []) := by
  by_cases bounded : Bounded projection
  · obtain ⟨last, isProject⟩ := @project_bounded Graph format graph projection bounded isWith
    obtain ⟨notDistinct, notAggregating, noOrder, hasLimit⟩ := bounded
    obtain ⟨limit, isLimit⟩ := Option.ne_none_iff_exists'.mp hasLimit
    have free : ∀ {expr : MeteredExpr Graph} {charges : List Charge} {count : Nat},
        (evalBound format graph expr).Yields charges count →
          (expr.eval graph .empty).charges = [] → charges = [] := by
      intro expr charges count isCount uncharged
      rw [evalBound, Metered.yields_bind] at isCount
      obtain ⟨before, value, after, isValue, isBound, rfl⟩ := isCount
      obtain ⟨rfl, -⟩ := Metered.yields_free.mp isBound
      rw [isValue] at uncharged
      rw [List.append_nil]
      exact uncharged
    rw [isProject, Metered.yields_bind] at yields
    obtain ⟨_, merged, _, -, isRest, -⟩ := yields
    rw [Metered.yields_bind] at isRest
    obtain ⟨_, kept, _, isKept, -, -⟩ := isRest
    rw [truncateRows, isLimit, Metered.yields_bind] at isKept
    obtain ⟨_, skipped, _, isSkipped, isTaken, -⟩ := isKept
    rw [limitRows, Metered.yields_bind] at isTaken
    obtain ⟨limitCharges, count, _, isCount, -, -⟩ := isTaken
    rw [unwindRowCap, notDistinct, notAggregating, noOrder, isLimit]
    simp only [Bool.or_false, Bool.not_true, Bool.false_eq_true, if_false]
    cases isSkip : projection.skip with
    | none =>
        refine ⟨limitCharges ++ [], some count, ?_, fun uncharged => ?_⟩
        · rw [Metered.yields_bind]
          exact ⟨limitCharges, count, [], isCount, rfl, rfl⟩
        · rw [free isCount (uncharged limit (.inl rfl)), List.append_nil]
    | some skip =>
        rw [isSkip, skipRows, Metered.yields_bind] at isSkipped
        obtain ⟨skipCharges, offset, _, isOffset, -, -⟩ := isSkipped
        refine ⟨limitCharges ++ (skipCharges ++ []), some (min (count + offset) (2 ^ 64 - 1)), ?_,
          fun uncharged => ?_⟩
        · rw [Metered.yields_bind]
          refine ⟨limitCharges, count, skipCharges ++ [], isCount, ?_, rfl⟩
          dsimp only
          rw [Metered.yields_bind]
          exact ⟨skipCharges, offset, [], isOffset, rfl, rfl⟩
        · rw [free isCount (uncharged limit (.inl rfl)),
            free isOffset (uncharged skip (.inr rfl))]
          rfl
  · rw [unwindRowCap_of_unbounded bounded]
    exact ⟨[], none, rfl, fun _ => rfl⟩

/-- The bounds can also be evaluated at the `UNWIND`. -/
private theorem runClauses_boundsOnly {clauses : List (BoundClause Graph)}
    {state last : Running Graph} {charges : List Charge}
    (yields : (runClauses format noCap clauses state).Yields charges last) :
    ∃ more, (runClauses format (boundsOnly format) clauses state).Yields more last ∧
      (BoundsFree clauses → more = charges) := by
  induction clauses generalizing state charges with
  | nil => exact ⟨charges, yields, fun _ => rfl⟩
  | cons clause clauses ih =>
      rw [runClauses, Metered.yields_bind] at yields
      obtain ⟨before, after, further, isAfter, isLast, rfl⟩ := yields
      obtain ⟨more, isRest, restSame⟩ := ih isLast
      have restFree : BoundsFree (clause :: clauses) → BoundsFree clauses := fun free projection
        member => free projection (List.mem_cons_of_mem _ member)
      by_cases isUnwind : ∃ expr alias_, clause = .unwind expr alias_
      · obtain ⟨expr, alias_, rfl⟩ := isUnwind
        rw [runClause, Metered.yields_bind] at isAfter
        obtain ⟨nothing, cap, making, isNone, isRows, rfl⟩ := isAfter
        obtain ⟨rfl, rfl⟩ := Metered.yields_pure.mp isNone
        have sameGraph : after.graph = state.graph := by
          rw [Metered.yields_bind] at isRows
          obtain ⟨_, rows, _, -, isRows, -⟩ := isRows
          obtain ⟨-, rfl⟩ := Metered.yields_pure.mp isRows
          rfl
        obtain ⟨bounding, bound, isBound, boundFree⟩ : ∃ bounding bound,
            (unwindRowCap format state.graph clauses.head?).Yields bounding bound ∧
              (BoundsFree clauses → bounding = []) := by
          cases clauses with
          | nil => exact ⟨[], none, rfl, fun _ => rfl⟩
          | cons next others =>
              cases next with
              | with_ projection =>
                  rw [runClauses, Metered.yields_bind] at isLast
                  obtain ⟨_, _, _, isNext, -, -⟩ := isLast
                  rw [runClause, Metered.yields_bind] at isNext
                  obtain ⟨_, _, _, isProjected, -, -⟩ := isNext
                  rw [sameGraph] at isProjected
                  obtain ⟨bounding, bound, isBound, uncharged⟩ := unwindRowCap_of_project isProjected
                  exact ⟨bounding, bound, isBound, fun free => uncharged fun expr isExpr =>
                    free projection List.mem_cons_self expr isExpr state.graph⟩
              | _ => exact ⟨[], none, rfl, fun _ => rfl⟩
        refine ⟨(bounding ++ [] ++ making) ++ more, ?_, fun free => ?_⟩
        · rw [runClauses, Metered.yields_bind]
          refine ⟨bounding ++ [] ++ making, after, more, ?_, isRest, rfl⟩
          rw [runClause, Metered.yields_bind]
          refine ⟨bounding ++ [], none, making, ?_, isRows, rfl⟩
          rw [boundsOnly, Metered.yields_bind]
          exact ⟨bounding, bound, [], isBound, rfl, rfl⟩
        · rw [restSame (restFree free), boundFree (restFree free)]
          rfl
      · have notUnwind : ∀ expr alias_, clause ≠ .unwind expr alias_ := fun expr alias_ same =>
          isUnwind ⟨expr, alias_, same⟩
        rw [@runClause_of_not_unwind Graph format _ (boundsOnly format) _ _ _ notUnwind] at isAfter
        refine ⟨before ++ more, ?_, fun free => by rw [restSame (restFree free)]⟩
        rw [runClauses, Metered.yields_bind]
        exact ⟨before, after, more, isAfter, isRest, rfl⟩

private theorem runVersioned_yields {rowCap : RowCap Graph} {parameters : List Value}
    {clauses : List (BoundClause Graph)} {graph : Graph} {charges : List Charge}
    {answer : QueryResult × Graph} :
    (runVersioned format rowCap parameters clauses graph).Yields charges answer ↔
      parameters.any (fun value => value.nestingExceeds maxValueDepth) = false ∧
        ∃ last, (runClauses format rowCap clauses ⟨graph, [.empty], none, []⟩).Yields charges last ∧
          answer = (finish clauses last, last.graph) := by
  rw [runVersioned]
  split
  · next tooDeep =>
    rw [tooDeep]
    constructor
    · intro yields
      cases (Metered.yields_free.mp yields).2
    · rintro ⟨shallow, -⟩
      cases shallow
  · next shallow =>
    rw [Bool.not_eq_true] at shallow
    rw [Metered.yields_bind]
    constructor
    · rintro ⟨before, last, after, isLast, isAnswer, rfl⟩
      obtain ⟨rfl, rfl⟩ := Metered.yields_pure.mp isAnswer
      rw [List.append_nil]
      exact ⟨shallow, last, isLast, rfl⟩
    · rintro ⟨-, last, isLast, rfl⟩
      exact ⟨charges, last, [], isLast, rfl, (List.append_nil _).symm⟩

/-- The row cap cannot be seen but in the work that the bounds are charged for:
a query that succeeds when `UNWIND` evaluates the bounds and makes every row
succeeds with the same answer; so does one that succeeds without looking at the
bounds, if these are charged for nothing; and where both succeed, the answers
are the same. -/
theorem unwindRowCap_invisible {governor : Governor} (punctual : governor.Punctual)
    (format : Value → String) (parameters : List Value) (clauses : List (BoundClause Graph))
    (graph : Graph) :
    (∀ answer,
      underLimits governor (runVersioned format (boundsOnly format) parameters clauses graph) =
          .ok answer →
        underLimits governor (runVersioned format (unwindRowCap format) parameters clauses graph) =
          .ok answer) ∧
    (BoundsFree clauses → ∀ answer,
      underLimits governor (runVersioned format noCap parameters clauses graph) = .ok answer →
        underLimits governor (runVersioned format (unwindRowCap format) parameters clauses graph) =
          .ok answer) ∧
    ∀ answer other,
      underLimits governor (runVersioned format noCap parameters clauses graph) = .ok answer →
        underLimits governor (runVersioned format (unwindRowCap format) parameters clauses graph) =
          .ok other → answer = other := by
  have capped : ∀ {answer : QueryResult × Graph} {charges : List Charge},
      (runVersioned format (boundsOnly format) parameters clauses graph).Yields charges answer →
        ∃ fewer, (runVersioned format (unwindRowCap format) parameters clauses graph).Yields fewer
          answer ∧ fewer.Sublist charges := by
    intro answer charges yields
    obtain ⟨shallow, last, isLast, isAnswer⟩ := runVersioned_yields.mp yields
    obtain ⟨fewer, isCapped, sublist⟩ := runClauses_capped (.inl rfl) isLast
    exact ⟨fewer, runVersioned_yields.mpr ⟨shallow, last, isCapped, isAnswer⟩, sublist⟩
  have bounded : ∀ {answer : QueryResult × Graph} {charges : List Charge},
      (runVersioned format noCap parameters clauses graph).Yields charges answer →
        ∃ more, (runVersioned format (boundsOnly format) parameters clauses graph).Yields more
          answer ∧ (BoundsFree clauses → more = charges) := by
    intro answer charges yields
    obtain ⟨shallow, last, isLast, isAnswer⟩ := runVersioned_yields.mp yields
    obtain ⟨more, isMore, same⟩ := runClauses_boundsOnly isLast
    exact ⟨more, runVersioned_yields.mpr ⟨shallow, last, isMore, isAnswer⟩, same⟩
  have self := Governor.Lighter.self punctual
  refine ⟨fun answer succeeds => ?_, fun free answer succeeds => ?_,
    fun answer other succeeds otherSucceeds => ?_⟩
  · obtain ⟨-, yields⟩ := Meter.run_eq_ok.mp succeeds
    obtain ⟨fewer, isCapped, sublist⟩ := capped yields
    exact governorMeter_weighs.run_of_sublist self isCapped sublist succeeds
  · obtain ⟨-, yields⟩ := Meter.run_eq_ok.mp succeeds
    obtain ⟨more, isMore, same⟩ := bounded yields
    obtain ⟨fewer, isCapped, sublist⟩ := capped isMore
    rw [same free] at sublist
    exact governorMeter_weighs.run_of_sublist self isCapped sublist succeeds
  · obtain ⟨-, yields⟩ := Meter.run_eq_ok.mp succeeds
    obtain ⟨-, otherYields⟩ := Meter.run_eq_ok.mp otherSucceeds
    obtain ⟨more, isMore, -⟩ := bounded yields
    obtain ⟨fewer, isCapped, -⟩ := capped isMore
    exact (isCapped.unique otherYields).2

namespace MeteredExpr

def constant (value : Value) : MeteredExpr Graph :=
  ⟨.other, false, fun _ _ => pure value, fun _ _ _ => pure value⟩

def variable_ (id : VarId) : MeteredExpr Graph :=
  ⟨.reference id, false, fun _ row => pure (row.get id), fun _ _ row => pure (row.get id)⟩

def sizeOfRange (start stop : Int64) : MeteredExpr Graph :=
  let size : Exec Value := do
    let count := rangeCount start stop 1
    chargeFor (.collection (.ofNat count))
    return .int (.ofNat count)
  ⟨.other, false, fun _ _ => size, fun _ _ _ => size⟩

end MeteredExpr

/-- `UNWIND list AS x WITH x SKIP skip LIMIT limit RETURN x` -/
def unwindQuery (list : List Value) (skip : Option (MeteredExpr Unit)) (limit : MeteredExpr Unit) :
    List (BoundClause Unit) :=
  [.unwind (.constant (.list list)) 0,
    .with_ ⟨false, [⟨.variable_ 0, "x", 1⟩], [], skip, some limit, none⟩,
    .return_ ⟨false, [⟨.variable_ 1, "x", 2⟩], [], none, none, none⟩]

/-- The second of three rows. -/
theorem unwindRowCap_invisible_sample :
    underLimits (.new { QueryLimits.unbounded with maxWorkUnits := 8 } none)
      (runVersioned (fun _ => "") (unwindRowCap fun _ => "") []
        (unwindQuery [.int 1, .int 2, .int 3] (some (.constant (.int 1))) (.constant (.int 1))) ()) =
      .ok (⟨["x"], [[.int 2]], [false]⟩, ()) := by
  refine (unwindRowCap_invisible (by rintro _ ⟨⟩) _ _ _ _).2.1 ?_ _ (by rfl)
  intro projection member expr isBound graph
  simp only [unwindQuery, List.mem_cons, reduceCtorEq, false_or, or_false, List.not_mem_nil,
    BoundClause.with_.injEq] at member
  subst member
  rcases isBound with isLimit | isSkip
  · cases isLimit
    rfl
  · cases isSkip
    rfl

/-- `UNWIND [1] AS x WITH x LIMIT size(range(1, 2)) RETURN x` does five units of
work without the cap; with it, the range is made twice. -/
theorem unwindRowCap_visible :
    underLimits (.new { QueryLimits.unbounded with maxWorkUnits := 5 } none)
        (runVersioned (fun _ => "") noCap [] (unwindQuery [.int 1] none (.sizeOfRange 1 2)) ()) =
      .ok (⟨["x"], [[.int 1]], [false]⟩, ()) ∧
    underLimits (.new { QueryLimits.unbounded with maxWorkUnits := 5 } none)
        (runVersioned (fun _ => "") (unwindRowCap fun _ => "") []
          (unwindQuery [.int 1] none (.sizeOfRange 1 2)) ()) =
      .error (.resourceExceeded .workUnits) :=
  ⟨by rfl, by rfl⟩

end Acetone.Cypher

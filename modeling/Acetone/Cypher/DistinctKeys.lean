import Acetone.Cypher.GlobalOrder
import Acetone.Lib.PrefixCode

/-!
# Hash keys of values

`DISTINCT` and grouping look values up under byte keys.  The keys are
self-delimiting, so that those of a tuple may be concatenated, and as long as
every integer is a float they tell values apart exactly as the global sort
order does.
-/

namespace Acetone.Cypher

open Acetone.Lib Acetone.Model

namespace Value

def isI64Float (bits : UInt64) : Bool :=
  fractIsZero bits && floatGe bits negTwoPow63 && floatLt bits twoPow63

def intKey (number : Int64) : Bytes := 0 :: word64 number.toUInt64.toNat

/-- An integer and the float of the same value have one key; so has NaN. -/
def floatKey (bits : UInt64) : Bytes :=
  if isNan bits then [2]
  else if isI64Float bits then intKey (asI64 bits)
  else 1 :: word64 bits.toNat

mutual

def distinctKey : Value → Bytes
  | .stored value => 5 :: lenPrefixed (utf8 (renderStored value))
  | .map entries => 0 :: word64 entries.length ++ entriesKey entries
  | .node id _ _ => 1 :: lenPrefixed id
  | .relationship id _ _ _ _ => 2 :: lenPrefixed id
  | .list items => 3 :: word64 items.length ++ itemsKey items
  | .path nodes rels =>
      4 :: (word64 nodes.length ++ (word64 rels.length ++ (pathIds nodes rels).flatMap lenPrefixed))
  | .string text => 5 :: lenPrefixed (utf8 text)
  | .bool flag => [6, if flag then 1 else 0]
  | .int number => 7 :: intKey number
  | .float bits => 7 :: floatKey bits
  | .null => [8]

def itemsKey : List Value → Bytes
  | [] => []
  | value :: values => distinctKey value ++ itemsKey values

def entriesKey : List (String × Value) → Bytes
  | [] => []
  | (name, value) :: entries => lenPrefixed (utf8 name) ++ (distinctKey value ++ entriesKey entries)

end

def tupleKey (values : List Value) : Bytes := values.flatMap distinctKey

/-- A length is a `usize`. -/
def Sized (length : Nat) : Prop := length < 2 ^ 64

mutual

/-- Lengths fit their words, and a path alternates nodes and relationships,
starting and ending with a node. -/
def WellFormed : Value → Prop
  | .string text => Sized (utf8 text).length
  | .stored value => Sized (utf8 (renderStored value)).length
  | .list items => Sized items.length ∧ WellFormedItems items
  | .map entries => Sized entries.length ∧ WellFormedEntries entries
  | .node id _ _ => Sized id.length
  | .relationship id _ _ _ _ => Sized id.length
  | .path nodes rels =>
      Sized nodes.length ∧ nodes.length = rels.length + 1 ∧
        (∀ node ∈ nodes, ∃ id labels properties, node = .node id labels properties) ∧
        (∀ rel ∈ rels, ∃ id relType start stop properties,
          rel = .relationship id relType start stop properties) ∧
        ∀ id ∈ pathIds nodes rels, Sized id.length
  | _ => True

def WellFormedItems : List Value → Prop
  | [] => True
  | value :: values => WellFormed value ∧ WellFormedItems values

def WellFormedEntries : List (String × Value) → Prop
  | [] => True
  | (name, value) :: entries =>
      Sized (utf8 name).length ∧ WellFormed value ∧ WellFormedEntries entries

end

/-- A tag and a word, but for NaN, whose tag stands alone. -/
private def NumberKey (key : Bytes) : Prop :=
  key = [2] ∨ ∃ tag value, tag ≠ 2 ∧ key = tag :: word64 value

private theorem NumberKey.apart {left right : Bytes} (isLeft : NumberKey left)
    (isRight : NumberKey right) : Apart left right := by
  rcases isLeft with rfl | ⟨tag, value, other, rfl⟩
  · rcases isRight with rfl | ⟨tag, value, other, rfl⟩
    · exact .refl _
    · exact .cons fun same => absurd same.symm other
  · rcases isRight with rfl | ⟨tag', value', other', rfl⟩
    · exact .cons fun same => absurd same other
    · exact .cons fun _ => word64_apart _ _

private theorem numberKey_intKey (number : Int64) : NumberKey (intKey number) :=
  .inr ⟨0, _, by decide, rfl⟩

private theorem numberKey_floatKey (bits : UInt64) : NumberKey (floatKey bits) := by
  rw [floatKey]
  split
  · exact .inl rfl
  · split
    · exact numberKey_intKey _
    · exact .inr ⟨1, _, by decide, rfl⟩

private theorem lenPrefixes_apart {left right : List Bytes} (sameLength : left.length = right.length)
    (leftSized : ∀ id ∈ left, Sized id.length) (rightSized : ∀ id ∈ right, Sized id.length) :
    Apart (left.flatMap lenPrefixed) (right.flatMap lenPrefixed) := by
  induction left generalizing right with
  | nil =>
      obtain rfl := List.eq_nil_of_length_eq_zero sameLength.symm
      exact .refl _
  | cons id ids ih =>
      cases right with
      | nil => cases sameLength
      | cons other others =>
          rw [List.forall_mem_cons] at leftSized rightSized
          exact (lenPrefixed_apart leftSized.1 rightSized.1).append fun _ =>
            ih (Nat.succ.inj sameLength) leftSized.2 rightSized.2

private theorem lenPrefixes_inj {left right : List Bytes} (sameLength : left.length = right.length)
    (leftSized : ∀ id ∈ left, Sized id.length) (rightSized : ∀ id ∈ right, Sized id.length) :
    left.flatMap lenPrefixed = right.flatMap lenPrefixed ↔ left = right := by
  induction left generalizing right with
  | nil =>
      obtain rfl := List.eq_nil_of_length_eq_zero sameLength.symm
      exact ⟨fun _ => rfl, fun _ => rfl⟩
  | cons id ids ih =>
      cases right with
      | nil => cases sameLength
      | cons other others =>
          rw [List.forall_mem_cons] at leftSized rightSized
          rw [List.flatMap_cons, List.flatMap_cons,
            (lenPrefixed_apart leftSized.1 rightSized.1).append_eq,
            lenPrefixed_inj leftSized.1 rightSized.1,
            ih (Nat.succ.inj sameLength) leftSized.2 rightSized.2, List.cons.injEq]

/-- The ids of a path are as many as its nodes and relationships. -/
private theorem length_pathIds {nodes rels : List Value}
    (areNodes : ∀ node ∈ nodes, ∃ id labels properties, node = .node id labels properties)
    (areRels : ∀ rel ∈ rels, ∃ id relType start stop properties,
      rel = .relationship id relType start stop properties) :
    (pathIds nodes rels).length = nodes.length + rels.length := by
  rw [pathIds, List.length_filterMap_eq_countP, ← List.length_append, List.countP_eq_length]
  intro entity member
  rcases List.mem_append.mp member with inNodes | inRels
  · obtain ⟨id, labels, properties, rfl⟩ := areNodes entity inNodes
    rfl
  · obtain ⟨id, relType, start, stop, properties, rfl⟩ := areRels entity inRels
    rfl

private theorem distinctKey_eq_cons (value : Value) :
    ∃ rest, distinctKey value = UInt8.ofNat value.rank :: rest := by
  cases value <;> exact ⟨_, rfl⟩

private theorem rank_lt (value : Value) : value.rank < 9 := by
  cases value <;> simp only [rank] <;> omega

private theorem rank_inj {left right : Value}
    (same : UInt8.ofNat left.rank = UInt8.ofNat right.rank) : left.rank = right.rank := by
  have leftBound := rank_lt left
  have rightBound := rank_lt right
  have values := congrArg UInt8.toNat same
  rwa [UInt8.toNat_ofNat_of_lt' (by rw [UInt8.size]; omega),
    UInt8.toNat_ofNat_of_lt' (by rw [UInt8.size]; omega)] at values

/-- Keys of different ranks differ in their first byte. -/
private theorem keys_apart {left right : Value}
    (sameRank : left.rank = right.rank → Apart (distinctKey left) (distinctKey right)) :
    Apart (distinctKey left) (distinctKey right) := by
  by_cases same : left.rank = right.rank
  · exact sameRank same
  · obtain ⟨leftRest, isLeft⟩ := distinctKey_eq_cons left
    obtain ⟨rightRest, isRight⟩ := distinctKey_eq_cons right
    rw [isLeft, isRight]
    exact .cons fun equal => absurd (rank_inj equal) same

mutual

private theorem sameRank_apart (left right : Value) (wellLeft : WellFormed left)
    (wellRight : WellFormed right) (sameRank : left.rank = right.rank) :
    Apart (distinctKey left) (distinctKey right) := by
  cases left with
  | null =>
      cases right with
      | null => exact .refl _
      | _ => cases sameRank
  | bool left =>
      cases right with
      | bool right => exact .of_length_eq rfl
      | _ => cases sameRank
  | int left =>
      cases right with
      | int right => exact .cons fun _ => (numberKey_intKey _).apart (numberKey_intKey _)
      | float right => exact .cons fun _ => (numberKey_intKey _).apart (numberKey_floatKey _)
      | _ => cases sameRank
  | float left =>
      cases right with
      | int right => exact .cons fun _ => (numberKey_floatKey _).apart (numberKey_intKey _)
      | float right => exact .cons fun _ => (numberKey_floatKey _).apart (numberKey_floatKey _)
      | _ => cases sameRank
  | string left =>
      cases right with
      | string right => exact .cons fun _ => lenPrefixed_apart wellLeft wellRight
      | stored right => exact .cons fun _ => lenPrefixed_apart wellLeft wellRight
      | _ => cases sameRank
  | stored left =>
      cases right with
      | string right => exact .cons fun _ => lenPrefixed_apart wellLeft wellRight
      | stored right => exact .cons fun _ => lenPrefixed_apart wellLeft wellRight
      | _ => cases sameRank
  | list left =>
      cases right with
      | list right =>
          refine .cons fun _ => (word64_apart _ _).append fun sameCount => ?_
          exact items_apart left right wellLeft.2 wellRight.2
            ((word64_inj wellLeft.1 wellRight.1).mp sameCount)
      | _ => cases sameRank
  | map left =>
      cases right with
      | map right =>
          refine .cons fun _ => (word64_apart _ _).append fun sameCount => ?_
          exact entries_apart left right wellLeft.2 wellRight.2
            ((word64_inj wellLeft.1 wellRight.1).mp sameCount)
      | _ => cases sameRank
  | node left _ _ =>
      cases right with
      | node right _ _ => exact .cons fun _ => lenPrefixed_apart wellLeft wellRight
      | _ => cases sameRank
  | relationship left _ _ _ _ =>
      cases right with
      | relationship right _ _ _ _ => exact .cons fun _ => lenPrefixed_apart wellLeft wellRight
      | _ => cases sameRank
  | path leftNodes leftRels =>
      cases right with
      | path rightNodes rightRels =>
          obtain ⟨leftSized, leftShape, leftNode, leftRel, leftIds⟩ := wellLeft
          obtain ⟨rightSized, rightShape, rightNode, rightRel, rightIds⟩ := wellRight
          refine .cons fun _ => (word64_apart _ _).append fun sameNodes => ?_
          refine (word64_apart _ _).append fun _ => lenPrefixes_apart ?_ leftIds rightIds
          have nodes := (word64_inj leftSized rightSized).mp sameNodes
          rw [length_pathIds leftNode leftRel, length_pathIds rightNode rightRel]
          omega
      | _ => cases sameRank

private theorem items_apart (left right : List Value) (wellLeft : WellFormedItems left)
    (wellRight : WellFormedItems right) (sameLength : left.length = right.length) :
    Apart (itemsKey left) (itemsKey right) := by
  cases left with
  | nil =>
      obtain rfl := List.eq_nil_of_length_eq_zero sameLength.symm
      exact .refl _
  | cons value values =>
      cases right with
      | nil => cases sameLength
      | cons other others =>
          have heads := keys_apart (sameRank_apart value other wellLeft.1 wellRight.1)
          exact heads.append fun _ =>
            items_apart values others wellLeft.2 wellRight.2 (Nat.succ.inj sameLength)

private theorem entries_apart (left right : List (String × Value))
    (wellLeft : WellFormedEntries left) (wellRight : WellFormedEntries right)
    (sameLength : left.length = right.length) : Apart (entriesKey left) (entriesKey right) := by
  cases left with
  | nil =>
      obtain rfl := List.eq_nil_of_length_eq_zero sameLength.symm
      exact .refl _
  | cons entry entries =>
      cases right with
      | nil => cases sameLength
      | cons other others =>
          obtain ⟨name, value⟩ := entry
          obtain ⟨otherName, otherValue⟩ := other
          have heads := keys_apart (sameRank_apart value otherValue wellLeft.2.1 wellRight.2.1)
          exact (lenPrefixed_apart wellLeft.1 wellRight.1).append fun _ => heads.append fun _ =>
            entries_apart entries others wellLeft.2.2 wellRight.2.2 (Nat.succ.inj sameLength)

end

/-- No key goes on where another ends. -/
theorem distinctKey_apart {left right : Value} (wellLeft : WellFormed left)
    (wellRight : WellFormed right) : Apart (distinctKey left) (distinctKey right) :=
  keys_apart (sameRank_apart left right wellLeft wellRight)

private theorem intKey_inj {left right : Int64} : intKey left = intKey right ↔ left = right := by
  rw [intKey, intKey, List.cons_inj_right, word64_inj (UInt64.toNat_lt _) (UInt64.toNat_lt _),
    UInt64.toNat_inj]
  exact ⟨fun same => congrArg Int64.ofUInt64 same, fun same => congrArg Int64.toUInt64 same⟩

private theorem representable_zero : Representable 0 := by
  rw [Representable, Int64.toInt_zero, placeOfInt, units, Int.sign_zero, Int.zero_mul,
    Int.sign_zero, Int.zero_mul, Int.zero_mul]

private theorem isI64Float_congr {left right : UInt64} (leftNumber : isNan left = false)
    (rightNumber : isNan right = false) (same : floatPlace left = floatPlace right) :
    isI64Float left = isI64Float right := by
  have bound : isNan negTwoPow63 = false ∧ isNan twoPow63 = false := by decide
  rw [isI64Float, isI64Float, fractIsZero, fractIsZero, floatGe_eq leftNumber bound.1,
    floatGe_eq rightNumber bound.1, floatLt_eq leftNumber bound.2, floatLt_eq rightNumber bound.2,
    same]

/-- A float that is cast to an integer is in the place of that integer. -/
private theorem asI64_of_isI64Float {bits : UInt64} (number : isNan bits = false)
    (whole : isI64Float bits = true) :
    Representable (asI64 bits) ∧ placeOfInt (asI64 bits).toInt = floatPlace bits := by
  rw [isI64Float, Bool.and_eq_true, Bool.and_eq_true] at whole
  exact asI64_spec number whole.1.1 whole.1.2 whole.2

private theorem isI64Float_of_place {number : Int64} {bits : UInt64}
    (exact_ : Representable number) (isNumber : isNan bits = false)
    (same : placeOfInt number.toInt = floatPlace bits) : isI64Float bits = true := by
  obtain ⟨whole, low, high⟩ := whole_of_representable exact_ isNumber same
  rw [isI64Float, whole, low, high]
  rfl

private theorem floatGlobalCmp_eq_iff {left right : UInt64} (leftNumber : isNan left = false)
    (rightNumber : isNan right = false) :
    floatGlobalCmp left right = .eq ↔ floatPlace left = floatPlace right := by
  rw [floatGlobalCmp, leftNumber, rightNumber]
  exact compare_eq_iff_eq

private theorem intKey_eq_floatKey {number : Int64} {bits : UInt64}
    (exact_ : Representable number) :
    intKey number = floatKey bits ↔ floatGlobalCmp (floatOfInt number) bits = .eq := by
  cases isNumber : isNan bits with
  | true =>
      rw [floatKey, isNumber, if_pos rfl, floatGlobalCmp, isNan_floatOfInt, isNumber]
      simp [intKey]
  | false =>
      rw [floatGlobalCmp_eq_iff (isNan_floatOfInt number) isNumber, floatPlace_floatOfInt,
        floatKey, isNumber, if_neg Bool.false_ne_true]
      constructor
      · intro sameKey
        by_cases whole : isI64Float bits = true
        · rw [if_pos whole, intKey_inj] at sameKey
          rw [sameKey]
          exact (asI64_of_isI64Float isNumber whole).2
        · rw [if_neg whole, intKey] at sameKey
          exact absurd (List.cons.inj sameKey).1 (by decide)
      · intro samePlace
        have whole := isI64Float_of_place exact_ isNumber samePlace
        obtain ⟨castExact, castPlace⟩ := asI64_of_isI64Float isNumber whole
        rw [if_pos whole, exact_.eq_of_place castExact (samePlace.trans castPlace.symm)]

private theorem floatKey_inj_of_numbers {left right : UInt64} (leftNumber : isNan left = false)
    (rightNumber : isNan right = false) :
    floatKey left = floatKey right ↔ floatPlace left = floatPlace right := by
  constructor
  · intro sameKey
    rw [floatKey, floatKey, leftNumber, rightNumber, if_neg Bool.false_ne_true,
      if_neg Bool.false_ne_true] at sameKey
    by_cases leftWhole : isI64Float left = true <;> by_cases rightWhole : isI64Float right = true
    · rw [if_pos leftWhole, if_pos rightWhole, intKey_inj] at sameKey
      rw [← (asI64_of_isI64Float leftNumber leftWhole).2,
        ← (asI64_of_isI64Float rightNumber rightWhole).2, sameKey]
    · rw [if_pos leftWhole, if_neg rightWhole, intKey] at sameKey
      exact absurd (List.cons.inj sameKey).1 (by decide)
    · rw [if_neg leftWhole, if_pos rightWhole, intKey] at sameKey
      exact absurd (List.cons.inj sameKey).1 (by decide)
    · rw [if_neg leftWhole, if_neg rightWhole, List.cons_inj_right,
        word64_inj (UInt64.toNat_lt _) (UInt64.toNat_lt _), UInt64.toNat_inj] at sameKey
      rw [sameKey]
  · intro samePlace
    have wholes := isI64Float_congr leftNumber rightNumber samePlace
    by_cases whole : isI64Float left = true
    · obtain ⟨leftExact, leftPlace⟩ := asI64_of_isI64Float leftNumber whole
      obtain ⟨rightExact, rightPlace⟩ := asI64_of_isI64Float rightNumber (wholes ▸ whole)
      have sameCast := leftExact.eq_of_place rightExact
        (leftPlace.trans (samePlace.trans rightPlace.symm))
      simp only [floatKey, leftNumber, rightNumber, ← wholes, whole, sameCast, if_true]
    · have nonzero : floatPlace left ≠ 0 := fun zero =>
        whole (isI64Float_of_place representable_zero leftNumber (by rw [zero]; rfl))
      rw [eq_of_floatPlace samePlace nonzero]

private theorem floatKey_inj {left right : UInt64} :
    floatKey left = floatKey right ↔ floatGlobalCmp left right = .eq := by
  have notNan : ∀ {bits : UInt64}, isNan bits = false → floatKey bits ≠ [2] := by
    intro bits number
    rw [floatKey, number, if_neg Bool.false_ne_true]
    split <;> simp [intKey]
  cases leftNan : isNan left with
  | true =>
      cases rightNan : isNan right with
      | true => simp [floatKey, floatGlobalCmp, leftNan, rightNan]
      | false =>
          have isLeft : floatKey left = [2] := by rw [floatKey, leftNan, if_pos rfl]
          rw [isLeft, floatGlobalCmp, leftNan, rightNan]
          exact ⟨fun same => absurd same.symm (notNan rightNan), by simp⟩
  | false =>
      cases rightNan : isNan right with
      | true =>
          have isRight : floatKey right = [2] := by rw [floatKey, rightNan, if_pos rfl]
          rw [isRight, floatGlobalCmp, leftNan, rightNan]
          exact ⟨fun same => absurd same (notNan leftNan), by simp⟩
      | false =>
          rw [floatKey_inj_of_numbers leftNan rightNan, floatGlobalCmp_eq_iff leftNan rightNan]

/-- Every integer is a float. -/
def exactIntegers : Numbers := ⟨Representable, fun _ => True⟩

private theorem key_iff_of_sameRank {left right : Value}
    (sameRank : left.rank = right.rank →
      (distinctKey left = distinctKey right ↔ globalCmp left right = .eq)) :
    distinctKey left = distinctKey right ↔ globalCmp left right = .eq := by
  by_cases same : left.rank = right.rank
  · exact sameRank same
  · obtain ⟨leftRest, isLeft⟩ := distinctKey_eq_cons left
    obtain ⟨rightRest, isRight⟩ := distinctKey_eq_cons right
    rw [isLeft, isRight, globalCmp_of_rank_ne same, compare_eq_iff_eq]
    exact ⟨fun equal => absurd (rank_inj (List.cons.inj equal).1) same, fun equal =>
      absurd equal same⟩

private theorem textKey_inj {left right : String} (leftSized : Sized (utf8 left).length)
    (rightSized : Sized (utf8 right).length) :
    (5 :: lenPrefixed (utf8 left) : Bytes) = 5 :: lenPrefixed (utf8 right) ↔
      compare left right = .eq := by
  rw [List.cons_inj_right, lenPrefixed_inj leftSized rightSized, utf8_injective.eq_iff,
    compare_eq_iff_eq]

private theorem idKey_inj {tag : UInt8} {left right : EntityId} (leftSized : Sized left.length)
    (rightSized : Sized right.length) :
    tag :: lenPrefixed left = tag :: lenPrefixed right ↔ lexCmp left right = .eq := by
  rw [List.cons_inj_right, lenPrefixed_inj leftSized rightSized]
  exact Std.LawfulEqCmp.compare_eq_iff_eq.symm

private theorem pathKey_inj {leftNodes leftRels rightNodes rightRels : List Value}
    (wellLeft : WellFormed (.path leftNodes leftRels))
    (wellRight : WellFormed (.path rightNodes rightRels)) :
    distinctKey (.path leftNodes leftRels) = distinctKey (.path rightNodes rightRels) ↔
      globalCmp (.path leftNodes leftRels) (.path rightNodes rightRels) = .eq := by
  obtain ⟨leftSized, leftShape, leftNode, leftRel, leftIds⟩ := wellLeft
  obtain ⟨rightSized, rightShape, rightNode, rightRel, rightIds⟩ := wellRight
  have leftCount := length_pathIds leftNode leftRel
  have rightCount := length_pathIds rightNode rightRel
  have leftRelsSized : leftRels.length < 2 ^ 64 := by rw [Sized] at leftSized; omega
  have rightRelsSized : rightRels.length < 2 ^ 64 := by rw [Sized] at rightSized; omega
  rw [distinctKey, distinctKey, List.cons_inj_right, (word64_apart _ _).append_eq,
    (word64_apart _ _).append_eq, word64_inj leftSized rightSized,
    word64_inj leftRelsSized rightRelsSized, globalCmp, Std.LawfulEqCmp.compare_eq_iff_eq]
  constructor
  · rintro ⟨sameNodes, sameRels, sameIds⟩
    exact (lenPrefixes_inj (by omega) leftIds rightIds).mp sameIds
  · intro sameIds
    have sameCount := congrArg List.length sameIds
    exact ⟨by omega, by omega, by rw [sameIds]⟩

mutual

private theorem sameRank_key (left right : Value) (wellLeft : WellFormed left)
    (wellRight : WellFormed right) (overLeft : exactIntegers.Over left)
    (overRight : exactIntegers.Over right) (sameRank : left.rank = right.rank) :
    distinctKey left = distinctKey right ↔ globalCmp left right = .eq := by
  cases left with
  | null =>
      cases right with
      | null => exact ⟨fun _ => rfl, fun _ => rfl⟩
      | _ => cases sameRank
  | bool left =>
      cases right with
      | bool right => cases left <;> cases right <;> decide
      | _ => cases sameRank
  | int left =>
      cases right with
      | int right =>
          rw [distinctKey, distinctKey, List.cons_inj_right, intKey_inj, globalCmp,
            compare_eq_iff_eq, Int64.toInt_inj]
      | float right =>
          rw [distinctKey, distinctKey, List.cons_inj_right, globalCmp]
          exact intKey_eq_floatKey overLeft
      | _ => cases sameRank
  | float left =>
      cases right with
      | int right =>
          rw [distinctKey, distinctKey, List.cons_inj_right, globalCmp, floatGlobalCmp_swap,
            Ordering.swap_eq_eq, eq_comm]
          exact intKey_eq_floatKey overRight
      | float right =>
          rw [distinctKey, distinctKey, List.cons_inj_right, globalCmp]
          exact floatKey_inj
      | _ => cases sameRank
  | string left =>
      cases right with
      | string right => exact textKey_inj wellLeft wellRight
      | stored right => exact textKey_inj wellLeft wellRight
      | _ => cases sameRank
  | stored left =>
      cases right with
      | string right => exact textKey_inj wellLeft wellRight
      | stored right => exact textKey_inj wellLeft wellRight
      | _ => cases sameRank
  | list left =>
      cases right with
      | list right =>
          rw [distinctKey, distinctKey, List.cons_append, List.cons_append, List.cons_inj_right,
            (word64_apart _ _).append_eq, word64_inj wellLeft.1 wellRight.1, globalCmp]
          exact items_key left right wellLeft.2 wellRight.2 overLeft overRight
      | _ => cases sameRank
  | map left =>
      cases right with
      | map right =>
          rw [distinctKey, distinctKey, List.cons_append, List.cons_append, List.cons_inj_right,
            (word64_apart _ _).append_eq, word64_inj wellLeft.1 wellRight.1, globalCmp,
            Ordering.then_eq_eq, Std.LawfulEqCmp.compare_eq_iff_eq]
          exact entries_key left right wellLeft.2 wellRight.2 overLeft overRight
      | _ => cases sameRank
  | node left _ _ =>
      cases right with
      | node right _ _ => exact idKey_inj wellLeft wellRight
      | _ => cases sameRank
  | relationship left _ _ _ _ =>
      cases right with
      | relationship right _ _ _ _ => exact idKey_inj wellLeft wellRight
      | _ => cases sameRank
  | path leftNodes leftRels =>
      cases right with
      | path rightNodes rightRels => exact pathKey_inj wellLeft wellRight
      | _ => cases sameRank

private theorem items_key (left right : List Value) (wellLeft : WellFormedItems left)
    (wellRight : WellFormedItems right) (overLeft : exactIntegers.OverItems left)
    (overRight : exactIntegers.OverItems right) :
    left.length = right.length ∧ itemsKey left = itemsKey right ↔
      globalCmpItems left right = .eq := by
  cases left with
  | nil =>
      cases right with
      | nil => exact ⟨fun _ => rfl, fun _ => ⟨rfl, rfl⟩⟩
      | cons other others =>
          rw [globalCmpItems, compare_eq_iff_eq]
          · exact ⟨fun same => same.1, fun same => absurd same (Nat.succ_ne_zero _).symm⟩
          · exact nofun
  | cons value values =>
      cases right with
      | nil =>
          rw [globalCmpItems, compare_eq_iff_eq]
          · exact ⟨fun same => same.1, fun same => absurd same (Nat.succ_ne_zero _)⟩
          · exact nofun
      | cons other others =>
          have heads := distinctKey_apart wellLeft.1 wellRight.1
          have headsKey := key_iff_of_sameRank
            (sameRank_key value other wellLeft.1 wellRight.1 overLeft.1 overRight.1)
          have restKey := items_key values others wellLeft.2 wellRight.2 overLeft.2 overRight.2
          rw [itemsKey, itemsKey, heads.append_eq, headsKey, globalCmpItems, Ordering.then_eq_eq,
            ← restKey, List.length_cons, List.length_cons, Nat.add_right_cancel_iff]
          exact and_left_comm

private theorem entries_key (left right : List (String × Value))
    (wellLeft : WellFormedEntries left) (wellRight : WellFormedEntries right)
    (overLeft : exactIntegers.OverEntries left) (overRight : exactIntegers.OverEntries right) :
    left.length = right.length ∧ entriesKey left = entriesKey right ↔
      left.map Prod.fst = right.map Prod.fst ∧ globalCmpEntries left right = .eq := by
  cases left with
  | nil =>
      cases right with
      | nil => exact ⟨fun _ => ⟨rfl, rfl⟩, fun _ => ⟨rfl, rfl⟩⟩
      | cons other others =>
          exact ⟨fun same => absurd same.1 (Nat.succ_ne_zero _).symm,
            fun same => absurd same.1 (List.cons_ne_nil _ _).symm⟩
  | cons entry entries =>
      cases right with
      | nil =>
          exact ⟨fun same => absurd same.1 (Nat.succ_ne_zero _),
            fun same => absurd same.1 (List.cons_ne_nil _ _)⟩
      | cons other others =>
          obtain ⟨name, value⟩ := entry
          obtain ⟨otherName, otherValue⟩ := other
          obtain ⟨leftName, leftValue, leftRest⟩ := wellLeft
          obtain ⟨rightName, rightValue, rightRest⟩ := wellRight
          have names := lenPrefixed_apart leftName rightName
          have heads := distinctKey_apart leftValue rightValue
          have headsKey := key_iff_of_sameRank
            (sameRank_key value otherValue leftValue rightValue overLeft.1 overRight.1)
          have restKey := entries_key entries others leftRest rightRest overLeft.2 overRight.2
          rw [entriesKey, entriesKey, names.append_eq, lenPrefixed_inj leftName rightName,
            utf8_injective.eq_iff, heads.append_eq, headsKey, globalCmpEntries,
            Ordering.then_eq_eq, List.map_cons, List.map_cons, List.cons.injEq,
            List.length_cons, List.length_cons, Nat.add_right_cancel_iff]
          constructor
          · rintro ⟨sameLength, sameName, sameValue, sameRest⟩
            have rest := restKey.mp ⟨sameLength, sameRest⟩
            exact ⟨⟨sameName, rest.1⟩, sameValue, rest.2⟩
          · rintro ⟨⟨sameName, sameNames⟩, sameValue, sameValues⟩
            have rest := restKey.mpr ⟨sameNames, sameValues⟩
            exact ⟨rest.1, sameName, sameValue, rest.2⟩

end

/-- Two values of which all integers are floats have one key exactly when they
are equivalent. -/
theorem distinctKey_eq_iff {left right : Value} (wellLeft : WellFormed left)
    (wellRight : WellFormed right) (overLeft : exactIntegers.Over left)
    (overRight : exactIntegers.Over right) :
    distinctKey left = distinctKey right ↔ equivalent left right = true := by
  rw [equivalent, beq_iff_eq]
  exact key_iff_of_sameRank (sameRank_key left right wellLeft wellRight overLeft overRight)

/-- Hash keys decide `DISTINCT` and grouping: tuples of values of which all
integers are floats have one key exactly when they are equivalent component by
component, and no key of a value goes on where another ends. -/
theorem tupleKey_decides {lefts rights : List Value}
    (wellLefts : ∀ value ∈ lefts, WellFormed value)
    (wellRights : ∀ value ∈ rights, WellFormed value)
    (overLefts : ∀ value ∈ lefts, exactIntegers.Over value)
    (overRights : ∀ value ∈ rights, exactIntegers.Over value) :
    (tupleKey lefts = tupleKey rights ↔
      List.Forall₂ (fun left right => equivalent left right = true) lefts rights) ∧
    ∀ left right, WellFormed left → WellFormed right → distinctKey left <+: distinctKey right →
      distinctKey left = distinctKey right := by
  refine ⟨?_, fun left right wellLeft wellRight =>
    (distinctKey_apart wellLeft wellRight).eq_of_isPrefix⟩
  have nonempty : ∀ (value : Value) (values : List Value), tupleKey (value :: values) ≠ [] := by
    intro value values
    obtain ⟨rest, isKey⟩ := distinctKey_eq_cons value
    rw [tupleKey, List.flatMap_cons, isKey]
    exact List.cons_ne_nil _ _
  induction lefts generalizing rights with
  | nil =>
      cases rights with
      | nil => exact ⟨fun _ => .nil, fun _ => rfl⟩
      | cons right rights =>
          exact ⟨fun same => absurd same.symm (nonempty right rights), nofun⟩
  | cons left lefts ih =>
      cases rights with
      | nil => exact ⟨fun same => absurd same (nonempty left lefts), nofun⟩
      | cons right rights =>
          rw [List.forall_mem_cons] at wellLefts wellRights overLefts overRights
          have heads := distinctKey_apart wellLefts.1 wellRights.1
          have headsKey := distinctKey_eq_iff wellLefts.1 wellRights.1 overLefts.1 overRights.1
          have restKey := ih wellLefts.2 wellRights.2 overLefts.2 overRights.2
          rw [tupleKey, tupleKey, List.flatMap_cons, List.flatMap_cons, heads.append_eq, headsKey,
            List.forall₂_cons]
          exact and_congr_right fun _ => restKey

/-- Zero and the negative zero, within lists that end with NaN. -/
theorem tupleKey_decides_sample :
    tupleKey [.list [.int 0, .float 0x7ff8000000000000], .null] =
      tupleKey [.list [.float 0x8000000000000000, .float 0x7ff8000000000000], .null] := by
  refine (tupleKey_decides ?_ ?_ ?_ ?_).1.mpr (.cons (by decide) (.cons (by decide) .nil)) <;>
    simp [WellFormed, WellFormedItems, Sized, Numbers.Over, Numbers.OverItems, exactIntegers,
      representable_zero]

end Value

end Acetone.Cypher

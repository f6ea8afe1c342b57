import Mathlib.Data.FinEnum
import Acetone.Cypher.Numbers
import Acetone.Lib.TotalPreorder

/-!
# The global sort order

`ORDER BY`, `min` and `max` compare values of all kinds: kinds by their rank,
values of one kind among themselves.  Integers are compared exactly and with
floats through the nearest float.  That is a total preorder exactly as long as
no float stands among two integers that are both rounded to it; values over
such numbers have keys in a lawful order that the comparison agrees with.
-/

namespace Acetone.Cypher

open Acetone.Lib Acetone.Model

/-- `partial_cmp` of floats, with NaN equal to itself and after all numbers. -/
def floatGlobalCmp (left right : UInt64) : Ordering :=
  match isNan left, isNan right with
  | true, true => .eq
  | true, false => .gt
  | false, true => .lt
  | false, false => compare (floatPlace left) (floatPlace right)

theorem floatGlobalCmp_swap (left right : UInt64) :
    floatGlobalCmp left right = (floatGlobalCmp right left).swap := by
  have places : compare (floatPlace left) (floatPlace right) =
      (compare (floatPlace right) (floatPlace left)).swap := Std.OrientedCmp.eq_swap
  rw [floatGlobalCmp, floatGlobalCmp, places]
  cases isNan left <;> cases isNan right <;> rfl

namespace Value

/-- Where the values of a kind stand among those of the others. -/
def rank : Value → Nat
  | .map _ => 0
  | .node _ _ _ => 1
  | .relationship _ _ _ _ _ => 2
  | .list _ => 3
  | .path _ _ => 4
  | .string _ => 5
  | .bool _ => 6
  | .int _ => 7
  | .float _ => 7
  | .null => 8
  | .stored _ => 5

/-- The ids of a path: those of its nodes, then those of its relationships. -/
def pathIds (nodes rels : List Value) : List EntityId := (nodes ++ rels).filterMap entityId

def textGlobalCmp (text : String) : Value → Ordering
  | .string other => compare text other
  | .stored other => compare text (renderStored other)
  | other => compare 5 other.rank

mutual

/-- The global sort order. -/
def globalCmp : Value → Value → Ordering
  | .stored left, right => textGlobalCmp (renderStored left) right
  | .string left, right => textGlobalCmp left right
  | .null, .null => .eq
  | .int left, .int right => compare left.toInt right.toInt
  | .int left, .float right => floatGlobalCmp (floatOfInt left) right
  | .float left, .int right => floatGlobalCmp left (floatOfInt right)
  | .float left, .float right => floatGlobalCmp left right
  | .bool left, .bool right => compare left right
  | .list left, .list right => globalCmpItems left right
  | .map left, .map right =>
      (List.compareLex compare (left.map Prod.fst) (right.map Prod.fst)).then
        (globalCmpEntries left right)
  | .node left _ _, .node right _ _ => lexCmp left right
  | .relationship left _ _ _ _, .relationship right _ _ _ _ => lexCmp left right
  | .path leftNodes leftRels, .path rightNodes rightRels =>
      List.compareLex lexCmp (pathIds leftNodes leftRels) (pathIds rightNodes rightRels)
  | left, right => compare left.rank right.rank

def globalCmpItems : List Value → List Value → Ordering
  | left :: lefts, right :: rights => (globalCmp left right).then (globalCmpItems lefts rights)
  | lefts, rights => compare lefts.length rights.length

/-- The values of two maps with the same names. -/
def globalCmpEntries : List (String × Value) → List (String × Value) → Ordering
  | (_, left) :: lefts, (_, right) :: rights =>
      (globalCmp left right).then (globalCmpEntries lefts rights)
  | _, _ => .eq

end

def equivalent (left right : Value) : Bool := globalCmp left right == .eq

theorem globalCmp_of_rank_ne {left right : Value} (different : left.rank ≠ right.rank) :
    globalCmp left right = compare left.rank right.rank := by
  cases left <;> cases right <;>
    first
    | rfl
    | exact absurd rfl different

/-- An atom of a key: a mark, a text or an id. -/
structure Atom where
  mark : Int
  text : String
  id : Bytes

namespace Atom

def ofMark (mark : Int) : Atom := ⟨mark, "", []⟩

def ofText (text : String) : Atom := ⟨0, text, []⟩

def ofId (id : Bytes) : Atom := ⟨0, "", id⟩

def cmp (left right : Atom) : Ordering :=
  (compare left.mark right.mark).then
    ((compare left.text right.text).then (lexCmp left.id right.id))

@[simp] theorem compare_zero_one : compare (0 : Int) 1 = .lt := rfl

@[simp] theorem compare_one_zero : compare (1 : Int) 0 = .gt := rfl

@[simp] theorem cmp_ofMark (left right : Int) :
    cmp (ofMark left) (ofMark right) = compare left right := by
  simp [cmp, ofMark, lexCmp]

@[simp] theorem cmp_ofText (left right : String) :
    cmp (ofText left) (ofText right) = compare left right := by
  simp [cmp, ofText, lexCmp]

@[simp] theorem cmp_ofId (left right : Bytes) :
    cmp (ofId left) (ofId right) = lexCmp left right := by
  simp [cmp, ofId]

instance cmpTrans : Std.TransCmp cmp := by
  have ids : Std.TransCmp fun left right : Atom => lexCmp left.id right.id :=
    { eq_swap := Std.OrientedCmp.eq_swap
      isLE_trans := Std.TransCmp.isLE_trans }
  exact inferInstanceAs (Std.TransCmp (compareLex (compareOn mark) (compareLex (compareOn text)
    fun left right => lexCmp left.id right.id)))

end Atom

/-- A sequence as atoms, each of them marked, and its end marked too. -/
def marked {α : Type} (token : α → Atom) : List α → List Atom
  | [] => [.ofMark 0]
  | item :: items => .ofMark 1 :: token item :: marked token items

def tokensCmp : List Atom → List Atom → Ordering := List.compareLex Atom.cmp

instance tokensCmpTrans : Std.TransCmp tokensCmp :=
  inferInstanceAs (Std.TransCmp (List.compareLex _))

theorem tokensCmp_cons (left right : Atom) (lefts rights : List Atom) :
    tokensCmp (left :: lefts) (right :: rights) =
      (left.cmp right).then (tokensCmp lefts rights) :=
  List.compareLex_cons_cons

theorem tokensCmp_marked {α : Type} {token : α → Atom} {cmp : α → α → Ordering}
    (agrees : ∀ left right, (token left).cmp (token right) = cmp left right)
    (lefts rights : List α) (leftRest rightRest : List Atom) :
    tokensCmp (marked token lefts ++ leftRest) (marked token rights ++ rightRest) =
      (List.compareLex cmp lefts rights).then (tokensCmp leftRest rightRest) := by
  induction lefts generalizing rights with
  | nil =>
      cases rights with
      | nil => simp [marked, tokensCmp_cons, List.compareLex_nil_nil]
      | cons right rights => simp [marked, tokensCmp_cons, List.compareLex_nil_cons]
  | cons left lefts ih =>
      cases rights with
      | nil => simp [marked, tokensCmp_cons, List.compareLex_cons_nil]
      | cons right rights =>
          simp [marked, tokensCmp_cons, List.compareLex_cons_cons, ih, agrees, Ordering.then_assoc]

end Value

structure Numbers where
  ints : Int64 → Prop
  floats : UInt64 → Prop

namespace Numbers

/-- No float stands among two different integers that are rounded to it. -/
def Apart (numbers : Numbers) : Prop :=
  ∀ first second bits, numbers.ints first → numbers.ints second → numbers.floats bits →
    floatEq (floatOfInt first) bits = true → floatEq (floatOfInt second) bits = true →
      first = second

mutual

/-- The numbers compared within a value are among the given ones. -/
def Over (numbers : Numbers) : Value → Prop
  | .int number => numbers.ints number
  | .float bits => numbers.floats bits
  | .list items => OverItems numbers items
  | .map entries => OverEntries numbers entries
  | _ => True

def OverItems (numbers : Numbers) : List Value → Prop
  | [] => True
  | value :: values => Over numbers value ∧ OverItems numbers values

def OverEntries (numbers : Numbers) : List (String × Value) → Prop
  | [] => True
  | (_, value) :: entries => Over numbers value ∧ OverEntries numbers entries

end

private theorem floatEq_floatOfInt {number : Int64} {bits : UInt64} :
    floatEq (floatOfInt number) bits = true ↔
      isNan bits = false ∧ placeOfInt number.toInt = floatPlace bits := by
  rw [floatEq, isNan_floatOfInt, floatPlace_floatOfInt]
  simp

open Classical in
/-- What tells integers in one place apart, where no float makes them equal. -/
noncomputable def tie (numbers : Numbers) (number : Int64) : Int :=
  if ∃ bits, numbers.floats bits ∧ floatEq (floatOfInt number) bits = true then 0
  else number.toInt

open Value in
/-- A number as three marks: whether it is NaN, its place, and the tie. -/
noncomputable def numberKey (numbers : Numbers) : Value → List Atom
  | .int number =>
      [.ofMark 0, .ofMark (placeOfInt number.toInt), .ofMark (numbers.tie number)]
  | .float bits =>
      if isNan bits then [.ofMark 1, .ofMark 0, .ofMark 0]
      else [.ofMark 0, .ofMark (floatPlace bits), .ofMark 0]
  | _ => []

variable {numbers : Numbers}

private theorem compare_mark (mark : Int) : compare mark mark = .eq := compare_eq_iff_eq.mpr rfl

private theorem compare_ints (apart : numbers.Apart) {left right : Int64}
    (inLeft : numbers.ints left) (inRight : numbers.ints right) :
    (compare (placeOfInt left.toInt) (placeOfInt right.toInt)).then
      (compare (numbers.tie left) (numbers.tie right)) = compare left.toInt right.toInt := by
  by_cases samePlace : placeOfInt left.toInt = placeOfInt right.toInt
  · rw [compare_eq_iff_eq.mpr samePlace, Ordering.eq_then]
    by_cases shared : ∃ bits, numbers.floats bits ∧ floatEq (floatOfInt left) bits = true
    · obtain ⟨bits, inFloats, same⟩ := shared
      have other : floatEq (floatOfInt right) bits = true := by
        rw [floatEq_floatOfInt] at same ⊢
        exact ⟨same.1, samePlace ▸ same.2⟩
      obtain rfl := apart left right bits inLeft inRight inFloats same other
      rw [compare_mark, compare_mark]
    · have alone : ¬ ∃ bits, numbers.floats bits ∧ floatEq (floatOfInt right) bits = true := by
        rintro ⟨bits, inFloats, same⟩
        refine shared ⟨bits, inFloats, ?_⟩
        rw [floatEq_floatOfInt] at same ⊢
        exact ⟨same.1, samePlace ▸ same.2⟩
      rw [tie, tie, if_neg shared, if_neg alone]
  · rcases lt_or_gt_of_ne samePlace with less | greater
    · have order : left.toInt < right.toInt := by
        by_contra above
        exact absurd (placeOfInt_mono (not_lt.mp above)) (not_le.mpr less)
      rw [compare_lt_iff_lt.mpr less, compare_lt_iff_lt.mpr order]
      rfl
    · have order : right.toInt < left.toInt := by
        by_contra below
        exact absurd (placeOfInt_mono (not_lt.mp below)) (not_le.mpr greater)
      rw [compare_gt_iff_gt.mpr greater, compare_gt_iff_gt.mpr order]
      rfl

private theorem compare_int_float {number : Int64} {bits : UInt64}
    (inFloats : numbers.floats bits) (isNumber : isNan bits = false) :
    (compare (placeOfInt number.toInt) (floatPlace bits)).then (compare (numbers.tie number) 0) =
      compare (placeOfInt number.toInt) (floatPlace bits) := by
  by_cases samePlace : placeOfInt number.toInt = floatPlace bits
  · have shared : ∃ bits, numbers.floats bits ∧ floatEq (floatOfInt number) bits = true :=
      ⟨bits, inFloats, floatEq_floatOfInt.mpr ⟨isNumber, samePlace⟩⟩
    rw [tie, if_pos shared, compare_eq_iff_eq.mpr samePlace]
    rfl
  · rcases lt_or_gt_of_ne samePlace with less | greater
    · rw [compare_lt_iff_lt.mpr less]
      rfl
    · rw [compare_gt_iff_gt.mpr greater]
      rfl

open Value in
private theorem numberKey_ints (apart : numbers.Apart) {left right : Int64}
    (inLeft : numbers.ints left) (inRight : numbers.ints right) (lefts rights : List Atom) :
    tokensCmp (numberKey numbers (.int left) ++ lefts) (numberKey numbers (.int right) ++ rights) =
      (compare left.toInt right.toInt).then (tokensCmp lefts rights) := by
  simp only [numberKey, List.cons_append, List.nil_append, tokensCmp_cons, Atom.cmp_ofMark,
    compare_mark]
  rw [Ordering.eq_then, ← Ordering.then_assoc, compare_ints apart inLeft inRight]

open Value in
private theorem numberKey_int_float {number : Int64} {bits : UInt64}
    (inFloats : numbers.floats bits) (lefts rights : List Atom) :
    tokensCmp (numberKey numbers (.int number) ++ lefts)
        (numberKey numbers (.float bits) ++ rights) =
      (floatGlobalCmp (floatOfInt number) bits).then (tokensCmp lefts rights) := by
  rw [floatGlobalCmp, isNan_floatOfInt, floatPlace_floatOfInt]
  cases isNumber : isNan bits with
  | true => simp [numberKey, isNumber, tokensCmp_cons]
  | false =>
      simp only [numberKey, isNumber, Bool.false_eq_true, if_false, List.cons_append,
        List.nil_append, tokensCmp_cons, Atom.cmp_ofMark, compare_mark]
      rw [Ordering.eq_then, ← Ordering.then_assoc, compare_int_float inFloats isNumber]

open Value in
private theorem numberKey_float_int {number : Int64} {bits : UInt64}
    (inFloats : numbers.floats bits) (lefts rights : List Atom) :
    tokensCmp (numberKey numbers (.float bits) ++ lefts)
        (numberKey numbers (.int number) ++ rights) =
      (floatGlobalCmp bits (floatOfInt number)).then (tokensCmp lefts rights) := by
  have turned := @numberKey_int_float numbers number bits inFloats rights lefts
  have swapTokens : ∀ left right : List Atom,
      tokensCmp left right = (tokensCmp right left).swap := fun _ _ => Std.OrientedCmp.eq_swap
  rw [swapTokens, turned, Ordering.swap_then, ← floatGlobalCmp_swap, ← swapTokens]

open Value in
private theorem numberKey_floats (left right : UInt64) (lefts rights : List Atom) :
    tokensCmp (numberKey numbers (.float left) ++ lefts)
        (numberKey numbers (.float right) ++ rights) =
      (floatGlobalCmp left right).then (tokensCmp lefts rights) := by
  rw [floatGlobalCmp]
  cases leftNan : isNan left <;> cases rightNan : isNan right <;>
    simp [numberKey, leftNan, rightNan, tokensCmp_cons]

open Value

mutual

/-- A key without its rank.  The items of a list are marked, and so is its end. -/
noncomputable def sortBody (numbers : Numbers) : Value → List Atom
  | .null => []
  | .bool flag => [.ofMark (if flag then 1 else 0)]
  | .int number => numberKey numbers (.int number)
  | .float bits => numberKey numbers (.float bits)
  | .string text => [.ofText text]
  | .stored value => [.ofText (renderStored value)]
  | .list items => itemsBody numbers items
  | .map entries => marked .ofText (entries.map Prod.fst) ++ entriesBody numbers entries
  | .node id _ _ => [.ofId id]
  | .relationship id _ _ _ _ => [.ofId id]
  | .path nodes rels => marked .ofId (pathIds nodes rels)

noncomputable def itemsBody (numbers : Numbers) : List Value → List Atom
  | [] => [.ofMark 0]
  | value :: values =>
      .ofMark 1 :: .ofMark value.rank :: (sortBody numbers value ++ itemsBody numbers values)

noncomputable def entriesBody (numbers : Numbers) : List (String × Value) → List Atom
  | [] => []
  | (_, value) :: entries =>
      .ofMark value.rank :: (sortBody numbers value ++ entriesBody numbers entries)

end

noncomputable def sortKey (numbers : Numbers) (value : Value) : List Atom :=
  .ofMark value.rank :: sortBody numbers value

private theorem keys_agree {left right : Value} {lefts rights : List Atom}
    (bodies : left.rank = right.rank →
      tokensCmp (sortBody numbers left ++ lefts) (sortBody numbers right ++ rights) =
        (globalCmp left right).then (tokensCmp lefts rights)) :
    tokensCmp (.ofMark left.rank :: (sortBody numbers left ++ lefts))
        (.ofMark right.rank :: (sortBody numbers right ++ rights)) =
      (globalCmp left right).then (tokensCmp lefts rights) := by
  rw [tokensCmp_cons, Atom.cmp_ofMark]
  by_cases same : left.rank = right.rank
  · rw [bodies same, same, compare_mark, Ordering.eq_then]
  · rw [globalCmp_of_rank_ne same]
    rcases lt_or_gt_of_ne same with less | greater
    · rw [compare_lt_iff_lt.mpr less, compare_lt_iff_lt.mpr (by exact_mod_cast less)]
      rfl
    · rw [compare_gt_iff_gt.mpr greater, compare_gt_iff_gt.mpr (by exact_mod_cast greater)]
      rfl

mutual

/-- The comparison is that of the keys, one case for each kind. -/
private theorem bodies_agree (apart : numbers.Apart) (left right : Value)
    (overLeft : numbers.Over left) (overRight : numbers.Over right)
    (sameRank : left.rank = right.rank) (lefts rights : List Atom) :
    tokensCmp (sortBody numbers left ++ lefts) (sortBody numbers right ++ rights) =
      (globalCmp left right).then (tokensCmp lefts rights) := by
  cases left with
  | null =>
      cases right with
      | null => simp [sortBody, globalCmp]
      | _ => cases sameRank
  | bool left =>
      cases right with
      | bool right =>
          have flags : compare (if left then (1 : Int) else 0) (if right then 1 else 0) =
              compare left right := by
            cases left <;> cases right <;> rfl
          simp [sortBody, globalCmp, tokensCmp_cons, flags]
      | _ => cases sameRank
  | int left =>
      cases right with
      | int right =>
          simp only [sortBody, globalCmp, numberKey_ints apart overLeft overRight]
      | float right => simp only [sortBody, globalCmp, numberKey_int_float overRight]
      | _ => cases sameRank
  | float left =>
      cases right with
      | int right => simp only [sortBody, globalCmp, numberKey_float_int overLeft]
      | float right => simp only [sortBody, globalCmp, numberKey_floats]
      | _ => cases sameRank
  | string left =>
      cases right with
      | string right => simp [sortBody, globalCmp, textGlobalCmp, tokensCmp_cons]
      | stored right => simp [sortBody, globalCmp, textGlobalCmp, tokensCmp_cons]
      | _ => cases sameRank
  | stored left =>
      cases right with
      | string right => simp [sortBody, globalCmp, textGlobalCmp, tokensCmp_cons]
      | stored right => simp [sortBody, globalCmp, textGlobalCmp, tokensCmp_cons]
      | _ => cases sameRank
  | list left =>
      cases right with
      | list right =>
          simp only [sortBody, globalCmp]
          exact items_agree apart left right overLeft overRight lefts rights
      | _ => cases sameRank
  | map left =>
      cases right with
      | map right =>
          simp only [sortBody, globalCmp, List.append_assoc, Ordering.then_assoc]
          rw [tokensCmp_marked Atom.cmp_ofText]
          cases names : List.compareLex compare (left.map Prod.fst) (right.map Prod.fst) with
          | lt => rfl
          | gt => rfl
          | eq =>
              have sameNames := Std.LawfulEqCmp.eq_of_compare names
              rw [Ordering.eq_then, Ordering.eq_then]
              exact entries_agree apart left right overLeft overRight
                (by simpa using congrArg List.length sameNames) lefts rights
      | _ => cases sameRank
  | node left _ _ =>
      cases right with
      | node right _ _ => simp [sortBody, globalCmp, tokensCmp_cons]
      | _ => cases sameRank
  | relationship left _ _ _ _ =>
      cases right with
      | relationship right _ _ _ _ => simp [sortBody, globalCmp, tokensCmp_cons]
      | _ => cases sameRank
  | path leftNodes leftRels =>
      cases right with
      | path rightNodes rightRels =>
          simp only [sortBody, globalCmp]
          exact tokensCmp_marked Atom.cmp_ofId _ _ _ _
      | _ => cases sameRank

private theorem items_agree (apart : numbers.Apart) (left right : List Value)
    (overLeft : numbers.OverItems left) (overRight : numbers.OverItems right)
    (lefts rights : List Atom) :
    tokensCmp (itemsBody numbers left ++ lefts) (itemsBody numbers right ++ rights) =
      (globalCmpItems left right).then (tokensCmp lefts rights) := by
  cases left with
  | nil =>
      cases right with
      | nil => simp [itemsBody, globalCmpItems, tokensCmp_cons]
      | cons other others =>
          have shorter : compare 0 (others.length + 1) = .lt := compare_lt_iff_lt.mpr (by omega)
          simp [itemsBody, globalCmpItems, tokensCmp_cons, shorter]
  | cons value values =>
      cases right with
      | nil =>
          have longer : compare (values.length + 1) 0 = .gt := compare_gt_iff_gt.mpr (by omega)
          simp [itemsBody, globalCmpItems, tokensCmp_cons, longer]
      | cons other others =>
          simp only [itemsBody, globalCmpItems, List.cons_append, List.append_assoc]
          rw [tokensCmp_cons, Atom.cmp_ofMark, compare_mark, Ordering.eq_then,
            keys_agree fun same => bodies_agree apart value other overLeft.1 overRight.1 same _ _,
            items_agree apart values others overLeft.2 overRight.2, Ordering.then_assoc]

private theorem entries_agree (apart : numbers.Apart) (left right : List (String × Value))
    (overLeft : numbers.OverEntries left) (overRight : numbers.OverEntries right)
    (sameLength : left.length = right.length) (lefts rights : List Atom) :
    tokensCmp (entriesBody numbers left ++ lefts) (entriesBody numbers right ++ rights) =
      (globalCmpEntries left right).then (tokensCmp lefts rights) := by
  cases left with
  | nil =>
      cases right with
      | nil => simp [entriesBody, globalCmpEntries]
      | cons other others => cases sameLength
  | cons entry entries =>
      cases right with
      | nil => cases sameLength
      | cons other others =>
          obtain ⟨name, value⟩ := entry
          obtain ⟨otherName, otherValue⟩ := other
          simp only [entriesBody, globalCmpEntries, List.cons_append, List.append_assoc]
          rw [keys_agree fun same =>
              bodies_agree apart value otherValue overLeft.1 overRight.1 same _ _,
            entries_agree apart entries others overLeft.2 overRight.2
              (Nat.succ.inj sameLength), Ordering.then_assoc]

end

theorem globalCmp_eq_tokensCmp (apart : numbers.Apart) {left right : Value}
    (overLeft : numbers.Over left) (overRight : numbers.Over right) :
    globalCmp left right = tokensCmp (sortKey numbers left) (sortKey numbers right) := by
  have agrees := @keys_agree numbers left right [] [] fun same =>
    bodies_agree apart left right overLeft overRight same [] []
  rw [List.append_nil, List.append_nil] at agrees
  rw [sortKey, sortKey, agrees]
  exact Ordering.then_eq.symm

theorem globalCmp_total (apart : numbers.Apart) : TotalOn numbers.Over globalCmp :=
  .of_key (sortKey numbers) fun _ _ overLeft overRight =>
    globalCmp_eq_tokensCmp apart overLeft overRight

/-- The rows of `ORDER BY`: their keys with the directions, and what they carry. -/
abbrev KeyedRow (Row : Type) := List (Value × Bool) × Row

def orderByCmp {Row : Type} (left right : KeyedRow Row) : Ordering :=
  directedCmp globalCmp left.1 right.1

/-- `sort_by`, which is stable. -/
def sortRows {Row : Type} (rows : List (KeyedRow Row)) : List (KeyedRow Row) :=
  rows.mergeSort fun left right => decide (orderByCmp left right ≠ .gt)

def Keyed {Row : Type} (numbers : Numbers) (directions : List Bool) (row : KeyedRow Row) : Prop :=
  row.1.map Prod.snd = directions ∧ ∀ key ∈ row.1, numbers.Over key.1

theorem orderByCmp_total {Row : Type} (total : TotalOn numbers.Over globalCmp)
    (directions : List Bool) :
    TotalOn (numbers.Keyed directions) (@orderByCmp Row) where
  self row := (total.directed directions).self row.1
  swap left right := (total.directed directions).swap left.1 right.1
  trans first second third := (total.directed directions).trans first.1 second.1 third.1

/-- The order of values is a total preorder, and so is that of rows in any
directions; sorted rows, the least and the greatest value do not depend on the
order in which they come. -/
structure OrdersSoundly (numbers : Numbers) : Prop where
  values : TotalOn numbers.Over globalCmp
  rows : ∀ (Row : Type) directions, TotalOn (numbers.Keyed directions) (@orderByCmp Row)
  sorted : ∀ (Row : Type) directions (rows others : List (KeyedRow Row)),
    (∀ row ∈ rows, numbers.Keyed directions row) → rows.Perm others →
      List.Forall₂ (fun left right => orderByCmp left right = .eq) (sortRows rows)
        (sortRows others)
  least : ∀ (values others : List Value), (∀ value ∈ values, numbers.Over value) →
    values.Perm others → ∀ left right, minBy globalCmp values = some left →
      minBy globalCmp others = some right → globalCmp left right = .eq
  greatest : ∀ (values others : List Value), (∀ value ∈ values, numbers.Over value) →
    values.Perm others → ∀ left right, maxBy globalCmp values = some left →
      maxBy globalCmp others = some right → globalCmp left right = .eq

/-- The global sort order over given numbers is sound exactly when no float
among them is the rounding of two different integers among them. -/
theorem ordersSoundly_iff (numbers : Numbers) : numbers.OrdersSoundly ↔ numbers.Apart := by
  constructor
  · intro sound first second bits inFirst inSecond inFloats sameFirst sameSecond
    have le : ∀ left right, numbers.ints left → numbers.ints right →
        floatEq (floatOfInt left) bits = true → floatEq (floatOfInt right) bits = true →
          left.toInt ≤ right.toInt := by
      intro left right inLeft inRight sameLeft sameRight
      rw [floatEq_floatOfInt] at sameLeft sameRight
      have below : globalCmp (.int left) (.float bits) = .eq := by
        rw [globalCmp, floatGlobalCmp, isNan_floatOfInt, sameLeft.1, floatPlace_floatOfInt]
        exact compare_eq_iff_eq.mpr sameLeft.2
      have above : globalCmp (.float bits) (.int right) = .eq := by
        rw [globalCmp, floatGlobalCmp, isNan_floatOfInt, sameRight.1, floatPlace_floatOfInt]
        exact compare_eq_iff_eq.mpr sameRight.2.symm
      have whole := sound.values.trans (.int left) (.float bits) (.int right) inLeft inFloats
        inRight (by rw [below]; decide) (by rw [above]; decide)
      rw [globalCmp, Ne, compare_gt_iff_gt, not_lt] at whole
      exact whole
    exact Int64.toInt_inj.mp (le_antisymm
      (le first second inFirst inSecond sameFirst sameSecond)
      (le second first inSecond inFirst sameSecond sameFirst))
  · intro apart
    have total := globalCmp_total apart
    refine ⟨total, fun Row => orderByCmp_total total, ?_, ?_, ?_⟩
    · intro Row directions rows others keyed perm
      have rowsTotal := @orderByCmp_total numbers Row total directions
      have keyedOthers : ∀ row ∈ others, numbers.Keyed directions row :=
        fun row member => keyed row (perm.mem_iff.mpr member)
      have same : (sortRows rows).Perm (sortRows others) :=
        ((List.mergeSort_perm _ _).trans perm).trans (List.mergeSort_perm _ _).symm
      exact rowsTotal.sorted_perm (fun row member => keyed row (List.mem_mergeSort.mp member)) same
        (rowsTotal.pairwise_mergeSort keyed) (rowsTotal.pairwise_mergeSort keyedOthers)
    · exact fun values others within perm left right isLeft isRight =>
        total.minBy_perm within perm isLeft isRight
    · exact fun values others within perm left right isLeft isRight =>
        total.maxBy_perm within perm isLeft isRight

/-- `2 ^ 53` and the integer after it, which have one float. -/
theorem globalCmp_not_transitive :
    ¬ ∀ first second third : Value, globalCmp first second ≠ .gt →
      globalCmp second third ≠ .gt → globalCmp first third ≠ .gt := by
  intro transitive
  exact transitive (.int 9007199254740993) (.float 0x4340000000000000) (.int 9007199254740992)
    (by decide) (by decide) (by decide)

end Numbers

end Acetone.Cypher

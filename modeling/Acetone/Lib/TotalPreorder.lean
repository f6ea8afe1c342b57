import Mathlib.Data.List.Sort
import Mathlib.Order.Antisymmetrization

/-!
# Comparators that are total preorders

A comparator is a total preorder on a set of values when it compares each of
them equal to itself, reads the same from either side and is transitive.  On
such a set directions and further keys may be added, the least and the greatest
value do not depend on the order of the values, nor does a sorted sequence, up
to values that compare equal.
-/

namespace Acetone.Lib

variable {α β : Type}

structure TotalOn (S : α → Prop) (cmp : α → α → Ordering) : Prop where
  self : ∀ a, S a → cmp a a = .eq
  swap : ∀ a b, S a → S b → cmp b a = (cmp a b).swap
  trans : ∀ a b c, S a → S b → S c → cmp a b ≠ .gt → cmp b c ≠ .gt → cmp a c ≠ .gt

namespace TotalOn

variable {S : α → Prop} {T : β → Prop} {cmp : α → α → Ordering} {next : β → β → Ordering}

theorem of_key {lawful : β → β → Ordering} [Std.TransCmp lawful] (key : α → β)
    (agrees : ∀ a b, S a → S b → cmp a b = lawful (key a) (key b)) : TotalOn S cmp where
  self a inside := by
    rw [agrees a a inside inside]
    exact Std.ReflCmp.compare_self
  swap a b left right := by
    rw [agrees a b left right, agrees b a right left, ← Std.OrientedCmp.eq_swap]
  trans a b c first second third below above := by
    rw [agrees _ _ first second] at below
    rw [agrees _ _ second third] at above
    rw [agrees _ _ first third]
    exact Ordering.isLE_iff_ne_gt.mp (Std.TransCmp.isLE_trans
      (Ordering.isLE_iff_ne_gt.mpr below) (Ordering.isLE_iff_ne_gt.mpr above))

theorem opposite (total : TotalOn S cmp) : TotalOn S fun a b => cmp b a where
  self := total.self
  swap a b left right := total.swap b a right left
  trans a b c first second third below above := total.trans c b a third second first above below

theorem reverse (total : TotalOn S cmp) : TotalOn S fun a b => (cmp a b).swap where
  self a inside := by rw [total.self a inside]; rfl
  swap a b left right := by rw [total.swap a b left right]
  trans a b c first second third below above := by
    rw [← total.swap _ _ first second] at below
    rw [← total.swap _ _ second third] at above
    rw [← total.swap _ _ first third]
    exact total.opposite.trans a b c first second third below above

/-- If the first step is strict or the second is, then so are both together. -/
theorem eq_of_cycle (total : TotalOn S cmp) {a b c : α} (first : S a) (second : S b)
    (third : S c) (below : cmp a b ≠ .gt) (above : cmp b c ≠ .gt) (same : cmp a c = .eq) :
    cmp a b = .eq ∧ cmp b c = .eq := by
  have back : cmp c a ≠ .gt := by
    rw [total.swap a c first third, same]
    decide
  have notLess : cmp b a ≠ .gt := total.trans b c a second third first above back
  have notMore : cmp c b ≠ .gt := total.trans c a b third first second back below
  rw [total.swap a b first second] at notLess
  rw [total.swap b c second third] at notMore
  constructor
  · cases order : cmp a b with
    | lt => exact absurd (by rw [order]; rfl) notLess
    | eq => rfl
    | gt => exact absurd order below
  · cases order : cmp b c with
    | lt => exact absurd (by rw [order]; rfl) notMore
    | eq => rfl
    | gt => exact absurd order above

/-- A further key decides among values that compare equal. -/
theorem lex (total : TotalOn S cmp) (further : TotalOn T next) :
    TotalOn (fun pair : α × β => S pair.1 ∧ T pair.2)
      fun left right => (cmp left.1 right.1).then (next left.2 right.2) where
  self pair inside := by rw [total.self _ inside.1, further.self _ inside.2]; rfl
  swap left right inLeft inRight := by
    rw [total.swap _ _ inLeft.1 inRight.1, further.swap _ _ inLeft.2 inRight.2,
      Ordering.swap_then]
  trans a b c first second third below above := by
    have belowFirst : cmp a.1 b.1 ≠ .gt := by
      intro greater
      rw [greater] at below
      exact below rfl
    have aboveFirst : cmp b.1 c.1 ≠ .gt := by
      intro greater
      rw [greater] at above
      exact above rfl
    have whole := total.trans _ _ _ first.1 second.1 third.1 belowFirst aboveFirst
    cases order : cmp a.1 c.1 with
    | lt => exact nofun
    | gt => exact absurd order whole
    | eq =>
        obtain ⟨sameBelow, sameAbove⟩ :=
          total.eq_of_cycle first.1 second.1 third.1 belowFirst aboveFirst order
        rw [sameBelow] at below
        rw [sameAbove] at above
        exact further.trans _ _ _ first.2 second.2 third.2 below above

end TotalOn

/-- Compare key by key, each in its direction; as far as both go. -/
def directedCmp (cmp : α → α → Ordering) : List (α × Bool) → List (α × Bool) → Ordering
  | (left, descending) :: lefts, (right, _) :: rights =>
      (if descending then (cmp left right).swap else cmp left right).then
        (directedCmp cmp lefts rights)
  | _, _ => .eq

theorem TotalOn.directed {S : α → Prop} {cmp : α → α → Ordering} (total : TotalOn S cmp)
    (directions : List Bool) :
    TotalOn (fun keys : List (α × Bool) =>
      keys.map Prod.snd = directions ∧ ∀ key ∈ keys, S key.1) (directedCmp cmp) := by
  induction directions with
  | nil =>
      have empty : ∀ keys : List (α × Bool), keys.map Prod.snd = [] → keys = [] :=
        fun keys => List.map_eq_nil_iff.mp
      constructor
      · rintro keys ⟨none, -⟩
        rw [empty keys none]
        rfl
      · rintro left right ⟨none, -⟩ ⟨nothing, -⟩
        rw [empty left none, empty right nothing]
        rfl
      · rintro a b c ⟨none, -⟩ - ⟨nothing, -⟩ - -
        rw [empty a none, empty c nothing]
        exact nofun
  | cons descending directions ih =>
      have first : TotalOn S fun a b => if descending then (cmp a b).swap else cmp a b := by
        cases descending
        · exact total
        · exact total.reverse
      have both := first.lex ih
      have split : ∀ keys : List (α × Bool), keys.map Prod.snd = descending :: directions ∧
          (∀ key ∈ keys, S key.1) → ∃ head rest, keys = (head, descending) :: rest ∧
            S head ∧ rest.map Prod.snd = directions ∧ ∀ key ∈ rest, S key.1 := by
        rintro keys ⟨flags, inside⟩
        cases keys with
        | nil => cases flags
        | cons key rest =>
            obtain ⟨head, flag⟩ := key
            rw [List.map_cons, List.cons.injEq] at flags
            obtain ⟨rfl, flags⟩ := flags
            exact ⟨head, rest, rfl, inside _ List.mem_cons_self, flags, fun key member =>
              inside key (List.mem_cons_of_mem _ member)⟩
      constructor
      · intro keys inside
        obtain ⟨head, rest, rfl, inHead, inRest⟩ := split keys inside
        exact both.self (head, rest) ⟨inHead, inRest⟩
      · intro left right inLeft inRight
        obtain ⟨head, rest, rfl, inHead, inRest⟩ := split left inLeft
        obtain ⟨other, others, rfl, inOther, inOthers⟩ := split right inRight
        exact both.swap (head, rest) (other, others) ⟨inHead, inRest⟩ ⟨inOther, inOthers⟩
      · intro a b c inA inB inC
        obtain ⟨first, firsts, rfl, inFirst, inFirsts⟩ := split a inA
        obtain ⟨second, seconds, rfl, inSecond, inSeconds⟩ := split b inB
        obtain ⟨third, thirds, rfl, inThird, inThirds⟩ := split c inC
        exact both.trans (first, firsts) (second, seconds) (third, thirds)
          ⟨inFirst, inFirsts⟩ ⟨inSecond, inSeconds⟩ ⟨inThird, inThirds⟩

/-- `min_by`: the first of the least values. -/
def minBy (cmp : α → α → Ordering) : List α → Option α
  | [] => none
  | first :: rest =>
      some (rest.foldl (fun best item => if cmp best item = .gt then item else best) first)

/-- `max_by`: the last of the greatest values. -/
def maxBy (cmp : α → α → Ordering) : List α → Option α
  | [] => none
  | first :: rest =>
      some (rest.foldl (fun best item => if cmp best item = .gt then best else item) first)

namespace TotalOn

variable {S : α → Prop} {cmp : α → α → Ordering}

private theorem le_of_gt (total : TotalOn S cmp) {a b : α} (first : S a) (second : S b)
    (greater : cmp a b = .gt) : cmp b a ≠ .gt := by
  rw [total.swap a b first second, greater]
  exact nofun

private theorem fold_least (total : TotalOn S cmp) {pick : α → α → α}
    (picks : ∀ a b, S a → S b →
      (pick a b = a ∨ pick a b = b) ∧ cmp (pick a b) a ≠ .gt ∧ cmp (pick a b) b ≠ .gt)
    {first : α} {rest : List α} (inFirst : S first) (inRest : ∀ item ∈ rest, S item) :
    rest.foldl pick first ∈ first :: rest ∧
      ∀ item ∈ first :: rest, cmp (rest.foldl pick first) item ≠ .gt := by
  induction rest generalizing first with
  | nil =>
      refine ⟨List.mem_cons_self, fun item member => ?_⟩
      rw [List.mem_singleton.mp member, List.foldl_nil, total.self _ inFirst]
      exact nofun
  | cons item rest ih =>
      rw [List.forall_mem_cons] at inRest
      obtain ⟨inItem, inRest⟩ := inRest
      obtain ⟨isOne, leFirst, leItem⟩ := picks first item inFirst inItem
      have inPick : S (pick first item) := by
        rcases isOne with same | same
        · rw [same]
          exact inFirst
        · rw [same]
          exact inItem
      obtain ⟨member, least⟩ := ih inPick inRest
      have within : S (rest.foldl pick (pick first item)) := by
        rcases List.mem_cons.mp member with here | later
        · rw [here]
          exact inPick
        · exact inRest _ later
      rw [List.forall_mem_cons] at least
      refine ⟨?_, ?_⟩
      · rcases List.mem_cons.mp member with here | later
        · rw [List.foldl_cons, here]
          rcases isOne with same | same
          · rw [same]
            exact List.mem_cons_self
          · rw [same]
            exact List.mem_cons_of_mem _ List.mem_cons_self
        · exact List.mem_cons_of_mem _ (List.mem_cons_of_mem _ later)
      · rw [List.forall_mem_cons, List.forall_mem_cons]
        exact ⟨total.trans _ _ _ within inPick inFirst least.1 leFirst,
          total.trans _ _ _ within inPick inItem least.1 leItem, least.2⟩

theorem minBy_spec (total : TotalOn S cmp) {items : List α} (inside : ∀ item ∈ items, S item)
    {least : α} (isLeast : minBy cmp items = some least) :
    least ∈ items ∧ ∀ item ∈ items, cmp least item ≠ .gt := by
  cases items with
  | nil => cases isLeast
  | cons first rest =>
      cases isLeast
      rw [List.forall_mem_cons] at inside
      refine total.fold_least (fun a b inLeft inRight => ?_) inside.1 inside.2
      split
      · next greater =>
        exact ⟨.inr rfl, total.le_of_gt inLeft inRight greater, by
          rw [total.self b inRight]; exact nofun⟩
      · next notGreater =>
        exact ⟨.inl rfl, by rw [total.self a inLeft]; exact nofun, notGreater⟩

theorem maxBy_spec (total : TotalOn S cmp) {items : List α} (inside : ∀ item ∈ items, S item)
    {greatest : α} (isGreatest : maxBy cmp items = some greatest) :
    greatest ∈ items ∧ ∀ item ∈ items, cmp item greatest ≠ .gt := by
  cases items with
  | nil => cases isGreatest
  | cons first rest =>
      cases isGreatest
      rw [List.forall_mem_cons] at inside
      refine total.opposite.fold_least (fun a b inLeft inRight => ?_) inside.1 inside.2
      split
      · next greater =>
        exact ⟨.inl rfl, by rw [total.self a inLeft]; exact nofun,
          total.le_of_gt inLeft inRight greater⟩
      · next notGreater =>
        exact ⟨.inr rfl, notGreater, by rw [total.self b inRight]; exact nofun⟩

private theorem eq_of_le (total : TotalOn S cmp) {a b : α} (first : S a) (second : S b)
    (le : cmp a b ≠ .gt) (ge : cmp b a ≠ .gt) : cmp a b = .eq := by
  rw [total.swap a b first second] at ge
  cases order : cmp a b with
  | lt => exact absurd (by rw [order]; rfl) ge
  | eq => rfl
  | gt => exact absurd order le

/-- The least value is the same in every order, up to values that compare equal. -/
theorem minBy_perm (total : TotalOn S cmp) {items others : List α}
    (inside : ∀ item ∈ items, S item) (perm : items.Perm others) {least other : α}
    (isLeast : minBy cmp items = some least) (isOther : minBy cmp others = some other) :
    cmp least other = .eq := by
  obtain ⟨member, below⟩ := total.minBy_spec inside isLeast
  obtain ⟨otherMember, otherBelow⟩ :=
    total.minBy_spec (fun item present => inside item (perm.mem_iff.mpr present)) isOther
  have within := perm.mem_iff.mpr otherMember
  exact total.eq_of_le (inside _ member) (inside _ within) (below _ within)
    (otherBelow _ (perm.mem_iff.mp member))

theorem maxBy_perm (total : TotalOn S cmp) {items others : List α}
    (inside : ∀ item ∈ items, S item) (perm : items.Perm others) {greatest other : α}
    (isGreatest : maxBy cmp items = some greatest) (isOther : maxBy cmp others = some other) :
    cmp greatest other = .eq := by
  obtain ⟨member, above⟩ := total.maxBy_spec inside isGreatest
  obtain ⟨otherMember, otherAbove⟩ :=
    total.maxBy_spec (fun item present => inside item (perm.mem_iff.mpr present)) isOther
  have within := perm.mem_iff.mpr otherMember
  exact total.eq_of_le (inside _ member) (inside _ within)
    (otherAbove _ (perm.mem_iff.mp member)) (above _ within)

/-- The values of the set, as a preorder. -/
@[reducible] def preorder (total : TotalOn S cmp) : Preorder {item // S item} where
  le a b := cmp a.1 b.1 ≠ .gt
  le_refl a := by
    rw [total.self a.1 a.2]
    exact nofun
  le_trans a b c := total.trans a.1 b.1 c.1 a.2 b.2 c.2

/-- Two sorted arrangements of the same values agree place by place, up to
values that compare equal. -/
theorem sorted_perm (total : TotalOn S cmp) {items others : List α}
    (inside : ∀ item ∈ items, S item) (perm : items.Perm others)
    (sorted : items.Pairwise fun a b => cmp a b ≠ .gt)
    (sortedOthers : others.Pairwise fun a b => cmp a b ≠ .gt) :
    List.Forall₂ (fun a b => cmp a b = .eq) items others := by
  let order := total.preorder
  have insideOthers : ∀ item ∈ others, S item :=
    fun item member => inside item (perm.mem_iff.mpr member)
  let left := items.pmap Subtype.mk inside
  let right := others.pmap Subtype.mk insideOthers
  have permuted : left.Perm right := perm.pmap Subtype.mk
  have leftSorted : (left.map (toAntisymmetrization (· ≤ ·))).Pairwise (· ≤ ·) := by
    rw [List.pairwise_map, List.pairwise_pmap]
    exact sorted.imp fun le _ _ => le
  have rightSorted : (right.map (toAntisymmetrization (· ≤ ·))).Pairwise (· ≤ ·) := by
    rw [List.pairwise_map, List.pairwise_pmap]
    exact sortedOthers.imp fun le _ _ => le
  have same := (permuted.map (toAntisymmetrization (· ≤ ·))).eq_of_pairwise'
    leftSorted rightSorted
  have pairs : List.Forall₂ (fun a b : {item // S item} => cmp a.1 b.1 = .eq) left right := by
    rw [← List.forall₂_eq_eq_eq, List.forall₂_map_left_iff, List.forall₂_map_right_iff] at same
    refine same.imp fun a b equal => ?_
    have both : AntisymmRel (· ≤ ·) a b := Quotient.exact equal
    exact total.eq_of_le a.2 b.2 both.1 both.2
  have values : left.map Subtype.val = items ∧ right.map Subtype.val = others := by
    constructor <;> simp [left, right, List.map_pmap]
  rw [← values.1, ← values.2, List.forall₂_map_left_iff, List.forall₂_map_right_iff]
  exact pairs

theorem pairwise_mergeSort (total : TotalOn S cmp) {items : List α}
    (inside : ∀ item ∈ items, S item) :
    (items.mergeSort fun a b => decide (cmp a b ≠ .gt)).Pairwise fun a b => cmp a b ≠ .gt := by
  let le : {item // S item} → {item // S item} → Bool := fun a b => decide (cmp a.1 b.1 ≠ .gt)
  have sorted := @List.pairwise_mergeSort _ le
    (fun a b c below above => by
      rw [decide_eq_true_eq] at below above ⊢
      exact total.trans a.1 b.1 c.1 a.2 b.2 c.2 below above)
    (fun a b => by
      rw [Bool.or_eq_true, decide_eq_true_eq, decide_eq_true_eq, or_iff_not_imp_left, not_not]
      exact total.le_of_gt a.2 b.2)
    (items.pmap Subtype.mk inside)
  have values : (items.pmap Subtype.mk inside).map Subtype.val = items := by
    simp [List.map_pmap]
  have same := List.map_mergeSort (r := le) (s := fun a b => decide (cmp a b ≠ .gt))
    (f := Subtype.val) (l := items.pmap Subtype.mk inside) fun _ _ _ _ => rfl
  rw [values] at same
  rw [← same, List.pairwise_map]
  exact sorted.imp fun below => of_decide_eq_true below

end TotalOn

end Acetone.Lib

import Acetone.Lib.Partition
import Acetone.Prolly.Reading
import Acetone.Prolly.Scan

/-!
# Range scans yield exactly the range

A scan meets the pairs of a tree in its direction.  Seeking skips the pairs
that its entry bound excludes, and the scan ends before the first pair that its
exit bound excludes; as keys are ordered, what lies between is the range.
-/

namespace Acetone.Prolly

open Acetone.Lib

namespace Direction

def opposite : Direction → Direction
  | .forward => .reverse
  | .reverse => .forward

/-- Ascending items as the direction meets them. -/
def order {α : Type} (items : List α) : Direction → List α
  | .forward => items
  | .reverse => items.reverse

/-- The direction meets the first key before the second. -/
def Precedes (first second : Bytes) : Direction → Prop
  | .forward => first < second
  | .reverse => second < first

end Direction

/-- Whether a scan that enters at the bound in that direction meets the key. -/
def Bound.admits (bound : Bound) (dir : Direction) (key : Bytes) : Bool :=
  match bound, dir with
  | .included limit, .forward => limit ≤ key
  | .excluded limit, .forward => limit < key
  | .included limit, .reverse => key ≤ limit
  | .excluded limit, .reverse => key < limit
  | .unbounded, _ => true

def inRange (low high : Bound) (pairs : List (Bytes × Bytes)) : List (Bytes × Bytes) :=
  pairs.filter fun pair => low.admits .forward pair.1 && high.admits .reverse pair.1

theorem Bound.admits_of_precedes {bound : Bound} {dir : Direction} {first second : Bytes}
    (admits : bound.admits dir first = true) (precedes : dir.Precedes first second) :
    bound.admits dir second = true := by
  cases bound with
  | unbounded => cases dir <;> rfl
  | included limit =>
      cases dir with
      | forward =>
          simp only [Bound.admits, decide_eq_true_eq] at admits ⊢
          exact admits.trans (le_of_lt precedes)
      | reverse =>
          simp only [Bound.admits, decide_eq_true_eq] at admits ⊢
          exact (le_of_lt precedes).trans admits
  | excluded limit =>
      cases dir with
      | forward =>
          simp only [Bound.admits, decide_eq_true_eq] at admits ⊢
          exact lt_trans admits precedes
      | reverse =>
          simp only [Bound.admits, decide_eq_true_eq] at admits ⊢
          exact lt_trans precedes admits

private theorem precedes_opposite {dir : Direction} {first second : Bytes} :
    dir.opposite.Precedes second first ↔ dir.Precedes first second := by
  cases dir <;> rfl

theorem mem_order {α : Type} {dir : Direction} {items : List α} {item : α} :
    item ∈ dir.order items ↔ item ∈ items := by
  cases dir with
  | forward => rfl
  | reverse => exact List.mem_reverse

theorem order_pairwise {dir : Direction} {pairs : List (Bytes × Bytes)}
    (ascending : Ascending pairs) :
    (dir.order pairs).Pairwise fun first second => dir.Precedes first.1 second.1 := by
  cases dir with
  | forward => exact ascending
  | reverse => exact List.pairwise_reverse.mpr ascending

private theorem entryPos_forward (entries : List (Bytes × Bytes)) (bound : Bound) :
    Scan.entryPos entries bound .forward =
      Scan.partitionPoint (fun entry => !bound.admits .forward entry.1) entries := by
  cases bound with
  | included key =>
      refine congrArg (Scan.partitionPoint · entries) (funext fun entry => ?_)
      exact (decide_eq_decide.mpr not_le.symm).trans decide_not
  | excluded key =>
      refine congrArg (Scan.partitionPoint · entries) (funext fun entry => ?_)
      exact (decide_eq_decide.mpr not_lt.symm).trans decide_not
  | unbounded => cases entries <;> rfl

private theorem entryPos_reverse (entries : List (Bytes × Bytes)) (bound : Bound) :
    Scan.entryPos entries bound .reverse =
      Scan.partitionPoint (fun entry => bound.admits .reverse entry.1) entries := by
  cases bound with
  | included key => rfl
  | excluded key => rfl
  | unbounded =>
      have whole : entries.takeWhile (fun entry => Bound.unbounded.admits .reverse entry.1) =
          entries := List.takeWhile_eq_self_iff.mpr fun _ _ => rfl
      rw [Scan.partitionPoint, whole]
      rfl

private theorem entryPos_le (entries : List (Bytes × Bytes)) (bound : Bound) (dir : Direction) :
    Scan.entryPos entries bound dir ≤ entries.length := by
  cases dir with
  | forward =>
      rw [entryPos_forward]
      exact (List.takeWhile_sublist _).length_le
  | reverse =>
      rw [entryPos_reverse]
      exact (List.takeWhile_sublist _).length_le

namespace Scan

def pending (scan : Scan) : List (Bytes × Bytes) :=
  match scan.dir with
  | .forward => scan.leaf.drop scan.pos
  | .reverse => (scan.leaf.take scan.pos).reverse

end Scan

/-- The keys that a forward scan skips come first, those that a reverse scan
meets as well. -/
private theorem skipped_first {entries : List (Bytes × Bytes)} (ascending : Ascending entries)
    (bound : Bound) :
    entries.Pairwise fun first second =>
      (!bound.admits .forward second.1) = true → (!bound.admits .forward first.1) = true := by
  apply ascending.imp
  intro first second less skips
  by_contra admitted
  simp only [Bool.not_eq_true', Bool.not_eq_false] at admitted skips
  rw [Bound.admits_of_precedes admitted (show Direction.forward.Precedes _ _ from less)] at skips
  cases skips

private theorem met_first {entries : List (Bytes × Bytes)} (ascending : Ascending entries)
    (bound : Bound) :
    entries.Pairwise fun first second =>
      bound.admits .reverse second.1 = true → bound.admits .reverse first.1 = true := by
  apply ascending.imp
  intro first second less admitted
  exact Bound.admits_of_precedes admitted (show Direction.reverse.Precedes _ _ from less)

/-- A leaf entered at a bound has the pairs ahead that the bound admits. -/
theorem pending_atEntry (scan : Scan) {entries : List (Bytes × Bytes)}
    (ascending : Ascending entries) (bound : Bound) :
    (scan.atEntry entries bound).pending =
      (scan.dir.order entries).filter fun pair => bound.admits scan.dir pair.1 := by
  cases dir : scan.dir with
  | forward =>
      simp only [Scan.pending, Scan.atEntry, dir, Direction.order, entryPos_forward,
        Scan.partitionPoint]
      rw [drop_takeWhile, dropWhile_eq_filter (skipped_first ascending bound)]
      simp only [Bool.not_not]
  | reverse =>
      simp only [Scan.pending, Scan.atEntry, dir, Direction.order, entryPos_reverse,
        Scan.partitionPoint]
      rw [List.filter_reverse, ← takeWhile_eq_filter (met_first ascending bound),
        ← List.prefix_iff_eq_take.mp (List.takeWhile_prefix _)]

theorem pending_atNearEnd (scan : Scan) (entries : List (Bytes × Bytes)) :
    (scan.atNearEnd entries).pending = scan.dir.order entries := by
  cases dir : scan.dir <;> simp [Scan.pending, Scan.atNearEnd, dir, Direction.order]

section

variable {env : Substrate} {store : Store}

/-- The items that a scan inside the one at `idx` has ahead of it. -/
def Direction.beyond {α : Type} (idx : Nat) (items : List α) : Direction → List α
  | .forward => items.drop (idx + 1)
  | .reverse => (items.take idx).reverse

/-- The pairs beneath nodes, as a scan meets them. -/
def Direction.meets {level : Nat} (dir : Direction) (nodes : List (Chunk level)) :
    List (Bytes × Bytes) :=
  nodes.flatMap fun node => dir.order node.contents

inductive Ahead (env : Substrate) (store : Store) (dir : Direction) :
    List Frame → List (Bytes × Bytes) → Prop where
  | nil : Ahead env store dir [] []
  | cons {level : Nat} (bounded : level < 256) {nodes : List (Chunk level)}
      (stored : ∀ node ∈ nodes, Stored env.address store (level + 1) node.elem)
      {idx : Nat} (within : idx < nodes.length) {stack : List Frame}
      {rest : List (Bytes × Bytes)} (further : Ahead env store dir stack rest) :
      Ahead env store dir (⟨nodes.map (refOf env.address level), idx, level⟩ :: stack)
        (dir.meets (dir.beyond idx nodes) ++ rest)

/-- The frames lead to the next node, with these pairs beyond it. -/
structure Steps (env : Substrate) (store : Store) (dir : Direction) (stack : List Frame)
    (pairs : List (Bytes × Bytes)) {level : Nat} (node : Chunk level) : Prop where
  bounded : level < 256
  stored : Stored env.address store (level + 1) node.elem
  leads : ∃ frame others rest, Scan.stepFrames dir stack = frame :: others ∧
    frame.refs[frame.idx]? = some (refOf env.address level node) ∧ frame.childLevel = level ∧
    Ahead env store dir (frame :: others) rest ∧ pairs = dir.order node.contents ++ rest

private theorem steps_within {dir : Direction} {level : Nat} (bounded : level < 256)
    {nodes : List (Chunk level)}
    (stored : ∀ node ∈ nodes, Stored env.address store (level + 1) node.elem) {idx next : Nat}
    (within : next < nodes.length) {stack : List Frame} {rest : List (Bytes × Bytes)}
    (further : Ahead env store dir stack rest)
    (stepped : Scan.stepFrames dir (⟨nodes.map (refOf env.address level), idx, level⟩ :: stack) =
      ⟨nodes.map (refOf env.address level), next, level⟩ :: stack)
    (split : dir.beyond idx nodes = nodes[next] :: dir.beyond next nodes) :
    Steps env store dir (⟨nodes.map (refOf env.address level), idx, level⟩ :: stack)
      (dir.meets (dir.beyond idx nodes) ++ rest) nodes[next] := by
  refine ⟨bounded, stored _ (List.getElem_mem within), _, _, _, stepped, ?_, rfl,
    .cons bounded stored within further, ?_⟩
  · rw [List.getElem?_map, List.getElem?_eq_getElem within]
    rfl
  · rw [split, Direction.meets, List.flatMap_cons, List.append_assoc]
    rfl

private theorem steps_past {dir : Direction} {level : Nat} {nodes : List (Chunk level)} {idx : Nat}
    {stack : List Frame} {rest : List (Bytes × Bytes)}
    (dropped : Scan.stepFrames dir (⟨nodes.map (refOf env.address level), idx, level⟩ :: stack) =
      Scan.stepFrames dir stack)
    (none : dir.beyond idx nodes = [])
    (below : (Scan.stepFrames dir stack = [] ∧ rest = []) ∨
      ∃ (under : Nat) (node : Chunk under), Steps env store dir stack rest node) :
    (Scan.stepFrames dir (⟨nodes.map (refOf env.address level), idx, level⟩ :: stack) = [] ∧
        dir.meets (dir.beyond idx nodes) ++ rest = []) ∨
      ∃ (under : Nat) (node : Chunk under), Steps env store dir
        (⟨nodes.map (refOf env.address level), idx, level⟩ :: stack)
        (dir.meets (dir.beyond idx nodes) ++ rest) node := by
  have only : dir.meets (dir.beyond idx nodes) ++ rest = rest := by
    rw [none]
    rfl
  rw [dropped, only]
  rcases below with exhausted | ⟨under, node, steps⟩
  · exact .inl exhausted
  · obtain ⟨frame, others, further, stepped, leads⟩ := steps.leads
    exact .inr ⟨under, node, steps.bounded, steps.stored, frame, others, further,
      dropped.trans stepped, leads⟩

/-- Either nothing is ahead, or the frames lead to the next node. -/
private theorem stepFrames_spec {dir : Direction} {stack : List Frame}
    {pairs : List (Bytes × Bytes)} (ahead : Ahead env store dir stack pairs) :
    (Scan.stepFrames dir stack = [] ∧ pairs = []) ∨
      ∃ (level : Nat) (node : Chunk level), Steps env store dir stack pairs node := by
  induction ahead with
  | nil => exact .inl ⟨rfl, rfl⟩
  | @cons level bounded nodes stored idx within stack rest further ih =>
      have sameLength : (nodes.map (refOf env.address level)).length = nodes.length :=
        List.length_map _
      cases dir with
      | forward =>
          by_cases more : idx + 1 < nodes.length
          · have stepped : Scan.stepFrames .forward
                (⟨nodes.map (refOf env.address level), idx, level⟩ :: stack) =
                ⟨nodes.map (refOf env.address level), idx + 1, level⟩ :: stack :=
              if_pos (sameLength.symm ▸ more)
            exact .inr ⟨level, _, steps_within bounded stored more further stepped
              (List.drop_eq_getElem_cons more)⟩
          · have dropped : Scan.stepFrames .forward
                (⟨nodes.map (refOf env.address level), idx, level⟩ :: stack) =
                Scan.stepFrames .forward stack :=
              if_neg (sameLength.symm ▸ more)
            exact steps_past dropped (List.drop_eq_nil_of_le (Nat.le_of_not_lt more)) ih
      | reverse =>
          cases idx with
          | zero => exact steps_past rfl rfl ih
          | succ before =>
              have inside : before < nodes.length := Nat.lt_of_succ_lt within
              have split : (nodes.take (before + 1)).reverse =
                  nodes[before] :: (nodes.take before).reverse := by
                rw [List.take_succ_eq_append_getElem inside, List.reverse_append]
                rfl
              exact .inr ⟨level, _, steps_within bounded stored inside further rfl split⟩

structure Entered (env : Substrate) (store : Store) (before after : Scan)
    (pairs : List (Bytes × Bytes)) : Prop where
  within : after.pos ≤ after.leaf.length
  ahead : ∃ rest, Ahead env store after.dir after.stack rest ∧ pairs = after.pending ++ rest
  kept : after.dir = before.dir ∧ after.exit = before.exit ∧
    after.prevKey = before.prevKey ∧ after.done = before.done

private theorem order_nearChild {level : Nat} {nodes : List (Chunk level)} (filled : nodes ≠ [])
    (refs : List NodeRef) (sameLength : refs.length = nodes.length) (dir : Direction) :
    ∃ within : Scan.nearChild refs dir < nodes.length,
      dir.order nodes =
        nodes[Scan.nearChild refs dir] :: dir.beyond (Scan.nearChild refs dir) nodes := by
  have positive := List.length_pos_iff.mpr filled
  cases dir with
  | forward =>
      obtain ⟨first, others, rfl⟩ := List.exists_cons_of_ne_nil filled
      exact ⟨positive, rfl⟩
  | reverse =>
      obtain ⟨front, last, rfl⟩ : ∃ front last, nodes = front ++ [last] :=
        ⟨_, _, (List.dropLast_concat_getLast filled).symm⟩
      have isLast : Scan.nearChild refs .reverse = front.length := by
        rw [Scan.nearChild, sameLength, List.length_append]
        rfl
      simp only [isLast]
      refine ⟨by simp, ?_⟩
      simp [Direction.order, Direction.beyond]

def children {level : Nat} (chunk : Chunk (level + 1)) : List (Chunk level) := chunk

private theorem order_contents {level : Nat} (dir : Direction) (chunk : Chunk (level + 1)) :
    dir.order chunk.contents = dir.meets (dir.order (children chunk)) := by
  cases dir with
  | forward => rfl
  | reverse => exact List.reverse_flatMap ..

private theorem meets_cons {level : Nat} (dir : Direction) (node : Chunk level)
    (nodes : List (Chunk level)) :
    dir.meets (node :: nodes) = dir.order node.contents ++ dir.meets nodes :=
  List.flatMap_cons

private theorem order_ne_nil {α : Type} {items : List α} (filled : items ≠ []) (dir : Direction) :
    dir.order items ≠ [] := by
  cases dir with
  | forward => exact filled
  | reverse => exact fun empty => filled (List.reverse_eq_nil_iff.mp empty)

theorem enterLeaf_spec (free : CollisionFree env.address store) {level : Nat}
    (bounded : level < 256) {chunk : Chunk level}
    (stored : Stored env.address store (level + 1) chunk.elem) {scan : Scan}
    {rest : List (Bytes × Bytes)} (ahead : Ahead env store scan.dir scan.stack rest) :
    ∃ after,
      enterLeaf env store level (refOf env.address level chunk).hash
        (refOf env.address level chunk).lastKey scan = .ok after ∧
      Entered env store scan after (scan.dir.order chunk.contents ++ rest) ∧
      after.pending ≠ [] := by
  have read := readNode_ref free bounded stored
  obtain ⟨filled, -, -, -, below⟩ := stored_succ.mp stored
  induction level generalizing scan rest with
  | zero =>
      have pending := pending_atNearEnd scan chunk
      refine ⟨scan.atNearEnd chunk, ?_, ⟨?_, ⟨rest, ahead, ?_⟩, rfl, rfl, rfl, rfl⟩, ?_⟩
      · rw [enterLeaf, read, ok_bind]
        rfl
      · cases dir : scan.dir <;> simp [Scan.atNearEnd, dir]
      · rw [pending, Chunk.contents_zero]
      · rw [pending]
        exact order_ne_nil filled _
  | succ level ih =>
      let refs := chunk.map fun elem => refOf env.address level (Elem.chunk elem)
      obtain ⟨within, first⟩ := @order_nearChild level (children chunk) filled refs
        (List.length_map _) scan.dir
      have here := below _ (List.getElem_mem within)
      have under : level < 256 := Nat.lt_of_succ_lt bounded
      have found : refs[Scan.nearChild refs scan.dir]? =
          some (refOf env.address level (children chunk)[Scan.nearChild refs scan.dir]) := by
        rw [List.getElem?_map]
        exact congrArg (Option.map _) (List.getElem?_eq_getElem within)
      obtain ⟨after, entered, inLeaf, some⟩ :=
        @ih under (children chunk)[Scan.nearChild refs scan.dir] here
          (scan.inside refs (Scan.nearChild refs scan.dir) level) _
          (.cons under below within ahead) (readNode_ref free under here)
          (stored_succ.mp here).1 (stored_succ.mp here).2.2.2.2
      obtain ⟨left, leftAhead, split⟩ := inLeaf.ahead
      refine ⟨after, ?_, ⟨inLeaf.within, ⟨left, leftAhead, ?_⟩, inLeaf.kept⟩, some⟩
      · rw [enterLeaf, read, ok_bind]
        simp only [nodeOf, refs, found]
        exact entered
      · rw [← split, order_contents, first, meets_cons, List.append_assoc]
        rfl

private theorem mem_meets {level : Nat} {dir : Direction} {nodes : List (Chunk level)}
    {pair : Bytes × Bytes} : pair ∈ dir.meets nodes ↔ ∃ node ∈ nodes, pair ∈ node.contents := by
  simp only [Direction.meets, List.mem_flatMap, mem_order]

/-- The child a scan enters at: the bound excludes the children behind it and
admits those beyond it. -/
structure Chosen {level : Nat} (bound : Bound) (dir : Direction) (nodes : List (Chunk level))
    (idx : Nat) (node : Chunk level) : Prop where
  found : nodes[idx]? = some node
  split : ∃ behind, dir.order nodes = behind ++ node :: dir.beyond idx nodes ∧
    ∀ other ∈ behind, ∀ pair ∈ other.contents, ¬ bound.admits dir pair.1 = true
  met : ∀ other ∈ dir.beyond idx nodes, ∀ pair ∈ other.contents, bound.admits dir pair.1 = true

private theorem Chosen.filter {level : Nat} {bound : Bound} {dir : Direction}
    {nodes : List (Chunk level)} {idx : Nat} {node : Chunk level}
    (chosen : Chosen bound dir nodes idx node) :
    (dir.meets (dir.order nodes)).filter (fun pair => bound.admits dir pair.1) =
      (dir.order node.contents).filter (fun pair => bound.admits dir pair.1) ++
        dir.meets (dir.beyond idx nodes) := by
  obtain ⟨behind, split, excluded⟩ := chosen.split
  have none : (dir.meets behind).filter (fun pair => bound.admits dir pair.1) = [] := by
    rw [List.filter_eq_nil_iff]
    intro pair member
    obtain ⟨other, among, inside⟩ := mem_meets.mp member
    exact excluded other among pair inside
  have all : (dir.meets (dir.beyond idx nodes)).filter (fun pair => bound.admits dir pair.1) =
      dir.meets (dir.beyond idx nodes) := by
    rw [List.filter_eq_self]
    intro pair member
    obtain ⟨other, among, inside⟩ := mem_meets.mp member
    exact chosen.met other among pair inside
  have parts : dir.meets (behind ++ node :: dir.beyond idx nodes) =
      dir.meets behind ++ (dir.order node.contents ++ dir.meets (dir.beyond idx nodes)) := by
    rw [← meets_cons]
    exact List.flatMap_append
  rw [split, parts, List.filter_append, List.filter_append, none, all, List.nil_append]

private theorem order_split {α : Type} (dir : Direction) (front : List α) (item : α)
    (back : List α) :
    (dir.order (front ++ item :: back) =
      (match dir with | .forward => front | .reverse => back.reverse) ++
        item :: dir.beyond front.length (front ++ item :: back)) := by
  cases dir <;> simp [Direction.order, Direction.beyond]

private theorem le_lastKey {level : Nat} {node : Chunk level}
    (stored : Stored env.address store (level + 1) node.elem) {pair : Bytes × Bytes}
    (member : pair ∈ node.contents) : pair.1 ≤ (refOf env.address level node).lastKey :=
  stored.le_key member

private theorem lastKey_lt {level : Nat} {front back : List (Chunk level)} {node other : Chunk level}
    (stored : Stored env.address store (level + 1) node.elem)
    (ascending : Ascending ((front ++ node :: back).flatMap Chunk.contents))
    (member : other ∈ back) {pair : Bytes × Bytes} (inside : pair ∈ other.contents) :
    (refOf env.address level node).lastKey < pair.1 := by
  obtain ⟨last, isIn, isKey⟩ := stored.key_mem
  rw [List.flatMap_append, List.flatMap_cons] at ascending
  have later := (Ascending.append_iff.mp ascending).2.1
  have less := (Ascending.append_iff.mp later).2.2 last isIn pair
    (List.mem_flatMap.mpr ⟨other, member, inside⟩)
  exact lt_of_eq_of_lt isKey.symm less

/-- The references before the child that a scan enters at. -/
def Bound.passes (bound : Bound) (dir : Direction) (key : Bytes) : Bool :=
  match dir, bound with
  | .forward, bound => !bound.admits .forward key
  | .reverse, .included limit => key < limit
  | .reverse, .excluded limit => key < limit
  | .reverse, .unbounded => true

private theorem entryChild_forward (refs : List NodeRef) (bound : Bound) :
    Scan.entryChild refs bound .forward =
      if (refs.takeWhile fun ref => bound.passes .forward ref.lastKey).length = refs.length then
        none
      else some (refs.takeWhile fun ref => bound.passes .forward ref.lastKey).length := by
  let chooses := fun before : NodeRef → Bool =>
    if (refs.takeWhile before).length = refs.length then none
    else some (refs.takeWhile before).length
  cases bound with
  | included limit =>
      have same : (fun ref : NodeRef => decide (ref.lastKey < limit)) =
          fun ref => (Bound.included limit).passes .forward ref.lastKey :=
        funext fun ref => (decide_eq_decide.mpr not_le.symm).trans decide_not
      exact congrArg chooses same
  | excluded limit =>
      have same : (fun ref : NodeRef => decide (ref.lastKey ≤ limit)) =
          fun ref => (Bound.excluded limit).passes .forward ref.lastKey :=
        funext fun ref => (decide_eq_decide.mpr not_lt.symm).trans decide_not
      exact congrArg chooses same
  | unbounded => cases refs <;> rfl

private theorem entryChild_reverse (refs : List NodeRef) (bound : Bound) :
    Scan.entryChild refs bound .reverse =
      some (min (refs.takeWhile fun ref => bound.passes .reverse ref.lastKey).length
        (refs.length - 1)) := by
  cases bound with
  | included limit => rfl
  | excluded limit => rfl
  | unbounded =>
      have whole : refs.takeWhile (fun ref => Bound.unbounded.passes .reverse ref.lastKey) = refs :=
        List.takeWhile_eq_self_iff.mpr fun _ _ => rfl
      rw [whole, Nat.min_eq_right (Nat.sub_le ..)]
      exact congrArg some (Nat.min_self _)

/-- No key beneath a node is met when the node's last key is not. -/
private theorem not_admits_of_lastKey {level : Nat} {node : Chunk level}
    (stored : Stored env.address store (level + 1) node.elem) {bound : Bound}
    (passes : bound.passes .forward (refOf env.address level node).lastKey = true)
    {pair : Bytes × Bytes} (inside : pair ∈ node.contents) :
    ¬ bound.admits .forward pair.1 = true := by
  intro admits
  have last : bound.admits .forward (refOf env.address level node).lastKey = true := by
    rcases (le_lastKey stored inside).eq_or_lt with same | less
    · exact same ▸ admits
    · exact Bound.admits_of_precedes admits less
  rw [Bound.passes, last] at passes
  cases passes

/-- Every key beneath a node is met when the node's last key is. -/
private theorem admits_of_lastKey {level : Nat} {node : Chunk level}
    (stored : Stored env.address store (level + 1) node.elem) {bound : Bound}
    (passes : bound.passes .reverse (refOf env.address level node).lastKey = true)
    {pair : Bytes × Bytes} (inside : pair ∈ node.contents) :
    bound.admits .reverse pair.1 = true := by
  have upTo := le_lastKey stored inside
  cases bound with
  | included limit => exact decide_eq_true (upTo.trans (le_of_lt (of_decide_eq_true passes)))
  | excluded limit => exact decide_eq_true (lt_of_le_of_lt upTo (of_decide_eq_true passes))
  | unbounded => rfl

private theorem not_admits_of_lt {bound : Bound} {key last : Bytes}
    (stops : bound.passes .reverse last = false) (less : last < key) :
    ¬ bound.admits .reverse key = true := by
  cases bound with
  | included limit =>
      have atLeast := not_lt.mp (of_decide_eq_false stops)
      exact fun admits => absurd (of_decide_eq_true admits) (not_le.mpr (lt_of_le_of_lt atLeast less))
  | excluded limit =>
      have atLeast := not_lt.mp (of_decide_eq_false stops)
      exact fun admits => absurd (of_decide_eq_true admits) (not_lt.mpr (atLeast.trans (le_of_lt less)))
  | unbounded => cases stops

private theorem entryChild_spec {level : Nat} {nodes : List (Chunk level)} (filled : nodes ≠ [])
    (stored : ∀ node ∈ nodes, Stored env.address store (level + 1) node.elem)
    (ascending : Ascending (nodes.flatMap Chunk.contents)) (bound : Bound) (dir : Direction) :
    (dir = .forward ∧ Scan.entryChild (nodes.map (refOf env.address level)) bound dir = none ∧
      ∀ node ∈ nodes, ∀ pair ∈ node.contents, ¬ bound.admits dir pair.1 = true) ∨
    ∃ idx node, Scan.entryChild (nodes.map (refOf env.address level)) bound dir = some idx ∧
      Chosen bound dir nodes idx node ∧
      (dir = .forward → ∃ pair ∈ node.contents, bound.admits dir pair.1 = true) := by
  let before := fun node : Chunk level => bound.passes dir (refOf env.address level node).lastKey
  have cut : ((nodes.map (refOf env.address level)).takeWhile
      fun ref => bound.passes dir ref.lastKey).length = (nodes.takeWhile before).length := by
    rw [List.takeWhile_map, List.length_map]
    rfl
  have found : ∀ (front back : List (Chunk level)) (node : Chunk level),
      (front ++ node :: back)[front.length]? = some node := by simp
  cases dir with
  | forward =>
      rw [entryChild_forward, cut, List.length_map]
      by_cases whole : (nodes.takeWhile before).length = nodes.length
      · refine .inl ⟨rfl, if_pos whole, fun node member pair inside => ?_⟩
        exact not_admits_of_lastKey (stored node member) (all_before whole node member) inside
      · have short := Nat.lt_of_le_of_ne (List.takeWhile_sublist _).length_le whole
        obtain ⟨front, node, back, rfl, length, passed, stops⟩ := split_at_takeWhile short
        have here := stored node (List.mem_append_right _ List.mem_cons_self)
        have met : bound.admits .forward (refOf env.address level node).lastKey = true := by
          simpa [before, Bound.passes] using stops
        refine .inr ⟨front.length, node, ?_, ⟨found .., ⟨front, order_split .., ?_⟩, ?_⟩, ?_⟩
        · rw [if_neg whole, length]
        · intro other among pair inside
          exact not_admits_of_lastKey (stored other (List.mem_append_left _ among))
            (passed other among) inside
        · intro other among pair inside
          have isBack : other ∈ back := by simpa [Direction.beyond] using among
          exact Bound.admits_of_precedes met (lastKey_lt here ascending isBack inside)
        · obtain ⟨last, isIn, isKey⟩ := here.key_mem
          exact fun _ => ⟨last, isIn, (congrArg (bound.admits .forward) isKey).trans met⟩
  | reverse =>
      rw [entryChild_reverse, cut, List.length_map]
      by_cases whole : (nodes.takeWhile before).length = nodes.length
      · obtain ⟨front, last, rfl⟩ : ∃ front last, nodes = front ++ [last] :=
          ⟨_, _, (List.dropLast_concat_getLast filled).symm⟩
        refine .inr ⟨front.length, last, ?_, ⟨found .., ⟨[], order_split .., ?_⟩, ?_⟩, fun isForward => ?_⟩
        · rw [whole, List.length_append, List.length_singleton]
          simp
        · exact List.forall_mem_nil _
        · intro other among pair inside
          have isFront : other ∈ front ++ [last] := by
            have : other ∈ front := by simpa [Direction.beyond] using among
            exact List.mem_append_left _ this
          exact admits_of_lastKey (stored other isFront) (all_before whole other isFront) inside
        · cases isForward
      · have short := Nat.lt_of_le_of_ne (List.takeWhile_sublist _).length_le whole
        obtain ⟨front, node, back, rfl, length, passed, stops⟩ := split_at_takeWhile short
        have here := stored node (List.mem_append_right _ List.mem_cons_self)
        refine .inr ⟨front.length, node, ?_,
          ⟨found .., ⟨back.reverse, order_split .., ?_⟩, ?_⟩, fun isForward => ?_⟩
        · rw [length, List.length_append, List.length_cons]
          exact congrArg some (Nat.min_eq_left (by omega))
        · intro other among pair inside
          exact not_admits_of_lt stops
            (lastKey_lt here ascending (List.mem_reverse.mp among) inside)
        · intro other among pair inside
          have isFront : other ∈ front := by simpa [Direction.beyond] using among
          exact admits_of_lastKey (stored other (List.mem_append_left _ isFront))
            (passed other isFront) inside
        · cases isForward

private theorem seekFrom_spec (free : CollisionFree env.address store) {level : Nat}
    (bounded : level < 256) {chunk : Chunk level}
    (stored : Stored env.address store (level + 1) chunk.elem) {expectLastKey : Option Bytes}
    (inPlace : InPlace env.address level chunk expectLastKey none) (bound : Bound) {scan : Scan}
    (meets : scan.dir = .forward → ∃ pair ∈ chunk.contents, bound.admits scan.dir pair.1 = true)
    {rest : List (Bytes × Bytes)} (ahead : Ahead env store scan.dir scan.stack rest) :
    ∃ after,
      seekFrom env store bound level (refOf env.address level chunk).hash expectLastKey scan =
        .ok after ∧
      Entered env store scan after
        ((scan.dir.order chunk.contents).filter (fun pair => bound.admits scan.dir pair.1) ++
          rest) := by
  have read := readNode_of_stored free bounded stored inPlace
  obtain ⟨filled, -, ascending, -, below⟩ := stored_succ.mp stored
  induction level generalizing scan rest expectLastKey with
  | zero =>
      rw [Chunk.contents_zero] at ascending
      have pending := pending_atEntry scan ascending bound
      refine ⟨scan.atEntry chunk bound, ?_, ⟨?_, ⟨rest, ahead, ?_⟩, rfl, rfl, rfl, rfl⟩⟩
      · rw [seekFrom, read, ok_bind]
        rfl
      · exact entryPos_le chunk bound scan.dir
      · rw [pending, Chunk.contents_zero]
  | succ level ih =>
      let refs := chunk.map fun elem => refOf env.address level (Elem.chunk elem)
      have under : level < 256 := Nat.lt_of_succ_lt bounded
      rcases @entryChild_spec env store level (children chunk) filled below ascending bound
        scan.dir with ⟨isForward, -, none⟩ | ⟨idx, node, chooses, chosen, reaches⟩
      · obtain ⟨pair, member, admits⟩ := meets isForward
        obtain ⟨child, among, inside⟩ := List.mem_flatMap.mp member
        exact absurd admits (none child among pair inside)
      · have here := below node (List.mem_of_getElem? chosen.found)
        have found : refs[idx]? = some (refOf env.address level node) := by
          rw [List.getElem?_map]
          exact congrArg (Option.map _) chosen.found
        have childInPlace : InPlace env.address level node
            (some (refOf env.address level node).lastKey) none :=
          ⟨fun want isWant => (Option.some.inj isWant).symm, fun low isLow => by cases isLow⟩
        obtain ⟨within, -⟩ := List.getElem?_eq_some_iff.mp chosen.found
        obtain ⟨after, entered, inLeaf⟩ :=
          @ih under node here _ childInPlace (scan.inside refs idx level) reaches _
            (.cons under below within ahead) (readNode_of_stored free under here childInPlace)
            (stored_succ.mp here).1 (stored_succ.mp here).2.2.1 (stored_succ.mp here).2.2.2.2
        obtain ⟨left, leftAhead, split⟩ := inLeaf.ahead
        refine ⟨after, ?_, ⟨inLeaf.within, ⟨left, leftAhead, ?_⟩, inLeaf.kept⟩⟩
        · rw [seekFrom, read, ok_bind]
          have isIdx : Scan.entryChild refs bound scan.dir = some idx := chooses
          simp only [nodeOf]
          rw [show (chunk.map fun elem => refOf env.address level (Elem.chunk elem)) = refs from rfl,
            isIdx]
          simp only [found]
          exact entered
        · rw [← split, order_contents, chosen.filter, List.append_assoc]
          rfl

/-- The scan has exactly these pairs to go, as far as its exit bound lets it. -/
structure Scanning (env : Substrate) (store : Store) (scan : Scan)
    (pairs : List (Bytes × Bytes)) : Prop where
  going : scan.done = false
  within : scan.pos ≤ scan.leaf.length
  ahead : ∃ rest, Ahead env store scan.dir scan.stack rest ∧ pairs = scan.pending ++ rest
  ordered : pairs.Pairwise fun first second => scan.dir.Precedes first.1 second.1
  above : ∀ prev ∈ scan.prevKey, ∀ pair ∈ pairs, scan.dir.Precedes prev pair.1

private theorem withinExit_eq (scan : Scan) (key : Bytes) :
    scan.withinExit key = scan.exit.admits scan.dir.opposite key := by
  cases exit : scan.exit <;> cases dir : scan.dir <;>
    simp [Scan.withinExit, exit, dir, Bound.admits, Direction.opposite]

private theorem takeFromLeaf_cons {scan : Scan} (within : scan.pos ≤ scan.leaf.length)
    {entry : Bytes × Bytes} {others : List (Bytes × Bytes)}
    (pending : scan.pending = entry :: others) :
    ∃ pos, scan.takeFromLeaf = some (entry, { scan with pos := pos }) ∧
      pos ≤ scan.leaf.length ∧ Scan.pending { scan with pos := pos } = others := by
  cases dir : scan.dir with
  | forward =>
      simp only [Scan.pending, dir] at pending
      have found : scan.leaf[scan.pos]? = some entry := by
        rw [← List.head?_drop, pending, List.head?_cons]
      have inside := (List.getElem?_eq_some_iff.mp found).1
      refine ⟨scan.pos + 1, ?_, inside, ?_⟩
      · simp only [Scan.takeFromLeaf, dir, found, Option.map_some]
      · simp only [Scan.pending]
        rw [← List.tail_drop, pending, List.tail_cons]
  | reverse =>
      simp only [Scan.pending, dir] at pending
      cases position : scan.pos with
      | zero =>
          rw [position] at pending
          cases pending
      | succ before =>
          rw [position] at pending within
          have inside : before < scan.leaf.length := within
          rw [List.take_succ_eq_append_getElem inside, List.reverse_append] at pending
          obtain ⟨isEntry, rest⟩ := List.cons.inj pending
          refine ⟨before, ?_, le_of_lt inside, ?_⟩
          · simp only [Scan.takeFromLeaf, dir, position, List.getElem?_eq_getElem inside,
              Option.map_some]
            rw [← isEntry]
          · simp only [Scan.pending]
            exact rest

private theorem takeFromLeaf_nil {scan : Scan} (within : scan.pos ≤ scan.leaf.length)
    (pending : scan.pending = []) : scan.takeFromLeaf = none := by
  cases dir : scan.dir with
  | forward =>
      simp only [Scan.pending, dir] at pending
      have missing : scan.leaf[scan.pos]? = none := by
        rw [← List.head?_drop, pending, List.head?_nil]
      simp only [Scan.takeFromLeaf, dir, missing, Option.map_none]
  | reverse =>
      simp only [Scan.pending, dir, List.reverse_eq_nil_iff] at pending
      have first : scan.pos = 0 := by
        have length := congrArg List.length pending
        rw [List.length_take, Nat.min_eq_left within] at length
        exact length
      simp only [Scan.takeFromLeaf, dir, first]

/-- A turn inside a leaf yields the next pair, or ends the scan at the exit
bound. -/
private theorem turn_inside {scan : Scan} {entry : Bytes × Bytes}
    {pairs : List (Bytes × Bytes)} (scanning : Scanning env store scan (entry :: pairs))
    (inside : scan.pending ≠ []) :
    (scan.exit.admits scan.dir.opposite entry.1 = true →
      ∃ after, scan.turn env store = .yield entry after ∧ Scanning env store after pairs ∧
        after.dir = scan.dir ∧ after.exit = scan.exit) ∧
    (¬ scan.exit.admits scan.dir.opposite entry.1 = true →
      ∃ final, scan.turn env store = .stop final) := by
  obtain ⟨rest, ahead, split⟩ := scanning.ahead
  obtain ⟨head, others, shape⟩ := List.exists_cons_of_ne_nil inside
  rw [shape, List.cons_append, List.cons.injEq] at split
  obtain ⟨rfl, rfl⟩ := split
  obtain ⟨pos, taken, within, further⟩ := takeFromLeaf_cons scanning.within shape
  have going : ¬ scan.done = true := by simp [scanning.going]
  have exits : Scan.withinExit { scan with pos := pos } entry.1 =
      scan.exit.admits scan.dir.opposite entry.1 := withinExit_eq _ _
  constructor
  · intro admits
    have monotonic : Scan.checkMonotonic { scan with pos := pos } entry.1 = .ok () := by
      rw [Scan.checkMonotonic]
      cases before : scan.prevKey with
      | none => rfl
      | some prev =>
          have precedes := scanning.above prev before entry List.mem_cons_self
          cases dir : scan.dir with
          | forward =>
              rw [dir] at precedes
              have later : prev < entry.1 := precedes
              simp only [later, decide_true, if_true]
          | reverse =>
              rw [dir] at precedes
              have earlier : entry.1 < prev := precedes
              simp only [earlier, decide_true, if_true]
    refine ⟨{ scan with pos := pos, prevKey := some entry.1 }, ?_,
      ⟨scanning.going, within, ⟨rest, ahead, ?_⟩, (List.pairwise_cons.mp scanning.ordered).2, ?_⟩,
      rfl, rfl⟩
    · rw [Scan.turn, if_neg going, taken]
      simp only [exits, admits, monotonic, not_true_eq_false, if_false]
    · exact congrArg (· ++ rest) further.symm
    · rintro prev ⟨⟩ pair member
      exact (List.pairwise_cons.mp scanning.ordered).1 pair member
  · intro excluded
    refine ⟨{ scan with pos := pos, done := true }, ?_⟩
    rw [Scan.turn, if_neg going, taken]
    simp only [exits, excluded, Bool.false_eq_true, not_false_eq_true, if_true]

/-- A turn at the end of a leaf enters the next one or ends the scan. -/
private theorem turn_between (free : CollisionFree env.address store) {scan : Scan}
    {pairs : List (Bytes × Bytes)} (scanning : Scanning env store scan pairs)
    (outside : scan.pending = []) :
    (pairs = [] ∧ ∃ final, scan.turn env store = .stop final) ∨
    ∃ after, scan.turn env store = .again after ∧ Scanning env store after pairs ∧
      after.pending ≠ [] ∧ after.dir = scan.dir ∧ after.exit = scan.exit := by
  obtain ⟨rest, ahead, split⟩ := scanning.ahead
  rw [outside, List.nil_append] at split
  subst split
  have going : ¬ scan.done = true := by simp [scanning.going]
  have taken := takeFromLeaf_nil scanning.within outside
  rcases stepFrames_spec ahead with ⟨exhausted, empty⟩ | ⟨level, node, steps⟩
  · have advanced : advanceLeaf env store scan = .ok (false, { scan with stack := [] }) := by
      rw [advanceLeaf, exhausted]
    refine .inl ⟨empty, { scan with stack := [], done := true }, ?_⟩
    rw [Scan.turn, if_neg going, taken]
    simp only [advanced]
  · obtain ⟨frame, others, further, stepped, found, isLevel, beyond, total⟩ := steps.leads
    obtain ⟨after, entered, inLeaf, some⟩ :=
      @enterLeaf_spec env store free _ steps.bounded _ steps.stored
        { scan with stack := frame :: others } _ beyond
    obtain ⟨sameDir, sameExit, samePrev, sameDone⟩ := inLeaf.kept
    have advanced : advanceLeaf env store scan = .ok (true, after) := by
      rw [advanceLeaf, stepped]
      simp only [found, isLevel, entered, ok_bind]
    refine .inr ⟨after, ?_, ⟨sameDone.trans scanning.going, inLeaf.within, ?_, ?_, ?_⟩, some,
      sameDir, sameExit⟩
    · rw [Scan.turn, if_neg going, taken]
      simp only [advanced]
    · rw [total]
      exact inLeaf.ahead
    · rw [sameDir]
      exact scanning.ordered
    · rw [sameDir, samePrev]
      exact scanning.above

/-- A scan yields the pairs it has to go up to its exit bound. -/
theorem Scanning.yields (free : CollisionFree env.address store) {scan : Scan}
    {pairs : List (Bytes × Bytes)} (scanning : Scanning env store scan pairs) :
    Yields (Scan.turn env store) scan
      (pairs.takeWhile fun pair => scan.exit.admits scan.dir.opposite pair.1) := by
  induction pairs generalizing scan with
  | nil =>
      have outside : scan.pending = [] := by
        obtain ⟨rest, -, split⟩ := scanning.ahead
        exact (List.append_eq_nil_iff.mp split.symm).1
      rcases turn_between free scanning outside with ⟨-, final, ends⟩ |
        ⟨after, -, still, some, -⟩
      · exact .stop ends
      · obtain ⟨rest, -, split⟩ := still.ahead
        exact absurd (List.append_eq_nil_iff.mp split.symm).1 some
  | cons entry pairs ih =>
      have inside : ∀ state : Scan, Scanning env store state (entry :: pairs) →
          state.pending ≠ [] →
          Yields (Scan.turn env store) state
            ((entry :: pairs).takeWhile fun pair =>
              state.exit.admits state.dir.opposite pair.1) := by
        intro state still some
        obtain ⟨goesOn, ends⟩ := turn_inside still some
        by_cases admits : state.exit.admits state.dir.opposite entry.1 = true
        · obtain ⟨after, yielded, further, sameDir, sameExit⟩ := goesOn admits
          have rest := ih further
          rw [sameDir, sameExit] at rest
          rw [List.takeWhile_cons, if_pos admits]
          exact .yield yielded rest
        · obtain ⟨final, stops⟩ := ends admits
          rw [List.takeWhile_cons, if_neg admits]
          exact .stop stops
      by_cases outside : scan.pending = []
      · rcases turn_between free scanning outside with ⟨none, -⟩ |
          ⟨after, goesOn, still, some, sameDir, sameExit⟩
        · cases none
        · have rest := inside after still some
          rw [sameDir, sameExit] at rest
          exact .again goesOn rest
      · exact inside scan scanning outside

private theorem seekFrom_beyond (free : CollisionFree env.address store) {level : Nat}
    (bounded : level < 256) {chunk : Chunk level}
    (stored : Stored env.address store (level + 1) chunk.elem) {expectLastKey : Option Bytes}
    (inPlace : InPlace env.address level chunk expectLastKey none) (bound exit : Bound)
    (none : ∀ pair ∈ chunk.contents, ¬ bound.admits .forward pair.1 = true) :
    ∃ started,
      seekFrom env store bound level (refOf env.address level chunk).hash expectLastKey
        (.start exit .forward) = .ok started ∧
      Yields (Scan.turn env store) started [] := by
  have read := readNode_of_stored free bounded stored inPlace
  obtain ⟨filled, -, ascending, -, below⟩ := stored_succ.mp stored
  cases level with
  | zero =>
      rw [Chunk.contents_zero] at ascending none
      have pending : ((Scan.start exit .forward).atEntry chunk bound).pending = [] := by
        rw [pending_atEntry _ ascending bound, List.filter_eq_nil_iff]
        exact none
      refine ⟨(Scan.start exit .forward).atEntry chunk bound, ?_, ?_⟩
      · rw [seekFrom, read, ok_bind]
        rfl
      · have scanning : Scanning env store ((Scan.start exit .forward).atEntry chunk bound) [] :=
          ⟨rfl, entryPos_le chunk bound .forward,
            ⟨[], .nil, by rw [pending]; rfl⟩, .nil, fun _ _ _ member => by cases member⟩
        exact scanning.yields free
  | succ level =>
      rcases @entryChild_spec env store level (children chunk) filled below ascending bound
        .forward with ⟨-, refuses, -⟩ | ⟨idx, node, -, chosen, reaches⟩
      · refine ⟨{ Scan.start exit .forward with done := true }, ?_, ?_⟩
        · have refused : Scan.entryChild (chunk.map fun elem =>
              refOf env.address level (Elem.chunk elem)) bound .forward = Option.none := refuses
          rw [seekFrom, read, ok_bind]
          simp only [nodeOf, Scan.start, refused]
        · exact .stop (by rw [Scan.turn]; rfl)
      · obtain ⟨pair, inside, admits⟩ := reaches rfl
        exact absurd admits (none pair (List.mem_flatMap.mpr
          ⟨node, List.mem_of_getElem? chosen.found, inside⟩))

/-- Past the entry bound the exit bound cuts off a last part. -/
private theorem takeWhile_exit {dir : Direction} {pairs : List (Bytes × Bytes)}
    (ordered : pairs.Pairwise fun first second => dir.Precedes first.1 second.1) (exit : Bound) :
    pairs.takeWhile (fun pair => exit.admits dir.opposite pair.1) =
      pairs.filter fun pair => exit.admits dir.opposite pair.1 := by
  apply takeWhile_eq_filter
  apply ordered.imp
  intro first second precedes admits
  exact Bound.admits_of_precedes admits (precedes_opposite.mpr precedes)

private theorem Entered.yields (free : CollisionFree env.address store) {dir : Direction}
    {exit : Bound} {started : Scan} {pairs : List (Bytes × Bytes)}
    (entered : Entered env store (.start exit dir) started pairs)
    (ordered : pairs.Pairwise fun first second => dir.Precedes first.1 second.1) :
    Yields (Scan.turn env store) started
      (pairs.filter fun pair => exit.admits dir.opposite pair.1) := by
  obtain ⟨sameDir, sameExit, samePrev, sameDone⟩ := entered.kept
  have isDir : started.dir = dir := sameDir
  have isExit : started.exit = exit := sameExit
  have scanning : Scanning env store started pairs := by
    refine ⟨sameDone, entered.within, entered.ahead, ?_, ?_⟩
    · rw [isDir]
      exact ordered
    · rw [samePrev]
      intro prev isPrev
      cases isPrev
  have yields := scanning.yields free
  rw [isDir, isExit, takeWhile_exit ordered] at yields
  exact yields

/-- A started scan yields the pairs within both of its bounds. -/
theorem seek_spec (free : CollisionFree env.address store) {root : Root} {top : Nat}
    {chunk : Chunk top} (leads : Leads env store root chunk) (entryBound exit : Bound)
    (dir : Direction) :
    ∃ started, seek env store root entryBound exit dir = .ok started ∧
      Yields (Scan.turn env store) started
        (((dir.order chunk.contents).filter fun pair => entryBound.admits dir pair.1).filter
          fun pair => exit.admits dir.opposite pair.1) := by
  have ordered := (@order_pairwise dir _ leads.ascending).filter
    fun pair => entryBound.admits dir pair.1
  rw [seek, leads.topLevel, leads.hash]
  rcases leads.held with stored | ⟨rfl, rfl, held⟩
  · have bounded : top < 256 := Nat.lt_trans leads.bounded (by decide)
    have inPlace : InPlace env.address top chunk none none :=
      ⟨fun _ isWant => (Option.some_ne_none _ isWant.symm).elim,
        fun _ isLow => (Option.some_ne_none _ isLow.symm).elim⟩
    by_cases meets : dir = .forward →
        ∃ pair ∈ chunk.contents, entryBound.admits dir pair.1 = true
    · obtain ⟨started, seeks, entered⟩ :=
        @seekFrom_spec env store free top bounded chunk stored none inPlace entryBound
          (.start exit dir) meets [] .nil
      rw [List.append_nil] at entered
      exact ⟨started, seeks, entered.yields free ordered⟩
    · obtain ⟨rfl, none⟩ := Classical.not_imp.mp meets
      have excluded : ∀ pair ∈ chunk.contents, ¬ entryBound.admits .forward pair.1 = true :=
        fun pair member admits => none ⟨pair, member, admits⟩
      obtain ⟨started, seeks, yields⟩ :=
        seekFrom_beyond free bounded stored inPlace entryBound exit excluded
      refine ⟨started, seeks, ?_⟩
      have empty : (Direction.forward.order chunk.contents).filter
          (fun pair => entryBound.admits .forward pair.1) = [] :=
        List.filter_eq_nil_iff.mpr excluded
      rw [empty]
      exact yields
  · have read := readNode_emptyLeaf free held
    have pending := @pending_atEntry (.start exit dir) [] .nil entryBound
    have entered : Entered env store (.start exit dir)
        ((Scan.start exit dir).atEntry [] entryBound)
        ((dir.order (Chunk.contents ([] : Chunk 0))).filter
          fun pair => entryBound.admits dir pair.1) :=
      ⟨entryPos_le [] entryBound dir, ⟨[], .nil, by rw [pending, List.append_nil]; rfl⟩,
        rfl, rfl, rfl, rfl⟩
    refine ⟨(Scan.start exit dir).atEntry [] entryBound, ?_, entered.yields free ordered⟩
    rw [seekFrom, read, ok_bind]

/-- The two bounds keep the range, whichever is looked at first. -/
private theorem inRange_eq (low high : Bound) (pairs : List (Bytes × Bytes)) :
    inRange low high pairs =
      (pairs.filter fun pair => high.admits .reverse pair.1).filter
        fun pair => low.admits .forward pair.1 := by
  rw [inRange, List.filter_filter]

theorem scan_range (free : CollisionFree env.address store) {root : Root} {top : Nat}
    {chunk : Chunk top} (leads : Leads env store root chunk) (low high : Bound) :
    ∃ started, scan env store root low high = .ok started ∧
      Yields (Scan.turn env store) started (inRange low high chunk.contents) := by
  obtain ⟨started, seeks, yields⟩ := seek_spec free leads low high .forward
  refine ⟨started, seeks, ?_⟩
  rw [List.filter_filter] at yields
  simp only [Bool.and_comm] at yields
  exact yields

theorem scanRev_range (free : CollisionFree env.address store) {root : Root} {top : Nat}
    {chunk : Chunk top} (leads : Leads env store root chunk) (low high : Bound) :
    ∃ started, scanRev env store root low high = .ok started ∧
      Yields (Scan.turn env store) started (inRange low high chunk.contents).reverse := by
  obtain ⟨started, seeks, yields⟩ := seek_spec free leads high low .reverse
  refine ⟨started, seeks, ?_⟩
  rw [inRange_eq, ← List.filter_reverse, ← List.filter_reverse]
  exact yields

/-- A scan without bounds yields the contents of the tree. -/
theorem scan_spec (free : CollisionFree env.address store) {root : Root} {top : Nat}
    {chunk : Chunk top} (leads : Leads env store root chunk) :
    ∃ started, scan env store root .unbounded .unbounded = .ok started ∧
      Yields (Scan.turn env store) started chunk.contents := by
  obtain ⟨started, seeks, yields⟩ := scan_range free leads .unbounded .unbounded
  have all : inRange .unbounded .unbounded chunk.contents = chunk.contents :=
    List.filter_eq_self.mpr fun _ _ => rfl
  exact ⟨started, seeks, all ▸ yields⟩

end

end Acetone.Prolly

import Acetone.Prolly.NodeCodec

/-!
# The integrity walk

`verify_reachable` reads every chunk beneath a root and checks it at each place
it is referenced from.  An inner node is expanded once however many parents
point at it; a second reference to it is only checked against the cached
decode.  The walk finds a fault exactly when the tree unfolded without a cache
has one: among references that pass their checks no chunk occurs twice.
-/

namespace Acetone.Prolly

open Acetone.Lib

/-- What the store answers for an address; it may fail to return a chunk. -/
abbrev Fetch := Hash → Except String (Option Bytes)

inductive ChunkFaultKind where
  | missing
  | corrupt
deriving DecidableEq

inductive FaultReason where
  | absent
  | unreadable (error : String)
  | undecodable (error : ProllyError)
  | position (reason : String)
deriving DecidableEq

structure ChunkFault where
  hash : Hash
  kind : ChunkFaultKind
  reason : FaultReason
deriving DecidableEq

structure Reference where
  hash : Hash
  level : Nat
  lastKey : Option Bytes
  minKey : Option Bytes

structure InnerNode where
  level : Nat
  children : List NodeRef

/-- Decode a chunk against its own level tag. -/
def decodeNodeSelf (data : Bytes) : Except ProllyError (Nat × Node) :=
  match data with
  | [] => .error (corruptNode "empty chunk")
  | tag :: _ => do
      let node ← decodeNode data tag.toNat
      .ok (tag.toNat, node)

def positionFault (level : Nat) (firstKey lastKey : Option Bytes) (reference : Reference) :
    Option String :=
  if level ≠ reference.level then
    some ("level tag " ++ toString level ++ " where the tree requires level " ++
      toString reference.level)
  else if reference.lastKey.any fun want => lastKey ≠ some want then
    some "chunk does not end at the key its parent declares"
  else if reference.minKey.any fun min => firstKey.any (· ≤ min) then
    some "chunk contains keys below its position in the tree"
  else none

/-- The state of the walk; the next reference is at the head of the frontier. -/
structure Walk where
  frontier : List Reference
  innerCache : List (Hash × InnerNode)
  reported : List Hash
  faults : List ChunkFault

def Walk.report (walk : Walk) (fault : ChunkFault) : Walk :=
  if fault.hash ∈ walk.reported then walk
  else { walk with reported := fault.hash :: walk.reported, faults := walk.faults ++ [fault] }

def Walk.push (walk : Walk) (fault : ChunkFault) : Walk :=
  { walk with faults := walk.faults ++ [fault] }

/-- The references of a node's children.  The first inherits the node's own
lower bound, each other is bounded by its preceding sibling. -/
def childReferences (level : Nat) (minKey : Option Bytes) : List NodeRef → List Reference
  | [] => []
  | ref :: refs =>
      ⟨ref.hash, level, some ref.lastKey, minKey⟩ ::
        childReferences level (some ref.lastKey) refs

def Walk.expand (walk : Walk) (reference : Reference) (level : Nat) (refs : List NodeRef) :
    Walk :=
  { walk with
    frontier := (childReferences (level - 1) reference.minKey refs).reverse ++ walk.frontier
    innerCache := (reference.hash, ⟨level, refs⟩) :: walk.innerCache }

/-- What follows a node that sits where it should. -/
def Walk.enter (walk : Walk) (reference : Reference) (level : Nat) : Node → Walk
  | .leaf _ => walk
  | .inner refs => walk.expand reference level refs

section

variable (fetch : Fetch)

def Walk.visit (walk : Walk) (reference : Reference) : Walk :=
  match walk.innerCache.lookup reference.hash with
  | some inner =>
      match positionFault inner.level (inner.children.head?.map NodeRef.lastKey)
          (inner.children.getLast?.map NodeRef.lastKey) reference with
      | some reason => walk.push ⟨reference.hash, .corrupt, .position reason⟩
      | none => walk
  | none =>
      match fetch reference.hash with
      | .error error => walk.report ⟨reference.hash, .corrupt, .unreadable error⟩
      | .ok none => walk.report ⟨reference.hash, .missing, .absent⟩
      | .ok (some bytes) =>
          match decodeNodeSelf bytes with
          | .error error => walk.report ⟨reference.hash, .corrupt, .undecodable error⟩
          | .ok (level, node) =>
              match positionFault level node.firstKey node.lastKey reference with
              | some reason => walk.push ⟨reference.hash, .corrupt, .position reason⟩
              | none => walk.enter reference level node

def childrenAt (hash : Hash) : List NodeRef :=
  match fetch hash with
  | .ok (some bytes) =>
      match decodeNodeSelf bytes with
      | .ok (_, .inner refs) => refs
      | _ => []
  | _ => []

def places : Nat → Hash → Nat
  | 0, _ => 1
  | level + 1, hash =>
      1 + ((childrenAt fetch hash).map fun ref => places level ref.hash).sum

def Walk.weight (walk : Walk) : Nat :=
  (walk.frontier.map fun reference => places fetch reference.level reference.hash).sum

variable {fetch}

theorem endsAt_iff {node : Node} {expectLastKey : Option Bytes} :
    endsAt node expectLastKey = true ↔ ∀ want ∈ expectLastKey, node.lastKey = some want := by
  cases expectLastKey <;> simp [endsAt]

theorem liesAbove_iff {node : Node} {minKeyExclusive : Option Bytes} :
    liesAbove node minKeyExclusive = true ↔
      ∀ low ∈ minKeyExclusive, ∀ first ∈ node.firstKey, low < first := by
  cases minKeyExclusive with
  | none => simp [liesAbove]
  | some low => cases isFirst : node.firstKey <;> simp [liesAbove, isFirst]

theorem positionFault_eq_none {level : Nat} {node : Node} {reference : Reference} :
    positionFault level node.firstKey node.lastKey reference = none ↔
      level = reference.level ∧ endsAt node reference.lastKey = true ∧
        liesAbove node reference.minKey = true := by
  have ends : (reference.lastKey.any fun want => node.lastKey ≠ some want) = true ↔
      ¬ endsAt node reference.lastKey = true := by
    rw [endsAt_iff]
    cases reference.lastKey <;> simp
  have lies : (reference.minKey.any fun min => node.firstKey.any (· ≤ min)) = true ↔
      ¬ liesAbove node reference.minKey = true := by
    rw [liesAbove_iff]
    cases reference.minKey with
    | none => simp
    | some min => cases node.firstKey <;> simp
  rw [positionFault]
  split
  case isTrue differs => exact ⟨nofun, fun sits => absurd sits.1 differs⟩
  case isFalse same =>
    split
    case isTrue notLast => exact ⟨nofun, fun sits => absurd sits.2.1 (ends.mp notLast)⟩
    case isFalse last =>
      split
      case isTrue below => exact ⟨nofun, fun sits => absurd sits.2.2 (lies.mp below)⟩
      case isFalse above =>
        exact ⟨fun _ => ⟨not_not.mp same, not_not.mp (ends.not.mp last),
          not_not.mp (lies.not.mp above)⟩, fun _ => rfl⟩

private theorem takeU8_cons_toNat (tag : UInt8) (rest : Bytes) :
    takeU8 (tag :: rest) = .ok (tag.toNat, rest) := by
  rw [takeU8, take, if_neg (by simp)]
  simp [ofBeBytes]

theorem decodeNodeSelf_eq_ok {data : Bytes} {level : Nat} {node : Node} :
    decodeNodeSelf data = .ok (level, node) ↔ decodeNode data level = .ok node := by
  cases data with
  | nil =>
      refine ⟨nofun, fun decoded => ?_⟩
      cases decoded
  | cons tag rest =>
      rw [decodeNodeSelf, bind_eq_ok]
      constructor
      · rintro ⟨found, decoded, ⟨⟩⟩
        exact decoded
      · intro decoded
        have isTag : tag.toNat = level := by
          by_contra differs
          rw [decodeNode, takeU8_cons_toNat, ok_bind] at decoded
          dsimp only at decoded
          rw [if_pos differs] at decoded
          cases decoded
        subst isTag
        exact ⟨node, decoded, rfl⟩

def Sits (fetch : Fetch) (reference : Reference) (node : Node) : Prop :=
  ∃ bytes, fetch reference.hash = .ok (some bytes) ∧
    decodeNode bytes reference.level = .ok node ∧
    endsAt node reference.lastKey = true ∧ liesAbove node reference.minKey = true

theorem Sits.unique {reference : Reference} {left right : Node}
    (first : Sits fetch reference left) (second : Sits fetch reference right) : left = right := by
  obtain ⟨bytes, found, decodes, -⟩ := first
  obtain ⟨again, isAgain, alsoDecodes, -⟩ := second
  rw [found, Except.ok.injEq, Option.some.injEq] at isAgain
  rw [isAgain, alsoDecodes] at decodes
  exact (Except.ok.inj decodes).symm

theorem Walk.visit_fresh {walk : Walk} {reference : Reference}
    (fresh : walk.innerCache.lookup reference.hash = none) :
    (∃ node, Sits fetch reference node ∧
        walk.visit fetch reference = walk.enter reference reference.level node) ∨
      (∀ node, ¬ Sits fetch reference node) ∧
        ∃ fault, walk.visit fetch reference = walk.push fault ∨
          walk.visit fetch reference = walk.report fault := by
  have missing : ∀ {fault : ChunkFault}, (∀ bytes, fetch reference.hash ≠ .ok (some bytes)) →
      (∀ node, ¬ Sits fetch reference node) ∧
        ∃ reported, walk.report fault = walk.push reported ∨
          walk.report fault = walk.report reported := by
    intro fault unread
    exact ⟨fun node ⟨bytes, found, _⟩ => unread bytes found, fault, .inr rfl⟩
  rw [Walk.visit, fresh]
  cases found : fetch reference.hash with
  | error error => exact .inr (missing (by simp [found]))
  | ok chunk =>
      cases chunk with
      | none => exact .inr (missing (by simp [found]))
      | some bytes =>
          have isBytes : ∀ {other : Bytes}, fetch reference.hash = .ok (some other) →
              other = bytes := by
            intro other isOther
            rw [found] at isOther
            exact (Option.some.inj (Except.ok.inj isOther)).symm
          dsimp only
          cases decoded : decodeNodeSelf bytes with
          | error error =>
              refine .inr ⟨?_, _, .inr rfl⟩
              rintro node ⟨other, isOther, decodes, -⟩
              rw [isBytes isOther, ← decodeNodeSelf_eq_ok, decoded] at decodes
              cases decodes
          | ok shown =>
              obtain ⟨level, node⟩ := shown
              have decodes := decodeNodeSelf_eq_ok.mp decoded
              dsimp only
              cases fault : positionFault level node.firstKey node.lastKey reference with
              | none =>
                  obtain ⟨isLevel, ends, lies⟩ := positionFault_eq_none.mp fault
                  subst isLevel
                  exact .inl ⟨node, ⟨bytes, found, decodes, ends, lies⟩, rfl⟩
              | some reason =>
                  refine .inr ⟨?_, _, .inl rfl⟩
                  rintro other ⟨again, isOther, alsoDecodes, ends, lies⟩
                  rw [isBytes isOther, ← decodeNodeSelf_eq_ok, decoded, Except.ok.injEq,
                    Prod.mk.injEq] at alsoDecodes
                  obtain ⟨isLevel, rfl⟩ := alsoDecodes
                  rw [positionFault_eq_none.mpr ⟨isLevel, ends, lies⟩] at fault
                  cases fault

def InnerNode.Fits (inner : InnerNode) (reference : Reference) : Prop :=
  inner.level = reference.level ∧ endsAt (.inner inner.children) reference.lastKey = true ∧
    liesAbove (.inner inner.children) reference.minKey = true

theorem Walk.visit_cached {walk : Walk} {reference : Reference} {inner : InnerNode}
    (cached : walk.innerCache.lookup reference.hash = some inner) :
    InnerNode.Fits inner reference ∧ walk.visit fetch reference = walk ∨
      ¬ InnerNode.Fits inner reference ∧ ∃ fault, walk.visit fetch reference = walk.push fault := by
  have place := @positionFault_eq_none inner.level (.inner inner.children) reference
  rw [Walk.visit, cached]
  dsimp only
  cases fault : positionFault inner.level (inner.children.head?.map NodeRef.lastKey)
      (inner.children.getLast?.map NodeRef.lastKey) reference with
  | none => exact .inl ⟨place.mp fault, rfl⟩
  | some reason =>
      refine .inr ⟨fun fits => ?_, _, rfl⟩
      cases fault.symm.trans (place.mpr fits)

private theorem childrenAt_of_decode {hash : Hash} {bytes : Bytes} {level : Nat}
    {refs : List NodeRef} (found : fetch hash = .ok (some bytes))
    (decoded : decodeNodeSelf bytes = .ok (level, .inner refs)) :
    childrenAt fetch hash = refs := by
  simp only [childrenAt, found, decoded]

private theorem sum_places (level : Nat) (minKey : Option Bytes) (refs : List NodeRef) :
    ((childReferences level minKey refs).map fun reference =>
        places fetch reference.level reference.hash).sum =
      (refs.map fun ref => places fetch level ref.hash).sum := by
  induction refs generalizing minKey with
  | nil => rfl
  | cons ref refs ih => rw [childReferences, List.map_cons, List.map_cons, List.sum_cons,
      List.sum_cons, ih]

private theorem places_pos (level : Nat) (hash : Hash) : 0 < places fetch level hash := by
  cases level with
  | zero => exact Nat.one_pos
  | succ level => exact Nat.lt_of_lt_of_le Nat.one_pos (Nat.le_add_right ..)

private theorem report_frontier (walk : Walk) (fault : ChunkFault) :
    (walk.report fault).frontier = walk.frontier := by
  rw [Walk.report]
  split <;> rfl

theorem Walk.visit_weight (walk : Walk) (reference : Reference) :
    (walk.visit fetch reference).weight fetch <
      places fetch reference.level reference.hash + walk.weight fetch := by
  have kept : ∀ next : Walk, next.frontier = walk.frontier →
      next.weight fetch < places fetch reference.level reference.hash + walk.weight fetch := by
    intro next same
    rw [Walk.weight, same]
    exact Nat.lt_add_of_pos_left (places_pos _ _)
  cases cached : walk.innerCache.lookup reference.hash with
  | some inner =>
      rcases @Walk.visit_cached fetch walk reference inner cached with ⟨-, same⟩ | ⟨-, fault, same⟩
      · exact kept _ (congrArg Walk.frontier same)
      · exact kept _ ((congrArg Walk.frontier same).trans rfl)
  | none =>
      rcases @Walk.visit_fresh fetch walk reference cached with
        ⟨node, ⟨bytes, found, decodes, -⟩, enters⟩ | ⟨-, fault, same | same⟩
      · cases node with
        | leaf entries => exact kept _ (congrArg Walk.frontier enters)
        | inner refs =>
            have isChildren := childrenAt_of_decode found (decodeNodeSelf_eq_ok.mpr decodes)
            cases isLevel : reference.level with
            | zero =>
                rw [isLevel] at decodes
                obtain ⟨entries, isLeaf, -⟩ := decodeNode_zero_eq_ok decodes
                cases isLeaf
            | succ level =>
                rw [enters, Walk.enter, Walk.weight, Walk.expand, isLevel, List.map_append,
                  List.sum_append, List.map_reverse, List.sum_reverse, Nat.add_sub_cancel,
                  sum_places, places, isChildren, Walk.weight]
                omega
      · exact kept _ ((congrArg Walk.frontier same).trans rfl)
      · exact kept _ ((congrArg Walk.frontier same).trans (report_frontier walk fault))

end

def Walk.run (fetch : Fetch) (walk : Walk) : List ChunkFault :=
  match _shown : walk.frontier with
  | [] => walk.faults
  | reference :: rest => run fetch ({ walk with frontier := rest }.visit fetch reference)
termination_by walk.weight fetch
decreasing_by
  have turn := @Walk.visit_weight fetch { walk with frontier := rest } reference
  rw [Walk.weight.eq_def fetch walk, _shown]
  exact turn

theorem Walk.run_nil {fetch : Fetch} {walk : Walk} (empty : walk.frontier = []) :
    walk.run fetch = walk.faults := by
  rw [Walk.run]
  split
  case h_1 => rfl
  case h_2 shown => cases empty.symm.trans shown

theorem Walk.run_cons {fetch : Fetch} {walk : Walk} {reference : Reference}
    {rest : List Reference} (next : walk.frontier = reference :: rest) :
    walk.run fetch = ({ walk with frontier := rest }.visit fetch reference).run fetch := by
  rw [Walk.run]
  split
  case h_1 shown => cases next.symm.trans shown
  case h_2 shown =>
    cases next.symm.trans shown
    rfl

def verifyReachable (fetch : Fetch) (root : Root) : List ChunkFault :=
  Walk.run fetch ⟨[⟨root.hash, root.topLevel, none, none⟩], [], [], []⟩

def Passes (fetch : Fetch) : (level : Nat) → Reference → Prop
  | 0, reference => reference.level = 0 ∧ ∃ entries, Sits fetch reference (.leaf entries)
  | level + 1, reference => reference.level = level + 1 ∧
      ∃ refs, Sits fetch reference (.inner refs) ∧
        ∀ child ∈ childReferences level reference.minKey refs, Passes fetch level child

section

variable {fetch : Fetch} {walk : Walk}

theorem level_of_mem_childReferences {level : Nat} {minKey : Option Bytes} {refs : List NodeRef}
    {child : Reference} (member : child ∈ childReferences level minKey refs) :
    child.level = level ∧ ∃ ref ∈ refs, child.hash = ref.hash ∧ child.lastKey = some ref.lastKey := by
  induction refs generalizing minKey with
  | nil => cases member
  | cons ref refs ih =>
      rcases List.mem_cons.mp member with rfl | later
      · exact ⟨rfl, ref, List.mem_cons_self, rfl, rfl⟩
      · obtain ⟨isLevel, other, inside, same⟩ := ih later
        exact ⟨isLevel, other, List.mem_cons_of_mem _ inside, same⟩

private theorem passes_of_sits {reference : Reference} {node : Node}
    (sits : Sits fetch reference node)
    (children : ∀ refs, node = .inner refs →
      ∀ child ∈ childReferences (reference.level - 1) reference.minKey refs,
        Passes fetch child.level child) : Passes fetch reference.level reference := by
  obtain ⟨bytes, found, decodes, place⟩ := sits
  cases isLevel : reference.level with
  | zero =>
      rw [isLevel] at decodes
      obtain ⟨entries, rfl, -⟩ := decodeNode_zero_eq_ok decodes
      exact ⟨isLevel, entries, bytes, found, isLevel ▸ decodes, place⟩
  | succ level =>
      rw [isLevel] at decodes
      obtain ⟨refs, rfl, -⟩ := decodeNode_succ_eq_ok decodes
      refine ⟨isLevel, refs, ⟨bytes, found, isLevel ▸ decodes, place⟩, ?_⟩
      intro child member
      have passes := children refs rfl child (by rw [isLevel]; exact member)
      rwa [(level_of_mem_childReferences member).1] at passes

private theorem sits_of_passes {reference : Reference}
    (passes : Passes fetch reference.level reference) :
    ∃ node, Sits fetch reference node ∧ ∀ refs, node = .inner refs →
      ∀ child ∈ childReferences (reference.level - 1) reference.minKey refs,
        Passes fetch child.level child := by
  cases isLevel : reference.level with
  | zero =>
      rw [isLevel] at passes
      obtain ⟨-, entries, sits⟩ := passes
      exact ⟨_, sits, nofun⟩
  | succ level =>
      rw [isLevel] at passes
      obtain ⟨-, refs, sits, children⟩ := passes
      refine ⟨_, sits, ?_⟩
      rintro _ ⟨⟩ child member
      rw [(level_of_mem_childReferences member).1]
      exact children child member

/-- The cache remembers what the store holds. -/
def Walk.Faithful (fetch : Fetch) (walk : Walk) : Prop :=
  ∀ entry ∈ walk.innerCache, ∃ bytes, fetch entry.1 = .ok (some bytes) ∧
    decodeNode bytes entry.2.level = .ok (.inner entry.2.children)

private theorem mem_of_cached {hash : Hash} {inner : InnerNode}
    (cached : walk.innerCache.lookup hash = some inner) : (hash, inner) ∈ walk.innerCache := by
  obtain ⟨before, after, split, -⟩ := List.lookup_eq_some_iff.mp cached
  rw [split]
  exact List.mem_append_right _ List.mem_cons_self

/-- A cached node fits every reference that its chunk sits at. -/
private theorem fits_of_sits {reference : Reference} {node : Node} {inner : InnerNode}
    (faithful : walk.Faithful fetch) (cached : walk.innerCache.lookup reference.hash = some inner)
    (sits : Sits fetch reference node) : InnerNode.Fits inner reference := by
  obtain ⟨bytes, found, decodes, ends, lies⟩ := sits
  obtain ⟨again, isAgain, alsoDecodes⟩ := faithful _ (mem_of_cached cached)
  have same : bytes = again := by
    have read := found.symm.trans isAgain
    simpa using read
  subst same
  have both := (decodeNodeSelf_eq_ok.mpr decodes).symm.trans (decodeNodeSelf_eq_ok.mpr alsoDecodes)
  simp only [Except.ok.injEq, Prod.mk.injEq] at both
  obtain ⟨isLevel, rfl⟩ := both
  exact ⟨isLevel.symm, ends, lies⟩

private theorem visit_of_passes {reference : Reference} (faithful : walk.Faithful fetch)
    (passes : Passes fetch reference.level reference)
    (others : ∀ other ∈ walk.frontier, Passes fetch other.level other) :
    (walk.visit fetch reference).faults = walk.faults ∧
      (walk.visit fetch reference).Faithful fetch ∧
      ∀ other ∈ (walk.visit fetch reference).frontier, Passes fetch other.level other := by
  obtain ⟨node, sits, children⟩ := sits_of_passes passes
  cases cached : walk.innerCache.lookup reference.hash with
  | some inner =>
      have fits := fits_of_sits faithful cached sits
      rcases @Walk.visit_cached fetch walk reference inner cached with ⟨-, same⟩ | ⟨misplaced, -⟩
      · rw [same]
        exact ⟨rfl, faithful, others⟩
      · exact absurd fits misplaced
  | none =>
      rcases @Walk.visit_fresh fetch walk reference cached with ⟨found, alsoSits, enters⟩ | none
      · have same := alsoSits.unique sits
        subst same
        rw [enters]
        cases found with
        | leaf entries => exact ⟨rfl, faithful, others⟩
        | inner refs =>
            refine ⟨rfl, ?_, ?_⟩
            · intro entry member
              rcases List.mem_cons.mp member with rfl | old
              · obtain ⟨bytes, isFound, decodes, -⟩ := sits
                exact ⟨bytes, isFound, decodes⟩
              · exact faithful entry old
            · intro other member
              rcases List.mem_append.mp member with isChild | old
              · exact children refs rfl other (List.mem_reverse.mp isChild)
              · exact others other old
      · exact absurd sits (none.1 node)

theorem run_of_passes (noFault : walk.faults = []) (faithful : walk.Faithful fetch)
    (passes : ∀ reference ∈ walk.frontier, Passes fetch reference.level reference) :
    walk.run fetch = [] := by
  induction walk using Walk.run.induct fetch with
  | case1 walk empty => rw [Walk.run_nil empty, noFault]
  | case2 walk reference rest next ih =>
      rw [next, List.forall_mem_cons] at passes
      have turn := @visit_of_passes fetch { walk with frontier := rest } reference faithful
        passes.1 passes.2
      rw [Walk.run_cons next]
      exact ih (turn.1.trans noFault) turn.2.1 turn.2.2

/-- The keys of the lower reference end where those of the upper one start. -/
def Reference.Below (upper lower : Reference) : Prop :=
  ∃ min ∈ upper.minKey, ∃ last ∈ lower.lastKey, last ≤ min

/-- The frontier descends through the keys; whatever was expanded at or below
the level of a pending reference ends above it. -/
structure Walk.Orderly (walk : Walk) : Prop where
  silent : walk.reported = []
  ranked : walk.frontier.Pairwise Reference.Below
  beyond : ∀ entry ∈ walk.innerCache, ∀ reference ∈ walk.frontier,
    entry.2.level ≤ reference.level → ∃ last ∈ reference.lastKey,
      ∃ final ∈ (Node.inner entry.2.children).lastKey, last < final

section Refs

variable {refs : List NodeRef}
  (ascending : refs.Pairwise fun left right => left.lastKey < right.lastKey)

include ascending

private theorem le_final {ref : NodeRef} (member : ref ∈ refs) {final : Bytes}
    (isFinal : (Node.inner refs).lastKey = some final) : ref.lastKey ≤ final := by
  obtain ⟨last, isLast, rfl⟩ := Option.map_eq_some_iff.mp isFinal
  obtain ⟨front, rfl⟩ := List.getLast?_eq_some_iff.mp isLast
  rcases List.mem_append.mp member with inFront | isLast
  · exact (List.pairwise_append.mp ascending).2.2 ref inFront last
      (List.mem_singleton_self _) |>.le
  · exact List.mem_singleton.mp isLast ▸ le_refl _

private theorem first_le {ref : NodeRef} (member : ref ∈ refs) {first : Bytes}
    (isFirst : (Node.inner refs).firstKey = some first) : first ≤ ref.lastKey := by
  cases refs with
  | nil => cases member
  | cons head refs =>
      cases isFirst
      rcases List.mem_cons.mp member with rfl | later
      · exact le_refl _
      · exact ((List.pairwise_cons.mp ascending).1 ref later).le

private theorem le_minKey {level : Nat} {minKey : Option Bytes} {child : Reference}
    (member : child ∈ childReferences level minKey refs) {low : Bytes} (isLow : low ∈ minKey)
    (above : ∀ ref ∈ refs, low < ref.lastKey) : ∃ min ∈ child.minKey, low ≤ min := by
  induction refs generalizing minKey low with
  | nil => cases member
  | cons ref refs ih =>
      obtain ⟨later, ascending⟩ := List.pairwise_cons.mp ascending
      rcases List.mem_cons.mp member with rfl | inRest
      · exact ⟨low, isLow, le_refl _⟩
      · obtain ⟨min, isMin, le⟩ := ih ascending inRest rfl later
        exact ⟨min, isMin, (above ref List.mem_cons_self).le.trans le⟩

private theorem childReferences_ranked (level : Nat) (minKey : Option Bytes) :
    (childReferences level minKey refs).Pairwise fun lower upper => upper.Below lower := by
  induction refs generalizing minKey with
  | nil => exact .nil
  | cons ref refs ih =>
      obtain ⟨later, ascending⟩ := List.pairwise_cons.mp ascending
      refine List.pairwise_cons.mpr ⟨?_, ih ascending _⟩
      intro child member
      obtain ⟨min, isMin, le⟩ := le_minKey ascending member rfl later
      exact ⟨min, isMin, ref.lastKey, rfl, le⟩

end Refs

/-- Nothing cached fits the reference an orderly walk visits next. -/
private theorem Walk.Orderly.misplaced {reference : Reference} {rest : List Reference}
    {inner : InnerNode} (orderly : Walk.Orderly { walk with frontier := reference :: rest })
    (cached : walk.innerCache.lookup reference.hash = some inner) :
    ¬ InnerNode.Fits inner reference := by
  rintro ⟨isLevel, ends, -⟩
  obtain ⟨last, isLast, final, isFinal, less⟩ := orderly.beyond _ (mem_of_cached cached)
    reference List.mem_cons_self isLevel.le
  have same := endsAt_iff.mp ends last isLast
  rw [Option.mem_def.mp isFinal, Option.some.injEq] at same
  exact absurd less (same ▸ lt_irrefl _)

private theorem Walk.Orderly.expand {reference : Reference} {rest : List Reference}
    {refs : List NodeRef} {level : Nat} (isLevel : reference.level = level + 1)
    (orderly : Walk.Orderly { walk with frontier := reference :: rest })
    (sits : Sits fetch reference (.inner refs)) :
    Walk.Orderly (Walk.expand { walk with frontier := rest } reference reference.level refs) := by
  obtain ⟨bytes, -, decodes, ends, lies⟩ := sits
  rw [isLevel] at decodes
  obtain ⟨_, ⟨⟩, filled, ascending, -⟩ := decodeNode_succ_eq_ok decodes
  obtain ⟨final, isFinal⟩ : ∃ final, (Node.inner refs).lastKey = some final :=
    ⟨_, congrArg (Option.map NodeRef.lastKey) (List.getLast?_eq_some_getLast filled)⟩
  obtain ⟨first, isFirst⟩ : ∃ first, (Node.inner refs).firstKey = some first :=
    ⟨_, congrArg (Option.map NodeRef.lastKey) (List.head?_eq_some_head filled)⟩
  have bounded : ∀ low ∈ reference.minKey, low < first :=
    fun low isLow => liesAbove_iff.mp lies low isLow first isFirst
  have firstLe : first ≤ final := by
    obtain ⟨head, isHead, rfl⟩ := Option.map_eq_some_iff.mp isFirst
    exact le_final ascending (List.mem_of_head? isHead) isFinal
  have above : ∀ low ∈ reference.minKey, ∀ ref ∈ refs, low < ref.lastKey :=
    fun low isLow ref member => (bounded low isLow).trans_le (first_le ascending member isFirst)
  obtain ⟨belowAll, ranked⟩ := List.pairwise_cons.mp orderly.ranked
  refine ⟨orderly.silent, ?_, ?_⟩
  · refine List.pairwise_append.mpr ⟨?_, ranked, ?_⟩
    · exact List.pairwise_reverse.mpr (childReferences_ranked ascending _ _)
    · intro child isChild lower inRest
      obtain ⟨low, isLow, last, isLast, le⟩ := belowAll lower inRest
      obtain ⟨min, isMin, lowLe⟩ := le_minKey ascending (List.mem_reverse.mp isChild) isLow
        (above low isLow)
      exact ⟨min, isMin, last, isLast, le.trans lowLe⟩
  · intro entry member other pending deep
    rcases List.mem_append.mp pending with isChild | inRest
    · obtain ⟨childLevel, ref, isRef, -, isLast⟩ :=
        level_of_mem_childReferences (List.mem_reverse.mp isChild)
      rcases List.mem_cons.mp member with rfl | old
      · simp only at deep
        omega
      · obtain ⟨last, ofReference, top, isTop, less⟩ := orderly.beyond entry old reference
          List.mem_cons_self (by omega)
        have same := endsAt_iff.mp ends last ofReference
        exact ⟨ref.lastKey, isLast, top, isTop, (le_final ascending isRef same).trans_lt less⟩
    · rcases List.mem_cons.mp member with rfl | old
      · obtain ⟨low, isLow, last, isLast, le⟩ := belowAll other inRest
        refine ⟨last, isLast, final, isFinal, ?_⟩
        calc last ≤ low := le
          _ < first := bounded low isLow
          _ ≤ final := firstLe
      · exact orderly.beyond entry old other (List.mem_cons_of_mem _ inRest) deep

private theorem faults_of_report {fault : ChunkFault} (silent : walk.reported = []) :
    (walk.report fault).faults ≠ [] := by
  rw [Walk.report, silent, if_neg List.not_mem_nil]
  exact List.append_ne_nil_of_right_ne_nil _ (List.cons_ne_nil _ _)

private theorem faults_of_push {fault : ChunkFault} : (walk.push fault).faults ≠ [] :=
  List.append_ne_nil_of_right_ne_nil _ (List.cons_ne_nil _ _)

/-- A turn that finds no fault has read a node that sits where it should, and
leaves the walk orderly. -/
private theorem Walk.Orderly.visit {reference : Reference} {rest : List Reference}
    (orderly : Walk.Orderly { walk with frontier := reference :: rest })
    (clean : ({ walk with frontier := rest }.visit fetch reference).faults = []) :
    ∃ node, Sits fetch reference node ∧
      { walk with frontier := rest }.visit fetch reference =
        Walk.enter { walk with frontier := rest } reference reference.level node ∧
      Walk.Orderly ({ walk with frontier := rest }.visit fetch reference) := by
  cases cached : walk.innerCache.lookup reference.hash with
  | some inner =>
      rcases @Walk.visit_cached fetch { walk with frontier := rest } reference inner cached with
        ⟨fits, -⟩ | ⟨-, fault, faulty⟩
      · exact absurd fits (orderly.misplaced cached)
      · rw [faulty] at clean
        exact absurd clean faults_of_push
  | none =>
      rcases @Walk.visit_fresh fetch { walk with frontier := rest } reference cached with
        ⟨node, sits, enters⟩ | ⟨-, fault, faulty | faulty⟩
      · refine ⟨node, sits, enters, ?_⟩
        rw [enters]
        cases node with
        | leaf entries =>
            exact ⟨orderly.silent, (List.pairwise_cons.mp orderly.ranked).2,
              fun entry member other pending =>
                orderly.beyond entry member other (List.mem_cons_of_mem _ pending)⟩
        | inner refs =>
            cases isLevel : reference.level with
            | zero =>
                obtain ⟨bytes, -, decodes, -⟩ := sits
                rw [isLevel] at decodes
                obtain ⟨entries, isLeaf, -⟩ := decodeNode_zero_eq_ok decodes
                cases isLeaf
            | succ level => exact isLevel ▸ orderly.expand isLevel sits
      · rw [faulty] at clean
        exact absurd clean faults_of_push
      · rw [faulty] at clean
        exact absurd clean (faults_of_report orderly.silent)

private theorem faults_of_visit {reference : Reference}
    (clean : (walk.visit fetch reference).faults = []) : walk.faults = [] := by
  cases cached : walk.innerCache.lookup reference.hash with
  | some inner =>
      rcases @Walk.visit_cached fetch walk reference inner cached with ⟨-, same⟩ | ⟨-, fault, faulty⟩
      · exact same ▸ clean
      · rw [faulty] at clean
        exact absurd clean faults_of_push
  | none =>
      rcases @Walk.visit_fresh fetch walk reference cached with
        ⟨node, -, enters⟩ | ⟨-, fault, faulty | faulty⟩
      · rw [enters] at clean
        cases node <;> exact clean
      · rw [faulty] at clean
        exact absurd clean faults_of_push
      · rw [faulty, Walk.report] at clean
        split at clean
        case isTrue => exact clean
        case isFalse => exact (List.append_eq_nil_iff.mp clean).1

theorem faults_of_run (clean : walk.run fetch = []) : walk.faults = [] := by
  induction walk using Walk.run.induct fetch with
  | case1 walk empty => exact (Walk.run_nil empty).symm.trans clean
  | case2 walk reference rest next ih =>
      rw [Walk.run_cons next] at clean
      exact @faults_of_visit fetch { walk with frontier := rest } reference (ih clean)

theorem passes_of_run (orderly : walk.Orderly) (clean : walk.run fetch = []) :
    ∀ reference ∈ walk.frontier, Passes fetch reference.level reference := by
  induction walk using Walk.run.induct fetch with
  | case1 walk empty =>
      rw [empty]
      exact nofun
  | case2 walk reference rest next ih =>
      rw [Walk.run_cons next] at clean
      obtain ⟨node, sits, enters, after⟩ := @Walk.Orderly.visit fetch walk reference rest
        (by rw [← next]; exact orderly) (faults_of_run clean)
      have deeper := ih after clean
      rw [enters] at deeper
      rw [next, List.forall_mem_cons]
      cases node with
      | leaf entries => exact ⟨passes_of_sits sits nofun, deeper⟩
      | inner refs =>
          refine ⟨passes_of_sits sits ?_, ?_⟩
          · rintro _ ⟨⟩ child member
            exact deeper child (List.mem_append_left _ (List.mem_reverse.mpr member))
          · intro other pending
            exact deeper other (List.mem_append_right _ pending)

end

/-- The walk reports no fault exactly when every place of the unfolding passes
its checks. -/
theorem verifyReachable_eq_nil {fetch : Fetch} {root : Root} :
    verifyReachable fetch root = [] ↔
      Passes fetch root.topLevel ⟨root.hash, root.topLevel, none, none⟩ := by
  constructor
  · intro clean
    have orderly : Walk.Orderly ⟨[⟨root.hash, root.topLevel, none, none⟩], [], [], []⟩ :=
      ⟨rfl, List.pairwise_singleton .., fun _ member => absurd member List.not_mem_nil⟩
    exact passes_of_run orderly clean _ List.mem_cons_self
  · intro passes
    apply run_of_passes rfl
    · exact fun _ member => absurd member List.not_mem_nil
    · intro reference member
      rw [List.mem_singleton.mp member]
      exact passes

end Acetone.Prolly

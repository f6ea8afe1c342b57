import Acetone.Prolly.History
import Acetone.Prolly.Ranges
import Acetone.Prolly.Verify

/-!
# What a clean verification means

The tree unfolded from a root, with every shared chunk repeated, is well formed
when its chunks are there and decode, its inner entries name the last keys of
their children and its keys ascend from the first leaf to the last.  The walk
reports no fault exactly for these trees, and in them a lookup answers what a
full scan lists.
-/

namespace Acetone.Prolly

open Acetone.Lib

def finalKey (entries : List (Bytes × Bytes)) : Option Bytes := entries.getLast?.map Prod.fst

/-- The pairs beneath an address, when every chunk is present, decodes at its
level and ends at the key its parent declares. -/
def Unfolds (fetch : Fetch) : Nat → Hash → List (Bytes × Bytes) → Prop
  | 0, hash, entries =>
      ∃ bytes, fetch hash = .ok (some bytes) ∧ decodeNode bytes 0 = .ok (.leaf entries)
  | level + 1, hash, entries =>
      ∃ bytes refs parts, fetch hash = .ok (some bytes) ∧
        decodeNode bytes (level + 1) = .ok (.inner refs) ∧
        List.Forall₂ (fun ref part =>
          Unfolds fetch level ref.hash part ∧ finalKey part = some ref.lastKey) refs parts ∧
        entries = parts.flatten

def WellFormed (fetch : Fetch) (root : Root) : Prop :=
  ∃ entries, Unfolds fetch root.topLevel root.hash entries ∧ Ascending entries

section

variable {fetch : Fetch}

theorem exists_of_finalKey {entries : List (Bytes × Bytes)} {key : Bytes}
    (isFinal : finalKey entries = some key) : ∃ entry ∈ entries, entry.1 = key := by
  obtain ⟨entry, isLast, isKey⟩ := Option.map_eq_some_iff.mp isFinal
  exact ⟨entry, List.mem_of_getLast? isLast, isKey⟩

theorem le_finalKey {entries : List (Bytes × Bytes)} (ascending : Ascending entries) {key : Bytes}
    (isFinal : finalKey entries = some key) {entry : Bytes × Bytes} (member : entry ∈ entries) :
    entry.1 ≤ key := by
  obtain ⟨last, isLast, rfl⟩ := Option.map_eq_some_iff.mp isFinal
  obtain ⟨front, rfl⟩ := List.getLast?_eq_some_iff.mp isLast
  rcases List.mem_append.mp member with inFront | isLast
  · exact ((Ascending.append_iff.mp ascending).2.2 entry inFront last
      (List.mem_singleton_self _)).le
  · exact List.mem_singleton.mp isLast ▸ le_refl _

private theorem finalKey_append (left right : List (Bytes × Bytes)) :
    finalKey (left ++ right) = (finalKey right).or (finalKey left) := by
  rw [finalKey, List.getLast?_append, Option.map_or]
  rfl

/-- The last key of the parts of a node is the one its last entry declares. -/
private theorem finalKey_flatten {refs : List NodeRef} {parts : List (List (Bytes × Bytes))}
    (each : List.Forall₂ (fun ref part => finalKey part = some ref.lastKey) refs parts) :
    finalKey parts.flatten = (Node.inner refs).lastKey := by
  induction each with
  | nil => rfl
  | @cons ref part refs parts isFinal each ih =>
      cases refs with
      | nil =>
          cases each
          rw [List.flatten_cons, List.flatten_nil, List.append_nil, isFinal]
          rfl
      | cons next refs =>
          have filled : next :: refs ≠ [] := List.cons_ne_nil _ _
          have some : (Node.inner (next :: refs)).lastKey =
              some ((next :: refs).getLast filled).lastKey :=
            congrArg (Option.map NodeRef.lastKey) (List.getLast?_eq_some_getLast filled)
          rw [List.flatten_cons, finalKey_append, ih, some, Option.some_or, ← some]
          exact congrArg (Option.map NodeRef.lastKey) List.getLast?_cons_cons.symm

private theorem flatten_of_children {level : Nat} {refs : List NodeRef} {minKey : Option Bytes}
    (unfolds : ∀ child ∈ childReferences level minKey refs, ∃ entries,
      Unfolds fetch level child.hash entries ∧ Ascending entries ∧
        (∀ want ∈ child.lastKey, finalKey entries = some want) ∧
        ∀ low ∈ child.minKey, ∀ entry ∈ entries, low < entry.1) :
    ∃ parts, List.Forall₂ (fun ref part =>
        Unfolds fetch level ref.hash part ∧ finalKey part = some ref.lastKey) refs parts ∧
      Ascending parts.flatten ∧ ∀ low ∈ minKey, ∀ entry ∈ parts.flatten, low < entry.1 := by
  induction refs generalizing minKey with
  | nil => exact ⟨[], .nil, .nil, fun _ _ _ => nofun⟩
  | cons ref refs ih =>
      rw [childReferences, List.forall_mem_cons] at unfolds
      obtain ⟨⟨part, unfolded, ascending, final, above⟩, others⟩ := unfolds
      obtain ⟨parts, each, tail, later⟩ := ih others
      have isFinal := final ref.lastKey rfl
      have beyond : ∀ entry ∈ parts.flatten, ref.lastKey < entry.1 := later ref.lastKey rfl
      refine ⟨part :: parts, .cons ⟨unfolded, isFinal⟩ each, ?_, ?_⟩
      · rw [List.flatten_cons, Ascending.append_iff]
        refine ⟨ascending, tail, fun left inLeft right inRight => ?_⟩
        exact (le_finalKey ascending isFinal inLeft).trans_lt (beyond right inRight)
      · intro low isLow entry member
        rw [List.flatten_cons, List.mem_append] at member
        rcases member with inPart | inRest
        · exact above low isLow entry inPart
        · obtain ⟨last, inPart, isLast⟩ := exists_of_finalKey isFinal
          exact (above low isLow last inPart).trans (isLast ▸ beyond entry inRest)

/-- Places that pass their checks unfold to ascending keys within their bounds. -/
theorem unfolds_of_passes {level : Nat} {reference : Reference}
    (passes : Passes fetch level reference) :
    ∃ entries, Unfolds fetch level reference.hash entries ∧ Ascending entries ∧
      (∀ want ∈ reference.lastKey, finalKey entries = some want) ∧
      ∀ low ∈ reference.minKey, ∀ entry ∈ entries, low < entry.1 := by
  induction level generalizing reference with
  | zero =>
      obtain ⟨isLevel, entries, bytes, found, decodes, ends, lies⟩ := passes
      rw [isLevel] at decodes
      obtain ⟨_, ⟨⟩, ascending, -⟩ := decodeNode_zero_eq_ok decodes
      refine ⟨entries, ⟨bytes, found, decodes⟩, ascending, endsAt_iff.mp ends, ?_⟩
      intro low isLow entry member
      cases entries with
      | nil => cases member
      | cons head entries =>
          have first := liesAbove_iff.mp lies low isLow head.1 rfl
          rcases List.mem_cons.mp member with rfl | later
          · exact first
          · exact first.trans ((Ascending.cons_iff.mp ascending).1 entry later)
  | succ level ih =>
      obtain ⟨isLevel, refs, ⟨bytes, found, decodes, ends, lies⟩, children⟩ := passes
      rw [isLevel] at decodes
      obtain ⟨parts, each, ascending, above⟩ :=
        flatten_of_children fun child member => ih (children child member)
      refine ⟨parts.flatten, ⟨bytes, refs, parts, found, decodes, each, rfl⟩, ascending, ?_, above⟩
      rw [finalKey_flatten (each.imp fun _ _ both => both.2)]
      exact endsAt_iff.mp ends

private theorem children_of_flatten {level : Nat} {refs : List NodeRef}
    {parts : List (List (Bytes × Bytes))} {minKey : Option Bytes}
    (each : List.Forall₂ (fun ref part =>
      (∀ last min, Ascending part → (∀ want ∈ last, finalKey part = some want) →
        (∀ low ∈ min, ∀ entry ∈ part, low < entry.1) →
        Passes fetch level ⟨ref.hash, level, last, min⟩) ∧
      finalKey part = some ref.lastKey) refs parts)
    (ascending : Ascending parts.flatten)
    (above : ∀ low ∈ minKey, ∀ entry ∈ parts.flatten, low < entry.1) :
    ∀ child ∈ childReferences level minKey refs, Passes fetch level child := by
  induction each generalizing minKey with
  | nil => exact fun _ => nofun
  | @cons ref part refs parts both each ih =>
      obtain ⟨passes, isFinal⟩ := both
      rw [List.flatten_cons] at ascending above
      obtain ⟨inPart, inRest, apart⟩ := Ascending.append_iff.mp ascending
      rw [childReferences, List.forall_mem_cons]
      constructor
      · apply passes _ _ inPart
        · rintro want ⟨⟩
          exact isFinal
        · exact fun low isLow entry member => above low isLow entry (List.mem_append_left _ member)
      · apply ih inRest
        rintro low ⟨⟩ entry member
        obtain ⟨last, isLast, isKey⟩ := exists_of_finalKey isFinal
        rw [← isKey]
        exact apart last isLast entry member

theorem passes_of_unfolds {level : Nat} {hash : Hash} {entries : List (Bytes × Bytes)}
    (unfolds : Unfolds fetch level hash entries) {lastKey minKey : Option Bytes}
    (ascending : Ascending entries) (ends : ∀ want ∈ lastKey, finalKey entries = some want)
    (above : ∀ low ∈ minKey, ∀ entry ∈ entries, low < entry.1) :
    Passes fetch level ⟨hash, level, lastKey, minKey⟩ := by
  induction level generalizing hash entries lastKey minKey with
  | zero =>
      obtain ⟨bytes, found, decodes⟩ := unfolds
      refine ⟨rfl, entries, bytes, found, decodes, endsAt_iff.mpr ends, liesAbove_iff.mpr ?_⟩
      intro low isLow first isFirst
      obtain ⟨head, isHead, rfl⟩ := Option.map_eq_some_iff.mp isFirst
      exact above low isLow head (List.mem_of_head? isHead)
  | succ level ih =>
      obtain ⟨bytes, refs, parts, found, decodes, each, rfl⟩ := unfolds
      have final := finalKey_flatten (each.imp fun _ _ both => both.2)
      refine ⟨rfl, refs, ⟨bytes, found, decodes, ?_, ?_⟩, ?_⟩
      · exact endsAt_iff.mpr (final ▸ ends)
      · apply liesAbove_iff.mpr
        intro low isLow first isFirst
        cases each with
        | nil => cases isFirst
        | cons both _ =>
            cases isFirst
            obtain ⟨last, isLast, isKey⟩ := exists_of_finalKey both.2
            rw [← isKey]
            exact above low isLow last (List.mem_append_left _ isLast)
      · refine children_of_flatten (each.imp fun ref part both => ⟨?_, both.2⟩) ascending above
        intro last min
        exact ih both.1

/-- The walk reports no fault exactly for well-formed trees. -/
theorem verifyReachable_wellFormed {root : Root} :
    verifyReachable fetch root = [] ↔ WellFormed fetch root := by
  rw [verifyReachable_eq_nil]
  constructor
  · intro passes
    obtain ⟨entries, unfolds, ascending, -⟩ := unfolds_of_passes passes
    exact ⟨entries, unfolds, ascending⟩
  · rintro ⟨entries, unfolds, ascending⟩
    exact passes_of_unfolds unfolds ascending (fun _ => nofun) (fun _ => nofun)

end

section

variable (address : Bytes → Hash) (store : Store)

/-- A store that returns every chunk it holds. -/
def Store.fetch : Fetch := fun hash => .ok (store.get address hash)

def Store.visible : Store := store.filter fun chunk => store.get address (address chunk) = some chunk

variable {address store}

theorem Store.mem_of_get {hash : Hash} {chunk : Bytes} (found : store.get address hash = some chunk) :
    chunk ∈ store ∧ address chunk = hash := by
  have same := List.find?_some found
  exact ⟨List.mem_of_find?_eq_some found, of_decide_eq_true same⟩

theorem Store.mem_visible {chunk : Bytes} :
    chunk ∈ store.visible address ↔ store.get address (address chunk) = some chunk := by
  rw [Store.visible, List.mem_filter, decide_eq_true_iff]
  exact ⟨And.right, fun found => ⟨(Store.mem_of_get found).1, found⟩⟩

theorem Store.visible_free : CollisionFree address (store.visible address) := by
  intro left isLeft right isRight same
  have found := Store.mem_visible.mp isLeft
  rw [same, Store.mem_visible.mp isRight] at found
  exact (Option.some.inj found).symm

theorem Store.get_visible (hash : Hash) :
    (store.visible address).get address hash = store.get address hash := by
  cases found : store.get address hash with
  | some chunk =>
      obtain ⟨-, rfl⟩ := Store.mem_of_get found
      exact Store.get_of_mem Store.visible_free (Store.mem_visible.mpr found)
  | none =>
      cases again : (store.visible address).get address hash with
      | none => rfl
      | some chunk =>
          obtain ⟨isVisible, rfl⟩ := Store.mem_of_get again
          rw [Store.mem_visible.mp isVisible] at found
          cases found

private theorem fetch_eq_ok {hash : Hash} {bytes : Bytes}
    (found : store.fetch address hash = .ok (some bytes)) :
    bytes ∈ store ∧ address bytes = hash :=
  Store.mem_of_get (Except.ok.inj found)

/-- The reference to a stored chunk ends at the last key beneath it. -/
private theorem refOf_of_finalKey {level : Nat} {chunk : Chunk level} {ref : NodeRef}
    (stored : Stored address store (level + 1) chunk.elem)
    (isHash : (refOf address level chunk).hash = ref.hash)
    (isFinal : finalKey chunk.contents = some ref.lastKey) : refOf address level chunk = ref := by
  have last := stored.contents_getLast
  have key : (refOf address level chunk).lastKey = ref.lastKey :=
    Option.some.inj (last.symm.trans isFinal)
  cases ref
  exact congrArg₂ NodeRef.mk key isHash

private theorem elems_of_parts {level : Nat} {refs : List NodeRef}
    {parts : List (List (Bytes × Bytes))}
    (each : List.Forall₂ (fun ref part =>
      (Ascending part → part ≠ [] → ∃ chunk : Chunk level,
        (refOf address level chunk).hash = ref.hash ∧ chunk.contents = part ∧
          Stored address store (level + 1) chunk.elem) ∧
      finalKey part = some ref.lastKey) refs parts)
    (ascending : Ascending parts.flatten) :
    ∃ elems : Chunk (level + 1),
      elems.map (fun elem => refOf address level (Elem.chunk elem)) = refs ∧
        elems.contents = parts.flatten ∧
        ∀ elem ∈ elems, Stored address store (level + 1) elem := by
  induction each with
  | nil => exact ⟨[], rfl, rfl, fun _ => nofun⟩
  | @cons ref part refs parts both each ih =>
      obtain ⟨reads, isFinal⟩ := both
      rw [List.flatten_cons] at ascending
      obtain ⟨inPart, inRest, -⟩ := Ascending.append_iff.mp ascending
      have filled : part ≠ [] := by
        rintro rfl
        cases isFinal
      obtain ⟨chunk, isHash, rfl, stored⟩ := reads inPart filled
      obtain ⟨elems, areRefs, areParts, allStored⟩ := ih inRest
      refine ⟨chunk.elem :: elems, ?_, ?_, ?_⟩
      · exact congrArg₂ List.cons (refOf_of_finalKey stored isHash isFinal) areRefs
      · rw [Chunk.contents_cons, areParts, List.flatten_cons]
        rfl
      · exact List.forall_mem_cons.mpr ⟨stored, allStored⟩

theorem stored_of_unfolds {level : Nat} {hash : Hash} {entries : List (Bytes × Bytes)}
    (unfolds : Unfolds (store.fetch address) level hash entries) (ascending : Ascending entries)
    (filled : entries ≠ []) :
    ∃ chunk : Chunk level, (refOf address level chunk).hash = hash ∧ chunk.contents = entries ∧
      Stored address store (level + 1) chunk.elem := by
  induction level generalizing hash entries with
  | zero =>
      obtain ⟨bytes, found, decodes⟩ := unfolds
      obtain ⟨held, isHash⟩ := fetch_eq_ok found
      obtain ⟨_, ⟨⟩, -, few, fits, isBytes⟩ := decodeNode_zero_eq_ok decodes
      refine ⟨entries, ?_, Chunk.contents_zero entries, filled, few, ?_, ?_, fits⟩
      · rw [← isHash, isBytes]
        rfl
      · exact (Chunk.contents_zero entries).symm ▸ ascending
      · rw [isBytes] at held
        exact held
  | succ level ih =>
      obtain ⟨bytes, refs, parts, found, decodes, each, rfl⟩ := unfolds
      obtain ⟨held, isHash⟩ := fetch_eq_ok found
      obtain ⟨_, ⟨⟩, someRefs, -, few, -, isBytes⟩ := decodeNode_succ_eq_ok decodes
      obtain ⟨elems, areRefs, isContents, allStored⟩ :=
        elems_of_parts (each.imp fun ref part both => ⟨ih both.1, both.2⟩) ascending
      have sameBytes : chunkBytes address (level + 1) elems = bytes := by
        rw [isBytes, ← areRefs, List.map_map]
        rfl
      refine ⟨elems, ?_, isContents, ?_, ?_, isContents.symm ▸ ascending, ?_, allStored⟩
      · rw [← isHash, ← sameBytes]
        rfl
      · rintro rfl
        exact someRefs areRefs.symm
      · have sameLength := congrArg List.length areRefs
        rw [List.length_map] at sameLength
        exact sameLength ▸ few
      · exact sameBytes ▸ held

/-- A node has pairs beneath it unless it is an empty leaf. -/
private theorem filled_of_unfolds {fetch : Fetch} {level : Nat} {hash : Hash}
    {entries : List (Bytes × Bytes)} (unfolds : Unfolds fetch (level + 1) hash entries) :
    entries ≠ [] := by
  obtain ⟨bytes, refs, parts, -, decodes, each, rfl⟩ := unfolds
  obtain ⟨_, ⟨⟩, someRefs, -⟩ := decodeNode_succ_eq_ok decodes
  cases each with
  | nil => exact absurd rfl someRefs
  | cons both _ =>
      obtain ⟨entry, member, -⟩ := exists_of_finalKey both.2
      exact List.ne_nil_of_mem (List.mem_append_left _ member)

theorem leads_of_unfolds {env : Substrate} {root : Root} {top : Nat} (height : root.height = top + 1)
    (bounded : top < maxHeight) {entries : List (Bytes × Bytes)}
    (unfolds : Unfolds (store.fetch env.address) top root.hash entries)
    (ascending : Ascending entries) :
    ∃ chunk : Chunk top, Leads env store root chunk ∧ chunk.contents = entries := by
  by_cases filled : entries = []
  · cases top with
    | zero =>
        subst filled
        obtain ⟨bytes, found, decodes⟩ := unfolds
        obtain ⟨held, isHash⟩ := fetch_eq_ok found
        obtain ⟨_, ⟨⟩, -, -, -, isBytes⟩ := decodeNode_zero_eq_ok decodes
        rw [isBytes] at held
        refine ⟨[], ⟨?_, height, bounded, .inr ⟨rfl, rfl, held⟩⟩, rfl⟩
        rw [← isHash, isBytes]
        rfl
    | succ top => exact absurd filled (filled_of_unfolds unfolds)
  · obtain ⟨chunk, isHash, isContents, stored⟩ := stored_of_unfolds unfolds ascending filled
    exact ⟨chunk, ⟨isHash.symm, height, bounded, .inl stored⟩, isContents⟩

section Congr

variable {env : Substrate} {left right : Store}
  (same : ∀ hash, left.get env.address hash = right.get env.address hash)

include same

private theorem readNode_congr :
    readNode env.address left = readNode env.address right := by
  funext hash level last min
  rw [readNode, readNode, same]

private theorem getFrom_congr (key : Bytes) (level : Nat) (hash : Hash) (last min : Option Bytes) :
    getFrom env left key level hash last min = getFrom env right key level hash last min := by
  induction level generalizing hash last min with
  | zero => rw [getFrom, getFrom, readNode_congr same]
  | succ level ih =>
      rw [getFrom, getFrom, readNode_congr same]
      simp only [ih]

private theorem seekFrom_congr (bound : Bound) (level : Nat) (hash : Hash) (last : Option Bytes)
    (scan : Scan) : seekFrom env left bound level hash last scan =
      seekFrom env right bound level hash last scan := by
  induction level generalizing hash last scan with
  | zero => rw [seekFrom, seekFrom, readNode_congr same]
  | succ level ih =>
      rw [seekFrom, seekFrom, readNode_congr same]
      simp only [ih]

private theorem enterLeaf_congr (level : Nat) (hash : Hash) (last : Bytes) (scan : Scan) :
    enterLeaf env left level hash last scan = enterLeaf env right level hash last scan := by
  induction level generalizing hash last scan with
  | zero => rw [enterLeaf, enterLeaf, readNode_congr same]
  | succ level ih =>
      rw [enterLeaf, enterLeaf, readNode_congr same]
      simp only [ih]

private theorem turn_congr : Scan.turn env left = Scan.turn env right := by
  funext scan
  simp only [Scan.turn, advanceLeaf, enterLeaf_congr same]

end Congr

end

/-- Verification is exact for every store, and after a clean one every lookup
answers what the full scan lists. -/
theorem verification_exact :
    (∀ (fetch : Fetch) (root : Root), verifyReachable fetch root = [] ↔ WellFormed fetch root) ∧
      ∀ (env : Substrate) (store : Store) (hash : Hash) (height : Nat) (params : ChunkParams)
        (root : Root), Root.new hash height params = .ok root →
        verifyReachable (store.fetch env.address) root = [] →
        ∃ entries, (∃ started, scan env store root .unbounded .unbounded = .ok started ∧
            ∃ enough, ∀ turns, enough ≤ turns →
              collect (Scan.turn env store) turns started = some (.ok entries)) ∧
          ∀ key, get env store root key = .ok (lookup key entries) := by
  refine ⟨fun fetch root => verifyReachable_wellFormed, ?_⟩
  intro env store hash height params root made clean
  obtain ⟨top, isHeight, bounded⟩ : ∃ top, root.height = top + 1 ∧ top < maxHeight := by
    rw [Root.new] at made
    split at made
    case isTrue => cases made
    case isFalse inRange =>
      cases made
      have positive : 1 ≤ height := by omega
      exact ⟨height - 1, (Nat.sub_add_cancel positive).symm, by omega⟩
  have isTop : root.topLevel = top := by rw [Root.topLevel, isHeight, Nat.add_sub_cancel]
  have same : ∀ hash, store.get env.address hash =
      (store.visible env.address).get env.address hash := fun hash => (Store.get_visible hash).symm
  have sameFetch : store.fetch env.address = (store.visible env.address).fetch env.address :=
    funext fun hash => congrArg Except.ok (same hash)
  obtain ⟨entries, unfolds, ascending⟩ := verifyReachable_wellFormed.mp clean
  rw [sameFetch, isTop] at unfolds
  obtain ⟨chunk, leads, isContents⟩ := leads_of_unfolds isHeight bounded unfolds ascending
  obtain ⟨started, seeks, yields⟩ := scan_spec Store.visible_free leads
  refine ⟨entries, ⟨started, ?_, ?_⟩, fun key => ?_⟩
  · rw [scan, seek, seekFrom_congr same]
    exact seeks
  · rw [turn_congr same, ← isContents]
    exact yields.collect
  · rw [get, getFrom_congr same, ← isContents]
    exact get_spec Store.visible_free leads key

def pairLeaf : Bytes := nodeBytes 0 ([([1], [7])].map fun entry => .leaf entry.1 entry.2)

def pairRef : NodeRef := ⟨[1], sampleAddress pairLeaf⟩

def pairInner : Bytes := nodeBytes 1 ([pairRef].map NodeRef.entry)

def pairRoot : Root := ⟨sampleAddress pairInner, 2, sampleParams⟩

theorem pair_clean :
    verifyReachable (Store.fetch sampleAddress [pairInner, pairLeaf]) pairRoot = [] := by
  have inner : Store.get sampleAddress [pairInner, pairLeaf] (sampleAddress pairInner) =
      some pairInner := by decide +kernel
  have leaf : Store.get sampleAddress [pairInner, pairLeaf] pairRef.hash = some pairLeaf := by
    decide +kernel
  have decodesInner : decodeNode pairInner 1 = .ok (.inner [pairRef]) :=
    decodeNode_inner (by decide) (by decide) [pairRef] (List.cons_ne_nil _ _) (by decide)
      (by decide) (List.pairwise_singleton _ _)
  have decodesLeaf : decodeNode pairLeaf 0 = .ok (.leaf [([1], [7])]) :=
    decodeNode_leaf [([1], [7])] (by decide) (by decide) (List.pairwise_singleton _ _)
  have below : Unfolds (Store.fetch sampleAddress [pairInner, pairLeaf]) 0 pairRef.hash
      [([1], [7])] := ⟨pairLeaf, congrArg Except.ok leaf, decodesLeaf⟩
  apply verifyReachable_wellFormed.mpr
  refine ⟨[[([1], [7])]].flatten, ?_, List.pairwise_singleton _ _⟩
  exact ⟨pairInner, [pairRef], [[([1], [7])]], congrArg Except.ok inner, decodesInner,
    .cons ⟨below, rfl⟩ .nil, rfl⟩

theorem verification_exact_pair :
    ∃ entries, (∃ started, scan sampleEnv [pairInner, pairLeaf] pairRoot .unbounded .unbounded =
          .ok started ∧
        ∃ enough, ∀ turns, enough ≤ turns →
          collect (Scan.turn sampleEnv [pairInner, pairLeaf]) turns started =
            some (.ok entries)) ∧
      ∀ key, get sampleEnv [pairInner, pairLeaf] pairRoot key = .ok (lookup key entries) :=
  verification_exact.2 sampleEnv [pairInner, pairLeaf] (sampleAddress pairInner) 2 sampleParams
    pairRoot rfl pair_clean

end Acetone.Prolly

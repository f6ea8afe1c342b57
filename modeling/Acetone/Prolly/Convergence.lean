import Acetone.Prolly.History
import Acetone.Prolly.NodeFormat
import Mathlib.Data.Nat.Log

/-!
# Tree construction converges

No chunk but the last of a level ends before its second entry, so every level
has at most half as many nodes as entries.  Construction therefore reaches a
single root long before the format's limit on heights, whatever the chunker
makes of the keys.
-/

namespace Acetone.Prolly

open Acetone.Lib

/-- The sizes of the levels of a tree; the empty map has one empty leaf. -/
structure Convergent {top : Nat} (chunk : Chunk top) : Prop where
  full : ∀ level, level ≤ top → ∀ node ∈ (below level top chunk).dropLast, 2 ≤ node.length
  leaves : (below 0 top chunk).length ≤ max 1 ((chunk.contents.length + 1) / 2)
  halves : ∀ level, level < top →
    (below (level + 1) top chunk).length ≤ ((below level top chunk).length + 1) / 2
  single : (below top top chunk).length = 1

section

variable {env : Substrate} {params : ChunkParams}

private theorem half_of_regular {level top : Nat} (lower : level ≤ top) {isFinal : Bool}
    {chunk : Chunk top} (regular : Regular env params top isFinal chunk) :
    2 * (below level top chunk).length ≤ (below level top chunk).flatten.length + 1 := by
  have halved := segments_length_le (cutAt env params level)
    (fun _ ends => two_le_of_cutAt ends) (below level top chunk).flatten
  rwa [regular.segments_below lower] at halved

theorem Regular.convergent {top : Nat} {isFinal : Bool} {chunk : Chunk top}
    (regular : Regular env params top isFinal chunk) : Convergent chunk := by
  refine ⟨?_, ?_, ?_, ?_⟩
  · intro level lower node member
    obtain ⟨front, last, split, closed, -⟩ := regular.below_final lower
    rw [split, List.dropLast_concat] at member
    exact two_le_of_cutAt (Closed.cut_eq _ (closed node member).closed)
  · have halved := half_of_regular (Nat.zero_le top) regular
    have all := contents_below (Nat.zero_le top) chunk
    rw [Chunk.contents_zero] at all
    have sizes : (below 0 top chunk).flatten.length = chunk.contents.length :=
      congrArg List.length all
    omega
  · intro level lower
    have halved : 2 * (below (level + 1) top chunk).length ≤
        (below (level + 1) top chunk).flatten.length + 1 :=
      half_of_regular (Nat.succ_le_of_lt lower) regular
    have gathered := congrArg List.length (flatten_below_succ lower chunk)
    have same : (gather (below level top chunk)).length = (below level top chunk).length := rfl
    omega
  · rw [below_self]
    rfl

theorem Denotes.convergent {store : Store} {root : Root} {top : Nat} {chunk : Chunk top}
    (denotes : Denotes env params store root chunk) : Convergent chunk := by
  rcases denotes.held with standing | ⟨rfl, rfl, -⟩
  · exact standing.regular.convergent
  · refine ⟨?_, ?_, ?_, rfl⟩
    · intro level lower node member
      obtain rfl : level = 0 := Nat.le_zero.mp lower
      rw [below_self] at member
      cases member
    · exact Nat.le_max_left ..
    · intro level lower
      cases lower

private theorem tier_length (pairs : List (Bytes × Bytes)) (level : Nat) :
    2 ^ level * (tier env params pairs level).length < pairs.length + 2 ^ level := by
  induction level with
  | zero =>
      have leaves : (tier env params pairs 0).length = pairs.length := rfl
      omega
  | succ level ih =>
      have halves := @tier_halves env params pairs level
      have scaled := Nat.mul_le_mul_left (2 ^ level) halves
      have power : 2 ^ (level + 1) = 2 * 2 ^ level := by
        rw [Nat.pow_succ, Nat.mul_comm]
      calc 2 ^ (level + 1) * (tier env params pairs (level + 1)).length
          = 2 ^ level * (2 * (tier env params pairs (level + 1)).length) := by
            rw [power, Nat.mul_comm 2, Nat.mul_assoc]
        _ ≤ 2 ^ level * ((tier env params pairs level).length + 1) := scaled
        _ = 2 ^ level * (tier env params pairs level).length + 2 ^ level := Nat.mul_succ ..
        _ < pairs.length + 2 ^ level + 2 ^ level := Nat.add_lt_add_right ih _
        _ = pairs.length + 2 ^ (level + 1) := by omega

/-- A canonical tree is no higher than a binary one. -/
theorem Canonical.top_le {pairs : List (Bytes × Bytes)} {top : Nat} {chunk : Chunk top}
    (canonical : Canonical env params pairs top chunk) : top ≤ Nat.clog 2 pairs.length := by
  rcases canonical.reached with rfl | several
  · exact Nat.zero_le _
  · have thinned := @tier_length env params pairs top
    have atLeast := Nat.mul_le_mul_left (2 ^ top) several
    exact le_of_lt ((Nat.lt_clog_iff_pow_lt (by decide)).mpr (by omega))

end

/-- A failure, if any, does not concern a root or its height. -/
def FailsBelow {α : Type} (result : Except ProllyError α) : Prop :=
  ∀ reason, result ≠ .error (.invalidRoot reason)

section

variable {α β : Type}

private theorem failsBelow_ok (value : α) : FailsBelow (.ok value) := by
  intro reason same
  cases same

private theorem failsBelow_corrupt (reason : String) :
    FailsBelow (.error (corruptNode reason) : Except ProllyError α) := by
  intro other same
  cases same

private theorem FailsBelow.bind {result : Except ProllyError α} {next : α → Except ProllyError β}
    (first : FailsBelow result) (rest : ∀ value, result = .ok value → FailsBelow (next value)) :
    FailsBelow (result >>= next) := by
  cases ended : result with
  | ok value => exact rest value ended
  | error error =>
      intro reason same
      cases same
      exact first reason ended

private theorem failsBelow_take (count : Nat) (input : Bytes) : FailsBelow (take count input) := by
  rw [take]
  split
  · exact failsBelow_corrupt _
  · exact failsBelow_ok _

private theorem failsBelow_takeU8 (input : Bytes) : FailsBelow (takeU8 input) :=
  (failsBelow_take 1 input).bind fun _ _ => failsBelow_ok _

private theorem failsBelow_takeU32 (input : Bytes) : FailsBelow (takeU32 input) :=
  (failsBelow_take 4 input).bind fun _ _ => failsBelow_ok _

private theorem failsBelow_leafEntries (count : Nat) (prev : Option Bytes) (input : Bytes) :
    FailsBelow (decodeLeafEntries count prev input) := by
  induction count generalizing prev input with
  | zero => exact failsBelow_ok _
  | succ count ih =>
      rw [decodeLeafEntries]
      apply (failsBelow_takeU32 input).bind
      intro keyLength _
      apply (failsBelow_take _ _).bind
      intro key _
      apply (failsBelow_takeU32 _).bind
      intro valueLength _
      apply (failsBelow_take _ _).bind
      intro value _
      dsimp only
      split
      · exact failsBelow_corrupt _
      · exact (ih _ _).bind fun _ _ => failsBelow_ok _

private theorem failsBelow_refs (count : Nat) (prev : Option Bytes) (input : Bytes) :
    FailsBelow (decodeRefs count prev input) := by
  induction count generalizing prev input with
  | zero => exact failsBelow_ok _
  | succ count ih =>
      rw [decodeRefs]
      apply (failsBelow_takeU32 input).bind
      intro keyLength _
      apply (failsBelow_take _ _).bind
      intro key _
      apply (failsBelow_takeU8 _).bind
      intro hashLength _
      apply (failsBelow_take _ _).bind
      intro digest _
      dsimp only
      split
      · exact failsBelow_corrupt _
      · split
        · exact failsBelow_corrupt _
        · exact (ih _ _).bind fun _ _ => failsBelow_ok _

private theorem failsBelow_finish (node : Node) (input : Bytes) :
    FailsBelow (finishNode node input) := by
  rw [finishNode]
  split
  · exact failsBelow_corrupt _
  · exact failsBelow_ok _

private theorem failsBelow_decode (data : Bytes) (level : Nat) :
    FailsBelow (decodeNode data level) := by
  rw [decodeNode]
  apply (failsBelow_takeU8 data).bind
  intro tag _
  dsimp only
  split
  · exact failsBelow_corrupt _
  · apply (failsBelow_takeU32 _).bind
    intro count _
    split
    · exact (failsBelow_leafEntries _ _ _).bind fun _ _ => failsBelow_finish _ _
    · split
      · exact failsBelow_corrupt _
      · exact (failsBelow_refs _ _ _).bind fun _ _ => failsBelow_finish _ _

private theorem failsBelow_read (address : Bytes → Hash) (store : Store) (hash : Hash)
    (level : Nat) (last min : Option Bytes) :
    FailsBelow (readNode address store hash level last min) := by
  rw [readNode]
  split
  · intro reason same
    cases same
  · apply (failsBelow_decode _ level).bind
    intro node _
    split
    · exact failsBelow_corrupt _
    · split
      · exact failsBelow_corrupt _
      · exact failsBelow_ok _

end

section

variable {env : Substrate} {rolling : Rolling}

private theorem failsBelow_encode (entry : Entry) : FailsBelow (encodeEntry entry) := by
  intro reason same
  cases entry with
  | leaf key value =>
      rw [encodeEntry, encodeLeafEntry] at same
      split at same
      · cases same
      · split at same <;> cases same
  | inner lastKey hash =>
      rw [encodeEntry, encodeInnerEntry] at same
      split at same <;> cases same

private theorem failsBelow_push (builder : LevelBuilder rolling) (entry : Entry) (store : Store) :
    FailsBelow (builder.push env entry store) := by
  rw [LevelBuilder.push]
  apply (failsBelow_encode entry).bind
  intro bytes _
  split
  · intro reason same
    cases same
  · exact failsBelow_ok _

private theorem failsBelow_pushAll (builder : LevelBuilder rolling) (entries : List Entry)
    (store : Store) : FailsBelow (builder.pushAll env entries store) := by
  induction entries generalizing builder store with
  | nil => exact failsBelow_ok _
  | cons entry entries ih =>
      rw [LevelBuilder.pushAll]
      exact (failsBelow_push builder entry store).bind fun _ _ => ih _ _

private theorem failsBelow_feedRun {feed : NodeRef → Bool → Bool → LevelBuilder rolling → Store →
      Except ProllyError (LevelBuilder rolling × Store)}
    (each : ∀ ref isFinal isLast builder store,
      FailsBelow (feed ref isFinal isLast builder store))
    (refs : List NodeRef) (isFinal isLast : Bool) (builder : LevelBuilder rolling)
    (store : Store) : FailsBelow (feedRun feed refs isFinal isLast builder store) := by
  induction refs generalizing builder store with
  | nil => exact failsBelow_ok _
  | cons ref refs ih =>
      rw [feedRun]
      exact (each ref _ _ builder store).bind fun _ _ => ih _ _

private theorem failsBelow_feedNode (above : Nat) (node : NodeRef) (isFinal isLast : Bool)
    (builder : LevelBuilder rolling) (store : Store) :
    FailsBelow (feedNode env above node isFinal isLast builder store) := by
  induction above generalizing node isFinal isLast builder store with
  | zero =>
      rw [feedNode]
      split
      · exact failsBelow_ok _
      · exact (failsBelow_read _ _ _ _ _ _).bind fun _ _ => failsBelow_pushAll _ _ _
  | succ above ih =>
      rw [feedNode]
      split
      · exact failsBelow_ok _
      · apply (failsBelow_read _ _ _ _ _ _).bind
        intro opened _
        cases opened with
        | leaf entries => exact failsBelow_corrupt _
        | inner refs => exact failsBelow_feedRun ih refs isFinal isLast builder store

private theorem failsBelow_feedItem (item : Item) (isLast : Bool) (builder : LevelBuilder rolling)
    (store : Store) : FailsBelow (feedItem env item isLast builder store) := by
  cases item with
  | fresh entries base => exact failsBelow_pushAll _ _ _
  | old node isFinal => exact failsBelow_feedNode 0 node isFinal isLast builder store
  | subtree node level isFinal =>
      rw [feedItem]
      split
      · exact failsBelow_corrupt _
      · exact failsBelow_feedNode _ node isFinal isLast builder store

private theorem failsBelow_feedItems (items : List Item) (builder : LevelBuilder rolling)
    (store : Store) : FailsBelow (feedItems env items builder store) := by
  induction items generalizing builder store with
  | nil => exact failsBelow_ok _
  | cons item queue ih =>
      rw [feedItems]
      exact (failsBelow_feedItem item _ builder store).bind fun _ _ => ih _ _

private theorem failsBelow_chunkLevel (store : Store) (level : Nat) (params : ChunkParams)
    (items : List Item) (recorder : Recorder) :
    FailsBelow (chunkLevel env store level params items recorder) := by
  rw [chunkLevel]
  exact (failsBelow_feedItems items _ store).bind fun _ _ => failsBelow_ok _

private theorem fits_of_pushAll {builder : LevelBuilder rolling} {entries : List Entry}
    {store : Store} {result : LevelBuilder rolling × Store}
    (pushed : builder.pushAll env entries store = .ok result) : ∀ entry ∈ entries, entry.Fits := by
  induction entries generalizing builder store with
  | nil => exact List.forall_mem_nil _
  | cons entry entries ih =>
      rw [LevelBuilder.pushAll] at pushed
      obtain ⟨middle, first, rest⟩ := bind_eq_ok.mp pushed
      rw [LevelBuilder.push] at first
      obtain ⟨bytes, encoded, -⟩ := bind_eq_ok.mp first
      exact List.forall_mem_cons.mpr ⟨(encodeEntry_eq_ok.mp encoded).1, ih rest⟩

private theorem fits_of_feedItems {items : List Item} {builder : LevelBuilder rolling}
    {store : Store} {result : LevelBuilder rolling × Store}
    (fed : feedItems env items builder store = .ok result) {entries : List Entry}
    {base : Option Hash} (isFresh : .fresh entries base ∈ items) :
    ∀ entry ∈ entries, entry.Fits := by
  induction items generalizing builder store with
  | nil => cases isFresh
  | cons item queue ih =>
      rw [feedItems] at fed
      obtain ⟨middle, first, rest⟩ := bind_eq_ok.mp fed
      rcases List.mem_cons.mp isFresh with rfl | later
      · exact fits_of_pushAll first
      · exact ih rest later

end

section

variable {env : Substrate}

private theorem buildLevels_of_unfit {store : Store} {params : ChunkParams} {items : List Item}
    {opened : List (Nat × OpenedInner)} {recorder : Recorder} {entries : List Entry}
    {base : Option Hash} (isFresh : .fresh entries base ∈ items)
    (unfit : ¬ ∀ entry ∈ entries, entry.Fits) :
    (∀ result, buildLevels env store params items opened recorder ≠ .ok result) ∧
      FailsBelow (buildLevels env store params items opened recorder) := by
  have stuck : ∀ outputs, chunkLevel env store 0 params items recorder ≠ .ok outputs := by
    intro outputs chunked
    rw [chunkLevel] at chunked
    obtain ⟨fed, feeds, -⟩ := bind_eq_ok.mp chunked
    exact unfit (fits_of_feedItems feeds isFresh)
  rw [buildLevels, show maxHeight = 63 + 1 from rfl, buildFrom]
  constructor
  · intro result built
    obtain ⟨outputs, chunked, -⟩ := bind_eq_ok.mp built
    exact stuck outputs chunked
  · apply (failsBelow_chunkLevel store 0 params items recorder).bind
    intro outputs chunked
    exact absurd chunked (stuck outputs)

private theorem mem_applyOp {key value : Bytes} {op : BatchOp} (isPut : op = .put key value) :
    .leaf key value ∈ applyOp op := by
  rw [isPut, applyOp]
  exact List.mem_singleton_self _

private theorem mem_mergeEntry {key value : Bytes} {rest : List BatchOp → List Entry}
    (further : ∀ ops, .put key value ∈ ops → .leaf key value ∈ rest ops) (oldKey oldValue : Bytes)
    {ops : List BatchOp} (isPut : .put key value ∈ ops) :
    .leaf key value ∈ mergeEntry oldKey oldValue rest ops := by
  induction ops with
  | nil => cases isPut
  | cons op ops ih =>
      rw [mergeEntry]
      split
      · exact List.mem_cons_of_mem _ (further _ isPut)
      · split
        · rcases List.mem_cons.mp isPut with first | later
          · exact List.mem_append_left _ (mem_applyOp first.symm)
          · exact List.mem_append_right _ (further _ later)
        · rcases List.mem_cons.mp isPut with first | later
          · exact List.mem_append_left _ (mem_applyOp first.symm)
          · exact List.mem_append_right _ (ih later)

private theorem mem_mergeOps {key value : Bytes} (old : List (Bytes × Bytes)) {ops : List BatchOp}
    (isPut : .put key value ∈ ops) : .leaf key value ∈ mergeOps old ops := by
  induction old generalizing ops with
  | nil =>
      rw [mergeOps]
      exact List.mem_flatMap.mpr ⟨_, isPut, mem_applyOp rfl⟩
  | cons entry old ih =>
      rw [mergeOps]
      exact mem_mergeEntry (fun _ isIn => ih isIn) entry.1 entry.2 isPut

/-- The put has reached a run of fresh entries. -/
def Lands (key value : Bytes) (items : List Item) : Prop :=
  ∃ entries base, .fresh entries base ∈ items ∧ .leaf key value ∈ entries

/-- The ops that the first child takes. -/
private def mineOf (child : NodeRef) (refs : List NodeRef) (ops : List BatchOp) : List BatchOp :=
  if refs.isEmpty then ops else ops.takeWhile fun op => op.key ≤ child.lastKey

private theorem descendRefs_parts {visit : NodeRef → Option Bytes → Bool → List BatchOp →
      Except ProllyError (List Item × List (Nat × OpenedInner))} {childLevel : Nat}
    {isFinal : Bool} {child : NodeRef} {refs : List NodeRef} {lower : Option Bytes}
    {ops : List BatchOp} {items : List Item} {opened : List (Nat × OpenedInner)}
    (descended : descendRefs visit childLevel isFinal (child :: refs) lower ops =
      .ok (items, opened)) :
    ∃ here others more, items = here ++ others ∧
      (mineOf child refs ops ≠ [] → ∃ openedHere,
        visit child lower (isFinal && refs.isEmpty) (mineOf child refs ops) =
          .ok (here, openedHere)) ∧
      descendRefs visit childLevel isFinal refs (some child.lastKey)
        (ops.drop (mineOf child refs ops).length) = .ok (others, more) := by
  rw [descendRefs] at descended
  by_cases empty : (mineOf child refs ops).isEmpty = true
  · have none := empty
    rw [mineOf] at empty
    rw [if_pos empty, ok_bind] at descended
    obtain ⟨⟨others, more⟩, further, made⟩ := bind_eq_ok.mp descended
    cases made
    refine ⟨_, others, more, rfl, fun some => ?_, further⟩
    exact absurd (List.isEmpty_iff.mp none) some
  · rw [mineOf] at empty
    rw [if_neg empty] at descended
    obtain ⟨⟨here, openedHere⟩, visited, rest⟩ := bind_eq_ok.mp descended
    obtain ⟨⟨others, more⟩, further, made⟩ := bind_eq_ok.mp rest
    cases made
    exact ⟨here, others, more, rfl, fun _ => ⟨openedHere, visited⟩, further⟩

private theorem lands_descendRefs {visit : NodeRef → Option Bytes → Bool → List BatchOp →
      Except ProllyError (List Item × List (Nat × OpenedInner))} {key value : Bytes}
    (each : ∀ child lower isFinal mine items opened,
      visit child lower isFinal mine = .ok (items, opened) → .put key value ∈ mine →
      Lands key value items) {childLevel : Nat} {isFinal : Bool} {refs : List NodeRef}
    (filled : refs ≠ []) {lower : Option Bytes} {ops : List BatchOp} {items : List Item}
    {opened : List (Nat × OpenedInner)}
    (descended : descendRefs visit childLevel isFinal refs lower ops = .ok (items, opened))
    (isPut : .put key value ∈ ops) : Lands key value items := by
  induction refs generalizing lower ops items opened with
  | nil => exact absurd rfl filled
  | cons child refs ih =>
      obtain ⟨here, others, more, rfl, visited, further⟩ := descendRefs_parts descended
      by_cases isMine : .put key value ∈ mineOf child refs ops
      · obtain ⟨openedHere, visits⟩ := visited (List.ne_nil_of_mem isMine)
        obtain ⟨entries, base, isFresh, isIn⟩ := each _ _ _ _ _ _ visits isMine
        exact ⟨entries, base, List.mem_append_left _ isFresh, isIn⟩
      · cases refs with
        | nil => exact absurd isPut isMine
        | cons next refs =>
            have split : mineOf child (next :: refs) ops ++
                ops.drop (mineOf child (next :: refs) ops).length = ops := by
              rw [mineOf, List.isEmpty_cons, if_neg Bool.false_ne_true]
              exact (List.prefix_iff_eq_append.mp (List.takeWhile_prefix _))
            rw [← split] at isPut
            have isLater := (List.mem_append.mp isPut).resolve_left isMine
            obtain ⟨entries, base, isFresh, isIn⟩ :=
              ih (List.cons_ne_nil _ _) further isLater
            exact ⟨entries, base, List.mem_append_right _ isFresh, isIn⟩

private theorem lands_descend {store : Store} {level : Nat} {hash : Hash}
    {last min : Option Bytes} {isFinal : Bool} {ops : List BatchOp} {items : List Item}
    {opened : List (Nat × OpenedInner)}
    (descended : descend env store level hash last min isFinal ops = .ok (items, opened))
    {key value : Bytes} (isPut : .put key value ∈ ops) : Lands key value items := by
  induction level generalizing hash last min isFinal ops items opened with
  | zero =>
      rw [descend] at descended
      obtain ⟨node, read, rest⟩ := bind_eq_ok.mp descended
      cases node with
      | leaf entries =>
          cases rest
          exact ⟨_, _, List.mem_singleton_self _, mem_mergeOps entries isPut⟩
      | inner refs => cases rest
  | succ level ih =>
      rw [descend] at descended
      obtain ⟨node, read, rest⟩ := bind_eq_ok.mp descended
      cases node with
      | leaf entries =>
          cases rest
          exact ⟨_, _, List.mem_singleton_self _, mem_mergeOps entries isPut⟩
      | inner refs =>
          obtain ⟨⟨found, below⟩, visits, made⟩ := bind_eq_ok.mp rest
          cases made
          refine lands_descendRefs (fun child lower childFinal mine items opened visited isIn =>
            ih visited isIn) ?_ visits isPut
          obtain ⟨bytes, -, decodes⟩ := readNode_eq_ok read
          obtain ⟨others, isInner, filled, -⟩ := decodeNode_succ_eq_ok decodes
          cases isInner
          exact filled

private theorem failsBelow_descendRefs {visit : NodeRef → Option Bytes → Bool → List BatchOp →
      Except ProllyError (List Item × List (Nat × OpenedInner))}
    (each : ∀ child lower isFinal mine, FailsBelow (visit child lower isFinal mine))
    (childLevel : Nat) (isFinal : Bool) (refs : List NodeRef) (lower : Option Bytes)
    (ops : List BatchOp) : FailsBelow (descendRefs visit childLevel isFinal refs lower ops) := by
  induction refs generalizing lower ops with
  | nil => exact failsBelow_ok _
  | cons child refs ih =>
      rw [descendRefs]
      by_cases empty : (mineOf child refs ops).isEmpty = true
      · rw [mineOf] at empty
        rw [if_pos empty, ok_bind]
        exact (ih _ _).bind fun _ _ => failsBelow_ok _
      · rw [mineOf] at empty
        rw [if_neg empty]
        apply (each _ _ _ _).bind
        intro visited _
        exact (ih _ _).bind fun _ _ => failsBelow_ok _

private theorem failsBelow_descend (store : Store) (level : Nat) (hash : Hash)
    (last min : Option Bytes) (isFinal : Bool) (ops : List BatchOp) :
    FailsBelow (descend env store level hash last min isFinal ops) := by
  induction level generalizing hash last min isFinal ops with
  | zero =>
      rw [descend]
      apply (failsBelow_read _ _ _ _ _ _).bind
      intro node _
      cases node with
      | leaf entries => exact failsBelow_ok _
      | inner refs => exact failsBelow_corrupt _
  | succ level ih =>
      rw [descend]
      apply (failsBelow_read _ _ _ _ _ _).bind
      intro node _
      cases node with
      | leaf entries => exact failsBelow_ok _
      | inner refs =>
          apply FailsBelow.bind
          · exact failsBelow_descendRefs (fun child lower childFinal mine => ih _ _ _ _ _) _ _ _ _ _
          · intro visited _
            exact failsBelow_ok _

private theorem failsBelow_batch_of_unfit {store : Store} {root : Root} {ops : List BatchOp}
    {key value : Bytes} (last : lastFor MapOp.key key ops = some (.put key value))
    (unfit : ¬ (leafEntry (key, value)).Fits) : FailsBelow (applyBatch env store root ops) := by
  have isPut : .put key value ∈ sortDedupe MapOp.key ops := by
    rw [← lastFor_sortDedupe MapOp.key] at last
    exact (key_of_lastFor MapOp.key last).1
  apply FailsBelow.bind _ (fun _ _ => failsBelow_ok _)
  have filled : ¬ (sortDedupe MapOp.key ops).isEmpty = true := by
    rw [List.isEmpty_iff]
    exact List.ne_nil_of_mem isPut
  rw [applyBatchInner]
  dsimp only
  rw [if_neg filled]
  apply (failsBelow_descend _ _ _ _ _ _ _).bind
  intro descended descends
  obtain ⟨entries, base, isFresh, isIn⟩ := lands_descend descends isPut
  exact (buildLevels_of_unfit isFresh fun allFit => unfit (allFit _ isIn)).2

private theorem put_of_unfit {map : ByteMap} {ops : List BatchOp}
    (fits : ∀ pair ∈ map.entries, (leafEntry pair).Fits)
    (unfit : ¬ ∀ pair ∈ (map.applyAll ops).entries, (leafEntry pair).Fits) :
    ∃ key value, lastFor MapOp.key key ops = some (.put key value) ∧
      ¬ (leafEntry (key, value)).Fits := by
  rw [not_forall] at unfit
  obtain ⟨⟨key, value⟩, stays⟩ := unfit
  obtain ⟨isIn, tooLarge⟩ := Classical.not_imp.mp stays
  refine ⟨key, value, ?_, tooLarge⟩
  have found := SortedMap.get_eq_some_iff.mpr isIn
  rw [SortedMap.get_applyAll] at found
  cases last : lastFor MapOp.key key ops with
  | none =>
      rw [last] at found
      exact absurd (fits _ (SortedMap.get_eq_some_iff.mp found)) tooLarge
  | some op =>
      rw [last] at found
      have same := (key_of_lastFor MapOp.key last).2
      cases op with
      | put put written =>
          cases found
          cases same
          rfl
      | delete deleted => cases found

private theorem unfit_load {store : Store} {params : ChunkParams}
    {entries : List (Bytes × Bytes)}
    (unfit : ¬ ∀ pair ∈ (loaded entries).entries, (leafEntry pair).Fits) :
    (∀ result, bulkLoad env store params entries ≠ .ok result) ∧
      FailsBelow (bulkLoad env store params entries) := by
  rw [loaded_entries] at unfit
  have stuck := @buildLevels_of_unfit env store params _ [] none _ none
    (List.mem_singleton_self (Item.fresh ((sortDedupe Prod.fst entries).map leafEntry) none))
    (fun allFit => unfit fun pair isIn => allFit _ (List.mem_map_of_mem isIn))
  constructor
  · intro result loads
    obtain ⟨built, builds, -⟩ := bind_eq_ok.mp loads
    exact stuck.1 built builds
  · exact FailsBelow.bind stuck.2 fun _ _ => failsBelow_ok _

/-- A load and a batch on top of it build trees whose levels thin out by halves, the
load's no higher than a binary tree of its pairs; neither runs out of heights. -/
theorem construction_converges (env : Substrate) (params : ChunkParams) (store : Store)
    (entries : List (Bytes × Bytes)) (ops : List BatchOp)
    (free : CollisionFree env.address
      (chunkSpace env store params (states (loaded entries) [ops])))
    (few : (loaded entries).entries.length < 2 ^ 63)
    (fewAfter : ((loaded entries).applyAll ops).entries.length < 2 ^ 63) :
    FailsBelow (bulkLoad env store params entries) ∧
      ((∀ pair ∈ (loaded entries).entries, (leafEntry pair).Fits) →
        ∃ root after top, ∃ chunk : Chunk top,
          bulkLoad env store params entries = .ok (root, after) ∧
          Denotes env params after root chunk ∧
          chunk.contents = (loaded entries).entries ∧ Convergent chunk ∧
          root.height ≤ 1 + Nat.clog 2 (loaded entries).entries.length) ∧
      ∀ root after, bulkLoad env store params entries = .ok (root, after) →
        FailsBelow (applyBatch env after root ops) ∧
        ((∀ pair ∈ ((loaded entries).applyAll ops).entries, (leafEntry pair).Fits) →
          ∃ next later top, ∃ chunk : Chunk top,
            applyBatch env after root ops = .ok (next, later) ∧
            Denotes env params later next chunk ∧
            chunk.contents = ((loaded entries).applyAll ops).entries ∧ Convergent chunk) := by
  have within : store ⊆ chunkSpace env store params (states (loaded entries) [ops]) :=
    List.subset_append_left _ _
  have roomy : ∀ map ∈ states (loaded entries) [ops], Roomy env params
      (chunkSpace env store params (states (loaded entries) [ops])) map.entries := by
    intro map isState bytes isChunk
    exact List.mem_append_right _ (List.mem_flatMap.mpr ⟨map, isState, isChunk⟩)
  have loads : (∀ pair ∈ (loaded entries).entries, (leafEntry pair).Fits) →
      ∃ root after top, ∃ chunk : Chunk top,
        bulkLoad env store params entries = .ok (root, after) ∧
        Built env params (chunkSpace env store params (states (loaded entries) [ops])) store
          after (loaded entries).entries root chunk ∧ Minimal chunk := by
    intro fits
    have room := roomy (loaded entries) List.mem_cons_self
    have storable : Storable (loaded entries).entries := ⟨fits, by
      have bound : (2 : Nat) ^ 63 ≤ 2 ^ maxHeight := Nat.pow_le_pow_right (by decide) (by decide)
      omega⟩
    rw [loaded_entries] at room storable ⊢
    exact bulkLoad_spec free within room storable
  refine ⟨?_, ?_, ?_⟩
  · by_cases fits : ∀ pair ∈ (loaded entries).entries, (leafEntry pair).Fits
    · obtain ⟨root, after, top, chunk, done, -⟩ := loads fits
      rw [done]
      exact failsBelow_ok _
    · exact (unfit_load fits).2
  · intro fits
    obtain ⟨root, after, top, chunk, done, built, minimal⟩ := loads fits
    refine ⟨root, after, top, chunk, done, built.denotes, built.contents,
      built.denotes.convergent, ?_⟩
    have low := (built.denotes.canonical minimal).top_le
    rw [built.contents] at low
    have height : root.height = top + 1 := by rw [built.denotes.root_eq]
    omega
  · intro root after done
    by_cases fits : ∀ pair ∈ (loaded entries).entries, (leafEntry pair).Fits
    · obtain ⟨sameRoot, sameAfter, top, chunk, again, built, -⟩ := loads fits
      cases done.symm.trans again
      have next : (loaded entries).applyAll ops ∈ states (loaded entries) [ops] :=
        List.mem_cons_of_mem _ (List.mem_singleton_self _)
      have applies (fitsAfter : ∀ pair ∈ ((loaded entries).applyAll ops).entries,
          (leafEntry pair).Fits) := by
        refine applyBatch_spec free built.within built.denotes built.contents ops
          (roomy _ next) ⟨fitsAfter, ?_⟩
        have bound : (2 : Nat) ^ 63 ≤ 2 ^ maxHeight :=
          Nat.pow_le_pow_right (by decide) (by decide)
        omega
      constructor
      · by_cases fitsAfter : ∀ pair ∈ ((loaded entries).applyAll ops).entries,
            (leafEntry pair).Fits
        · obtain ⟨last, later, under, node, applied, -⟩ := applies fitsAfter
          rw [applied]
          exact failsBelow_ok _
        · obtain ⟨key, value, last, tooLarge⟩ := put_of_unfit fits fitsAfter
          exact failsBelow_batch_of_unfit last tooLarge
      · intro fitsAfter
        obtain ⟨last, later, under, node, applied, further, -⟩ := applies fitsAfter
        exact ⟨last, later, under, node, applied, further.denotes, further.contents,
          further.denotes.convergent⟩
    · exact absurd done ((unfit_load fits).1 (root, after))

end

/-- A tree of three levels that a batch extends. -/
theorem construction_converges_sample :
    CollisionFree sampleAddress (chunkSpace sampleEnv [] sampleParams
        (states (loaded fivePairs) [[.put [6] []]])) ∧
      ∃ root after top, ∃ chunk : Chunk top,
        bulkLoad sampleEnv [] sampleParams fivePairs = .ok (root, after) ∧
        Denotes sampleEnv sampleParams after root chunk ∧
        chunk.contents = (loaded fivePairs).entries ∧ Convergent chunk ∧
        root.height ≤ 1 + Nat.clog 2 (loaded fivePairs).entries.length :=
  ⟨by decide +kernel, (construction_converges sampleEnv sampleParams [] fivePairs
    [.put [6] []] (by decide +kernel) (by decide +kernel) (by decide +kernel)).2.1
    (by decide +kernel)⟩

/-- The empty map is one node over no entry. -/
theorem construction_not_halved :
    ∃ root after, bulkLoad sampleEnv [] sampleParams [] = .ok (root, after) ∧
      Denotes sampleEnv sampleParams after root ([] : Chunk 0) ∧
      ¬ (below 0 0 ([] : Chunk 0)).length ≤
        ((Chunk.contents ([] : Chunk 0)).length + 1) / 2 := by
  refine ⟨⟨(refOf sampleAddress 0 []).hash, 1, sampleParams⟩, [chunkBytes sampleAddress 0 []],
    rfl, ⟨rfl, .inr ⟨rfl, rfl, List.mem_singleton_self _⟩⟩, ?_⟩
  decide

end Acetone.Prolly

import Acetone.Prolly.Shape

/-!
# The level builder segments its stream

The chunker's answer after an entry is a function of the entries since the
last boundary, `cutAfter`.  Pushing a stream of entries through the builder
therefore writes exactly the segments that `cutAfter` defines.
-/

namespace Acetone.Prolly

open Acetone.Lib

section

variable (env : Substrate) (params : ChunkParams)

def feedAll (entries : List Entry) : Bool × Chunker (env.rolling params) :=
  entries.foldl (fun state entry => state.2.feedEntry (entryBytes entry))
    (false, .new params)

def cutAfter (entries : List Entry) : Bool := (feedAll env params entries).1

theorem feedAll_concat (entries : List Entry) (entry : Entry) :
    feedAll env params (entries ++ [entry]) =
      (feedAll env params entries).2.feedEntry (entryBytes entry) := by
  rw [feedAll, List.foldl_append]
  rfl

def runBytes (entries : List Entry) : Nat :=
  (entries.map (fun entry => (entryBytes entry).length)).sum

private theorem feedEntry_params {rolling : Rolling} (chunker : Chunker rolling)
    (bytes : Bytes) : (chunker.feedEntry bytes).2.params = chunker.params := by
  rw [Chunker.feedEntry]
  split
  · rfl
  split <;> rfl

private theorem feedEntry_entries {rolling : Rolling} (chunker : Chunker rolling)
    (bytes : Bytes) :
    (chunker.feedEntry bytes).2.entries = chunker.entries + 1 := by
  rw [Chunker.feedEntry]
  split
  · rfl
  split <;> rfl

private theorem feedEntry_len {rolling : Rolling} (chunker : Chunker rolling)
    (bytes : Bytes) :
    (chunker.feedEntry bytes).2.len = chunker.len + bytes.length := by
  rw [Chunker.feedEntry]
  split
  · rfl
  split <;> rfl

theorem feedAll_state (entries : List Entry) :
    (feedAll env params entries).2.params = params ∧
      (feedAll env params entries).2.entries = entries.length ∧
      (feedAll env params entries).2.len = runBytes entries := by
  induction entries using List.reverseRecOn with
  | nil => exact ⟨rfl, rfl, rfl⟩
  | append_singleton entries entry ih =>
      rw [feedAll_concat, feedEntry_params, feedEntry_entries, feedEntry_len,
        ih.1, ih.2.1, ih.2.2]
      simp [runBytes]

/-- A chunk never ends before its second entry. -/
theorem two_le_of_cutAfter {entries : List Entry}
    (ends : cutAfter env params entries = true) : 2 ≤ entries.length := by
  induction entries using List.reverseRecOn with
  | nil => cases ends
  | append_singleton entries entry _ =>
      rw [cutAfter, feedAll_concat, Chunker.feedEntry] at ends
      have count := (feedAll_state env params entries).2.1
      split at ends
      · cases ends
      · next enough =>
          rw [count] at enough
          rw [List.length_append, List.length_singleton]
          omega

/-- A chunk that has not ended stays below the size at which a cut is
forced, unless it has a single entry. -/
theorem runBytes_lt_of_not_cut {entries : List Entry}
    (goesOn : cutAfter env params entries = false) (several : 2 ≤ entries.length) :
    runBytes entries < params.maxBytes := by
  obtain ⟨front, last, rfl⟩ : ∃ front last, entries = front ++ [last] :=
    ⟨_, _, (List.dropLast_concat_getLast
      (List.ne_nil_of_length_pos (by omega))).symm⟩
  obtain ⟨fixed, count, length⟩ := feedAll_state env params front
  rw [cutAfter, feedAll_concat, Chunker.feedEntry] at goesOn
  rw [List.length_append, List.length_singleton] at several
  have total : runBytes (front ++ [last]) =
      runBytes front + (entryBytes last).length := by simp [runBytes]
  rw [total]
  rw [if_neg (by rw [count]; omega), fixed, length] at goesOn
  by_contra full
  rw [if_pos (by omega)] at goesOn
  cases goesOn

theorem length_le_runBytes (entries : List Entry) :
    entries.length ≤ runBytes entries := by
  induction entries with
  | nil => simp
  | cons entry entries ih =>
      have positive := entryBytes_pos entry
      have total : runBytes (entry :: entries) =
          (entryBytes entry).length + runBytes entries := by simp [runBytes]
      rw [total, List.length_cons]
      omega

/-- An open segment is far from the format's bound on entry counts. -/
theorem open_length {run : List Entry}
    (opened : Open (cutAfter env params) run) : run.length ≤ 2 ^ 20 := by
  by_cases several : 2 ≤ run.length
  · obtain ⟨front, last, rfl⟩ : ∃ front last, run = front ++ [last] :=
      ⟨_, _, (List.dropLast_concat_getLast
        (List.ne_nil_of_length_pos (by omega))).symm⟩
    have goesOn := ((open_concat (cutAfter env params)).mp opened).2
    have small := runBytes_lt_of_not_cut env params goesOn several
    have counted := length_le_runBytes (front ++ [last])
    have inFormat : params.maxBytes ≤ 2 ^ 20 := params.maxInFormat
    omega
  · omega

theorem closed_length {run : List Entry}
    (closed : Closed (cutAfter env params) run) : run.length < 2 ^ 32 := by
  induction run using List.reverseRecOn with
  | nil => cases closed
  | append_singleton run item _ =>
      have opened := ((closed_concat (cutAfter env params)).mp closed).1
      have small := open_length env params opened
      rw [List.length_append, List.length_singleton]
      omega

end

section

variable (env : Substrate) (params : ChunkParams)

/-- The builder holds exactly the open run `current`. -/
structure Ready (builder : LevelBuilder (env.rolling params)) (level : Nat)
    (current : List Entry) : Prop where
  level : builder.level = level
  chunker : builder.chunker = (feedAll env params current).2
  buf : builder.buf = current.flatMap entryBytes
  count : builder.count = current.length
  lastKey : builder.lastKey = lastKeyOf current

/-- The output for a chunk written at a level. -/
def outOf (level : Nat) (entries : List Entry) : OutItem :=
  .chunk ⟨lastKeyOf entries, env.address (nodeBytes level entries)⟩

variable {env params}

theorem Ready.new (level : Nat) (recorder : Recorder) :
    Ready env params (.new level params recorder) level [] :=
  ⟨rfl, rfl, rfl, rfl, rfl⟩

theorem Ready.withBase {builder : LevelBuilder (env.rolling params)}
    {level : Nat} {current : List Entry}
    (ready : Ready env params builder level current) (base : Option Hash) :
    Ready env params (builder.withBase base) level current :=
  ⟨ready.level, ready.chunker, ready.buf, ready.count, ready.lastKey⟩

theorem Ready.passThrough {builder : LevelBuilder (env.rolling params)}
    {level : Nat} {current : List Entry}
    (ready : Ready env params builder level current) (item : OutItem) :
    Ready env params (builder.passThrough item) level current :=
  ⟨ready.level, ready.chunker, ready.buf, ready.count, ready.lastKey⟩

theorem Ready.atBoundary_iff {builder : LevelBuilder (env.rolling params)}
    {level : Nat} {current : List Entry}
    (ready : Ready env params builder level current) :
    builder.atBoundary = true ↔ current = [] := by
  rw [LevelBuilder.atBoundary, decide_eq_true_iff, ready.count,
    List.length_eq_zero_iff]

theorem Ready.emit {builder : LevelBuilder (env.rolling params)}
    {level : Nat} {current : List Entry}
    (ready : Ready env params builder level current) (store : Store) :
    ∃ next, builder.emit env store = (next, nodeBytes level current :: store) ∧
      Ready env params next level [] ∧
      next.out = builder.out ++ [outOf env level current] := by
  have bytes : UInt8.ofNat builder.level :: beBytes 4 builder.count ++
      builder.buf = nodeBytes level current := by
    rw [ready.level, ready.count, ready.buf, nodeBytes]
  have reset : builder.chunker.reset = (feedAll env params []).2 := by
    have fixed := (feedAll_state env params current).1
    rw [ready.chunker, Chunker.reset, fixed]
    rfl
  refine ⟨(builder.emit env store).1, ?_, ?_, ?_⟩
  · exact Prod.ext rfl (congrArg (· :: store) bytes)
  · exact ⟨ready.level, reset, rfl, rfl, rfl⟩
  · show builder.out ++ [.chunk ⟨builder.lastKey, env.address _⟩] = _
    rw [bytes, ready.lastKey, outOf]

theorem Ready.extend {builder : LevelBuilder (env.rolling params)}
    {level : Nat} {current : List Entry}
    (ready : Ready env params builder level current) (entry : Entry) :
    Ready env params
      (builder.extend entry.key (entryBytes entry)
        (feedAll env params (current ++ [entry])).2) level
      (current ++ [entry]) := by
  refine ⟨ready.level, rfl, ?_, ?_, ?_⟩
  · show builder.buf ++ entryBytes entry = _
    rw [ready.buf]
    simp
  · show builder.count + 1 = _
    rw [ready.count]
    simp
  · show entry.key = _
    simp [lastKeyOf]

/-- One entry either ends the open run, which is written, or extends it. -/
theorem Ready.push {builder : LevelBuilder (env.rolling params)}
    {level : Nat} {current : List Entry}
    (ready : Ready env params builder level current)
    (opened : Open (cutAfter env params) current) {entry : Entry}
    (fits : entry.Fits) (store : Store) :
    ∃ next, builder.push env entry store =
        .ok (next, (if cutAfter env params (current ++ [entry]) then
          [nodeBytes level (current ++ [entry])] else []) ++ store) ∧
      Ready env params next level
        (if cutAfter env params (current ++ [entry]) then []
          else current ++ [entry]) ∧
      next.out = builder.out ++
        (if cutAfter env params (current ++ [entry]) then
          [outOf env level (current ++ [entry])] else []) := by
  have small := open_length env params opened
  have room : ¬builder.count + 1 ≥ 2 ^ 32 := by
    rw [ready.count]
    omega
  have fed : builder.chunker.feedEntry (entryBytes entry) =
      feedAll env params (current ++ [entry]) := by
    rw [ready.chunker, feedAll_concat]
  rw [LevelBuilder.push, encodeEntry_of_fits fits, ok_bind, if_neg room]
  simp only [fed]
  have extended := ready.extend entry
  by_cases ends : cutAfter env params (current ++ [entry]) = true
  · obtain ⟨next, emitted, done, out⟩ := extended.emit store
    refine ⟨next, ?_, ?_, ?_⟩
    · rw [cutAfter] at ends
      simp only [cutAfter, ends, if_true, emitted]
      rfl
    · rw [if_pos ends]
      exact done
    · rw [if_pos ends, out]
      rfl
  · refine ⟨builder.extend entry.key (entryBytes entry)
      (feedAll env params (current ++ [entry])).2, ?_, ?_, ?_⟩
    · rw [cutAfter] at ends
      simp only [cutAfter, ends]
      rfl
    · rw [if_neg ends]
      exact extended
    · rw [if_neg ends, List.append_nil]
      rfl

/-- Pushing a stream writes its closed segments and keeps the open one. -/
theorem Ready.pushAll {builder : LevelBuilder (env.rolling params)}
    {level : Nat} {current : List Entry}
    (ready : Ready env params builder level current)
    (opened : Open (cutAfter env params) current) (entries : List Entry)
    (fits : ∀ entry ∈ entries, entry.Fits) (store : Store) :
    ∃ next, builder.pushAll env entries store =
        .ok (next, ((Lib.segment (cutAfter env params) current entries).1.map
          (nodeBytes level)).reverse ++ store) ∧
      Ready env params next level
        (Lib.segment (cutAfter env params) current entries).2 ∧
      next.out = builder.out ++
        (Lib.segment (cutAfter env params) current entries).1.map (outOf env level) := by
  induction entries generalizing builder current store with
  | nil => exact ⟨builder, rfl, ready, by simp [Lib.segment]⟩
  | cons entry entries ih =>
      obtain ⟨middle, pushed, between, out⟩ :=
        ready.push opened (fits entry List.mem_cons_self) store
      have others : ∀ other ∈ entries, other.Fits := fun other member =>
        fits other (List.mem_cons_of_mem _ member)
      rw [LevelBuilder.pushAll, pushed, ok_bind]
      by_cases ends : cutAfter env params (current ++ [entry]) = true
      · rw [if_pos ends] at between out
        simp only [Lib.segment, ends, if_true]
        obtain ⟨next, rest, final, outs⟩ := ih between rfl others
          ([nodeBytes level (current ++ [entry])] ++ store)
        refine ⟨next, ?_, final, ?_⟩
        · rw [rest]
          simp
        · rw [outs, out]
          simp
      · rw [if_neg ends] at between out
        have goesOn : Open (cutAfter env params) (current ++ [entry]) :=
          (open_concat _).mpr ⟨opened, by simpa using ends⟩
        simp only [Lib.segment, ends]
        obtain ⟨next, rest, final, outs⟩ := ih between goesOn others ([] ++ store)
        refine ⟨next, ?_, final, ?_⟩
        · simpa using rest
        · rw [outs, out]
          simp

end

end Acetone.Prolly

import Acetone.Lib.Chunks
import Acetone.Store.Delta
import Mathlib.Data.List.GetD

/-!
# What a delta restores

Applying the delta that the encoder writes gives the target back.  The
encoder's stream is followed part by part: `Appends` says of a part what it
adds to the output, whatever was put out before it and whatever comes after.
The decoder is also written out with every slice checked, so that a slice
outside the base or the delta would show; on no input does it.
-/

namespace Acetone.Store

open Acetone.Lib

private theorem toNat_byte {value : Nat} (small : value < 256) :
    (UInt8.ofNat value).toNat = value :=
  UInt8.toNat_ofNat_of_lt' small

private theorem readGroups_cons (groups shift : Nat) (byte : UInt8) (delta : Bytes) :
    readGroups (groups + 1) shift (byte :: delta) =
      if byte.toNat < 128 then .ok (byte.toNat % 128 * 2 ^ shift, delta)
      else readGroups groups (shift + 7) delta >>= fun (size, rest) =>
        .ok (byte.toNat % 128 * 2 ^ shift + size, rest) :=
  rfl

private theorem readGroups_sizeGroups {groups width shift size : Nat}
    (enough : groups ≤ width) (bound : size < 128 ^ groups) (positive : 1 ≤ groups)
    (rest : Bytes) :
    readGroups groups shift (sizeGroups width size ++ rest) =
      .ok (size * 2 ^ shift, rest) := by
  induction groups generalizing width shift size with
  | zero => cases positive
  | succ groups ih =>
      obtain ⟨width, rfl⟩ : ∃ fewer, width = fewer + 1 := ⟨width - 1, by omega⟩
      rw [sizeGroups]
      by_cases small : size < 128
      · rw [if_pos small, List.cons_append, readGroups_cons, toNat_byte (by omega),
          if_pos small, Nat.mod_eq_of_lt small, List.nil_append]
      · have more : 1 ≤ groups := by
          by_contra none
          obtain rfl : groups = 0 := by omega
          exact small (by simpa using bound)
        have higher : size / 128 < 128 ^ groups := by
          rw [Nat.div_lt_iff_lt_mul (by omega)]
          simpa [pow_succ] using bound
        have value : size % 128 * 2 ^ shift + size / 128 * 2 ^ (shift + 7) =
            size * 2 ^ shift := by
          calc
            size % 128 * 2 ^ shift + size / 128 * 2 ^ (shift + 7)
                = (size % 128 + 128 * (size / 128)) * 2 ^ shift := by ring
            _ = size * 2 ^ shift := by rw [Nat.mod_add_div]
        have others : readGroups groups (shift + 7) (sizeGroups width (size / 128) ++ rest) =
            .ok (size / 128 * 2 ^ (shift + 7), rest) := ih (by omega) higher more
        rw [if_neg small, List.cons_append, readGroups_cons, toNat_byte (by omega),
          if_neg (by omega), others, ok_bind, Nat.add_mod_right, Nat.mod_mod, ← value]

theorem readSize_pushSize {size : Nat} (bound : size < 2 ^ 42) (rest : Bytes) :
    readSize (pushSize size ++ rest) = .ok (size, rest) := by
  rw [readSize, pushSize, readGroups_sizeGroups (by omega) (by simpa using bound) (by omega),
    pow_zero, Nat.mul_one]

/-- The bits that mark the bytes which are not zero, from the lowest bit on. -/
private def marks : List Nat → Nat
  | [] => 0
  | part :: parts => (if part = 0 then 0 else 1) + 2 * marks parts

private theorem sum_marks (parts : List Nat) (start : Nat) :
    ((parts.zipIdx start).map fun (part, k) => if part = 0 then 0 else 2 ^ k).sum =
      2 ^ start * marks parts := by
  induction parts generalizing start with
  | nil => rfl
  | cons part parts ih =>
      rw [List.zipIdx_cons, List.map_cons, List.sum_cons, ih, marks]
      by_cases zero : part = 0
      · simp only [zero, if_true]
        ring
      · simp only [zero, if_false]
        ring

private theorem marks_lt (parts : List Nat) : marks parts < 2 ^ parts.length := by
  induction parts with
  | nil => simp [marks]
  | cons part parts ih =>
      rw [marks, List.length_cons, pow_succ]
      split <;> omega

private theorem testBit_marks (parts : List Nat) (index : Nat) :
    (marks parts).testBit index = decide (parts.getD index 0 ≠ 0) := by
  induction parts generalizing index with
  | nil => simp [marks]
  | cons part parts ih =>
      cases index with
      | zero =>
          by_cases zero : part = 0
          · simp [marks, zero, Nat.testBit_zero]
          · simp [marks, zero, Nat.testBit_zero]
      | succ index =>
          have half : ((if part = 0 then 0 else 1) + 2 * marks parts) / 2 = marks parts := by
            split <;> omega
          rw [marks, Nat.testBit_succ, half, ih]
          rfl

/-- The value of the bytes of an operand, lowest first. -/
private def placed : Nat → List Nat → Nat
  | _, [] => 0
  | k, part :: parts => part * 256 ^ k + placed (k + 1) parts

private theorem readOperand_parts (command bit k : Nat) {parts : List Nat}
    (marked : ∀ index, index < parts.length →
      command.testBit (bit + (k + index)) = decide (parts.getD index 0 ≠ 0))
    (small : ∀ part ∈ parts, part < 256) (rest : Bytes) :
    readOperand command bit parts.length k
        ((parts.filter (· ≠ 0)).map UInt8.ofNat ++ rest) =
      .ok (placed k parts, rest) := by
  induction parts generalizing k with
  | nil => rfl
  | cons part parts ih =>
      have here := marked 0 (by simp)
      have further : ∀ index, index < parts.length →
          command.testBit (bit + (k + 1 + index)) = decide (parts.getD index 0 ≠ 0) := by
        intro index inside
        have next := marked (index + 1) (by simpa using inside)
        rw [show k + 1 + index = k + (index + 1) by omega]
        simpa using next
      have others := ih (k + 1) further fun part member => small part (List.mem_cons_of_mem _ member)
      by_cases zero : part = 0
      · have unmarked : command.testBit (bit + k) = false := by simpa [zero] using here
        rw [List.length_cons, readOperand, unmarked, if_neg Bool.false_ne_true,
          List.filter_cons_of_neg (by simpa using zero), others, placed, zero, Nat.zero_mul,
          Nat.zero_add]
      · have marked : command.testBit (bit + k) = true := by simpa [zero] using here
        rw [List.length_cons, readOperand, marked, if_pos rfl,
          List.filter_cons_of_pos (by simpa using zero), List.map_cons, List.cons_append,
          take1, ok_bind]
        show (readOperand command bit parts.length (k + 1) _ >>= _) = _
        rw [others, ok_bind, toNat_byte (small part List.mem_cons_self), placed]

private theorem placed_range (width value k : Nat) (bound : value < 256 ^ (k + width)) :
    placed k ((List.range' k width).map fun index => value / 256 ^ index % 256) +
      value % 256 ^ k = value := by
  induction width generalizing k with
  | zero => simpa [placed] using Nat.mod_eq_of_lt bound
  | succ width ih =>
      have later := ih (k + 1) (by rwa [Nat.add_right_comm])
      rw [List.range'_succ, List.map_cons, placed]
      have digit : value % 256 ^ (k + 1) = value / 256 ^ k % 256 * 256 ^ k + value % 256 ^ k := by
        rw [Nat.pow_succ, Nat.mod_mul, Nat.mul_comm (256 ^ k), Nat.add_comm]
      omega

private def parts (width value : Nat) : List Nat :=
  (List.range width).map fun k => value / 256 ^ k % 256

private theorem placed_parts {width value : Nat} (bound : value < 256 ^ width) :
    placed 0 (parts width value) = value := by
  have whole := placed_range width value 0 (by simpa using bound)
  rw [parts, List.range_eq_range']
  simpa [Nat.mod_one] using whole

private theorem parts_small (width value : Nat) : ∀ part ∈ parts width value, part < 256 := by
  intro part member
  obtain ⟨k, _, rfl⟩ := List.mem_map.mp member
  exact Nat.mod_lt _ (by omega)

theorem applyInstruction_pushCopy {base : Bytes} {offset len : Nat} (some : 1 ≤ len)
    (short : len ≤ maxCopy) (inside : offset + len ≤ base.length)
    (addressed : base.length < 2 ^ 32) :
    ∃ command operands, pushCopy offset len = command :: operands ∧ ∀ rest,
      applyInstruction base command (operands ++ rest) =
        .ok ((base.drop offset).take len, rest) := by
  let size := if len = maxCopy then 0 else len
  let all := parts 4 offset ++ parts 3 size
  have fits : marks all < 2 ^ 7 := marks_lt all
  have sizeBound : size < 256 ^ 3 := by
    have limit : maxCopy = 65536 := rfl
    simp only [size]
    split <;> omega
  have code : pushCopy offset len =
      UInt8.ofNat (128 + marks all) :: (all.filter (· ≠ 0)).map UInt8.ofNat := by
    have sum := sum_marks all 0
    rw [pow_zero, Nat.one_mul] at sum
    rw [← sum]
    rfl
  have bit (index : Nat) (low : index < 7) :
      (128 + marks all).testBit index = decide (all.getD index 0 ≠ 0) := by
    rw [show 128 = 2 ^ 7 from rfl, Nat.testBit_two_pow_add_gt low, testBit_marks]
  refine ⟨_, _, code, fun rest => ?_⟩
  have command : (UInt8.ofNat (128 + marks all)).toNat = 128 + marks all :=
    toNat_byte (by omega)
  have offsetRead := readOperand_parts (128 + marks all) 0 0
    (fun index low => by
      have low : index < 4 := by simpa [parts] using low
      rw [Nat.zero_add, Nat.zero_add, bit index (by omega),
        List.getD_append _ _ _ _ (by simpa [parts] using low)])
    (parts_small 4 offset)
    (((parts 3 size).filter (· ≠ 0)).map UInt8.ofNat ++ rest)
  have sizeRead := readOperand_parts (128 + marks all) 4 0
    (fun index low => by
      have low : index < 3 := by simpa [parts] using low
      rw [Nat.zero_add, bit (4 + index) (by omega),
        List.getD_append_right _ _ _ _ (by simp [parts])]
      simp [parts])
    (parts_small 3 size) rest
  have restored : (if size = 0 then maxCopy else size) = len := by
    simp only [size]
    split <;> split <;> omega
  rw [applyInstruction, if_pos (by omega), command, List.filter_append, List.map_append,
    List.append_assoc]
  rw [placed_parts (by omega)] at offsetRead
  rw [placed_parts sizeBound] at sizeRead
  simp only [parts, List.length_map, List.length_range] at offsetRead sizeRead
  simp only [parts, offsetRead, sizeRead, ok_bind, restored]
  rw [if_neg (by omega)]

private theorem take1_length {delta rest : Bytes} {byte : UInt8}
    (taken : take1 delta = .ok (byte, rest)) : rest.length + 1 = delta.length := by
  cases delta with
  | nil => cases taken
  | cons head tail =>
      cases taken
      rfl

private theorem readOperand_length {command bit count k value : Nat} {delta rest : Bytes}
    (read : readOperand command bit count k delta = .ok (value, rest)) :
    rest.length ≤ delta.length := by
  induction count generalizing k value delta with
  | zero =>
      cases read
      exact Nat.le_refl _
  | succ count ih =>
      rw [readOperand] at read
      split at read
      · obtain ⟨⟨byte, later⟩, taken, read⟩ := bind_eq_ok.mp read
        obtain ⟨⟨others, final⟩, read, ⟨⟩⟩ := bind_eq_ok.mp read
        have first := take1_length taken
        have further := ih read
        omega
      · exact ih read

private theorem applyInstruction_length {base delta appended rest : Bytes} {command : UInt8}
    (applied : applyInstruction base command delta = .ok (appended, rest)) :
    rest.length ≤ delta.length := by
  rw [applyInstruction] at applied
  split at applied
  · obtain ⟨⟨offset, later⟩, offsetRead, applied⟩ := bind_eq_ok.mp applied
    obtain ⟨⟨size, final⟩, sizeRead, applied⟩ := bind_eq_ok.mp applied
    obtain ⟨_, ⟨⟩⟩ := guard_eq_ok.mp applied
    exact (readOperand_length sizeRead).trans (readOperand_length offsetRead)
  · split at applied
    · obtain ⟨_, ⟨⟩⟩ := guard_eq_ok.mp applied
      simp
    · cases applied

/-- The loop over the whole stream; every round takes a byte off it. -/
def applyAll (base output delta : Bytes) : Except String Bytes :=
  applyRest base delta.length output delta

private theorem applyRest_enough {base delta : Bytes} {rounds : Nat} (output : Bytes)
    (enough : delta.length ≤ rounds) :
    applyRest base rounds output delta = applyAll base output delta := by
  suffices same : ∀ {others : Nat}, delta.length ≤ others →
      applyRest base rounds output delta = applyRest base others output delta from
    same (Nat.le_refl _)
  induction rounds generalizing output delta with
  | zero =>
      intro others _
      obtain rfl : delta = [] := List.eq_nil_of_length_eq_zero (by omega)
      rw [applyRest, applyRest]
  | succ rounds ih =>
      intro others enough
      cases delta with
      | nil => rw [applyRest, applyRest]
      | cons command delta =>
          obtain ⟨others, rfl⟩ : ∃ fewer, others = fewer + 1 :=
            ⟨others - 1, by rw [List.length_cons] at enough; omega⟩
          rw [applyRest, applyRest]
          cases applied : applyInstruction base command delta with
          | error reason => rfl
          | ok result =>
              have shorter := applyInstruction_length applied
              rw [List.length_cons] at *
              exact ih _ (by omega) (by omega)

theorem applyAll_nil (base output : Bytes) : applyAll base output [] = .ok output := rfl

theorem applyAll_cons (base output delta : Bytes) (command : UInt8) :
    applyAll base output (command :: delta) =
      applyInstruction base command delta >>= fun (appended, rest) =>
        applyAll base (output ++ appended) rest := by
  rw [applyAll, List.length_cons, applyRest]
  cases applied : applyInstruction base command delta with
  | error reason => rfl
  | ok result => exact applyRest_enough _ (applyInstruction_length applied)

/-- A part of a stream adds `output`, wherever in a stream it stands. -/
def Appends (base part output : Bytes) : Prop :=
  ∀ earlier later, applyAll base earlier (part ++ later) =
    applyAll base (earlier ++ output) later

namespace Appends

variable {base : Bytes}

theorem nil : Appends base [] [] := by
  intro earlier later
  rw [List.nil_append, List.append_nil]

theorem append {first second left right : Bytes} (firstAppends : Appends base first left)
    (secondAppends : Appends base second right) :
    Appends base (first ++ second) (left ++ right) := by
  intro earlier later
  rw [List.append_assoc, firstAppends, secondAppends, List.append_assoc]

theorem instruction {command : UInt8} {operands output : Bytes}
    (applied : ∀ rest, applyInstruction base command (operands ++ rest) = .ok (output, rest)) :
    Appends base (command :: operands) output := by
  intro earlier later
  rw [List.cons_append, applyAll_cons, applied, ok_bind]

theorem insert {chunk : Bytes} (nonempty : chunk ≠ []) (short : chunk.length ≤ 127) :
    Appends base (UInt8.ofNat chunk.length :: chunk) chunk := by
  have positive := List.length_pos_iff.mpr nonempty
  have command : (UInt8.ofNat chunk.length).toNat = chunk.length := toNat_byte (by omega)
  apply instruction
  intro rest
  have defined : UInt8.ofNat chunk.length ≠ 0 := by
    intro zero
    rw [zero] at command
    have empty : 0 = chunk.length := command
    omega
  rw [applyInstruction, command, if_neg (by omega), if_pos defined,
    if_neg (by simp), List.take_left, List.drop_left]

theorem inserts (literals : Bytes) : Appends base (pushInserts literals) literals := by
  have each : ∀ chunks : List Bytes, (∀ chunk ∈ chunks, chunk ≠ [] ∧ chunk.length ≤ 127) →
      Appends base (chunks.flatMap fun chunk => UInt8.ofNat chunk.length :: chunk)
        chunks.flatten := by
    intro chunks
    induction chunks with
    | nil => exact fun _ => nil
    | cons chunk chunks ih =>
        intro all
        obtain ⟨nonempty, short⟩ := all chunk List.mem_cons_self
        rw [List.flatMap_cons, List.flatten_cons]
        exact (insert nonempty short).append
          (ih fun other member => all other (List.mem_cons_of_mem _ member))
  have whole := each (literals.toChunks 127) fun chunk member =>
    ⟨ne_nil_of_mem_toChunks member, length_le_of_mem_toChunks (by omega) member⟩
  rwa [flatten_toChunks] at whole

theorem copies {rounds offset len : Nat} (addressed : base.length < 2 ^ 32)
    (enough : len ≤ rounds) (inside : offset + len ≤ base.length) :
    Appends base (pushCopies rounds offset len) ((base.drop offset).take len) := by
  induction rounds generalizing offset len with
  | zero =>
      obtain rfl : len = 0 := by omega
      rw [pushCopies, List.take_zero]
      exact nil
  | succ rounds ih =>
      rw [pushCopies]
      split
      · next empty =>
        rw [empty, List.take_zero]
        exact nil
      · next more =>
        have limit : maxCopy = 65536 := rfl
        obtain ⟨command, operands, code, applied⟩ :=
          @applyInstruction_pushCopy base offset (min len maxCopy) (by omega) (by omega)
            (by omega) addressed
        have rest := @ih (offset + min len maxCopy) (len - min len maxCopy)
          (by omega) (by omega)
        have split : (base.drop offset).take len =
            (base.drop offset).take (min len maxCopy) ++
              (base.drop (offset + min len maxCopy)).take (len - min len maxCopy) := by
          rw [← List.drop_drop, ← List.take_add]
          congr 1
          omega
        rw [split]
        refine append ?_ rest
        rw [code]
        exact instruction applied

end Appends

theorem take_commonLength (left right : Bytes) :
    left.take (commonLength left right) = right.take (commonLength left right) := by
  induction left generalizing right with
  | nil => simp [commonLength]
  | cons byte left ih =>
      cases right with
      | nil => simp [commonLength]
      | cons other right =>
          by_cases same : byte = other
          · simp [commonLength, same, ih]
          · simp [commonLength, same]

theorem commonLength_le (left right : Bytes) :
    commonLength left right ≤ left.length ∧ commonLength left right ≤ right.length := by
  induction left generalizing right with
  | nil => simp [commonLength]
  | cons byte left ih =>
      cases right with
      | nil => simp [commonLength]
      | cons other right =>
          have bounds := ih right
          rw [commonLength, List.length_cons, List.length_cons]
          split <;> omega

private theorem le_commonLength {left right : Bytes} {len : Nat}
    (same : left.take len = right.take len) (inside : len ≤ left.length) :
    len ≤ commonLength left right := by
  induction len generalizing left right with
  | zero => omega
  | succ len ih =>
      cases left with
      | nil => simp at inside
      | cons byte left =>
          cases right with
          | nil => simp at same
          | cons other right =>
              rw [List.take_succ_cons, List.take_succ_cons, List.cons.injEq] at same
              rw [commonLength, if_pos same.1]
              exact Nat.succ_le_succ (ih same.2 (Nat.le_of_succ_le_succ inside))

/-- A match: a part of the base that the rest of the target starts with. -/
structure Matches (base rest : Bytes) (candidate len : Nat) : Prop where
  inBase : candidate + len ≤ base.length
  positive : 1 ≤ len
  starts : (base.drop candidate).take len = rest.take len
  inRest : len ≤ rest.length

private theorem matches_candidate {base rest : Bytes} {candidate : Nat}
    (long : blockSize ≤ rest.length)
    (same : (base.drop candidate).take blockSize = rest.take blockSize) :
    Matches base rest candidate (commonLength (base.drop candidate) rest) := by
  have bounds := commonLength_le (base.drop candidate) rest
  have size : blockSize = 16 := rfl
  have full : blockSize ≤ (base.drop candidate).length := by
    have lengths := congrArg List.length same
    rw [List.length_take, List.length_take] at lengths
    omega
  have atLeast := le_commonLength same full
  have dropped := base.length_drop (i := candidate)
  exact {
    inBase := by omega
    positive := by omega
    starts := take_commonLength _ _
    inRest := bounds.2 }

theorem matches_of_bestMatch {base rest : Bytes} {candidate len : Nat}
    (found : bestMatch base rest = some (candidate, len)) :
    Matches base rest candidate len := by
  rw [bestMatch] at found
  split at found
  · cases found
  · next long =>
    have keeps : ∀ (candidates : List Nat) (best : Option (Nat × Nat)),
        (∀ match_, best = some match_ → Matches base rest match_.1 match_.2) →
        ∀ match_, candidates.foldl (fun best candidate =>
          if (base.drop candidate).take blockSize ≠ rest.take blockSize then best
          else
            let len := commonLength (base.drop candidate) rest
            if best.all fun found => decide (found.2 < len) then some (candidate, len)
            else best) best = some match_ → Matches base rest match_.1 match_.2 := by
      intro candidates
      induction candidates with
      | nil => exact fun best holds => holds
      | cons position candidates ih =>
          intro best holds
          rw [List.foldl_cons]
          apply ih
          intro match_ chosen
          split at chosen
          · exact holds match_ chosen
          · next same =>
            dsimp only at chosen
            split at chosen
            · cases chosen
              exact matches_candidate (by omega) (not_not.mp same)
            · exact holds match_ chosen
    exact keeps _ none nofun _ found

/-- Extending a match backwards takes bytes off the pending literals that the
base has just before the match. -/
private theorem extended_match {base literals rest : Bytes} {candidate len : Nat}
    (found : Matches base rest candidate len) :
    let back := commonLength (base.take candidate).reverse literals.reverse
    back ≤ candidate ∧
      literals.take (literals.length - back) ++
        (base.drop (candidate - back)).take (len + back) = literals ++ rest.take len := by
  intro back
  have bounds := commonLength_le (base.take candidate).reverse literals.reverse
  rw [List.length_reverse, List.length_reverse, List.length_take] at bounds
  have inBase := found.inBase
  have le : back ≤ candidate := by omega
  refine ⟨le, ?_⟩
  have agree := take_commonLength (base.take candidate).reverse literals.reverse
  rw [List.take_reverse, List.take_reverse] at agree
  have tail := List.reverse_injective agree
  rw [List.length_take, Nat.min_eq_left (by omega)] at tail
  have before : (base.drop (candidate - back)).take back =
      literals.drop (literals.length - back) := by
    rw [← tail, List.drop_take]
    congr 1
    omega
  have copied : (base.drop (candidate - back)).take (len + back) =
      literals.drop (literals.length - back) ++ rest.take len := by
    rw [Nat.add_comm len back, List.take_add, before, List.drop_drop,
      Nat.sub_add_cancel le, found.starts]
  rw [copied, ← List.append_assoc, List.take_append_drop]

theorem Appends.encoded {base : Bytes} (addressed : base.length < 2 ^ 32) {rounds : Nat}
    {rest : Bytes} (enough : rest.length ≤ rounds) (literals : Bytes) :
    Appends base (encodeRest base rounds literals rest) (literals ++ rest) := by
  induction rounds generalizing literals rest with
  | zero =>
      obtain rfl : rest = [] := List.eq_nil_of_length_eq_zero (by omega)
      rw [encodeRest, List.append_nil]
      exact inserts literals
  | succ rounds ih =>
      cases rest with
      | nil =>
          rw [encodeRest, List.append_nil]
          exact inserts literals
      | cons byte others =>
          rw [List.length_cons] at enough
          rw [encodeRest]
          cases found : bestMatch base (byte :: others) with
          | none =>
              have later := @ih others (by omega) (literals ++ [byte])
              rwa [List.append_assoc] at later
          | some chosen =>
              obtain ⟨candidate, len⟩ := chosen
              have isMatch := matches_of_bestMatch found
              have inBase := isMatch.inBase
              have positive := isMatch.positive
              obtain ⟨le, same⟩ := @extended_match base literals _ _ _ isMatch
              have dropped : ((byte :: others).drop len).length ≤ rounds := by
                rw [List.length_drop, List.length_cons]
                omega
              have target : literals ++ byte :: others =
                  literals ++ (byte :: others).take len ++ (byte :: others).drop len := by
                rw [List.append_assoc, List.take_append_drop]
              rw [target, ← same]
              exact ((inserts _).append (copies addressed (by omega) (by omega))).append
                (ih dropped [])

theorem applyDelta_encodeDelta {base target : Bytes} (addressed : base.length < 2 ^ 32)
    (sized : target.length < 2 ^ 42) :
    ∃ delta, encodeDelta base target = some delta ∧ applyDelta base delta = .ok target := by
  have fits : baseTooLarge base.length = false := by
    rw [baseTooLarge, decide_eq_false_iff_not]
    omega
  refine ⟨_, by rw [encodeDelta, fits, if_neg Bool.false_ne_true], ?_⟩
  have stream := Appends.encoded addressed (Nat.le_refl target.length) [] [] []
  rw [List.append_nil, List.nil_append, List.nil_append, applyAll_nil] at stream
  rw [applyDelta, List.append_assoc, readSize_pushSize (by omega), ok_bind]
  dsimp only
  rw [if_neg (not_not.mpr rfl), readSize_pushSize sized, ok_bind]
  show (applyAll base [] _ >>= _) = _
  rw [stream, ok_bind, if_neg (not_not.mpr rfl)]

/-- How applying a delta ends without a result: it is refused with an error,
or it is stuck, with a slice that reaches outside its string or with rounds
that do not suffice. -/
inductive ApplyFault where
  | refused (reason : String)
  | stuck

/-- `&bytes[start..stop]`. -/
def slice (bytes : Bytes) (start stop : Nat) : Except ApplyFault Bytes :=
  if start ≤ stop ∧ stop ≤ bytes.length then .ok ((bytes.drop start).take (stop - start))
  else .error .stuck

def applyInstructionSlicing (base : Bytes) (command : UInt8) (delta : Bytes) :
    Except ApplyFault (Bytes × Bytes) :=
  if 128 ≤ command.toNat then do
    let (offset, rest) ← (readOperand command.toNat 0 4 0 delta).mapError .refused
    let (size, rest) ← (readOperand command.toNat 4 3 0 rest).mapError .refused
    let size := if size = 0 then maxCopy else size
    if base.length < offset + size then .error (.refused "delta copy out of bounds")
    else do
      let copied ← slice base offset (offset + size)
      .ok (copied, rest)
  else if command ≠ 0 then
    if delta.length < command.toNat then .error (.refused "truncated delta insert")
    else do
      let inserted ← slice delta 0 command.toNat
      let rest ← slice delta command.toNat delta.length
      .ok (inserted, rest)
  else .error (.refused "delta opcode 0 is reserved")

def applyRestSlicing (base : Bytes) : Nat → Bytes → Bytes → Except ApplyFault Bytes
  | _, output, [] => .ok output
  | 0, _, _ :: _ => .error .stuck
  | rounds + 1, output, command :: delta => do
      let (appended, rest) ← applyInstructionSlicing base command delta
      applyRestSlicing base rounds (output ++ appended) rest

/-- Applying a delta with every slice checked against its string. -/
def applyDeltaSlicing (base delta : Bytes) : Except ApplyFault Bytes := do
  let (baseSize, delta) ← (readSize delta).mapError .refused
  if baseSize ≠ base.length then
    .error (.refused s!"delta base size {baseSize} != {base.length}")
  else
    let (targetSize, delta) ← (readSize delta).mapError .refused
    let output ← applyRestSlicing base delta.length [] delta
    if output.length ≠ targetSize then
      .error (.refused s!"delta produced {output.length} bytes, expected {targetSize}")
    else .ok output

private theorem mapError_bind {failure other α β : Type} {relabel : failure → other}
    {action : Except failure α} {next : α → Except failure β} {relabelled : α → Except other β}
    (same : ∀ value, relabelled value = (next value).mapError relabel) :
    (action.mapError relabel >>= relabelled) = (action >>= next).mapError relabel := by
  cases action with
  | error reason => rfl
  | ok value => exact same value

private theorem slice_inside {bytes : Bytes} {start stop : Nat} (order : start ≤ stop)
    (inside : stop ≤ bytes.length) :
    slice bytes start stop = .ok ((bytes.drop start).take (stop - start)) :=
  if_pos ⟨order, inside⟩

theorem applyInstructionSlicing_eq (base : Bytes) (command : UInt8) (delta : Bytes) :
    applyInstructionSlicing base command delta =
      (applyInstruction base command delta).mapError .refused := by
  rw [applyInstructionSlicing, applyInstruction]
  split
  · apply mapError_bind
    rintro ⟨offset, rest⟩
    apply mapError_bind
    rintro ⟨size, rest⟩
    dsimp only
    generalize (if size = 0 then maxCopy else size) = size
    split
    · rfl
    · next inside =>
      rw [slice_inside (by omega) (by omega), ok_bind, Nat.add_sub_cancel_left]
      rfl
  · split
    · split
      · rfl
      · next inside =>
        rw [slice_inside (by omega) (by omega), ok_bind, slice_inside (by omega) (by omega),
          ok_bind, ← List.length_drop, List.take_length]
        rfl
    · rfl

theorem applyRestSlicing_eq {base delta : Bytes} {rounds : Nat} (output : Bytes)
    (enough : delta.length ≤ rounds) :
    applyRestSlicing base rounds output delta =
      (applyRest base rounds output delta).mapError .refused := by
  induction rounds generalizing output delta with
  | zero =>
      obtain rfl : delta = [] := List.eq_nil_of_length_eq_zero (by omega)
      rfl
  | succ rounds ih =>
      cases delta with
      | nil => rfl
      | cons command delta =>
          rw [applyRestSlicing, applyRest, applyInstructionSlicing_eq]
          cases applied : applyInstruction base command delta with
          | error reason => rfl
          | ok result =>
              have shorter := applyInstruction_length applied
              rw [List.length_cons] at enough
              exact ih _ (by omega)

/-- No slice that is taken while a delta is applied reaches outside. -/
theorem applyDeltaSlicing_eq (base delta : Bytes) :
    applyDeltaSlicing base delta = (applyDelta base delta).mapError .refused := by
  rw [applyDeltaSlicing, applyDelta]
  apply mapError_bind
  rintro ⟨baseSize, rest⟩
  dsimp only
  split
  · rfl
  · apply mapError_bind
    rintro ⟨targetSize, stream⟩
    dsimp only
    rw [applyRestSlicing_eq [] (Nat.le_refl _)]
    apply mapError_bind
    intro output
    split <;> rfl

theorem length_of_applyDelta {base delta result : Bytes}
    (applied : applyDelta base delta = .ok result) :
    ∃ rest stream, readSize delta = .ok (base.length, rest) ∧
      readSize rest = .ok (result.length, stream) := by
  obtain ⟨⟨baseSize, rest⟩, baseRead, applied⟩ := bind_eq_ok.mp applied
  obtain ⟨baseFits, applied⟩ := guard_eq_ok.mp applied
  obtain ⟨⟨targetSize, stream⟩, targetRead, applied⟩ := bind_eq_ok.mp applied
  obtain ⟨output, _, applied⟩ := bind_eq_ok.mp applied
  obtain ⟨sized, ⟨⟩⟩ := guard_eq_ok.mp applied
  exact ⟨rest, stream, not_not.mp baseFits ▸ baseRead, not_not.mp sized ▸ targetRead⟩

/-- The delta codec restores every target, and on any other delta it either
refuses or gives a string of the declared length, always within its slices. -/
theorem deltaCodec_correct :
    (∀ base target : Bytes, base.length < 2 ^ 32 → target.length < 2 ^ 42 →
      ∃ delta, encodeDelta base target = some delta ∧ applyDelta base delta = .ok target) ∧
    ∀ base delta : Bytes,
      applyDeltaSlicing base delta = (applyDelta base delta).mapError .refused ∧
        ∀ result, applyDelta base delta = .ok result →
          ∃ rest stream, readSize delta = .ok (base.length, rest) ∧
            readSize rest = .ok (result.length, stream) :=
  ⟨fun _ _ addressed sized => applyDelta_encodeDelta addressed sized,
    fun base delta => ⟨applyDeltaSlicing_eq base delta, fun _ => length_of_applyDelta⟩⟩

private def twentyBytes : Bytes := (List.range 20).map UInt8.ofNat

/-- A target that repeats its base and goes on: one copy and one insert. -/
theorem deltaCodec_correct_sample :
    (encodeDelta twentyBytes (twentyBytes ++ [7]) = some [20, 21, 144, 20, 1, 7] ∧
      applyDelta twentyBytes [20, 21, 144, 20, 1, 7] = .ok (twentyBytes ++ [7])) ∧
    ∃ rest stream, readSize [20, 21, 144, 20, 1, 7] = .ok (20, rest) ∧
      readSize rest = .ok (21, stream) := by
  obtain ⟨delta, encoded, applied⟩ :=
    deltaCodec_correct.1 twentyBytes (twentyBytes ++ [7]) (by decide) (by decide)
  have known : encodeDelta twentyBytes (twentyBytes ++ [7]) = some [20, 21, 144, 20, 1, 7] := by
    decide +kernel
  cases encoded.symm.trans known
  exact ⟨⟨known, applied⟩, (deltaCodec_correct.2 twentyBytes _).2 _ applied⟩

end Acetone.Store

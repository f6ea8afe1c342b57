import Acetone.Graph.ConflictEntries
import Acetone.Graph.Mirroring

/-!
# Conflicts and their entries

An entry leaves out what the merged graph determines.  Within one merge it
therefore stands for one conflict, and clearing the keys that were written
drops the entries of their cells and no others.
-/

namespace Acetone.Graph.Entries

open Acetone.Lib Acetone.Model

/-- What a violation's entry leaves out is as the merged graph has it. -/
def Determined (merged : Manifest) (nodes : List (Bytes × NodeKey × NodeRecord))
    (stale : SortedMap Bytes GraphViolation) : GraphViolation → Prop
  | .danglingEdge key endpoint role =>
      ∃ edge, EdgeKey.decodeFwd key = .ok edge ∧ (Endpoint.of role edge).encode = .ok endpoint
  | .missingRequired _ _ => True
  | .wrongType key property declared actual =>
      ∃ node record decl, NodeKey.decode key = .ok node ∧ merged.nodes.get key = some record ∧
        (labelDefs merged.schema).get node.label = some decl ∧
        (property, declared, actual) ∈ typeViolations node record decl
  | .edgeWrongType key property declared actual =>
      ∃ edge record decl, EdgeKey.decodeFwd key = .ok edge ∧
        merged.edgesFwd.get key = some record ∧
        (relTypeDefs merged.schema).get edge.rtype = some decl ∧
        (property, declared, actual) ∈ relTypeViolations edge record decl
  | .staleDiscriminator key declared minted =>
      stale.get key = some (.staleDiscriminator key declared minted)
  | .uniqueViolation label property value members =>
      members = ((allClaims (labelDefs merged.schema) nodes).filter
        (·.1 = (label, property, value))).map Prod.snd

section

variable {base ours theirs merged : Manifest} {nodes : List (Bytes × NodeKey × NodeRecord)}
  {stale : SortedMap Bytes GraphViolation}

private theorem typeViolations_functional {node : NodeKey} {record : NodeRecord}
    {decl : LabelDef} {property : String} {declared left right : PropertyType}
    (isLeft : (property, declared, left) ∈ typeViolations node record decl)
    (isRight : (property, declared, right) ∈ typeViolations node record decl) : left = right := by
  have found := (mem_typeViolations.mp isLeft).2
  dsimp only at found
  have again := (mem_typeViolations.mp isRight).2
  dsimp only at again
  cases found.symm.trans again
  rfl

private theorem relTypeViolations_functional {edge : EdgeKey} {record : EdgeRecord}
    {decl : RelTypeDef} {property : String} {declared left right : PropertyType}
    (isLeft : (property, declared, left) ∈ relTypeViolations edge record decl)
    (isRight : (property, declared, right) ∈ relTypeViolations edge record decl) :
    left = right := by
  have found := (mem_relTypeViolations.mp isLeft).2
  dsimp only at found
  have again := (mem_relTypeViolations.mp isRight).2
  dsimp only at again
  cases found.symm.trans again
  rfl

/-- Two violations of one merge that say the same are the same. -/
private theorem Determined.unique {left right : GraphViolation}
    (isLeft : Determined merged nodes stale left) (isRight : Determined merged nodes stale right)
    (same : bareViolation left = bareViolation right) : left = right := by
  cases left with
  | danglingEdge key endpoint role =>
      cases right with
      | danglingEdge other otherEndpoint otherRole =>
          cases same
          obtain ⟨edge, decodes, encodes⟩ := isLeft
          obtain ⟨again, alsoDecodes, alsoEncodes⟩ := isRight
          cases decodes.symm.trans alsoDecodes
          cases encodes.symm.trans alsoEncodes
          rfl
      | _ => cases same
  | missingRequired key property =>
      cases right with
      | missingRequired other otherProperty =>
          cases same
          rfl
      | _ => cases same
  | wrongType key property declared actual =>
      cases right with
      | wrongType other otherProperty otherDeclared otherActual =>
          cases same
          obtain ⟨node, record, decl, decodes, isRow, isDecl, found⟩ := isLeft
          obtain ⟨again, alsoRecord, alsoDecl, alsoDecodes, alsoRow, isAlso, alsoFound⟩ := isRight
          cases decodes.symm.trans alsoDecodes
          cases isRow.symm.trans alsoRow
          cases isDecl.symm.trans isAlso
          rw [typeViolations_functional found alsoFound]
      | _ => cases same
  | edgeWrongType key property declared actual =>
      cases right with
      | edgeWrongType other otherProperty otherDeclared otherActual =>
          cases same
          obtain ⟨edge, record, decl, decodes, isRow, isDecl, found⟩ := isLeft
          obtain ⟨again, alsoRecord, alsoDecl, alsoDecodes, alsoRow, isAlso, alsoFound⟩ := isRight
          cases decodes.symm.trans alsoDecodes
          cases isRow.symm.trans alsoRow
          cases isDecl.symm.trans isAlso
          rw [relTypeViolations_functional found alsoFound]
      | _ => cases same
  | staleDiscriminator key declared minted =>
      cases right with
      | staleDiscriminator other otherDeclared otherMinted =>
          cases same
          exact Option.some.inj (isLeft.symm.trans isRight)
      | _ => cases same
  | uniqueViolation label property value members =>
      cases right with
      | uniqueViolation otherLabel otherProperty otherValue others =>
          cases same
          rw [Determined] at isLeft isRight
          rw [isLeft, isRight]
      | _ => cases same

private theorem determined_dangling {violations : List GraphViolation}
    (checked : danglingEdges base merged = .ok violations) {violation : GraphViolation}
    (member : violation ∈ violations) : Determined merged nodes stale violation := by
  obtain ⟨row, -, found, judged, inside⟩ := (mem_gather checked).mp member
  obtain ⟨edge, decodes, judged⟩ := bind_eq_ok.mp judged
  obtain ⟨role, -, reported, judged, isReported⟩ := (mem_gather judged).mp inside
  obtain ⟨endpoint, encodes, judged⟩ := bind_eq_ok.mp judged
  cases judged
  split at isReported
  · obtain rfl := List.mem_singleton.mp isReported
    exact ⟨edge, liftKey_eq_ok.mp decodes, liftKey_eq_ok.mp encodes⟩
  · cases isReported

private theorem determined_required {violation : GraphViolation}
    (member : violation ∈ missingRequiredOf base merged nodes) :
    Determined merged nodes stale violation := by
  obtain ⟨⟨key, node, record⟩, -, inside⟩ := List.mem_flatMap.mp member
  dsimp only at inside
  split at inside
  · cases inside
  · obtain ⟨property, -, reported⟩ := List.mem_filterMap.mp inside
    split at reported
    · cases reported
      trivial
    · cases reported

private theorem determined_typed (read : allNodes merged.nodes = .ok nodes)
    {violation : GraphViolation} (member : violation ∈ wrongTypes base merged nodes) :
    Determined merged nodes stale violation := by
  obtain ⟨⟨key, node, record⟩, isRow, inside⟩ := List.mem_flatMap.mp member
  dsimp only at inside
  split at inside
  · cases inside
  · next decl isDecl =>
      obtain ⟨⟨property, declared, actual⟩, found, reported⟩ := List.mem_filterMap.mp inside
      dsimp only at reported
      split at reported
      · cases reported
        obtain ⟨isRecord, decodes⟩ := (mem_allNodes read).mp isRow
        exact ⟨node, record, decl, decodes, isRecord, isDecl, found⟩
      · cases reported

private theorem determined_edgeTyped {violations : List GraphViolation}
    (checked : edgeWrongTypes base merged = .ok violations) {violation : GraphViolation}
    (member : violation ∈ violations) : Determined merged nodes stale violation := by
  rw [edgeWrongTypes] at checked
  split at checked
  · obtain ⟨⟨key, record⟩, isRow, found, judged, inside⟩ := (mem_gather checked).mp member
    obtain ⟨edge, decodes, judged⟩ := bind_eq_ok.mp judged
    split at judged
    · cases judged
      cases inside
    · next decl isDecl =>
        cases judged
        obtain ⟨⟨property, declared, actual⟩, breached, reported⟩ :=
          List.mem_filterMap.mp inside
        dsimp only at reported
        split at reported
        · cases reported
          exact ⟨edge, record, decl, liftKey_eq_ok.mp decodes, SortedMap.get_eq_some_iff.mpr isRow,
            isDecl, breached⟩
        · cases reported
  · cases checked
    cases member

private theorem determined_stale {fromOurs fromTheirs : List (Bytes × GraphViolation)}
    (scannedOurs : staleOf merged ours = .ok fromOurs)
    (scannedTheirs : staleOf merged theirs = .ok fromTheirs) {violation : GraphViolation}
    (member : violation ∈ (SortedMap.ofList (fromTheirs ++ fromOurs)).entries.map Prod.snd) :
    Determined merged nodes (SortedMap.ofList (fromTheirs ++ fromOurs)) violation := by
  obtain ⟨⟨key, report⟩, isEntry, rfl⟩ := List.mem_map.mp member
  have found := SortedMap.get_eq_some_iff.mpr isEntry
  have listed : (key, report) ∈ fromTheirs ++ fromOurs := by
    have last := found
    rw [SortedMap.get_ofList] at last
    obtain ⟨entry, isLast, same⟩ := Option.map_eq_some_iff.mp last
    obtain ⟨inside, isKey⟩ := key_of_lastFor Prod.fst isLast
    cases same
    cases isKey
    exact inside
  have shape : ∃ declared minted, report = .staleDiscriminator key declared minted := by
    rcases List.mem_append.mp listed with isTheirs | isOurs
    · obtain ⟨edge, -, -, shape⟩ := mem_staleOf scannedTheirs isTheirs
      exact ⟨_, _, shape⟩
    · obtain ⟨edge, -, -, shape⟩ := mem_staleOf scannedOurs isOurs
      exact ⟨_, _, shape⟩
  obtain ⟨declared, minted, rfl⟩ := shape
  exact found

private theorem determined_shared {violation : GraphViolation}
    (member : violation ∈ uniqueViolations base merged nodes) :
    Determined merged nodes stale violation := by
  obtain ⟨⟨⟨label, property, value⟩, members⟩, collide, reported⟩ := List.mem_filterMap.mp member
  dsimp only at reported
  split at reported
  · cases reported
    obtain ⟨grouped, -⟩ := List.mem_filter.mp collide
    obtain ⟨claim, -, same⟩ := List.mem_map.mp grouped
    cases same
    rfl
  · cases reported

private theorem violations_functional {violations : List GraphViolation}
    (validated : validateMerged base ours theirs merged = .ok violations)
    {left right : GraphViolation} (isLeft : left ∈ violations) (isRight : right ∈ violations)
    (same : bareViolation left = bareViolation right) : left = right := by
  simp only [validateMerged, bind_eq_ok] at validated
  obtain ⟨dangling, isDangling, nodes, read, typed, isTyped, stale, isStale, made⟩ := validated
  simp only [staleDiscriminators, bind_eq_ok] at isStale
  obtain ⟨fromOurs, scannedOurs, fromTheirs, scannedTheirs, isReport⟩ := isStale
  cases isReport
  cases made
  have each : ∀ violation ∈ dangling ++ missingRequiredOf base merged nodes ++
      wrongTypes base merged nodes ++ typed ++
      (SortedMap.ofList (fromTheirs ++ fromOurs)).entries.map Prod.snd ++
      uniqueViolations base merged nodes,
      Determined merged nodes (SortedMap.ofList (fromTheirs ++ fromOurs)) violation := by
    intro violation member
    simp only [List.mem_append] at member
    rcases member with ((((isHere | isHere) | isHere) | isHere) | isHere) | isHere
    · exact determined_dangling isDangling isHere
    · exact determined_required isHere
    · exact determined_typed read isHere
    · exact determined_edgeTyped isTyped isHere
    · exact determined_stale scannedOurs scannedTheirs isHere
    · exact determined_shared isHere
  exact (each left isLeft).unique (each right isRight) same

end

private theorem conflicting_unique {V : Type} {base ours theirs : SortedMap Bytes V}
    {left right : Conflict Bytes V} (isLeft : Conflicting base ours theirs left)
    (isRight : Conflicting base ours theirs right) (same : left.key = right.key) :
    left = right := by
  obtain ⟨leftBase, leftOurs, leftTheirs, -⟩ := isLeft
  obtain ⟨rightBase, rightOurs, rightTheirs, -⟩ := isRight
  cases left
  cases right
  cases same
  cases leftBase.trans rightBase.symm
  cases leftOurs.trans rightOurs.symm
  cases leftTheirs.trans rightTheirs.symm
  rfl

private theorem disputed_unique {R : Type} {rules : CellRules R} {cells : R → Properties}
    {base ours theirs : SortedMap Bytes R} {left right : CellConflict}
    (isLeft : Disputed rules cells base ours theirs left)
    (isRight : Disputed rules cells base ours theirs right) (sameKey : left.key = right.key)
    (sameProperty : left.property = right.property) : left = right := by
  cases isLeft with
  | whole conflicting _ =>
      cases isRight with
      | whole also _ => rw [conflicting_unique conflicting also sameKey]
      | property => cases sameProperty
  | @property conflict leftRecord rightRecord cell conflicting isOurs isTheirs disputed =>
      cases isRight with
      | whole => cases sameProperty
      | @property again _ _ other also alsoOurs alsoTheirs alsoDisputed =>
          obtain rfl := conflicting_unique conflicting also sameKey
          cases isOurs.symm.trans alsoOurs
          cases isTheirs.symm.trans alsoTheirs
          obtain ⟨isBase, here, there, -⟩ := disputed
          obtain ⟨alsoBase, alsoHere, alsoThere, -⟩ := alsoDisputed
          have property : cell.property = other.property := Option.some.inj sameProperty
          rw [← property] at alsoBase alsoHere alsoThere
          rw [cellConflict, cellConflict, isBase, here, there, alsoBase, alsoHere, alsoThere,
            property]

private theorem disputed_map {R : Type} {rules : CellRules R} {cells : R → Properties}
    {base ours theirs : SortedMap Bytes R} {cell : CellConflict}
    (disputed : Disputed rules cells base ours theirs cell) : cell.map = rules.map := by
  cases disputed <;> rfl

section

variable {base ours theirs : Manifest}

private theorem cells_functional {left right : CellConflict}
    (isLeft : DisputedIn base ours theirs left) (isRight : DisputedIn base ours theirs right)
    (sameMap : left.map = right.map) (sameKey : left.key = right.key)
    (sameProperty : left.property = right.property) : left = right := by
  cases isLeft with
  | schema conflict conflicting isCell =>
      cases isRight with
      | schema other also isOther =>
          cases isCell
          cases isOther
          rw [conflicting_unique conflicting also sameKey]
      | nodes disputed =>
          cases isCell
          cases sameMap.trans (disputed_map disputed)
      | edges disputed =>
          cases isCell
          cases sameMap.trans (disputed_map disputed)
  | nodes disputed =>
      cases isRight with
      | schema other also isOther =>
          cases isOther
          cases (disputed_map disputed).symm.trans sameMap
      | nodes also => exact disputed_unique disputed also sameKey sameProperty
      | edges also => cases (disputed_map disputed).symm.trans (sameMap.trans (disputed_map also))
  | edges disputed =>
      cases isRight with
      | schema other also isOther =>
          cases isOther
          cases (disputed_map disputed).symm.trans sameMap
      | nodes also => cases (disputed_map disputed).symm.trans (sameMap.trans (disputed_map also))
      | edges also => exact disputed_unique disputed also sameKey sameProperty

end

section

variable {found : List MergeConflict} {entries : KeySet Bytes}

theorem get_buildConflictsMap (built : buildConflictsMap found = .ok entries) (key : Bytes) :
    entries.get key = some () ↔ ∃ conflict ∈ found, entryKey conflict = key := by
  rw [buildConflictsMap] at built
  split at built
  · cases built
  · cases built
    rw [KeySet.get_ofKeys, List.mem_map]

theorem storable_of_build (built : buildConflictsMap found = .ok entries)
    {conflict : MergeConflict} (isFound : conflict ∈ found) : Storable (entryKey conflict) := by
  rw [buildConflictsMap] at built
  split at built
  · cases built
  · next none =>
      obtain ⟨key, listed, same⟩ := exists_mem_sortDedupe (id : Bytes → Bytes)
        (List.mem_map_of_mem isFound)
      have short := List.find?_eq_none.mp none key listed
      have isEntry : key = entryKey conflict := same
      rw [isEntry] at short
      exact Nat.le_of_not_lt (of_decide_eq_false (Bool.eq_false_iff.mpr short))

/-- Where an entry is of a cell, the cell's key was written. -/
def Written (found : List MergeConflict) (written : List (ConflictMap × Bytes)) (key : Bytes) :
    Prop :=
  ∃ cell, .cell cell ∈ found ∧ entryKey (.cell cell) = key ∧ (cell.map, cell.key) ∈ written

private theorem written_iff (built : buildConflictsMap found = .ok entries)
    {conflict : MergeConflict} (isFound : conflict ∈ found)
    (written : List (ConflictMap × Bytes)) :
    (written.map fun pair => cellKeyPrefix pair.1 pair.2).any
        (fun start => start.isPrefixOf (entryKey conflict)) = true ↔
      Written found written (entryKey conflict) := by
  simp only [List.any_map, List.any_eq_true, Function.comp_apply, List.isPrefixOf_iff_prefix]
  constructor
  · rintro ⟨⟨map, key⟩, isWritten, starts⟩
    cases conflict with
    | cell cell =>
        obtain ⟨rfl, rfl⟩ := (cellKeyPrefix_isPrefix (storable_of_build built isFound)).mp starts
        exact ⟨cell, isFound, rfl, isWritten⟩
    | graph violation => exact absurd starts (not_cellKeyPrefix_isPrefix map key violation)
  · rintro ⟨cell, isCell, same, isWritten⟩
    refine ⟨_, isWritten, ?_⟩
    rw [← same]
    exact (cellKeyPrefix_isPrefix (storable_of_build built isCell)).mpr ⟨rfl, rfl⟩

private theorem getD_clearWritten (remaining : KeySet Bytes)
    (written : List (ConflictMap × Bytes)) (key : Bytes) :
    ((clearWritten remaining written).getD .empty).get key = some () ↔
      remaining.get key = some () ∧ ¬ (written.map fun pair => cellKeyPrefix pair.1 pair.2).any
        (fun start => start.isPrefixOf key) = true := by
  let cleared := remaining.keys.filter fun entry =>
    (written.map fun pair => cellKeyPrefix pair.1 pair.2).any fun start => start.isPrefixOf entry
  have reduced : ((clearWritten remaining written).getD .empty).get key =
      (remaining.applyAll (cleared.map .delete)).get key := by
    rw [clearWritten]
    split
    · next empty =>
        rw [SortedMap.get, SortedMap.get, List.isEmpty_iff.mp empty]
        rfl
    · rfl
  rw [reduced, SortedMap.get_applyAll_delete]
  split
  · next isCleared =>
      exact iff_of_false (by simp) fun both => both.2 (List.mem_filter.mp isCleared).2
  · next kept =>
      refine (and_iff_left_of_imp fun held starts => kept ?_).symm
      exact List.mem_filter.mpr ⟨SortedMap.mem_keys.mpr (KeySet.get_ne_none.mpr held), starts⟩

/-- Clearing drops the entries of the written cells from what remains. -/
theorem get_clearWritten (built : buildConflictsMap found = .ok entries)
    {remaining : KeySet Bytes}
    (within : ∀ key, remaining.get key = some () → entries.get key = some ())
    (written : List (ConflictMap × Bytes)) (key : Bytes) :
    ((clearWritten remaining written).getD .empty).get key = some () ↔
      remaining.get key = some () ∧ ¬ Written found written key := by
  rw [getD_clearWritten]
  apply and_congr_right
  intro held
  obtain ⟨conflict, isFound, rfl⟩ := (get_buildConflictsMap built key).mp (within key held)
  rw [written_iff built isFound written]

theorem clearWritten_eq_none {remaining : KeySet Bytes} {written : List (ConflictMap × Bytes)} :
    clearWritten remaining written = none ↔
      ∀ key, ((clearWritten remaining written).getD .empty).get key ≠ some () := by
  rw [clearWritten]
  split
  · exact iff_of_true rfl fun key held => by cases held
  · next some =>
      refine iff_of_false (by simp) fun none => ?_
      obtain ⟨⟨key, value⟩, others, same⟩ := List.exists_cons_of_ne_nil
        (fun empty => some (List.isEmpty_iff.mpr empty))
      refine none key (SortedMap.get_eq_some_iff.mpr ?_)
      rw [Option.getD_some, same]
      exact List.mem_cons_self

end

private theorem violations_of_merge {base ours theirs merged : Manifest}
    {found : List MergeConflict}
    (merges : mergeManifests base ours theirs = .ok (.conflicts merged found))
    {violation : GraphViolation} (isFound : .graph violation ∈ found) :
    ∃ violations, validateMerged base ours theirs merged = .ok violations ∧
      ∀ {other}, .graph other ∈ found → other ∈ violations := by
  simp only [mergeManifests, bind_eq_ok] at merges
  obtain ⟨edgesRev, -, indexes, -, rest⟩ := merges
  split at rest
  · cases rest
    obtain ⟨cell, -, isCell⟩ := List.mem_map.mp isFound
    cases isCell
  · obtain ⟨violations, validated, final⟩ := bind_eq_ok.mp rest
    split at final
    · cases final
      refine ⟨violations, validated, fun listed => ?_⟩
      obtain ⟨other, isOther, same⟩ := List.mem_map.mp listed
      cases same
      exact isOther
    · cases final

private theorem found_functional {base ours theirs merged : Manifest}
    {found : List MergeConflict}
    (merges : mergeManifests base ours theirs = .ok (.conflicts merged found))
    {entries : KeySet Bytes} (built : buildConflictsMap found = .ok entries)
    {left right : MergeConflict} (isLeft : left ∈ found) (isRight : right ∈ found)
    (same : entryKey left = entryKey right) : left = right := by
  have leftStorable := storable_of_build built isLeft
  have rightStorable := storable_of_build built isRight
  cases left with
  | cell left =>
      cases right with
      | cell right =>
          have isCell : ∀ {cell}, MergeConflict.cell cell ∈ found →
              DisputedIn base ours theirs cell := by
            intro cell isFound
            exact (mem_cells merges).mp (List.mem_filterMap.mpr ⟨_, isFound, rfl⟩)
          have cells := cellEntry_inj leftStorable rightStorable same
          rw [cells_functional (isCell isLeft) (isCell isRight) (congrArg ConflictCell.map cells)
            (congrArg ConflictCell.key cells) (congrArg ConflictCell.property cells)]
      | graph right => exact absurd (List.cons.inj same).1 (by decide)
  | graph left =>
      cases right with
      | cell right => exact absurd (List.cons.inj same).1 (by decide)
      | graph right =>
          obtain ⟨violations, validated, listed⟩ := violations_of_merge merges isLeft
          rw [violations_functional validated (listed isLeft) (listed isRight)
            (detail_inj leftStorable rightStorable (List.cons.inj same).2)]

/-- In the conflicts map of any merge, each entry is of one conflict and a cell's entry is
read back as that cell.  Clearing what was written, at any point afterwards, drops the
entries of the written cells and keeps all others, the markers among them. -/
theorem conflictEntries_exact (base ours theirs merged : Manifest) (found : List MergeConflict)
    (merges : mergeManifests base ours theirs = .ok (.conflicts merged found))
    (entries : KeySet Bytes) (built : buildConflictsMap found = .ok entries) :
    (∀ left ∈ found, ∀ right ∈ found, entryKey left = entryKey right → left = right) ∧
    (∀ key, entries.get key = some () ↔ ∃ conflict ∈ found, entryKey conflict = key) ∧
    (∀ cell, .cell cell ∈ found → decodeEntry (entryKey (.cell cell)) =
      .ok (some (.cell ⟨cell.map, cell.key, cell.property⟩))) ∧
    (∀ violation, .graph violation ∈ found →
      decodeEntry (entryKey (.graph violation)) = .ok none) ∧
    ∀ remaining : KeySet Bytes,
      (∀ key, remaining.get key = some () → entries.get key = some ()) → ∀ written,
        (∀ key, ((clearWritten remaining written).getD .empty).get key = some () ↔
          remaining.get key = some () ∧ ¬ Written found written key) ∧
        (clearWritten remaining written = none ↔
          ∀ key, remaining.get key = some () → Written found written key) := by
  refine ⟨?unique, get_buildConflictsMap built, ?cells, ?markers, ?cleared⟩
  case unique =>
    intro left isLeft right isRight same
    exact found_functional merges built isLeft isRight same
  case cells =>
    intro cell isCell
    exact decodeEntry_cellEntry (storable_of_build built isCell)
  case markers =>
    intro violation _
    exact decodeEntry_detail violation
  case cleared =>
    intro remaining within written
    have kept := get_clearWritten built within written
    refine ⟨kept, clearWritten_eq_none.trans ?_⟩
    apply forall_congr'
    intro key
    rw [Ne, kept key, not_and, not_not]

def mailsVersion (first second : String) : Manifest :=
  sampleVersion sampleSchema [(person 1, mailOf first), (person 2, mailOf second)] []

def mailsOutcome : ManifestMerge :=
  ((mergeManifests (mailsVersion "a" "b") (mailsVersion "c" "d")
    (mailsVersion "e" "f")).toOption).getD (.clean (mailsVersion "a" "b"))

/-- Two disputed mails, of which the first is written. -/
theorem conflictEntries_exact_sample :
    ∃ first second entries, mailsOutcome.cells = [first, second] ∧
      buildConflictsMap [.cell first, .cell second] = .ok entries ∧
      decodeEntry (entryKey (.cell first)) =
        .ok (some (.cell ⟨first.map, first.key, first.property⟩)) ∧
      ∀ key, ((clearWritten entries [(first.map, first.key)]).getD .empty).get key = some () ↔
        key = entryKey (.cell second) := by
  have merges : mergeManifests (mailsVersion "a" "b") (mailsVersion "c" "d")
      (mailsVersion "e" "f") =
        .ok (.conflicts mailsOutcome.merged (mailsOutcome.cells.map .cell)) := by decide +kernel
  have built : buildConflictsMap (mailsOutcome.cells.map .cell) =
      .ok (.ofKeys ((mailsOutcome.cells.map .cell).map entryKey)) := by decide +kernel
  have two : mailsOutcome.cells.length = 2 := by decide +kernel
  have distinct : (mailsOutcome.cells.map CellConflict.key).Nodup := by decide +kernel
  obtain ⟨first, second, both⟩ := List.length_eq_two.mp two
  have whole := conflictEntries_exact _ _ _ _ _ merges _ built
  rw [both] at built distinct whole
  have other : first.key ≠ second.key := by simpa using distinct
  refine ⟨first, second, _, both, built, whole.2.2.1 first (by simp), fun key => ?_⟩
  rw [(whole.2.2.2.2 _ (fun _ listed => listed) [(first.map, first.key)]).1, whole.2.1]
  constructor
  · rintro ⟨⟨conflict, isFound, rfl⟩, kept⟩
    rcases List.mem_pair.mp isFound with rfl | rfl
    · exact absurd ⟨first, isFound, rfl, List.mem_singleton_self _⟩ kept
    · rfl
  · rintro rfl
    refine ⟨⟨.cell second, by simp, rfl⟩, ?_⟩
    rintro ⟨cell, isFound, same, isWritten⟩
    cases whole.1 (.cell cell) isFound (.cell second) (by simp) same
    exact other (congrArg Prod.snd (List.mem_singleton.mp isWritten)).symm

/-- Two persons, of whom one side deletes the second. -/
def pairVersion : Manifest :=
  sampleVersion sampleSchema [(person 1, mailOf "a"), (person 2, mailOf "b")] []

theorem knows_checked : checkEdgeKey "Knows" .null = .ok () := rfl

def knows : EdgeKey := ⟨person 1, "Knows", person 2, .null, knows_checked⟩

def knowsKey : Bytes := knows.encodeFwd.toOption.getD []

def danglingKnows : MergeConflict :=
  .graph (.danglingEdge knowsKey ((person 2).encode.toOption.getD []) .dst)

/-- The marker of a dangling edge stays where the edge itself is written. -/
theorem marker_not_cleared :
    ∃ merged entries,
      mergeManifests pairVersion sampleOursVersion sampleBaseVersion =
        .ok (.conflicts merged [danglingKnows]) ∧
      buildConflictsMap [danglingKnows] = .ok entries ∧
      ((clearWritten entries [(.edges, knowsKey)]).getD .empty).get (entryKey danglingKnows) =
        some () := by
  refine ⟨sampleVersion sampleSchema [(person 1, mailOf "a")] [(knows, ⟨.empty⟩)],
    .ofKeys [entryKey danglingKnows], ?_, ?_, ?_⟩
  · decide +kernel
  · decide +kernel
  · decide +kernel

end Acetone.Graph.Entries

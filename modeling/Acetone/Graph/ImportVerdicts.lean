import Acetone.Graph.TrackerCongruence
import Acetone.Graph.Validity

/-!
# The verdicts of an import

An import claims for the stored nodes and then applies batch after batch, as
long as none is refused.  The tables describe the nodes after every call, and a
batch is refused as the check of the nodes it leaves would refuse it, or because
the numbers run out.
-/

namespace Acetone.Graph

open Acetone.Lib Acetone.Model

namespace UniqueTracker

/-- Claim calls on a new tracker, with the nodes that they were made for. -/
inductive Claims (labels : SortedMap String LabelDef) (active : Bool) :
    UniqueTracker → NodeMap → Prop
  | start : Claims labels active ⟨[], [], [], .empty, active⟩ .empty
  | claim {tracker next : UniqueTracker} {nodes : NodeMap} {key : NodeKey} {record : NodeRecord}
      {own : Bytes} {imported : Bool} {touched : List Nat} : Claims labels active tracker nodes →
      key.encode = .ok own → tracker.claim labels key record imported = .ok (touched, next) →
      Claims labels active next (nodes.put own record)

/-- The calls of an import: the stored nodes, then the batches that were not refused, with all
that they put. -/
inductive Imports (labels : SortedMap String LabelDef) (stored : NodeMap) :
    List (NodeKey × NodeRecord) → UniqueTracker → NodeMap → Prop
  | seeded {tracker : UniqueTracker} : seed labels stored = .ok tracker →
      Imports labels stored [] tracker stored
  | applied {put puts : List (NodeKey × NodeRecord)} {tracker next : UniqueTracker}
      {nodes : NodeMap} {surviving : SortedMap Bytes (NodeKey × NodeRecord)} :
      Imports labels stored put tracker nodes → survivors puts = .ok surviving →
      tracker.applyBatch labels puts = .ok ([], next) →
      Imports labels stored (put ++ puts) next (written nodes surviving)

def Made (labels : SortedMap String LabelDef) (stored : NodeMap)
    (puts : List (NodeKey × NodeRecord)) (own : Bytes) (claim : UniqueClaim) : Prop :=
  Holds labels stored own claim ∨
    ∃ put ∈ puts, put.1.encode = .ok own ∧ claim ∈ claimsOf labels put.1 put.2

section

variable {labels : SortedMap String LabelDef} {stored nodes : NodeMap}
  {put puts : List (NodeKey × NodeRecord)} {tracker next : UniqueTracker}

theorem Claims.describes {active : Bool} (claims : Claims labels active tracker nodes) :
    Describes labels tracker nodes := by
  induction claims with
  | start => exact describes_nothing active (.inl rfl)
  | claim _ encodes claims ih => exact (ih.claim encodes claims).1

theorem Imports.tracks (imports : Imports labels stored put tracker nodes) :
    Tracks labels tracker nodes := by
  induction imports with
  | seeded seeds => exact seed_tracks seeds
  | applied _ made clean ih => exact (ih.applyBatch clean made).2.2 rfl

variable {held : Bytes → UniqueClaim → Prop}

private theorem within_seed (bounds : Enumerated held) (seeds : seed labels stored = .ok tracker)
    (isHeld : ∀ own claim, Holds labels stored own claim → held own claim) :
    Within held tracker := by
  rw [seed] at seeds
  dsimp only at seeds
  split at seeds
  · cases seeds
    exact within_nothing _
  · refine foldlM_invariant ?_ (within_nothing _) seeds
    intro tracker row isRow next isWithin seeds
    obtain ⟨node, touched, decodes, claims⟩ := seedRow_eq seeds
    obtain ⟨numbers, last, again, lastWithin⟩ := @claim_total held tracker labels bounds isWithin
      node row.2 row.1 false (NodeKey.encode_of_decode decodes) (by
        intro claim isClaim
        exact isHeld row.1 claim
          ⟨row.2, node, SortedMap.get_eq_some_iff.mpr isRow, decodes, isClaim⟩)
    rw [again] at claims
    cases claims
    exact lastWithin

private theorem applyBatch_judges (bounds : Enumerated held) (isWithin : Within held tracker)
    {surviving : SortedMap Bytes (NodeKey × NodeRecord)} (made : survivors puts = .ok surviving)
    (isHeld : ∀ put ∈ puts, ∀ own, put.1.encode = .ok own →
      ∀ claim ∈ claimsOf labels put.1 put.2, held own claim) :
    ∃ violations next, tracker.applyBatch labels puts = .ok (violations, next) ∧
      Within held next := by
  obtain ⟨violations, touched, next, claims, nextWithin⟩ :=
    @claimBatch_total held tracker labels bounds (surviving.entries.map Prod.snd) isWithin (by
      intro put member
      obtain ⟨row, isRow, rfl⟩ := List.mem_map.mp member
      have found := SortedMap.get_eq_some_iff.mpr isRow
      have encodes := survivors_encode made found
      exact ⟨row.1, encodes, isHeld row.2 (mem_of_survivors made found) row.1 encodes⟩)
  refine ⟨violations ++ (touched.mergeSort.dedup).filterMap next.collision, next, ?_, nextWithin⟩
  rw [UniqueTracker.applyBatch, made, ok_bind, claims, ok_bind]

private theorem Imports.within (imports : Imports labels stored put tracker nodes)
    (bounds : Enumerated held)
    (isHeld : ∀ own claim, Made labels stored put own claim → held own claim) :
    Within held tracker := by
  induction imports with
  | seeded seeds => exact within_seed bounds seeds fun own claim holds => isHeld own claim (.inl holds)
  | @applied put puts tracker next nodes surviving _ made clean ih =>
      have isWithin := ih fun own claim isMade => isHeld own claim (isMade.imp_right (by
        rintro ⟨node, member, isNode⟩
        exact ⟨node, List.mem_append_left _ member, isNode⟩))
      obtain ⟨violations, last, again, lastWithin⟩ := applyBatch_judges bounds isWithin made (by
        intro node member own encodes claim isClaim
        exact isHeld own claim (.inr ⟨node, List.mem_append_right _ member, encodes, isClaim⟩))
      rw [clean] at again
      cases again
      exact lastWithin

/-- The tables describe the nodes after any claim calls and after every batch of an import.  A
batch that is judged is reported exactly if the check of the nodes it leaves, with the batch in
focus, reports an existence or UNIQUE violation; one that is not judged has a key without an
encoding or exceeds the numbers. -/
theorem tracker_congruent (named : ∀ label decl, labels.get label = some decl → decl.unique.Nodup) :
    (∀ active tracker nodes, Claims labels active tracker nodes → Describes labels tracker nodes) ∧
      ∀ stored put tracker nodes puts, Imports labels stored put tracker nodes →
        Describes labels tracker nodes ∧
        (∀ surviving violations next, survivors puts = .ok surviving →
          tracker.applyBatch labels puts = .ok (violations, next) →
          Describes labels next (written nodes surviving) ∧
            ∀ rows, allNodes (written nodes surviving) = .ok rows →
              (violations ≠ [] ↔ ∃ violation ∈ checkNodes labels rows (some surviving.keys),
                ¬ violation.isTypeBreach)) ∧
        ∀ cause, tracker.applyBatch labels puts = .error cause →
          (∃ put ∈ puts, ∀ own, put.1.encode ≠ .ok own) ∨
            ¬ Enumerated (Made labels stored (put ++ puts)) := by
  refine ⟨fun active tracker nodes claims => claims.describes, ?_⟩
  intro stored put tracker nodes puts imports
  refine ⟨imports.tracks.describes, ?_, ?_⟩
  · intro surviving violations next made judges
    obtain ⟨describes, reported, -⟩ := imports.tracks.applyBatch judges made
    refine ⟨describes, fun rows reads => ?_⟩
    rw [reported, checkNodes_breached named reads]
  · intro cause refuses
    by_contra fits
    push Not at fits
    obtain ⟨encode, bounds⟩ := fits
    obtain ⟨surviving, made⟩ := survivors_total encode
    have isWithin := imports.within bounds (by
      intro own claim isMade
      exact isMade.imp_right fun ⟨node, member, isNode⟩ =>
        ⟨node, List.mem_append_left _ member, isNode⟩)
    obtain ⟨violations, next, judges, -⟩ := @applyBatch_judges labels puts tracker _ bounds isWithin
      surviving made (by
        intro node member own encodes claim isClaim
        exact .inr ⟨node, List.mem_append_right _ member, encodes, isClaim⟩)
    rw [refuses] at judges
    cases judges

end

def people : SortedMap String LabelDef := .ofList [("Person", personLabel)]

private theorem people_named : ∀ label decl, people.get label = some decl → decl.unique.Nodup := by
  intro label decl declared
  have listed := SortedMap.get_eq_some_iff.mp declared
  rw [show people.entries = [("Person", personLabel)] by decide +kernel, List.mem_singleton,
    Prod.mk.injEq] at listed
  rw [listed.2]
  exact List.nodup_singleton _

private theorem ok_getD {failure α : Type} {result : Except failure α} (other : α)
    (isOk : result.isOk = true) : result = .ok (result.toOption.getD other) := by
  cases result with
  | error cause => cases isOk
  | ok value => rfl

def mailedOnce : NodeMap := .ofList [((person 1).encode.toOption.getD [], mailOf "a")]

def mailedTwice : List (NodeKey × NodeRecord) := [(person 2, mailOf "a")]

def mailedTracker : UniqueTracker :=
  (seed people mailedOnce).toOption.getD ⟨[], [], [], .empty, false⟩

def mailedJudged : List ConstraintViolation × UniqueTracker :=
  (mailedTracker.applyBatch people mailedTwice).toOption.getD ([], mailedTracker)

def mailedSurviving : SortedMap Bytes (NodeKey × NodeRecord) :=
  (survivors mailedTwice).toOption.getD .empty

def mailedRows : List (Bytes × NodeKey × NodeRecord) :=
  (allNodes (written mailedOnce mailedSurviving)).toOption.getD []

theorem tracker_congruent_people :
    ∃ violation ∈ checkNodes people mailedRows (some mailedSurviving.keys),
      ¬ violation.isTypeBreach := by
  have imports : Imports people mailedOnce [] mailedTracker mailedOnce :=
    .seeded (ok_getD _ (by decide +kernel))
  have made : survivors mailedTwice = .ok mailedSurviving := ok_getD _ (by decide +kernel)
  have judges : mailedTracker.applyBatch people mailedTwice =
      .ok (mailedJudged.1, mailedJudged.2) := ok_getD ([], mailedTracker) (by decide +kernel)
  have reads : allNodes (written mailedOnce mailedSurviving) = .ok mailedRows :=
    ok_getD _ (by decide +kernel)
  obtain ⟨-, verdicts, -⟩ := (tracker_congruent people_named).2 _ _ _ _ mailedTwice imports
  exact ((verdicts _ _ _ made judges).2 _ reads).mp (by decide +kernel)

def claimedTracker : List Nat × UniqueTracker :=
  (claim ⟨[], [], [], .empty, true⟩ people (person 1) (mailOf "a") false).toOption.getD
    ([], mailedTracker)

def releasedTracker : List Nat × UniqueTracker :=
  (claimedTracker.2.claim people (person 1) (mailOf "b") true).toOption.getD ([], mailedTracker)

private theorem a_stores : storeValue (.string "a") 0 = .ok (.string "a") := by rfl

def releasedClaim : UniqueClaim := ("Person", "mail", ⟨.string "a", a_stores⟩)

def shortNames (count : Nat) : List String :=
  (List.range count).map fun index => String.singleton (Char.ofNat (65536 + index))

private theorem shortNames_nodup {count : Nat} (few : count ≤ 2 ^ 20) : (shortNames count).Nodup := by
  refine List.Nodup.map_on ?_ List.nodup_range
  intro first isFirst second isSecond same
  rw [List.mem_range] at isFirst isSecond
  have isPoint : ∀ index < count, (Char.ofNat (65536 + index)).toNat = 65536 + index := by
    intro index below
    have valid : (65536 + index).isValidChar := .inr ⟨by omega, by omega⟩
    rw [Char.ofNat, dif_pos valid]
    rfl
  have sameChar := congrArg Char.toNat (String.singleton_inj.mp same)
  rw [isPoint first isFirst, isPoint second isSecond] at sameChar
  omega

private theorem shortNames_apart {count : Nat} : ∀ name ∈ shortNames count, name ∉ ["id"] := by
  intro name member isKey
  obtain ⟨index, -, rfl⟩ := List.mem_map.mp member
  have sameLength := congrArg String.length (List.mem_singleton.mp isKey)
  rw [String.length_singleton] at sameLength
  revert sameLength
  decide

private theorem shortNames_length (count : Nat) : (shortNames count).length = count := by
  rw [shortNames, List.length_map, List.length_range]

def crowdSize : Nat := 2 ^ 16 + 1

private theorem crowd_nodup : (shortNames crowdSize).Nodup :=
  shortNames_nodup (by decide)

private theorem crowd_apart : ∀ name ∈ shortNames crowdSize, name ∉ ["id"] := shortNames_apart

private theorem crowd_keyed : ["id"] ≠ [] := List.cons_ne_nil _ _

private theorem crowd_distinct : ["id"].Nodup := List.nodup_singleton _

def crowdLabel : LabelDef :=
  ⟨["id"], false, .empty, [], shortNames crowdSize, crowd_keyed, crowd_distinct, crowd_apart⟩

def crowdLabels : SortedMap String LabelDef := SortedMap.empty.put "Crowd" crowdLabel

private theorem crowd_checked : checkNodeKey "Crowd" [.int 1] = .ok () := by rfl

def crowdNode : NodeKey := ⟨"Crowd", [.int 1], crowd_checked⟩

private theorem zero_stores : storeValue (.int 0) 0 = .ok (.int 0) := by rfl

def crowdRecord : NodeRecord :=
  ⟨∅, .ofList ((shortNames crowdSize).map fun name => (name, ⟨.int 0, zero_stores⟩))⟩

private theorem crowd_unique : crowdLabel.unique = shortNames crowdSize := by
  rw [crowdLabel]

private theorem crowd_properties : crowdRecord.properties =
    .ofList ((shortNames crowdSize).map fun name => (name, ⟨.int 0, zero_stores⟩)) := by
  rw [crowdRecord]

private theorem crowd_declared : crowdLabels.get "Crowd" = some crowdLabel :=
  (SortedMap.get_put _ _ _ _).trans (if_pos rfl)

private theorem crowd_only {label : String} {decl : LabelDef}
    (declared : crowdLabels.get label = some decl) : decl = crowdLabel := by
  rw [crowdLabels, SortedMap.get_put] at declared
  split at declared
  · exact (Option.some.inj declared).symm
  · cases declared

private theorem crowd_named (label : String) (decl : LabelDef)
    (declared : crowdLabels.get label = some decl) : decl.unique.Nodup := by
  rw [crowd_only declared, crowd_unique]
  exact crowd_nodup

private theorem get_constant {V : Type} (names : List String) (value : V) {name : String}
    (member : name ∈ names) :
    (SortedMap.ofList (names.map fun name => (name, value))).get name = some value := by
  refine (SortedMap.get_ofList_eq_some ?_).mpr (List.mem_map.mpr ⟨name, member, rfl⟩)
  intro first isFirst second isSecond _
  obtain ⟨_, -, rfl⟩ := List.mem_map.mp isFirst
  obtain ⟨_, -, rfl⟩ := List.mem_map.mp isSecond
  rfl

private theorem crowd_claims {node : NodeKey} (isCrowd : node.label = "Crowd") {name : String}
    (member : name ∈ shortNames crowdSize) :
    ("Crowd", name, ⟨.int 0, zero_stores⟩) ∈ claimsOf crowdLabels node crowdRecord := by
  refine mem_claimsOf.mpr ⟨crowdLabel, isCrowd ▸ crowd_declared, isCrowd.symm, ?_, ?_⟩
  · rw [crowd_unique]
    exact member
  · rw [crowd_properties]
    exact get_constant (shortNames crowdSize) _ member

private theorem crowd_lacks_nothing {decl : LabelDef} {node : NodeKey} {record : NodeRecord}
    (declared : crowdLabels.get node.label = some decl) : nodeViolations node record decl = [] := by
  rw [crowd_only declared]
  rfl

/-- No tracker numbers the claims of the crowd. -/
private theorem crowd_unnumbered {tracker : UniqueTracker} {nodes : NodeMap} {own : Bytes}
    {node : NodeKey} (limited : tracker.Limited) (describes : Describes crowdLabels tracker nodes)
    (found : nodes.get own = some crowdRecord) (decodes : NodeKey.decode own = .ok node) (isCrowd : node.label = "Crowd") : False := by
  have numbered : ∀ pair ∈ (shortNames crowdSize).map fun name => ("Crowd", name),
      pair ∈ tracker.pairs := by
    intro pair member
    obtain ⟨name, isName, rfl⟩ := List.mem_map.mp member
    obtain ⟨number, isNumber⟩ := describes.known
      ⟨crowdRecord, node, found, decodes, crowd_claims isCrowd isName⟩
    obtain ⟨place, -, isPair⟩ := claimAt_eq_some.mp isNumber
    exact List.mem_of_getElem? isPair
  have distinct : ((shortNames crowdSize).map fun name => ("Crowd", name)).Nodup :=
    crowd_nodup.map fun _ _ same => (Prod.mk.inj same).2
  have many := (distinct.subperm numbered).length_le
  have few := limited.pairs
  rw [List.length_map, shortNames_length, crowdSize] at many
  omega

/-- A number stays when its last owner lets go of it; and a batch whose pairs exceed the numbers
is refused, though the check has nothing to report. -/
theorem tracker_departs :
    (∃ tracker nodes claim, Claims people true tracker nodes ∧ tracker.numberOf claim = some 0 ∧
      ∀ own, ¬ Holds people nodes own claim) ∧
    ∃ tracker cause surviving rows, Imports crowdLabels .empty [] tracker .empty ∧
      tracker.applyBatch crowdLabels [(crowdNode, crowdRecord)] = .error cause ∧
      survivors [(crowdNode, crowdRecord)] = .ok surviving ∧
      allNodes (written .empty surviving) = .ok rows ∧
      checkNodes crowdLabels rows (some surviving.keys) = [] := by
  refine ⟨?_, ?_⟩
  · obtain ⟨own, encodes⟩ : ∃ own, (person 1).encode = .ok own :=
      ⟨_, ok_getD [] (by decide +kernel)⟩
    have first : claim ⟨[], [], [], .empty, true⟩ people (person 1) (mailOf "a") false =
        .ok (claimedTracker.1, claimedTracker.2) := ok_getD ([], mailedTracker) (by decide +kernel)
    have second : claimedTracker.2.claim people (person 1) (mailOf "b") true =
        .ok (releasedTracker.1, releasedTracker.2) :=
      ok_getD ([], mailedTracker) (by decide +kernel)
    refine ⟨releasedTracker.2, _, releasedClaim, .claim (.claim .start encodes first) encodes second,
      by decide +kernel, ?_⟩
    intro other holds
    rw [holds_put encodes] at holds
    split at holds
    · revert holds
      decide +kernel
    · next apart =>
        rw [holds_put encodes, if_neg apart] at holds
        obtain ⟨record, node, found, -⟩ := holds
        cases found
  · obtain ⟨own, encodes⟩ : ∃ own, crowdNode.encode = .ok own :=
      ⟨_, ok_getD [] (by decide +kernel)⟩
    obtain ⟨stored, decodes, sameLabel, -⟩ := NodeKey.decode_of_encode encodes
    obtain ⟨surviving, isBatch⟩ : ∃ surviving : SortedMap Bytes (NodeKey × NodeRecord),
        surviving = .ofList [(own, crowdNode, crowdRecord)] := ⟨_, rfl⟩
    have made : survivors [(crowdNode, crowdRecord)] = .ok surviving := by
      rw [isBatch]
      simp only [survivors, List.mapM_cons, List.mapM_nil, encodes, liftKey, ofGraphError,
        Except.mapError, ok_bind]
      rfl
    have only : ∀ {key record}, (written .empty surviving).get key = some record →
        key = own ∧ record = crowdRecord := by
      intro key record found
      rw [get_written] at found
      cases survives : surviving.get key with
      | none =>
          rw [survives] at found
          cases found
      | some put =>
          have isPut := List.mem_singleton.mp (mem_of_survivors made survives)
          have alsoEncodes := survivors_encode made survives
          rw [survives] at found
          cases found
          rw [isPut] at alsoEncodes ⊢
          rw [encodes, Except.ok.injEq] at alsoEncodes
          exact ⟨alsoEncodes.symm, rfl⟩
    obtain ⟨rows, reads⟩ : ∃ rows, allNodes (written .empty surviving) = .ok rows := by
      apply mapM_total
      rintro ⟨key, record⟩ member
      obtain ⟨rfl, -⟩ := only (SortedMap.get_eq_some_iff.mpr member)
      refine ⟨(key, stored, record), ?_⟩
      simp only [decodes, liftKey, ok_bind]
    obtain ⟨tracker, seeds⟩ : ∃ tracker, seed crowdLabels .empty = .ok tracker := by
      rw [seed]
      dsimp only
      split
      · exact ⟨_, rfl⟩
      · exact ⟨_, rfl⟩
    cases judged : tracker.applyBatch crowdLabels [(crowdNode, crowdRecord)] with
    | ok judgement =>
        obtain ⟨violations, next⟩ := judgement
        obtain ⟨describes, -⟩ := (seed_tracks seeds).applyBatch judged made
        have found : (written .empty surviving).get own = some crowdRecord := by
          rw [get_written, isBatch, SortedMap.get_ofList]
          simp [lastFor]
        exact (crowd_unnumbered (applyBatch_limited (seed_limited seeds) judged) describes found
          decodes sameLabel).elim
    | error cause =>
        refine ⟨tracker, cause, surviving, rows, .seeded seeds, judged, made, reads, ?_⟩
        have alone : ∀ row ∈ rows, row.1 = own := by
          rintro ⟨key, node, record⟩ member
          exact (only ((mem_allNodes reads).mp member).1).1
        have distinct : (rows.map Prod.fst).Nodup := by
          rw [allNodes_keys reads]
          exact (written .empty surviving).keys_nodup
        by_contra reported
        rcases (checkNodes_ne_nil distinct crowd_named).mp reported with
          ⟨row, -, -, decl, declared, breached⟩ | ⟨first, isFirst, second, isSecond, -, apart, -⟩
        · exact breached (crowd_lacks_nothing declared)
        · exact apart ((alone first isFirst).trans (alone second isSecond).symm)

end UniqueTracker

end Acetone.Graph

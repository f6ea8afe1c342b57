import Acetone.Lib.Interning
import Acetone.Graph.ConstraintUpkeep

/-!
# When the tracker of an import reports nothing

All that is registered stays within what some nodes claim.  If these nodes
share no claim and their claims fit the numbering, neither seeding nor a batch
of theirs fails or reports anything.
-/

namespace Acetone.Graph

open Acetone.Lib Acetone.Model

namespace UniqueTracker

def claimPair (claim : UniqueClaim) : String × String := (claim.1, claim.2.1)

def numberOf (tracker : UniqueTracker) (claim : UniqueClaim) : Option Nat :=
  (tracker.pairs.idxOf? (claim.1, claim.2.1)).bind fun pair =>
    tracker.claimKeys.idxOf? (pair, claim.2.2)

def Sized (tracker : UniqueTracker) : Prop :=
  tracker.owners.length = tracker.claimKeys.length

theorem numberOf_mono {tracker next : UniqueTracker} {claim : UniqueClaim} {number : Nat}
    (numbered : tracker.numberOf claim = some number) (pairs : tracker.pairs <+: next.pairs)
    (claimKeys : tracker.claimKeys <+: next.claimKeys) : next.numberOf claim = some number := by
  obtain ⟨pair, isPair, isClaim⟩ := Option.bind_eq_some_iff.mp numbered
  exact Option.bind_eq_some_iff.mpr
    ⟨pair, idxOf?_of_isPrefix pairs isPair, idxOf?_of_isPrefix claimKeys isClaim⟩

/-- Lists that enumerate the pairs and the claims held, within the numbering. -/
structure Enumerated (held : Bytes → UniqueClaim → Prop) : Prop where
  pairs : ∃ pairs : List (String × String), pairs.length ≤ 2 ^ 16 ∧
    ∀ own claim, held own claim → claimPair claim ∈ pairs
  claims : ∃ claims : List UniqueClaim, claims.length ≤ 2 ^ 32 ∧
    ∀ own claim, held own claim → claim ∈ claims

structure Within (held : Bytes → UniqueClaim → Prop) (tracker : UniqueTracker) : Prop where
  sized : tracker.Sized
  pairsNodup : tracker.pairs.Nodup
  claimsNodup : tracker.claimKeys.Nodup
  pairsHeld : ∀ pair ∈ tracker.pairs, ∃ own claim, held own claim ∧ claimPair claim = pair
  claimsHeld : ∀ entry ∈ tracker.claimKeys, ∃ own claim, held own claim ∧
    tracker.pairs[entry.1]? = some (claimPair claim) ∧ claim.2.2 = entry.2
  ownersHeld : ∀ {number : Nat} {owners : SortedMap Bytes Bool} {own : Bytes} {imported : Bool},
    tracker.owners[number]? = some owners → owners.get own = some imported →
      ∃ claim, tracker.numberOf claim = some number ∧ held own claim

section

variable {held : Bytes → UniqueClaim → Prop} {tracker : UniqueTracker}

theorem numberOf_injective {first second : UniqueClaim} {number : Nat}
    (isFirst : tracker.numberOf first = some number)
    (isSecond : tracker.numberOf second = some number) : first = second := by
  obtain ⟨pair, isPair, isKey⟩ := Option.bind_eq_some_iff.mp isFirst
  obtain ⟨again, isAgain, isOther⟩ := Option.bind_eq_some_iff.mp isSecond
  have sameKey := (getElem?_of_idxOf? isKey).symm.trans (getElem?_of_idxOf? isOther)
  rw [Option.some.injEq, Prod.mk.injEq] at sameKey
  obtain ⟨rfl, sameValue⟩ := sameKey
  have samePair := (getElem?_of_idxOf? isPair).symm.trans (getElem?_of_idxOf? isAgain)
  rw [Option.some.injEq, Prod.mk.injEq] at samePair
  exact Prod.ext samePair.1 (Prod.ext samePair.2 sameValue)

private theorem pairId_total (bounds : Enumerated held) (isWithin : Within held tracker)
    {own : Bytes} {claim : UniqueClaim} (isHeld : held own claim) :
    ∃ pair next, tracker.pairId claim.1 claim.2.1 = .ok (pair, next) ∧ Within held next ∧
      next.pairs[pair]? = some (claimPair claim) := by
  rw [pairId]
  split
  · next pair found => exact ⟨pair, tracker, rfl, isWithin, getElem?_of_idxOf? found⟩
  · next absent =>
      have isNew := not_mem_of_idxOf? absent
      obtain ⟨all, short, listed⟩ := bounds.pairs
      have room : tracker.pairs.length < 2 ^ 16 :=
        length_lt_of_new isWithin.pairsNodup (by
          intro other member
          obtain ⟨again, rival, isRival, rfl⟩ := isWithin.pairsHeld other member
          exact listed again rival isRival) isNew (listed own claim isHeld) short
      rw [if_neg (by omega)]
      refine ⟨_, _, rfl, ⟨isWithin.sized, ?_, isWithin.claimsNodup, ?_, ?_, ?_⟩, ?_⟩
      · exact nodup_concat isWithin.pairsNodup isNew
      · intro pair member
        rcases List.mem_append.mp member with earlier | isPair
        · exact isWithin.pairsHeld pair earlier
        · cases List.mem_singleton.mp isPair
          exact ⟨own, claim, isHeld, rfl⟩
      · intro entry member
        obtain ⟨again, rival, isRival, isPair, isValue⟩ := isWithin.claimsHeld entry member
        obtain ⟨inside, -⟩ := List.getElem?_eq_some_iff.mp isPair
        exact ⟨again, rival, isRival, (List.getElem?_append_left inside).trans isPair, isValue⟩
      · intro number owners other imported isOwners isOwn
        obtain ⟨rival, numbered, isRival⟩ := isWithin.ownersHeld isOwners isOwn
        exact ⟨rival, numberOf_mono numbered (List.prefix_append _ _) List.prefix_rfl, isRival⟩
      · exact List.getElem?_concat_length

/-- The claim that a numbered entry stands for. -/
def named (tracker : UniqueTracker) (entry : Nat × StoredValue) : UniqueClaim :=
  let pair := (tracker.pairs[entry.1]?).getD ("", "")
  (pair.1, pair.2, entry.2)

/-- Numbered claims are told apart by what they stand for. -/
private theorem entry_of_named (isWithin : Within held tracker) {entry : Nat × StoredValue}
    (isEntry : entry ∈ tracker.claimKeys) {claim : UniqueClaim} {pair : Nat}
    (isPair : tracker.pairs[pair]? = some (claimPair claim))
    (same : tracker.named entry = claim) : entry = (pair, claim.2.2) := by
  obtain ⟨-, rival, -, isRival, isValue⟩ := isWithin.claimsHeld entry isEntry
  have isNamed : tracker.named entry = rival := by
    rw [named, isRival, ← isValue]
    rfl
  subst same
  rw [isNamed] at isPair ⊢
  have sameNumber := (idxOf?_of_getElem? isWithin.pairsNodup isRival).symm.trans
    (idxOf?_of_getElem? isWithin.pairsNodup isPair)
  exact Prod.ext (Option.some.inj sameNumber) isValue.symm

private theorem claimId_total (bounds : Enumerated held) (isWithin : Within held tracker)
    {own : Bytes} {claim : UniqueClaim} {pair : Nat} (isHeld : held own claim)
    (isPair : tracker.pairs[pair]? = some (claimPair claim)) :
    ∃ number next, tracker.claimId pair claim.2.2 = .ok (number, next) ∧ Within held next ∧
      next.numberOf claim = some number := by
  have pairNumber := idxOf?_of_getElem? isWithin.pairsNodup isPair
  rw [claimId]
  split
  · next number found =>
      exact ⟨number, tracker, rfl, isWithin, Option.bind_eq_some_iff.mpr ⟨pair, pairNumber, found⟩⟩
  · next absent =>
      have isNew := not_mem_of_idxOf? absent
      obtain ⟨all, short, listed⟩ := bounds.claims
      have room : tracker.owners.length < 2 ^ 32 := by
        rw [isWithin.sized, ← @List.length_map _ _ _ tracker.named]
        refine length_lt_of_new ?_ ?_ ?_ (listed own claim isHeld) short
        · refine List.Nodup.map_on ?_ isWithin.claimsNodup
          intro first isFirst second isSecond same
          obtain ⟨-, rival, -, isRival, isValue⟩ := isWithin.claimsHeld second isSecond
          have isNamed : tracker.named second = rival := by
            rw [named, isRival, ← isValue]
            rfl
          rw [entry_of_named isWithin isFirst isRival (same.trans isNamed), isValue]
        · intro other member
          obtain ⟨entry, isEntry, rfl⟩ := List.mem_map.mp member
          obtain ⟨again, rival, isRival, isPair, isValue⟩ := isWithin.claimsHeld entry isEntry
          have isNamed : tracker.named entry = rival := by
            rw [named, isPair, ← isValue]
            rfl
          rw [isNamed]
          exact listed again rival isRival
        · intro member
          obtain ⟨entry, isEntry, same⟩ := List.mem_map.mp member
          exact isNew (entry_of_named isWithin isEntry isPair same ▸ isEntry)
      rw [if_neg (by omega)]
      refine ⟨_, _, rfl, ⟨?_, isWithin.pairsNodup, ?_, isWithin.pairsHeld, ?_, ?_⟩, ?_⟩
      · simp only [Sized, List.length_append, List.length_singleton]
        rw [isWithin.sized]
      · exact nodup_concat isWithin.claimsNodup isNew
      · intro entry member
        rcases List.mem_append.mp member with earlier | isEntry
        · exact isWithin.claimsHeld entry earlier
        · cases List.mem_singleton.mp isEntry
          exact ⟨own, claim, isHeld, isPair, rfl⟩
      · intro number owners other imported isOwners isOwn
        rw [List.getElem?_append] at isOwners
        split at isOwners
        · obtain ⟨rival, numbered, isRival⟩ := isWithin.ownersHeld isOwners isOwn
          exact ⟨rival, numberOf_mono numbered List.prefix_rfl (List.prefix_append _ _), isRival⟩
        · have isEmpty := List.mem_of_getElem? isOwners
          rw [List.mem_singleton] at isEmpty
          rw [isEmpty] at isOwn
          cases isOwn
      · refine Option.bind_eq_some_iff.mpr ⟨pair, pairNumber, ?_⟩
        rw [isWithin.sized]
        exact idxOf?_concat absent

private theorem within_putOwner (isWithin : Within held tracker) {own : Bytes}
    {claim : UniqueClaim} {number : Nat} {imported : Bool} (isHeld : held own claim)
    (numbered : tracker.numberOf claim = some number) :
    Within held { tracker with owners := tracker.owners.modify number (·.put own imported) } := by
  refine ⟨(List.length_modify _ _ _).trans isWithin.sized, isWithin.pairsNodup,
    isWithin.claimsNodup, isWithin.pairsHeld, isWithin.claimsHeld, ?_⟩
  intro at' owners other flag isOwners isOwn
  simp only [List.getElem?_modify, Option.map_eq_map, Option.map_eq_some_iff] at isOwners
  obtain ⟨before, isBefore, rfl⟩ := isOwners
  split at isOwn
  · next same =>
      rw [SortedMap.get_put] at isOwn
      split at isOwn
      · next isOther =>
          subst isOther same
          exact ⟨claim, numbered, isHeld⟩
      · exact isWithin.ownersHeld isBefore isOwn
  · exact isWithin.ownersHeld isBefore isOwn

private theorem claimAll_total (bounds : Enumerated held) {label : String} {record : NodeRecord}
    {own : Bytes} {imported : Bool} {properties : List String} (isWithin : Within held tracker)
    (isHeld : ∀ property ∈ properties, ∀ value, record.properties.get property = some value →
      held own (label, property, value)) :
    ∃ numbers next, claimAll label record own imported tracker properties = .ok (numbers, next) ∧
      Within held next := by
  induction properties generalizing tracker with
  | nil => exact ⟨[], tracker, rfl, isWithin⟩
  | cons property properties ih =>
      obtain ⟨first, isHeld⟩ := List.forall_mem_cons.mp isHeld
      rw [claimAll]
      cases present : record.properties.get property with
      | none => exact ih isWithin isHeld
      | some value =>
          have holds := first value present
          obtain ⟨pair, paired, numbersPair, isWithin, isPair⟩ := pairId_total bounds isWithin holds
          obtain ⟨number, numbered, numbersClaim, isWithin, isNumber⟩ :=
            claimId_total bounds isWithin holds isPair
          obtain ⟨numbers, next, rest, isWithin⟩ :=
            ih (@within_putOwner held numbered isWithin own _ number imported holds isNumber) isHeld
          refine ⟨number :: numbers, next, ?_, isWithin⟩
          dsimp only
          rw [numbersPair, ok_bind]
          dsimp only
          rw [numbersClaim, ok_bind]
          dsimp only
          rw [rest, ok_bind]

theorem length_unclaim (tracker : UniqueTracker) (own : Bytes) :
    (tracker.unclaim own).owners.length = tracker.owners.length := by
  have sameLength : ∀ (previous : List Nat) (tables : List (SortedMap Bytes Bool)),
      (previous.foldl (fun owners claim => owners.modify claim (·.delete own)) tables).length =
        tables.length := by
    intro previous
    induction previous with
    | nil => exact fun _ => rfl
    | cons claim previous ih => exact fun tables => (ih _).trans (List.length_modify _ _ _)
  exact sameLength _ _

private theorem within_unclaim (isWithin : Within held tracker) (own : Bytes) :
    Within held (tracker.unclaim own) := by
  have fewer : ∀ (previous : List Nat) (tables : List (SortedMap Bytes Bool))
      {number : Nat} {owners : SortedMap Bytes Bool} {other : Bytes} {flag : Bool},
      (previous.foldl (fun owners claim => owners.modify claim (·.delete own))
        tables)[number]? = some owners → owners.get other = some flag →
      ∃ more, tables[number]? = some more ∧ more.get other = some flag := by
    intro previous
    induction previous with
    | nil => exact fun tables _ _ _ _ isOwners isOwn => ⟨_, isOwners, isOwn⟩
    | cons claim previous ih =>
        intro tables number owners other flag isOwners isOwn
        obtain ⟨more, isMore, isOther⟩ := ih _ isOwners isOwn
        simp only [List.getElem?_modify, Option.map_eq_map, Option.map_eq_some_iff] at isMore
        obtain ⟨before, isBefore, rfl⟩ := isMore
        refine ⟨before, isBefore, ?_⟩
        split at isOther
        · rw [SortedMap.get_delete] at isOther
          split at isOther
          · cases isOther
          · exact isOther
        · exact isOther
  refine ⟨(length_unclaim tracker own).trans isWithin.sized, isWithin.pairsNodup, isWithin.claimsNodup,
    isWithin.pairsHeld, isWithin.claimsHeld, ?_⟩
  intro number owners other imported isOwners isOwn
  obtain ⟨more, isMore, isOther⟩ := fewer _ _ isOwners isOwn
  exact isWithin.ownersHeld isMore isOther

variable {labels : SortedMap String LabelDef}

theorem claim_total (bounds : Enumerated held) (isWithin : Within held tracker)
    {key : NodeKey} {record : NodeRecord} {own : Bytes} {imported : Bool}
    (encodes : key.encode = .ok own)
    (isHeld : ∀ claim ∈ claimsOf labels key record, held own claim) :
    ∃ numbers next, tracker.claim labels key record imported = .ok (numbers, next) ∧
      Within held next := by
  rw [UniqueTracker.claim]
  cases declared : labels.get key.label with
  | none => exact ⟨[], tracker, rfl, isWithin⟩
  | some decl =>
      dsimp only
      split
      · exact ⟨[], tracker, rfl, isWithin⟩
      · obtain ⟨numbers, next, claims, nextWithin⟩ := @claimAll_total held (tracker.unclaim own)
          bounds key.label record own imported decl.unique (within_unclaim isWithin own) (by
            intro property isUnique value holds
            exact isHeld _ (mem_claimsOf.mpr ⟨decl, declared, rfl, isUnique, holds⟩))
        refine ⟨(tracker.byKey.get own).getD [] ++ numbers,
          { next with byKey := next.byKey.put own numbers }, ?_,
          ⟨nextWithin.sized, nextWithin.pairsNodup, nextWithin.claimsNodup, nextWithin.pairsHeld,
            nextWithin.claimsHeld, nextWithin.ownersHeld⟩⟩
        rw [encodes]
        simp only [liftKey, ofGraphError, Except.mapError, ok_bind, claims]

/-- Each node of a batch takes over its claims, and lacks nothing. -/
theorem claimBatch_total (bounds : Enumerated held) {puts : List (NodeKey × NodeRecord)}
    (isWithin : Within held tracker)
    (isHeld : ∀ put ∈ puts, ∃ own, put.1.encode = .ok own ∧
      ∀ claim ∈ claimsOf labels put.1 put.2, held own claim) :
    ∃ violations touched next,
      claimBatch labels tracker puts = .ok (violations, touched, next) ∧ Within held next := by
  induction puts generalizing tracker with
  | nil => exact ⟨[], [], tracker, rfl, isWithin⟩
  | cons put puts ih =>
      obtain ⟨⟨own, encodes, first⟩, isHeld⟩ := List.forall_mem_cons.mp isHeld
      obtain ⟨numbers, middle, registers, middleWithin⟩ : ∃ numbers next,
          tracker.register labels put.1 put.2 = .ok (numbers, next) ∧ Within held next := by
        rw [register]
        split
        · exact claim_total bounds isWithin encodes first
        · exact ⟨[], tracker, rfl, isWithin⟩
      obtain ⟨violations, touched, next, claims, nextWithin⟩ := ih middleWithin isHeld
      refine ⟨missing labels put.1 put.2 ++ violations, numbers ++ touched, next, ?_, nextWithin⟩
      rw [claimBatch]
      simp only [registers, ok_bind, claims]

private theorem seedRows_total (bounds : Enumerated held) {rows : List (Bytes × NodeRecord)}
    (isWithin : Within held tracker)
    (isHeld : ∀ row ∈ rows, ∃ node, NodeKey.decode row.1 = .ok node ∧
      ∀ claim ∈ claimsOf labels node row.2, held row.1 claim) :
    ∃ next, rows.foldlM (seedRow labels) tracker = .ok next ∧ Within held next := by
  induction rows generalizing tracker with
  | nil => exact ⟨tracker, rfl, isWithin⟩
  | cons row rows ih =>
      obtain ⟨⟨node, decodes, first⟩, isHeld⟩ := List.forall_mem_cons.mp isHeld
      obtain ⟨middle, seeds, middleWithin⟩ : ∃ next,
          seedRow labels tracker row = .ok next ∧ Within held next := by
        rw [seedRow, decodes]
        simp only [liftKey, ofGraphError, Except.mapError, ok_bind]
        cases labels.get node.label with
        | none => exact ⟨tracker, rfl, isWithin⟩
        | some decl =>
            dsimp only
            split
            · exact ⟨tracker, rfl, isWithin⟩
            · obtain ⟨numbers, next, claims, nextWithin⟩ := @claim_total held tracker labels bounds
                isWithin node row.2 row.1 false (NodeKey.encode_of_decode decodes) first
              refine ⟨next, ?_, nextWithin⟩
              rw [claims]
              rfl
      obtain ⟨next, rest, nextWithin⟩ := ih middleWithin isHeld
      exact ⟨next, by rw [List.foldlM_cons, seeds, ok_bind, rest], nextWithin⟩

theorem within_nothing (active : Bool) : Within held ⟨[], [], [], .empty, active⟩ := by
  refine ⟨rfl, List.nodup_nil, List.nodup_nil, ?_, ?_, ?_⟩
  · intro pair member
    cases member
  · intro entry member
    cases member
  · intro number owners own imported isOwners
    cases isOwners

theorem seed_total (bounds : Enumerated held) {nodes : NodeMap}
    (isHeld : ∀ row ∈ nodes.entries, ∃ node, NodeKey.decode row.1 = .ok node ∧
      ∀ claim ∈ claimsOf labels node row.2, held row.1 claim) :
    ∃ tracker, seed labels nodes = .ok tracker ∧ Within held tracker := by
  rw [seed]
  dsimp only
  split
  · exact ⟨_, rfl, within_nothing _⟩
  · exact seedRows_total bounds (within_nothing _) isHeld

theorem survivors_total {puts : List (NodeKey × NodeRecord)}
    (encode : ∀ put ∈ puts, ∃ own, put.1.encode = .ok own) :
    ∃ surviving, survivors puts = .ok surviving := by
  obtain ⟨rows, each⟩ := @mapM_total _ _ _ (fun put : NodeKey × NodeRecord => do
    let key ← ofGraphError (liftKey put.1.encode)
    (.ok (key, put) : Except ImportError (Bytes × NodeKey × NodeRecord))) puts (by
      intro put isPut
      obtain ⟨own, encodes⟩ := encode put isPut
      refine ⟨(own, put), ?_⟩
      rw [encodes]
      rfl)
  exact ⟨.ofList rows, bind_eq_ok.mpr ⟨rows, each, rfl⟩⟩

/-- Nodes that lack nothing and share no claim are a batch that nothing is
reported of. -/
theorem applyBatch_total (bounds : Enumerated held)
    (unshared : ∀ first second claim, held first claim → held second claim → first = second)
    (isWithin : Within held tracker) {puts : List (NodeKey × NodeRecord)}
    (isHeld : ∀ put ∈ puts, ∃ own, put.1.encode = .ok own ∧
      ∀ claim ∈ claimsOf labels put.1 put.2, held own claim)
    (complete : ∀ put ∈ puts, ∀ decl, labels.get put.1.label = some decl →
      missingRequired decl put.2 = []) :
    ∃ next, tracker.applyBatch labels puts = .ok ([], next) ∧ Within held next := by
  obtain ⟨surviving, made⟩ := survivors_total fun put isPut =>
    (isHeld put isPut).imp fun own holds => holds.1
  have isPut : ∀ put ∈ surviving.entries.map Prod.snd, put ∈ puts := by
    intro put member
    obtain ⟨row, isRow, rfl⟩ := List.mem_map.mp member
    exact mem_of_survivors made (SortedMap.get_eq_some_iff.mpr isRow)
  obtain ⟨violations, touched, next, claims, nextWithin⟩ := claimBatch_total bounds isWithin
    fun put member => isHeld put (isPut put member)
  have noneMissing : violations = [] := by
    rw [List.eq_nil_iff_forall_not_mem]
    intro violation isViolation
    rw [claimBatch_violations claims] at isViolation
    obtain ⟨put, member, isMissing⟩ := List.mem_flatMap.mp isViolation
    rw [missing] at isMissing
    split at isMissing
    · cases isMissing
    · next decl declared =>
        rw [complete put (isPut put member) decl declared] at isMissing
        cases isMissing
  have noneCollides : ∀ number, next.collision number = none := by
    intro number
    rw [collision]
    cases isOwners : next.owners[number]? with
    | none => rfl
    | some owners =>
        rw [Option.bind_eq_bind, Option.bind_some]
        refine if_pos (.inl ?_)
        by_contra several
        obtain ⟨first, second, rest, shown⟩ : ∃ first second rest,
            owners.entries = first :: second :: rest := by
          rcases shown : owners.entries with _ | ⟨first, _ | ⟨second, rest⟩⟩
          · simp [shown] at several
          · simp [shown] at several
          · exact ⟨first, second, rest, rfl⟩
        have owner : ∀ entry ∈ owners.entries, ∃ claim,
            next.numberOf claim = some number ∧ held entry.1 claim := fun entry member =>
          nextWithin.ownersHeld isOwners (SortedMap.get_eq_some_iff.mpr member)
        obtain ⟨claim, isFirst, firstHolds⟩ := owner first (by simp [shown])
        obtain ⟨again, isSecond, secondHolds⟩ := owner second (by simp [shown])
        rw [numberOf_injective isSecond isFirst] at secondHolds
        have ascending := owners.ascending
        rw [shown] at ascending
        have less := (Ascending.cons_iff.mp ascending).1 second List.mem_cons_self
        exact less.ne (unshared _ _ claim firstHolds secondHolds)
  refine ⟨next, ?_, nextWithin⟩
  rw [applyBatch, made, ok_bind, claims, ok_bind, noneMissing]
  have noReports : (touched.mergeSort.dedup).filterMap next.collision = [] :=
    List.filterMap_eq_nil_iff.mpr fun number _ => noneCollides number
  simp only [noReports, List.append_nil]

structure Limited (tracker : UniqueTracker) : Prop where
  sized : tracker.Sized
  pairs : tracker.pairs.length ≤ 2 ^ 16
  claims : tracker.claimKeys.length ≤ 2 ^ 32

variable {next : UniqueTracker}

private theorem pairId_limited {label property : String} {pair : Nat} (limited : tracker.Limited)
    (numbers : tracker.pairId label property = .ok (pair, next)) : next.Limited := by
  rw [pairId] at numbers
  split at numbers
  · cases numbers
    exact limited
  · split at numbers
    · cases numbers
    · next room =>
        cases numbers
        refine ⟨limited.sized, ?_, limited.claims⟩
        rw [List.length_append, List.length_singleton]
        omega

private theorem claimId_limited {pair number : Nat} {value : StoredValue}
    (limited : tracker.Limited) (numbers : tracker.claimId pair value = .ok (number, next)) :
    next.Limited := by
  rw [claimId] at numbers
  split at numbers
  · cases numbers
    exact limited
  · split at numbers
    · cases numbers
    · next room =>
        have sized := limited.sized
        rw [Sized] at sized
        cases numbers
        refine ⟨?_, limited.pairs, ?_⟩
        · simp only [Sized, List.length_append, List.length_singleton, sized]
        · rw [List.length_append, List.length_singleton]
          omega

private theorem claimAll_limited {label : String} {record : NodeRecord} {own : Bytes}
    {imported : Bool} {properties : List String} {numbers : List Nat} (limited : tracker.Limited)
    (claims : claimAll label record own imported tracker properties = .ok (numbers, next)) :
    next.Limited := by
  induction properties generalizing tracker numbers with
  | nil =>
      cases claims
      exact limited
  | cons property properties ih =>
      rw [claimAll] at claims
      split at claims
      · exact ih limited claims
      · obtain ⟨⟨pair, paired⟩, numbersPair, claims⟩ := bind_eq_ok.mp claims
        obtain ⟨⟨number, numbered⟩, numbersClaim, claims⟩ := bind_eq_ok.mp claims
        obtain ⟨⟨others, last⟩, rest, ⟨⟩⟩ := bind_eq_ok.mp claims
        have registered := claimId_limited (pairId_limited limited numbersPair) numbersClaim
        have owned : Limited { numbered with
            owners := numbered.owners.modify number (·.put own imported) } :=
          ⟨(List.length_modify _ _ _).trans registered.sized, registered.pairs, registered.claims⟩
        exact ih owned rest

private theorem unclaim_limited (limited : tracker.Limited) (own : Bytes) :
    (tracker.unclaim own).Limited :=
  ⟨(length_unclaim tracker own).trans limited.sized, limited.pairs, limited.claims⟩

private theorem claim_limited {key : NodeKey} {record : NodeRecord} {imported : Bool}
    {numbers : List Nat} (limited : tracker.Limited)
    (claims : tracker.claim labels key record imported = .ok (numbers, next)) : next.Limited := by
  rw [UniqueTracker.claim] at claims
  split at claims
  · cases claims
    exact limited
  · split at claims
    · cases claims
      exact limited
    · obtain ⟨own, -, claims⟩ := bind_eq_ok.mp claims
      obtain ⟨⟨held, last⟩, claimsAll, ⟨⟩⟩ := bind_eq_ok.mp claims
      have kept := claimAll_limited (unclaim_limited limited own) claimsAll
      exact ⟨kept.sized, kept.pairs, kept.claims⟩

theorem seed_limited {nodes : NodeMap} (seeds : seed labels nodes = .ok tracker) :
    tracker.Limited := by
  have nothing : ∀ active, Limited ⟨[], [], [], .empty, active⟩ :=
    fun _ => ⟨rfl, Nat.zero_le _, Nat.zero_le _⟩
  rw [seed] at seeds
  dsimp only at seeds
  split at seeds
  · cases seeds
    exact nothing _
  · refine foldlM_invariant ?_ (nothing _) seeds
    intro tracker row next _ limited seeds
    obtain ⟨key, -, seeds⟩ := bind_eq_ok.mp seeds
    split at seeds
    · cases seeds
      exact limited
    · split at seeds
      · cases seeds
        exact limited
      · obtain ⟨⟨numbers, last⟩, claims, ⟨⟩⟩ := bind_eq_ok.mp seeds
        exact claim_limited limited claims

private theorem claimBatch_limited {puts : List (NodeKey × NodeRecord)}
    {violations : List ConstraintViolation} {touched : List Nat} (limited : tracker.Limited)
    (claims : claimBatch labels tracker puts = .ok (violations, touched, next)) :
    next.Limited := by
  induction puts generalizing tracker violations touched with
  | nil =>
      cases claims
      exact limited
  | cons put puts ih =>
      rw [claimBatch] at claims
      obtain ⟨⟨first, middle⟩, registers, claims⟩ := bind_eq_ok.mp claims
      obtain ⟨⟨others, later, last⟩, rest, ⟨⟩⟩ := bind_eq_ok.mp claims
      refine ih ?_ rest
      rw [register] at registers
      split at registers
      · exact claim_limited limited registers
      · cases registers
        exact limited

theorem applyBatch_limited {puts : List (NodeKey × NodeRecord)}
    {violations : List ConstraintViolation} (limited : tracker.Limited)
    (judges : tracker.applyBatch labels puts = .ok (violations, next)) : next.Limited := by
  obtain ⟨surviving, -, judges⟩ := bind_eq_ok.mp judges
  obtain ⟨⟨breaches, touched, last⟩, claims, ⟨⟩⟩ := bind_eq_ok.mp judges
  exact claimBatch_limited limited claims

/-- A node of a version holds a claim. -/
def Holds (labels : SortedMap String LabelDef) (nodes : NodeMap) (own : Bytes)
    (claim : UniqueClaim) : Prop :=
  ∃ record node, nodes.get own = some record ∧ NodeKey.decode own = .ok node ∧
    claim ∈ claimsOf labels node record

end

end UniqueTracker

end Acetone.Graph

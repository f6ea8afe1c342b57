import Acetone.Cypher.Expr

/-!
# The query governor

A deterministic work budget.  Whatever a query does is charged before it is
done, and a charge that crosses a cap ends the query.
-/

namespace Acetone.Cypher

def saturatingAdd (left right : UInt64) : UInt64 :=
  if left.toNat + right.toNat < 2 ^ 64 then left + right else .ofNat (2 ^ 64 - 1)

theorem toNat_saturatingAdd (left right : UInt64) :
    (saturatingAdd left right).toNat = min (left.toNat + right.toNat) (2 ^ 64 - 1) := by
  rw [saturatingAdd]
  split
  · next fits =>
      rw [UInt64.toNat_add, Nat.mod_eq_of_lt fits]
      omega
  · next beyond =>
      have most : (UInt64.ofNat (2 ^ 64 - 1)).toNat = 2 ^ 64 - 1 := rfl
      rw [most]
      omega

/-- The caps of a query.  Each may be reached but not exceeded. -/
structure QueryLimits where
  maxWorkUnits : UInt64
  maxResultRows : UInt64
  maxExpansionSteps : UInt64
  maxScannedCandidates : UInt64
  maxCollectionLen : UInt64
deriving DecidableEq

def QueryLimits.unbounded : QueryLimits :=
  ⟨.ofNat (2 ^ 64 - 1), .ofNat (2 ^ 64 - 1), .ofNat (2 ^ 64 - 1), .ofNat (2 ^ 64 - 1),
    .ofNat (2 ^ 64 - 1)⟩

/-- The budget of a running query.  The deadline, if one is set, says of a poll
of the clock, made when so much work is done, whether it comes too late. -/
structure Governor where
  limits : QueryLimits
  deadline : Option (UInt64 → Bool)
  work : UInt64
  expansion : UInt64
  scanned : UInt64
  workAtLastPoll : UInt64

inductive Charge where
  | row (setLen : Nat)
  | hop
  | collection (len : UInt64)
  | collectionPush (currentLen : Nat)
  | scan (candidates : UInt64)
deriving DecidableEq

namespace Governor

def new (limits : QueryLimits) (deadline : Option (UInt64 → Bool)) : Governor :=
  ⟨limits, deadline, 0, 0, 0, 0⟩

/-- The clock is polled once per so many work units. -/
def clockPollStride : UInt64 := 4096

/-- Charge work; the answer is the cap that has been crossed, if one has. -/
def chargeWork (governor : Governor) (units : UInt64) : Option ResourceLimit × Governor :=
  let work := saturatingAdd governor.work units
  let charged := { governor with work }
  if charged.limits.maxWorkUnits < work then (some .workUnits, charged)
  else
    match charged.deadline with
    | none => (none, charged)
    | some isLate =>
        if clockPollStride ≤ work - charged.workAtLastPoll then
          (if isLate work then some .wallClock else none, { charged with workAtLastPoll := work })
        else (none, charged)

def charge (governor : Governor) : Charge → Option ResourceLimit × Governor
  | .row setLen =>
      if governor.limits.maxResultRows.toNat ≤ setLen then (some .resultRows, governor)
      else governor.chargeWork 1
  | .hop =>
      let expansion := saturatingAdd governor.expansion 1
      let charged := { governor with expansion }
      if charged.limits.maxExpansionSteps < expansion then (some .expansionSteps, charged)
      else charged.chargeWork 1
  | .collection len =>
      if governor.limits.maxCollectionLen < len then (some .collectionLen, governor)
      else governor.chargeWork len
  | .collectionPush currentLen =>
      if governor.limits.maxCollectionLen.toNat ≤ currentLen then (some .collectionLen, governor)
      else governor.chargeWork 1
  | .scan candidates =>
      let scanned := saturatingAdd governor.scanned candidates
      let charged := { governor with scanned }
      if charged.limits.maxScannedCandidates < scanned then (some .scannedCandidates, charged)
      else charged.chargeWork candidates

end Governor

end Acetone.Cypher

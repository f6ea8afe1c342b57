import Mathlib.Data.Finset.Basic
import Mathlib.Data.String.Basic
import Acetone.Lib.SortedMap
import Acetone.Model.Keys

/-!
# Node and edge records

What the `nodes` and `edges_fwd` maps hold.  The canonical encoding of a
record is read back only as that record, so a stored record is represented by
what it reads back as: its values have passed the value encoder, its labels
are a set, its properties a map.
-/

namespace Acetone.Model

open Acetone.Lib

inductive ValueEncodeError where
  | timeOutOfRange (nanos : UInt64)
  | offsetOutOfRange (minutes : Int16)
  | depthExceeded
deriving DecidableEq, Repr

/-- The one NaN that decoding produces. -/
def canonicalNanBits : UInt64 := 0x7ff8000000000000

/-- Every NaN is written as the canonical one. -/
def storeFloat (bits : UInt64) : UInt64 :=
  if isNan bits then canonicalNanBits else bits

mutual

/-- What a value written at nesting `depth` reads back as; fails where the
encoder does. -/
def storeValue (value : Value) (depth : Nat) : Except ValueEncodeError Value :=
  if depth > maxDepth then
    .error .depthExceeded
  else
    match value with
    | .float bits => .ok (.float (storeFloat bits))
    | .time time =>
        if time.nanos ≥ nanosPerDay then .error (.timeOutOfRange time.nanos)
        else .ok (.time time)
    | .dateTime stamp =>
        if stamp.offsetMinutes.toInt.natAbs > maxOffsetMinutes then
          .error (.offsetOutOfRange stamp.offsetMinutes)
        else .ok (.dateTime stamp)
    | .list items => do
        let items ← storeValues items (depth + 1)
        .ok (.list items)
    | value => .ok value

def storeValues (values : List Value) (depth : Nat) :
    Except ValueEncodeError (List Value) :=
  match values with
  | [] => .ok []
  | value :: values => do
      let value ← storeValue value depth
      let values ← storeValues values depth
      .ok (value :: values)

end

/-- A value as the store returns it.  Two of them have the same canonical
encoding exactly when they are equal. -/
def StoredValue : Type := { value : Value // storeValue value 0 = .ok value }

instance : DecidableEq StoredValue := inferInstanceAs (DecidableEq (Subtype _))

abbrev Properties := SortedMap String StoredValue

/-- A node's stored state: secondary labels and non-key properties. -/
structure NodeRecord where
  secondaryLabels : Finset String
  properties : Properties
deriving DecidableEq

/-- A relationship's stored state. -/
structure EdgeRecord where
  properties : Properties
deriving DecidableEq

private theorem storeFloat_idempotent (bits : UInt64) :
    storeFloat (storeFloat bits) = storeFloat bits := by
  by_cases nan : isNan bits
  · rw [storeFloat, storeFloat, if_pos nan]
    rfl
  · rw [storeFloat, storeFloat, if_neg nan, if_neg nan]

private theorem storeValue_within {value stored : Value} {depth : Nat}
    (done : storeValue value depth = .ok stored) : ¬ depth > maxDepth := by
  intro tooDeep
  rw [storeValue.eq_def, if_pos tooDeep] at done
  cases done

mutual

theorem storeValue_idempotent {value stored : Value} {depth : Nat}
    (done : storeValue value depth = .ok stored) :
    storeValue stored depth = .ok stored := by
  have within := storeValue_within done
  cases value with
  | float bits =>
      simp only [storeValue, if_neg within, Except.ok.injEq] at done
      rw [← done, storeValue, if_neg within]
      simp only [storeFloat_idempotent]
  | time time =>
      simp only [storeValue, if_neg within] at done
      split at done
      · cases done
      · next inRange =>
          cases done
          simp only [storeValue, if_neg within, if_neg inRange]
  | dateTime stamp =>
      simp only [storeValue, if_neg within] at done
      split at done
      · cases done
      · next inRange =>
          cases done
          simp only [storeValue, if_neg within, if_neg inRange]
  | list items =>
      simp only [storeValue, if_neg within, bind_eq_ok] at done
      obtain ⟨kept, stores, ⟨⟩⟩ := done
      simp only [storeValue, if_neg within, storeValues_idempotent stores, ok_bind]
  | _ =>
      simp only [storeValue, if_neg within, Except.ok.injEq] at done
      rw [← done]
      simp only [storeValue, if_neg within]

theorem storeValues_idempotent {values stored : List Value} {depth : Nat}
    (done : storeValues values depth = .ok stored) :
    storeValues stored depth = .ok stored := by
  cases values with
  | nil =>
      cases done
      rfl
  | cons value values =>
      rw [storeValues] at done
      simp only [bind_eq_ok] at done
      obtain ⟨first, storesFirst, others, storesOthers, ⟨⟩⟩ := done
      rw [storeValues, storeValue_idempotent storesFirst, ok_bind,
        storeValues_idempotent storesOthers, ok_bind]

end

/-- Write a property value. -/
def encodeValue (value : Value) : Except ValueEncodeError StoredValue :=
  match done : storeValue value 0 with
  | .ok stored => .ok ⟨stored, storeValue_idempotent done⟩
  | .error cause => .error cause

theorem encodeValue_eq_ok {value : Value} {stored : StoredValue} :
    encodeValue value = .ok stored ↔ storeValue value 0 = .ok stored.val := by
  rw [encodeValue]
  split
  · next written done =>
      constructor
      · intro same
        cases same
        exact done
      · intro same
        exact congrArg Except.ok (Subtype.ext (Except.ok.inj (done.symm.trans same)))
  · next failed =>
      constructor
      · intro same
        cases same
      · intro same
        cases failed.symm.trans same

theorem encodeValue_stored (value : StoredValue) : encodeValue value.val = .ok value :=
  encodeValue_eq_ok.mpr value.property

end Acetone.Model

import Acetone.Cypher.Comparison

/-!
# Rows

A row binds variables to values.  A step of a query fails with an error or stops
at a limit.
-/

namespace Acetone.Cypher

open Acetone.Lib Acetone.Model

abbrev VarId := Nat

structure Row where
  bindings : SortedMap VarId Value

namespace Row

/-- An unset variable reads as null. -/
def get (row : Row) (var : VarId) : Value := (row.bindings.get var).getD .null

def set (row : Row) (var : VarId) (value : Value) : Row := ⟨row.bindings.put var value⟩

end Row

inductive ResourceLimit where
  | workUnits
  | resultRows
  | expansionSteps
  | scannedCandidates
  | collectionLen
  | wallClock
  | valueDepth
deriving DecidableEq

inductive ExecError where
  | type (message : String)
  | overflow
  | divisionByZero
  | missingParameter (name : String)
  | unsupported (feature : String)
  | invalidArgument (message : String)
  | resourceExceeded (limit : ResourceLimit)
deriving DecidableEq

namespace Value

mutual

/-- Whether a level below this one is deeper than the limit.  Entities and
scalars are one level. -/
def exceedsFrom (limit depth : Nat) (value : Value) : Bool :=
  decide (limit < depth) ||
    match value with
    | .list items => anyExceedsFrom limit (depth + 1) items
    | .map entries => entryExceedsFrom limit (depth + 1) entries
    | _ => false

def anyExceedsFrom (limit depth : Nat) : List Value → Bool
  | [] => false
  | value :: values => exceedsFrom limit depth value || anyExceedsFrom limit depth values

def entryExceedsFrom (limit depth : Nat) : List (String × Value) → Bool
  | [] => false
  | (_, value) :: entries => exceedsFrom limit depth value || entryExceedsFrom limit depth entries

end

def nestingExceeds (value : Value) (limit : Nat) : Bool := exceedsFrom limit 1 value

end Value

/-- openCypher truth. -/
def truth : Value → Except ExecError Ternary
  | .bool value => .ok (some value)
  | .null => .ok none
  | other => .error (.type ("expected a boolean, got " ++ other.typeName))

end Acetone.Cypher

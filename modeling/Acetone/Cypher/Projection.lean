import Acetone.Cypher.DistinctKeys
import Acetone.Cypher.Governor
import Acetone.Lib.Metered

/-!
# Projections and `UNWIND`

The clauses of a query run one after the other, on rows and on the graph.
`UNWIND`, `WITH` and `RETURN` are spelled out, every other clause is what it
does.  An expression is what its evaluation is charged for and what it
evaluates to; nothing but a refused charge depends on the governor.
-/

namespace Acetone.Cypher

open Acetone.Lib Acetone.Model

/-- What runs under the governor. -/
abbrev Exec := Metered Charge ExecError

def chargeFor (charge : Charge) : Exec Unit := .charge charge

/-- What is asked of the form of an expression: a variable, a call of `labels`,
`keys` or `type`, or anything else. -/
inductive ExprForm where
  | reference (id : VarId)
  | identifiers
  | other

structure MeteredExpr (Graph : Type) where
  form : ExprForm
  /-- `contains_aggregate` -/
  aggregates : Bool
  eval : Graph → Row → Exec Value
  evalWithGroup : Graph → List Row → Row → Exec Value

variable {Graph : Type}

/-- Does the expression yield names of labels, keys or types? -/
def isIdentifierExpr (expr : MeteredExpr Graph) (identifierVars : List VarId) : Bool :=
  match expr.form with
  | .identifiers => true
  | .reference id => identifierVars.contains id
  | .other => false

structure BoundProjectionItem (Graph : Type) where
  expr : MeteredExpr Graph
  name : String
  var : VarId

structure BoundProjection (Graph : Type) where
  distinct : Bool
  items : List (BoundProjectionItem Graph)
  orderBy : List (MeteredExpr Graph × Bool)
  skip : Option (MeteredExpr Graph)
  limit : Option (MeteredExpr Graph)
  whereClause : Option (MeteredExpr Graph)

namespace BoundProjection

def groupingItems (projection : BoundProjection Graph) : List (BoundProjectionItem Graph) :=
  projection.items.filter fun item => !item.expr.aggregates

def aggregating (projection : BoundProjection Graph) : Bool :=
  projection.items.any fun item => item.expr.aggregates

end BoundProjection

def Row.empty : Row := ⟨.empty⟩

def evalAll (graph : Graph) (row : Row) : List (MeteredExpr Graph) → Exec (List Value)
  | [] => pure []
  | expr :: exprs => do
      let value ← expr.eval graph row
      let values ← evalAll graph row exprs
      return value :: values

def groupRows (graph : Graph) (grouping : List (BoundProjectionItem Graph)) :
    List Row → List (Bytes × List Row) → Exec (List (Bytes × List Row))
  | [], groups => pure groups
  | row :: rows, groups => do
      let values ← evalAll graph row (grouping.map BoundProjectionItem.expr)
      let key := Value.tupleKey values
      if groups.any fun group => group.1 == key then
        groupRows graph grouping rows (groups.map fun group =>
          if group.1 == key then (group.1, group.2 ++ [row]) else group)
      else
        chargeFor (.collectionPush groups.length)
        groupRows graph grouping rows (groups ++ [(key, [row])])

/-- The items of a group, set in its first row. -/
def projectGroup (graph : Graph) (group : List Row) (representative : Row) :
    List (BoundProjectionItem Graph) → Row → Exec Row
  | [], out => pure out
  | item :: items, out => do
      let value ← item.expr.evalWithGroup graph group representative
      projectGroup graph group representative items (out.set item.var value)

def mergeGroups (graph : Graph) (items : List (BoundProjectionItem Graph)) :
    List (List Row) → List Row → Exec (List Row)
  | [], merged => pure merged
  | group :: groups, merged => do
      let representative := group.head?.getD .empty
      let out ← projectGroup graph group representative items representative
      chargeFor (.row merged.length)
      mergeGroups graph items groups (merged ++ [out])

def projectRow (graph : Graph) (row : Row) :
    List (BoundProjectionItem Graph) → Row → Exec Row
  | [], out => pure out
  | item :: items, out => do
      let value ← item.expr.eval graph row
      projectRow graph row items (out.set item.var value)

def mergeRows (graph : Graph) (items : List (BoundProjectionItem Graph)) :
    List Row → List Row → Exec (List Row)
  | [], merged => pure merged
  | row :: rows, merged => do
      let out ← projectRow graph row items row
      chargeFor (.row merged.length)
      mergeRows graph items rows (merged ++ [out])

def distinctRows (items : List (BoundProjectionItem Graph)) :
    List Row → List Bytes → List Row → Exec (List Row)
  | [], _, kept => pure kept
  | row :: rows, seen, kept =>
      let key := Value.tupleKey (items.map fun item => row.get item.var)
      if seen.contains key then distinctRows items rows seen kept
      else do
        chargeFor (.row kept.length)
        distinctRows items rows (key :: seen) (kept ++ [row])

def keyRows (graph : Graph) (orderBy : List (MeteredExpr Graph × Bool)) :
    List Row → Exec (List (Numbers.KeyedRow Row))
  | [] => pure []
  | row :: rows => do
      let values ← evalAll graph row (orderBy.map Prod.fst)
      let keyed ← keyRows graph orderBy rows
      return (values.zip (orderBy.map Prod.snd), row) :: keyed

section

variable (format : Value → String)

def usizeBound : Value → Except ExecError Nat
  | .int number =>
      if 0 ≤ number.toInt then .ok number.toInt.toNat
      else .error (.invalidArgument
        ("SKIP/LIMIT needs a non-negative integer, got " ++ format (.int number)))
  | other => .error (.invalidArgument
      ("SKIP/LIMIT needs a non-negative integer, got " ++ format other))

def evalBound (graph : Graph) (expr : MeteredExpr Graph) : Exec Nat := do
  let value ← expr.eval graph .empty
  .free (usizeBound format value)

def skipRows (graph : Graph) (skip : Option (MeteredExpr Graph)) (rows : List Row) :
    Exec (List Row) :=
  match skip with
  | none => pure rows
  | some expr => do
      let count ← evalBound format graph expr
      pure (rows.drop count)

def limitRows (graph : Graph) (limit : Option (MeteredExpr Graph)) (rows : List Row) :
    Exec (List Row) :=
  match limit with
  | none => pure rows
  | some expr => do
      let count ← evalBound format graph expr
      pure (rows.take count)

/-- `SKIP` and `LIMIT`. -/
def truncateRows (graph : Graph) (projection : BoundProjection Graph) (rows : List Row) :
    Exec (List Row) := do
  let skipped ← skipRows format graph projection.skip rows
  limitRows format graph projection.limit skipped

def filterRows (graph : Graph) (predicate : MeteredExpr Graph) : List Row → Exec (List Row)
  | [] => pure []
  | row :: rows => do
      let value ← predicate.eval graph row
      let verdict ← .free (truth value)
      let kept ← filterRows graph predicate rows
      return if verdict = some true then row :: kept else kept

def project (graph : Graph) (rows : List Row) (projection : BoundProjection Graph)
    (isWith : Bool) : Exec (List String × List Row) := do
  let columns := projection.items.map BoundProjectionItem.name
  let merged ←
    if projection.aggregating then do
      let grouped ← groupRows graph projection.groupingItems rows []
      let groups := grouped.map Prod.snd
      let groups := if groups = [] ∧ projection.groupingItems.isEmpty then [[]] else groups
      mergeGroups graph projection.items groups []
    else mergeRows graph projection.items rows []
  let merged ←
    if projection.distinct then distinctRows projection.items merged [] [] else pure merged
  let merged ←
    if projection.orderBy.isEmpty then pure merged
    else do
      let keyed ← keyRows graph projection.orderBy merged
      pure ((Numbers.sortRows keyed).map Prod.snd)
  let merged ← truncateRows format graph projection merged
  match isWith, projection.whereClause with
  | true, some predicate => do
      let kept ← filterRows graph predicate merged
      pure (columns, kept)
  | _, _ => pure (columns, merged)

structure QueryResult where
  columns : List String
  rows : List (List Value)
  identifierColumns : List Bool

inductive BoundClause (Graph : Type) where
  | unwind (expr : MeteredExpr Graph) (alias_ : VarId)
  | with_ (projection : BoundProjection Graph)
  | return_ (projection : BoundProjection Graph)
  /-- A procedure, with its yielded columns and those that are identifiers; the
  rows and, where nothing is yielded, the result. -/
  | call (yields : List (String × VarId)) (identifierYields : List VarId)
      (meaning : Graph → List Row → Exec (List Row × Option QueryResult))
  /-- `MATCH` and the clauses that write. -/
  | other (meaning : Graph → List Row → Exec (Graph × List Row))

/-- The rows that the `WITH` behind an `UNWIND` lets it make. -/
def unwindRowCap (graph : Graph) : Option (BoundClause Graph) → Exec (Option Nat)
  | some (.with_ projection) =>
      if projection.distinct || projection.aggregating || !projection.orderBy.isEmpty then pure none
      else
        match projection.limit with
        | none => pure none
        | some limit => do
            let cap ← evalBound format graph limit
            match projection.skip with
            | none => pure (some cap)
            | some skip => do
                let skipped ← evalBound format graph skip
                pure (some (min (cap + skipped) (2 ^ 64 - 1)))
  | _ => pure none

end

def unwindItems (alias_ : VarId) (row : Row) (cap : Option Nat) :
    List Value → List Row → Exec (List Row × Bool)
  | [], out => pure (out, false)
  | item :: items, out =>
      if cap.any fun cap => cap ≤ out.length then pure (out, true)
      else do
        chargeFor (.row out.length)
        unwindItems alias_ row cap items (out ++ [row.set alias_ item])

def unwindRows (graph : Graph) (expr : MeteredExpr Graph) (alias_ : VarId) (cap : Option Nat) :
    List Row → List Row → Exec (List Row)
  | [], out => pure out
  | row :: rows, out => do
      let list ← expr.eval graph row
      match list with
      | .null => unwindRows graph expr alias_ cap rows out
      | .list items => do
          let (out, met) ← unwindItems alias_ row cap items out
          if met then pure out else unwindRows graph expr alias_ cap rows out
      | other => .free (.error (.type ("UNWIND needs a list, got " ++ other.typeName)))

structure Running (Graph : Type) where
  graph : Graph
  rows : List Row
  result : Option QueryResult
  identifierVars : List VarId

/-- How the rows of an `UNWIND` are bounded, given the clause behind it. -/
abbrev RowCap (Graph : Type) := Graph → Option (BoundClause Graph) → Exec (Option Nat)

def runClause (format : Value → String) (rowCap : RowCap Graph) (next : Option (BoundClause Graph))
    (state : Running Graph) : BoundClause Graph → Exec (Running Graph)
  | .unwind expr alias_ => do
      let identifierVars :=
        if isIdentifierExpr expr state.identifierVars then alias_ :: state.identifierVars
        else state.identifierVars
      let cap ← rowCap state.graph next
      let rows ← unwindRows state.graph expr alias_ cap state.rows []
      return { state with rows, identifierVars }
  | .with_ projection => do
      let identifierVars := (projection.items.filter fun item =>
        isIdentifierExpr item.expr state.identifierVars).map BoundProjectionItem.var
      let (_, rows) ← project format state.graph state.rows projection true
      return { state with rows, identifierVars }
  | .return_ projection => do
      let identifierColumns := projection.items.map fun item =>
        isIdentifierExpr item.expr state.identifierVars
      let (columns, projected) ← project format state.graph state.rows projection false
      let rows := projected.map fun row => projection.items.map fun item => row.get item.var
      return { state with result := some ⟨columns, rows, identifierColumns⟩, rows := [] }
  | .call _ identifierYields meaning => do
      let (rows, answer) ← meaning state.graph state.rows
      return { state with
        rows
        result := answer <|> state.result
        identifierVars := identifierYields ++ state.identifierVars }
  | .other meaning => do
      let (graph, rows) ← meaning state.graph state.rows
      return { state with graph, rows }

def runClauses (format : Value → String) (rowCap : RowCap Graph) :
    List (BoundClause Graph) → Running Graph → Exec (Running Graph)
  | [], state => pure state
  | clause :: clauses, state => do
      let state ← runClause format rowCap clauses.head? state clause
      runClauses format rowCap clauses state

def finish (clauses : List (BoundClause Graph)) (state : Running Graph) : QueryResult :=
  match state.result, clauses.getLast? with
  | some result, _ => result
  | none, some (.call (yielded :: yields) _ _) =>
      { columns := (yielded :: yields).map Prod.fst
        rows := state.rows.map fun row => (yielded :: yields).map fun y => row.get y.2
        identifierColumns := (yielded :: yields).map fun y => state.identifierVars.contains y.2 }
  | none, _ => ⟨[], [], []⟩

def runVersioned (format : Value → String) (rowCap : RowCap Graph) (parameters : List Value)
    (clauses : List (BoundClause Graph)) (graph : Graph) : Exec (QueryResult × Graph) := do
  if parameters.any fun value => value.nestingExceeds maxValueDepth then
    .free (.error (.resourceExceeded .valueDepth))
  else
    let state ← runClauses format rowCap clauses ⟨graph, [.empty], none, []⟩
    return (finish clauses state, state.graph)

def governorMeter : Meter Governor Charge ResourceLimit := ⟨Governor.charge⟩

def underLimits {α : Type} (governor : Governor) (computation : Exec α) : Except ExecError α :=
  governorMeter.run .resourceExceeded governor computation

end Acetone.Cypher

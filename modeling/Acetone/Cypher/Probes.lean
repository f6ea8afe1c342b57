import Acetone.Cypher.Numbers
import Acetone.Lib.Product
import Acetone.Model.KeyPrefixes
import Acetone.Prolly.Ranges

/-!
# Probes

A pin on a key or an index is answered by probing every stored value that could
equal it: an integer and a whole float stand for one number and are stored in
two ways.  The probes of a tuple of pins are the combinations of those of its
components, and they are tried only while there are few of them.  The walk over
the entries that they find has a budget of its own.
-/

namespace Acetone.Cypher

open Acetone.Lib Acetone.Model
open Acetone.Graph (GraphError liftKey)
open Acetone.Prolly (Bound)

/-- `f64::abs`. -/
def floatAbs (bits : UInt64) : UInt64 := bits &&& 0x7fffffffffffffff

/-- The float `2 ^ 53`, from which on a float stands for several integers. -/
def f64ExactIntLimit : UInt64 := 0x4340000000000000

/-- A whole float at or beyond `2 ^ 53` has no unique integer. -/
def hasManyIntegers (bits : UInt64) : Bool :=
  fractIsZero bits && floatGe (floatAbs bits) f64ExactIntLimit

/-- `fract() == 0.0`, within the 64-bit integers as they round. -/
def hasInteger (bits : UInt64) : Bool :=
  fractIsZero bits && floatGe bits negTwoPow63 && floatLe bits twoPow63

namespace Adapter

mutual

/-- A runtime value as index keys show it: a carrier as its rendering. -/
def modelValueOfAt (value : Value) (depth : Nat) : Option Model.Value :=
  if depth ≥ maxValueDepth then none
  else
    match value with
    | .null => some .null
    | .bool flag => some (.bool flag)
    | .int number => some (.int number)
    | .float bits => some (.float bits)
    | .string text => some (.string text)
    | .stored value => some (.string (renderStored value))
    | .list items => (modelValuesOfAt items (depth + 1)).map .list
    | .map _ => none
    | .node _ _ _ => none
    | .relationship _ _ _ _ _ => none
    | .path _ _ => none

def modelValuesOfAt (values : List Value) (depth : Nat) : Option (List Model.Value) :=
  match values with
  | [] => some []
  | value :: values => do
      let first ← modelValueOfAt value depth
      let others ← modelValuesOfAt values depth
      some (first :: others)

end

def modelValueOf (value : Value) : Option Model.Value := modelValueOfAt value 0

/-- A stored value as an index key; null and whatever holds a NaN has none. -/
def encodeModelValue : Model.Value → Option Bytes
  | .null => none
  | value => (encodeKey [value]).toOption

def encodeIndexValue (value : Value) : Option Bytes :=
  (modelValueOf value).bind encodeModelValue

/-- A pin whose probes might miss a value that equals it. -/
def probeSetIncomplete : Value → Bool
  | .list _ => true
  | .float bits => hasManyIntegers bits
  | _ => false

/-- The index keys whose value could equal the pin. -/
def indexLookupKeys : Value → List Bytes
  | .int number =>
      [encodeModelValue (.int number), encodeModelValue (.float (floatOfInt number))].reduceOption
  | .float bits =>
      (encodeModelValue (.float bits)).toList ++
        if hasInteger bits then (encodeModelValue (.int (asI64 bits))).toList else []
  | other => (encodeIndexValue other).toList

def probeCap : Nat := 16

/-- A `usize`. -/
def usizeWord : Nat := 2 ^ 64

def cartesianProbes (values : List Value) : Option (List Bytes) :=
  if values.any probeSetIncomplete then none
  else
    let perComponent := values.map indexLookupKeys
    if perComponent.any List.isEmpty then some []
    else
      (checkedProduct usizeWord probeCap 1 (perComponent.map List.length)).map fun _ =>
        expandWith (· ++ ·) [[]] perComponent

end Adapter

/-- Which declared types rule out a carrier, so that a string is its own only
probe. -/
def stringProbeIsExact : Option PropertyType → Bool
  | some .string => true
  | some .int => true
  | some .float => true
  | some .bool => true
  | _ => false

structure IndexInfo where
  label : String
  properties : List String
  propertyTypes : List (Option PropertyType)

/-- What a scan of these entries yields: their keys in order, or some of them
and then a fault. -/
def Meets (entries : List (Bytes × Unit)) (items : List (Except GraphError Bytes)) : Prop :=
  items = entries.map (fun entry => .ok entry.1) ∨
    ∃ met fault, met <+: entries ∧ items = met.map (fun entry => .ok entry.1) ++ [.error fault]

/-- An index map that is read entry by entry. -/
structure IndexReader where
  keys : KeySet Bytes
  scan : Bound → Bound → Except GraphError (List (Except GraphError Bytes))
  scan_spec : ∀ low high items, scan low high = .ok items →
    Meets (keys.entries.filter fun entry =>
      low.admits .forward entry.1 && high.admits .reverse entry.1) items

structure Snapshot where
  indexes : SortedMap String IndexReader
  estimateNodes : Option Nat

/-- The first error met and the sampled count are kept from read to read. -/
structure StoreBackedSource where
  snapshot : Snapshot
  keyTypes : SortedMap String (List (Option PropertyType))
  indexes : SortedMap String IndexInfo
  error : Option GraphError
  nodeCount : Option Nat

/-- The outcome of collecting the candidates of a probe under a budget. -/
inductive Candidates where
  | complete (keys : List NodeKey)
  | overBudget

def candidateFloor : Nat := 32

def candidateCap (estimatedRows : Nat) : Nat := max (estimatedRows / 200) candidateFloor

namespace Snapshot

/-- The nodes of the entries met, until one is not admitted or the cap is
exceeded. -/
def collect (cap : Nat) (admits : Bytes → Bool) (out : List NodeKey) :
    List (Except GraphError Bytes) → Except GraphError (List NodeKey)
  | [] => .ok out
  | item :: items => do
      let key ← item
      if !admits key then .ok out
      else
        let entry ← liftKey (IndexEntry.decode key)
        let out := out ++ [entry.node]
        if cap < out.length then .ok out else collect cap admits out items

def indexScanCapped (snapshot : Snapshot) (name : String) (leading : Bytes) (cap : Nat) :
    Except GraphError (Option (List NodeKey)) :=
  match snapshot.indexes.get name with
  | none => .ok none
  | some reader => do
      let items ← reader.scan (.included leading) .unbounded
      let keys ← collect cap leading.isPrefixOf [] items
      .ok (some keys)

end Snapshot

namespace StoreBackedSource

/-- Record the first error and go on with the fallback. -/
def fail {α : Type} (source : StoreBackedSource) (error : GraphError) (fallback : α) :
    α × StoreBackedSource :=
  (fallback, { source with error := source.error.or (some error) })

/-- The nodes map is sampled at most once. -/
def candidateBudget (source : StoreBackedSource) : Option Nat × StoreBackedSource :=
  match source.nodeCount with
  | some cached => (some (candidateCap cached), source)
  | none =>
      match source.snapshot.estimateNodes with
      | none => (none, source)
      | some sampled => (some (candidateCap sampled), { source with nodeCount := some sampled })

/-- The stored forms that a number pinned as a float could have. -/
def floatProbes (bits : UInt64) : List Model.Value :=
  .float bits :: if hasInteger bits then [.int (asI64 bits)] else []

/-- The alternatives of one component of a key; none if the pin cannot be
served. -/
def keyAlternatives (declared : Option PropertyType) : Value → Option (List Model.Value)
  | .null => none
  | .int number => some [.int number, .float (floatOfInt number)]
  | .float bits =>
      if isNan bits then none
      else if hasManyIntegers bits then none
      else some (floatProbes bits)
  | .string text => if stringProbeIsExact declared then some [.string text] else none
  | .stored _ => none
  | other => (Adapter.modelValueOf other).map fun value => [value]

def trustedTypes (source : StoreBackedSource) (label : String) (arity : Nat) :
    List (Option PropertyType) :=
  ((source.keyTypes.get label).filter fun types => types.length = arity).getD []

def keyComponents (types : List (Option PropertyType)) :
    Nat → List Value → Option (List (List Model.Value))
  | _, [] => some []
  | component, value :: values => do
      let alternatives ← keyAlternatives (types[component]?).join value
      let others ← keyComponents types (component + 1) values
      some (alternatives :: others)

def keyProbeTuples (source : StoreBackedSource) (label : String) (keyValues : List Value) :
    Option (List (List Model.Value)) := do
  let perComponent ← keyComponents (source.trustedTypes label keyValues.length) 0 keyValues
  let _ ← checkedProduct Adapter.usizeWord Adapter.probeCap 1 (perComponent.map List.length)
  some (expand perComponent)

def probeValue (info : IndexInfo) (component : Nat) : Value → Option (List Model.Value)
  | .null => some []
  | .float bits =>
      if isNan bits then some []
      else if hasManyIntegers bits then none
      else some (floatProbes bits)
  | .list _ => none
  | .stored _ => none
  | .int number => some [.int number, .float (floatOfInt number)]
  | .bool flag => some [.bool flag]
  | .string text =>
      if stringProbeIsExact (info.propertyTypes[component]?).join then some [.string text]
      else none
  | .map _ => some []
  | .node _ _ _ => some []
  | .relationship _ _ _ _ _ => some []
  | .path _ _ => some []

inductive Expansion where
  | declined
  | matchesNothing
  | tuples (label : String) (perComponent : List (List Model.Value))
      (tuples : List (List Model.Value))

/-- The components in their order, up to the first that ends the seek. -/
def probeComponents (info : IndexInfo) :
    Nat → List Value → List (List Model.Value) → Expansion ⊕ List (List Model.Value)
  | _, [], done => .inr done
  | component, value :: values, done =>
      match probeValue info component value with
      | none => .inl .declined
      | some [] => .inl .matchesNothing
      | some probes => probeComponents info (component + 1) values (done ++ [probes])

def expandIndexProbes (source : StoreBackedSource) (name : String) (properties : List String)
    (values : List Value) : Expansion :=
  match source.indexes.get name with
  | none => .declined
  | some info =>
      if info.properties ≠ properties ∨ values.length ≠ properties.length then .declined
      else
        match probeComponents info 0 values [] with
        | .inl ended => ended
        | .inr perComponent =>
            if Adapter.probeCap <
                wrappedProduct Adapter.usizeWord (perComponent.map List.length) then .declined
            else .tuples info.label perComponent (expand perComponent)

def keepNew (seen : List Bytes) (candidates : List NodeKey) :
    List NodeKey → List Bytes × List NodeKey
  | [] => (seen, candidates)
  | key :: keys =>
      match key.encode with
      | .error _ => keepNew seen candidates keys
      | .ok encoded =>
          if encoded ∈ seen then keepNew seen candidates keys
          else keepNew (encoded :: seen) (candidates ++ [key]) keys

def walkTuples (source : StoreBackedSource) (name label : String) (properties : List String)
    (cap : Nat) (seen : List Bytes) (candidates : List NodeKey) :
    List (List Model.Value) → Option Candidates × StoreBackedSource
  | [] => (some (.complete candidates), source)
  | tuple :: tuples =>
      match indexValuePrefix label properties tuple with
      | .error _ => walkTuples source name label properties cap seen candidates tuples
      | .ok leading =>
          let remaining := cap - seen.length
          match source.snapshot.indexScanCapped name leading remaining with
          | .ok none => (none, source)
          | .ok (some keys) =>
              if remaining < keys.length then (some .overBudget, source)
              else
                let (seen, candidates) := keepNew seen candidates keys
                walkTuples source name label properties cap seen candidates tuples
          | .error error => source.fail error none

def equalityCandidates (source : StoreBackedSource) (name label : String)
    (properties : List String) (tuples : List (List Model.Value)) (cap : Nat) :
    Option Candidates × StoreBackedSource :=
  source.walkTuples name label properties cap [] [] tuples

/-- The walk at the floor, and once more at the sampled budget if it exceeds
the floor. -/
def withinBudget (source : StoreBackedSource)
    (walk : StoreBackedSource → Nat → Option Candidates × StoreBackedSource) :
    Option (List NodeKey) × StoreBackedSource :=
  match walk source candidateFloor with
  | (none, source) => (none, source)
  | (some (.complete keys), source) => (some keys, source)
  | (some .overBudget, source) =>
      match source.candidateBudget with
      | (none, source) => (none, source)
      | (some budget, source) =>
          match walk source budget with
          | (none, source) => (none, source)
          | (some (.complete keys), source) => (some keys, source)
          | (some .overBudget, source) => (none, source)

def indexEqualityKeys (source : StoreBackedSource) (name : String) (properties : List String)
    (values : List Value) : Option (List NodeKey) × StoreBackedSource :=
  match source.expandIndexProbes name properties values with
  | .declined => (none, source)
  | .matchesNothing => (some [], source)
  | .tuples label _ tuples =>
      source.withinBudget fun source cap =>
        source.equalityCandidates name label properties tuples cap

end StoreBackedSource

end Acetone.Cypher

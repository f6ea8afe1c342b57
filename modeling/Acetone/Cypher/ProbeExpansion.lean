import Acetone.Cypher.Probes
import Acetone.Graph.Scans

/-!
# What probes reach

Each of the three expansions yields the product of its alternatives.  Two of
them compute the number of tuples with a checked product and are capped for
every arity; the expansion of an index seek wraps around at the end of the word
and is capped only while fewer than 64 components have two probes.  A walk that
comes back within its budget has met every entry that its probes start.
-/

namespace Acetone.Cypher

open Acetone.Lib Acetone.Model
open Acetone.Graph (GraphError liftKey liftKey_eq_ok mem_takeWhile_isPrefix)

private theorem product_eq_nil {α : Type} {components : List (List α)} (empty : [] ∈ components) :
    product components = [] := by
  rw [List.eq_nil_iff_forall_not_mem]
  intro tuple member
  have each := mem_product.mp member
  clear member
  induction each with
  | nil => cases empty
  | cons chosen _ ih =>
      rcases List.mem_cons.mp empty with here | later
      · subst here
        cases chosen
      · exact ih later

private theorem checked_expansion {α : Type} {components : List (List α)} {count : Nat}
    (within : checkedProduct Adapter.usizeWord Adapter.probeCap 1
      (components.map List.length) = some count) :
    (product components).length ≤ Adapter.probeCap := by
  obtain ⟨value, bounded⟩ := checkedProduct_eq_some (by decide) within
  rw [length_product]
  omega

theorem Adapter.cartesianProbes_spec {values : List Value} {probes : List Bytes}
    (expanded : cartesianProbes values = some probes) :
    probes = (product (values.map indexLookupKeys)).map List.flatten ∧
      probes.length ≤ probeCap := by
  rw [cartesianProbes] at expanded
  split at expanded
  · cases expanded
  · dsimp only at expanded
    split at expanded
    · next empty =>
      cases expanded
      obtain ⟨alternatives, member, isEmpty⟩ := List.any_eq_true.mp empty
      rw [List.isEmpty_iff] at isEmpty
      rw [product_eq_nil (isEmpty ▸ member)]
      exact ⟨rfl, Nat.zero_le _⟩
    · obtain ⟨count, within, rfl⟩ := Option.map_eq_some_iff.mp expanded
      rw [expandWith_append, List.length_map]
      exact ⟨rfl, checked_expansion within⟩

namespace StoreBackedSource

theorem keyProbeTuples_spec {source : StoreBackedSource} {label : String}
    {keyValues : List Value} {tuples : List (List Model.Value)}
    (expanded : source.keyProbeTuples label keyValues = some tuples) :
    ∃ perComponent,
      keyComponents (source.trustedTypes label keyValues.length) 0 keyValues =
        some perComponent ∧
      tuples = product perComponent ∧ tuples.length ≤ Adapter.probeCap := by
  obtain ⟨perComponent, components, expanded⟩ := Option.bind_eq_some_iff.mp expanded
  obtain ⟨count, within, expanded⟩ := Option.bind_eq_some_iff.mp expanded
  cases expanded
  rw [expand_eq]
  exact ⟨perComponent, components, rfl, checked_expansion within⟩

/-- A pin of a number that is stored in two ways. -/
def hasTwoProbes : Value → Bool
  | .int _ => true
  | .float bits => !isNan bits && fractIsZero bits && !hasManyIntegers bits
  | _ => false

private theorem floatPlace_floatAbs (bits : UInt64) :
    floatPlace (floatAbs bits) = (floatPlace bits).natAbs := by
  have below : (floatAbs bits).toNat = bits.toNat % 2 ^ 63 := toNat_unsigned bits
  have sign : signBit.toNat = 2 ^ 63 := rfl
  rw [natAbs_floatPlace, floatPlace, if_pos (UInt64.lt_iff_toNat_lt.mpr (by omega)), below]

private theorem floatPlace_limits :
    floatPlace negTwoPow63 = -(1086 * 2 ^ 52) ∧ floatPlace twoPow63 = 1086 * 2 ^ 52 ∧
      floatPlace f64ExactIntLimit = 1076 * 2 ^ 52 := by
  decide

/-- A whole float below `2 ^ 53` is within the 64-bit integers. -/
private theorem hasInteger_of_few {bits : UInt64} (number : isNan bits = false)
    (few : hasManyIntegers bits = false) : hasInteger bits = fractIsZero bits := by
  rw [hasManyIntegers] at few
  rw [hasInteger, floatGe_eq number (by decide), floatLe_eq number (by decide)]
  have absolute : isNan (floatAbs bits) = false := by
    rw [← Bool.not_eq_true, isNan_iff_floatPlace, floatPlace_floatAbs, Int.natAbs_natCast,
      ← isNan_iff_floatPlace, number]
    exact Bool.false_ne_true
  rw [floatGe_eq absolute (by decide), floatPlace_floatAbs] at few
  obtain ⟨low, high, limit⟩ := floatPlace_limits
  rw [limit] at few
  rw [low, high]
  cases whole : fractIsZero bits with
  | false => rfl
  | true =>
      rw [whole, Bool.true_and, decide_eq_false_iff_not] at few
      rw [Bool.true_and, Bool.and_eq_true, decide_eq_true_eq, decide_eq_true_eq]
      omega

theorem length_of_probeValue {info : IndexInfo} {component : Nat} {value : Value}
    {probes : List Model.Value} (served : probeValue info component value = some probes)
    (nonempty : probes ≠ []) : probes.length = if hasTwoProbes value then 2 else 1 := by
  cases value with
  | int number =>
      cases served
      rfl
  | float bits =>
      rw [probeValue] at served
      split at served
      · cases served
        exact absurd rfl nonempty
      · next number =>
        split at served
        · cases served
        · next few =>
          rw [Bool.not_eq_true] at number few
          cases served
          rw [floatProbes, hasInteger_of_few number few, hasTwoProbes, number, few]
          cases fractIsZero bits <;> rfl
  | string text =>
      rw [probeValue] at served
      split at served
      · cases served
        rfl
      · cases served
  | bool flag =>
      cases served
      rfl
  | null | map _ | node _ _ _ | relationship _ _ _ _ _ | path _ _ =>
      cases served
      exact absurd rfl nonempty
  | list _ | stored _ => cases served

/-- The components that are expanded are those of all pins, none of them
empty. -/
theorem probeComponents_spec {info : IndexInfo} {component : Nat} {values : List Value}
    {done perComponent : List (List Model.Value)} :
    probeComponents info component values done = .inr perComponent ↔
      ∃ probes, perComponent = done ++ probes ∧
        (values.zipIdx component).map (fun (value, k) => probeValue info k value) =
          probes.map some ∧
        ∀ alternatives ∈ probes, alternatives ≠ [] := by
  induction values generalizing component done with
  | nil =>
      constructor
      · rintro ⟨⟩
        exact ⟨[], (List.append_nil _).symm, rfl, nofun⟩
      · rintro ⟨probes, rfl, same, -⟩
        obtain rfl : probes = [] := by simpa using same.symm
        rw [probeComponents, List.append_nil]
  | cons value values ih =>
      rw [probeComponents]
      cases served : probeValue info component value with
      | none =>
          simp only [reduceCtorEq, false_iff]
          rintro ⟨probes, -, same, -⟩
          rw [List.zipIdx_cons, List.map_cons] at same
          cases probes with
          | nil => cases same
          | cons first probes => simp [served] at same
      | some alternatives =>
          cases alternatives with
          | nil =>
              simp only [reduceCtorEq, false_iff]
              rintro ⟨probes, -, same, filled⟩
              rw [List.zipIdx_cons, List.map_cons] at same
              cases probes with
              | nil => cases same
              | cons first probes =>
                  rw [List.map_cons, List.cons.injEq] at same
                  have isEmpty : first = [] := by simpa [served] using same.1.symm
                  exact filled first List.mem_cons_self isEmpty
          | cons probe others =>
              dsimp only
              rw [ih]
              constructor
              · rintro ⟨probes, rfl, same, filled⟩
                refine ⟨(probe :: others) :: probes, by simp, ?_, ?_⟩
                · rw [List.zipIdx_cons, List.map_cons, List.map_cons, same]
                  exact congrArg (· :: _) served
                · intro alternatives member
                  rcases List.mem_cons.mp member with rfl | later
                  · exact List.cons_ne_nil _ _
                  · exact filled alternatives later
              · rintro ⟨probes, rfl, same, filled⟩
                rw [List.zipIdx_cons, List.map_cons] at same
                cases probes with
                | nil => cases same
                | cons first probes =>
                    rw [List.map_cons, List.cons.injEq] at same
                    have isFirst : first = probe :: others := by
                      simpa [served] using same.1.symm
                    exact ⟨probes, by simp [isFirst], same.2, fun alternatives member =>
                      filled alternatives (List.mem_cons_of_mem _ member)⟩

private theorem probeComponents_ne_tuples {info : IndexInfo} {component : Nat}
    {values : List Value} {done : List (List Model.Value)} {label : String}
    {perComponent : List (List Model.Value)} (tuples : List (List Model.Value)) :
    probeComponents info component values done ≠ .inl (.tuples label perComponent tuples) := by
  induction values generalizing component done with
  | nil => exact nofun
  | cons value values ih =>
      rw [probeComponents]
      split
      · exact nofun
      · exact nofun
      · exact ih

/-- The number of tuples is a power of two. -/
private theorem length_product_probes {info : IndexInfo} {component : Nat} {values : List Value}
    {probes : List (List Model.Value)}
    (served : (values.zipIdx component).map (fun (value, k) => probeValue info k value) =
      probes.map some) (filled : ∀ alternatives ∈ probes, alternatives ≠ []) :
    (probes.map List.length).prod = 2 ^ values.countP hasTwoProbes := by
  induction values generalizing component probes with
  | nil =>
      obtain rfl : probes = [] := by simpa using served.symm
      rfl
  | cons value values ih =>
      rw [List.zipIdx_cons, List.map_cons] at served
      cases probes with
      | nil => cases served
      | cons first probes =>
          rw [List.map_cons, List.cons.injEq] at served
          have others := ih served.2 fun alternatives member =>
            filled alternatives (List.mem_cons_of_mem _ member)
          have here := length_of_probeValue served.1 (filled first List.mem_cons_self)
          rw [List.map_cons, List.prod_cons, others, here, List.countP_cons]
          split
          · rw [pow_succ, Nat.mul_comm]
          · rw [Nat.one_mul, Nat.add_zero]

theorem expandIndexProbes_eq_tuples {source : StoreBackedSource} {name label : String}
    {properties : List String} {values : List Value}
    {perComponent tuples : List (List Model.Value)} :
    source.expandIndexProbes name properties values = .tuples label perComponent tuples ↔
      ∃ info, source.indexes.get name = some info ∧ info.label = label ∧
        info.properties = properties ∧ values.length = properties.length ∧
        values.zipIdx.map (fun (value, k) => probeValue info k value) = perComponent.map some ∧
        (∀ alternatives ∈ perComponent, alternatives ≠ []) ∧
        2 ^ values.countP hasTwoProbes % Adapter.usizeWord ≤ Adapter.probeCap ∧
        tuples = product perComponent := by
  rw [expandIndexProbes]
  cases source.indexes.get name with
  | none => simp
  | some info =>
      dsimp only
      by_cases other : info.properties ≠ properties ∨ values.length ≠ properties.length
      · rw [if_pos other]
        constructor
        · rintro ⟨⟩
        · rintro ⟨_, ⟨⟩, -, sameProperties, sameArity, -⟩
          rcases other with different | different
          · exact absurd sameProperties different
          · exact absurd sameArity different
      · rw [if_neg other, not_or, not_not, not_not] at *
        have reached := @probeComponents_spec info 0 values []
        simp only [List.nil_append, exists_eq_left'] at reached
        constructor
        · intro expanded
          split at expanded
          · next ended isEnded =>
            subst expanded
            exact absurd isEnded (probeComponents_ne_tuples _)
          · next components found =>
            obtain ⟨served, filled⟩ := reached.mp found
            split at expanded
            · cases expanded
            · next within =>
              cases expanded
              rw [wrappedProduct_eq (by decide), length_product_probes served filled] at within
              exact ⟨info, rfl, rfl, other.1, other.2, served, filled, not_lt.mp within,
                expand_eq _⟩
        · rintro ⟨_, ⟨⟩, rfl, -, -, served, filled, within, rfl⟩
          rw [reached.mpr ⟨served, filled⟩]
          dsimp only
          rw [wrappedProduct_eq (by decide), length_product_probes served filled,
            if_neg (not_lt.mpr within), expand_eq]

/-- The arities at which the wrapped product lets an expansion pass. -/
private theorem wrapped_within {count : Nat}
    (within : 2 ^ count % Adapter.usizeWord ≤ Adapter.probeCap) : count ≤ 4 ∨ 64 ≤ count := by
  by_contra between
  have small : 2 ^ count < 2 ^ 64 := Nat.pow_lt_pow_right (by decide) (by omega)
  have large : 2 ^ 5 ≤ 2 ^ count := Nat.pow_le_pow_right (by decide) (by omega)
  rw [Adapter.usizeWord, Nat.mod_eq_of_lt small] at within
  exact absurd (large.trans within) (by decide)

private theorem wrapped_of_many {count : Nat} (many : 64 ≤ count) :
    2 ^ count % Adapter.usizeWord = 0 :=
  Nat.mod_eq_zero_of_dvd (Nat.pow_dvd_pow 2 many)

end StoreBackedSource

/-- An entry of the index under this prefix is of the node with this key. -/
def IndexReader.Holds (reader : IndexReader) (leading node : Bytes) : Prop :=
  ∃ entry ∈ reader.keys.entries, leading <+: entry.1 ∧
    ∃ decoded, IndexEntry.decode entry.1 = .ok decoded ∧ decoded.node.encode = .ok node

private theorem Meets.cons {entry : Bytes × Unit} {entries : List (Bytes × Unit)}
    {items : List (Except GraphError Bytes)} (meets : Meets (entry :: entries) items) :
    (∃ fault, items = [.error fault]) ∨
      ∃ rest, items = .ok entry.1 :: rest ∧ Meets entries rest := by
  rcases meets with rfl | ⟨met, fault, leads, rfl⟩
  · exact .inr ⟨_, rfl, .inl rfl⟩
  · cases met with
    | nil => exact .inl ⟨fault, rfl⟩
    | cons first met =>
        obtain ⟨rfl, further⟩ := List.cons_prefix_cons.mp leads
        exact .inr ⟨_, rfl, .inr ⟨met, fault, further, rfl⟩⟩

/-- What is collected within the cap is of every entry up to the first that is
not admitted. -/
private theorem collect_spec {cap : Nat} {admits : Bytes → Bool} {entries : List (Bytes × Unit)}
    {items : List (Except GraphError Bytes)} {out keys : List NodeKey}
    (meets : Meets entries items) (collected : Snapshot.collect cap admits out items = .ok keys)
    (within : keys.length ≤ cap) :
    (∀ entry ∈ entries.takeWhile (fun entry => admits entry.1),
      ∃ decoded, IndexEntry.decode entry.1 = .ok decoded ∧ decoded.node ∈ keys) ∧
    out ⊆ keys ∧
    ∀ key ∈ keys, key ∈ out ∨ ∃ entry ∈ entries.takeWhile (fun entry => admits entry.1),
      ∃ decoded, IndexEntry.decode entry.1 = .ok decoded ∧ decoded.node = key := by
  induction entries generalizing items out with
  | nil =>
      rcases meets with rfl | ⟨met, fault, leads, rfl⟩
      · cases collected
        exact ⟨nofun, List.Subset.refl _, fun key member => .inl member⟩
      · obtain rfl := List.prefix_nil.mp leads
        cases collected
  | cons entry entries ih =>
      rcases meets.cons with ⟨fault, rfl⟩ | ⟨rest, rfl, further⟩
      · cases collected
      · rw [Snapshot.collect, ok_bind] at collected
        cases admitted : admits entry.1 with
        | false =>
            rw [admitted] at collected
            cases collected
            rw [List.takeWhile_cons_of_neg (by simp [admitted])]
            exact ⟨nofun, List.Subset.refl _, fun key member => .inl member⟩
        | true =>
            rw [admitted] at collected
            obtain ⟨decoded, isDecoded, collected⟩ := bind_eq_ok.mp collected
            rw [liftKey_eq_ok] at isDecoded
            dsimp only at collected
            split at collected
            · next beyond =>
              cases collected
              omega
            · obtain ⟨met, kept, from_⟩ := ih further collected
              rw [List.takeWhile_cons_of_pos (by simpa using admitted)]
              refine ⟨?_, fun key member => kept (List.mem_append_left _ member), ?_⟩
              · intro other member
                rcases List.mem_cons.mp member with rfl | later
                · exact ⟨decoded, isDecoded, kept (by simp)⟩
                · exact met other later
              · intro key member
                rcases from_ key member with early | ⟨other, later, found⟩
                · rcases List.mem_append.mp early with before | here
                  · exact .inl before
                  · exact .inr ⟨entry, List.mem_cons_self, decoded, isDecoded,
                      (List.mem_singleton.mp here).symm⟩
                · exact .inr ⟨other, List.mem_cons_of_mem _ later, found⟩

/-- A capped scan whose result is within the cap has met every entry. -/
theorem Snapshot.indexScanCapped_spec {snapshot : Snapshot} {name : String} {leading : Bytes}
    {cap : Nat} {keys : List NodeKey}
    (scanned : snapshot.indexScanCapped name leading cap = .ok (some keys))
    (within : keys.length ≤ cap) :
    ∃ reader, snapshot.indexes.get name = some reader ∧
      (∀ entry ∈ reader.keys.entries, leading <+: entry.1 →
        ∃ decoded, IndexEntry.decode entry.1 = .ok decoded ∧ decoded.node ∈ keys) ∧
      ∀ key ∈ keys, ∃ node, key.encode = .ok node ∧ reader.Holds leading node := by
  rw [indexScanCapped] at scanned
  split at scanned
  · cases scanned
  · next reader found =>
    obtain ⟨items, ranged, scanned⟩ := bind_eq_ok.mp scanned
    obtain ⟨collected, isCollected, ⟨⟩⟩ := bind_eq_ok.mp scanned
    have meets := reader.scan_spec _ _ _ ranged
    obtain ⟨met, -, from_⟩ := collect_spec meets isCollected within
    have above : ∀ entry ∈ reader.keys.entries.filter (fun entry =>
        (Prolly.Bound.included leading).admits .forward entry.1 &&
          Prolly.Bound.unbounded.admits .reverse entry.1), leading ≤ entry.1 := by
      intro entry member
      have bounds := (List.mem_filter.mp member).2
      simpa [Prolly.Bound.admits] using bounds
    have sorted := reader.keys.ascending.sublist (List.filter_sublist (p := fun entry =>
      (Prolly.Bound.included leading).admits .forward entry.1 &&
        Prolly.Bound.unbounded.admits .reverse entry.1))
    have members (entry : Bytes × Unit) := @mem_takeWhile_isPrefix _ _ sorted leading above entry
    refine ⟨reader, found, ?_, ?_⟩
    · intro entry inside starts
      have admitted : leading ≤ entry.1 := ((isPrefix_iff_mem_range _ _).mp starts).1
      exact met entry ((members entry).mpr
        ⟨List.mem_filter.mpr ⟨inside, by simpa [Prolly.Bound.admits] using admitted⟩, starts⟩)
    · intro key member
      obtain ⟨entry, reached, decoded, isDecoded, rfl⟩ :=
        (from_ key member).resolve_left (List.not_mem_nil)
      obtain ⟨inRange, starts⟩ := (members entry).mp reached
      obtain ⟨node, encoded⟩ := IndexEntry.encode_node (IndexEntry.encode_of_decode isDecoded)
      exact ⟨node, encoded, entry, (List.mem_filter.mp inRange).1, starts, decoded, isDecoded,
        encoded⟩

/-- An entry of the named index under this prefix is of the node with this key. -/
def Snapshot.Holds (snapshot : Snapshot) (name : String) (leading node : Bytes) : Prop :=
  ∃ reader, snapshot.indexes.get name = some reader ∧ reader.Holds leading node

def Encoded (keys : List NodeKey) (node : Bytes) : Prop := ∃ key ∈ keys, key.encode = .ok node

theorem encoded_append {left right : List NodeKey} {node : Bytes} :
    Encoded (left ++ right) node ↔ Encoded left node ∨ Encoded right node := by
  simp only [Encoded, List.mem_append, or_and_right, exists_or]

theorem encoded_cons {key : NodeKey} {keys : List NodeKey} {node : Bytes} :
    Encoded (key :: keys) node ↔ key.encode = .ok node ∨ Encoded keys node := by
  simp only [Encoded, List.mem_cons, or_and_right, exists_or, exists_eq_left]

/-- The keys are those of all entries that the prefixes start, each once. -/
structure CompleteWalk (snapshot : Snapshot) (name : String) (leadings : List Bytes)
    (keys : List NodeKey) : Prop where
  present : leadings ≠ [] → snapshot.indexes.get name ≠ none
  decodes : ∀ reader, snapshot.indexes.get name = some reader → ∀ leading ∈ leadings,
    ∀ entry ∈ reader.keys.entries, leading <+: entry.1 →
      ∃ decoded, IndexEntry.decode entry.1 = .ok decoded
  encodes : ∀ key ∈ keys, ∃ node, key.encode = .ok node
  meets : ∀ node, Encoded keys node ↔ ∃ leading ∈ leadings, snapshot.Holds name leading node
  distinct : (keys.map NodeKey.encode).Nodup

namespace StoreBackedSource

private structure Tracks (seen : List Bytes) (candidates : List NodeKey) : Prop where
  sees : ∀ node, node ∈ seen ↔ Encoded candidates node
  distinct : (candidates.map NodeKey.encode).Nodup

private theorem Tracks.add {seen : List Bytes} {candidates : List NodeKey} {key : NodeKey}
    {node : Bytes} (tracks : Tracks seen candidates) (encoding : key.encode = .ok node)
    (new : node ∉ seen) : Tracks (node :: seen) (candidates ++ [key]) := by
  constructor
  · intro other
    rw [List.mem_cons, tracks.sees, encoded_append, encoded_cons, encoding, or_comm]
    simp [Encoded, eq_comm]
  · rw [List.map_append, List.map_singleton, List.nodup_append]
    refine ⟨tracks.distinct, List.nodup_singleton _, ?_⟩
    rintro _ inside _ isNew rfl
    obtain ⟨earlier, present, isNode⟩ := List.mem_map.mp inside
    rw [List.mem_singleton.mp isNew, encoding] at isNode
    exact new ((tracks.sees node).mpr ⟨earlier, present, isNode⟩)

private theorem keepNew_spec {seen : List Bytes} {candidates keys : List NodeKey}
    (tracks : Tracks seen candidates) :
    Tracks (keepNew seen candidates keys).1 (keepNew seen candidates keys).2 ∧
      (keepNew seen candidates keys).2 ⊆ candidates ++ keys ∧
      ∀ node, Encoded (keepNew seen candidates keys).2 node ↔
        Encoded candidates node ∨ Encoded keys node := by
  induction keys generalizing seen candidates with
  | nil => exact ⟨tracks, by simp [keepNew], by simp [keepNew, Encoded]⟩
  | cons key keys ih =>
      rw [keepNew]
      have wider : candidates ++ keys ⊆ candidates ++ key :: keys :=
        List.append_subset.mpr ⟨List.subset_append_left _ _, fun other member =>
          List.mem_append_right _ (List.mem_cons_of_mem _ member)⟩
      cases encoding : key.encode with
      | error reason =>
          obtain ⟨tracked, from_, same⟩ := ih tracks
          refine ⟨tracked, List.Subset.trans from_ wider, fun node => ?_⟩
          rw [same, encoded_cons, encoding]
          simp
      | ok encoded =>
          dsimp only
          split
          · next old =>
            obtain ⟨tracked, from_, same⟩ := ih tracks
            refine ⟨tracked, List.Subset.trans from_ wider, fun node => ?_⟩
            have present := (tracks.sees encoded).mp old
            rw [same, encoded_cons, encoding, Except.ok.injEq]
            constructor
            · exact Or.imp_right .inr
            · rintro (before | rfl | after)
              · exact .inl before
              · exact .inl present
              · exact .inr after
          · next new =>
            obtain ⟨tracked, from_, same⟩ := ih (tracks.add encoding new)
            refine ⟨tracked, by simpa using from_, fun node => ?_⟩
            rw [same, encoded_append, encoded_cons, encoded_cons, or_assoc]
            simp [Encoded]

/-- One more prefix, walked within what is left of the budget. -/
private theorem extendWalk {snapshot : Snapshot} {name : String} {leadings : List Bytes}
    {leading : Bytes} {remaining : Nat} {seen : List Bytes} {candidates keys : List NodeKey}
    (walk : CompleteWalk snapshot name leadings candidates) (tracks : Tracks seen candidates)
    (scanned : snapshot.indexScanCapped name leading remaining = .ok (some keys))
    (within : keys.length ≤ remaining) :
    CompleteWalk snapshot name (leadings ++ [leading]) (keepNew seen candidates keys).2 ∧
      Tracks (keepNew seen candidates keys).1 (keepNew seen candidates keys).2 := by
  obtain ⟨reader, found, met, from_⟩ := snapshot.indexScanCapped_spec scanned within
  obtain ⟨tracked, kept, same⟩ := @keepNew_spec seen candidates keys tracks
  refine ⟨⟨fun _ => by rw [found]; exact Option.some_ne_none _, ?_, ?_, ?_, tracked.distinct⟩,
    tracked⟩
  · intro other isOther earlier member entry inside starts
    rcases List.mem_append.mp member with before | here
    · exact walk.decodes other isOther earlier before entry inside starts
    · rw [List.mem_singleton.mp here] at starts
      rw [found] at isOther
      cases isOther
      obtain ⟨decoded, isDecoded, -⟩ := met entry inside starts
      exact ⟨decoded, isDecoded⟩
  · intro key member
    rcases List.mem_append.mp (kept member) with before | new
    · exact walk.encodes key before
    · obtain ⟨node, encoded, -⟩ := from_ key new
      exact ⟨node, encoded⟩
  · intro node
    have here : Encoded keys node ↔ snapshot.Holds name leading node := by
      constructor
      · rintro ⟨key, member, isNode⟩
        obtain ⟨encoded, isEncoded, holds⟩ := from_ key member
        rw [isNode] at isEncoded
        cases isEncoded
        exact ⟨reader, found, holds⟩
      · rintro ⟨other, isOther, entry, inside, starts, decoded, isDecoded, isNode⟩
        rw [found] at isOther
        cases isOther
        obtain ⟨again, isAgain, isKey⟩ := met entry inside starts
        rw [isDecoded] at isAgain
        cases isAgain
        exact ⟨decoded.node, isKey, isNode⟩
    rw [same, walk.meets, here]
    simp only [List.mem_append, List.mem_singleton, or_and_right, exists_or, exists_eq_left]

def leadings (label : String) (properties : List String) (tuples : List (List Model.Value)) :
    List Bytes :=
  tuples.filterMap fun tuple => (indexValuePrefix label properties tuple).toOption

private theorem walkTuples_spec {source : StoreBackedSource} {name label : String}
    {properties : List String} {cap : Nat} {seen done : List Bytes}
    {candidates keys : List NodeKey} {tuples : List (List Model.Value)}
    (walk : CompleteWalk source.snapshot name done candidates) (tracks : Tracks seen candidates)
    (ends : (source.walkTuples name label properties cap seen candidates tuples).1 =
      some (.complete keys)) :
    CompleteWalk source.snapshot name (done ++ leadings label properties tuples) keys := by
  induction tuples generalizing seen done candidates with
  | nil =>
      cases ends
      rw [leadings, List.filterMap_nil, List.append_nil]
      exact walk
  | cons tuple tuples ih =>
      rw [walkTuples] at ends
      cases encoding : indexValuePrefix label properties tuple with
      | error reason =>
          rw [encoding] at ends
          have later := ih walk tracks ends
          rwa [leadings, List.filterMap_cons_none (by rw [encoding]; rfl)]
      | ok leading =>
          rw [encoding] at ends
          dsimp only at ends
          rw [leadings, List.filterMap_cons_some (by rw [encoding]; rfl), List.append_cons]
          split at ends
          · cases ends
          · next found scanned =>
            split at ends
            · cases ends
            · next within =>
              obtain ⟨extended, tracked⟩ := extendWalk walk tracks scanned (Nat.le_of_not_lt within)
              exact ih extended tracked ends
          · cases ends

theorem equalityCandidates_complete {source : StoreBackedSource} {name label : String}
    {properties : List String} {tuples : List (List Model.Value)} {cap : Nat}
    {keys : List NodeKey}
    (ends : (source.equalityCandidates name label properties tuples cap).1 =
      some (.complete keys)) :
    CompleteWalk source.snapshot name (leadings label properties tuples) keys := by
  have start : CompleteWalk source.snapshot name [] [] :=
    ⟨absurd rfl, nofun, nofun, by simp [Encoded], List.nodup_nil⟩
  exact walkTuples_spec start ⟨by simp [Encoded], List.nodup_nil⟩ ends

private theorem walkTuples_snapshot {source : StoreBackedSource} {name label : String}
    {properties : List String} {cap : Nat} {seen : List Bytes} {candidates : List NodeKey}
    {tuples : List (List Model.Value)} :
    (source.walkTuples name label properties cap seen candidates tuples).2.snapshot =
      source.snapshot := by
  induction tuples generalizing seen candidates with
  | nil => rfl
  | cons tuple tuples ih =>
      rw [walkTuples]
      split
      · exact ih
      · dsimp only
        split
        · rfl
        · split
          · rfl
          · exact ih
        · rfl

/-- What a budgeted walk returns was returned as complete by a walk over the
same snapshot. -/
theorem withinBudget_spec {source : StoreBackedSource} {keys : List NodeKey}
    {walk : StoreBackedSource → Nat → Option Candidates × StoreBackedSource}
    (kept : ∀ state cap, (walk state cap).2.snapshot = state.snapshot)
    (returned : (source.withinBudget walk).1 = some keys) :
    ∃ state cap, state.snapshot = source.snapshot ∧
      (walk state cap).1 = some (.complete keys) := by
  rw [withinBudget] at returned
  have first := kept source candidateFloor
  split at returned
  · cases returned
  · next found state atFloor =>
    cases returned
    exact ⟨source, candidateFloor, rfl, by rw [atFloor]⟩
  · next state atFloor =>
    rw [atFloor] at first
    split at returned
    · cases returned
    · next budget sampled isBudget =>
      have same : sampled.snapshot = state.snapshot := by
        rw [candidateBudget] at isBudget
        split at isBudget
        · cases isBudget
          rfl
        · split at isBudget
          · cases isBudget
          · cases isBudget
            rfl
      split at returned
      · cases returned
      · next found final atBudget =>
        cases returned
        exact ⟨sampled, budget, same.trans first, by rw [atBudget]⟩
      · cases returned

/-- Every expansion yields at most sixteen tuples, and exactly the product of
the alternatives; what comes back within the budget is a complete walk. -/
structure ProbesBounded (source : StoreBackedSource) (label : String) (pins : List Value)
    (name : String) (properties : List String) (values : List Value) : Prop where
  keyTuples : ∀ tuples, source.keyProbeTuples label pins = some tuples →
    tuples.length ≤ 16 ∧ ∃ perComponent,
      keyComponents (source.trustedTypes label pins.length) 0 pins = some perComponent ∧
        tuples = product perComponent
  memoryProbes : ∀ probes, Adapter.cartesianProbes pins = some probes →
    probes.length ≤ 16 ∧
      probes = (product (pins.map Adapter.indexLookupKeys)).map List.flatten
  indexTuples : ∀ indexLabel perComponent tuples,
    source.expandIndexProbes name properties values = .tuples indexLabel perComponent tuples →
      tuples.length ≤ 16 ∧ tuples = product perComponent ∧
        ∃ info, source.indexes.get name = some info ∧
          values.zipIdx.map (fun (value, k) => probeValue info k value) = perComponent.map some
  budgeted : ∀ walk : StoreBackedSource → Nat → Option Candidates × StoreBackedSource,
    (∀ state cap, (walk state cap).2.snapshot = state.snapshot) →
      ∀ keys, (source.withinBudget walk).1 = some keys →
        ∃ state cap, state.snapshot = source.snapshot ∧
          (walk state cap).1 = some (.complete keys)
  complete : ∀ indexLabel perComponent tuples,
    source.expandIndexProbes name properties values = .tuples indexLabel perComponent tuples →
      ∀ keys, (source.indexEqualityKeys name properties values).1 = some keys →
        CompleteWalk source.snapshot name (leadings indexLabel properties tuples) keys

/-- An index seek reaches its cap with 64 components or more that have two
probes: their product leaves the word. -/
def ProductWraps (source : StoreBackedSource) (name : String) (properties : List String)
    (values : List Value) : Prop :=
  ∃ info, source.indexes.get name = some info ∧ info.properties = properties ∧
    values.length = properties.length ∧
    (∀ pin ∈ values.zipIdx, ∃ probes, probeValue info pin.2 pin.1 = some probes ∧ probes ≠ []) ∧
    64 ≤ values.countP hasTwoProbes

private theorem exists_components {info : IndexInfo} {pins : List (Value × Nat)}
    (served : ∀ pin ∈ pins, ∃ probes, probeValue info pin.2 pin.1 = some probes ∧ probes ≠ []) :
    ∃ perComponent : List (List Model.Value),
      pins.map (fun (value, k) => probeValue info k value) = perComponent.map some ∧
        ∀ alternatives ∈ perComponent, alternatives ≠ [] := by
  induction pins with
  | nil => exact ⟨[], rfl, nofun⟩
  | cons pin pins ih =>
      obtain ⟨probes, isServed, filled⟩ := served pin List.mem_cons_self
      obtain ⟨others, same, allFilled⟩ :=
        ih fun other member => served other (List.mem_cons_of_mem _ member)
      refine ⟨probes :: others, ?_, ?_⟩
      · rw [List.map_cons, List.map_cons, same]
        exact congrArg (· :: _) isServed
      · intro alternatives member
        rcases List.mem_cons.mp member with rfl | later
        · exact filled
        · exact allFilled alternatives later

/-- Such a seek passes its cap and expands to at least `2 ^ 64` tuples. -/
theorem ProductWraps.expands {source : StoreBackedSource} {name : String}
    {properties : List String} {values : List Value}
    (wraps : ProductWraps source name properties values) :
    ∃ label perComponent tuples,
      source.expandIndexProbes name properties values = .tuples label perComponent tuples ∧
        2 ^ 64 ≤ tuples.length := by
  obtain ⟨info, found, sameProperties, arity, served, many⟩ := wraps
  obtain ⟨perComponent, same, filled⟩ := exists_components served
  refine ⟨info.label, perComponent, product perComponent, ?_, ?_⟩
  · rw [expandIndexProbes_eq_tuples]
    exact ⟨info, found, rfl, sameProperties, arity, same, filled,
      by rw [wrapped_of_many many]; exact Nat.zero_le _, rfl⟩
  · rw [length_product, length_product_probes same filled]
    exact Nat.pow_le_pow_right (by decide) many

/-- Every expansion is bounded and every returned walk complete, unless the
product of an index seek wraps around. -/
theorem probesBounded_iff (source : StoreBackedSource) (label : String) (pins : List Value)
    (name : String) (properties : List String) (values : List Value) :
    ProbesBounded source label pins name properties values ↔
      ¬ ProductWraps source name properties values := by
  constructor
  · intro bounded wraps
    obtain ⟨indexLabel, perComponent, tuples, expanded, many⟩ := wraps.expands
    have few := (bounded.indexTuples indexLabel perComponent tuples expanded).1
    omega
  · intro stays
    constructor
    · intro tuples expanded
      obtain ⟨perComponent, components, isProduct, within⟩ := keyProbeTuples_spec expanded
      exact ⟨within, perComponent, components, isProduct⟩
    · intro probes expanded
      exact (Adapter.cartesianProbes_spec expanded).symm
    · intro indexLabel perComponent tuples expanded
      obtain ⟨info, found, -, sameProperties, arity, same, filled, within, rfl⟩ :=
        expandIndexProbes_eq_tuples.mp expanded
      have few : values.countP hasTwoProbes ≤ 4 := by
        refine (wrapped_within within).resolve_right fun many => stays ⟨info, found,
          sameProperties, arity, fun pin member => ?_, many⟩
        have inMap := List.mem_map_of_mem (f := fun pin : Value × Nat =>
          probeValue info pin.2 pin.1) member
        rw [same] at inMap
        obtain ⟨probes, isProbes, served⟩ := List.mem_map.mp inMap
        exact ⟨probes, served.symm, filled probes isProbes⟩
      refine ⟨?_, rfl, info, found, same⟩
      rw [length_product, length_product_probes same filled]
      exact Nat.pow_le_pow_right (by decide) few
    · exact fun walk kept keys returned => withinBudget_spec kept returned
    · intro indexLabel perComponent tuples expanded keys returned
      rw [indexEqualityKeys, expanded] at returned
      obtain ⟨state, cap, same, ends⟩ :=
        withinBudget_spec (fun state cap => walkTuples_snapshot) returned
      exact same ▸ equalityCandidates_complete ends

/-- An index over 64 properties, all of them pinned to a number. -/
def wideIndex : StoreBackedSource where
  snapshot := ⟨.empty, none⟩
  keyTypes := .empty
  indexes := SortedMap.empty.put "wide"
    ⟨"Host", (List.range 64).map fun k => "p" ++ toString k, List.replicate 64 none⟩
  error := none
  nodeCount := none

theorem wideIndex_not_bounded :
    ¬ ProbesBounded wideIndex "Host" [] "wide" ((List.range 64).map fun k => "p" ++ toString k)
      (List.replicate 64 (.int 1)) := by
  intro bounded
  have wraps : ProductWraps wideIndex "wide" ((List.range 64).map fun k => "p" ++ toString k)
      (List.replicate 64 (.int 1)) := by
    refine ⟨_, by rw [wideIndex, SortedMap.get_put, if_pos rfl], rfl, by simp, ?_, ?_⟩
    · rintro ⟨value, k⟩ member
      have isOne := List.eq_of_mem_replicate (List.fst_mem_of_mem_zipIdx member)
      rw [show value = .int 1 from isOne]
      exact ⟨_, rfl, List.cons_ne_nil _ _⟩
    · rw [List.countP_replicate]
      decide
  obtain ⟨indexLabel, perComponent, tuples, expanded, many⟩ := wraps.expands
  have few := (bounded.indexTuples indexLabel perComponent tuples expanded).1
  omega

end StoreBackedSource

end Acetone.Cypher

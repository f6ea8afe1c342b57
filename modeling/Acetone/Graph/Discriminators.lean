import Acetone.Graph.Rekeying
import Acetone.Graph.Retyping

/-!
# Provenance of discriminators

The discriminator of an edge is stored in its key only, under the name that the
declaration of its type gives it.  What an edge was written under is what its type
declares, over saves, renames and rekeys, as long as each save puts its edges as the
declarations say.
-/

namespace Acetone.Graph

open Acetone.Lib Acetone.Model

/-- An edge is keyed as its type declares: a declared discriminator has a value, which is
in the key and not in the record, and one that is not declared has none. -/
structure FitsDecl (schema : SchemaMap) (rtype : String) (disc : Value) (record : EdgeRecord) :
    Prop where
  shaped : Shaped (discriminatorOf schema rtype) disc
  keyOnly : ∀ name, discriminatorOf schema rtype = some name →
    record.properties.get name = none

/-- The discriminators that the edge under a key was written under. -/
abbrev Origins := Bytes → Option String → Prop

/-- Every edge is keyed as its type declares, and was written under that declaration. -/
structure Current (manifest : Manifest) (origins : Origins) : Prop where
  fits : ∀ edge record, HoldsEdge manifest.edgesFwd edge record →
    FitsDecl manifest.schema edge.rtype edge.disc record
  written : ∀ edge record, HoldsEdge manifest.edgesFwd edge record →
    ∃ name, origins (edgeBytes edge) name
  current : ∀ edge record, HoldsEdge manifest.edgesFwd edge record →
    ∀ name, origins (edgeBytes edge) name → name = discriminatorOf manifest.schema edge.rtype

def Leaves (writes : List Write) (edge : EdgeKey) (record : EdgeRecord) : Prop :=
  ∃ earlier later, writes = earlier ++ .putEdge edge record :: later ∧
    ∀ write ∈ later, ∀ op ∈ write.edgeOps, op.key ≠ edgeBytes edge

def schemaAfter (schema : SchemaMap) (writes : List Write) : SchemaMap :=
  schema.applyAll (writes.flatMap Write.schemaOps)

/-- The edges that writes leave are keyed as the schema declares that they leave. -/
def WritesFit (repo : Repository) (writes : List Write) : Prop :=
  ∀ edge record, Leaves writes edge record →
    FitsDecl (schemaAfter repo.workspace.manifest.schema writes) edge.rtype edge.disc record

/-- An edge that is put is written under what the schema then declares. -/
def savedOrigins (origins : Origins) (schema : SchemaMap) (writes : List Write) : Origins :=
  fun forward name =>
    (∃ edge record, Leaves writes edge record ∧ edge.encodeFwd = .ok forward ∧
      name = discriminatorOf (schemaAfter schema writes) edge.rtype) ∨
    ((∀ write ∈ writes, ∀ op ∈ write.edgeOps, op.key ≠ forward) ∧ origins forward name)

/-- An edge that goes to another key takes along what it was written under. -/
def movedOrigins (origins : Origins) (edges : EdgeMap) (becomes : EdgeKey → EdgeKey → Prop) :
    Origins :=
  fun forward name => ∃ source own edge, HoldsEdge edges source own ∧ becomes source edge ∧
    edge.encodeFwd = .ok forward ∧ origins (edgeBytes source) name

def RenameBecomes (old new : String) (source edge : EdgeKey) : Prop :=
  if source.rtype = old then RetypedAs new source edge else edge = source

/-- The repositories, with what their edges were written under, that are reached from
the empty one by saves that `allowed` admits, renames and rekeys, all successful. -/
inductive Provenance (hash : Commit → Nat) (allowed : Repository → List Write → Prop) :
    Repository → Origins → Prop
  | init : Provenance hash allowed .init fun _ _ => False
  | save {repo next : Repository} {origins : Origins} {writes : List Write} {txn : Transaction} :
      Provenance hash allowed repo origins → allowed repo writes →
      (Transaction.beginWrite repo.workspace).writeAll writes = .ok txn →
      repo.save txn = (.ok (), next) →
      Provenance hash allowed next (savedOrigins origins repo.workspace.manifest.schema writes)
  | rename {repo next : Repository} {origins : Origins} {old new : String}
      {policy : RenamePolicy} {stamp : Nat} {commit : Commit} :
      Provenance hash allowed repo origins →
      repo.renameRelType hash old new policy stamp = (.ok commit, next) →
      Provenance hash allowed next
        (movedOrigins origins repo.workspace.manifest.edgesFwd (RenameBecomes old new))
  | rekey {repo next : Repository} {origins : Origins} {old new : NodeKey} {stamp : Nat}
      {commit : Commit} :
      Provenance hash allowed repo origins →
      repo.rekey hash old new stamp = (.ok commit, next) →
      Provenance hash allowed next
        (movedOrigins origins repo.workspace.manifest.edgesFwd
          fun source edge => edge = rekeyedEdge old new source)

/-- An edge of the result was left by the writes, or they do not touch it. -/
theorem leaves_or_kept {edges : EdgeMap} {writes : List Write} {forward : Bytes}
    {record : EdgeRecord}
    (found : (edges.applyAll (writes.flatMap Write.edgeOps)).get forward = some record) :
    (∃ edge, Leaves writes edge record ∧ edgeBytes edge = forward) ∨
      ((∀ write ∈ writes, ∀ op ∈ write.edgeOps, op.key ≠ forward) ∧
        edges.get forward = some record) := by
  induction writes using List.reverseRecOn with
  | nil => exact .inr ⟨fun write member => absurd member List.not_mem_nil, found⟩
  | append_singleton writes last ih =>
      rw [List.flatMap_append, SortedMap.applyAll_append, List.flatMap_singleton] at found
      rcases get_applyAll_cases found with ⟨op, member, isKey, isRecord⟩ | ⟨free, before⟩
      · refine .inl ?_
        cases last with
        | putEdge edge own =>
            rw [Write.edgeOps, List.mem_singleton] at member
            subst member
            cases isRecord
            exact ⟨edge, ⟨writes, [], rfl, fun write member => absurd member List.not_mem_nil⟩, isKey⟩
        | deleteEdge edge =>
            rw [Write.edgeOps, List.mem_singleton] at member
            subst member
            cases isRecord
        | putNode key own => exact absurd member List.not_mem_nil
        | deleteNode key => exact absurd member List.not_mem_nil
        | putSchema entry => exact absurd member List.not_mem_nil
        | deleteSchemaEntry rtype => exact absurd member List.not_mem_nil
      · rcases ih before with ⟨edge, ⟨earlier, later, rfl, after⟩, rfl⟩ | ⟨untouched, kept⟩
        · refine .inl ⟨edge, ⟨earlier, later ++ [last], ?_, ?_⟩, rfl⟩
          · rw [List.append_assoc, List.cons_append]
          · intro write member
            rcases List.mem_append.mp member with among | isLast
            · exact after write among
            · rw [List.mem_singleton.mp isLast]
              exact free
        · refine .inr ⟨?_, kept⟩
          intro write member
          rcases List.mem_append.mp member with among | isLast
          · exact untouched write among
          · rw [List.mem_singleton.mp isLast]
            exact free

section

variable {edge found : EdgeKey} {forward : Bytes}

/-- A key that is stored is the key of one edge, up to the form of its values. -/
private theorem stored_eq (encoded : edge.encodeFwd = .ok forward)
    (decoded : EdgeKey.decodeFwd forward = .ok found) :
    found.rtype = edge.rtype ∧ found.disc = canonical edge.disc := by
  rw [EdgeKey.decodeFwd_eq_ok, decodeKey_of_encodeKey (liftEncode_eq_ok.mp encoded)] at decoded
  simp only [canonicalAll, canonical, Except.ok.injEq, List.cons.injEq, Value.string.injEq] at decoded
  exact ⟨decoded.2.1.symm, decoded.2.2.2.1.symm⟩

private theorem FitsDecl.stored {schema : SchemaMap} {record : EdgeRecord}
    (fits : FitsDecl schema edge.rtype edge.disc record)
    (encoded : edge.encodeFwd = .ok forward)
    (decoded : EdgeKey.decodeFwd forward = .ok found) :
    FitsDecl schema found.rtype found.disc record := by
  obtain ⟨isType, isDisc⟩ := stored_eq encoded decoded
  rw [isType, isDisc]
  refine ⟨?_, fits.keyOnly⟩
  rw [Shaped, canonical_eq_null]
  exact fits.shaped

end

section

variable {repo : Repository} {origins : Origins}

private theorem current_of_saved {writes : List Write} {txn : Transaction} {next : Workspace}
    {merging : Bool} (current : Current repo.workspace.manifest origins)
    (fit : WritesFit repo writes)
    (written : (Transaction.beginWrite repo.workspace).writeAll writes = .ok txn)
    (saved : txn.saveInPlace merging = .ok next) :
    Current next.manifest (savedOrigins origins repo.workspace.manifest.schema writes) := by
  have staged := stagedBy_of_writeAll written
  have isBase : txn.base = repo.workspace := staged.base
  have maps := Transaction.saveInPlace_maps saved
  have isSchema : next.manifest.schema = schemaAfter repo.workspace.manifest.schema writes := by
    rw [maps, Transaction.applied, staged.schema, isBase]
    simp [Transaction.beginWrite, schemaAfter]
  have isEdges : next.manifest.edgesFwd =
      repo.workspace.manifest.edgesFwd.applyAll (writes.flatMap Write.edgeOps) := by
    rw [maps, Transaction.applied, staged.edgesFwd, isBase]
    simp [Transaction.beginWrite]
  have encodes : ∀ {edge record}, Leaves writes edge record →
      edge.encodeFwd = .ok (edgeBytes edge) := by
    rintro edge record ⟨earlier, later, rfl, -⟩
    exact staged.encodes (.putEdge edge record)
      (List.mem_append_right _ List.mem_cons_self)
  have stable : ∀ {edge record}, HoldsEdge repo.workspace.manifest.edgesFwd edge record →
      HoldsEdge next.manifest.edgesFwd edge record →
        discriminatorOf next.manifest.schema edge.rtype =
          discriminatorOf repo.workspace.manifest.schema edge.rtype := by
    intro edge record before after
    rcases Transaction.saveInPlace_cases saved with ⟨-, rfl⟩ | accepted
    · rw [isBase]
    · rcases Transaction.checkSchemaChange_cases accepted.schemaChange with unchanged | changed
      · rw [maps, Transaction.applied, unchanged, isBase]
        rfl
      · have inBase : edgeBytes edge ∈ txn.base.manifest.edgesFwd.keys := by
          rw [SortedMap.mem_keys, isBase, before.get.2.2]
          exact Option.some_ne_none _
        have kept : edgeBytes edge ∈ txn.applied.edgesFwd.keys := by
          have isThere := after.get.2.2
          rw [maps] at isThere
          exact SortedMap.mem_keys.mpr (isThere ▸ Option.some_ne_none _)
        have same := effective_stable changed.discriminators inBase kept before.get.2.1
        rw [maps, ← isBase]
        exact same
  have cases_ : ∀ {edge record}, HoldsEdge next.manifest.edgesFwd edge record →
      (∃ put, Leaves writes put record ∧ edgeBytes put = edgeBytes edge) ∨
        ((∀ write ∈ writes, ∀ op ∈ write.edgeOps, op.key ≠ edgeBytes edge) ∧
          HoldsEdge repo.workspace.manifest.edgesFwd edge record) := by
    intro edge record holds
    have isThere := holds.get.2.2
    rw [isEdges] at isThere
    rcases leaves_or_kept isThere with put | ⟨free, before⟩
    · exact .inl put
    · exact .inr ⟨free, _, holds.get.2.1, before⟩
  refine ⟨?_, ?_, ?_⟩
  · intro edge record holds
    rcases cases_ holds with ⟨put, leaves, same⟩ | ⟨-, before⟩
    · rw [isSchema]
      exact (fit put record leaves).stored (encodes leaves) (same ▸ holds.get.2.1)
    · have fits := current.fits edge record before
      have same := stable before holds
      exact ⟨same ▸ fits.shaped, same ▸ fits.keyOnly⟩
  · intro edge record holds
    rcases cases_ holds with ⟨put, leaves, same⟩ | ⟨free, before⟩
    · exact ⟨_, .inl ⟨put, record, leaves, same ▸ encodes leaves, rfl⟩⟩
    · obtain ⟨name, was⟩ := current.written edge record before
      exact ⟨name, .inr ⟨free, was⟩⟩
  · intro edge record holds name was
    rcases was with ⟨put, own, -, encoded, rfl⟩ | ⟨free, was⟩
    · rw [isSchema, (stored_eq encoded holds.get.2.1).1]
    · rcases cases_ holds with ⟨put, ⟨earlier, later, rfl, -⟩, same⟩ | ⟨-, before⟩
      · exact absurd same (free (.putEdge put record)
          (List.mem_append_right _ List.mem_cons_self) _ (List.mem_singleton_self _))
      · rw [stable before holds]
        exact current.current edge record before name was

private theorem current_of_renamed {next : Manifest} {old new : String}
    (current : Current repo.workspace.manifest origins) (keyed : Keyed repo.workspace.manifest)
    (nextKeyed : Keyed next) (renamed : RenamedFrom repo.workspace.manifest next old new) :
    Current next (movedOrigins origins repo.workspace.manifest.edgesFwd
      (RenameBecomes old new)) := by
  have declared := renamed.declared keyed.schema
  have ofOld : ∀ {source own}, HoldsEdge repo.workspace.manifest.edgesFwd source own →
      source.rtype = old → discriminatorOf next.schema new =
        discriminatorOf repo.workspace.manifest.schema source.rtype :=
    fun holds isType => isType ▸ declared.ofOld ⟨_, _, holds, isType⟩
  have ofNew : ∀ {edge record}, HoldsEdge repo.workspace.manifest.edgesFwd edge record →
      edge.rtype = new → discriminatorOf next.schema new =
        discriminatorOf repo.workspace.manifest.schema edge.rtype :=
    fun holds isType => isType ▸ declared.ofNew ⟨_, _, holds, isType⟩
  have ofOthers : ∀ {edge : EdgeKey}, edge.rtype ≠ old → edge.rtype ≠ new →
      discriminatorOf next.schema edge.rtype =
        discriminatorOf repo.workspace.manifest.schema edge.rtype := by
    intro edge notOld notNew
    have sameDecl : (relTypeDefs next.schema).get edge.rtype =
        (relTypeDefs repo.workspace.manifest.schema).get edge.rtype := by
      apply Option.ext
      intro decl
      rw [relTypeDefs_get nextKeyed.schema, relTypeDefs_get keyed.schema, renamed.schema]
      · exact fun same => notOld (entryKey_injective same).2
      · exact fun same => notNew (entryKey_injective same).2
    rw [discriminatorOf, discriminatorOf, sameDecl]
  have becomes : ∀ {source own edge}, HoldsEdge repo.workspace.manifest.edgesFwd source own →
      RenameBecomes old new source edge → discriminatorOf next.schema edge.rtype =
        discriminatorOf repo.workspace.manifest.schema source.rtype := by
    intro source own edge holds becomes
    rw [RenameBecomes] at becomes
    split at becomes
    · next isOld =>
        rw [becomes.2.1]
        exact ofOld holds isOld
    · next notOld =>
        rw [becomes]
        by_cases isNew : source.rtype = new
        · rw [← ofNew holds isNew, isNew]
        · exact ofOthers notOld isNew
  have sources : ∀ {edge record}, HoldsEdge next.edgesFwd edge record →
      ∃ source own, HoldsEdge repo.workspace.manifest.edgesFwd source own ∧
        RenameBecomes old new source edge ∧
        FitsDecl repo.workspace.manifest.schema source.rtype edge.disc record := by
    intro edge record holds
    have kept : edge.rtype ≠ old → HoldsEdge repo.workspace.manifest.edgesFwd edge record →
        ∃ source own, HoldsEdge repo.workspace.manifest.edgesFwd source own ∧
          RenameBecomes old new source edge ∧
          FitsDecl repo.workspace.manifest.schema source.rtype edge.disc record := by
      intro notOld before
      refine ⟨edge, record, before, ?_, current.fits edge record before⟩
      rw [RenameBecomes, if_neg notOld]
    have notOld := renamed.freed edge record holds
    by_cases isNew : edge.rtype = new
    · rcases (renamed.renamed edge record isNew).mp holds with
        ⟨before, -⟩ | ⟨source, own, before, isOld, retyped, joined⟩
      · exact kept notOld before
      · have fits := current.fits source own before
        refine ⟨source, own, before, by rwa [RenameBecomes, if_pos isOld], ?_⟩
        rw [retyped.2.2.2]
        rcases joined with ⟨rfl, -⟩ | ⟨existing, existingHolds, united⟩
        · exact fits
        · refine ⟨fits.shaped, fun name declared => ?_⟩
          have sameDecl := (ofOld before isOld).symm.trans (ofNew existingHolds isNew)
          rw [united.properties, fits.keyOnly name declared, Option.none_or]
          exact (current.fits edge existing existingHolds).keyOnly name (sameDecl ▸ declared)
    · exact kept notOld ((renamed.others edge record notOld isNew).mp holds)
  refine ⟨?_, ?_, ?_⟩
  · intro edge record holds
    obtain ⟨source, own, before, isBecome, fits⟩ := sources holds
    have same := becomes before isBecome
    exact ⟨same ▸ fits.shaped, same ▸ fits.keyOnly⟩
  · intro edge record holds
    obtain ⟨source, own, before, isBecome, -⟩ := sources holds
    obtain ⟨name, was⟩ := current.written source own before
    exact ⟨name, source, own, edge, before, isBecome, holds.get.1, was⟩
  · rintro edge record holds name ⟨source, own, made, before, isBecome, encoded, was⟩
    rw [(stored_eq encoded holds.get.2.1).1, becomes before isBecome]
    exact current.current source own before name was

private theorem current_of_rekeyed {next : Workspace} {old new : NodeKey}
    (current : Current repo.workspace.manifest origins) (saved : RekeySaved repo old new next) :
    Current next.manifest (movedOrigins origins repo.workspace.manifest.edgesFwd
      fun source edge => edge = rekeyedEdge old new source) := by
  refine ⟨?_, ?_, ?_⟩
  · intro edge record holds
    obtain ⟨source, before, encoded⟩ := saved.source_of holds
    have fits : FitsDecl next.manifest.schema (rekeyedEdge old new source).rtype
        (rekeyedEdge old new source).disc record := by
      rw [saved.schema]
      exact current.fits source record before
    exact fits.stored encoded holds.get.2.1
  · intro edge record holds
    obtain ⟨source, before, encoded⟩ := saved.source_of holds
    obtain ⟨name, was⟩ := current.written source record before
    exact ⟨name, source, record, _, before, rfl, encoded, was⟩
  · rintro edge record holds name ⟨source, own, made, before, rfl, encoded, was⟩
    rw [(stored_eq encoded holds.get.2.1).1, saved.schema]
    exact current.current source own before name was

end

variable {hash : Commit → Nat}

/-- In a run whose saves all put edges as the declarations say, every edge is keyed as its
type declares and was written under that declaration. -/
theorem Provenance.current {repo : Repository} {origins : Origins}
    (run : Provenance hash WritesFit repo origins) : Current repo.workspace.manifest origins := by
  suffices both : Keyed repo.workspace.manifest ∧ Current repo.workspace.manifest origins from both.2
  induction run with
  | init =>
      refine ⟨blank_keyed, ?_, ?_, ?_⟩ <;>
      · rintro edge record ⟨forward, -, found⟩
        cases found
  | @save repo next origins writes txn _ fit written done ih =>
      rcases Repository.save_cases txn with ⟨cause, failed⟩ | ⟨workspace, saved, again⟩
      · cases failed.symm.trans done
      · cases again.symm.trans done
        have savedAs : repo.SavedAs (.ok writes) workspace := ⟨writes, txn, rfl, written, saved⟩
        exact ⟨savedAs.keyed ih.1, current_of_saved ih.2 fit written saved⟩
  | rename _ done ih =>
      obtain ⟨workspace, saved, isManifest⟩ := Repository.savedAs_of_commit done
      obtain ⟨-, renamed⟩ := renamedFrom_of_savedAs saved
      rw [isManifest]
      exact ⟨saved.keyed ih.1, current_of_renamed ih.2 ih.1 (saved.keyed ih.1) renamed⟩
  | rekey _ done ih =>
      obtain ⟨workspace, saved, isManifest⟩ := Repository.savedAs_of_commit done
      rw [isManifest]
      exact ⟨saved.keyed ih.1, current_of_rekeyed ih.2 (rekeySaved_of_savedAs saved)⟩

theorem Provenance.perform {allowed : Repository → List Write → Prop} {repo : Repository}
    {origins : Origins} {writes : List Write} (run : Provenance hash allowed repo origins)
    (admitted : allowed repo writes)
    (accepted : ((Transaction.beginWrite repo.workspace).writeAll writes).toOption ≠ none)
    (saves : (repo.save ((Transaction.beginWrite repo.workspace).stage writes)).1.toOption ≠ none) :
    Provenance hash allowed (repo.perform hash (.save writes))
      (savedOrigins origins repo.workspace.manifest.schema writes) := by
  cases written : (Transaction.beginWrite repo.workspace).writeAll writes with
  | error cause =>
      rw [written] at accepted
      exact absurd rfl accepted
  | ok txn =>
      rw [Transaction.writeAll_eq_stage written] at saves
      rw [Repository.perform, Transaction.writeAll_eq_stage written]
      refine run.save admitted written ?_
      rcases Repository.save_cases txn with ⟨cause, failed⟩ | ⟨workspace, -, done⟩
      · rw [failed] at saves
        exact absurd rfl saves
      · rw [done]

/-! A type with a declared discriminator, and an edge that is put with and without one. -/

def rankDef : RelTypeDef := ⟨some "by", .empty, []⟩

def rankWrites : List Write :=
  [.putSchema (.relType "RANK" rankDef), .putNode (hostKey 1) ⟨∅, .empty⟩,
    .putNode (hostKey 2) ⟨∅, .empty⟩]

def rankedEdge : EdgeKey := ⟨hostKey 1, "RANK", hostKey 2, .int 1, rfl⟩

def bareEdge : EdgeKey := ⟨hostKey 1, "RANK", hostKey 2, .null, rfl⟩

def declaredRanks : Repository := Repository.init.perform Repository.sampleHash (.save rankWrites)

private theorem declaredRanks_run {allowed : Repository → List Write → Prop}
    (admitted : allowed .init rankWrites) :
    Provenance Repository.sampleHash allowed declaredRanks
      (savedOrigins (fun _ _ => False) .empty rankWrites) :=
  Provenance.perform .init admitted (by decide +kernel) (by decide +kernel)

def rankedHosts : Repository :=
  declaredRanks.perform Repository.sampleHash (.save [.putEdge rankedEdge ⟨.empty⟩])

def ratedHosts : Repository :=
  (rankedHosts.renameRelType Repository.sampleHash "RANK" "RATED" .refuse 1).2

def movedHosts : Repository :=
  (ratedHosts.rekey Repository.sampleHash (hostKey 1) (hostKey 3) 2).2

def movedEdge : EdgeKey := ⟨hostKey 3, "RATED", hostKey 2, .int 1, rfl⟩

private theorem effect_of_done (effect : Effect Commit) (done : effect.1.toOption ≠ none) :
    ∃ commit, effect = (.ok commit, effect.2) := by
  obtain ⟨result, next⟩ := effect
  cases result with
  | error cause => exact absurd rfl done
  | ok commit => exact ⟨commit, rfl⟩

/-- The edge after a rename of its type and a rekey of its source. -/
theorem Provenance.current_ranked :
    ∃ origins, Provenance Repository.sampleHash WritesFit movedHosts origins ∧
      Current movedHosts.workspace.manifest origins ∧
      HoldsEdge movedHosts.workspace.manifest.edgesFwd movedEdge ⟨.empty⟩ ∧
      origins (edgeBytes movedEdge) (some "by") := by
  have fitsNodes : WritesFit .init rankWrites := by
    rintro edge record ⟨earlier, later, isWrites, -⟩
    have member : Write.putEdge edge record ∈ rankWrites := by
      rw [isWrites]
      exact List.mem_append_right _ List.mem_cons_self
    simp [rankWrites] at member
  have fitsEdge : WritesFit declaredRanks [.putEdge rankedEdge ⟨.empty⟩] := by
    rintro edge record ⟨earlier, later, isWrites, -⟩
    have member : Write.putEdge edge record ∈ [Write.putEdge rankedEdge ⟨.empty⟩] := by
      rw [isWrites]
      exact List.mem_append_right _ List.mem_cons_self
    cases List.mem_singleton.mp member
    exact ⟨by decide +kernel, fun name _ => rfl⟩
  have ranked := Provenance.perform (declaredRanks_run fitsNodes) fitsEdge
    (by decide +kernel) (by decide +kernel)
  obtain ⟨renamed, isRenamed⟩ := effect_of_done
    (rankedHosts.renameRelType Repository.sampleHash "RANK" "RATED" .refuse 1) (by decide +kernel)
  have rated : Provenance _ WritesFit ratedHosts _ := ranked.rename isRenamed
  obtain ⟨rekeyed, isRekeyed⟩ := effect_of_done
    (ratedHosts.rekey Repository.sampleHash (hostKey 1) (hostKey 3) 2) (by decide +kernel)
  have moved : Provenance _ WritesFit movedHosts _ := rated.rekey isRekeyed
  have current := Provenance.current moved
  have isThere : EdgeKey.decodeFwd (edgeBytes movedEdge) = .ok movedEdge ∧
      movedHosts.workspace.manifest.edgesFwd.get (edgeBytes movedEdge) = some ⟨.empty⟩ ∧
      discriminatorOf movedHosts.workspace.manifest.schema movedEdge.rtype = some "by" := by
    decide +kernel
  obtain ⟨decoded, isStored, isBy⟩ := isThere
  have holds : HoldsEdge movedHosts.workspace.manifest.edgesFwd movedEdge ⟨.empty⟩ :=
    ⟨_, decoded, isStored⟩
  obtain ⟨name, was⟩ := current.written movedEdge _ holds
  cases (current.current movedEdge _ holds name was).trans isBy
  exact ⟨_, moved, current, holds, was⟩

/-- An edge without the discriminator that its type declares. -/
theorem Provenance.bare_not_current :
    ∃ repo origins, Provenance Repository.sampleHash (fun _ _ => True) repo origins ∧
      ¬ Current repo.workspace.manifest origins := by
  have isThere : EdgeKey.decodeFwd (edgeBytes bareEdge) = .ok bareEdge ∧
      (declaredRanks.perform Repository.sampleHash
        (.save [.putEdge bareEdge ⟨.empty⟩])).workspace.manifest.edgesFwd.get (edgeBytes bareEdge) =
          some ⟨.empty⟩ ∧
      ¬ Shaped (discriminatorOf (declaredRanks.perform Repository.sampleHash
        (.save [.putEdge bareEdge ⟨.empty⟩])).workspace.manifest.schema "RANK") .null := by
    decide +kernel
  obtain ⟨decoded, isStored, notShaped⟩ := isThere
  refine ⟨declaredRanks.perform Repository.sampleHash (.save [.putEdge bareEdge ⟨.empty⟩]), _,
    Provenance.perform (declaredRanks_run trivial) trivial (by decide +kernel) (by decide +kernel),
    fun current => ?_⟩
  exact notShaped (current.fits bareEdge ⟨.empty⟩ ⟨_, decoded, isStored⟩).shaped

end Acetone.Graph

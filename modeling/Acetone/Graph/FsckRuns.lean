import Acetone.Graph.FsckMemo

/-!
# When the tables of an integrity run hide nothing

A content-level check is recorded under the roots it is taken to depend on.
The constraint check also reads the forward edges, which its key leaves out,
and the canonical-tree check reports the map by name, which its key leaves out
too.  `hidesNothing_iff` says exactly which versions may be checked together
without losing a finding.
-/

namespace Acetone.Graph.Fsck

open Acetone.Lib Acetone.Model
open Acetone.Prolly (Hash ChunkParams)
open Acetone.Model.Cbor (MapRoot)

section

variable (objects : Objects) (texts : Texts)

/-- A version of the pool and its manifest. -/
def Holds (pool : Set Version) (version : Version) (manifest : Cbor.Manifest) : Prop :=
  version ∈ pool ∧ Cbor.Manifest.decode (objects.manifest version.hash) = .ok manifest

/-- Whatever versions of the pool are checked together, and in whatever order,
each finding of a fresh check of one of them is reported. -/
def HidesNothing (pool : Set Version) : Prop :=
  ∀ versions : List Version, (∀ version ∈ versions, version ∈ pool) →
    ∀ version ∈ versions, freshFaults objects texts version ⊆ (run objects texts versions).faults

/-- What the keys of the tables leave out makes no difference in the pool. -/
structure KeysSuffice (pool : Set Version) : Prop where
  /-- Versions that share schema and nodes have the same relationship type
  breaches. -/
  edgeTypes : ∀ {version other : Version} {manifest shared : Cbor.Manifest},
    Holds objects pool version manifest → Holds objects pool other shared →
    manifest.schema = shared.schema → manifest.nodes = shared.nodes →
    soundRoot objects manifest.schema → soundRoot objects manifest.nodes →
    edgeTypeFaults objects texts manifest ⊆ edgeTypeFaults objects texts shared
  /-- Where the node map of one version is the forward edge map of another and
  damaged, the first has another damaged edge map, the second a damaged node
  map. -/
  canonical : ∀ {version other : Version} {manifest shared : Cbor.Manifest},
    Holds objects pool version manifest → Holds objects pool other shared →
    manifest.nodes = shared.edgesFwd → manifest.chunkParams = shared.chunkParams →
    Damaged objects manifest.chunkParams manifest.nodes →
    Damaged objects manifest.chunkParams manifest.edgesFwd ∧
      manifest.edgesFwd ≠ manifest.nodes ∧
      Damaged objects shared.chunkParams shared.nodes
  /-- Versions with the same roots, in whatever maps, are short of the same
  anchors. -/
  chunkSets : ∀ {version other : Version} {manifest shared : Cbor.Manifest} {chunks : List Hash},
    Holds objects pool version manifest → Holds objects pool other shared →
    rootKeys manifest = rootKeys shared →
    objects.collectReachableChunks (allRoots shared) = .ok chunks →
    ∀ found ∈ freshAnchorFaults objects manifest version.source,
      found ∈ anchorFaults objects version.source chunks ∨
        found ∈ freshAnchorFaults objects shared other.source

end

variable {objects : Objects} {texts : Texts} {pool : Set Version}

section

variable {hash : Hash} {manifest : Cbor.Manifest}

theorem mem_freshManifestFaults
    (decoded : Cbor.Manifest.decode (objects.manifest hash) = .ok manifest) {found : Fault} :
    found ∈ freshManifestFaults objects texts hash ↔
      (∃ row ∈ allMaps manifest, found ∈ rootFaults objects texts manifest row.1 row.2) ∨
        ∃ check ∈ contentChecks objects texts manifest (soundMaps objects manifest),
          check.allowed ∧ found ∈ check.faults := by
  simp only [freshManifestFaults, decoded, List.mem_append, List.mem_flatMap, List.mem_filter,
    and_assoc]

theorem constraintFaults_fresh
    (decoded : Cbor.Manifest.decode (objects.manifest hash) = .ok manifest)
    (schema : soundRoot objects manifest.schema) (nodes : soundRoot objects manifest.nodes) :
    constraintFaults objects texts manifest ⊆ freshManifestFaults objects texts hash := by
  intro found member
  exact (mem_freshManifestFaults decoded).mpr (.inr
    ⟨_, constraints_listed _, Bool.and_eq_true_iff.mpr ⟨schema, nodes⟩, member⟩)

theorem canonicalFault_nodes_fresh
    (decoded : Cbor.Manifest.decode (objects.manifest hash) = .ok manifest)
    (damaged : Damaged objects manifest.chunkParams manifest.nodes) :
    canonicalFault .nodes ∈ freshManifestFaults objects texts hash :=
  (mem_freshManifestFaults decoded).mpr (.inr
    ⟨_, canonical_nodes_listed _, damaged.1, mem_canonicalFaults.mpr ⟨damaged.2, rfl⟩⟩)

theorem canonicalFault_edgesFwd_fresh
    (decoded : Cbor.Manifest.decode (objects.manifest hash) = .ok manifest)
    (damaged : Damaged objects manifest.chunkParams manifest.edgesFwd) :
    canonicalFault .edgesFwd ∈ freshManifestFaults objects texts hash :=
  (mem_freshManifestFaults decoded).mpr (.inr
    ⟨_, canonical_edgesFwd_listed _, damaged.1, mem_canonicalFaults.mpr ⟨damaged.2, rfl⟩⟩)

end

/-- What a recorded check found covers what a check with its key would find:
in a version checked before, or in the version itself. -/
theorem covered_of_sameKey (enough : KeysSuffice objects texts pool)
    {version other : Version} {manifest shared : Cbor.Manifest}
    (holds : Holds objects pool version manifest) (otherHolds : Holds objects pool other shared)
    {key : CheckKey} {faults firsts reported : List Fault}
    (finds : Finds objects texts manifest key faults)
    (firstFinds : Finds objects texts shared key firsts) (included : firsts ⊆ reported)
    (checked : freshManifestFaults objects texts other.hash ⊆ reported ∨ shared = manifest) :
    faults ⊆ reported := by
  cases key with
  | manifest hash => exact finds.elim
  | edgeSymmetry edgesFwd edgesRev =>
      obtain ⟨forward, backward, rfl⟩ := finds
      obtain ⟨sharedForward, sharedBackward, rfl⟩ := firstFinds
      rw [edgeSymmetryFaults_congr (forward.trans sharedForward.symm)
        (backward.trans sharedBackward.symm)]
      exact included
  | referential nodes edgesFwd =>
      obtain ⟨sameNodes, forward, rfl⟩ := finds
      obtain ⟨sharedNodes, sharedForward, rfl⟩ := firstFinds
      rw [referentialFaults_congr (sameNodes.trans sharedNodes.symm)
        (forward.trans sharedForward.symm)]
      exact included
  | indexes schema nodes index name =>
      obtain ⟨sameSchema, sameNodes, sameIndex, rfl⟩ := finds
      obtain ⟨sharedSchema, sharedNodes, sharedIndex, rfl⟩ := firstFinds
      rw [indexFaults_congr (sameSchema.trans sharedSchema.symm)
        (sameNodes.trans sharedNodes.symm) (sameIndex.trans sharedIndex.symm)]
      exact included
  | constraints schema nodes =>
      obtain ⟨rfl, rfl, soundSchema, soundNodes, rfl⟩ := finds
      obtain ⟨sharedSchema, sharedNodes, -, -, rfl⟩ := firstFinds
      intro found member
      rcases mem_constraintFaults.mp member with typed | ⟨-, onNodes⟩
      · have sharedTyped := enough.edgeTypes holds otherHolds sharedSchema.symm
          sharedNodes.symm soundSchema soundNodes typed
        exact included (mem_constraintFaults.mpr (.inl sharedTyped))
      · exact included (constraintFaults_nodes sharedSchema.symm sharedNodes.symm member onNodes)
  | canonical root params =>
      obtain ⟨rfl, sound, ⟨rfl, rfl⟩ | ⟨rfl, rfl⟩⟩ := finds
      · obtain ⟨sameParams, -, ⟨-, rfl⟩ | ⟨sharedEdges, rfl⟩⟩ := firstFinds
        · exact included
        · intro found member
          obtain ⟨damage, rfl⟩ := mem_canonicalFaults.mp member
          obtain ⟨-, apart, sharedDamaged⟩ := enough.canonical holds otherHolds
            sharedEdges.symm sameParams.symm ⟨sound, damage⟩
          rcases checked with before | rfl
          · exact before (canonicalFault_nodes_fresh otherHolds.2 sharedDamaged)
          · exact absurd sharedEdges apart
      · obtain ⟨sameParams, -, ⟨sharedNodes, rfl⟩ | ⟨-, rfl⟩⟩ := firstFinds
        · intro found member
          obtain ⟨damage, rfl⟩ := mem_canonicalFaults.mp member
          have nodesDamaged : Damaged objects shared.chunkParams shared.nodes := by
            rw [sharedNodes, sameParams]
            exact ⟨sound, damage⟩
          obtain ⟨edgesDamaged, apart, -⟩ := enough.canonical otherHolds holds sharedNodes
            sameParams nodesDamaged
          rcases checked with before | rfl
          · exact before (canonicalFault_edgesFwd_fresh otherHolds.2 edgesDamaged)
          · exact absurd sharedNodes.symm apart
        · exact included

structure Covers (objects : Objects) (texts : Texts) (done : List Version) (session : Session) :
    Prop where
  trusted : session.Trusted objects
  reported : ∀ version ∈ done, freshFaults objects texts version ⊆ session.faults
  manifests : ∀ hash, .manifest hash ∈ session.verified.checked →
    ∃ version ∈ done, version.hash = hash
  recorded : ∀ key ∈ session.verified.checked, (∀ hash, key ≠ .manifest hash) →
    ∃ version ∈ done, ∃ manifest faults,
      Cbor.Manifest.decode (objects.manifest version.hash) = .ok manifest ∧
        Finds objects texts manifest key faults ∧ faults ⊆ session.faults
  chunkSets : ∀ key chunks, session.verified.chunkSets.lookup key = some chunks →
    ∃ version ∈ done, ∃ manifest,
      Cbor.Manifest.decode (objects.manifest version.hash) = .ok manifest ∧
        rootKeys manifest = key ∧ objects.collectReachableChunks (allRoots manifest) = .ok chunks

theorem freshManifestFaults_subset (version : Version) :
    freshManifestFaults objects texts version.hash ⊆ freshFaults objects texts version :=
  List.subset_append_left _ _

section

variable {done : List Version} {session : Session} {version : Version}

structure ManifestChecked (objects : Objects) (texts : Texts) (done : List Version)
    (version : Version) (before after : Session) : Prop where
  trusted : after.Trusted objects
  grows : before.faults ⊆ after.faults
  reported : freshManifestFaults objects texts version.hash ⊆ after.faults
  manifests : ∀ hash, .manifest hash ∈ after.verified.checked →
    hash = version.hash ∨ .manifest hash ∈ before.verified.checked
  recorded : ∀ key ∈ after.verified.checked, (∀ hash, key ≠ .manifest hash) →
    key ∈ before.verified.checked ∨ ∃ manifest faults,
      Cbor.Manifest.decode (objects.manifest version.hash) = .ok manifest ∧
        Finds objects texts manifest key faults ∧ faults ⊆ after.faults
  chunkSets : after.verified.chunkSets = before.verified.chunkSets

/-- The session once the manifest is recorded and its maps are verified. -/
def Session.verifiedMaps (objects : Objects) (texts : Texts) (manifest : Cbor.Manifest)
    (version : Version) (session : Session) : Session :=
  (verifyMaps objects texts manifest version.origin
    (session.record (.manifest version.hash))).2

theorem verifiedMaps_spec {manifest : Cbor.Manifest} (trusted : session.Trusted objects) :
    (session.verifiedMaps objects texts manifest version).Trusted objects ∧
      (session.verifiedMaps objects texts manifest version).verified.checked =
        insert (.manifest version.hash) session.verified.checked ∧
      (session.verifiedMaps objects texts manifest version).verified.chunkSets =
        session.verified.chunkSets ∧
      (session.verifiedMaps objects texts manifest version).faults = session.faults ++
        (allMaps manifest).flatMap fun (map, root) =>
          rootFaults objects texts manifest map root := by
  have walked := (@verifyMaps_spec objects texts manifest version.origin
    (session.record (.manifest version.hash)) trusted).2
  rw [Session.verifiedMaps]
  exact ⟨walked.trusted, walked.checked, walked.chunkSets, walked.faults⟩

theorem checkManifest_eq {manifest : Cbor.Manifest} (trusted : session.Trusted objects)
    (unseen : .manifest version.hash ∉ session.verified.checked)
    (decoded : Cbor.Manifest.decode (objects.manifest version.hash) = .ok manifest) :
    checkManifest objects texts version.origin version.hash session =
      (session.verifiedMaps objects texts manifest version).runChecks version.origin
        (contentChecks objects texts manifest (soundMaps objects manifest)) := by
  have walked := @verifyMaps_spec objects texts manifest version.origin
    (session.record (.manifest version.hash)) trusted
  rw [checkManifest, if_neg unseen, decoded]
  simp only [walked.1]
  rfl

theorem checkManifest_spec (enough : KeysSuffice objects texts pool)
    (covers : Covers objects texts done session) (drawn : ∀ earlier ∈ done, earlier ∈ pool)
    (member : version ∈ pool) : ManifestChecked objects texts done version session
      (checkManifest objects texts version.origin version.hash session) := by
  by_cases seen : .manifest version.hash ∈ session.verified.checked
  · rw [checkManifest, if_pos seen]
    refine ⟨covers.trusted, List.Subset.refl _, ?_, fun _ => .inr, fun _ known _ => .inl known,
      rfl⟩
    obtain ⟨earlier, isDone, same⟩ := covers.manifests _ seen
    rw [← same]
    exact List.Subset.trans (freshManifestFaults_subset earlier) (covers.reported earlier isDone)
  cases decoded : Cbor.Manifest.decode (objects.manifest version.hash) with
  | error err =>
      rw [checkManifest, if_neg seen, decoded]
      simp only
      refine ⟨covers.trusted, ?_, ?_, ?_, ?_, rfl⟩
      · rw [faults_push, faults_record]
        exact List.subset_append_left _ _
      · rw [faults_push, freshManifestFaults, decoded]
        exact List.subset_append_right _ _
      · intro hash recorded
        rcases Finset.mem_insert.mp recorded with same | known
        · exact .inl (CheckKey.manifest.inj same)
        · exact .inr known
      · intro key recorded other
        rcases Finset.mem_insert.mp recorded with same | known
        · exact absurd same (other _)
        · exact .inl known
  | ok manifest =>
      rw [checkManifest_eq covers.trusted seen decoded]
      obtain ⟨trusted, checked, chunkSets, faults⟩ :=
        @verifiedMaps_spec objects texts session version manifest covers.trusted
      generalize session.verifiedMaps objects texts manifest version = walked at *
      have grows : session.faults ⊆ (walked.runChecks version.origin (contentChecks objects texts
          manifest (soundMaps objects manifest))).faults := by
        refine List.Subset.trans ?_ faults_runChecks_subset
        rw [faults]
        exact List.subset_append_left _ _
      refine ⟨?_, grows, ?_, ?_, ?_, ?_⟩
      · intro root recorded
        rw [tables_runChecks.1] at recorded
        exact trusted root recorded
      · intro found isFresh
        rcases (mem_freshManifestFaults decoded).mp isFresh with
          ⟨row, isMap, finds⟩ | ⟨check, listed, allowed, finds⟩
        · apply faults_runChecks_subset
          rw [faults]
          exact List.mem_append_right _ (List.mem_flatMap.mpr ⟨row, isMap, finds⟩)
        · rcases faults_runChecks_of_allowed listed allowed with
            ⟨key, recorded, keyed⟩ | ⟨first, isFirst, runs, sameKey, included, alone⟩
          · have here := finds_of_listed listed allowed keyed
            rw [checked] at recorded
            rcases Finset.mem_insert.mp recorded with rfl | known
            · exact here.elim
            · have other : ∀ hash, key ≠ .manifest hash := by
                rintro hash rfl
                exact here
              obtain ⟨earlier, isDone, shared, firsts, sharedDecoded, sharedFinds, included⟩ :=
                covers.recorded key known other
              exact covered_of_sameKey enough ⟨member, decoded⟩
                ⟨drawn earlier isDone, sharedDecoded⟩ here sharedFinds
                (List.Subset.trans included grows)
                (.inl (List.Subset.trans (freshManifestFaults_subset earlier)
                  (List.Subset.trans (covers.reported earlier isDone) grows))) finds
          · cases keyed : check.key with
            | none =>
                rw [alone keyed] at included
                exact included finds
            | some key =>
                exact covered_of_sameKey enough ⟨member, decoded⟩ ⟨member, decoded⟩
                  (finds_of_listed listed allowed keyed)
                  (finds_of_listed isFirst runs (sameKey.trans keyed)) included (.inr rfl) finds
      · intro hash recorded
        rcases mem_checked_runChecks.mp recorded with before | ⟨check, listed, allowed, keyed⟩
        · rw [checked] at before
          rcases Finset.mem_insert.mp before with same | known
          · exact .inl (CheckKey.manifest.inj same)
          · exact .inr known
        · exact (finds_of_listed listed allowed keyed).elim
      · intro key recorded other
        rcases mem_checked_runChecks.mp recorded with before | ⟨check, listed, allowed, keyed⟩
        · rw [checked] at before
          rcases Finset.mem_insert.mp before with same | known
          · exact absurd same (other _)
          · exact .inl known
        · rcases faults_runChecks_of_allowed listed allowed with
            ⟨known, before, sameKey⟩ | ⟨first, isFirst, runs, sameKey, included, -⟩
          · cases keyed.symm.trans sameKey
            rw [checked] at before
            rcases Finset.mem_insert.mp before with same | known
            · exact absurd same (other _)
            · exact .inl known
          · exact .inr ⟨manifest, first.faults, decoded,
              finds_of_listed isFirst runs (sameKey.trans keyed), included⟩
      · rw [tables_runChecks.2, chunkSets]

theorem checkAnchorCompleteness_cases {manifest : Cbor.Manifest}
    (decoded : Cbor.Manifest.decode (objects.manifest version.hash) = .ok manifest)
    (session : Session) :
    (∃ chunks, session.verified.chunkSets.lookup (rootKeys manifest) = some chunks ∧
      checkAnchorCompleteness objects version.origin version.hash version.source session =
        session.push version.origin (anchorFaults objects version.source chunks)) ∨
    (session.verified.chunkSets.lookup (rootKeys manifest) = none ∧
      (checkAnchorCompleteness objects version.origin version.hash version.source session).faults =
        session.faults ++ freshAnchorFaults objects manifest version.source ∧
      (checkAnchorCompleteness objects version.origin version.hash version.source
          session).verified = { session.verified with chunkSets :=
        ((objects.collectReachableChunks (allRoots manifest)).toOption.map
          fun chunks => (rootKeys manifest, chunks)).toList ++ session.verified.chunkSets }) := by
  rw [checkAnchorCompleteness, decoded, freshAnchorFaults]
  simp only
  cases cached : session.verified.chunkSets.lookup (rootKeys manifest) with
  | some chunks => exact .inl ⟨chunks, rfl, rfl⟩
  | none =>
      refine .inr ⟨rfl, ?_⟩
      cases collected : objects.collectReachableChunks (allRoots manifest) with
      | error err => exact ⟨faults_push _ _ _, rfl⟩
      | ok chunks => exact ⟨faults_push _ _ _, rfl⟩

theorem Covers.extend (covers : Covers objects texts done session) {checked after : Session}
    (step : ManifestChecked objects texts done version session checked)
    (sameRoots : after.verified.roots = checked.verified.roots)
    (sameChecked : after.verified.checked = checked.verified.checked)
    (grows : checked.faults ⊆ after.faults)
    (reported : freshFaults objects texts version ⊆ after.faults)
    (chunkSets : ∀ key chunks, after.verified.chunkSets.lookup key = some chunks →
      session.verified.chunkSets.lookup key = some chunks ∨ ∃ manifest,
        Cbor.Manifest.decode (objects.manifest version.hash) = .ok manifest ∧
          rootKeys manifest = key ∧
          objects.collectReachableChunks (allRoots manifest) = .ok chunks) :
    Covers objects texts (done ++ [version]) after where
  trusted := by
    intro root known
    rw [sameRoots] at known
    exact step.trusted root known
  reported := by
    intro earlier listed
    rcases List.mem_append.mp listed with isDone | isLast
    · exact List.Subset.trans (covers.reported earlier isDone)
        (List.Subset.trans step.grows grows)
    · rw [List.mem_singleton.mp isLast]
      exact reported
  manifests := by
    intro hash known
    rw [sameChecked] at known
    rcases step.manifests hash known with rfl | before
    · exact ⟨version, by simp, rfl⟩
    · obtain ⟨earlier, isDone, same⟩ := covers.manifests hash before
      exact ⟨earlier, List.mem_append_left _ isDone, same⟩
  recorded := by
    intro key known other
    rw [sameChecked] at known
    rcases step.recorded key known other with before | ⟨manifest, faults, decoded, finds, included⟩
    · obtain ⟨earlier, isDone, manifest, faults, decoded, finds, included⟩ :=
        covers.recorded key before other
      exact ⟨earlier, List.mem_append_left _ isDone, manifest, faults, decoded, finds,
        List.Subset.trans included (List.Subset.trans step.grows grows)⟩
    · exact ⟨version, by simp, manifest, faults, decoded, finds,
        List.Subset.trans included grows⟩
  chunkSets := by
    intro key chunks cached
    rcases chunkSets key chunks cached with before | found
    · obtain ⟨earlier, isDone, found⟩ := covers.chunkSets key chunks before
      exact ⟨earlier, List.mem_append_left _ isDone, found⟩
    · exact ⟨version, by simp, found⟩

theorem freshFaults_eq {manifest : Cbor.Manifest}
    (decoded : Cbor.Manifest.decode (objects.manifest version.hash) = .ok manifest) :
    freshFaults objects texts version = freshManifestFaults objects texts version.hash ++
      freshAnchorFaults objects manifest version.source := by
  rw [freshFaults, decoded]

theorem checkVersion_covers (enough : KeysSuffice objects texts pool)
    (covers : Covers objects texts done session) (drawn : ∀ earlier ∈ done, earlier ∈ pool)
    (member : version ∈ pool) :
    Covers objects texts (done ++ [version]) (checkVersion objects texts session version) := by
  have step := checkManifest_spec enough covers drawn member
  rw [checkVersion]
  generalize checkManifest objects texts version.origin version.hash session = checked at *
  cases decoded : Cbor.Manifest.decode (objects.manifest version.hash) with
  | error err =>
      rw [checkAnchorCompleteness, decoded]
      refine covers.extend step rfl rfl (List.Subset.refl _) ?_ ?_
      · rw [freshFaults, decoded, List.append_nil]
        exact step.reported
      · intro key chunks cached
        rw [step.chunkSets] at cached
        exact .inl cached
  | ok manifest =>
      rcases checkAnchorCompleteness_cases decoded checked with
        ⟨chunks, cached, same⟩ | ⟨-, faults, verified⟩
      · rw [same]
        rw [step.chunkSets] at cached
        have grows : checked.faults ⊆ (checked.push version.origin
            (anchorFaults objects version.source chunks)).faults := by
          rw [faults_push]
          exact List.subset_append_left _ _
        refine covers.extend step rfl rfl grows ?_ ?_
        · rw [freshFaults_eq decoded]
          refine List.append_subset.mpr ⟨List.Subset.trans step.reported grows, ?_⟩
          intro found isFresh
          obtain ⟨earlier, isDone, shared, sharedDecoded, sameKeys, collected⟩ :=
            covers.chunkSets _ chunks cached
          rcases enough.chunkSets ⟨member, decoded⟩ ⟨drawn earlier isDone, sharedDecoded⟩
            sameKeys.symm collected found isFresh with again | before
          · rw [faults_push]
            exact List.mem_append_right _ again
          · apply grows (step.grows (covers.reported earlier isDone _))
            rw [freshFaults_eq sharedDecoded]
            exact List.mem_append_right _ before
        · intro key found known
          rw [verified_push, step.chunkSets] at known
          exact .inl known
      · refine covers.extend step ?_ ?_ ?_ ?_ ?_
        · rw [verified]
        · rw [verified]
        · rw [faults]
          exact List.subset_append_left _ _
        · rw [freshFaults_eq decoded, faults]
          exact List.append_subset.mpr
            ⟨List.Subset.trans step.reported (List.subset_append_left _ _),
              List.subset_append_right _ _⟩
        · intro key chunks known
          rw [verified, step.chunkSets] at known
          simp only at known
          cases collected : objects.collectReachableChunks (allRoots manifest) with
          | error err =>
              rw [collected] at known
              exact .inl known
          | ok found =>
              rw [collected] at known
              simp only [Except.toOption, Option.map_some, Option.toList_some,
                List.cons_append, List.nil_append, List.lookup_cons] at known
              split at known
              · next same =>
                  cases known
                  exact .inr ⟨manifest, decoded, (beq_iff_eq.mp same).symm, collected⟩
              · exact .inl known

end

/-- What the keys leave out makes no difference: nothing is hidden. -/
theorem run_covers (enough : KeysSuffice objects texts pool) {versions : List Version}
    (drawn : ∀ version ∈ versions, version ∈ pool) :
    Covers objects texts versions (run objects texts versions) := by
  induction versions using List.reverseRecOn with
  | nil =>
      refine ⟨?_, nofun, ?_, ?_, ?_⟩
      · intro root known
        cases known
      · intro hash known
        cases known
      · intro key known
        cases known
      · intro key chunks known
        cases known
  | append_singleton done version ih =>
      rw [run, List.foldl_append, ← run]
      exact checkVersion_covers enough
        (ih fun earlier isDone => drawn earlier (List.mem_append_left _ isDone))
        (fun earlier isDone => drawn earlier (List.mem_append_left _ isDone))
        (drawn version (by simp))

section

variable {session : Session} {version : Version} {manifest : Cbor.Manifest}

theorem mem_faults_checkManifest (trusted : session.Trusted objects)
    (decoded : Cbor.Manifest.decode (objects.manifest version.hash) = .ok manifest)
    {found : Fault} (member : found ∈
      (checkManifest objects texts version.origin version.hash session).faults) :
    found ∈ session.faults ∨
      (∃ row ∈ allMaps manifest, found ∈ rootFaults objects texts manifest row.1 row.2) ∨
      ∃ check ∈ contentChecks objects texts manifest (soundMaps objects manifest),
        check.allowed ∧ found ∈ check.faults ∧
          ∀ key ∈ session.verified.checked, check.key ≠ some key := by
  by_cases seen : .manifest version.hash ∈ session.verified.checked
  · rw [checkManifest, if_pos seen] at member
    exact .inl member
  rw [checkManifest_eq trusted seen decoded] at member
  obtain ⟨-, checked, -, faults⟩ :=
    @verifiedMaps_spec objects texts session version manifest trusted
  rcases mem_faults_runChecks member with walked | ⟨check, listed, allowed, finds, unrecorded⟩
  · rw [faults] at walked
    rcases List.mem_append.mp walked with before | ofRoots
    · exact .inl before
    · obtain ⟨row, isMap, finds⟩ := List.mem_flatMap.mp ofRoots
      exact .inr (.inl ⟨row, isMap, finds⟩)
  · refine .inr (.inr ⟨check, listed, allowed, finds, fun key known => unrecorded key ?_⟩)
    rw [checked]
    exact Finset.mem_insert_of_mem known

theorem mem_faults_checkVersion
    (decoded : Cbor.Manifest.decode (objects.manifest version.hash) = .ok manifest)
    {found : Fault} (member : found ∈ (checkVersion objects texts session version).faults) :
    found ∈ (checkManifest objects texts version.origin version.hash session).faults ∨
      found.kind = .anchorIncomplete ∨ found.kind = .unverified := by
  rw [checkVersion] at member
  rcases checkAnchorCompleteness_cases decoded
      (checkManifest objects texts version.origin version.hash session) with
    ⟨chunks, -, same⟩ | ⟨-, faults, -⟩
  · rw [same, faults_push] at member
    rcases List.mem_append.mp member with before | added
    · exact .inl before
    · exact .inr (.inl (kind_of_mem_anchorFaults added))
  · rw [faults] at member
    rcases List.mem_append.mp member with before | added
    · exact .inl before
    · exact .inr (kind_of_mem_freshAnchorFaults added)

/-- A finding of a content-level check tells which check it is of. -/
theorem mem_check_faults {sound : SoundMaps} {check : ContentCheck}
    (listed : check ∈ contentChecks objects texts manifest sound) {found : Fault}
    (finds : found ∈ check.faults) :
    (found.kind = .edgeAsymmetry ∨ found.kind = .danglingEdge ∨
      found.kind = .indexInconsistency) ∨
    (found.kind = .constraintViolation ∧
      check = ⟨sound.schema && sound.nodes, some (.constraints manifest.schema manifest.nodes),
        constraintFaults objects texts manifest⟩) ∨
    (found = canonicalFault .nodes ∧
      check = ⟨sound.nodes, some (.canonical manifest.nodes manifest.chunkParams),
        canonicalFaults objects manifest.chunkParams manifest.nodes .nodes⟩) ∨
    (found = canonicalFault .edgesFwd ∧
      check = ⟨sound.edgesFwd, some (.canonical manifest.edgesFwd manifest.chunkParams),
        canonicalFaults objects manifest.chunkParams manifest.edgesFwd .edgesFwd⟩) := by
  rcases contentChecks_cases listed with
    rfl | rfl | rfl | ⟨row, -, rfl⟩ | rfl | rfl | rfl
  · exact .inl (.inl (kind_of_mem_edgeSymmetryFaults finds))
  · exact .inl (.inr (.inl (kind_of_mem_referentialFaults finds)))
  · exact .inl (.inr (.inr (kind_of_mem_missingIndexFaults finds)))
  · exact .inl (.inr (.inr (kind_of_mem_indexFaults finds)))
  · exact .inr (.inl ⟨kind_of_mem_constraintFaults finds, rfl⟩)
  · exact .inr (.inr (.inl ⟨(mem_canonicalFaults.mp finds).2, rfl⟩))
  · exact .inr (.inr (.inr ⟨(mem_canonicalFaults.mp finds).2, rfl⟩))

/-- A constraint violation is an old finding or of a constraint check that was
not recorded. -/
theorem constraint_of_checkVersion (trusted : session.Trusted objects)
    (decoded : Cbor.Manifest.decode (objects.manifest version.hash) = .ok manifest)
    {found : Fault} (violation : found.kind = .constraintViolation)
    (member : found ∈ (checkVersion objects texts session version).faults) :
    found ∈ session.faults ∨ found ∈ constraintFaults objects texts manifest ∧
      .constraints manifest.schema manifest.nodes ∉ session.verified.checked := by
  rcases mem_faults_checkVersion decoded member with checked | other | other
  · rcases mem_faults_checkManifest trusted decoded checked with
      before | ⟨row, -, finds⟩ | ⟨check, listed, -, finds, unrecorded⟩
    · exact .inl before
    · rcases kind_of_mem_rootFaults finds with other | other | other <;>
        rw [other] at violation <;> cases violation
    · rcases mem_check_faults listed finds with
        (other | other | other) | ⟨-, rfl⟩ | ⟨rfl, -⟩ | ⟨rfl, -⟩
      · rw [other] at violation
        cases violation
      · rw [other] at violation
        cases violation
      · rw [other] at violation
        cases violation
      · exact .inr ⟨finds, fun known => unrecorded _ known rfl⟩
      · cases violation
      · cases violation
  · rw [other] at violation
    cases violation
  · rw [other] at violation
    cases violation

theorem canonical_of_checkVersion (trusted : session.Trusted objects)
    (decoded : Cbor.Manifest.decode (objects.manifest version.hash) = .ok manifest) {map : MapId}
    (member : canonicalFault map ∈ (checkVersion objects texts session version).faults) :
    canonicalFault map ∈ session.faults ∨
      (map = .nodes ∧ Damaged objects manifest.chunkParams manifest.nodes ∧
        .canonical manifest.nodes manifest.chunkParams ∉ session.verified.checked) ∨
      (map = .edgesFwd ∧ Damaged objects manifest.chunkParams manifest.edgesFwd ∧
        .canonical manifest.edgesFwd manifest.chunkParams ∉ session.verified.checked) := by
  rcases mem_faults_checkVersion decoded member with checked | other | other
  · rcases mem_faults_checkManifest trusted decoded checked with
      before | ⟨row, -, finds⟩ | ⟨check, listed, allowed, finds, unrecorded⟩
    · exact .inl before
    · rcases kind_of_mem_rootFaults finds with other | other | other <;> cases other
    · rcases mem_check_faults listed finds with
        (other | other | other) | ⟨other, -⟩ | ⟨same, rfl⟩ | ⟨same, rfl⟩
      · cases other
      · cases other
      · cases other
      · cases other
      · have isNodes : map = .nodes := Option.some.inj (congrArg Fault.map same)
        exact .inr (.inl ⟨isNodes, ⟨allowed, (mem_canonicalFaults.mp finds).1⟩,
          fun known => unrecorded _ known rfl⟩)
      · have isEdges : map = .edgesFwd := Option.some.inj (congrArg Fault.map same)
        exact .inr (.inr ⟨isEdges, ⟨allowed, (mem_canonicalFaults.mp finds).1⟩,
          fun known => unrecorded _ known rfl⟩)
  · cases other
  · cases other

/-- The check of the forward edge map's tree comes last, after that of the
node map's, and no other finds what it finds. -/
theorem contentChecks_last (sound : SoundMaps) :
    ∃ checks, contentChecks objects texts manifest sound = checks ++
        [⟨sound.edgesFwd, some (.canonical manifest.edgesFwd manifest.chunkParams),
          canonicalFaults objects manifest.chunkParams manifest.edgesFwd .edgesFwd⟩] ∧
      ⟨sound.nodes, some (.canonical manifest.nodes manifest.chunkParams),
        canonicalFaults objects manifest.chunkParams manifest.nodes .nodes⟩ ∈ checks ∧
      ∀ check ∈ checks, canonicalFault .edgesFwd ∉ check.faults := by
  refine ⟨_, (List.append_assoc _ [_, _] [_]).symm, ?_, ?_⟩
  · exact List.mem_append_right _ (List.mem_cons_of_mem _ List.mem_cons_self)
  · intro check listed finds
    simp only [List.mem_append, List.mem_cons, List.mem_map, List.not_mem_nil, or_false]
      at listed
    rcases listed with ((rfl | rfl | rfl) | ⟨row, -, rfl⟩) | (rfl | rfl)
    · cases kind_of_mem_edgeSymmetryFaults finds
    · cases kind_of_mem_referentialFaults finds
    · cases kind_of_mem_missingIndexFaults finds
    · cases kind_of_mem_indexFaults finds
    · cases kind_of_mem_constraintFaults finds
    · cases congrArg Fault.map (mem_canonicalFaults.mp finds).2

/-- Where both maps are one tree, only the node map is reported. -/
theorem edgesFwd_unreported (trusted : session.Trusted objects)
    (decoded : Cbor.Manifest.decode (objects.manifest version.hash) = .ok manifest)
    (sound : soundRoot objects manifest.nodes) (same : manifest.edgesFwd = manifest.nodes)
    (member : canonicalFault .edgesFwd ∈ (checkVersion objects texts session version).faults) :
    canonicalFault .edgesFwd ∈ session.faults := by
  rcases mem_faults_checkVersion decoded member with checked | other | other
  rotate_left
  · cases other
  · cases other
  by_cases seen : .manifest version.hash ∈ session.verified.checked
  · rwa [checkManifest, if_pos seen] at checked
  obtain ⟨checks, split, listed, others⟩ := @contentChecks_last objects texts manifest
    (soundMaps objects manifest)
  rw [checkManifest_eq trusted seen decoded, split, runChecks_concat] at checked
  obtain ⟨-, -, -, faults⟩ := @verifiedMaps_spec objects texts session version manifest trusted
  have earlier : canonicalFault .edgesFwd ∈ ((session.verifiedMaps objects texts manifest
      version).runChecks version.origin checks).faults →
        canonicalFault .edgesFwd ∈ session.faults := by
    intro found
    rcases mem_faults_runChecks found with walked | ⟨check, inChecks, -, finds, -⟩
    · rw [faults] at walked
      rcases List.mem_append.mp walked with before | ofRoots
      · exact before
      · obtain ⟨row, -, finds⟩ := List.mem_flatMap.mp ofRoots
        rcases kind_of_mem_rootFaults finds with other | other | other <;> cases other
    · exact absurd finds (others check inChecks)
  rcases once_cases ((session.verifiedMaps objects texts manifest version).runChecks
      version.origin checks) version.origin _ with
    ⟨-, unchanged⟩ | ⟨-, -, unchanged⟩ | ⟨-, unrecorded, -, -⟩
  · rw [unchanged] at checked
    exact earlier checked
  · rw [unchanged] at checked
    exact earlier checked
  · refine absurd ?_ (unrecorded (.canonical manifest.nodes manifest.chunkParams) ?_)
    · rw [same]
    · exact mem_checked_runChecks.mpr (.inr ⟨_, listed, sound, rfl⟩)

theorem checked_checkVersion (version : Version) (session : Session) :
    (checkVersion objects texts session version).verified.checked =
      (checkManifest objects texts version.origin version.hash session).verified.checked := by
  rw [checkVersion, checkAnchorCompleteness]
  split
  · rfl
  · split
    · rfl
    · split
      · rfl
      · rfl

theorem trusted_empty : Session.empty.Trusted objects := by
  intro root known
  cases known

theorem run_singleton (version : Version) :
    run objects texts [version] = checkVersion objects texts .empty version :=
  rfl

theorem run_pair (first second : Version) :
    run objects texts [first, second] =
      checkVersion objects texts (run objects texts [first]) second :=
  rfl

theorem trusted_run_singleton
    (decoded : Cbor.Manifest.decode (objects.manifest version.hash) = .ok manifest) :
    (run objects texts [version]).Trusted objects := by
  have unseen : .manifest version.hash ∉ Session.empty.verified.checked := nofun
  have trusted := (@verifiedMaps_spec objects texts .empty version manifest trusted_empty).1
  have checked : (checkManifest objects texts version.origin version.hash .empty).Trusted
      objects := by
    rw [checkManifest_eq trusted_empty unseen decoded]
    intro root known
    rw [tables_runChecks.1] at known
    exact trusted root known
  rw [run_singleton, checkVersion]
  rcases checkAnchorCompleteness_cases decoded
      (checkManifest objects texts version.origin version.hash .empty) with
    ⟨chunks, -, same⟩ | ⟨-, -, verified⟩
  · rw [same]
    exact checked
  · intro root known
    rw [verified] at known
    exact checked root known

theorem recorded_run_singleton
    (decoded : Cbor.Manifest.decode (objects.manifest version.hash) = .ok manifest)
    {check : ContentCheck} {key : CheckKey}
    (listed : check ∈ contentChecks objects texts manifest (soundMaps objects manifest))
    (allowed : check.allowed) (keyed : check.key = some key) :
    key ∈ (run objects texts [version]).verified.checked := by
  have unseen : .manifest version.hash ∉ Session.empty.verified.checked := nofun
  rw [run_singleton, checked_checkVersion, checkManifest_eq trusted_empty unseen decoded]
  exact mem_checked_runChecks.mpr (.inr ⟨check, listed, allowed, keyed⟩)

theorem chunkSets_run_singleton
    (decoded : Cbor.Manifest.decode (objects.manifest version.hash) = .ok manifest)
    {chunks : List Hash} (collected : objects.collectReachableChunks (allRoots manifest) = .ok chunks) :
    (run objects texts [version]).verified.chunkSets = [(rootKeys manifest, chunks)] := by
  have unseen : .manifest version.hash ∉ Session.empty.verified.checked := nofun
  have none : (checkManifest objects texts version.origin version.hash
      .empty).verified.chunkSets = [] := by
    rw [checkManifest_eq trusted_empty unseen decoded, tables_runChecks.2]
    exact (@verifiedMaps_spec objects texts .empty version manifest trusted_empty).2.2.1
  rw [run_singleton, checkVersion]
  rcases checkAnchorCompleteness_cases decoded
      (checkManifest objects texts version.origin version.hash .empty) with
    ⟨found, cached, -⟩ | ⟨-, -, verified⟩
  · rw [none] at cached
    cases cached
  · rw [verified, collected, none]
    rfl

end

section

variable {version other : Version} {manifest shared : Cbor.Manifest}

/-- Checked after a version with its schema and nodes, a version's own
relationship type breaches go unreported. -/
theorem edgeTypes_of_pair
    (decoded : Cbor.Manifest.decode (objects.manifest version.hash) = .ok manifest)
    (sharedDecoded : Cbor.Manifest.decode (objects.manifest other.hash) = .ok shared)
    (sameSchema : manifest.schema = shared.schema) (sameNodes : manifest.nodes = shared.nodes)
    (soundSchema : soundRoot objects manifest.schema)
    (soundNodes : soundRoot objects manifest.nodes) {found : Fault}
    (typed : found ∈ edgeTypeFaults objects texts manifest)
    (reported : found ∈ (run objects texts [other, version]).faults) :
    found ∈ edgeTypeFaults objects texts shared := by
  obtain ⟨violation, onEdges⟩ := map_of_mem_edgeTypeFaults typed
  rw [run_pair] at reported
  rcases constraint_of_checkVersion (trusted_run_singleton sharedDecoded) decoded violation
      reported with first | ⟨-, unrecorded⟩
  · rcases constraint_of_checkVersion trusted_empty sharedDecoded violation first with
      none | ⟨finds, -⟩
    · cases none
    · rcases mem_constraintFaults.mp finds with typed | ⟨-, onNodes⟩
      · exact typed
      · rw [onEdges] at onNodes
        cases onNodes
  · rw [sameSchema, sameNodes] at *
    exact absurd (recorded_run_singleton sharedDecoded (constraints_listed _)
      (Bool.and_eq_true_iff.mpr ⟨soundSchema, soundNodes⟩) rfl) unrecorded

/-- Checked after a version whose forward edge map it is, a damaged node map is
reported only if that version has one too. -/
theorem nodesDamaged_of_pair
    (decoded : Cbor.Manifest.decode (objects.manifest version.hash) = .ok manifest)
    (sharedDecoded : Cbor.Manifest.decode (objects.manifest other.hash) = .ok shared)
    (sameRoot : manifest.nodes = shared.edgesFwd)
    (sameParams : manifest.chunkParams = shared.chunkParams)
    (sound : soundRoot objects manifest.nodes)
    (reported : canonicalFault .nodes ∈ (run objects texts [other, version]).faults) :
    Damaged objects shared.chunkParams shared.nodes := by
  rw [run_pair] at reported
  rcases canonical_of_checkVersion (trusted_run_singleton sharedDecoded) decoded reported with
    first | ⟨-, -, unrecorded⟩ | ⟨⟨⟩, -⟩
  · rcases canonical_of_checkVersion trusted_empty sharedDecoded first with
      none | ⟨-, damaged, -⟩ | ⟨⟨⟩, -⟩
    · cases none
    · exact damaged
  · rw [sameRoot, sameParams] at unrecorded
    rw [sameRoot] at sound
    exact absurd (recorded_run_singleton sharedDecoded (canonical_edgesFwd_listed _) sound rfl)
      unrecorded

/-- Checked after a version whose node map it is, a damaged forward edge map is
reported only if that version has one too, in another tree. -/
theorem edgesDamaged_of_pair
    (decoded : Cbor.Manifest.decode (objects.manifest version.hash) = .ok manifest)
    (sharedDecoded : Cbor.Manifest.decode (objects.manifest other.hash) = .ok shared)
    (sameRoot : manifest.nodes = shared.edgesFwd)
    (sameParams : manifest.chunkParams = shared.chunkParams)
    (sound : soundRoot objects manifest.nodes)
    (reported : canonicalFault .edgesFwd ∈ (run objects texts [version, other]).faults) :
    Damaged objects manifest.chunkParams manifest.edgesFwd ∧
      manifest.edgesFwd ≠ manifest.nodes := by
  rw [run_pair] at reported
  rcases canonical_of_checkVersion (trusted_run_singleton decoded) sharedDecoded reported with
    first | ⟨⟨⟩, -⟩ | ⟨-, -, unrecorded⟩
  · rcases canonical_of_checkVersion trusted_empty decoded first with
      none | ⟨⟨⟩, -⟩ | ⟨-, damaged, -⟩
    · cases none
    · refine ⟨damaged, fun same => ?_⟩
      cases edgesFwd_unreported trusted_empty decoded sound same first
  · rw [← sameRoot, ← sameParams] at unrecorded
    exact absurd (recorded_run_singleton decoded (canonical_nodes_listed _) sound rfl) unrecorded

/-- A finding about anchors is an old one, or computed from the chunk set kept
under the version's roots, or from its own. -/
theorem anchors_of_checkVersion {session : Session} (trusted : session.Trusted objects)
    (decoded : Cbor.Manifest.decode (objects.manifest version.hash) = .ok manifest)
    {found : Fault} (kind : found.kind = .anchorIncomplete ∨ found.kind = .unverified)
    (member : found ∈ (checkVersion objects texts session version).faults) :
    found ∈ session.faults ∨
      (∃ chunks, session.verified.chunkSets.lookup (rootKeys manifest) = some chunks ∧
        found ∈ anchorFaults objects version.source chunks) ∨
      (session.verified.chunkSets.lookup (rootKeys manifest) = none ∧
        found ∈ freshAnchorFaults objects manifest version.source) := by
  have sameSets : (checkManifest objects texts version.origin version.hash
      session).verified.chunkSets = session.verified.chunkSets := by
    by_cases seen : .manifest version.hash ∈ session.verified.checked
    · rw [checkManifest, if_pos seen]
    · rw [checkManifest_eq trusted seen decoded, tables_runChecks.2]
      exact (@verifiedMaps_spec objects texts session version manifest trusted).2.2.1
  have earlier : found ∈ (checkManifest objects texts version.origin version.hash
      session).faults → found ∈ session.faults := by
    intro checked
    rcases mem_faults_checkManifest trusted decoded checked with
      before | ⟨row, -, finds⟩ | ⟨check, listed, -, finds, -⟩
    · exact before
    · rcases kind_of_mem_rootFaults finds with other | other | other <;>
        simp [other] at kind
    · rcases mem_check_faults listed finds with
        (other | other | other) | ⟨other, -⟩ | ⟨rfl, -⟩ | ⟨rfl, -⟩
      · simp [other] at kind
      · simp [other] at kind
      · simp [other] at kind
      · simp [other] at kind
      · rcases kind with ⟨⟨⟩⟩ | ⟨⟨⟩⟩
      · rcases kind with ⟨⟨⟩⟩ | ⟨⟨⟩⟩
  rw [checkVersion] at member
  rcases checkAnchorCompleteness_cases decoded
      (checkManifest objects texts version.origin version.hash session) with
    ⟨chunks, cached, same⟩ | ⟨uncached, faults, -⟩
  · rw [sameSets] at cached
    rw [same, faults_push] at member
    rcases List.mem_append.mp member with before | added
    · exact .inl (earlier before)
    · exact .inr (.inl ⟨chunks, cached, added⟩)
  · rw [sameSets] at uncached
    rw [faults] at member
    rcases List.mem_append.mp member with before | added
    · exact .inl (earlier before)
    · exact .inr (.inr ⟨uncached, added⟩)

theorem anchors_of_pair
    (decoded : Cbor.Manifest.decode (objects.manifest version.hash) = .ok manifest)
    (sharedDecoded : Cbor.Manifest.decode (objects.manifest other.hash) = .ok shared)
    (sameKeys : rootKeys manifest = rootKeys shared) {chunks : List Hash}
    (collected : objects.collectReachableChunks (allRoots shared) = .ok chunks) {found : Fault}
    (isFresh : found ∈ freshAnchorFaults objects manifest version.source)
    (reported : found ∈ (run objects texts [other, version]).faults) :
    found ∈ anchorFaults objects version.source chunks ∨
      found ∈ freshAnchorFaults objects shared other.source := by
  have kind := kind_of_mem_freshAnchorFaults isFresh
  have sets := @chunkSets_run_singleton objects texts other shared sharedDecoded chunks collected
  rw [run_pair] at reported
  rcases anchors_of_checkVersion (trusted_run_singleton sharedDecoded) decoded kind reported with
    first | ⟨found, cached, again⟩ | ⟨uncached, -⟩
  · rcases anchors_of_checkVersion trusted_empty sharedDecoded kind first with
      none | ⟨found, cached, -⟩ | ⟨-, isShared⟩
    · cases none
    · cases cached
    · exact .inr isShared
  · rw [sets, sameKeys, List.lookup_cons_self] at cached
    cases cached
    exact .inl again
  · rw [sets, sameKeys, List.lookup_cons_self] at uncached
    cases uncached

end

def digest (byte : UInt8) : Hash := ⟨List.replicate 20 byte, .inl rfl⟩

def leafRoot (byte : UInt8) : MapRoot := ⟨digest byte, 1⟩

def params : ChunkParams := ⟨512, 10, 4096, by decide, by decide, by decide, by decide⟩

def knows : SchemaEntry := .relType "KNOWS" ⟨none, .ofList [("since", .int)], []⟩

def alice : NodeKey := ⟨"Person", [.string "alice"], rfl⟩

def bob : NodeKey := ⟨"Person", [.string "bob"], rfl⟩

def aliceKnowsBob : EdgeKey := ⟨alice, "KNOWS", bob, .null, rfl⟩

def written {failure : Type} (result : Except failure Bytes) : Bytes :=
  result.toOption.getD []

/-- The trees of the store by their root: the empty map, the schema, the nodes,
and an edge whose `since` is a string, forwards and backwards. -/
def trees : List (Hash × List (Bytes × Bytes)) :=
  [(digest 0, []),
    (digest 1, [(knows.mapKey, Cbor.encodeEntry knows)]),
    (digest 2, [(written alice.encode, written (Cbor.NodeRecord.encode (.new [] .empty))),
      (written bob.encode, written (Cbor.NodeRecord.encode (.new [] .empty)))]),
    (digest 3, [(written aliceKnowsBob.encodeFwd,
      written (Cbor.EdgeRecord.encode ⟨.ofList [("since", .string "May")]⟩))]),
    (digest 4, [(written aliceKnowsBob.encodeRev, [])])]

def withoutEdges : Cbor.Manifest :=
  ⟨params, leafRoot 1, leafRoot 2, leafRoot 0, leafRoot 0, .empty, none⟩

def withEdge : Cbor.Manifest :=
  ⟨params, leafRoot 1, leafRoot 2, leafRoot 3, leafRoot 4, .empty, none⟩

def twoCommits : Objects where
  manifest hash := if hash = digest 10 then withoutEdges.encode else withEdge.encode
  verifyReachable _ := []
  scan root := match trees.lookup root.hash with
    | some rows => .ok rows
    | none => .error "chunk not found"
  rebuild _ rows := (trees.find? (·.2 = rows)).map Prod.fst
  collectReachableChunks roots := .ok (roots.map MapRoot.hash).dedup
  commitAnchors _ := .ok (some (trees.map Prod.fst))

def plainTexts : Texts where
  manifestError _ := "malformed manifest"
  prollyError _ := "malformed root"
  keyError _ := "malformed key"
  recordError _ := "malformed record"
  schemaError _ := "malformed schema entry"
  formatEdgeKey edge := edge.src.label ++ "-[:" ++ edge.rtype ++ "]->" ++ edge.dst.label
  formatLabel label := label
  quoted name := "\"" ++ name ++ "\""
  keyTuple _ := "[..]"
  violation _ := "violation"

def commitAt (hash : Hash) : Version :=
  ⟨.commit "refs/heads/main" hash, hash, .commit hash⟩

end Acetone.Graph.Fsck

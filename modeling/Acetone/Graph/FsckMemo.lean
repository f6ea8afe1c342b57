import Acetone.Graph.FsckFaults

/-!
# The tables of an integrity run

What running the content-level checks and verifying the maps of one manifest
does to the tables and the findings of a run.
-/

namespace Acetone.Graph.Fsck

open Acetone.Lib Acetone.Model
open Acetone.Prolly (Hash ChunkParams)
open Acetone.Model.Cbor (MapRoot)

def Session.faults (session : Session) : List Fault :=
  session.findings.map Finding.fault

@[simp] theorem faults_push (session : Session) (origin : Origin) (faults : List Fault) :
    (session.push origin faults).faults = session.faults ++ faults := by
  rw [Session.faults, Session.push, List.map_append, List.map_map]
  exact congrArg _ (List.map_id faults)

@[simp] theorem faults_verified (session : Session) (verified : Verified) :
    Session.faults { session with verified := verified } = session.faults :=
  rfl

@[simp] theorem faults_record (session : Session) (key : CheckKey) :
    (session.record key).faults = session.faults :=
  rfl

@[simp] theorem verified_push (session : Session) (origin : Origin) (faults : List Fault) :
    (session.push origin faults).verified = session.verified :=
  rfl

section

variable {origin : Origin} {session : Session} {checks : List ContentCheck}

def Session.runChecks (session : Session) (origin : Origin) (checks : List ContentCheck) :
    Session :=
  checks.foldl (fun session check => session.once origin check) session

theorem runChecks_concat (session : Session) (origin : Origin) (checks : List ContentCheck)
    (check : ContentCheck) : session.runChecks origin (checks ++ [check]) =
      (session.runChecks origin checks).once origin check := by
  rw [Session.runChecks, List.foldl_append]
  rfl

theorem once_cases (session : Session) (origin : Origin) (check : ContentCheck) :
    (check.allowed = false ∧ session.once origin check = session) ∨
    (check.allowed = true ∧ (∃ key ∈ session.verified.checked, check.key = some key) ∧
      session.once origin check = session) ∨
    (check.allowed = true ∧ (∀ key ∈ session.verified.checked, check.key ≠ some key) ∧
      (session.once origin check).faults = session.faults ++ check.faults ∧
      (session.once origin check).verified = { session.verified with
        checked := check.key.toFinset ∪ session.verified.checked }) := by
  cases allowed : check.allowed with
  | false => exact .inl ⟨rfl, by simp [Session.once, allowed]⟩
  | true =>
      cases keyed : check.key with
      | none => exact .inr (.inr ⟨rfl, by simp, by simp [Session.once, allowed, keyed],
          by simp [Session.once, allowed, keyed]⟩)
      | some key =>
          by_cases recorded : key ∈ session.verified.checked
          · exact .inr (.inl ⟨rfl, ⟨key, recorded, rfl⟩,
              by simp [Session.once, allowed, keyed, recorded]⟩)
          · refine .inr (.inr ⟨rfl, ?_, by simp [Session.once, allowed, keyed, recorded],
              by simp [Session.once, Session.record, allowed, keyed, recorded]⟩)
            rintro other member ⟨⟩
            exact recorded member

theorem faults_once_subset (check : ContentCheck) :
    session.faults ⊆ (session.once origin check).faults := by
  rcases once_cases session origin check with ⟨-, same⟩ | ⟨-, -, same⟩ | ⟨-, -, faults, -⟩
  · rw [same]
    exact List.Subset.refl _
  · rw [same]
    exact List.Subset.refl _
  · rw [faults]
    exact List.subset_append_left _ _

theorem mem_checked_once {check : ContentCheck} {key : CheckKey} :
    key ∈ (session.once origin check).verified.checked ↔
      key ∈ session.verified.checked ∨ check.allowed ∧ check.key = some key := by
  rcases once_cases session origin check with
    ⟨refused, same⟩ | ⟨allowed, ⟨other, recorded, keyed⟩, same⟩ | ⟨allowed, -, -, verified⟩
  · simp [same, refused]
  · rw [same, keyed]
    constructor
    · exact .inl
    · rintro (member | ⟨-, ⟨⟩⟩)
      · exact member
      · exact recorded
  · rw [verified]
    simp [allowed, or_comm]

theorem tables_runChecks :
    (session.runChecks origin checks).verified.roots = session.verified.roots ∧
      (session.runChecks origin checks).verified.chunkSets = session.verified.chunkSets := by
  induction checks generalizing session with
  | nil => exact ⟨rfl, rfl⟩
  | cons check checks ih =>
      rw [Session.runChecks, List.foldl_cons, ← Session.runChecks, ih.1, ih.2]
      rcases once_cases session origin check with ⟨-, same⟩ | ⟨-, -, same⟩ | ⟨-, -, -, verified⟩
      · rw [same]
        exact ⟨rfl, rfl⟩
      · rw [same]
        exact ⟨rfl, rfl⟩
      · rw [verified]
        exact ⟨rfl, rfl⟩

theorem mem_checked_runChecks {key : CheckKey} :
    key ∈ (session.runChecks origin checks).verified.checked ↔
      key ∈ session.verified.checked ∨
        ∃ check ∈ checks, check.allowed ∧ check.key = some key := by
  induction checks generalizing session with
  | nil => simp [Session.runChecks]
  | cons check checks ih =>
      rw [Session.runChecks, List.foldl_cons, ← Session.runChecks, ih, mem_checked_once]
      simp [or_assoc]

theorem faults_runChecks_subset :
    session.faults ⊆ (session.runChecks origin checks).faults := by
  induction checks generalizing session with
  | nil => exact List.Subset.refl _
  | cons check checks ih =>
      rw [Session.runChecks, List.foldl_cons, ← Session.runChecks]
      exact List.Subset.trans (faults_once_subset check) ih

/-- A finding of the run is an old one or of a check that was not recorded. -/
theorem mem_faults_runChecks {found : Fault}
    (member : found ∈ (session.runChecks origin checks).faults) :
    found ∈ session.faults ∨ ∃ check ∈ checks, check.allowed ∧ found ∈ check.faults ∧
      ∀ key ∈ session.verified.checked, check.key ≠ some key := by
  induction checks generalizing session with
  | nil => exact .inl member
  | cons check checks ih =>
      rw [Session.runChecks, List.foldl_cons, ← Session.runChecks] at member
      rcases ih member with before | ⟨other, listed, allowed, finds, unrecorded⟩
      · rcases once_cases session origin check with
          ⟨-, same⟩ | ⟨-, -, same⟩ | ⟨allowed, unrecorded, faults, -⟩
        · rw [same] at before
          exact .inl before
        · rw [same] at before
          exact .inl before
        · rw [faults] at before
          rcases List.mem_append.mp before with old | finds
          · exact .inl old
          · exact .inr ⟨check, List.mem_cons_self, allowed, finds, unrecorded⟩
      · refine .inr ⟨other, List.mem_cons_of_mem _ listed, allowed, finds, ?_⟩
        intro key recorded
        exact unrecorded key (mem_checked_once.mpr (.inl recorded))

/-- A check that may run either is recorded, or one with its key has run. -/
theorem faults_runChecks_of_allowed {check : ContentCheck} (listed : check ∈ checks)
    (allowed : check.allowed) :
    (∃ key ∈ session.verified.checked, check.key = some key) ∨
      ∃ first ∈ checks, first.allowed ∧ first.key = check.key ∧
        first.faults ⊆ (session.runChecks origin checks).faults ∧
        (check.key = none → first = check) := by
  induction checks generalizing session with
  | nil => cases listed
  | cons head checks ih =>
      rw [Session.runChecks, List.foldl_cons, ← Session.runChecks]
      rcases List.mem_cons.mp listed with rfl | later
      · rcases once_cases session origin check with
          ⟨refused, -⟩ | ⟨-, recorded, -⟩ | ⟨-, -, faults, -⟩
        · rw [refused] at allowed
          cases allowed
        · exact .inl recorded
        · refine .inr ⟨check, List.mem_cons_self, allowed, rfl, ?_, fun _ => rfl⟩
          refine List.Subset.trans ?_ faults_runChecks_subset
          rw [faults]
          exact List.subset_append_right _ _
      · rcases ih later with ⟨key, recorded, keyed⟩ | ⟨first, inRest, runs, same, finds, alone⟩
        · rcases mem_checked_once.mp recorded with before | ⟨runs, headKey⟩
          · exact .inl ⟨key, before, keyed⟩
          · rcases once_cases session origin head with
              ⟨refused, -⟩ | ⟨-, ⟨other, before, otherKey⟩, -⟩ | ⟨-, -, faults, -⟩
            · rw [refused] at runs
              cases runs
            · rw [headKey] at otherKey
              cases otherKey
              exact .inl ⟨key, before, keyed⟩
            · refine .inr ⟨head, List.mem_cons_self, runs, headKey.trans keyed.symm, ?_, ?_⟩
              · refine List.Subset.trans ?_ faults_runChecks_subset
                rw [faults]
                exact List.subset_append_right _ _
              · rw [keyed]
                nofun
        · exact .inr ⟨first, List.mem_cons_of_mem _ inRest, runs, same, finds, alone⟩

end

variable {objects : Objects} {texts : Texts}

/-- Only sound roots are recorded as such. -/
def Session.Trusted (objects : Objects) (session : Session) : Prop :=
  ∀ root ∈ session.verified.roots, soundRoot objects root

structure Verifies (objects : Objects) (before after : Session) (faults : List Fault) :
    Prop where
  trusted : after.Trusted objects
  checked : after.verified.checked = before.verified.checked
  chunkSets : after.verified.chunkSets = before.verified.chunkSets
  faults : after.faults = before.faults ++ faults

theorem Verifies.trans {first second third : Session} {early late : List Fault}
    (begins : Verifies objects first second early)
    (ends : Verifies objects second third late) :
    Verifies objects first third (early ++ late) where
  trusted := ends.trusted
  checked := ends.checked.trans begins.checked
  chunkSets := ends.chunkSets.trans begins.chunkSets
  faults := by rw [ends.faults, begins.faults, List.append_assoc]

section

variable {manifest : Cbor.Manifest} {origin : Origin} {session : Session}

theorem verifyMap_spec (trusted : session.Trusted objects) (map : MapId) (root : MapRoot) :
    (verifyMap objects texts manifest origin map root session).1 = soundRoot objects root ∧
      Verifies objects session (verifyMap objects texts manifest origin map root session).2
        (rootFaults objects texts manifest map root) := by
  rw [verifyMap]
  split
  · next known =>
      have sound := trusted root known
      rw [rootFaults_eq_nil.mpr sound]
      exact ⟨sound.symm, trusted, rfl, rfl, (List.append_nil _).symm⟩
  · split
    · next clean =>
        have sound := rootFaults_eq_nil.mp clean
        refine ⟨sound.symm, ?_, rfl, rfl, ?_⟩
        · intro other member
          rcases Finset.mem_insert.mp member with rfl | known
          · exact sound
          · exact trusted other known
        · rw [clean, faults_verified, List.append_nil]
    · next faulty =>
        refine ⟨?_, trusted, rfl, rfl, faults_push _ _ _⟩
        cases sound : soundRoot objects root with
        | false => rfl
        | true => exact absurd (rootFaults_eq_nil.mpr sound) faulty

theorem verifyIndexes_spec (trusted : session.Trusted objects) (rows : List (String × MapRoot)) :
    (verifyIndexes objects texts manifest origin rows session).1 =
        rows.filter (fun row => soundRoot objects row.2) ∧
      Verifies objects session (verifyIndexes objects texts manifest origin rows session).2
        (rows.flatMap fun (name, root) =>
          rootFaults objects texts manifest (.index name) root) := by
  induction rows generalizing session with
  | nil => exact ⟨rfl, trusted, rfl, rfl, (List.append_nil _).symm⟩
  | cons row rows ih =>
      obtain ⟨name, root⟩ := row
      have first := @verifyMap_spec objects texts manifest origin session trusted (.index name) root
      have rest := @ih (verifyMap objects texts manifest origin (.index name) root session).2
        first.2.trusted
      rw [verifyIndexes, List.flatMap_cons]
      refine ⟨?_, first.2.trans rest.2⟩
      simp only [first.1, rest.1, List.filter_cons]

theorem verifyMaps_spec (trusted : session.Trusted objects) :
    (verifyMaps objects texts manifest origin session).1 = soundMaps objects manifest ∧
      Verifies objects session (verifyMaps objects texts manifest origin session).2
        ((allMaps manifest).flatMap fun (map, root) =>
          rootFaults objects texts manifest map root) := by
  have nodes := @verifyMap_spec objects texts manifest origin session trusted .nodes manifest.nodes
  have schema := @verifyMap_spec objects texts manifest origin _ nodes.2.trusted
    .schema manifest.schema
  have forward := @verifyMap_spec objects texts manifest origin _ schema.2.trusted
    .edgesFwd manifest.edgesFwd
  have backward := @verifyMap_spec objects texts manifest origin _ forward.2.trusted
    .edgesRev manifest.edgesRev
  have indexes := @verifyIndexes_spec objects texts manifest origin _ backward.2.trusted
    manifest.indexes.entries
  have upTo := (((nodes.2.trans schema.2).trans forward.2).trans backward.2).trans indexes.2
  rw [verifyMaps]
  constructor
  · simp only [nodes.1, schema.1, forward.1, backward.1, indexes.1]
    rfl
  · cases pending : manifest.conflicts with
    | none =>
        simpa [allMaps, pending, List.flatMap_map, List.flatMap_append] using upTo
    | some root =>
        have conflicts := @verifyMap_spec objects texts manifest origin _ indexes.2.trusted
          .conflicts root
        simpa [allMaps, pending, List.flatMap_map, List.flatMap_append] using
          upTo.trans conflicts.2

end

section

variable (objects texts)

/-- A map that is sound but not the tree its contents build. -/
def Damaged (params : ChunkParams) (root : MapRoot) : Prop :=
  soundRoot objects root ∧ noncanonical objects params root

def Finds (manifest : Cbor.Manifest) (key : CheckKey) (faults : List Fault) : Prop :=
  match key with
  | .manifest _ => False
  | .edgeSymmetry edgesFwd edgesRev =>
      manifest.edgesFwd = edgesFwd ∧ manifest.edgesRev = edgesRev ∧
        faults = edgeSymmetryFaults objects texts manifest
  | .referential nodes edgesFwd =>
      manifest.nodes = nodes ∧ manifest.edgesFwd = edgesFwd ∧
        faults = referentialFaults objects texts manifest
  | .indexes schema nodes index name =>
      manifest.schema = schema ∧ manifest.nodes = nodes ∧
        manifest.indexes.get name = some index ∧ faults = indexFaults objects texts manifest name
  | .constraints schema nodes =>
      manifest.schema = schema ∧ manifest.nodes = nodes ∧ soundRoot objects schema ∧
        soundRoot objects nodes ∧ faults = constraintFaults objects texts manifest
  | .canonical root params =>
      manifest.chunkParams = params ∧ soundRoot objects root ∧
        ((manifest.nodes = root ∧ faults = canonicalFaults objects params root .nodes) ∨
          (manifest.edgesFwd = root ∧ faults = canonicalFaults objects params root .edgesFwd))

end

section

variable {manifest : Cbor.Manifest}

theorem contentChecks_cases {sound : SoundMaps} {check : ContentCheck}
    (listed : check ∈ contentChecks objects texts manifest sound) :
    check = ⟨sound.edgesFwd && sound.edgesRev,
        some (.edgeSymmetry manifest.edgesFwd manifest.edgesRev),
        edgeSymmetryFaults objects texts manifest⟩ ∨
      check = ⟨sound.nodes && sound.edgesFwd,
        some (.referential manifest.nodes manifest.edgesFwd),
        referentialFaults objects texts manifest⟩ ∨
      check = ⟨sound.nodes, none, missingIndexFaults objects texts manifest⟩ ∨
      (∃ row ∈ sound.indexes, check = ⟨sound.nodes,
        some (.indexes manifest.schema manifest.nodes row.2 row.1),
        indexFaults objects texts manifest row.1⟩) ∨
      check = ⟨sound.schema && sound.nodes, some (.constraints manifest.schema manifest.nodes),
        constraintFaults objects texts manifest⟩ ∨
      check = ⟨sound.nodes, some (.canonical manifest.nodes manifest.chunkParams),
        canonicalFaults objects manifest.chunkParams manifest.nodes .nodes⟩ ∨
      check = ⟨sound.edgesFwd, some (.canonical manifest.edgesFwd manifest.chunkParams),
        canonicalFaults objects manifest.chunkParams manifest.edgesFwd .edgesFwd⟩ := by
  simp only [contentChecks, List.mem_append, List.mem_cons, List.mem_map, List.not_mem_nil,
    or_false] at listed
  rcases listed with ((first | second | third) | ⟨row, member, rfl⟩) | (fifth | sixth | last)
  · exact .inl first
  · exact .inr (.inl second)
  · exact .inr (.inr (.inl third))
  · exact .inr (.inr (.inr (.inl ⟨row, member, rfl⟩)))
  · exact .inr (.inr (.inr (.inr (.inl fifth))))
  · exact .inr (.inr (.inr (.inr (.inr (.inl sixth)))))
  · exact .inr (.inr (.inr (.inr (.inr (.inr last)))))

theorem constraints_listed (sound : SoundMaps) :
    ⟨sound.schema && sound.nodes, some (.constraints manifest.schema manifest.nodes),
      constraintFaults objects texts manifest⟩ ∈ contentChecks objects texts manifest sound :=
  List.mem_append_right _ List.mem_cons_self

theorem canonical_nodes_listed (sound : SoundMaps) :
    ⟨sound.nodes, some (.canonical manifest.nodes manifest.chunkParams),
      canonicalFaults objects manifest.chunkParams manifest.nodes .nodes⟩ ∈
        contentChecks objects texts manifest sound :=
  List.mem_append_right _ (List.mem_cons_of_mem _ List.mem_cons_self)

theorem canonical_edgesFwd_listed (sound : SoundMaps) :
    ⟨sound.edgesFwd, some (.canonical manifest.edgesFwd manifest.chunkParams),
      canonicalFaults objects manifest.chunkParams manifest.edgesFwd .edgesFwd⟩ ∈
        contentChecks objects texts manifest sound :=
  List.mem_append_right _ (List.mem_cons_of_mem _ (List.mem_cons_of_mem _ List.mem_cons_self))

theorem finds_of_listed {check : ContentCheck} {key : CheckKey}
    (listed : check ∈ contentChecks objects texts manifest (soundMaps objects manifest))
    (allowed : check.allowed) (keyed : check.key = some key) :
    Finds objects texts manifest key check.faults := by
  rcases contentChecks_cases listed with
    rfl | rfl | rfl | ⟨row, member, rfl⟩ | rfl | rfl | rfl <;> cases keyed
  · exact ⟨rfl, rfl, rfl⟩
  · exact ⟨rfl, rfl, rfl⟩
  · have entry := (List.mem_filter.mp member).1
    exact ⟨rfl, rfl, SortedMap.get_eq_some_iff.mpr entry, rfl⟩
  · obtain ⟨schema, nodes⟩ := Bool.and_eq_true_iff.mp allowed
    exact ⟨rfl, rfl, schema, nodes, rfl⟩
  · exact ⟨rfl, allowed, .inl ⟨rfl, rfl⟩⟩
  · exact ⟨rfl, allowed, .inr ⟨rfl, rfl⟩⟩

end

end Acetone.Graph.Fsck

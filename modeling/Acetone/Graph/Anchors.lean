import Acetone.Graph.Fsck
import Acetone.Prolly.Walk
import Mathlib.Data.Finset.Sort

/-!
# The anchors of a version

Beside its manifest, a commit or workspace tree lists every chunk of the maps,
in a tree of shards by the first byte of the hash.  Git's own walk finds the
chunks there and keeps them.  The trees are written whatever their size, but
none above the object cap is read back.
-/

namespace Acetone.Graph.Anchors

open Acetone.Lib Acetone.Model
open Acetone.Prolly (Hash Store Root ProllyError Reaches WellFormed collectReachableChunks
  collectRoots)
open Acetone.Model.Cbor (MapRoot)

inductive EntryMode where
  | blob
  | tree
  | other
deriving DecidableEq

structure TreeEntry where
  mode : EntryMode
  filename : String
  oid : Hash
deriving DecidableEq

/-- Tags are not among what is read here. -/
inductive GitObject where
  | blob (data : Bytes)
  | tree (entries : List TreeEntry)
  | commit (root : Hash) (rest : Bytes)
deriving DecidableEq

/-- The mode, a space, the name, a zero byte and the digest. -/
def TreeEntry.size (entry : TreeEntry) : Nat :=
  (if entry.mode = .tree then 5 else 6) + 1 + (utf8 entry.filename).length + 1 +
    entry.oid.asBytes.length

def GitObject.size : GitObject → Nat
  | .blob data => data.length
  | .tree entries => (entries.map TreeEntry.size).sum
  | .commit root rest => 6 + 2 * root.asBytes.length + rest.length

def GitObject.kind : GitObject → String
  | .blob _ => "blob"
  | .tree _ => "tree"
  | .commit .. => "commit"

/-- What git's walk goes on to, the parents of a commit apart. -/
def GitObject.children : GitObject → List Hash
  | .blob _ => []
  | .tree entries => (entries.filter fun entry => entry.mode ≠ .other).map TreeEntry.oid
  | .commit root _ => [root]

inductive AnchorError where
  | corrupt (context reason : String)
  | wrongObjectKind (hash : Hash) (expected actual : String)
  | objectTooLarge (size limit : Nat)
  | invalidAnchor (hash : Hash) (reason : String)
deriving DecidableEq

abbrev Objects := List GitObject

instance : LinearOrder Hash := .lift' Hash.asBytes fun ⟨_, _⟩ ⟨_, _⟩ => (Hash.mk.injEq ..).mpr

section

variable (address : GitObject → Hash) (cap : Nat) (objects : Objects)

def findObject (hash : Hash) : Option GitObject :=
  objects.find? fun object => address object = hash

def Distinct : Prop := Set.InjOn address {object | object ∈ objects}

def chunks : Store := objects.filterMap fun
  | .blob data => if data.length ≤ cap then some data else none
  | _ => none

def fetchChunk : Prolly.Fetch := (chunks cap objects).fetch fun data => address (.blob data)

/-- The second object is found by git's walk from the first. -/
def GitReaches : Hash → Hash → Prop :=
  Relation.ReflTransGen fun hash child =>
    ∃ object, findObject address objects hash = some object ∧ child ∈ object.children

def mapRoots (manifest : Cbor.Manifest) : List MapRoot :=
  [manifest.schema, manifest.nodes, manifest.edgesFwd, manifest.edgesRev] ++
    manifest.indexes.entries.map Prod.snd ++ manifest.conflicts.toList

def manifestChunkSet (manifest : Cbor.Manifest) : Except ProllyError (List Hash) := do
  let set ← (mapRoots manifest).foldlM (fun set mapRoot => do
    let root ← Fsck.toRoot mapRoot manifest.chunkParams
    collectReachableChunks (fun data => address (.blob data)) (chunks cap objects) root set) ∅
  .ok (set.sort (· ≤ ·))

def writeObject (object : GitObject) : Hash × Objects := (address object, object :: objects)

def writeBlobCapped (data : Bytes) : Except AnchorError (Hash × Objects) :=
  if data.length > cap then .error (.objectTooLarge data.length cap)
  else .ok (writeObject address objects (.blob data))

def anchorEntry (oid : Hash) : TreeEntry := ⟨.blob, String.ofList (oid.toHex.toList.drop 2), oid⟩

/-- Into the last shard if it has the same first byte, else into a new one. -/
def addToShards (shards : List (String × List TreeEntry)) (oid : Hash) :
    List (String × List TreeEntry) :=
  let shard := String.ofList (oid.toHex.toList.take 2)
  match shards.getLast? with
  | some (last, entries) =>
      if last = shard then shards.dropLast ++ [(last, entries ++ [anchorEntry oid])]
      else shards ++ [(shard, [anchorEntry oid])]
  | none => shards ++ [(shard, [anchorEntry oid])]

def checkAnchor (hash : Hash) : Except AnchorError Unit :=
  match findObject address objects hash with
  | none => .error (.invalidAnchor hash "object is not in the store")
  | some (.blob _) => .ok ()
  | some _ => .error (.invalidAnchor hash "only blobs (chunks) can be anchored")

def shardEntry (shard : String × List TreeEntry) : TreeEntry :=
  ⟨.tree, shard.1, address (.tree shard.2)⟩

def writeAnchorTree (anchors : List Hash) : Except AnchorError (Hash × Objects) := do
  anchors.forM (checkAnchor address objects)
  let oids := (anchors.insertionSort (· ≤ ·)).dedup
  let shards := oids.foldl addToShards []
  let objects := shards.foldl (fun objects shard => .tree shard.2 :: objects) objects
  .ok (writeObject address objects (.tree (shards.map (shardEntry address))))

def writeAcetoneSubtree (manifestOid : Hash) (anchors : List Hash) :
    Except AnchorError (Hash × Objects) := do
  let (entries, objects) ←
    if anchors = [] then .ok ([], objects)
    else do
      let (oid, objects) ← writeAnchorTree address objects anchors
      .ok ([⟨.tree, "chunks", oid⟩], objects)
  .ok (writeObject address objects (.tree (entries ++ [⟨.blob, "manifest", manifestOid⟩])))

def writeWorkspaceTree (manifest : Bytes) (anchors : List Hash) :
    Except AnchorError (Hash × Objects) := do
  let (manifestOid, objects) ← writeBlobCapped address cap objects manifest
  let (acetoneOid, objects) ← writeAcetoneSubtree address objects manifestOid anchors
  .ok (writeObject address objects (.tree [⟨.tree, ".acetone", acetoneOid⟩]))

def writeCommitTreeOid (manifest summary : Bytes) (anchors : List Hash) :
    Except AnchorError (Hash × Objects) := do
  let (manifestOid, objects) ← writeBlobCapped address cap objects manifest
  let (summaryOid, objects) ← writeBlobCapped address cap objects summary
  let (acetoneOid, objects) ← writeAcetoneSubtree address objects manifestOid anchors
  .ok (writeObject address objects
    (.tree [⟨.tree, ".acetone", acetoneOid⟩, ⟨.blob, "README.md", summaryOid⟩]))

def readObjectChecked (hash : Hash) (object : GitObject) (expected what : String) :
    Except AnchorError GitObject :=
  if object.kind ≠ expected then .error (.wrongObjectKind hash what object.kind)
  else if object.size > cap then .error (.objectTooLarge object.size cap)
  else .ok object

def readTree (what : String) (hash : Hash) : Except AnchorError (List TreeEntry) :=
  match findObject address objects hash with
  | none => .error (.corrupt what "tree object is missing")
  | some object => do
      match ← readObjectChecked cap hash object "tree" what with
      | .tree entries => .ok entries
      | _ => .ok []

def addAnchor (what : String) (anchors : Finset Hash) (entry : TreeEntry) :
    Except AnchorError (Finset Hash) :=
  if entry.mode ≠ .blob then
    .error (.corrupt what
      "anchor shard contains a non-blob entry (two-level blobs-only layout is normative)")
  else .ok (insert entry.oid anchors)

def anchorsUnderRootTree (what : String) (tree : Hash) :
    Except AnchorError (Option (Finset Hash)) := do
  let root ← readTree address cap objects what tree
  match root.find? (·.filename = ".acetone") with
  | none => .error (.corrupt what "no `.acetone` directory in tree")
  | some acetone => do
      let acetoneTree ← readTree address cap objects what acetone.oid
      match acetoneTree.find? (·.filename = "chunks") with
      | none => .ok none
      | some chunks => do
          let chunksTree ← readTree address cap objects what chunks.oid
          let anchors ← chunksTree.foldlM (fun anchors shard => do
            let shardTree ← readTree address cap objects what shard.oid
            shardTree.foldlM (addAnchor what) anchors) ∅
          .ok (some anchors)

def commitAnchors (id : Hash) : Except AnchorError (Option (Finset Hash)) :=
  let what := "commit anchor tree"
  match findObject address objects id with
  | none => .error (.corrupt what "commit is absent from the store")
  | some object => do
      match ← readObjectChecked cap id object "commit" what with
      | .commit tree _ => anchorsUnderRootTree address cap objects what tree
      | _ => .ok none

inductive WorkspaceAnchors where
  | preHuoBlob
  | treeUnanchored
  | anchored (anchors : Finset Hash)
deriving DecidableEq

def workspaceAnchors (id : Hash) : Except AnchorError WorkspaceAnchors :=
  let what := "workspace anchor tree"
  match findObject address objects id with
  | none => .error (.corrupt what "workspace object is absent from the store")
  | some (.blob _) => .ok .preHuoBlob
  | some (.tree _) => do
      match ← anchorsUnderRootTree address cap objects what id with
      | some anchors => .ok (.anchored anchors)
      | none => .ok .treeUnanchored
  | some (.commit ..) => .error (.corrupt what "unexpected object kind Commit")

end

section

variable {address : GitObject → Hash} {cap : Nat} {objects : Objects}

private theorem findObject_of_mem (distinct : Distinct address objects)
    {object : GitObject} (member : object ∈ objects) :
    findObject address objects (address object) = some object := by
  cases found : findObject address objects (address object) with
  | none => simpa using List.find?_eq_none.mp found object member
  | some other =>
      have same := List.find?_some found
      rw [distinct (List.mem_of_find?_eq_some found) member (of_decide_eq_true same)]

private theorem GitReaches.entry (distinct : Distinct address objects)
    {entries : List TreeEntry} (written : .tree entries ∈ objects) {entry : TreeEntry}
    (member : entry ∈ entries) (walked : entry.mode ≠ .other) :
    GitReaches address objects (address (.tree entries)) entry.oid :=
  .single ⟨_, findObject_of_mem distinct written,
    List.mem_map_of_mem (List.mem_filter.mpr ⟨member, decide_eq_true walked⟩)⟩

private theorem readTree_of_mem (distinct : Distinct address objects)
    {entries : List TreeEntry} (written : .tree entries ∈ objects)
    (fits : (GitObject.tree entries).size ≤ cap) (what : String) :
    readTree address cap objects what (address (.tree entries)) = .ok entries := by
  rw [readTree, findObject_of_mem distinct written]
  simp only [readObjectChecked, GitObject.kind, ne_eq, not_true_eq_false, if_false,
    if_neg (not_lt.mpr fits), ok_bind]

private theorem flatMap_addToShards (shards : List (String × List TreeEntry)) (oid : Hash) :
    (addToShards shards oid).flatMap Prod.snd = shards.flatMap Prod.snd ++ [anchorEntry oid] := by
  rw [addToShards]
  cases isLast : shards.getLast? with
  | none => simp
  | some last =>
      obtain ⟨front, rfl⟩ := List.getLast?_eq_some_iff.mp isLast
      dsimp only
      split
      · simp
      · simp

/-- The shards hold the entries of the chunks, whatever their hashes. -/
private theorem flatMap_shards (oids : List Hash) (shards : List (String × List TreeEntry)) :
    (oids.foldl addToShards shards).flatMap Prod.snd =
      shards.flatMap Prod.snd ++ oids.map anchorEntry := by
  induction oids generalizing shards with
  | nil => exact (List.append_nil _).symm
  | cons oid oids ih =>
      rw [List.foldl_cons, ih, flatMap_addToShards, List.append_assoc, List.map_cons,
        List.singleton_append]

private theorem addAnchors_of_blobs (what : String) {entries : List TreeEntry}
    (blobs : ∀ entry ∈ entries, entry.mode = .blob) (anchors : Finset Hash) :
    entries.foldlM (addAnchor what) anchors =
      .ok (anchors ∪ (entries.map TreeEntry.oid).toFinset) := by
  induction entries generalizing anchors with
  | nil => simp; rfl
  | cons entry entries ih =>
      rw [List.forall_mem_cons] at blobs
      rw [List.foldlM_cons, addAnchor, if_neg (not_not.mpr blobs.1), ok_bind, ih blobs.2]
      simp [Finset.insert_union]

/-- The shards read one after another. -/
private theorem readShards_of_written (distinct : Distinct address objects)
    (what : String) {shards : List (String × List TreeEntry)}
    (written : ∀ shard ∈ shards, .tree shard.2 ∈ objects ∧ (GitObject.tree shard.2).size ≤ cap ∧
      ∀ entry ∈ shard.2, entry.mode = .blob) (anchors : Finset Hash) :
    (shards.map (shardEntry address)).foldlM (fun anchors shard => do
        let shardTree ← readTree address cap objects what shard.oid
        shardTree.foldlM (addAnchor what) anchors) anchors =
      .ok (anchors ∪ ((shards.flatMap Prod.snd).map TreeEntry.oid).toFinset) := by
  induction shards generalizing anchors with
  | nil => simp; rfl
  | cons shard shards ih =>
      obtain ⟨⟨isWritten, fits, blobs⟩, others⟩ := List.forall_mem_cons.mp written
      rw [List.map_cons, List.foldlM_cons, shardEntry, readTree_of_mem distinct isWritten fits,
        ok_bind, addAnchors_of_blobs what blobs, ok_bind, ih others]
      simp [Finset.union_assoc]

structure Anchored (address : GitObject → Hash) (after : Objects) (anchors : List Hash)
    (shards : List (String × List TreeEntry)) : Prop where
  holds : shards.flatMap Prod.snd = ((anchors.insertionSort (· ≤ ·)).dedup).map anchorEntry
  shard : ∀ shard ∈ shards, .tree shard.2 ∈ after
  top : .tree (shards.map (shardEntry address)) ∈ after

private theorem writeAcetoneSubtree_spec {manifestOid oid : Hash} {anchors : List Hash}
    {after : Objects} (nonempty : anchors ≠ [])
    (written : writeAcetoneSubtree address objects manifestOid anchors = .ok (oid, after)) :
    ∃ shards, Anchored address after anchors shards ∧
      .tree [⟨.tree, "chunks", address (.tree (shards.map (shardEntry address)))⟩,
        ⟨.blob, "manifest", manifestOid⟩] ∈ after ∧
      oid = address (.tree [⟨.tree, "chunks", address (.tree (shards.map (shardEntry address)))⟩,
        ⟨.blob, "manifest", manifestOid⟩]) := by
  rw [writeAcetoneSubtree, if_neg nonempty, writeAnchorTree] at written
  obtain ⟨_, top, ⟨⟩⟩ := bind_eq_ok.mp written
  obtain ⟨_, -, ⟨⟩⟩ := bind_eq_ok.mp top
  refine ⟨_, ⟨flatMap_shards _ _, fun shard member => ?_,
    List.mem_cons_of_mem _ List.mem_cons_self⟩, List.mem_cons_self, rfl⟩
  simp only [writeObject, List.foldl_flip_cons_eq_append, List.mem_cons, List.mem_append,
    List.mem_reverse]
  exact .inr (.inr (.inl (List.mem_map_of_mem member)))

/-- Every tree and commit that git's walk finds is within the cap. -/
def WithinCap (address : GitObject → Hash) (cap : Nat) (objects : Objects) (id : Hash) : Prop :=
  ∀ hash object, GitReaches address objects id hash →
    findObject address objects hash = some object → (∀ data, object ≠ .blob data) →
      object.size ≤ cap

/-- A tree whose first entry is a written `.acetone` tree. -/
private theorem anchorsUnderRootTree_spec {manifestOid oid : Hash} {anchors : List Hash}
    {before sub : Objects} {rest : List TreeEntry} (nonempty : anchors ≠ [])
    (written : writeAcetoneSubtree address before manifestOid anchors = .ok (oid, sub))
    (kept : sub ⊆ objects) (distinct : Distinct address objects)
    (isRoot : .tree (⟨.tree, ".acetone", oid⟩ :: rest) ∈ objects) :
    (∀ hash ∈ anchors, GitReaches address objects
      (address (.tree (⟨.tree, ".acetone", oid⟩ :: rest))) hash) ∧
    ∀ what, WithinCap address cap objects
        (address (.tree (⟨.tree, ".acetone", oid⟩ :: rest))) →
      anchorsUnderRootTree address cap objects what
        (address (.tree (⟨.tree, ".acetone", oid⟩ :: rest))) = .ok (some anchors.toFinset) := by
  obtain ⟨shards, anchored, isAcetone, rfl⟩ := writeAcetoneSubtree_spec nonempty written
  have isTop := kept anchored.top
  have toAcetone := GitReaches.entry distinct isRoot List.mem_cons_self nofun
  have toTop := toAcetone.trans
    (GitReaches.entry distinct (kept isAcetone) List.mem_cons_self nofun)
  have toShard : ∀ shard ∈ shards, GitReaches address objects _ (address (.tree shard.2)) :=
    fun shard member => toTop.trans
      (GitReaches.entry distinct isTop (List.mem_map_of_mem member) nofun)
  have held : ∀ {shard}, shard ∈ shards → ∀ entry ∈ shard.2, ∃ hash ∈ anchors,
      anchorEntry hash = entry := by
    intro shard isShard entry member
    have inAll := List.mem_flatMap.mpr ⟨shard, isShard, member⟩
    rw [anchored.holds] at inAll
    simpa using inAll
  constructor
  · intro hash member
    have inAll : anchorEntry hash ∈ shards.flatMap Prod.snd := by
      rw [anchored.holds]
      simpa using ⟨hash, member, rfl⟩
    obtain ⟨shard, isShard, inShard⟩ := List.mem_flatMap.mp inAll
    exact (toShard shard isShard).trans
      (GitReaches.entry distinct (kept (anchored.shard shard isShard)) inShard nofun)
  · intro what within
    have fits {entries : List TreeEntry} (isTree : .tree entries ∈ objects)
        (found : GitReaches address objects _ (address (.tree entries))) :=
      within _ _ found (findObject_of_mem distinct isTree) nofun
    rw [anchorsUnderRootTree, readTree_of_mem distinct isRoot (fits isRoot .refl), ok_bind]
    simp only [List.find?_cons_of_pos, decide_true]
    rw [readTree_of_mem distinct (kept isAcetone) (fits (kept isAcetone) toAcetone), ok_bind]
    simp only [List.find?_cons_of_pos, decide_true]
    rw [readTree_of_mem distinct isTop (fits isTop toTop), ok_bind,
      readShards_of_written distinct what fun shard isShard =>
        ⟨kept (anchored.shard shard isShard),
          fits (kept (anchored.shard shard isShard)) (toShard shard isShard),
          fun entry member => by obtain ⟨_, -, rfl⟩ := held isShard entry member; rfl⟩,
      anchored.holds, ok_bind]
    congr 2
    ext hash
    simp [anchorEntry]

private theorem foldlM_mapRoots {params : Prolly.ChunkParams} {mapRoots : List MapRoot}
    {roots : List Root}
    (valid : List.Forall₂ (fun mapRoot root => Fsck.toRoot mapRoot params = .ok root) mapRoots roots)
    (address : Bytes → Hash) (store : Store) (set : Finset Hash) :
    mapRoots.foldlM (fun set mapRoot => do
        let root ← Fsck.toRoot mapRoot params
        collectReachableChunks address store root set) set =
      collectRoots address store roots set := by
  induction valid generalizing set with
  | nil => rfl
  | @cons mapRoot root mapRoots roots isRoot others ih =>
      rw [List.foldlM_cons, isRoot, ok_bind, collectRoots]
      exact congrArg _ (funext ih)

/-- The chunks of the maps are what git's walk finds and what is read back. -/
theorem anchors_exact {manifest : Cbor.Manifest} {roots : List Root}
    (valid : (mapRoots manifest).mapM (Fsck.toRoot · manifest.chunkParams) = .ok roots)
    (wellFormed : ∀ root ∈ roots, WellFormed (fetchChunk address cap objects) root) :
    ∃ anchors, manifestChunkSet address cap objects manifest = .ok anchors ∧
      (∀ hash, hash ∈ anchors ↔ ∃ root ∈ roots,
        Reaches (fetchChunk address cap objects) root.hash hash) ∧
      (∀ tree after,
        writeWorkspaceTree address cap objects manifest.encode anchors = .ok (tree, after) →
        Distinct address after →
        (∀ hash ∈ anchors, GitReaches address after tree hash) ∧
          (WithinCap address cap after tree →
            workspaceAnchors address cap after tree = .ok (.anchored anchors.toFinset))) ∧
      ∀ summary tree after rest,
        writeCommitTreeOid address cap objects manifest.encode summary anchors =
          .ok (tree, after) →
        Distinct address (.commit tree rest :: after) →
        (∀ hash ∈ anchors, GitReaches address (.commit tree rest :: after) tree hash) ∧
          (WithinCap address cap (.commit tree rest :: after) (address (.commit tree rest)) →
            commitAnchors address cap (.commit tree rest :: after)
              (address (.commit tree rest)) = .ok (some anchors.toFinset)) := by
  obtain ⟨out, exact, collects⟩ := Prolly.collectRoots_exact _ _ roots wellFormed
  have members : ∀ hash, hash ∈ out.sort (· ≤ ·) ↔ ∃ root ∈ roots,
      Reaches (fetchChunk address cap objects) root.hash hash :=
    fun hash => (Finset.mem_sort _).trans (exact hash)
  have nonempty : out.sort (· ≤ ·) ≠ [] := by
    cases mapM_eq_ok.mp valid with
    | cons =>
        exact List.ne_nil_of_mem ((members _).mpr ⟨_, List.mem_cons_self, .refl⟩)
  refine ⟨out.sort (· ≤ ·), ?_, members, ?_, ?_⟩
  · rw [manifestChunkSet, foldlM_mapRoots (mapM_eq_ok.mp valid), collects _ (.refl _)]
    rfl
  · intro tree after written distinct
    obtain ⟨_, -, written⟩ := bind_eq_ok.mp written
    obtain ⟨_, subtree, ⟨⟩⟩ := bind_eq_ok.mp written
    obtain ⟨walks, reads⟩ := anchorsUnderRootTree_spec nonempty subtree
      (List.subset_cons_self _ _) distinct List.mem_cons_self
    refine ⟨walks, fun within => ?_⟩
    rw [workspaceAnchors, findObject_of_mem distinct List.mem_cons_self]
    dsimp only
    rw [reads _ within, ok_bind]
  · intro summary tree after rest written distinct
    obtain ⟨_, -, written⟩ := bind_eq_ok.mp written
    obtain ⟨_, -, written⟩ := bind_eq_ok.mp written
    obtain ⟨_, subtree, ⟨⟩⟩ := bind_eq_ok.mp written
    obtain ⟨walks, reads⟩ := anchorsUnderRootTree_spec nonempty subtree
      (fun _ old => List.mem_cons_of_mem _ (List.mem_cons_of_mem _ old)) distinct
      (List.mem_cons_of_mem _ List.mem_cons_self)
    refine ⟨walks, fun within => ?_⟩
    have isCommit := findObject_of_mem distinct List.mem_cons_self
    rw [commitAnchors, isCommit]
    simp only [readObjectChecked, GitObject.kind, ne_eq, not_true_eq_false, if_false,
      if_neg (not_lt.mpr (within _ _ .refl isCommit nofun)), ok_bind]
    exact reads _ fun hash object reaches =>
      within hash object (.head ⟨_, isCommit, List.mem_singleton_self _⟩ reaches)

end

def leafChunk (byte : UInt8) : Bytes :=
  Prolly.nodeBytes 0 ([([1], [byte])].map fun entry => .leaf entry.1 entry.2)

/-- By the kind, the size and the last byte of a chunk. -/
def sizedAddress (object : GitObject) : Hash :=
  ⟨(if object.kind = "blob" then 0 else 1) :: UInt8.ofNat object.size ::
    (match object with | .blob data => data.getLastD 0 | _ => 0) :: List.replicate 17 0, .inl rfl⟩

def leafMap (byte : UInt8) : MapRoot := ⟨sizedAddress (.blob (leafChunk byte)), 1⟩

def fourMaps : Cbor.Manifest :=
  ⟨Prolly.sampleParams, leafMap 7, leafMap 8, leafMap 9, leafMap 10, .empty, none⟩

def fourLeaves : Objects := [7, 8, 9, 10].map fun byte => .blob (leafChunk byte)

def fourRoots : List Root :=
  [7, 8, 9, 10].map fun byte => ⟨(leafMap byte).hash, 1, Prolly.sampleParams⟩

def fourAnchors : List Hash := fourRoots.map Root.hash

private theorem fourRoots_valid :
    (mapRoots fourMaps).mapM (Fsck.toRoot · fourMaps.chunkParams) = .ok fourRoots := rfl

private theorem fourRoots_wellFormed {cap : Nat} (fits : 15 ≤ cap) :
    ∀ root ∈ fourRoots, WellFormed (fetchChunk sizedAddress cap fourLeaves) root := by
  have all : chunks cap fourLeaves = [7, 8, 9, 10].map leafChunk := by
    simp only [chunks, fourLeaves, List.filterMap_map]
    exact List.filterMap_eq_map_iff_forall_eq_some.mpr fun byte _ => if_pos fits
  have found : ∀ byte ∈ [7, 8, 9, 10], Store.get (fun data => sizedAddress (.blob data))
      ([7, 8, 9, 10].map leafChunk) (leafMap byte).hash = some (leafChunk byte) := by
    decide +kernel
  have decodes : ∀ byte ∈ [7, 8, 9, 10],
      Prolly.decodeNode (leafChunk byte) 0 = .ok (.leaf [([1], [byte])]) := by
    decide +kernel
  rw [fetchChunk, all, fourRoots, List.forall_mem_map]
  intro byte member
  exact ⟨[([1], [byte])], ⟨leafChunk byte, congrArg Except.ok (found byte member),
    decodes byte member⟩, List.pairwise_singleton _ _⟩

private theorem collect_leaf (address : Bytes → Hash) (store : Store) (hash : Hash)
    (params : Prolly.ChunkParams) (out : Finset Hash) :
    collectReachableChunks address store ⟨hash, 1, params⟩ out = .ok (insert hash out) := by
  rw [collectReachableChunks]
  split
  · next known => rw [Finset.insert_eq_of_mem known]
  · exact Prolly.Gathering.run.eq_def ..

private theorem fourMaps_chunkSet (cap : Nat) :
    manifestChunkSet sizedAddress cap fourLeaves fourMaps = .ok fourAnchors := by
  rw [manifestChunkSet, foldlM_mapRoots (mapM_eq_ok.mp fourRoots_valid)]
  simp only [fourRoots, List.map_cons, List.map_nil, collectRoots, collect_leaf, ok_bind]
  have whole : (insert (leafMap 10).hash (insert (leafMap 9).hash (insert (leafMap 8).hash
      (insert (leafMap 7).hash ∅))) : Finset Hash) = fourAnchors.toFinset := by decide +kernel
  rw [whole, (List.toFinset_sort (· ≤ ·) (by decide +kernel)).mpr (by decide +kernel)]

def shardTree : List TreeEntry := fourAnchors.map anchorEntry

def chunksTree : List TreeEntry := [shardEntry sizedAddress ("00", shardTree)]

def acetoneTree : List TreeEntry :=
  [⟨.tree, "chunks", sizedAddress (.tree chunksTree)⟩,
    ⟨.blob, "manifest", sizedAddress (.blob fourMaps.encode)⟩]

def rootTree : List TreeEntry := [⟨.tree, ".acetone", sizedAddress (.tree acetoneTree)⟩]

def fourWritten : Objects :=
  [.tree rootTree, .tree acetoneTree, .tree chunksTree, .tree shardTree, .blob fourMaps.encode] ++
    fourLeaves

private theorem fourWritten_distinct : Distinct sizedAddress fourWritten := by
  have distinct : ∀ left ∈ fourWritten, ∀ right ∈ fourWritten,
      sizedAddress left = sizedAddress right → left = right := by decide +kernel
  exact fun left isLeft right isRight => distinct left isLeft right isRight

/-- The shard of the four chunks takes 264 bytes, and the manifest 154. -/
theorem anchors_large_shard :
    (∀ root ∈ fourRoots, WellFormed (fetchChunk sizedAddress 200 fourLeaves) root) ∧
    manifestChunkSet sizedAddress 200 fourLeaves fourMaps = .ok fourAnchors ∧
    writeWorkspaceTree sizedAddress 200 fourLeaves fourMaps.encode fourAnchors =
      .ok (sizedAddress (.tree rootTree), fourWritten) ∧
    Distinct sizedAddress fourWritten ∧
    workspaceAnchors sizedAddress 200 fourWritten (sizedAddress (.tree rootTree)) =
      .error (.objectTooLarge 264 200) :=
  ⟨fourRoots_wellFormed (by decide), fourMaps_chunkSet 200, by decide +kernel,
    fourWritten_distinct, by decide +kernel⟩

theorem anchors_exact_four : ∃ anchors,
    manifestChunkSet sizedAddress 300 fourLeaves fourMaps = .ok anchors ∧
    (∀ hash ∈ anchors, GitReaches sizedAddress fourWritten (sizedAddress (.tree rootTree)) hash) ∧
    workspaceAnchors sizedAddress 300 fourWritten (sizedAddress (.tree rootTree)) =
      .ok (.anchored anchors.toFinset) := by
  obtain ⟨anchors, isSet, -, workspace, -⟩ :=
    anchors_exact fourRoots_valid (@fourRoots_wellFormed 300 (by decide))
  cases (fourMaps_chunkSet 300).symm.trans isSet
  obtain ⟨walks, reads⟩ := workspace (sizedAddress (.tree rootTree)) fourWritten
    (by decide +kernel) fourWritten_distinct
  refine ⟨fourAnchors, isSet, walks, reads fun hash object _ found _ => ?_⟩
  have small : ∀ object ∈ fourWritten, object.size ≤ 300 := by decide +kernel
  exact small object (List.mem_of_find?_eq_some found)

end Acetone.Graph.Anchors

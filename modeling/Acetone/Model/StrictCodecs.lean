import Acetone.Model.RecordCodec
import Acetone.Model.SchemaCodec
import Acetone.Model.ManifestCodec

/-!
# Strictness of the stored encodings

What the four codecs promise together: a value that its decoder admits comes
back from its encoding, and no byte string decodes to a value that would be
encoded otherwise.
-/

namespace Acetone.Model.Cbor

open Acetone.Lib

/-- The decoder demands a non-empty entry name; the encoder does not. -/
theorem decodeEntry_emptyName :
    ∃ (decl : IndexDef) (out : ByteVec),
      encodeEntry (.index "" decl) = out.bytes ∧
        decodeEntry (SchemaEntry.index "" decl).mapKey out.bytes =
          .error (.emptyName "schema entry name") := by
  refine ⟨⟨"Person", ["email"], by decide, by decide, by decide⟩, ⟨_, ?_⟩, rfl, ?_⟩
  · decide +kernel
  · decide +kernel

/-- Decoding inverts encoding, up to the payload of NaNs, on every record, on
every entry with a name and on every manifest with named indexes and heights
the tree layer can read; a byte string that decodes is the encoding of what it
decodes to. -/
theorem storedCodecs_strict :
    (∀ (record : NodeRecord) (out : ByteVec), record.encode = .ok out.bytes →
      NodeRecord.decode out.bytes = .ok record.canonicalNans) ∧
    (∀ bytes (record : NodeRecord), NodeRecord.decode bytes = .ok record →
      record.encode = .ok bytes) ∧
    (∀ (record : EdgeRecord) (out : ByteVec), record.encode = .ok out.bytes →
      EdgeRecord.decode out.bytes = .ok record.canonicalNans) ∧
    (∀ bytes (record : EdgeRecord), EdgeRecord.decode bytes = .ok record →
      record.encode = .ok bytes) ∧
    (∀ (entry : SchemaEntry) (out : ByteVec), entry.Built → entry.name ≠ "" →
      encodeEntry entry = out.bytes → decodeEntry entry.mapKey out.bytes = .ok entry) ∧
    (∀ key value entry, decodeEntry key value = .ok entry →
      entry.mapKey = key ∧ encodeEntry entry = value) ∧
    (∀ (manifest : Manifest) (out : ByteVec), manifest.Readable →
      manifest.encode = out.bytes → Manifest.decode out.bytes = .ok manifest) ∧
    (∀ bytes manifest, Manifest.decode bytes = .ok manifest →
      manifest.encode = bytes) := by
  have small : ∀ out : ByteVec, out.bytes.length < 2 ^ 64 := by
    intro out
    have bounded := out.bounded
    omega
  refine ⟨?nodes, fun _ _ => NodeRecord.encode_of_decode, ?edges,
    fun _ _ => EdgeRecord.encode_of_decode, ?entries,
    fun _ _ _ => encodeEntry_of_decodeEntry, ?manifests,
    fun _ _ => Manifest.encode_of_decode⟩
  case nodes =>
    intro record out encoded
    exact NodeRecord.decode_of_encode encoded (small out)
  case edges =>
    intro record out encoded
    exact EdgeRecord.decode_of_encode encoded (small out)
  case entries =>
    intro entry out built named encoded
    rw [← encoded]
    exact decodeEntry_of_encodeEntry built named (by rw [encoded]; exact small out)
  case manifests =>
    intro manifest out readable encoded
    rw [← encoded]
    exact Manifest.decode_of_encode readable (by rw [encoded]; exact small out)

/-- Labels and properties leave in the canonical order, and a manifest with one
index and no merge in progress has six fields. -/
theorem storedCodecs_strict_sample :
    NodeRecord.decode [0x82, 0x82, 0x61, 0x5a, 0x62, 0x41, 0x62, 0xa1, 0x61, 0x6e, 0x01] =
      .ok (NodeRecord.new ["Ab", "Z"] (SortedMap.ofList [("n", .int 1)])).canonicalNans ∧
    EdgeRecord.decode [0xa1, 0x61, 0x6e, 0xf6] =
      .ok (EdgeRecord.mk (SortedMap.ofList [("n", .null)])).canonicalNans ∧
    (∃ (decl : IndexDef) (out : ByteVec),
      decodeEntry (SchemaEntry.index "byEmail" decl).mapKey out.bytes =
        .ok (.index "byEmail" decl)) ∧
    ∃ (manifest : Manifest) (out : ByteVec), manifest.indexes.keys = ["byEmail"] ∧
      manifest.conflicts = none ∧ Manifest.decode out.bytes = .ok manifest := by
  obtain ⟨nodes, -, edges, -, entries, -, manifests, -⟩ := storedCodecs_strict
  let root : MapRoot := ⟨⟨List.replicate 20 0, .inl rfl⟩, 1⟩
  refine ⟨?node, ?edge, ?entry, ?manifest⟩
  case node => exact nodes _ ⟨_, by decide⟩ (by decide +kernel)
  case edge => exact edges _ ⟨_, by decide⟩ (by decide +kernel)
  case entry =>
    exact ⟨⟨"Person", ["email"], by decide, by decide, by decide⟩, ⟨_, by decide +kernel⟩,
      entries _ _ trivial (by decide) rfl⟩
  case manifest =>
    refine ⟨⟨⟨1, 1, 1, by decide, by decide, by decide, by decide⟩, root, root, root, root,
      SortedMap.ofList [("byEmail", root)], none⟩, ⟨_, by decide +kernel⟩, rfl, rfl,
      manifests _ _ ?_ rfl⟩
    have inRange : root.InRange := ⟨by decide, by decide⟩
    refine ⟨inRange, inRange, inRange, inRange, ?_, nofun⟩
    intro entry member
    cases List.mem_singleton.mp member
    exact ⟨by decide, inRange⟩

end Acetone.Model.Cbor

import Akasha.Lib.Except
import Mathlib.Algebra.Group.Nat.Defs

/-!
# Manifests

A manifest is the atomic pointer to one committed set of immutable files. File names are values
of `FileName`: each constructor is one way the program forms a name, `other` any name it never
forms, such as those of an older release. Sequences and generations are unsigned 64-bit numbers
in the source; `maxGeneration` is where the program refuses to count on.
-/

namespace Akasha.Storage

open Lib

/-- The name of an immutable file. A checkpoint of the old format is named by its sequence;
an exclusively created file by the generation it was made for and the claim that was free. -/
inductive FileName where
  | segmentBase (sequence : Nat)
  | segmentDelta (sequence : Nat)
  | sparseBase (sequence : Nat)
  | sparseDelta (sequence : Nat)
  | pointBase (sequence generation claim : Nat)
  | pointDelta (sequence generation claim : Nat)
  | segmentCompact (generation claim : Nat)
  | sparseCompact (generation claim : Nat)
  | hnsw (sequence generation claim : Nat)
  | hnswLegacy (sequence : Nat)
  | other (text : String)
deriving DecidableEq, Repr

/-- `UInt64.MAX`. -/
def maxGeneration : Nat := 2 ^ 64 - 1

def maxSegments : Nat := 1024

def maxLevel : Nat := 7

theorem zero_le_max_level : 0 ≤ maxLevel := by decide

theorem one_le_max_level : 1 ≤ maxLevel := by decide

/-- One immutable segment referenced by a committed manifest. -/
structure SegmentDescriptor where
  level : Nat
  minSequence : Nat
  maxSequence : Nat
  checksum : UInt32
  name : FileName
  sparseChecksum : UInt32
  sparseName : Option FileName
  level_le : level ≤ maxLevel
  range : minSequence ≤ maxSequence
deriving DecidableEq, Repr

/-- The files of one segment: `name`, and `sparse_name` where it is not empty. -/
def SegmentDescriptor.names (segment : SegmentDescriptor) : List FileName :=
  segment.name :: segment.sparseName.toList

/-- The reference of a manifest to its index sidecar. -/
structure HnswReference where
  name : FileName
  checksum : UInt32
  configFingerprint : UInt64
  pointCount : Nat
deriving DecidableEq, Repr

/-- `Manifest`. The fields `segment_name` and `segment_checksum` repeat the newest segment. -/
structure Manifest where
  dimension : Nat
  generation : Nat
  lastSequence : Nat
  formatVersion : Nat
  segments : List SegmentDescriptor
  hnsw : Option HnswReference
deriving DecidableEq, Repr

/-- `_manifest_names`: every file a manifest references. -/
def Manifest.names (manifest : Manifest) : List FileName :=
  manifest.segments.flatMap SegmentDescriptor.names ++ (manifest.hnsw.map (·.name)).toList

/-! ## Validation -/

/-- The loop of `_validate_manifest_segments`, after the segments already checked. -/
def validateFrom (lastSequence : Nat) :
    List SegmentDescriptor → List SegmentDescriptor → Except String Unit
  | _, [] => pure ()
  | prior, segment :: rest => do
      require (segment.maxSequence ≤ lastSequence)
        "manifest segment exceeds checkpoint sequence"
      require (∀ last ∈ prior.getLast?, last.maxSequence < segment.minSequence)
        "manifest segment sequence ranges must increase"
      require (∀ earlier ∈ prior, earlier.name ≠ segment.name)
        "manifest segment names must be unique"
      require (∀ earlier ∈ prior, segment.sparseName ≠ none →
          earlier.sparseName ≠ segment.sparseName)
        "manifest sparse segment names must be unique"
      require (segment.sparseName ≠ some segment.name)
        "dense and sparse segment names must differ"
      validateFrom lastSequence (prior ++ [segment]) rest

/-- `_validate_manifest_segments`. -/
def validateManifestSegments (lastSequence : Nat) (segments : List SegmentDescriptor) :
    Except String Unit := do
  require (segments ≠ [] ∧ segments.length ≤ maxSegments)
    "manifest segment count is out of bounds"
  validateFrom lastSequence [] segments
  require ((segments.getLast?).map (·.maxSequence) = some lastSequence)
    "manifest does not cover checkpoint sequence"

/-- The part of `_validate_hnsw_reference` that depends on the version: what the name says of
the sequence and the generation the sidecar was made for. -/
def validateHnswName (manifest : Manifest) (name : FileName) : Except String Unit :=
  match manifest.formatVersion, name with
  | 3, .hnswLegacy sequence =>
      require (sequence = manifest.lastSequence)
        "manifest HNSW name must match checkpoint sequence"
  | 3, _ => throw "manifest HNSW name must match checkpoint sequence"
  | 4, .hnsw sequence generation _ => do
      require (sequence = manifest.lastSequence)
        "manifest HNSW name must match checkpoint sequence"
      require (generation ≠ 0 ∧ generation ≤ manifest.generation)
        "manifest HNSW creation generation is invalid"
  | 5, .hnsw sequence generation _ => do
      require (sequence ≤ manifest.lastSequence)
        "manifest HNSW name must match checkpoint sequence"
      require (generation ≠ 0 ∧ generation ≤ manifest.generation)
        "manifest HNSW creation generation is invalid"
  | 4, _ => throw "invalid HNSW job filename"
  | 5, _ => throw "invalid HNSW job filename"
  | _, _ => throw "manifest version cannot reference an HNSW sidecar"

/-- `_validate_hnsw_reference` of a manifest that has one. -/
def validateHnswReference (manifest : Manifest) (reference : HnswReference) :
    Except String Unit := do
  validateHnswName manifest reference.name
  require (∀ segment ∈ manifest.segments, reference.name ∉ segment.names)
    "manifest HNSW and segment names must differ"

/-- `Manifest.with_segments`. -/
def Manifest.withSegments (dimension generation lastSequence : Nat)
    (segments : List SegmentDescriptor) : Except String Manifest := do
  require (0 < dimension) "manifest dimension must be positive"
  require (0 < generation) "manifest generation must be positive"
  validateManifestSegments lastSequence segments
  pure ⟨dimension, generation, lastSequence, 2, segments, none⟩

/-- `Manifest.with_hnsw`. -/
def Manifest.withHnsw (dimension generation lastSequence : Nat)
    (segments : List SegmentDescriptor) (reference : HnswReference) (formatVersion : Nat) :
    Except String Manifest := do
  require (3 ≤ formatVersion ∧ formatVersion ≤ 5) "unsupported HNSW manifest version"
  let bare ← Manifest.withSegments dimension generation lastSequence segments
  let manifest := { bare with formatVersion, hnsw := some reference }
  validateHnswReference manifest reference
  pure manifest

/-! ## What a valid manifest says -/

/-- Two segments of one manifest, the first before the second. -/
structure Compatible (first second : SegmentDescriptor) : Prop where
  ascending : first.maxSequence < second.minSequence
  name_ne : first.name ≠ second.name
  sparse_ne : second.sparseName ≠ none → first.sparseName ≠ second.sparseName

/-- Segments that `_validate_manifest_segments` accepts. -/
structure SegmentsValid (lastSequence : Nat) (segments : List SegmentDescriptor) : Prop where
  count : segments ≠ [] ∧ segments.length ≤ maxSegments
  covered : ∀ segment ∈ segments, segment.maxSequence ≤ lastSequence
  own_ne : ∀ segment ∈ segments, segment.sparseName ≠ some segment.name
  compatible : segments.Pairwise Compatible
  last : (segments.getLast?).map (·.maxSequence) = some lastSequence

/-- The loop accepts exactly the segments that go well with one another and with the ones
before. -/
theorem validate_from_ok {lastSequence : Nat} {prior segments : List SegmentDescriptor}
    (hprior : prior.Pairwise Compatible) :
    validateFrom lastSequence prior segments = .ok () ↔
      (∀ segment ∈ segments, segment.maxSequence ≤ lastSequence ∧
        segment.sparseName ≠ some segment.name) ∧
      (prior ++ segments).Pairwise Compatible := by
  refine checked_in_order (fun _ => rfl) (fun prior segment rest hprior => ?_) hprior
  simp only [validateFrom, bind_ok, exists_unit, require_ok]
  constructor
  · rintro ⟨hcovered, hlast, hname, hsparse, hown, hrest⟩
    have habove := forall_of_last hprior (fun earlier last hpair hlast => by
      have hascending := hpair.ascending
      have hrange := last.range
      omega) hlast
    exact ⟨⟨⟨hcovered, hown⟩, fun earlier hearlier => ⟨habove earlier hearlier,
      hname earlier hearlier, hsparse earlier hearlier⟩⟩, hrest⟩
  · rintro ⟨⟨⟨hcovered, hown⟩, hall⟩, hrest⟩
    exact ⟨hcovered, fun last hlast => (hall last (List.mem_of_getLast? hlast)).ascending,
      fun earlier hearlier => (hall earlier hearlier).name_ne,
      fun earlier hearlier => (hall earlier hearlier).sparse_ne, hown, hrest⟩

theorem validate_manifest_segments_ok {lastSequence : Nat} {segments : List SegmentDescriptor}
    {u : Unit} :
    validateManifestSegments lastSequence segments = .ok u ↔
      SegmentsValid lastSequence segments := by
  simp only [validateManifestSegments, bind_ok, exists_unit, require_ok,
    validate_from_ok List.Pairwise.nil, List.nil_append]
  constructor
  · rintro ⟨hcount, ⟨hall, hpairs⟩, hlast⟩
    exact ⟨hcount, fun segment hsegment => (hall segment hsegment).1,
      fun segment hsegment => (hall segment hsegment).2, hpairs, hlast⟩
  · intro h
    exact ⟨h.count, ⟨fun segment hsegment => ⟨h.covered segment hsegment,
      h.own_ne segment hsegment⟩, h.compatible⟩, h.last⟩

end Akasha.Storage

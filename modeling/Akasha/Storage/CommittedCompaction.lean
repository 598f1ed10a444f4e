import Akasha.Storage.Manifest

/-!
# Publishing a compaction

A compaction merges the segments of one manifest, the captured one, into a complete base. Until
it is published other manifests may be: `publish_compaction_output` puts the output in place of
the captured segments, keeps what was appended behind them, and gives up when the captured
segments no longer lead the current manifest. This module has the part about manifests.
-/

namespace Akasha.Storage

open Lib

/-- `CompactionOutput`: the files one job wrote, with a sparse one in the old format only. -/
structure CompactionOutput where
  segmentName : FileName
  checksum : UInt32
  sparseName : Option FileName
  sparseChecksum : UInt32

/-- The descriptor of a complete base up to the captured sequence. -/
def CompactionOutput.descriptor (output : CompactionOutput) (captured : Manifest) :
    SegmentDescriptor :=
  ⟨1, 0, captured.lastSequence, output.checksum, output.segmentName,
    if output.sparseName.isSome then output.sparseChecksum else 0, output.sparseName,
    by decide, Nat.zero_le _⟩

/-- A manifest after `current` with other segments and the same index sidecar. -/
def Manifest.succeed (current : Manifest) (segments : List SegmentDescriptor) :
    Except String Manifest :=
  match current.hnsw with
  | some reference =>
      Manifest.withHnsw current.dimension (current.generation + 1) current.lastSequence segments
        reference current.formatVersion
  | none =>
      Manifest.withSegments current.dimension (current.generation + 1) current.lastSequence
        segments

/-- The manifest of `publish_compaction_output`. The comparison of the captured segments with
the leading ones is `_same_segment`, field by field. -/
def rebase (current captured : Manifest) (output : CompactionOutput) :
    Except String (Option Manifest) :=
  if captured.segments <+: current.segments then do
    require (current.generation ≠ maxGeneration) "manifest generation exhausted"
    let tail := current.segments.drop captured.segments.length
    require (∀ segment ∈ tail, captured.lastSequence < segment.minSequence)
      "appended segment overlaps the compaction output"
    some <$> current.succeed (output.descriptor captured :: tail)
  else pure none

/-- `compaction_input_paths`. -/
def compactionInputPaths (manifest : Manifest) : List FileName :=
  manifest.segments.flatMap SegmentDescriptor.names

/-! ## What is published -/

variable {segments : List SegmentDescriptor}

theorem with_segments_ok {dimension generation lastSequence : Nat} {manifest : Manifest} :
    Manifest.withSegments dimension generation lastSequence segments = .ok manifest ↔
      0 < dimension ∧ 0 < generation ∧ SegmentsValid lastSequence segments ∧
        ⟨dimension, generation, lastSequence, 2, segments, none⟩ = manifest := by
  simp only [Manifest.withSegments, bind_ok, exists_unit, require_ok,
    validate_manifest_segments_ok, pure_ok]

theorem with_hnsw_ok {dimension generation lastSequence formatVersion : Nat}
    {reference : HnswReference} {manifest : Manifest} :
    Manifest.withHnsw dimension generation lastSequence segments reference formatVersion =
        .ok manifest ↔
      (3 ≤ formatVersion ∧ formatVersion ≤ 5) ∧ 0 < dimension ∧ 0 < generation ∧
        SegmentsValid lastSequence segments ∧ validateHnswReference manifest reference = .ok () ∧
        ⟨dimension, generation, lastSequence, formatVersion, segments, some reference⟩ =
          manifest := by
  simp only [Manifest.withHnsw, bind_ok, exists_unit, require_ok, with_segments_ok,
    pure_ok]
  constructor
  · rintro ⟨hversion, bare, ⟨hdimension, hgeneration, hvalid, rfl⟩, hreference, rfl⟩
    exact ⟨hversion, hdimension, hgeneration, hvalid, hreference, rfl⟩
  · rintro ⟨hversion, hdimension, hgeneration, hvalid, hreference, rfl⟩
    exact ⟨hversion, _, ⟨hdimension, hgeneration, hvalid, rfl⟩, hreference, rfl⟩

theorem succeed_ok {current manifest : Manifest} (h : current.succeed segments = .ok manifest) :
    manifest.dimension = current.dimension ∧ manifest.generation = current.generation + 1 ∧
      manifest.lastSequence = current.lastSequence ∧ manifest.segments = segments ∧
      manifest.hnsw = current.hnsw ∧ SegmentsValid current.lastSequence segments := by
  unfold Manifest.succeed at h
  cases hhnsw : current.hnsw with
  | none =>
      simp only [hhnsw, with_segments_ok] at h
      obtain ⟨-, -, hvalid, rfl⟩ := h
      exact ⟨rfl, rfl, rfl, rfl, rfl, hvalid⟩
  | some reference =>
      simp only [hhnsw, with_hnsw_ok] at h
      obtain ⟨-, -, -, hvalid, -, rfl⟩ := h
      exact ⟨rfl, rfl, rfl, rfl, rfl, hvalid⟩

theorem rebase_some {current captured manifest : Manifest} {output : CompactionOutput}
    (h : rebase current captured output = .ok (some manifest)) :
    ∃ tail, current.segments = captured.segments ++ tail ∧
      (∀ segment ∈ tail, captured.lastSequence < segment.minSequence) ∧
      current.succeed (output.descriptor captured :: tail) = .ok manifest := by
  unfold rebase at h
  by_cases hprefix : captured.segments <+: current.segments
  · obtain ⟨tail, htail⟩ := hprefix
    have hdrop : current.segments.drop captured.segments.length = tail := by simp [← htail]
    rw [if_pos ⟨tail, htail⟩] at h
    simp only [hdrop, bind_ok, exists_unit, require_ok, map_ok,
      Option.some.injEq] at h
    obtain ⟨-, habove, _, hsucceed, rfl⟩ := h
    exact ⟨tail, htail.symm, habove, hsucceed⟩
  · rw [if_neg hprefix, pure_ok] at h
    cases h

end Akasha.Storage

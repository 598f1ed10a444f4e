import Akasha.Storage.Manifest
import Akasha.Storage.Segment
import Mathlib.Data.List.Nodup
import Mathlib.Data.List.Pairwise

/-!
# Manifests as files

`storage/manifest.mojo` with the names of files as texts: the constructors with their checks, the
encoders of versions 1 to 5, and the decoder. The file names of the running system, which are
formed in a few ways only, are in `Akasha.Storage.Manifest`; here a name is any text that the
checks let through, and `validate_named_iff` says that nothing else differs between the checks.

Names of different segments are compared dense with dense and sparse with sparse. That leaves one
kind of clash, a sparse name that is the dense name of another segment, and
`accepted_well_formed_iff` says that it is the only one.
-/

namespace Akasha.Storage.ManifestFile

open Lib

def manifestMagic : List UInt8 := [0x41, 0x4B, 0x4D, 0x46]

def maxNameBytes : Nat := 65535

def hnswDescriptorFixedSize : Nat := 24

def maxManifestBytes : Nat :=
  36 + maxSegments * (28 + maxNameBytes + 8 + maxNameBytes) + hnswDescriptorFixedSize +
    maxNameBytes + 4

/-! ## Segments -/

/-- `_validate_safe_filename`. -/
def validateSafeFilename (name : String) (strict : Bool) : Except String Unit := do
  require ((utf8Bytes name).length ≠ 0) "manifest reference name cannot be empty"
  require (¬ (strict ∧ (name = "." ∨ name = "..")))
    "manifest reference name cannot be a directory alias"
  require (∀ byte ∈ utf8Bytes name, ¬ (byte = 0 ∨ byte = 0x2F))
    "manifest reference name must be a safe file name"

/-- `SegmentDescriptor`. A segment without a sparse file has the empty sparse name. -/
structure SegmentDescriptor where
  level : Nat
  minSequence : UInt64
  maxSequence : UInt64
  checksum : UInt32
  name : String
  sparseChecksum : UInt32
  sparseName : String
  level_le : level ≤ maxLevel
  range : minSequence ≤ maxSequence
  sparse_zero : sparseName = "" → sparseChecksum = 0

namespace SegmentDescriptor

/-- `SegmentDescriptor(..)`. -/
def create (level : Nat) (minSequence maxSequence : UInt64) (checksum : UInt32) (name : String)
    (strict : Bool) : Except String SegmentDescriptor :=
  if hlevel : level ≤ maxLevel then
    if hrange : minSequence ≤ maxSequence then do
      validateSafeFilename name strict
      pure ⟨level, minSequence, maxSequence, checksum, name, 0, "", hlevel, hrange, fun _ => rfl⟩
    else throw "manifest segment sequence range is invalid"
  else throw "manifest segment level is out of bounds"

/-- `with_sparse`. -/
def withSparse (level : Nat) (minSequence maxSequence : UInt64) (checksum : UInt32) (name : String)
    (sparseChecksum : UInt32) (sparseName : String) (strict : Bool) :
    Except String SegmentDescriptor :=
  if hname : sparseName = "" then throw "manifest reference name cannot be empty"
  else do
    validateSafeFilename sparseName strict
    let descriptor ← create level minSequence maxSequence checksum name strict
    pure { descriptor with
      sparseChecksum := sparseChecksum
      sparseName := sparseName
      sparse_zero := fun h => absurd h hname }

/-- The file names of a segment. -/
def names (segment : SegmentDescriptor) : List String :=
  if segment.sparseName = "" then [segment.name] else [segment.name, segment.sparseName]

end SegmentDescriptor

/-- The check of a sparse name, which may be empty. -/
def validateSparseFilename (name : String) (strict : Bool) : Except String Unit :=
  if name ≠ "" then validateSafeFilename name strict else pure ()

/-- The loop body of `_validate_manifest_segments`, after the segments before. -/
def validateSegment (lastSequence : UInt64) (strict : Bool) (prior : List SegmentDescriptor)
    (segment : SegmentDescriptor) : Except String Unit := do
  validateSafeFilename segment.name strict
  validateSparseFilename segment.sparseName strict
  require (¬ segment.maxSequence > lastSequence) "manifest segment exceeds checkpoint sequence"
  require (∀ previous ∈ prior.getLast?, ¬ segment.minSequence ≤ previous.maxSequence)
    "manifest segment sequence ranges must increase"
  checkEach prior fun earlier => do
    require (earlier.name ≠ segment.name) "manifest segment names must be unique"
    require (¬ (segment.sparseName ≠ "" ∧ earlier.sparseName = segment.sparseName))
      "manifest sparse segment names must be unique"
  require (¬ (segment.sparseName ≠ "" ∧ segment.sparseName = segment.name))
    "dense and sparse segment names must differ"

/-- The loop of `_validate_manifest_segments`. -/
def validateSegmentsFrom (lastSequence : UInt64) (strict : Bool) :
    List SegmentDescriptor → List SegmentDescriptor → Except String Unit
  | _, [] => pure ()
  | prior, segment :: rest => do
      validateSegment lastSequence strict prior segment
      validateSegmentsFrom lastSequence strict (prior ++ [segment]) rest

/-- `_validate_manifest_segments`. -/
def validateManifestSegments (lastSequence : UInt64) (segments : List SegmentDescriptor)
    (strict : Bool) : Except String Unit := do
  require (¬ (segments.length = 0 ∨ segments.length > maxSegments))
    "manifest segment count is out of bounds"
  validateSegmentsFrom lastSequence strict [] segments
  require ((segments.getLast?).map (·.maxSequence) = some lastSequence)
    "manifest does not cover checkpoint sequence"

/-! ## Manifests -/

structure Manifest where
  dimension : Int
  generation : UInt64
  lastSequence : UInt64
  segmentChecksum : UInt32
  segmentName : String
  formatVersion : Nat
  segments : List SegmentDescriptor
  hnswName : Option String
  hnswChecksum : Option UInt32
  hnswConfigFingerprint : Option UInt64
  hnswPointCount : Option UInt64

/-- `_canonical_u64`: the digits so far, and the rest. -/
def canonicalDigits : Nat → List UInt8 → Except String Nat
  | result, [] => pure result
  | result, byte :: bytes => do
      require (¬ (byte < 48 ∨ byte > 57)) "invalid HNSW job filename integer"
      let digit := byte.toNat - 48
      require (¬ result > (2 ^ 64 - 1 - digit) / 10) "HNSW job filename integer overflow"
      canonicalDigits (result * 10 + digit) bytes

/-- `_canonical_u64`. -/
def canonicalU64 (bytes : List UInt8) : Except String Nat := do
  require (¬ (bytes.length = 0 ∨ (bytes.length > 1 ∧ bytes.head? = some 48)))
    "noncanonical HNSW job filename integer"
  canonicalDigits 0 bytes

def hnswNamePrefix : List UInt8 := utf8Bytes "hnsw-"

def hnswNameSuffix : List UInt8 := utf8Bytes ".bin"

/-- `parse_hnsw_job_name`: sequence, creation generation and path claim. -/
def parseHnswJobName (name : String) : Except String (Nat × Nat × Nat) := do
  let bytes := utf8Bytes name
  require (hnswNamePrefix <+: bytes ∧ hnswNameSuffix <:+ bytes) "invalid HNSW job filename"
  let unprefixed := bytes.drop hnswNamePrefix.length
  let body := if hnswNameSuffix <:+ unprefixed
    then unprefixed.take (unprefixed.length - hnswNameSuffix.length) else unprefixed
  match body.splitOn 45 with
  | [sequence, generation, claim] => do
      let sequence ← canonicalU64 sequence
      let generation ← canonicalU64 generation
      let claim ← canonicalU64 claim
      pure (sequence, generation, claim)
  | _ => throw "invalid HNSW job filename"

/-- What a version asks of the name of the sidecar. -/
def validateHnswName (manifest : Manifest) (version : Nat) (name : String) :
    Except String Unit :=
  if version = 3 then
    require (name = "hnsw-" ++ toString manifest.lastSequence.toNat ++ ".bin")
      "manifest HNSW name must match checkpoint sequence"
  else if version = 4 ∨ version = 5 then do
    let identity ← parseHnswJobName name
    require (¬ ((version = 4 ∧ identity.1 ≠ manifest.lastSequence.toNat) ∨
        identity.1 > manifest.lastSequence.toNat))
      "manifest HNSW name must match checkpoint sequence"
    require (¬ (identity.2.1 = 0 ∨ identity.2.1 > manifest.generation.toNat))
      "manifest HNSW creation generation is invalid"
  else throw "manifest version cannot reference an HNSW sidecar"

/-- `_validate_hnsw_reference`: whether the manifest has a valid reference. -/
def validateHnswReference (manifest : Manifest) (version : Nat) : Except String Bool := do
  let hasName := manifest.hnswName.isSome
  require (¬ (hasName ≠ manifest.hnswChecksum.isSome ∨
      hasName ≠ manifest.hnswConfigFingerprint.isSome ∨ hasName ≠ manifest.hnswPointCount.isSome))
    "manifest HNSW reference fields must be all present or absent"
  match manifest.hnswName with
  | none => pure false
  | some name => do
      validateSafeFilename name true
      validateHnswName manifest version name
      checkEach manifest.segments fun segment =>
        require (¬ (name = segment.name ∨
            (segment.sparseName ≠ "" ∧ name = segment.sparseName)))
          "manifest HNSW and segment names must differ"
      pure true

namespace Manifest

/-- `Manifest(..)`, the single segment of the old format. -/
def create (dimension : Int) (lastSequence : UInt64) (segmentChecksum : UInt32)
    (segmentName : String) (strict : Bool) : Except String Manifest := do
  require (0 < dimension) "manifest dimension must be positive"
  let descriptor ← SegmentDescriptor.create 1 0 lastSequence segmentChecksum segmentName strict
  pure ⟨dimension, 0, lastSequence, segmentChecksum, segmentName, 1, [descriptor], none, none, none,
    none⟩

/-- `with_segments`. -/
def withSegments (dimension : Int) (generation lastSequence : UInt64)
    (segments : List SegmentDescriptor) (strict : Bool) : Except String Manifest := do
  require (0 < dimension) "manifest dimension must be positive"
  require (generation ≠ 0) "manifest generation must be positive"
  validateManifestSegments lastSequence segments strict
  match segments.getLast? with
  | none => throw "list index out of bounds"
  | some newest => do
      let manifest ← create dimension lastSequence newest.checksum newest.name strict
      pure { manifest with generation := generation, formatVersion := 2, segments := segments }

/-- `with_hnsw`. -/
def withHnsw (dimension : Int) (generation lastSequence : UInt64)
    (segments : List SegmentDescriptor) (hnswName : String) (hnswChecksum : UInt32)
    (hnswConfigFingerprint hnswPointCount : UInt64) (formatVersion : Nat) :
    Except String Manifest := do
  require (¬ (formatVersion < 3 ∨ formatVersion > 5)) "unsupported HNSW manifest version"
  validateSafeFilename hnswName true
  let plain ← withSegments dimension generation lastSequence segments true
  let manifest : Manifest := { plain with
    formatVersion := formatVersion
    hnswName := some hnswName
    hnswChecksum := some hnswChecksum
    hnswConfigFingerprint := some hnswConfigFingerprint
    hnswPointCount := some hnswPointCount }
  let _ ← validateHnswReference manifest manifest.formatVersion
  pure manifest

/-- All file names that a manifest references. -/
def names (manifest : Manifest) : List String :=
  manifest.segments.flatMap SegmentDescriptor.names ++ manifest.hnswName.toList

end Manifest

/-! ## Encoders -/

/-- One segment of `_encode_multi_manifest`. -/
def encodeSegment (segment : SegmentDescriptor) : Except String (List UInt8) := do
  let name := utf8Bytes segment.name
  let sparseName := utf8Bytes segment.sparseName
  require (¬ name.length > maxNameBytes) "manifest segment name is too long"
  require (¬ sparseName.length > maxNameBytes) "manifest sparse segment name is too long"
  pure (leBytes 2 segment.level ++ leBytes 2 (if sparseName.length > 0 then 1 else 0) ++
    u64Bytes segment.minSequence ++ u64Bytes segment.maxSequence ++
    leBytes 4 segment.checksum.toNat ++ leBytes 2 name.length ++ leBytes 2 0 ++ name ++
    if sparseName.length > 0 then
      leBytes 4 segment.sparseChecksum.toNat ++ leBytes 2 sparseName.length ++ leBytes 2 0 ++
        sparseName
    else [])

/-- The reference behind the segments. -/
def encodeHnswReference (manifest : Manifest) : Except String (List UInt8) :=
  match manifest.hnswName, manifest.hnswChecksum, manifest.hnswConfigFingerprint,
      manifest.hnswPointCount with
  | some name, some checksum, some fingerprint, some pointCount => do
      require (¬ (utf8Bytes name).length > maxNameBytes) "manifest HNSW sidecar name is too long"
      pure (leBytes 4 checksum.toNat ++ leBytes 2 (utf8Bytes name).length ++ leBytes 2 0 ++
        u64Bytes fingerprint ++ u64Bytes pointCount ++ utf8Bytes name)
  | _, _, _, _ => throw "optional value is missing"

/-- The end of `_encode_multi_manifest`. -/
def encodeReference (hasHnsw : Bool) (manifest : Manifest) : Except String (List UInt8) :=
  if hasHnsw then encodeHnswReference manifest else pure []

/-- `_encode_multi_manifest`. -/
def encodeMultiManifest (manifest : Manifest) (version : Nat) (hasHnsw strict : Bool) :
    Except String (List UInt8) := do
  require (0 < manifest.dimension) "manifest dimension must be positive"
  require (manifest.generation ≠ 0) "manifest generation must be positive"
  validateManifestSegments manifest.lastSequence manifest.segments strict
  let segments ← manifest.segments.mapM encodeSegment
  let reference ← encodeReference hasHnsw manifest
  pure (withChecksum (manifestMagic ++ leBytes 2 version ++ leBytes 2 (if hasHnsw then 1 else 0) ++
    leBytes 4 manifest.dimension.toNat ++ u64Bytes manifest.generation ++
    u64Bytes manifest.lastSequence ++ leBytes 4 manifest.segments.length ++ leBytes 4 0 ++
    segments.flatten ++ reference))

/-- `encode_manifest`, the single segment of the old format. -/
def encodeManifestV1 (dimension : Int) (lastSequence : UInt64) (segmentChecksum : UInt32)
    (segmentName : String) : Except String (List UInt8) := do
  validateSafeFilename segmentName false
  require (0 < dimension) "manifest dimension must be positive"
  let name := utf8Bytes segmentName
  require (¬ name.length > maxNameBytes) "manifest segment name is too long"
  pure (withChecksum (manifestMagic ++ leBytes 2 1 ++ leBytes 2 0 ++ leBytes 4 dimension.toNat ++
    u64Bytes lastSequence ++ leBytes 4 segmentChecksum.toNat ++ leBytes 2 name.length ++
    leBytes 2 0 ++ name))

/-- `encode_manifest_v2`. -/
def encodeManifestV2 (manifest : Manifest) : Except String (List UInt8) := do
  let hasHnsw ← validateHnswReference manifest manifest.formatVersion
  require (¬ hasHnsw) "manifest v2 cannot reference an HNSW sidecar"
  encodeMultiManifest manifest 2 false false

/-- `encode_manifest_v3`, `encode_manifest_v4` and `encode_manifest_v5`. -/
def encodeManifestHnsw (version : Nat) (manifest : Manifest) : Except String (List UInt8) := do
  let hasHnsw ← validateHnswReference manifest version
  encodeMultiManifest manifest version hasHnsw true

/-- The encoder that `publish_manifest` chooses. -/
def encodePublished (manifest : Manifest) : Except String (List UInt8) := do
  let hasHnsw ← validateHnswReference manifest manifest.formatVersion
  if hasHnsw then
    if manifest.formatVersion = 5 then encodeManifestHnsw 5 manifest
    else if manifest.formatVersion = 4 then encodeManifestHnsw 4 manifest
    else encodeManifestHnsw 3 manifest
  else if manifest.formatVersion = 1 then
    encodeManifestV1 manifest.dimension manifest.lastSequence manifest.segmentChecksum
      manifest.segmentName
  else if 2 ≤ manifest.formatVersion ∧ manifest.formatVersion ≤ 5 then encodeManifestV2 manifest
  else throw "unsupported in-memory manifest version"

/-! ## The decoder -/

/-- One descriptor of `_decode_manifest_multi`. -/
def readSegment (strict : Bool) : Lib.Reader SegmentDescriptor := do
  let level ← readU16
  let flags ← readU16
  check (¬ flags > 1) "unsupported manifest segment flags"
  let minSequence ← readU64
  let maxSequence ← readU64
  let checksum ← readU32
  let nameLength ← readU16
  let reserved ← readU16
  check (reserved = 0) "unsupported manifest segment reserved field"
  let nameBytes ← readSpan nameLength
  let name ← readUtf8 nameBytes
  if flags = 1 then do
    let sparseChecksum ← readU32
    let sparseLength ← readU16
    let sparseReserved ← readU16
    check (sparseReserved = 0) "unsupported manifest sparse reserved field"
    let sparseBytes ← readSpan sparseLength
    let sparseName ← readUtf8 sparseBytes
    ofResult (SegmentDescriptor.withSparse level minSequence maxSequence (UInt32.ofNat checksum)
      name (UInt32.ofNat sparseChecksum) sparseName strict)
  else
    ofResult (SegmentDescriptor.create level minSequence maxSequence (UInt32.ofNat checksum) name
      strict)

/-- The reference to the sidecar. -/
structure HnswPart where
  checksum : UInt32
  fingerprint : UInt64
  pointCount : UInt64
  name : String

/-- The reference behind the segments, if the flag announces one. -/
def readHnswPart (hasHnsw : Bool) : Lib.Reader (Option HnswPart) :=
  if hasHnsw then do
    let left ← remaining
    check (¬ left < hnswDescriptorFixedSize + 4) "truncated manifest HNSW reference"
    let checksum ← readU32
    let nameLength ← readU16
    let reserved ← readU16
    check (reserved = 0) "unsupported manifest HNSW reserved field"
    let fingerprint ← readU64
    let pointCount ← readU64
    let left ← remaining
    check (left = nameLength + 4) "manifest HNSW reference length mismatch"
    let nameBytes ← readSpan nameLength
    let name ← readUtf8 nameBytes
    pure (some ⟨UInt32.ofNat checksum, fingerprint, pointCount, name⟩)
  else pure none

/-- The end of `_decode_manifest_multi`: put the manifest together and check it. -/
def finishManifest (dimension : Int) (generation lastSequence : UInt64) (version : Nat)
    (strict : Bool) (segments : List SegmentDescriptor) (part : Option HnswPart) :
    Except String Manifest := do
  let plain ← Manifest.withSegments dimension generation lastSequence segments strict
  let versioned : Manifest := { plain with formatVersion := version }
  match part with
  | none => pure versioned
  | some part => do
      validateSafeFilename part.name true
      let manifest : Manifest := { versioned with
        hnswName := some part.name
        hnswChecksum := some part.checksum
        hnswConfigFingerprint := some part.fingerprint
        hnswPointCount := some part.pointCount }
      let _ ← validateHnswReference manifest manifest.formatVersion
      pure manifest

/-- `_decode_manifest_multi`. -/
def readMultiManifest (dimension size version : Nat) (hasHnsw : Bool) : Lib.Reader Manifest := do
  let generation ← readU64
  let lastSequence ← readU64
  let count ← readU32
  check (¬ (count = 0 ∨ count > maxSegments)) "manifest segment count is out of bounds"
  let reserved ← readU32
  check (reserved = 0) "unsupported manifest reserved field"
  let extension := if hasHnsw then hnswDescriptorFixedSize else 0
  check (¬ size < 40 + extension) "truncated manifest"
  check (¬ count > (size - 40 - extension) / 28) "manifest segment count exceeds file length"
  let segments ← readTimes (fun _ => readSegment (3 ≤ version)) 0 count
  let part ← readHnswPart hasHnsw
  let _ ← readU32
  let left ← remaining
  check (left = 0) "unexpected manifest payload"
  ofResult (finishManifest dimension generation lastSequence version (3 ≤ version) segments part)

/-- `_decode_manifest_v1`. -/
def readManifestV1 (dimension size : Nat) : Lib.Reader Manifest := do
  let lastSequence ← readU64
  let checksum ← readU32
  let nameLength ← readU16
  let reserved ← readU16
  check (reserved = 0) "unsupported manifest reserved field"
  check (32 + nameLength = size) "manifest length mismatch"
  let nameBytes ← readSpan nameLength
  let name ← readUtf8 nameBytes
  let _ ← readU32
  let left ← remaining
  check (left = 0) "unexpected manifest payload"
  ofResult (Manifest.create dimension lastSequence (UInt32.ofNat checksum) name false)

/-- The smallest file of a version. -/
def minimumSize (version : Nat) : Except String Nat :=
  if version = 1 then pure 32
  else if version = 2 ∨ version = 3 ∨ version = 4 ∨ version = 5 then pure 40
  else throw "unsupported manifest version"

/-- `decode_manifest_bytes` behind the checksum. -/
def readManifest (size version : Nat) (expectedDimension : Int) : Lib.Reader Manifest := do
  let magic ← readSpan 4
  check (magic = manifestMagic) "invalid manifest magic"
  let again ← readU16
  check (again = version) "manifest version changed during decode"
  let flags ← readU16
  check (¬ (version < 3 ∧ flags ≠ 0)) "unsupported manifest flags"
  check (¬ (3 ≤ version ∧ flags > 1)) "unsupported manifest flags"
  let dimension ← readU32
  check ((dimension : Int) = expectedDimension) "manifest dimension mismatch"
  if version = 1 then readManifestV1 dimension size
  else readMultiManifest dimension size version (flags = 1)

/-- `decode_manifest_bytes`. -/
def decodeManifestBytes (bytes : List UInt8) (expectedDimension : Int) :
    Except String Manifest := do
  require (0 < expectedDimension) "manifest dimension must be positive"
  require (¬ bytes.length < 12) "truncated manifest"
  require (bytes.take 4 = manifestMagic) "invalid manifest magic"
  let version := leValue ((bytes.drop 4).take 2)
  let minimum ← minimumSize version
  require (¬ bytes.length < minimum) "truncated manifest"
  checkFileChecksum "manifest checksum mismatch" bytes
  let (manifest, _) ← readManifest bytes.length version expectedDimension bytes
  pure manifest

/-! ## What the checks say -/

/-- A name that `_validate_safe_filename` accepts. -/
def SafeName (strict : Bool) (name : String) : Prop :=
  validateSafeFilename name strict = .ok ()

theorem safe_name_iff {strict : Bool} {name : String} : SafeName strict name ↔
    name ≠ "" ∧ ¬ (strict ∧ (name = "." ∨ name = "..")) ∧
      ∀ byte ∈ utf8Bytes name, ¬ (byte = 0 ∨ byte = 0x2F) := by
  have hempty : (utf8Bytes name).length ≠ 0 ↔ name ≠ "" := by
    rw [ne_eq, List.length_eq_zero_iff, utf8_bytes_eq_nil]
  unfold SafeName validateSafeFilename
  simp only [bind_ok, exists_unit, require_ok, hempty]

/-- Two segments of one list, the first before the second. -/
structure Follows (earlier later : SegmentDescriptor) : Prop where
  ascending : earlier.maxSequence < later.minSequence
  name_ne : earlier.name ≠ later.name
  sparse_ne : later.sparseName ≠ "" → earlier.sparseName ≠ later.sparseName

/-- A segment by itself. -/
structure SegmentValid (lastSequence : UInt64) (strict : Bool) (segment : SegmentDescriptor) :
    Prop where
  safe : SafeName strict segment.name
  sparse_safe : segment.sparseName ≠ "" → SafeName strict segment.sparseName
  covered : segment.maxSequence ≤ lastSequence
  own_ne : segment.sparseName ≠ "" → segment.sparseName ≠ segment.name

/-- Segments that `_validate_manifest_segments` accepts. -/
structure SegmentsValid (lastSequence : UInt64) (strict : Bool)
    (segments : List SegmentDescriptor) : Prop where
  segments_ne : segments ≠ []
  length_le : segments.length ≤ maxSegments
  valid : ∀ segment ∈ segments, SegmentValid lastSequence strict segment
  follows : segments.Pairwise Follows
  covers : (segments.getLast?).map (·.maxSequence) = some lastSequence

variable {segment : SegmentDescriptor}

variable {lastSequence : UInt64}

/-- The checks of a segment accept what is valid by itself and follows the segments before. -/
theorem validate_segment_ok {strict : Bool} {prior : List SegmentDescriptor}
    (hprior : prior.Pairwise Follows) {u : Unit} :
    validateSegment lastSequence strict prior segment = .ok u ↔
      SegmentValid lastSequence strict segment ∧ ∀ earlier ∈ prior, Follows earlier segment := by
  have hsparse : validateSparseFilename segment.sparseName strict = .ok () ↔
      (segment.sparseName ≠ "" → SafeName strict segment.sparseName) := by
    unfold validateSparseFilename
    by_cases h : segment.sparseName = ""
    · simp [h, pure, Except.pure]
    · simp [h, SafeName]
  unfold validateSegment
  simp only [bind_ok, exists_unit, require_ok, check_each_ok]
  rw [hsparse]
  constructor
  · rintro ⟨hsafe, hsparse, hcovered, hlast, hnames, hown⟩
    have habove := forall_of_last hprior
      (fun _ last hpair hlast =>
        UInt64.lt_trans (UInt64.lt_of_lt_of_le hpair.ascending last.range) hlast)
      fun previous hprevious => UInt64.not_le.1 (hlast previous hprevious)
    exact ⟨⟨hsafe, hsparse, UInt64.not_lt.1 hcovered, fun hne heq => hown ⟨hne, heq⟩⟩,
      fun earlier hearlier => ⟨habove earlier hearlier, (hnames earlier hearlier).1,
        fun hne heq => (hnames earlier hearlier).2 ⟨hne, heq⟩⟩⟩
  · rintro ⟨hvalid, hfollows⟩
    exact ⟨hvalid.safe, hvalid.sparse_safe, UInt64.not_lt.2 hvalid.covered,
      fun previous hprevious =>
        UInt64.not_le.2 (hfollows previous (List.mem_of_getLast? hprevious)).ascending,
      fun earlier hearlier => ⟨(hfollows earlier hearlier).name_ne,
        fun h => (hfollows earlier hearlier).sparse_ne h.1 h.2⟩,
      fun h => hvalid.own_ne h.1 h.2⟩

theorem validate_segments_from_ok {strict : Bool} {prior segments : List SegmentDescriptor}
    (hprior : prior.Pairwise Follows) :
    validateSegmentsFrom lastSequence strict prior segments = .ok () ↔
      (∀ segment ∈ segments, SegmentValid lastSequence strict segment) ∧
        (prior ++ segments).Pairwise Follows :=
  checked_in_order (fun _ => rfl) (fun prior segment rest hprior => by
    simp only [validateSegmentsFrom, bind_ok, exists_unit, validate_segment_ok hprior]) hprior

variable {segments : List SegmentDescriptor}

theorem validate_manifest_segments_ok {strict : Bool} {u : Unit} :
    validateManifestSegments lastSequence segments strict = .ok u ↔
      SegmentsValid lastSequence strict segments := by
  unfold validateManifestSegments
  simp only [bind_ok, exists_unit, require_ok,
    validate_segments_from_ok List.Pairwise.nil, List.nil_append]
  constructor
  · rintro ⟨hcount, ⟨hvalid, hfollows⟩, hcovers⟩
    rw [not_or] at hcount
    exact ⟨fun hnil => hcount.1 (by rw [hnil]; rfl), Nat.le_of_not_lt hcount.2, hvalid, hfollows,
      hcovers⟩
  · intro h
    refine ⟨not_or.2 ⟨fun hlength => h.segments_ne (List.length_eq_zero_iff.1 hlength),
      Nat.not_lt.2 h.length_le⟩, ⟨h.valid, h.follows⟩, h.covers⟩

/-- A segment under the names that the running system gives to its files. -/
def SegmentDescriptor.named (nameOf : String → FileName) (segment : SegmentDescriptor) :
    Storage.SegmentDescriptor where
  level := segment.level
  minSequence := segment.minSequence.toNat
  maxSequence := segment.maxSequence.toNat
  checksum := segment.checksum
  name := nameOf segment.name
  sparseChecksum := segment.sparseChecksum
  sparseName := if segment.sparseName = "" then none else some (nameOf segment.sparseName)
  level_le := segment.level_le
  range := segment.range

theorem follows_named {nameOf : String → FileName} (hname : Function.Injective nameOf)
    {earlier later : SegmentDescriptor} :
    Storage.Compatible (earlier.named nameOf) (later.named nameOf) ↔ Follows earlier later := by
  have hsparse : (later.named nameOf).sparseName ≠ none ↔ later.sparseName ≠ "" := by
    simp [SegmentDescriptor.named]
  have hsame : later.sparseName ≠ "" →
      ((earlier.named nameOf).sparseName = (later.named nameOf).sparseName ↔
        earlier.sparseName = later.sparseName) := by
    intro hne
    by_cases hempty : earlier.sparseName = ""
    · simp [SegmentDescriptor.named, hempty, hne, Ne.symm hne]
    · simp [SegmentDescriptor.named, hempty, hne, hname.eq_iff]
  constructor
  · intro h
    exact ⟨UInt64.lt_iff_toNat_lt.2 h.ascending, fun heq => h.name_ne (congrArg nameOf heq),
      fun hne heq => h.sparse_ne (hsparse.2 hne) ((hsame hne).2 heq)⟩
  · intro h
    exact ⟨UInt64.lt_iff_toNat_lt.1 h.ascending, hname.ne h.name_ne,
      fun hne heq => h.sparse_ne (hsparse.1 hne) ((hsame (hsparse.1 hne)).1 heq)⟩

/-- The segments of a file are those of the running system whose names are safe as texts. -/
theorem validate_named_iff {nameOf : String → FileName} (hname : Function.Injective nameOf)
    {strict : Bool} :
    validateManifestSegments lastSequence segments strict = .ok () ↔
      Storage.validateManifestSegments lastSequence.toNat (segments.map (·.named nameOf)) =
          .ok () ∧
        ∀ segment ∈ segments, ∀ name ∈ segment.names, SafeName strict name := by
  rw [validate_manifest_segments_ok, Storage.validate_manifest_segments_ok]
  have hcovers : ((segments.map (·.named nameOf)).getLast?).map (·.maxSequence) =
      some lastSequence.toNat ↔ (segments.getLast?).map (·.maxSequence) = some lastSequence := by
    rw [List.getLast?_map, Option.map_map]
    cases segments.getLast? with
    | none => simp
    | some last => simp [SegmentDescriptor.named, UInt64.toNat_inj]
  have hnames : ∀ segment : SegmentDescriptor, (∀ name ∈ segment.names, SafeName strict name) ↔
      SafeName strict segment.name ∧
        (segment.sparseName ≠ "" → SafeName strict segment.sparseName) := by
    intro segment
    unfold SegmentDescriptor.names
    split <;> simp_all
  have hown : ∀ segment : SegmentDescriptor,
      (segment.named nameOf).sparseName ≠ some (segment.named nameOf).name ↔
        (segment.sparseName ≠ "" → segment.sparseName ≠ segment.name) := by
    intro segment
    by_cases hempty : segment.sparseName = "" <;>
      simp [SegmentDescriptor.named, hempty, hname.eq_iff]
  constructor
  · intro h
    refine ⟨⟨⟨by simpa using h.segments_ne, by simpa using h.length_le⟩, ?_, ?_, ?_,
      hcovers.2 h.covers⟩, fun segment hsegment => (hnames segment).2
        ⟨(h.valid segment hsegment).safe, (h.valid segment hsegment).sparse_safe⟩⟩
    · exact List.forall_mem_map.2 fun segment hsegment =>
        UInt64.le_iff_toNat_le.1 (h.valid segment hsegment).covered
    · exact List.forall_mem_map.2 fun segment hsegment =>
        (hown segment).2 (h.valid segment hsegment).own_ne
    · exact List.pairwise_map.2 (h.follows.imp fun hfollows => (follows_named hname).2 hfollows)
  · rintro ⟨h, hsafe⟩
    refine ⟨by simpa using h.count.1, by simpa using h.count.2, fun segment hsegment => ?_,
      (List.pairwise_map.1 h.compatible).imp fun hpair => (follows_named hname).1 hpair,
      hcovers.1 h.last⟩
    obtain ⟨hdense, hsparse⟩ := (hnames segment).1 (hsafe segment hsegment)
    exact ⟨hdense, hsparse,
      UInt64.le_iff_toNat_le.2 (List.forall_mem_map.1 h.covered segment hsegment),
      (hown segment).1 (List.forall_mem_map.1 h.own_ne segment hsegment)⟩

/-- A manifest without a sidecar. -/
def plainManifest (dimension : Int) (generation lastSequence : UInt64)
    (segments : List SegmentDescriptor) (newest : SegmentDescriptor) : Manifest :=
  ⟨dimension, generation, lastSequence, newest.checksum, newest.name, 2, segments, none, none, none,
    none⟩

/-- `with_segments` returns for exactly the valid arguments. -/
theorem with_segments_ok {dimension : Int} {generation lastSequence : UInt64} {strict : Bool}
    {manifest : Manifest} :
    Manifest.withSegments dimension generation lastSequence segments strict = .ok manifest ↔
      0 < dimension ∧ generation ≠ 0 ∧ SegmentsValid lastSequence strict segments ∧
        ∃ newest, segments.getLast? = some newest ∧
          manifest = plainManifest dimension generation lastSequence segments newest := by
  unfold Manifest.withSegments
  simp only [bind_ok, exists_unit, require_ok, validate_manifest_segments_ok]
  refine and_congr_right fun hdim => and_congr_right fun _ => and_congr_right fun hvalid => ?_
  cases hnewest : segments.getLast? with
  | none => exact absurd (List.getLast?_eq_none_iff.1 hnewest) hvalid.segments_ne
  | some newest =>
      have hsafe : validateSafeFilename newest.name strict = .ok () :=
        (hvalid.valid newest (List.mem_of_getLast? hnewest)).safe
      have hcreate : Manifest.create dimension lastSequence newest.checksum newest.name strict =
          .ok ⟨dimension, 0, lastSequence, newest.checksum, newest.name, 1,
            [⟨1, 0, lastSequence, newest.checksum, newest.name, 0, "", by decide,
              UInt64.zero_le, fun _ => rfl⟩], none, none, none, none⟩ := by
        refine bind_ok.2 ⟨(), require_ok.2 hdim, bind_ok.2 ⟨_, ?_, rfl⟩⟩
        unfold SegmentDescriptor.create
        rw [dif_pos (by decide : 1 ≤ maxLevel), dif_pos UInt64.zero_le]
        exact bind_ok.2 ⟨(), hsafe, rfl⟩
      simp only [hcreate, bind_ok, pure_ok, Except.ok.injEq, exists_eq_left',
        Option.some.injEq, plainManifest]
      exact eq_comm

/-- What `_validate_hnsw_reference` accepts, and whether there is a reference. -/
theorem validate_hnsw_reference_ok {manifest : Manifest} {version : Nat} {hasHnsw : Bool}
    (h : validateHnswReference manifest version = .ok hasHnsw) :
    hasHnsw = manifest.hnswName.isSome ∧ ∀ name, manifest.hnswName = some name →
      SafeName true name ∧ ∀ segment ∈ manifest.segments,
        name ≠ segment.name ∧ (segment.sparseName ≠ "" → name ≠ segment.sparseName) := by
  unfold validateHnswReference at h
  simp only [bind_ok, exists_unit, require_ok] at h
  obtain ⟨-, h⟩ := h
  cases hname : manifest.hnswName with
  | none =>
      rw [hname] at h
      obtain rfl := pure_ok.1 h
      exact ⟨rfl, nofun⟩
  | some name =>
      rw [hname] at h
      simp only [bind_ok, exists_unit, check_each_ok, require_ok, pure_ok] at h
      obtain ⟨hsafe, -, hnames, rfl⟩ := h
      refine ⟨rfl, fun other hother => ?_⟩
      obtain rfl := Option.some.inj hother
      exact ⟨hsafe, fun segment hsegment => ⟨fun heq => hnames segment hsegment (.inl heq),
        fun hne heq => hnames segment hsegment (.inr ⟨hne, heq⟩)⟩⟩

/-! ## Accepted manifests -/

/-- What retirement and backup rely on: the ranges are not empty, increase and end at the last
sequence, and all file names are distinct and have no path separator. -/
structure Manifest.WellFormed (manifest : Manifest) : Prop where
  segments_ne : manifest.segments ≠ []
  ranges : ∀ segment ∈ manifest.segments, segment.minSequence ≤ segment.maxSequence
  increasing : manifest.segments.Pairwise (·.maxSequence < ·.minSequence)
  covers : (manifest.segments.getLast?).map (·.maxSequence) = some manifest.lastSequence
  distinct : manifest.names.Nodup
  no_separator : ∀ name ∈ manifest.names, 0x2F ∉ utf8Bytes name

/-- The manifests that the constructors return and the decoder accepts as version 2 to 5. -/
inductive Accepted : Manifest → Prop where
  | withSegments {dimension : Int} {generation lastSequence : UInt64}
      {segments : List SegmentDescriptor} {strict : Bool} {manifest : Manifest}
      (h : Manifest.withSegments dimension generation lastSequence segments strict =
        .ok manifest) : Accepted manifest
  | withHnsw {dimension : Int} {generation lastSequence : UInt64}
      {segments : List SegmentDescriptor} {name : String} {checksum : UInt32}
      {fingerprint pointCount : UInt64} {formatVersion : Nat} {manifest : Manifest}
      (h : Manifest.withHnsw dimension generation lastSequence segments name checksum fingerprint
        pointCount formatVersion = .ok manifest) : Accepted manifest
  | decoded {bytes : List UInt8} {dimension : Int} {manifest : Manifest}
      (h : decodeManifestBytes bytes dimension = .ok manifest)
      (hversion : manifest.formatVersion ≠ 1) : Accepted manifest

/-- A manifest whose segments and sidecar name passed the checks. -/
structure Checked (strict : Bool) (manifest : Manifest) : Prop where
  segments : SegmentsValid manifest.lastSequence strict manifest.segments
  hnsw : ∀ name, manifest.hnswName = some name → SafeName true name ∧
    ∀ segment ∈ manifest.segments,
      name ≠ segment.name ∧ (segment.sparseName ≠ "" → name ≠ segment.sparseName)

theorem finish_manifest_checked {dimension : Int} {generation lastSequence : UInt64}
    {version : Nat} {strict : Bool} {part : Option HnswPart} {manifest : Manifest}
    (h : finishManifest dimension generation lastSequence version strict segments part =
      .ok manifest) : Checked strict manifest := by
  obtain ⟨plain, hplain, h⟩ := bind_ok.1 h
  obtain ⟨-, -, hvalid, newest, -, rfl⟩ := with_segments_ok.1 hplain
  cases part with
  | none =>
      obtain rfl := pure_ok.1 h
      exact ⟨hvalid, nofun⟩
  | some part =>
      simp only [bind_ok, exists_unit, pure_ok] at h
      obtain ⟨-, hasHnsw, href, rfl⟩ := h
      exact ⟨hvalid, (validate_hnsw_reference_ok href).2⟩

theorem old_version {dimension size : Nat} {bytes rest : List UInt8} {manifest : Manifest}
    (h : readManifestV1 dimension size bytes = .ok (manifest, rest)) :
    manifest.formatVersion = 1 := by
  unfold readManifestV1 at h
  simp only [reader_bind_ok, check_ok, of_result_ok] at h
  obtain ⟨lastSequence, _, -, checksum, _, -, length, _, -, reserved, _, -, _, _, -, _, _, -, _, _, -,
    name, _, -, _, _, -, left, _, -, _, _, -, hcreate, -⟩ := h
  unfold Manifest.create at hcreate
  simp only [bind_ok, exists_unit, pure_ok] at hcreate
  obtain ⟨-, descriptor, -, rfl⟩ := hcreate
  rfl

theorem accepted_checked {manifest : Manifest} (h : Accepted manifest) :
    ∃ strict, Checked strict manifest := by
  cases h with
  | @withSegments dimension generation lastSequence segments strict _ h =>
      obtain ⟨-, -, hvalid, newest, -, rfl⟩ := with_segments_ok.1 h
      exact ⟨strict, hvalid, nofun⟩
  | withHnsw h =>
      unfold Manifest.withHnsw at h
      simp only [bind_ok, exists_unit, require_ok, pure_ok] at h
      obtain ⟨-, -, plain, hplain, hasHnsw, href, rfl⟩ := h
      obtain ⟨-, -, hvalid, newest, -, rfl⟩ := with_segments_ok.1 hplain
      exact ⟨true, hvalid, (validate_hnsw_reference_ok href).2⟩
  | decoded h hversion =>
      unfold decodeManifestBytes at h
      simp only [bind_ok, exists_unit, pure_ok] at h
      obtain ⟨-, -, -, minimum, -, -, -, ⟨read, rest⟩, hread, rfl⟩ := h
      unfold readManifest at hread
      simp only [reader_bind_ok, check_ok] at hread
      obtain ⟨magic, _, -, _, _, -, again, _, -, _, _, -, flags, _, -, _, _, -, _, _, -, dimension, _,
        -, _, _, -, hread⟩ := hread
      split at hread
      · exact absurd (old_version hread) hversion
      · unfold readMultiManifest at hread
        simp only [reader_bind_ok, check_ok, of_result_ok] at hread
        obtain ⟨generation, _, -, lastSequence, _, -, count, _, -, _, _, -, reserved, _, -, _, _, -, _,
          _, -, _, _, -, segments, _, -, part, _, -, checksum, _, -, left, _, -, _, _, -, hfinish,
          -⟩ := hread
        exact ⟨_, finish_manifest_checked hfinish⟩

/-- No sparse file has the name of a dense file of another segment. -/
def NoCrossNames (segments : List SegmentDescriptor) : Prop :=
  ∀ first ∈ segments, ∀ second ∈ segments, first.sparseName ≠ second.name

theorem mem_names {name : String} :
    name ∈ segment.names ↔
      name = segment.name ∨ (segment.sparseName ≠ "" ∧ name = segment.sparseName) := by
  unfold SegmentDescriptor.names
  by_cases h : segment.sparseName = "" <;> simp [h]

section Checked

variable {strict : Bool} {manifest : Manifest} (h : Checked strict manifest)

include h

theorem name_ne_empty (hsegment : segment ∈ manifest.segments) :
    segment.name ≠ "" :=
  (safe_name_iff.1 (h.segments.valid segment hsegment).safe).1

theorem disjoint_names_iff {earlier later : SegmentDescriptor} (hfollows : Follows earlier later)
    (hearlier : earlier ∈ manifest.segments) (hlater : later ∈ manifest.segments) :
    earlier.names.Disjoint later.names ↔
      earlier.sparseName ≠ later.name ∧ later.sparseName ≠ earlier.name := by
  have hempty := name_ne_empty h hearlier
  have hempty' := name_ne_empty h hlater
  constructor
  · refine fun hdisjoint => ⟨fun heq => ?_, fun heq => ?_⟩
    · exact hdisjoint (mem_names.2 (.inr ⟨heq ▸ hempty', heq.symm⟩)) (mem_names.2 (.inl rfl))
    · exact hdisjoint (mem_names.2 (.inl rfl)) (mem_names.2 (.inr ⟨heq ▸ hempty, heq.symm⟩))
  · rintro ⟨hfirst, hsecond⟩ name hname hname'
    rcases mem_names.1 hname with rfl | ⟨hne, rfl⟩
    · rcases mem_names.1 hname' with heq | ⟨-, heq⟩
      · exact hfollows.name_ne heq
      · exact hsecond heq.symm
    · rcases mem_names.1 hname' with heq | ⟨hne', heq⟩
      · exact hfirst heq
      · exact hfollows.sparse_ne hne' heq

/-- The file names are distinct exactly when no sparse name is a dense name. -/
theorem names_nodup_iff : manifest.names.Nodup ↔ NoCrossNames manifest.segments := by
  have hown : ∀ segment ∈ manifest.segments, segment.sparseName ≠ segment.name := by
    intro segment hsegment heq
    have hempty := name_ne_empty h hsegment
    exact (h.segments.valid segment hsegment).own_ne (heq ▸ hempty) heq
  have heach : ∀ segment ∈ manifest.segments, segment.names.Nodup := by
    intro segment hsegment
    unfold SegmentDescriptor.names
    split
    · exact List.nodup_singleton _
    · simpa using (hown segment hsegment).symm
  have hpairs : manifest.segments.Pairwise (Function.onFun List.Disjoint SegmentDescriptor.names) ↔
      NoCrossNames manifest.segments := by
    have hiff : manifest.segments.Pairwise
        (Function.onFun List.Disjoint SegmentDescriptor.names) ↔
        manifest.segments.Pairwise fun first second =>
          first.sparseName ≠ second.name ∧ second.sparseName ≠ first.name := by
      have hfollows := List.Pairwise.and_mem.1 h.segments.follows
      constructor
      · intro hdisjoint
        refine (hfollows.and hdisjoint).imp fun {first second} ⟨⟨hfirst, hsecond, hf⟩, hd⟩ => ?_
        exact (disjoint_names_iff h hf hfirst hsecond).1 hd
      · intro hcross
        refine (hfollows.and hcross).imp fun {first second} ⟨⟨hfirst, hsecond, hf⟩, hd⟩ => ?_
        exact (disjoint_names_iff h hf hfirst hsecond).2 hd
    rw [hiff]
    constructor
    · intro hcross first hfirst second hsecond
      have hsymm : Std.Symm fun first second : SegmentDescriptor =>
          first.sparseName ≠ second.name ∧ second.sparseName ≠ first.name :=
        ⟨fun _ _ h => ⟨h.2, h.1⟩⟩
      exact (hcross.forall_of_forall (fun segment hsegment =>
        ⟨hown segment hsegment, hown segment hsegment⟩) hfirst hsecond).1
    · intro hnone
      exact List.Pairwise.and_mem.2 (List.pairwise_of_forall_mem_list fun first hfirst second
        hsecond => ⟨hfirst, hsecond, hnone first hfirst second hsecond,
          hnone second hsecond first hfirst⟩) |>.imp fun h => h
  have hnodup : (manifest.segments.flatMap SegmentDescriptor.names).Nodup ↔
      NoCrossNames manifest.segments := by
    rw [List.nodup_flatMap]
    exact ⟨fun hboth => hpairs.1 hboth.2, fun hnone => ⟨heach, hpairs.2 hnone⟩⟩
  unfold Manifest.names
  rw [List.nodup_append, hnodup]
  refine ⟨(·.1), fun hnone => ⟨hnone, ?_, fun name hname other hother heq => ?_⟩⟩
  · cases manifest.hnswName <;> simp
  · -- The sidecar was compared with every name of every segment.
    obtain ⟨segment, hsegment, hin⟩ := List.mem_flatMap.1 hname
    obtain ⟨-, hnames⟩ := h.hnsw other (Option.mem_toList.1 hother)
    rcases mem_names.1 hin with rfl | ⟨hne, rfl⟩
    · exact (hnames segment hsegment).1 heq.symm
    · exact (hnames segment hsegment).2 hne heq.symm

theorem names_safe : ∀ name ∈ manifest.names, 0x2F ∉ utf8Bytes name := by
  intro name hname
  have hsafe : ∃ strict, SafeName strict name := by
    rcases List.mem_append.1 hname with hname | hname
    · obtain ⟨segment, hsegment, hin⟩ := List.mem_flatMap.1 hname
      have hvalid := h.segments.valid segment hsegment
      rcases mem_names.1 hin with rfl | ⟨hne, rfl⟩
      · exact ⟨strict, hvalid.safe⟩
      · exact ⟨strict, hvalid.sparse_safe hne⟩
    · exact ⟨true, (h.hnsw name (Option.mem_toList.1 hname)).1⟩
  obtain ⟨strict, hsafe⟩ := hsafe
  exact fun hmem => (safe_name_iff.1 hsafe).2.2 _ hmem (.inr rfl)

end Checked

/-- An accepted manifest is well formed exactly when no segment's sparse file has the name of a
segment's dense file. -/
theorem accepted_well_formed_iff {manifest : Manifest} (h : Accepted manifest) :
    manifest.WellFormed ↔ NoCrossNames manifest.segments := by
  obtain ⟨strict, hchecked⟩ := accepted_checked h
  refine ⟨fun hwf => (names_nodup_iff hchecked).1 hwf.distinct, fun hnone => ?_⟩
  exact {
    segments_ne := hchecked.segments.segments_ne
    ranges := fun segment _ => segment.range
    increasing := hchecked.segments.follows.imp (·.ascending)
    covers := hchecked.segments.covers
    distinct := (names_nodup_iff hchecked).2 hnone
    no_separator := names_safe hchecked }

/-- Two segments with sparse files of their own. -/
def sparseSegments : List SegmentDescriptor :=
  [⟨1, 0, 1, 0, "segment-1.bin", 7, "sparse-1.bin", one_le_max_level, by decide, by decide⟩,
    ⟨1, 2, 2, 0, "segment-2.bin", 8, "sparse-2.bin", one_le_max_level, by decide, by decide⟩]

theorem accepted_well_formed_sample :
    (⟨1, 1, 2, 0, "segment-2.bin", 2, sparseSegments, none, none, none, none⟩ :
      Manifest).WellFormed := by
  have hvalid : validateManifestSegments 2 sparseSegments true = .ok () := by decide +kernel
  have haccepted := Accepted.withSegments (with_segments_ok.2 ⟨show (0 : Int) < 1 by decide,
    show (1 : UInt64) ≠ 0 by decide, validate_manifest_segments_ok.1 hvalid, _, rfl, rfl⟩)
  exact (accepted_well_formed_iff haccepted).2 (by unfold NoCrossNames; decide)

/-- A segment whose sparse file is `segment-2.bin`, and one whose dense file is. -/
def crossSegments : List SegmentDescriptor :=
  [⟨1, 0, 1, 0, "segment-1.bin", 0, "segment-2.bin", one_le_max_level, by decide, fun _ => rfl⟩,
    ⟨1, 2, 2, 0, "segment-2.bin", 0, "", one_le_max_level, by decide, fun _ => rfl⟩]

def crossManifest : Manifest :=
  ⟨1, 1, 2, 0, "segment-2.bin", 2, crossSegments, none, none, none, none⟩

theorem cross_segments_accepted :
    Manifest.withSegments 1 1 2 crossSegments true = .ok crossManifest ∧
      ¬ crossManifest.names.Nodup := by
  have hvalid : validateManifestSegments 2 crossSegments true = .ok () := by decide +kernel
  exact ⟨with_segments_ok.2 ⟨by decide, by decide, validate_manifest_segments_ok.1 hvalid, _, rfl,
    rfl⟩, by decide⟩

end Akasha.Storage.ManifestFile

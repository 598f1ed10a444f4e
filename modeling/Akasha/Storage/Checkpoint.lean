import Akasha.Document.PointRecord
import Akasha.Index.Sparse
import Akasha.Lib.Volume
import Akasha.Storage.FieldCatalogCodec
import Akasha.Storage.ManifestCodec
import Akasha.Storage.MemTableRecovery
import Akasha.Storage.PointTable
import Akasha.Storage.SparseStore

/-!
# Reading a checkpoint

What a collection directory without logs holds: its identity, its manifest and the immutable files.
A collection with a version 2 catalog is recovered from point segments (`point_recovery.mojo`), an
older one from dense and sparse segments (`legacy_recovery.mojo`). Of these a directory may have no
sparse file that the manifest names for a segment, but a snapshot that is found by its sequence.
-/

namespace Akasha.Storage

open Lib
open Index (SparseIndex)

/-! ## Files -/

/-- `read_file_bytes`. -/
def readFile (files : Files) (name : String) : Except String (List UInt8) :=
  match files name with
  | some bytes => pure bytes
  | none => throw "No such file or directory"

/-- `read_file_bytes_bounded`. -/
def readFileBounded (files : Files) (name : String) (maximum : Nat) :
    Except String (List UInt8) := do
  let bytes ← readFile files name
  require (¬ bytes.length > maximum) "file exceeds bounded read limit"
  pure bytes

def manifestFile : String := "manifest.bin"

def collectionFile : String := "collection.bin"

/-- `_validate_manifest_names`. -/
def validateManifestNames (manifest : ManifestFile.Manifest) (strict : Bool) :
    Except String Unit := do
  ManifestFile.validateSafeFilename manifest.segmentName strict
  checkEach manifest.segments fun segment => do
    ManifestFile.validateSafeFilename segment.name strict
    ManifestFile.validateSparseFilename segment.sparseName strict
  match manifest.hnswName with
  | some name => ManifestFile.validateSafeFilename name true
  | none => pure ()

/-- `load_manifest`. -/
def loadManifest (files : Files) (expectedDimension : Nat) :
    Except String ManifestFile.Manifest := do
  let bytes ← readFileBounded files manifestFile ManifestFile.maxManifestBytes
  let manifest ← ManifestFile.decodeManifestBytes bytes expectedDimension
  validateManifestNames manifest true
  checkEach manifest.segments fun segment => do
    require ((files segment.name).isSome) "manifest references a missing segment"
    require (segment.sparseName ≠ "" → (files segment.sparseName).isSome)
      "manifest references a missing sparse segment"
  pure manifest

/-! ## The identity -/

/-- The configuration of the default field, `field_at(0).hnsw`. -/
def defaultHnsw (catalog : FieldCatalog) : Option CollectionConfig :=
  (catalog.fields.head?).bind (·.hnsw)

/-! ## Point segments -/

/-- `PointSegment`. -/
structure PointSegment where
  kind : Nat
  minSequence : UInt64
  lastSequence : UInt64
  checksum : Nat
  points : List PointState

/-- `_validate_interval`. -/
def validateInterval (kind : Nat) (minimum maximum : UInt64) (catalog : FieldCatalog) :
    Except String Unit := do
  require (¬ ((kind ≠ 1 ∧ kind ≠ 2) ∨ minimum > maximum))
    "invalid point segment kind or sequence interval"
  require (¬ ((kind = 1 ∧ minimum ≠ 0) ∨ (kind = 2 ∧ minimum = 0)))
    "invalid point segment minimum sequence"
  require (¬ maximum.toNat < catalog.legacyCutoverSequence)
    "point segment checkpoint precedes migration cutover"

/-- `_validate_point`. -/
def validateSegmentPoint (point : PointState) (kind : Nat) (minimum maximum : UInt64) :
    Except String Unit := do
  require (¬ (point.sequence < minimum.toNat ∨ point.sequence > maximum.toNat))
    "point sequence lies outside segment interval"
  require (¬ (kind = 1 ∧ point.tombstone)) "base segment cannot contain tombstones"

/-- The loop over the records of a point segment, after the identifier of the last one. -/
def readSegmentPoints (catalog : FieldCatalog) (kind : Nat) (minimum maximum : UInt64) :
    Nat → Option Int64 → Lib.Reader (List PointState)
  | 0, _ => pure []
  | count + 1, previous => do
      let size ← readU32
      check (¬ (size < 40 ∨ size > maxPointRecordBytes)) "invalid point segment record length"
      let body ← readSpan (size - 4)
      let point ← ofResult (decodePointRecord (leBytes 4 size ++ body) catalog)
      check (∀ earlier ∈ previous, earlier < point.id) "point segment IDs must strictly increase"
      ofResult (validateSegmentPoint point kind minimum maximum)
      let points ← readSegmentPoints catalog kind minimum maximum count (some point.id)
      pure (point :: points)

/-- `decode_point_segment` between the two checks of the whole file. -/
def readPointSegment (catalog : FieldCatalog) (catalogCrc checksum : Nat) : Lib.Reader PointSegment := do
  let magic ← readSpan 4
  let version ← readU16
  check (magic = segmentMagic ∧ version = 4) "invalid point segment magic or version"
  let kind ← readU16
  let revision ← readUnsigned 8
  let crc ← readU32
  let reserved ← readU32
  check (revision = catalog.schemaRevision ∧ crc = catalogCrc ∧ reserved = 0)
    "point segment catalog identity or reserved field mismatch"
  let count ← readUnsigned 8
  let minimum ← readU64
  let maximum ← readU64
  ofResult (validateInterval kind minimum maximum catalog)
  let left ← remaining
  check (¬ count > left / 40) "point segment count exceeds available bytes"
  let points ← readSegmentPoints catalog kind minimum maximum count none
  let left ← remaining
  check (left = 0) "unexpected point segment trailing bytes"
  pure ⟨kind, minimum, maximum, checksum, points⟩

/-- `decode_point_segment`. -/
def decodePointSegment (bytes : List UInt8) (catalog : FieldCatalog) :
    Except String PointSegment := do
  let catalogCrc ← fieldCatalogChecksum catalog
  require (¬ bytes.length < 52) "truncated point segment"
  checkFileChecksum "point segment checksum mismatch" bytes
  let checksum := leValue (bytes.drop (bytes.length - 4))
  let (segment, _) ← readPointSegment catalog catalogCrc checksum (bytes.take (bytes.length - 4))
  pure segment

/-- `is_point_checkpoint`: the version of the first segment. -/
def isPointCheckpoint (files : Files) (manifest : ManifestFile.Manifest) : Except String Bool :=
  match manifest.segments with
  | [] => throw "list index out of bounds"
  | segment :: _ => do
      let bytes ← readFile files segment.name
      let header := bytes.take 8
      require (¬ header.length < 8) "truncated checkpoint segment header"
      pure (leValue ((header.drop 4).take 2) = 4)

/-- One version of a point in `load_point_checkpoint`. -/
def mergePoint (states : List PointState) (point : PointState) :
    Except String (List PointState) :=
  match states.findIdx? (·.id = point.id) with
  | none => pure (states ++ [point])
  | some ordinal => do
      require (¬ ∃ state ∈ states[ordinal]?, point.sequence ≤ state.sequence)
        "point checkpoint versions do not increase"
      pure (states.set ordinal point)

/-- One segment of `load_point_checkpoint`. -/
def loadPointSegment (files : Files) (catalog : FieldCatalog) (states : List PointState)
    (descriptor : ManifestFile.SegmentDescriptor) : Except String (List PointState) := do
  require (¬ (descriptor.sparseName ≠ "" ∨ descriptor.sparseChecksum ≠ 0))
    "point checkpoints cannot carry legacy sparse segments"
  let bytes ← readFile files descriptor.name
  let segment ← decodePointSegment bytes catalog
  require (¬ (segment.minSequence ≠ descriptor.minSequence ∨
      segment.lastSequence ≠ descriptor.maxSequence ∨
      segment.checksum ≠ descriptor.checksum.toNat ∨ (descriptor.level = 0 ∧ segment.kind ≠ 2) ∨
      (descriptor.level > 0 ∧ segment.kind ≠ 1)))
    "point segment does not match committed manifest"
  segment.points.foldlM mergePoint states

/-- `load_point_checkpoint`. -/
def loadPointCheckpoint (files : Files) (manifest : ManifestFile.Manifest)
    (catalog : FieldCatalog) : Except String PointTable := do
  require (catalog.formatVersion = 2 ∧
      (catalog.fields.head?).map (fun field => (field.dimension : Int)) = some manifest.dimension)
    "point checkpoint catalog does not match manifest"
  let states ← manifest.segments.foldlM (loadPointSegment files catalog) []
  PointTable.create catalog manifest.lastSequence.toNat states

/-! ## Legacy segments -/

/-- The dense file of one segment in `preflight_legacy_with_reader`. -/
def loadDenseEntries (files : Files) (dimension : Nat)
    (descriptor : ManifestFile.SegmentDescriptor) : Except String (List MemTableEntry) := do
  let bytes ← readFile files descriptor.name
  let snapshot ← decodeSegmentBytes bytes dimension
  require (¬ (snapshot.header.minSequence ≠ descriptor.minSequence ∨
    snapshot.header.lastSequence ≠ descriptor.maxSequence)) "manifest and segment sequence mismatch"
  require (snapshot.checksum = descriptor.checksum.toNat) "manifest and segment checksum mismatch"
  require (¬ (descriptor.level = 0 ∧ snapshot.header.kind ≠ 2))
    "level-zero manifest entry must be a delta"
  require (¬ (descriptor.level > 0 ∧ snapshot.header.kind ≠ 1))
    "compacted manifest entry must be a base"
  pure snapshot.entries

/-- The loop over the dense files. -/
def recoverDense (files : Files) (dimension : Nat) (manifest : ManifestFile.Manifest) :
    Except String MemTable :=
  manifest.segments.foldlM (fun table descriptor => do
    let entries ← loadDenseEntries files dimension descriptor
    match table.applyRecoveredEntries entries with
    | (.ok (), next) => pure next
    | (.error message, _) => throw message) (MemTable.empty dimension)

/-- The name of the sparse snapshot of a sequence, which no manifest has. -/
def snapshotName (sequence : UInt64) : String :=
  "sparse-" ++ toString sequence.toNat ++ ".bin"

/-- A sparse snapshot that may be there. -/
def loadSparseSnapshot (files : Files) (sequence : UInt64) (sparse : SparseIndex) :
    Except String SparseIndex :=
  match files (snapshotName sequence) with
  | none => pure sparse
  | some bytes => do
      let records ← readSparseSnapshot bytes sequence
      records.foldlM (fun sparse record => sparse.upsert record.id record.elements) sparse

/-- One record of a sparse segment. -/
def applySparseRecord (sparse : SparseIndex) (record : SparseWalRecord) :
    Except String SparseIndex :=
  if record.isDelete then pure (sparse.delete record.id)
  else sparse.upsert record.id record.elements

/-- The records of the sparse file of one segment. -/
def loadSparseRecords (files : Files) (descriptor : ManifestFile.SegmentDescriptor) :
    Except String (List SparseWalRecord) := do
  let bytes ← readFile files descriptor.sparseName
  let segment ← readSparseSegment bytes
  require (¬ (segment.header.minSequence ≠ descriptor.minSequence ∨
      segment.header.maxSequence ≠ descriptor.maxSequence))
    "manifest and sparse segment sequence mismatch"
  require (segment.checksum = descriptor.sparseChecksum.toNat)
    "manifest and sparse segment checksum mismatch"
  require (¬ (descriptor.level = 0 ∧ segment.header.kind ≠ 2))
    "level-zero sparse entry must be a delta"
  require (¬ (descriptor.level > 0 ∧ segment.header.kind ≠ 1))
    "compacted sparse entry must be a base"
  pure segment.records

/-- One segment in the loop over the sparse files. -/
def loadSparseSegment (files : Files) (sparse : SparseIndex)
    (descriptor : ManifestFile.SegmentDescriptor) : Except String SparseIndex :=
  if descriptor.sparseName = "" then loadSparseSnapshot files descriptor.maxSequence sparse
  else do
    let records ← loadSparseRecords files descriptor
    records.foldlM applySparseRecord sparse

/-- The sparse vectors of a checkpoint. Without a single sparse file in the manifest the snapshot of
the last sequence is all there may be. -/
def recoverSparse (files : Files) (manifest : ManifestFile.Manifest) : Except String SparseIndex :=
  if manifest.segments.all (·.sparseName = "") then
    loadSparseSnapshot files manifest.lastSequence .empty
  else manifest.segments.foldlM (loadSparseSegment files) .empty

/-- The last loop: a sparse vector of a live point goes to its entry, any other one is dropped. -/
def attachSparse (recovered : MemTable × SparseIndex) (record : Index.SparseRecord) :
    Except String (MemTable × SparseIndex) :=
  if (recovered.1.state record.id).any (!·.tombstone) then do
    let table ← recovered.1.setSparse record.id record.elements
    pure (table, recovered.2)
  else pure (recovered.1, recovered.2.delete record.id)

end Akasha.Storage

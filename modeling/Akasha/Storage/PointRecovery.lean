import Akasha.Storage.LegacyRecovery
import Akasha.Storage.PointReplay
import Akasha.Storage.PointSegment

/-!
# Recovery of the point authority

`storage/point_migration.mojo` and `storage/point_recovery.mojo`: the points of a directory from its
newest checkpoint and the log behind it, or from the legacy checkpoint and the mixed log, as long as
there is no checkpoint of points. Nothing is written; what has to be repaired is returned.
-/

namespace Akasha.Storage

open Lib

/-- `PointRecovery`. -/
structure PointRecovery where
  points : PointTable
  sparseWal : SparseWalReplayState
  generation : UInt64
  snapshotSequence : UInt64
  walValidLength : Nat
  walSourceLength : Nat
  pointCheckpoint : Bool

/-! ## The mixed log -/

/-- `_LegacyPrefix`: the legacy envelopes at the front of the log. -/
structure LegacyPrefix where
  reader : FieldWalReader
  firstPointBatch : Option PointWalBatch
  done : Bool

/-- `_LegacyPrefix.read_next`. -/
def LegacyPrefix.next (chunk : Nat → Nat) (front : LegacyPrefix) :
    Except String (List WalRecord × LegacyPrefix) :=
  if front.done then pure ([], front)
  else do
    let (envelope, reader) ← front.reader.readNext chunk
    match envelope with
    | none => pure ([], { front with reader := reader, done := true })
    | some (.legacy _ records) => pure (records, { front with reader := reader })
    | some (.point batch) => pure ([], ⟨reader, some batch, true⟩)

/-- The loop over the rest of the log. Behind a checkpoint of points a legacy envelope is skipped,
before it there must not be any. -/
def replayEnvelopes (chunk : Nat → Nat) (skipLegacy : Bool) :
    Nat → FieldWalReader → PointTable → Except String (PointTable × FieldWalReader)
  | 0, _, _ => throw "field log was not read to its end"
  | rounds + 1, reader, table => do
      let (envelope, reader) ← reader.readNext chunk
      match envelope with
      | none => pure (table, reader)
      | some (.legacy _ _) => do
          require (skipLegacy = true) "legacy record follows field-aware WAL prefix"
          replayEnvelopes chunk skipLegacy rounds reader table
      | some (.point batch) => do
          let next ← table.replay batch
          replayEnvelopes chunk skipLegacy rounds reader next

/-! ## Migration -/

/-- `MemTableEntry.to_point`. -/
def MemTableEntry.toPoint (entry : MemTableEntry) : PointState where
  id := entry.id
  sequence := entry.sequence
  documentSequence := entry.documentSequence
  tombstone := entry.tombstone
  fields := entry.vectors
  payload := if entry.tombstone then none else some entry.payload

/-- One entry in the loop of `point_table_from_legacy`. -/
def pointFromLegacy (cutover : Nat) (entry : MemTableEntry) : Except String PointState :=
  if entry.tombstone then pure (PointState.deleted entry.id cutover)
  else do
    require (∀ value ∈ entry.values, value.isFinite)
      "legacy vectors must be finite for field migration"
    pure { entry.toPoint with sequence := cutover }

/-- `point_table_from_legacy`. -/
def pointTableFromLegacy (table : MemTable) (catalog : FieldCatalog) :
    Except String PointTable := do
  let states ← table.entries.mapM (pointFromLegacy catalog.legacyCutoverSequence)
  PointTable.create catalog catalog.legacyCutoverSequence states

/-- The content of the log; a file that is not there is an empty one to the reader. -/
def walSource (files : Files) : List UInt8 :=
  (files walFile).getD []

/-- `preflight_migrating_points`. -/
def preflightMigratingPoints (chunk : Nat → Nat) (files : Files) (catalog : FieldCatalog) :
    Except String PointRecovery := do
  let reader ← FieldWalReader.start (walSource files) catalog
  let rounds := (walSource files).length + 1
  let (legacy, front) ← preflightLegacyWithReader (LegacyPrefix.next chunk) rounds
    ⟨reader, none, false⟩ files (denseDimension catalog)
  require (legacy.lastSequence.toNat = catalog.legacyCutoverSequence)
    "legacy accepted sequence does not match field cutover"
  let points ← pointTableFromLegacy legacy.table catalog
  let points ← match front.firstPointBatch with
    | some batch => points.replay batch
    | none => pure points
  let (points, reader) ← replayEnvelopes chunk false rounds front.reader points
  pure ⟨points, legacy.sparseWal, legacy.generation, legacy.snapshotSequence, reader.validLength,
    (walSource files).length, false⟩

/-! ## A checkpoint of points -/

/-- `preflight_point_authority`. -/
def preflightPointAuthority (chunk : Nat → Nat) (files : Files) (catalog : FieldCatalog) :
    Except String PointRecovery :=
  match files manifestFile with
  | none => preflightMigratingPoints chunk files catalog
  | some _ => do
      let manifest ← loadManifest files (denseDimension catalog)
      if ← isPointCheckpoint files manifest then do
        let points ← loadPointCheckpoint files manifest catalog
        let sparse ← preflightSparseWal (files sparseWalFile)
        checkEach sparse.records fun record =>
          require (¬ record.sequence.toNat > catalog.legacyCutoverSequence)
            "legacy sparse mutation follows field cutover"
        let reader ← FieldWalReader.start (walSource files) catalog
        let (points, reader) ← replayEnvelopes chunk true ((walSource files).length + 1) reader
          points
        pure ⟨points, sparse, manifest.generation, manifest.lastSequence, reader.validLength,
          (walSource files).length, true⟩
      else preflightMigratingPoints chunk files catalog

end Akasha.Storage

import Akasha.Storage.Durable
import Akasha.Storage.HnswJobName
import Akasha.Storage.PointRecovery

/-!
# What a point store does to its directory

The steps of `storage/point_store.mojo` that write: publishing the identity and a manifest, cutting
and rotating the logs, writing a checkpoint under a name of its own, and removing files that are
referenced no more (`storage/retired_files.mojo`, `storage/file_leases.mojo`). Names are those of
files in the directory of the collection.
-/

namespace Akasha.Storage

open Lib Lib.Exec
open Durable (VolumeM)

/-- What a store meets: how much a read of a log returns, what a listing of the directory returns,
which files a reader has leased, and whether a graph can be opened for a configuration at a
sequence. -/
structure Surroundings where
  chunk : Nat → Nat
  listing : List String
  leased : String → Bool
  openGraph : List UInt8 → CollectionConfig → UInt64 → UInt32 → UInt64 → Except String Bool

/-! ## The identity, the manifest and the logs -/

def collectionTemporary : String := "collection.bin.tmp"

def manifestTemporary : String := "manifest.bin.tmp"

def walTemporary : String := "wal.bin.tmp"

def sparseWalTemporary : String := "sparse.wal.tmp"

/-- What `publish_field_catalog` checks of the identity that was observed before. -/
def checkExpectedIdentity (catalog : FieldCatalog) (expected : List UInt8) : Except String Unit :=
  if expected.length ≠ 0 then do
    let previous ← decodeFieldCatalogBytes expected
    require (previous.formatVersion = 1) "field publication only upgrades legacy identity"
    require (defaultHnsw previous = defaultHnsw catalog)
      "field migration cannot change default configuration"
  else pure ()

/-- Whether `publish_field_catalog` finds its own catalog published. -/
def alreadyPublished (files : Files) (target expected : List UInt8) : Except String Bool :=
  match files collectionFile with
  | some _ => do
      let current ← readFileBounded files collectionFile maxFieldCatalogBytes
      require (¬ (current ≠ target ∧ current ≠ expected))
        "collection identity changed since migration preflight"
      pure (current = target)
  | none => do
      require (¬ expected.length ≠ 0) "collection identity disappeared since migration preflight"
      pure false

/-- `publish_field_catalog`. -/
def publishFieldCatalog (catalog : FieldCatalog) (expected : List UInt8) : VolumeM Unit := do
  ScheduleM.ofExcept (require (catalog.formatVersion = 2)
    "field publication requires a v2 catalog")
  let target ← ScheduleM.ofExcept (encodeFieldCatalog catalog)
  ScheduleM.ofExcept (checkExpectedIdentity catalog expected)
  let files ← Durable.readFiles
  let published ← ScheduleM.ofExcept (alreadyPublished files target expected)
  Durable.removeFileIfExists collectionTemporary
  if published then Durable.syncDirectory
  else
    ScheduleM.recovering (Durable.replaceFile collectionTemporary collectionFile target) fun e => do
      ScheduleM.recovering (Durable.removeFileIfExists collectionTemporary) fun _ => pure ()
      raise e

/-- What `publish_manifest` writes. -/
def manifestBytes (manifest : ManifestFile.Manifest) : Except String (List UInt8) := do
  validateManifestNames manifest true
  ManifestFile.encodePublished manifest

/-- `publish_manifest`. -/
def publishManifest (manifest : ManifestFile.Manifest) : VolumeM Unit := do
  let bytes ← ScheduleM.ofExcept (manifestBytes manifest)
  Durable.replaceFile manifestTemporary manifestFile bytes

/-- `rotate_wal`. -/
def rotateWal : VolumeM Unit :=
  Durable.replaceFile walTemporary walFile []

/-- `rotate_sparse_wal`. -/
def rotateSparseWal : VolumeM Unit :=
  Durable.replaceFile sparseWalTemporary sparseWalFile []

/-- `repair_wal_tail`. -/
def repairWalTail (validLength sourceLength : Nat) : VolumeM Unit := do
  ScheduleM.ofExcept (require (validLength ≤ sourceLength) "invalid WAL repair length")
  if validLength = sourceLength then pure ()
  else do
    let volume ← ScheduleM.get
    match volume.now walFile with
    | none => ScheduleM.throw "open WAL for repair failed"
    | some file => do
        ScheduleM.ofExcept (require (file.bytes.length = sourceLength)
          "WAL changed after preflight")
        ScheduleM.step (Volume.truncate walFile validLength)
        Durable.syncFile walFile

/-- `repair_sparse_wal_tail`. -/
def repairSparseWalTail (replay : SparseWalReplayState) : VolumeM Unit :=
  if replay.validLength < replay.sourceLength then
    Durable.writeFileSync sparseWalFile replay.validPrefix
  else pure ()

/-- The last step of `open`: a log to append to. -/
def createWal : VolumeM Unit := do
  if ← Durable.pathExists walFile then pure ()
  else do
    Durable.writeFileSync walFile []
    Durable.syncDirectory

/-! ## Names of their own -/

/-- The names that `_write_point_checkpoint` claims. -/
def pointCheckpointName (kind : Nat) (sequence generation : UInt64) (claim : Nat) : String :=
  (if kind = 1 then "point-base-" else "point-delta-") ++ toString sequence.toNat ++ "-" ++
    toString generation.toNat ++ "-" ++ toString claim ++ ".bin"

-- Elaboration would unfold the list of names.
/-- `_write_point_checkpoint`. -/
@[irreducible] def writePointCheckpoint (kind : Nat) (sequence generation : UInt64)
    (bytes : List UInt8) :
    VolumeM String :=
  Durable.claimExclusive "no free point checkpoint output name"
    (fun name => Durable.writeFileSync name bytes) Durable.removeFileIfExists
    ((List.range 1024).map (pointCheckpointName kind sequence generation))

/-! ## Removing files -/

/-- `try_reclaim_file`: whether the file is gone. -/
def tryReclaimFile (leased : String → Bool) (name : String) : VolumeM Bool := do
  if ← Durable.pathExists name then
    if leased name then do
      Durable.touch
      pure false
    else do
      ScheduleM.step (Volume.remove name)
      pure true
  else pure true

/-- A loop over obsolete files: those that have to be tried again, and whether one is gone. -/
def reclaimFiles (leased : String → Bool) (check : String → Except String Unit) :
    List String → VolumeM (List String × Bool)
  | [] => pure ([], false)
  | name :: names => do
      ScheduleM.ofExcept (check name)
      let gone ← tryReclaimFile leased name
      let (retained, removed) ← reclaimFiles leased check names
      pure (if gone then (retained, true) else (name :: retained, removed))

/-- What `RetiredFileQueue.reclaim` checks of a name. -/
def checkBasename (name : String) : Except String Unit :=
  require (¬ ((utf8Bytes name).length = 0 ∨ name = "." ∨ name = ".." ∨ 0x2F ∈ utf8Bytes name))
    "retired file must be a basename"

/-- `RetiredFileQueue.reclaim`: the files that stay in the queue. -/
def reclaimRetired (leased : String → Bool) (names : List String) : VolumeM (List String) :=
  if names.length = 0 then pure []
  else do
    Durable.touch
    let (retained, removed) ← reclaimFiles leased checkBasename names
    if removed then Durable.syncDirectory else pure ()
    pure retained

/-- A suffix is removed if it is there. -/
def removeSuffix (suffix bytes : List UInt8) : List UInt8 :=
  if suffix <:+ bytes then bytes.take (bytes.length - suffix.length) else bytes

/-- The numbers in a name between a start and `.bin`. -/
def jobNumbers (start bytes : List UInt8) : Except String (List Nat) := do
  let body := bytes.drop start.length
  require (start <+: bytes ∧ utf8Bytes ".bin" <:+ body) "not a job output"
  ((removeSuffix (utf8Bytes ".bin") body).splitOn 45).mapM ManifestFile.canonicalU64

/-- `_is_job_output`. -/
def isJobOutput (name : String) : Bool :=
  let base := removeSuffix (utf8Bytes ".tmp") (utf8Bytes name)
  let numbered := ["hnsw-", "point-base-", "point-delta-"].any fun start =>
    match jobNumbers (utf8Bytes start) base with
    | .ok [_, generation, _] => 0 < generation
    | _ => false
  let compacted := ["segment-compact-", "sparse-compact-"].any fun start =>
    match jobNumbers (utf8Bytes start) base with
    | .ok [generation, _] => 0 < generation
    | _ => false
  numbered || compacted

/-- `reclaim_unreferenced_job_files`. -/
def reclaimUnreferencedJobFiles (surroundings : Surroundings) (dimension : Nat) :
    VolumeM Unit := do
  let files ← Durable.readFiles
  let referenced ← ScheduleM.ofExcept
    (match files manifestFile with
    | none => pure []
    | some _ => do
        let bytes ← readFileBounded files manifestFile ManifestFile.maxManifestBytes
        let manifest ← ManifestFile.decodeManifestBytes bytes dimension
        pure manifest.names)
  let (_, removed) ← reclaimFiles surroundings.leased (fun _ => pure ())
    (surroundings.listing.filter fun name => name ∉ referenced ∧ isJobOutput name)
  if removed then Durable.syncDirectory else pure ()

end Akasha.Storage

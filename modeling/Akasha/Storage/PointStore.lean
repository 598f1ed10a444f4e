import Akasha.Storage.StoreFiles

/-!
# The point store

`storage/point_store.mojo`: a collection of points that outlives its process. `PointStore.open`
recovers what the directory holds and repairs it, `applyBatch` appends to the log, and `checkpoint`
(`flush`, `compact`) writes a segment, publishes a manifest that names it and starts the log anew.
Every change of the directory is a step that may fail or find the process dead. What all this keeps
is in `Akasha.Storage.StoreRuns`.
-/

namespace Akasha

/-- `_mix_u8` of the fingerprint. -/
def mixByte (value : UInt64) (byte : UInt8) : UInt64 :=
  (value ^^^ byte.toUInt64) * 1099511628211

/-- `_mix_u64` of the fingerprint. -/
def mixWord (value field : UInt64) : UInt64 :=
  (Lib.leBytes 8 field.toNat).foldl mixByte value

/-- `fingerprint`: FNV-1a over the fields. -/
def CollectionConfig.fingerprint (config : CollectionConfig) : UInt64 :=
  let identity := mixByte (mixByte (mixWord 14695981039346656037 (UInt64.ofNat config.dimension))
    (UInt8.ofNat config.annMetric)) (UInt8.ofNat config.scalarKind)
  [UInt64.ofNat config.m, UInt64.ofNat config.m0, UInt64.ofNat config.efConstruction,
    UInt64.ofNat config.defaultEfSearch, UInt64.ofNat config.maxEfSearch,
    UInt64.ofNat config.maxLevel, UInt64.ofNat config.rebuildInactivePercent,
    UInt64.ofNat config.deltaMaxPoints, config.levelSeed].foldl mixWord identity

namespace Storage

open Lib Lib.Exec
open Durable (VolumeM)

/-- `HnswCheckpoint`: a graph that its builder has written. -/
structure HnswCheckpoint where
  name : String
  sequence : UInt64
  configFingerprint : UInt64
  checksum : UInt32
  livePointCount : UInt64

/-- `PointStore`, without the path. The lock is the one of the collection. -/
structure PointStore where
  catalog : FieldCatalog
  table : PointTable
  locked : Bool
  manifest : Option ManifestFile.Manifest
  pointCheckpoint : Bool
  retired : List String
  ioFailed : Bool
  hnswReferenceValid : Bool

/-- A store and the directory of its collection. -/
structure Desk where
  volume : Volume
  store : PointStore

/-- A program of an open store. -/
abbrev StoreM := ScheduleM Desk String

/-- `LEVEL_ZERO_SEGMENT_LIMIT`. -/
def levelZeroSegmentLimit : Nat := 8

namespace PointStore

/-- Run a program on the directory. -/
def onVolume {α : Type} (x : VolumeM α) : StoreM α :=
  ScheduleM.within Desk.volume (fun volume desk => { desk with volume := volume }) x

/-- Change the store in memory. -/
def modifyStore (change : PointStore → PointStore) : StoreM Unit :=
  ScheduleM.modify fun desk => { desk with store := change desk.store }

/-- `_ensure_open`. -/
def ensureOpen (store : PointStore) : Except String Unit :=
  require (store.locked = true) "point store is closed"

/-- `_ensure_writable`. -/
def ensureWritable (store : PointStore) : Except String Unit := do
  store.ensureOpen
  require (¬ (store.ioFailed = true ∨ store.table.writeFailed = true))
    "point store requires reopen after uncertain I/O"

/-- `get`. -/
def get (store : PointStore) (id : Int64) : Except String (Option PointState) := do
  store.ensureOpen
  pure (store.table.get id)

/-- `last_sequence`. -/
def lastSequence (store : PointStore) : Except String Nat := do
  store.ensureOpen
  pure store.table.lastSequence

/-! ## Opening -/

/-- What `open` finds before it changes anything. -/
structure Preflight where
  catalog : FieldCatalog
  recovered : PointRecovery
  expected : List UInt8
  publishes : Bool
  manifest : Option ManifestFile.Manifest
  hnswValid : Bool

/-- The identity that a directory has, and its bytes. -/
def existingIdentity (files : Files) : Except String (Option (List UInt8 × FieldCatalog)) :=
  match files collectionFile with
  | none => pure none
  | some _ => do
      let bytes ← readFileBounded files collectionFile maxFieldCatalogBytes
      let catalog ← decodeFieldCatalogBytes bytes
      pure (some (bytes, catalog))

/-- The recovery of `open` in a directory whose identity knows its fields. -/
def recoverPublished (surroundings : Surroundings) (files : Files) (fields : List VectorFieldSpec)
    (expected : List UInt8) (existing : FieldCatalog) :
    Except String (FieldCatalog × PointRecovery) := do
  let matched ← createCatalog 2 existing.schemaRevision existing.legacyCutoverSequence fields
  let bytes ← encodeFieldCatalog matched
  require (bytes = expected) "requested vector fields differ from collection identity"
  let recovered ← preflightPointAuthority surroundings.chunk files existing
  pure (existing, recovered)

/-- What `open` asks of a directory of the old format. -/
def checkLegacyConfig (files : Files) (config : CollectionConfig) (existing : Option FieldCatalog) :
    Except String Unit :=
  match existing with
  | some catalog =>
      require (defaultHnsw catalog = some config)
        "field migration cannot change default configuration"
  | none =>
      require (¬ (((files walFile).isSome ∨ (files manifestFile).isSome) ∧
          config ≠ .defaults config.dimension))
        "legacy data without identity requires default configuration"

/-- The recovery of `open` in a directory without such an identity, which may hold a collection of
the old format. -/
def recoverUnpublished (surroundings : Surroundings) (files : Files)
    (fields : List VectorFieldSpec) (requested : FieldCatalog) (existing : Option FieldCatalog) :
    Except String (FieldCatalog × PointRecovery) :=
  match defaultHnsw requested with
  | none => throw "optional value is missing"
  | some config => do
      checkLegacyConfig files config existing
      let (legacy, reader) ← preflightLegacyAuthority surroundings.chunk files config.dimension
      let catalog ← createCatalog 2 1 legacy.lastSequence.toNat fields
      let points ← pointTableFromLegacy legacy.table catalog
      pure (catalog, ⟨points, legacy.sparseWal, legacy.generation, legacy.snapshotSequence,
        reader.validLength, reader.input.source.length, false⟩)

/-- `hnsw_base_sequence`. -/
def hnswBaseSequence (manifest : ManifestFile.Manifest) : Except String UInt64 := do
  let referenced ← ManifestFile.validateHnswReference manifest manifest.formatVersion
  require (referenced = true) "manifest has no HNSW base"
  match manifest.hnswName with
  | none => throw "optional value is missing"
  | some name =>
      if manifest.formatVersion = 5 then do
        let identity ← ManifestFile.parseHnswJobName name
        pure (UInt64.ofNat identity.1)
      else pure manifest.lastSequence

/-- `_validate_committed_graph`, of a graph whose file is there. -/
def validateGraphBytes (surroundings : Surroundings) (catalog : FieldCatalog)
    (manifest : ManifestFile.Manifest) (bytes : List UInt8) : Except String Bool :=
  match defaultHnsw catalog, manifest.hnswConfigFingerprint, manifest.hnswChecksum,
      manifest.hnswPointCount with
  | some config, some fingerprint, some checksum, some count =>
      if fingerprint ≠ config.fingerprint then pure false
      else do
        let sequence ← hnswBaseSequence manifest
        surroundings.openGraph bytes config sequence checksum count
  | _, _, _, _ => throw "optional value is missing"

/-- `_validate_committed_graph`. -/
def validateCommittedGraph (surroundings : Surroundings) (files : Files) (catalog : FieldCatalog)
    (manifest : ManifestFile.Manifest) : Except String Bool :=
  match manifest.hnswName.bind files with
  | none => pure false
  | some bytes => validateGraphBytes surroundings catalog manifest bytes

/-- The manifest of a directory that has one, and whether its graph may be kept. -/
def committedManifest (surroundings : Surroundings) (files : Files) (catalog : FieldCatalog) :
    Except String (Option ManifestFile.Manifest × Bool) :=
  match files manifestFile with
  | none => pure (none, false)
  | some _ => do
      let manifest ← loadManifest files (denseDimension catalog)
      let valid ← validateCommittedGraph surroundings files catalog manifest
      pure (some manifest, valid)

/-- Everything that `open` reads and checks. -/
def preflight (surroundings : Surroundings) (files : Files) (fields : List VectorFieldSpec)
    (requested : FieldCatalog) : Except String Preflight := do
  let identity ← existingIdentity files
  match identity with
  | none => do
      let (catalog, recovered) ← recoverUnpublished surroundings files fields requested none
      let (manifest, valid) ← committedManifest surroundings files catalog
      pure ⟨catalog, recovered, [], true, manifest, valid⟩
  | some (expected, existing) => do
      let publishes := decide (existing.formatVersion = 1)
      let (catalog, recovered) ←
        if publishes then recoverUnpublished surroundings files fields requested (some existing)
        else recoverPublished surroundings files fields expected existing
      let (manifest, valid) ← committedManifest surroundings files catalog
      pure ⟨catalog, recovered, expected, publishes, manifest, valid⟩

def collectionLockFile : String := "collection.lock"

/-- `open`, of a directory that is there and that no other process has locked. -/
def «open» (surroundings : Surroundings) (fields : List VectorFieldSpec) : VolumeM PointStore := do
  let requested ← ScheduleM.ofExcept (createCatalog 2 1 0 fields)
  -- `ensure_durable_directory` completes what an earlier process renamed and did not sync.
  Durable.syncDirectory
  Durable.openAppend collectionLockFile
  let files ← Durable.readFiles
  let found ← ScheduleM.ofExcept (preflight surroundings files fields requested)
  if found.publishes then publishFieldCatalog found.catalog found.expected else pure ()
  repairWalTail found.recovered.walValidLength found.recovered.walSourceLength
  repairSparseWalTail found.recovered.sparseWal
  reclaimUnreferencedJobFiles surroundings (denseDimension found.catalog)
  createWal
  pure {
    catalog := found.catalog
    table := found.recovered.points
    locked := true
    manifest := found.manifest
    pointCheckpoint := found.recovered.pointCheckpoint
    retired := []
    ioFailed := false
    hnswReferenceValid := found.hnswValid }

/-! ## Writing -/

/-- `apply_batch`. The table refuses a batch before anything is written; a write that does not
return leaves it closed for writing. -/
def applyBatch (mutations : List PointMutation) : StoreM PointCommit := do
  let desk ← ScheduleM.get
  ScheduleM.ofExcept desk.store.ensureWritable
  let table := desk.store.table
  match table.attempt ⟨mutations, .ok ()⟩,
      encodePointBatch table.catalog (table.envelope mutations) with
  | (next, .ok commit), .ok bytes => do
      modifyStore fun store => { store with table := { table with writeFailed := true } }
      onVolume (Durable.appendFileSync walFile bytes)
      modifyStore fun store => { store with table := next }
      pure commit
  | (_, .error message), _ => ScheduleM.throw message
  | _, .error message => ScheduleM.throw message

/-! ## Checkpoints -/

/-- What a checkpoint is going to write. -/
structure SegmentPlan where
  full : Bool
  minimum : UInt64
  sequence : UInt64
  generation : UInt64
  bytes : List UInt8

/-- What `_checkpoint` decides before it writes: nothing is new, only the graph is, or a segment. -/
inductive CheckpointPlan where
  | unchanged
  | graph (manifest : ManifestFile.Manifest) (retired : List String)
  | segment (plan : SegmentPlan)

/-- The kind of a segment. -/
def SegmentPlan.kind (plan : SegmentPlan) : Nat :=
  if plan.full then 1 else 2

/-- `clone` of a descriptor. -/
def cloneDescriptor (descriptor : ManifestFile.SegmentDescriptor) :
    Except String ManifestFile.SegmentDescriptor :=
  if descriptor.sparseName ≠ "" then
    ManifestFile.SegmentDescriptor.withSparse descriptor.level descriptor.minSequence
      descriptor.maxSequence descriptor.checksum descriptor.name descriptor.sparseChecksum
      descriptor.sparseName true
  else
    ManifestFile.SegmentDescriptor.create descriptor.level descriptor.minSequence
      descriptor.maxSequence descriptor.checksum descriptor.name true

/-- A manifest with the graph of a checkpoint. -/
def manifestWithGraph (dimension : Nat) (generation sequence : UInt64)
    (descriptors : List ManifestFile.SegmentDescriptor) (hnsw : HnswCheckpoint) :
    Except String ManifestFile.Manifest :=
  ManifestFile.Manifest.withHnsw dimension generation sequence descriptors hnsw.name hnsw.checksum
    hnsw.configFingerprint hnsw.livePointCount (if hnsw.sequence = sequence then 4 else 5)

/-- The plan for a segment. -/
def planSegment (store : PointStore) (compact : Bool) (previous generation sequence : UInt64) :
    Except String CheckpointPlan := do
  let full := compact || !store.pointCheckpoint ||
    store.manifest.any (levelZeroSegmentLimit ≤ ·.segments.length)
  let states := if full then store.table.livePoints else store.table.pointsAfter previous.toNat
  let minimum := if full then 0 else previous + 1
  let bytes ← encodePointSegment (if full then 1 else 2) minimum sequence states store.catalog
  pure (.segment ⟨full, minimum, sequence, generation, bytes⟩)

/-- The graph that a checkpoint is given belongs to the collection and not to its future. -/
def checkGraph (store : PointStore) (sequence : UInt64) (hnsw : Option HnswCheckpoint) :
    Except String Unit :=
  match hnsw with
  | none => pure ()
  | some graph =>
      require (¬ (graph.sequence > sequence ∨
          some graph.configFingerprint ≠ (defaultHnsw store.catalog).map (·.fingerprint)))
        "point checkpoint HNSW identity mismatch"

/-- The plan where the checkpoint that is there is the newest. -/
def planGraph (store : PointStore) (manifest : ManifestFile.Manifest)
    (generation sequence : UInt64) (hnsw : Option HnswCheckpoint) : Except String CheckpointPlan :=
  match hnsw with
  | none => pure .unchanged
  | some graph => do
      let descriptors ← manifest.segments.mapM cloneDescriptor
      let updated ← manifestWithGraph (denseDimension store.catalog) generation sequence descriptors
        graph
      pure (.graph updated manifest.hnswName.toList)

/-- `_checkpoint`, up to where it writes. -/
def planCheckpoint (store : PointStore) (compact : Bool) (hnsw : Option HnswCheckpoint) :
    Except String CheckpointPlan := do
  let sequence := UInt64.ofNat store.table.lastSequence
  store.checkGraph sequence hnsw
  match store.manifest with
  | none => store.planSegment compact 0 1 sequence
  | some manifest => do
      require (¬ manifest.lastSequence > sequence)
        "committed checkpoint exceeds accepted point state"
      require (manifest.generation ≠ UInt64.ofNat (2 ^ 64 - 1))
        "point checkpoint generation exhausted"
      if store.pointCheckpoint ∧ manifest.lastSequence = sequence ∧ compact = false then
        store.planGraph manifest (manifest.generation + 1) sequence hnsw
      else store.planSegment compact manifest.lastSequence (manifest.generation + 1) sequence

/-- Whether the graph of a manifest of version 3 has to get a new name. No manifest that a store
publishes here has this version. -/
def migratesGraph (store : PointStore) (hnsw : Option HnswCheckpoint) (sequence : UInt64) : Bool :=
  hnsw.isNone && store.hnswReferenceValid && store.manifest.any fun manifest =>
    manifest.hnswName.isSome && manifest.formatVersion = 3 && manifest.lastSequence < sequence

/-- Whether the manifest keeps the graph that it has. -/
def retainsGraph (store : PointStore) (hnsw : Option HnswCheckpoint) (sequence : UInt64) : Bool :=
  hnsw.isNone && store.hnswReferenceValid && store.manifest.any fun manifest =>
    manifest.hnswName.isSome &&
      (4 ≤ manifest.formatVersion || manifest.lastSequence = sequence)

/-- The descriptors that a new segment is put behind. -/
def keptDescriptors (store : PointStore) (full : Bool) :
    Except String (List ManifestFile.SegmentDescriptor) :=
  match store.manifest with
  | some manifest => if full then pure [] else manifest.segments.mapM cloneDescriptor
  | none => pure []

/-- The files that a new manifest references no more. -/
def retiredFiles (store : PointStore) (full retain : Bool) : List String :=
  match store.manifest with
  | some manifest =>
      (if full then manifest.segments.flatMap ManifestFile.SegmentDescriptor.names else []) ++
        if !retain then manifest.hnswName.toList else []
  | none => []

/-- The manifest of a checkpoint. -/
def checkpointManifest (store : PointStore) (hnsw : Option HnswCheckpoint) (plan : SegmentPlan)
    (retain : Bool) (descriptors : List ManifestFile.SegmentDescriptor) : Except String ManifestFile.Manifest :=
  match hnsw with
  | some graph => manifestWithGraph (denseDimension store.catalog) plan.generation plan.sequence
      descriptors graph
  | none =>
      if retain then
        match store.manifest with
        | none => throw "optional value is missing"
        | some old =>
            match old.hnswName, old.hnswChecksum, old.hnswConfigFingerprint,
                old.hnswPointCount with
            | some name, some checksum, some fingerprint, some count =>
                ManifestFile.Manifest.withHnsw (denseDimension store.catalog) plan.generation
                  plan.sequence descriptors name checksum fingerprint count
                  (if 4 ≤ old.formatVersion then 5 else 3)
            | _, _, _, _ => throw "optional value is missing"
      else ManifestFile.Manifest.withSegments (denseDimension store.catalog) plan.generation
        plan.sequence descriptors true

/-- `retire_or_reclaim`. -/
def retireOrReclaim (surroundings : Surroundings) (names : List String) : StoreM Unit := do
  modifyStore fun store => { store with retired := store.retired ++ names }
  let desk ← ScheduleM.get
  let retained ← onVolume (reclaimRetired surroundings.leased desk.store.retired)
  modifyStore fun store => { store with retired := retained }

/-- `_checkpoint` where only the graph is new. -/
def publishGraph (surroundings : Surroundings) (manifest : ManifestFile.Manifest)
    (retired : List String) : StoreM Unit := do
  modifyStore fun store => { store with ioFailed := true }
  onVolume (publishManifest manifest)
  modifyStore fun store => { store with manifest := some manifest, hnswReferenceValid := true }
  retireOrReclaim surroundings retired
  modifyStore fun store => { store with ioFailed := false }

/-- `_checkpoint` where a segment is written. -/
def publishSegment (surroundings : Surroundings) (hnsw : Option HnswCheckpoint)
    (plan : SegmentPlan) : StoreM Unit := do
  let desk ← ScheduleM.get
  let store := desk.store
  -- The source copies such a graph to another name; that is left out.
  ScheduleM.ofExcept (require (store.migratesGraph hnsw plan.sequence = false)
    "legacy HNSW base needs a new name")
  let retain := store.retainsGraph hnsw plan.sequence
  let kept ← ScheduleM.ofExcept (store.keptDescriptors plan.full)
  let retired := store.retiredFiles plan.full retain
  -- Until the publication is certain the log is kept, and the store has to be reopened.
  modifyStore fun store => { store with ioFailed := true }
  let name ← onVolume (writePointCheckpoint plan.kind plan.sequence plan.generation plan.bytes)
  let descriptor ← ScheduleM.ofExcept
    (ManifestFile.SegmentDescriptor.create (if plan.full then 1 else 0) plan.minimum
      plan.sequence (UInt32.ofNat (closingChecksum plan.bytes)) name true)
  let manifest ← ScheduleM.ofExcept
    (store.checkpointManifest hnsw plan retain (kept ++ [descriptor]))
  onVolume (publishManifest manifest)
  modifyStore fun store => { store with
    manifest := some manifest
    pointCheckpoint := true
    hnswReferenceValid := hnsw.isSome || retain }
  onVolume rotateWal
  onVolume rotateSparseWal
  retireOrReclaim surroundings retired
  modifyStore fun store => { store with ioFailed := false }

/-- The manifest that `_checkpoint` starts from: the committed one, which a compaction may have
published meanwhile. -/
def reloadManifest (store : PointStore) (files : Files) :
    Except String (Option ManifestFile.Manifest) :=
  match files manifestFile with
  | none => pure store.manifest
  | some _ => do
      let manifest ← loadManifest files (denseDimension store.catalog)
      pure (some manifest)

/-- `_checkpoint`. -/
def checkpoint (surroundings : Surroundings) (compact : Bool) (hnsw : Option HnswCheckpoint) :
    StoreM Unit := do
  let desk ← ScheduleM.get
  ScheduleM.ofExcept desk.store.ensureWritable
  let files ← onVolume Durable.readFiles
  let manifest ← ScheduleM.ofExcept (desk.store.reloadManifest files)
  modifyStore fun store => { store with manifest := manifest }
  let plan ← ScheduleM.ofExcept (planCheckpoint { desk.store with manifest := manifest } compact
    hnsw)
  match plan with
  | .unchanged => pure ()
  | .graph updated retired => publishGraph surroundings updated retired
  | .segment plan => publishSegment surroundings hnsw plan

end PointStore

end Storage

end Akasha

import Akasha.Storage.PointCheckpoint
import Akasha.Storage.PointLog
import Akasha.Storage.PointStore

/-!
# Recovery of a collection

What `PointStore.open` finds in a directory that holds a history: a checkpoint of some of its
batches and a log that goes on behind it, or nothing at all yet. `preflight_holds` is the main
theorem: nothing is refused and the table that is recovered shows the whole history.
-/

namespace Akasha.Storage

open Lib PointStore

/-- A collection: the fields it was opened with, its catalog, and the bytes of its identity. -/
structure Collection where
  fields : List VectorFieldSpec
  catalog : FieldCatalog
  identity : List UInt8
  created : createCatalog 2 1 0 fields = .ok catalog
  encoded : encodeFieldCatalog catalog = .ok identity

namespace Collection

variable (c : Collection)

theorem version_eq : c.catalog.formatVersion = 2 :=
  (create_catalog_ok.1 c.created).1

theorem cutover_eq : c.catalog.legacyCutoverSequence = 0 :=
  (create_catalog_ok.1 c.created).2.2.1

theorem fits : CatalogFits c.catalog := by
  obtain ⟨-, hrevision, hcutover, -⟩ := create_catalog_ok.1 c.created
  exact ⟨by rw [hrevision]; decide, by rw [hcutover]; decide⟩

theorem decoded : decodeFieldCatalogBytes c.identity = .ok c.catalog :=
  decode_catalog_iff.2 ⟨c.fits, c.encoded⟩

theorem identity_length_le : c.identity.length ≤ maxFieldCatalogBytes :=
  (decode_catalog_ok.1 c.decoded).1.2

theorem matched :
    createCatalog 2 c.catalog.schemaRevision c.catalog.legacyCutoverSequence c.fields =
      .ok c.catalog := by
  obtain ⟨hversion, -, -, hfields⟩ := create_catalog_ok.1 c.created
  exact create_catalog_ok.2 ⟨hversion, rfl, rfl, hfields⟩

theorem checksum : ∃ crc, fieldCatalogChecksum c.catalog = .ok crc := by
  refine ⟨leValue (c.identity.drop (c.identity.length - 4)), ?_⟩
  unfold fieldCatalogChecksum
  simp only [bind_ok, exists_unit, require_ok, pure_ok]
  exact ⟨c.version_eq, c.identity, c.encoded, rfl⟩

end Collection

/-- The default field has an index configuration. -/
theorem default_hnsw_some (catalog : FieldCatalog) :
    ∃ config, defaultHnsw catalog = some config ∧ config.dimension = denseDimension catalog := by
  obtain ⟨spec, hspec, hhead, hid, -⟩ := catalog.default_field
  have hvalid := (validate_specs_after_ok catalog.specs_ok).1 spec hspec
  unfold VectorFieldSpec.validate at hvalid
  simp only [bind_ok, exists_unit, require_ok] at hvalid
  obtain ⟨-, -, -, -, hindex, hdense, -⟩ := hvalid
  have hone : spec.index = 1 := by
    by_contra hne
    exact hdense ⟨hid, .inr (.inr hne)⟩
  unfold VectorFieldSpec.validateIndex at hindex
  cases hhnsw : spec.hnsw with
  | none =>
      rw [hhnsw] at hindex
      exact absurd hone (require_ok.1 hindex)
  | some config =>
      rw [hhnsw] at hindex
      simp only [bind_ok, exists_unit, require_ok] at hindex
      refine ⟨config, ?_, ?_⟩
      · rw [defaultHnsw, hhead]
        exact hhnsw
      · rw [denseDimension, hhead]
        exact hindex.2.2.1

/-! ## A published manifest -/

section

variable {manifest : ManifestFile.Manifest} {bytes : List UInt8}

theorem manifest_bytes_decoded (hconstructed : ManifestFile.Constructed manifest)
    (hdimension : manifest.dimension < 2 ^ 32) (h : manifestBytes manifest = .ok bytes) :
    validateManifestNames manifest true = .ok () ∧ bytes.length ≤ ManifestFile.maxManifestBytes ∧
      ManifestFile.decodeManifestBytes bytes manifest.dimension = .ok manifest := by
  unfold manifestBytes at h
  simp only [bind_ok, exists_unit] at h
  obtain ⟨hnames, hencode⟩ := h
  obtain ⟨hversion, hfinish⟩ := ManifestFile.constructed_finished hconstructed
  obtain ⟨strict, hmulti⟩ := ManifestFile.encode_published_multi hversion hencode
  obtain ⟨⟨-, -, hvalid, hfit, hpart⟩, rfl⟩ := ManifestFile.encode_multi_ok.1 hmulti
  refine ⟨hnames, ManifestFile.length_file_le hvalid.length_le hfit hpart,
    (ManifestFile.decode_manifest_iff (by omega)).2 ⟨⟨by omega, hdimension, fun htwo => ?_, hfinish,
      hfit, hpart⟩, rfl, rfl⟩⟩
  rcases hversion with ⟨-, hnone⟩ | ⟨hlow, -, -⟩
  · exact hnone
  · omega

theorem load_published {files : Files} {dimension : Nat}
    (hconstructed : ManifestFile.Constructed manifest) (hdimension : manifest.dimension = dimension)
    (hbound : dimension < 2 ^ 32) (h : manifestBytes manifest = .ok bytes)
    (hfile : files manifestFile = some bytes)
    (hplain : ∀ segment ∈ manifest.segments, segment.sparseName = "")
    (hsegments : ∀ segment ∈ manifest.segments, (files segment.name).isSome) :
    loadManifest files dimension = .ok manifest := by
  obtain ⟨hnames, hlength, hdecode⟩ := manifest_bytes_decoded hconstructed (by omega) h
  unfold loadManifest readFileBounded readFile
  rw [hfile]
  simp only [bind_ok, exists_unit, require_ok, pure_ok]
  refine ⟨bytes, ⟨bytes, rfl, Nat.not_lt.2 hlength, rfl⟩, manifest, hdimension ▸ hdecode, hnames,
    check_each_ok.2 fun segment hsegment => ?_, rfl⟩
  simp only [bind_ok, exists_unit, require_ok]
  exact ⟨hsegments segment hsegment, fun hne => absurd (hplain segment hsegment) hne⟩

end

/-! ## What a directory holds -/

/-- The manifest of a directory names a checkpoint, and the files of its segments are there. -/
structure Committed (catalog : FieldCatalog) (batches : List (List PointMutation)) (files : Files)
    (manifest : ManifestFile.Manifest) (bytes : List UInt8) : Prop where
  constructed : ManifestFile.Constructed manifest
  encoded : manifestBytes manifest = .ok bytes
  checkpointed : Checkpointed catalog batches files manifest
  segments : ∀ segment ∈ manifest.segments, (files segment.name).isSome

/-- A checkpoint of some batches. Without a manifest it is the empty one. -/
inductive HoldsCheckpoint (c : Collection) (batches : List (List PointMutation)) (files : Files) :
    Nat → Option ManifestFile.Manifest → Prop where
  | absent (h : files manifestFile = none) : HoldsCheckpoint c batches files 0 none
  | present {covered : Nat} {manifest : ManifestFile.Manifest} {bytes : List UInt8}
      (h : files manifestFile = some bytes)
      (hcommitted : Committed c.catalog (batches.take covered) files manifest bytes) :
      HoldsCheckpoint c batches files covered (some manifest)

/-- A directory that holds a history: a checkpoint of some of its batches and a log that goes on
behind it, the last bytes of which are a torn envelope. -/
structure Holds (c : Collection) (batches : List (List PointMutation)) (covered : Nat)
    (manifest : Option ManifestFile.Manifest) (body tail : List UInt8) (files : Files) : Prop where
  history : ∃ points last, History c.catalog batches points last ∧ last < 2 ^ 64
  identity : files collectionFile = some c.identity ∨
    files collectionFile = none ∧ files manifestFile = none ∧ files walFile = none ∧ batches = []
  sparse : files sparseWalFile = none ∨ files sparseWalFile = some []
  checkpoint : HoldsCheckpoint c batches files covered manifest
  log : WholeLog c.catalog batches covered batches.length body
  torn : Torn c.catalog tail
  wal : walSource files = body ++ tail

/-- What is recovered from a directory that holds a history. -/
structure Recovers (c : Collection) (batches : List (List PointMutation)) (covered : Nat)
    (body tail : List UInt8) (recovered : PointRecovery) : Prop where
  shows : recovered.points.Shows c.catalog batches
  writer : recovered.points.writeFailed = false
  checkpoint : recovered.points.checkpointSequence = sequenceAfter c.catalog (batches.take covered)
  valid : recovered.walValidLength = body.length
  source : recovered.walSourceLength = (body ++ tail).length
  sparse : ¬ recovered.sparseWal.validLength < recovered.sparseWal.sourceLength

section

variable {c : Collection} {batches : List (List PointMutation)} {covered : Nat}
  {manifest : Option ManifestFile.Manifest} {body tail : List UInt8} {files : Files}

theorem decode_sparse_empty : decodeSparseWalBytes [] = .ok [] := by
  rw [decodeSparseWalBytes, decodeSparseWalFrom, if_pos (by decide)]
  rfl

theorem preflight_sparse_empty (h : files sparseWalFile = none ∨ files sparseWalFile = some []) :
    ∃ replay, preflightSparseWal (files sparseWalFile) = .ok replay ∧ replay.records = [] ∧
      ¬ replay.validLength < replay.sourceLength := by
  rcases h with hnone | hempty
  · rw [hnone]
    exact ⟨_, rfl, rfl, by decide⟩
  · rw [hempty]
    refine ⟨_, bind_ok.2 ⟨[], decode_sparse_empty, rfl⟩, rfl, ?_⟩
    exact lt_irrefl 0

theorem field_reader_start (c : Collection) (source : List UInt8) :
    ∃ reader crc, FieldWalReader.start source c.catalog = .ok reader ∧
      fieldCatalogChecksum c.catalog = .ok crc ∧ reader.catalog = c.catalog ∧
      reader.catalogCrc = crc ∧ reader.previousSequence = 0 ∧ reader.validLength = 0 ∧
      reader.Ready source := by
  obtain ⟨crc, hcrc⟩ := c.checksum
  refine ⟨_, crc, bind_ok.2 ⟨crc, hcrc, rfl⟩, hcrc, rfl, rfl, rfl, rfl, ?_⟩
  exact ⟨rfl, rfl, WalReadBuffer.start_holds source, rfl, Nat.zero_le _⟩

/-- The log behind a checkpoint is replayed. -/
theorem Holds.replayed (h : Holds c batches covered manifest body tail files) (chunk : Nat → Nat)
    (skipLegacy : Bool) {rounds : Nat} (hrounds : (walSource files).length < rounds)
    {table : PointTable} (hshows : table.Shows c.catalog (batches.take covered))
    (hwriter : table.writeFailed = false)
    (hcheckpoint : table.checkpointSequence = sequenceAfter c.catalog (batches.take covered)) :
    ∃ reader out rest, FieldWalReader.start (walSource files) c.catalog = .ok reader ∧
      replayEnvelopes chunk skipLegacy rounds reader table = .ok (out, rest) ∧
      out.Shows c.catalog batches ∧ out.writeFailed = false ∧
      out.checkpointSequence = table.checkpointSequence ∧ rest.validLength = body.length := by
  obtain ⟨points, last, hhistory, hlast⟩ := h.history
  obtain ⟨reader, crc, hstart, hcrc, hcatalog, hreader, hprevious, hvalid, hready⟩ :=
    field_reader_start c (walSource files)
  rw [h.wal] at hready hrounds
  have hlength : body.length < rounds := by
    rw [List.length_append] at hrounds
    omega
  obtain ⟨out, rest, hreplay, hshown, hout, hkept, hend⟩ := replay_log chunk c.fits hcrc hhistory
    hlast h.log h.torn skipLegacy hlength hcatalog hreader
    (by rw [hprevious]; exact Nat.zero_le _) hready hshows hwriter hcheckpoint
  rw [List.take_length] at hshown
  rw [hvalid, Nat.zero_add] at hend
  exact ⟨reader, out, rest, hstart, hreplay, hshown, hout, hkept, hend⟩

/-! ## Without a checkpoint -/

/-- The legacy state of a collection that never was one of the old format. -/
def emptyLegacy (dimension : Nat) (sparseWal : SparseWalReplayState) : LegacyRecovery where
  table := .empty dimension
  sparse := .empty
  pending := []
  sparseWal := sparseWal
  checkpointLiveIds := []
  snapshotSequence := 0
  lastSequence := 0
  generation := 0

/-- Without a checkpoint and without legacy envelopes there is no legacy state. -/
theorem preflight_legacy_empty {ρ : Type} {next : ρ → Except String (List WalRecord × ρ)}
    {reader rest : ρ} (hnext : next reader = .ok ([], rest)) (hmanifest : files manifestFile = none)
    {replay : SparseWalReplayState}
    (hsparse : preflightSparseWal (files sparseWalFile) = .ok replay)
    (hrecords : replay.records = []) {rounds : Nat} (hrounds : 0 < rounds) (dimension : Nat) :
    preflightLegacyWithReader next rounds reader files dimension =
      .ok (emptyLegacy dimension replay, rest) := by
  obtain ⟨rounds, rfl⟩ := Nat.exists_eq_add_one.2 hrounds
  have hload : loadLegacyCheckpoint files dimension = .ok (.empty dimension, .empty, 0, 0) := by
    unfold loadLegacyCheckpoint
    rw [hmanifest]
    rfl
  have hmerge : ∀ state, mergeLogs next 0 (rounds + 1) reader state = .ok (state, rest) := by
    intro state
    unfold mergeLogs
    exact bind_ok.2 ⟨_, hnext, if_pos rfl⟩
  unfold preflightLegacyWithReader
  refine bind_ok.2 ⟨_, hload, bind_ok.2 ⟨replay, hsparse, ?_⟩⟩
  rw [hrecords]
  refine bind_ok.2 ⟨_, hmerge _, ?_⟩
  rfl

theorem point_table_from_empty (c : Collection) (sparseWal : SparseWalReplayState) :
    ∃ table, pointTableFromLegacy (emptyLegacy (denseDimension c.catalog) sparseWal).table
        c.catalog = .ok table ∧ table.Shows c.catalog [] ∧ table.writeFailed = false ∧
      table.checkpointSequence = sequenceAfter c.catalog [] := by
  have hmerged : Merged [] (fun _ => none) c.catalog.legacyCutoverSequence :=
    ⟨List.nodup_nil, shown_refl _ _⟩
  obtain ⟨table, htable, hshows, hwriter, hcheckpoint, -⟩ := table_of_merged hmerged
    (history_nil c.catalog) c.version_eq c.fits.cutover
  exact ⟨table, htable, hshows, hwriter, hcheckpoint⟩

/-- The log of a collection without a checkpoint is the whole history. -/
theorem Holds.migrating (h : Holds c batches covered none body tail files) (chunk : Nat → Nat) :
    ∃ recovered, preflightMigratingPoints chunk files c.catalog = .ok recovered ∧
      Recovers c batches covered body tail recovered ∧ recovered.pointCheckpoint = false := by
  obtain ⟨hmanifest, rfl⟩ : files manifestFile = none ∧ covered = 0 := by
    cases h.checkpoint with
    | absent hnone => exact ⟨hnone, rfl⟩
  obtain ⟨replay, hsparse, hrecords, hrepair⟩ := preflight_sparse_empty h.sparse
  obtain ⟨table, htable, hshows, hwriter, hcheckpoint⟩ := point_table_from_empty c replay
  obtain ⟨reader, out, rest, hstart, hreplay, hshown, hout, hkept, hvalid⟩ := h.replayed chunk false
    (Nat.lt_succ_of_lt (Nat.lt_succ_self _)) hshows hwriter hcheckpoint
  have hcutover : (0 : UInt64).toNat = c.catalog.legacyCutoverSequence := c.cutover_eq.symm
  rw [replayEnvelopes] at hreplay
  obtain ⟨⟨envelope, later⟩, hnext, hreplay⟩ := bind_ok.1 hreplay
  obtain ⟨-, hfailed, hend⟩ := FieldWalReader.read_next_keeps hnext
  -- The reader of the legacy prefix stops at the first envelope and hands it over.
  have hfront : ∃ front, LegacyPrefix.next chunk ⟨reader, none, false⟩ = .ok ([], front) ∧
      ∃ points, front.firstPointBatch.elim (pure table) table.replay = .ok points ∧
        replayEnvelopes chunk false ((walSource files).length + 1) front.reader points =
          .ok (out, rest) := by
    unfold LegacyPrefix.next
    rw [if_neg Bool.false_ne_true]
    cases envelope with
    | none =>
        obtain ⟨rfl, rfl⟩ := Prod.mk.inj (pure_ok.1 hreplay)
        refine ⟨_, bind_ok.2 ⟨_, hnext, rfl⟩, table, rfl, ?_⟩
        rw [replayEnvelopes, FieldWalReader.read_next_done (hend rfl).2 hfailed]
        rfl
    | some envelope =>
        cases envelope with
        | legacy version records =>
            obtain ⟨_, hcontra, -⟩ := bind_ok.1 hreplay
            exact absurd (require_ok.1 hcontra) Bool.false_ne_true
        | point batch =>
            obtain ⟨points, hpoints, hreplay⟩ := bind_ok.1 hreplay
            exact ⟨_, bind_ok.2 ⟨_, hnext, rfl⟩, points, hpoints, hreplay⟩
  obtain ⟨front, hfront, points, hpoints, hreplay⟩ := hfront
  have hlegacy := preflight_legacy_empty hfront hmanifest hsparse hrecords
    (Nat.succ_pos (walSource files).length) (denseDimension c.catalog)
  refine ⟨⟨out, replay, 0, 0, rest.validLength, (walSource files).length, false⟩, ?_, ?_, rfl⟩
  · unfold preflightMigratingPoints
    refine bind_ok.2 ⟨reader, hstart, bind_ok.2 ⟨_, hlegacy, bind_ok.2 ⟨(),
      require_ok.2 hcutover, bind_ok.2 ⟨table, htable, ?_⟩⟩⟩⟩
    cases hfirst : front.firstPointBatch with
    | none =>
        rw [hfirst] at hpoints
        exact bind_ok.2 ⟨points, hpoints, bind_ok.2 ⟨_, hreplay, rfl⟩⟩
    | some batch =>
        rw [hfirst] at hpoints
        exact bind_ok.2 ⟨points, hpoints, bind_ok.2 ⟨_, hreplay, rfl⟩⟩
  · exact ⟨hshown, hout, hkept.trans hcheckpoint, hvalid, by rw [h.wal], hrepair⟩

/-! ## With a checkpoint -/

theorem Checkpointed.last_eq {manifest : ManifestFile.Manifest}
    (h : Checkpointed c.catalog batches files manifest) :
    manifest.lastSequence.toNat = sequenceAfter c.catalog batches := by
  obtain ⟨_, _, -, -, hhistory⟩ := h.loaded
  exact hhistory.last_eq

theorem Committed.load {manifest : ManifestFile.Manifest} {bytes : List UInt8}
    (h : Committed c.catalog batches files manifest bytes)
    (hfile : files manifestFile = some bytes) :
    loadManifest files (denseDimension c.catalog) = .ok manifest :=
  load_published h.constructed h.checkpointed.dimension_eq (dense_dimension_bounds c.catalog).2
    h.encoded hfile (fun segment hsegment => (h.checkpointed.plain segment hsegment).2) h.segments

/-- The log behind a checkpoint takes its table to the end of the history. -/
theorem Holds.checkpointed {manifest : ManifestFile.Manifest}
    (h : Holds c batches covered (some manifest) body tail files) (chunk : Nat → Nat) :
    ∃ recovered, preflightPointAuthority chunk files c.catalog = .ok recovered ∧
      Recovers c batches covered body tail recovered ∧ recovered.pointCheckpoint = true := by
  obtain ⟨bytes, hfile, hcommitted⟩ : ∃ bytes, files manifestFile = some bytes ∧
      Committed c.catalog (batches.take covered) files manifest bytes := by
    cases h.checkpoint with
    | present hfile hcommitted => exact ⟨_, hfile, hcommitted⟩
  obtain ⟨replay, hsparse, hrecords, hrepair⟩ := preflight_sparse_empty h.sparse
  obtain ⟨table, htable, hshows, hwriter, hcheckpoint⟩ :=
    hcommitted.checkpointed.load c.version_eq
  rw [hcommitted.checkpointed.last_eq] at hcheckpoint
  obtain ⟨reader, out, rest, hstart, hreplay, hshown, hout, hkept, hvalid⟩ := h.replayed chunk true
    (Nat.lt_succ_self _) hshows hwriter hcheckpoint
  refine ⟨⟨out, replay, manifest.generation, manifest.lastSequence, rest.validLength,
    (walSource files).length, true⟩, ?_, ?_, rfl⟩
  · unfold preflightPointAuthority
    rw [hfile]
    refine bind_ok.2 ⟨manifest, hcommitted.load hfile, bind_ok.2 ⟨true,
      hcommitted.checkpointed.points, ?_⟩⟩
    rw [if_pos rfl]
    refine bind_ok.2 ⟨table, htable, bind_ok.2 ⟨replay, hsparse,
      bind_ok.2 ⟨(), ?_, bind_ok.2 ⟨reader, hstart,
        bind_ok.2 ⟨_, hreplay, rfl⟩⟩⟩⟩⟩
    rw [hrecords]
    rfl
  · exact ⟨hshown, hout, hkept.trans hcheckpoint, hvalid, by rw [h.wal], hrepair⟩

/-- The points of a directory that holds a history are recovered. -/
theorem Holds.authority (h : Holds c batches covered manifest body tail files) (chunk : Nat → Nat) :
    ∃ recovered, preflightPointAuthority chunk files c.catalog = .ok recovered ∧
      Recovers c batches covered body tail recovered ∧
      recovered.pointCheckpoint = manifest.isSome := by
  cases manifest with
  | some manifest => exact h.checkpointed chunk
  | none =>
      obtain ⟨recovered, hrecovered, hrest⟩ := h.migrating chunk
      have hnone : files manifestFile = none := by
        cases h.checkpoint with
        | absent hnone => exact hnone
      refine ⟨recovered, ?_, hrest⟩
      unfold preflightPointAuthority
      rw [hnone]
      exact hrecovered

/-! ## The graph -/

/-- The names of graphs. -/
def GraphName (name : String) : Prop :=
  ManifestFile.hnswNamePrefix <+: utf8Bytes name

/-- The graph that the manifest of a directory names can be opened, or it can be told that it cannot
be used. -/
def Surroundings.GraphOpens (surroundings : Surroundings) (files : Files) : Prop :=
  ∀ content manifest name bytes, files manifestFile = some content →
    manifestBytes manifest = .ok content → manifest.hnswName = some name → GraphName name →
    files name = some bytes → ∀ config sequence checksum count, ∃ hit,
      surroundings.openGraph bytes config sequence checksum count = .ok hit

/-- What the graph of a manifest is known by. -/
structure GraphReference (manifest : ManifestFile.Manifest) (name : String) : Prop where
  named : GraphName name
  checksum : manifest.hnswChecksum.isSome
  fingerprint : manifest.hnswConfigFingerprint.isSome
  count : manifest.hnswPointCount.isSome
  sequence : ∃ sequence, hnswBaseSequence manifest = .ok sequence

theorem constructed_checked {manifest : ManifestFile.Manifest}
    (h : ManifestFile.Constructed manifest) {name : String}
    (hname : manifest.hnswName = some name) :
    ManifestFile.validateHnswReference manifest manifest.formatVersion = .ok true := by
  cases h with
  | withSegments h =>
      obtain ⟨-, -, -, newest, -, rfl⟩ := ManifestFile.with_segments_ok.1 h
      cases hname
  | withHnsw h =>
      unfold ManifestFile.Manifest.withHnsw at h
      simp only [bind_ok, exists_unit, require_ok, pure_ok] at h
      obtain ⟨-, -, plain, -, hasHnsw, href, rfl⟩ := h
      obtain rfl := (ManifestFile.validate_hnsw_reference_ok href).1
      exact href

/-- A manifest that was constructed names a graph as a whole. -/
theorem constructed_reference {manifest : ManifestFile.Manifest}
    (h : ManifestFile.Constructed manifest) {name : String}
    (hname : manifest.hnswName = some name) : GraphReference manifest name := by
  have href := constructed_checked h hname
  have hchecks := href
  unfold ManifestFile.validateHnswReference at hchecks
  simp only [hname, bind_ok, exists_unit, require_ok] at hchecks
  obtain ⟨hall, -, hformat, -⟩ := hchecks
  have hpresent : manifest.hnswChecksum.isSome ∧ manifest.hnswConfigFingerprint.isSome ∧
      manifest.hnswPointCount.isSome := by
    simpa [not_or, Option.isSome_iff_ne_none] using hall
  unfold ManifestFile.validateHnswName at hformat
  refine ⟨?_, hpresent.1, hpresent.2.1, hpresent.2.2, ?_⟩
  · split at hformat
    · rw [GraphName, require_ok.1 hformat, ManifestFile.utf8_bytes_append,
        ManifestFile.utf8_bytes_append, List.append_assoc]
      exact List.prefix_append _ _
    · split at hformat
      · obtain ⟨identity, hidentity, -⟩ := bind_ok.1 hformat
        unfold ManifestFile.parseHnswJobName at hidentity
        simp only [bind_ok, exists_unit, require_ok] at hidentity
        exact hidentity.1.1
      · cases hformat
  · have hsequence : ∃ sequence, (if manifest.formatVersion = 5 then do
          let identity ← ManifestFile.parseHnswJobName name
          pure (UInt64.ofNat identity.1)
        else pure manifest.lastSequence) = .ok sequence := by
      split at hformat
      · next hthree => exact ⟨_, if_neg (by omega)⟩
      · by_cases hfive : manifest.formatVersion = 5
        · rw [if_pos (.inr hfive)] at hformat
          obtain ⟨identity, hidentity, -⟩ := bind_ok.1 hformat
          exact ⟨_, (if_pos hfive).trans (bind_ok.2 ⟨identity, hidentity, rfl⟩)⟩
        · exact ⟨_, if_neg hfive⟩
    obtain ⟨sequence, hsequence⟩ := hsequence
    refine ⟨sequence, ?_⟩
    unfold hnswBaseSequence
    simp only [hname, bind_ok, exists_unit, require_ok]
    exact ⟨true, href, rfl, hsequence⟩

/-- Only a graph that cannot be opened keeps a manifest from being used. -/
theorem validate_graph_returns (surroundings : Surroundings) (catalog : FieldCatalog)
    {manifest : ManifestFile.Manifest} {name : String} (h : GraphReference manifest name)
    {content bytes : List UInt8} (hfile : files manifestFile = some content)
    (hencoded : manifestBytes manifest = .ok content) (hname : manifest.hnswName = some name)
    (hbytes : files name = some bytes) :
    (∃ valid, validateGraphBytes surroundings catalog manifest bytes = .ok valid) ∨
      (∃ message, validateGraphBytes surroundings catalog manifest bytes =
        .error message) ∧ ¬ surroundings.GraphOpens files := by
  obtain ⟨config, hconfig, -⟩ := default_hnsw_some catalog
  obtain ⟨checksum, hchecksum⟩ := Option.isSome_iff_exists.1 h.checksum
  obtain ⟨fingerprint, hfingerprint⟩ := Option.isSome_iff_exists.1 h.fingerprint
  obtain ⟨count, hcount⟩ := Option.isSome_iff_exists.1 h.count
  obtain ⟨sequence, hsequence⟩ := h.sequence
  unfold validateGraphBytes
  rw [hconfig, hchecksum, hfingerprint, hcount]
  dsimp only
  split
  · exact .inl ⟨false, rfl⟩
  · rw [hsequence]
    show (∃ valid, surroundings.openGraph bytes config sequence checksum count = .ok valid) ∨
      (∃ message, surroundings.openGraph bytes config sequence checksum count = .error message) ∧ _
    cases hopen : surroundings.openGraph bytes config sequence checksum count with
    | ok hit => exact .inl ⟨hit, rfl⟩
    | error message =>
        refine .inr ⟨⟨message, rfl⟩, fun hgraphs => ?_⟩
        obtain ⟨hit, hhit⟩ := hgraphs content manifest name bytes hfile hencoded hname h.named
          hbytes config sequence checksum count
        rw [hopen] at hhit
        cases hhit

theorem committed_manifest_returns (surroundings : Surroundings)
    (h : HoldsCheckpoint c batches files covered manifest) :
    (∃ valid, committedManifest surroundings files c.catalog = .ok (manifest, valid)) ∨
      (∃ message, committedManifest surroundings files c.catalog = .error message) ∧
        ¬ surroundings.GraphOpens files := by
  unfold committedManifest
  cases h with
  | absent hnone =>
      rw [hnone]
      exact .inl ⟨false, rfl⟩
  | @present covered manifest bytes hfile hcommitted =>
      rw [hfile]
      have hload := hcommitted.load hfile
      have hgraph : (∃ valid, validateCommittedGraph surroundings files c.catalog
          manifest = .ok valid) ∨ (∃ message, validateCommittedGraph surroundings files
            c.catalog manifest = .error message) ∧ ¬ surroundings.GraphOpens files := by
        unfold validateCommittedGraph
        cases hbytes : manifest.hnswName.bind files with
        | none => exact .inl ⟨false, rfl⟩
        | some bytes =>
            obtain ⟨name, hname, hgraph⟩ := Option.bind_eq_some_iff.1 hbytes
            exact validate_graph_returns surroundings c.catalog
              (constructed_reference hcommitted.constructed hname) hfile hcommitted.encoded hname
              hgraph
      rcases hgraph with ⟨valid, hvalid⟩ | ⟨⟨message, hmessage⟩, hclosed⟩
      · exact .inl ⟨valid, bind_ok.2 ⟨manifest, hload,
          bind_ok.2 ⟨valid, hvalid, rfl⟩⟩⟩
      · refine .inr ⟨⟨message, ?_⟩, hclosed⟩
        rw [hload]
        show (validateCommittedGraph surroundings files c.catalog manifest >>= _) = _
        rw [hmessage]
        rfl

/-! ## The preflight -/

/-- What `open` finds in a directory that holds a history. -/
structure Found (c : Collection) (batches : List (List PointMutation)) (covered : Nat)
    (manifest : Option ManifestFile.Manifest) (body tail : List UInt8) (files : Files)
    (found : PointStore.Preflight) : Prop where
  catalog_eq : found.catalog = c.catalog
  recovers : Recovers c batches covered body tail found.recovered
  manifest_eq : found.manifest = manifest
  checkpoint_eq : found.recovered.pointCheckpoint = manifest.isSome
  publishes_iff : found.publishes = true ↔ files collectionFile = none
  expected_eq : found.publishes = true → found.expected = []

/-- A directory without an identity is recovered as an empty one. -/
theorem Holds.unpublished (h : Holds c batches covered manifest body tail files)
    (hidentity : files collectionFile = none) (surroundings : Surroundings) :
    ∃ recovered, recoverUnpublished surroundings files c.fields c.catalog none =
        .ok (c.catalog, recovered) ∧
      Recovers c batches covered body tail recovered ∧
      recovered.pointCheckpoint = manifest.isSome := by
  obtain ⟨hmanifest, hwal, rfl⟩ : files manifestFile = none ∧ files walFile = none ∧
      batches = [] := by
    rcases h.identity with hsome | ⟨-, hrest⟩
    · rw [hidentity] at hsome
      cases hsome
    · exact hrest
  obtain ⟨rfl, rfl⟩ : manifest = none ∧ covered = 0 := by
    cases h.checkpoint with
    | absent => exact ⟨rfl, rfl⟩
    | present hfile =>
        rw [hmanifest] at hfile
        cases hfile
  have hempty : body ++ tail = [] := by
    rw [← h.wal, walSource, hwal]
    rfl
  obtain ⟨rfl, rfl⟩ := List.append_eq_nil_iff.1 hempty
  obtain ⟨config, hconfig, hdimension⟩ := default_hnsw_some c.catalog
  obtain ⟨replay, hsparse, hrecords, hrepair⟩ := preflight_sparse_empty h.sparse
  obtain ⟨table, htable, hshows, hwriter, hcheckpoint⟩ := point_table_from_empty c replay
  rw [← hdimension] at htable
  have hreader : WalReader.start (files walFile) config.dimension =
      .ok ⟨.start [], config.dimension, 0, true, false, 0⟩ := by
    rw [hwal]
    rfl
  have hend : WalReader.next surroundings.chunk ⟨.start [], config.dimension, 0, true, false, 0⟩ =
      .ok ([], ⟨.start [], config.dimension, 0, true, false, 0⟩) := rfl
  have hlegacy := preflight_legacy_empty hend hmanifest hsparse hrecords Nat.zero_lt_one
    config.dimension
  refine ⟨⟨table, replay, 0, 0, 0, 0, false⟩, ?_, ⟨hshows, hwriter, hcheckpoint, rfl, rfl, hrepair⟩,
    rfl⟩
  unfold recoverUnpublished
  rw [hconfig]
  refine bind_ok.2 ⟨(), ?_, bind_ok.2 ⟨_, bind_ok.2 ⟨_, hreader, hlegacy⟩,
    bind_ok.2 ⟨c.catalog, c.created, bind_ok.2 ⟨table, htable, rfl⟩⟩⟩⟩
  refine require_ok.2 fun hboth => ?_
  rw [hwal, hmanifest] at hboth
  simp at hboth

theorem preflight_end (surroundings : Surroundings)
    (h : HoldsCheckpoint c batches files covered manifest) (recovered : PointRecovery)
    (expected : List UInt8) (publishes : Bool) :
    (∃ valid, (committedManifest surroundings files c.catalog >>= fun committed =>
        pure ⟨c.catalog, recovered, expected, publishes, committed.1, committed.2⟩) =
          .ok (PointStore.Preflight.mk c.catalog recovered expected publishes manifest valid)) ∨
      (∃ message, (committedManifest surroundings files c.catalog >>= fun committed =>
        pure (PointStore.Preflight.mk c.catalog recovered expected publishes committed.1
          committed.2)) = .error message) ∧ ¬ surroundings.GraphOpens files := by
  rcases committed_manifest_returns surroundings h with ⟨valid, hvalid⟩ |
    ⟨⟨message, hmessage⟩, hclosed⟩
  · exact .inl ⟨valid, bind_ok.2 ⟨_, hvalid, rfl⟩⟩
  · refine .inr ⟨⟨message, ?_⟩, hclosed⟩
    rw [hmessage]
    rfl

/-- The history of a directory is found, unless a graph cannot be opened. -/
theorem preflight_holds (h : Holds c batches covered manifest body tail files)
    (surroundings : Surroundings) :
    (∃ found, preflight surroundings files c.fields c.catalog = .ok found ∧
      Found c batches covered manifest body tail files found) ∨
    (∃ message, preflight surroundings files c.fields c.catalog = .error message) ∧
      ¬ surroundings.GraphOpens files := by
  cases hidentity : files collectionFile with
  | none =>
      obtain ⟨recovered, hrecovered, hrecovers, hcheckpoint⟩ := h.unpublished hidentity surroundings
      have hpreflight : preflight surroundings files c.fields c.catalog =
          committedManifest surroundings files c.catalog >>= fun committed =>
            pure ⟨c.catalog, recovered, [], true, committed.1, committed.2⟩ := by
        unfold preflight existingIdentity
        rw [hidentity]
        show (recoverUnpublished surroundings files c.fields c.catalog none >>= _) = _
        rw [hrecovered]
        rfl
      rw [hpreflight]
      rcases preflight_end surroundings h.checkpoint recovered [] true with ⟨valid, hvalid⟩ | herror
      · exact .inl ⟨_, hvalid, rfl, hrecovers, rfl, hcheckpoint, by simp [hidentity], fun _ => rfl⟩
      · exact .inr herror
  | some bytes =>
      obtain rfl : bytes = c.identity := by
        rcases h.identity with hsome | ⟨hnone, -⟩
        · exact Option.some.inj (hidentity.symm.trans hsome)
        · rw [hidentity] at hnone
          cases hnone
      obtain ⟨recovered, hrecovered, hrecovers, hcheckpoint⟩ := h.authority surroundings.chunk
      have hsome : existingIdentity files = .ok (some (c.identity, c.catalog)) := by
        unfold existingIdentity readFileBounded readFile
        rw [hidentity]
        simp only [bind_ok, exists_unit, require_ok, pure_ok]
        exact ⟨c.identity, ⟨c.identity, rfl, Nat.not_lt.2 c.identity_length_le, rfl⟩, c.catalog,
          c.decoded, rfl⟩
      have hcommitted : recoverPublished surroundings files c.fields c.identity
          c.catalog = .ok (c.catalog, recovered) := by
        unfold recoverPublished
        exact bind_ok.2 ⟨c.catalog, c.matched, bind_ok.2 ⟨c.identity, c.encoded,
          bind_ok.2 ⟨(), require_ok.2 rfl, bind_ok.2 ⟨recovered, hrecovered, rfl⟩⟩⟩⟩
      have hfalse : decide (c.catalog.formatVersion = 1) = false := by
        rw [c.version_eq]
        rfl
      have hpreflight : preflight surroundings files c.fields c.catalog =
          committedManifest surroundings files c.catalog >>= fun committed =>
            pure ⟨c.catalog, recovered, c.identity, false, committed.1, committed.2⟩ := by
        unfold preflight
        rw [hsome]
        show (if decide (c.catalog.formatVersion = 1) = true then _ else
          recoverPublished surroundings files c.fields c.identity c.catalog >>= _) = _
        rw [hfalse, if_neg Bool.false_ne_true, hcommitted]
        rfl
      rw [hpreflight]
      rcases preflight_end surroundings h.checkpoint recovered c.identity false with
        ⟨valid, hvalid⟩ | herror
      · refine .inl ⟨_, hvalid, rfl, hrecovers, rfl, hcheckpoint, by simp [hidentity],
          fun hcontra => ?_⟩
        cases hcontra
      · exact .inr herror

end

end Akasha.Storage

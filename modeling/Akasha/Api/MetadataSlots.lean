import Akasha.Api.Rebuild
import Akasha.Index.MetadataCache
import Akasha.Query.IndexEvaluator
import Akasha.Storage.IndexCache

/-!
# Slots of the table and of the metadata index

A filter selects slots of the metadata index, and a search reads the rows of the table at these
slots. The two are written by separate calls, in an order of its own in each write path, and after
a restart the metadata index may come from its cache. `IndexedCollection` is a collection with its
metadata index and its cache file; `Aligned` is what every write, publication and restart keeps.
-/

namespace Akasha.Api

open Lib Storage Index Query MemTable List

variable {V : Type}

/-- A collection with its metadata index. `cacheSource` is not stored anywhere: it is the bytes
whose checksum the cache file carries. -/
structure IndexedCollection (V : Type) where
  collection : Collection V
  metadata : MetadataIndex
  cache : Option CacheArtifact
  cacheSource : List UInt8

/-! ## Opening -/

/-- `_build_metadata`. -/
def buildMetadata (table : MemTable) : Except String MetadataIndex := do
  let begun ← MetadataIndex.empty.beginBulk
  let written ← begun.writeSlots table.slots
  let index ← written.finishBulk
  require (index.slotCount = table.slotCount) "metadata index and memtable slot alignment failed"
  pure index

/-- A cached index, if it can be read and has the counts of the table. -/
def restoreMetadata (payload : List UInt8) (table : MemTable) : Except String MetadataIndex := do
  let decoded ← MetadataIndex.decodeCachePayload payload
  require (decoded.slotCount = table.slotCount ∧ decoded.live.count = table.liveCount)
    "metadata cache slot alignment mismatch"
  pure decoded

/-- `_load_or_build_metadata_cache`. Every failure of the cache is a miss; the rebuilt index is
published by a step of its own. -/
def loadOrBuildMetadata (cache : Option CacheArtifact) (dimension generation sequence : Nat)
    (checksum : UInt32) (table : MemTable) : Except String MetadataIndex :=
  match (loadCachePayload cache cacheMetadataKind dimension generation sequence checksum).bind
      fun payload => (restoreMetadata payload table).toOption with
  | some index => pure index
  | none => buildMetadata table

namespace IndexedCollection

/-- `open_with_config`, once the table is recovered. -/
def openLegacy (config : ReadConfig) (table : MemTable) (sequence generation : Nat)
    (cache : Option CacheArtifact) (cacheSource : List UInt8) :
    Except String (IndexedCollection V) := do
  let checksum ← authoritativeIndexChecksum table
  let metadata ← loadOrBuildMetadata cache config.dimension generation sequence checksum table
  pure ⟨⟨config, .start table sequence, none, none⟩, metadata, cache, cacheSource⟩

/-- `open_with_fields`, once the points are recovered. Its metadata index is never cached. -/
def openPoints (config : ReadConfig) (points : PointTable) (cache : Option CacheArtifact)
    (cacheSource : List UInt8) : Except String (IndexedCollection V) := do
  let metadata ← buildMetadata points.readProjection
  pure ⟨⟨config, .start points.readProjection points.lastSequence, some points, none⟩, metadata,
    cache, cacheSource⟩

/-- The metadata part of `_publish_index_caches_best_effort`. -/
def publishCache (indexed : IndexedCollection V) (generation : Nat) :
    Except String (IndexedCollection V) :=
  match indexed.collection.points with
  | some _ => pure indexed
  | none => do
      let bytes ← authoritativeIndexBytes indexed.collection.reader.table
      let payload ← indexed.metadata.encodeCachePayload
      let artifact : CacheArtifact := ⟨cacheMetadataKind, indexed.collection.config.dimension,
        generation, indexed.collection.reader.sequence, crc32 bytes, payload⟩
      artifact.validate
      pure { indexed with cache := some artifact, cacheSource := bytes }

/-! ## Writing -/

/-- The metadata calls of `_apply_point_batch_unlocked`. -/
def writePoints (points : PointTable) (metadata : MetadataIndex) :
    List Int64 → Except String MetadataIndex
  | [] => pure metadata
  | id :: ids => do
      let point ← points.entry id
      let next ← metadata.writeSlot (MemTableEntry.fromPoint point).slot
      writePoints points next ids

/-- The metadata calls of `_apply_batch_unlocked`: a first batch is loaded in bulk. -/
def writeStaged (metadata : MetadataIndex) (staged : MemTable) : Except String MetadataIndex :=
  if metadata.slotCount = 0 then do
    let begun ← metadata.beginBulk
    let written ← begun.writeSlots staged.slots
    written.finishBulk
  else metadata.writeSlots staged.slots

/-- The points that a mutation is about, by first appearance. -/
def mutatedIds : CollectionMutation → List Int64
  | .upsertDocument id _ _ => [id]
  | .delete id => [id]
  | .upsertSparse id _ => [id]
  | .applyBatch mutations => distinctIds [] (mutations.map (·.id))
  | .applyPointBatch mutations => distinctIds [] (mutations.map (·.id))

/-- The metadata calls of a write in the old format. -/
def writeLegacy (indexed : IndexedCollection V) :
    CollectionMutation → Except String MetadataIndex
  | .upsertDocument id _ fields => indexed.metadata.upsert id fields
  | .delete id => indexed.metadata.delete id
  | .upsertSparse _ _ => pure indexed.metadata
  | .applyBatch mutations => do
      let table := indexed.collection.reader.table
      let staged ← stageFrom table (.empty table.dimension) []
        (indexed.collection.reader.sequence + 1) mutations
      writeStaged indexed.metadata staged.1
  | .applyPointBatch _ => throw "point mutations require a field-aware collection"

/-- The metadata calls of a write that takes the collection to `next`. -/
def writeMetadata (indexed : IndexedCollection V) (next : Collection V)
    (mutation : CollectionMutation) : Except String MetadataIndex :=
  match next.points with
  | some points => writePoints points indexed.metadata (mutatedIds mutation)
  | none => indexed.writeLegacy mutation

/-- A write of the collection and of its metadata index. -/
def mutate (indexed : IndexedCollection V) (logged : Except String Unit)
    (mutation : CollectionMutation) : Except String (IndexedCollection V) := do
  let next ← indexed.collection.mutate logged mutation
  let metadata ← indexed.writeMetadata next mutation
  pure { indexed with collection := next, metadata := metadata }

end IndexedCollection

/-- The floats of the payloads of a mutation were made by their constructor. -/
def CollectionMutation.Constructed : CollectionMutation → Prop
  | .upsertDocument _ _ fields => ∀ field ∈ fields, field.value.Valid
  | .applyBatch mutations => ∀ mutation ∈ mutations, ∀ field ∈ mutation.fields, field.value.Valid
  | _ => True

/-- What recovery ensures of a table of the old format. -/
structure Recovered (config : ReadConfig) (table : MemTable) (sequence : Nat) : Prop where
  well_formed : table.WellFormed
  dimension_pos : 0 < table.dimension
  dimension_eq : config.dimension = table.dimension
  sequences_le : SequencesLe table sequence
  rows : table.Rows

/-- The source checksum of the cache is not that of a recovered table with other bytes. -/
def SourceDistinct (indexed : IndexedCollection V) (table : MemTable) : Prop :=
  ∀ bytes, authoritativeIndexBytes table = .ok bytes →
    crc32 bytes = crc32 indexed.cacheSource → bytes = indexed.cacheSource

/-- What any run reaches: opening, writes, the other steps of a collection, publications of the
cache and restarts. A restart of the old format recovers any table for which `Restart` holds. -/
inductive IndexedReachable (prepare : List F32 → Except String V)
    (Restart : IndexedCollection V → MemTable → Prop) : IndexedCollection V → Prop where
  | start {config : ReadConfig} {table : MemTable} {sequence generation : Nat}
      {indexed : IndexedCollection V} (hrecovered : Recovered config table sequence)
      (hopen : IndexedCollection.openLegacy config table sequence generation none [] =
        .ok indexed) :
      IndexedReachable prepare Restart indexed
  | startPoints {config : ReadConfig} {points : PointTable} {indexed : IndexedCollection V}
      (hvalid : points.Valid)
      (hopen : IndexedCollection.openPoints config points none [] = .ok indexed) :
      IndexedReachable prepare Restart indexed
  | mutate {indexed next : IndexedCollection V} (h : IndexedReachable prepare Restart indexed)
      (mutation : CollectionMutation) (logged : Except String Unit)
      (hconstructed : mutation.Constructed) (hrun : indexed.mutate logged mutation = .ok next) :
      IndexedReachable prepare Restart next
  /-- A step of the readers or of a rebuild. -/
  | background {indexed : IndexedCollection V} {next : Collection V}
      (h : IndexedReachable prepare Restart indexed)
      (hstep : CollectionStep prepare indexed.collection next)
      (hconfig : next.config = indexed.collection.config)
      (htable : next.reader.table = indexed.collection.reader.table)
      (hpoints : next.points = indexed.collection.points) :
      IndexedReachable prepare Restart { indexed with collection := next }
  | publish {indexed next : IndexedCollection V} (h : IndexedReachable prepare Restart indexed)
      (generation : Nat) (hrun : indexed.publishCache generation = .ok next) :
      IndexedReachable prepare Restart next
  | reopen {indexed next : IndexedCollection V} {config : ReadConfig} {table : MemTable}
      {sequence generation : Nat} (h : IndexedReachable prepare Restart indexed)
      (hrecovered : Recovered config table sequence) (hrestart : Restart indexed table)
      (hopen : IndexedCollection.openLegacy config table sequence generation indexed.cache
        indexed.cacheSource = .ok next) :
      IndexedReachable prepare Restart next
  | reopenPoints {indexed next : IndexedCollection V} {config : ReadConfig} {points : PointTable}
      (h : IndexedReachable prepare Restart indexed) (hvalid : points.Valid)
      (hopen : IndexedCollection.openPoints config points indexed.cache indexed.cacheSource =
        .ok next) :
      IndexedReachable prepare Restart next

/-! ## Writes -/

/-- The index shows the slots of the table. -/
structure Matches (table : MemTable) (metadata : MetadataIndex) : Prop where
  consistent : metadata.Consistent
  loaded : metadata.bulkLoading = false
  slots_eq : metadata.slots = table.slots

variable {points : PointTable}

section

variable {table next : MemTable} {metadata written : MetadataIndex}

theorem matches_put (h : Matches table metadata) (hwf : table.WellFormed) {entry : MemTableEntry}
    (hrun : metadata.writeSlot entry.slot = .ok written) :
    Matches (table.put entry) written := by
  obtain ⟨hconsistent, hslots, hbulk⟩ := MetadataIndex.write_slot_ok entry.slot h.consistent hrun
  refine ⟨hconsistent, hbulk.trans h.loaded, ?_⟩
  rw [hslots, put_slots hwf, h.slots_eq]

theorem matches_put_points {ids : List Int64} (h : Matches table metadata)
    (hwf : table.WellFormed) (hput : Collection.putPoints points table ids = .ok next)
    (hrun : IndexedCollection.writePoints points metadata ids = .ok written) :
    Matches next written := by
  induction ids generalizing table metadata with
  | nil =>
      obtain rfl := pure_ok.1 hput
      obtain rfl := pure_ok.1 hrun
      exact h
  | cons id ids ih =>
      simp only [Collection.putPoints, bind_ok] at hput
      simp only [IndexedCollection.writePoints, bind_ok] at hrun
      obtain ⟨point, hpoint, hput⟩ := hput
      obtain ⟨point', hpoint', middle, hwrite, hrun⟩ := hrun
      obtain rfl := Except.ok.inj (hpoint.symm.trans hpoint')
      exact ih (matches_put h hwf hwrite) (put_spec hwf _).1 hput hrun

theorem put_all_slots (hwf : table.WellFormed) (staged : MemTable) :
    (putAll table staged).slots = staged.slots.foldl (putBy Prod.fst) table.slots := by
  unfold putAll slots
  rw [foldl_map]
  generalize staged.entries = entries
  induction entries generalizing table with
  | nil => rfl
  | cons entry entries ih =>
      obtain ⟨hput, -⟩ := put_spec hwf entry
      rw [foldl_cons, foldl_cons]
      refine (ih hput).trans ?_
      congr 1
      exact put_slots hwf entry

theorem matches_staged {staged : MemTable} (h : Matches table metadata) (hwf : table.WellFormed)
    (hrun : IndexedCollection.writeStaged metadata staged = .ok written) :
    Matches (putAll table staged) written := by
  unfold IndexedCollection.writeStaged at hrun
  split at hrun
  · simp only [bind_ok] at hrun
    obtain ⟨begun, hbegin, middle, hwrite, hfinish⟩ := hrun
    obtain ⟨hbegun, hbegunSlots, -⟩ := MetadataIndex.begin_bulk_slots h.consistent hbegin
    obtain ⟨hmiddle, hslots, -⟩ := MetadataIndex.write_slots_ok hbegun hwrite
    obtain ⟨hwritten, hwrittenSlots, hbulk⟩ := MetadataIndex.finish_bulk_slots hmiddle hfinish
    refine ⟨hwritten, hbulk, ?_⟩
    rw [hwrittenSlots, hslots, hbegunSlots, h.slots_eq, put_all_slots hwf]
  · obtain ⟨hwritten, hslots, hbulk⟩ := MetadataIndex.write_slots_ok h.consistent hrun
    refine ⟨hwritten, hbulk.trans h.loaded, ?_⟩
    rw [hslots, h.slots_eq, put_all_slots hwf]

theorem matches_build (hwf : table.WellFormed) (hrun : buildMetadata table = .ok metadata) :
    Matches table metadata := by
  simp only [buildMetadata, bind_ok, require_ok, exists_unit, pure_ok] at hrun
  obtain ⟨begun, hbegin, middle, hwrite, index, hfinish, -, rfl⟩ := hrun
  obtain ⟨hbegun, hbegunSlots, -⟩ :=
    MetadataIndex.begin_bulk_slots MetadataIndex.empty_consistent hbegin
  obtain ⟨hmiddle, hslots, -⟩ := MetadataIndex.write_slots_ok hbegun hwrite
  obtain ⟨hindex, hindexSlots, hbulk⟩ := MetadataIndex.finish_bulk_slots hmiddle hfinish
  refine ⟨hindex, hbulk, ?_⟩
  rw [hindexSlots, hslots, hbegunSlots]
  refine (fold_put_fresh [] _ ?_).trans (nil_append _)
  rw [nil_append, map_fst_slots]
  exact ids_nodup hwf

/-- A batch is staged as rows. -/
theorem stage_rows {staged : MemTable} {ids : List Int64} {sequence : Nat}
    {mutations : List BatchMutation} {out : MemTable × List Int64} (hrows : table.Rows)
    (hdim : 0 < table.dimension) (hwf : staged.WellFormed)
    (hdimension : staged.dimension = table.dimension) (hstaged : staged.Rows)
    (hvalid : ∀ mutation ∈ mutations, ∀ field ∈ mutation.fields, field.value.Valid)
    (hrun : stageFrom table staged ids sequence mutations = .ok out) :
    out.1.WellFormed ∧ out.1.dimension = table.dimension ∧ out.1.Rows := by
  induction mutations generalizing staged ids sequence with
  | nil =>
      obtain rfl := pure_ok.1 hrun
      exact ⟨hwf, hdimension, hstaged⟩
  | cons mutation mutations ih =>
      simp only [stageFrom, bind_ok] at hrun
      obtain ⟨middle, hstage, hrest⟩ := hrun
      rw [forall_mem_cons] at hvalid
      -- A change of a table of rows, with the table's dimension.
      have hchange : ∀ {before after : MemTable} (change : MemTable.Change), before.WellFormed →
          before.dimension = table.dimension → before.Rows → change.RowOk table.dimension →
          change.apply before = .ok after →
          after.WellFormed ∧ after.dimension = table.dimension ∧ after.Rows := by
        intro before after change hbefore hd hr hok happly
        obtain ⟨hafter, hd', -⟩ := change_apply_ok hbefore (hd ▸ hdim) happly
        exact ⟨hafter, hd'.trans hd,
          change_rows change hbefore (hd ▸ hdim) hr (hd ▸ hok) happly⟩
      have hmiddle : middle.WellFormed ∧ middle.dimension = table.dimension ∧ middle.Rows := by
        unfold stageMutation at hstage
        generalize hseed : (if mutation.id ∈ ids then staged else _) = seeded at hstage
        have hseeded : seeded.WellFormed ∧ seeded.dimension = table.dimension ∧ seeded.Rows := by
          split at hseed
          · exact hseed ▸ ⟨hwf, hdimension, hstaged⟩
          · cases hstate : table.state mutation.id with
            | none =>
                rw [hstate] at hseed
                exact hseed ▸ ⟨hwf, hdimension, hstaged⟩
            | some entry =>
                rw [hstate] at hseed
                exact hseed ▸ hchange (.put entry) hwf hdimension hstaged
                  (hrows _ _ hstate) rfl
        obtain ⟨hseededWf, hseededDim, hseededRows⟩ := hseeded
        split at hstage
        · exact hchange (.delete mutation.id sequence) hseededWf hseededDim hseededRows
            trivial hstage
        · exact hchange (.upsert mutation.id sequence mutation.values mutation.fields)
            hseededWf hseededDim hseededRows hvalid.1 hstage
      exact ih hmiddle.1 hmiddle.2.1 hmiddle.2.2 hvalid.2 hrest

theorem put_all_rows (staged : MemTable) (hwf : table.WellFormed) (hdim : 0 < table.dimension)
    (hrows : table.Rows) (hstaged : ∀ entry ∈ staged.entries, entry.Row table.dimension) :
    (putAll table staged).dimension = table.dimension ∧ (putAll table staged).Rows := by
  unfold putAll
  generalize staged.entries = entries at hstaged
  induction entries generalizing table with
  | nil => exact ⟨rfl, hrows⟩
  | cons entry entries ih =>
      rw [forall_mem_cons] at hstaged
      have hrun : MemTable.Change.apply table (.put entry) = .ok (table.put entry) := rfl
      obtain ⟨hput, hd, -⟩ := change_apply_ok hwf hdim hrun
      have hputRows := change_rows (.put entry) hwf hdim hrows hstaged.1 hrun
      obtain ⟨hd', hrows'⟩ := ih hput (hd ▸ hdim) hputRows (hd ▸ hstaged.2)
      exact ⟨hd'.trans hd, hrows'⟩

end

/-! ## One mutation -/

variable {logged : Except String Unit} {mutation : CollectionMutation}

section

variable {prepare : List F32 → Except String V} {indexed : IndexedCollection V}
  {next : Collection V} {written : MetadataIndex}

theorem point_batch_matches (h : indexed.collection.Valid prepare)
    (hmatches : Matches indexed.collection.reader.table indexed.metadata)
    {mutations : List PointMutation}
    (hrun : indexed.collection.applyPointBatch points logged mutations = .ok next) :
    ∃ after, next.points = some after ∧ next.config = indexed.collection.config ∧
      ∀ written, IndexedCollection.writePoints after indexed.metadata
        (distinctIds [] (mutations.map (·.id))) = .ok written →
        Matches next.reader.table written := by
  unfold Collection.applyPointBatch at hrun
  split at hrun
  · cases hrun
  · rename_i after committed happend
    simp only [bind_ok, pure_ok] at hrun
    obtain ⟨table, htable, rfl⟩ := hrun
    exact ⟨after, rfl, rfl, fun written hwrite =>
      matches_put_points hmatches h.reader_valid.table_wf htable hwrite⟩

/-- A write of a collection of points writes both. -/
theorem mutate_points_matches (h : indexed.collection.Valid prepare)
    (hmatches : Matches indexed.collection.reader.table indexed.metadata)
    (hpoints : indexed.collection.points = some points)
    (hrun : indexed.collection.mutate logged mutation = .ok next) :
    ∃ after, next.points = some after ∧ next.config = indexed.collection.config ∧
      ∀ written, IndexedCollection.writePoints after indexed.metadata
        (IndexedCollection.mutatedIds mutation) = .ok written →
        Matches next.reader.table written := by
  cases mutation with
  | upsertDocument id values fields =>
      simp only [Collection.mutate, Collection.upsertDocument, hpoints, bind_ok,
        exists_unit] at hrun
      exact point_batch_matches h hmatches hrun.2
  | delete id =>
      simp only [Collection.mutate, Collection.delete, hpoints] at hrun
      exact point_batch_matches h hmatches hrun
  | upsertSparse id elements =>
      simp only [Collection.mutate, Collection.upsertSparse, hpoints, bind_ok,
        exists_unit] at hrun
      exact point_batch_matches h hmatches hrun.2.2
  | applyBatch mutations =>
      simp only [Collection.mutate, Collection.applyBatch, hpoints, bind_ok,
        exists_unit] at hrun
      obtain ⟨-, -, -, -, hrun⟩ := hrun
      have hids : (mutations.map Collection.batchPoint).map (·.id) = mutations.map (·.id) := by
        rw [map_map]
        refine map_congr_left fun mutation _ => ?_
        show (Collection.batchPoint mutation).id = mutation.id
        unfold Collection.batchPoint
        split <;> rfl
      have hbatch := point_batch_matches h hmatches hrun
      rwa [hids] at hbatch
  | applyPointBatch mutations =>
      simp only [Collection.mutate, hpoints] at hrun
      exact point_batch_matches h hmatches hrun

/-- A write in the old format writes both, and keeps rows. -/
theorem mutate_legacy_matches (h : indexed.collection.Valid prepare)
    (hmatches : Matches indexed.collection.reader.table indexed.metadata)
    (hnone : indexed.collection.points = none) (hrows : indexed.collection.reader.table.Rows)
    (hconstructed : mutation.Constructed)
    (hrun : indexed.collection.mutate logged mutation = .ok next) :
    next.points = none ∧ next.config = indexed.collection.config ∧
      next.reader.table.dimension = indexed.collection.reader.table.dimension ∧
      next.reader.table.Rows ∧ ∀ written, indexed.writeLegacy mutation = .ok written →
        Matches next.reader.table written := by
  have hwf := h.reader_valid.table_wf
  have hdim := h.reader_valid.dimension_pos
  -- The next sequence is newer than every entry.
  have hnew : ∀ id entry, indexed.collection.reader.table.state id = some entry →
      entry.sequence < indexed.collection.reader.sequence + 1 := fun id entry hentry =>
    Nat.lt_succ_of_le (h.sequences_le id entry hentry).1
  cases mutation with
  | upsertDocument id values fields =>
      simp only [Collection.mutate, Collection.upsertDocument, hnone, bind_ok,
        exists_unit, pure_ok] at hrun
      obtain ⟨-, sequence, hsequence, -, table, happly, rfl⟩ := hrun
      obtain rfl := Collection.next_sequence_ok hsequence
      obtain ⟨-, hd, -⟩ := apply_document_upsert_ok hwf hdim happly
      refine ⟨hnone, rfl, hd, change_rows (.upsert id _ values fields) hwf hdim hrows
        hconstructed happly, fun written hwrite => ?_⟩
      obtain ⟨hconsistent, hslots, hbulk⟩ :=
        MetadataIndex.write_slot_ok (id, some fields) hmatches.consistent hwrite
      refine ⟨hconsistent, hbulk.trans hmatches.loaded, ?_⟩
      rw [hslots, hmatches.slots_eq]
      exact (upsert_slots hwf hdim (hnew id) happly).symm
  | delete id =>
      simp only [Collection.mutate, Collection.delete, hnone, bind_ok, exists_unit,
        pure_ok] at hrun
      obtain ⟨sequence, hsequence, -, table, happly, rfl⟩ := hrun
      obtain rfl := Collection.next_sequence_ok hsequence
      obtain ⟨-, hd, -⟩ := apply_delete_ok hwf happly
      refine ⟨hnone, rfl, hd, change_rows (.delete id _) hwf hdim hrows trivial
        happly, fun written hwrite => ?_⟩
      obtain ⟨hconsistent, hslots, hbulk⟩ :=
        MetadataIndex.write_slot_ok (id, none) hmatches.consistent hwrite
      refine ⟨hconsistent, hbulk.trans hmatches.loaded, ?_⟩
      rw [hslots, hmatches.slots_eq]
      exact (delete_slots hwf (hnew id) happly).symm
  | upsertSparse id elements =>
      simp only [Collection.mutate, Collection.upsertSparse, hnone, bind_ok,
        exists_unit, pure_ok] at hrun
      obtain ⟨-, -, sequence, hsequence, -, table, happly, rfl⟩ := hrun
      obtain ⟨-, hd, -⟩ := set_sparse_ok hwf happly
      refine ⟨hnone, rfl, hd, change_rows (.setSparse id elements) hwf hdim
        hrows trivial happly, fun written hwrite => ?_⟩
      obtain rfl := pure_ok.1 hwrite
      refine ⟨hmatches.consistent, hmatches.loaded, ?_⟩
      exact hmatches.slots_eq.trans (set_sparse_slots hwf happly).symm
  | applyBatch mutations =>
      simp only [Collection.mutate, Collection.applyBatch, hnone, bind_ok, exists_unit,
        pure_ok] at hrun
      obtain ⟨-, -, -, -, staged, hstaged, -, rfl⟩ := hrun
      have hempty : ∀ id, (empty indexed.collection.reader.table.dimension).state id =
          none := by
        intro id
        simp [state, slotFor, ordinalFor, empty]
      obtain ⟨hstagedWf, hstagedDim, hstagedRows⟩ := stage_rows hrows hdim
        (empty_well_formed _) rfl (fun id entry hentry => by
          rw [hempty] at hentry
          cases hentry) hconstructed hstaged
      have hall := put_all_rows staged.1 hwf hdim hrows fun entry hentry => by
        rw [← hstagedDim]
        exact hstagedRows entry.id entry ((state_eq_some_iff hstagedWf).2 ⟨hentry, rfl⟩)
      refine ⟨hnone, rfl, hall.1, hall.2, fun written hwrite => ?_⟩
      simp only [IndexedCollection.writeLegacy, bind_ok] at hwrite
      obtain ⟨staged', hstaged', hwrite⟩ := hwrite
      obtain rfl := Except.ok.inj (hstaged.symm.trans hstaged')
      exact matches_staged hmatches hwf hwrite
  | applyPointBatch mutations => simp [Collection.mutate, hnone] at hrun

end

/-! ## What matching slots mean -/

section

variable {table : MemTable} {metadata : MetadataIndex}

theorem matches_entry (h : Matches table metadata) {ordinal : Nat} {entry : MemTableEntry}
    (hentry : table.entries[ordinal]? = some entry) :
    metadata.ids[ordinal]? = some entry.id ∧ metadata.live.has ordinal = !entry.tombstone ∧
      (entry.tombstone = false → metadata.fieldsAt ordinal = entry.payload) := by
  have hslot : metadata.slots[ordinal]? = some entry.slot := by
    rw [h.slots_eq, slots, List.getElem?_map, hentry]
    rfl
  rw [MetadataIndex.slots_get] at hslot
  obtain ⟨id, hid, heq⟩ := Option.map_eq_some_iff.1 hslot
  obtain ⟨rfl, hcontent⟩ := Prod.mk.inj heq
  refine ⟨hid, ?_⟩
  unfold MetadataIndex.contentAt at hcontent
  cases hlive : metadata.live.has ordinal <;> cases hdead : entry.tombstone <;>
    simp_all

theorem matches_count (h : Matches table metadata) : metadata.slotCount = table.slotCount := by
  have hlength := congrArg List.length h.slots_eq
  rwa [← length_map (f := Prod.fst), MetadataIndex.map_fst_slots, slots,
    length_map] at hlength

theorem matches_live (h : Matches table metadata) (ordinal : Nat) :
    metadata.live.has ordinal = (table.entries[ordinal]?).any (!·.tombstone) := by
  cases hentry : table.entries[ordinal]? with
  | some entry => exact (matches_entry h hentry).2.1
  | none =>
      have hlength : metadata.ids.length = table.entries.length := matches_count h
      have hge := List.getElem?_eq_none_iff.1 hentry
      refine h.consistent.live_well_formed.tail_clear ordinal ?_
      rw [h.consistent.live_size, hlength]
      exact hge

theorem matches_valid (h : Matches table metadata) (hwf : table.WellFormed) (hrows : table.Rows)
    (ordinal : Nat) : ∀ field ∈ metadata.fieldsAt ordinal, field.value.Valid := by
  cases hlive : metadata.live.has ordinal with
  | false =>
      rw [h.consistent.dead_empty ordinal hlive]
      exact nofun
  | true =>
      rw [matches_live h, Option.any_eq_true] at hlive
      obtain ⟨entry, hentry, hdead⟩ := hlive
      have hpayload := (matches_entry h hentry).2.2 (by simpa using hdead)
      have hrow := hrows entry.id entry
        ((state_eq_some_iff hwf).2 ⟨mem_of_getElem? hentry, rfl⟩)
      rw [hpayload]
      exact hrow.payload_valid

theorem matches_select (h : Matches table metadata) {expression : FilterExpression}
    (hvalid : expression.validate = .ok ()) :
    ∃ bitmap, evaluateExpression metadata expression = .ok bitmap ∧ ∀ ordinal,
      bitmap.has ordinal = (table.entries[ordinal]?).any fun entry =>
        !entry.tombstone && expression.holds entry.payload := by
  obtain ⟨bitmap, hrun, hselects⟩ :=
    evaluate_expression_selects h.consistent hvalid (.inl h.loaded)
  refine ⟨bitmap, hrun, fun ordinal => ?_⟩
  rw [hselects.has_eq, matches_live h]
  cases hentry : table.entries[ordinal]? with
  | none => rfl
  | some entry =>
      cases hdead : entry.tombstone with
      | true => simp [hdead]
      | false => simp [hdead, (matches_entry h hentry).2.2 hdead]

end

/-! ## Runs -/

/-- A cache file that was written for the slots of a table. -/
structure CacheOf (artifact : CacheArtifact) (source : List UInt8) (table : MemTable)
    (metadata : MetadataIndex) : Prop where
  well_formed : table.WellFormed
  rows : table.Rows
  dimension_eq : artifact.dimension = table.dimension
  bytes_eq : authoritativeIndexBytes table = .ok source
  checksum_eq : artifact.sourceChecksum = crc32 source
  matched : Matches table metadata
  payload_eq : metadata.encodeCachePayload = .ok artifact.payload

/-- The collection is valid, its index matches its table, and so did the index in the cache when
it was written. -/
structure Aligned (prepare : List F32 → Except String V) (indexed : IndexedCollection V) :
    Prop where
  valid : indexed.collection.Valid prepare
  matched : Matches indexed.collection.reader.table indexed.metadata
  legacy : indexed.collection.points = none →
    indexed.collection.config.dimension = indexed.collection.reader.table.dimension ∧
      indexed.collection.reader.table.Rows
  cached : ∀ artifact, indexed.cache = some artifact →
    ∃ table metadata, CacheOf artifact indexed.cacheSource table metadata

section

variable {prepare : List F32 → Except String V} {indexed next : IndexedCollection V}

/-- A restored index matches a table with the bytes that the cache was written for. -/
theorem matches_restore {artifact : CacheArtifact} {source bytes payload : List UInt8}
    {cached table : MemTable} {stored metadata : MetadataIndex}
    {dimension generation sequence : Nat} (h : CacheOf artifact source cached stored)
    (hwf : table.WellFormed) (hrows : table.Rows) (hdimension : dimension = table.dimension)
    (hbytes : authoritativeIndexBytes table = .ok bytes)
    (hdistinct : crc32 bytes = crc32 source → bytes = source)
    (hload : loadCachePayload (some artifact) cacheMetadataKind dimension generation sequence
      (crc32 bytes) = some payload)
    (hrestore : restoreMetadata payload table = .ok metadata) : Matches table metadata := by
  simp only [loadCachePayload, Option.bind_eq_bind, Option.bind_some, Option.bind_eq_some_iff,
    guard_some, exists_unit] at hload
  obtain ⟨⟨-, hdim, -, -, hchecksum⟩, hpayload⟩ := hload
  obtain rfl := Option.some.inj hpayload
  rw [h.checksum_eq] at hchecksum
  obtain rfl := hdistinct hchecksum.symm
  have hslots : cached.slots = table.slots :=
    index_bytes_injective h.well_formed hwf h.rows hrows
      (h.dimension_eq.symm.trans (hdim.trans hdimension)) h.bytes_eq hbytes
  simp only [restoreMetadata, bind_ok, require_ok, exists_unit, pure_ok] at hrestore
  obtain ⟨decoded, hdecode, -, rfl⟩ := hrestore
  obtain ⟨hconsistent, hdecoded, hbulk⟩ := MetadataIndex.decode_encode_cache h.matched.consistent
    (matches_valid h.matched h.well_formed h.rows) h.payload_eq hdecode
  exact ⟨hconsistent, hbulk, by rw [hdecoded, h.matched.slots_eq, hslots]⟩

/-- Opening the old format, with a cache whose checksum does not collide. -/
theorem open_legacy_aligned {config : ReadConfig} {table : MemTable} {sequence generation : Nat}
    {cache : Option CacheArtifact} {source : List UInt8}
    (hrecovered : Recovered config table sequence)
    (hcached : ∀ artifact, cache = some artifact →
      ∃ table metadata, CacheOf artifact source table metadata)
    (hdistinct : ∀ artifact, cache = some artifact → ∀ bytes,
      authoritativeIndexBytes table = .ok bytes → crc32 bytes = crc32 source → bytes = source)
    (hopen : IndexedCollection.openLegacy config table sequence generation cache source =
      .ok next) : Aligned prepare next := by
  simp only [IndexedCollection.openLegacy, authoritativeIndexChecksum, bind_ok,
    pure_ok] at hopen
  obtain ⟨checksum, ⟨bytes, hbytes, rfl⟩, metadata, hmetadata, rfl⟩ := hopen
  refine ⟨Collection.reachable_valid (.legacy config table sequence hrecovered.well_formed
    hrecovered.dimension_pos hrecovered.sequences_le), ?_,
    fun _ => ⟨hrecovered.dimension_eq, hrecovered.rows⟩, hcached⟩
  unfold loadOrBuildMetadata at hmetadata
  split at hmetadata
  · rename_i index hindex
    obtain rfl := pure_ok.1 hmetadata
    obtain ⟨payload, hload, hrestore⟩ := Option.bind_eq_some_iff.1 hindex
    cases hcache : cache with
    | none => simp [hcache, loadCachePayload] at hload
    | some artifact =>
        obtain ⟨cached, stored, hof⟩ := hcached artifact hcache
        rw [hcache] at hload
        exact matches_restore hof hrecovered.well_formed hrecovered.rows hrecovered.dimension_eq
          hbytes (hdistinct artifact hcache bytes hbytes) hload (to_option_some.1 hrestore)
  · exact matches_build hrecovered.well_formed hmetadata

theorem open_points_aligned {config : ReadConfig} {cache : Option CacheArtifact}
    {source : List UInt8} (hvalid : points.Valid) (hcached : ∀ artifact, cache = some artifact →
      ∃ table metadata, CacheOf artifact source table metadata)
    (hopen : IndexedCollection.openPoints config points cache source = .ok next) :
    Aligned prepare next := by
  simp only [IndexedCollection.openPoints, bind_ok, pure_ok] at hopen
  obtain ⟨metadata, hmetadata, rfl⟩ := hopen
  have hcollection : Collection.Valid prepare
      ⟨config, .start points.readProjection points.lastSequence, some points, none⟩ :=
    Collection.reachable_valid (.points config points hvalid)
  exact ⟨hcollection, matches_build hcollection.reader_valid.table_wf hmetadata,
    (by intros; contradiction), hcached⟩

theorem mutate_aligned (h : Aligned prepare indexed) (hconstructed : mutation.Constructed)
    (hrun : indexed.mutate logged mutation = .ok next) : Aligned prepare next := by
  simp only [IndexedCollection.mutate, bind_ok, pure_ok] at hrun
  obtain ⟨collection, hcollection, metadata, hmetadata, rfl⟩ := hrun
  have hvalid := Collection.mutate_valid h.valid hcollection
  unfold IndexedCollection.writeMetadata at hmetadata
  cases hpoints : indexed.collection.points with
  | some points =>
      obtain ⟨after, hafter, hconfig, hmatches⟩ :=
        mutate_points_matches h.valid h.matched hpoints hcollection
      rw [hafter] at hmetadata
      refine ⟨hvalid, hmatches metadata hmetadata, fun hnone => ?_, h.cached⟩
      rw [show collection.points = some after from hafter] at hnone
      cases hnone
  | none =>
      obtain ⟨hdim, hrows⟩ := h.legacy hpoints
      obtain ⟨hnone, hconfig, hd, hrows', hmatches⟩ :=
        mutate_legacy_matches h.valid h.matched hpoints hrows hconstructed hcollection
      rw [hnone] at hmetadata
      refine ⟨hvalid, hmatches metadata hmetadata, fun _ => ⟨?_, hrows'⟩, h.cached⟩
      show collection.config.dimension = collection.reader.table.dimension
      rw [hconfig, hd, hdim]

theorem publish_aligned (h : Aligned prepare indexed) {generation : Nat}
    (hrun : indexed.publishCache generation = .ok next) : Aligned prepare next := by
  unfold IndexedCollection.publishCache at hrun
  split at hrun
  · obtain rfl := pure_ok.1 hrun
    exact h
  · rename_i hnone
    simp only [bind_ok, exists_unit, pure_ok] at hrun
    obtain ⟨bytes, hbytes, payload, hpayload, -, rfl⟩ := hrun
    obtain ⟨hdim, hrows⟩ := h.legacy hnone
    refine ⟨h.valid, h.matched, h.legacy, fun artifact hartifact => ?_⟩
    obtain rfl := Option.some.inj hartifact
    exact ⟨_, _, h.valid.reader_valid.table_wf, hrows, hdim, hbytes, rfl, h.matched, hpayload⟩

theorem reachable_aligned (h : IndexedReachable prepare SourceDistinct indexed) :
    Aligned prepare indexed := by
  have hempty : ∀ {P : CacheArtifact → Prop} (artifact : CacheArtifact),
      none = some artifact → P artifact := fun _ hcache => nomatch hcache
  induction h with
  | start hrecovered hopen => exact open_legacy_aligned hrecovered hempty hempty hopen
  | startPoints hvalid hopen => exact open_points_aligned hvalid hempty hopen
  | mutate _ mutation logged hconstructed hrun ih => exact mutate_aligned ih hconstructed hrun
  | background _ hstep hconfig htable hpoints ih =>
      refine ⟨Collection.step_valid ih.valid hstep, ?_, fun hnone => ?_, ih.cached⟩
      · rw [htable]
        exact ih.matched
      · rw [htable, hconfig]
        exact ih.legacy (hpoints ▸ hnone)
  | publish _ generation hrun ih => exact publish_aligned ih hrun
  | reopen _ hrecovered hrestart hopen ih =>
      exact open_legacy_aligned hrecovered ih.cached (fun _ _ => hrestart) hopen
  | reopenPoints _ hvalid hopen ih => exact open_points_aligned hvalid ih.cached hopen

/-- In every state of a run in which no restart meets a colliding source checksum, the table and
the metadata index have the same slots: as many, with the same identifiers, the same live ones and
the same payloads. So a filter selects exactly the rows of the table it holds for. -/
theorem metadata_slots_aligned (h : IndexedReachable prepare SourceDistinct indexed) :
    indexed.metadata.slotCount = indexed.collection.reader.table.slotCount ∧
      (∀ (ordinal : Nat) (entry : MemTableEntry),
        indexed.collection.reader.table.entries[ordinal]? = some entry →
        indexed.metadata.ids[ordinal]? = some entry.id ∧
          indexed.metadata.live.has ordinal = !entry.tombstone ∧
          (entry.tombstone = false → indexed.metadata.fieldsAt ordinal = entry.payload)) ∧
      ∀ expression : FilterExpression, expression.validate = .ok () →
        ∃ bitmap, evaluateExpression indexed.metadata expression = .ok bitmap ∧ ∀ ordinal,
          bitmap.has ordinal = (indexed.collection.reader.table.entries[ordinal]?).any
            fun entry => !entry.tombstone && expression.holds entry.payload := by
  have hmatches := (reachable_aligned h).matched
  exact ⟨matches_count hmatches, fun _ _ => matches_entry hmatches,
    fun _ => matches_select hmatches⟩

end

/-! ## Restarts that accept the cache -/

/-- An empty collection of vectors of one component. -/
def sampleOpen : Except String (IndexedCollection (List F32)) :=
  IndexedCollection.openLegacy ⟨1, 0, .ok ()⟩ (.empty 1) 0 0 none []

/-- One point with a payload is written, and the cache is published. -/
def samplePublished : Except String (IndexedCollection (List F32)) := do
  let opened ← sampleOpen
  let written ← opened.mutate (.ok ()) (.upsertDocument 7 [⟨0⟩] [⟨"kind", .boolean true⟩])
  written.publishCache 1

/-- The table that recovery reads back. -/
def sampleRecovered : MemTable :=
  (empty 1).put (.withFields 7 1 false [⟨0⟩] [⟨"kind", .boolean true⟩])

/-- The restart accepts the cache. -/
def sampleReopened : Except String (IndexedCollection (List F32)) := do
  let published ← samplePublished
  IndexedCollection.openLegacy ⟨1, 0, .ok ()⟩ sampleRecovered 1 1 published.cache published.cacheSource

theorem empty_recovered : Recovered ⟨1, 0, .ok ()⟩ (.empty 1) 0 := by
  have hnone : ∀ id, (empty 1).state id = none := by
    intro id
    simp [state, slotFor, ordinalFor, empty]
  refine ⟨empty_well_formed 1, by decide, rfl, fun id entry hentry => ?_,
    fun id entry hentry => ?_⟩
  · rw [hnone] at hentry
    cases hentry
  · rw [hnone] at hentry
    cases hentry

/-- Entries put into an empty table are recovered. -/
theorem entries_recovered (entries : List MemTableEntry) (sequence : Nat)
    (hle : ∀ entry ∈ (entries.foldl put (.empty 1)).entries,
      entry.sequence ≤ sequence ∧ entry.documentSequence ≤ sequence)
    (hrows : ∀ entry ∈ (entries.foldl put (.empty 1)).entries,
      entry.values.length = (if entry.tombstone then 0 else 1) ∧
        ∀ field ∈ entry.payload, field.value.Valid) :
    Recovered ⟨1, 0, .ok ()⟩ (entries.foldl put (.empty 1)) sequence := by
  have hfold : ∀ table : MemTable, table.WellFormed → table.dimension = 1 →
      (entries.foldl put table).WellFormed ∧
        (entries.foldl put table).dimension = 1 := by
    clear hle hrows
    induction entries with
    | nil => exact fun table hwf hd => ⟨hwf, hd⟩
    | cons entry entries ih =>
        intro table hwf hd
        obtain ⟨hput, hd', -⟩ := change_apply_ok hwf (by omega)
          (show MemTable.Change.apply table (.put entry) = .ok (table.put entry) from rfl)
        exact ih _ hput (hd'.trans hd)
  obtain ⟨hwf, hd⟩ := hfold (.empty 1) (empty_well_formed 1) rfl
  refine ⟨hwf, by omega, hd.symm, fun id entry hentry => ?_, fun id entry hentry => ?_⟩
  · exact hle entry ((state_eq_some_iff hwf).1 hentry).1
  · obtain ⟨hlength, hvalid⟩ := hrows entry ((state_eq_some_iff hwf).1 hentry).1
    exact ⟨by rw [hd]; exact hlength, hvalid⟩

/-- After the restart the filter on the payload selects the slot of the point. -/
theorem metadata_slots_aligned_reopened :
    ∃ indexed : IndexedCollection (List F32), sampleReopened = .ok indexed ∧
      indexed.metadata.ids[0]? = some 7 ∧ indexed.metadata.live.has 0 = true ∧
      indexed.metadata.fieldsAt 0 = [⟨"kind", .boolean true⟩] := by
  have hok : sampleReopened.toOption.isSome = true := by decide +kernel
  obtain ⟨indexed, hrun⟩ := Option.isSome_iff_exists.1 hok
  replace hrun := to_option_some.1 hrun
  have hrun' := hrun
  simp only [sampleReopened, samplePublished, bind_ok] at hrun'
  obtain ⟨published, ⟨opened, hopen, written, hwrite, hpublish⟩, hreopen⟩ := hrun'
  have hwritten : IndexedReachable .ok SourceDistinct written :=
    .mutate (.start empty_recovered hopen) _ _ (by simp [CollectionMutation.Constructed,
      PayloadValue.Valid]) hwrite
  have hrecovered : Recovered ⟨1, 0, .ok ()⟩ sampleRecovered 1 :=
    entries_recovered [.withFields 7 1 false [⟨0⟩] [⟨"kind", .boolean true⟩]] 1
      (by decide +kernel) (by decide +kernel)
  have hsource : (authoritativeIndexBytes sampleRecovered).toOption =
      samplePublished.toOption.map (·.cacheSource) := by decide +kernel
  have hdistinct : SourceDistinct published sampleRecovered := by
    intro bytes hbytes _
    have hpublished : samplePublished = .ok published := by
      simp only [samplePublished, bind_ok]
      exact ⟨opened, hopen, written, hwrite, hpublish⟩
    rw [hbytes, hpublished] at hsource
    exact Option.some.inj hsource
  have hreached := IndexedReachable.reopen (.publish hwritten 1 hpublish) hrecovered hdistinct
    hreopen
  obtain ⟨-, hentries, -⟩ := metadata_slots_aligned hreached
  have htable : indexed.collection.reader.table.entries =
      [.withFields 7 1 false [⟨0⟩] [⟨"kind", .boolean true⟩]] := by
    have hentries : sampleReopened.toOption.map (·.collection.reader.table.entries) =
        some [.withFields 7 1 false [⟨0⟩] [⟨"kind", .boolean true⟩]] := by decide +kernel
    rw [hrun] at hentries
    exact Option.some.inj hentries
  obtain ⟨hid, hlive, hfields⟩ := hentries 0 _ (by rw [htable]; rfl)
  exact ⟨indexed, hrun, hid, hlive, hfields rfl⟩

/-- Point 2 is written before point 1, and the cache is published with the slots in that order;
a checkpoint leaves a segment in the order of the identifiers. -/
def collidingRun : Except String (IndexedCollection (List F32)) := do
  let opened ← sampleOpen
  let first ← opened.mutate (.ok ()) (.upsertDocument 2 [⟨0x98379F3A⟩] [])
  let second ← first.mutate (.ok ()) (.upsertDocument 1 [⟨0x40000000⟩] [])
  let published ← second.publishCache 1
  IndexedCollection.openLegacy ⟨1, 0, .ok ()⟩ ([.withFields 1 2 false [⟨0x40000000⟩] [],
    .withFields 2 1 false [⟨0x98379F3A⟩] []].foldl put (.empty 1)) 2 1 published.cache
    published.cacheSource

/-- The two orders of these points have the same source checksum: the cache is accepted, and the
slots of the index are not those of the table. -/
theorem colliding_cache_misaligned :
    ∃ indexed : IndexedCollection (List F32),
      IndexedReachable .ok (fun _ _ => True) indexed ∧ indexed.metadata.ids = [2, 1] ∧
        indexed.collection.reader.table.ids = [1, 2] := by
  have hok : collidingRun.toOption.isSome = true := by decide +kernel
  obtain ⟨indexed, hrun⟩ := Option.isSome_iff_exists.1 hok
  replace hrun := to_option_some.1 hrun
  have hrun' := hrun
  simp only [collidingRun, bind_ok] at hrun'
  obtain ⟨opened, hopen, first, hfirst, second, hsecond, published, hpublish, hreopen⟩ := hrun'
  have hopened : IndexedReachable .ok (fun _ _ => True) opened := .start empty_recovered hopen
  have hwritten : IndexedReachable .ok (fun _ _ => True) second :=
    .mutate (.mutate hopened _ _ (by simp [CollectionMutation.Constructed]) hfirst) _ _
      (by simp [CollectionMutation.Constructed]) hsecond
  have hrecovered := entries_recovered
    [.withFields 1 2 false [⟨0x40000000⟩] [], .withFields 2 1 false [⟨0x98379F3A⟩] []] 2
    (by decide +kernel) (by decide +kernel)
  have hids : collidingRun.toOption.map (fun indexed => (indexed.metadata.ids,
      indexed.collection.reader.table.ids)) = some ([2, 1], [1, 2]) := by decide +kernel
  rw [hrun] at hids
  obtain ⟨hmetadata, htable⟩ := Prod.mk.inj (Option.some.inj hids)
  exact ⟨indexed, .reopen (.publish hwritten 1 hpublish) hrecovered trivial hreopen, hmetadata,
    htable⟩

end Akasha.Api

import Akasha.Index.HnswRebuild
import Akasha.Storage.PointTable

/-!
# A collection that rebuilds its graph while it is written

The writer's lock serializes committed mutations, the steps of the read publisher and the passes
of `_finish_hnsw_rebuild`; `build` and `catch_up` run outside it, on a root and on journals that no
one else changes. A mutation that raises commits nothing: it leaves the tables as they are or
closes the collection. Any step of a rebuild can raise, which cancels the rebuild.
-/

namespace Akasha.Api

open Lib Storage Index MemTable Function List

/-- One dense document mutation of a batch. -/
structure BatchMutation where
  id : Int64
  isDelete : Bool
  values : List F32
  fields : List DocumentField
deriving DecidableEq, Repr

/-- `_validate_vector`. -/
def validateVector (dimension : Nat) (values : List F32) : Except String Unit := do
  require (values.length = dimension) "vector dimension does not match collection"
  checkEach values fun value => require value.isFinite "vectors must contain only finite values"

/-- The checks that `_apply_batch_unlocked` makes of one mutation. -/
def validateBatchMutation (dimension : Nat) (mutation : BatchMutation) : Except String Unit :=
  if mutation.isDelete then
    require (mutation.values.length = 0 ∧ mutation.fields.length = 0)
      "batch delete cannot contain values or fields"
  else do
    validateVector dimension mutation.values
    validateFields mutation.fields

/-- One mutation of the staged table. -/
def stageMutation (staged : MemTable) (mutation : BatchMutation) (sequence : Nat) :
    Except String MemTable :=
  if mutation.isDelete then staged.applyDelete mutation.id sequence
  else staged.applyDocumentUpsert mutation.id sequence mutation.values mutation.fields

/-- The staging loop of `_apply_batch_unlocked`: a point that the batch meets for the first time
brings its accepted entry, so that its other fields are kept. -/
def stageFrom (table staged : MemTable) (ids : List Int64) (sequence : Nat) :
    List BatchMutation → Except String (MemTable × List Int64)
  | [] => pure (staged, ids)
  | mutation :: mutations => do
      let seeded :=
        if mutation.id ∈ ids then staged
        else
          match table.state mutation.id with
          | some entry => staged.put entry
          | none => staged
      let next ← stageMutation seeded mutation sequence
      stageFrom table next (if mutation.id ∈ ids then ids else ids ++ [mutation.id])
        (sequence + 1) mutations

/-- The different points of a batch, by first appearance. -/
def distinctIds (ids : List Int64) : List Int64 → List Int64
  | [] => ids
  | id :: rest => distinctIds (if id ∈ ids then ids else ids ++ [id]) rest

/-- What a mutation of the collection asks for. `upsert` is a document upsert without fields. -/
inductive CollectionMutation where
  | upsertDocument (id : Int64) (values : List F32) (fields : List DocumentField)
  | delete (id : Int64)
  | upsertSparse (id : Int64) (elements : List SparseElement)
  | applyBatch (mutations : List BatchMutation)
  | applyPointBatch (mutations : List PointMutation)

/-- Where the worker of a rebuild is. A pass of the finish loop stages a candidate, and outside the
lock a taken journal is caught up with. -/
inductive RebuildPhase (V : Type) where
  | building
  | staged (pass : Nat) (candidate : SegmentedHnsw V)
  | catching (pass : Nat) (tail : MemTable) (candidate : SegmentedHnsw V)

/-- A collection, with its registered rebuild. -/
structure Collection (V : Type) where
  config : ReadConfig
  reader : Reader
  points : Option PointTable
  rebuild : Option (HnswRebuild × RebuildPhase V)

variable {V : Type}

namespace Collection

/-- `_record_read_state`, and the new accepted sequence. -/
def commit (collection : Collection V) (table : MemTable) (ids : List Int64) (sequence : Nat) :
    Collection V :=
  { collection with
    reader := { collection.reader with
      table := table
      sequence := sequence
      cache := collection.reader.cache.record table ids sequence }
    rebuild := collection.rebuild.map fun (job, phase) =>
      (job.record table ids sequence, phase) }

/-- `_next_sequence`. -/
def nextSequence (collection : Collection V) : Except String Nat := do
  require (collection.reader.sequence ≠ 2 ^ 64 - 1) "collection sequence exhausted"
  pure (collection.reader.sequence + 1)

/-- The publication loop of `_apply_point_batch_unlocked`. -/
def putPoints (points : PointTable) (table : MemTable) : List Int64 → Except String MemTable
  | [] => pure table
  | id :: ids => do
      let point ← points.entry id
      putPoints points (table.put (.fromPoint point)) ids

/-- `_apply_point_batch_unlocked`. `logged` is the outcome of writing the log. -/
def applyPointBatch (collection : Collection V) (points : PointTable)
    (logged : Except String Unit) (mutations : List PointMutation) :
    Except String (Collection V) :=
  match points.appendBatch mutations (fun _ => logged) (.ok ()) with
  | (_, .error e) => .error e
  | (next, .ok committed) => do
      let ids := distinctIds [] (mutations.map (·.id))
      let table ← putPoints next collection.reader.table ids
      pure ({ collection with points := some next }.commit table ids committed.lastSequence)

/-- A batch of dense mutations for the point store. -/
def batchPoint (mutation : BatchMutation) : PointMutation :=
  if mutation.isDelete then .delete mutation.id
  else ⟨mutation.id, 1, [⟨0, some (.dense (.f32 mutation.values))⟩], some mutation.fields⟩

/-- `_apply_batch_unlocked`. -/
def applyBatch (collection : Collection V) (logged : Except String Unit)
    (mutations : List BatchMutation) : Except String (Collection V) := do
  require (mutations.length ≠ 0) "mutation batch cannot be empty"
  require (mutations.length ≤ 65536) "mutation batch record count is too large"
  require (collection.reader.sequence + mutations.length < 2 ^ 64) "collection sequence exhausted"
  checkEach mutations (validateBatchMutation collection.config.dimension)
  match collection.points with
  | some points => collection.applyPointBatch points logged (mutations.map batchPoint)
  | none => do
      let table := collection.reader.table
      let staged ← stageFrom table (.empty table.dimension) [] (collection.reader.sequence + 1)
        mutations
      logged
      pure (collection.commit (putAll table staged.1) staged.2
        (collection.reader.sequence + mutations.length))

/-- `_upsert_document_unlocked`. -/
def upsertDocument (collection : Collection V) (logged : Except String Unit) (id : Int64)
    (values : List F32) (fields : List DocumentField) : Except String (Collection V) := do
  validateVector collection.config.dimension values
  match collection.points with
  | some points =>
      collection.applyPointBatch points logged
        [⟨id, 1, [⟨0, some (.dense (.f32 values))⟩], some fields⟩]
  | none => do
      let sequence ← collection.nextSequence
      logged
      let table ← collection.reader.table.applyDocumentUpsert id sequence values fields
      pure (collection.commit table [id] sequence)

/-- `_delete_unlocked`. -/
def delete (collection : Collection V) (logged : Except String Unit) (id : Int64) :
    Except String (Collection V) :=
  match collection.points with
  | some points => collection.applyPointBatch points logged [.delete id]
  | none => do
      let sequence ← collection.nextSequence
      logged
      let table ← collection.reader.table.applyDelete id sequence
      pure (collection.commit table [id] sequence)

/-- `_upsert_sparse_unlocked`. -/
def upsertSparse (collection : Collection V) (logged : Except String Unit) (id : Int64)
    (elements : List SparseElement) : Except String (Collection V) := do
  validateSparse elements
  require ((collection.reader.table.state id).any (!·.tombstone))
    "sparse vectors require an existing live point"
  match collection.points with
  | some points =>
      collection.applyPointBatch points logged [⟨id, 3, [⟨1, some (.sparse elements)⟩], none⟩]
  | none => do
      let sequence ← collection.nextSequence
      logged
      let table ← collection.reader.table.setSparse id elements
      pure (collection.commit table [id] sequence)

/-- A mutation, under the writer's lock. -/
def mutate (collection : Collection V) (logged : Except String Unit) :
    CollectionMutation → Except String (Collection V)
  | .upsertDocument id values fields => collection.upsertDocument logged id values fields
  | .delete id => collection.delete logged id
  | .upsertSparse id elements => collection.upsertSparse logged id elements
  | .applyBatch mutations => collection.applyBatch logged mutations
  | .applyPointBatch mutations =>
      match collection.points with
      | none => .error "point mutations require a field-aware collection"
      | some points => collection.applyPointBatch points logged mutations

/-- What a pass of the finish loop does with the candidate. -/
inductive FinishOutcome (V : Type) where
  | published (graph : SegmentedHnsw V)
  | abandoned
  | raised (error : String)
  | rotated

/-- A pass of `_finish_hnsw_rebuild` under the writer's lock. The candidate has the configuration
of the root it was built from. -/
def finishPass (collection : Collection V) (job : HnswRebuild) (pass : Nat)
    (candidate : SegmentedHnsw V) : Collection V × FinishOutcome V :=
  let ended := { collection with rebuild := none }
  if job.invalid ∨ job.sequence ≠ collection.reader.sequence ∨
      job.root.config.fingerprint ≠ collection.config.fingerprint then (ended, .abandoned)
  else if job.tail.slotCount = 0 then
    if candidate.currentPointCount ≠ collection.reader.table.denseLiveCount then
      (ended, .raised "HNSW rebuild catch-up live count mismatch")
    else (ended, .published candidate)
  else if pass = hnswRebuildCatchupPasses then (ended, .abandoned)
  else
    let (tail, job) := job.takeTail
    ({ collection with rebuild := some (job, .catching pass tail candidate) }, .rotated)

end Collection

/-- One step: of the writer, of the read publisher, or of the rebuild's worker. -/
inductive CollectionStep (prepare : List F32 → Except String V) :
    Collection V → Collection V → Prop where
  | mutate {collection next : Collection V} (mutation : CollectionMutation)
      (logged : Except String Unit) (hrun : collection.mutate logged mutation = .ok next) :
      CollectionStep prepare collection next
  /-- A step of the read publisher that commits nothing. -/
  | read {collection : Collection V} {reader : Reader}
      (hstep : ReaderStep collection.reader reader)
      (htable : reader.table = collection.reader.table)
      (hsequence : reader.sequence = collection.reader.sequence) :
      CollectionStep prepare collection { collection with reader := reader }
  /-- `_begin_hnsw_rebuild`. -/
  | start {collection : Collection V} {cache : ReadGenerationCache} {root : ReadGeneration}
      {generation : Nat} {catalog : Option Nat} {pinned : Except String Unit}
      (hnone : collection.rebuild = none)
      (hrun : collection.reader.cache.acquire collection.config generation
        collection.reader.sequence collection.reader.table catalog pinned = (cache, .ok root)) :
      CollectionStep prepare collection { collection with
        reader := { collection.reader with cache := cache }
        rebuild := some (.start root, .building) }
  | build {collection : Collection V} {job : HnswRebuild} {candidate : SegmentedHnsw V}
      (hphase : collection.rebuild = some (job, .building))
      (hrun : job.build prepare = .ok candidate) :
      CollectionStep prepare collection { collection with
        rebuild := some (job, .staged 0 candidate) }
  | finish {collection : Collection V} {job : HnswRebuild} {pass : Nat}
      {candidate : SegmentedHnsw V}
      (hphase : collection.rebuild = some (job, .staged pass candidate)) :
      CollectionStep prepare collection (collection.finishPass job pass candidate).1
  | catchUp {collection : Collection V} {job : HnswRebuild} {pass : Nat} {tail : MemTable}
      {candidate caught : SegmentedHnsw V}
      (hphase : collection.rebuild = some (job, .catching pass tail candidate))
      (hrun : HnswRebuild.catchUp prepare tail candidate = .ok caught) :
      CollectionStep prepare collection { collection with
        rebuild := some (job, .staged (pass + 1) caught) }
  /-- `_cancel_hnsw_rebuild`, after anything in the worker raised. -/
  | cancel {collection : Collection V} :
      CollectionStep prepare collection { collection with rebuild := none }

/-- What any run reaches from a recovered collection of the old or of the new format. -/
inductive CollectionReachable (prepare : List F32 → Except String V) : Collection V → Prop where
  | legacy (config : ReadConfig) (table : MemTable) (sequence : Nat) (hwf : table.WellFormed)
      (hdim : 0 < table.dimension) (hle : SequencesLe table sequence) :
      CollectionReachable prepare ⟨config, .start table sequence, none, none⟩
  | points (config : ReadConfig) (points : PointTable) (hvalid : points.Valid) :
      CollectionReachable prepare
        ⟨config, .start points.readProjection points.lastSequence, some points, none⟩
  | step {before after : Collection V} (h : CollectionReachable prepare before)
      (hstep : CollectionStep prepare before after) : CollectionReachable prepare after

/-! ## How mutations move the dense projection -/

variable {old : Option MemTableEntry} {entry : MemTableEntry}

theorem dense_moved_refl (sequence : Nat) (h : old = some entry) :
    DenseMoved sequence old entry := by
  rw [h]
  exact .inr rfl

theorem upsert_entry_moved {s sequence : Nat} (hlt : s < sequence) {base old : Option MemTableEntry}
    (hold : ∀ entry, old = some entry → DenseMoved s base entry) (id : Int64) (values : List F32)
    (fields : List DocumentField) :
    DenseMoved s base (upsertEntry old id sequence values fields) := by
  unfold upsertEntry
  cases old with
  | none =>
      left
      unfold MemTableEntry.denseSequence MemTableEntry.withFields MemTableEntry.hasDense
        MemTableEntry.field?
      by_cases hvalues : values.length = 0 <;> simp [hvalues, hlt]
  | some entry =>
      simp only
      split
      · exact hold entry rfl
      · left
        have hdense : MemTableEntry.hasDense { entry with
            sequence := sequence
            documentSequence := sequence
            tombstone := false
            vectors := MemTableEntry.setVector entry.vectors ⟨0, .dense (.f32 values)⟩
            payload := fields } = true :=
          MemTableEntry.has_dense_set_vector entry ⟨0, .dense (.f32 values)⟩ rfl
        unfold MemTableEntry.denseSequence
        rw [hdense]
        exact hlt

theorem delete_entry_moved {s sequence : Nat} (hlt : s < sequence) {base old : Option MemTableEntry}
    (hold : ∀ entry, old = some entry → DenseMoved s base entry) (id : Int64) :
    DenseMoved s base (deleteEntry old id sequence) := by
  unfold deleteEntry
  cases old with
  | none => exact .inl hlt
  | some entry =>
      simp only
      split
      · exact hold entry rfl
      · exact .inl hlt

theorem set_sparse_moved (s : Nat) (old : MemTableEntry) (elements : List SparseElement) :
    DenseMoved s (some old) { old with
      vectors := MemTableEntry.setVector old.vectors ⟨1, .sparse elements⟩ } := by
  right
  unfold MemTableEntry.denseValue MemTableEntry.isDenseLive MemTableEntry.hasDense
    MemTableEntry.values MemTableEntry.field?
  simp only [MemTableEntry.find_set_vector]
  rfl

theorem upsert_entry_le {sequence last : Nat} (hle : sequence ≤ last)
    (hold : ∀ entry, old = some entry → entry.sequence ≤ last ∧ entry.documentSequence ≤ last)
    (id : Int64) (values : List F32) (fields : List DocumentField) :
    (upsertEntry old id sequence values fields).sequence ≤ last ∧
      (upsertEntry old id sequence values fields).documentSequence ≤ last := by
  unfold upsertEntry
  cases old with
  | none =>
      refine ⟨hle, ?_⟩
      show (if _ then sequence else 0) ≤ last
      split <;> omega
  | some entry =>
      simp only
      split
      · exact hold entry rfl
      · exact ⟨hle, hle⟩

theorem delete_entry_le {sequence last : Nat} (hle : sequence ≤ last)
    (hold : ∀ entry, old = some entry → entry.sequence ≤ last ∧ entry.documentSequence ≤ last)
    (id : Int64) :
    (deleteEntry old id sequence).sequence ≤ last ∧
      (deleteEntry old id sequence).documentSequence ≤ last := by
  unfold deleteEntry
  cases old with
  | none => exact ⟨hle, Nat.zero_le _⟩
  | some entry =>
      simp only
      split
      · exact hold entry rfl
      · exact ⟨hle, Nat.zero_le _⟩

variable {id : Int64}

/-- A write of one point. -/
theorem commits_one {before after : MemTable} {s : Nat} (hle : SequencesLe before s)
    (hstate : after.state = update before.state id (some entry))
    (hmoved : DenseMoved s (before.state id) entry)
    (hentry : entry.sequence ≤ s + 1 ∧ entry.documentSequence ≤ s + 1) :
    Commits s before after [id] (s + 1) where
  sequence_le := Nat.le_succ s
  ids_nodup := nodup_singleton id
  other_eq other hother := by
    rw [hstate, update_of_ne fun heq => hother (mem_singleton.2 heq)]
  moved other hother new hnew := by
    rw [mem_singleton.1 hother] at hnew ⊢
    rw [hstate, update_self] at hnew
    exact Option.some.inj hnew ▸ hmoved
  last_ge other new hnew := by
    rw [hstate, update_apply] at hnew
    split at hnew
    · exact Option.some.inj hnew ▸ hentry
    · have := hle other new hnew
      omega

/-! ## Staged batches -/

theorem mem_insert_id (id : Int64) (ids : List Int64) (other : Int64) :
    other ∈ (if id ∈ ids then ids else ids ++ [id]) ↔ other = id ∨ other ∈ ids := by
  split
  · rename_i hmem
    exact ⟨.inr, fun hor => hor.elim (fun heq => heq ▸ hmem) fun hold => hold⟩
  · rw [mem_append, mem_singleton, or_comm]

variable {ids : List Int64}

theorem insert_id_nodup (h : ids.Nodup) (id : Int64) :
    (if id ∈ ids then ids else ids ++ [id]).Nodup := by
  split
  · exact h
  · rename_i hnew
    refine nodup_append.2 ⟨h, nodup_singleton id, fun a ha b hb heq => hnew ?_⟩
    exact mem_singleton.1 hb ▸ heq ▸ ha

/-- What a staged table holds of a batch that is under way. -/
structure Staged (table staged : MemTable) (s : Nat) (ids : List Int64) (last : Nat) : Prop where
  wf : staged.WellFormed
  dimension_eq : staged.dimension = table.dimension
  ids_nodup : ids.Nodup
  state_none : ∀ id ∉ ids, staged.state id = none
  state_some : ∀ id ∈ ids, (staged.state id).isSome = true
  moved : ∀ id entry, staged.state id = some entry → DenseMoved s (table.state id) entry
  last_ge : SequencesLe staged last

theorem seed_staged {table staged : MemTable} {s last : Nat} (h : Staged table staged s ids last)
    (htable : table.WellFormed) (hle : SequencesLe table s) (hlast : s ≤ last) (id : Int64)
    {seeded : MemTable} (hseeded : seeded = if id ∈ ids then staged else
      match table.state id with
      | some entry => staged.put entry
      | none => staged) :
    seeded.WellFormed ∧ seeded.dimension = table.dimension ∧
      (∀ other ≠ id, seeded.state other = staged.state other) ∧
      (∀ entry, seeded.state id = some entry → DenseMoved s (table.state id) entry ∧
        entry.sequence ≤ last ∧ entry.documentSequence ≤ last) := by
  have hkeep : staged.WellFormed ∧ staged.dimension = table.dimension ∧
      (∀ other ≠ id, staged.state other = staged.state other) ∧
      (∀ entry, staged.state id = some entry → DenseMoved s (table.state id) entry ∧
        entry.sequence ≤ last ∧ entry.documentSequence ≤ last) :=
    ⟨h.wf, h.dimension_eq, fun _ _ => rfl, fun entry hentry =>
      ⟨h.moved id entry hentry, h.last_ge id entry hentry⟩⟩
  split at hseeded
  · exact hseeded ▸ hkeep
  · cases hstate : table.state id with
    | none =>
        rw [hstate] at hseeded hkeep
        exact hseeded ▸ hkeep
    | some entry =>
        rw [hstate] at hseeded
        subst hseeded
        have hid := ((state_eq_some_iff htable).1 hstate).2
        obtain ⟨hwf, hput⟩ := put_spec h.wf entry
        rw [hid] at hput
        refine ⟨hwf, ?_, fun other hne => ?_, fun new hnew => ?_⟩
        · rw [← h.dimension_eq]
          unfold put
          simp only
          split <;> rfl
        · rw [hput, update_of_ne hne]
        · rw [hput, update_self] at hnew
          obtain rfl := Option.some.inj hnew
          have := hle id entry hstate
          exact ⟨dense_moved_refl s rfl, by omega⟩

/-- One mutation of a batch. -/
theorem stage_mutation_ok {table seeded next : MemTable} {s sequence : Nat}
    {mutation : BatchMutation} (hwf : seeded.WellFormed) (hdim : 0 < seeded.dimension)
    (hlt : s < sequence)
    (hold : ∀ entry, seeded.state mutation.id = some entry →
      DenseMoved s (table.state mutation.id) entry ∧ entry.sequence ≤ sequence ∧
        entry.documentSequence ≤ sequence)
    (hrun : stageMutation seeded mutation sequence = .ok next) :
    next.WellFormed ∧ next.dimension = seeded.dimension ∧ ∃ entry,
      next.state = update seeded.state mutation.id (some entry) ∧
      DenseMoved s (table.state mutation.id) entry ∧ entry.sequence ≤ sequence ∧
        entry.documentSequence ≤ sequence := by
  unfold stageMutation at hrun
  split at hrun
  · obtain ⟨hnext, hd, -, hstate⟩ := apply_delete_ok hwf hrun
    exact ⟨hnext, hd, _, hstate, delete_entry_moved hlt (fun entry h => (hold entry h).1) _,
      delete_entry_le le_rfl (fun entry h => (hold entry h).2) _⟩
  · obtain ⟨hnext, hd, -, hstate⟩ := apply_document_upsert_ok hwf hdim hrun
    exact ⟨hnext, hd, _, hstate, upsert_entry_moved hlt (fun entry h => (hold entry h).1) _ _ _,
      upsert_entry_le le_rfl (fun entry h => (hold entry h).2) _ _ _⟩

variable {mutations : List BatchMutation}

theorem stage_from_ok {table staged : MemTable} {s : Nat} {sequence : Nat}
    {out : MemTable × List Int64} (h : Staged table staged s ids (sequence - 1))
    (htable : table.WellFormed) (hdim : 0 < table.dimension) (hle : SequencesLe table s)
    (hlt : s < sequence) (hrun : stageFrom table staged ids sequence mutations = .ok out) :
    Staged table out.1 s out.2 (sequence + mutations.length - 1) := by
  induction mutations generalizing staged ids sequence with
  | nil =>
      obtain rfl := pure_ok.1 hrun
      exact h
  | cons mutation mutations ih =>
      simp only [stageFrom, bind_ok] at hrun
      obtain ⟨next, hstage, hrest⟩ := hrun
      obtain ⟨hseeded, hd, hother, hself⟩ :=
        seed_staged h htable hle (by omega) mutation.id rfl
      obtain ⟨hnext, hd', entry, hstate, hmoved, hentry⟩ := stage_mutation_ok (s := s) hseeded
        (hd ▸ hdim) hlt (fun entry hentry => ⟨(hself entry hentry).1, by
          have := (hself entry hentry).2
          omega⟩) hstage
      have hstep : Staged table next s (if mutation.id ∈ ids then ids else ids ++ [mutation.id])
          (sequence + 1 - 1) := by
        have hmem := mem_insert_id mutation.id ids
        refine ⟨hnext, hd'.trans hd, insert_id_nodup h.ids_nodup _, fun id hid => ?_,
          fun id hid => ?_, fun id new hnew => ?_, fun id new hnew => ?_⟩
        · rw [hmem, not_or] at hid
          rw [hstate, update_of_ne hid.1, hother id hid.1]
          exact h.state_none id hid.2
        · rw [hstate, update_apply]
          split
          · rfl
          · rename_i hne
            rw [hother id hne]
            exact h.state_some id (((hmem id).1 hid).resolve_left hne)
        · rw [hstate, update_apply] at hnew
          split at hnew
          · rename_i heq
            rw [heq, ← Option.some.inj hnew]
            exact hmoved
          · rename_i hne
            exact h.moved id new (hother id hne ▸ hnew)
        · rw [hstate, update_apply] at hnew
          split at hnew
          · rw [← Option.some.inj hnew]
            exact hentry
          · rename_i hne
            have := h.last_ge id new (hother id hne ▸ hnew)
            omega
      have := ih hstep (by omega) hrest
      rwa [length_cons, show sequence + (mutations.length + 1) - 1 =
        sequence + 1 + mutations.length - 1 by omega]

variable {table : MemTable}

/-- A batch of dense mutations in the old format. -/
theorem stage_commits {s : Nat} {out : MemTable × List Int64} (htable : table.WellFormed)
    (hdim : 0 < table.dimension) (hle : SequencesLe table s)
    (hrun : stageFrom table (.empty table.dimension) [] (s + 1) mutations = .ok out) :
    Commits s table (putAll table out.1) out.2 (s + mutations.length) ∧ out.1.WellFormed ∧
      ∀ entry ∈ out.1.entries, entry.id ∈ out.2 := by
  have hempty : ∀ id, (empty table.dimension).state id = none := by
    intro id
    simp [state, slotFor, ordinalFor, empty]
  have hstart : Staged table (.empty table.dimension) s [] (s + 1 - 1) :=
    ⟨empty_well_formed _, rfl, nodup_nil, fun id _ => hempty id,
      (by intros; contradiction),
      fun id entry h => absurd (hempty id ▸ h) (by contradiction),
      fun id entry h => absurd (hempty id ▸ h) (by contradiction)⟩
  have hstaged := stage_from_ok hstart htable hdim hle (Nat.lt_succ_self s) hrun
  obtain ⟨-, hput⟩ := put_all_spec htable hstaged.wf
  have hlast : s + 1 + mutations.length - 1 = s + mutations.length := by omega
  rw [hlast] at hstaged
  refine ⟨⟨by omega, hstaged.ids_nodup, fun id hid => ?_, fun id hid entry hentry => ?_,
    fun id entry hentry => ?_⟩, hstaged.wf, fun entry hentry => ?_⟩
  · rw [hput, hstaged.state_none id hid, Option.none_or]
  · obtain ⟨new, hnew⟩ := Option.isSome_iff_exists.1 (hstaged.state_some id hid)
    rw [hput, hnew, Option.some_or] at hentry
    exact Option.some.inj hentry ▸ hstaged.moved id new hnew
  · rw [hput] at hentry
    cases hnew : out.1.state id with
    | none =>
        rw [hnew, Option.none_or] at hentry
        have := hle id entry hentry
        omega
    | some new =>
        rw [hnew, Option.some_or] at hentry
        exact Option.some.inj hentry ▸ hstaged.last_ge id new hnew
  · by_contra hid
    have := hstaged.state_none entry.id hid
    rw [(state_eq_some_iff hstaged.wf).2 ⟨hentry, rfl⟩] at this
    cases this

/-! ## Point batches -/

theorem from_point_field (point : PointState) (id : Nat) :
    (MemTableEntry.fromPoint point).field? id = point.field? id := rfl

/-- A mutation moves the dense projection of a point past its sequence, or leaves it. -/
theorem mutated_moved {catalog : FieldCatalog} {previous : Option PointState}
    {mutation : PointMutation} {s sequence : Nat} {next : PointState} {base : Option MemTableEntry}
    (hlt : s < sequence) (hvalid : ∀ point ∈ previous, ValidPoint catalog point)
    (hold : ∀ point ∈ previous, DenseMoved s base (.fromPoint point))
    (h : Mutated catalog previous mutation sequence next) :
    DenseMoved s base (.fromPoint next) := by
  by_cases hdense : (next.field? 0).isSome = true
  · rcases mutated_document hvalid h hdense with hnew | ⟨point, hpoint, hlive, hdocument, hfield⟩
    · left
      unfold MemTableEntry.denseSequence MemTableEntry.hasDense
      rw [from_point_field, if_pos hdense]
      exact hlt.trans_eq hnew.symm
    · have hnext : next.tombstone = false := by
        rcases (mutated_valid hvalid h).content with hcontent | hdead
        · exact hcontent.tombstone_eq
        · unfold PointState.field? at hdense
          simp [hdead.fields_eq] at hdense
      have hsame : (MemTableEntry.fromPoint next).hasDense =
          (MemTableEntry.fromPoint point).hasDense := by
        unfold MemTableEntry.hasDense
        rw [from_point_field, from_point_field, hfield]
      have hvalue : (MemTableEntry.fromPoint next).denseValue =
          (MemTableEntry.fromPoint point).denseValue := by
        unfold MemTableEntry.denseValue MemTableEntry.isDenseLive MemTableEntry.values
        rw [hsame, from_point_field, from_point_field, hfield]
        show (if (!next.tombstone && _) = true then _ else _) =
          if (!point.tombstone && _) = true then _ else _
        rw [hnext, hlive]
      refine (hold point hpoint).imp (fun hmoved => ?_) fun hkept => hvalue.trans hkept
      unfold MemTableEntry.denseSequence at hmoved ⊢
      rw [hsame]
      have hd : (MemTableEntry.fromPoint point).hasDense = true := by
        rw [← hsame]
        exact hdense
      rw [if_pos hd] at hmoved ⊢
      exact hmoved.trans_eq hdocument.symm
  · left
    unfold MemTableEntry.denseSequence MemTableEntry.hasDense
    rw [from_point_field, if_neg hdense]
    exact hlt.trans_eq h.sequence_eq.symm

theorem distinct_ids_ok (ids rest : List Int64) (h : ids.Nodup) :
    (distinctIds ids rest).Nodup ∧
      ∀ id, id ∈ distinctIds ids rest ↔ id ∈ ids ∨ id ∈ rest := by
  induction rest generalizing ids with
  | nil => exact ⟨h, fun id => by simp [distinctIds]⟩
  | cons first rest ih =>
      obtain ⟨hnodup, hmem⟩ := ih _ (insert_id_nodup h first)
      refine ⟨hnodup, fun id => ?_⟩
      rw [distinctIds, hmem, mem_insert_id, mem_cons]
      tauto

variable {points : PointTable}

/-- What `putPoints` does: the points of a batch show their accepted versions. -/
theorem put_points_ok {table next : MemTable} (hnodup : ids.Nodup) (hwf : table.WellFormed)
    (hpoints : ∀ id point, points.point? id = some point → point.id = id)
    (hrun : Collection.putPoints points table ids = .ok next) :
    next.WellFormed ∧ (∀ id ∉ ids, next.state id = table.state id) ∧
      (∀ id ∈ ids, ∃ point, points.point? id = some point ∧
        next.state id = some (.fromPoint point)) ∧
      ∃ changes : List MemTable.Change, table.applyChanges changes = .ok next ∧
        ∀ change ∈ changes, change.id ∈ ids := by
  induction ids generalizing table with
  | nil =>
      obtain rfl := pure_ok.1 hrun
      exact ⟨hwf, fun _ _ => rfl, nofun, [], rfl, nofun⟩
  | cons id ids ih =>
      obtain ⟨hfresh, hrest⟩ := nodup_cons.1 hnodup
      simp only [Collection.putPoints, bind_ok] at hrun
      obtain ⟨point, hentry, hnext⟩ := hrun
      have hpoint : points.point? id = some point := by
        unfold PointTable.entry at hentry
        cases hfind : points.point? id with
        | none => simp [hfind, throw, throwThe, MonadExceptOf.throw] at hentry
        | some found =>
            simp only [hfind] at hentry
            rw [pure_ok.1 hentry]
      have hid := hpoints id point hpoint
      obtain ⟨hput, hstate⟩ := put_spec hwf (.fromPoint point)
      replace hstate : (table.put (.fromPoint point)).state =
          update table.state id (some (.fromPoint point)) := by
        rw [hstate]
        exact congrArg (fun k => update table.state k _) hid
      obtain ⟨hwf', hother, hself, changes, hchanges, hids⟩ := ih hrest hput hnext
      refine ⟨hwf', fun other hnot => ?_, fun other hmem => ?_,
        .put (.fromPoint point) :: changes, ?_, ?_⟩
      · rw [mem_cons, not_or] at hnot
        rw [hother other hnot.2, hstate, update_of_ne hnot.1]
      · by_cases hmem' : other ∈ ids
        · exact hself other hmem'
        · obtain rfl := (mem_cons.1 hmem).resolve_right hmem'
          exact ⟨point, hpoint, by rw [hother _ hmem', hstate, update_self]⟩
      · simp only [applyChanges, bind_ok]
        exact ⟨_, rfl, hchanges⟩
      · intro change hchange
        rcases mem_cons.1 hchange with rfl | hchange
        · exact mem_cons.2 (.inl hid)
        · exact mem_cons_of_mem _ (hids change hchange)

/-- A reader's table shows the versions of a point table. -/
def ShowsPoints (points : PointTable) (table : MemTable) (sequence : Nat) : Prop :=
  points.Valid ∧ points.lastSequence = sequence ∧
    ∀ id, table.state id = (points.point? id).map .fromPoint

/-- An accepted point batch. -/
theorem point_batch_commits {points next : PointTable} {table after : MemTable} {s : Nat}
    {mutations : List PointMutation} (hshows : ShowsPoints points table s)
    (hwf : table.WellFormed)
    (happlied : points.Applied (points.lastSequence + 1) mutations next) (hnext : next.Valid)
    (hrun : Collection.putPoints next table (distinctIds [] (mutations.map (·.id))) = .ok after) :
    Commits s table after (distinctIds [] (mutations.map (·.id))) next.lastSequence ∧
      ShowsPoints next after next.lastSequence ∧
      ∃ changes : List MemTable.Change, table.applyChanges changes = .ok after ∧
        ∀ change ∈ changes, change.id ∈ distinctIds [] (mutations.map (·.id)) := by
  obtain ⟨hvalid, hlast, hstate⟩ := hshows
  obtain ⟨hnodup, hmem⟩ := distinct_ids_ok [] (mutations.map (·.id)) nodup_nil
  obtain ⟨hafter, hother, hself, hchanges⟩ := put_points_ok hnodup hwf
    (fun id point h => (hnext.versions id point h).1) hrun
  have hmoved : s < points.lastSequence + 1 + mutations.length ∧
      ∀ id point, next.point? id = some point → ValidPoint points.catalog point ∧
        DenseMoved s (table.state id) (.fromPoint point) := by
    refine PointTable.apply_mutations_inv
      (fun versions sequence => s < sequence ∧ ∀ id point, versions id = some point →
        ValidPoint points.catalog point ∧ DenseMoved s (table.state id) (.fromPoint point))
      ⟨by omega, fun id point hpoint => ⟨(hvalid.versions id point hpoint).2.1, ?_⟩⟩ ?_
      happlied.applied
    · refine dense_moved_refl s ?_
      rw [hstate, hpoint]
      rfl
    · rintro versions sequence mutation - new ⟨hlt, hold⟩ hmutated
      refine ⟨by omega, fun id point hpoint => ?_⟩
      rw [update_apply] at hpoint
      split at hpoint
      · rename_i heq
        obtain rfl := Option.some.inj hpoint
        rw [heq]
        exact ⟨mutated_valid (fun p hp => (hold mutation.id p hp).1) hmutated,
          mutated_moved hlt (fun p hp => (hold mutation.id p hp).1)
            (fun p hp => (hold mutation.id p hp).2) hmutated⟩
      · exact hold id point hpoint
  have hkept : ∀ id ∉ distinctIds [] (mutations.map (·.id)), next.point? id = points.point? id := by
    refine PointTable.apply_mutations_inv (fun versions _ =>
      ∀ id ∉ distinctIds [] (mutations.map (·.id)), versions id = points.point? id)
      (fun _ _ => rfl) ?_ happlied.applied
    intro versions sequence mutation hmutation new hold _ id hid
    have hne : id ≠ mutation.id := fun heq =>
      hid ((hmem id).2 (.inr (heq ▸ mem_map_of_mem hmutation)))
    rw [update_of_ne hne]
    exact hold id hid
  have hshown : ∀ id, after.state id = (next.point? id).map .fromPoint := by
    intro id
    by_cases hid : id ∈ distinctIds [] (mutations.map (·.id))
    · obtain ⟨point, hpoint, heq⟩ := hself id hid
      rw [heq, hpoint]
      rfl
    · rw [hother id hid, hkept id hid, hstate]
  refine ⟨⟨?_, hnodup, hother, fun id hid entry hentry => ?_, fun id entry hentry => ?_⟩,
    ⟨hnext, rfl, hshown⟩, hchanges⟩
  · have := happlied.last_eq
    omega
  · rw [hshown, Option.map_eq_some_iff] at hentry
    obtain ⟨point, hpoint, rfl⟩ := hentry
    exact (hmoved.2 id point hpoint).2
  · rw [hshown, Option.map_eq_some_iff] at hentry
    obtain ⟨point, hpoint, rfl⟩ := hentry
    obtain ⟨-, hok, hle⟩ := hnext.versions id point hpoint
    exact ⟨hle, hok.document_le.trans hle⟩

/-! ## The invariant of a run -/

namespace Collection

variable (prepare : List F32 → Except String V)

/-- What the worker's phase says, over the projection that the journal started from. -/
def PhaseBinds (root : ReadGeneration) (dense : Int64 → Option (List F32)) :
    RebuildPhase V → Prop
  | .building => ∃ table : MemTable, table.WellFormed ∧ root.Shows table ∧ table.dense = dense
  | .staged _ candidate => candidate.WellFormed ∧ Binds prepare dense candidate.vector?
  | .catching _ tail candidate => tail.WellFormed ∧ candidate.WellFormed ∧
      ∃ earlier, Binds prepare earlier candidate.vector? ∧ caughtUp tail earlier = dense

/-- The publisher shows the table, and the journal of a valid rebuild with its candidate gives the
table's dense projection. -/
structure Valid (collection : Collection V) : Prop where
  reader_valid : collection.reader.Valid
  sequences_le : SequencesLe collection.reader.table collection.reader.sequence
  shows_points : ∀ points, collection.points = some points →
    ShowsPoints points collection.reader.table collection.reader.sequence
  rebuild_valid : ∀ job phase, collection.rebuild = some (job, phase) → job.invalid = false →
    ∃ dense, job.Journals collection.reader.table dense collection.reader.sequence ∧
      PhaseBinds prepare job.root dense phase

variable {prepare} {collection next : Collection V}

/-- A committed batch, recorded with the publisher and with the rebuild. -/
theorem commit_valid (h : collection.Valid prepare) {points : Option PointTable} {last : Nat}
    {changes : List MemTable.Change}
    (happly : collection.reader.table.applyChanges changes = .ok table)
    (hids : ∀ change ∈ changes, change.id ∈ ids)
    (hcommits : Commits collection.reader.sequence collection.reader.table table ids last)
    (hpoints : ∀ p, points = some p → ShowsPoints p table last) :
    ({ collection with points := points }.commit table ids last).Valid prepare := by
  have hreader := Reader.step_valid h.reader_valid (.commit ids last happly hids)
  refine ⟨hreader, hcommits.last_ge, hpoints, fun job phase hjob hok => ?_⟩
  obtain ⟨⟨old, oldPhase⟩, hold, heq⟩ := Option.map_eq_some_iff.1 hjob
  obtain ⟨rfl, rfl⟩ := Prod.mk.inj heq
  have holdok : old.invalid = false := by
    cases hinvalid : old.invalid with
    | false => rfl
    | true =>
        rw [record_invalid hinvalid, hinvalid] at hok
        cases hok
  obtain ⟨dense, hjournals, hphase⟩ := h.rebuild_valid old oldPhase hold holdok
  obtain ⟨hrecorded, hroot⟩ := record_journals hjournals hreader.table_wf hcommits hok
  exact ⟨dense, hrecorded, hroot ▸ hphase⟩

variable {logged : Except String Unit}

theorem apply_point_batch_valid (h : collection.Valid prepare)
    (hpoints : collection.points = some points) {mutations : List PointMutation}
    (hrun : collection.applyPointBatch points logged mutations = .ok next) :
    next.Valid prepare := by
  unfold applyPointBatch at hrun
  have hshows := h.shows_points points hpoints
  split at hrun
  · cases hrun
  · rename_i after committed happend
    obtain ⟨happlied, hafter, -, -, rfl⟩ := PointTable.append_batch_ok hshows.1 happend
    simp only [bind_ok, pure_ok] at hrun
    obtain ⟨table, htable, rfl⟩ := hrun
    obtain ⟨hcommits, hshown, changes, hchanges, hids⟩ :=
      point_batch_commits hshows h.reader_valid.table_wf happlied hafter htable
    exact commit_valid h hchanges hids hcommits fun p hp => Option.some.inj hp ▸ hshown

theorem commit_one_valid (h : collection.Valid prepare) (hnone : collection.points = none)
    (change : MemTable.Change) (happly : change.apply collection.reader.table = .ok table)
    (hstate : table.state =
      update collection.reader.table.state change.id (some entry))
    (hmoved : DenseMoved collection.reader.sequence (collection.reader.table.state change.id) entry)
    (hentry : entry.sequence ≤ collection.reader.sequence + 1 ∧
      entry.documentSequence ≤ collection.reader.sequence + 1) :
    (collection.commit table [change.id] (collection.reader.sequence + 1)).Valid prepare := by
  have hchanges : collection.reader.table.applyChanges [change] = .ok table := by
    simp only [applyChanges, bind_ok]
    exact ⟨table, happly, rfl⟩
  refine commit_valid h hchanges ?_ (commits_one h.sequences_le hstate hmoved hentry) ?_
  · intro other hother
    exact mem_singleton.2 (congrArg _ (mem_singleton.1 hother))
  · intro p hp
    rw [hnone] at hp
    cases hp

theorem next_sequence_ok {sequence : Nat} (hrun : collection.nextSequence = .ok sequence) :
    sequence = collection.reader.sequence + 1 := by
  unfold nextSequence at hrun
  simp only [bind_ok, exists_unit, pure_ok] at hrun
  exact hrun.2.symm

theorem upsert_document_valid (h : collection.Valid prepare) {values : List F32}
    {fields : List DocumentField}
    (hrun : collection.upsertDocument logged id values fields = .ok next) : next.Valid prepare := by
  unfold upsertDocument at hrun
  cases hpoints : collection.points with
  | some points =>
      simp only [hpoints, bind_ok, exists_unit] at hrun
      exact apply_point_batch_valid h hpoints hrun.2
  | none =>
      simp only [hpoints, bind_ok, exists_unit, pure_ok] at hrun
      obtain ⟨-, sequence, hsequence, -, table, happly, rfl⟩ := hrun
      obtain rfl := next_sequence_ok hsequence
      obtain ⟨-, -, -, hstate⟩ := apply_document_upsert_ok h.reader_valid.table_wf
        h.reader_valid.dimension_pos happly
      exact commit_one_valid h hpoints (.upsert id _ values fields) happly hstate
        (upsert_entry_moved (Nat.lt_succ_self _) (fun _ => dense_moved_refl _) _ _ _)
        (upsert_entry_le le_rfl (fun entry hentry => by
          have := h.sequences_le id entry hentry
          omega) _ _ _)

theorem delete_valid (h : collection.Valid prepare)
    (hrun : collection.delete logged id = .ok next) : next.Valid prepare := by
  unfold delete at hrun
  cases hpoints : collection.points with
  | some points =>
      simp only [hpoints] at hrun
      exact apply_point_batch_valid h hpoints hrun
  | none =>
      simp only [hpoints, bind_ok, exists_unit, pure_ok] at hrun
      obtain ⟨sequence, hsequence, -, table, happly, rfl⟩ := hrun
      obtain rfl := next_sequence_ok hsequence
      obtain ⟨-, -, -, hstate⟩ := apply_delete_ok h.reader_valid.table_wf happly
      exact commit_one_valid h hpoints (.delete id _) happly hstate
        (delete_entry_moved (Nat.lt_succ_self _) (fun _ => dense_moved_refl _) _)
        (delete_entry_le le_rfl (fun entry hentry => by
          have := h.sequences_le id entry hentry
          omega) _)

theorem upsert_sparse_valid (h : collection.Valid prepare) {elements : List SparseElement}
    (hrun : collection.upsertSparse logged id elements = .ok next) : next.Valid prepare := by
  unfold upsertSparse at hrun
  cases hpoints : collection.points with
  | some points =>
      simp only [hpoints, bind_ok, exists_unit] at hrun
      exact apply_point_batch_valid h hpoints hrun.2.2
  | none =>
      simp only [hpoints, bind_ok, exists_unit, pure_ok] at hrun
      obtain ⟨-, -, sequence, hsequence, -, table, happly, rfl⟩ := hrun
      obtain rfl := next_sequence_ok hsequence
      obtain ⟨-, -, -, old, hold, -, hstate⟩ :=
        set_sparse_ok h.reader_valid.table_wf happly
      have hle := h.sequences_le id old hold
      exact commit_one_valid h hpoints (.setSparse id elements) happly hstate
        (by
          show DenseMoved _ (collection.reader.table.state id) _
          rw [hold]
          exact set_sparse_moved _ old elements)
        ⟨hle.1.trans (Nat.le_succ _), hle.2.trans (Nat.le_succ _)⟩

theorem apply_batch_valid (h : collection.Valid prepare)
    (hrun : collection.applyBatch logged mutations = .ok next) : next.Valid prepare := by
  unfold applyBatch at hrun
  cases hpoints : collection.points with
  | some points =>
      simp only [hpoints, bind_ok, exists_unit] at hrun
      obtain ⟨-, -, -, -, hrun⟩ := hrun
      exact apply_point_batch_valid h hpoints hrun
  | none =>
      simp only [hpoints, bind_ok, exists_unit, pure_ok] at hrun
      obtain ⟨-, -, -, -, staged, hstaged, -, rfl⟩ := hrun
      obtain ⟨hcommits, hwf, hids⟩ := stage_commits h.reader_valid.table_wf
        h.reader_valid.dimension_pos h.sequences_le hstaged
      have hchanges : collection.reader.table.applyChanges (staged.1.entries.map .put) =
          .ok (putAll collection.reader.table staged.1) := by
        unfold putAll
        generalize collection.reader.table = table
        generalize staged.1.entries = entries
        induction entries generalizing table with
        | nil => rfl
        | cons entry entries ih => exact ih (table.put entry)
      refine commit_valid h hchanges ?_ hcommits fun p hp => ?_
      · intro change hchange
        obtain ⟨entry, hentry, rfl⟩ := mem_map.1 hchange
        exact hids entry hentry
      · rw [hpoints] at hp
        cases hp

theorem mutate_valid (h : collection.Valid prepare) {mutation : CollectionMutation}
    (hrun : collection.mutate logged mutation = .ok next) :
    next.Valid prepare := by
  cases mutation with
  | upsertDocument id values fields => exact upsert_document_valid h hrun
  | delete id => exact delete_valid h hrun
  | upsertSparse id elements => exact upsert_sparse_valid h hrun
  | applyBatch mutations => exact apply_batch_valid h hrun
  | applyPointBatch mutations =>
      unfold mutate at hrun
      cases hpoints : collection.points with
      | none => simp [hpoints] at hrun
      | some points =>
          simp only [hpoints] at hrun
          exact apply_point_batch_valid h hpoints hrun

/-- A pass of the finish loop. -/
theorem finish_pass_valid (h : collection.Valid prepare) {job : HnswRebuild} {pass : Nat}
    {candidate : SegmentedHnsw V}
    (hphase : collection.rebuild = some (job, .staged pass candidate)) :
    (collection.finishPass job pass candidate).1.Valid prepare := by
  have hended : ({ collection with rebuild := none } : Collection V).Valid prepare :=
    ⟨h.reader_valid, h.sequences_le, h.shows_points, nofun⟩
  unfold finishPass
  simp only
  split
  · exact hended
  · rename_i hcurrent
    rw [not_or] at hcurrent
    split
    · split
      · exact hended
      · exact hended
    · split
      · exact hended
      · obtain ⟨dense, hjournals, hwf, hbinds⟩ := h.rebuild_valid job _ hphase
          (by simpa using hcurrent.1)
        refine ⟨h.reader_valid, h.sequences_le, h.shows_points, fun job' phase hjob hok => ?_⟩
        obtain ⟨rfl, rfl⟩ := Prod.mk.inj (Option.some.inj hjob)
        exact ⟨_, take_tail_journals hjournals, hjournals.tail_wf, hwf, dense, hbinds,
          hjournals.current⟩

/-- Every step keeps the journal and the candidate in agreement with the table. -/
theorem step_valid (h : collection.Valid prepare) (hstep : CollectionStep prepare collection next) :
    next.Valid prepare := by
  cases hstep with
  | mutate mutation logged hrun => exact mutate_valid h hrun
  | read hread htable hsequence =>
      refine ⟨Reader.step_valid h.reader_valid hread, ?_, ?_, ?_⟩
      · rw [htable, hsequence]
        exact h.sequences_le
      · rw [htable, hsequence]
        exact h.shows_points
      · rw [htable, hsequence]
        exact h.rebuild_valid
  | start hnone hrun =>
      rename_i generation catalog pinned
      have hreader := Reader.step_valid h.reader_valid
        (.acquire collection.config generation catalog pinned)
      have hcaptures := ReadGenerationCache.acquire_captures h.reader_valid.tracks
        h.reader_valid.table_wf collection.config generation collection.reader.sequence catalog
        pinned
      rw [hrun] at hreader hcaptures
      obtain ⟨hshown, hsequence⟩ := hcaptures.result_ok _ rfl
      have hshows := hshown.elim (h.reader_valid.root_shows _) fun hshows => hshows
      refine ⟨hreader, h.sequences_le, h.shows_points, fun job phase hjob hok => ?_⟩
      obtain ⟨rfl, rfl⟩ := Prod.mk.inj (Option.some.inj hjob)
      exact ⟨_, start_journals hsequence, collection.reader.table, h.reader_valid.table_wf, hshows,
        rfl⟩
  | build hphase hrun =>
      refine ⟨h.reader_valid, h.sequences_le, h.shows_points, fun job phase hjob hok => ?_⟩
      obtain ⟨rfl, rfl⟩ := Prod.mk.inj (Option.some.inj hjob)
      obtain ⟨dense, hjournals, table, htable, hshows, rfl⟩ := h.rebuild_valid _ _ hphase hok
      unfold HnswRebuild.build at hrun
      simp only [bind_ok, pure_ok] at hrun
      obtain ⟨index, hbuild, rfl⟩ := hrun
      obtain ⟨hrun, hdense⟩ := dense_run_spec hshows htable
      obtain ⟨hwf, hbinds⟩ := build_hnsw_ok hrun hbuild
      obtain ⟨howned, hvectors⟩ := SegmentedHnsw.from_owned_spec hwf
      exact ⟨_, hjournals, howned, by rw [hvectors, ← hdense]; exact hbinds⟩
  | finish hphase => exact finish_pass_valid h hphase
  | catchUp hphase hrun =>
      refine ⟨h.reader_valid, h.sequences_le, h.shows_points, fun job phase hjob hok => ?_⟩
      obtain ⟨rfl, rfl⟩ := Prod.mk.inj (Option.some.inj hjob)
      obtain ⟨dense, hjournals, htail, hwf, earlier, hbinds, rfl⟩ :=
        h.rebuild_valid _ _ hphase hok
      exact ⟨_, hjournals, catch_up_ok htail hwf hbinds hrun⟩
  | cancel => exact ⟨h.reader_valid, h.sequences_le, h.shows_points, (by intros; contradiction)⟩

/-- A reader's table made of a point table shows it. -/
theorem read_projection_shows (h : points.Valid) :
    points.readProjection.WellFormed ∧ 0 < points.readProjection.dimension ∧
      ShowsPoints points points.readProjection points.lastSequence := by
  have hnodup : ((points.points.map MemTableEntry.fromPoint).map (·.id)).Nodup := by
    rw [map_map]
    exact h.ids_nodup
  obtain ⟨hwf, hstate⟩ := fold_put_spec hnodup (empty_well_formed points.dimension)
  refine ⟨⟨hwf.ordinals_iff, hwf.live_eq, hwf.dense_eq⟩, ?_, h, rfl, fun id => ?_⟩
  · have hdim : ∀ (entries : List MemTableEntry) (table : MemTable),
        (entries.foldl put table).dimension = table.dimension := by
      intro entries
      induction entries with
      | nil => exact fun _ => rfl
      | cons entry entries ih =>
          intro table
          rw [foldl_cons, ih]
          unfold put
          simp only
          split <;> rfl
    show 0 < ((points.points.map MemTableEntry.fromPoint).foldl put _).dimension
    obtain ⟨spec, -, hhead, -, -, -, hpos⟩ := points.catalog.default_field
    rw [hdim]
    show 0 < points.dimension
    unfold PointTable.dimension
    rw [hhead]
    exact hpos
  · refine (hstate id).trans ?_
    rw [show (empty points.dimension).state id = none by
      simp [state, slotFor, ordinalFor, empty], Option.or_none,
      List.find?_map]
    rfl

theorem reachable_valid (h : CollectionReachable prepare collection) :
    collection.Valid prepare := by
  induction h with
  | legacy config table sequence hwf hdim hle =>
      exact ⟨Reader.start_valid sequence hwf hdim, hle, nofun, nofun⟩
  | points config points hvalid =>
      obtain ⟨hwf, hdim, hshows⟩ := read_projection_shows hvalid
      refine ⟨Reader.start_valid _ hwf hdim, fun id entry hentry => ?_,
        fun p hp => Option.some.inj hp ▸ hshows, nofun⟩
      have hstate := hshows.2.2 id
      rw [show points.readProjection.state id = some entry from hentry, eq_comm,
        Option.map_eq_some_iff] at hstate
      obtain ⟨point, hpoint, rfl⟩ := hstate
      obtain ⟨-, hok, hle⟩ := hvalid.versions id point hpoint
      exact ⟨hle, hok.document_le.trans hle⟩
  | step _ hstep ih => exact step_valid ih hstep

end Collection

/-! ## Publication -/

variable {prepare : List F32 → Except String V} {collection : Collection V}

theorem dense_is_some : (table.dense id).isSome = true ↔
    ∃ entry, table.state id = some entry ∧ entry.tombstone = false ∧ entry.hasDense = true := by
  unfold dense MemTableEntry.denseValue MemTableEntry.isDenseLive
  cases table.state id with
  | none => simp
  | some entry => cases htomb : entry.tombstone <;> cases hdense : entry.hasDense <;>
      simp [htomb, hdense]

/-- A published candidate has exactly the live points with a default vector, each bound to its
current vector. A journal that overflowed or failed makes the job invalid, it stays so, and the
candidate of an invalid job is not published. -/
theorem rebuild_publishes_current (h : CollectionReachable prepare collection) {job : HnswRebuild}
    {pass : Nat} {candidate : SegmentedHnsw V}
    (hphase : collection.rebuild = some (job, .staged pass candidate)) :
    (∀ next graph, collection.finishPass job pass candidate = (next, .published graph) →
      (∀ id, graph.containsCurrent id = true ↔ ∃ entry,
        collection.reader.table.state id = some entry ∧ entry.tombstone = false ∧
          entry.hasDense = true) ∧
      ∀ id entry, collection.reader.table.state id = some entry → entry.tombstone = false →
        entry.hasDense = true →
        ∃ vector, prepare entry.values = .ok vector ∧ graph.vector? id = some vector) ∧
    (job.invalid = true →
      ∀ next graph, collection.finishPass job pass candidate ≠ (next, .published graph)) ∧
    ∀ table ids sequence, job.invalid = true ∨ job.JournalFails table ids →
      (job.record table ids sequence).invalid = true := by
  refine ⟨fun next graph hrun => ?_, fun hinvalid next graph hrun => ?_,
    fun table ids sequence hfails => ?_⟩
  · unfold Collection.finishPass at hrun
    simp only at hrun
    split at hrun
    · cases (Prod.mk.inj hrun).2
    · rename_i hcurrent
      rw [not_or] at hcurrent
      split at hrun
      · rename_i hempty
        split at hrun
        · cases (Prod.mk.inj hrun).2
        · obtain rfl := Collection.FinishOutcome.published.inj (Prod.mk.inj hrun).2
          obtain ⟨dense, hjournals, hwf, hbinds⟩ :=
            (Collection.reachable_valid h).rebuild_valid job _ hphase (by simpa using hcurrent.1)
          -- With an empty journal the candidate binds the projection of the table itself.
          have htail : ∀ id, job.tail.state id = none := by
            intro id
            refine Option.eq_none_iff_forall_ne_some.2 fun entry hentry => ?_
            have hmem := ((state_eq_some_iff hjournals.tail_wf).1 hentry).1
            rw [length_eq_zero_iff.1 hempty] at hmem
            cases hmem
          have hdense : dense = collection.reader.table.dense := by
            rw [← hjournals.current]
            funext id
            rw [caughtUp, htail id]
            rfl
          subst hdense
          refine ⟨fun id => ?_, fun id entry hentry hlive hhas => ?_⟩
          · rw [SegmentedHnsw.contains_current_iff hwf, binds_is_some hbinds, dense_is_some]
          · have hvalue : collection.reader.table.dense id = some entry.values := by
              unfold dense MemTableEntry.denseValue MemTableEntry.isDenseLive
              rw [hentry, Option.bind_some, hlive, hhas]
              rfl
            have hbound := hbinds id
            rw [hvalue, Option.map_some, eq_comm, Option.map_eq_some_iff] at hbound
            obtain ⟨vector, hvector, hprepare⟩ := hbound
            exact ⟨vector, hprepare.symm, hvector⟩
      · split at hrun
        · cases (Prod.mk.inj hrun).2
        · cases (Prod.mk.inj hrun).2
  · unfold Collection.finishPass at hrun
    simp only [hinvalid, true_or, if_true] at hrun
    cases (Prod.mk.inj hrun).2
  · rcases hfails with hinvalid | hfails
    · rw [record_invalid hinvalid]
      exact hinvalid
    · exact record_fails sequence hfails

/-- The next step of the worker, if it has one that does not raise. -/
def workerStep (prepare : List F32 → Except String V) (collection : Collection V) : Collection V :=
  match collection.rebuild with
  | none => collection
  | some (job, .building) =>
      match job.build prepare with
      | .ok candidate => { collection with rebuild := some (job, .staged 0 candidate) }
      | .error _ => collection
  | some (job, .staged pass candidate) => (collection.finishPass job pass candidate).1
  | some (job, .catching pass tail candidate) =>
      match HnswRebuild.catchUp prepare tail candidate with
      | .ok caught => { collection with rebuild := some (job, .staged (pass + 1) caught) }
      | .error _ => collection

theorem worker_step_reachable (h : CollectionReachable prepare collection) :
    CollectionReachable prepare (workerStep prepare collection) := by
  unfold workerStep
  split
  · exact h
  · rename_i job hphase
    split
    · rename_i candidate hbuild
      exact .step h (.build hphase hbuild)
    · exact h
  · rename_i job pass candidate hphase
    exact .step h (.finish hphase)
  · rename_i job pass tail candidate hphase
    split
    · rename_i caught hcatch
      exact .step h (.catchUp hphase hcatch)
    · exact h

/-- Whether the next pass of the finish loop publishes. -/
def publishesNext (collection : Collection V) : Bool :=
  match collection.rebuild with
  | some (job, .staged pass candidate) =>
      match (collection.finishPass job pass candidate).2 with
      | .published _ => true
      | _ => false
  | _ => false

/-- A table with one point. -/
def samplePoint : MemTable :=
  (empty 1).put (.withFields 1 1 false [⟨0⟩] [])

/-- A collection with that point -/
def sampleCollection : Collection (List F32) :=
  ⟨⟨1, 0, .ok ()⟩, .start samplePoint 1, none, none⟩

/-- starts a rebuild, -/
def sampleRebuilding : Collection (List F32) :=
  match sampleCollection.reader.cache.acquire ⟨1, 0, .ok ()⟩ 0 1 samplePoint none (.ok ()) with
  | (cache, .ok root) => { sampleCollection with
      reader := { sampleCollection.reader with cache := cache }
      rebuild := some (.start root, .building) }
  | (_, .error _) => sampleCollection

/-- writes the point meanwhile, -/
def sampleWritten : Collection (List F32) :=
  match sampleRebuilding.mutate (.ok ()) (.upsertDocument 1 [⟨1⟩] []) with
  | .ok next => next
  | .error _ => sampleRebuilding

/-- and catches up. -/
def sampleStaged : Collection (List F32) :=
  workerStep .ok (workerStep .ok (workerStep .ok sampleWritten))

theorem sample_staged_reachable : CollectionReachable .ok sampleStaged := by
  have hwf := (put_spec (empty_well_formed 1)
    (.withFields 1 1 false [⟨0⟩] [])).1
  have hle : SequencesLe samplePoint 1 := by
    intro id entry hentry
    have hall : ∀ entry ∈ samplePoint.entries,
        entry.sequence ≤ 1 ∧ entry.documentSequence ≤ 1 := by decide +kernel
    exact hall entry ((state_eq_some_iff hwf).1 hentry).1
  have hstart : CollectionReachable .ok sampleCollection :=
    .legacy _ samplePoint 1 hwf (by decide +kernel) hle
  have hbegun : CollectionReachable .ok sampleRebuilding := by
    unfold sampleRebuilding
    split
    · rename_i cache root hroot
      exact .step hstart (.start rfl hroot)
    · exact hstart
  have hwritten : CollectionReachable .ok sampleWritten := by
    unfold sampleWritten
    split
    · rename_i next hnext
      exact .step hbegun (.mutate _ _ hnext)
    · exact hbegun
  exact worker_step_reachable (worker_step_reachable (worker_step_reachable hwritten))

/-- The graph published after the catch-up has the point with the vector written meanwhile. -/
theorem rebuild_publishes_current_sample : ∃ job pass candidate next graph,
    sampleStaged.rebuild = some (job, .staged pass candidate) ∧
      sampleStaged.finishPass job pass candidate = (next, .published graph) ∧
      graph.containsCurrent 1 = true ∧ graph.containsCurrent 2 = false ∧
      graph.vector? 1 = some [⟨1⟩] := by
  have hpublishes : publishesNext sampleStaged = true := by decide +kernel
  unfold publishesNext at hpublishes
  split at hpublishes
  · rename_i job pass candidate hphase
    split at hpublishes
    · rename_i graph hgraph
      have hrun : sampleStaged.finishPass job pass candidate =
          ((sampleStaged.finishPass job pass candidate).1, .published graph) := by rw [← hgraph]
      obtain ⟨hids, hbound⟩ :=
        (rebuild_publishes_current sample_staged_reachable hphase).1 _ graph hrun
      have habsent : (sampleStaged.reader.table.state 2).isSome = false := by decide +kernel
      have hlive : (sampleStaged.reader.table.state 1).any (fun entry =>
          !entry.tombstone && entry.hasDense && entry.values == [⟨1⟩]) = true := by
        decide +kernel
      cases hentry : sampleStaged.reader.table.state 1 with
      | none => simp [hentry] at hlive
      | some entry =>
          simp only [hentry, Option.any_some, Bool.and_eq_true, Bool.not_eq_true', beq_iff_eq]
            at hlive
          obtain ⟨⟨htomb, hdense⟩, hvalues⟩ := hlive
          obtain ⟨vector, hvector, hgot⟩ := hbound 1 entry hentry htomb hdense
          refine ⟨job, pass, candidate, _, graph, hphase, hrun,
            (hids 1).2 ⟨entry, hentry, htomb, hdense⟩, ?_, ?_⟩
          · refine Bool.eq_false_iff.2 fun hcontains => ?_
            obtain ⟨other, hother, -, -⟩ := (hids 2).1 hcontains
            simp [hother] at habsent
          · rw [hgot, ← Except.ok.inj hvector, hvalues]
    · cases hpublishes
  · cases hpublishes

end Akasha.Api

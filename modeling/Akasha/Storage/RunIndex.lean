import Akasha.Storage.Reader

/-!
# The runs of a captured view

A run with an index got its index from its own table: slot for slot, the index holds the live
rows and their payloads. Every run of a view has the writer's dimension. Both hold for each run
that a publisher, its cached root or a merge in progress holds, in every state that a reader can
reach.
-/

namespace Akasha.Storage

open Lib Index List ReadGenerationCache

/-! ## The metadata of a run -/

/-- The index has a slot for each entry of the table, live with the entry's payload or dead. -/
structure Indexes (metadata : MetadataIndex) (table : MemTable) : Prop where
  consistent : metadata.Consistent
  ready : metadata.bulkLoading = false
  slots_eq : metadata.slotCount = table.entries.length
  live_eq : ∀ (o : Nat) e, table.entries[o]? = some e → metadata.live.has o = !e.tombstone
  fields_eq : ∀ (o : Nat) e, table.entries[o]? = some e → e.tombstone = false →
    metadata.fieldsAt o = e.payload

/-- What an index shows for an entry. -/
def shownFields (entry : MemTableEntry) : Option (List DocumentField) :=
  if entry.tombstone then none else some entry.payload

theorem upsert_valid {index next : MetadataIndex} {id : Int64} {fields : List DocumentField}
    (h : index.upsert id fields = .ok next) :
    validateFields fields = .ok () ∧
      ¬ (index.bulkLoading = true ∧ (index.ordinalFor id).isSome = true) := by
  unfold MetadataIndex.upsert at h
  obtain ⟨⟨⟩, hvalid, h⟩ := bind_ok.1 h
  obtain ⟨⟨⟩, hbulk, -⟩ := bind_ok.1 h
  exact ⟨hvalid, require_ok.1 hbulk⟩

/-- Entries of new points get the next slots in order, and show what they hold. -/
theorem index_entries_ok {entries : List MemTableEntry} {index next : RunIndex}
    (hconsistent : index.metadata.Consistent) {contents : MetadataIndex.Contents}
    (hcurrent : index.metadata.Current contents)
    (hnodup : (index.metadata.ids ++ entries.map (·.id)).Nodup)
    (hrun : indexEntries index entries = .ok next) :
    next.metadata.Consistent ∧ next.metadata.ids = index.metadata.ids ++ entries.map (·.id) ∧
      next.metadata.bulkLoading = index.metadata.bulkLoading ∧
      ∃ shown : MetadataIndex.Contents, next.metadata.Current shown ∧
        (∀ id ∉ entries.map (·.id), shown id = contents id) ∧
        ∀ e ∈ entries, shown e.id = shownFields e := by
  induction entries generalizing index contents with
  | nil =>
      obtain rfl := pure_ok.1 hrun
      exact ⟨hconsistent, (append_nil _).symm, rfl, contents, hcurrent, fun _ _ => rfl, nofun⟩
  | cons entry entries ih =>
      rw [map_cons] at hnodup
      have hnew : entry.id ∉ index.metadata.ids := by
        intro hmem
        exact (nodup_append.1 hnodup).2.2 _ hmem _ mem_cons_self rfl
      -- One entry takes the next slot, whether it is live or not.
      obtain ⟨middle, hrest, hc, hcur, hids, hbulk⟩ : ∃ middle,
          indexEntries middle entries = .ok next ∧ middle.metadata.Consistent ∧
          middle.metadata.Current (Function.update contents entry.id (shownFields entry)) ∧
          middle.metadata.ids = index.metadata.ids ++ [entry.id] ∧
          middle.metadata.bulkLoading = index.metadata.bulkLoading := by
        unfold indexEntries at hrun
        unfold shownFields
        by_cases htomb : entry.tombstone
        · rw [if_pos htomb, bind_ok] at hrun
          obtain ⟨metadata, hfirst, hrest⟩ := hrun
          obtain ⟨next', hnext, hc, hcur, hids, hbulk⟩ :=
            MetadataIndex.delete_ok hconsistent hcurrent entry.id
          obtain rfl : next' = metadata := Except.ok.inj (hnext.symm.trans hfirst)
          rw [if_pos htomb]
          exact ⟨_, hrest, hc, hcur, hids.trans (if_neg hnew), hbulk⟩
        · rw [if_neg htomb, bind_ok] at hrun
          obtain ⟨metadata, hfirst, hrun⟩ := hrun
          obtain ⟨sparse, -, hrest⟩ := bind_ok.1 hrun
          obtain ⟨hvalid, hfree⟩ := upsert_valid hfirst
          obtain ⟨next', hnext, hc, hcur, hids, hbulk⟩ :=
            MetadataIndex.upsert_ok hconsistent hcurrent hvalid hfree
          obtain rfl : next' = metadata := Except.ok.inj (hnext.symm.trans hfirst)
          rw [if_neg htomb]
          exact ⟨_, hrest, hc, hcur, hids.trans (if_neg hnew), hbulk⟩
      obtain ⟨hc', hids', hbulk', shown, hshown, hother, heach⟩ :=
        ih hc hcur (by rw [hids, append_assoc]; exact hnodup) hrest
      have hfresh : entry.id ∉ entries.map (·.id) :=
        (nodup_cons.1 (nodup_append.1 hnodup).2.1).1
      refine ⟨hc', ?_, hbulk'.trans hbulk, shown, hshown, fun id hid => ?_, fun e he => ?_⟩
      · rw [hids', hids, append_assoc]
        rfl
      · rw [map_cons, mem_cons, not_or] at hid
        rw [hother id hid.2, Function.update_of_ne hid.1]
      · rcases mem_cons.1 he with rfl | he
        · rw [hother _ hfresh, Function.update_self]
        · exact heach e he

theorem begin_bulk_slots {index next : MetadataIndex} (h : index.beginBulk = .ok next) :
    next.ids = index.ids ∧ next.bulkLoading = true := by
  unfold MetadataIndex.beginBulk at h
  simp only [bind_ok, exists_unit, require_ok, pure_ok] at h
  obtain ⟨-, keywords, -, numbers, -, rfl⟩ := h
  exact ⟨rfl, rfl⟩

theorem finish_bulk_slots {index next : MetadataIndex} (h : index.finishBulk = .ok next) :
    next.ids = index.ids ∧ next.bulkLoading = false := by
  unfold MetadataIndex.finishBulk at h
  simp only [bind_ok, exists_unit, require_ok, pure_ok] at h
  obtain ⟨-, keywords, -, numbers, -, rfl⟩ := h
  exact ⟨rfl, rfl⟩

variable {table : MemTable} {owner : Nat}

/-- The index of a run that was built from a table indexes that table. -/
theorem indexed_run_indexes {run : ReadRun} (hwf : table.WellFormed)
    (h : indexedRun owner table = .ok run) :
    ∃ index, run.index = some index ∧ Indexes index.metadata table := by
  unfold indexedRun at h
  simp only [bind_ok, exists_unit, require_ok, pure_ok] at h
  obtain ⟨opened, hopen, loaded, hload, metadata, hfinish, hslots, rfl⟩ := h
  obtain ⟨opened', hopened, hc, hcur⟩ := MetadataIndex.begin_bulk_ok
    MetadataIndex.empty_consistent
    (show MetadataIndex.empty.Current fun _ => none from ⟨(by intros; contradiction), (by intros; contradiction)⟩)
    (by simp [MetadataIndex.empty, MetadataIndex.slotCount])
  obtain rfl : opened' = opened := Except.ok.inj (hopened.symm.trans hopen)
  obtain ⟨hids, hbulk⟩ := begin_bulk_slots hopen
  replace hids : opened'.ids = [] := hids
  obtain ⟨hc, hids', hbulk', shown, hshown, -, heach⟩ := index_entries_ok hc hcur
    (by rw [hids]; exact MemTable.ids_nodup hwf) hload
  obtain ⟨finished, hfinished, hc, hcur⟩ := MetadataIndex.finish_bulk_ok hc hshown
    (hbulk'.trans hbulk)
  obtain rfl : finished = metadata := Except.ok.inj (hfinished.symm.trans hfinish)
  obtain ⟨hids'', hready⟩ := finish_bulk_slots hfinish
  have hslot : ∀ (o : Nat) e, table.entries[o]? = some e → finished.ids[o]? = some e.id := by
    intro o e he
    rw [hids'', hids', hids, nil_append, getElem?_map, he]
    rfl
  have hentry : ∀ (o : Nat) e, table.entries[o]? = some e → shownFields e =
      if finished.live.has o then some (finished.fieldsAt o) else none := by
    intro o e he
    rw [← heach e (mem_of_getElem? he)]
    exact hcur.shown o e.id (hslot o e he)
  refine ⟨_, rfl, hc, hready, hslots, fun o e he => ?_, fun o e he hlive => ?_⟩
  · have := hentry o e he
    unfold shownFields at this
    cases htomb : e.tombstone <;> cases hlive : finished.live.has o <;> simp_all
  · have := hentry o e he
    unfold shownFields at this
    rw [hlive, if_neg Bool.false_ne_true] at this
    cases hbit : finished.live.has o with
    | true => simpa [hbit] using this.symm
    | false => simp [hbit] at this

/-! ## The sparse vectors of a run -/

/-- The record that an entry has in the sparse index of its run. -/
def sparseRecord (entry : MemTableEntry) : Option SparseRecord :=
  if ¬ entry.tombstone ∧ entry.hasSparse ∧ entry.sparse.length > 0 then
    some ⟨entry.id, entry.sparse⟩
  else none

theorem sparse_record_iff {entry : MemTableEntry} {record : SparseRecord} :
    sparseRecord entry = some record ↔
      (entry.tombstone = false ∧ entry.sparse ≠ []) ∧ record = ⟨entry.id, entry.sparse⟩ := by
  -- A point without a sparse field has no elements.
  have hfield : entry.sparse ≠ [] → entry.hasSparse = true := by
    unfold MemTableEntry.sparse MemTableEntry.hasSparse
    cases entry.field? 1 with
    | none => exact fun h => absurd rfl h
    | some value => exact fun _ => rfl
  unfold sparseRecord
  rw [Option.ite_none_right_eq_some, Option.some.injEq, gt_iff_lt, length_pos_iff,
    Bool.not_eq_true, @eq_comm _ record]
  exact and_congr_left fun _ => and_congr_right fun _ => ⟨(·.2), fun h => ⟨hfield h, h⟩⟩

/-- The sparse vectors of the live entries are added to the lists. -/
theorem index_entries_sparse {entries : List MemTableEntry} {index next : RunIndex}
    {records : List SparseRecord} (hholds : index.sparse.Holds records)
    (hnodup : (records.map (·.id) ++ entries.map (·.id)).Nodup)
    (hrun : indexEntries index entries = .ok next) :
    next.sparse.Holds (records ++ entries.filterMap sparseRecord) := by
  induction entries generalizing index records with
  | nil =>
      obtain rfl := pure_ok.1 hrun
      rw [filterMap_nil, append_nil]
      exact hholds
  | cons entry entries ih =>
      have hnew : entry.id ∉ records.map (·.id) := by
        intro hmem
        exact (nodup_append.1 hnodup).2.2 _ hmem _ mem_cons_self rfl
      have hrest : (records.map (·.id) ++ entries.map (·.id)).Nodup :=
        hnodup.sublist ((sublist_cons_self _ _).append_left _)
      unfold indexEntries at hrun
      by_cases htomb : entry.tombstone
      · rw [if_pos htomb] at hrun
        obtain ⟨metadata, -, hrun⟩ := bind_ok.1 hrun
        have hnone : sparseRecord entry = none := if_neg fun h => h.1 htomb
        rw [filterMap_cons, hnone]
        exact @ih ⟨metadata, index.sparse⟩ _ hholds hrest hrun
      · rw [if_neg htomb] at hrun
        obtain ⟨metadata, -, hrun⟩ := bind_ok.1 hrun
        obtain ⟨sparse, hsparse, hrun⟩ := bind_ok.1 hrun
        unfold indexSparse at hsparse
        by_cases hfield : entry.hasSparse ∧ entry.sparse.length > 0
        · rw [if_pos hfield] at hsparse
          obtain ⟨_, hvalid, -⟩ := bind_ok.1 hsparse
          obtain ⟨next', hnext, hholds'⟩ := SparseIndex.upsert_holds hholds hnew hvalid
          obtain rfl : next' = sparse := Except.ok.inj (hnext.symm.trans hsparse)
          have hsome : sparseRecord entry = some ⟨entry.id, entry.sparse⟩ :=
            if_pos ⟨htomb, hfield⟩
          have hall := @ih ⟨metadata, next'⟩ _ hholds' (by simpa using hnodup) hrun
          rw [filterMap_cons, hsome]
          rwa [append_assoc] at hall
        · rw [if_neg hfield] at hsparse
          obtain rfl := pure_ok.1 hsparse
          have hnone : sparseRecord entry = none := if_neg fun h => hfield h.2
          rw [filterMap_cons, hnone]
          exact @ih ⟨metadata, index.sparse⟩ _ hholds hrest hrun

theorem indexed_run_sparse {run : ReadRun} (hwf : table.WellFormed)
    (h : indexedRun owner table = .ok run) :
    ∃ index, run.index = some index ∧
      index.sparse.Holds (table.entries.filterMap sparseRecord) := by
  unfold indexedRun at h
  simp only [bind_ok, exists_unit, require_ok, pure_ok] at h
  obtain ⟨opened, -, loaded, hload, metadata, -, -, rfl⟩ := h
  have hnodup : (([] : List SparseRecord).map (·.id) ++ table.entries.map (·.id)).Nodup :=
    MemTable.ids_nodup hwf
  have hholds := @index_entries_sparse _ ⟨opened, SparseIndex.empty⟩ _ _
    SparseIndex.empty_holds hnodup hload
  exact ⟨_, rfl, hholds⟩

/-! ## Runs of one dimension with their own index -/

/-- A run of the dimension whose index, if it has one, was built from its table. -/
structure ReadRun.Proper (dimension : Nat) (run : ReadRun) : Prop where
  dimension_eq : run.memtable.dimension = dimension
  indexed : run.index.isSome = true → ∃ owner, indexedRun owner run.memtable = .ok run

/-- A view of at least one run, all proper. -/
structure ReadGeneration.Proper (dimension : Nat) (root : ReadGeneration) : Prop where
  dimension_eq : root.config.dimension = dimension
  layers_ne : root.layers ≠ []
  runs : ∀ layer ∈ root.layers, layer.run.Proper dimension

/-- A publisher whose runs and cached root are proper. -/
structure ReadGenerationCache.Proper (dimension : Nat) (cache : ReadGenerationCache) : Prop where
  runs : ∀ layer ∈ cache.layers, layer.run.Proper dimension
  head : ∀ table, cache.head = some table → table.dimension = dimension
  frozen : ∀ run, cache.frozenHead = some run → run.Proper dimension
  root : ∀ root, cache.root = some root → root.Proper dimension

variable {dimension : Nat}

theorem indexed_run_proper {run : ReadRun} (hdim : table.dimension = dimension)
    (h : indexedRun owner table = .ok run) :
    run.Proper dimension := by
  obtain ⟨htable, -⟩ := indexed_run_ok h
  exact ⟨by rw [htable, hdim], fun _ => ⟨owner, by rw [htable, h]⟩⟩

theorem put_dimension (table : MemTable) (entry : MemTableEntry) :
    (table.put entry).dimension = table.dimension := by
  unfold MemTable.put
  simp only
  split <;> rfl

theorem put_all_dimension (table source : MemTable) :
    (putAll table source).dimension = table.dimension := by
  have hfold : ∀ (entries : List MemTableEntry) (table : MemTable),
      (entries.foldl MemTable.put table).dimension = table.dimension := by
    intro entries
    induction entries with
    | nil => exact fun _ => rfl
    | cons entry entries ih => exact fun table => (ih _).trans (put_dimension table entry)
  exact hfold source.entries table

theorem fold_put_all_dimension (runs : List MemTable) (table : MemTable) :
    (runs.foldl putAll table).dimension = table.dimension := by
  induction runs generalizing table with
  | nil => rfl
  | cons run runs ih => exact (ih _).trans (put_all_dimension table run)

@[simp]
theorem shadow_run (layer : ReadLayer) (newer : MemTable) :
    (layer.shadow newer).run = layer.run := by
  unfold ReadLayer.shadow
  simp only
  split <;> rfl

namespace ReadGenerationCache

variable {cache next : ReadGenerationCache}

theorem seal_head_proper (h : cache.Proper dimension) (hrun : cache.sealHead = .ok next) :
    next.Proper dimension := by
  unfold sealHead at hrun
  cases hhead : cache.head with
  | none =>
      rw [hhead] at hrun
      cases hrun
  | some table =>
      rw [hhead] at hrun
      simp only [bind_ok, pure_ok] at hrun
      obtain ⟨run, hindexed, rfl⟩ := hrun
      refine ⟨fun layer hlayer => ?_, fun table' heq => ?_, (by intros; contradiction), h.root⟩
      · rcases mem_append.1 hlayer with hlayer | hlayer
        · obtain ⟨old, hold, rfl⟩ := mem_map.1 hlayer
          rw [shadow_run]
          exact h.runs old hold
        · rw [mem_singleton.1 hlayer]
          exact indexed_run_proper (h.head table hhead) hindexed
      · rw [← Option.some.inj heq]
        exact h.head table hhead

theorem put_head_proper (h : cache.Proper dimension) (entry : MemTableEntry) (added : Int) :
    (cache.putHead entry added).Proper dimension := by
  refine ⟨h.runs, fun table heq => ?_, nofun, h.root⟩
  obtain ⟨head, hhead, rfl⟩ := Option.map_eq_some_iff.1 heq
  rw [put_dimension]
  exact h.head head hhead

theorem make_room_proper (h : cache.Proper dimension) {replaced : Option Int} {incoming : Int}
    {out : ReadGenerationCache × Int} (hrun : cache.makeRoom replaced incoming = .ok out) :
    out.1.Proper dimension := by
  unfold makeRoom at hrun
  split at hrun
  · simp only [bind_ok, pure_ok] at hrun
    obtain ⟨room, hseal, rfl⟩ := hrun
    exact seal_head_proper h hseal
  · obtain rfl := pure_ok.1 hrun
    exact h

theorem record_one_proper (h : cache.Proper dimension) {id : Int64}
    (hrun : cache.recordOne table id = .ok next) : next.Proper dimension := by
  unfold recordOne at hrun
  split at hrun
  · cases hrun
  · simp only [bind_ok] at hrun
    obtain ⟨room, hroom, hrun⟩ := hrun
    have hput := put_head_proper (make_room_proper h hroom)
    split at hrun
    · exact seal_head_proper (hput _ _) hrun
    · obtain rfl := pure_ok.1 hrun
      exact hput _ _

theorem record_each_proper (h : cache.Proper dimension) {ids : List Int64}
    (hrun : cache.recordEach table ids = .ok next) : next.Proper dimension := by
  induction ids generalizing cache with
  | nil =>
      obtain rfl := pure_ok.1 hrun
      exact h
  | cons id ids ih =>
      simp only [recordEach, bind_ok] at hrun
      obtain ⟨middle, hone, hrest⟩ := hrun
      exact ih (record_one_proper h hone) hrest

theorem invalidate_proper (h : cache.Proper dimension) : cache.invalidate.Proper dimension :=
  ⟨h.runs, h.head, h.frozen, nofun⟩

theorem reset_proper (dimension : Nat) (cache : ReadGenerationCache) :
    cache.reset.Proper dimension :=
  ⟨nofun, nofun, nofun, nofun⟩

theorem record_proper (h : cache.Proper dimension) (table : MemTable) (ids : List Int64)
    (sequence : Nat) : (cache.record table ids sequence).Proper dimension := by
  have hinvalid := invalidate_proper h
  unfold record
  simp only
  split
  · exact hinvalid
  · split
    · rename_i hrun
      obtain ⟨hruns, hhead, hfrozen, hroot⟩ := record_each_proper hinvalid hrun
      exact ⟨hruns, hhead, hfrozen, hroot⟩
    · exact reset_proper dimension _

theorem build_proper {merge built : SealedMerge}
    (h : ∀ run ∈ heldRuns merge, run.Proper dimension) (hrun : merge.build owner = .ok built) :
    ∀ run ∈ heldRuns built, run.Proper dimension := by
  unfold SealedMerge.build at hrun
  split at hrun
  · cases hrun
  · rename_i first rest hlist
    simp only [bind_ok, pure_ok] at hrun
    obtain ⟨base, hbase, rfl⟩ := hrun
    have hruns : ∀ run ∈ merge.runs, run.Proper dimension := fun run hmem =>
      h run (mem_append_left _ hmem)
    intro run hmem
    rcases mem_append.1 hmem with hmem | hmem
    · exact hruns run hmem
    · rw [mem_singleton.1 hmem]
      refine indexed_run_proper ?_ hbase
      rw [fold_put_all_dimension]
      exact (hruns first (by rw [hlist]; exact mem_cons_self)).dimension_eq

theorem publish_merge_proper (h : cache.Proper dimension) {merge : SealedMerge}
    (hmerge : ∀ run ∈ heldRuns merge, run.Proper dimension) :
    (cache.publishMerge merge).1.Proper dimension := by
  unfold publishMerge
  split
  · exact h
  · rename_i base hbase
    split
    · refine ⟨fun layer hlayer => ?_, h.head, h.frozen, nofun⟩
      rcases mem_cons.1 hlayer with rfl | hlayer
      · refine hmerge base (mem_append_right _ ?_)
        rw [hbase]
        exact mem_singleton_self _
      · exact h.runs layer (mem_of_mem_drop hlayer)
    · exact h

theorem allocate_proper (h : cache.Proper dimension) (allocated : Nat) :
    { cache with allocated := allocated }.Proper dimension :=
  ⟨h.runs, h.head, h.frozen, h.root⟩

theorem capture_proper (h : cache.Proper dimension) :
    ∀ run ∈ heldRuns cache.captureMerge, run.Proper dimension := by
  intro run hrun
  unfold heldRuns captureMerge at hrun
  rw [Option.toList_none, append_nil] at hrun
  obtain ⟨layer, hlayer, rfl⟩ := mem_map.1 hrun
  exact h.runs layer hlayer

theorem merge_sealed_runs_proper (h : cache.Proper dimension)
    (hrun : cache.mergeSealedRuns = .ok next) : next.Proper dimension := by
  unfold mergeSealedRuns at hrun
  simp only [bind_ok, pure_ok] at hrun
  obtain ⟨merge, hbuild, rfl⟩ := hrun
  exact publish_merge_proper (allocate_proper h _) (build_proper (capture_proper h) hbuild)

/-! ### Captures -/

theorem current_chain_proper (h : cache.Proper dimension) {config : ReadConfig} {sequence : Nat}
    (hdim : table.dimension = dimension)
    (hrun : cache.currentChain config sequence table = .ok next) :
    next.Proper dimension ∧ config.dimension = dimension ∧ next.layers ≠ [] := by
  unfold currentChain at hrun
  simp only [bind_ok, exists_unit, require_ok] at hrun
  obtain ⟨-, -, hconfig, -, hrun⟩ := hrun
  split at hrun
  · unfold buildBase at hrun
    simp only [bind_ok, pure_ok] at hrun
    obtain ⟨run, hindexed, rfl⟩ := hrun
    refine ⟨⟨fun layer hlayer => ?_, fun head heq => ?_, (by intros; contradiction), h.root⟩, hconfig.symm.trans hdim,
      cons_ne_nil _ _⟩
    · rw [mem_singleton.1 hlayer]
      exact indexed_run_proper hdim hindexed
    · rw [← Option.some.inj heq]
      exact hdim
  · rename_i hlayers
    simp only [bind_ok, exists_unit, require_ok, pure_ok] at hrun
    obtain ⟨-, rfl⟩ := hrun
    exact ⟨h, hconfig.symm.trans hdim, fun hnil => hlayers (by rw [hnil]; rfl)⟩

theorem freeze_head_proper (h : cache.Proper dimension) :
    cache.freezeHead.1.Proper dimension ∧ cache.freezeHead.1.layers = cache.layers ∧
      ∀ run, cache.freezeHead.2 = some run → run.Proper dimension := by
  unfold freezeHead
  split
  · exact ⟨h, rfl, nofun⟩
  · rename_i head hhead
    split
    · exact ⟨h, rfl, nofun⟩
    · split
      · rename_i run hrun
        exact ⟨h, rfl, fun run' heq => Option.some.inj heq ▸ h.frozen run hrun⟩
      · have hrun : (⟨cache.allocated, head, none⟩ : ReadRun).Proper dimension :=
          ⟨h.head head hhead, nofun⟩
        exact ⟨⟨h.runs, h.head, fun run heq => Option.some.inj heq ▸ hrun, h.root⟩, rfl,
          fun run heq => Option.some.inj heq ▸ hrun⟩

theorem with_head_proper {layers : List ReadLayer} {frozen : Option ReadRun}
    (h : ∀ layer ∈ layers, layer.run.Proper dimension)
    (hfrozen : ∀ run, frozen = some run → run.Proper dimension) :
    ∀ layer ∈ withHead layers frozen, layer.run.Proper dimension := by
  unfold withHead
  split
  · exact h
  · rename_i run
    intro layer hlayer
    rcases mem_append.1 hlayer with hlayer | hlayer
    · obtain ⟨old, hold, rfl⟩ := mem_map.1 hlayer
      exact h old hold
    · rw [mem_singleton.1 hlayer]
      exact hfrozen run rfl

/-- A capture keeps the publisher proper and returns a proper root. -/
theorem acquire_proper (h : cache.Proper dimension) (hdim : table.dimension = dimension)
    (config : ReadConfig) (generation sequence : Nat) (catalog : Option Nat)
    (pinned : Except String Unit) :
    (cache.acquire config generation sequence table catalog pinned).1.Proper dimension ∧
      ∀ root, (cache.acquire config generation sequence table catalog pinned).2 = .ok root →
        root.Proper dimension := by
  unfold acquire
  split
  · rename_i root hcached
    refine ⟨h, fun root' heq => ?_⟩
    rw [← Except.ok.inj heq]
    exact h.root root (Option.filter_eq_some_iff.1 hcached).1
  · split
    · exact ⟨h, nofun⟩
    · rename_i chain hchain
      obtain ⟨hchain, hconfig, hne⟩ := current_chain_proper h hdim hchain
      obtain ⟨hfrozen, hlayers, hhead⟩ := freeze_head_proper hchain
      unfold publishRoot
      simp only
      split
      · exact ⟨hfrozen, nofun⟩
      · -- The new root is both kept and returned.
        have hroot : ∀ root : ReadGeneration, root.config = config →
            root.layers = withHead chain.freezeHead.1.layers chain.freezeHead.2 →
            root.Proper dimension := by
          intro root hc hl
          refine ⟨by rw [hc, hconfig], ?_, ?_⟩
          · rw [hl, hlayers]
            unfold withHead
            split
            · exact hne
            · simp
          · rw [hl]
            exact with_head_proper hfrozen.runs hhead
        refine ⟨⟨hfrozen.runs, hfrozen.head, hfrozen.frozen, fun root heq => ?_⟩,
          fun root heq => ?_⟩
        · rw [← Option.some.inj heq]
          exact hroot _ rfl rfl
        · rw [← Except.ok.inj heq]
          exact hroot _ rfl rfl

end ReadGenerationCache

namespace Reader

/-- The publisher and the merges in progress hold proper runs of the writer's dimension. -/
structure Proper (reader : Reader) : Prop where
  cache : reader.cache.Proper reader.table.dimension
  merges : ∀ merge ∈ reader.merges, ∀ run ∈ heldRuns merge,
    run.Proper reader.table.dimension

variable {reader after : Reader}

theorem step_proper (hvalid : reader.Valid) (h : reader.Proper) (hstep : ReaderStep reader after) :
    after.Proper := by
  cases hstep with
  | commit ids sequence happly hids =>
      obtain ⟨-, hdim, -, -⟩ :=
        MemTable.apply_changes_ok hvalid.table_wf hvalid.dimension_pos happly
      exact ⟨hdim ▸ record_proper h.cache _ ids sequence, hdim ▸ h.merges⟩
  | sealHead hrun => exact ⟨seal_head_proper h.cache hrun, h.merges⟩
  | captureMerge =>
      refine ⟨h.cache, fun merge hmerge => ?_⟩
      rcases mem_append.1 hmerge with hmerge | hmerge
      · exact h.merges merge hmerge
      · rw [mem_singleton.1 hmerge]
        exact capture_proper h.cache
  | build hmerge hbuild =>
      refine ⟨allocate_proper h.cache _, fun merge hmem => ?_⟩
      rcases mem_or_eq_of_mem_set hmem with hmem | rfl
      · exact h.merges merge hmem
      · exact build_proper
          (h.merges _ (mem_of_getElem? hmerge)) hbuild
  | publishMerge hmerge =>
      exact ⟨publish_merge_proper h.cache
        (h.merges _ (mem_of_getElem? hmerge)),
        fun merge hmem => h.merges merge (eraseIdx_subset hmem)⟩
  | mergeSealedRuns hrun =>
      exact ⟨merge_sealed_runs_proper h.cache hrun, h.merges⟩
  | publish generation => exact ⟨⟨h.cache.runs, h.cache.head, h.cache.frozen, nofun⟩, h.merges⟩
  | invalidate => exact ⟨invalidate_proper h.cache, h.merges⟩
  | reset => exact ⟨reset_proper _ _, h.merges⟩
  | acquire config generation catalog pinned =>
      exact ⟨(acquire_proper h.cache rfl config generation _ catalog pinned).1,
        h.merges⟩

theorem reachable_proper (h : ReaderReachable reader) : reader.Proper := by
  induction h with
  | start table sequence hwf hdim => exact ⟨⟨nofun, nofun, nofun, nofun⟩, nofun⟩
  | step hbefore hstep ih => exact step_proper (reachable_valid hbefore) ih hstep

end Reader

/-! ## What a captured root is -/

/-- A root over a table: its layers show the table, and its runs are proper. -/
structure ReadGeneration.Over (root : ReadGeneration) (table : MemTable) : Prop where
  shows : root.Shows table
  proper : root.Proper table.dimension
  table_wf : table.WellFormed
  dimension_pos : 0 < table.dimension

theorem acquire_over {reader : Reader} (h : ReaderReachable reader) {config : ReadConfig}
    {generation : Nat} {catalog : Option Nat} {pinned : Except String Unit}
    {cache : ReadGenerationCache} {root : ReadGeneration}
    (hrun : reader.cache.acquire config generation reader.sequence reader.table catalog pinned =
      (cache, .ok root)) : root.Over reader.table := by
  have hvalid := Reader.reachable_valid h
  have hcaptures := acquire_captures hvalid.tracks hvalid.table_wf config
    generation reader.sequence catalog pinned
  have hproper := acquire_proper (Reader.reachable_proper h).cache rfl config
    generation reader.sequence catalog pinned
  rw [hrun] at hcaptures hproper
  obtain ⟨hshown, -⟩ := hcaptures.result_ok root rfl
  exact ⟨hshown.elim (hvalid.root_shows root) id, hproper.2 root rfl, hvalid.table_wf,
    hvalid.dimension_pos⟩

end Akasha.Storage

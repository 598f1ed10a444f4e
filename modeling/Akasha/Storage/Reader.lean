import Akasha.Storage.ReadView

/-!
# Readers see the writer's state

A writer commits batches into its table and records them with the publisher; seals, merges that
are built away from the writer's lock, manifest publications, resets and captures come in any
order. A root that a capture returns shows the table of that moment.
-/

namespace Akasha.Storage

open Lib Index ReadGenerationCache List

/-- A writer, its accepted sequence, its publisher and the merges in progress. -/
structure Reader where
  table : MemTable
  sequence : Nat
  cache : ReadGenerationCache
  merges : List SealedMerge

/-- The start: a recovered table and an empty publisher. -/
def Reader.start (table : MemTable) (sequence : Nat) : Reader :=
  ⟨table, sequence, .new, []⟩

/-- One step of the writer's lock or of a merge in the background. -/
inductive ReaderStep : Reader → Reader → Prop where
  /-- A committed batch, recorded with at least the points that it changed. -/
  | commit {reader : Reader} {changes : List MemTable.Change} {table : MemTable}
      (ids : List Int64) (sequence : Nat)
      (happly : reader.table.applyChanges changes = .ok table)
      (hids : ∀ change ∈ changes, change.id ∈ ids) :
      ReaderStep reader { reader with
        table := table
        sequence := sequence
        cache := reader.cache.record table ids sequence }
  | sealHead {reader : Reader} {cache : ReadGenerationCache}
      (hrun : reader.cache.sealHead = .ok cache) : ReaderStep reader { reader with cache := cache }
  | captureMerge {reader : Reader} :
      ReaderStep reader { reader with merges := reader.merges ++ [reader.cache.captureMerge] }
  | build {reader : Reader} {i : Nat} {merge built : SealedMerge}
      (hmerge : reader.merges[i]? = some merge)
      (hrun : merge.build reader.cache.allocated = .ok built) :
      ReaderStep reader { reader with
        cache := { reader.cache with allocated := reader.cache.allocated + 1 }
        merges := reader.merges.set i built }
  | publishMerge {reader : Reader} {i : Nat} {merge : SealedMerge}
      (hmerge : reader.merges[i]? = some merge) :
      ReaderStep reader { reader with
        cache := (reader.cache.publishMerge merge).1
        merges := reader.merges.eraseIdx i }
  | mergeSealedRuns {reader : Reader} {cache : ReadGenerationCache}
      (hrun : reader.cache.mergeSealedRuns = .ok cache) :
      ReaderStep reader { reader with cache := cache }
  | publish {reader : Reader} (generation : Nat) :
      ReaderStep reader { reader with cache := reader.cache.publish generation }
  | invalidate {reader : Reader} :
      ReaderStep reader { reader with cache := reader.cache.invalidate }
  | reset {reader : Reader} : ReaderStep reader { reader with cache := reader.cache.reset }
  | acquire {reader : Reader} (config : ReadConfig) (generation : Nat) (catalog : Option Nat)
      (pinned : Except String Unit) :
      ReaderStep reader { reader with
        cache := (reader.cache.acquire config generation reader.sequence reader.table catalog
          pinned).1 }

/-- What any run from a well-formed table reaches. -/
inductive ReaderReachable : Reader → Prop where
  | start (table : MemTable) (sequence : Nat) (hwf : table.WellFormed)
      (hdim : 0 < table.dimension) : ReaderReachable (.start table sequence)
  | step {before after : Reader} (h : ReaderReachable before) (hstep : ReaderStep before after) :
      ReaderReachable after

namespace Reader

/-- The runs that the merges in progress hold on to. -/
def held (reader : Reader) : List ReadRun :=
  reader.merges.flatMap heldRuns

/-- The publisher and its cached root show the writer's table, and the merges in progress hold
what they captured. -/
structure Valid (reader : Reader) : Prop where
  table_wf : reader.table.WellFormed
  dimension_pos : 0 < reader.table.dimension
  tracks : reader.cache.Tracks reader.table
  root_shows : ∀ root, reader.cache.root = some root → root.Shows reader.table
  merges_valid : ∀ merge ∈ reader.merges, ReadGenerationCache.MergeValid merge
  coherent : Coherent reader.cache.allocated (reader.cache.runs ++ reader.held)

variable {reader : Reader}

theorem start_valid {table : MemTable} (sequence : Nat) (hwf : table.WellFormed)
    (hdim : 0 < table.dimension) : (start table sequence).Valid where
  table_wf := hwf
  dimension_pos := hdim
  tracks := ⟨⟨trivial, by simp [start, new], nofun, nofun⟩,
    fun hne => absurd rfl hne⟩
  root_shows := nofun
  merges_valid := nofun
  coherent := ⟨nofun, nofun⟩

theorem held_of_mem {merge : SealedMerge} {merges : List SealedMerge} (h : merge ∈ merges) :
    heldRuns merge ⊆ merges.flatMap heldRuns :=
  fun _ hrun => mem_flatMap.2 ⟨merge, h, hrun⟩

theorem held_mono {merges merges' : List SealedMerge} (h : merges ⊆ merges') :
    merges.flatMap heldRuns ⊆ merges'.flatMap heldRuns := by
  intro run hrun
  obtain ⟨merge, hmerge, hrun⟩ := mem_flatMap.1 hrun
  exact mem_flatMap.2 ⟨merge, h hmerge, hrun⟩

/-- Every step keeps the publisher in agreement with the writer. -/
theorem step_valid {after : Reader} (h : reader.Valid) (hstep : ReaderStep reader after) :
    after.Valid := by
  cases hstep with
  | commit ids sequence happly hids =>
      obtain ⟨hwf, hdim, hother, -⟩ := MemTable.apply_changes_ok h.table_wf h.dimension_pos happly
      obtain ⟨htracks, hallocates, hroot⟩ := record_tracks h.tracks hwf
        sequence fun id hid => hother id fun hmem => by
          obtain ⟨change, hchange, rfl⟩ := mem_map.1 hmem
          exact hid (hids change hchange)
      refine ⟨hwf, hdim ▸ h.dimension_pos, htracks, fun root heq => ?_, h.merges_valid,
        hallocates _ h.coherent⟩
      cases hroot ▸ heq
  | sealHead hrun =>
      obtain ⟨hkeeps, hsame⟩ := seal_head_ok h.tracks.valid hrun
      have hne : reader.cache.layers ≠ [] := by
        refine h.tracks.valid.head_iff.1 ?_
        cases hhead : reader.cache.head with
        | none =>
            unfold sealHead at hrun
            simp [hhead, throw, throwThe, MonadExceptOf.throw] at hrun
        | some head => rfl
      exact ⟨h.table_wf, h.dimension_pos, ⟨hkeeps.valid, fun _ id =>
        (hsame id).trans (h.tracks.newest_eq hne id)⟩, hkeeps.root_eq ▸ h.root_shows,
        h.merges_valid, hkeeps.allocates _ h.coherent⟩
  | captureMerge =>
      refine ⟨h.table_wf, h.dimension_pos, h.tracks, h.root_shows, ?_, ?_⟩
      · intro merge hmerge
        rcases mem_append.1 hmerge with hmerge | hmerge
        · exact h.merges_valid merge hmerge
        · exact mem_singleton.1 hmerge ▸
            capture_valid h.tracks.valid
      · refine coherent_mono h.coherent le_rfl ?_
        intro run hrun
        simp only [held, flatMap_append, flatMap_cons, flatMap_nil,
          heldRuns, captureMerge, Option.toList_none,
          append_nil, mem_append] at hrun ⊢
        unfold runs at hrun ⊢
        tauto
  | build hmerge hbuild =>
      rename_i i merge built
      have hmem := mem_of_getElem? hmerge
      obtain ⟨hvalid, base, howner, hheld⟩ :=
        build_valid (h.merges_valid merge hmem) hbuild
      refine ⟨h.table_wf, h.dimension_pos, ⟨⟨h.tracks.valid.layered, h.tracks.valid.head_iff,
        h.tracks.valid.head_wf, h.tracks.valid.frozen_eq⟩, h.tracks.newest_eq⟩, h.root_shows,
        ?_, ?_⟩
      · intro other hother
        rcases mem_or_eq_of_mem_set hother with hother | rfl
        · exact h.merges_valid other hother
        · exact hvalid
      · refine coherent_mono (coherent_cons h.coherent howner) le_rfl ?_
        intro run hrun
        rcases mem_append.1 hrun with hrun | hrun
        · exact mem_cons_of_mem _ (List.mem_append_left _ hrun)
        · obtain ⟨other, hother, hrun⟩ := mem_flatMap.1 hrun
          rcases mem_or_eq_of_mem_set hother with hother | heq
          · exact mem_cons_of_mem _ (List.mem_append_right _
              (held_of_mem hother hrun))
          · rw [heq, hheld] at hrun
            rcases mem_append.1 hrun with hrun | hrun
            · exact mem_cons_of_mem _ (List.mem_append_right _
                (held_of_mem hmem (List.mem_append_left _ hrun)))
            · exact mem_singleton.1 hrun ▸ mem_cons_self
  | publishMerge hmerge =>
      rename_i i merge
      have hmem := mem_of_getElem? hmerge
      obtain ⟨htracks, hcoherent, hroot⟩ := publish_merge_tracks h.tracks
        (h.merges_valid merge hmem) (held_of_mem hmem) h.coherent
      have hsub := eraseIdx_subset (l := reader.merges) (k := i)
      refine ⟨h.table_wf, h.dimension_pos, htracks, fun root heq => ?_, fun other hother =>
        h.merges_valid other (hsub hother), coherent_mono hcoherent le_rfl ?_⟩
      · rcases hroot with hroot | hroot
        · cases hroot ▸ heq
        · exact h.root_shows root (hroot ▸ heq)
      · intro run hrun
        rcases mem_append.1 hrun with hrun | hrun
        · exact mem_append_left _ hrun
        · exact mem_append_right _ (held_mono hsub hrun)
  | mergeSealedRuns hrun =>
      obtain ⟨htracks, hcoherent, hroot⟩ :=
        merge_sealed_runs_tracks h.tracks hrun h.coherent
      refine ⟨h.table_wf, h.dimension_pos, htracks, fun root heq => ?_, h.merges_valid, hcoherent⟩
      rcases hroot with hroot | hroot
      · cases hroot ▸ heq
      · exact h.root_shows root (hroot ▸ heq)
  | publish generation =>
      exact ⟨h.table_wf, h.dimension_pos, ⟨⟨h.tracks.valid.layered, h.tracks.valid.head_iff,
        h.tracks.valid.head_wf, h.tracks.valid.frozen_eq⟩, h.tracks.newest_eq⟩, (by intros; contradiction),
        h.merges_valid, h.coherent⟩
  | invalidate =>
      exact ⟨h.table_wf, h.dimension_pos, ⟨⟨h.tracks.valid.layered, h.tracks.valid.head_iff,
        h.tracks.valid.head_wf, h.tracks.valid.frozen_eq⟩, h.tracks.newest_eq⟩, (by intros; contradiction),
        h.merges_valid, h.coherent⟩
  | reset =>
      exact ⟨h.table_wf, h.dimension_pos, reset_tracks _ _, (by intros; contradiction),
        h.merges_valid, reset_allocates _ _ h.coherent⟩
  | acquire config generation catalog pinned =>
      have hcaptures := acquire_captures h.tracks h.table_wf config generation
        reader.sequence catalog pinned
      refine ⟨h.table_wf, h.dimension_pos, hcaptures.tracks, fun root heq => ?_, h.merges_valid,
        hcaptures.allocates _ h.coherent⟩
      rcases hcaptures.root_ok root heq with hroot | hshows
      · exact h.root_shows root hroot
      · exact hshows

theorem reachable_valid (h : ReaderReachable reader) : reader.Valid := by
  induction h with
  | start table sequence hwf hdim => exact start_valid sequence hwf hdim
  | step _ hstep ih => exact step_valid ih hstep

end Reader

/-! ## What a shown table means for a reader -/

namespace ReadGeneration

variable {root : ReadGeneration} {table : MemTable}

theorem rows_perm (h : root.Shows table) (htable : table.WellFormed) :
    root.rows.Perm (table.entries.filter (!·.tombstone)) := by
  have hnodup := (List.Nodup.of_map _ (rows_nodup h.layered))
  have hids := List.Nodup.of_map _ (MemTable.ids_nodup htable)
  refine (List.perm_ext_iff_of_nodup hnodup (hids.filter _)).2 fun e => ?_
  rw [mem_rows h.layered, h.newest_eq, MemTable.state_eq_some_iff htable, mem_filter]
  simp

end ReadGeneration

/-- A captured root shows the writer's table at its sequence: `find` answers with the live state
of a point, the visible rows have each live point once, and the counts are the table's. -/
theorem acquire_shows_table {reader : Reader} (h : ReaderReachable reader) {config : ReadConfig}
    {generation : Nat} {catalog : Option Nat} {pinned : Except String Unit}
    {cache : ReadGenerationCache} {root : ReadGeneration}
    (hrun : reader.cache.acquire config generation reader.sequence reader.table catalog pinned =
      (cache, .ok root)) :
    root.sequence = reader.sequence ∧
      (∀ id, ((root.find id).bind fun place => root.entryAt place.1 place.2) =
        (reader.table.state id).filter (!·.tombstone)) ∧
      (root.rows.map (·.id)).Nodup ∧
      (∀ entry, entry ∈ root.rows ↔
        reader.table.state entry.id = some entry ∧ entry.tombstone = false) ∧
      root.visibleCount = root.rows.length ∧ root.visibleCount = reader.table.liveCount ∧
      root.denseCount = root.rows.countP (·.hasDense) ∧
      root.denseCount = reader.table.denseLiveCount := by
  have hvalid := Reader.reachable_valid h
  have hcaptures := acquire_captures hvalid.tracks hvalid.table_wf config
    generation reader.sequence catalog pinned
  rw [hrun] at hcaptures
  obtain ⟨hshown, hsequence⟩ := hcaptures.result_ok root rfl
  have hshows : root.Shows reader.table := hshown.elim (hvalid.root_shows root) id
  have hperm := ReadGeneration.rows_perm hshows hvalid.table_wf
  have hwf := hvalid.table_wf
  refine ⟨hsequence, fun id => ?_, ReadGeneration.rows_nodup hshows.layered, fun entry => ?_,
    ?_, hshows.visible_eq, ?_, hshows.dense_eq⟩
  · rw [ReadGeneration.find_eq hshows.layered, hshows.newest_eq]
  · rw [← hshows.newest_eq]
    exact ReadGeneration.mem_rows hshows.layered
  · rw [hshows.visible_eq, hwf.live_eq, countP_eq_length_filter, hperm.length_eq]
  · rw [hshows.dense_eq, hwf.dense_eq, hperm.countP_eq, countP_filter]
    refine countP_congr fun e _ => ?_
    unfold MemTableEntry.isDenseLive
    rw [Bool.and_comm]

/-- Four live points: two are alike, and a third one has another payload. -/
def sampleTable : MemTable :=
  ((((MemTable.empty 1).put (.withFields 1 1 false [⟨0⟩] [])).put
    (.withFields 3 2 false [⟨0x3F800000⟩] [⟨"a", .integer 1⟩])).put
    (.withFields 2 3 false [⟨0x3F800000⟩] [⟨"a", .integer 1⟩])).put
    (.withFields 4 4 false [⟨0x40000000⟩] [⟨"a", .integer 2⟩])

/-- A writer that captured its table and then deleted a point. -/
def sampleReader : Reader :=
  let start := Reader.start sampleTable 4
  let captured := (start.cache.acquire ⟨1, 0, .ok ()⟩ 0 4 sampleTable none (.ok ())).1
  let table := sampleTable.put (MemTable.tombstoneOf 1 5)
  ⟨table, 5, captured.record table [1] 5, []⟩

theorem sample_reader_reachable : ReaderReachable sampleReader := by
  have hwf : sampleTable.WellFormed := (MemTable.put_spec (MemTable.put_spec (MemTable.put_spec
    (MemTable.put_spec (MemTable.empty_well_formed 1) _).1 _).1 _).1 _).1
  refine .step (.step (.start sampleTable 4 hwf (by decide +kernel))
    (.acquire ⟨1, 0, .ok ()⟩ 0 none (.ok ()))) ?_
  exact @ReaderStep.commit _ [.put (MemTable.tombstoneOf 1 5)] _ [1] 5 rfl
    (fun change hchange => by rw [List.mem_singleton.1 hchange]; decide)

/-- The root over the base and the head has three rows. -/
theorem acquire_shows_table_sample : ∃ cache root,
    sampleReader.cache.acquire ⟨1, 0, .ok ()⟩ 0 sampleReader.sequence sampleReader.table none
      (.ok ()) = (cache, .ok root) ∧
      root.visibleCount = 3 ∧ root.rows.length = 3 ∧ root.layers.length = 2 := by
  have hok : (sampleReader.cache.acquire ⟨1, 0, .ok ()⟩ 0 sampleReader.sequence
      sampleReader.table none (.ok ())).2.toOption.any (·.layers.length = 2) = true := by
    decide +kernel
  have hlive : sampleReader.table.liveCount = 3 := by decide +kernel
  cases hout : sampleReader.cache.acquire ⟨1, 0, .ok ()⟩ 0 sampleReader.sequence
      sampleReader.table none (.ok ()) with
  | mk cache result =>
      rw [hout] at hok
      cases result with
      | error e => cases hok
      | ok root =>
          obtain ⟨-, -, -, -, hrows, hcount, -, -⟩ :=
            acquire_shows_table sample_reader_reachable hout
          exact ⟨cache, root, rfl, hcount.trans hlive, hrows.symm.trans (hcount.trans hlive),
            by simpa [Except.toOption] using hok⟩

end Akasha.Storage

import Akasha.Storage.StorePlan
import Akasha.Storage.StoreWrite

/-!
# Checkpoints of an open store

`checkpoint` writes a segment under a name of its own, publishes a manifest that names it, starts
the logs anew and removes what is referenced no more. `wp_checkpoint` is the main theorem: it
returns with a store all of whose batches are durable, or leaves the store as it was, or leaves a
store that writes no more over a directory that still keeps the history.
-/

namespace Akasha.Storage

open Lib Lib.Exec List
open Durable (VolumeM Done Cut)
open PointStore (SegmentPlan)

section

variable {c : Collection} {batches : List (List PointMutation)} {sure covered : Nat}
  {s : Scheduled Desk} {names : List String} {volume volume' : Volume}

/-! ## Names of their own -/

/-- Names that were free, of segments or of graphs. -/
structure Fresh (volume : Volume) (names : List String) : Prop where
  kind : ∀ name ∈ names, PointName name ∨ GraphName name
  absent : ∀ name ∈ names, PointName name → volume.now name = none

theorem authority_kind : ∀ name ∈ authorityFiles, ¬ (PointName name ∨ GraphName name) := by
  unfold PointName GraphName
  decide

theorem graph_prefix : ManifestFile.hnswNamePrefix = [0x68, 0x6E, 0x73, 0x77, 0x2D] := by
  decide

theorem point_prefix : utf8Bytes "point-" = [0x70, 0x6F, 0x69, 0x6E, 0x74, 0x2D] := by
  decide

theorem graph_not_point {name : String} (h : GraphName name) : ¬ PointName name := by
  rintro ⟨back, hback⟩
  obtain ⟨front, hfront⟩ := h
  have heq := hfront.trans hback.symm
  rw [ graph_prefix, point_prefix, cons_append, cons_append] at heq
  exact absurd (List.cons.inj heq).1 (by decide)

theorem Fresh.free (h : Fresh volume names) (hkept : Kept c batches sure volume) :
    Free c names volume :=
  hkept.free (fun name hname hmem => authority_kind name hname (h.kind name hmem)) h.absent

theorem point_kinds : utf8Bytes "point-" <+: utf8Bytes "point-base-" ∧
    utf8Bytes "point-" <+: utf8Bytes "point-delta-" := by
  decide

theorem point_checkpoint_name (kind : Nat) (sequence generation : UInt64) (claim : Nat) :
    PointName (pointCheckpointName kind sequence generation claim) := by
  unfold PointName pointCheckpointName
  simp only [ManifestFile.utf8_bytes_append, append_assoc]
  refine List.IsPrefix.trans ?_ (List.prefix_append _ _)
  by_cases hkind : kind = 1
  · rw [if_pos hkind]
    exact point_kinds.1
  · rw [if_neg hkind]
    exact point_kinds.2

/-- A name leads to a durable file. -/
def Written (bytes : List UInt8) (name : String) (volume : Volume) : Prop :=
  volume.now name = some (.durable bytes)

theorem fresh_nil : Fresh volume [] :=
  ⟨fun _ hname => absurd hname not_mem_nil, fun _ hname => absurd hname not_mem_nil⟩

/-- A segment is written under a name that was free. -/
theorem wp_write_point_checkpoint {s : Scheduled Volume} (kind : Nat)
    (sequence generation : UInt64) (bytes : List UInt8) :
    wp (writePointCheckpoint kind sequence generation bytes)
      (fun name s' => PointName name ∧ s.state.now name = none ∧
        s'.state.Fixed name (some bytes) ∧
        ∃ names, Fresh s.state names ∧ Volume.Quiet names s.state s'.state)
      (fun _ s' => ∃ names, Fresh s.state names ∧ Volume.Quiet names s.state s'.state) s := by
  have hnames : ∀ name ∈ (List.range 1024).map (pointCheckpointName kind sequence generation),
      PointName name := by
    intro name hname
    obtain ⟨claim, -, rfl⟩ := mem_map.1 hname
    exact point_checkpoint_name kind sequence generation claim
  unfold writePointCheckpoint
  generalize (List.range 1024).map (pointCheckpointName kind sequence generation) = claims
    at hnames ⊢
  have hfresh : Fresh s.state (Durable.claimed claims (fun name => [name]) s.state) := by
    refine ⟨fun name hname => ?_, fun name hname _ => ?_⟩ <;>
      obtain ⟨other, hother, hnow, hmem⟩ := Durable.mem_claimed.1 hname <;>
      obtain rfl := mem_singleton.1 hmem
    · exact .inl (hnames name hother)
    · exact hnow
  have hbuild : ∀ name (s : Scheduled Volume), s.state.now name = some (.durable []) →
      wp (Durable.writeFileSync name bytes)
        (fun _ s' => Written bytes name s'.state ∧ Done [name] s s')
        (fun _ s' => Volume.Quiet [name] s.state s'.state) s := fun name s _ =>
    wp_mono (Durable.wp_write_file_sync (List.mem_singleton_self name) bytes)
      (fun _ _ hpost => hpost) fun _ _ hcut => hcut.quiet
  have hclean : ∀ name (s : Scheduled Volume), wp (Durable.removeFileIfExists name)
      (fun _ s' => Volume.Quiet [name] s.state s'.state)
      (fun _ s' => Volume.Quiet [name] s.state s'.state) s := fun name s =>
    wp_mono (Durable.wp_remove_file_if_exists (List.mem_singleton_self name))
      (fun _ _ hpost => hpost.2.quiet) fun _ _ hcut => hcut.quiet
  refine wp_mono (Durable.wp_claim_exclusive (fun name => mem_singleton_self name) hbuild
    (fun name volume h => h) hclean) (fun name s' hpost => ?_)
    fun _ s' hquiet => ⟨_, hfresh, hquiet⟩
  obtain ⟨hname, hnow, hbuilt, hsince, hdone⟩ := hpost
  have hthere : s'.state.now name = some (.durable bytes) := hbuilt
  refine ⟨hnames name hname, hnow, fun entry hentry => ?_, _, hfresh, hdone.quiet⟩
  rw [Volume.entries, hthere, hsince] at hentry
  exact mem_singleton.1 hentry

/-! ## Retired files -/

theorem Obsolete.free (h : Obsolete c volume names) (hkept : Kept c batches sure volume) :
    Free c names volume := by
  refine ⟨fun name hname hmem => authority_kind name hname (h name hmem).1,
    fun name hmem hmentioned => ?_⟩
  exact ((h name hmem).2 (hkept.mentioned hmentioned).1).2 hmentioned

theorem Obsolete.fresh (h : Obsolete c volume names) {changed : List String}
    (hfresh : Fresh volume changed) (hquiet : Volume.Quiet changed volume volume') :
    Obsolete c volume' names := by
  have hmanifest : manifestFile ∉ changed := fun hmem =>
    authority_kind manifestFile mem_authority.2.1 (hfresh.kind _ hmem)
  intro name hname
  obtain ⟨hkind, hpoint⟩ := h name hname
  refine ⟨hkind, fun hnamed => ?_⟩
  obtain ⟨hnow, hmentioned⟩ := hpoint hnamed
  rw [hquiet.now name fun hmem => hnow (hfresh.absent name hmem hnamed)]
  exact ⟨hnow, fun hlater => hmentioned (hlater.before hquiet hmanifest)⟩

variable {desk : Desk}

theorem Running.fresh (h : Running c batches sure covered desk) (hfresh : Fresh desk.volume names)
    (hquiet : Volume.Quiet names desk.volume volume) :
    Running c batches sure covered { desk with volume := volume } :=
  ⟨h.settled.quiet hquiet (hfresh.free h.settled.kept), h.catalog_eq, h.shows, h.writer, h.locked,
    h.healthy, h.checkpoint_eq, h.checkpoint_le, h.retired.fresh hfresh hquiet⟩

theorem wp_reclaim_retired {s : Scheduled Volume} (leased : String → Bool) :
    wp (reclaimRetired leased names)
      (fun out s' => Volume.Quiet names s.state s'.state ∧
        ∀ name ∈ out, name ∈ names ∧ s'.state.now name ≠ none)
      (fun _ s' => Volume.Quiet names s.state s'.state) s := by
  unfold reclaimRetired
  by_cases hempty : names.length = 0
  · rw [if_pos hempty]
    exact ⟨Volume.quiet_refl names s.state, fun name hname => absurd hname not_mem_nil⟩
  · rw [if_neg hempty, wp_bind]
    refine wp_mono (Durable.wp_touch names) (fun _ s₁ hpost => ?_) fun _ _ hcut => hcut.quiet
    obtain ⟨-, h₁⟩ := hpost
    rw [wp_bind]
    refine wp_mono (wp_reclaim_files fun name hname => hname) (fun out s₂ hpost => ?_)
      fun _ _ hpost => h₁.quiet.trans hpost.1
    obtain ⟨h₂, hout⟩ := hpost
    have hquiet := h₁.quiet.trans h₂.done.quiet
    cases hremoved : out.2 with
    | false =>
        show wp (if out.2 = true then _ else _) _ _ s₂
        rw [if_neg (by rw [hremoved]; exact Bool.false_ne_true)]
        exact ⟨hquiet, hout⟩
    | true =>
        show wp (if out.2 = true then _ else _) _ _ s₂
        rw [if_pos hremoved, wp_bind]
        refine ScheduleM.wp_step (fun s₃ hs₃ _ => ?_) fun _ s₃ hs₃ _ => hs₃ ▸ hquiet
        rw [wp_pure, hs₃]
        exact ⟨hquiet.trans Volume.quiet_sync_directory, hout⟩

theorem wp_retire_or_reclaim (surroundings : Surroundings) (retired : List String) :
    wp (PointStore.retireOrReclaim surroundings retired)
      (fun _ s' => Volume.Quiet (s.state.store.retired ++ retired) s.state.volume s'.state.volume ∧
        ∃ retained, s'.state.store = { s.state.store with retired := retained } ∧
          ∀ name ∈ retained, name ∈ s.state.store.retired ++ retired ∧
            s'.state.volume.now name ≠ none)
      (fun _ s' => Volume.Quiet (s.state.store.retired ++ retired) s.state.volume s'.state.volume ∧
        s'.state.store = { s.state.store with retired := s.state.store.retired ++ retired }) s := by
  unfold PointStore.retireOrReclaim
  rw [wp_bind, wp_modify_store, wp_bind, ScheduleM.wp_get, wp_bind, wp_on_volume]
  refine wp_mono (wp_reclaim_retired surroundings.leased) (fun out inner hpost => ?_)
    fun _ inner hquiet => ⟨hquiet, rfl⟩
  rw [wp_modify_store]
  exact ⟨hpost.1, out, rfl, hpost.2⟩

/-- A store in the middle of a checkpoint. Unless the checkpoint ends it writes no more. -/
structure Underway (c : Collection) (batches : List (List PointMutation)) (store : PointStore) :
    Prop where
  catalog_eq : store.catalog = c.catalog
  shows : store.table.Shows c.catalog batches
  writer : store.table.writeFailed = false
  locked : store.locked = true
  failed : store.ioFailed = true

variable {store : PointStore}

theorem Underway.broken (h : Underway c batches store) :
    Broken c batches store :=
  ⟨.inl h.failed, h.shows, h.locked⟩

variable {next : ManifestFile.Manifest} {retired : List String}

/-- The last steps of a checkpoint. -/
theorem wp_finish_checkpoint (surroundings : Surroundings)
    (hsettled : Settled c batches batches.length batches.length (some next) s.state.volume)
    (hstore : Underway c batches s.state.store)
    (hcheckpoint : s.state.store.pointCheckpoint = true)
    (hmanifest : s.state.store.manifest = some next)
    (hobsolete : Obsolete c s.state.volume (s.state.store.retired ++ retired)) :
    wp (do
        PointStore.retireOrReclaim surroundings retired
        PointStore.modifyStore fun store => { store with ioFailed := false })
      (fun _ s' => Running c batches batches.length batches.length s'.state)
      (fun _ s' => Broken c batches s'.state.store ∧
        Kept c batches batches.length s'.state.volume) s := by
  have hfree := hobsolete.free hsettled.kept
  rw [wp_bind]
  refine wp_mono (wp_retire_or_reclaim surroundings retired) (fun _ s' hpost => ?_)
    fun _ s' hpost => ?_
  · obtain ⟨hquiet, retained, heq, hretained⟩ := hpost
    have hafter := hsettled.quiet hquiet hfree
    rw [wp_modify_store, heq]
    have hsequence : s.state.store.table.checkpointSequence ≤
        sequenceAfter c.catalog (batches.take batches.length) := by
      rw [List.take_length, ← hstore.shows.last_eq]
      exact hstore.shows.valid.checkpoint_le
    refine ⟨hmanifest.symm ▸ hafter, hstore.catalog_eq, hstore.shows, hstore.writer,
      hstore.locked, rfl, ?_, hsequence, fun name hname => ?_⟩
    · show s.state.store.pointCheckpoint = s.state.store.manifest.isSome
      rw [hcheckpoint, hmanifest]
      rfl
    · obtain ⟨hmem, hnow⟩ := hretained name hname
      obtain ⟨hkind, hpoint⟩ := hobsolete name hmem
      exact ⟨hkind, fun hnamed => ⟨hnow, fun hlater => (hpoint hnamed).2
        (hlater.before hquiet (hfree.authority _ mem_authority.2.1))⟩⟩
  · obtain ⟨hquiet, heq⟩ := hpost
    rw [heq]
    exact ⟨⟨.inl hstore.failed, hstore.shows, hstore.locked⟩, (hsettled.quiet hquiet hfree).kept⟩

/-! ## Publishing -/

theorem Settled.present {manifest : ManifestFile.Manifest}
    (h : Settled c batches sure covered (some manifest) volume) :
    ∃ bytes, Committed c.catalog (batches.take covered) volume.files manifest bytes ∧
      volume.Fixed manifestFile (some bytes) ∧
      ∀ segment ∈ manifest.segments, ∃ content, volume.Fixed segment.name (some content) := by
  obtain ⟨content, hcontent, hcheckpoint⟩ := h.checkpoint
  cases hcheckpoint with
  | present hcommitted hfixed => exact ⟨_, hcommitted, hcontent, hfixed⟩

theorem Settled.mentions {manifest : ManifestFile.Manifest}
    (h : Settled c batches sure covered (some manifest) volume)
    {segment : ManifestFile.SegmentDescriptor} (hsegment : segment ∈ manifest.segments) :
    Mentioned c volume segment.name := by
  obtain ⟨bytes, hcommitted, hcontent, -⟩ := h.present
  refine ⟨manifest, bytes, ?_, hcommitted.constructed, hcommitted.encoded,
    hcommitted.checkpointed.dimension_eq, segment, hsegment, rfl⟩
  exact mem_cons.2 (.inl hcontent.now.symm)

/-- A manifest is published, or the old one stays, or either may be found after a crash. -/
theorem wp_publish_manifest {s : Scheduled Volume} {manifest : Option ManifestFile.Manifest}
    (h : Settled c batches sure covered manifest s.state)
    (hconstructed : ManifestFile.Constructed next)
    (hnext : Checkpointed c.catalog batches s.state.files next)
    (hfixed : ∀ segment ∈ next.segments, ∃ content, s.state.Fixed segment.name (some content)) :
    wp (publishManifest next)
      (fun _ s' => Settled c batches batches.length batches.length (some next) s'.state ∧
        Volume.Quiet [manifestTemporary, manifestFile] s.state s'.state)
      (fun _ s' => Kept c batches sure s'.state) s := by
  unfold publishManifest
  rw [wp_bind, ScheduleM.wp_of_except]
  refine ⟨fun bytes hbytes => ?_, fun _ _ => h.kept⟩
  have hthere : ∀ segment ∈ next.segments, (s.state.files segment.name).isSome := by
    intro segment hsegment
    obtain ⟨content, hcontent⟩ := hfixed segment hsegment
    rw [hcontent.files]
    rfl
  have hcheckpoint : CheckpointAt c batches s.state batches.length (some next) (some bytes) := by
    refine .present ⟨hconstructed, hbytes, ?_, hthere⟩ hfixed
    rw [List.take_length]
    exact hnext
  refine wp_mono (Durable.wp_replace_file (by decide) bytes) (fun _ s' hpost => ?_)
    fun e s' hpost => ?_
  · obtain ⟨hnow, hsince, hdone⟩ := hpost
    exact ⟨h.published hcheckpoint hnow hsince hdone.quiet, hdone.quiet⟩
  · obtain ⟨hreplaced, hcut⟩ := hpost
    exact h.publishing hcheckpoint hreplaced hcut.quiet

theorem Settled.obsolete (h : Settled c batches batches.length batches.length (some next) volume')
    (hquiet : Volume.Quiet [manifestTemporary, manifestFile] volume volume')
    (hnames : ∀ name ∈ names, (PointName name ∨ GraphName name) ∧
      (PointName name → volume.now name ≠ none ∧
        ∀ segment ∈ next.segments, segment.name ≠ name)) :
    Obsolete c volume' names := by
  intro name hname
  obtain ⟨hkind, hpoint⟩ := hnames name hname
  refine ⟨hkind, fun hnamed => ?_⟩
  obtain ⟨hnow, hother⟩ := hpoint hnamed
  rw [hquiet.now name fun hmem => publish_plain name hmem hnamed]
  refine ⟨hnow, fun hmentioned => ?_⟩
  obtain ⟨file, -, hopened⟩ := h.opened
  obtain ⟨named, hnext, segment, hsegment, heq⟩ := hopened.mentioned hmentioned
  obtain rfl := Option.some.inj hnext
  exact hother segment hsegment heq

/-! ## A new graph -/

variable {old : ManifestFile.Manifest}

theorem Running.covers (h : Running c batches sure covered desk)
    (hold : desk.store.manifest = some old)
    (hlast : old.lastSequence = UInt64.ofNat desk.store.table.lastSequence) :
    covered = batches.length := by
  have hsettled := h.settled
  have hle := hsettled.covered_le
  rw [hold] at hsettled
  obtain ⟨bytes, hcommitted, -⟩ := hsettled.present
  obtain ⟨points, hhistory, -⟩ := h.shows.history
  have hall : batches.take covered = batches := by
    refine hhistory.take_all ?_
    rw [← hcommitted.checkpointed.last_eq, hlast, UInt64.toNat_ofNat_of_lt' h.shows.last_lt,
      h.shows.last_eq]
  rw [← Nat.min_eq_left hle, ← length_take, hall]

theorem Running.secured (h : Running c batches sure batches.length desk) :
    Running c batches batches.length batches.length desk :=
  ⟨⟨h.settled.history, h.settled.identity, h.settled.sparse, h.settled.checkpoint, h.settled.log,
    h.settled.logs.mono fun _ hentry => hentry.later le_rfl, h.settled.log_since⟩, h.catalog_eq,
    h.shows, h.writer, h.locked, h.healthy, h.checkpoint_eq, h.checkpoint_le, h.retired⟩

/-- A graph is published for the checkpoint that is there. -/
theorem wp_publish_graph (surroundings : Surroundings)
    (h : Running c batches sure covered s.state) (hplan : PlannedGraph s.state.store next retired) :
    wp (PointStore.publishGraph surroundings next retired)
      (fun _ s' => Running c batches batches.length batches.length s'.state)
      (fun _ s' => Broken c batches s'.state.store ∧ Kept c batches sure s'.state.volume) s := by
  obtain ⟨old, hold, hlast, rfl, hmanifest⟩ := hplan.manifest
  obtain rfl := h.covers hold hlast
  have hsettled := h.settled
  rw [hold] at hsettled
  obtain ⟨bytes, hcommitted, hcontent, hfixed⟩ := hsettled.present
  have hbefore := hcommitted.checkpointed
  rw [List.take_length] at hbefore
  have hnext := hmanifest fun segment hsegment => (hbefore.plain segment hsegment).2
  rw [h.catalog_eq] at hnext
  unfold PointStore.publishGraph
  rw [wp_bind, wp_modify_store, wp_bind, wp_on_volume]
  refine wp_mono (wp_publish_manifest hsettled hnext.constructed (hbefore.same_segments hnext)
    (hnext.segments_eq ▸ hfixed)) (fun _ inner hpost => ?_)
    fun _ inner hkept => ⟨⟨.inl rfl, h.shows, h.locked⟩, hkept⟩
  obtain ⟨hafter, hquiet⟩ := hpost
  rw [wp_bind, wp_modify_store]
  refine wp_mono (wp_finish_checkpoint (s := ⟨⟨inner.state, { s.state.store with
    ioFailed := true, manifest := some next, hnswReferenceValid := true }⟩, inner.verdicts⟩)
    surroundings hafter ⟨h.catalog_eq, h.shows, h.writer, h.locked, rfl⟩ ?_ rfl
    (hafter.obsolete hquiet fun name hname => ?_)) (fun _ _ hrun => hrun)
    fun _ _ herr => ⟨herr.1, herr.2.weaken hsettled.kept.sure_le⟩
  · have hcheckpoint := h.checkpoint_eq
    rw [hold] at hcheckpoint
    exact hcheckpoint
  · rcases mem_append.1 hname with hqueued | hgraph
    · obtain ⟨hkind, hpoint⟩ := h.retired name hqueued
      refine ⟨hkind, fun hnamed => ⟨(hpoint hnamed).1, fun segment hsegment heq => ?_⟩⟩
      rw [hnext.segments_eq] at hsegment
      exact (hpoint hnamed).2 (heq ▸ hsettled.mentions hsegment)
    · have hname := constructed_reference hcommitted.constructed (Option.mem_toList.1 hgraph)
      exact ⟨.inr hname.named, fun hpoint => absurd hpoint (graph_not_point hname.named)⟩

/-! ## A new segment -/

/-- The segments that stay are those of the manifest, which a full checkpoint drops. -/
theorem kept_descriptors_ok {full : Bool} {kept : List ManifestFile.SegmentDescriptor}
    (hplain : ∀ old, store.manifest = some old → ∀ segment ∈ old.segments, segment.sparseName = "")
    (h : store.keptDescriptors full = .ok kept) : ∀ segment ∈ kept, ∃ old,
      store.manifest = some old ∧ segment ∈ old.segments ∧ full = false := by
  intro segment hsegment
  unfold PointStore.keptDescriptors at h
  cases hmanifest : store.manifest with
  | none =>
      rw [hmanifest] at h
      rw [← pure_ok.1 h] at hsegment
      exact absurd hsegment not_mem_nil
  | some old =>
      rw [hmanifest] at h
      cases full with
      | true =>
          rw [← pure_ok.1 h] at hsegment
          exact absurd hsegment not_mem_nil
      | false =>
          rw [clone_descriptors_ok (hplain old hmanifest) h] at hsegment
          exact ⟨old, rfl, hsegment, rfl⟩

/-- The segments of a manifest are retired by a full checkpoint only, and else its graph. -/
theorem mem_retired_files {full retain : Bool}
    (hplain : ∀ old, store.manifest = some old → ∀ segment ∈ old.segments, segment.sparseName = "")
    {name : String} (h : name ∈ store.retiredFiles full retain) :
    ∃ old, store.manifest = some old ∧ (old.hnswName = some name ∨
      full = true ∧ ∃ segment ∈ old.segments, segment.name = name) := by
  unfold PointStore.retiredFiles at h
  cases hmanifest : store.manifest with
  | none =>
      rw [hmanifest] at h
      exact absurd h not_mem_nil
  | some old =>
      rw [hmanifest] at h
      refine ⟨old, rfl, ?_⟩
      rcases mem_append.1 h with hsegment | hgraph
      · cases full with
        | false => exact absurd hsegment not_mem_nil
        | true =>
            obtain ⟨segment, hsegment, hname⟩ := mem_flatMap.1 hsegment
            unfold ManifestFile.SegmentDescriptor.names at hname
            rw [if_pos (hplain old hmanifest segment hsegment)] at hname
            exact .inr ⟨rfl, segment, hsegment, (List.mem_singleton.1 hname).symm⟩
      · refine .inl ?_
        split at hgraph
        · exact Option.mem_toList.1 hgraph
        · exact absurd hgraph not_mem_nil

/-- The steps of a checkpoint from the publication of its manifest on. -/
theorem wp_publish_and_rotate (surroundings : Surroundings)
    {manifest : Option ManifestFile.Manifest}
    (hsettled : Settled c batches sure covered manifest s.state.volume)
    (hstore : Underway c batches s.state.store) (hconstructed : ManifestFile.Constructed next)
    (hnext : Checkpointed c.catalog batches s.state.volume.files next)
    (hfixed : ∀ segment ∈ next.segments, ∃ content,
      s.state.volume.Fixed segment.name (some content))
    (hretired : ∀ name ∈ s.state.store.retired ++ retired, (PointName name ∨ GraphName name) ∧
      (PointName name → s.state.volume.now name ≠ none ∧
        ∀ segment ∈ next.segments, segment.name ≠ name)) (valid : Bool) :
    wp (do
        PointStore.onVolume (publishManifest next)
        PointStore.modifyStore fun store =>
          { store with manifest := some next, pointCheckpoint := true, hnswReferenceValid := valid }
        PointStore.onVolume rotateWal
        PointStore.onVolume rotateSparseWal
        PointStore.retireOrReclaim surroundings retired
        PointStore.modifyStore fun store => { store with ioFailed := false })
      (fun _ s' => Running c batches batches.length batches.length s'.state)
      (fun _ s' => Broken c batches s'.state.store ∧ Kept c batches sure s'.state.volume) s := by
  have hsure := hsettled.kept.sure_le
  rw [wp_bind, wp_on_volume]
  refine wp_mono (wp_publish_manifest hsettled hconstructed hnext hfixed) (fun _ s₁ hpost => ?_)
    fun _ _ hkept => ⟨hstore.broken, hkept⟩
  obtain ⟨hsettled₁, hquiet₁⟩ := hpost
  have hobsolete₁ := hsettled₁.obsolete hquiet₁ hretired
  rw [wp_bind, wp_modify_store, wp_bind, wp_on_volume]
  refine wp_mono (Durable.wp_replace_file (by decide) []) (fun _ s₂ hpost => ?_)
    fun _ s₂ hpost => ?_
  swap
  · obtain ⟨hreplaced, hcut⟩ := hpost
    exact ⟨⟨.inl hstore.failed, hstore.shows, hstore.locked⟩,
      (hsettled₁.rotating hreplaced hcut.quiet).weaken hsure⟩
  obtain ⟨hnow, hsince, hdone₂⟩ := hpost
  have hsettled₂ := hsettled₁.rotated hnow hsince hdone₂.quiet
  have hobsolete₂ := hobsolete₁.plain hdone₂.quiet rotate_plain rotate_other.2.1
  rw [wp_bind, wp_on_volume]
  refine wp_mono (Durable.wp_replace_file (by decide) []) (fun _ s₃ hpost => ?_)
    fun _ s₃ hpost => ?_
  swap
  · obtain ⟨hreplaced, hcut⟩ := hpost
    exact ⟨⟨.inl hstore.failed, hstore.shows, hstore.locked⟩,
      (hsettled₂.sparse_rotated hreplaced hcut.quiet).kept.weaken hsure⟩
  obtain ⟨hnow, hsince, hdone₃⟩ := hpost
  have hreplaced : Durable.Replaced sparseWalFile [] s₂.state s₃.state := by
    refine ⟨.inr hnow, fun entry hentry => ?_⟩
    rw [Volume.entries, hnow, hsince] at hentry
    exact .inr (List.mem_singleton.1 hentry)
  have hsettled₃ := hsettled₂.sparse_rotated hreplaced hdone₃.quiet
  have hobsolete₃ := hobsolete₂.plain hdone₃.quiet rotate_sparse_plain rotate_sparse_other.2.1
  exact wp_mono (wp_finish_checkpoint (s := ⟨⟨s₃.state, { s.state.store with
      manifest := some next, pointCheckpoint := true, hnswReferenceValid := valid }⟩, s₃.verdicts⟩)
    surroundings hsettled₃ ⟨hstore.catalog_eq, hstore.shows, hstore.writer, hstore.locked,
      hstore.failed⟩ rfl rfl hobsolete₃) (fun _ _ hrun => hrun)
    fun _ _ herr => ⟨herr.1, herr.2.weaken hsure⟩

/-! ## What a new segment leaves alone -/

/-- A file of a segment that is there has no name that was free. -/
theorem Fresh.stays (h : Fresh volume names) {other : String} (hpoint : PointName other)
    (hthere : volume.now other ≠ none) : other ∉ names :=
  fun hmem => hthere (h.absent other hmem hpoint)

/-- The manifest that the store has is the one of its directory. -/
theorem Running.committed (h : Running c batches sure covered desk)
    (hold : desk.store.manifest = some old) :
    Checkpointed c.catalog (batches.take covered) desk.volume.files old ∧
      ManifestFile.Constructed old ∧ ∀ segment ∈ old.segments, ∃ content,
        desk.volume.Fixed segment.name (some content) := by
  have hsettled := h.settled
  rw [hold] at hsettled
  obtain ⟨bytes, hcommitted, -, hfixed⟩ := hsettled.present
  exact ⟨hcommitted.checkpointed, hcommitted.constructed, hfixed⟩

/-- The segments of the manifest are where they were. -/
theorem Running.stays (h : Running c batches sure covered desk) (hfresh : Fresh desk.volume names)
    (hquiet : Volume.Quiet names desk.volume volume') (hold : desk.store.manifest = some old)
    {segment : ManifestFile.SegmentDescriptor} (hsegment : segment ∈ old.segments) :
    PointName segment.name ∧ desk.volume.now segment.name ≠ none ∧ segment.name ∉ names ∧
      ∃ content, volume'.Fixed segment.name (some content) := by
  obtain ⟨hcheckpointed, -, hfixed⟩ := h.committed hold
  obtain ⟨content, hcontent⟩ := hfixed segment hsegment
  have hpoint := (hcheckpointed.plain segment hsegment).1
  have hthere : desk.volume.now segment.name ≠ none := by
    rw [hcontent.now]
    exact Option.some_ne_none _
  have hstays := hfresh.stays hpoint hthere
  exact ⟨hpoint, hthere, hstays, content, hquiet.fixed hstays hcontent⟩

/-- No file that is retired is named by the new manifest, and each is where it was. -/
theorem Running.retirable (h : Running c batches sure covered desk)
    (hfresh : Fresh desk.volume names) (hquiet : Volume.Quiet names desk.volume volume')
    {full retain : Bool} {kept : List ManifestFile.SegmentDescriptor}
    (hkept : desk.store.keptDescriptors full = .ok kept)
    {descriptor : ManifestFile.SegmentDescriptor} (hfree : desk.volume.now descriptor.name = none)
    {other : String} (hother : other ∈ desk.store.retired ++ desk.store.retiredFiles full retain) :
    (PointName other ∨ GraphName other) ∧ (PointName other → volume'.now other ≠ none ∧
      ∀ segment ∈ kept ++ [descriptor], segment.name ≠ other) := by
  have hplain : ∀ old, desk.store.manifest = some old → ∀ segment ∈ old.segments,
      segment.sparseName = "" := fun old hold segment hsegment =>
    ((h.committed hold).1.plain segment hsegment).2
  have hdescriptors := kept_descriptors_ok hplain hkept
  -- A file that is there is not the new one.
  have hleft : ∀ {name : String}, PointName name → desk.volume.now name ≠ none →
      (∀ segment ∈ kept, segment.name ≠ name) → volume'.now name ≠ none ∧
        ∀ segment ∈ kept ++ [descriptor], segment.name ≠ name := by
    intro name hpoint hthere hkeeps
    rw [hquiet.now name (hfresh.stays hpoint hthere)]
    refine ⟨hthere, fun segment hsegment => ?_⟩
    rcases mem_append.1 hsegment with hmem | hnew
    · exact hkeeps segment hmem
    · rw [List.mem_singleton.1 hnew]
      rintro rfl
      exact hthere hfree
  rcases mem_append.1 hother with hqueued | hretired
  · obtain ⟨hkind, hpoint⟩ := h.retired other hqueued
    refine ⟨hkind, fun hnamed => ?_⟩
    obtain ⟨hthere, hunmentioned⟩ := hpoint hnamed
    refine hleft hnamed hthere fun segment hsegment heq => ?_
    obtain ⟨old, hmanifest, hmem, -⟩ := hdescriptors segment hsegment
    have hbefore := h.settled
    rw [hmanifest] at hbefore
    exact hunmentioned (heq ▸ hbefore.mentions hmem)
  · obtain ⟨old, hmanifest, hgraph | ⟨hfull, segment, hsegment, rfl⟩⟩ :=
      mem_retired_files hplain hretired
    · have hgraph := constructed_reference (h.committed hmanifest).2.1 hgraph
      exact ⟨.inr hgraph.named, fun hpoint => absurd hpoint (graph_not_point hgraph.named)⟩
    · obtain ⟨hpoint, hthere, -⟩ := h.stays hfresh hquiet hmanifest hsegment
      refine ⟨.inl hpoint, fun _ => hleft hpoint hthere fun other hkeeps => ?_⟩
      obtain ⟨-, -, -, hdelta⟩ := hdescriptors other hkeeps
      rw [hfull] at hdelta
      cases hdelta

/-- A segment is written under a name that was free, and published. -/
theorem wp_publish_segment (surroundings : Surroundings)
    (h : Running c batches sure covered s.state) (hnsw : Option HnswCheckpoint) {plan : SegmentPlan}
    (hplan : Planned s.state.store plan) :
    wp (PointStore.publishSegment surroundings hnsw plan)
      (fun _ s' => Running c batches batches.length batches.length s'.state)
      (fun _ s' => Running c batches sure covered s'.state ∨
        Broken c batches s'.state.store ∧ Kept c batches sure s'.state.volume) s := by
  unfold PointStore.publishSegment
  rw [wp_bind, ScheduleM.wp_get, wp_bind]
  dsimp only
  rw [ScheduleM.wp_of_except]
  refine ⟨fun _ _ => ?_, fun _ _ => .inl h⟩
  rw [wp_bind, ScheduleM.wp_of_except]
  refine ⟨fun kept hkept => ?_, fun _ _ => .inl h⟩
  rw [wp_bind, wp_modify_store, wp_bind, wp_on_volume]
  have hunderway : Underway c batches { s.state.store with ioFailed := true } :=
    ⟨h.catalog_eq, h.shows, h.writer, h.locked, rfl⟩
  refine wp_mono (wp_write_point_checkpoint plan.kind plan.sequence plan.generation plan.bytes)
    (fun name s₂ hpost => ?_) fun _ s₂ hpost => ?_
  swap
  · obtain ⟨names, hfresh, hquiet⟩ := hpost
    exact .inr ⟨hunderway.broken, (h.settled.quiet hquiet (hfresh.free h.settled.kept)).kept⟩
  obtain ⟨hname, hfree, hwritten, names, hfresh, hquiet⟩ := hpost
  have hsettled : Settled c batches sure covered s.state.store.manifest s₂.state :=
    h.settled.quiet hquiet (hfresh.free h.settled.kept)
  rw [wp_bind, ScheduleM.wp_of_except]
  refine ⟨fun descriptor hcreate => ?_, fun _ _ => .inr ⟨hunderway.broken, hsettled.kept⟩⟩
  rw [wp_bind, ScheduleM.wp_of_except]
  refine ⟨fun next hmanifest => ?_, fun _ _ => .inr ⟨hunderway.broken, hsettled.kept⟩⟩
  have hnext := checkpoint_manifest_ok hmanifest
  obtain rfl : descriptor.name = name := by
    obtain ⟨-, -, -, -, -, -, hname⟩ := ManifestFile.create_ok.1 hcreate
    exact hname
  have hfixed : ∀ segment ∈ next.segments, ∃ content,
      s₂.state.Fixed segment.name (some content) := by
    intro segment hsegment
    rw [hnext.segments_eq] at hsegment
    rcases mem_append.1 hsegment with hkeeps | hnew
    · obtain ⟨old, hmanifest, hmem, -⟩ := kept_descriptors_ok (fun old hold segment hsegment =>
        ((h.committed hold).1.plain segment hsegment).2) hkept segment hkeeps
      exact (h.stays hfresh hquiet hmanifest hmem).2.2.2
    · rw [List.mem_singleton.1 hnew]
      exact ⟨_, hwritten⟩
  have hcheckpointed : Checkpointed c.catalog batches s₂.state.files next := by
    refine planned_checkpointed hplan h.catalog_eq h.shows h.checkpoint_le
      (fun old hmanifest => (h.committed hmanifest).1.congr fun segment hsegment => ?_) hkept
      hcreate hname hwritten.files hnext
    exact hquiet.files (h.stays hfresh hquiet hmanifest hsegment).2.2.1
  refine wp_mono (wp_publish_and_rotate (s := ⟨⟨s₂.state, { s.state.store with
      ioFailed := true }⟩, s₂.verdicts⟩) surroundings hsettled hunderway hnext.constructed
    hcheckpointed hfixed (fun other hmem => ?_) _) (fun _ _ hrun => hrun) fun _ _ herr => .inr herr
  rw [hnext.segments_eq]
  exact h.retirable hfresh hquiet hkept hfree hmem

/-! ## A checkpoint -/

/-- The manifest of a settled directory is the one that the store has. -/
theorem Running.reloaded (h : Running c batches sure covered desk) :
    desk.store.reloadManifest desk.volume.files = .ok desk.store.manifest := by
  have hsettled := h.settled
  unfold PointStore.reloadManifest
  cases hmanifest : desk.store.manifest with
  | none =>
      rw [hmanifest] at hsettled
      obtain ⟨content, hcontent, hcheckpoint⟩ := hsettled.checkpoint
      cases hcheckpoint with
      | absent =>
          rw [hcontent.files]
          rfl
  | some manifest =>
      rw [hmanifest] at hsettled
      obtain ⟨bytes, hcommitted, hcontent, -⟩ := hsettled.present
      rw [hcontent.files]
      refine bind_ok.2 ⟨manifest, ?_, rfl⟩
      rw [h.catalog_eq]
      exact hcommitted.load hcontent.files

/-- A checkpoint returns with a store all of whose batches are sure, leaves the store as it was, or
leaves it broken. -/
theorem wp_checkpoint (surroundings : Surroundings) (h : Running c batches sure covered s.state)
    (compact : Bool) (hnsw : Option HnswCheckpoint) :
    wp (PointStore.checkpoint surroundings compact hnsw)
      (fun _ s' => Running c batches batches.length batches.length s'.state)
      (fun _ s' => Running c batches sure covered s'.state ∨
        Broken c batches s'.state.store ∧ Kept c batches sure s'.state.volume) s := by
  unfold PointStore.checkpoint
  rw [wp_bind, ScheduleM.wp_get, wp_bind]
  refine ScheduleM.wp_of_except_ok h.writable ?_
  rw [wp_bind, wp_on_volume]
  refine wp_mono (Durable.wp_read_files []) (fun files s₁ hpost => ?_) fun e s₁ hcut => ?_
  swap
  · exact .inl (h.fresh fresh_nil hcut.quiet)
  obtain ⟨rfl, hsame, -⟩ := hpost
  have hvolume : s₁.state = s.state.volume := hsame
  rw [wp_bind]
  refine ScheduleM.wp_of_except_ok h.reloaded ?_
  rw [wp_bind, wp_modify_store, wp_bind, ScheduleM.wp_of_except]
  have h₁ : Running c batches sure covered ⟨s₁.state, s.state.store⟩ := hvolume ▸ h
  refine ⟨fun plan hplan => ?_, fun _ _ => .inl h₁⟩
  rcases plan_checkpoint_ok h.checkpoint_eq hplan with ⟨rfl, old, hold, hlast⟩ |
    ⟨next, retired, rfl, hgraph⟩ | ⟨segment, rfl, hsegment⟩
  · obtain rfl := h.covers hold hlast
    exact h₁.secured
  · exact wp_mono (wp_publish_graph (s := ⟨⟨s₁.state, s.state.store⟩, s₁.verdicts⟩) surroundings h₁
      hgraph) (fun _ _ hrun => hrun) fun _ _ herr => .inr herr
  · exact wp_mono (wp_publish_segment (s := ⟨⟨s₁.state, s.state.store⟩, s₁.verdicts⟩) surroundings
      h₁ hnsw hsegment) (fun _ _ hrun => hrun) fun _ _ herr => herr

end

end Akasha.Storage

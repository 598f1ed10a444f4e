import Akasha.Storage.StoreInvariant

/-!
# The checkpoint that a store is going to publish

What `_checkpoint` decides and builds before it writes. `planned_checkpointed` is the main theorem:
the manifest that names the new segment, behind the segments that are kept, is a checkpoint of all
that the table shows.
-/

namespace Akasha.Storage

open Lib PointTable
open PointStore (SegmentPlan)

section

variable {c : Collection} {batches : List (List PointMutation)} {files : Files}
  {manifest next : ManifestFile.Manifest}

theorem clone_descriptor_ok {descriptor out : ManifestFile.SegmentDescriptor}
    (hplain : descriptor.sparseName = "") (h : PointStore.cloneDescriptor descriptor = .ok out) :
    out = descriptor := by
  unfold PointStore.cloneDescriptor at h
  rw [if_neg (not_not.2 hplain)] at h
  have hsafe := (ManifestFile.create_ok.1 h).1
  have hsame := ManifestFile.create_ok.2 ⟨hsafe, hplain, rfl, rfl, rfl, rfl, rfl⟩
  exact Except.ok.inj (h.symm.trans hsame)

theorem clone_descriptors_ok {descriptors out : List ManifestFile.SegmentDescriptor}
    (hplain : ∀ descriptor ∈ descriptors, descriptor.sparseName = "")
    (h : descriptors.mapM PointStore.cloneDescriptor = .ok out) : out = descriptors := by
  induction descriptors generalizing out with
  | nil => exact (pure_ok.1 h).symm
  | cons descriptor descriptors ih =>
      rw [List.forall_mem_cons] at hplain
      rw [List.mapM_cons] at h
      simp only [bind_ok, pure_ok] at h
      obtain ⟨first, hfirst, rest, hrest, rfl⟩ := h
      rw [clone_descriptor_ok hplain.1 hfirst, ih hplain.2 hrest]

/-- What a checkpoint's manifest says of it. -/
structure ManifestOf (dimension : Nat) (sequence : UInt64)
    (descriptors : List ManifestFile.SegmentDescriptor) (manifest : ManifestFile.Manifest) :
    Prop where
  constructed : ManifestFile.Constructed manifest
  dimension_eq : manifest.dimension = dimension
  last_eq : manifest.lastSequence = sequence
  segments_eq : manifest.segments = descriptors

variable {descriptors : List ManifestFile.SegmentDescriptor}

theorem manifest_of_segments {dimension : Nat} {generation sequence : UInt64}
    (h : ManifestFile.Manifest.withSegments dimension generation sequence descriptors true =
      .ok manifest) : ManifestOf dimension sequence descriptors manifest := by
  obtain ⟨-, -, -, newest, -, hmanifest⟩ := ManifestFile.with_segments_ok.1 h
  exact ⟨.withSegments h, by rw [hmanifest]; rfl, by rw [hmanifest]; rfl, by rw [hmanifest]; rfl⟩

theorem manifest_of_hnsw {dimension : Nat} {generation sequence : UInt64} {name : String}
    {checksum : UInt32} {fingerprint count : UInt64} {version : Nat}
    (h : ManifestFile.Manifest.withHnsw dimension generation sequence descriptors name checksum
      fingerprint count version = .ok manifest) :
    ManifestOf dimension sequence descriptors manifest := by
  have hconstructed : ManifestFile.Constructed manifest := .withHnsw h
  unfold ManifestFile.Manifest.withHnsw at h
  simp only [bind_ok, exists_unit, require_ok, pure_ok] at h
  obtain ⟨-, -, plain, hplain, -, -, rfl⟩ := h
  obtain ⟨-, -, -, newest, -, rfl⟩ := ManifestFile.with_segments_ok.1 hplain
  exact ⟨hconstructed, rfl, rfl, rfl⟩

theorem checkpoint_manifest_ok {store : PointStore} {hnsw : Option HnswCheckpoint}
    {plan : SegmentPlan} {retain : Bool}
    (h : store.checkpointManifest hnsw plan retain descriptors = .ok manifest) :
    ManifestOf (denseDimension store.catalog) plan.sequence descriptors manifest := by
  unfold PointStore.checkpointManifest at h
  split at h
  · exact manifest_of_hnsw h
  · split at h
    · split at h
      · cases h
      · split at h
        · exact manifest_of_hnsw h
        · cases h
    · exact manifest_of_segments h

theorem Checkpointed.same_segments (h : Checkpointed c.catalog batches files manifest)
    (hnext : ManifestOf (denseDimension c.catalog) manifest.lastSequence manifest.segments next) :
    Checkpointed c.catalog batches files next := by
  obtain ⟨states, points, hload, hmerged, hhistory⟩ := h.loaded
  refine ⟨hnext.dimension_eq, ?_, ?_, states, points, ?_, ?_, ?_⟩
  · rw [hnext.segments_eq]
    exact h.plain
  · have hpoints := h.points
    unfold isPointCheckpoint at hpoints ⊢
    rw [hnext.segments_eq]
    exact hpoints
  · rw [hnext.segments_eq]
    exact hload
  · rw [hnext.last_eq]
    exact hmerged
  · rw [hnext.last_eq]
    exact hhistory

theorem History.take_all {points : PointVersions} {last : Nat}
    (h : History c.catalog batches points last) {covered : Nat}
    (hsequence : sequenceAfter c.catalog (batches.take covered) = sequenceAfter c.catalog batches) :
    batches.take covered = batches := by
  have hdrop : batches.drop covered = [] := by
    cases hrest : batches.drop covered with
    | nil => rfl
    | cons batch rest =>
        have hbatch : batch ∈ batches := List.mem_of_mem_drop (hrest ▸ List.mem_cons_self)
        have hpos := List.length_pos_of_ne_nil (h.nonempty batch hbatch)
        nth_rewrite 2 [← List.take_append_drop covered batches] at hsequence
        rw [sequence_after_append, hrest, List.map_cons, List.sum_cons] at hsequence
        omega
  have hall := List.take_append_drop covered batches
  rwa [hdrop, List.append_nil] at hall

/-! ## The plan -/

variable {store : PointStore} {plan : SegmentPlan}

/-- What is planned for a segment: the live points, or those behind the checkpoint. -/
structure Planned (store : PointStore) (plan : SegmentPlan) : Prop where
  sequence_eq : plan.sequence = UInt64.ofNat store.table.lastSequence
  base : plan.full = true → plan.minimum = 0 ∧
    encodePointSegment 1 0 plan.sequence store.table.livePoints store.catalog = .ok plan.bytes
  delta : plan.full = false → ∃ old, store.manifest = some old ∧
    encodePointSegment 2 plan.minimum plan.sequence
      (store.table.pointsAfter old.lastSequence.toNat) store.catalog = .ok plan.bytes

/-- What is planned where only the graph is new. -/
structure PlannedGraph (store : PointStore) (next : ManifestFile.Manifest) (retired : List String) :
    Prop where
  manifest : ∃ old, store.manifest = some old ∧
    old.lastSequence = UInt64.ofNat store.table.lastSequence ∧ retired = old.hnswName.toList ∧
    ((∀ segment ∈ old.segments, segment.sparseName = "") →
      ManifestOf (denseDimension store.catalog) old.lastSequence old.segments next)

theorem plan_segment_ok {compact : Bool} {previous generation sequence : UInt64}
    {out : PointStore.CheckpointPlan} (hsequence : sequence = UInt64.ofNat store.table.lastSequence)
    (hprevious : ∀ old, store.manifest = some old → previous = old.lastSequence)
    (hcheckpoint : store.pointCheckpoint = store.manifest.isSome)
    (h : store.planSegment compact previous generation sequence = .ok out) :
    ∃ plan, out = .segment plan ∧ Planned store plan := by
  unfold PointStore.planSegment at h
  simp only [bind_ok, pure_ok] at h
  obtain ⟨bytes, hbytes, rfl⟩ := h
  refine ⟨_, rfl, hsequence, fun hfull => ?_, fun hdelta => ?_⟩
  · dsimp only at hfull hbytes ⊢
    rw [hfull] at hbytes ⊢
    exact ⟨rfl, hbytes⟩
  · dsimp only at hdelta hbytes ⊢
    rw [hdelta] at hbytes ⊢
    have hthere : store.manifest.isSome = true := by
      rw [← hcheckpoint]
      simp only [Bool.or_eq_false_iff, Bool.not_eq_false'] at hdelta
      exact hdelta.1.2
    obtain ⟨old, hold⟩ := Option.isSome_iff_exists.1 hthere
    rw [hprevious old hold] at hbytes ⊢
    exact ⟨old, hold, hbytes⟩

theorem plan_checkpoint_ok {compact : Bool} {hnsw : Option HnswCheckpoint}
    {out : PointStore.CheckpointPlan}
    (hcheckpoint : store.pointCheckpoint = store.manifest.isSome)
    (h : store.planCheckpoint compact hnsw = .ok out) :
    (out = .unchanged ∧ ∃ old, store.manifest = some old ∧
        old.lastSequence = UInt64.ofNat store.table.lastSequence) ∨
      (∃ next retired, out = .graph next retired ∧ PlannedGraph store next retired) ∨
      ∃ plan, out = .segment plan ∧ Planned store plan := by
  unfold PointStore.planCheckpoint at h
  simp only [bind_ok, exists_unit] at h
  obtain ⟨-, h⟩ := h
  cases hmanifest : store.manifest with
  | none =>
      rw [hmanifest] at h
      refine .inr (.inr (plan_segment_ok rfl (fun old hold => ?_) hcheckpoint h))
      rw [hmanifest] at hold
      cases hold
  | some old =>
      rw [hmanifest] at h
      simp only [bind_ok, exists_unit] at h
      obtain ⟨-, -, h⟩ := h
      split at h
      · next hnewest =>
        unfold PointStore.planGraph at h
        cases hnsw with
        | none => exact .inl ⟨(pure_ok.1 h).symm, old, rfl, hnewest.2.1⟩
        | some graph =>
            simp only [bind_ok, pure_ok] at h
            obtain ⟨descriptors, hdescriptors, updated, hupdated, rfl⟩ := h
            refine .inr (.inl ⟨_, _, rfl, old, hmanifest, hnewest.2.1, rfl, fun hplain => ?_⟩)
            rw [clone_descriptors_ok hplain hdescriptors, ← hnewest.2.1] at hupdated
            exact manifest_of_hnsw hupdated
      · refine .inr (.inr (plan_segment_ok rfl (fun other hother => ?_) hcheckpoint h))
        rw [hmanifest] at hother
        rw [Option.some.inj hother]

/-- The manifest of a checkpoint shows what the table shows. -/
theorem planned_checkpointed {covered : Nat} (hplan : Planned store plan)
    (hcatalog : store.catalog = c.catalog) (hshows : store.table.Shows c.catalog batches)
    (hcheckpoint : store.table.checkpointSequence ≤ sequenceAfter c.catalog (batches.take covered))
    (hold : ∀ old, store.manifest = some old →
      Checkpointed c.catalog (batches.take covered) files old)
    {kept : List ManifestFile.SegmentDescriptor}
    (hkept : store.keptDescriptors plan.full = .ok kept) {name : String}
    {descriptor : ManifestFile.SegmentDescriptor}
    (hcreate : ManifestFile.SegmentDescriptor.create (if plan.full then 1 else 0) plan.minimum
      plan.sequence (UInt32.ofNat (closingChecksum plan.bytes)) name true = .ok descriptor)
    (hname : PointName name) (hfile : files name = some plan.bytes)
    (hnext : ManifestOf (denseDimension store.catalog) plan.sequence (kept ++ [descriptor]) next) :
    Checkpointed c.catalog batches files next := by
  have hlast : next.lastSequence = UInt64.ofNat store.table.lastSequence :=
    hnext.last_eq.trans hplan.sequence_eq
  rw [hplan.sequence_eq] at hcreate
  cases hfull : plan.full with
  | true =>
      obtain ⟨hminimum, hencode⟩ := hplan.base hfull
      have hnone : kept = [] := by
        rw [hfull] at hkept
        unfold PointStore.keptDescriptors at hkept
        split at hkept
        · exact (pure_ok.1 hkept).symm
        · exact (pure_ok.1 hkept).symm
      rw [hfull, if_pos rfl, hminimum] at hcreate
      rw [hplan.sequence_eq, hcatalog] at hencode
      rw [hnone, List.nil_append, hcatalog] at hnext
      exact checkpointed_base c.fits hshows hencode hcreate hname hfile hnext.dimension_eq
        hnext.segments_eq hlast
  | false =>
      obtain ⟨old, hmanifest, hencode⟩ := hplan.delta hfull
      have hbefore := hold old hmanifest
      have hsame : kept = old.segments := by
        rw [hfull] at hkept
        unfold PointStore.keptDescriptors at hkept
        rw [hmanifest] at hkept
        exact clone_descriptors_ok (fun segment hsegment => (hbefore.plain segment hsegment).2)
          hkept
      rw [hfull, if_neg Bool.false_ne_true] at hcreate
      rw [hplan.sequence_eq, hcatalog] at hencode
      rw [hsame, hcatalog] at hnext
      rw [← hbefore.last_eq] at hcheckpoint
      rw [← List.take_append_drop covered batches] at hshows ⊢
      exact checkpointed_delta c.fits hbefore hshows hcheckpoint hencode hcreate hname hfile
        hnext.dimension_eq hnext.segments_eq hlast

end

end Akasha.Storage

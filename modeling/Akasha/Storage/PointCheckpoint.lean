import Akasha.Storage.PointHistory

/-!
# Checkpoints of a history

A base segment holds the live points of a table, a delta segment the points that changed after a
sequence, deleted ones included. `Merged` is what recovery makes of the segments of a checkpoint:
the versions of the history at its last sequence, as far as they are not tombstones. A base segment
starts it (`merged_base`), a delta segment takes it on (`merge_delta`), and a table is made from it
(`table_of_merged`).
-/

namespace Akasha.Storage

open Lib PointTable List

section

variable {states out : List PointState} {point : PointState}

/-- A version is merged when it is newer than the one that is there. -/
theorem merge_point_ok :
    mergePoint states point = .ok out ↔
      (∀ state ∈ findBy PointState.id point.id states, state.sequence < point.sequence) ∧
        out = putBy PointState.id states point := by
  unfold mergePoint putBy findBy
  cases hslot : states.findIdx? fun state => decide (state.id = point.id) with
  | none =>
      have hnone : states.find? (fun state => decide (state.id = point.id)) = none := by
        rw [find?_eq_none]
        exact fun state hstate =>
          Bool.not_eq_true _ ▸ findIdx?_eq_none_iff.1 hslot state hstate
      simp only [hnone, pure_ok]
      exact ⟨fun h => ⟨fun _ hcontra => (by cases hcontra), h.symm⟩, fun h => h.2.symm⟩
  | some slot =>
      obtain ⟨hlt, hhit, hfirst⟩ := findIdx?_eq_some_iff_getElem.1 hslot
      have hsome : states.find? (fun state => decide (state.id = point.id)) = some states[slot] :=
        by
        refine find?_eq_some_iff_getElem.2 ⟨hhit, slot, hlt, rfl, fun index hindex => ?_⟩
        rw [Bool.not_eq_true', ← Bool.not_eq_true]
        exact hfirst index hindex
      simp only [hsome, bind_ok, exists_unit, require_ok, pure_ok,
        getElem?_eq_getElem hlt, Option.mem_def, Option.some.injEq, exists_eq_left',
        forall_eq', Nat.not_le]
      exact ⟨fun h => ⟨h.1, h.2.symm⟩, fun h => ⟨h.1, h.2.symm⟩⟩

theorem merge_points_ok {points : List PointState} (hnodup : (points.map (·.id)).Nodup)
    (hnewer : ∀ point ∈ points, ∀ state ∈ findBy PointState.id point.id states,
      state.sequence < point.sequence) :
    points.foldlM mergePoint states = .ok (points.foldl (putBy PointState.id) states) := by
  induction points generalizing states with
  | nil => rfl
  | cons point points ih =>
      rw [map_cons, nodup_cons] at hnodup
      rw [forall_mem_cons] at hnewer
      rw [foldlM_cons, foldl_cons]
      refine bind_ok.2 ⟨_, merge_point_ok.2 ⟨hnewer.1, rfl⟩, ih hnodup.2 ?_⟩
      intro later hlater state hstate
      have hne : later.id ≠ point.id := fun heq =>
        hnodup.1 (heq ▸ mem_map_of_mem hlater)
      rw [find_put_by, if_neg hne] at hstate
      exact hnewer.2 later hlater state hstate

end

/-! ## What a segment holds -/

section

variable {table : PointTable} {p : PointState → Bool}

theorem selected_ids (hnodup : (table.points.map (·.id)).Nodup) :
    (table.selected p).map (·.id) =
      ((table.points.filter p).map (·.id)).mergeSort (· ≤ ·) := by
  have hstored : ∀ id ∈ ((table.points.filter p).map (·.id)).mergeSort (· ≤ ·),
      ∃ point, table.point? id = some point ∧ point.id = id := by
    intro id hid
    rw [mem_mergeSort] at hid
    obtain ⟨point, hpoint, rfl⟩ := mem_map.1 hid
    exact ⟨point, find_by_of_mem hnodup (mem_of_mem_filter hpoint), rfl⟩
  unfold selected
  revert hstored
  induction ((table.points.filter p).map (·.id)).mergeSort (· ≤ ·) with
  | nil => exact fun _ => rfl
  | cons id ids ih =>
      intro hstored
      rw [forall_mem_cons] at hstored
      obtain ⟨point, hpoint, hid⟩ := hstored.1
      rw [filterMap_cons_some hpoint, map_cons, hid, ih hstored.2]

theorem selected_nodup (hnodup : (table.points.map (·.id)).Nodup) :
    ((table.selected p).map (·.id)).Nodup := by
  rw [selected_ids hnodup]
  refine (mergeSort_perm _ _).nodup_iff.2 ?_
  exact hnodup.sublist (filter_sublist.map _)

theorem mem_selected (hnodup : (table.points.map (·.id)).Nodup) {point : PointState} :
    point ∈ table.selected p ↔ point ∈ table.points ∧ p point = true := by
  unfold selected
  simp only [mem_filterMap, mem_mergeSort, mem_map, mem_filter]
  constructor
  · rintro ⟨id, ⟨other, ⟨hother, hselected⟩, rfl⟩, hpoint⟩
    obtain rfl := Option.some.inj ((find_by_of_mem hnodup hother).symm.trans hpoint)
    exact ⟨hother, hselected⟩
  · rintro ⟨hpoint, hselected⟩
    exact ⟨point.id, ⟨point, ⟨hpoint, hselected⟩, rfl⟩, find_by_of_mem hnodup hpoint⟩

theorem find_selected (hnodup : (table.points.map (·.id)).Nodup) (id : Int64) :
    findBy PointState.id id (table.selected p) = (table.point? id).filter p := by
  refine Option.ext fun point => ?_
  rw [find_by_eq_some (selected_nodup hnodup), mem_selected hnodup, Option.filter_eq_some_iff,
    point?, find_by_eq_some hnodup, and_right_comm]

end

/-! ## Merging segments -/

/-- The versions in slots. -/
def versionsOf (states : List PointState) : PointVersions :=
  fun id => findBy PointState.id id states

/-- The versions that the segments of a checkpoint load to. -/
structure Merged (states : List PointState) (points : PointVersions) (last : Nat) : Prop where
  nodup : (states.map PointState.id).Nodup
  shown : ShownUpTo last (versionsOf states) points

section

variable {catalog : FieldCatalog} {batches : List (List PointMutation)} {table : PointTable}
  {points : PointVersions}

theorem merged_base (h : table.Shows catalog batches)
    (hhistory : History catalog batches points table.lastSequence) :
    Merged table.livePoints points table.lastSequence := by
  obtain ⟨points', hhistory', hshown⟩ := h.history
  obtain ⟨rfl, -⟩ := hhistory.unique hhistory'
  refine ⟨selected_nodup h.valid.ids_nodup, fun id => ?_⟩
  have hfind : versionsOf table.livePoints id =
      (table.point? id).filter (!·.tombstone) := find_selected h.valid.ids_nodup id
  have hlive := hshown.live id
  rw [hfind, hlive]
  cases hpoint : points id with
  | none => exact .inl rfl
  | some point =>
      cases hdead : point.tombstone with
      | false => exact .inl (by rw [Option.filter_some, hdead]; rfl)
      | true =>
          refine .inr ⟨by rw [Option.filter_some, hdead]; rfl, point, rfl, hdead, ?_⟩
          exact (hhistory.versions.valid id point hpoint).2.2

/-- The points that changed after a checkpoint take it to the last sequence of the table. -/
theorem merge_delta {more : List (List PointMutation)} {states : List PointState}
    {old : PointVersions} {previous : Nat} (hmerged : Merged states old previous)
    (hold : History catalog batches old previous) (h : table.Shows catalog (batches ++ more))
    (hhistory : History catalog (batches ++ more) points table.lastSequence)
    (hcheckpoint : table.checkpointSequence ≤ previous) :
    ∃ merged, (table.pointsAfter previous).foldlM mergePoint states = .ok merged ∧
      Merged merged points table.lastSequence := by
  obtain ⟨points', hhistory', hshown⟩ := h.history
  obtain ⟨rfl, -⟩ := hhistory.unique hhistory'
  obtain ⟨hle, hnewer⟩ := hold.newer hhistory
  have hnodup := h.valid.ids_nodup
  have hfind : ∀ id, findBy PointState.id id (table.pointsAfter previous) =
      (table.point? id).filter (previous < ·.sequence) := find_selected hnodup
  -- What the checkpoint has was reached by it.
  have hreached : ∀ id state, versionsOf states id = some state →
      state.sequence ≤ previous := by
    intro id state hstate
    rcases hmerged.shown id with heq | hlost
    · exact (hold.versions.valid id state (heq ▸ hstate)).2.2
    · rw [hlost.1] at hstate
      cases hstate
  refine ⟨_, merge_points_ok (selected_nodup hnodup) ?_, fold_put_nodup _ hmerged.nodup,
    fun id => ?_⟩
  · intro point hpoint state hstate
    have hafter := ((mem_selected hnodup).1 hpoint).2
    have := hreached _ _ hstate
    have hlt : previous < point.sequence := by simpa using hafter
    omega
  · have hput : versionsOf ((table.pointsAfter previous).foldl (putBy PointState.id) states) id =
        ((table.point? id).filter (previous < ·.sequence)).or (versionsOf states id) := by
      rw [← hfind]
      exact find_fold_put _ (selected_nodup hnodup) id
    rw [hput]
    rcases hnewer id with hsame | ⟨point, hpoint, hlt⟩
    · -- The version is an old one: the delta does not have it.
      have hnone : (table.point? id).filter (previous < ·.sequence) = none := by
        rw [Option.filter_eq_none_iff]
        intro point hpoint
        rcases hshown id with heq | hlost
        · have hle' := (hold.versions.valid id point (hsame ▸ heq ▸ hpoint)).2.2
          simpa using hle'
        · rw [hlost.1] at hpoint
          cases hpoint
      rw [hnone, Option.none_or, hsame]
      exact (hmerged.shown.weaken hle) id
    · have hfound : table.point? id = some point := by
        rcases hshown id with heq | ⟨-, other, hother, -, hle'⟩
        · exact heq.trans hpoint
        · obtain rfl := Option.some.inj (hother.symm.trans hpoint)
          omega
      rw [hfound, Option.filter_some, decide_eq_true hlt, hpoint]
      exact .inl rfl

/-- The table of a checkpoint shows the history at its last sequence. -/
theorem table_of_merged {states : List PointState} {last : Nat}
    (hmerged : Merged states points last)
    (hhistory : History catalog batches points last) (hversion : catalog.formatVersion = 2)
    (hlast : last < 2 ^ 64) :
    ∃ table, PointTable.create catalog last states = .ok table ∧ table.Shows catalog batches ∧
      table.writeFailed = false ∧ table.checkpointSequence = last ∧ table.lastSequence = last := by
  have hvalid : ∀ point ∈ states, ValidPoint catalog point ∧ point.sequence ≤ last := by
    intro point hpoint
    have hfind : versionsOf states point.id = some point := find_by_of_mem hmerged.nodup hpoint
    rcases hmerged.shown point.id with heq | hlost
    · obtain ⟨-, hok, hle⟩ := hhistory.versions.valid point.id point (heq ▸ hfind)
      exact ⟨hok, hle⟩
    · rw [hlost.1] at hfind
      cases hfind
  have hcutover : catalog.legacyCutoverSequence ≤ last := by
    rw [hhistory.last_eq]
    exact Nat.le_add_right _ _
  have hcreate : ∃ table, PointTable.create catalog last states = .ok table := by
    refine ⟨_, bind_ok.2 ⟨(), require_ok.2 ⟨hversion, hcutover⟩, bind_ok.2 ⟨(),
      check_points_ok.2 ⟨hvalid, fun point _ => not_mem_nil, hmerged.nodup⟩, rfl⟩⟩⟩
  obtain ⟨table, htable⟩ := hcreate
  obtain ⟨hok, hcatalog, hpoints, hreached, hcheckpoint, hwriter⟩ := PointTable.create_ok htable
  refine ⟨table, htable, ⟨hok, hcatalog, hreached ▸ hlast, points, hreached ▸ hhistory, ?_⟩,
    hwriter,
    hcheckpoint, hreached⟩
  rw [hcheckpoint]
  intro id
  have hfind : table.point? id = versionsOf states id := by
    rw [point?, hpoints]
    rfl
  rw [hfind]
  exact hmerged.shown id

end

/-! ## Files -/

/-- The names of segments of points. -/
def PointName (name : String) : Prop :=
  utf8Bytes "point-" <+: utf8Bytes name

/-- What a manifest and the files that it names hold. -/
structure Checkpointed (catalog : FieldCatalog) (batches : List (List PointMutation))
    (files : Files) (manifest : ManifestFile.Manifest) : Prop where
  dimension_eq : manifest.dimension = denseDimension catalog
  plain : ∀ segment ∈ manifest.segments, PointName segment.name ∧ segment.sparseName = ""
  points : isPointCheckpoint files manifest = .ok true
  loaded : ∃ states points,
    manifest.segments.foldlM (loadPointSegment files catalog) [] = .ok states ∧
      Merged states points manifest.lastSequence.toNat ∧
      History catalog batches points manifest.lastSequence.toNat

section

variable {catalog : FieldCatalog} {batches : List (List PointMutation)} {files other : Files}
  {manifest : ManifestFile.Manifest}

theorem Checkpointed.load (h : Checkpointed catalog batches files manifest)
    (hversion : catalog.formatVersion = 2) :
    ∃ table, loadPointCheckpoint files manifest catalog = .ok table ∧
      table.Shows catalog batches ∧ table.writeFailed = false ∧
      table.checkpointSequence = manifest.lastSequence.toNat := by
  obtain ⟨states, points, hload, hmerged, hhistory⟩ := h.loaded
  obtain ⟨table, htable, hshows, hwriter, hcheckpoint, -⟩ :=
    table_of_merged hmerged hhistory hversion (UInt64.toNat_lt _)
  refine ⟨table, ?_, hshows, hwriter, hcheckpoint⟩
  have hdimension : (catalog.fields.head?).map (fun field => (field.dimension : Int)) =
      some manifest.dimension := by
    obtain ⟨spec, -, hhead, -⟩ := catalog.default_field
    rw [h.dimension_eq, denseDimension, hhead]
    rfl
  unfold loadPointCheckpoint
  simp only [bind_ok, exists_unit, require_ok]
  exact ⟨⟨hversion, hdimension⟩, states, hload, htable⟩

/-- Loading segments reads the files that they name. -/
theorem load_segments_congr {segments : List ManifestFile.SegmentDescriptor}
    (hsame : ∀ segment ∈ segments, other segment.name = files segment.name)
    (states : List PointState) :
    segments.foldlM (loadPointSegment other catalog) states =
      segments.foldlM (loadPointSegment files catalog) states := by
  induction segments generalizing states with
  | nil => rfl
  | cons segment segments ih =>
      rw [forall_mem_cons] at hsame
      have hread : readFile other segment.name = readFile files segment.name := by
        unfold readFile
        rw [hsame.1]
      have hload : loadPointSegment other catalog states segment =
          loadPointSegment files catalog states segment := by
        unfold loadPointSegment
        rw [hread]
      rw [foldlM_cons, foldlM_cons, hload]
      cases loadPointSegment files catalog states segment with
      | error e => rfl
      | ok next => exact ih hsame.2 next

theorem Checkpointed.congr (h : Checkpointed catalog batches files manifest)
    (hsame : ∀ segment ∈ manifest.segments, other segment.name = files segment.name) :
    Checkpointed catalog batches other manifest := by
  obtain ⟨states, points, hload, hrest⟩ := h.loaded
  refine ⟨h.dimension_eq, h.plain, ?_, states, points, ?_, hrest⟩
  · rw [← h.points]
    unfold isPointCheckpoint
    cases hsegments : manifest.segments with
    | nil => rfl
    | cons segment segments =>
        have hread : readFile other segment.name = readFile files segment.name := by
          unfold readFile
          rw [hsame segment (by simp [hsegments])]
        simp only [hread]
  · rw [← hload]
    refine load_segments_congr (fun segment hsegment => ?_) []
    exact hsame segment hsegment

variable {descriptor : ManifestFile.SegmentDescriptor} {bytes : List UInt8}

/-- A segment of points is loaded from the file that it was encoded to. -/
theorem load_encoded (hfits : CatalogFits catalog) {kind : Nat} {minimum maximum : UInt64}
    {points : List PointState}
    (hencode : encodePointSegment kind minimum maximum points catalog = .ok bytes) (hconstructed :
      PointSegment.Constructed ⟨kind, minimum, maximum, closingChecksum bytes, points⟩)
    {level : Nat} {name : String}
    (hcreate : ManifestFile.SegmentDescriptor.create level minimum maximum
      (UInt32.ofNat (closingChecksum bytes)) name true = .ok descriptor)
    (hlevel : level = if kind = 1 then 1 else 0) (hfile : files name = some bytes)
    (states : List PointState) :
    loadPointSegment files catalog states descriptor = points.foldlM mergePoint states := by
  obtain ⟨-, hsparse, rfl, rfl, rfl, hchecksum, rfl⟩ := ManifestFile.create_ok.1 hcreate
  have hdecode : decodePointSegment bytes catalog =
      .ok ⟨kind, descriptor.minSequence, descriptor.maxSequence, closingChecksum bytes, points⟩ :=
    (decode_point_segment_iff hfits).2 ⟨hconstructed, rfl, hencode⟩
  have hsum : (UInt32.ofNat (closingChecksum bytes)).toNat = closingChecksum bytes := by
    refine UInt32.toNat_ofNat_of_lt' ?_
    have hlt := le_value_lt (bytes.drop (bytes.length - 4))
    have hfour : (bytes.drop (bytes.length - 4)).length ≤ 4 := by
      rw [length_drop]
      omega
    exact hlt.trans_le (Nat.pow_le_pow_right (by decide) hfour)
  have hkind : kind = 1 ∨ kind = 2 := by
    unfold encodePointSegment at hencode
    simp only [bind_ok, exists_unit] at hencode
    obtain ⟨-, -, hinterval, -⟩ := hencode
    exact validate_interval_kind hinterval
  have hread : readFile files descriptor.name = .ok bytes := by
    unfold readFile
    rw [hfile]
    rfl
  have hlevels : ¬ (descriptor.level = 0 ∧ kind ≠ 2) ∧ ¬ (descriptor.level > 0 ∧ kind ≠ 1) := by
    rw [hlevel]
    rcases hkind with rfl | rfl <;> decide
  unfold loadPointSegment
  rw [hread, require, if_pos]
  · show (decodePointSegment bytes catalog >>= _) = _
    rw [hdecode]
    show (require _ _ >>= _) = _
    rw [require, if_pos]
    · rfl
    · rw [hchecksum, hsum]
      simp only [ne_eq, not_true, false_or]
      exact not_or.2 hlevels
  · rw [hsparse, descriptor.sparse_zero hsparse]
    simp

variable {table : PointTable}

/-- The selected points of a table can be stored in a segment. -/
theorem PointTable.Shows.selected_constructed (h : table.Shows catalog batches)
    (p : PointState → Bool) (kind : Nat) (minimum maximum : UInt64) (checksum : Nat) :
    PointSegment.Constructed ⟨kind, minimum, maximum, checksum, table.selected p⟩ := by
  obtain ⟨points, hhistory, hshown⟩ := h.history
  have hnodup := h.valid.ids_nodup
  have hstored : ∀ point ∈ table.selected p, points point.id = some point := by
    intro point hpoint
    have hfind : table.point? point.id = some point :=
      find_by_of_mem hnodup ((mem_selected hnodup).1 hpoint).1
    rcases hshown point.id with heq | hlost
    · exact heq ▸ hfind
    · rw [hlost.1] at hfind
      cases hfind
  refine ⟨fun point hpoint => hhistory.point_constructed h.last_lt (hstored point hpoint), ?_⟩
  have hcount := hhistory.count_le (@selected_nodup table p hnodup) fun id hid => by
    obtain ⟨point, hpoint, rfl⟩ := mem_map.1 hid
    rw [hstored point hpoint]
    exact Option.some_ne_none point
  rw [length_map] at hcount
  exact hcount.trans_lt h.last_lt

theorem encoded_version {kind : Nat} {minimum maximum : UInt64} {points : List PointState}
    (hencode : encodePointSegment kind minimum maximum points catalog = .ok bytes) :
    8 ≤ (bytes.take 8).length ∧ leValue (((bytes.take 8).drop 4).take 2) = 4 := by
  unfold encodePointSegment at hencode
  simp only [bind_ok, pure_ok] at hencode
  obtain ⟨crc, -, _, -, records, -, rfl⟩ := hencode
  simp only [withChecksum, pointSegmentHeader, segmentMagic, append_assoc, cons_append]
  exact ⟨by simp [leBytes], by simp [leBytes, leValue]⟩

/-- A checkpoint that is one base segment. -/
theorem checkpointed_base (hfits : CatalogFits catalog) (h : table.Shows catalog batches)
    (hencode : encodePointSegment 1 0 (UInt64.ofNat table.lastSequence) table.livePoints catalog =
      .ok bytes) {name : String}
    (hcreate : ManifestFile.SegmentDescriptor.create 1 0 (UInt64.ofNat table.lastSequence)
      (UInt32.ofNat (closingChecksum bytes)) name true = .ok descriptor) (hname : PointName name)
    (hfile : files name = some bytes) (hdimension : manifest.dimension = denseDimension catalog)
    (hsegments : manifest.segments = [descriptor])
    (hlast : manifest.lastSequence = UInt64.ofNat table.lastSequence) :
    Checkpointed catalog batches files manifest := by
  obtain ⟨-, hsparse, -, -, -, -, hdescriptor⟩ := ManifestFile.create_ok.1 hcreate
  have hreached : manifest.lastSequence.toNat = table.lastSequence := by
    rw [hlast]
    exact UInt64.toNat_ofNat_of_lt' h.last_lt
  have hload := load_encoded hfits hencode (h.selected_constructed _ _ _ _ _) hcreate rfl hfile []
  obtain ⟨points, hhistory, -⟩ := h.history
  have hmerged := merged_base h hhistory
  have hmerge : table.livePoints.foldlM mergePoint [] = .ok table.livePoints := by
    rw [merge_points_ok hmerged.nodup fun _ _ _ hcontra => (by cases hcontra),
      fold_put_fresh [] table.livePoints hmerged.nodup]
    rfl
  refine ⟨hdimension, fun segment hsegment => ?_, ?_, table.livePoints, points, ?_, ?_, ?_⟩
  · rw [hsegments, mem_singleton] at hsegment
    rw [hsegment, hdescriptor]
    exact ⟨hname, hsparse⟩
  · unfold isPointCheckpoint
    rw [hsegments]
    obtain ⟨hlength, hversion⟩ := encoded_version hencode
    simp only [bind_ok, exists_unit, require_ok, pure_ok]
    refine ⟨bytes, ?_, Nat.not_lt.2 hlength, decide_eq_true hversion⟩
    unfold readFile
    rw [hdescriptor, hfile]
    rfl
  · rw [hsegments, foldlM_cons, hload, hmerge]
    rfl
  · rw [hreached]
    exact hmerged
  · rw [hreached]
    exact hhistory

/-- A checkpoint with one more delta segment. -/
theorem checkpointed_delta (hfits : CatalogFits catalog) {old : ManifestFile.Manifest}
    (hold : Checkpointed catalog batches files old) {more : List (List PointMutation)}
    (h : table.Shows catalog (batches ++ more))
    (hcheckpoint : table.checkpointSequence ≤ old.lastSequence.toNat) {minimum : UInt64}
    (hencode : encodePointSegment 2 minimum (UInt64.ofNat table.lastSequence)
      (table.pointsAfter old.lastSequence.toNat) catalog = .ok bytes) {name : String}
    (hcreate : ManifestFile.SegmentDescriptor.create 0 minimum (UInt64.ofNat table.lastSequence)
      (UInt32.ofNat (closingChecksum bytes)) name true = .ok descriptor) (hname : PointName name)
    (hfile : files name = some bytes) (hdimension : manifest.dimension = denseDimension catalog)
    (hsegments : manifest.segments = old.segments ++ [descriptor])
    (hlast : manifest.lastSequence = UInt64.ofNat table.lastSequence) :
    Checkpointed catalog (batches ++ more) files manifest := by
  obtain ⟨-, hsparse, -, -, -, -, hdescriptor⟩ := ManifestFile.create_ok.1 hcreate
  have hreached : manifest.lastSequence.toNat = table.lastSequence := by
    rw [hlast]
    exact UInt64.toNat_ofNat_of_lt' h.last_lt
  obtain ⟨states, before, hload, hmerged, hbefore⟩ := hold.loaded
  obtain ⟨points, hhistory, -⟩ := h.history
  obtain ⟨merged, hmerge, hafter⟩ := merge_delta hmerged hbefore h hhistory hcheckpoint
  have hdelta := load_encoded hfits hencode (h.selected_constructed _ _ _ _ _) hcreate rfl hfile
    states
  refine ⟨hdimension, fun segment hsegment => ?_, ?_, merged, points, ?_, ?_, ?_⟩
  · rw [hsegments] at hsegment
    rcases mem_append.1 hsegment with hmem | hmem
    · exact hold.plain segment hmem
    · rw [mem_singleton.1 hmem, hdescriptor]
      exact ⟨hname, hsparse⟩
  · -- The first segment is the one of the old manifest.
    have hpoints := hold.points
    unfold isPointCheckpoint at hpoints ⊢
    rw [hsegments]
    cases hfirst : old.segments with
    | nil =>
        rw [hfirst] at hpoints
        cases hpoints
    | cons segment segments =>
        rw [hfirst] at hpoints
        exact hpoints
  · rw [hsegments, foldlM_append, hload]
    show (foldlM (loadPointSegment files catalog) states [descriptor]) = _
    rw [foldlM_cons, hdelta, hmerge]
    rfl
  · rw [hreached]
    exact hafter
  · rw [hreached]
    exact hhistory

end

end Akasha.Storage

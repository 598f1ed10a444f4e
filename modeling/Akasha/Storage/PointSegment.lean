import Akasha.Storage.Checkpoint

/-!
# Encoding point segments

`encode_point_segment` beside `decode_point_segment` (`storage/point_segment.mojo`). A segment holds
complete versions of points by ascending identifier: a base the live ones, a delta the changed
ones. The main theorem is `point_segment_round_trip`: a file is decoded to a segment exactly when
the segment is encoded to the file.
-/

namespace Akasha.Storage

open Lib

/-! ## Encoding -/

/-- The loop over the points of a segment, after the identifier of the last one. -/
def encodeSegmentPoints (catalog : FieldCatalog) (kind : Nat) (minimum maximum : UInt64) :
    Option Int64 → List PointState → Except String (List UInt8)
  | _, [] => pure []
  | previous, point :: points => do
      require (∀ earlier ∈ previous, earlier < point.id) "point segment IDs must strictly increase"
      validateSegmentPoint point kind minimum maximum
      let record ← encodePointRecord point catalog
      let records ← encodeSegmentPoints catalog kind minimum maximum (some point.id) points
      pure (record ++ records)

/-- What stands before the records. -/
def pointSegmentHeader (catalog : FieldCatalog) (catalogCrc kind count : Nat)
    (minimum maximum : UInt64) : List UInt8 :=
  segmentMagic ++ (leBytes 2 4 ++ (leBytes 2 kind ++ (leBytes 8 catalog.schemaRevision ++
    (leBytes 4 catalogCrc ++ (leBytes 4 0 ++ (leBytes 8 count ++
      (u64Bytes minimum ++ u64Bytes maximum)))))))

/-- `encode_point_segment`. -/
def encodePointSegment (kind : Nat) (minimum maximum : UInt64) (points : List PointState)
    (catalog : FieldCatalog) : Except String (List UInt8) := do
  let catalogCrc ← fieldCatalogChecksum catalog
  validateInterval kind minimum maximum catalog
  let records ← encodeSegmentPoints catalog kind minimum maximum none points
  pure (withChecksum
    (pointSegmentHeader catalog catalogCrc kind points.length minimum maximum ++ records))

/-- The checksum that closes a file. -/
def closingChecksum (bytes : List UInt8) : Nat :=
  leValue (bytes.drop (bytes.length - 4))

/-! ## Records -/

section

variable {catalog : FieldCatalog} {kind : Nat} {minimum maximum : UInt64}

theorem record_starts_with_length {point : PointState} {record : List UInt8}
    (hconstructed : point.Constructed) (h : encodePointRecord point catalog = .ok record) :
    pointHeaderBytes ≤ record.length ∧ record.length ≤ maxPointRecordBytes ∧
      ∃ body, record = leBytes 4 record.length ++ body ∧ body.length = record.length - 4 := by
  obtain ⟨-, payload, -, rfl, hle⟩ := (encode_record_iff hconstructed).1 h
  have hlength := length_record_bytes point payload
  have heq : recordBytes point payload = leBytes 4 (recordBytes point payload).length ++
      (recordBytes point payload).drop 4 := by
    have hfront : (recordBytes point payload).take 4 =
        leBytes 4 (recordBytes point payload).length := by
      rw [hlength]
      exact List.take_left' (length_le_bytes 4 _)
    rw [← hfront, List.take_append_drop]
  refine ⟨by rw [hlength]; omega, hle, _, heq, List.length_drop⟩

/-- The loop reads exactly the records that the encoder writes. -/
theorem read_segment_points_iff {count : Nat} {previous : Option Int64} {bytes rest : List UInt8}
    {points : List PointState} :
    readSegmentPoints catalog kind minimum maximum count previous bytes = .ok (points, rest) ↔
      points.length = count ∧ (∀ point ∈ points, point.Constructed) ∧
        ∃ records, encodeSegmentPoints catalog kind minimum maximum previous points = .ok records ∧
          bytes = records ++ rest := by
  induction count generalizing previous bytes points with
  | zero =>
      rw [readSegmentPoints, reader_pure_ok, Prod.mk.injEq]
      constructor
      · rintro ⟨rfl, rfl⟩
        exact ⟨rfl, fun point hpoint => absurd hpoint List.not_mem_nil, [], rfl, rfl⟩
      · rintro ⟨hlength, -, records, hrecords, rfl⟩
        obtain rfl := List.length_eq_zero_iff.1 hlength
        obtain rfl := pure_ok.1 hrecords
        exact ⟨rfl, rfl⟩
  | succ count ih =>
      rw [readSegmentPoints]
      simp only [exact_u32.bind_ok, check_bind_ok, (exact_span _).bind_ok, of_result_bind_ok,
        decode_record_iff, exists_unit]
      constructor
      · rintro ⟨size, -, r1, rfl, hsize, body, hbody, r2, rfl, point, ⟨hconstructed, hencode⟩,
          hincreasing, hvalid, hrest⟩
        obtain ⟨later, r3, hlater, hpure⟩ := reader_bind_ok.1 hrest
        rw [reader_pure_ok, Prod.mk.injEq] at hpure
        obtain ⟨rfl, rfl⟩ := hpure
        obtain ⟨rfl, hlaters, records, hrecords, rfl⟩ := ih.1 hlater
        refine ⟨rfl, List.forall_mem_cons.2 ⟨hconstructed, hlaters⟩,
          (leBytes 4 size ++ body) ++ records, ?_, by simp only [id, List.append_assoc]⟩
        simp only [encodeSegmentPoints, bind_ok, exists_unit, require_ok, pure_ok]
        exact ⟨hincreasing, hvalid, _, hencode, _, hrecords, rfl⟩
      · rintro ⟨hlength, hconstructed, records, hrecords, rfl⟩
        cases points with
        | nil => cases hlength
        | cons point points =>
            simp only [encodeSegmentPoints, bind_ok, exists_unit, require_ok,
              pure_ok] at hrecords
            obtain ⟨hincreasing, hvalid, record, hrecord, later, hlater, rfl⟩ := hrecords
            obtain ⟨hpoint, hconstructed⟩ := List.forall_mem_cons.1 hconstructed
            obtain ⟨hmin, hmax, body, heq, hbody⟩ := record_starts_with_length hpoint hrecord
            have hforty : pointHeaderBytes = 40 := rfl
            have hlimit : maxPointRecordBytes = 268435456 := rfl
            refine ⟨record.length, by omega, body ++ (later ++ rest), ?_, by omega, body, hbody, _,
              rfl, point, ⟨hpoint, ?_⟩, hincreasing, hvalid, ?_⟩
            · rw [← List.append_assoc, ← heq, List.append_assoc]
            · rw [← heq]
              exact hrecord
            · exact reader_bind_ok.2 ⟨points, rest, ih.2 ⟨Nat.succ.inj hlength, hconstructed, later,
                hlater, rfl⟩, rfl⟩

theorem length_segment_points {previous : Option Int64} {points : List PointState}
    {records : List UInt8} (hconstructed : ∀ point ∈ points, point.Constructed)
    (h : encodeSegmentPoints catalog kind minimum maximum previous points = .ok records) :
    40 * points.length ≤ records.length := by
  induction points generalizing previous records with
  | nil => exact Nat.zero_le _
  | cons point points ih =>
      simp only [encodeSegmentPoints, bind_ok, exists_unit, require_ok,
        pure_ok] at h
      obtain ⟨-, -, record, hrecord, later, hlater, rfl⟩ := h
      obtain ⟨hpoint, hconstructed⟩ := List.forall_mem_cons.1 hconstructed
      have hmin : 40 ≤ record.length := (record_starts_with_length hpoint hrecord).1
      have := ih hconstructed hlater
      rw [List.length_append, List.length_cons]
      omega

theorem validate_interval_kind {u : Unit}
    (h : validateInterval kind minimum maximum catalog = .ok u) :
    kind = 1 ∨ kind = 2 := by
  simp only [validateInterval, bind_ok, exists_unit, require_ok] at h
  have hkind := h.1
  rw [not_or, not_and_or, not_not, not_not] at hkind
  exact hkind.1

end

/-! ## Files -/

section

variable {catalog : FieldCatalog}

/-- A segment whose points their constructors made, fewer than a machine word counts. -/
structure PointSegment.Constructed (segment : PointSegment) : Prop where
  points : ∀ point ∈ segment.points, point.Constructed
  count : segment.points.length < 2 ^ 64

/-- The part of a file before its checksum is read back as the segment. -/
theorem read_point_segment_iff (hfits : CatalogFits catalog) {catalogCrc checksum : Nat}
    (hcrc : catalogCrc < 2 ^ 32) {bytes rest : List UInt8} {segment : PointSegment} :
    readPointSegment catalog catalogCrc checksum bytes = .ok (segment, rest) ↔
      segment.Constructed ∧ segment.checksum = checksum ∧ rest = [] ∧
        validateInterval segment.kind segment.minSequence segment.lastSequence catalog = .ok () ∧
        ∃ records, encodeSegmentPoints catalog segment.kind segment.minSequence
            segment.lastSequence none segment.points = .ok records ∧
          bytes = pointSegmentHeader catalog catalogCrc segment.kind segment.points.length
            segment.minSequence segment.lastSequence ++ records := by
  unfold readPointSegment
  simp only [(exact_span _).bind_ok, exact_u16.bind_ok, exact_u32.bind_ok, exact_u64.bind_ok,
    (exact_unsigned 8).bind_ok, check_bind_ok, of_result_bind_ok, remaining_bind_ok, exists_unit]
  constructor
  · rintro ⟨magic, -, r1, rfl, version, -, r2, rfl, ⟨rfl, rfl⟩, kind, -, r3, rfl, revision, -, r4,
      rfl, crc, -, r5, rfl, reserved, -, r6, rfl, ⟨rfl, rfl, rfl⟩, count, hcount, r7, rfl, minimum,
      -, r8, rfl, maximum, -, r9, rfl, hinterval, hroom, hread⟩
    obtain ⟨points, left, hpoints, hrest⟩ := reader_bind_ok.1 hread
    simp only [remaining_bind_ok, check_bind_ok, reader_pure_ok, Prod.mk.injEq] at hrest
    obtain ⟨hempty, rfl, rfl⟩ := hrest
    obtain rfl := List.length_eq_zero_iff.1 hempty
    obtain ⟨rfl, hconstructed, records, hrecords, rfl⟩ := read_segment_points_iff.1 hpoints
    refine ⟨⟨hconstructed, hcount⟩, rfl, rfl, hinterval, records, hrecords, ?_⟩
    simp only [pointSegmentHeader, List.append_assoc, List.append_nil, id]
  · rintro ⟨hconstructed, rfl, rfl, hinterval, records, hrecords, rfl⟩
    obtain ⟨kind, minimum, maximum, checksum, points⟩ := segment
    have hkind : kind < 2 ^ 16 := by
      have hcases : kind = 1 ∨ kind = 2 := validate_interval_kind hinterval
      omega
    have hroom : ¬ points.length > records.length / 40 := by
      have hmany : 40 * points.length ≤ records.length :=
        length_segment_points hconstructed.points hrecords
      rw [gt_iff_lt, Nat.not_lt, Nat.le_div_iff_mul_le (by decide)]
      omega
    simp only [pointSegmentHeader, List.append_assoc]
    refine ⟨_, rfl, _, rfl, _, by decide, _, rfl, ⟨rfl, rfl⟩, _, hkind, _, rfl, _, hfits.revision,
      _, rfl, _, hcrc, _, rfl, _, by decide, _, rfl, ⟨rfl, rfl, rfl⟩, _, hconstructed.count, _, rfl,
      _, trivial, _, rfl, _, trivial, _, rfl, hinterval, hroom, ?_⟩
    refine reader_bind_ok.2 ⟨points, [], read_segment_points_iff.2 ⟨rfl, hconstructed.points,
      records, hrecords, (List.append_nil records).symm⟩, rfl⟩

theorem length_point_segment_header (catalogCrc kind count : Nat) (minimum maximum : UInt64) :
    (pointSegmentHeader catalog catalogCrc kind count minimum maximum).length = 48 := by
  simp [pointSegmentHeader, segmentMagic, u64Bytes]

/-- A file is decoded to a segment exactly when the segment, made by its constructors, is encoded
to the file and carries its checksum. -/
theorem decode_point_segment_iff (hfits : CatalogFits catalog) {bytes : List UInt8}
    {segment : PointSegment} :
    decodePointSegment bytes catalog = .ok segment ↔
      segment.Constructed ∧ segment.checksum = closingChecksum bytes ∧
        encodePointSegment segment.kind segment.minSequence segment.lastSequence segment.points
          catalog = .ok bytes := by
  unfold decodePointSegment encodePointSegment
  simp only [bind_ok, exists_unit, require_ok, pure_ok, Prod.exists]
  constructor
  · rintro ⟨crc, hcrc, hlength, hchecksum, found, rest, hread, rfl⟩
    obtain ⟨hconstructed, hsum, -, hinterval, records, hrecords, hbytes⟩ :=
      (read_point_segment_iff hfits (field_catalog_checksum_lt hcrc)).1 hread
    refine ⟨hconstructed, hsum, crc, hcrc, hinterval, records, hrecords, ?_⟩
    -- The four bytes behind the records are the checksum that closes the file.
    have hsplit : bytes = bytes.take (bytes.length - 4) ++
        leBytes 4 (leValue (bytes.drop (bytes.length - 4))) := by
      have hfour : (bytes.drop (bytes.length - 4)).length = 4 := by
        rw [List.length_drop]
        omega
      have hvalue := le_bytes_le_value (bytes.drop (bytes.length - 4))
      rw [hfour] at hvalue
      rw [hvalue, List.take_append_drop]
    have hlt : leValue (bytes.drop (bytes.length - 4)) < 256 ^ 4 := by
      have hlt := le_value_lt (bytes.drop (bytes.length - 4))
      rw [List.length_drop, Nat.sub_sub_self (by omega)] at hlt
      exact hlt
    rw [hsplit, check_file_checksum_ok hlt, ← hsplit, hbytes] at hchecksum
    exact hchecksum.symm
  · rintro ⟨hconstructed, hsum, crc, hcrc, hinterval, records, hrecords, rfl⟩
    generalize hbody : pointSegmentHeader catalog crc segment.kind segment.points.length
      segment.minSequence segment.lastSequence ++ records = body at hsum ⊢
    have hlong : 48 ≤ body.length := by
      rw [← hbody, List.length_append, length_point_segment_header]
      omega
    have hlength : (withChecksum body).length = body.length + 4 := by
      rw [withChecksum, List.length_append, length_le_bytes]
    have htake : (withChecksum body).take ((withChecksum body).length - 4) = body := by
      rw [hlength]
      exact List.take_left
    have hcrcLt : (crc32 (body.drop 4)).toNat < 256 ^ 4 := UInt32.toNat_lt _
    refine ⟨crc, hcrc, by omega, (check_file_checksum_ok hcrcLt).2 rfl, segment, [], ?_, rfl⟩
    rw [htake]
    exact (read_point_segment_iff hfits (field_catalog_checksum_lt hcrc)).2
      ⟨hconstructed, hsum, rfl, hinterval, records, hrecords, hbody.symm⟩

/-- An encoded segment is decoded to itself and its checksum, each file that is decoded is what its
segment is encoded to, and no two files hold the same points of the same interval. -/
theorem point_segment_round_trip (hfits : CatalogFits catalog) :
    (∀ points bytes, (∀ point ∈ points, point.Constructed) → points.length < 2 ^ 64 →
      encodePointSegment kind minimum maximum points catalog = .ok bytes →
        decodePointSegment bytes catalog =
          .ok ⟨kind, minimum, maximum, closingChecksum bytes, points⟩) ∧
      (∀ bytes segment, decodePointSegment bytes catalog = .ok segment →
        encodePointSegment segment.kind segment.minSequence segment.lastSequence segment.points
          catalog = .ok bytes) ∧
      ∀ bytes other segment segment', decodePointSegment bytes catalog = .ok segment →
        decodePointSegment other catalog = .ok segment' → segment.kind = segment'.kind →
          segment.minSequence = segment'.minSequence →
            segment.lastSequence = segment'.lastSequence → segment.points = segment'.points →
              bytes = other := by
  refine ⟨fun points bytes hpoints hcount h => ?_, fun bytes segment h => ?_, ?_⟩
  · exact (decode_point_segment_iff hfits).2 ⟨⟨hpoints, hcount⟩, rfl, h⟩
  · exact ((decode_point_segment_iff hfits).1 h).2.2
  · intro bytes other segment segment' h h' hkind hminimum hlast hpoints
    have hencode := ((decode_point_segment_iff hfits).1 h).2.2
    have hencode' := ((decode_point_segment_iff hfits).1 h').2.2
    rw [hkind, hminimum, hlast, hpoints, hencode'] at hencode
    exact (Except.ok.inj hencode).symm

/-- A point with a vector and a tombstone. -/
def smallPoints : List PointState :=
  [⟨7, 1, 1, false, [⟨0, .dense (.f32 [⟨1⟩, ⟨2⟩, ⟨3⟩, ⟨4⟩])⟩], some []⟩, ⟨8, 2, 0, true, [], none⟩]

theorem point_segment_round_trip_small : ∃ bytes,
    encodePointSegment 2 1 2 smallPoints smallCatalog = .ok bytes ∧
      decodePointSegment bytes smallCatalog =
        .ok ⟨2, 1, 2, closingChecksum bytes, smallPoints⟩ := by
  have hencoded : (encodePointSegment 2 1 2 smallPoints smallCatalog).toBool = true := by
    decide +kernel
  have hconstructed : ∀ point ∈ smallPoints, point.Constructed := by
    intro point hpoint
    rcases List.mem_cons.1 hpoint with rfl | hpoint
    · refine ⟨by decide, fun field hfield => ?_, fun payload hpayload field hfield => ?_⟩
      · obtain rfl := List.mem_singleton.1 hfield
        rfl
      · obtain rfl := Option.some.inj hpayload
        cases hfield
    · obtain rfl := List.mem_singleton.1 hpoint
      refine ⟨by decide, fun field hfield => ?_, fun payload hpayload => ?_⟩
      · cases hfield
      · cases hpayload
  cases hencode : encodePointSegment 2 1 2 smallPoints smallCatalog with
  | error e =>
      rw [hencode] at hencoded
      cases hencoded
  | ok bytes =>
      exact ⟨bytes, rfl, (point_segment_round_trip ⟨by decide, by decide⟩).1 smallPoints bytes
        hconstructed (by decide) hencode⟩

end

end Akasha.Storage

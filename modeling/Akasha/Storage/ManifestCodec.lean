import Akasha.Storage.ManifestFile

/-!
# Manifests are read back

Every part of a manifest file is read from exactly the bytes that are written for it, and so is
the file: `decode_manifest_iff` says which manifests of versions 2 to 5 the decoder returns and
that their bytes are those of the encoder. Both directions of the round trip are read off it.
-/

namespace Akasha.Storage.ManifestFile

open Lib List

/-! ## Descriptors -/

/-- The bytes of `encodeSegment`. -/
def segmentBytes (segment : SegmentDescriptor) : List UInt8 :=
  leBytes 2 segment.level ++ leBytes 2 (if (utf8Bytes segment.sparseName).length > 0 then 1 else 0) ++
    u64Bytes segment.minSequence ++ u64Bytes segment.maxSequence ++
    leBytes 4 segment.checksum.toNat ++ leBytes 2 (utf8Bytes segment.name).length ++ leBytes 2 0 ++
    utf8Bytes segment.name ++
    if (utf8Bytes segment.sparseName).length > 0 then
      leBytes 4 segment.sparseChecksum.toNat ++ leBytes 2 (utf8Bytes segment.sparseName).length ++
        leBytes 2 0 ++ utf8Bytes segment.sparseName
    else []

/-- The lengths of the names fit their fields. -/
structure NamesFit (segment : SegmentDescriptor) : Prop where
  name : (utf8Bytes segment.name).length ≤ maxNameBytes
  sparse : (utf8Bytes segment.sparseName).length ≤ maxNameBytes

/-- Descriptors that the constructors build. -/
structure NamesSafe (strict : Bool) (segment : SegmentDescriptor) : Prop where
  name : SafeName strict segment.name
  sparse : segment.sparseName ≠ "" → SafeName strict segment.sparseName

variable {bytes : List UInt8} {segment : SegmentDescriptor}

theorem encode_segment_ok :
    encodeSegment segment = .ok bytes ↔ NamesFit segment ∧ segmentBytes segment = bytes := by
  unfold encodeSegment segmentBytes
  simp only [bind_ok, exists_unit, require_ok, pure_ok, Nat.not_lt, gt_iff_lt]
  constructor
  · rintro ⟨hname, hsparse, hbytes⟩
    exact ⟨⟨hname, hsparse⟩, hbytes⟩
  · rintro ⟨⟨hname, hsparse⟩, hbytes⟩
    exact ⟨hname, hsparse, hbytes⟩

variable {strict : Bool}

theorem create_ok {level : Nat} {minSequence maxSequence : UInt64} {checksum : UInt32}
    {name : String} :
    SegmentDescriptor.create level minSequence maxSequence checksum name strict = .ok segment ↔
      SafeName strict name ∧ segment.sparseName = "" ∧ segment.level = level ∧
        segment.minSequence = minSequence ∧ segment.maxSequence = maxSequence ∧
        segment.checksum = checksum ∧ segment.name = name := by
  unfold SegmentDescriptor.create
  constructor
  · intro h
    split at h
    · split at h
      · simp only [bind_ok, exists_unit, pure_ok] at h
        obtain ⟨hsafe, rfl⟩ := h
        exact ⟨hsafe, rfl, rfl, rfl, rfl, rfl, rfl⟩
      · cases h
    · cases h
  · rintro ⟨hsafe, hsparse, rfl, rfl, rfl, rfl, rfl⟩
    rw [dif_pos segment.level_le, dif_pos segment.range]
    refine bind_ok.2 ⟨(), hsafe, ?_⟩
    obtain ⟨level, low, high, checksum, name, sparse, sparseName, hlevel, hrange, hzero⟩ := segment
    cases hsparse
    cases hzero rfl
    rfl

theorem with_sparse_ok {level : Nat} {minSequence maxSequence : UInt64} {checksum : UInt32}
    {name : String} {sparseChecksum : UInt32} {sparseName : String} :
    SegmentDescriptor.withSparse level minSequence maxSequence checksum name sparseChecksum sparseName
        strict = .ok segment ↔
      sparseName ≠ "" ∧ SafeName strict sparseName ∧ SafeName strict name ∧
        segment.sparseName = sparseName ∧ segment.sparseChecksum = sparseChecksum ∧
        segment.level = level ∧ segment.minSequence = minSequence ∧
        segment.maxSequence = maxSequence ∧ segment.checksum = checksum ∧ segment.name = name := by
  unfold SegmentDescriptor.withSparse
  by_cases hempty : sparseName = ""
  · rw [dif_pos hempty]
    exact ⟨nofun, fun h => absurd hempty h.1⟩
  · rw [dif_neg hempty]
    simp only [bind_ok, exists_unit, pure_ok, create_ok]
    constructor
    · rintro ⟨hsafe, plain, ⟨hname, -, rfl, rfl, rfl, rfl, rfl⟩, rfl⟩
      exact ⟨hempty, hsafe, hname, rfl, rfl, rfl, rfl, rfl, rfl, rfl⟩
    · rintro ⟨-, hsafe, hname, rfl, rfl, rfl, rfl, rfl, rfl, rfl⟩
      exact ⟨hsafe, { segment with sparseChecksum := 0, sparseName := "", sparse_zero := fun _ => rfl },
        ⟨hname, rfl, rfl, rfl, rfl, rfl, rfl⟩, rfl⟩

theorem text_length_pos {text : String} : (utf8Bytes text).length > 0 ↔ text ≠ "" := by
  rw [gt_iff_lt, length_pos_iff, ne_eq, utf8_bytes_eq_nil]

theorem read_text_iff {length : Nat} {bytes rest : List UInt8} {text : String} :
    (∃ span left, readSpan length bytes = .ok (span, left) ∧
        readUtf8 span left = .ok (text, rest)) ↔
      (utf8Bytes text).length = length ∧ bytes = utf8Bytes text ++ rest := by
  constructor
  · rintro ⟨span, left, hspan, htext⟩
    obtain ⟨rfl, rfl⟩ := read_utf8_iff.1 htext
    exact (exact_span _ _ _ _).1 hspan
  · intro h
    exact ⟨_, _, (exact_span _ _ _ _).2 h, read_utf8_iff.2 ⟨rfl, rfl⟩⟩

/-- The sparse part of a descriptor. -/
def sparseBytes (segment : SegmentDescriptor) : List UInt8 :=
  leBytes 4 segment.sparseChecksum.toNat ++ leBytes 2 (utf8Bytes segment.sparseName).length ++
    leBytes 2 0 ++ utf8Bytes segment.sparseName

theorem segment_bytes_plain (h : segment.sparseName = "") :
    segmentBytes segment = leBytes 2 segment.level ++ leBytes 2 0 ++ u64Bytes segment.minSequence ++
      u64Bytes segment.maxSequence ++ leBytes 4 segment.checksum.toNat ++
      leBytes 2 (utf8Bytes segment.name).length ++ leBytes 2 0 ++ utf8Bytes segment.name := by
  unfold segmentBytes
  rw [h, if_neg (by decide), if_neg (by decide), append_nil]

theorem segment_bytes_sparse (h : segment.sparseName ≠ "") :
    segmentBytes segment = leBytes 2 segment.level ++ leBytes 2 1 ++ u64Bytes segment.minSequence ++
      u64Bytes segment.maxSequence ++ leBytes 4 segment.checksum.toNat ++
      leBytes 2 (utf8Bytes segment.name).length ++ leBytes 2 0 ++ utf8Bytes segment.name ++
      sparseBytes segment := by
  unfold segmentBytes
  rw [if_pos (text_length_pos.2 h), if_pos (text_length_pos.2 h)]
  rfl

/-- The reader of a descriptor returns what the constructors build, from its bytes. -/
theorem exact_segment (strict : Bool) : Exact (readSegment strict)
    (fun segment => NamesFit segment ∧ NamesSafe strict segment) segmentBytes := by
  intro bytes segment rest
  unfold readSegment
  simp only [reader_bind_ok, check_ok]
  constructor
  · rintro ⟨level, r1, hlevel, flags, r2, hflags, -, _, ⟨hone, rfl⟩, low, r3, hlow, high, r4, hhigh,
      checksum, r5, hchecksum, length, r6, hlength, reserved, r7, hreserved, -, _, ⟨rfl, rfl⟩, span,
      r8, hspan, name, r9, hname, hrest⟩
    obtain ⟨-, rfl⟩ := (exact_u16 _ _ _).1 hlevel
    obtain ⟨-, rfl⟩ := (exact_u16 _ _ _).1 hflags
    obtain rfl := read_u64_iff.1 hlow
    obtain rfl := read_u64_iff.1 hhigh
    obtain ⟨hsum, rfl⟩ := (exact_u32 _ _ _).1 hchecksum
    obtain ⟨hfits, rfl⟩ := (exact_u16 _ _ _).1 hlength
    obtain ⟨-, rfl⟩ := (exact_u16 _ _ _).1 hreserved
    obtain ⟨rfl, rfl⟩ := read_text_iff.1 ⟨_, _, hspan, hname⟩
    have hsum : (UInt32.ofNat checksum).toNat = checksum := UInt32.toNat_ofNat_of_lt' hsum
    have hfits : (utf8Bytes name).length ≤ maxNameBytes := Nat.le_of_lt_succ hfits
    split at hrest
    · next hflag =>
      simp only [reader_bind_ok, check_ok, of_result_ok] at hrest
      obtain ⟨sparseChecksum, s1, hsparseChecksum, sparseLength, s2, hsparseLength, sparseReserved, s3,
        hsparseReserved, -, _, ⟨rfl, rfl⟩, sparseSpan, s4, hsparseSpan, sparseName, s5, hsparseName,
        hcreate, rfl⟩ := hrest
      obtain ⟨hsparseSum, rfl⟩ := (exact_u32 _ _ _).1 hsparseChecksum
      obtain ⟨hsparseFits, rfl⟩ := (exact_u16 _ _ _).1 hsparseLength
      obtain ⟨-, rfl⟩ := (exact_u16 _ _ _).1 hsparseReserved
      obtain ⟨rfl, rfl⟩ := read_text_iff.1 ⟨_, _, hsparseSpan, hsparseName⟩
      have hsparseSum : (UInt32.ofNat sparseChecksum).toNat = sparseChecksum :=
        UInt32.toNat_ofNat_of_lt' hsparseSum
      obtain ⟨hne, hsafe, hdense, rfl, hchecksum', rfl, rfl, rfl, hchecksum'', rfl⟩ :=
        with_sparse_ok.1 hcreate
      refine ⟨⟨⟨hfits, Nat.le_of_lt_succ hsparseFits⟩, ⟨hdense, fun _ => hsafe⟩⟩, ?_⟩
      rw [segment_bytes_sparse hne, sparseBytes, hchecksum', hchecksum'', hsum, hsparseSum, hflag]
      simp only [append_assoc]
    · next hflag =>
      obtain ⟨hcreate, rfl⟩ := of_result_ok.1 hrest
      obtain ⟨hdense, hempty, rfl, rfl, rfl, hchecksum', rfl⟩ := create_ok.1 hcreate
      have hflags : flags = 0 := by omega
      refine ⟨⟨⟨hfits, by rw [hempty]; decide⟩, ⟨hdense, fun hne => absurd hempty hne⟩⟩, ?_⟩
      rw [segment_bytes_plain hempty, hchecksum', hsum, hflags]
      simp only [append_assoc]
  · rintro ⟨⟨⟨hfits, hsparseFits⟩, ⟨hdense, hsafe⟩⟩, rfl⟩
    have hlevel : segment.level < 2 ^ 16 := Nat.lt_of_le_of_lt segment.level_le (by decide)
    by_cases hempty : segment.sparseName = ""
    · rw [segment_bytes_plain hempty]
      simp only [append_assoc]
      refine ⟨_, _, (exact_u16 _ _ _).2 ⟨hlevel, rfl⟩, 0, _, (exact_u16 _ _ _).2 ⟨by decide, rfl⟩,
        (), _, ⟨by decide, rfl⟩, _, _, read_u64_iff.2 rfl, _, _, read_u64_iff.2 rfl, _, _,
        (exact_u32 _ _ _).2 ⟨segment.checksum.toNat_lt, rfl⟩, _, _,
        (exact_u16 _ _ _).2 ⟨Nat.lt_succ_of_le hfits, rfl⟩, 0, _,
        (exact_u16 _ _ _).2 ⟨by decide, rfl⟩, (), _, ⟨rfl, rfl⟩, _, _,
        (exact_span _ _ _ _).2 ⟨rfl, rfl⟩, _, _, read_utf8_iff.2 ⟨rfl, rfl⟩, ?_⟩
      rw [if_neg (by decide)]
      exact of_result_ok.2 ⟨create_ok.2 ⟨hdense, hempty, rfl, rfl, rfl,
        (UInt32.ofNat_toNat).symm, rfl⟩, rfl⟩
    · rw [segment_bytes_sparse hempty, sparseBytes]
      simp only [append_assoc]
      refine ⟨_, _, (exact_u16 _ _ _).2 ⟨hlevel, rfl⟩, 1, _, (exact_u16 _ _ _).2 ⟨by decide, rfl⟩,
        (), _, ⟨by decide, rfl⟩, _, _, read_u64_iff.2 rfl, _, _, read_u64_iff.2 rfl, _, _,
        (exact_u32 _ _ _).2 ⟨segment.checksum.toNat_lt, rfl⟩, _, _,
        (exact_u16 _ _ _).2 ⟨Nat.lt_succ_of_le hfits, rfl⟩, 0, _,
        (exact_u16 _ _ _).2 ⟨by decide, rfl⟩, (), _, ⟨rfl, rfl⟩, _, _,
        (exact_span _ _ _ _).2 ⟨rfl, rfl⟩, _, _, read_utf8_iff.2 ⟨rfl, rfl⟩, ?_⟩
      rw [if_pos rfl]
      simp only [reader_bind_ok, check_ok, of_result_ok]
      exact ⟨_, _, (exact_u32 _ _ _).2 ⟨segment.sparseChecksum.toNat_lt, rfl⟩, _, _,
        (exact_u16 _ _ _).2 ⟨Nat.lt_succ_of_le hsparseFits, rfl⟩, 0, _,
        (exact_u16 _ _ _).2 ⟨by decide, rfl⟩, (), _, ⟨rfl, rfl⟩, _, _,
        (exact_span _ _ _ _).2 ⟨rfl, rfl⟩, _, _, read_utf8_iff.2 ⟨rfl, rfl⟩,
        with_sparse_ok.2 ⟨hempty, hsafe hempty, hdense, rfl, (UInt32.ofNat_toNat).symm, rfl, rfl, rfl,
          (UInt32.ofNat_toNat).symm, rfl⟩, rfl⟩

/-! ## The reference to the sidecar -/

/-- The bytes of `encodeHnswReference`. -/
def partBytes : Option HnswPart → List UInt8
  | none => []
  | some part => leBytes 4 part.checksum.toNat ++ leBytes 2 (utf8Bytes part.name).length ++
      leBytes 2 0 ++ u64Bytes part.fingerprint ++ u64Bytes part.pointCount ++ utf8Bytes part.name

/-- The length of the name fits its field. -/
def PartFits (part : Option HnswPart) : Prop :=
  ∀ reference ∈ part, (utf8Bytes reference.name).length ≤ maxNameBytes

theorem length_part_bytes (part : HnswPart) :
    (partBytes (some part)).length = 24 + (utf8Bytes part.name).length := by
  simp only [partBytes, u64Bytes, length_append, length_le_bytes]

/-- The reader of the reference, in front of the checksum. -/
theorem read_part_iff {hasHnsw : Bool} {bytes rest : List UInt8} {part : Option HnswPart} :
    (readHnswPart hasHnsw bytes = .ok (part, rest) ∧ rest.length = 4) ↔
      (hasHnsw = part.isSome ∧ PartFits part ∧ bytes = partBytes part ++ rest ∧ rest.length = 4) := by
  cases hasHnsw with
  | false =>
      unfold readHnswPart
      rw [if_neg (by decide), reader_pure_ok]
      constructor
      · rintro ⟨h, hlength⟩
        obtain ⟨rfl, rfl⟩ := Prod.mk.inj h
        exact ⟨rfl, nofun, rfl, hlength⟩
      · rintro ⟨hnone, -, rfl, hlength⟩
        cases part with
        | none => exact ⟨rfl, hlength⟩
        | some part => cases hnone
  | true =>
      unfold readHnswPart
      rw [if_pos rfl]
      simp only [reader_bind_ok, check_ok, remaining_iff, reader_pure_ok]
      constructor
      · rintro ⟨⟨_, _, ⟨rfl, rfl⟩, -, _, ⟨-, rfl⟩, checksum, r1, hchecksum, length, r2, hlength,
          reserved, r3, hreserved, -, _, ⟨rfl, rfl⟩, fingerprint, r4, hfingerprint, count, r5, hcount,
          _, _, ⟨rfl, rfl⟩, -, _, ⟨hleft, rfl⟩, span, r6, hspan, name, r7, hname, hresult⟩, hrest⟩
        obtain ⟨hsum, rfl⟩ := (exact_u32 _ _ _).1 hchecksum
        obtain ⟨hfits, rfl⟩ := (exact_u16 _ _ _).1 hlength
        obtain ⟨-, rfl⟩ := (exact_u16 _ _ _).1 hreserved
        obtain rfl := read_u64_iff.1 hfingerprint
        obtain rfl := read_u64_iff.1 hcount
        obtain ⟨rfl, rfl⟩ := read_text_iff.1 ⟨_, _, hspan, hname⟩
        obtain ⟨rfl, rfl⟩ := Prod.mk.inj hresult
        have hsum : (UInt32.ofNat checksum).toNat = checksum := UInt32.toNat_ofNat_of_lt' hsum
        refine ⟨rfl, ?_, ?_, hrest⟩
        · rintro reference href
          obtain rfl := Option.some.inj href
          exact Nat.le_of_lt_succ hfits
        · simp only [partBytes, hsum, append_assoc]
      · rintro ⟨hsome, hfits, rfl, hrest⟩
        cases part with
        | none => cases hsome
        | some part =>
            have hlength := length_part_bytes part
            refine ⟨⟨_, _, ⟨rfl, rfl⟩, (), _, ⟨?_, rfl⟩, ?_⟩, hrest⟩
            · rw [length_append, hlength, hrest]
              unfold hnswDescriptorFixedSize
              omega
            · simp only [partBytes, append_assoc]
              refine ⟨_, _, (exact_u32 _ _ _).2 ⟨part.checksum.toNat_lt, rfl⟩, _, _,
                (exact_u16 _ _ _).2 ⟨Nat.lt_succ_of_le (hfits part rfl), rfl⟩, 0, _,
                (exact_u16 _ _ _).2 ⟨by decide, rfl⟩, (), _, ⟨rfl, rfl⟩, _, _, read_u64_iff.2 rfl, _,
                _, read_u64_iff.2 rfl, _, _, ⟨rfl, rfl⟩, (), _, ⟨?_, rfl⟩, _, _,
                (exact_span _ _ _ _).2 ⟨rfl, rfl⟩, _, _, read_utf8_iff.2 ⟨rfl, rfl⟩, ?_⟩
              · rw [length_append, hrest]
              · rw [UInt32.ofNat_toNat]

/-! ## The file -/

namespace Manifest

/-- The reference of a manifest. -/
def part (manifest : Manifest) : Option HnswPart :=
  match manifest.hnswName, manifest.hnswChecksum, manifest.hnswConfigFingerprint,
      manifest.hnswPointCount with
  | some name, some checksum, some fingerprint, some pointCount =>
      some ⟨checksum, fingerprint, pointCount, name⟩
  | _, _, _, _ => none

/-- The body of a file of versions 2 to 5. -/
def body (manifest : Manifest) : List UInt8 :=
  manifestMagic ++ leBytes 2 manifest.formatVersion ++
    leBytes 2 (if manifest.part.isSome then 1 else 0) ++ leBytes 4 manifest.dimension.toNat ++
    u64Bytes manifest.generation ++ u64Bytes manifest.lastSequence ++
    leBytes 4 manifest.segments.length ++ leBytes 4 0 ++ manifest.segments.flatMap segmentBytes ++
    partBytes manifest.part

/-- What fits a file of versions 2 to 5, and passes the checks at the end of the decoder. -/
structure Encodable (manifest : Manifest) : Prop where
  version : 2 ≤ manifest.formatVersion ∧ manifest.formatVersion ≤ 5
  fits_dimension : manifest.dimension < 2 ^ 32
  plain : manifest.formatVersion = 2 → manifest.part = none
  finished : finishManifest manifest.dimension manifest.generation manifest.lastSequence
    manifest.formatVersion (3 ≤ manifest.formatVersion) manifest.segments manifest.part =
      .ok manifest
  names_fit : ∀ segment ∈ manifest.segments, NamesFit segment
  part_fits : PartFits manifest.part

end Manifest

/-- The end of the decoder keeps what was read. -/
structure Finished (dimension : Int) (generation lastSequence : UInt64) (version : Nat)
    (strict : Bool) (segments : List SegmentDescriptor) (part : Option HnswPart)
    (manifest : Manifest) : Prop where
  dimension_pos : 0 < dimension
  generation_ne : generation ≠ 0
  valid : SegmentsValid lastSequence strict segments
  dimension_eq : manifest.dimension = dimension
  generation_eq : manifest.generation = generation
  last_eq : manifest.lastSequence = lastSequence
  version_eq : manifest.formatVersion = version
  segments_eq : manifest.segments = segments
  part_eq : manifest.part = part

variable {manifest : Manifest} {segments : List SegmentDescriptor} {version : Nat} {dimension : Int}

theorem finish_manifest_ok {generation lastSequence : UInt64} {part : Option HnswPart}
    (h : finishManifest dimension generation lastSequence version strict segments part =
      .ok manifest) :
    Finished dimension generation lastSequence version strict segments part manifest := by
  obtain ⟨plain, hplain, h⟩ := bind_ok.1 h
  obtain ⟨hdim, hgeneration, hvalid, newest, -, rfl⟩ := with_segments_ok.1 hplain
  cases part with
  | none =>
      obtain rfl := pure_ok.1 h
      exact ⟨hdim, hgeneration, hvalid, rfl, rfl, rfl, rfl, rfl, rfl⟩
  | some part =>
      simp only [bind_ok, exists_unit, pure_ok] at h
      obtain ⟨-, hasHnsw, -, rfl⟩ := h
      exact ⟨hdim, hgeneration, hvalid, rfl, rfl, rfl, rfl, rfl, rfl⟩

theorem finished_reference {generation lastSequence : UInt64}
    (h : finishManifest dimension generation lastSequence version strict segments none =
      .ok manifest) :
    validateHnswReference manifest manifest.formatVersion = .ok false := by
  obtain ⟨plain, hplain, h⟩ := bind_ok.1 h
  obtain ⟨-, -, -, newest, -, rfl⟩ := with_segments_ok.1 hplain
  obtain rfl := pure_ok.1 h
  rfl

/-! ## Lengths -/

theorem length_segment_bytes (segment : SegmentDescriptor) :
    28 ≤ (segmentBytes segment).length ∧ (NamesFit segment →
      (segmentBytes segment).length ≤ 28 + maxNameBytes + 8 + maxNameBytes) := by
  by_cases h : segment.sparseName = ""
  · rw [segment_bytes_plain h]
    simp only [u64Bytes, length_append, length_le_bytes]
    refine ⟨by omega, fun hfit => ?_⟩
    have hname := hfit.name
    omega
  · rw [segment_bytes_sparse h]
    simp only [sparseBytes, u64Bytes, length_append, length_le_bytes]
    refine ⟨by omega, fun hfit => ?_⟩
    have hname := hfit.name
    have hsparse := hfit.sparse
    omega

theorem length_body (manifest : Manifest) :
    manifest.body.length = 36 + (manifest.segments.flatMap segmentBytes).length +
      (partBytes manifest.part).length := by
  simp only [Manifest.body, u64Bytes, length_append, length_le_bytes]
  rw [show manifestMagic.length = 4 from rfl]

theorem length_file_le (hcount : manifest.segments.length ≤ maxSegments)
    (hnames : ∀ segment ∈ manifest.segments, NamesFit segment) (hpart : PartFits manifest.part) :
    (withChecksum manifest.body).length ≤ maxManifestBytes := by
  have hsegments := length_flat_map_le fun segment hsegment =>
    (length_segment_bytes segment).2 (hnames segment hsegment)
  have hall := Nat.mul_le_mul_right (28 + maxNameBytes + 8 + maxNameBytes) hcount
  have hreference : (partBytes manifest.part).length ≤ hnswDescriptorFixedSize + maxNameBytes := by
    cases hcase : manifest.part with
    | none => simp [partBytes]
    | some part =>
        rw [length_part_bytes]
        exact Nat.add_le_add_left (hpart part hcase) 24
  rw [withChecksum, length_append, length_body, length_le_bytes]
  unfold maxManifestBytes
  omega

/-! ## The decoder -/

/-- What follows the dimension. -/
def Manifest.payload (manifest : Manifest) : List UInt8 :=
  u64Bytes manifest.generation ++ u64Bytes manifest.lastSequence ++
    leBytes 4 manifest.segments.length ++ leBytes 4 0 ++ manifest.segments.flatMap segmentBytes ++
    partBytes manifest.part

/-- `_decode_manifest_multi` returns the manifests that pass the checks, from their bytes. -/
theorem read_multi_iff {dimension size version : Nat} {hasHnsw : Bool} {bytes rest : List UInt8}
    (hsize : size = 12 + bytes.length) :
    readMultiManifest dimension size version hasHnsw bytes = .ok (manifest, rest) ↔
      rest = [] ∧ hasHnsw = manifest.part.isSome ∧ PartFits manifest.part ∧
        (∀ segment ∈ manifest.segments, NamesFit segment) ∧
        finishManifest dimension manifest.generation manifest.lastSequence version (3 ≤ version)
          manifest.segments manifest.part = .ok manifest ∧
        ∃ checksum < 256 ^ 4, bytes = manifest.payload ++ leBytes 4 checksum := by
  unfold readMultiManifest
  simp only [reader_bind_ok, check_ok, of_result_ok, remaining_iff]
  constructor
  · rintro ⟨generation, r1, hgeneration, lastSequence, r2, hlast, count, r3, hcount, -, _, ⟨-, rfl⟩,
      reserved, r4, hreserved, -, _, ⟨rfl, rfl⟩, -, _, ⟨-, rfl⟩, -, _, ⟨-, rfl⟩, segments, r5,
      hsegments, part, r6, hpart, checksum, r7, hchecksum, _, _, ⟨rfl, rfl⟩, -, _, ⟨hempty, rfl⟩,
      hfinish, rfl⟩
    obtain rfl := read_u64_iff.1 hgeneration
    obtain rfl := read_u64_iff.1 hlast
    obtain ⟨-, rfl⟩ := (exact_u32 _ _ _).1 hcount
    obtain ⟨-, rfl⟩ := (exact_u32 _ _ _).1 hreserved
    obtain ⟨rfl, hadmitted, rfl⟩ := (read_times_iff (exact_segment _) _ _ _ _ _).1 hsegments
    obtain ⟨hfits, rfl⟩ := (exact_u32 _ _ _).1 hchecksum
    obtain rfl := length_eq_zero_iff.1 hempty
    have hclosing : (leBytes 4 checksum ++ []).length = 4 := by simp
    obtain ⟨hsome, hpartFits, rfl, -⟩ := read_part_iff.1 ⟨hpart, hclosing⟩
    have hfinished := finish_manifest_ok hfinish
    rw [Manifest.payload, hfinished.generation_eq, hfinished.last_eq, hfinished.segments_eq,
      hfinished.part_eq]
    refine ⟨rfl, hsome, hpartFits, fun segment hsegment => (hadmitted segment hsegment).1, hfinish,
      checksum, hfits, ?_⟩
    simp only [append_assoc, append_nil]
  · rintro ⟨rfl, hsome, hpartFits, hnames, hfinish, checksum, hchecksum, rfl⟩
    have hfinished := finish_manifest_ok hfinish
    have hvalid := hfinished.valid
    have hpositive : manifest.segments.length ≠ 0 := fun hzero =>
      hvalid.segments_ne (length_eq_zero_iff.1 hzero)
    have hatMost := hvalid.length_le
    have hsegments := length_flat_map_ge fun segment (_ : segment ∈ manifest.segments) =>
      (length_segment_bytes segment).1
    have hextension : (if hasHnsw then hnswDescriptorFixedSize else 0) ≤
        (partBytes manifest.part).length := by
      cases hpart : manifest.part with
      | none =>
          rw [hsome, hpart]
          simp
      | some part =>
          rw [length_part_bytes, hsome, hpart]
          unfold hnswDescriptorFixedSize
          simp
    have hlength : size = 40 + (manifest.segments.flatMap segmentBytes).length +
        (partBytes manifest.part).length := by
      simp only [hsize, Manifest.payload, u64Bytes, length_append, length_le_bytes]
      omega
    have hclosing : (leBytes 4 checksum ++ []).length = 4 := by simp
    have hadmitted : ∀ segment ∈ manifest.segments,
        NamesFit segment ∧ NamesSafe (decide (3 ≤ version)) segment := fun segment hsegment =>
      ⟨hnames segment hsegment, (hvalid.valid segment hsegment).safe,
        (hvalid.valid segment hsegment).sparse_safe⟩
    have hbytes : manifest.payload ++ leBytes 4 checksum = u64Bytes manifest.generation ++
        (u64Bytes manifest.lastSequence ++ (leBytes 4 manifest.segments.length ++ (leBytes 4 0 ++
          (manifest.segments.flatMap segmentBytes ++ (partBytes manifest.part ++
            (leBytes 4 checksum ++ [])))))) := by
      simp only [Manifest.payload, append_assoc, append_nil]
    rw [hbytes]
    refine ⟨_, _, read_u64_iff.2 rfl, _, _, read_u64_iff.2 rfl, _, _,
      (exact_u32 _ _ _).2 ⟨Nat.lt_of_le_of_lt hatMost (by decide), rfl⟩, (), _,
      ⟨not_or.2 ⟨hpositive, Nat.not_lt.2 hatMost⟩, rfl⟩, 0, _,
      (exact_u32 _ _ _).2 ⟨by decide, rfl⟩, (), _, ⟨rfl, rfl⟩, (), _, ⟨by omega, rfl⟩, (), _,
      ⟨?_, rfl⟩, _, _, (read_times_iff (exact_segment _) _ _ _ _ _).2 ⟨rfl, hadmitted, rfl⟩, _, _,
      (read_part_iff.2 ⟨hsome, hpartFits, rfl, hclosing⟩).1, _, _,
      (exact_u32 _ _ _).2 ⟨hchecksum, rfl⟩, _, _, ⟨rfl, rfl⟩, (), _, ⟨rfl, rfl⟩, hfinish, rfl⟩
    rw [Nat.not_lt, Nat.le_div_iff_mul_le (by decide)]
    omega

theorem body_eq (manifest : Manifest) : manifest.body = manifestMagic ++
    (leBytes 2 manifest.formatVersion ++ (leBytes 2 (if manifest.part.isSome then 1 else 0) ++
      (leBytes 4 manifest.dimension.toNat ++ manifest.payload))) := by
  simp only [Manifest.body, Manifest.payload, append_assoc]

theorem version_at (hversion : version < 2 ^ 16) (tail : List UInt8) :
    (manifestMagic ++ (leBytes 2 version ++ tail)).take 4 = manifestMagic ∧
      leValue (((manifestMagic ++ (leBytes 2 version ++ tail)).drop 4).take 2) = version := by
  refine ⟨take_left' rfl, ?_⟩
  have hdrop : (manifestMagic ++ (leBytes 2 version ++ tail)).drop 4 = leBytes 2 version ++ tail :=
    drop_left' rfl
  rw [hdrop, take_left' (length_le_bytes 2 version), le_value_le_bytes]
  exact Nat.mod_eq_of_lt hversion

theorem minimum_size_ok {version minimum : Nat} :
    minimumSize version = .ok minimum ↔
      (version = 1 ∧ minimum = 32) ∨ (2 ≤ version ∧ version ≤ 5 ∧ minimum = 40) := by
  unfold minimumSize
  by_cases hone : version = 1
  · rw [if_pos hone, pure_ok]
    omega
  · rw [if_neg hone]
    by_cases hmany : version = 2 ∨ version = 3 ∨ version = 4 ∨ version = 5
    · rw [if_pos hmany, pure_ok]
      omega
    · rw [if_neg hmany]
      refine ⟨nofun, ?_⟩
      omega

theorem read_manifest_iff {bytes rest : List UInt8} (hversion : 2 ≤ version ∧ version ≤ 5)
    (hpositive : 0 < dimension) :
    readManifest bytes.length version dimension bytes = .ok (manifest, rest) ↔
      rest = [] ∧ manifest.formatVersion = version ∧ manifest.dimension = dimension ∧
        manifest.Encodable ∧ ∃ checksum < 256 ^ 4, bytes = manifest.body ++ leBytes 4 checksum := by
  unfold readManifest
  have hone : version ≠ 1 := by omega
  simp only [reader_bind_ok, check_ok, if_neg hone]
  constructor
  · rintro ⟨magic, r1, hmagic, -, _, ⟨hmagicEq, rfl⟩, again, r2, hagain, -, _, ⟨hagainEq, rfl⟩, flags,
      r3, hflags, -, _, ⟨hplain, rfl⟩, -, _, ⟨hflag, rfl⟩, read, r4, hread, -, _, ⟨hreadEq, rfl⟩,
      hmulti⟩
    obtain ⟨-, hmagic⟩ := (exact_span _ _ _ _).1 hmagic
    obtain ⟨-, hagain⟩ := (exact_u16 _ _ _).1 hagain
    obtain ⟨-, hflags⟩ := (exact_u16 _ _ _).1 hflags
    obtain ⟨hfits, hread⟩ := (exact_u32 _ _ _).1 hread
    have hbytes : bytes = manifestMagic ++ (leBytes 2 version ++ (leBytes 2 flags ++
        (leBytes 4 read ++ r4))) := by
      rw [hmagic, hagain, hflags, hread, hmagicEq, hagainEq]
      rfl
    have hsize : bytes.length = 12 + r4.length := by
      rw [hbytes]
      simp only [length_append, length_le_bytes]
      rw [show manifestMagic.length = 4 from rfl]
      omega
    obtain ⟨hrest, hsome, hpartFits, hnames, hfinish, checksum, hchecksum, hpayload⟩ :=
      (read_multi_iff hsize).1 hmulti
    have hfinished := finish_manifest_ok hfinish
    have hflagsEq : flags = if manifest.part.isSome then 1 else 0 := by
      rw [← hsome]
      by_cases h : flags = 1
      · simp [h]
      · simp only [h, decide_false, Bool.false_eq_true, if_false]
        omega
    have hdimension : manifest.dimension = dimension := hfinished.dimension_eq.trans hreadEq
    refine ⟨hrest, hfinished.version_eq, hdimension, ?_, checksum, hchecksum, ?_⟩
    · refine ⟨by rw [hfinished.version_eq]; exact hversion, ?_, fun htwo => ?_, ?_, hnames, hpartFits⟩
      · rw [hdimension, ← hreadEq]
        exact_mod_cast hfits
      · rw [hfinished.version_eq] at htwo
        have hzero : flags = 0 := by
          by_contra hne
          exact hplain ⟨by omega, hne⟩
        rw [hzero] at hsome
        cases hpart : manifest.part with
        | none => rfl
        | some part => simp [hpart] at hsome
      · rw [hfinished.version_eq, hfinished.dimension_eq]
        exact hfinish
    · rw [body_eq, hbytes, hpayload, hfinished.version_eq, ← hflagsEq, hfinished.dimension_eq,
        Int.toNat_natCast]
      simp only [append_assoc]
  · rintro ⟨rfl, rfl, rfl, h, checksum, hchecksum, hbytes⟩
    have hnat : (manifest.dimension.toNat : Int) = manifest.dimension :=
      Int.toNat_of_nonneg (Int.le_of_lt hpositive)
    have hfits : manifest.dimension.toNat < 2 ^ 32 := by
      have hlt := h.fits_dimension
      omega
    have hparts : bytes = manifestMagic ++ (leBytes 2 manifest.formatVersion ++
        (leBytes 2 (if manifest.part.isSome then 1 else 0) ++ (leBytes 4 manifest.dimension.toNat ++
          (manifest.payload ++ leBytes 4 checksum)))) := by
      rw [hbytes, body_eq]
      simp only [append_assoc]
    have hsize : bytes.length = 12 + (manifest.payload ++ leBytes 4 checksum).length := by
      rw [hparts]
      simp only [length_append, length_le_bytes]
      rw [show manifestMagic.length = 4 from rfl]
      omega
    have hmulti : readMultiManifest manifest.dimension.toNat bytes.length manifest.formatVersion
        manifest.part.isSome (manifest.payload ++ leBytes 4 checksum) = .ok (manifest, []) := by
      refine (read_multi_iff hsize).2 ⟨rfl, rfl, h.part_fits, h.names_fit, ?_, checksum, hchecksum,
        rfl⟩
      rw [hnat]
      exact h.finished
    refine ⟨_, _, (exact_span _ _ _ _).2 ⟨rfl, hparts⟩, (), _, ⟨rfl, rfl⟩, _, _,
      (exact_u16 _ _ _).2 ⟨Nat.lt_of_le_of_lt hversion.2 (by decide), rfl⟩, (), _, ⟨rfl, rfl⟩,
      if manifest.part.isSome then 1 else 0, _, (exact_u16 _ _ _).2 ⟨by split <;> decide, rfl⟩, (), _,
      ⟨?_, rfl⟩, (), _, ⟨?_, rfl⟩, _, _, (exact_u32 _ _ _).2 ⟨hfits, rfl⟩, (), _, ⟨hnat, rfl⟩, ?_⟩
    · rintro ⟨hlt, hne⟩
      rw [h.plain (by omega)] at hne
      exact hne rfl
    · rintro ⟨-, hgt⟩
      split at hgt <;> omega
    · have hflag : decide ((if manifest.part.isSome then 1 else 0) = 1) = manifest.part.isSome := by
        cases manifest.part.isSome <;> rfl
      rw [hflag]
      exact hmulti

/-- `decode_manifest_bytes` is exact: it returns the encodable manifests of the dimension, each
from the file of its body. -/
theorem decode_manifest_iff (hversion : manifest.formatVersion ≠ 1) :
    decodeManifestBytes bytes dimension = .ok manifest ↔
      manifest.Encodable ∧ manifest.dimension = dimension ∧ bytes = withChecksum manifest.body := by
  unfold decodeManifestBytes
  simp only [bind_ok, exists_unit, require_ok, pure_ok, Prod.exists, minimum_size_ok]
  constructor
  · rintro ⟨hpositive, -, -, minimum, hminimum, -, hsum, _, rest, hread, rfl⟩
    rcases hminimum with ⟨hone, -⟩ | ⟨hlow, hhigh, -⟩
    · rw [hone] at hread
      unfold readManifest at hread
      simp only [reader_bind_ok, check_ok, if_true] at hread
      obtain ⟨magic, _, -, _, _, -, again, _, -, _, _, -, flags, _, -, _, _, -, _, _, -, read, _, -, _,
        _, -, hread⟩ := hread
      exact absurd (old_version hread) hversion
    · obtain ⟨-, -, hdimension, hencodable, checksum, hchecksum, rfl⟩ :=
        (read_manifest_iff ⟨hlow, hhigh⟩ hpositive).1 hread
      exact ⟨hencodable, hdimension, (check_file_checksum_ok hchecksum).1 hsum⟩
  · rintro ⟨h, rfl, rfl⟩
    have hpositive := (finish_manifest_ok h.finished).dimension_pos
    have hcrc : (crc32 (manifest.body.drop 4)).toNat < 256 ^ 4 := UInt32.toNat_lt _
    have hlength : 40 ≤ (withChecksum manifest.body).length := by
      rw [withChecksum, length_append, length_body, length_le_bytes]
      omega
    have hat := version_at (Nat.lt_of_le_of_lt h.version.2 (by decide : 5 < 2 ^ 16))
      (leBytes 2 (if manifest.part.isSome then 1 else 0) ++ (leBytes 4 manifest.dimension.toNat ++
        manifest.payload) ++ leBytes 4 (crc32 (manifest.body.drop 4)).toNat)
    have hfile : withChecksum manifest.body = manifestMagic ++ (leBytes 2 manifest.formatVersion ++
        (leBytes 2 (if manifest.part.isSome then 1 else 0) ++ (leBytes 4 manifest.dimension.toNat ++
        manifest.payload) ++ leBytes 4 (crc32 (manifest.body.drop 4)).toNat)) := by
      rw [withChecksum, body_eq]
      simp only [append_assoc]
    rw [← hfile] at hat
    rw [hat.2]
    refine ⟨hpositive, by omega, hat.1, 40, .inr ⟨h.version.1, h.version.2, rfl⟩, by omega,
      (check_file_checksum_ok hcrc).2 rfl, manifest, [], ?_, rfl⟩
    exact (read_manifest_iff h.version hpositive).2 ⟨rfl, rfl, rfl, h, _, hcrc, rfl⟩

/-! ## The encoders -/

theorem reference_part {hasHnsw : Bool} (h : validateHnswReference manifest version = .ok hasHnsw) :
    hasHnsw = manifest.part.isSome := by
  have hname := (validate_hnsw_reference_ok h).1
  unfold validateHnswReference at h
  simp only [bind_ok, exists_unit, require_ok] at h
  have hall := h.1
  rw [hname]
  unfold Manifest.part
  cases hcase : manifest.hnswName <;> cases hsum : manifest.hnswChecksum <;>
    cases hprint : manifest.hnswConfigFingerprint <;> cases hcount : manifest.hnswPointCount <;>
    simp [hcase, hsum, hprint, hcount] at hall ⊢

theorem encode_segments_ok {parts : List (List UInt8)} :
    segments.mapM encodeSegment = .ok parts ↔
      (∀ segment ∈ segments, NamesFit segment) ∧ parts = segments.map segmentBytes := by
  refine map_m_iff fun segment _ bytes => ?_
  rw [encode_segment_ok]
  exact and_congr_right fun _ => eq_comm

theorem encode_reference_ok :
    encodeReference manifest.part.isSome manifest = .ok bytes ↔
      PartFits manifest.part ∧ bytes = partBytes manifest.part := by
  unfold Manifest.part encodeReference encodeHnswReference
  split
  · rw [Option.isSome_some, if_pos rfl]
    simp only [*, bind_ok, exists_unit, require_ok, pure_ok, Nat.not_lt, gt_iff_lt]
    constructor
    · rintro ⟨hfits, rfl⟩
      refine ⟨fun part hpart => ?_, ?_⟩
      · obtain rfl := Option.some.inj hpart
        exact hfits
      · simp only [partBytes, append_assoc]
    · rintro ⟨hfits, rfl⟩
      exact ⟨hfits _ rfl, by simp only [partBytes, append_assoc]⟩
  · rw [if_neg (by decide), pure_ok]
    exact ⟨fun h => ⟨fun part hpart => (by cases hpart), h.symm⟩, fun h => h.2.symm⟩

/-- `_encode_multi_manifest` writes the body of what it accepts. -/
theorem encode_multi_ok :
    encodeMultiManifest manifest manifest.formatVersion manifest.part.isSome strict = .ok bytes ↔
      (0 < manifest.dimension ∧ manifest.generation ≠ 0 ∧
        SegmentsValid manifest.lastSequence strict manifest.segments ∧
        (∀ segment ∈ manifest.segments, NamesFit segment) ∧ PartFits manifest.part) ∧
        bytes = withChecksum manifest.body := by
  have hbody : manifestMagic ++ leBytes 2 manifest.formatVersion ++
      leBytes 2 (if manifest.part.isSome then 1 else 0) ++ leBytes 4 manifest.dimension.toNat ++
      u64Bytes manifest.generation ++ u64Bytes manifest.lastSequence ++
      leBytes 4 manifest.segments.length ++ leBytes 4 0 ++
      (manifest.segments.map segmentBytes).flatten ++ partBytes manifest.part = manifest.body := by
    rw [Manifest.body, List.flatMap]
  unfold encodeMultiManifest
  simp only [bind_ok, exists_unit, require_ok, validate_manifest_segments_ok,
    encode_segments_ok, encode_reference_ok, pure_ok]
  constructor
  · rintro ⟨hpositive, hgeneration, hvalid, _, ⟨hnames, rfl⟩, _, ⟨hfits, rfl⟩, rfl⟩
    exact ⟨⟨hpositive, hgeneration, hvalid, hnames, hfits⟩, by rw [hbody]⟩
  · rintro ⟨⟨hpositive, hgeneration, hvalid, hnames, hfits⟩, rfl⟩
    exact ⟨hpositive, hgeneration, hvalid, _, ⟨hnames, rfl⟩, _, ⟨hfits, rfl⟩, by rw [hbody]⟩

/-! ## The round trip -/

/-- The manifests with strict names that the constructors return. -/
inductive Constructed : Manifest → Prop where
  | withSegments {dimension : Int} {generation lastSequence : UInt64}
      {segments : List SegmentDescriptor} {manifest : Manifest}
      (h : Manifest.withSegments dimension generation lastSequence segments true = .ok manifest) :
      Constructed manifest
  | withHnsw {dimension : Int} {generation lastSequence : UInt64}
      {segments : List SegmentDescriptor} {name : String} {checksum : UInt32}
      {fingerprint pointCount : UInt64} {formatVersion : Nat} {manifest : Manifest}
      (h : Manifest.withHnsw dimension generation lastSequence segments name checksum fingerprint
        pointCount formatVersion = .ok manifest) : Constructed manifest

theorem SafeName.weaken {name : String} (h : SafeName true name) (strict : Bool) :
    SafeName strict name := by
  rw [safe_name_iff] at h ⊢
  exact ⟨h.1, fun halias => h.2.1 ⟨rfl, halias.2⟩, h.2.2⟩

theorem SegmentsValid.weaken {lastSequence : UInt64}
    (h : SegmentsValid lastSequence true segments) (strict : Bool) :
    SegmentsValid lastSequence strict segments where
  segments_ne := h.segments_ne
  length_le := h.length_le
  valid segment hsegment :=
    let hvalid := h.valid segment hsegment
    ⟨hvalid.safe.weaken strict, fun hne => (hvalid.sparse_safe hne).weaken strict, hvalid.covered,
      hvalid.own_ne⟩
  follows := h.follows
  covers := h.covers

/-- A constructed manifest is version 2 without a sidecar or a later version with one, and passes
the end of the decoder. -/
theorem constructed_finished (h : Constructed manifest) :
    ((manifest.formatVersion = 2 ∧ manifest.part = none) ∨
        (3 ≤ manifest.formatVersion ∧ manifest.formatVersion ≤ 5 ∧ manifest.part.isSome)) ∧
      finishManifest manifest.dimension manifest.generation manifest.lastSequence
        manifest.formatVersion (3 ≤ manifest.formatVersion) manifest.segments manifest.part =
          .ok manifest := by
  cases h with
  | withSegments h =>
      obtain ⟨hpositive, hgeneration, hvalid, newest, hnewest, rfl⟩ := with_segments_ok.1 h
      refine ⟨.inl ⟨rfl, rfl⟩, bind_ok.2 ⟨_, with_segments_ok.2 ⟨hpositive, hgeneration,
        hvalid.weaken _, newest, hnewest, rfl⟩, rfl⟩⟩
  | withHnsw h =>
      unfold Manifest.withHnsw at h
      simp only [bind_ok, exists_unit, require_ok, pure_ok] at h
      obtain ⟨hversion, hsafe, plain, hplain, hasHnsw, href, rfl⟩ := h
      obtain ⟨hpositive, hgeneration, hvalid, newest, hnewest, rfl⟩ := with_segments_ok.1 hplain
      rw [not_or, Nat.not_lt, Nat.not_lt] at hversion
      refine ⟨.inr ⟨hversion.1, hversion.2, rfl⟩, bind_ok.2 ⟨_, with_segments_ok.2
        ⟨hpositive, hgeneration, hvalid.weaken _, newest, hnewest, rfl⟩, ?_⟩⟩
      exact bind_ok.2 ⟨(), hsafe, bind_ok.2 ⟨_, href, rfl⟩⟩

/-- The encoder of `publish_manifest` is the one of the version. -/
theorem encode_published_multi (hversion : (manifest.formatVersion = 2 ∧ manifest.part = none) ∨
      (3 ≤ manifest.formatVersion ∧ manifest.formatVersion ≤ 5 ∧ manifest.part.isSome))
    (h : encodePublished manifest = .ok bytes) :
    ∃ strict, encodeMultiManifest manifest manifest.formatVersion manifest.part.isSome strict =
      .ok bytes := by
  obtain ⟨hasHnsw, href, h⟩ := bind_ok.1 h
  obtain rfl := reference_part href
  rcases hversion with ⟨htwo, hpart⟩ | ⟨hlow, hhigh, hpart⟩
  · rw [hpart, htwo, if_neg (by decide), if_neg (by decide), if_pos (by decide)] at h
    obtain ⟨hasHnsw, -, h⟩ := bind_ok.1 h
    obtain ⟨_, -, h⟩ := bind_ok.1 h
    rw [hpart, htwo]
    exact ⟨false, h⟩
  · rw [if_pos hpart] at h
    have hencode : encodeManifestHnsw manifest.formatVersion manifest = .ok bytes := by
      split at h
      · next hfive => rwa [hfive]
      · split at h
        · next hfour => rwa [hfour]
        · rwa [show manifest.formatVersion = 3 by omega]
    obtain ⟨hasHnsw, href', hencode⟩ := bind_ok.1 hencode
    obtain rfl := reference_part href'
    exact ⟨true, hencode⟩

/-- Decoding what `publish_manifest` encodes gives the manifest back, and a decoded file of version
2 is what its manifest is encoded to. -/
theorem manifest_round_trip (manifest : Manifest) (bytes : List UInt8) :
    (Constructed manifest → manifest.dimension < 2 ^ 32 → encodePublished manifest = .ok bytes →
      bytes.length ≤ maxManifestBytes ∧
        decodeManifestBytes bytes manifest.dimension = .ok manifest) ∧
    ∀ dimension, decodeManifestBytes bytes dimension = .ok manifest → manifest.formatVersion = 2 →
      encodeManifestV2 manifest = .ok bytes := by
  constructor
  · intro hconstructed hfits hencode
    obtain ⟨hversion, hfinish⟩ := constructed_finished hconstructed
    obtain ⟨strict, hmulti⟩ := encode_published_multi hversion hencode
    obtain ⟨⟨hpositive, hgeneration, hvalid, hnames, hpart⟩, rfl⟩ := encode_multi_ok.1 hmulti
    refine ⟨?_, (decode_manifest_iff (by omega)).2 ⟨⟨by omega, hfits, fun htwo => ?_, hfinish, hnames,
      hpart⟩, rfl, rfl⟩⟩
    · exact length_file_le hvalid.length_le hnames hpart
    · rcases hversion with ⟨-, hnone⟩ | ⟨hlow, -, -⟩
      · exact hnone
      · omega
  · intro dimension hdecode htwo
    obtain ⟨h, -, rfl⟩ := (decode_manifest_iff (by omega)).1 hdecode
    have hfinished := finish_manifest_ok h.finished
    have hnone := h.plain htwo
    have hmulti : encodeMultiManifest manifest manifest.formatVersion manifest.part.isSome false =
        .ok (withChecksum manifest.body) := by
      refine encode_multi_ok.2 ⟨⟨?_, ?_, ?_, h.names_fit, h.part_fits⟩, rfl⟩
      · exact hfinished.dimension_pos
      · exact hfinished.generation_ne
      · have hvalid := hfinished.valid
        rwa [htwo] at hvalid
    rw [hnone, htwo] at hmulti
    have href : validateHnswReference manifest manifest.formatVersion = .ok false := by
      have hplain := h.finished
      rw [hnone] at hplain
      exact finished_reference hplain
    exact bind_ok.2 ⟨false, href, bind_ok.2 ⟨(), rfl, hmulti⟩⟩

/-- A manifest of segments with sparse files. -/
def sparseManifest : Manifest :=
  ⟨1, 1, 2, 0, "segment-2.bin", 2, sparseSegments, none, none, none, none⟩

/-- The same segments and a graph. -/
def graphManifest : Manifest :=
  ⟨1, 1, 2, 0, "segment-2.bin", 3, sparseSegments, some "hnsw-2.bin", some 9, some 5, some 2⟩

theorem manifest_round_trip_sample : ∃ bytes graphBytes,
    encodePublished sparseManifest = .ok bytes ∧
      decodeManifestBytes bytes 1 = .ok sparseManifest ∧
      encodeManifestV2 sparseManifest = .ok bytes ∧
      encodePublished graphManifest = .ok graphBytes ∧
      decodeManifestBytes graphBytes 1 = .ok graphManifest := by
  have hvalid : validateManifestSegments 2 sparseSegments true = .ok () := by decide +kernel
  have hplain := with_segments_ok.2 ⟨show (0 : Int) < 1 by decide, show (1 : UInt64) ≠ 0 by decide,
    validate_manifest_segments_ok.1 hvalid, _, rfl, rfl⟩
  have hgraph : Manifest.withHnsw 1 1 2 sparseSegments "hnsw-2.bin" 9 5 2 3 = .ok graphManifest := by
    refine bind_ok.2 ⟨(), require_ok.2 (by decide), bind_ok.2 ⟨(), ?_, bind_ok.2 ⟨_, hplain, ?_⟩⟩⟩
    · decide +kernel
    · exact bind_ok.2 ⟨true, by decide +kernel, rfl⟩
  have hencode : encodePublished sparseManifest = .ok (withChecksum sparseManifest.body) := by
    decide +kernel
  have hencode' : encodePublished graphManifest = .ok (withChecksum graphManifest.body) := by
    decide +kernel
  have hround := manifest_round_trip sparseManifest (withChecksum sparseManifest.body)
  have hdecode := (hround.1 (.withSegments hplain) (by decide) hencode).2
  have hdecode' := ((manifest_round_trip graphManifest _).1 (.withHnsw hgraph) (by decide)
    hencode').2
  exact ⟨_, _, hencode, hdecode, hround.2 1 hdecode rfl, hencode', hdecode'⟩

/-! ## Publishing what was decoded -/

end Akasha.Storage.ManifestFile

import Akasha.Storage.Segment

/-!
# Sparse segments and snapshots

The decoders of `sparse_store.mojo` for files of sparse vectors. As for dense segments, a header
announces the number of records, which sizes the reserved list and bounds the loop. The main
theorem is `announced_counts_bounded_iff`: the version 1 segment, whose check multiplies, and the
snapshot, which has no check, are the two decoders that may go beyond their input.
-/

namespace Akasha.Storage

open Lib

def sparseMagic : List UInt8 := [0x41, 0x4B, 0x50, 0x52]

/-- `SparseWalRecord`. -/
structure SparseWalRecord where
  sequence : UInt64
  id : Int64
  isDelete : Bool
  elements : List SparseElement

/-- `SparseRecord`. -/
structure SparseRecord where
  id : Int64
  elements : List SparseElement

/-- What stands before the records of a sparse segment. -/
structure SparseHeader where
  kind : Nat
  count : Nat
  minSequence : UInt64
  maxSequence : UInt64

/-- `SparseSegment`. -/
structure SparseSegment where
  header : SparseHeader
  checksum : Nat
  records : List SparseWalRecord

/-- One element of a sparse vector. -/
def readElement : Lib.Reader SparseElement := do
  let term ← readI64
  let weight ← readF32
  pure ⟨term, weight⟩

/-- `_read_elements`; an empty vector is not validated. -/
def readElements : Lib.Reader (List SparseElement) := do
  let count ← readU32
  let left ← remaining
  check (count ≤ left / 12) "sparse element count exceeds record length"
  let elements ← readTimes (fun _ => readElement) 0 count
  ofResult (if 0 < count then validateSparse elements else .ok ())
  pure elements

/-- `read_sparse_segment` between the checksum and the loop over the records. -/
def readSparseHeader (size : Nat) : Lib.Reader SparseHeader := do
  let magic ← readSpan 4
  check (magic = sparseMagic) "invalid sparse storage magic"
  let version ← readU16
  check (version = 2) "unsupported sparse segment version"
  let kind ← readU16
  check (kind = 1 ∨ kind = 2) "unsupported sparse segment kind"
  let count ← readUnsigned 8
  check (count < 2 ^ 63) "sparse segment record count is too large"
  check (count ≤ (size - 36) / 24) "sparse segment record count exceeds file length"
  let first ← readU64
  let last ← readU64
  check (first ≤ last) "sparse segment sequence range is invalid"
  pure ⟨kind, count, first, last⟩

/-- The loop over the records of a sparse segment, after the identifier of the last one. -/
def readSparseRecords (header : SparseHeader) :
    Nat → Option Int64 → Lib.Reader (List SparseWalRecord)
  | 0, _ => pure []
  | count + 1, previous => do
      let id ← readI64
      check (∀ earlier ∈ previous, earlier < id) "sparse segment point IDs must increase"
      let sequence ← readU64
      check (sequence ≠ 0 ∧ header.minSequence ≤ sequence ∧ sequence ≤ header.maxSequence)
        "invalid sparse segment record sequence"
      let operation ← readU8
      check (operation = 1 ∨ operation = 2) "invalid sparse segment operation"
      let flags ← readU8
      let reserved ← readU16
      check (flags = 0 ∧ reserved = 0) "unsupported sparse segment record flags"
      let elements ← readElements
      check (operation = 2 → header.kind ≠ 1) "sparse base segment cannot contain deletes"
      check (operation = 2 → elements = []) "sparse delete cannot contain elements"
      let records ← readSparseRecords header count (some id)
      pure (⟨sequence, id, operation = 2, elements⟩ :: records)

/-- The checks of `read_sparse_segment` before the record loop, with the input that is left. -/
def sparseSegmentHeader (bytes : List UInt8) : Except String (SparseHeader × List UInt8) := do
  require (36 ≤ bytes.length) "truncated sparse segment"
  checkFileChecksum "sparse storage checksum mismatch" bytes
  readSparseHeader bytes.length bytes

/-- `read_sparse_segment`, on the content of the file. -/
def readSparseSegment (bytes : List UInt8) : Except String SparseSegment := do
  let (header, records) ← sparseSegmentHeader bytes
  let (decoded, closing) ← readSparseRecords header header.count none records
  let (checksum, rest) ← readU32 closing
  require (rest = []) "unexpected sparse segment payload"
  pure ⟨header, checksum, decoded⟩

/-- `read_sparse_snapshot` between the checksum and the loop over the records: the number of
records, which nothing compares with the length of the file. -/
def readSnapshotCount (expectedSequence : UInt64) : Lib.Reader Nat := do
  let magic ← readSpan 4
  check (magic = sparseMagic) "invalid sparse storage magic"
  let version ← readU16
  let flags ← readU16
  check (version = 1 ∧ flags = 0) "unsupported sparse snapshot format"
  let count ← readUnsigned 8
  check (count < 2 ^ 63) "sparse snapshot record count is too large"
  let sequence ← readU64
  check (sequence = expectedSequence) "sparse snapshot sequence mismatch"
  pure count

/-- The loop over the records of a snapshot, after the identifier of the last one. -/
def readSnapshotRecords : Nat → Option Int64 → Lib.Reader (List SparseRecord)
  | 0, _ => pure []
  | count + 1, previous => do
      let id ← readI64
      check (∀ earlier ∈ previous, earlier < id) "sparse snapshot point IDs must increase"
      let elements ← readElements
      let records ← readSnapshotRecords count (some id)
      pure (⟨id, elements⟩ :: records)

/-- The checks of `read_sparse_snapshot` before the record loop, with the input that is left. -/
def sparseSnapshotHeader (bytes : List UInt8) (expectedSequence : UInt64) :
    Except String (Nat × List UInt8) := do
  require (28 ≤ bytes.length) "truncated sparse snapshot"
  checkFileChecksum "sparse storage checksum mismatch" bytes
  readSnapshotCount expectedSequence bytes

/-- `read_sparse_snapshot`, on the content of the file. -/
def readSparseSnapshot (bytes : List UInt8) (expectedSequence : UInt64) :
    Except String (List SparseRecord) := do
  let (count, records) ← sparseSnapshotHeader bytes expectedSequence
  let (decoded, closing) ← readSnapshotRecords count none records
  let (_, rest) ← readU32 closing
  require (rest = []) "unexpected sparse snapshot payload"
  pure decoded

/-! ## The announced number of records -/

/-- The number of records that a sparse file announces. -/
def announcedSparseRecords (bytes : List UInt8) : Nat :=
  leValue ((bytes.drop 8).take 8)

theorem sparse_header_count_le {bytes rest : List UInt8} {header : SparseHeader}
    (h : sparseSegmentHeader bytes = .ok (header, rest)) : header.count ≤ bytes.length := by
  simp only [sparseSegmentHeader, readSparseHeader, bind_ok, exists_unit, require_ok,
    reader_bind_ok, check_ok, reader_pure_ok] at h
  obtain ⟨-, -, magic, _, -, _, -, version, _, -, _, -, kind, _, -, _, -, count, _, -, _, -, _,
    ⟨hcount, -⟩, first, _, -, last, _, -, _, -, hheader⟩ := h
  obtain ⟨rfl, -⟩ := Prod.mk.inj hheader
  exact hcount.trans ((Nat.div_le_self _ _).trans (Nat.sub_le _ _))

/-- A snapshot whose header passes every check and announces more records than the file has
bytes. -/
structure CountsBeyond (bytes : List UInt8) (expectedSequence : UInt64) : Prop where
  length : 28 ≤ bytes.length
  checksum : (crc32 ((bytes.take (bytes.length - 4)).drop 4)).toNat =
    leValue (bytes.drop (bytes.length - 4))
  magic : bytes.take 4 = sparseMagic
  version : announcedVersion bytes = 1
  flags : announcedFlags bytes = 0
  fits : announcedSparseRecords bytes < 2 ^ 63
  sequence : UInt64.ofNat (leValue ((bytes.drop 16).take 8)) = expectedSequence
  beyond : bytes.length < announcedSparseRecords bytes

theorem snapshot_beyond_iff {bytes : List UInt8} {expectedSequence : UInt64} :
    (∃ count rest, sparseSnapshotHeader bytes expectedSequence = .ok (count, rest) ∧
      bytes.length < count) ↔ CountsBeyond bytes expectedSequence := by
  simp only [sparseSnapshotHeader, readSnapshotCount, checkFileChecksum, bind_ok,
    exists_unit, require_ok, reader_bind_ok, check_ok, readU16, readU64, reader_map_ok,
    read_unsigned_ok, read_span_ok, reader_pure_ok]
  constructor
  · rintro ⟨_, _, ⟨hlength, hchecksum, _, _, ⟨-, rfl, rfl⟩, _, ⟨hmagic, rfl⟩, version, _,
      ⟨-, hversion, rfl⟩, flags, _, ⟨-, hflags, rfl⟩, _, ⟨haccepted, rfl⟩, _, _, ⟨-, rfl, rfl⟩, _,
      ⟨hfits, rfl⟩, _, _, ⟨_, ⟨-, rfl, rfl⟩, rfl⟩, _, ⟨hsequence, rfl⟩, hresult⟩, hbeyond⟩
    obtain ⟨rfl, -⟩ := Prod.mk.inj hresult
    simp only [List.drop_drop] at hflags hfits hsequence hbeyond
    exact ⟨hlength, hchecksum, hmagic, hversion.trans haccepted.1, hflags.trans haccepted.2, hfits,
      hsequence, hbeyond⟩
  · intro h
    have hlength := h.length
    have hroom : ∀ start count, start + count ≤ 28 → count ≤ (bytes.drop start).length := by
      intro start count hle
      rw [List.length_drop]
      omega
    have hleft : ∀ start count, (bytes.drop start).drop count = bytes.drop (start + count) :=
      fun _ _ => List.drop_drop
    exact ⟨_, _, ⟨h.length, h.checksum, _, bytes.drop 4, ⟨hroom 0 4 (by decide), rfl, rfl⟩, _,
      ⟨h.magic, rfl⟩, 1, bytes.drop 6, ⟨hroom 4 2 (by decide), h.version, hleft 4 2⟩, 0,
      bytes.drop 8, ⟨hroom 6 2 (by decide), h.flags, hleft 6 2⟩, _, ⟨⟨rfl, rfl⟩, rfl⟩, _,
      bytes.drop 16, ⟨hroom 8 8 (by decide), rfl, hleft 8 8⟩, _, ⟨h.fits, rfl⟩, _, bytes.drop 24,
      ⟨_, ⟨hroom 16 8 (by decide), rfl, hleft 16 8⟩, rfl⟩, _, ⟨h.sequence, rfl⟩, rfl⟩, h.beyond⟩

/-- Whenever a record loop is entered, the announced number of records is at most the number of
input bytes. -/
structure CountsBounded (bytes : List UInt8) (expectedDimension : Nat)
    (expectedSequence : UInt64) : Prop where
  segment : ∀ header rest, segmentHeader bytes expectedDimension = .ok (header, rest) →
    header.recordCount ≤ bytes.length
  sparseSegment : ∀ header rest, sparseSegmentHeader bytes = .ok (header, rest) →
    header.count ≤ bytes.length
  sparseSnapshot : ∀ count rest, sparseSnapshotHeader bytes expectedSequence = .ok (count, rest) →
    count ≤ bytes.length

/-- The loops stay within the input exactly when the bytes are neither a version 1 segment whose
length wraps around nor a snapshot that announces more records than it has bytes. -/
theorem announced_counts_bounded_iff (bytes : List UInt8) (expectedDimension : Nat)
    (expectedSequence : UInt64) :
    CountsBounded bytes expectedDimension expectedSequence ↔
      ¬ WrapsAround bytes expectedDimension ∧ ¬ CountsBeyond bytes expectedSequence := by
  rw [← segment_beyond_iff, ← snapshot_beyond_iff]
  constructor
  · intro h
    refine ⟨?_, ?_⟩
    · rintro ⟨header, rest, hheader, hlt⟩
      exact absurd (h.segment header rest hheader) (Nat.not_le.2 hlt)
    · rintro ⟨count, rest, hheader, hlt⟩
      exact absurd (h.sparseSnapshot count rest hheader) (Nat.not_le.2 hlt)
  · rintro ⟨hsegment, hsnapshot⟩
    refine ⟨fun header rest hheader => ?_, fun header rest hheader => ?_,
      fun count rest hheader => ?_⟩
    · exact Nat.not_lt.1 fun hlt => hsegment ⟨header, rest, hheader, hlt⟩
    · exact sparse_header_count_le hheader
    · exact Nat.not_lt.1 fun hlt => hsnapshot ⟨count, rest, hheader, hlt⟩

/-! ## Headers that announce too much -/

/-- A version 1 segment of 32 bytes that announces `2 ^ 62` records of dimension 1: their length
is a multiple of `2 ^ 64`. -/
def wrappedSegment : List UInt8 :=
  withChecksum (segmentMagic ++ leBytes 2 1 ++ leBytes 2 0 ++ leBytes 4 1 ++ leBytes 8 (2 ^ 62) ++
    leBytes 8 1)

/-- A snapshot of 28 bytes that announces as many records as a machine integer can count. -/
def boundlessSnapshot : List UInt8 :=
  withChecksum (sparseMagic ++ leBytes 2 1 ++ leBytes 2 0 ++ leBytes 8 (2 ^ 63 - 1) ++ leBytes 8 1)

/-- Both files are accepted up to the loop, and announce far more records than they have bytes. -/
theorem announced_counts_beyond_input :
    ¬ CountsBounded wrappedSegment 1 1 ∧ ¬ CountsBounded boundlessSnapshot 1 1 := by
  have hsegment : (segmentHeader wrappedSegment 1).toOption.map (·.1.recordCount) =
      some (2 ^ 62) := by decide +kernel
  have hsnapshot : (sparseSnapshotHeader boundlessSnapshot 1).toOption.map (·.1) =
      some (2 ^ 63 - 1) := by decide +kernel
  refine ⟨fun h => ?_, fun h => ?_⟩
  · cases hheader : segmentHeader wrappedSegment 1 with
    | error message => simp [hheader, Except.toOption] at hsegment
    | ok read =>
        have hle := h.segment read.1 read.2 hheader
        simp only [hheader, Except.toOption, Option.map_some, Option.some.injEq] at hsegment
        have hlength : wrappedSegment.length = 32 := by decide +kernel
        omega
  · cases hheader : sparseSnapshotHeader boundlessSnapshot 1 with
    | error message => simp [hheader, Except.toOption] at hsnapshot
    | ok read =>
        have hle := h.sparseSnapshot read.1 read.2 hheader
        simp only [hheader, Except.toOption, Option.map_some, Option.some.injEq] at hsnapshot
        have hlength : boundlessSnapshot.length = 28 := by decide +kernel
        omega

end Akasha.Storage

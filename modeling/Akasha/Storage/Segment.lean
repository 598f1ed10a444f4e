import Akasha.Storage.Checksum
import Akasha.Storage.MemTable

/-!
# Dense segments

The decoder of immutable base and delta segments, in its three versions. What stands before the
records is read by `readSegmentHeader`; the loop over the records runs as often as the header
says, and the list of the entries is reserved for that many. A length is a machine integer, so the
length that a version 1 header announces is taken modulo `2 ^ 64`.
-/

namespace Akasha.Storage

open Lib

def segmentMagic : List UInt8 := [0x41, 0x4B, 0x53, 0x47]

/-- What stands before the records of a segment. -/
structure SegmentHeader where
  version : Nat
  kind : Nat
  dimension : Nat
  recordCount : Nat
  minSequence : UInt64
  lastSequence : UInt64

/-- `SegmentSnapshot`, without the header fields that the entries do not depend on. -/
structure SegmentSnapshot where
  header : SegmentHeader
  checksum : Nat
  entries : List MemTableEntry

/-- The kind of a version 3 segment; the older versions are base segments without flags. -/
def segmentKind (version flags size : Nat) : Except String Nat :=
  if version = 3 then do
    require (flags = 1 ∨ flags = 2) "unsupported segment kind"
    require (40 ≤ size) "truncated segment"
    pure flags
  else do
    require (flags = 0) "unsupported segment flags"
    pure 1

/-- The sequence range; only version 3 has a lower end. -/
def readSequenceRange (version : Nat) : Lib.Reader (UInt64 × UInt64) :=
  if version = 3 then do
    let first ← readU64
    let last ← readU64
    check (first ≤ last) "segment sequence range is invalid"
    pure (first, last)
  else do
    let last ← readU64
    pure (0, last)

/-- The announced number of records against the length of the file. -/
def checkRecordCount (version dimension count size : Nat) : Except String Unit :=
  if version = 3 then
    require (count ≤ (size - 40) / 20) "segment record count exceeds file length"
  else if version = 1 then
    require ((32 + count * (16 + dimension * 4)) % 2 ^ 64 = size) "segment length mismatch"
  else
    require (count ≤ (size - 32) / (20 + dimension * 4)) "segment record count exceeds file length"

/-- `decode_segment_bytes` between the checksum and the loop over the records. -/
def readSegmentHeader (size expectedDimension : Nat) : Lib.Reader SegmentHeader := do
  let magic ← readSpan 4
  check (magic = segmentMagic) "invalid segment magic"
  let version ← readU16
  check (version = 1 ∨ version = 2 ∨ version = 3) "unsupported segment version"
  let flags ← readU16
  let kind ← ofResult (segmentKind version flags size)
  let dimension ← readU32
  check (dimension = expectedDimension) "segment dimension mismatch"
  let count ← readUnsigned 8
  check (count < 2 ^ 63) "segment record count is too large"
  let range ← readSequenceRange version
  ofResult (checkRecordCount version dimension count size)
  check (0 < count → range.2 ≠ 0) "invalid segment sequence"
  pure ⟨version, kind, dimension, count, range.1, range.2⟩

/-- Whether a record is a tombstone; only delta segments of version 3 have them. -/
def readTombstone (header : SegmentHeader) : Lib.Reader Bool :=
  if header.version = 3 then do
    let state ← readU8
    check (state ≤ 1) "unsupported segment record state"
    let flags ← readU8
    let reserved ← readU16
    check (flags = 0 ∧ reserved = 0) "unsupported segment record flags"
    check (state = 1 → header.kind ≠ 1) "base segment cannot contain tombstones"
    pure (state = 1)
  else pure false

/-- The payload of a live record, from version 2 on. -/
def readSegmentPayload (version : Nat) : Lib.Reader (List DocumentField) :=
  if version = 1 then pure []
  else do
    let length ← readU32
    let payload ← readSpan length
    ofResult (decodePayload payload)

/-- The rest of a record behind its state. -/
def readSegmentBody (header : SegmentHeader) (id : Int64) (sequence : UInt64) (tombstone : Bool) :
    Lib.Reader MemTableEntry :=
  if tombstone then pure (.withFields id sequence.toNat true [] [])
  else do
    let values ← readF32s header.dimension
    let fields ← readSegmentPayload header.version
    pure (.withFields id sequence.toNat false values fields)

/-- The loop over the records, after the identifier of the last one. -/
def readSegmentRecords (header : SegmentHeader) :
    Nat → Option Int64 → Lib.Reader (List MemTableEntry)
  | 0, _ => pure []
  | count + 1, previous => do
      let id ← readI64
      let sequence ← readU64
      check (sequence ≠ 0 ∧ header.minSequence ≤ sequence ∧ sequence ≤ header.lastSequence)
        "invalid segment entry sequence"
      check (∀ earlier ∈ previous, earlier < id) "segment point IDs must increase"
      let tombstone ← readTombstone header
      let entry ← readSegmentBody header id sequence tombstone
      let entries ← readSegmentRecords header count (some id)
      pure (entry :: entries)

/-- The checks of `decode_segment_bytes` before the record loop, with the input that is left. -/
def segmentHeader (bytes : List UInt8) (expectedDimension : Nat) :
    Except String (SegmentHeader × List UInt8) := do
  require (0 < expectedDimension) "segment dimension must be positive"
  require (32 ≤ bytes.length) "truncated segment"
  checkFileChecksum "segment checksum mismatch" bytes
  readSegmentHeader bytes.length expectedDimension bytes

/-- `decode_segment_bytes`. -/
def decodeSegmentBytes (bytes : List UInt8) (expectedDimension : Nat) :
    Except String SegmentSnapshot := do
  let (header, records) ← segmentHeader bytes expectedDimension
  let (entries, closing) ← readSegmentRecords header header.recordCount none records
  let (checksum, rest) ← readU32 closing
  require (rest = []) "unexpected segment payload"
  pure ⟨header, checksum, entries⟩

/-! ## The announced number of records -/

/-- The version that a header announces. -/
def announcedVersion (bytes : List UInt8) : Nat :=
  leValue ((bytes.drop 4).take 2)

/-- The field behind the version: the kind of a version 3 segment, and flags elsewhere. -/
def announcedFlags (bytes : List UInt8) : Nat :=
  leValue ((bytes.drop 6).take 2)

/-- The dimension that a segment announces. -/
def announcedDimension (bytes : List UInt8) : Nat :=
  leValue ((bytes.drop 8).take 4)

/-- The number of records that a segment announces. -/
def announcedRecords (bytes : List UInt8) : Nat :=
  leValue ((bytes.drop 12).take 8)

theorem record_count_le {version dimension count size : Nat}
    (h : checkRecordCount version dimension count size = .ok ())
    (hfits : version = 1 → 32 + count * (16 + dimension * 4) < 2 ^ 64) : count ≤ size := by
  unfold checkRecordCount at h
  split at h
  · have hle := (require_ok.1 h).trans (Nat.div_le_self _ _)
    omega
  · split at h
    · next hversion =>
        have hsize := require_ok.1 h
        rw [Nat.mod_eq_of_lt (hfits hversion)] at hsize
        have hle : count * 1 ≤ count * (16 + dimension * 4) := Nat.mul_le_mul_left _ (by omega)
        omega
    · have hle := (require_ok.1 h).trans (Nat.div_le_self _ _)
      omega

/-- A version 1 segment whose length wraps around: its header passes every check, and announces
more records than the file has bytes. -/
structure WrapsAround (bytes : List UInt8) (expectedDimension : Nat) : Prop where
  positive : 0 < expectedDimension
  length : 32 ≤ bytes.length
  checksum : (crc32 ((bytes.take (bytes.length - 4)).drop 4)).toNat =
    leValue (bytes.drop (bytes.length - 4))
  magic : bytes.take 4 = segmentMagic
  version : announcedVersion bytes = 1
  flags : announcedFlags bytes = 0
  dimension : announcedDimension bytes = expectedDimension
  fits : announcedRecords bytes < 2 ^ 63
  announced : (32 + announcedRecords bytes * (16 + announcedDimension bytes * 4)) % 2 ^ 64 =
    bytes.length
  sequence : UInt64.ofNat (leValue ((bytes.drop 20).take 8)) ≠ 0
  beyond : bytes.length < announcedRecords bytes

/-- A segment gets to the loop over more records than it has bytes exactly when its length wraps
around. -/
theorem segment_beyond_iff {bytes : List UInt8} {expectedDimension : Nat} :
    (∃ header rest, segmentHeader bytes expectedDimension = .ok (header, rest) ∧
      bytes.length < header.recordCount) ↔ WrapsAround bytes expectedDimension := by
  simp only [segmentHeader, readSegmentHeader, checkFileChecksum, bind_ok, exists_unit,
    require_ok, reader_bind_ok, check_ok, of_result_ok, readU16, readU32, read_unsigned_ok,
    read_span_ok, reader_pure_ok]
  constructor
  · rintro ⟨header, _, ⟨hpositive, hlength, hchecksum, _, _, ⟨-, rfl, rfl⟩, _, ⟨hmagic, rfl⟩,
      version, _, ⟨-, hversion, rfl⟩, _, ⟨-, rfl⟩, flags, _, ⟨-, hflags, rfl⟩, kind, _,
      ⟨hkind, rfl⟩, dimension, _, ⟨-, rfl, rfl⟩, _, ⟨hdimension, rfl⟩, count, _, ⟨-, rfl, rfl⟩, _,
      ⟨hfits, rfl⟩, range, _, hrange, _, ⟨hcheck, rfl⟩, _, ⟨hsequence, rfl⟩, hheader⟩, hbeyond⟩
    obtain ⟨rfl, -⟩ := Prod.mk.inj hheader
    dsimp only at hbeyond
    -- The other versions divide, so their count is within the file.
    obtain rfl : version = 1 := by
      by_contra hother
      have hle := record_count_le hcheck fun hone => absurd hone hother
      omega
    unfold segmentKind at hkind
    rw [if_neg (by decide)] at hkind
    simp only [bind_ok, require_ok, exists_unit] at hkind
    unfold readSequenceRange at hrange
    rw [if_neg (by decide)] at hrange
    simp only [reader_bind_ok, readU64, reader_map_ok, read_unsigned_ok, reader_pure_ok] at hrange
    obtain ⟨_, _, ⟨_, ⟨-, rfl, rfl⟩, rfl⟩, hrange⟩ := hrange
    obtain ⟨rfl, rfl⟩ := Prod.mk.inj hrange
    unfold checkRecordCount at hcheck
    rw [if_neg (by decide), if_pos rfl, require_ok] at hcheck
    simp only [List.drop_drop] at hflags hdimension hfits hcheck hsequence hbeyond
    exact ⟨hpositive, hlength, hchecksum, hmagic, hversion, hflags.trans hkind.1, hdimension, hfits,
      hcheck, hsequence (by omega), hbeyond⟩
  · intro h
    have hlength := h.length
    have hbeyond := h.beyond
    have hpositive : 0 < announcedRecords bytes := by omega
    have hkind : segmentKind 1 0 bytes.length = .ok 1 := rfl
    have hcheck : checkRecordCount 1 (announcedDimension bytes) (announcedRecords bytes)
        bytes.length = .ok () := by
      unfold checkRecordCount
      rw [if_neg (by decide), if_pos rfl, require_ok]
      exact h.announced
    have hrange : readSequenceRange 1 (bytes.drop 20) =
        .ok ((0, UInt64.ofNat (leValue ((bytes.drop 20).take 8))), bytes.drop 28) := by
      unfold readSequenceRange
      rw [if_neg (by decide)]
      simp only [reader_bind_ok, readU64, reader_map_ok, read_unsigned_ok, reader_pure_ok,
        List.drop_drop, List.length_drop]
      exact ⟨_, _, ⟨_, ⟨by omega, rfl, rfl⟩, rfl⟩, rfl⟩
    have hroom : ∀ start count, start + count ≤ 32 → count ≤ (bytes.drop start).length := by
      intro start count hle
      rw [List.length_drop]
      omega
    have hleft : ∀ start count, (bytes.drop start).drop count = bytes.drop (start + count) :=
      fun _ _ => List.drop_drop
    exact ⟨_, _, ⟨h.positive, h.length, h.checksum, _, bytes.drop 4, ⟨hroom 0 4 (by decide), rfl,
      rfl⟩, _, ⟨h.magic, rfl⟩, 1, bytes.drop 6, ⟨hroom 4 2 (by decide), h.version, hleft 4 2⟩, _,
      ⟨.inl rfl, rfl⟩, 0, bytes.drop 8, ⟨hroom 6 2 (by decide), h.flags, hleft 6 2⟩, 1, _,
      ⟨hkind, rfl⟩, _, bytes.drop 12, ⟨hroom 8 4 (by decide), rfl, hleft 8 4⟩, _,
      ⟨h.dimension, rfl⟩, _, bytes.drop 20, ⟨hroom 12 8 (by decide), rfl, hleft 12 8⟩, _,
      ⟨h.fits, rfl⟩, _, _, hrange, _, ⟨hcheck, rfl⟩, _, ⟨fun _ => h.sequence, rfl⟩, rfl⟩, hbeyond⟩

end Akasha.Storage

import Akasha.Storage.Segment

/-!
# Encoding dense segments

`encode_segment_v3` beside `decode_segment_bytes`. A segment keeps of an entry its identifier, its
sequence, whether it is a tombstone, its default vector and its payload: `MemTableEntry.stored`.
The main theorem is `decode_encode_segment`: what an accepted list of entries is encoded to
decodes to entries that store the same.
-/

namespace Akasha.Storage

open Lib List

/-! ## Encoding -/

/-- The checks of one entry in `_validate_entries` that do not depend on the other entries. -/
def validateEntryContent (dimension kind : Nat) (entry : MemTableEntry) : Except String Unit :=
  if entry.tombstone then do
    require (kind ≠ 1) "base segment cannot contain tombstones"
    require (entry.values = [] ∧ entry.payload = []) "segment tombstone must not contain a value"
  else
    require (entry.values.length = dimension) "segment vector dimension mismatch"

/-- The loop of `_validate_entries`, after the identifier of the last entry. -/
def validateEntries (dimension kind : Nat) (first last : UInt64) :
    Option Int64 → List MemTableEntry → Except String Unit
  | _, [] => pure ()
  | previous, entry :: entries => do
      require (entry.sequence ≠ 0 ∧ first.toNat ≤ entry.sequence ∧ entry.sequence ≤ last.toNat)
        "invalid segment entry sequence"
      require (∀ earlier ∈ previous, earlier < entry.id) "segment point IDs must increase"
      validateEntryContent dimension kind entry
      validateEntries dimension kind first last (some entry.id) entries

/-- `_write_live_body`. -/
def liveBody (entry : MemTableEntry) : Except String (List UInt8) := do
  let payload ← encodePayload entry.payload
  pure (entry.values.flatMap f32Bytes ++ (leBytes 4 payload.length ++ payload))

/-- A tombstone has no body. -/
def entryBody (entry : MemTableEntry) : Except String (List UInt8) :=
  if entry.tombstone then pure [] else liveBody entry

/-- One record of a version 3 segment. -/
def encodeSegmentEntry (entry : MemTableEntry) : Except String (List UInt8) := do
  let body ← entryBody entry
  pure (i64Bytes entry.id ++ (leBytes 8 entry.sequence ++
    (leBytes 1 (if entry.tombstone then 1 else 0) ++ (leBytes 1 0 ++ (leBytes 2 0 ++ body)))))

/-- `_write_prefix` of version 3 and the sequence range. -/
def segmentPrefix (kind dimension count : Nat) (first last : UInt64) : List UInt8 :=
  segmentMagic ++ (leBytes 2 3 ++ (leBytes 2 kind ++ (leBytes 4 dimension ++ (leBytes 8 count ++
    (u64Bytes first ++ u64Bytes last)))))

/-- `encode_segment_v3`. -/
def encodeSegmentV3 (dimension kind : Nat) (first last : UInt64) (entries : List MemTableEntry) :
    Except String (List UInt8) := do
  require (0 < dimension) "segment dimension must be positive"
  require (kind = 1 ∨ kind = 2) "unsupported segment kind"
  require (first ≤ last) "segment sequence range is invalid"
  require (entries ≠ [] → last ≠ 0) "non-empty segment requires a sequence"
  validateEntries dimension kind first last none entries
  let records ← entries.mapM encodeSegmentEntry
  pure (withChecksum (segmentPrefix kind dimension entries.length first last ++ records.flatten))

/-! ## What a segment keeps -/

/-- The content of an entry that a segment stores. -/
structure StoredEntry where
  id : Int64
  sequence : Nat
  tombstone : Bool
  values : List F32
  payload : List DocumentField
deriving DecidableEq

namespace MemTableEntry

def stored (entry : MemTableEntry) : StoredEntry :=
  ⟨entry.id, entry.sequence, entry.tombstone, entry.values, entry.payload⟩

/-- An entry with a machine word as sequence whose payload the constructors made. -/
structure Constructed (entry : MemTableEntry) : Prop where
  sequence_lt : entry.sequence < 2 ^ 64
  payload_valid : ∀ field ∈ entry.payload, field.value.Valid

/-- The entry that the decoder makes of what is stored. -/
def restored (entry : MemTableEntry) : MemTableEntry :=
  withFields entry.id entry.sequence entry.tombstone entry.values entry.payload

@[simp] theorem values_with_fields (id : Int64) (sequence : Nat) (tombstone : Bool)
    (values : List F32) (fields : List DocumentField) :
    (withFields id sequence tombstone values fields).values = values := by
  cases values <;> simp [withFields, MemTableEntry.values, field?, VectorValue.legacyValues]

@[simp] theorem stored_restored (entry : MemTableEntry) : entry.restored.stored = entry.stored := by
  simp [stored, restored]
  simp [withFields]

end MemTableEntry

/-! ## Records -/

section

variable {dimension kind : Nat} {first last : UInt64}

variable {header : SegmentHeader}

theorem reads_segment_state (hversion : header.version = 3) {tombstone : Bool}
    (hbase : tombstone = true → header.kind ≠ 1) :
    Reads (readTombstone header)
      (leBytes 1 (if tombstone then 1 else 0) ++ (leBytes 1 0 ++ leBytes 2 0)) tombstone := by
  rw [readTombstone, if_pos hversion]
  refine reads_bind (reads_unsigned (by split <;> decide)) (reads_check (by split <;> decide) ?_)
  refine reads_bind (reads_unsigned (by decide)) ?_
  refine reads_last (reads_u16 (by decide)) (reads_check ⟨rfl, rfl⟩ ?_)
  refine reads_check (fun hstate => hbase ?_) ?_
  · cases tombstone with
    | false => cases hstate
    | true => rfl
  · cases tombstone <;> exact reads_pure _

/-- The body of an entry whose content was checked. -/
theorem reads_segment_body {entry : MemTableEntry} (hconstructed : entry.Constructed)
    (hvalid : validateEntryContent dimension kind entry = .ok ()) {body : List UInt8}
    (hbody : entryBody entry = .ok body) (hversion : header.version = 3)
    (hdimension : header.dimension = dimension) :
    Reads (readSegmentBody header entry.id (UInt64.ofNat entry.sequence) entry.tombstone) body
      entry.restored := by
  have hsequence : (UInt64.ofNat entry.sequence).toNat = entry.sequence :=
    UInt64.toNat_ofNat_of_lt' hconstructed.sequence_lt
  rw [readSegmentBody, MemTableEntry.restored, hsequence]
  unfold validateEntryContent at hvalid
  unfold entryBody at hbody
  cases htombstone : entry.tombstone with
  | true =>
      simp only [htombstone, if_true, pure_ok, bind_ok, exists_unit,
        require_ok] at hbody hvalid ⊢
      rw [← hbody, hvalid.2.1, hvalid.2.2]
      exact reads_pure _
  | false =>
      simp only [htombstone, Bool.false_eq_true, if_false, require_ok, liveBody, bind_ok,
        pure_ok] at hbody hvalid ⊢
      obtain ⟨payload, hpayload, rfl⟩ := hbody
      have hlength : payload.length < 2 ^ 32 :=
        Nat.lt_of_le_of_lt (encode_payload_length hpayload) (by decide)
      rw [hdimension, ← hvalid, readSegmentPayload, hversion, if_neg (by decide)]
      refine reads_bind (reads_f32s entry.values) (reads_last ?_ (reads_pure _))
      refine reads_bind (reads_u32 hlength) (reads_last (reads_span rfl) ?_)
      exact reads_of_result (decode_encode_payload hconstructed.payload_valid hpayload)

variable {entries : List MemTableEntry}

/-- The loop over the records reads what was encoded. -/
theorem reads_segment_records (hversion : header.version = 3)
    (hdimension : header.dimension = dimension) (hkind : header.kind = kind)
    (hfirst : header.minSequence = first) (hlast : header.lastSequence = last)
    {previous : Option Int64} {records : List (List UInt8)}
    (hconstructed : ∀ entry ∈ entries, entry.Constructed)
    (hvalid : validateEntries dimension kind first last previous entries = .ok ())
    (hrecords : entries.mapM encodeSegmentEntry = .ok records) :
    Reads (readSegmentRecords header entries.length previous) records.flatten
      (entries.map MemTableEntry.restored) := by
  rw [map_m_ok] at hrecords
  induction hrecords generalizing previous with
  | nil => exact reads_pure []
  | @cons entry record entries records hrecord hrest ih =>
      obtain ⟨hentry, hentries⟩ := forall_mem_cons.1 hconstructed
      simp only [validateEntries, bind_ok, exists_unit, require_ok] at hvalid
      obtain ⟨⟨hpositive, hge, hle⟩, hid, hcontent, hlater⟩ := hvalid
      simp only [encodeSegmentEntry, bind_ok, pure_ok] at hrecord
      obtain ⟨body, hbody, rfl⟩ := hrecord
      have hsequence : (UInt64.ofNat entry.sequence).toNat = entry.sequence :=
        UInt64.toNat_ofNat_of_lt' hentry.sequence_lt
      have hrange : UInt64.ofNat entry.sequence ≠ 0 ∧
          header.minSequence ≤ UInt64.ofNat entry.sequence ∧
            UInt64.ofNat entry.sequence ≤ header.lastSequence := by
        rw [hfirst, hlast, UInt64.le_iff_toNat_le, UInt64.le_iff_toNat_le, hsequence]
        refine ⟨fun hzero => hpositive ?_, hge, hle⟩
        rw [← hsequence, hzero]
        rfl
      have hstate : entry.tombstone = true → header.kind ≠ 1 := by
        intro htombstone
        unfold validateEntryContent at hcontent
        simp only [htombstone, if_true, bind_ok, exists_unit, require_ok] at hcontent
        rw [hkind]
        exact hcontent.1
      have hparts : leBytes 8 entry.sequence = u64Bytes (UInt64.ofNat entry.sequence) := by
        rw [u64Bytes, hsequence]
      rw [List.flatten_cons, length_cons, readSegmentRecords, append_assoc,
        append_assoc, append_assoc, append_assoc, append_assoc, hparts]
      refine reads_bind (reads_i64 entry.id) (reads_bind (reads_u64 _) ?_)
      refine reads_check hrange (reads_check hid ?_)
      rw [← append_assoc (leBytes 1 0), ← append_assoc (leBytes 1 _)]
      refine reads_bind (reads_segment_state hversion hstate) ?_
      refine reads_bind (reads_segment_body hentry hcontent hbody hversion hdimension) ?_
      exact reads_last (ih hentries hlater) (reads_pure _)

/-! ## The whole segment -/

theorem length_segment_record {entry : MemTableEntry} {record : List UInt8}
    (h : encodeSegmentEntry entry = .ok record) : 20 ≤ record.length := by
  simp only [encodeSegmentEntry, bind_ok, pure_ok] at h
  obtain ⟨body, -, rfl⟩ := h
  simp only [i64Bytes, length_append, length_le_bytes]
  omega

theorem length_segment_records {records : List (List UInt8)}
    (h : entries.mapM encodeSegmentEntry = .ok records) :
    entries.length * 20 ≤ records.flatten.length := by
  rw [map_m_ok] at h
  induction h with
  | nil => simp
  | cons hrecord _ ih =>
      have hlength := length_segment_record hrecord
      rw [List.flatten_cons, length_append, length_cons]
      omega

theorem length_segment_prefix (count : Nat) :
    (segmentPrefix kind dimension count first last).length = 36 := by
  simp [segmentPrefix, segmentMagic, u64Bytes]

/-- The header of a version 3 segment, when the records fill the file. -/
theorem reads_segment_header {count size : Nat} (hdimension : dimension < 2 ^ 32)
    (hkind : kind = 1 ∨ kind = 2) (hrange : first ≤ last) (hlast : 0 < count → last ≠ 0)
    (hcount : count < 2 ^ 63) (hsize : 40 + count * 20 ≤ size) :
    Reads (readSegmentHeader size dimension) (segmentPrefix kind dimension count first last)
      ⟨3, kind, dimension, count, first, last⟩ := by
  have hkind' : segmentKind 3 kind size = .ok kind := by
    rw [segmentKind, if_pos rfl]
    exact bind_ok.2 ⟨(), require_ok.2 hkind,
      bind_ok.2 ⟨(), require_ok.2 (by omega), rfl⟩⟩
  have hrecords : checkRecordCount 3 dimension count size = .ok () := by
    rw [checkRecordCount, if_pos rfl]
    exact require_ok.2 (by omega)
  unfold readSegmentHeader segmentPrefix
  refine reads_bind (reads_span rfl) (reads_check rfl ?_)
  refine reads_bind (reads_u16 (by decide)) (reads_check (by decide) ?_)
  refine reads_bind (reads_u16 (by omega)) (reads_silent (reads_of_result hkind') ?_)
  refine reads_bind (reads_u32 hdimension) (reads_check rfl ?_)
  refine reads_bind (reads_unsigned (by omega)) (reads_check hcount ?_)
  refine reads_last (a := (first, last)) ?_ (reads_silent (reads_of_result hrecords)
    (reads_check hlast (reads_pure _)))
  rw [readSequenceRange, if_pos rfl]
  exact reads_bind (reads_u64 first) (reads_last (reads_u64 last) (reads_check hrange (reads_pure _)))

theorem validate_entries_ascending {previous : Option Int64}
    (h : validateEntries dimension kind first last previous entries = .ok ()) :
    (∀ earlier ∈ previous, ∀ entry ∈ entries, earlier < entry.id) ∧
      (entries.map (·.id)).Pairwise (· < ·) := by
  induction entries generalizing previous with
  | nil => simp
  | cons entry entries ih =>
      simp only [validateEntries, bind_ok, exists_unit, require_ok] at h
      obtain ⟨-, hid, -, hrest⟩ := h
      obtain ⟨hlater, hpairwise⟩ := ih hrest
      refine ⟨fun earlier hearlier => ?_, ?_⟩
      · refine forall_mem_cons.2 ⟨hid earlier hearlier, fun other hother => ?_⟩
        exact Int64.lt_trans (hid earlier hearlier) (hlater entry.id rfl other hother)
      · rw [List.map_cons, pairwise_cons]
        refine ⟨fun other hother => ?_, hpairwise⟩
        obtain ⟨found, hfound, rfl⟩ := mem_map.1 hother
        exact hlater entry.id rfl found hfound

theorem decode_segment_parts {front rest : List UInt8}
    (hheader : Reads (readSegmentHeader (withChecksum (front ++ rest)).length dimension) front
      header) (hpositive : 0 < dimension) (hsize : 32 ≤ (withChecksum (front ++ rest)).length)
    (hrecords : Reads (readSegmentRecords header header.recordCount none) rest entries) :
    decodeSegmentBytes (withChecksum (front ++ rest)) dimension =
      .ok ⟨header, (crc32 ((front ++ rest).drop 4)).toNat, entries⟩ := by
  have hcrc : (crc32 ((front ++ rest).drop 4)).toNat < 256 ^ 4 := UInt32.toNat_lt _
  have hclosing := reads_u32 hcrc []
  rw [List.append_nil] at hclosing
  refine bind_ok.2 ⟨(header, rest ++ leBytes 4 _), ?_,
    bind_ok.2 ⟨_, hrecords _, bind_ok.2 ⟨_, hclosing, rfl⟩⟩⟩
  refine bind_ok.2 ⟨(), require_ok.2 hpositive, bind_ok.2 ⟨(), require_ok.2 hsize,
    bind_ok.2 ⟨(), (check_file_checksum_ok hcrc).2 rfl, ?_⟩⟩⟩
  have hread := hheader (rest ++ leBytes 4 (crc32 ((front ++ rest).drop 4)).toNat)
  rwa [← append_assoc] at hread

/-- A segment that is encoded decodes to the same header values and to entries that store the
same, in increasing order. -/
theorem decode_encode_segment {bytes : List UInt8} (hdimension : dimension < 2 ^ 32)
    (hconstructed : ∀ entry ∈ entries, entry.Constructed)
    (h : encodeSegmentV3 dimension kind first last entries = .ok bytes)
    (hsize : bytes.length < 2 ^ 32) :
    ∃ snapshot, decodeSegmentBytes bytes dimension = .ok snapshot ∧ snapshot.header.kind = kind ∧
      snapshot.header.minSequence = first ∧ snapshot.header.lastSequence = last ∧
        snapshot.entries.map (·.stored) = entries.map (·.stored) ∧
          (snapshot.entries.map (·.id)).Pairwise (· < ·) := by
  simp only [encodeSegmentV3, bind_ok, exists_unit, require_ok, pure_ok] at h
  obtain ⟨hpositive, hkind, hrange, hnonempty, hvalid, records, hrecords, rfl⟩ := h
  have hlength := length_segment_records hrecords
  have hlast : 0 < entries.length → last ≠ 0 := fun hcount =>
    hnonempty (List.ne_nil_of_length_pos hcount)
  have hbytes : (withChecksum (segmentPrefix kind dimension entries.length first last ++
      records.flatten)).length = 40 + records.flatten.length := by
    rw [withChecksum, length_append, length_append, length_segment_prefix,
      length_le_bytes]
    omega
  have hcounted : 40 + entries.length * 20 ≤ (withChecksum (segmentPrefix kind dimension
      entries.length first last ++ records.flatten)).length := by omega
  have hdecode := decode_segment_parts
    (reads_segment_header hdimension hkind hrange hlast (by omega) hcounted) hpositive
    (by omega) (reads_segment_records rfl rfl rfl rfl rfl hconstructed hvalid hrecords)
  refine ⟨_, hdecode, rfl, rfl, rfl, ?_, ?_⟩
  · rw [List.map_map]
    exact map_congr_left fun entry _ => MemTableEntry.stored_restored entry
  · rw [List.map_map]
    exact (validate_entries_ascending hvalid).2

end

end Akasha.Storage

import Akasha.Storage.SegmentCodec
import Akasha.Storage.SparseCodec

/-!
# The log of sparse mutations

`encode_sparse_wal_record`, `decode_sparse_wal_bytes` and `preflight_sparse_wal`. A record has no
end mark: its length is in its header, and what the log may be cut to is computed again from the
records that were read. `decode_sparse_log_prefix` says what is read of a log that is cut anywhere,
and `segment_and_log_round_trip` puts the three storage formats of vectors together.
-/

namespace Akasha.Storage

open Lib List

/-! ## Records -/

def sparseWalMagic : List UInt8 := [0x41, 0x4B, 0x57, 0x52]

def sparseWalFixedSize : Nat := 36

/-- The length of the record in the log. -/
def SparseWalRecord.walSize (record : SparseWalRecord) : Nat :=
  sparseWalFixedSize + record.elements.length * 12

/-- What `encode_sparse_wal_record` writes before the checksum. -/
def sparseWalBody (record : SparseWalRecord) : List UInt8 :=
  sparseWalMagic ++ (leBytes 2 1 ++ (leBytes 1 (if record.isDelete then 2 else 1) ++ (leBytes 1 0 ++
    (leBytes 4 record.walSize ++ (u64Bytes record.sequence ++ (i64Bytes record.id ++
      elementsBytes record.elements))))))

/-- `encode_sparse_wal_record`. -/
def encodeSparseWalRecord (record : SparseWalRecord) : Except String (List UInt8) := do
  require (record.sequence ≠ 0) "sparse WAL sequence must be positive"
  checkElements "sparse WAL delete cannot contain elements" record
  pure (withChecksum (sparseWalBody record))

/-- `_decode_sparse_wal_record` behind the checksum. -/
def readSparseWalRecord (size : Nat) : Lib.Reader SparseWalRecord := do
  let magic ← readSpan 4
  check (magic = sparseWalMagic) "invalid sparse storage magic"
  let version ← readU16
  check (version = 1) "unsupported sparse WAL version"
  let operation ← readU8
  check (operation = 1 ∨ operation = 2) "invalid sparse WAL operation"
  let flags ← readU8
  check (flags = 0) "invalid sparse WAL header"
  let length ← readU32
  check (length = size) "invalid sparse WAL header"
  let sequence ← readU64
  check (sequence ≠ 0) "sparse WAL sequence must be positive"
  let id ← readI64
  let elements ← readElements
  check (operation = 2 → elements = []) "sparse WAL delete cannot contain elements"
  let _ ← readU32
  pure ⟨sequence, id, operation = 2, elements⟩

/-- `_decode_sparse_wal_record`. -/
def decodeSparseWalRecord (bytes : List UInt8) : Except String SparseWalRecord := do
  require (4 ≤ bytes.length) "truncated sparse storage value"
  checkFileChecksum "sparse storage checksum mismatch" bytes
  let (record, rest) ← readSparseWalRecord bytes.length bytes
  require (rest = []) "unexpected sparse WAL payload"
  pure record

/-! ## The log -/

/-- The length of the record that stands at the front. -/
def sparseEnvelopeSize (bytes : List UInt8) : Except String Nat := do
  require (bytes.take 4 = sparseWalMagic) "invalid sparse WAL magic"
  let size := leValue ((bytes.drop 8).take 4)
  require (sparseWalFixedSize ≤ size) "invalid sparse WAL record size"
  pure size

theorem sparse_envelope_size_ok {bytes : List UInt8} {size : Nat}
    (h : sparseEnvelopeSize bytes = .ok size) : sparseWalFixedSize ≤ size := by
  simp only [sparseEnvelopeSize, bind_ok, exists_unit, require_ok, pure_ok] at h
  obtain ⟨-, hsize, rfl⟩ := h
  exact hsize

/-- The loop of `decode_sparse_wal_bytes`, after the sequence of the last record. -/
def decodeSparseWalFrom (previous : UInt64) (bytes : List UInt8) :
    Except String (List SparseWalRecord) :=
  if bytes.length < 32 then pure []
  else
    match _hsize : sparseEnvelopeSize bytes with
    | .error message => throw message
    | .ok size =>
        if bytes.length < size then pure []
        else do
          let record ← decodeSparseWalRecord (bytes.take size)
          require (previous < record.sequence) "sparse WAL sequence must increase"
          let rest ← decodeSparseWalFrom record.sequence (bytes.drop size)
          pure (record :: rest)
termination_by bytes.length
decreasing_by
  have hpos := sparse_envelope_size_ok _hsize
  simp only [sparseWalFixedSize, length_drop] at *
  omega

/-- `decode_sparse_wal_bytes`. -/
def decodeSparseWalBytes (bytes : List UInt8) : Except String (List SparseWalRecord) :=
  decodeSparseWalFrom 0 bytes

/-- `SparseWalReplayState`. -/
structure SparseWalReplayState where
  records : List SparseWalRecord
  validPrefix : List UInt8
  validLength : Nat
  sourceLength : Nat

/-- `preflight_sparse_wal`, on the content of the file if there is one. -/
def preflightSparseWal (content : Option (List UInt8)) : Except String SparseWalReplayState :=
  match content with
  | none => pure ⟨[], [], 0, 0⟩
  | some bytes => do
      let records ← decodeSparseWalBytes bytes
      let validLength := (records.map (·.walSize)).sum
      let validPrefix := if validLength < bytes.length then bytes.take validLength else []
      pure ⟨records, validPrefix, validLength, bytes.length⟩

/-! ## One record -/

/-- What a record is encoded to: the log finds its length, and the record in it. -/
structure SparseEnveloped (bytes : List UInt8) (record : SparseWalRecord) : Prop where
  length : bytes.length = record.walSize
  size : sparseEnvelopeSize bytes = .ok bytes.length
  decode : decodeSparseWalRecord bytes = .ok record

theorem length_sparse_wal_body (record : SparseWalRecord) :
    (sparseWalBody record).length + 4 = record.walSize := by
  simp only [sparseWalBody, sparseWalMagic, u64Bytes, i64Bytes, SparseWalRecord.walSize,
    sparseWalFixedSize, length_append, length_le_bytes, length_elements_bytes,
    length_cons, length_nil]
  omega

variable {record : SparseWalRecord}

theorem reads_sparse_wal_record {crc : Nat} (hpositive : record.sequence ≠ 0)
    (hempty : record.isDelete = true → record.elements = [])
    (hvalid : record.elements ≠ [] → validateSparse record.elements = .ok ())
    (hsize : record.walSize < 2 ^ 32) (hcrc : crc < 2 ^ 32) :
    Reads (readSparseWalRecord record.walSize) (sparseWalBody record ++ leBytes 4 crc) record := by
  obtain ⟨hbyte, hoperation, hdelete⟩ := operation_byte record.isDelete
  have hfew : record.elements.length < 2 ^ 32 := by
    rw [SparseWalRecord.walSize] at hsize
    omega
  unfold readSparseWalRecord sparseWalBody
  simp only [append_assoc]
  refine reads_bind (reads_span rfl) (reads_check rfl ?_)
  refine reads_bind (reads_u16 (by decide)) (reads_check rfl ?_)
  refine reads_bind (reads_unsigned hbyte) (reads_check hoperation ?_)
  refine reads_bind (reads_unsigned (by decide)) (reads_check rfl ?_)
  refine reads_bind (reads_u32 hsize) (reads_check rfl ?_)
  refine reads_bind (reads_u64 record.sequence) (reads_check hpositive ?_)
  refine reads_bind (reads_i64 record.id) (reads_bind (reads_elements hfew hvalid) ?_)
  refine reads_check (fun h => hempty (by rw [← hdelete, h]; rfl)) ?_
  rw [hdelete]
  exact reads_last (reads_u32 hcrc) (reads_pure _)

theorem sparse_enveloped {bytes : List UInt8} (h : encodeSparseWalRecord record = .ok bytes)
    (hsize : bytes.length < 2 ^ 32) :
    SparseEnveloped bytes record := by
  simp only [encodeSparseWalRecord, bind_ok, exists_unit, require_ok, pure_ok] at h
  obtain ⟨hpositive, helements, rfl⟩ := h
  obtain ⟨hempty, hvalid⟩ := check_elements_valid helements
  have hbody := length_sparse_wal_body record
  have hlength : (withChecksum (sparseWalBody record)).length = record.walSize := by
    rw [withChecksum, length_append, length_le_bytes, hbody]
  have hmin : 36 ≤ record.walSize := Nat.le_add_right _ _
  have hcrc : (crc32 ((sparseWalBody record).drop 4)).toNat < 256 ^ 4 := UInt32.toNat_lt _
  rw [hlength] at hsize
  refine ⟨hlength, ?_, ?_⟩
  · rw [hlength]
    refine bind_ok.2 ⟨(), require_ok.2 rfl, ?_⟩
    have hfield : leValue (((withChecksum (sparseWalBody record)).drop 8).take 4) =
        record.walSize := by
      show leValue (leBytes 4 record.walSize) = _
      rw [le_value_le_bytes]
      exact Nat.mod_eq_of_lt hsize
    rw [hfield]
    exact bind_ok.2 ⟨(), require_ok.2 hmin, rfl⟩
  · have hread := reads_sparse_wal_record hpositive hempty hvalid hsize hcrc []
    rw [append_nil] at hread
    refine bind_ok.2 ⟨(), require_ok.2 (by omega), bind_ok.2 ⟨(),
      (check_file_checksum_ok hcrc).2 rfl, bind_ok.2 ⟨(record, []), ?_, rfl⟩⟩⟩
    rw [hlength]
    exact hread

/-! ## A log that is cut anywhere -/

theorem sparse_envelope_size_take {bytes : List UInt8} {n : Nat} (hn : 12 ≤ n) :
    sparseEnvelopeSize (bytes.take n) = sparseEnvelopeSize bytes := by
  have hmagic : (bytes.take n).take 4 = bytes.take 4 := by
    rw [take_take, min_eq_left (by omega)]
  have hsize : ((bytes.take n).drop 8).take 4 = (bytes.drop 8).take 4 := by
    rw [drop_take, take_take, min_eq_left (by omega)]
  simp only [sparseEnvelopeSize, hmagic, hsize]

section

variable {previous : UInt64} {bytes : List UInt8}

theorem decode_sparse_short (h : bytes.length < 32) : decodeSparseWalFrom previous bytes = .ok [] := by
  rw [decodeSparseWalFrom, if_pos h]
  rfl

theorem decode_sparse_torn {size : Nat} (hheader : 32 ≤ bytes.length)
    (hsize : sparseEnvelopeSize bytes = .ok size) (htorn : bytes.length < size) :
    decodeSparseWalFrom previous bytes = .ok [] := by
  rw [decodeSparseWalFrom, if_neg (by omega)]
  split
  · next message heq =>
      rw [hsize] at heq
      cases heq
  · next found heq =>
      rw [hsize] at heq
      cases heq
      rw [if_pos htorn]
      rfl

/-- A whole record is decoded, and then the rest. -/
theorem decode_sparse_step {size : Nat} {rest : List SparseWalRecord}
    (hsize : sparseEnvelopeSize bytes = .ok size) (hlength : size ≤ bytes.length)
    (hrecord : decodeSparseWalRecord (bytes.take size) = .ok record)
    (hsequence : previous < record.sequence)
    (hrest : decodeSparseWalFrom record.sequence (bytes.drop size) = .ok rest) :
    decodeSparseWalFrom previous bytes = .ok (record :: rest) := by
  have hmin := sparse_envelope_size_ok hsize
  simp only [sparseWalFixedSize] at hmin
  rw [decodeSparseWalFrom, if_neg (by omega)]
  split
  · next message heq =>
      rw [hsize] at heq
      cases heq
  · next found heq =>
      rw [hsize] at heq
      cases heq
      rw [if_neg (by omega)]
      exact bind_ok.2 ⟨record, hrecord, bind_ok.2 ⟨(), require_ok.2 hsequence,
        bind_ok.2 ⟨rest, hrest, rfl⟩⟩⟩

end

/-- `count` is how many of the encodings lie wholly in the first `n` bytes of the log. -/
structure WholePrefix (encoded : List (List UInt8)) (n count : Nat) : Prop where
  count_le : count ≤ encoded.length
  fits : (encoded.take count).flatten.length ≤ n
  longest : ∀ more, count < more → more ≤ encoded.length → n < (encoded.take more).flatten.length

variable {encoded : List (List UInt8)}

theorem whole_prefix_cons {bytes : List UInt8} {n count : Nat} (hfits : bytes.length ≤ n)
    (h : WholePrefix encoded (n - bytes.length) count) :
    WholePrefix (bytes :: encoded) n (count + 1) where
  count_le := Nat.succ_le_succ h.count_le
  fits := by
    have hrest := h.fits
    rw [take_succ_cons, flatten_cons, length_append]
    omega
  longest := by
    intro more hmore hle
    obtain ⟨more, rfl⟩ := Nat.exists_eq_succ_of_ne_zero (Nat.ne_zero_of_lt hmore)
    have hrest := h.longest more (by omega) (Nat.le_of_succ_le_succ hle)
    rw [take_succ_cons, flatten_cons, length_append]
    omega

theorem whole_prefix_none {bytes : List UInt8} {n : Nat} (h : n < bytes.length) :
    WholePrefix (bytes :: encoded) n 0 where
  count_le := Nat.zero_le _
  fits := Nat.zero_le _
  longest := by
    intro more hmore _
    obtain ⟨more, rfl⟩ := Nat.exists_eq_succ_of_ne_zero (Nat.ne_zero_of_lt hmore)
    rw [take_succ_cons, flatten_cons, length_append]
    omega

variable {records : List SparseWalRecord}

/-- Decoding the first bytes of a log, after a sequence. -/
theorem decode_sparse_from_prefix
    (hencoded : List.Forall₂ (fun record bytes => encodeSparseWalRecord record = .ok bytes)
      records encoded) (hsize : ∀ bytes ∈ encoded, bytes.length < 2 ^ 32) {previous : UInt64}
    (hprevious : ∀ record ∈ records, previous < record.sequence)
    (hascending : records.Pairwise (·.sequence < ·.sequence)) (n : Nat) :
    ∃ count, WholePrefix encoded n count ∧
      decodeSparseWalFrom previous (encoded.flatten.take n) = .ok (records.take count) ∧
        ((records.take count).map (·.walSize)).sum = (encoded.take count).flatten.length := by
  induction hencoded generalizing previous n with
  | nil =>
      refine ⟨0, ⟨le_rfl, Nat.zero_le _, fun more hmore hle => ?_⟩, decode_sparse_short (by simp), rfl⟩
      exact absurd (Nat.lt_of_lt_of_le hmore hle) (Nat.lt_irrefl 0)
  | @cons record bytes records encoded hrecord hrest ih =>
      obtain ⟨hbytes, hsizes⟩ := forall_mem_cons.1 hsize
      obtain ⟨habove, -⟩ := forall_mem_cons.1 hprevious
      obtain ⟨hbelow, hlater⟩ := pairwise_cons.1 hascending
      have henvelope := sparse_enveloped hrecord hbytes
      have hlength := henvelope.length
      have hmin : 36 ≤ record.walSize := Nat.le_add_right _ _
      rw [flatten_cons]
      by_cases hwhole : bytes.length ≤ n
      · -- the record is whole, and the cut falls behind it
        obtain ⟨count, hcount, hdecode, hsum⟩ := ih hsizes hbelow hlater (n - bytes.length)
        refine ⟨count + 1, whole_prefix_cons hwhole hcount, ?_, ?_⟩
        · rw [take_append, take_of_length_le hwhole, take_succ_cons]
          have htake : (bytes ++ encoded.flatten.take (n - bytes.length)).take bytes.length = bytes :=
            take_left
          have hfound : sparseEnvelopeSize (bytes ++ encoded.flatten.take (n - bytes.length)) =
              .ok bytes.length := by
            rw [← sparse_envelope_size_take (n := bytes.length) (by omega), htake]
            exact henvelope.size
          refine decode_sparse_step hfound (by simp) ?_ habove ?_
          · rw [htake]
            exact henvelope.decode
          · rw [drop_left]
            exact hdecode
        · rw [take_succ_cons, take_succ_cons, map_cons, sum_cons, hsum,
            flatten_cons, length_append, hlength]
      · -- the cut falls into the record
        have hcut : (bytes ++ encoded.flatten).take n = bytes.take n := by
          rw [take_append, Nat.sub_eq_zero_of_le (by omega), take_zero, append_nil]
        refine ⟨0, whole_prefix_none (by omega), ?_, rfl⟩
        rw [hcut, take_zero]
        have htaken : (bytes.take n).length = n := by
          rw [length_take]
          omega
        by_cases hheader : n < 32
        · exact decode_sparse_short (by omega)
        · have hfound : sparseEnvelopeSize (bytes.take n) = .ok bytes.length := by
            rw [sparse_envelope_size_take (by omega)]
            exact henvelope.size
          exact decode_sparse_torn (by omega) hfound (by omega)

theorem decode_sparse_log_prefix (hencoded : records.mapM encodeSparseWalRecord = .ok encoded)
    (hsize : ∀ bytes ∈ encoded, bytes.length < 2 ^ 32)
    (hascending : records.Pairwise (·.sequence < ·.sequence)) (n : Nat) :
    ∃ count, WholePrefix encoded n count ∧
      decodeSparseWalBytes (encoded.flatten.take n) = .ok (records.take count) ∧
        ∃ replay, preflightSparseWal (some (encoded.flatten.take n)) = .ok replay ∧
          replay.records = records.take count ∧
            replay.validLength = (encoded.take count).flatten.length := by
  rw [map_m_ok] at hencoded
  have hpositive : ∀ record ∈ records, 0 < record.sequence := by
    intro record hrecord
    obtain ⟨bytes, -, hbytes⟩ := forall₂_exists_right hencoded hrecord
    simp only [encodeSparseWalRecord, bind_ok, exists_unit, require_ok] at hbytes
    exact UInt64.pos_iff_ne_zero.2 hbytes.1
  obtain ⟨count, hcount, hdecode, hsum⟩ :=
    decode_sparse_from_prefix hencoded hsize hpositive hascending n
  exact ⟨count, hcount, hdecode, _, bind_ok.2 ⟨_, hdecode, rfl⟩, rfl, hsum⟩

theorem latest_of_log (hencoded : records.mapM encodeSparseWalRecord = .ok encoded)
    (hascending : records.Pairwise (·.sequence < ·.sequence)) :
    ∃ result, latestSparseRecords records = .ok result := by
  rw [map_m_ok] at hencoded
  have hchecks : ∀ record ∈ records, record.sequence ≠ 0 ∧
      checkElements "sparse delete cannot contain elements" record = .ok () := by
    intro record hrecord
    obtain ⟨bytes, -, hbytes⟩ := forall₂_exists_right hencoded hrecord
    simp only [encodeSparseWalRecord, bind_ok, exists_unit, require_ok] at hbytes
    exact ⟨hbytes.1, check_elements_ok.2 (check_elements_ok.1 hbytes.2.1)⟩
  exact latest_sparse_records_returns (fun record hrecord => (hchecks record hrecord).1)
    (fun record hrecord => (hchecks record hrecord).2) hascending

/-! ## The three formats -/

/-- Dense segments, sparse segments and the sparse log give back what was written to them, and
collapsing a log keeps the last record of every identifier. -/
theorem segment_and_log_round_trip :
    (∀ (dimension kind : Nat) (first last : UInt64) (entries : List MemTableEntry)
      (bytes : List UInt8), dimension < 2 ^ 32 → (∀ entry ∈ entries, entry.Constructed) →
        encodeSegmentV3 dimension kind first last entries = .ok bytes → bytes.length < 2 ^ 32 →
          ∃ snapshot, decodeSegmentBytes bytes dimension = .ok snapshot ∧
            snapshot.header.kind = kind ∧ snapshot.header.minSequence = first ∧
              snapshot.header.lastSequence = last ∧
                snapshot.entries.map (·.stored) = entries.map (·.stored) ∧
                  (snapshot.entries.map (·.id)).Pairwise (· < ·)) ∧
    (∀ (kind : Nat) (first last : UInt64) (records : List SparseWalRecord) (bytes : List UInt8),
      encodeSparseSegment kind first last records = .ok bytes → bytes.length < 2 ^ 32 →
        ∃ segment, readSparseSegment bytes = .ok segment ∧ segment.header.kind = kind ∧
          segment.header.minSequence = first ∧ segment.header.maxSequence = last ∧
            segment.records.Perm records ∧ (segment.records.map (·.id)).Pairwise (· < ·)) ∧
    (∀ (records : List SparseWalRecord) (encoded : List (List UInt8)),
      records.mapM encodeSparseWalRecord = .ok encoded →
        (∀ bytes ∈ encoded, bytes.length < 2 ^ 32) →
          records.Pairwise (·.sequence < ·.sequence) →
            ∀ n, ∃ count, WholePrefix encoded n count ∧
              decodeSparseWalBytes (encoded.flatten.take n) = .ok (records.take count) ∧
                ∃ replay, preflightSparseWal (some (encoded.flatten.take n)) = .ok replay ∧
                  replay.records = records.take count ∧
                    replay.validLength = (encoded.take count).flatten.length) ∧
    (∀ (records : List SparseWalRecord) (encoded : List (List UInt8)),
      records.mapM encodeSparseWalRecord = .ok encoded →
        records.Pairwise (·.sequence < ·.sequence) →
          ∃ result, latestSparseRecords records = .ok result) ∧
    ∀ records result : List SparseWalRecord, latestSparseRecords records = .ok result →
      (result.map (·.id)).Pairwise (· < ·) ∧ ∀ record, record ∈ result ↔ IsLast records record :=
  ⟨fun _ _ _ _ _ _ hdimension hconstructed hencode hsize =>
      decode_encode_segment hdimension hconstructed hencode hsize,
    fun _ _ _ _ _ hencode hsize => read_encode_sparse_segment hencode hsize,
    fun _ _ hencoded hsize hascending n => decode_sparse_log_prefix hencoded hsize hascending n,
    fun _ _ hencoded hascending => latest_of_log hencoded hascending,
    fun _ _ hlatest => latest_sparse_records_spec hlatest⟩

/-- An upsert with an empty payload and a tombstone. -/
def sampleEntries : List MemTableEntry :=
  [.withFields 3 5 false [⟨0x3F800000⟩] [], .withFields 7 6 true [] []]

/-- A vector for a point that is deleted later, and another point between. -/
def sampleMutations : List SparseWalRecord :=
  [⟨1, 9, false, [⟨4, ⟨0x3F800000⟩⟩]⟩, ⟨2, 2, false, [⟨0, ⟨0x40000000⟩⟩]⟩, ⟨3, 9, true, []⟩]

theorem segment_and_log_round_trip_sample :
    (∃ bytes snapshot, encodeSegmentV3 1 2 1 6 sampleEntries = .ok bytes ∧
      decodeSegmentBytes bytes 1 = .ok snapshot ∧
        snapshot.entries.map (·.stored) = sampleEntries.map (·.stored)) ∧
    (∃ bytes segment, encodeSparseSegment 2 1 6 (sampleMutations.drop 1) = .ok bytes ∧
      readSparseSegment bytes = .ok segment ∧ segment.records.Perm (sampleMutations.drop 1)) ∧
    ∃ encoded result, sampleMutations.mapM encodeSparseWalRecord = .ok encoded ∧
      latestSparseRecords sampleMutations = .ok result ∧
        ∃ count, WholePrefix encoded 100 count ∧
          decodeSparseWalBytes (encoded.flatten.take 100) = .ok (sampleMutations.take count) := by
  obtain ⟨hsegment, hsparse, hlog, hreturns, -⟩ := segment_and_log_round_trip
  have hentries : ∃ bytes, encodeSegmentV3 1 2 1 6 sampleEntries = .ok bytes ∧
      bytes.length < 2 ^ 32 :=
    ⟨((encodeSegmentV3 1 2 1 6 sampleEntries).toOption).getD [], by decide +kernel,
      by decide +kernel⟩
  have hmutations : ∃ bytes, encodeSparseSegment 2 1 6 (sampleMutations.drop 1) = .ok bytes ∧
      bytes.length < 2 ^ 32 :=
    ⟨((encodeSparseSegment 2 1 6 (sampleMutations.drop 1)).toOption).getD [], by decide +kernel,
      by decide +kernel⟩
  have hrecords : ∃ encoded, sampleMutations.mapM encodeSparseWalRecord = .ok encoded ∧
      ∀ bytes ∈ encoded, bytes.length < 2 ^ 32 :=
    ⟨((sampleMutations.mapM encodeSparseWalRecord).toOption).getD [], by decide +kernel,
      by decide +kernel⟩
  have hconstructed : ∀ entry ∈ sampleEntries, entry.Constructed := by
    refine forall_mem_cons.2 ⟨⟨by decide, nofun⟩, forall_mem_cons.2 ⟨⟨by decide, nofun⟩, ?_⟩⟩
    exact nofun
  have hascending : sampleMutations.Pairwise (·.sequence < ·.sequence) := by decide +kernel
  refine ⟨?_, ?_, ?_⟩
  · obtain ⟨bytes, hbytes, hsize⟩ := hentries
    obtain ⟨snapshot, hdecode, -, -, -, hstored, -⟩ :=
      hsegment 1 2 1 6 sampleEntries bytes (by decide) hconstructed hbytes hsize
    exact ⟨bytes, snapshot, hbytes, hdecode, hstored⟩
  · obtain ⟨bytes, hbytes, hsize⟩ := hmutations
    obtain ⟨segment, hread, -, -, -, hperm, -⟩ := hsparse 2 1 6 _ bytes hbytes hsize
    exact ⟨bytes, segment, hbytes, hread, hperm⟩
  · obtain ⟨encoded, hencoded, hsize⟩ := hrecords
    obtain ⟨count, hcount, hdecode, -⟩ := hlog _ encoded hencoded hsize hascending 100
    obtain ⟨result, hresult⟩ := hreturns _ encoded hencoded hascending
    exact ⟨encoded, result, hencoded, hresult, count, hcount, hdecode⟩

end Akasha.Storage

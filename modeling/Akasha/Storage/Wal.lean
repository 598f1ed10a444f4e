import Akasha.Document.Codec
import Akasha.Storage.Checksum

/-!
# The write-ahead log

The dense log is a sequence of envelopes: a version 2 envelope holds one mutation, a version 3
envelope a batch whose sequences are contiguous. Both carry their length in the header and a
CRC-32 of everything after the magic at the end. `decodeWalBytes` reads envelopes while a whole
one is left; a torn one at the end is left alone.

A cut of the log at any byte keeps exactly the envelopes before the cut: what the decoder looks
at before it knows the length of an envelope are its first twelve bytes.
-/

namespace Akasha.Storage

open Lib List

/-- `WalRecord`: one decoded mutation. -/
structure WalRecord where
  sequence : UInt64
  id : Int64
  isDelete : Bool
  values : List F32
  fields : List DocumentField
deriving DecidableEq, Repr

namespace WalRecord

/-- `WalRecord.delete`. -/
def delete (sequence : UInt64) (id : Int64) : WalRecord :=
  ⟨sequence, id, true, [], []⟩

/-- `WalRecord.document_upsert`. -/
def documentUpsert (sequence : UInt64) (id : Int64) (values : List F32)
    (fields : List DocumentField) : WalRecord :=
  ⟨sequence, id, false, values, fields⟩

/-- `_UPSERT` or `_DELETE`. -/
def operation (record : WalRecord) : UInt8 :=
  if record.isDelete then 2 else 1

end WalRecord

/-- `AKWL`. -/
def walMagic : List UInt8 := [0x41, 0x4B, 0x57, 0x4C]

def walHeaderSize : Nat := 32

def minRecordSize : Nat := 36

def maxBatchRecords : Nat := 65536

def maxBatchBytes : Nat := 256 * 1024 * 1024

/-! ## Encoding -/

/-- What every envelope starts with: the magic, its version, operation, flags and size. -/
def walHeader (version : Nat) (operation : UInt8) (size : Nat) (rest : List UInt8) : List UInt8 :=
  walMagic ++ (leBytes 2 version ++ (operation :: 0 :: (leBytes 4 size ++ rest)))

/-- The vector and payload part of a mutation. -/
def recordBody (record : WalRecord) (payload : List UInt8) : List UInt8 :=
  (if record.isDelete then [] else record.values.flatMap f32Bytes) ++
    (leBytes 4 payload.length ++ payload)

/-- The payload of a mutation; a delete has none. -/
def recordPayload (record : WalRecord) : Except String (List UInt8) :=
  if record.isDelete then do
    require (record.fields = []) "WAL delete cannot contain fields"
    pure []
  else encodePayload record.fields

/-- `_encode_record`. -/
def encodeRecord (dimension : Nat) (record : WalRecord) : Except String (List UInt8) := do
  require (record.sequence ≠ 0) "WAL sequence must be positive"
  let payload ← recordPayload record
  let vectorSize := if record.isDelete then 0 else dimension * 4
  let recordSize := 40 + vectorSize + payload.length
  pure (withChecksum (walHeader 2 record.operation recordSize (u64Bytes record.sequence ++
    (i64Bytes record.id ++ (leBytes 4 dimension ++ recordBody record payload)))))

/-- `encode_document_upsert`, and `encode_upsert` where there are no fields. -/
def encodeDocumentUpsert (sequence : UInt64) (id : Int64) (dimension : Nat) (values : List F32)
    (fields : List DocumentField) : Except String (List UInt8) := do
  require (0 < dimension ∧ values.length = dimension) "WAL upsert dimension mismatch"
  encodeRecord dimension (.documentUpsert sequence id values fields)

/-- `encode_delete`. -/
def encodeDelete (sequence : UInt64) (id : Int64) (dimension : Nat) :
    Except String (List UInt8) := do
  require (0 < dimension) "WAL dimension must be positive"
  encodeRecord dimension (.delete sequence id)

/-- The size and the body of one mutation of a batch. -/
def mutationBody (dimension : Nat) (record : WalRecord) : Except String (List UInt8) :=
  if record.isDelete then do
    require (record.values = [] ∧ record.fields = []) "WAL delete cannot contain values or fields"
    pure (leBytes 4 0)
  else do
    require (record.values.length = dimension) "WAL upsert dimension mismatch"
    let payload ← encodePayload record.fields
    pure (leBytes 4 (dimension * 4 + 4 + payload.length) ++ recordBody record payload)

/-- One mutation of a batch, at its place. -/
def encodeMutation (dimension : Nat) (first : UInt64) (index : Nat) (record : WalRecord) :
    Except String (List UInt8) := do
  require (record.sequence = first + UInt64.ofNat index) "WAL batch sequences must be contiguous"
  let body ← mutationBody dimension record
  pure (record.operation :: 0 :: (leBytes 2 0 ++ (i64Bytes record.id ++ body)))

/-- The loop of `encode_batch`. -/
def encodeMutations (dimension : Nat) (first : UInt64) :
    Nat → List WalRecord → Except String (List UInt8)
  | _, [] => pure []
  | index, record :: records => do
      let bytes ← encodeMutation dimension first index record
      let rest ← encodeMutations dimension first (index + 1) records
      pure (bytes ++ rest)

/-- `encode_batch`. -/
def encodeBatch (dimension : Nat) (records : List WalRecord) : Except String (List UInt8) := do
  require (0 < dimension) "WAL dimension must be positive"
  require (records ≠ []) "WAL batch cannot be empty"
  require (records.length ≤ maxBatchRecords) "WAL batch record count is too large"
  let first := (records.head?.map (·.sequence)).getD 0
  require (first ≠ 0) "WAL sequence must be positive"
  require (first.toNat ≤ 2 ^ 64 - 1 - (records.length - 1)) "WAL batch sequence range overflows"
  let body ← encodeMutations dimension first 0 records
  require (walHeaderSize + body.length + 4 ≤ maxBatchBytes) "WAL batch encoded size is too large"
  pure (withChecksum (walHeader 3 3 (walHeaderSize + body.length + 4) (u64Bytes first ++
    (leBytes 4 records.length ++ (leBytes 4 dimension ++ (leBytes 4 0 ++ body))))))

/-! ## Decoding -/

/-- `_envelope_size`, of at least a whole header. -/
def envelopeSize (bytes : List UInt8) (dimension : Nat) : Except String Nat := do
  require (bytes.take 4 = walMagic) "invalid WAL record magic"
  let version := leValue ((bytes.drop 4).take 2)
  let maximum := if version = 3 then maxBatchBytes else 40 + dimension * 4 + maxPayloadBytes
  let recordSize := leValue ((bytes.drop 8).take 4)
  require (minRecordSize ≤ recordSize ∧ recordSize ≤ maximum) "invalid WAL record length"
  pure recordSize

/-- The comparison of the stored CRC-32. -/
def checkChecksum (bytes : List UInt8) : Except String Unit :=
  require ((crc32 ((bytes.take (bytes.length - 4)).drop 4)).toNat =
    leValue (bytes.drop (bytes.length - 4))) "WAL checksum mismatch"

/-- The vector of an upsert. -/
def readValues (operation dimension : Nat) : Lib.Reader (List F32) :=
  if operation = 1 then readF32s dimension else pure []

/-- The payload of a version 2 record. -/
def readFields (version operation : Nat) : Lib.Reader (List DocumentField) :=
  if version = 2 then do
    let length ← readU32
    check (operation = 2 → length = 0) "WAL delete cannot contain payload"
    let payload ← readSpan length
    if operation = 1 then ofResult (decodePayload payload) else pure []
  else pure []

/-- `_decode_record`, up to the end of the input. -/
def readRecord (size expected : Nat) : Lib.Reader WalRecord := do
  let magic ← readSpan 4
  check (magic = walMagic) "invalid WAL record magic"
  let version ← readU16
  check (version = 1 ∨ version = 2) "unsupported WAL version"
  let operation ← readU8
  check (operation = 1 ∨ operation = 2) "invalid WAL operation"
  let flags ← readU8
  check (flags = 0) "unsupported WAL flags"
  let recordSize ← readU32
  check (recordSize = size) "WAL record length mismatch"
  let sequence ← readU64
  check (sequence ≠ 0) "WAL sequence must be positive"
  let id ← readI64
  let dimension ← readU32
  check (dimension = expected) "WAL dimension mismatch"
  let values ← readValues operation dimension
  let fields ← readFields version operation
  let _ ← readU32
  pure ⟨sequence, id, operation = 2, values, fields⟩

/-- `_decode_record`. -/
def decodeRecord (bytes : List UInt8) (dimension : Nat) : Except String WalRecord := do
  checkChecksum bytes
  let (record, rest) ← readRecord bytes.length dimension bytes
  require (rest = []) "unexpected WAL payload"
  pure record

/-- The body of one mutation of a batch, after its size. -/
def readMutationBody (operation dimension size : Nat) (sequence : UInt64) (id : Int64) :
    Lib.Reader WalRecord :=
  if operation = 2 then do
    check (size = 0) "WAL batch delete cannot contain a body"
    pure (.delete sequence id)
  else do
    check (dimension * 4 + 4 ≤ size) "WAL batch upsert body is truncated"
    let values ← readF32s dimension
    let payloadLength ← readU32
    check (size = dimension * 4 + 4 + payloadLength) "WAL batch mutation length mismatch"
    let payload ← readSpan payloadLength
    let fields ← ofResult (decodePayload payload)
    pure (.documentUpsert sequence id values fields)

/-- One mutation of a batch. -/
def readMutation (dimension : Nat) (first : UInt64) (index : Nat) : Lib.Reader WalRecord := do
  let operation ← readU8
  check (operation = 1 ∨ operation = 2) "invalid WAL batch mutation operation"
  let flags ← readU8
  let reserved ← readU16
  check (flags = 0 ∧ reserved = 0) "unsupported WAL batch mutation flags"
  let id ← readI64
  let size ← readU32
  readMutationBody operation dimension size (first + UInt64.ofNat index) id

/-- `_decode_batch`, up to the end of the input. -/
def readBatch (size expected : Nat) (previous : UInt64) : Lib.Reader (List WalRecord) := do
  let magic ← readSpan 4
  check (magic = walMagic) "invalid WAL record magic"
  let version ← readU16
  let operation ← readU8
  check (version = 3 ∧ operation = 3) "invalid WAL v3 batch header"
  let flags ← readU8
  check (flags = 0) "unsupported WAL flags"
  let recordSize ← readU32
  check (recordSize = size) "WAL record length mismatch"
  let first ← readU64
  let count ← readU32
  check (count ≠ 0 ∧ count ≤ maxBatchRecords) "invalid WAL batch record count"
  let dimension ← readU32
  check (dimension = expected) "WAL dimension mismatch"
  let reserved ← readU32
  check (reserved = 0) "unsupported WAL batch reserved field"
  check (first ≠ 0 ∧ previous < first) "WAL sequence must increase"
  check (first.toNat ≤ 2 ^ 64 - 1 - (count - 1)) "WAL batch sequence range overflows"
  let records ← readTimes (readMutation dimension first) 0 count
  let _ ← readU32
  pure records

/-- `_decode_batch`. -/
def decodeBatch (bytes : List UInt8) (dimension : Nat) (previous : UInt64) :
    Except String (List WalRecord) := do
  checkChecksum bytes
  let (records, rest) ← readBatch bytes.length dimension previous bytes
  require (rest = []) "unexpected WAL batch payload"
  pure records

/-- `_decode_envelope`. -/
def decodeEnvelope (bytes : List UInt8) (dimension : Nat) (previous : UInt64) :
    Except String (List WalRecord) :=
  if leValue ((bytes.drop 4).take 2) = 3 then do
    require (bytes[6]? = some 3) "invalid WAL v3 operation"
    decodeBatch bytes dimension previous
  else do
    let record ← decodeRecord bytes dimension
    require (previous < record.sequence) "WAL sequence must increase"
    pure [record]

theorem envelope_size_ok {bytes : List UInt8} {dimension size : Nat}
    (h : envelopeSize bytes dimension = .ok size) : minRecordSize ≤ size := by
  simp only [envelopeSize, bind_ok, exists_unit, require_ok, pure_ok] at h
  obtain ⟨-, hsize, rfl⟩ := h
  exact hsize.1

/-- The loop of `decode_wal_bytes`, after the records read so far. -/
def decodeWalFrom (dimension : Nat) (previous : UInt64) (bytes : List UInt8) :
    Except String (List WalRecord) :=
  if bytes.length < walHeaderSize then pure []
  else
    match _hsize : envelopeSize bytes dimension with
    | .error message => throw message
    | .ok size =>
        if bytes.length < size then pure []
        else do
          let records ← decodeEnvelope (bytes.take size) dimension previous
          let last := (records.getLast?.map (·.sequence)).getD previous
          let rest ← decodeWalFrom dimension last (bytes.drop size)
          pure (records ++ rest)
termination_by bytes.length
decreasing_by
  have hpos := envelope_size_ok _hsize
  simp only [minRecordSize, walHeaderSize, length_drop] at *
  omega

/-- `_validate_dimension`. -/
def validateDimension (dimension : Nat) : Except String Unit :=
  require (0 < dimension ∧ dimension < 2 ^ 32) "WAL dimension must be positive and fit UInt32"

/-- `decode_wal_bytes`. -/
def decodeWalBytes (bytes : List UInt8) (dimension : Nat) : Except String (List WalRecord) := do
  validateDimension dimension
  decodeWalFrom dimension 0 bytes

/-! ## One envelope -/

theorem check_with_checksum (body : List UInt8) : checkChecksum (withChecksum body) = .ok () := by
  have hlength : (withChecksum body).length - 4 = body.length := by simp [withChecksum]
  rw [checkChecksum, require_ok, hlength]
  simp [withChecksum]

/-- What the encoders ensure of a record, or the constructors of its parts. -/
structure WalRecord.Encodable (dimension : Nat) (record : WalRecord) : Prop where
  positive : record.sequence ≠ 0
  values : record.values.length = if record.isDelete then 0 else dimension
  fields : record.isDelete = true → record.fields = []
  valid : ∀ field ∈ record.fields, field.value.Valid

section

variable {dimension : Nat} {record : WalRecord} {payload : List UInt8}

theorem operation_delete (h : record.isDelete = true) : record.operation.toNat = 2 := by
  simp [WalRecord.operation, h]

theorem operation_upsert (h : record.isDelete = false) : record.operation.toNat = 1 := by
  simp [WalRecord.operation, h]

theorem operation_cases (record : WalRecord) :
    record.operation.toNat = 1 ∨ record.operation.toNat = 2 := by
  cases h : record.isDelete with
  | false => exact .inl (operation_upsert h)
  | true => exact .inr (operation_delete h)

theorem operation_eq_two (record : WalRecord) :
    decide (record.operation.toNat = 2) = record.isDelete := by
  cases h : record.isDelete with
  | false => simp [operation_upsert h]
  | true => simp [operation_delete h]

theorem reads_values (h : record.Encodable dimension) :
    Reads (readValues record.operation.toNat dimension)
      (if record.isDelete then [] else record.values.flatMap f32Bytes) record.values := by
  have hlength := h.values
  cases hdelete : record.isDelete with
  | true =>
      have hempty : record.values = [] := by simpa [hdelete] using hlength
      rw [readValues, operation_delete hdelete, if_neg (by decide), hempty]
      exact reads_pure []
  | false =>
      have hdimension : record.values.length = dimension := by simpa [hdelete] using hlength
      rw [readValues, operation_upsert hdelete, if_pos rfl, ← hdimension]
      exact reads_f32s record.values

theorem reads_fields (h : record.Encodable dimension)
    (hpayload : recordPayload record = .ok payload) (hlength : payload.length < 2 ^ 32) :
    Reads (readFields 2 record.operation.toNat) (leBytes 4 payload.length ++ payload)
      record.fields := by
  rw [readFields, if_pos rfl]
  unfold recordPayload at hpayload
  cases hdelete : record.isDelete with
  | true =>
      simp only [hdelete, if_true, bind_ok, exists_unit, pure_ok] at hpayload
      obtain ⟨-, rfl⟩ := hpayload
      refine reads_bind (reads_u32 hlength) (reads_check (fun _ => rfl) ?_)
      rw [h.fields hdelete, operation_delete hdelete]
      exact reads_silent (reads_span rfl) (reads_pure [])
  | false =>
      simp only [hdelete, Bool.false_eq_true, if_false] at hpayload
      rw [operation_upsert hdelete]
      refine reads_bind (reads_u32 hlength) (reads_check (by simp) ?_)
      exact reads_last (reads_span rfl) (reads_of_result (decode_encode_payload h.valid hpayload))

/-- A version 2 record. -/
theorem reads_record (h : record.Encodable dimension)
    (hpayload : recordPayload record = .ok payload) {size crc : Nat} (hsize : size < 2 ^ 32)
    (hdimension : dimension < 2 ^ 32) (hlength : payload.length < 2 ^ 32) (hcrc : crc < 2 ^ 32) :
    Reads (readRecord size dimension)
      (walHeader 2 record.operation size (u64Bytes record.sequence ++ (i64Bytes record.id ++
        (leBytes 4 dimension ++ (recordBody record payload ++ leBytes 4 crc))))) record := by
  unfold readRecord walHeader
  refine reads_bind (reads_span rfl) (reads_check rfl ?_)
  refine reads_bind (reads_u16 (by decide)) (reads_check (.inr rfl) ?_)
  refine reads_u8_cons (reads_check (operation_cases record) ?_)
  refine reads_u8_cons (reads_check rfl ?_)
  refine reads_bind (reads_u32 hsize) (reads_check rfl ?_)
  refine reads_bind (reads_u64 record.sequence) (reads_check h.positive ?_)
  refine reads_bind (reads_i64 record.id) ?_
  refine reads_bind (reads_u32 hdimension) (reads_check rfl ?_)
  rw [recordBody, append_assoc]
  refine reads_bind (reads_values h) ?_
  refine reads_bind (reads_fields h hpayload hlength) ?_
  refine reads_last (reads_u32 hcrc) ?_
  rw [operation_eq_two]
  exact reads_pure record

/-! ### Batches -/

/-- One mutation of a batch. -/
theorem reads_mutation {first : UInt64} {index : Nat} {bytes : List UInt8}
    (hvalid : ∀ field ∈ record.fields, field.value.Valid)
    (h : encodeMutation dimension first index record = .ok bytes)
    (hlength : bytes.length ≤ maxBatchBytes) :
    Reads (readMutation dimension first index) bytes record := by
  obtain ⟨sequence, id, isDelete, values, fields⟩ := record
  simp only [encodeMutation, bind_ok, require_ok, exists_unit, pure_ok] at h
  obtain ⟨rfl, body, hbody, rfl⟩ := h
  unfold readMutation
  refine reads_u8_cons (reads_check (operation_cases _) (reads_u8_cons ?_))
  refine reads_bind (reads_u16 (by decide)) (reads_check ⟨rfl, rfl⟩ ?_)
  refine reads_bind (reads_i64 id) ?_
  cases isDelete with
  | true =>
      simp only [mutationBody, if_true, bind_ok, require_ok, exists_unit,
        pure_ok] at hbody
      obtain ⟨⟨rfl, rfl⟩, rfl⟩ := hbody
      refine reads_last (reads_u32 (by decide)) ?_
      rw [operation_delete rfl, readMutationBody, if_pos rfl]
      exact reads_check rfl (reads_pure _)
  | false =>
      simp only [mutationBody, Bool.false_eq_true, if_false, bind_ok, require_ok,
        exists_unit, pure_ok] at hbody
      obtain ⟨rfl, payload, hpayload, rfl⟩ := hbody
      have hsize : values.length * 4 + 4 + payload.length < 2 ^ 32 := by
        have hmax : maxBatchBytes = 268435456 := rfl
        simp only [List.length_cons, length_append, length_le_bytes, recordBody,
          Bool.false_eq_true, if_false, length_flat_map_f32, i64Bytes] at hlength
        omega
      have hpayload32 : payload.length < 2 ^ 32 := by omega
      refine reads_bind (reads_u32 hsize) ?_
      rw [operation_upsert rfl, readMutationBody, if_neg (by decide), recordBody,
        if_neg (by simp)]
      refine reads_check (by omega) (reads_bind (reads_f32s values) ?_)
      refine reads_bind (reads_u32 hpayload32) (reads_check rfl ?_)
      refine reads_last (reads_span rfl) ?_
      exact reads_silent (reads_of_result (decode_encode_payload hvalid hpayload)) (reads_pure _)

theorem reads_mutations {first : UInt64} {records : List WalRecord} {index : Nat}
    {bytes : List UInt8} (hvalid : ∀ record ∈ records, ∀ field ∈ record.fields, field.value.Valid)
    (h : encodeMutations dimension first index records = .ok bytes)
    (hlength : bytes.length ≤ maxBatchBytes) :
    Reads (readTimes (readMutation dimension first) index records.length) bytes records := by
  induction records generalizing index bytes with
  | nil =>
      simp only [encodeMutations, pure_ok] at h
      subst h
      exact reads_times_zero
  | cons record records ih =>
      simp only [encodeMutations, bind_ok, pure_ok] at h
      obtain ⟨front, hfront, rest, hrest, rfl⟩ := h
      rw [List.forall_mem_cons] at hvalid
      rw [List.length_append] at hlength
      exact reads_times_succ (reads_mutation hvalid.1 hfront (by omega))
        (ih hvalid.2 hrest (by omega))

end

/-! ## Envelopes -/

/-- What is appended to the log at once, by the encoder that makes it. -/
inductive WalEnvelope where
  | upsert (sequence : UInt64) (id : Int64) (values : List F32) (fields : List DocumentField)
  | delete (sequence : UInt64) (id : Int64)
  | batch (records : List WalRecord)
deriving DecidableEq, Repr

namespace WalEnvelope

/-- The mutations of an envelope. -/
def records : WalEnvelope → List WalRecord
  | .upsert sequence id values fields => [.documentUpsert sequence id values fields]
  | .delete sequence id => [.delete sequence id]
  | .batch records => records

/-- The bytes of an envelope. -/
def encode (dimension : Nat) : WalEnvelope → Except String (List UInt8)
  | .upsert sequence id values fields => encodeDocumentUpsert sequence id dimension values fields
  | .delete sequence id => encodeDelete sequence id dimension
  | .batch records => encodeBatch dimension records

/-- The float values of the payloads are finite, as their constructor ensures. -/
def Valid (envelope : WalEnvelope) : Prop :=
  ∀ record ∈ envelope.records, ∀ field ∈ record.fields, field.value.Valid

instance (envelope : WalEnvelope) : Decidable envelope.Valid :=
  inferInstanceAs (Decidable (∀ record ∈ envelope.records, ∀ field ∈ record.fields,
    field.value.Valid))

end WalEnvelope

/-- What the decoder makes of the bytes of an envelope. -/
structure Enveloped (dimension : Nat) (bytes : List UInt8) (records : List WalRecord) : Prop where
  length_le : minRecordSize ≤ bytes.length
  size : envelopeSize bytes dimension = .ok bytes.length
  positive : ∀ first ∈ records.head?, 0 < first.sequence
  decode : ∀ previous, (∀ first ∈ records.head?, previous < first.sequence) →
    decodeEnvelope bytes dimension previous = .ok records

section

variable {dimension : Nat}

theorem wal_header_version {version size : Nat} {operation : UInt8} {rest : List UInt8}
    (h : version < 2 ^ 16) :
    leValue (((walHeader version operation size rest).drop 4).take 2) = version := by
  have htake : ((walHeader version operation size rest).drop 4).take 2 = leBytes 2 version := by
    simp [walHeader, walMagic, leBytes]
  rw [htake, le_value_le_bytes]
  exact Nat.mod_eq_of_lt h

theorem envelope_size_header {version size maximum : Nat} {operation : UInt8} {rest : List UInt8}
    (hversion : version < 2 ^ 16) (hsize : size < 2 ^ 32) (hmin : minRecordSize ≤ size)
    (hmax : size ≤ maximum)
    (hmaximum : maximum = if version = 3 then maxBatchBytes
      else 40 + dimension * 4 + maxPayloadBytes) :
    envelopeSize (walHeader version operation size rest) dimension = .ok size := by
  have hmagic : (walHeader version operation size rest).take 4 = walMagic := by
    simp [walHeader, walMagic]
  have htake : ((walHeader version operation size rest).drop 8).take 4 = leBytes 4 size := by
    simp [walHeader, walMagic, leBytes]
  have hvalue : leValue (leBytes 4 size) = size := by
    rw [le_value_le_bytes]
    exact Nat.mod_eq_of_lt hsize
  simp only [envelopeSize, bind_ok, require_ok, exists_unit, pure_ok,
    wal_header_version hversion, htake, hvalue, ← hmaximum]
  exact ⟨hmagic, ⟨hmin, hmax⟩, trivial⟩

theorem record_payload_length {record : WalRecord} {payload : List UInt8}
    (h : recordPayload record = .ok payload) : payload.length ≤ maxPayloadBytes := by
  unfold recordPayload at h
  split at h
  · simp only [bind_ok, exists_unit, pure_ok] at h
    obtain ⟨-, rfl⟩ := h
    exact Nat.zero_le _
  · exact encode_payload_length h

theorem with_checksum_header (version size : Nat) (operation : UInt8) (rest : List UInt8) :
    ∃ crc < 2 ^ 32, withChecksum (walHeader version operation size rest) =
      walHeader version operation size (rest ++ leBytes 4 crc) := by
  refine ⟨_, (crc32 ((walHeader version operation size rest).drop 4)).toNat_lt, ?_⟩
  simp [withChecksum, walHeader]

theorem length_wal_header (version size : Nat) (operation : UInt8) (rest : List UInt8) :
    (walHeader version operation size rest).length = 12 + rest.length := by
  simp only [walHeader, walMagic, length_append, length_cons, length_nil,
    length_le_bytes]
  omega

theorem length_record_body {record : WalRecord} (h : record.Encodable dimension)
    (payload : List UInt8) :
    (recordBody record payload).length =
      (if record.isDelete then 0 else dimension * 4) + 4 + payload.length := by
  have hvalues := h.values
  rw [recordBody, length_append, length_append, length_le_bytes]
  cases hdelete : record.isDelete with
  | true =>
      simp only [if_true, length_nil]
      omega
  | false =>
      simp only [hdelete, Bool.false_eq_true, if_false] at hvalues ⊢
      rw [length_flat_map_f32, hvalues]
      omega

/-- A version 2 envelope. -/
theorem enveloped_record {record : WalRecord} {bytes : List UInt8}
    (hdimension : dimension < 2 ^ 32) (hencodable : record.Encodable dimension)
    (h : encodeRecord dimension record = .ok bytes) (hsize : bytes.length < 2 ^ 32) :
    Enveloped dimension bytes [record] := by
  simp only [encodeRecord, bind_ok, require_ok, exists_unit, pure_ok] at h
  obtain ⟨-, payload, hpayload, rfl⟩ := h
  have hpayloadLength := record_payload_length hpayload
  have hmax : maxPayloadBytes = 16777216 := rfl
  generalize hrecordSize :
    40 + (if record.isDelete then 0 else dimension * 4) + payload.length = recordSize at hsize ⊢
  generalize hrest : u64Bytes record.sequence ++ (i64Bytes record.id ++
    (leBytes 4 dimension ++ recordBody record payload)) = rest at hsize ⊢
  have hchecksum := check_with_checksum (walHeader 2 record.operation recordSize rest)
  obtain ⟨crc, hcrc, hclosed⟩ := with_checksum_header 2 recordSize record.operation rest
  rw [hclosed] at hchecksum hsize ⊢
  have hlength : (walHeader 2 record.operation recordSize (rest ++ leBytes 4 crc)).length =
      recordSize := by
    rw [length_wal_header, ← hrest, ← hrecordSize]
    simp only [List.length_append, length_le_bytes, u64Bytes, i64Bytes,
      length_record_body hencodable]
    omega
  have hvector : (if record.isDelete then 0 else dimension * 4) ≤ dimension * 4 := by
    split <;> omega
  have hread := reads_record hencodable hpayload (hlength ▸ hsize) hdimension (by omega) hcrc
  refine ⟨?_, ?_, ?_, fun previous hprevious => ?_⟩
  · rw [hlength, minRecordSize]
    omega
  · rw [hlength]
    refine envelope_size_header (by decide) (hlength ▸ hsize) ?_ ?_ rfl
    · rw [minRecordSize]
      omega
    · rw [if_neg (by decide)]
      omega
  · simpa using UInt64.pos_iff_ne_zero.2 hencodable.positive
  · rw [decodeEnvelope, wal_header_version (by decide), if_neg (by decide)]
    simp only [decodeRecord, bind_ok, require_ok, exists_unit, pure_ok]
    refine ⟨record, ⟨hchecksum, (record, []), ?_, rfl, rfl⟩, hprevious record (by simp), rfl⟩
    rw [hlength, ← hrest]
    simp only [List.append_assoc]
    exact reads_all hread

/-- A version 3 envelope. -/
theorem enveloped_batch {records : List WalRecord} {bytes : List UInt8}
    (hdimension : dimension < 2 ^ 32)
    (hvalid : ∀ record ∈ records, ∀ field ∈ record.fields, field.value.Valid)
    (h : encodeBatch dimension records = .ok bytes) : Enveloped dimension bytes records := by
  simp only [encodeBatch, bind_ok, require_ok, exists_unit, pure_ok] at h
  obtain ⟨-, hne, hcount, hpositive, hrange, body, hbody, hsize, rfl⟩ := h
  have hmax : maxBatchBytes = 268435456 := rfl
  have hheader : walHeaderSize = 32 := rfl
  have hrecords : maxBatchRecords = 65536 := rfl
  obtain ⟨record, records, rfl⟩ := exists_cons_of_ne_nil hne
  simp only [List.head?_cons, Option.map_some, Option.getD_some] at hpositive hrange hbody ⊢
  generalize hrest : u64Bytes record.sequence ++ (leBytes 4 (record :: records).length ++
    (leBytes 4 dimension ++ (leBytes 4 0 ++ body))) = rest
  generalize hrecordSize : walHeaderSize + body.length + 4 = recordSize at hsize ⊢
  have hchecksum := check_with_checksum (walHeader 3 3 recordSize rest)
  obtain ⟨crc, hcrc, hclosed⟩ := with_checksum_header 3 recordSize 3 rest
  rw [hclosed] at hchecksum ⊢
  have hlength : (walHeader 3 3 recordSize (rest ++ leBytes 4 crc)).length = recordSize := by
    rw [length_wal_header, ← hrest, ← hrecordSize]
    simp only [List.length_append, length_le_bytes, u64Bytes, hheader]
    omega
  have hread : ∀ previous, previous < record.sequence →
      Reads (readBatch recordSize dimension previous)
        (walHeader 3 3 recordSize (rest ++ leBytes 4 crc)) (record :: records) := by
    intro previous hprevious
    unfold readBatch walHeader
    rw [← hrest]
    simp only [List.append_assoc]
    refine reads_bind (reads_span rfl) (reads_check rfl ?_)
    refine reads_bind (reads_u16 (by decide)) (reads_u8_cons (reads_check ⟨rfl, rfl⟩ ?_))
    refine reads_u8_cons (reads_check rfl ?_)
    refine reads_bind (reads_u32 (by omega)) (reads_check rfl ?_)
    refine reads_bind (reads_u64 record.sequence) ?_
    refine reads_bind (reads_u32 (by omega)) (reads_check ⟨by simp, hcount⟩ ?_)
    refine reads_bind (reads_u32 hdimension) (reads_check rfl ?_)
    refine reads_bind (reads_u32 (by decide)) (reads_check rfl ?_)
    refine reads_check ⟨hpositive, hprevious⟩ (reads_check hrange ?_)
    refine reads_bind (reads_mutations hvalid hbody (by omega)) ?_
    exact reads_last (reads_u32 hcrc) (reads_pure _)
  refine ⟨?_, ?_, ?_, fun previous hprevious => ?_⟩
  · rw [hlength, minRecordSize]
    omega
  · rw [hlength]
    refine envelope_size_header (by decide) (by omega) ?_ hsize (by simp)
    rw [minRecordSize]
    omega
  · simpa using UInt64.pos_iff_ne_zero.2 hpositive
  · rw [decodeEnvelope, wal_header_version (by decide), if_pos rfl]
    simp only [decodeBatch, bind_ok, require_ok, exists_unit, pure_ok]
    refine ⟨?_, hchecksum, (record :: records, []), ?_, rfl, rfl⟩
    · simp [walHeader, walMagic, leBytes]
    · rw [hlength]
      exact reads_all (hread previous (hprevious record (by simp)))

/-- Every encoded envelope. -/
theorem enveloped_encode {envelope : WalEnvelope} {bytes : List UInt8}
    (hdimension : dimension < 2 ^ 32) (hvalid : envelope.Valid)
    (h : envelope.encode dimension = .ok bytes) (hsize : bytes.length < 2 ^ 32) :
    Enveloped dimension bytes envelope.records := by
  cases envelope with
  | upsert sequence id values fields =>
      simp only [WalEnvelope.encode, encodeDocumentUpsert, bind_ok, require_ok,
        exists_unit] at h
      obtain ⟨⟨-, hlength⟩, hrecord⟩ := h
      refine enveloped_record hdimension ⟨?_, hlength, (by intros; contradiction), hvalid _ (by simp [WalEnvelope.records])⟩
        hrecord hsize
      simp only [encodeRecord, bind_ok, require_ok, exists_unit] at hrecord
      exact hrecord.1
  | delete sequence id =>
      simp only [WalEnvelope.encode, encodeDelete, bind_ok, require_ok, exists_unit] at h
      obtain ⟨-, hrecord⟩ := h
      refine enveloped_record hdimension ⟨?_, rfl, fun _ => rfl, by simp [WalRecord.delete]⟩
        hrecord hsize
      simp only [encodeRecord, bind_ok, require_ok, exists_unit] at hrecord
      exact hrecord.1
  | batch records => exact enveloped_batch hdimension hvalid h

end

/-! ## A log that is cut anywhere -/

theorem envelope_size_take {bytes : List UInt8} {dimension n : Nat} (hn : 12 ≤ n) :
    envelopeSize (bytes.take n) dimension = envelopeSize bytes dimension := by
  have hmagic : (bytes.take n).take 4 = bytes.take 4 := by
    rw [List.take_take, min_eq_left (by omega)]
  have hversion : ((bytes.take n).drop 4).take 2 = (bytes.drop 4).take 2 := by
    rw [List.drop_take, take_take, min_eq_left (by omega)]
  have hsize : ((bytes.take n).drop 8).take 4 = (bytes.drop 8).take 4 := by
    rw [List.drop_take, take_take, min_eq_left (by omega)]
  simp only [envelopeSize, hmagic, hversion, hsize]

section

variable {dimension : Nat} {previous : UInt64} {bytes : List UInt8}

theorem decode_wal_short (h : bytes.length < walHeaderSize) :
    decodeWalFrom dimension previous bytes = .ok [] := by
  rw [decodeWalFrom, if_pos h]
  rfl

theorem decode_wal_torn {size : Nat} (hheader : walHeaderSize ≤ bytes.length)
    (hsize : envelopeSize bytes dimension = .ok size) (htorn : bytes.length < size) :
    decodeWalFrom dimension previous bytes = .ok [] := by
  rw [decodeWalFrom, if_neg (by omega)]
  split
  · next message heq =>
      rw [hsize] at heq
      cases heq
  · next found heq =>
      rw [hsize] at heq
      cases heq
      rw [if_pos htorn]
      rfl

/-- A whole envelope is decoded, and then the rest. -/
theorem decode_wal_step {size : Nat} {records rest : List WalRecord}
    (hsize : envelopeSize bytes dimension = .ok size) (hlength : size ≤ bytes.length)
    (hrecords : decodeEnvelope (bytes.take size) dimension previous = .ok records)
    (hrest : decodeWalFrom dimension ((records.getLast?.map (·.sequence)).getD previous)
      (bytes.drop size) = .ok rest) :
    decodeWalFrom dimension previous bytes = .ok (records ++ rest) := by
  have hmin := envelope_size_ok hsize
  simp only [minRecordSize] at hmin
  rw [decodeWalFrom, if_neg (by rw [walHeaderSize]; omega)]
  split
  · next message heq =>
      rw [hsize] at heq
      cases heq
  · next found heq =>
      rw [hsize] at heq
      cases heq
      rw [if_neg (by omega)]
      simp only [bind_ok, pure_ok]
      exact ⟨records, hrecords, rest, hrest, rfl⟩

end

/-- The envelopes that lie wholly in the first bytes of a log. -/
def wholeEnvelopes {α : Type} : List (α × List UInt8) → Nat → List α
  | [], _ => []
  | (envelope, bytes) :: rest, n =>
      if bytes.length ≤ n then envelope :: wholeEnvelopes rest (n - bytes.length) else []

/-- The sequences of a log rise from envelope to envelope, above a first one. -/
def Ascending (previous : UInt64) : List (WalEnvelope × List UInt8) → Prop
  | [] => True
  | (envelope, _) :: rest =>
      (∀ first ∈ envelope.records.head?, previous < first.sequence) ∧
        Ascending ((envelope.records.getLast?.map (·.sequence)).getD previous) rest

/-- Decoding the first bytes of a log, after a sequence. -/
theorem decode_wal_from_prefix {dimension : Nat} (hdimension : dimension < 2 ^ 32)
    (log : List (WalEnvelope × List UInt8)) (previous : UInt64)
    (hencoded : ∀ item ∈ log, item.1.encode dimension = .ok item.2)
    (hvalid : ∀ item ∈ log, item.1.Valid) (hsize : ∀ item ∈ log, item.2.length < 2 ^ 32)
    (hascending : Ascending previous log) (n : Nat) :
    decodeWalFrom dimension previous ((log.flatMap (·.2)).take n) =
      .ok ((wholeEnvelopes log n).flatMap WalEnvelope.records) := by
  induction log generalizing previous n with
  | nil => exact decode_wal_short (by simp [walHeaderSize])
  | cons item log ih =>
      obtain ⟨envelope, bytes⟩ := item
      rw [List.forall_mem_cons] at hencoded hvalid hsize
      have henvelope := enveloped_encode hdimension hvalid.1 hencoded.1 hsize.1
      have hmin := henvelope.length_le
      simp only [minRecordSize] at hmin
      rw [List.flatMap_cons, wholeEnvelopes]
      by_cases hwhole : bytes.length ≤ n
      · -- the envelope is whole, and the cut falls behind it
        rw [if_pos hwhole, flatMap_cons, take_append, take_of_length_le hwhole]
        have htake : (bytes ++ (log.flatMap (·.2)).take (n - bytes.length)).take bytes.length =
            bytes := take_left
        have hfound : envelopeSize (bytes ++ (log.flatMap (·.2)).take (n - bytes.length))
            dimension = .ok bytes.length := by
          rw [← envelope_size_take (n := bytes.length) (by omega), htake]
          exact henvelope.size
        refine decode_wal_step hfound (by simp) ?_ ?_
        · rw [htake]
          exact henvelope.decode previous hascending.1
        · rw [List.drop_left]
          exact ih _ hencoded.2 hvalid.2 hsize.2 hascending.2 _
      · -- the cut falls into the envelope
        have hcut : (bytes ++ log.flatMap (·.2)).take n = bytes.take n := by
          rw [List.take_append, Nat.sub_eq_zero_of_le (by omega), take_zero, append_nil]
        rw [if_neg hwhole, hcut, flatMap_nil]
        have hlength : (bytes.take n).length = n := by
          rw [List.length_take]
          omega
        by_cases hheader : n < walHeaderSize
        · exact decode_wal_short (by omega)
        · have hheader' : walHeaderSize = 32 := rfl
          have hfound : envelopeSize (bytes.take n) dimension = .ok bytes.length := by
            rw [envelope_size_take (by omega)]
            exact henvelope.size
          exact decode_wal_torn (by omega) hfound (by omega)

theorem ascending_of_pairwise {log : List (WalEnvelope × List UInt8)} {previous : UInt64}
    (hfirst : ∀ item ∈ log, ∀ first ∈ item.1.records.head?, previous < first.sequence)
    (h : log.Pairwise fun a b => ∀ record ∈ a.1.records, ∀ later ∈ b.1.records,
      record.sequence < later.sequence) : Ascending previous log := by
  induction log generalizing previous with
  | nil => trivial
  | cons item log ih =>
      rw [List.pairwise_cons] at h
      rw [List.forall_mem_cons] at hfirst
      refine ⟨hfirst.1, ih (fun later hlater first hhead => ?_) h.2⟩
      cases hlast : item.1.records.getLast? with
      | none => exact hfirst.2 later hlater first hhead
      | some record =>
          exact h.1 later hlater record (List.mem_of_getLast? hlast) first
            (List.mem_of_mem_head? hhead)

/-- WAL prefix decoding is exact: the first bytes of a log decode to the records of the envelopes
that lie wholly in them. -/
theorem decode_wal_prefix {dimension : Nat} (hpositive : 0 < dimension)
    (hdimension : dimension < 2 ^ 32) (log : List (WalEnvelope × List UInt8))
    (hencoded : ∀ item ∈ log, item.1.encode dimension = .ok item.2)
    (hvalid : ∀ item ∈ log, item.1.Valid) (hsize : ∀ item ∈ log, item.2.length < 2 ^ 32)
    (hascending : log.Pairwise fun a b => ∀ record ∈ a.1.records, ∀ later ∈ b.1.records,
      record.sequence < later.sequence) (n : Nat) :
    decodeWalBytes ((log.flatMap (·.2)).take n) dimension =
      .ok ((wholeEnvelopes log n).flatMap WalEnvelope.records) := by
  simp only [decodeWalBytes, validateDimension, bind_ok, require_ok, exists_unit]
  refine ⟨⟨hpositive, hdimension⟩, ?_⟩
  refine decode_wal_from_prefix hdimension log 0 hencoded hvalid hsize ?_ n
  refine ascending_of_pairwise (fun item hitem => ?_) hascending
  exact (enveloped_encode hdimension (hvalid item hitem) (hencoded item hitem)
    (hsize item hitem)).positive

/-- A delete, a batch of an upsert with a payload and a delete, and the bytes of both. -/
def sampleLog : List (WalEnvelope × List UInt8) :=
  let envelopes : List WalEnvelope := [.delete 1 7,
    .batch [.documentUpsert 2 8 [⟨0x3F800000⟩] [⟨"kind", .boolean true⟩], .delete 3 7]]
  envelopes.map fun envelope => (envelope, ((envelope.encode 1).toOption).getD [])

/-- The log is cut in its second envelope. -/
theorem decode_wal_prefix_cut :
    decodeWalBytes ((sampleLog.flatMap (·.2)).take 60) 1 = .ok [.delete 1 7] := by
  have hencoded : ∀ item ∈ sampleLog, item.1.encode 1 = .ok item.2 := by decide +kernel
  have hvalid : ∀ item ∈ sampleLog, item.1.Valid := by decide +kernel
  have hsize : ∀ item ∈ sampleLog, item.2.length < 2 ^ 32 := by decide +kernel
  have hascending : sampleLog.Pairwise fun a b => ∀ record ∈ a.1.records, ∀ later ∈ b.1.records,
      record.sequence < later.sequence := by decide +kernel
  have hwhole : (wholeEnvelopes sampleLog 60).flatMap WalEnvelope.records = [.delete 1 7] := by
    decide +kernel
  rw [← hwhole]
  exact decode_wal_prefix (by decide) (by decide) sampleLog hencoded hvalid hsize hascending 60

end Akasha.Storage

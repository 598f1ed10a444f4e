import Akasha.Document.PointCodec
import Akasha.Document.PointState

/-!
# Point records

The complete state of a point as one record (`document/point_codec.mojo`): a header, the payload
and the bodies of the fields, or a header alone for a tombstone. `decode_record_iff` says that a
record is decoded from exactly the bytes it is encoded to.
-/

namespace Akasha

open Lib List

/-! ## Encoding -/

def pointHeaderBytes : Nat := 40

/-- `field_at(ordinal_for(id))`. -/
def recordField (catalog : FieldCatalog) (id : Nat) : Except String VectorFieldSpec :=
  match catalog.specFor id with
  | some spec => pure spec
  | none => throw "vector field ordinal out of bounds"

/-- The first loop of `encode_point_record`: the length of the record, within the limit. -/
def recordLength (catalog : FieldCatalog) : Nat → List PointField → Except String Nat
  | total, [] => pure total
  | total, field :: fields => do
      let spec ← recordField catalog field.id
      let size ← vectorValueSize field.value spec
      require (¬ (total : Int) > maxPointRecordBytes - 8 - size) "point record exceeds size limit"
      recordLength catalog (total + (8 + size)) fields

/-- One round of the second loop. -/
def encodePointField (catalog : FieldCatalog) (field : PointField) :
    Except String (List UInt8) := do
  let spec ← recordField catalog field.id
  let body ← encodeVectorValue field.value spec
  pure (leBytes 4 field.id ++ (leBytes 4 body.length ++ body))

/-- The payload of a live point; a tombstone has none. -/
def encodeRecordPayload (point : PointState) : Except String (List UInt8) :=
  if point.tombstone then pure []
  else
    match point.payload with
    | some payload => encodePayload payload
    | none => throw "point has no payload owner"

/-- `encode_point_record`. -/
def encodePointRecord (point : PointState) (catalog : FieldCatalog) :
    Except String (List UInt8) := do
  point.validate catalog
  let payload ← encodeRecordPayload point
  let total ← recordLength catalog (pointHeaderBytes + payload.length) point.fields
  let bodies ← point.fields.mapM (encodePointField catalog)
  pure (leBytes 4 total ++ (leBytes 1 (if point.tombstone then 2 else 1) ++ (leBytes 1 0 ++
    (leBytes 2 0 ++ (i64Bytes point.id ++ (leBytes 8 point.sequence ++
      (leBytes 8 point.documentSequence ++ (leBytes 4 point.fields.length ++
        (leBytes 4 payload.length ++ (payload ++ bodies.flatten))))))))))

/-! ## Decoding -/

/-- What stands before the payload. -/
structure PointRecordHeader where
  state : Nat
  id : Int64
  sequence : Nat
  documentSequence : Nat
  count : Nat
  payloadLength : Nat

/-- The header of `decode_point_record`. -/
def readRecordHeader (size : Nat) (catalog : FieldCatalog) : Reader PointRecordHeader := do
  let length ← readU32
  check (length = size) "point record length mismatch"
  let state ← readU8
  check (state = 1 ∨ state = 2) "unknown point state"
  let flags ← readU8
  let reserved ← readU16
  check (flags = 0 ∧ reserved = 0) "point record has unknown flags or reserved bytes"
  let id ← readI64
  let sequence ← readUnsigned 8
  let documentSequence ← readUnsigned 8
  check (catalog.formatVersion = 2 ∧ sequence ≠ 0 ∧ catalog.legacyCutoverSequence ≤ sequence ∧
    documentSequence ≤ sequence) "invalid point catalog or sequence"
  let count ← readU32
  let payloadLength ← readU32
  check (count ≤ maxVectorFields ∧ payloadLength ≤ maxPayloadBytes)
    "point field count or payload exceeds bounds"
  pure ⟨state, id, sequence, documentSequence, count, payloadLength⟩

/-- The field of a body that follows another. -/
def nextRecordField (catalog : FieldCatalog) (previous : Option Nat) (id : Nat) :
    Except String VectorFieldSpec :=
  match catalog.specFor id with
  | none => throw "point fields must be known, unique and sorted"
  | some spec => do
      require (∀ earlier ∈ previous, earlier < id) "point fields must be known, unique and sorted"
      pure spec

/-- The loop over the fields. -/
def readPointFields (catalog : FieldCatalog) : Nat → Option Nat → Reader (List PointField)
  | 0, _ => pure []
  | count + 1, previous => do
      let id ← readU32
      let length ← readU32
      let spec ← ofResult (nextRecordField catalog previous id)
      let body ← readSpan length
      let value ← ofResult (decodeVectorValue body spec)
      let fields ← readPointFields catalog count (some id)
      pure (⟨id, value⟩ :: fields)

/-- The rest of the record of a tombstone. -/
def readTombstone (catalog : FieldCatalog) (header : PointRecordHeader) : Reader PointState := do
  let left ← remaining
  check (header.count = 0 ∧ header.payloadLength = 0 ∧ header.documentSequence = 0 ∧ left = 0)
    "tombstone cannot contain fields or payload"
  let point := PointState.deleted header.id header.sequence
  ofResult (point.validate catalog)
  pure point

/-- The rest of the record of a live point. -/
def readLivePoint (catalog : FieldCatalog) (header : PointRecordHeader) : Reader PointState := do
  let payloadBytes ← readSpan header.payloadLength
  let payload ← ofResult (decodePayload payloadBytes)
  let left ← remaining
  check (¬ header.count > left / 8) "truncated point field descriptors"
  let fields ← readPointFields catalog header.count none
  let left ← remaining
  check (left = 0) "unexpected trailing point bytes"
  let point := PointState.live header.id header.sequence header.documentSequence fields payload
  ofResult (point.validate catalog)
  pure point

/-- `decode_point_record`, within the bounds of the length. -/
def readPointRecord (size : Nat) (catalog : FieldCatalog) : Reader PointState := do
  let header ← readRecordHeader size catalog
  if header.state = 2 then readTombstone catalog header else readLivePoint catalog header

/-- `decode_point_record`. -/
def decodePointRecord (bytes : List UInt8) (catalog : FieldCatalog) : Except String PointState := do
  require (¬ (bytes.length < pointHeaderBytes ∨ bytes.length > maxPointRecordBytes))
    "point record length exceeds bounds"
  let (point, _) ← readPointRecord bytes.length catalog bytes
  pure point

/-! ## Fields -/

/-- One field of a record. -/
def pointFieldBytes (field : PointField) : List UInt8 :=
  leBytes 4 field.id ++ (leBytes 4 field.value.bytes.length ++ field.value.bytes)

/-- A field that its constructors made and whose body is within the limit. -/
structure PointField.Encodable (field : PointField) : Prop where
  constructed : field.value.Constructed
  length_le : field.value.bytes.length ≤ maxPointRecordBytes

section

variable {catalog : FieldCatalog}

variable {spec : VectorFieldSpec} {previous : Option Nat}

theorem next_record_field_ok {id : Nat} :
    nextRecordField catalog previous id = .ok spec ↔
      catalog.specFor id = some spec ∧ ∀ earlier ∈ previous, earlier < id := by
  unfold nextRecordField
  cases catalog.specFor id with
  | none => exact ⟨nofun, nofun⟩
  | some found =>
      simp only [bind_ok, exists_unit, require_ok, pure_ok, Option.some.injEq]
      exact and_comm

variable {fields : List PointField}

theorem validate_point_fields_cons {field : PointField} :
    PointState.validateFields catalog previous (field :: fields) = .ok () ↔
      ∃ spec, catalog.specFor field.id = some spec ∧ (∀ earlier ∈ previous, earlier < field.id) ∧
        field.value.validate spec = .ok () ∧
          PointState.validateFields catalog (some field.id) fields = .ok () := by
  rw [PointState.validateFields]
  cases catalog.specFor field.id with
  | none =>
      refine ⟨by intros; contradiction, ?_⟩
      rintro ⟨spec, hspec, -⟩
      cases hspec
  | some spec =>
      simp only [bind_ok, exists_unit, require_ok, Option.some.injEq, exists_eq_left']

/-- The loop returns sorted fields of the catalog from their bytes. -/
theorem read_point_fields_iff {count : Nat} {bytes rest : List UInt8} :
    readPointFields catalog count previous bytes = .ok (fields, rest) ↔
      fields.length = count ∧ PointState.validateFields catalog previous fields = .ok () ∧
        (∀ field ∈ fields, field.Encodable) ∧ bytes = fields.flatMap pointFieldBytes ++ rest := by
  induction count generalizing previous bytes fields with
  | zero =>
      rw [readPointFields, reader_pure_ok, Prod.mk.injEq]
      constructor
      · rintro ⟨rfl, rfl⟩
        exact ⟨rfl, rfl, nofun, rfl⟩
      · rintro ⟨hlength, -, -, hbytes⟩
        obtain rfl := length_eq_zero_iff.1 hlength
        exact ⟨rfl, hbytes⟩
  | succ count ih =>
      rw [readPointFields]
      simp only [exact_u32.bind_ok, of_result_bind_ok, (exact_span _).bind_ok,
        next_record_field_ok, decode_vector_iff]
      constructor
      · rintro ⟨fieldId, -, r1, rfl, length, -, r2, rfl, spec, ⟨hspec, hprevious⟩, body, rfl, r3, rfl, value,
          ⟨hconstructed, hencode⟩, hrest⟩
        obtain ⟨later, r4, hlater, rfl, rfl⟩ := reader_bind_ok.1 hrest
        obtain ⟨hvalidate, hbody, rfl⟩ := (encode_vector_iff hconstructed).1 hencode
        obtain ⟨rfl, hvalid, hencodable, rfl⟩ := ih.1 hlater
        refine ⟨rfl, validate_point_fields_cons.2 ⟨spec, hspec, hprevious, hvalidate, hvalid⟩,
          forall_mem_cons.2 ⟨⟨hconstructed, hbody⟩, hencodable⟩, ?_⟩
        simp only [pointFieldBytes, flatMap_cons, append_assoc, id]
      · rintro ⟨hlength, hvalid, hencodable, rfl⟩
        cases fields with
        | nil => cases hlength
        | cons field fields =>
            obtain ⟨spec, hspec, hprevious, hvalidate, hvalid⟩ := validate_point_fields_cons.1 hvalid
            obtain ⟨hfield, hencodable⟩ := forall_mem_cons.1 hencodable
            have hid : field.id < 2 ^ 32 := FieldCatalog.spec_id_lt hspec
            have hbody : field.value.bytes.length < 2 ^ 32 :=
              Nat.lt_of_le_of_lt hfield.length_le (by decide)
            simp only [pointFieldBytes, flatMap_cons, append_assoc]
            refine ⟨_, hid, _, rfl, _, hbody, _, rfl, spec, ⟨hspec, hprevious⟩, _, rfl, _, rfl, _,
              ⟨hfield.constructed, (encode_vector_iff hfield.constructed).2
                ⟨hvalidate, hfield.length_le, rfl⟩⟩, ?_⟩
            exact reader_bind_ok.2 ⟨fields, rest, ih.2 ⟨Nat.succ.inj hlength, hvalid, hencodable, rfl⟩,
              rfl⟩

/-! ## Encoders -/

theorem record_field_ok {id : Nat} :
    recordField catalog id = .ok spec ↔ catalog.specFor id = some spec := by
  unfold recordField
  cases catalog.specFor id with
  | none => exact ⟨nofun, nofun⟩
  | some found => rw [pure_ok, Option.some.injEq]

theorem length_point_field (field : PointField) :
    (pointFieldBytes field).length = 8 + field.value.bytes.length := by
  simp only [pointFieldBytes, length_append, length_le_bytes]
  omega

/-- The size of a value of the catalog is the length of its body. -/
theorem vector_value_size_ok {value : VectorValue} (hconstructed : value.Constructed) {size : Nat} :
    vectorValueSize value spec = .ok size ↔
      value.validate spec = .ok () ∧ value.bytes.length ≤ maxPointRecordBytes ∧
        size = value.bytes.length := by
  have hencode : encodeVectorValue value spec = .ok value.bytes ↔ _ :=
    encode_vector_iff hconstructed
  unfold encodeVectorValue at hencode
  simp only [bind_ok, pure_ok, and_true] at hencode
  constructor
  · intro h
    obtain ⟨hvalidate, hlength⟩ := hencode.1 ⟨size, h⟩
    simp only [vectorValueSize, bind_ok, require_ok, exists_unit, pure_ok] at h
    obtain ⟨-, found, hbody, -, rfl⟩ := h
    exact ⟨hvalidate, hlength, (length_vector_bytes hconstructed hbody).symm⟩
  · rintro ⟨hvalidate, hlength, rfl⟩
    obtain ⟨size, hsize⟩ := hencode.2 ⟨hvalidate, hlength⟩
    have hbody := hsize
    simp only [vectorValueSize, bind_ok, require_ok, exists_unit, pure_ok] at hbody
    obtain ⟨-, found, hbody, -, rfl⟩ := hbody
    rw [length_vector_bytes hconstructed hbody]
    exact hsize

/-- The length of a record is the sum of its parts, within the limit. -/
theorem record_length_ok {total length : Nat}
    (hconstructed : ∀ field ∈ fields, field.value.Constructed)
    (hfits : ∀ field ∈ fields, FitsField catalog field.id field.value)
    (htotal : total ≤ maxPointRecordBytes) :
    recordLength catalog total fields = .ok length ↔
      length = total + (fields.flatMap pointFieldBytes).length ∧ length ≤ maxPointRecordBytes := by
  induction fields generalizing total with
  | nil =>
      rw [recordLength, pure_ok, flatMap_nil, length_nil, Nat.add_zero]
      constructor
      · rintro rfl
        exact ⟨rfl, htotal⟩
      · exact fun h => h.1.symm
  | cons field fields ih =>
      obtain ⟨hfield, hconstructed⟩ := forall_mem_cons.1 hconstructed
      obtain ⟨⟨spec, hspec, hvalidate⟩, hfits⟩ := forall_mem_cons.1 hfits
      rw [recordLength, flatMap_cons, length_append, length_point_field]
      simp only [bind_ok, exists_unit, require_ok, record_field_ok, hspec, Option.some.injEq,
        exists_eq_left', vector_value_size_ok hfield]
      constructor
      · rintro ⟨size, ⟨-, hsize, rfl⟩, hroom, hrest⟩
        obtain ⟨hlength, hle⟩ := (ih hconstructed hfits (by omega)).1 hrest
        exact ⟨by omega, hle⟩
      · rintro ⟨rfl, hle⟩
        refine ⟨_, ⟨hvalidate, by omega, rfl⟩, by omega, ?_⟩
        exact (ih hconstructed hfits (by omega)).2 ⟨by omega, by omega⟩

theorem encode_point_fields_ok {bodies : List (List UInt8)}
    (hconstructed : ∀ field ∈ fields, field.value.Constructed)
    (hfits : ∀ field ∈ fields, FitsField catalog field.id field.value) :
    fields.mapM (encodePointField catalog) = .ok bodies ↔
      (∀ field ∈ fields, field.value.bytes.length ≤ maxPointRecordBytes) ∧
        bodies = fields.map pointFieldBytes := by
  refine map_m_iff fun field hfield body => ?_
  obtain ⟨spec, hspec, hvalidate⟩ := hfits field hfield
  unfold encodePointField
  simp only [bind_ok, record_field_ok, hspec, Option.some.injEq, exists_eq_left',
    encode_vector_iff (hconstructed field hfield), pure_ok]
  constructor
  · rintro ⟨_, ⟨-, hlength, rfl⟩, rfl⟩
    exact ⟨hlength, rfl⟩
  · rintro ⟨hlength, rfl⟩
    exact ⟨_, ⟨hvalidate, hlength, rfl⟩, rfl⟩

/-- The bytes of a record with this payload. -/
def recordBytes (point : PointState) (payload : List UInt8) : List UInt8 :=
  leBytes 4 (pointHeaderBytes + payload.length + (point.fields.flatMap pointFieldBytes).length) ++
    (leBytes 1 (if point.tombstone then 2 else 1) ++ (leBytes 1 0 ++ (leBytes 2 0 ++
      (i64Bytes point.id ++ (leBytes 8 point.sequence ++ (leBytes 8 point.documentSequence ++
        (leBytes 4 point.fields.length ++ (leBytes 4 payload.length ++ (payload ++
          point.fields.flatMap pointFieldBytes)))))))))

theorem length_record_bytes (point : PointState) (payload : List UInt8) :
    (recordBytes point payload).length =
      pointHeaderBytes + payload.length + (point.fields.flatMap pointFieldBytes).length := by
  simp only [recordBytes, i64Bytes, length_append, length_le_bytes, pointHeaderBytes]
  omega

/-- A point whose parts their constructors made, with a sequence of 64 bits. -/
structure PointState.Constructed (point : PointState) : Prop where
  sequence : point.sequence < 2 ^ 64
  values : ∀ field ∈ point.fields, field.value.Constructed
  payload : ∀ payload ∈ point.payload, ∀ field ∈ payload, field.value.Valid

variable {point : PointState}

theorem record_payload_length {payload : List UInt8} (h : encodeRecordPayload point = .ok payload) :
    payload.length ≤ maxPayloadBytes := by
  unfold encodeRecordPayload at h
  split at h
  · obtain rfl := pure_ok.1 h
    exact Nat.zero_le _
  · split at h
    · exact encode_payload_length h
    · cases h

theorem point_fields_validated (h : point.validate catalog = .ok ()) :
    PointState.validateFields catalog none point.fields = .ok () := by
  rw [validate_point_fields_ok]
  rcases (point_validate_ok.1 h).content with hlive | hdead
  · exact ⟨hlive.fields_fit, hlive.fields_sorted, nofun⟩
  · rw [hdead.fields_eq]
    exact ⟨nofun, List.Pairwise.nil, nofun⟩

theorem point_fields_fit (h : point.validate catalog = .ok ()) :
    ∀ field ∈ point.fields, FitsField catalog field.id field.value :=
  (validate_point_fields_ok.1 (point_fields_validated h)).1

theorem body_length_le {field : PointField} (h : field ∈ point.fields) :
    field.value.bytes.length ≤ (point.fields.flatMap pointFieldBytes).length := by
  have hpart := (List.sublist_flatten_of_mem (List.mem_map_of_mem (f := pointFieldBytes) h)).length_le
  rw [length_point_field] at hpart
  exact (Nat.le_add_left _ _).trans hpart

variable {bytes : List UInt8}

/-- The encoder accepts the valid points whose record is within the limit. -/
theorem encode_record_iff (h : point.Constructed) :
    encodePointRecord point catalog = .ok bytes ↔
      point.validate catalog = .ok () ∧ ∃ payload, encodeRecordPayload point = .ok payload ∧
        bytes = recordBytes point payload ∧ bytes.length ≤ maxPointRecordBytes := by
  unfold encodePointRecord
  simp only [bind_ok, exists_unit, pure_ok]
  refine and_congr_right fun hvalid => exists_congr fun payload => and_congr_right fun hpayload => ?_
  have hsmall : pointHeaderBytes + payload.length ≤ maxPointRecordBytes :=
    (Nat.add_le_add_left (record_payload_length hpayload) _).trans (by decide)
  have hfits := point_fields_fit hvalid
  simp only [record_length_ok h.values hfits hsmall, encode_point_fields_ok h.values hfits]
  constructor
  · rintro ⟨total, ⟨rfl, hle⟩, _, ⟨-, rfl⟩, rfl⟩
    exact ⟨rfl, (length_record_bytes point payload).trans_le hle⟩
  · rintro ⟨rfl, hle⟩
    rw [length_record_bytes] at hle
    refine ⟨_, ⟨rfl, hle⟩, _, ⟨fun field hfield => ?_, rfl⟩, rfl⟩
    have hpart := body_length_le hfield
    omega

/-! ## The decoder -/

def headerBytes (size : Nat) (header : PointRecordHeader) : List UInt8 :=
  leBytes 4 size ++ (leBytes 1 header.state ++ (leBytes 1 0 ++ (leBytes 2 0 ++
    (i64Bytes header.id ++ (leBytes 8 header.sequence ++ (leBytes 8 header.documentSequence ++
      (leBytes 4 header.count ++ leBytes 4 header.payloadLength)))))))

/-- What the header of a record says and its widths. -/
structure HeaderOk (size : Nat) (catalog : FieldCatalog) (header : PointRecordHeader) : Prop where
  size_lt : size < 2 ^ 32
  state : header.state = 1 ∨ header.state = 2
  sequence_lt : header.sequence < 2 ^ 64
  version : catalog.formatVersion = 2 ∧ header.sequence ≠ 0 ∧
    catalog.legacyCutoverSequence ≤ header.sequence ∧ header.documentSequence ≤ header.sequence
  bounds : header.count ≤ maxVectorFields ∧ header.payloadLength ≤ maxPayloadBytes

theorem exact_record_header (size : Nat) :
    Exact (readRecordHeader size catalog) (HeaderOk size catalog) (headerBytes size) := by
  intro bytes header rest
  unfold readRecordHeader
  simp only [exact_u32.bind_ok, exact_u16.bind_ok, exact_u8.bind_ok, exact_i64.bind_ok,
    (exact_unsigned 8).bind_ok, check_bind_ok, reader_pure_ok, Prod.mk.injEq]
  constructor
  · rintro ⟨_, hsize, r1, rfl, rfl, state, -, r2, rfl, hstate, flags, -, r3, rfl, reserved, -, r4, rfl,
      ⟨rfl, rfl⟩, id, -, r5, rfl, sequence, hsequence, r6, rfl, document, -, r7, rfl, hversion, count,
      -, r8, rfl, length, -, r9, rfl, hbounds, rfl, rfl⟩
    refine ⟨⟨hsize, hstate, hsequence, hversion, hbounds⟩, ?_⟩
    simp only [headerBytes, append_assoc]
  · rintro ⟨⟨hsize, hstate, hsequence, hversion, hbounds⟩, rfl⟩
    simp only [headerBytes, append_assoc]
    have hcount : header.count < 2 ^ 32 := Nat.lt_of_le_of_lt hbounds.1 (by decide)
    have hlength : header.payloadLength < 2 ^ 32 := Nat.lt_of_le_of_lt hbounds.2 (by decide)
    exact ⟨_, hsize, _, rfl, rfl, _, by omega, _, rfl, hstate, 0, by decide, _, rfl, 0, by decide, _,
      rfl, ⟨rfl, rfl⟩, _, trivial, _, rfl, _, hsequence, _, rfl, _,
      Nat.lt_of_le_of_lt hversion.2.2.2 hsequence, _, rfl, hversion, _, hcount, _, rfl, _, hlength, _,
      rfl, hbounds, rfl, rfl⟩

/-- The header of the record of a point. -/
def recordHeader (point : PointState) (payloadLength : Nat) : PointRecordHeader :=
  ⟨if point.tombstone then 2 else 1, point.id, point.sequence, point.documentSequence,
    point.fields.length, payloadLength⟩

theorem record_bytes_eq (point : PointState) (payload : List UInt8) :
    recordBytes point payload = headerBytes (recordBytes point payload).length
      (recordHeader point payload.length) ++ (payload ++ point.fields.flatMap pointFieldBytes) := by
  rw [length_record_bytes]
  simp only [recordBytes, headerBytes, recordHeader, append_assoc]

theorem length_header_bytes (size : Nat) (header : PointRecordHeader) :
    (headerBytes size header).length = pointHeaderBytes := by
  simp only [headerBytes, i64Bytes, length_append, length_le_bytes]
  rfl

theorem record_bytes_of_header {payload bytes : List UInt8}
    (h : bytes = headerBytes bytes.length (recordHeader point payload.length) ++
      (payload ++ point.fields.flatMap pointFieldBytes)) : bytes = recordBytes point payload := by
  have hlength : bytes.length = (recordBytes point payload).length := by
    rw [h, length_record_bytes, length_append, length_header_bytes, length_append]
    omega
  rw [record_bytes_eq, ← hlength]
  exact h

theorem record_header_ok {payload : List UInt8} (hconstructed : point.Constructed)
    (hvalid : point.validate catalog = .ok ())
    (hpayload : encodeRecordPayload point = .ok payload) {size : Nat}
    (hsize : size ≤ maxPointRecordBytes) :
    HeaderOk size catalog (recordHeader point payload.length) := by
  have h := point_validate_ok.1 hvalid
  have hcount : point.fields.length ≤ maxVectorFields :=
    fields_length_le (validate_point_fields_ok.1 (point_fields_validated hvalid)).2.1
      (point_fields_fit hvalid)
  refine ⟨Nat.lt_of_le_of_lt hsize (by decide), ?_, hconstructed.sequence,
    ⟨h.version_eq, h.sequence_pos, h.cutover_le, h.document_le⟩, hcount,
    record_payload_length hpayload⟩
  cases hcase : point.tombstone <;> simp [recordHeader, hcase]

theorem read_tombstone_ok {header : PointRecordHeader} {bytes rest : List UInt8} :
    readTombstone catalog header bytes = .ok (point, rest) ↔
      (header.count = 0 ∧ header.payloadLength = 0 ∧ header.documentSequence = 0 ∧ bytes = []) ∧
        point.validate catalog = .ok () ∧ point = .deleted header.id header.sequence ∧ rest = [] := by
  unfold readTombstone
  simp only [remaining_bind_ok, check_bind_ok, of_result_bind_ok, exists_unit, reader_pure_ok,
    Prod.mk.injEq, length_eq_zero_iff]
  constructor
  · rintro ⟨⟨hcount, hpayload, hdocument, rfl⟩, hvalid, rfl, rfl⟩
    exact ⟨⟨hcount, hpayload, hdocument, rfl⟩, hvalid, rfl, rfl⟩
  · rintro ⟨⟨hcount, hpayload, hdocument, rfl⟩, hvalid, rfl, rfl⟩
    exact ⟨⟨hcount, hpayload, hdocument, rfl⟩, hvalid, rfl, rfl⟩

/-- A live point is read from its payload and its fields. -/
theorem read_live_ok {header : PointRecordHeader} {bytes rest : List UInt8} :
    readLivePoint catalog header bytes = .ok (point, rest) ↔
      ∃ payload encoded, (∀ field ∈ payload, field.value.Valid) ∧
        encodePayload payload = .ok encoded ∧ encoded.length = header.payloadLength ∧
        point = .live header.id header.sequence header.documentSequence point.fields payload ∧
        point.fields.length = header.count ∧ (∀ field ∈ point.fields, field.Encodable) ∧
        point.validate catalog = .ok () ∧
        bytes = encoded ++ point.fields.flatMap pointFieldBytes ∧ rest = [] := by
  unfold readLivePoint
  simp only [(exact_span _).bind_ok, remaining_bind_ok, check_bind_ok, of_result_bind_ok,
    decode_payload_iff]
  constructor
  · rintro ⟨encoded, hlength, r1, rfl, payload, ⟨hpayload, hencode⟩, -, h⟩
    obtain ⟨fields, left, hfields, h⟩ := reader_bind_ok.1 h
    simp only [remaining_bind_ok, check_bind_ok, of_result_bind_ok, exists_unit, reader_pure_ok,
      Prod.mk.injEq] at h
    obtain ⟨hempty, hvalid, rfl, rfl⟩ := h
    obtain rfl := length_eq_zero_iff.1 hempty
    obtain ⟨hcount, -, hencodable, rfl⟩ := read_point_fields_iff.1 hfields
    exact ⟨payload, encoded, hpayload, hencode, hlength, rfl, hcount, hencodable, hvalid,
      by rw [List.append_nil]; rfl, rfl⟩
  · rintro ⟨payload, encoded, hpayload, hencode, hlength, hpoint, hcount, hencodable, hvalid, rfl, rfl⟩
    have hroom : ¬ header.count > (point.fields.flatMap pointFieldBytes).length / 8 := by
      have hge := length_flat_map_ge fun field (_ : field ∈ point.fields) =>
        (length_point_field field).symm ▸ Nat.le_add_right 8 field.value.bytes.length
      rw [Nat.not_lt, ← hcount, Nat.le_div_iff_mul_le (by decide)]
      exact hge
    have hfields : readPointFields catalog header.count none
        (point.fields.flatMap pointFieldBytes) = .ok (point.fields, []) := by
      exact read_point_fields_iff.2 ⟨hcount, point_fields_validated hvalid, hencodable,
        (List.append_nil _).symm⟩
    refine ⟨encoded, hlength, _, rfl, payload, ⟨hpayload, hencode⟩, hroom,
      reader_bind_ok.2 ⟨_, _, hfields, ?_⟩⟩
    simp only [remaining_bind_ok, check_bind_ok, of_result_bind_ok, exists_unit, reader_pure_ok,
      Prod.mk.injEq]
    rw [← hpoint]
    exact ⟨rfl, hvalid, rfl, trivial⟩

/-- What was decoded is encoded to the same bytes. -/
theorem encode_decoded_record (h : decodePointRecord bytes catalog = .ok point) :
    point.Constructed ∧ encodePointRecord point catalog = .ok bytes := by
  unfold decodePointRecord readPointRecord at h
  simp only [bind_ok, exists_unit, require_ok, pure_ok, Prod.exists,
    (exact_record_header _).bind_ok] at h
  obtain ⟨hsize, found, rest, ⟨header, hheader, tail, hbytes, hread⟩, rfl⟩ := h
  rw [not_or, Nat.not_lt, gt_iff_lt, Nat.not_lt] at hsize
  split at hread
  · next hstate =>
    obtain ⟨⟨hcount, hpayload, hdocument, rfl⟩, hvalid, rfl, -⟩ := read_tombstone_ok.1 hread
    have hconstructed : (PointState.deleted header.id header.sequence).Constructed :=
      ⟨hheader.sequence_lt, (by intros; contradiction), (by intros; contradiction)⟩
    refine ⟨hconstructed, (encode_record_iff hconstructed).2 ⟨hvalid, [], rfl,
      record_bytes_of_header ?_, hsize.2⟩⟩
    have heq : recordHeader (.deleted header.id header.sequence) 0 = header := by
      obtain ⟨state, id, sequence, document, count, length⟩ := header
      obtain rfl : state = 2 := hstate
      obtain rfl : count = 0 := hcount
      obtain rfl : length = 0 := hpayload
      obtain rfl : document = 0 := hdocument
      rfl
    rw [List.length_nil, heq]
    exact hbytes
  · next hstate =>
    obtain ⟨payload, encoded, hpayload, hencode, hlength, hpoint, hcount, hencodable, hvalid, rfl,
      -⟩ := read_live_ok.1 hread
    have hconstructed : found.Constructed := by
      refine ⟨?_, fun field hfield => (hencodable field hfield).constructed, ?_⟩
      · rw [hpoint]
        exact hheader.sequence_lt
      · rw [hpoint]
        intro other hother
        obtain rfl := Option.some.inj hother
        exact hpayload
    have hrecord : encodeRecordPayload found = .ok encoded := by
      rw [hpoint]
      exact hencode
    refine ⟨hconstructed, (encode_record_iff hconstructed).2 ⟨hvalid, encoded, hrecord,
      record_bytes_of_header ?_, hsize.2⟩⟩
    have heq : recordHeader found encoded.length = header := by
      have hone : header.state = 1 := hheader.state.resolve_right hstate
      obtain ⟨state, id, sequence, document, count, length⟩ := header
      obtain rfl : state = 1 := hone
      rw [recordHeader, hlength, hcount, hpoint]
      rfl
    rw [heq]
    exact hbytes

/-- What was encoded is decoded again. -/
theorem decode_encoded_record (hconstructed : point.Constructed)
    (h : encodePointRecord point catalog = .ok bytes) :
    decodePointRecord bytes catalog = .ok point := by
  obtain ⟨hvalid, payload, hpayload, rfl, hle⟩ := (encode_record_iff hconstructed).1 h
  have hheader := record_header_ok hconstructed hvalid hpayload hle
  have hlow : pointHeaderBytes ≤ (recordBytes point payload).length := by
    rw [length_record_bytes, Nat.add_assoc]
    exact Nat.le_add_right _ _
  unfold decodePointRecord readPointRecord
  simp only [bind_ok, exists_unit, require_ok, pure_ok, Prod.exists,
    (exact_record_header _).bind_ok]
  refine ⟨not_or.2 ⟨Nat.not_lt.2 hlow, Nat.not_lt.2 hle⟩, point, [], ⟨_, hheader, _,
    record_bytes_eq point payload, ?_⟩, rfl⟩
  rcases (point_validate_ok.1 hvalid).content with hlive | hdead
  · obtain ⟨fields, hfields, -⟩ := hlive.payload_ok
    have hstate : (recordHeader point payload.length).state ≠ 2 := by
      simp [recordHeader, hlive.tombstone_eq]
    have hencode : encodePayload fields = .ok payload := by
      unfold encodeRecordPayload at hpayload
      rwa [if_neg (by rw [hlive.tombstone_eq]; exact Bool.false_ne_true), hfields] at hpayload
    have hpoint : point = .live point.id point.sequence point.documentSequence point.fields fields := by
      obtain ⟨id, sequence, document, tombstone, stored, owner⟩ := point
      obtain rfl : tombstone = false := hlive.tombstone_eq
      obtain rfl : owner = some fields := hfields
      rfl
    rw [if_neg hstate]
    refine read_live_ok.2 ⟨fields, payload, hconstructed.payload fields hfields, hencode, rfl, hpoint,
      rfl, fun field hfield => ⟨hconstructed.values field hfield, ?_⟩, hvalid, rfl, rfl⟩
    have hbody := body_length_le hfield
    rw [length_record_bytes] at hle
    omega
  · have hstate : (recordHeader point payload.length).state = 2 := by
      simp [recordHeader, hdead.tombstone_eq]
    have hempty : payload = [] := by
      unfold encodeRecordPayload at hpayload
      rw [if_pos hdead.tombstone_eq] at hpayload
      exact (pure_ok.1 hpayload).symm
    have hpoint : point = .deleted point.id point.sequence := by
      obtain ⟨id, sequence, document, tombstone, stored, owner⟩ := point
      obtain rfl : tombstone = true := hdead.tombstone_eq
      obtain rfl : document = 0 := hdead.document_eq
      obtain rfl : stored = [] := hdead.fields_eq
      obtain rfl : owner = none := hdead.payload_eq
      rfl
    rw [if_pos hstate, hempty, hdead.fields_eq]
    refine read_tombstone_ok.2 ⟨⟨?_, rfl, hdead.document_eq, rfl⟩, hvalid, hpoint, rfl⟩
    show point.fields.length = 0
    rw [hdead.fields_eq, length_nil]

theorem decode_record_iff :
    decodePointRecord bytes catalog = .ok point ↔
      point.Constructed ∧ encodePointRecord point catalog = .ok bytes :=
  ⟨encode_decoded_record, fun h => decode_encoded_record h.1 h.2⟩

end

/-- Under every catalog, decoding the record of a point gives the point back, and a decoded record
is what its point is encoded to. -/
theorem point_record_round_trip (catalog : FieldCatalog) (point : PointState)
    (bytes : List UInt8) :
    (point.Constructed → encodePointRecord point catalog = .ok bytes →
      decodePointRecord bytes catalog = .ok point) ∧
    (decodePointRecord bytes catalog = .ok point → encodePointRecord point catalog = .ok bytes) :=
  ⟨decode_encoded_record, fun h => (encode_decoded_record h).2⟩

/-- The two default fields under revision 1. -/
def twoFields : FieldCatalog where
  formatVersion := 2
  schemaRevision := 1
  legacyCutoverSequence := 0
  fields := [⟨0, "", 0, 0, 1, 1, 2, some (CollectionConfig.defaults 2)⟩,
    ⟨1, "", 1, 0, 0, 2, 0, none⟩]
  valid := by decide

/-- A point with both default vectors and a payload. -/
def fullPoint : PointState :=
  .live 7 3 2 [⟨0, .dense (.f32 [⟨0x3F800000⟩, ⟨0⟩])⟩, ⟨1, .sparse [⟨4, ⟨0x40000000⟩⟩]⟩]
    [⟨"kind", .string "note"⟩]

theorem point_record_round_trip_full : ∃ bytes,
    encodePointRecord fullPoint twoFields = .ok bytes ∧
      decodePointRecord bytes twoFields = .ok fullPoint := by
  have hencode : ∃ bytes, encodePointRecord fullPoint twoFields = .ok bytes := by
    have hok : (encodePointRecord fullPoint twoFields).isOk = true := by decide +kernel
    cases hcase : encodePointRecord fullPoint twoFields with
    | ok bytes => exact ⟨bytes, rfl⟩
    | error e => rw [hcase] at hok; cases hok
  obtain ⟨bytes, hencode⟩ := hencode
  have hconstructed : fullPoint.Constructed := by
    refine ⟨by decide, ?_, ?_⟩
    · unfold VectorValue.Constructed
      decide +kernel
    · intro payload hpayload
      obtain rfl := Option.some.inj hpayload
      decide
  exact ⟨bytes, hencode, (point_record_round_trip twoFields fullPoint bytes).1 hconstructed hencode⟩

end Akasha

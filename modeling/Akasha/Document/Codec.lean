import Akasha.Storage.BinaryReader

/-!
# Payload format v1

`encodePayload` writes the payload of a document as `document/codec.mojo` does, and
`encode_payload_ok` says exactly which fields it accepts and how long the result is.
`decodePayload` reads it back.
-/

namespace Akasha

open Lib PayloadValue List

/-- The most fields a payload may have. -/
def maxPayloadFields : Nat := 1024

/-- The most bytes an encoded payload may have. -/
def maxPayloadBytes : Nat := 16 * 1024 * 1024

/-- The kind byte and the value bytes of one field. -/
def encodePayloadValue : PayloadValue → Except String (List UInt8)
  | .string value => do
      require ((utf8Bytes value).length < 2 ^ 32) "payload string exceeds format limit"
      pure (1 :: leBytes 4 (utf8Bytes value).length ++ utf8Bytes value)
  | .integer value => pure (2 :: leBytes 8 value.toUInt64.toNat)
  | .floating value => pure (3 :: leBytes 8 value.bits.toNat)
  | .boolean value => pure [4, if value then 1 else 0]

/-- The bytes of one field: its name length, name, kind and value. -/
def encodePayloadField (field : DocumentField) : Except String (List UInt8) := do
  require ((utf8Bytes field.name).length < 2 ^ 16) "payload field name exceeds limit"
  let value ← encodePayloadValue field.value
  pure (leBytes 2 (utf8Bytes field.name).length ++ utf8Bytes field.name ++ value)

/-- The bytes of the fields in order. -/
def encodePayloadFields : List DocumentField → Except String (List UInt8)
  | [] => pure []
  | field :: fields => do
      let first ← encodePayloadField field
      let rest ← encodePayloadFields fields
      pure (first ++ rest)

/-- `encode_payload`: the field count, then each field in order, within the format's limits. -/
def encodePayload (fields : List DocumentField) : Except String (List UInt8) := do
  require (fields.length ≤ maxPayloadFields) "payload field count exceeds limit"
  validateFields fields
  let encoded ← encodePayloadFields fields
  require (4 + encoded.length ≤ maxPayloadBytes) "encoded payload exceeds size limit"
  pure (leBytes 4 fields.length ++ encoded)

/-! ## What the encoder accepts -/

theorem validate_field_name_ok {name : String} {u : Unit} :
    validateFieldName name = .ok u ↔ (utf8Bytes name).length ≠ 0 ∧ 0 ∉ utf8Bytes name := by
  unfold validateFieldName
  simp only [bind_ok, require_ok, exists_unit]

variable {fields : List DocumentField}

theorem validate_fields_after_ok {previous : List String} {u : Unit} :
    validateFieldsAfter previous fields = .ok u ↔
      (∀ field ∈ fields, validateFieldName field.name = .ok ()) ∧
        (∀ field ∈ fields, field.name ∉ previous) ∧ (fields.map (·.name)).Nodup := by
  induction fields generalizing previous with
  | nil => simp [validateFieldsAfter]
  | cons field fields ih =>
      simp only [validateFieldsAfter, bind_ok, require_ok, exists_unit, ih,
        mem_append, mem_singleton, not_or, forall_mem_cons, map_cons,
        nodup_cons, mem_map, not_exists, not_and]
      constructor
      · rintro ⟨hname, hnew, hvalid, hrest, hnodup⟩
        exact ⟨⟨hname, hvalid⟩, ⟨hnew, fun f hf => (hrest f hf).1⟩,
          fun f hf => (hrest f hf).2, hnodup⟩
      · rintro ⟨⟨hname, hvalid⟩, ⟨hnew, hold⟩, hdiff, hnodup⟩
        exact ⟨hname, hnew, hvalid, fun f hf => ⟨hold f hf, hdiff f hf⟩, hnodup⟩

theorem validate_fields_ok {u : Unit} :
    validateFields fields = .ok u ↔
      (∀ field ∈ fields, validateFieldName field.name = .ok ()) ∧
        (fields.map (·.name)).Nodup := by
  simp [validateFields, validate_fields_after_ok]

/-- The bytes of an encoded value after its kind byte. -/
def PayloadValue.size : PayloadValue → Nat
  | .string value => 4 + (utf8Bytes value).length
  | .integer _ => 8
  | .floating _ => 8
  | .boolean _ => 1

/-- The bytes of an encoded field. -/
def DocumentField.size (field : DocumentField) : Nat :=
  2 + (utf8Bytes field.name).length + 1 + field.value.size

/-- The lengths a field writes fit their width. -/
def DocumentField.Fits (field : DocumentField) : Prop :=
  (utf8Bytes field.name).length < 2 ^ 16 ∧ ∀ text, field.value = .string text →
    (utf8Bytes text).length < 2 ^ 32

variable {value : PayloadValue}

theorem encode_payload_value_ok :
    (∃ bytes, encodePayloadValue value = .ok bytes) ↔
      ∀ text, value = .string text → (utf8Bytes text).length < 2 ^ 32 := by
  cases value with
  | string text =>
      simp only [encodePayloadValue, bind_ok, require_ok, exists_unit, pure_ok,
        exists_and_left, exists_eq', and_true, string.injEq, forall_eq']
  | integer value => simp [encodePayloadValue, pure_ok]
  | floating value => simp [encodePayloadValue, pure_ok]
  | boolean value => simp [encodePayloadValue, pure_ok]

theorem encode_payload_value_length {bytes : List UInt8}
    (h : encodePayloadValue value = .ok bytes) : bytes.length = value.size + 1 := by
  cases value with
  | string text =>
      simp only [encodePayloadValue, bind_ok, pure_ok] at h
      obtain ⟨-, -, rfl⟩ := h
      simp [size]
  | integer value =>
      simp only [encodePayloadValue, pure_ok] at h
      simp [← h, size]
  | floating value =>
      simp only [encodePayloadValue, pure_ok] at h
      simp [← h, size]
  | boolean value =>
      simp only [encodePayloadValue, pure_ok] at h
      simp [← h, size]

variable {field : DocumentField}

theorem encode_payload_field_ok :
    (∃ bytes, encodePayloadField field = .ok bytes) ↔ field.Fits := by
  unfold encodePayloadField DocumentField.Fits
  simp only [bind_ok, require_ok, exists_unit, pure_ok, ← encode_payload_value_ok]
  constructor
  · rintro ⟨_, hname, value, hvalue, -⟩
    exact ⟨hname, value, hvalue⟩
  · rintro ⟨hname, value, hvalue⟩
    exact ⟨_, hname, value, hvalue, rfl⟩

theorem encode_payload_field_length {bytes : List UInt8}
    (h : encodePayloadField field = .ok bytes) : bytes.length = field.size := by
  simp only [encodePayloadField, bind_ok, pure_ok] at h
  obtain ⟨-, -, value, hvalue, rfl⟩ := h
  simp only [length_append, length_le_bytes, encode_payload_value_length hvalue,
    DocumentField.size]
  omega

theorem encode_payload_fields_ok :
    (∃ bytes, encodePayloadFields fields = .ok bytes) ↔ ∀ field ∈ fields, field.Fits := by
  induction fields with
  | nil => simp [encodePayloadFields, pure_ok]
  | cons field fields ih =>
      rw [forall_mem_cons, ← encode_payload_field_ok, ← ih]
      simp only [encodePayloadFields, bind_ok, pure_ok]
      constructor
      · rintro ⟨_, first, hfirst, rest, hrest, -⟩
        exact ⟨⟨first, hfirst⟩, rest, hrest⟩
      · rintro ⟨⟨first, hfirst⟩, rest, hrest⟩
        exact ⟨_, first, hfirst, rest, hrest, rfl⟩

theorem encode_payload_fields_length {bytes : List UInt8}
    (h : encodePayloadFields fields = .ok bytes) :
    bytes.length = (fields.map DocumentField.size).sum := by
  induction fields generalizing bytes with
  | nil =>
      simp only [encodePayloadFields, pure_ok] at h
      simp [← h]
  | cons field fields ih =>
      simp only [encodePayloadFields, bind_ok, pure_ok] at h
      obtain ⟨first, hfirst, rest, hrest, rfl⟩ := h
      simp [encode_payload_field_length hfirst, ih hrest]

theorem encode_payload_ok :
    (∃ bytes, encodePayload fields = .ok bytes) ↔
      fields.length ≤ maxPayloadFields ∧ validateFields fields = .ok () ∧
        (∀ field ∈ fields, field.Fits) ∧
        4 + (fields.map DocumentField.size).sum ≤ maxPayloadBytes := by
  unfold encodePayload
  simp only [bind_ok, require_ok, exists_unit, pure_ok,
    ← encode_payload_fields_ok]
  constructor
  · rintro ⟨_, hcount, hnames, encoded, hencoded, hsize, -⟩
    exact ⟨hcount, hnames, ⟨encoded, hencoded⟩, encode_payload_fields_length hencoded ▸ hsize⟩
  · rintro ⟨hcount, hnames, ⟨encoded, hencoded⟩, hsize⟩
    exact ⟨_, hcount, hnames, encoded, hencoded,
      (encode_payload_fields_length hencoded).symm ▸ hsize, rfl⟩

/-! ## The decoder -/

/-- The value bytes after a kind byte. -/
def decodePayloadKind (kind : Nat) : Reader PayloadValue :=
  if kind = 1 then do
    let length ← readU32
    let bytes ← readSpan length
    let text ← readUtf8 bytes
    pure (.string text)
  else if kind = 2 then integer <$> readI64
  else if kind = 3 then do
    let value ← readF64
    check (value.isFinite = true) "floating payload values must be finite"
    pure (.floating value)
  else if kind = 4 then do
    let encoded ← readU8
    check (encoded ≤ 1) "invalid payload bool encoding"
    pure (.boolean (encoded = 1))
  else fun _ => .error "unknown payload value kind"

/-- The kind byte and the value. -/
def decodePayloadValue : Reader PayloadValue := do
  let kind ← readU8
  decodePayloadKind kind

/-- One field, with the check of the `DocumentField` constructor. -/
def decodePayloadField : Reader DocumentField := do
  let nameLength ← readU16
  let nameBytes ← readSpan nameLength
  let name ← readUtf8 nameBytes
  let value ← decodePayloadValue
  ofResult (validateFieldName name)
  pure ⟨name, value⟩

/-- The field count and the fields. -/
def decodePayloadFields : Reader (List DocumentField) := do
  let count ← readU32
  check (count ≤ maxPayloadFields) "payload field count exceeds limit"
  readTimes (fun _ => decodePayloadField) 0 count

/-- `decode_payload`. -/
def decodePayload (bytes : List UInt8) : Except String (List DocumentField) := do
  require (bytes.length ≤ maxPayloadBytes) "encoded payload exceeds size limit"
  let (fields, rest) ← decodePayloadFields bytes
  require (rest = []) "unexpected trailing payload bytes"
  validateFields fields
  pure fields

/-! ## The round trip -/

/-- What `PayloadValue.floating` ensures of every value. -/
def PayloadValue.Valid : PayloadValue → Prop
  | .floating value => value.isFinite = true
  | _ => True

instance : (value : PayloadValue) → Decidable value.Valid
  | .string _ => isTrue trivial
  | .integer _ => isTrue trivial
  | .floating value => inferInstanceAs (Decidable (value.isFinite = true))
  | .boolean _ => isTrue trivial

/-- The kind byte and the value bytes of one field give the value back. -/
theorem reads_payload_value {bytes : List UInt8} (hvalid : value.Valid)
    (h : encodePayloadValue value = .ok bytes) : Reads decodePayloadValue bytes value := by
  cases value with
  | string text =>
      simp only [encodePayloadValue, bind_ok, require_ok, exists_unit,
        pure_ok] at h
      obtain ⟨hlength, rfl⟩ := h
      refine reads_u8_cons ?_
      show Reads (decodePayloadKind 1) _ _
      rw [decodePayloadKind, if_pos rfl]
      refine reads_bind (reads_u32 hlength) ?_
      exact reads_last (reads_span rfl) (reads_silent (reads_utf8 text) (reads_pure _))
  | integer value =>
      simp only [encodePayloadValue, pure_ok] at h
      subst h
      refine reads_u8_cons ?_
      show Reads (decodePayloadKind 2) _ _
      rw [decodePayloadKind, if_neg (by decide), if_pos rfl]
      exact reads_map integer (reads_i64 value)
  | floating value =>
      simp only [encodePayloadValue, pure_ok] at h
      subst h
      refine reads_u8_cons ?_
      show Reads (decodePayloadKind 3) _ _
      rw [decodePayloadKind, if_neg (by decide), if_neg (by decide), if_pos rfl]
      exact reads_last (reads_f64 value) (reads_check hvalid (reads_pure _))
  | boolean value =>
      simp only [encodePayloadValue, pure_ok] at h
      subst h
      refine reads_u8_cons ?_
      show Reads (decodePayloadKind 4) _ _
      rw [decodePayloadKind, if_neg (by decide), if_neg (by decide), if_neg (by decide),
        if_pos rfl]
      cases value with
      | false => exact reads_last (reads_u8 0) (reads_check (by decide) (reads_pure _))
      | true => exact reads_last (reads_u8 1) (reads_check (by decide) (reads_pure _))

theorem reads_payload_field {bytes : List UInt8} (hvalid : field.value.Valid)
    (hname : validateFieldName field.name = .ok ()) (h : encodePayloadField field = .ok bytes) :
    Reads decodePayloadField bytes field := by
  simp only [encodePayloadField, bind_ok, require_ok, exists_unit, pure_ok] at h
  obtain ⟨hlength, value, hvalue, rfl⟩ := h
  rw [append_assoc]
  refine reads_bind (reads_u16 hlength) (reads_bind (reads_span rfl) ?_)
  refine reads_silent (reads_utf8 field.name) ?_
  refine reads_last (reads_payload_value hvalid hvalue) ?_
  exact reads_silent (reads_of_result hname) (reads_pure _)

theorem reads_payload_fields {bytes : List UInt8} (index : Nat)
    (hvalid : ∀ field ∈ fields, field.value.Valid)
    (hnames : ∀ field ∈ fields, validateFieldName field.name = .ok ())
    (h : encodePayloadFields fields = .ok bytes) :
    Reads (readTimes (fun _ => decodePayloadField) index fields.length) bytes fields := by
  induction fields generalizing bytes index with
  | nil =>
      simp only [encodePayloadFields, pure_ok] at h
      subst h
      exact reads_times_zero
  | cons field fields ih =>
      simp only [encodePayloadFields, bind_ok, pure_ok] at h
      obtain ⟨first, hfirst, rest, hrest, rfl⟩ := h
      rw [forall_mem_cons] at hvalid hnames
      exact reads_times_succ (reads_payload_field hvalid.1 hnames.1 hfirst)
        (ih (index + 1) hvalid.2 hnames.2 hrest)

theorem decode_encode_payload {bytes : List UInt8} (hvalid : ∀ field ∈ fields, field.value.Valid)
    (h : encodePayload fields = .ok bytes) :
    decodePayload bytes = .ok fields := by
  simp only [encodePayload, bind_ok, require_ok, exists_unit, pure_ok] at h
  obtain ⟨hcount, hnames, encoded, hencoded, hsize, rfl⟩ := h
  have hsmall : fields.length < 2 ^ 32 := by
    have : maxPayloadFields = 1024 := rfl
    omega
  have hread : Reads decodePayloadFields (leBytes 4 fields.length ++ encoded) fields := by
    refine reads_bind (reads_u32 hsmall) (reads_check hcount ?_)
    exact reads_payload_fields 0 hvalid (validate_fields_ok.1 hnames).1 hencoded
  have hfits : (leBytes 4 fields.length ++ encoded).length ≤ maxPayloadBytes := by simpa using hsize
  simp only [decodePayload, bind_ok, require_ok, exists_unit, pure_ok]
  exact ⟨hfits, (fields, []), reads_all hread, rfl, hnames, rfl⟩

theorem encode_payload_length {bytes : List UInt8} (h : encodePayload fields = .ok bytes) :
    bytes.length ≤ maxPayloadBytes := by
  simp only [encodePayload, bind_ok, require_ok, exists_unit, pure_ok] at h
  obtain ⟨-, -, encoded, -, hsize, rfl⟩ := h
  simpa using hsize

/-! ## What was decoded is encoded to the same bytes -/

/-- The bytes behind the kind. -/
def PayloadValue.content : PayloadValue → List UInt8
  | .string value => leBytes 4 (utf8Bytes value).length ++ utf8Bytes value
  | .integer value => i64Bytes value
  | .floating value => f64Bytes value
  | .boolean value => leBytes 1 (if value then 1 else 0)

def PayloadValue.bytes (value : PayloadValue) : List UInt8 :=
  leBytes 1 value.kind ++ value.content

def DocumentField.bytes (field : DocumentField) : List UInt8 :=
  leBytes 2 (utf8Bytes field.name).length ++ (utf8Bytes field.name ++ field.value.bytes)

/-- The length a value writes fits its width. -/
def PayloadValue.Fits (value : PayloadValue) : Prop :=
  ∀ text, value = .string text → (utf8Bytes text).length < 2 ^ 32

theorem encode_payload_value_iff {bytes : List UInt8} :
    encodePayloadValue value = .ok bytes ↔ value.Fits ∧ bytes = value.bytes := by
  unfold PayloadValue.Fits PayloadValue.bytes
  cases value with
  | string text =>
      simp only [encodePayloadValue, bind_ok, require_ok, exists_unit, pure_ok,
        string.injEq, forall_eq']
      exact and_congr_right fun _ => eq_comm
  | integer value =>
      rw [encodePayloadValue, pure_ok, eq_comm]
      simp [kind, content, le_bytes_one, i64Bytes]
  | floating value =>
      rw [encodePayloadValue, pure_ok, eq_comm]
      simp [kind, content, le_bytes_one, f64Bytes]
  | boolean value =>
      rw [encodePayloadValue, pure_ok, eq_comm]
      cases value <;> simp [kind, content, le_bytes_one]

/-- The reader of a kind returns the values of that kind. -/
theorem exact_payload_kind (kind : Nat) : Exact (decodePayloadKind kind)
    (fun value => value.kind = kind ∧ value.Valid ∧ value.Fits) content := by
  intro bytes value rest
  unfold decodePayloadKind
  by_cases hstring : kind = 1
  · rw [if_pos hstring, exact_u32.bind_ok]
    simp only [text_bind_ok, reader_pure_ok, Prod.mk.injEq]
    constructor
    · rintro ⟨_, hlength, r1, rfl, text, rfl, r2, rfl, rfl, rfl⟩
      refine ⟨⟨hstring.symm, trivial, fun other hother => ?_⟩, ?_⟩
      · obtain rfl := string.inj hother
        exact hlength
      · simp only [content, append_assoc]
    · rintro ⟨⟨hkind, -, hfits⟩, rfl⟩
      cases value with
      | string text =>
          simp only [content, append_assoc]
          exact ⟨_, hfits text rfl, _, rfl, text, rfl, _, rfl, rfl, rfl⟩
      | _ => cases hkind.trans hstring
  rw [if_neg hstring]
  by_cases hinteger : kind = 2
  · rw [if_pos hinteger, reader_map_ok]
    constructor
    · rintro ⟨number, hread, rfl⟩
      exact ⟨⟨hinteger.symm, trivial, nofun⟩, read_i64_iff.1 hread⟩
    · rintro ⟨⟨hkind, -, -⟩, hbytes⟩
      cases value with
      | integer number => exact ⟨number, read_i64_iff.2 hbytes, rfl⟩
      | _ => cases hkind.trans hinteger
  rw [if_neg hinteger]
  by_cases hfloating : kind = 3
  · rw [if_pos hfloating, exact_f64.bind_ok]
    simp only [check_bind_ok, reader_pure_ok, Prod.mk.injEq]
    constructor
    · rintro ⟨number, -, r1, rfl, hfinite, rfl, rfl⟩
      exact ⟨⟨hfloating.symm, hfinite, nofun⟩, rfl⟩
    · rintro ⟨⟨hkind, hvalid, -⟩, rfl⟩
      cases value with
      | floating number => exact ⟨number, trivial, _, rfl, hvalid, rfl, rfl⟩
      | _ => cases hkind.trans hfloating
  rw [if_neg hfloating]
  by_cases hboolean : kind = 4
  · rw [if_pos hboolean, exact_u8.bind_ok]
    simp only [check_bind_ok, reader_pure_ok, Prod.mk.injEq]
    constructor
    · rintro ⟨number, -, r1, rfl, hle, rfl, rfl⟩
      refine ⟨⟨hboolean.symm, trivial, nofun⟩, ?_⟩
      have hnumber : (if decide (number = 1) then 1 else 0) = number := by
        by_cases hone : number = 1
        · simp [hone]
        · simp only [hone, decide_false, Bool.false_eq_true, if_false]
          omega
      rw [content, hnumber]
    · rintro ⟨⟨hkind, -, -⟩, rfl⟩
      cases value with
      | boolean flag =>
          refine ⟨if flag then 1 else 0, by split <;> decide, _, rfl, by split <;> decide, ?_, rfl⟩
          cases flag <;> rfl
      | _ => cases hkind.trans hboolean
  rw [if_neg hboolean]
  refine ⟨nofun, ?_⟩
  rintro ⟨⟨hkind, -, -⟩, -⟩
  cases value <;> exact absurd hkind.symm ‹_›

theorem exact_payload_value :
    Exact decodePayloadValue (fun value => value.Valid ∧ value.Fits) bytes := by
  intro bytes value rest
  unfold decodePayloadValue
  simp only [exact_u8.bind_ok, exact_payload_kind _ _ _ _]
  constructor
  · rintro ⟨_, -, r1, rfl, ⟨rfl, hvalid, hfits⟩, rfl⟩
    refine ⟨⟨hvalid, hfits⟩, ?_⟩
    rw [bytes, append_assoc]
  · rintro ⟨⟨hvalid, hfits⟩, rfl⟩
    rw [bytes, append_assoc]
    have hkind : value.kind < 2 ^ 8 := by cases value <;> simp [kind]
    exact ⟨_, hkind, _, rfl, ⟨rfl, hvalid, hfits⟩, rfl⟩

/-- A field that the constructors let through and whose lengths fit. -/
structure DocumentField.Encodable (field : DocumentField) : Prop where
  valid : field.value.Valid
  fits : field.Fits
  name : validateFieldName field.name = .ok ()

theorem exact_payload_field :
    Exact decodePayloadField DocumentField.Encodable DocumentField.bytes := by
  intro bytes field rest
  unfold decodePayloadField
  simp only [exact_u16.bind_ok, text_bind_ok, exact_payload_value.bind_ok, of_result_bind_ok,
    reader_pure_ok, Prod.mk.injEq, exists_unit]
  constructor
  · rintro ⟨_, hlength, r1, rfl, name, rfl, r2, rfl, value, ⟨hvalid, hfits⟩, r3, rfl, hname, rfl, rfl⟩
    refine ⟨⟨hvalid, ⟨hlength, hfits⟩, hname⟩, ?_⟩
    simp only [DocumentField.bytes, append_assoc]
  · rintro ⟨⟨hvalid, ⟨hlength, hfits⟩, hname⟩, rfl⟩
    simp only [DocumentField.bytes, append_assoc]
    exact ⟨_, hlength, _, rfl, _, rfl, _, rfl, _, ⟨hvalid, hfits⟩, _, rfl, hname, rfl, rfl⟩

theorem encode_payload_fields_iff {bytes : List UInt8} :
    encodePayloadFields fields = .ok bytes ↔
      (∀ field ∈ fields, field.Fits) ∧ bytes = fields.flatMap DocumentField.bytes := by
  induction fields generalizing bytes with
  | nil =>
      rw [encodePayloadFields, pure_ok, eq_comm]
      simp
  | cons field fields ih =>
      have hfirst : ∀ first, encodePayloadField field = .ok first ↔
          field.Fits ∧ first = field.bytes := by
        intro first
        unfold encodePayloadField
        simp only [bind_ok, require_ok, exists_unit, pure_ok, encode_payload_value_iff]
        constructor
        · rintro ⟨hname, value, ⟨hfits, rfl⟩, rfl⟩
          exact ⟨⟨hname, hfits⟩, by simp only [DocumentField.bytes, append_assoc]⟩
        · rintro ⟨⟨hname, hfits⟩, rfl⟩
          exact ⟨hname, _, ⟨hfits, rfl⟩, by simp only [DocumentField.bytes, append_assoc]⟩
      simp only [encodePayloadFields, bind_ok, pure_ok, hfirst, ih,
        forall_mem_cons, flatMap_cons]
      constructor
      · rintro ⟨first, ⟨hfits, rfl⟩, later, ⟨hall, rfl⟩, rfl⟩
        exact ⟨⟨hfits, hall⟩, rfl⟩
      · rintro ⟨⟨hfits, hall⟩, rfl⟩
        exact ⟨_, ⟨hfits, rfl⟩, _, ⟨hall, rfl⟩, rfl⟩

theorem decode_payload_iff {bytes : List UInt8} :
    decodePayload bytes = .ok fields ↔
      (∀ field ∈ fields, field.value.Valid) ∧ encodePayload fields = .ok bytes := by
  refine ⟨fun h => ?_, fun h => decode_encode_payload h.1 h.2⟩
  unfold decodePayload decodePayloadFields at h
  simp only [bind_ok, exists_unit, require_ok, pure_ok, Prod.exists, exact_u32.bind_ok,
    check_bind_ok, exact_times exact_payload_field _ _ _ _ _] at h
  obtain ⟨hsize, _, _, ⟨_, -, r1, rfl, hcount, ⟨rfl, hall⟩, rfl⟩, rfl, hnames, rfl⟩ := h
  refine ⟨fun field hfield => (hall field hfield).valid, ?_⟩
  refine bind_ok.2 ⟨(), require_ok.2 hcount, bind_ok.2 ⟨(), hnames, bind_ok.2
    ⟨_, encode_payload_fields_iff.2 ⟨fun field hfield => (hall field hfield).fits, rfl⟩, ?_⟩⟩⟩
  rw [append_nil, length_append, length_le_bytes] at hsize
  rw [append_nil]
  exact bind_ok.2 ⟨(), require_ok.2 hsize, rfl⟩

end Akasha

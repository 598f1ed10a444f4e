import Akasha.Document.Codec
import Akasha.Document.FieldCatalog

/-!
# Typed field bodies

The body of one vector field, as `document/point_codec.mojo` writes it into point batches and
point records: the scalars of a dense vector, a row count and the scalars of a multivector, the
terms of a sparse vector, the bits of a binary one. The body alone does not say what it is; it is
read against the field of a catalog.
-/

namespace Akasha

open Lib List

/-! ## What the constructors of a value check -/

/-- The bits of a bfloat16 are those of a finite number. -/
def bf16IsFinite (bits : UInt16) : Bool :=
  bits.toNat % 2 ^ 15 < 0x7F80

/-- The bits of a float16 are those of a finite number. -/
def f16IsFinite (bits : UInt16) : Bool :=
  bits.toNat % 2 ^ 15 < 0x7C00

/-- `_NumericValues.__init__`. -/
def NumericValues.check : NumericValues → Except String Unit
  | .f32 values => require (∀ value ∈ values, value.isFinite) "vector values must be finite"
  | .bf16 values => require (∀ value ∈ values, bf16IsFinite value) "vector values must be finite"
  | .f16 values => require (∀ value ∈ values, f16IsFinite value) "vector values must be finite"
  | .i8 _ => pure ()
  | .u8 _ => pure ()

/-- `_validate_dimension`. -/
def validateVectorDimension (dimension : Nat) : Except String Unit :=
  require (0 < dimension ∧ dimension < 2 ^ 32) "vector dimension must be positive and fit UInt32"

/-- The last byte of a bit vector has no bit above its dimension. -/
def paddingClear (dimension : Nat) (values : List UInt8) : Bool :=
  dimension % 8 = 0 || ((values.getLast?.map UInt8.toNat).getD 0) / 2 ^ (dimension % 8) = 0

/-- The checks of `VectorValue.dense`, `sparse`, `multivector` and `binary`. -/
def VectorValue.check : VectorValue → Except String Unit
  | .dense values => do
      validateVectorDimension values.count
      values.check
  | .sparse values => do
      require (values.length < 2 ^ 32) "sparse vector count exceeds format limit"
      if values.length ≠ 0 then validateSparse values else pure ()
  | .multi dimension values => do
      validateVectorDimension dimension
      require (values.count % dimension = 0) "multivector contains an incomplete row"
      require (values.count / dimension < 2 ^ 32) "multivector row count exceeds format limit"
      values.check
  | .binary dimension values => do
      validateVectorDimension dimension
      require (values.length = (dimension + 7) / 8)
        "binary vector byte count does not match bit dimension"
      require (paddingClear dimension values = true) "binary vector has nonzero padding bits"

/-- A value that its constructor returned. -/
def VectorValue.Constructed (value : VectorValue) : Prop :=
  value.check = .ok ()

/-! ## Encoding -/

def maxPointRecordBytes : Nat := 256 * 1024 * 1024

/-- `_write_numeric`. -/
def NumericValues.bytes : NumericValues → List UInt8
  | .f32 values => values.flatMap f32Bytes
  | .bf16 values => values.flatMap fun value => leBytes 2 value.toNat
  | .f16 values => values.flatMap fun value => leBytes 2 value.toNat
  | .i8 values => values.map Int8.toUInt8
  | .u8 values => values

/-- One element of a sparse body. -/
def sparseElementBytes (element : SparseElement) : List UInt8 :=
  i64Bytes element.termId ++ f32Bytes element.weight

/-- The size of the body of a value, within the limit of a record. -/
def VectorValue.bodySize : VectorValue → Except String Nat
  | .sparse values => do
      require (values.length ≤ (maxPointRecordBytes - 4) / 12)
        "sparse vector body exceeds record limit"
      pure (4 + values.length * 12)
  | .binary dimension _ => pure ((dimension + 7) / 8)
  | .dense values => do
      let width := VectorValue.scalarWidth values.scalar
      require (1 ≤ maxPointRecordBytes / width / values.count)
        "numeric vector body exceeds record limit"
      pure (values.count * width)
  | .multi dimension values => do
      let width := VectorValue.scalarWidth values.scalar
      require (values.count / dimension ≤ (maxPointRecordBytes - 4) / width / dimension)
        "numeric vector body exceeds record limit"
      pure (4 + values.count / dimension * dimension * width)

/-- `vector_value_size`. The check against the field comes first, so the kind and the shape of
the value are those of the field. -/
def vectorValueSize (value : VectorValue) (field : VectorFieldSpec) : Except String Nat := do
  value.validate field
  let size ← value.bodySize
  require (size ≤ maxPointRecordBytes) "vector body exceeds record limit"
  pure size

/-- The body of a value. -/
def VectorValue.bytes : VectorValue → List UInt8
  | .sparse values => leBytes 4 values.length ++ values.flatMap sparseElementBytes
  | .binary _ values => values
  | .dense values => values.bytes
  | .multi dimension values => leBytes 4 (values.count / dimension) ++ values.bytes

/-- `encode_vector_value`. -/
def encodeVectorValue (value : VectorValue) (field : VectorFieldSpec) :
    Except String (List UInt8) := do
  let _ ← vectorValueSize value field
  pure value.bytes

/-! ## Decoding -/

/-- The scalars of one type. -/
def readScalars (scalar count : Nat) : Reader NumericValues :=
  match scalar with
  | 0 => NumericValues.f32 <$> readTimes (fun _ => readF32) 0 count
  | 1 => NumericValues.bf16 <$> readTimes (fun _ => UInt16.ofNat <$> readU16) 0 count
  | 2 => NumericValues.f16 <$> readTimes (fun _ => UInt16.ofNat <$> readU16) 0 count
  | 3 => NumericValues.i8 <$> readTimes (fun _ => (fun b => (UInt8.ofNat b).toInt8) <$> readU8) 0
      count
  | _ => NumericValues.u8 <$> readTimes (fun _ => UInt8.ofNat <$> readU8) 0 count

/-- The rows that a body announces. -/
def readRows (field : VectorFieldSpec) : Reader Nat :=
  if field.kind = 2 then readU32 else pure 1

/-- `_read_numeric`: the count comes from the bytes that are there, and must agree with the
announced rows. -/
def readNumeric (field : VectorFieldSpec) : Reader VectorValue := do
  let rows ← readRows field
  let left ← remaining
  let width := VectorValue.scalarWidth field.scalar
  check (left % width = 0) "truncated numeric scalar"
  let count := left / width
  check (count % field.dimension = 0 ∧ count / field.dimension = rows)
    "numeric body length does not match field shape"
  let values ← readScalars field.scalar count
  let value : VectorValue :=
    if field.kind = 0 then .dense values else .multi field.dimension values
  ofResult value.check
  pure value

/-- One element of a sparse body. -/
def readSparseElement : Reader SparseElement := do
  let term ← readI64
  let weight ← readF32
  pure ⟨term, weight⟩

/-- The body of a sparse value. -/
def readSparse : Reader VectorValue := do
  let count ← readU32
  let left ← remaining
  check (left % 12 = 0 ∧ count = left / 12) "sparse body length does not match term count"
  let elements ← readTimes (fun _ => readSparseElement) 0 count
  ofResult (VectorValue.sparse elements).check
  pure (.sparse elements)

/-- The body of a binary value. -/
def decodeBinary (field : VectorFieldSpec) (bytes : List UInt8) : Except String VectorValue := do
  require (bytes.length = (field.dimension + 7) / 8) "binary vector body length mismatch"
  (VectorValue.binary field.dimension bytes).check
  pure (.binary field.dimension bytes)

/-- `decode_vector_value`. -/
def decodeVectorValue (bytes : List UInt8) (field : VectorFieldSpec) :
    Except String VectorValue := do
  field.validate
  require (bytes.length ≤ maxPointRecordBytes) "vector body exceeds record limit"
  match field.kind with
  | 1 => (·.1) <$> readSparse bytes
  | 3 => decodeBinary field bytes
  | _ => (·.1) <$> readNumeric field bytes

/-! ## The round trip -/

theorem length_numeric_bytes (values : NumericValues) :
    values.bytes.length = values.count * VectorValue.scalarWidth values.scalar := by
  cases values with
  | f32 values => exact length_flat_map_const (fun value => length_le_bytes 4 _) values
  | bf16 values => exact length_flat_map_const (fun value => length_le_bytes 2 _) values
  | f16 values => exact length_flat_map_const (fun value => length_le_bytes 2 _) values
  | i8 values => simp [NumericValues.bytes, NumericValues.count, NumericValues.scalar,
      VectorValue.scalarWidth]
  | u8 values => simp [NumericValues.bytes, NumericValues.count, NumericValues.scalar,
      VectorValue.scalarWidth]

theorem length_sparse_bytes (values : List SparseElement) :
    (values.flatMap sparseElementBytes).length = values.length * 12 :=
  length_flat_map_const (fun _ => by simp [sparseElementBytes, i64Bytes, f32Bytes]) values

theorem reads_word (value : UInt16) :
    Reads (UInt16.ofNat <$> readU16) (leBytes 2 value.toNat) value := by
  have hread := reads_map UInt16.ofNat (reads_u16 value.toNat_lt)
  rwa [UInt16.ofNat_toNat] at hread

theorem reads_byte (value : UInt8) : Reads (UInt8.ofNat <$> readU8) [value] value := by
  have hread := reads_map UInt8.ofNat (reads_u8 value)
  rwa [UInt8.ofNat_toNat] at hread

theorem reads_signed_byte (value : Int8) :
    Reads ((fun b => (UInt8.ofNat b).toInt8) <$> readU8) [value.toUInt8] value := by
  have hread := reads_map (fun b => (UInt8.ofNat b).toInt8) (reads_u8 value.toUInt8)
  rwa [UInt8.ofNat_toNat, show value.toUInt8.toInt8 = value from rfl] at hread

theorem reads_scalars (values : NumericValues) :
    Reads (readScalars values.scalar values.count) values.bytes values := by
  cases values with
  | f32 values => exact reads_map _ (reads_times (fun value _ => reads_f32 value) 0)
  | bf16 values => exact reads_map _ (reads_times (fun value _ => reads_word value) 0)
  | f16 values => exact reads_map _ (reads_times (fun value _ => reads_word value) 0)
  | i8 values =>
      have hread := reads_times (fun value (_ : value ∈ values) => reads_signed_byte value) 0
      rw [← map_eq_flatMap] at hread
      exact reads_map _ hread
  | u8 values =>
      have hread := reads_times (fun value (_ : value ∈ values) => reads_byte value) 0
      rw [flatMap_singleton'] at hread
      exact reads_map _ hread

theorem reads_sparse_element (element : SparseElement) :
    Reads readSparseElement (sparseElementBytes element) element :=
  reads_bind (reads_i64 element.termId) (reads_last (reads_f32 element.weight) (reads_pure _))

section

variable {value : VectorValue} {field : VectorFieldSpec} {bytes : List UInt8}

theorem vector_validate_ok (h : value.validate field = .ok ()) :
    field.validate = .ok () ∧ value.kind = field.kind ∧ value.scalar = field.scalar ∧
      value.dimension = field.dimension := by
  simp only [VectorValue.validate, bind_ok, require_ok, exists_unit] at h
  exact ⟨h.1, h.2.1.1, h.2.1.2, h.2.2⟩

theorem reads_sparse {values : List SparseElement} (h : (VectorValue.sparse values).Constructed) :
    ReadsAll readSparse (VectorValue.sparse values).bytes (.sparse values) := by
  have hcount : values.length < 2 ^ 32 := by
    simp only [VectorValue.Constructed, VectorValue.check, bind_ok, require_ok,
      exists_unit] at h
    exact h.1
  refine all_bind (reads_u32 hcount) (all_remaining (all_check ?_ ?_))
  · rw [length_sparse_bytes]
    omega
  · refine reads_all (reads_last (reads_times (fun element _ => reads_sparse_element element) 0) ?_)
    exact reads_silent (reads_of_result h) (reads_pure _)

/-- The scalars of a body whose shape is announced. -/
theorem reads_numeric_tail {values : NumericValues} {rows : Nat} {value : VectorValue}
    (hscalar : values.scalar = field.scalar) (hdimension : 0 < field.dimension)
    (hrows : values.count = rows * field.dimension) (h : value.Constructed)
    (hvalue : (if field.kind = 0 then VectorValue.dense values
      else .multi field.dimension values) = value) :
    ReadsAll (do
      let left ← remaining
      let width := VectorValue.scalarWidth field.scalar
      check (left % width = 0) "truncated numeric scalar"
      let count := left / width
      check (count % field.dimension = 0 ∧ count / field.dimension = rows)
        "numeric body length does not match field shape"
      let values ← readScalars field.scalar count
      let value : VectorValue :=
        if field.kind = 0 then .dense values else .multi field.dimension values
      ofResult value.check
      pure value) values.bytes value := by
  have hwidth : 0 < VectorValue.scalarWidth field.scalar := by
    unfold VectorValue.scalarWidth
    split
    · decide
    · split <;> decide
  have hlength : values.bytes.length = values.count * VectorValue.scalarWidth field.scalar := by
    rw [← hscalar]
    exact length_numeric_bytes values
  have hcount : values.bytes.length / VectorValue.scalarWidth field.scalar = values.count := by
    rw [hlength]
    exact Nat.mul_div_cancel _ hwidth
  refine all_remaining (all_check ?_ (all_check ⟨?_, ?_⟩ ?_))
  · rw [hlength]
    exact Nat.mul_mod_left _ _
  · rw [hcount, hrows]
    exact Nat.mul_mod_left _ _
  · rw [hcount, hrows]
    exact Nat.mul_div_cancel _ hdimension
  · have hread := reads_scalars values
    rw [hscalar] at hread
    rw [hcount]
    refine reads_all (reads_last hread ?_)
    rw [hvalue]
    exact reads_silent (reads_of_result h) (reads_pure _)

/-- The body of a value takes the size that was computed for it. -/
theorem length_vector_bytes {size : Nat} (hconstructed : value.Constructed)
    (h : value.bodySize = .ok size) : value.bytes.length = size := by
  cases value with
  | sparse values =>
      simp only [VectorValue.bodySize, bind_ok, exists_unit, pure_ok] at h
      obtain ⟨-, rfl⟩ := h
      rw [VectorValue.bytes, length_append, length_le_bytes, length_sparse_bytes]
  | binary dimension values =>
      simp only [VectorValue.bodySize, pure_ok] at h
      simp only [VectorValue.Constructed, VectorValue.check, bind_ok, require_ok,
        exists_unit] at hconstructed
      rw [← h]
      exact hconstructed.2.1
  | dense values =>
      simp only [VectorValue.bodySize, bind_ok, exists_unit, pure_ok] at h
      obtain ⟨-, rfl⟩ := h
      exact length_numeric_bytes values
  | multi dimension values =>
      simp only [VectorValue.bodySize, bind_ok, exists_unit, pure_ok] at h
      obtain ⟨-, rfl⟩ := h
      simp only [VectorValue.Constructed, VectorValue.check, bind_ok, require_ok,
        exists_unit] at hconstructed
      rw [VectorValue.bytes, length_append, length_le_bytes, length_numeric_bytes,
        Nat.div_mul_cancel (Nat.dvd_of_mod_eq_zero hconstructed.2.1)]

/-- What was encoded for a field is decoded for it. -/
theorem decode_encode_vector (hconstructed : value.Constructed)
    (h : encodeVectorValue value field = .ok bytes) : decodeVectorValue bytes field = .ok value := by
  simp only [encodeVectorValue, vectorValueSize, bind_ok, require_ok, exists_unit,
    pure_ok] at h
  obtain ⟨_, ⟨hvalidate, size, hbody, hsize, -⟩, rfl⟩ := h
  obtain ⟨hfield, hkind, hscalar, hdimension⟩ := vector_validate_ok hvalidate
  have hlength := length_vector_bytes hconstructed hbody
  simp only [decodeVectorValue, bind_ok, require_ok, exists_unit]
  refine ⟨hfield, hlength.le.trans hsize, ?_⟩
  cases value with
  | sparse values =>
      rw [show field.kind = 1 from hkind.symm]
      show ((·.1) <$> readSparse _) = _
      rw [show readSparse _ = _ from reads_sparse hconstructed]
      rfl
  | binary dimension values =>
      rw [show field.kind = 3 from hkind.symm]
      show decodeBinary field values = _
      rw [show dimension = field.dimension from hdimension] at hconstructed hlength ⊢
      have hbytes := hconstructed
      simp only [VectorValue.Constructed, VectorValue.check, bind_ok, require_ok,
        exists_unit] at hbytes
      simp only [decodeBinary, bind_ok, require_ok, exists_unit, pure_ok]
      exact ⟨hbytes.2.1, hconstructed, trivial⟩
  | dense values =>
      have hkind' : field.kind = 0 := hkind.symm
      have hpositive : 0 < field.dimension := by
        simp only [VectorValue.Constructed, VectorValue.check, validateVectorDimension,
          bind_ok, require_ok, exists_unit] at hconstructed
        exact hdimension ▸ hconstructed.1.1
      have hread : ReadsAll (readNumeric field) values.bytes (.dense values) := by
        rw [readNumeric, readRows, if_neg (by omega)]
        refine all_bind (reads_pure 1) (reads_numeric_tail hscalar hpositive ?_ hconstructed ?_)
        · rw [Nat.one_mul]
          exact hdimension
        · rw [if_pos hkind']
      rw [hkind']
      show ((·.1) <$> readNumeric field values.bytes) = _
      rw [show readNumeric field _ = _ from hread]
      rfl
  | multi dimension values =>
      have hkind' : field.kind = 2 := hkind.symm
      rw [show dimension = field.dimension from hdimension] at hconstructed hlength ⊢
      have hshape := hconstructed
      simp only [VectorValue.Constructed, VectorValue.check, validateVectorDimension,
        bind_ok, require_ok, exists_unit] at hshape
      obtain ⟨⟨hpositive, -⟩, hrows, hcount, -⟩ := hshape
      have hread : ReadsAll (readNumeric field) (VectorValue.multi field.dimension values).bytes
          (.multi field.dimension values) := by
        rw [readNumeric, readRows, if_pos hkind']
        refine all_bind (reads_u32 hcount)
          (reads_numeric_tail hscalar hpositive ?_ hconstructed ?_)
        · exact (Nat.div_mul_cancel (Nat.dvd_of_mod_eq_zero hrows)).symm
        · rw [if_neg (by omega)]
      rw [hkind']
      show ((·.1) <$> readNumeric field _) = _
      rw [show readNumeric field _ = _ from hread]
      rfl

end

/-! ## What was decoded is encoded to the same bytes -/

/-- The scalars of one type, each read exactly. -/
theorem exact_wrapped {α : Type} {reader : Reader α} {write : α → List UInt8}
    {wrap : List α → NumericValues} {tag count : Nat}
    (h : Exact reader (fun _ => True) write)
    (hbytes : ∀ values, (wrap values).bytes = values.flatMap write)
    (hcount : ∀ values, (wrap values).count = values.length)
    (htag : ∀ numbers : NumericValues, numbers.scalar = tag ↔ ∃ values, wrap values = numbers) :
    Exact (wrap <$> readTimes (fun _ => reader) 0 count)
      (fun numbers => numbers.scalar = tag ∧ numbers.count = count) NumericValues.bytes := by
  intro bytes numbers rest
  rw [reader_map_ok]
  constructor
  · rintro ⟨values, hread, rfl⟩
    obtain ⟨⟨hlength, -⟩, hvalues⟩ := (exact_times h 0 count _ _ _).1 hread
    exact ⟨⟨(htag _).2 ⟨values, rfl⟩, (hcount values).trans hlength⟩, by rw [hbytes]; exact hvalues⟩
  · rintro ⟨⟨hscalar, hlength⟩, hvalues⟩
    obtain ⟨values, rfl⟩ := (htag _).1 hscalar
    rw [hbytes] at hvalues
    exact ⟨values, (exact_times h 0 count _ _ _).2 ⟨⟨(hcount values).symm.trans hlength,
      fun _ _ => trivial⟩, hvalues⟩, rfl⟩

theorem exact_word : Exact (UInt16.ofNat <$> readU16) (fun _ => True)
    (fun value : UInt16 => leBytes 2 value.toNat) := by
  have hexact := exact_map exact_u16 (f := UInt16.ofNat) (g := UInt16.toNat)
    (fun value _ => UInt16.ofNat_toNat) (fun value hvalue => UInt16.toNat_ofNat_of_lt' hvalue)
  exact fun bytes value rest => (hexact bytes value rest).trans
    (and_congr_left' (iff_true_intro value.toNat_lt))

theorem exact_byte : Exact (UInt8.ofNat <$> readU8) (fun _ => True)
    (fun value : UInt8 => [value]) := by
  have hexact := exact_map exact_u8 (f := UInt8.ofNat) (g := UInt8.toNat)
    (fun value _ => UInt8.ofNat_toNat) (fun value hvalue => UInt8.toNat_ofNat_of_lt' hvalue)
  intro bytes value rest
  have hone : leBytes 1 value.toNat = [value] := by rw [le_bytes_one, UInt8.ofNat_toNat]
  have hvalue : (UInt8.ofNat <$> readU8) bytes = .ok (value, rest) ↔
      value.toNat < 2 ^ 8 ∧ bytes = leBytes 1 value.toNat ++ rest := hexact bytes value rest
  rw [hone] at hvalue
  exact hvalue.trans (and_congr_left' (iff_true_intro value.toNat_lt))

theorem exact_signed_byte : Exact ((fun b => (UInt8.ofNat b).toInt8) <$> readU8) (fun _ => True)
    (fun value : Int8 => [value.toUInt8]) := by
  intro bytes value rest
  rw [← exact_byte bytes value.toUInt8 rest, reader_map_ok, reader_map_ok]
  constructor
  · rintro ⟨number, hread, rfl⟩
    exact ⟨number, hread, rfl⟩
  · rintro ⟨number, hread, hnumber⟩
    refine ⟨number, hread, ?_⟩
    rw [hnumber]
    rfl

/-- The scalars of a type are read from their bytes. -/
theorem exact_scalars {scalar : Nat} (h : scalar ≤ 4) (count : Nat) :
    Exact (readScalars scalar count)
      (fun values => values.scalar = scalar ∧ values.count = count) NumericValues.bytes := by
  unfold readScalars
  match scalar, h with
  | 0, _ =>
      exact exact_wrapped exact_f32 (fun _ => rfl) (fun _ => rfl) fun numbers => by
        cases numbers <;> simp [NumericValues.scalar]
  | 1, _ =>
      exact exact_wrapped exact_word (fun _ => rfl) (fun _ => rfl) fun numbers => by
        cases numbers <;> simp [NumericValues.scalar]
  | 2, _ =>
      exact exact_wrapped exact_word (fun _ => rfl) (fun _ => rfl) fun numbers => by
        cases numbers <;> simp [NumericValues.scalar]
  | 3, _ =>
      exact exact_wrapped exact_signed_byte (fun values => map_eq_flatMap) (fun _ => rfl)
        fun numbers => by cases numbers <;> simp [NumericValues.scalar]
  | 4, _ =>
      exact exact_wrapped exact_byte (fun values => (flatMap_singleton' values).symm)
        (fun _ => rfl) fun numbers => by cases numbers <;> simp [NumericValues.scalar]

theorem exact_sparse_element :
    Exact readSparseElement (fun _ => True) sparseElementBytes := by
  intro bytes element rest
  unfold readSparseElement
  simp only [exact_i64.bind_ok, exact_f32.bind_ok, reader_pure_ok, Prod.mk.injEq]
  constructor
  · rintro ⟨term, -, r1, rfl, weight, -, r2, rfl, rfl, rfl⟩
    exact ⟨trivial, by simp only [sparseElementBytes, append_assoc]⟩
  · rintro ⟨-, rfl⟩
    exact ⟨element.termId, trivial, _, by rw [sparseElementBytes, append_assoc], element.weight,
      trivial, _, rfl, rfl, rfl⟩

section

variable {value : VectorValue} {field : VectorFieldSpec} {bytes : List UInt8}

/-- A value whose body is within the limit has a size. -/
theorem body_size_ok (hconstructed : value.Constructed)
    (hlength : value.bytes.length ≤ maxPointRecordBytes) : ∃ size, value.bodySize = .ok size := by
  have hwidth : ∀ scalar, 0 < VectorValue.scalarWidth scalar := by
    intro scalar
    unfold VectorValue.scalarWidth
    split
    · decide
    · split <;> decide
  cases value with
  | sparse values =>
      rw [VectorValue.bytes, length_append, length_le_bytes, length_sparse_bytes] at hlength
      have hroom : values.length ≤ (maxPointRecordBytes - 4) / 12 := by
        rw [Nat.le_div_iff_mul_le (by decide)]
        omega
      exact ⟨_, bind_ok.2 ⟨(), require_ok.2 hroom, rfl⟩⟩
  | binary dimension values => exact ⟨_, rfl⟩
  | dense values =>
      simp only [VectorValue.Constructed, VectorValue.check, validateVectorDimension, bind_ok,
        require_ok, exists_unit] at hconstructed
      rw [VectorValue.bytes, length_numeric_bytes] at hlength
      have hroom : 1 ≤ maxPointRecordBytes / VectorValue.scalarWidth values.scalar / values.count := by
        rw [Nat.div_div_eq_div_mul, Nat.le_div_iff_mul_le
          (Nat.mul_pos (hwidth _) hconstructed.1.1), Nat.one_mul, Nat.mul_comm]
        exact hlength
      exact ⟨_, bind_ok.2 ⟨(), require_ok.2 hroom, rfl⟩⟩
  | multi dimension values =>
      simp only [VectorValue.Constructed, VectorValue.check, validateVectorDimension, bind_ok,
        require_ok, exists_unit] at hconstructed
      obtain ⟨⟨hpositive, -⟩, hrows, -, -⟩ := hconstructed
      rw [VectorValue.bytes, length_append, length_le_bytes, length_numeric_bytes] at hlength
      have hroom : values.count / dimension ≤
          (maxPointRecordBytes - 4) / VectorValue.scalarWidth values.scalar / dimension := by
        rw [Nat.div_div_eq_div_mul, Nat.le_div_iff_mul_le (Nat.mul_pos (hwidth _) hpositive),
          Nat.mul_comm (VectorValue.scalarWidth _), ← Nat.mul_assoc,
          Nat.div_mul_cancel (Nat.dvd_of_mod_eq_zero hrows)]
        omega
      exact ⟨_, bind_ok.2 ⟨(), require_ok.2 hroom, rfl⟩⟩

theorem encode_vector_ok (hconstructed : value.Constructed)
    (hvalidate : value.validate field = .ok ())
    (hlength : value.bytes.length ≤ maxPointRecordBytes) :
    encodeVectorValue value field = .ok value.bytes := by
  obtain ⟨size, hsize⟩ := body_size_ok hconstructed hlength
  rw [length_vector_bytes hconstructed hsize] at hlength
  refine bind_ok.2 ⟨size, bind_ok.2 ⟨(), hvalidate, bind_ok.2 ⟨_, hsize, ?_⟩⟩,
    rfl⟩
  exact bind_ok.2 ⟨(), require_ok.2 hlength, rfl⟩

theorem encode_vector_iff (hconstructed : value.Constructed) :
    encodeVectorValue value field = .ok bytes ↔
      value.validate field = .ok () ∧ value.bytes.length ≤ maxPointRecordBytes ∧
        bytes = value.bytes := by
  constructor
  · intro h
    simp only [encodeVectorValue, vectorValueSize, bind_ok, require_ok, exists_unit,
      pure_ok] at h
    obtain ⟨_, ⟨hvalidate, size, hbody, hsize, rfl⟩, rfl⟩ := h
    exact ⟨hvalidate, (length_vector_bytes hconstructed hbody).le.trans hsize, rfl⟩
  · rintro ⟨hvalidate, hlength, rfl⟩
    exact encode_vector_ok hconstructed hvalidate hlength

theorem read_sparse_sound {rest : List UInt8} (h : readSparse bytes = .ok (value, rest)) :
    ∃ elements, value = .sparse elements ∧ value.Constructed ∧ bytes = value.bytes := by
  unfold readSparse at h
  simp only [exact_u32.bind_ok, remaining_bind_ok, check_bind_ok,
    (exact_times exact_sparse_element _ _).bind_ok, of_result_bind_ok, reader_pure_ok,
    Prod.mk.injEq, exists_unit] at h
  obtain ⟨_, -, r1, rfl, ⟨hwhole, hcount⟩, elements, ⟨rfl, -⟩, r2, rfl, hcheck, rfl, rfl⟩ := h
  have hnil : r2 = [] := by
    rw [length_append, length_sparse_bytes] at hwhole hcount
    exact length_eq_zero_iff.1 (by omega)
  refine ⟨elements, rfl, hcheck, ?_⟩
  rw [hnil, append_nil, VectorValue.bytes]

/-- A numeric body that was read is the body of a value of the shape of the field. -/
theorem read_numeric_sound {rest : List UInt8} (hscalar : field.scalar ≤ 4)
    (hkind : field.kind = 0 ∨ field.kind = 2)
    (h : readNumeric field bytes = .ok (value, rest)) :
    value.Constructed ∧ value.kind = field.kind ∧ value.scalar = field.scalar ∧
      value.dimension = field.dimension ∧ bytes = value.bytes := by
  unfold readNumeric at h
  obtain ⟨rows, r, hrows, h⟩ := reader_bind_ok.1 h
  simp only [remaining_bind_ok, check_bind_ok, (exact_scalars hscalar _).bind_ok,
    of_result_bind_ok, reader_pure_ok, Prod.mk.injEq, exists_unit] at h
  obtain ⟨hwhole, ⟨hmod, hdiv⟩, values, ⟨htag, hcount⟩, left, hr, hcheck, hvalue, rfl⟩ := h
  have hlength : values.bytes.length = r.length := by
    rw [length_numeric_bytes, htag, hcount]
    exact Nat.div_mul_cancel (Nat.dvd_of_mod_eq_zero hwhole)
  have hnil : left = [] := by
    rw [hr, length_append] at hlength
    exact length_eq_zero_iff.1 (by omega)
  rw [hnil, append_nil] at hr
  rw [← hcount] at hmod hdiv
  unfold readRows at hrows
  rcases hkind with hkind | hkind
  · rw [if_neg (by omega), reader_pure_ok, Prod.mk.injEq] at hrows
    rw [if_pos hkind] at hcheck hvalue
    subst hvalue
    have hdimension : values.count = field.dimension := by
      have hsum := Nat.div_add_mod values.count field.dimension
      rw [hmod, hdiv, ← hrows.1, Nat.mul_one, Nat.add_zero] at hsum
      exact hsum.symm
    exact ⟨hcheck, hkind.symm, htag, hdimension, hrows.2.trans hr⟩
  · rw [if_pos hkind] at hrows
    rw [if_neg (by omega)] at hcheck hvalue
    subst hvalue
    obtain ⟨-, hbytes⟩ := (exact_u32 _ _ _).1 hrows
    refine ⟨hcheck, hkind.symm, htag, rfl, ?_⟩
    rw [hbytes, hr, VectorValue.bytes, hdiv]

theorem field_shape (h : field.validate = .ok ()) :
    (field.kind = 1 → field.scalar = 0 ∧ field.dimension = 0) ∧
      (field.kind = 3 → field.scalar = 5) ∧ (field.kind ≠ 1 → field.kind ≠ 3 →
        (field.kind = 0 ∨ field.kind = 2) ∧ field.scalar ≤ 4) := by
  unfold VectorFieldSpec.validate at h
  simp only [bind_ok, exists_unit, require_ok] at h
  have hkinds := h.2.2.2.1
  unfold VectorFieldSpec.validateKind at hkinds
  split at hkinds
  case h_5 => cases hkinds
  all_goals
    simp only [bind_ok, exists_unit, require_ok] at hkinds
    omega

/-- A body is decoded from exactly the bytes it is encoded to. -/
theorem decode_vector_iff : decodeVectorValue bytes field = .ok value ↔
    value.Constructed ∧ encodeVectorValue value field = .ok bytes := by
  refine ⟨fun h => ?_, fun h => decode_encode_vector h.1 h.2⟩
  unfold decodeVectorValue at h
  simp only [bind_ok, exists_unit, require_ok] at h
  obtain ⟨hfield, hlength, h⟩ := h
  obtain ⟨hsparse, hbinary, hnumeric⟩ := field_shape hfield
  have hsound : value.Constructed ∧ value.kind = field.kind ∧ value.scalar = field.scalar ∧
      value.dimension = field.dimension ∧ bytes = value.bytes := by
    split at h
    · next hkind =>
      obtain ⟨⟨found, rest⟩, hread, rfl⟩ := map_ok.1 h
      obtain ⟨elements, rfl, hconstructed, hbytes⟩ := read_sparse_sound hread
      exact ⟨hconstructed, hkind.symm, (hsparse hkind).1.symm, (hsparse hkind).2.symm, hbytes⟩
    · next hkind =>
      unfold decodeBinary at h
      simp only [bind_ok, exists_unit, require_ok, pure_ok] at h
      obtain ⟨-, hconstructed, rfl⟩ := h
      exact ⟨hconstructed, hkind.symm, (hbinary hkind).symm, rfl, rfl⟩
    · next hone hthree =>
      obtain ⟨⟨found, rest⟩, hread, rfl⟩ := map_ok.1 h
      obtain ⟨hkind, hscalar⟩ := hnumeric hone hthree
      exact read_numeric_sound hscalar hkind hread
  obtain ⟨hconstructed, hkind, hscalar, hdimension, rfl⟩ := hsound
  refine ⟨hconstructed, encode_vector_ok hconstructed ?_ hlength⟩
  exact bind_ok.2 ⟨(), hfield, bind_ok.2 ⟨(), require_ok.2 ⟨hkind, hscalar⟩,
    require_ok.2 hdimension⟩⟩

end

end Akasha

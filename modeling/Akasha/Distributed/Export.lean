import Akasha.Distributed.Availability
import Akasha.Distributed.Snapshot
import Akasha.Lib.Decimal

/-!
# Exporting a shard and installing it elsewhere

`rebalance_add_replica` exports every live point of a replica as JSON rows and installs the rows on
another one. The rows pass a second validator, are converted at the language boundary again, and
are written as one batch of documents followed by the sparse vectors. Everything that a commit can
store passes each of these stages but the batch: a batch has at most 65,536 mutations and its
envelope at most 256 MiB, and no write bounds the number or the size of the points of a shard.
-/

namespace Akasha

open Lib List

/-! ## From binary32 to binary64 and back -/

/-- `Float64(value)`, as a `Float32` becomes a Python `float`: exact for every finite value. A NaN
keeps its sign and quiet bit. -/
def F32.toF64 (x : F32) : F64 :=
  let sign := x.bits.toNat / 2 ^ 31
  let magnitude := x.bits.toNat % 2 ^ 31
  let widened :=
    if magnitude < binary32.infinity then
      let (m, e) := decodeMagnitude binary32 magnitude
      roundMagnitude binary64 m e
    else if magnitude = binary32.infinity then binary64.infinity
    else 0x7FF8000000000000
  ⟨UInt64.ofNat (sign * 2 ^ 63 + widened)⟩

theorem Lib.BinaryFormat.value_eq (format : BinaryFormat) (magnitude : Nat) :
    format.value magnitude =
      (decodeMagnitude format magnitude).1 * 2 ^ (decodeMagnitude format magnitude).2 := rfl

/-- A finite `Float32` has a finite double of the same value. -/
theorem widen_magnitude {magnitude : Nat} (h : magnitude < binary32.infinity) :
    ∃ widened, widened < binary64.infinity ∧
      binary64.value widened = binary32.value magnitude ∧
      roundMagnitude binary64 (decodeMagnitude binary32 magnitude).1
        (decodeMagnitude binary32 magnitude).2 = widened := by
  obtain ⟨m, e, hdecode⟩ : ∃ m e, decodeMagnitude binary32 magnitude = (m, e) := ⟨_, _, rfl⟩
  obtain ⟨hbits, hlow, hhigh⟩ := decode_magnitude_bounds hdecode
  have hexponent : magnitude / 2 ^ 23 ≤ 254 := by
    simp only [binary32] at h
    omega
  have hwide : m < 2 ^ (binary64.fraction + 1) := lt_of_lt_of_le hbits (by decide)
  have hlow' : binary64.emin ≤ e := le_trans (by decide) hlow
  have hfinite : roundRational binary64 (m * 2 ^ e) < binary64.infinity := by
    by_cases hm : m = 0
    · simp [hm, roundRational, binary64]
    · obtain ⟨q, n, hq, -, hn, -, -, hround⟩ := exact_unit hm hwide hlow'
      have hlog : Nat.log2 m ≤ 23 := by
        have := (Nat.log2_lt hm).2 hbits
        simp only [binary32] at this
        omega
      have hunit : (q - binary64.emin).toNat ≤ 1150 := by
        simp only [binary32, binary64] at hq hhigh ⊢
        omega
      rw [hround]
      calc min binary64.infinity ((q - binary64.emin).toNat * 2 ^ binary64.fraction + n)
          ≤ (q - binary64.emin).toNat * 2 ^ binary64.fraction + n := min_le_right _ _
        _ < 1150 * 2 ^ binary64.fraction + 2 ^ (binary64.fraction + 1) :=
            Nat.add_lt_add_of_le_of_lt (Nat.mul_le_mul_right _ hunit) hn
        _ ≤ binary64.infinity := by decide
  refine ⟨roundRational binary64 (m * 2 ^ e), hfinite, ?_, ?_⟩
  · rw [value_round_exact hwide hlow' hfinite]
    simp [BinaryFormat.value, hdecode]
  · rw [hdecode]
    exact round_magnitude_eq _ _ _

theorem F32.to_f64_bits {x : F32} (h : x.isFinite = true) :
    ∃ widened, widened < binary64.infinity ∧
      binary64.value widened = binary32.value (x.bits.toNat % 2 ^ 31) ∧
      x.toF64.bits.toNat / 2 ^ 63 = x.bits.toNat / 2 ^ 31 ∧
      x.toF64.bits.toNat % 2 ^ 63 = widened := by
  have hmagnitude : x.bits.toNat % 2 ^ 31 < binary32.infinity := by simpa [F32.isFinite] using h
  obtain ⟨widened, hfinite, hvalue, hround⟩ := widen_magnitude hmagnitude
  have hsign : x.bits.toNat / 2 ^ 31 < 2 := by
    have := x.bits.toNat_lt
    omega
  have hbound : binary64.infinity < 2 ^ 63 := by decide
  have hbits : x.toF64.bits.toNat = x.bits.toNat / 2 ^ 31 * 2 ^ 63 + widened := by
    simp only [F32.toF64, if_pos hmagnitude, hround]
    rw [UInt64.toNat_ofNat_of_lt' (by simp only [UInt64.size]; omega)]
  exact ⟨widened, hfinite, hvalue, by omega, by omega⟩

theorem F32.to_f64_finite {x : F32} (h : x.isFinite = true) : x.toF64.isFinite = true := by
  obtain ⟨widened, hfinite, -, -, hmod⟩ := F32.to_f64_bits h
  simp only [F64.isFinite, hmod, decide_eq_true_eq]
  exact hfinite

theorem F64.to_f32_of_finite {x : F64} {magnitude m : Nat} {e : Int}
    (hmod : x.bits.toNat % 2 ^ 63 = magnitude) (hfinite : magnitude < binary64.infinity)
    (hdecode : decodeMagnitude binary64 magnitude = (m, e)) :
    x.toF32 = ⟨UInt32.ofNat (x.bits.toNat / 2 ^ 63 * 2 ^ 31 + roundMagnitude binary32 m e)⟩ := by
  unfold F64.toF32
  simp only [hmod, hfinite, if_true, hdecode]

theorem F32.to_f32_to_f64 {x : F32} (h : x.isFinite = true) : x.toF64.toF32 = x := by
  obtain ⟨widened, hfinite, hvalue, hdiv, hmod⟩ := F32.to_f64_bits h
  have hmagnitude : x.bits.toNat % 2 ^ 31 < binary32.infinity := by simpa [F32.isFinite] using h
  obtain ⟨m, e, hdecode⟩ : ∃ m e, decodeMagnitude binary64 widened = (m, e) := ⟨_, _, rfl⟩
  have hback : roundMagnitude binary32 m e = x.bits.toNat % 2 ^ 31 := by
    rw [BinaryFormat.value_eq, hdecode] at hvalue
    rw [round_magnitude_eq, hvalue, round_rational_value hmagnitude.le]
  rw [F64.to_f32_of_finite hmod hfinite hdecode, hdiv, hback, Nat.div_add_mod']
  rw [UInt32.ofNat_toNat]

/-- What every accepted write leaves of a point. -/
structure Point.Admissible (dimension : Nat) (point : Point) : Prop where
  vector : validateVector dimension point.vector = .ok ()
  payload : ∃ bytes, encodePayload point.fields = .ok bytes
  values : ∀ field ∈ point.fields, field.value.Valid
  sparse : point.sparse = [] ∨ validateSparse point.sparse = .ok ()

/-- Every point of the map is admissible. -/
def PointMap.Admissible (dimension : Nat) (points : PointMap) : Prop :=
  ∀ (id : Int64) (point : Point), points[id]? = some point → point.Admissible dimension

variable {dimension : Nat} {point : Point}

/-- A point before its sparse vector is written. -/
def Point.bare (point : Point) : Point := { point with sparse := [] }

/-- The elements of a valid sparse vector, after a term: their terms ascend from it. -/
theorem validate_sparse_after_spec {elements : List SparseElement} {previous : Int}
    (h : validateSparseAfter previous elements = .ok ()) :
    (∀ element ∈ elements, 0 ≤ element.termId.toInt ∧ previous < element.termId.toInt ∧
      element.weight.isFinite = true) ∧
      (elements.map (·.termId.toInt)).Nodup := by
  induction elements generalizing previous with
  | nil => simp
  | cons element elements ih =>
      simp only [validateSparseAfter, bind_ok, require_ok, exists_unit] at h
      obtain ⟨hterm, hlt, hweight, hrest⟩ := h
      obtain ⟨hall, hnodup⟩ := ih hrest
      refine ⟨?_, ?_⟩
      · intro other hother
        rcases mem_cons.1 hother with rfl | hother
        · exact ⟨hterm, hlt, hweight.1⟩
        · obtain ⟨hnonneg, hlater, hfinite⟩ := hall other hother
          exact ⟨hnonneg, hlt.trans hlater, hfinite⟩
      · rw [map_cons, nodup_cons]
        refine ⟨fun hmem => ?_, hnodup⟩
        obtain ⟨other, hother, heq⟩ := mem_map.1 hmem
        have := (hall other hother).2.1
        omega

theorem Point.Admissible.elements (h : point.Admissible dimension) :
    (∀ element ∈ point.sparse, 0 ≤ element.termId.toInt ∧ element.weight.isFinite = true) ∧
      (point.sparse.map (·.termId.toInt)).Nodup := by
  rcases h.sparse with hnil | hvalid
  · simp [hnil]
  · simp only [validateSparse, bind_ok, require_ok, exists_unit] at hvalid
    obtain ⟨hall, hnodup⟩ := validate_sparse_after_spec hvalid.2
    exact ⟨fun element helement => ⟨(hall element helement).1, (hall element helement).2.2⟩, hnodup⟩

theorem Point.Admissible.names (h : point.Admissible dimension) :
    (∀ item ∈ point.fields, validateFieldName item.name = .ok ()) ∧
      (point.fields.map (·.name)).Nodup :=
  validate_fields_ok.1 (encode_payload_ok.1 h.payload).2.1

theorem Point.Admissible.finite (h : point.Admissible dimension) :
    point.vector.length = dimension ∧ ∀ value ∈ point.vector, value.isFinite = true := by
  have hvector := h.vector
  simp only [validateVector, bind_ok, require_ok, exists_unit] at hvector
  exact hvector

theorem encode_payload_size {fields : List DocumentField} {bytes : List UInt8}
    (h : encodePayload fields = .ok bytes) :
    bytes.length = 4 + (fields.map DocumentField.size).sum := by
  simp only [encodePayload, bind_ok, require_ok, exists_unit, pure_ok] at h
  obtain ⟨-, -, encoded, hencoded, -, rfl⟩ := h
  rw [length_append, length_le_bytes, encode_payload_fields_length hencoded]

namespace Distributed

open Lib.Exec

/-! ## The rows of an export -/

/-- The type name of `_field_to_python`. -/
def exportKind : PayloadValue → String
  | .string _ => "string"
  | .integer _ => "int"
  | .floating _ => "float"
  | .boolean _ => "bool"

/-- The value of `_field_to_python`. -/
def exportValue : PayloadValue → Json
  | .string value => .str value
  | .integer value => .int value.toInt
  | .floating value => .float value
  | .boolean value => .bool value

/-- `_field_to_python`. -/
def exportField (item : DocumentField) : Json :=
  .obj [("name", .str item.name), ("type", .str (exportKind item.value)),
    ("value", exportValue item.value)]

/-- One element of a sparse vector. -/
def exportElement (element : SparseElement) : Json :=
  .obj [("term_id", .int element.termId.toInt), ("weight", .float element.weight.toF64)]

/-- One row of `export_records`: `_document_to_python`, and the sparse vector. -/
def exportRow (sequence : Int64 → Nat) (row : Int64 × Point) : Json :=
  .obj [("id", .int row.1.toInt), ("sequence", .int (sequence row.1)),
    ("vector", .arr (row.2.vector.map fun value => .float value.toF64)),
    ("fields", .arr (row.2.fields.map exportField)),
    ("sparse", .arr (row.2.sparse.map exportElement))]

theorem Snapshot.check_all_map {α β : Type} {check : List α → Json → Except Error α}
    {f : β → Json} (key : β → α) {items : List β} {seen : List α}
    (hcheck : ∀ item ∈ items, ∀ before, key item ∉ before →
      check before (f item) = .ok (key item))
    (hseen : ∀ item ∈ items, key item ∉ seen) (hnodup : (items.map key).Nodup) :
    Snapshot.checkAll check seen (items.map f) = .ok () := by
  induction items generalizing seen with
  | nil => rfl
  | cons item items ih =>
      rw [map_cons, nodup_cons] at hnodup
      have hfirst := hcheck item (by simp) seen (hseen item (by simp))
      simp only [map_cons, Snapshot.checkAll, hfirst, bind, Except.bind]
      refine ih (fun other hother => hcheck other (by simp [hother])) ?_ hnodup.2
      intro other hother
      rw [mem_cons, not_or]
      refine ⟨fun heq => hnodup.1 ?_, hseen other (by simp [hother])⟩
      exact mem_map.2 ⟨other, hother, heq⟩

theorem map_m_map_ok {α β : Type} {convert : Json → Except Error α} {f : β → Json} {g : β → α}
    {items : List β} (h : ∀ item ∈ items, convert (f item) = .ok (g item)) :
    (items.map f).mapM convert = .ok (items.map g) := by
  induction items with
  | nil => rfl
  | cons item items ih =>
      rw [forall_mem_cons] at h
      simp only [map_cons, mapM_cons, h.1, ih h.2, bind, Except.bind, pure, Except.pure]

theorem for_m_map_ok {α : Type} {check : Json → Except Error Unit} {f : α → Json}
    {items : List α} (h : ∀ item ∈ items, check (f item) = .ok ()) :
    (items.map f).forM check = .ok () := by
  induction items with
  | nil => rfl
  | cons item items ih =>
      rw [forall_mem_cons] at h
      exact bind_ok.2 ⟨(), h.1, ih h.2⟩

theorem kernel_int_to_int (id : Int64) : kernelInt (.int id.toInt) = .ok id := by
  have hlow := id.le_toInt
  have hhigh := id.toInt_lt
  have hfits : int64OfInt? id.toInt = some id := by
    unfold int64OfInt?
    rw [if_pos ⟨by simpa using hlow, by simpa using hhigh⟩, Int64.ofInt_toInt]
  simp [kernelInt, hfits, pure, Except.pure]

theorem field_name_ne_empty {name : String} (h : validateFieldName name = .ok ()) : name ≠ "" := by
  rintro rfl
  exact absurd (validate_field_name_ok.1 h).1 (by decide)

theorem parse_export_value {value : PayloadValue} (h : value.Valid) :
    exportKind value ∈ payloadKinds ∧
      Snapshot.parsePayloadValue (exportKind value) (exportValue value) = .ok () := by
  cases value with
  | string value => exact ⟨by simp [exportKind, payloadKinds], rfl⟩
  | integer value => exact ⟨by simp [exportKind, payloadKinds], rfl⟩
  | boolean value => exact ⟨by simp [exportKind, payloadKinds], rfl⟩
  | floating value =>
      have hfinite : value.isFinite = true := h
      refine ⟨by simp [exportKind, payloadKinds], ?_⟩
      exact require_ok.2 hfinite

theorem parse_export_field {item : DocumentField} {names : List String}
    (hname : validateFieldName item.name = .ok ()) (hvalid : item.value.Valid)
    (hnew : item.name ∉ names) :
    Snapshot.parsePayloadItem names (exportField item) = .ok item.name := by
  obtain ⟨hkind, hvalue⟩ := parse_export_value hvalid
  simp only [Snapshot.parsePayloadItem, bind_ok, require_ok, exists_unit, pure_ok]
  exact ⟨rfl, _, rfl, ⟨field_name_ne_empty hname, hnew⟩, _, rfl, hkind, hvalue, rfl⟩

theorem kernel_export_value {value : PayloadValue} (h : value.Valid) :
    kernelValue (exportKind value) (exportValue value) = .ok value := by
  cases value with
  | string value => rfl
  | boolean value => rfl
  | integer value =>
      show PayloadValue.integer <$> kernelInt (.int value.toInt) = _
      rw [kernel_int_to_int]
      rfl
  | floating value =>
      have hfinite : value.isFinite = true := h
      show (do
        require value.isFinite _
        pure (PayloadValue.floating value)) = _
      simp only [bind_ok, require_ok, exists_unit, pure_ok, hfinite, true_and]

theorem kernel_export_field {item : DocumentField}
    (hname : validateFieldName item.name = .ok ()) (hvalid : item.value.Valid) :
    kernelField (exportField item) = .ok item := by
  simp only [kernelField, bind_ok, exists_unit, pure_ok]
  refine ⟨_, rfl, _, rfl, _, kernel_export_value hvalid, ?_, rfl⟩
  show kernelCheck (validateFieldName item.name) = .ok ()
  rw [hname]
  rfl

theorem parse_export_element {element : SparseElement} {terms : List Int}
    (hterm : 0 ≤ element.termId.toInt) (hnew : element.termId.toInt ∉ terms)
    (hweight : element.weight.isFinite = true) :
    Snapshot.parseSparseItem terms (exportElement element) = .ok element.termId.toInt := by
  simp only [Snapshot.parseSparseItem, bind_ok, require_ok, exists_unit, pure_ok]
  refine ⟨rfl, _, rfl, ⟨hterm, hnew⟩, ?_, rfl⟩
  show Snapshot.finiteValue _ _ (.float element.weight.toF64) = .ok ()
  simp only [Snapshot.finiteValue, require_ok, F32.to_f64_finite hweight]

theorem kernel_float32_to_f64 {value : F32} (h : value.isFinite = true) :
    kernelFloat32 (.float value.toF64) = .ok value := by
  show Except.ok (F64.toF32 value.toF64) = .ok value
  rw [F32.to_f32_to_f64 h]

theorem kernel_export_element {element : SparseElement} (hweight : element.weight.isFinite = true) :
    kernelSparseElement (exportElement element) = .ok element := by
  simp only [kernelSparseElement, bind_ok, pure_ok]
  exact ⟨_, kernel_int_to_int _, _, kernel_float32_to_f64 hweight, rfl⟩

variable {sequence : Int64 → Nat} {row : Int64 × Point}

theorem parse_export_row {seen : List Int} (h : row.2.Admissible dimension)
    (hsequence : 0 < sequence row.1) (hnew : row.1.toInt ∉ seen) :
    Snapshot.parseSnapshotRow dimension seen (exportRow sequence row) = .ok row.1.toInt := by
  obtain ⟨hlength, hfinite⟩ := h.finite
  obtain ⟨hnames, hdistinct⟩ := h.names
  obtain ⟨helements, hterms⟩ := h.elements
  simp only [Snapshot.parseSnapshotRow, bind_ok, require_ok, exists_unit, pure_ok]
  refine ⟨rfl, _, rfl, _, rfl, by exact_mod_cast hsequence, hnew, _, rfl, by simpa using hlength,
    ?_, _, rfl, ?_, _, rfl, ?_, rfl⟩
  · refine for_m_map_ok fun value hvalue => ?_
    exact require_ok.2 (F32.to_f64_finite (hfinite value hvalue))
  · exact Snapshot.check_all_map (·.name) (fun item hitem names hname =>
      parse_export_field (hnames item hitem) (h.values item hitem) hname) (by simp) hdistinct
  · exact Snapshot.check_all_map (·.termId.toInt) (fun element helement terms hterm =>
      parse_export_element (helements element helement).1 hterm (helements element helement).2)
      (by simp) hterms

theorem batch_export_row (h : row.2.Admissible dimension) :
    Snapshot.batchDocument (exportRow sequence row) =
      .ok (row.1, row.2.vector, row.2.fields) := by
  obtain ⟨-, hfinite⟩ := h.finite
  obtain ⟨hnames, -⟩ := h.names
  have hvector : kernelVector (.arr (row.2.vector.map fun value => .float value.toF64)) =
      .ok row.2.vector := by
    have := map_m_map_ok (g := id) fun value hvalue => kernel_float32_to_f64 (hfinite value hvalue)
    rwa [map_id] at this
  have hfields : kernelFields (.arr (row.2.fields.map exportField)) = .ok row.2.fields := by
    have := map_m_map_ok (g := id) fun item hitem =>
      kernel_export_field (hnames item hitem) (h.values item hitem)
    rwa [map_id] at this
  simp only [Snapshot.batchDocument, bind_ok, pure_ok]
  exact ⟨_, hvector, _, hfields, _, kernel_int_to_int _, rfl⟩

theorem sparse_step_export (h : row.2.Admissible dimension) (points : PointMap) :
    sparseStep (exportRow sequence row) points =
      kernelCheck (points.upsertSparse row.1 row.2.sparse) := by
  obtain ⟨helements, -⟩ := h.elements
  have hkernel : kernelSparse (.arr (row.2.sparse.map exportElement)) = .ok row.2.sparse := by
    have := map_m_map_ok (g := id) fun element helement =>
      kernel_export_element (helements element helement).2
    rwa [map_id] at this
  show (kernelSparse (.arr (row.2.sparse.map exportElement)) >>= fun elements =>
    kernelInt (.int row.1.toInt) >>= fun id => kernelCheck (points.upsertSparse id elements)) = _
  rw [hkernel, kernel_int_to_int]
  rfl

theorem has_sparse_export_row :
    hasSparse (exportRow sequence row) = true ↔ row.2.sparse ≠ [] := by
  show (!(row.2.sparse.map exportElement).isEmpty) = true ↔ _
  simp

/-! ## The batch -/

/-- The documents of a batch of exported rows. -/
def exportDocuments (live : List (Int64 × Point)) : List BatchDocument :=
  live.map fun row => (row.1, row.2.vector, row.2.fields)

/-- The bytes of the mutation of one row in a batch. -/
def mutationBytes (dimension : Nat) (row : Int64 × Point) : Nat :=
  20 + 4 * dimension + (4 + (row.2.fields.map DocumentField.size).sum)

/-- The bytes of the envelope that holds all rows. -/
def batchBytes (dimension : Nat) (live : List (Int64 × Point)) : Nat :=
  36 + (live.map (mutationBytes dimension)).sum

/-- The record of a row in the batch of a new collection. -/
def exportRecord (index : Nat) (row : Int64 × Point) : Storage.WalRecord :=
  .documentUpsert (UInt64.ofNat (index + 1)) row.1 row.2.vector row.2.fields

theorem encode_mutation_export (h : row.2.Admissible dimension) (index : Nat) :
    ∃ bytes, Storage.encodeMutation dimension 1 index (exportRecord index row) = .ok bytes ∧
      bytes.length = mutationBytes dimension row := by
  obtain ⟨hvector, -⟩ := h.finite
  obtain ⟨payload, hpayload⟩ := h.payload
  have hsequence : UInt64.ofNat (index + 1) = 1 + UInt64.ofNat index := by
    rw [UInt64.ofNat_add, UInt64.add_comm]
    rfl
  have hbody : Storage.mutationBody dimension (exportRecord index row) =
      .ok (leBytes 4 (dimension * 4 + 4 + payload.length) ++
        Storage.recordBody (exportRecord index row) payload) :=
    bind_ok.2 ⟨(), require_ok.2 hvector, bind_ok.2 ⟨payload, hpayload, rfl⟩⟩
  refine ⟨_, bind_ok.2 ⟨(), require_ok.2 hsequence, bind_ok.2 ⟨_, hbody, rfl⟩⟩, ?_⟩
  simp only [length_cons, length_append, length_le_bytes, i64Bytes,
    Storage.recordBody, exportRecord, Storage.WalRecord.documentUpsert, Bool.false_eq_true,
    if_false, length_flat_map_f32, hvector, encode_payload_size hpayload, mutationBytes]
  omega

theorem encode_mutations_export {live : List (Int64 × Point)}
    (h : ∀ row ∈ live, row.2.Admissible dimension) (start : Nat) :
    ∃ body, Storage.encodeMutations dimension 1 start
        ((live.zipIdx start).map fun item => exportRecord item.2 item.1) = .ok body ∧
      body.length = (live.map (mutationBytes dimension)).sum := by
  induction live generalizing start with
  | nil => exact ⟨[], rfl, rfl⟩
  | cons row live ih =>
      rw [forall_mem_cons] at h
      obtain ⟨first, hfirst, hlength⟩ := encode_mutation_export h.1 start
      obtain ⟨rest, hrest, hrestlength⟩ := ih h.2 (start + 1)
      refine ⟨first ++ rest, ?_, by simp [hlength, hrestlength]⟩
      exact bind_ok.2 ⟨first, hfirst, bind_ok.2 ⟨rest, hrest, rfl⟩⟩

theorem batch_records_export (live : List (Int64 × Point)) :
    batchRecords (exportDocuments live) =
      live.zipIdx.map fun item => exportRecord item.2 item.1 := by
  simp only [batchRecords, exportDocuments, zipIdx_map, map_map]
  rfl

/-- The envelope takes exactly the exports within the limits of the log. -/
theorem encode_batch_export {live : List (Int64 × Point)} (hdimension : 0 < dimension)
    (h : ∀ row ∈ live, row.2.Admissible dimension) (hne : live ≠ []) :
    (∃ bytes, Storage.encodeBatch dimension (batchRecords (exportDocuments live)) = .ok bytes) ↔
      live.length ≤ Storage.maxBatchRecords ∧
        batchBytes dimension live ≤ Storage.maxBatchBytes := by
  obtain ⟨row, rest, rfl⟩ := exists_cons_of_ne_nil hne
  obtain ⟨body, hbody, hlength⟩ := encode_mutations_export h 0
  have hsize : Storage.walHeaderSize + body.length + 4 = batchBytes dimension (row :: rest) := by
    rw [hlength, batchBytes, Storage.walHeaderSize]
    omega
  have hfirst : (((row :: rest).zipIdx.map fun item => exportRecord item.2 item.1).head?.map
      (·.sequence)).getD 0 = 1 := rfl
  rw [batch_records_export]
  simp only [Storage.encodeBatch, hfirst, bind_ok, require_ok, exists_unit, pure_ok,
    hbody, Except.ok.injEq, length_map, length_zipIdx]
  constructor
  · rintro ⟨_, -, -, hcount, -, -, _, rfl, hbytes, -⟩
    exact ⟨hcount, hsize ▸ hbytes⟩
  · rintro ⟨hcount, hbytes⟩
    have hmax : Storage.maxBatchRecords = 65536 := rfl
    refine ⟨_, hdimension, by simp, hcount, by decide, ?_, body, rfl, hsize.symm ▸ hbytes, rfl⟩
    show (1 : UInt64).toNat ≤ _
    rw [hmax] at hcount
    simp only [UInt64.toNat_one]
    omega

/-! ## What the staged writes leave -/

/-- The documents of admissible rows are all accepted, each at its own identifier. -/
theorem documents_stored {live : List (Int64 × Point)}
    (h : ∀ row ∈ live, row.2.Admissible dimension) (hnodup : (live.map Prod.fst).Nodup)
    (points : PointMap) (hfresh : ∀ row ∈ live, points[row.1]? = none) :
    ∃ stored : PointMap, (exportDocuments live).foldlM (fun (points : PointMap) document =>
        kernelCheck (points.upsertDocument dimension document.1 document.2.1 document.2.2)) points =
          .ok stored ∧
      (∀ row ∈ live, stored[row.1]? = some row.2.bare) ∧
      ∀ id, id ∉ live.map Prod.fst → stored[id]? = points[id]? := by
  induction live generalizing points with
  | nil => exact ⟨points, rfl, by simp, fun _ _ => rfl⟩
  | cons row live ih =>
      rw [forall_mem_cons] at h hfresh
      rw [map_cons, nodup_cons] at hnodup
      obtain ⟨payload, hpayload⟩ := h.1.payload
      have hsparse : points.sparseOf row.1 = [] := by simp [PointMap.sparseOf, hfresh.1]
      have hwrite : points.upsertDocument dimension row.1 row.2.vector row.2.fields =
          .ok (points.insert row.1 (row.2.bare)) := by
        simp only [PointMap.upsertDocument, h.1.vector, hpayload, hsparse, bind, Except.bind]
        rfl
      have hother : ∀ other ∈ live, row.1 ≠ other.1 := fun other hmem heq =>
        hnodup.1 (mem_map.2 ⟨other, hmem, heq.symm⟩)
      obtain ⟨stored, hstored, hrows, hrest⟩ := ih h.2 hnodup.2
        (points.insert row.1 row.2.bare) fun other hmem => by
          rw [Std.ExtTreeMap.getElem?_insert, if_neg (by simpa using hother other hmem)]
          exact hfresh.2 other hmem
      refine ⟨stored, ?_, ?_, ?_⟩
      · simp only [exportDocuments, map_cons, foldlM_cons, hwrite, kernelCheck, pure,
          Except.pure, bind, Except.bind]
        exact hstored
      · intro other hmem
        rcases mem_cons.1 hmem with rfl | hmem
        · rw [hrest _ hnodup.1, Std.ExtTreeMap.getElem?_insert_self]
        · exact hrows other hmem
      · intro id hid
        rw [map_cons, mem_cons, not_or] at hid
        rw [hrest id hid.2, Std.ExtTreeMap.getElem?_insert, if_neg (by simpa using Ne.symm hid.1)]

/-- The sparse vectors of admissible rows are all accepted after their documents. -/
theorem sparse_rows_stored {live : List (Int64 × Point)}
    (h : ∀ row ∈ live, row.2.Admissible dimension) (hnodup : (live.map Prod.fst).Nodup)
    (points : PointMap) (hbare : ∀ row ∈ live, points[row.1]? = some row.2.bare) :
    ∃ stored : PointMap, live.foldlM (fun (points : PointMap) row =>
        if row.2.sparse.isEmpty then pure points
        else kernelCheck (points.upsertSparse row.1 row.2.sparse)) points = .ok stored ∧
      (∀ row ∈ live, stored[row.1]? = some row.2) ∧
      ∀ id, id ∉ live.map Prod.fst → stored[id]? = points[id]? := by
  induction live generalizing points with
  | nil => exact ⟨points, rfl, by simp, fun _ _ => rfl⟩
  | cons row live ih =>
      rw [forall_mem_cons] at h hbare
      rw [map_cons, nodup_cons] at hnodup
      have hother : ∀ other ∈ live, row.1 ≠ other.1 := fun other hmem heq =>
        hnodup.1 (mem_map.2 ⟨other, hmem, heq.symm⟩)
      -- the write of the first row, if it has one, leaves its point complete
      obtain ⟨next, hnext, hself, hframe⟩ : ∃ next : PointMap,
          (if row.2.sparse.isEmpty then pure points
            else kernelCheck (points.upsertSparse row.1 row.2.sparse)) = .ok next ∧
          next[row.1]? = some row.2 ∧ ∀ id, row.1 ≠ id → next[id]? = points[id]? := by
        by_cases hsparse : row.2.sparse = []
        · refine ⟨points, by rw [hsparse]; rfl, ?_, fun _ _ => rfl⟩
          rw [hbare.1, Point.bare, ← hsparse]
        · refine ⟨points.insert row.1 row.2, ?_, ?_, fun id hne => ?_⟩
          · rw [if_neg (by simpa using hsparse), PointMap.upsertSparse,
              h.1.sparse.resolve_left hsparse, hbare.1]
            rfl
          · rw [Std.ExtTreeMap.getElem?_insert_self]
          · rw [Std.ExtTreeMap.getElem?_insert, if_neg (by simpa using hne)]
      obtain ⟨stored, hstored, hrows, hrest⟩ := ih h.2 hnodup.2 next
        fun other hmem => by rw [hframe _ (hother other hmem), hbare.2 other hmem]
      refine ⟨stored, ?_, ?_, ?_⟩
      · rw [foldlM_cons, hnext]
        exact hstored
      · intro other hmem
        rcases mem_cons.1 hmem with rfl | hmem
        · rw [hrest _ hnodup.1, hself]
        · exact hrows other hmem
      · intro id hid
        rw [map_cons, mem_cons, not_or] at hid
        rw [hrest id hid.2, hframe id (Ne.symm hid.1)]

/-- The export is within the limits of one batch: at most 65,536 rows, and an envelope of at most
256 MiB. -/
def ExportFits (dimension : Nat) (live : List (Int64 × Point)) : Prop :=
  live.length ≤ maxBatchRows ∧ batchBytes dimension live ≤ Storage.maxBatchBytes

section

variable {points : PointMap} {live : List (Int64 × Point)}

theorem mem_live_iff (hlive : live.Perm points.toList) :
    row ∈ live ↔ points[row.1]? = some row.2 := by
  rw [hlive.mem_iff, ← Std.ExtTreeMap.mem_toList_iff_getElem?_eq_some]

theorem live_nodup (hlive : live.Perm points.toList) : (live.map Prod.fst).Nodup := by
  rw [(hlive.map Prod.fst).nodup_iff]
  have hdistinct := points.distinct_keys_toList
  rw [List.Nodup, pairwise_map]
  exact hdistinct.imp fun hne heq => by simp [heq] at hne

/-- The documents of all rows, as one batch. -/
theorem apply_batch_export (hdimension : 0 < dimension)
    (hpoints : points.Admissible dimension) (hlive : live.Perm points.toList) (hne : live ≠ []) :
    ∃ stored : PointMap, (∀ row ∈ live, stored[row.1]? = some row.2.bare) ∧
      (∀ id, id ∉ live.map Prod.fst → stored[id]? = none) ∧
      ∀ result, applyBatch dimension (exportDocuments live) ∅ = .ok result ↔
        ExportFits dimension live ∧ result = stored := by
  have hrows : ∀ row ∈ live, row.2.Admissible dimension := fun row hrow =>
    hpoints row.1 row.2 ((mem_live_iff hlive).1 hrow)
  obtain ⟨stored, hstored, hbare, hrest⟩ := documents_stored hrows (live_nodup hlive) ∅
    fun row _ => by simp
  have hencode := encode_batch_export hdimension hrows hne
  have hlength : (exportDocuments live).length = live.length := by simp [exportDocuments]
  refine ⟨stored, hbare, fun id hid => by rw [hrest id hid]; simp, fun result => ?_⟩
  simp only [applyBatch, hlength, bind_ok, require_ok, exists_unit, pure_ok, hstored,
    Except.ok.injEq]
  constructor
  · rintro ⟨hcount, _, rfl, bytes, hbytes, rfl⟩
    cases hresult : Storage.encodeBatch dimension (batchRecords (exportDocuments live)) with
    | ok bytes => exact ⟨⟨hcount, (hencode.1 ⟨bytes, hresult⟩).2⟩, rfl⟩
    | error e =>
        rw [hresult] at hbytes
        cases hbytes
  · rintro ⟨hfits, rfl⟩
    obtain ⟨bytes, hbytes⟩ := hencode.2 hfits
    exact ⟨hfits.1, result, rfl, bytes, by rw [hbytes]; rfl, rfl⟩

/-- The staged rows give the points back exactly when the export fits a batch. -/
theorem stage_rows_iff (hdimension : 0 < dimension) (hpoints : points.Admissible dimension)
    (hlive : live.Perm points.toList) {stored : PointMap} :
    stageRows dimension live = .ok stored ↔ ExportFits dimension live ∧ stored = points := by
  have hrows : ∀ row ∈ live, row.2.Admissible dimension := fun row hrow =>
    hpoints row.1 row.2 ((mem_live_iff hlive).1 hrow)
  by_cases hne : live = []
  · have hempty : points = ∅ := by
      subst hne
      exact Std.ExtTreeMap.toList_eq_nil_iff.1 hlive.nil_eq.symm
    have hfits : ExportFits dimension live := by
      subst hne
      exact ⟨Nat.zero_le _, by simp [batchBytes, Storage.maxBatchBytes]⟩
    subst hne
    simp [stageRows, hfits, hempty, pure, Except.pure, eq_comm]
  obtain ⟨documents, hbare, hnone, hbatch⟩ := apply_batch_export hdimension hpoints hlive hne
  obtain ⟨whole, hwhole, hfull, hrest⟩ :=
    sparse_rows_stored hrows (live_nodup hlive) documents hbare
  -- the rows are all of the points, so the stored map has no other
  have heq : whole = points := by
    refine Std.ExtTreeMap.ext_getElem? fun {id} => ?_
    by_cases hid : id ∈ live.map Prod.fst
    · obtain ⟨row, hrow, rfl⟩ := mem_map.1 hid
      rw [hfull row hrow, (mem_live_iff hlive).1 hrow]
    · rw [hrest id hid, hnone id hid]
      cases hpoint : points[id]? with
      | none => rfl
      | some point =>
          have hrow : (id, point) ∈ live := (mem_live_iff hlive).2 hpoint
          exact absurd (mem_map.2 ⟨_, hrow, rfl⟩) hid
  rw [stageRows, if_neg (by simpa using hne), bind_ok]
  change (∃ a, applyBatch dimension (exportDocuments live) ∅ = _ ∧ _) ↔ _
  simp only [hbatch]
  constructor
  · rintro ⟨_, ⟨hfits, rfl⟩, hrun⟩
    rw [hwhole, Except.ok.injEq] at hrun
    exact ⟨hfits, hrun.symm.trans heq⟩
  · rintro ⟨hfits, rfl⟩
    exact ⟨documents, ⟨hfits, rfl⟩, by rw [hwhole, heq]⟩

/-- The staged writes of the rows are those of their export. -/
theorem stage_rows_export (sequence : Int64 → Nat) {live : List (Int64 × Point)}
    (h : ∀ row ∈ live, row.2.Admissible dimension) :
    stageRows dimension live =
      runSteps (Snapshot.stagedSteps dimension (live.map (exportRow sequence))) ∅ := by
  have hmap : (live.map (exportRow sequence)).mapM Snapshot.batchDocument =
      .ok (exportDocuments live) :=
    map_m_map_ok fun row hrow => batch_export_row (h row hrow)
  -- after the batch both fold over the rows, and an empty sparse vector writes nothing
  have hsparse : ∀ points : PointMap, live.foldlM (fun (points : PointMap) row =>
        if row.2.sparse.isEmpty then pure points
        else kernelCheck (points.upsertSparse row.1 row.2.sparse)) points =
      runSteps (((live.map (exportRow sequence)).filter hasSparse).map sparseStep) points := by
    clear hmap
    induction live with
    | nil => exact fun _ => rfl
    | cons row live ih =>
        intro points
        rw [forall_mem_cons] at h
        rw [foldlM_cons, map_cons]
        by_cases hempty : row.2.sparse = []
        · rw [filter_cons_of_neg fun hyes => has_sparse_export_row.1 hyes hempty, hempty]
          exact ih h.2 points
        · rw [filter_cons_of_pos (has_sparse_export_row.2 hempty), map_cons, runSteps,
            sparse_step_export h.1, if_neg (by simpa using hempty)]
          exact congrArg _ (funext (ih h.2))
  cases live with
  | nil => rfl
  | cons row live =>
      show (applyBatch dimension (exportDocuments (row :: live)) ∅ >>= _) =
        (Snapshot.batchStep dimension ((row :: live).map (exportRow sequence)) ∅ >>= _)
      rw [Snapshot.batchStep, hmap]
      exact congrArg _ (funext hsparse)

/-- The rows of an export pass the checks that are left once their types are right. -/
theorem parse_snapshot_rows_ok {live : List (Int64 × Point)}
    (h : ∀ row ∈ live, row.2.Admissible dimension) (hnodup : (live.map Prod.fst).Nodup) :
    parseSnapshotRows dimension live = .ok () := by
  simp only [parseSnapshotRows, bind_ok, require_ok, exists_unit]
  refine ⟨hnodup, fun row hrow => (h row hrow).finite.1, fun row hrow => (h row hrow).finite.2,
    fun row hrow => ?_, fun row hrow => ?_, fun row hrow element helement =>
      ((h row hrow).elements.1 element helement).2⟩
  · obtain ⟨hnames, hdistinct⟩ := (h row hrow).names
    refine ⟨hdistinct, fun hmem => ?_⟩
    obtain ⟨item, hitem, hempty⟩ := mem_map.1 hmem
    exact field_name_ne_empty (hnames item hitem) hempty
  · obtain ⟨helements, hdistinct⟩ := (h row hrow).elements
    refine ⟨?_, fun element helement => (helements element helement).1⟩
    exact List.Nodup.of_map Int64.toInt (by rwa [map_map])

end

/-! ## The request of a rebalance -/

section

variable [FloatRepr]

/-- The reply of `export` as `rebalance_add_replica` passes it on: the rows, the configuration and
the applied index of the source with their checksum, and the target's term and epoch. -/
def rebalanceRequest (sequence : Int64 → Nat) (live : List (Int64 × Point)) (config : Json)
    (state : ReplicaState) : Snapshot.SnapshotRequest where
  rows := .arr (live.map (exportRow sequence))
  config := config
  index := .int state.appliedIndex
  term := .int state.term
  placementEpoch := .int state.placementEpoch
  checksum := .int (Snapshot.snapshotChecksum (.arr (live.map (exportRow sequence))) config
    state.appliedIndex)

variable {points : PointMap} {live : List (Int64 × Point)}

/-- The checks of `install_snapshot` accept the export of admissible points. -/
theorem check_rebalance_request {config : Json} {state : ReplicaState} {shard : ReplicaShard}
    (hpoints : points.Admissible shard.dimension) (hlive : live.Perm points.toList)
    (hsequence : ∀ id, 0 < sequence id) (hindex : shard.state.appliedIndex ≤ state.appliedIndex)
    (hterm : shard.state.term ≤ state.term)
    (hepoch : shard.state.placementEpoch ≤ state.placementEpoch) :
    Snapshot.checkRequest shard config (rebalanceRequest sequence live config state) =
      .ok ⟨live.map (exportRow sequence), state⟩ := by
  have hrows : Snapshot.parseSnapshotRows shard.dimension (.arr (live.map (exportRow sequence))) =
      .ok (live.map (exportRow sequence)) := by
    refine bind_ok.2 ⟨_, rfl, bind_ok.2 ⟨(), ?_, rfl⟩⟩
    refine Snapshot.check_all_map (fun row => row.1.toInt) (fun row hrow seen hnew => ?_)
      (by simp) ?_
    · exact parse_export_row (hpoints row.1 row.2 ((mem_live_iff hlive).1 hrow)) (hsequence _) hnew
    · have hnodup := live_nodup hlive
      rw [show (live.map fun row => row.1.toInt) = (live.map Prod.fst).map Int64.toInt by
        rw [map_map]; rfl]
      exact hnodup.map fun _ _ heq => Int64.toInt_inj.1 heq
  simp only [Snapshot.checkRequest, rebalanceRequest, exactInt, bind_ok, require_ok,
    exists_unit, pure_ok, hrows, Json.same_iff]
  refine ⟨_, rfl, _, rfl, _, rfl, _, rfl, by exact_mod_cast hindex,
    ⟨by exact_mod_cast hterm, by exact_mod_cast hepoch⟩, trivial, _, rfl, require_ok.2 rfl, rfl⟩

end

/-! ## An install that nothing strikes -/

namespace Snapshot

open Lib.FaultM

/-- The host with another entry at a place. -/
def ShardHost.put (host : ShardHost) (place : Place) (entry : Option Directory) : ShardHost :=
  { host with tree := Function.update host.tree place entry }

theorem ShardHost.put_put (host : ShardHost) (place : Place) (first second : Option Directory) :
    (host.put place first).put place second = host.put place second := by
  simp [ShardHost.put]

theorem ShardHost.put_self {host : ShardHost} {place : Place} {entry : Option Directory}
    (h : host.tree place = entry) : host.put place entry = host := by
  subst h
  simp [ShardHost.put]

/-- Nothing is going to strike. -/
def calm (host : ShardHost) : Faulty ShardHost := ⟨host, none, none⟩

section

variable {host : ShardHost} {Q : Unit → Faulty ShardHost → Prop}
  {E : Lib.Fault Error → Faulty ShardHost → Prop}

@[simp] theorem wp_change_tree_calm {change : SnapshotTree → SnapshotTree} :
    wp (changeTree change) Q E (calm host) ↔
      Q () (calm { host with tree := change host.tree }) :=
  Iff.rfl

@[simp] theorem wp_touch_calm : wp touch Q E (calm host) ↔ Q () (calm host) := Iff.rfl

@[simp] theorem wp_get_calm {Q : ShardHost → Faulty ShardHost → Prop} :
    wp FaultM.get Q E (calm host) ↔ Q host (calm host) := Iff.rfl

@[simp] theorem wp_modify_calm {change : ShardHost → ShardHost} :
    wp (FaultM.modify change) Q E (calm host) ↔ Q () (calm (change host)) := Iff.rfl

theorem returns_of_wp {α : Type} {x : HostM α} {P : α → Faulty ShardHost → Prop}
    (h : wp x P (fun _ _ => False) (calm host)) :
    ∃ a s, x (calm host) = (.ok a, s) ∧ P a s := by
  unfold wp at h
  cases hrun : x (calm host) with
  | mk result s =>
      rw [hrun] at h
      cases result with
      | ok a => exact ⟨a, s, rfl, h⟩
      | error e => exact h.elim

theorem wp_rename_calm {source target : Place} (hsource : (host.tree source).isSome)
    (htarget : host.tree target = none)
    (hok : Q () (calm ((host.put target (host.tree source)).put source none))) :
    wp (rename source target) Q E (calm host) := by
  simp only [rename, wp_bind, wp_get_calm, wp_ensure, hsource, htarget, Option.isNone_none,
    and_self, not_true_eq_false, false_implies, and_true, true_implies]
  exact hok

theorem wp_remove_calm {place : Place} (hok : Q () (calm (host.put place none))) :
    wp (removeSnapshotWorkspace place) Q E (calm host) := by
  simp only [removeSnapshotWorkspace, wp_bind, wp_get_calm, wp_ite, wp_pure, wp_change_tree_calm,
    Function.update_idem]
  refine ⟨fun _ => hok, fun hnone => ?_⟩
  rwa [ShardHost.put_self (Option.not_isSome_iff_eq_none.1 hnone)] at hok

/-- Writes of the staged collection that are all accepted. -/
theorem wp_stage_writes_calm {steps : List (PointMap → Except Error PointMap)} {disk : ShardDisk}
    {points : PointMap} (hstage : host.tree .stage = some (.intact disk))
    (hsteps : runSteps steps disk.collection = .ok points)
    (hok : Q () (calm (host.put .stage (some (.intact { disk with collection := points }))))) :
    wp (forEach steps stageWrite) Q E (calm host) := by
  induction steps generalizing host disk with
  | nil =>
      cases hsteps
      rw [ShardHost.put_self hstage] at hok
      exact hok
  | cons write steps ih =>
      obtain ⟨next, hnext, hrest⟩ := bind_ok.1 hsteps
      have hdisk : (host.diskAt .stage) = disk := by simp [ShardHost.diskAt, hstage, Directory.disk]
      simp only [forEach, stageWrite, wp_bind, wp_get_calm, wp_of_except, hdisk, hnext,
        changeStage, wp_change_tree_calm, hstage, Option.map_some, Directory.change]
      refine ⟨fun points' heq => ?_, fun e he => by cases he⟩
      cases heq
      have hstaged : (host.put .stage (some (.intact { disk with collection := next }))).tree
          .stage = some (.intact { disk with collection := next }) := by simp [ShardHost.put]
      refine ih hstaged hrest ?_
      show Q () (calm ((host.put .stage (some (.intact { disk with collection := next }))).put
        .stage (some (.intact { disk with collection := points }))))
      rwa [ShardHost.put_put]

/-- The files that a call stages. -/
def stagedDisk (call : SnapshotCall) (points : PointMap) : ShardDisk :=
  ⟨call.state, ⟨[.snapshot call.state.appliedIndex], false⟩, points⟩

theorem wp_stage_snapshot_calm {call : SnapshotCall} {rowDimension : Nat} {points : PointMap}
    (hstage : host.tree .stage = some (.intact .empty))
    (hsteps : runSteps (stagedSteps rowDimension call.rows) ∅ = .ok points)
    (hok : Q () (calm (host.put .stage (some (.intact (stagedDisk call points)))))) :
    wp (stageSnapshot rowDimension call) Q E (calm host) := by
  simp only [stageSnapshot, wp_bind, wp_touch_calm]
  refine wp_stage_writes_calm hstage hsteps ?_
  simp only [changeStage, wp_touch_calm, wp_change_tree_calm, ShardHost.put, Function.update_self,
    Function.update_idem, Option.map_some, Directory.change]
  exact hok

theorem wp_recover_calm {disk : ShardDisk} (hroot : host.tree .root = some (.intact disk))
    (hok : Q () (calm (((host.put .backup none).put .stage none).put .failed none))) :
    wp recoverSnapshotWorkspaces Q E (calm host) := by
  have hremoved : wp settleBackup (fun _ s' => s' = calm (host.put .backup none)) E (calm host) := by
    simp only [settleBackup, wp_bind, wp_get_calm, wp_ite, hroot, Option.isSome_some, wp_pure,
      true_implies, not_true_eq_false, false_implies, and_true]
    refine ⟨fun _ => wp_remove_calm rfl, fun hnone => ?_⟩
    rw [ShardHost.put_self (Option.not_isSome_iff_eq_none.1 hnone)]
  simp only [recoverSnapshotWorkspaces, wp_bind]
  refine wp_mono hremoved ?_ fun _ _ he => he
  rintro _ _ rfl
  exact wp_remove_calm (wp_remove_calm hok)

variable [FloatRepr]

/-- The staged directory becomes the root and is opened. -/
theorem wp_swap_stage_calm {call : SnapshotCall} {points : PointMap}
    {Q : PointMap × ReplicaJournal → Faulty ShardHost → Prop}
    (hstage : host.tree .stage = some (.intact (stagedDisk call points)))
    (hroot : host.tree .root = none)
    (hok : ∀ opened, Q opened (calm
      ((host.put .root (some (.intact (stagedDisk call points)))).put .stage none))) :
    wp (swapStage call.state.appliedIndex) Q E (calm host) := by
  have hload : ReplicaJournal.load [.snapshot call.state.appliedIndex] =
      .ok { ReplicaJournal.empty with snapshotIndex := call.state.appliedIndex } := by
    simp [ReplicaJournal.load, ReplicaJournal.loadLines, ReplicaJournal.loadRecord,
      ReplicaJournal.empty, pure, Except.pure, bind, Except.bind]
  simp only [swapStage, wp_bind]
  refine wp_rename_calm (by simp [hstage]) hroot ?_
  have hdisk : ((host.put .root (host.tree .stage)).put .stage none).diskAt .root =
      stagedDisk call points := by
    simp [ShardHost.diskAt, ShardHost.put, Function.update, hstage, Directory.disk]
  simp only [openCollection, openJournal, cutTornLine, wp_bind, wp_touch_calm, wp_get_calm,
    wp_of_except, wp_ite, wp_pure, wp_ensure, hdisk]
  refine ⟨fun journal hjournal => ?_, fun e he => ?_⟩
  · cases hload.symm.trans hjournal
    refine ⟨fun htorn => (Bool.false_ne_true htorn).elim, fun _ => ⟨fun _ => ?_, fun hne => ?_⟩⟩
    · exact hstage ▸ hok _
    · exact absurd rfl hne
  · cases hload.symm.trans he

/-- A calm install of a request whose checks and writes succeed returns. -/
theorem install_calm {shardId dimension : Nat} {view : ShardView} {config : Json}
    {request : SnapshotRequest} (h : Live shardId dimension host view) {next : ShardView}
    (hnext : requestedView view.shard config request = .ok next) :
    ∃ s, installSnapshot config request (calm host) = (.ok (), s) := by
  obtain ⟨disk, hroot, -⟩ := h.root
  simp only [requestedView, bind_ok] at hnext
  obtain ⟨call, hcall, points, hpoints, -⟩ := hnext
  rw [← h.shard] at hcall hpoints
  have hwp : wp (installSnapshot config request) (fun _ _ => True) (fun _ _ => False)
      (calm host) := by
    simp only [installSnapshot, wp_bind, wp_get_calm, wp_of_except, wp_always]
    refine ⟨fun call' hcall' => ?_, fun e he => by cases hcall.symm.trans he⟩
    cases hcall.symm.trans hcall'
    refine wp_recover_calm hroot ?_
    simp only [wp_change_tree_calm]
    refine wp_mono (Q := fun _ s => ∃ after, s = calm after) (E := fun _ _ => False) ?_ ?_ ?_
    · simp only [installStaged, wp_bind]
      refine wp_stage_snapshot_calm (by simp) hpoints ?_
      simp only [wp_modify_calm, wp_recovering]
      refine wp_rename_calm (by simp [ShardHost.put, Function.update, hroot])
        (by simp [ShardHost.put, Function.update]) ?_
      have hswap : ∀ {host' : ShardHost} {Q' E'},
          host'.tree .stage = some (.intact (stagedDisk call points)) → host'.tree .root = none →
          (∀ opened after, Q' opened (calm after)) →
          wp (swapStage call.state.appliedIndex) Q' E' (calm host') :=
        fun hstaged hnone hok => wp_swap_stage_calm hstaged hnone fun opened => hok opened _
      refine hswap (by simp [ShardHost.put, Function.update])
        (by simp [ShardHost.put, Function.update]) fun opened after => ?_
      simp only [wp_modify_calm]
      exact wp_remove_calm (by simp only [wp_touch_calm]; exact ⟨_, rfl⟩)
    · rintro _ _ ⟨after, rfl⟩
      exact wp_remove_calm trivial
    · exact fun _ _ he => he.elim
  obtain ⟨_, s, hrun, -⟩ := returns_of_wp hwp
  exact ⟨s, hrun⟩

end

end Snapshot

/-! ## Every reached point is admissible -/

theorem kernel_value_valid {kind : String} {value : Json} {stored : PayloadValue}
    (h : kernelValue kind value = .ok stored) : stored.Valid := by
  cases stored with
  | string text => trivial
  | integer number => trivial
  | boolean flag => trivial
  | floating number =>
      unfold kernelValue at h
      split at h
      · simp [map_ok] at h
      split at h
      · simp [map_ok] at h
      split at h
      · simp only [bind_ok, require_ok, exists_unit, pure_ok] at h
        obtain ⟨converted, -, hfinite, heq⟩ := h
        cases heq
        exact hfinite
      split at h
      · simp [map_ok] at h
      · cases h

theorem kernel_fields_valid {items : Json} {stored : List DocumentField}
    (h : kernelFields items = .ok stored) : ∀ item ∈ stored, item.value.Valid := by
  cases items with
  | arr values =>
      have hall := map_m_ok.1 h
      intro item hitem
      obtain ⟨value, -, hvalue⟩ := forall₂_exists_left hall hitem
      simp only [kernelField, bind_ok, exists_unit, pure_ok] at hvalue
      obtain ⟨_, _, _, _, _, hkernel, _, rfl⟩ := hvalue
      exact kernel_value_valid hkernel
  | _ =>
      cases h
      simp

/-- One write of a mutation keeps every point admissible. -/
theorem admissible_step {mutation : Json} {step : PointMap → Except Error PointMap}
    {points next : PointMap} (h : points.Admissible dimension)
    (hstep : step ∈ applySteps dimension mutation) (hnext : step points = .ok next) :
    next.Admissible dimension := by
  have hupsert : upsertStep dimension mutation points = .ok next → next.Admissible dimension := by
    intro hwrite
    simp only [upsertStep, bind_ok, kernel_check_ok, PointMap.upsertDocument, exists_unit,
      pure_ok] at hwrite
    obtain ⟨values, -, fields, hfields, id, -, hvector, payload, hpayload, rfl⟩ := hwrite
    intro other point hpoint
    rw [Std.ExtTreeMap.getElem?_insert] at hpoint
    split at hpoint
    · cases hpoint
      refine ⟨hvector, ⟨payload, hpayload⟩, kernel_fields_valid hfields, ?_⟩
      unfold PointMap.sparseOf
      cases hold : points[id]? with
      | none => exact .inl rfl
      | some old => exact (h id old hold).sparse
    · exact h other point hpoint
  have hsparse : sparseStep mutation points = .ok next → next.Admissible dimension := by
    intro hwrite
    simp only [sparseStep, bind_ok, kernel_check_ok, PointMap.upsertSparse,
      exists_unit] at hwrite
    obtain ⟨elements, -, id, -, hvalid, hwrite⟩ := hwrite
    cases hold : points[id]? with
    | none =>
        rw [hold] at hwrite
        cases hwrite
    | some old =>
        rw [hold] at hwrite
        cases hwrite
        intro other point hpoint
        rw [Std.ExtTreeMap.getElem?_insert] at hpoint
        split at hpoint
        · cases hpoint
          have hadmissible := h id old hold
          exact ⟨hadmissible.vector, hadmissible.payload, hadmissible.values, .inr hvalid⟩
        · exact h other point hpoint
  unfold applySteps at hstep
  split at hstep
  · cases mem_singleton.1 hstep
    simp only [deleteStep, bind_ok, pure_ok] at hnext
    obtain ⟨id, -, rfl⟩ := hnext
    intro other point hpoint
    rw [PointMap.delete, Std.ExtTreeMap.getElem?_erase] at hpoint
    split at hpoint
    · cases hpoint
    · exact h other point hpoint
  · split at hstep
    · rcases mem_cons.1 hstep with rfl | hstep
      · exact hupsert hnext
      · cases mem_singleton.1 hstep
        exact hsparse hnext
    · cases mem_singleton.1 hstep
      exact hupsert hnext
  · cases mem_singleton.1 hstep
    cases hnext

/-- The object has the dimension of its shard and every stored point is admissible. -/
structure Stocked (dimension : Nat) (process : Process) : Prop where
  points : process.disk.collection.Admissible dimension
  dimension_eq : process.shard.dimension = dimension

/-- A program keeps the stored points admissible, whatever its outcome. -/
def KeepsStocked (dimension : Nat) {α : Type} (x : ShardM α) : Prop :=
  ∀ process, Stocked dimension process →
    wp x (fun _ => Stocked dimension) (fun _ => Stocked dimension) process

theorem stocked_append_line (line : JournalRecord) : KeepsStocked dimension (appendLine line) := by
  intro process hp
  exact wp_append_line (fun _ _ => ⟨hp.points, hp.dimension_eq⟩)
    (fun _ _ => ⟨hp.points, hp.dimension_eq⟩) fun _ => hp

theorem stocked_publish_state : KeepsStocked dimension publishState := by
  intro process hp
  simp only [publishState, wp_bind, wp_read]
  exact wp_durable (fun _ _ => ⟨hp.points, hp.dimension_eq⟩) fun _ => hp

theorem stocked_apply_entry (entry : ReplicatedEntry) : KeepsStocked dimension (applyEntry entry) := by
  intro process hp
  simp only [applyEntry, apply, modifyShard, wp_bind, wp_read, wp_lift, wp_update]
  refine ⟨fun _ _ => ?_, fun _ _ => hp⟩
  rw [hp.dimension_eq]
  refine wp_mono (wp_for_each_inv (Stocked dimension) _ (fun step hstep p hp => ?_) hp) ?_
    fun _ _ he => he
  · simp only [collectionStep, wp_bind, wp_read, wp_lift]
    refine ⟨fun points hpoints => ?_, fun _ _ => hp⟩
    exact wp_durable (fun left _ => ⟨admissible_step hp.points hstep hpoints, hp.dimension_eq⟩)
      fun _ => hp
  · intro _ p hp
    exact stocked_publish_state _ ⟨hp.points, hp.dimension_eq⟩

theorem stocked_configure (term placementEpoch : Nat) :
    KeepsStocked dimension (configure term placementEpoch) := by
  intro process hp
  simp only [configure, wp_bind, wp_read, wp_ite, wp_raise, modifyShard, wp_update, wp_pure]
  exact ⟨fun _ => hp, fun _ => stocked_publish_state _ ⟨hp.points, hp.dimension_eq⟩⟩

theorem stocked_journal_commit (index : Nat) : KeepsStocked dimension (journalCommit index) := by
  intro process hp
  simp only [journalCommit, wp_bind, wp_read]
  cases process.shard.journal.prepared[index]? with
  | none => exact hp
  | some entry =>
      simp only [wp_ite, wp_pure, wp_bind, modifyShard, wp_update]
      refine ⟨fun _ => hp, fun _ => ?_⟩
      refine wp_mono (stocked_append_line _ process hp) ?_ fun _ _ he => he
      exact fun _ p hp => ⟨hp.points, hp.dimension_eq⟩

/-- The replica's files and its object, if it has one, are as above. -/
structure AdmissibleReplica (dimension : Nat) (replica : Replica) : Prop where
  points : replica.disk.collection.Admissible dimension
  dimension_eq : ∀ shard ∈ replica.shard, shard.dimension = dimension

variable {replica : Replica}

theorem admissible_method {α : Type} {x : ShardM α} {writes : Option Nat}
    (h : AdmissibleReplica dimension replica) (hx : KeepsStocked dimension x) :
    AdmissibleReplica dimension (replica.method writes x) := by
  unfold Replica.method
  cases hshard : replica.shard with
  | none => exact h
  | some shard =>
      refine after_method_of_wp (wp_mono (hx ⟨replica.disk, shard, writes⟩
        ⟨h.points, h.dimension_eq shard hshard⟩) ?_ ?_)
      · intro _ p hp
        exact ⟨hp.points, fun other hother => by cases hother; exact hp.dimension_eq⟩
      · intro e p hp
        split
        · exact ⟨hp.points, fun other hother => by cases hother⟩
        · exact ⟨hp.points, fun other hother => by cases hother; exact hp.dimension_eq⟩

section

variable [FloatRepr]

theorem stocked_journal_prepare (entry : ReplicatedEntry) :
    KeepsStocked dimension (journalPrepare entry) := by
  intro process hp
  simp only [journalPrepare, wp_bind, wp_lift, wp_read]
  refine ⟨fun _ _ => ?_, fun _ _ => hp⟩
  cases process.shard.journal.prepared[entry.index]? with
  | some existing =>
      simp only [wp_ite, wp_raise, wp_pure]
      exact ⟨fun _ => hp, fun _ => hp⟩
  | none =>
      simp only [wp_bind, modifyShard, wp_update]
      refine wp_mono (stocked_append_line _ process hp) ?_ fun _ _ he => he
      exact fun _ p hp => ⟨hp.points, hp.dimension_eq⟩

theorem stocked_prepare (entry : ReplicatedEntry) : KeepsStocked dimension (prepare entry) := by
  intro process hp
  simp only [prepare, wp_bind, wp_read, wp_lift, wp_ensure, wp_pure]
  exact ⟨fun _ _ => ⟨fun _ _ => ⟨fun _ => stocked_journal_prepare entry process hp, fun _ => hp⟩,
    fun _ _ => hp⟩, fun _ _ => hp⟩

theorem stocked_commit (entry : ReplicatedEntry) : KeepsStocked dimension (commit entry) := by
  intro process hp
  simp only [commit, wp_bind, wp_read, wp_lift, wp_pure]
  refine ⟨fun _ _ => ⟨fun _ _ => ?_, fun _ _ => hp⟩, fun _ _ => hp⟩
  refine wp_mono (stocked_journal_prepare entry process hp) ?_ fun _ _ he => he
  intro _ p hp
  refine wp_mono (stocked_journal_commit entry.index p hp) ?_ fun _ _ he => he
  intro committed q hq
  simp only [applyOnce, wp_bind, wp_read, wp_ite, wp_pure]
  exact ⟨fun _ => stocked_apply_entry committed q hq, fun _ => hq⟩

theorem admissible_open {process : Process} (shardId : Nat)
    (h : process.disk.collection.Admissible dimension) :
    wp (openShard shardId dimension) (fun _ => Stocked dimension)
      (fun _ p => p.disk.collection.Admissible dimension) process := by
  have hreplay : ∀ p : Process, Stocked dimension p →
      wp replayCommitted (fun _ => Stocked dimension)
        (fun _ q => q.disk.collection.Admissible dimension) p := by
    intro p hp
    simp only [replayCommitted, wp_bind, wp_read]
    exact wp_for_each_inv (Stocked dimension) _ (fun entry _ q hq =>
      wp_mono (stocked_apply_entry entry q hq) (fun _ _ h => h) fun _ _ h => h.points) hp
  simp only [openShard, repairTornTail, modifyShard, wp_bind, wp_read, wp_lift, wp_ite, wp_pure,
    wp_update]
  refine ⟨fun journal _ => ⟨fun _ => ?_, fun _ => hreplay _ ⟨h, rfl⟩⟩, fun _ _ => h⟩
  exact wp_durable (fun left _ => hreplay _ ⟨h, rfl⟩) fun _ => h

/-- Every point that any run of a replica reaches is admissible. -/
theorem run_admissible (shardId dimension : Nat) (calls : List (ReplicaCall × Option Nat)) :
    AdmissibleReplica dimension (Replica.run shardId dimension .initial calls) := by
  have hempty : AdmissibleReplica dimension .initial :=
    ⟨fun id point hpoint => by simp [Replica.initial, ShardDisk.empty] at hpoint, nofun⟩
  revert hempty
  generalize Replica.initial = replica
  intro h
  induction calls generalizing replica with
  | nil => exact h
  | cons first calls ih =>
    obtain ⟨call, writes⟩ := first
    refine ih _ ?_
    cases call with
    | configure term placementEpoch => exact admissible_method h (stocked_configure term placementEpoch)
    | prepare entry => exact admissible_method h (stocked_prepare entry)
    | commit entry => exact admissible_method h (stocked_commit entry)
    | reopen =>
        refine after_open_of_wp (wp_mono (admissible_open shardId h.points) ?_ ?_)
        · intro _ p hp
          exact ⟨hp.points, fun other hother => by cases hother; exact hp.dimension_eq⟩
        · intro _ p hp
          exact ⟨hp, fun other hother => by cases hother⟩

end

/-! ## Export, then install -/

section

variable [FloatRepr] {points : PointMap} {live : List (Int64 × Point)} {config : Json}
  {state : ReplicaState} {shardId : Nat} {shard : ReplicaShard}

/-- The export of admissible points gives the points back, or does not fit one batch. -/
theorem install_export_iff {host : Snapshot.ShardHost} {view : Snapshot.ShardView}
    (hdimension : 0 < dimension) (hpoints : points.Admissible dimension)
    (hlive : live.Perm points.toList) (hsequence : ∀ id, 0 < sequence id)
    (h : Snapshot.Live shardId dimension host view)
    (hindex : view.shard.state.appliedIndex ≤ state.appliedIndex)
    (hterm : view.shard.state.term ≤ state.term)
    (hepoch : view.shard.state.placementEpoch ≤ state.placementEpoch) :
    (∃ after, Snapshot.installSnapshot config (rebalanceRequest sequence live config state)
        ⟨host, none, none⟩ = (.ok (), after) ∧ after.state.collection = some points) ↔
      ExportFits dimension live := by
  obtain ⟨disk, -, hshows⟩ := h.root
  obtain ⟨journal, -, _, hshard⟩ := hshows.frame
  have hrows : view.shard.dimension = dimension := by rw [hshard]
  have hadmissible : ∀ row ∈ live, row.2.Admissible dimension := fun row hrow =>
    hpoints row.1 row.2 ((mem_live_iff hlive).1 hrow)
  have hcheck : Snapshot.checkRequest view.shard config (rebalanceRequest sequence live config state) =
      .ok ⟨live.map (exportRow sequence), state⟩ :=
    check_rebalance_request (hrows ▸ hpoints) hlive hsequence hindex hterm hepoch
  have hrequested : ∀ next, Snapshot.requestedView view.shard config
      (rebalanceRequest sequence live config state) = .ok next →
        ExportFits dimension live ∧ next.points = points := by
    intro next hnext
    simp only [Snapshot.requestedView, hcheck, bind_ok, Except.ok.injEq, pure_ok,
      hrows] at hnext
    obtain ⟨_, rfl, stored, hstored, rfl⟩ := hnext
    exact (stage_rows_iff hdimension hpoints hlive).1
      ((stage_rows_export sequence hadmissible).trans hstored)
  constructor
  · rintro ⟨after, hrun, -⟩
    obtain ⟨next, -, -, -, hreturns⟩ := Snapshot.install_snapshot_atomic h config
      (rebalanceRequest sequence live config state) none none
    exact (hrequested next (hreturns (by rw [hrun]))).1
  · intro hfits
    have hstored := (stage_rows_export sequence hadmissible).symm.trans
      ((stage_rows_iff hdimension hpoints hlive).2 ⟨hfits, rfl⟩)
    obtain ⟨after, hrun⟩ := Snapshot.install_calm h
      (bind_ok.2 ⟨_, hcheck, bind_ok.2 ⟨points, hrows ▸ hstored, rfl⟩⟩)
    obtain ⟨next, -, -, hobject, hreturns⟩ := Snapshot.install_snapshot_atomic h config
      (rebalanceRequest sequence live config state) none none
    have hreturned : (Snapshot.installSnapshot config (rebalanceRequest sequence live config state)
        ⟨host, none, none⟩) = (.ok (), after) := hrun
    rw [hreturned] at hobject hreturns
    refine ⟨after, hreturned, ?_⟩
    rw [(hobject (by simp)).2, (hrequested next (hreturns rfl)).2]

/-- The two models of an install agree on the rows of an export: the one with every step on the
directories asks for what the one that a coordinator calls leaves. -/
theorem install_agrees (hpoints : points.Admissible shard.dimension)
    (hlive : live.Perm points.toList) (hsequence : ∀ id, 0 < sequence id)
    (hindex : shard.state.appliedIndex ≤ state.appliedIndex)
    (hterm : shard.state.term ≤ state.term)
    (hepoch : shard.state.placementEpoch ≤ state.placementEpoch) (disk : ShardDisk)
    (next : Snapshot.ShardView) :
    Snapshot.requestedView shard config (rebalanceRequest sequence live config state) = .ok next ↔
      installSnapshot live state.appliedIndex state.term state.placementEpoch ⟨disk, shard, none⟩ =
        (.ok (), ⟨⟨state, ⟨[.snapshot state.appliedIndex], false⟩, next.points⟩, next.shard,
          none⟩) := by
  have hrows : ∀ row ∈ live, row.2.Admissible shard.dimension := fun row hrow =>
    hpoints row.1 row.2 ((mem_live_iff hlive).1 hrow)
  simp only [Snapshot.requestedView, check_rebalance_request hpoints hlive hsequence hindex hterm
    hepoch, installSnapshot, read_bind, bind_ok, pure_ok, Except.ok.injEq, exists_eq_left']
  rw [if_neg (by omega), if_neg (by omega), parse_snapshot_rows_ok hrows (live_nodup hlive),
    stage_rows_export sequence hrows]
  cases hsteps : runSteps (Snapshot.stagedSteps shard.dimension
      (live.map (exportRow sequence))) ∅ with
  | error e =>
      refine ⟨fun h => ?_, fun h => ?_⟩
      · obtain ⟨_, hstored, -⟩ := h
        cases hstored
      · cases h
  | ok stored =>
      obtain ⟨nextShard, nextPoints⟩ := next
      refine ⟨fun h => ?_, fun h => ?_⟩
      · obtain ⟨_, heq, hnext⟩ := h
        cases heq
        cases hnext
        rfl
      · obtain rfl := congrArg (·.2.shard) h
        obtain rfl := congrArg (·.2.disk.collection) h
        exact ⟨_, rfl, rfl⟩

omit [FloatRepr] in
/-- The install that `rebalance_add_replica` sends to a reachable replica succeeds exactly when the
export fits one batch. -/
theorem rebalance_install_iff {world : World} {name : String} (hfaults : world.faults = [])
    (halive : (world.nodes name).alive = true)
    (hreachable : (world.nodes name).partitioned = false)
    (hshard : (world.replica name shardId).shard = some shard) (hdimension : 0 < shard.dimension)
    (hpoints : points.Admissible shard.dimension) (hlive : live.Perm points.toList)
    (hindex : shard.state.appliedIndex ≤ state.appliedIndex)
    (hterm : shard.state.term ≤ state.term)
    (hepoch : shard.state.placementEpoch ≤ state.placementEpoch) :
    (rpc name (installRequest shardId live state.appliedIndex state.term state.placementEpoch)
      world).1 = .ok () ↔ ExportFits shard.dimension live := by
  have hrows : ∀ row ∈ live, row.2.Admissible shard.dimension := fun row hrow =>
    hpoints row.1 row.2 ((mem_live_iff hlive).1 hrow)
  have hstaged := fun stored => @stage_rows_iff _ points live hdimension hpoints hlive stored
  change ((world.nodes name).replicas shardId).shard = some shard at hshard
  rw [rpc_arrives hfaults halive hreachable]
  simp only [installRequest, Node.method, hshard, installSnapshot, read_bind]
  rw [if_neg (by omega), if_neg (by omega), parse_snapshot_rows_ok hrows (live_nodup hlive)]
  cases hresult : stageRows shard.dimension live with
  | error e =>
      refine ⟨fun h => (by cases h), fun hfits => ?_⟩
      cases hresult.symm.trans ((hstaged points).2 ⟨hfits, rfl⟩)
  | ok stored => exact ⟨fun _ => ((hstaged stored).1 hresult).1, fun _ => rfl⟩

/-- Export, then install. The source is any shard that commits built, with crashes and restarts
between them; its export goes to an empty replica of the same configuration, which was configured
for no later term and epoch than the request has. The install returns with exactly the points of
the source if the export has at most 65,536 rows and its envelope at most 256 MiB, and only
then. -/
theorem export_then_install (shardId dimension : Nat) (hdimension : 0 < dimension)
    (calls : List (ReplicaCall × Option Nat)) (live : List (Int64 × Point))
    (hlive : live.Perm (Replica.run shardId dimension .initial calls).disk.collection.toList)
    (sequence : Int64 → Nat) (hsequence : ∀ id, 0 < sequence id)
    (host : Snapshot.ShardHost) (view : Snapshot.ShardView)
    (htarget : Snapshot.Live shardId dimension host view)
    (hempty : view.points = ∅ ∧ view.shard.state.appliedIndex = 0)
    (config : Json) (term placementEpoch : Nat) (hterm : view.shard.state.term ≤ term)
    (hepoch : view.shard.state.placementEpoch ≤ placementEpoch) :
    ∀ source, (Replica.run shardId dimension .initial calls).shard = some source →
      ((∃ after, Snapshot.installSnapshot config
          (rebalanceRequest sequence live config ⟨term, placementEpoch, source.state.appliedIndex⟩)
          ⟨host, none, none⟩ = (.ok (), after) ∧
        after.state.collection =
          some (Replica.run shardId dimension .initial calls).disk.collection) ↔
        ExportFits dimension live) := by
  intro source _
  have hindex : view.shard.state.appliedIndex ≤ source.state.appliedIndex := by
    rw [hempty.2]
    exact Nat.zero_le _
  exact install_export_iff hdimension (run_admissible shardId dimension calls).points hlive hsequence
    htarget hindex hterm hepoch

end

/-! ## A shard that no snapshot carries -/

/-- Commits of the sample upserts from one index on. -/
def commitsFrom (first : Nat) : Nat → List (ReplicaCall × Option Nat)
  | 0 => []
  | count + 1 => (.commit (sampleEntry first), none) :: commitsFrom (first + 1) count

/-- A shard that has committed the sample upserts of the indexes up to `count`. -/
structure Filled (count : Nat) (replica : Replica) : Prop where
  shard : ∃ journal, replica.shard = some ⟨0, 1, ⟨1, 1, count⟩, journal⟩ ∧
    ∀ index, count < index → journal.prepared[index]? = none ∧ index ∉ journal.committed
  size : replica.disk.collection.size = count
  fresh : ∀ index, count < index → index < 2 ^ 63 →
    replica.disk.collection[Int64.ofNat index]? = none

theorem sample_mutation_valid (index : Nat) (dimension : Option Nat)
    (h : ∀ expected ∈ dimension, 1 = expected) :
    validateReplicatedMutation (sampleUpsert index) dimension = .ok () := by
  have hfinite : finiteNumber (.int 1) = true := by decide +kernel
  have hpayload : validatePayload [] [sampleItem] = .ok () := by decide +kernel
  have hsparse : validateSparseItems [] [sampleTerm] = .ok () := by decide +kernel
  refine bind_ok.2 ⟨(), rfl, bind_ok.2 ⟨index, rfl, ?_⟩⟩
  refine bind_ok.2 ⟨[.int 1], rfl, bind_ok.2 ⟨(), require_ok.2 (by simp), ?_⟩⟩
  refine bind_ok.2 ⟨(), require_ok.2 h, bind_ok.2 ⟨(), require_ok.2 (by simpa using hfinite), ?_⟩⟩
  exact bind_ok.2 ⟨[sampleItem], rfl, bind_ok.2 ⟨(), hpayload,
    bind_ok.2 ⟨[sampleTerm], rfl, hsparse⟩⟩⟩

theorem sample_upsert_steps {index : Nat} (h : index < 2 ^ 63) (points : PointMap) :
    ∃ point, runSteps (applySteps 1 (sampleUpsert index)) points =
      .ok (points.insert (Int64.ofNat index) point) := by
  obtain ⟨operation, hdenotes, hsteps⟩ := steps_of_accepts
    (sample_mutation_valid index (some 1) (by simp))
    (kernel_accepts_sample_upsert ⟨by omega, by omega⟩)
  have hindex : kernelInt (.int index) = .ok (Int64.ofNat index) := by
    have hexact := kernel_int_to_int (Int64.ofNat index)
    rwa [Int64.toInt_ofNat_of_lt h] at hexact
  cases hdenotes with
  | delete id hoperation hid =>
      change some (Json.str "upsert") = some (.str "delete") at hoperation
      simp at hoperation
  | upsert id vector fields sparse hoperation hid =>
      cases hid.symm.trans hindex
      exact ⟨_, run_steps_of_perform hsteps points⟩

/-- A commit of a new entry above the applied index whose writes succeed. -/
theorem wp_commit_fresh [FloatRepr] {entry : ReplicatedEntry} {disk : ShardDisk}
    (shard : ReplicaShard) {points : PointMap} (hepoch : shard.validateEntryEpoch entry = .ok ())
    (hmutation : validateReplicatedMutation entry.mutation (some shard.dimension) = .ok ())
    (hvalid : entry.validate = .ok ())
    (hprepared : shard.journal.prepared[entry.index]? = none)
    (hcommitted : entry.index ∉ shard.journal.committed)
    (hlater : shard.state.appliedIndex < entry.index)
    (hsteps : runSteps (applySteps shard.dimension entry.mutation) disk.collection = .ok points) :
    wp (commit entry)
      (fun _ p => p.disk.collection = points ∧ p.shard = { shard with
        state := { shard.state with appliedIndex := entry.index }
        journal := (shard.journal.addPrepared entry).addCommitted entry.index })
      (fun _ _ => False) ⟨disk, shard, none⟩ := by
  have hwrites : ∀ (steps : List (PointMap → Except Error PointMap)) (process : Process) (Q),
      runSteps steps process.disk.collection = .ok points → process.writes = none →
      Q () ⟨{ process.disk with collection := points }, process.shard, none⟩ →
      wp (forEach steps collectionStep) Q (fun _ _ => False) process := by
    intro steps
    induction steps with
    | nil =>
        intro process Q hrun hnone hok
        cases hrun
        obtain ⟨disk, shard, writes⟩ := process
        cases hnone
        exact hok
    | cons step steps ih =>
        intro process Q hrun hnone hok
        obtain ⟨next, hnext, hrest⟩ := bind_ok.1 hrun
        simp only [forEach, collectionStep, wp_bind, wp_read, wp_lift, hnext]
        refine ⟨fun points' heq => ?_, fun e he => by cases he⟩
        cases heq
        refine wp_durable (fun left hleft => ?_) fun hne => absurd hnone hne
        exact ih _ Q hrest (hleft hnone) hok
  simp only [commit, wp_bind, wp_read, wp_lift, journalPrepare, hprepared, hepoch, hmutation,
    hvalid, wp_pure]
  refine ⟨fun _ _ => ⟨fun _ _ => ⟨fun _ _ => ?_, by intros; contradiction⟩,
    by intros; contradiction⟩, by intros; contradiction⟩
  refine wp_append_line (fun left hleft => ?_) (fun hne => absurd rfl hne) fun hne => absurd rfl hne
  have hmark : (shard.journal.addPrepared entry).prepared[entry.index]? = some entry := by
    simp [ReplicaJournal.addPrepared]
  have hunmarked : entry.index ∉ (shard.journal.addPrepared entry).committed := hcommitted
  simp only [modifyShard, wp_update, journalCommit, wp_bind, wp_read, hmark, wp_ite, wp_pure]
  refine ⟨fun hin => absurd hin hunmarked, fun _ => ?_⟩
  refine wp_append_line (fun left' hleft' => ?_) (fun hne => absurd (hleft rfl) hne) fun hne =>
    absurd (hleft rfl) hne
  simp only [applyOnce, applyEntry, apply, wp_bind, wp_read, wp_ite, wp_lift, hmutation, wp_pure]
  refine ⟨fun _ => ⟨fun _ _ => ?_, by intros; contradiction⟩, fun hnot => absurd hlater hnot⟩
  refine hwrites _ _ _ hsteps (hleft' (hleft rfl)) ?_
  simp only [modifyShard, wp_update, publishState, wp_bind, wp_read]
  exact wp_durable (fun _ _ => ⟨rfl, rfl⟩) fun hne => absurd rfl hne

theorem filled_commit {count : Nat} (h : Filled count replica) (hcount : count + 1 < 2 ^ 63) :
    Filled (count + 1)
      (@Replica.call sampleFloatRepr 0 1 replica none (.commit (sampleEntry (count + 1)))) := by
  let := sampleFloatRepr
  obtain ⟨journal, hshard, hjournal⟩ := h.shard
  obtain ⟨hprepared, hcommitted⟩ := hjournal (count + 1) (Nat.lt_succ_self _)
  have hfresh := h.fresh (count + 1) (Nat.lt_succ_self _) hcount
  have hmutation := sample_mutation_valid (count + 1) (some 1) (by simp)
  have hvalid : (sampleEntry (count + 1)).validate = .ok () :=
    bind_ok.2 ⟨(), require_ok.2 ⟨Nat.one_pos, Nat.one_pos⟩, bind_ok.2 ⟨(), require_ok.2
      ⟨Nat.succ_pos _, by simp [sampleEntry, ReplicatedEntry.create]⟩, bind_ok.2 ⟨(),
        sample_mutation_valid (count + 1) none (by simp), require_ok.2 rfl⟩⟩⟩
  have hepoch : ReplicaShard.validateEntryEpoch ⟨0, 1, ⟨1, 1, count⟩, journal⟩
      (sampleEntry (count + 1)) = .ok () :=
    bind_ok.2 ⟨(), require_ok.2 rfl, require_ok.2 ⟨rfl, rfl⟩⟩
  obtain ⟨point, hsteps⟩ := sample_upsert_steps hcount replica.disk.collection
  have hwp := wp_commit_fresh ⟨0, 1, ⟨1, 1, count⟩, journal⟩ hepoch hmutation hvalid hprepared
    hcommitted (Nat.lt_succ_self _) hsteps
  have hmethod : Replica.call 0 1 replica none (.commit (sampleEntry (count + 1))) =
      .afterMethod (commit (sampleEntry (count + 1))
        ⟨replica.disk, ⟨0, 1, ⟨1, 1, count⟩, journal⟩, none⟩) := by
    simp only [Replica.call, Replica.method, hshard]
  rw [hmethod]
  refine after_method_of_wp (wp_mono hwp (fun _ p hp => ?_) fun _ _ he => he.elim)
  obtain ⟨disk, shard, writes⟩ := p
  obtain ⟨hcollection, rfl⟩ := hp
  have hnotin : ¬ replica.disk.collection.contains (Int64.ofNat (count + 1)) = true := by
    rw [Std.ExtTreeMap.contains_eq_isSome_getElem?, hfresh]
    simp
  refine ⟨⟨_, rfl, fun index hindex => ?_⟩, ?_, fun index hindex hbound => ?_⟩
  · obtain ⟨hold, hunmarked⟩ := hjournal index (by omega)
    have hne : ¬ compare (count + 1) index = .eq := by
      rw [Std.LawfulEqCmp.compare_eq_iff_eq]
      omega
    show ((journal.addPrepared (sampleEntry (count + 1))).addCommitted (count + 1)).prepared[index]? =
        none ∧
      index ∉ ((journal.addPrepared (sampleEntry (count + 1))).addCommitted (count + 1)).committed
    have hmarks : ((journal.addPrepared (sampleEntry (count + 1))).addCommitted (count + 1)) =
        ⟨journal.prepared.insert (count + 1) (sampleEntry (count + 1)),
          (count + 1) :: journal.committed, journal.snapshotIndex⟩ := if_neg hcommitted
    rw [hmarks]
    refine ⟨?_, ?_⟩
    · show (journal.prepared.insert (count + 1) (sampleEntry (count + 1)))[index]? = none
      rw [Std.ExtTreeMap.getElem?_insert, if_neg hne]
      exact hold
    · show index ∉ (count + 1) :: journal.committed
      rw [mem_cons, not_or]
      exact ⟨by omega, hunmarked⟩
  · show disk.collection.size = count + 1
    rw [show disk.collection = _ from hcollection, Std.ExtTreeMap.size_insert, if_neg hnotin, h.size]
  · show disk.collection[Int64.ofNat index]? = none
    rw [show disk.collection = _ from hcollection, Std.ExtTreeMap.getElem?_insert, if_neg ?_]
    · exact h.fresh index (by omega) hbound
    · rw [Std.LawfulEqCmp.compare_eq_iff_eq]
      intro heq
      have hints := congrArg Int64.toInt heq
      rw [Int64.toInt_ofNat_of_lt hcount, Int64.toInt_ofNat_of_lt hbound] at hints
      omega

theorem filled_run {first : Nat} (h : Filled first replica) (count : Nat)
    (hcount : first + count < 2 ^ 63) :
    Filled (first + count)
      (@Replica.run sampleFloatRepr 0 1 replica (commitsFrom (first + 1) count)) := by
  induction count generalizing replica first with
  | zero => exact h
  | succ count ih =>
      have hnext := ih (filled_commit h (by omega)) (by omega)
      rw [show first + (count + 1) = first + 1 + count by omega]
      exact hnext

/-- Open an unused directory, configure it, and commit a number of points. -/
def fillCalls (count : Nat) : List (ReplicaCall × Option Nat) :=
  (.reopen, none) :: (.configure 1 1, none) :: commitsFrom 1 count

theorem filled_calls {count : Nat} (hcount : count < 2 ^ 63) :
    Filled count (sampleReplica (fillCalls count)) := by
  have hstart : Filled 0 (sampleReplica [(.reopen, none), (.configure 1 1, none)]) :=
    ⟨⟨.empty, rfl, fun index _ => ⟨by simp [ReplicaJournal.empty], by simp [ReplicaJournal.empty]⟩⟩,
      rfl, fun _ _ _ => rfl⟩
  have hrun := filled_run hstart count (by omega)
  rwa [Nat.zero_add] at hrun

theorem fresh_host_live :
    @Snapshot.Live sampleFloatRepr 0 1 Snapshot.freshHost ⟨.unread 0 1, ∅⟩ := by
  let := sampleFloatRepr
  exact ⟨⟨.empty, rfl, rfl, rfl⟩, rfl, rfl⟩

/-- The export of a filled shard to a fresh replica, for the term 1 and the epoch 2. -/
def Carried (count : Nat) (source : ReplicaShard) (live : List (Int64 × Point)) : Prop :=
  ∃ after, @Snapshot.installSnapshot sampleFloatRepr (.obj [])
      (@rebalanceRequest sampleFloatRepr (fun _ => 1) live (.obj [])
        ⟨1, 2, source.state.appliedIndex⟩) ⟨Snapshot.freshHost, none, none⟩ = (.ok (), after) ∧
    after.state.collection = some (sampleReplica (fillCalls count)).disk.collection

theorem filled_not_carried {count : Nat} (hcount : count < 2 ^ 63) (hbig : maxBatchRows < count) :
    ∃ source, (sampleReplica (fillCalls count)).shard = some source ∧
      source.state.appliedIndex = count ∧
      ∀ live, live.Perm (sampleReplica (fillCalls count)).disk.collection.toList →
        ¬ Carried count source live := by
  let := sampleFloatRepr
  have hfilled := filled_calls hcount
  obtain ⟨journal, hshard, -⟩ := hfilled.shard
  refine ⟨_, hshard, rfl, fun live hlive hinstalled => ?_⟩
  have hadmissible := (run_admissible 0 1 (fillCalls count)).points
  have hfits := (install_export_iff Nat.one_pos hadmissible hlive (fun _ => Nat.one_pos)
    fresh_host_live (Nat.zero_le _) (Nat.zero_le _) (Nat.zero_le _)).1 hinstalled
  have hlength : live.length = count := by
    rw [hlive.length_eq, Std.ExtTreeMap.length_toList, hfilled.size]
  exact absurd hfits.1 (by rw [hlength]; omega)

/-- One point more than a batch takes: each of its commits was acknowledged, and the export of the
shard, whatever the order of its rows, does not reproduce it on a fresh replica. -/
theorem oversized_export_not_installed :
    ∃ source, (sampleReplica (fillCalls 65537)).shard = some source ∧
      source.state.appliedIndex = 65537 ∧
      ∀ live, live.Perm (sampleReplica (fillCalls 65537)).disk.collection.toList →
        ¬ Carried 65537 source live :=
  filled_not_carried (by norm_num) (by norm_num [maxBatchRows])

/-- The point that a sample upsert writes. -/
def samplePoint : Point :=
  ⟨[⟨0x3F800000⟩], [⟨"a", .integer 5⟩], [⟨7, ⟨0x3F800000⟩⟩]⟩

/-- A shard of one point is carried over. -/
theorem export_then_install_single :
    ∃ source, (sampleReplica (fillCalls 1)).shard = some source ∧
      (sampleReplica (fillCalls 1)).disk.collection.toList = [(1, samplePoint)] ∧
      Carried 1 source [(1, samplePoint)] := by
  have hcarried : ∀ count live source, (sampleReplica (fillCalls count)).shard = some source →
      live.Perm (sampleReplica (fillCalls count)).disk.collection.toList → ExportFits 1 live →
      Carried count source live := fun count live source hshard hlive =>
    (@export_then_install sampleFloatRepr 0 1 Nat.one_pos (fillCalls count) live hlive
      (fun _ => 1) (fun _ => Nat.one_pos) Snapshot.freshHost ⟨.unread 0 1, ∅⟩ fresh_host_live
      ⟨rfl, rfl⟩ (.obj []) 1 2 (Nat.zero_le _) (Nat.zero_le _) source hshard).2
  obtain ⟨journal, hshard, -⟩ := (@filled_calls 1 (by decide)).shard
  have hlive : (sampleReplica (fillCalls 1)).disk.collection.toList = [(1, samplePoint)] := by
    decide +kernel
  exact ⟨_, hshard, hlive, hcarried 1 _ _ hshard (by rw [hlive])
    ⟨by norm_num [maxBatchRows], by decide +kernel⟩⟩

end Distributed
end Akasha

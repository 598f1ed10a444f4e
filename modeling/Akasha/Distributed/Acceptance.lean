import Akasha.Distributed.Mutation
import Mathlib.Algebra.Order.BigOperators.Group.List
import Mathlib.Data.List.Perm.Subperm
import Mathlib.Data.Nat.Digits.Lemmas

/-!
# Which validated mutations the kernel accepts

`validateReplicatedMutation` checks JSON values, the collection checks machine values.
`KernelAccepts` lists, on the JSON value, what the second check asks beyond the first: 64-bit
identifiers, terms and integers, numbers that stay finite as `Float32`, ascending terms with
weights that stay non-zero, names without NUL, and the size limits of the payload format.
`apply_mutation_ok_iff` is the main result: a validated mutation is applied, and then as a
whole, exactly when `KernelAccepts` holds of it.
-/

namespace Akasha.Distributed

open Lib List

/-! ## The condition -/

/-- The integer is a 64-bit two's-complement value. -/
def Fits64 (value : Int) : Prop :=
  -2 ^ 63 ≤ value ∧ value < 2 ^ 63

instance (value : Int) : Decidable (Fits64 value) :=
  inferInstanceAs (Decidable (_ ∧ _))

/-- The elements of a JSON list. -/
def items : Json → List Json
  | .arr values => values
  | _ => []

/-- The name of a payload item. -/
def itemName (item : Json) : String :=
  match field item "name" with
  | .str name => name
  | _ => ""

/-- The bytes a payload item takes in the payload format. -/
def itemSize (item : Json) : Nat :=
  2 + (utf8Bytes (itemName item)).length + 1 +
    match field item "value" with
    | .str text => 4 + (utf8Bytes text).length
    | .bool _ => 1
    | _ => 8

/-- The term of a sparse item. -/
def itemTerm (item : Json) : Int :=
  match field item "term_id" with
  | .int term => term
  | _ => 0

/-- What the kernel asks of one payload item. -/
structure PayloadItemAccepted (item : Json) : Prop where
  no_nul : 0 ∉ utf8Bytes (itemName item)
  short_name : (utf8Bytes (itemName item)).length < 2 ^ 16
  int_fits : field item "type" = .str "int" → ∀ value, field item "value" = .int value →
    Fits64 value

/-- What the kernel asks of one sparse item. -/
structure SparseItemAccepted (item : Json) : Prop where
  term_fits : Fits64 (itemTerm item)
  weight : ∀ value, toFloat? (field item "weight") = some value →
    value.toF32.isFinite ∧ ¬ value.toF32.isZero

/-- What the kernel asks of an upsert. -/
structure UpsertAccepted (mutation : Json) : Prop where
  vector : ∀ component ∈ items (field mutation "vector"), ∀ value,
    toFloat? component = some value → value.toF32.isFinite
  field_count : (items (field mutation "fields")).length ≤ maxPayloadFields
  payload : ∀ item ∈ items (field mutation "fields"), PayloadItemAccepted item
  payload_size : 4 + ((items (field mutation "fields")).map itemSize).sum ≤ maxPayloadBytes
  sparse : ∀ item ∈ items (field mutation "sparse"), SparseItemAccepted item
  ascending : ((items (field mutation "sparse")).map itemTerm).Pairwise (· < ·)

/-- What the kernel asks of a validated mutation. -/
structure KernelAccepts (mutation : Json) : Prop where
  id_fits : ∀ value, field mutation "id" = .int value → Fits64 value
  upsert : mutation.get? "operation" = some (.str "upsert") → UpsertAccepted mutation

/-! ## What the validator leaves -/

/-- A payload item has a name and a value of the type it declares. -/
inductive TypedItem (item : Json) : Prop
  | string (name value : String) (hname : field item "name" = .str name)
      (htype : field item "type" = .str "string") (hvalue : field item "value" = .str value)
  | int (name : String) (value : Int) (hname : field item "name" = .str name)
      (htype : field item "type" = .str "int") (hvalue : field item "value" = .int value)
  | float (name : String) (value : F64) (hname : field item "name" = .str name)
      (htype : field item "type" = .str "float")
      (hvalue : toFloat? (field item "value") = some value) (hfinite : value.isFinite)
  | bool (name : String) (value : Bool) (hname : field item "name" = .str name)
      (htype : field item "type" = .str "bool") (hvalue : field item "value" = .bool value)

variable {value : Json}

theorem finite_number_iff :
    finiteNumber value = true ↔ ∃ x, toFloat? value = some x ∧ x.isFinite := by
  unfold finiteNumber
  cases toFloat? value <;> simp

variable {names : List String} {item : Json}

theorem validate_payload_item_ok {name : String} (h : validatePayloadItem names item = .ok name) :
    itemName item = name ∧ name ≠ "" ∧ name ∉ names ∧ TypedItem item := by
  simp only [validatePayloadItem, payloadValueTyped, bind_ok, require_ok, exact_str_ok,
    exists_unit, pure_ok] at h
  obtain ⟨-, name', hname, ⟨hne, hnew⟩, kind, hkind, hkinds,
    ⟨hstring, hint, hbool, hfloat⟩, rfl⟩ := h
  refine ⟨by simp [itemName, hname], hne, hnew, ?_⟩
  simp only [payloadKinds, mem_cons, not_mem_nil, or_false] at hkinds
  rcases hkinds with rfl | rfl | rfl | rfl
  · obtain ⟨text, htext⟩ := Json.is_str_iff.1 (hstring rfl)
    exact .string _ _ hname hkind htext
  · obtain ⟨number, hnumber⟩ := Json.is_int_iff.1 (hint rfl)
    exact .int _ _ hname hkind hnumber
  · obtain ⟨x, hx, hfinite⟩ := finite_number_iff.1 (hfloat rfl)
    exact .float _ x hname hkind hx hfinite
  · obtain ⟨flag, hflag⟩ := Json.is_bool_iff.1 (hbool rfl)
    exact .bool _ _ hname hkind hflag

variable {u : Unit} {payload : List Json}

/-- A validated payload has typed items with pairwise different, non-empty names. -/
theorem validate_payload_ok (h : validatePayload names payload = .ok u) :
    (∀ item ∈ payload, TypedItem item ∧ itemName item ≠ "" ∧ itemName item ∉ names) ∧
      (payload.map itemName).Nodup := by
  induction payload generalizing names with
  | nil => simp
  | cons item payload ih =>
      simp only [validatePayload, bind_ok] at h
      obtain ⟨name, hitem, hrest⟩ := h
      obtain ⟨rfl, hne, hnew, htyped⟩ := validate_payload_item_ok hitem
      obtain ⟨hall, hnodup⟩ := ih hrest
      simp only [List.mem_cons, not_or] at hall
      refine ⟨?_, ?_⟩
      · intro other hother
        rcases mem_cons.1 hother with rfl | hother
        · exact ⟨htyped, hne, hnew⟩
        · exact ⟨(hall other hother).1, (hall other hother).2.1, (hall other hother).2.2.2⟩
      · rw [List.map_cons, nodup_cons]
        refine ⟨?_, hnodup⟩
        intro hmem
        obtain ⟨other, hother, heq⟩ := mem_map.1 hmem
        exact (hall other hother).2.2.1 heq

variable {terms : List Int}

theorem validate_sparse_item_ok {term : Int} (h : validateSparseItem terms item = .ok term) :
    field item "term_id" = .int term ∧ 0 ≤ term ∧
      ∃ weight, toFloat? (field item "weight") = some weight := by
  simp only [validateSparseItem, bind_ok, require_ok, exact_int_ok, exists_unit,
    pure_ok] at h
  obtain ⟨-, term', hterm, ⟨hnonneg, -⟩, hweight, rfl⟩ := h
  obtain ⟨x, hx, -⟩ := finite_number_iff.1 hweight
  exact ⟨hterm, hnonneg, x, hx⟩

variable {sparse : List Json}

theorem validate_sparse_items_ok (h : validateSparseItems terms sparse = .ok u) :
    ∀ item ∈ sparse, ∃ term weight, field item "term_id" = .int term ∧ 0 ≤ term ∧
      toFloat? (field item "weight") = some weight := by
  induction sparse generalizing terms with
  | nil => simp
  | cons item sparse ih =>
      simp only [validateSparseItems, bind_ok] at h
      obtain ⟨term, hitem, hrest⟩ := h
      obtain ⟨hterm, hnonneg, weight, hweight⟩ := validate_sparse_item_ok hitem
      intro other hother
      rcases mem_cons.1 hother with rfl | hother
      · exact ⟨term, weight, hterm, hnonneg, hweight⟩
      · exact ih hrest other hother

/-- The typed content of a validated upsert. -/
structure TypedUpsert (dimension : Nat) (mutation : Json) (id : Int)
    (vector payload sparse : List Json) : Prop where
  id_eq : field mutation "id" = .int id
  vector_eq : field mutation "vector" = .arr vector
  vector_length : vector.length = dimension
  vector_number : ∀ component ∈ vector, ∃ value, toFloat? component = some value
  payload_eq : field mutation "fields" = .arr payload
  payload_typed : ∀ item ∈ payload, TypedItem item ∧ itemName item ≠ ""
  names_nodup : (payload.map itemName).Nodup
  sparse_eq : field mutation "sparse" = .arr sparse
  sparse_typed : ∀ item ∈ sparse, ∃ term weight, field item "term_id" = .int term ∧ 0 ≤ term ∧
    toFloat? (field item "weight") = some weight

variable {mutation : Json} {dimension : Nat}

/-- A validated mutation is a delete with an integer identifier or a typed upsert. -/
theorem validate_replicated_mutation_ok
    (h : validateReplicatedMutation mutation (some dimension) = .ok u) :
    (mutation.get? "operation" = some (.str "delete") ∧
        ∃ id, field mutation "id" = .int id) ∨
      (mutation.get? "operation" = some (.str "upsert") ∧
        ∃ id vector payload sparse, TypedUpsert dimension mutation id vector payload sparse) := by
  unfold validateReplicatedMutation at h
  split at h
  · next hop =>
      simp only [bind_ok, require_ok, exists_unit, exact_int_ok, pure_ok] at h
      obtain ⟨-, id, hid, -⟩ := h
      exact .inl ⟨hop, id, hid⟩
  · next hop =>
      simp only [validateUpsert, bind_ok, require_ok, exists_unit, exact_int_ok,
        exact_list_ok] at h
      obtain ⟨-, id, hid, vector, hvector, -, hlength, hnumbers, payload, hpayload, hitems,
        sparse, hsparse, hterms⟩ := h
      refine .inr ⟨hop, id, vector, payload, sparse, ?_⟩
      have hvalid := validate_payload_ok hitems
      exact {
        id_eq := hid
        vector_eq := hvector
        vector_length := hlength dimension rfl
        vector_number := fun component hmem => by
          obtain ⟨x, hx, -⟩ := finite_number_iff.1 (hnumbers component hmem)
          exact ⟨x, hx⟩
        payload_eq := hpayload
        payload_typed := fun item hmem => ⟨(hvalid.1 item hmem).1, (hvalid.1 item hmem).2.1⟩
        names_nodup := hvalid.2
        sparse_eq := hsparse
        sparse_typed := validate_sparse_items_ok hterms }
  · simp [throw, throwThe, MonadExceptOf.throw] at h

/-! ## Python writes an accepted mutation -/

/-- The keys of a `dict` are distinct, so checking each value by its key checks them all. -/
theorem convertible_of_has_keys (hnames : names.Nodup) (hkeys : value.hasKeys names = true)
    (h : ∀ name ∈ names, convertible (field value name) = true) : convertible value = true := by
  cases value with
  | obj fields =>
      simp only [Json.hasKeys, Bool.and_eq_true, beq_iff_eq, all_eq_true, any_eq_true,
        decide_eq_true_eq] at hkeys
      obtain ⟨⟨hlength, hall⟩, hany⟩ := hkeys
      have hsubset : names ⊆ fields.map (·.1) := fun name hname => mem_map.2 (hany name hname)
      have hperm : names.Perm (fields.map (·.1)) :=
        (hnames.subperm hsubset).perm_of_length_le (by simp [hlength])
      rw [convertible, convertible_fields_iff]
      rintro ⟨name, value⟩ hmem
      obtain ⟨before, after, rfl⟩ := append_of_mem hmem
      have hnew : ∀ item ∈ before, (name == item.1) = false := by
        intro item hitem
        have hnodup := hperm.nodup_iff.1 hnames
        rw [List.map_append, map_cons, nodup_append] at hnodup
        exact beq_false_of_ne fun heq =>
          hnodup.2.2 item.1 (List.mem_map_of_mem hitem) name (by simp) heq.symm
      have hget : (before ++ (name, value) :: after).lookup name = some value :=
        lookup_eq_some_iff.2 ⟨before, after, rfl, fun item hitem => by
          simpa using hnew item hitem⟩
      simpa [field, Json.get?, hget] using h name (hall _ hmem)
  | _ => cases hkeys

theorem convertible_int {value : Int} {bits : Nat} (hbits : bits ≤ maxIntDigits)
    (h : value.natAbs < 2 ^ bits) : convertible (.int value) = true := by
  apply decide_eq_true
  refine (Nat.length_toDigits_le_iff (by norm_num) (by unfold maxIntDigits; norm_num)).2 ?_
  calc value.natAbs < 2 ^ bits := h
    _ ≤ 10 ^ bits := Nat.pow_le_pow_left (by norm_num) _
    _ ≤ 10 ^ maxIntDigits := Nat.pow_le_pow_right (by norm_num) hbits

theorem convertible_of_fits {value : Int} (h : Fits64 value) : convertible (.int value) = true := by
  have hlt : value.natAbs < 2 ^ 64 := by
    unfold Fits64 at h
    omega
  exact convertible_int (by decide) hlt

/-- An integer that `float` converts has at most 309 digits. -/
theorem convertible_of_to_float {x : F64} (h : toFloat? value = some x) :
    convertible value = true := by
  cases value with
  | int value =>
      simp only [toFloat?, F64.ofInt?] at h
      split at h
      · next hfinite =>
          refine convertible_int ?_ Nat.lt_log2_self
          by_cases hne : value.natAbs = 0
          · simp [hne, maxIntDigits]
          · simp only [roundMagnitude, if_neg hne, binary64] at hfinite
            unfold maxIntDigits
            omega
      · cases h
  | float value => rfl
  | _ => cases h

theorem validate_payload_each (h : validatePayload names payload = .ok u) :
    ∀ item ∈ payload, ∃ names name, validatePayloadItem names item = .ok name := by
  induction payload generalizing names with
  | nil => simp
  | cons item payload ih =>
      simp only [validatePayload, bind_ok] at h
      obtain ⟨name, hitem, hrest⟩ := h
      exact forall_mem_cons.2 ⟨⟨names, name, hitem⟩, ih hrest⟩

theorem validate_sparse_each (h : validateSparseItems terms sparse = .ok u) :
    ∀ item ∈ sparse, ∃ terms term, validateSparseItem terms item = .ok term := by
  induction sparse generalizing terms with
  | nil => simp
  | cons item sparse ih =>
      simp only [validateSparseItems, bind_ok] at h
      obtain ⟨term, hitem, hrest⟩ := h
      exact forall_mem_cons.2 ⟨⟨terms, term, hitem⟩, ih hrest⟩

theorem convertible_payload_item {name : String} (h : validatePayloadItem names item = .ok name)
    (haccepted : PayloadItemAccepted item) :
    convertible item = true := by
  obtain ⟨-, -, -, htyped⟩ := validate_payload_item_ok h
  simp only [validatePayloadItem, bind_ok, require_ok, exists_unit] at h
  refine convertible_of_has_keys (by decide) h.1 ?_
  cases htyped with
  | string name value hname htype hvalue => simp [hname, htype, hvalue, convertible]
  | int name value hname htype hvalue =>
      have hfits := convertible_of_fits (haccepted.int_fits htype value hvalue)
      simp [hname, htype, hvalue, hfits, convertible]
  | float name value hname htype hvalue _ =>
      simp [hname, htype, convertible_of_to_float hvalue, convertible]
  | bool name value hname htype hvalue => simp [hname, htype, hvalue, convertible]

theorem convertible_sparse_item {term : Int} (h : validateSparseItem terms item = .ok term)
    (haccepted : SparseItemAccepted item) :
    convertible item = true := by
  obtain ⟨hterm, -, weight, hweight⟩ := validate_sparse_item_ok h
  simp only [validateSparseItem, bind_ok, require_ok, exists_unit] at h
  have hfits : Fits64 term := by simpa [itemTerm, hterm] using haccepted.term_fits
  refine convertible_of_has_keys (by decide) h.1 ?_
  simp [hterm, convertible_of_fits hfits, convertible_of_to_float hweight]

/-- Python writes every mutation that the validator and the kernel accept. -/
theorem convertible_of_accepts {dimension : Option Nat}
    (hvalid : validateReplicatedMutation mutation dimension = .ok u)
    (haccepts : KernelAccepts mutation) : convertible mutation = true := by
  unfold validateReplicatedMutation at hvalid
  split at hvalid
  · next hop =>
      simp only [bind_ok, require_ok, exists_unit, exact_int_ok] at hvalid
      obtain ⟨hkeys, id, hid, -⟩ := hvalid
      refine convertible_of_has_keys (by decide) hkeys ?_
      have hoperation : field mutation "operation" = .str "delete" := by rw [field, hop]; rfl
      simp [hid, convertible_of_fits (haccepts.id_fits id hid), hoperation, convertible]
  · next hop =>
      simp only [validateUpsert, bind_ok, require_ok, exists_unit, exact_int_ok,
        exact_list_ok] at hvalid
      obtain ⟨hkeys, id, hid, vector, hvector, -, -, hnumbers, payload, hpayload, hitems,
        sparse, hsparse, hterms⟩ := hvalid
      have hupsert := haccepts.upsert hop
      have hfields : convertible (.arr payload) = true := by
        refine (convertible_items_iff _).2 fun item hitem => ?_
        obtain ⟨names, name, hvalidated⟩ := validate_payload_each hitems item hitem
        exact convertible_payload_item hvalidated (hupsert.payload item (by simpa [items, hpayload]))
      have helements : convertible (.arr sparse) = true := by
        refine (convertible_items_iff _).2 fun item hitem => ?_
        obtain ⟨terms, term, hvalidated⟩ := validate_sparse_each hterms item hitem
        exact convertible_sparse_item hvalidated (hupsert.sparse item (by simpa [items, hsparse]))
      have hvalues : convertible (.arr vector) = true := by
        refine (convertible_items_iff _).2 fun value hvalue => ?_
        obtain ⟨x, hx, -⟩ := finite_number_iff.1 (hnumbers value hvalue)
        exact convertible_of_to_float hx
      refine convertible_of_has_keys (by decide) hkeys ?_
      have hoperation : field mutation "operation" = .str "upsert" := by rw [field, hop]; rfl
      simp [hid, convertible_of_fits (haccepts.id_fits id hid), hoperation, hvector, hpayload,
        hsparse, hfields, helements, hvalues]
      rfl
  · cases hvalid

/-! ## What the kernel asks -/

theorem kernel_int_ok {converted : Int64} :
    kernelInt value = .ok converted ↔
      ∃ number, value = .int number ∧ Fits64 number ∧ Int64.ofInt number = converted := by
  cases value <;>
    simp only [kernelInt, int64OfInt?, throw, throwThe, MonadExceptOf.throw, reduceCtorEq,
      false_and, exists_false, Json.int.injEq, exists_eq_left', Fits64]
  split
  · next h =>
      split at h
      · simp_all [pure_ok]
      · cases h
  · next h =>
      split at h
      · cases h
      · simp_all

theorem kernel_float64_ok {converted : F64} :
    kernelFloat64 value = .ok converted ↔ toFloat? value = some converted := by
  unfold kernelFloat64
  cases toFloat? value <;>
    simp [pure, Except.pure, throw, throwThe, MonadExceptOf.throw]

theorem kernel_float32_ok {converted : F32} :
    kernelFloat32 value = .ok converted ↔
      ∃ x, toFloat? value = some x ∧ x.toF32 = converted := by
  simp [kernelFloat32, map_ok, kernel_float64_ok]

theorem kernel_check_ok {α : Type} {x : Except String α} {a : α} :
    kernelCheck x = .ok a ↔ x = .ok a := by
  cases x <;> simp [kernelCheck, pure, Except.pure, throw, throwThe, MonadExceptOf.throw]

theorem utf8_bytes_length_ne_zero {text : String} (h : text ≠ "") :
    (utf8Bytes text).length ≠ 0 := by
  intro hzero
  exact h (by simpa [utf8Bytes] using hzero)

/-- What the conversion of a typed payload item gives: its name, and a value of its size. -/
theorem kernel_field_eq {converted : DocumentField} (htyped : TypedItem item)
    (h : kernelField item = .ok converted) :
    converted.name = itemName item ∧ converted.size = itemSize item ∧
      validateFieldName converted.name = .ok () := by
  simp only [kernelField, bind_ok, exact_str_ok, kernel_check_ok, exists_unit,
    pure_ok] at h
  obtain ⟨name, hname, kind, hkind, value, hvalue, hvalid, rfl⟩ := h
  have hitem : itemName item = name := by simp [itemName, hname]
  refine ⟨hitem.symm, ?_, hvalid⟩
  simp only [DocumentField.size, itemSize, hitem]
  congr 1
  cases htyped with
  | string _ text _ htype htext =>
      cases hkind.symm.trans htype
      simp only [kernelValue, if_true, htext, map_ok, exact_str_ok, Json.str.injEq,
        exists_eq_left'] at hvalue
      simp [← hvalue, htext, PayloadValue.size]
  | int _ number _ htype hnumber =>
      cases hkind.symm.trans htype
      simp only [kernelValue, String.reduceEq, if_false, if_true, map_ok] at hvalue
      obtain ⟨_, -, rfl⟩ := hvalue
      simp [hnumber, PayloadValue.size]
  | float _ number _ htype hnumber _ =>
      cases hkind.symm.trans htype
      simp only [kernelValue, String.reduceEq, if_false, if_true, bind_ok,
        pure_ok] at hvalue
      obtain ⟨_, -, _, -, rfl⟩ := hvalue
      cases hraw : field item "value" <;> simp_all [toFloat?, PayloadValue.size]
  | bool _ flag _ htype hflag =>
      cases hkind.symm.trans htype
      simp only [kernelValue, String.reduceEq, if_false, if_true, map_ok] at hvalue
      obtain ⟨_, -, rfl⟩ := hvalue
      simp [hflag, PayloadValue.size]

theorem kernel_field_ok (htyped : TypedItem item) (hne : itemName item ≠ "") :
    (∃ converted, kernelField item = .ok converted) ↔
      0 ∉ utf8Bytes (itemName item) ∧
        (field item "type" = .str "int" → ∀ value, field item "value" = .int value →
          Fits64 value) := by
  have hlength := utf8_bytes_length_ne_zero hne
  simp only [kernelField, bind_ok, exact_str_ok, kernel_check_ok, exists_unit,
    pure_ok, validate_field_name_ok]
  cases htyped with
  | string name text hname htype htext =>
      simp_all [itemName, kernelValue, map_ok, exact_str_ok]
  | int name number hname htype hnumber =>
      simp_all [itemName, kernelValue, map_ok, kernel_int_ok, and_comm]
  | float name number hname htype hnumber hfinite =>
      simp_all [itemName, kernelValue, bind_ok, map_ok, kernel_float64_ok,
        require_ok]
  | bool name flag hname htype hflag =>
      simp_all [itemName, kernelValue, kernelBool, pure_ok]

theorem kernel_fields_eq {fields : List DocumentField}
    (htyped : ∀ item ∈ payload, TypedItem item ∧ itemName item ≠ "")
    (h : List.Forall₂ (fun item field => kernelField item = .ok field) payload fields) :
    fields.map (·.name) = payload.map itemName ∧
      fields.map DocumentField.size = payload.map itemSize :=
  ⟨forall₂_map_eq h fun item hmem _ hfield => (kernel_field_eq (htyped item hmem).1 hfield).1,
    forall₂_map_eq h fun item hmem _ hfield => (kernel_field_eq (htyped item hmem).1 hfield).2.1⟩

/-- The payload of a typed upsert is converted and encoded exactly when each item and the whole
fit the format. -/
theorem kernel_fields_ok (htyped : ∀ item ∈ payload, TypedItem item ∧ itemName item ≠ "")
    (hnodup : (payload.map itemName).Nodup) :
    (∃ fields, payload.mapM kernelField = .ok fields ∧
        ∃ bytes, encodePayload fields = .ok bytes) ↔
      payload.length ≤ maxPayloadFields ∧ (∀ item ∈ payload, PayloadItemAccepted item) ∧
        4 + (payload.map itemSize).sum ≤ maxPayloadBytes := by
  simp only [encode_payload_ok]
  constructor
  · rintro ⟨fields, hfields, hcount, -, hfits, hsize⟩
    rw [map_m_ok] at hfields
    obtain ⟨hnames, hsizes⟩ := kernel_fields_eq htyped hfields
    refine ⟨hfields.length_eq ▸ hcount, ?_, hsizes ▸ hsize⟩
    intro item hitem
    obtain ⟨field, hmem, hfield⟩ := forall₂_exists_right hfields hitem
    obtain ⟨hnul, hint⟩ := (kernel_field_ok (htyped item hitem).1 (htyped item hitem).2).1
      ⟨field, hfield⟩
    have hname := (kernel_field_eq (htyped item hitem).1 hfield).1
    exact ⟨hnul, hname ▸ (hfits field hmem).1, hint⟩
  · rintro ⟨hcount, haccepted, hsize⟩
    have hconverted : ∀ item ∈ payload, ∃ field, kernelField item = .ok field := by
      intro item hitem
      rw [kernel_field_ok (htyped item hitem).1 (htyped item hitem).2]
      exact ⟨(haccepted item hitem).no_nul, (haccepted item hitem).int_fits⟩
    obtain ⟨fields, hfields⟩ := map_m_is_ok.2 hconverted
    have hforall := map_m_ok.1 hfields
    obtain ⟨hnames, hsizes⟩ := kernel_fields_eq htyped hforall
    rw [← hsizes] at hsize
    refine ⟨fields, hfields, hforall.length_eq ▸ hcount, ?_, ?_, hsize⟩
    · rw [validate_fields_ok, hnames]
      refine ⟨fun field hmem => ?_, hnodup⟩
      obtain ⟨item, hitem, hfield⟩ := forall₂_exists_left hforall hmem
      exact (kernel_field_eq (htyped item hitem).1 hfield).2.2
    · intro field hmem
      obtain ⟨item, hitem, hfield⟩ := forall₂_exists_left hforall hmem
      refine ⟨(kernel_field_eq (htyped item hitem).1 hfield).1 ▸
        (haccepted item hitem).short_name, ?_⟩
      -- A string value is shorter than the whole payload, so its length fits by itself.
      intro text htext
      have hle : field.size ≤ (fields.map DocumentField.size).sum :=
        le_sum_of_mem (List.mem_map_of_mem hmem)
      simp only [DocumentField.size, htext, PayloadValue.size, maxPayloadBytes] at hle hsize
      omega

/-- The checks of `validate_sparse` on the elements after a term. -/
theorem validate_sparse_after_ok {previous : Int} {elements : List SparseElement} :
    validateSparseAfter previous elements = .ok u ↔
      (∀ element ∈ elements, 0 ≤ element.termId.toInt ∧ previous < element.termId.toInt ∧
          element.weight.isFinite ∧ ¬ element.weight.isZero) ∧
        (elements.map (·.termId.toInt)).Pairwise (· < ·) := by
  induction elements generalizing previous with
  | nil => simp [validateSparseAfter]
  | cons element elements ih =>
      simp only [validateSparseAfter, bind_ok, require_ok, exists_unit, ih,
        forall_mem_cons, map_cons, pairwise_cons, forall_mem_map]
      constructor
      · rintro ⟨hnonneg, hprevious, hweight, hrest, hpairwise⟩
        refine ⟨⟨⟨hnonneg, hprevious, hweight⟩, ?_⟩, fun other hother => (hrest other hother).2.1,
          hpairwise⟩
        intro other hother
        exact ⟨(hrest other hother).1, hprevious.trans (hrest other hother).2.1,
          (hrest other hother).2.2⟩
      · rintro ⟨⟨⟨hnonneg, hprevious, hweight⟩, hrest⟩, hlater, hpairwise⟩
        exact ⟨hnonneg, hprevious, hweight, fun other hother =>
          ⟨(hrest other hother).1, hlater other hother, (hrest other hother).2.2⟩, hpairwise⟩

theorem kernel_sparse_element_ok {term : Int} {weight : F64} {element : SparseElement}
    (hterm : field item "term_id" = .int term)
    (hweight : toFloat? (field item "weight") = some weight) :
    kernelSparseElement item = .ok element ↔
      Fits64 term ∧ element = ⟨Int64.ofInt term, weight.toF32⟩ := by
  simp only [kernelSparseElement, bind_ok, kernel_int_ok, kernel_float32_ok, hterm, hweight,
    Json.int.injEq, exists_eq_left', Option.some.injEq, pure_ok]
  constructor
  · rintro ⟨_, ⟨hfits, rfl⟩, rfl⟩
    exact ⟨hfits, rfl⟩
  · rintro ⟨hfits, rfl⟩
    exact ⟨_, ⟨hfits, rfl⟩, rfl⟩

theorem to_int_of_int_of_fits {value : Int} (h : Fits64 value) :
    (Int64.ofInt value).toInt = value := by
  unfold Fits64 at h
  exact Int64.toInt_ofInt_of_le h.1 h.2

/-- The sparse list of a typed upsert is converted and validated exactly when each item is
accepted and the terms ascend. -/
theorem kernel_sparse_ok (hne : sparse ≠ [])
    (htyped : ∀ item ∈ sparse, ∃ term weight, field item "term_id" = .int term ∧ 0 ≤ term ∧
      toFloat? (field item "weight") = some weight) :
    (∃ elements, sparse.mapM kernelSparseElement = .ok elements ∧
        validateSparse elements = .ok ()) ↔
      (∀ item ∈ sparse, SparseItemAccepted item) ∧ (sparse.map itemTerm).Pairwise (· < ·) := by
  -- A converted element carries the term and the rounded weight of its item.
  have hitem : ∀ item ∈ sparse, ∀ element, kernelSparseElement item = .ok element →
      Fits64 (itemTerm item) ∧ element.termId.toInt = itemTerm item ∧ 0 ≤ itemTerm item ∧
        ∃ weight, toFloat? (field item "weight") = some weight ∧
          element.weight = weight.toF32 := by
    intro item hmem element helement
    obtain ⟨term, weight, hterm, hnonneg, hweight⟩ := htyped item hmem
    obtain ⟨hfits, rfl⟩ := (kernel_sparse_element_ok hterm hweight).1 helement
    have heq : itemTerm item = term := by simp [itemTerm, hterm]
    rw [heq]
    exact ⟨hfits, to_int_of_int_of_fits hfits, hnonneg, weight, hweight, rfl⟩
  constructor
  · rintro ⟨elements, helements, hvalid⟩
    rw [map_m_ok] at helements
    simp only [validateSparse, bind_ok, exists_unit, validate_sparse_after_ok] at hvalid
    obtain ⟨-, hall, hpairwise⟩ := hvalid
    rw [forall₂_map_eq helements fun item hmem element h => (hitem item hmem element h).2.1]
      at hpairwise
    refine ⟨fun item hmem => ?_, hpairwise⟩
    obtain ⟨element, helement, hconverted⟩ := forall₂_exists_right helements hmem
    obtain ⟨hfits, -, -, weight, hweight, heq⟩ := hitem item hmem element hconverted
    refine ⟨hfits, fun value hvalue => ?_⟩
    cases hweight.symm.trans hvalue
    exact heq ▸ (hall element helement).2.2
  · rintro ⟨haccepted, hpairwise⟩
    have hconverted : ∀ item ∈ sparse, ∃ element, kernelSparseElement item = .ok element := by
      intro item hmem
      obtain ⟨term, weight, hterm, -, hweight⟩ := htyped item hmem
      have heq : itemTerm item = term := by simp [itemTerm, hterm]
      exact ⟨_, (kernel_sparse_element_ok hterm hweight).2
        ⟨heq ▸ (haccepted item hmem).term_fits, rfl⟩⟩
    obtain ⟨elements, helements⟩ := map_m_is_ok.2 hconverted
    have hforall := map_m_ok.1 helements
    refine ⟨elements, helements, ?_⟩
    simp only [validateSparse, bind_ok, require_ok, exists_unit, validate_sparse_after_ok]
    refine ⟨?_, ?_, ?_⟩
    · rw [← hforall.length_eq]
      simpa using hne
    · intro element hmem
      obtain ⟨item, hmem', hfield⟩ := forall₂_exists_left hforall hmem
      obtain ⟨-, hterm, hnonneg, weight, hweight, heq⟩ := hitem item hmem' element hfield
      rw [hterm, heq]
      exact ⟨hnonneg, by omega, (haccepted item hmem').weight weight hweight⟩
    · rwa [forall₂_map_eq hforall fun item hmem element h => (hitem item hmem element h).2.1]

/-- The vector of a typed upsert is converted and validated exactly when it stays finite. -/
theorem kernel_vector_ok {vector : List Json} (hlength : vector.length = dimension)
    (hnumber : ∀ component ∈ vector, ∃ value, toFloat? component = some value) :
    (∃ values, vector.mapM kernelFloat32 = .ok values ∧
        validateVector dimension values = .ok ()) ↔
      ∀ component ∈ vector, ∀ value, toFloat? component = some value → value.toF32.isFinite := by
  simp only [validateVector, bind_ok, require_ok, exists_unit]
  constructor
  · rintro ⟨values, hvalues, -, hfinite⟩ component hmem value hvalue
    obtain ⟨converted, hconverted, h⟩ :=
      forall₂_exists_right (map_m_ok.1 hvalues) hmem
    obtain ⟨x, hx, rfl⟩ := kernel_float32_ok.1 h
    cases hx.symm.trans hvalue
    exact hfinite _ hconverted
  · intro hfinite
    have hconverted : ∀ component ∈ vector, ∃ value, kernelFloat32 component = .ok value := by
      intro component hmem
      obtain ⟨x, hx⟩ := hnumber component hmem
      exact ⟨_, kernel_float32_ok.2 ⟨x, hx, rfl⟩⟩
    obtain ⟨values, hvalues⟩ := map_m_is_ok.2 hconverted
    have hforall := map_m_ok.1 hvalues
    refine ⟨values, hvalues, hforall.length_eq ▸ hlength, ?_⟩
    intro value hmem
    obtain ⟨component, hcomponent, h⟩ := forall₂_exists_left hforall hmem
    obtain ⟨x, hx, rfl⟩ := kernel_float32_ok.1 h
    exact hfinite component hcomponent x hx

/-! ## Applying a mutation -/

/-- A mutation in machine values. -/
inductive Operation where
  | delete (id : Int64)
  | upsert (id : Int64) (vector : List F32) (fields : List DocumentField)
      (sparse : List SparseElement)

/-- What an operation is for: a delete drops the point, an upsert replaces its vector and
payload, and its sparse vector when it carries one. -/
def perform : Operation → PointMap → PointMap
  | .delete id, points => points.delete id
  | .upsert id vector fields sparse, points =>
      points.insert id ⟨vector, fields, if sparse.isEmpty then points.sparseOf id else sparse⟩

/-- The operation a mutation carries, converted to machine values. -/
inductive Denotes (mutation : Json) : Operation → Prop
  | delete (id : Int64) (hoperation : mutation.get? "operation" = some (.str "delete"))
      (hid : kernelInt (field mutation "id") = .ok id) : Denotes mutation (.delete id)
  | upsert (id : Int64) (vector : List F32) (fields : List DocumentField)
      (sparse : List SparseElement)
      (hoperation : mutation.get? "operation" = some (.str "upsert"))
      (hid : kernelInt (field mutation "id") = .ok id)
      (hvector : kernelVector (field mutation "vector") = .ok vector)
      (hfields : kernelFields (field mutation "fields") = .ok fields)
      (hsparse : kernelSparse (field mutation "sparse") = .ok sparse) :
      Denotes mutation (.upsert id vector fields sparse)

theorem upsert_step_ok {points next : PointMap} :
    upsertStep dimension mutation points = .ok next ↔
      ∃ id values fields, kernelInt (field mutation "id") = .ok id ∧
        kernelVector (field mutation "vector") = .ok values ∧
        kernelFields (field mutation "fields") = .ok fields ∧
        validateVector dimension values = .ok () ∧ (∃ bytes, encodePayload fields = .ok bytes) ∧
        next = points.insert id ⟨values, fields, points.sparseOf id⟩ := by
  simp only [upsertStep, PointMap.upsertDocument, bind_ok, kernel_check_ok, exists_unit,
    pure_ok]
  constructor
  · rintro ⟨values, hvalues, fields, hfields, id, hid, hvector, bytes, hbytes, rfl⟩
    exact ⟨id, values, fields, hid, hvalues, hfields, hvector, ⟨bytes, hbytes⟩, rfl⟩
  · rintro ⟨id, values, fields, hid, hvalues, hfields, hvector, ⟨bytes, hbytes⟩, rfl⟩
    exact ⟨values, hvalues, fields, hfields, id, hid, hvector, bytes, hbytes, rfl⟩

theorem sparse_step_ok {points next : PointMap} :
    sparseStep mutation points = .ok next ↔
      ∃ id elements point, kernelInt (field mutation "id") = .ok id ∧
        kernelSparse (field mutation "sparse") = .ok elements ∧
        validateSparse elements = .ok () ∧ points[id]? = some point ∧
        next = points.insert id { point with sparse := elements } := by
  simp only [sparseStep, PointMap.upsertSparse, bind_ok, kernel_check_ok, exists_unit]
  constructor
  · rintro ⟨elements, helements, id, hid, hvalid, h⟩
    split at h
    · next point hpoint =>
        exact ⟨id, elements, point, hid, helements, hvalid, hpoint, (pure_ok.1 h).symm⟩
    · simp [throw, throwThe, MonadExceptOf.throw] at h
  · rintro ⟨id, elements, point, hid, helements, hvalid, hpoint, rfl⟩
    refine ⟨elements, helements, id, hid, hvalid, ?_⟩
    simp [hpoint, pure, Except.pure]

theorem insert_insert (points : PointMap) (id : Int64) (first second : Point) :
    (points.insert id first).insert id second = points.insert id second := by
  apply Std.ExtTreeMap.ext_getElem?
  intro key
  simp only [Std.ExtTreeMap.getElem?_insert]
  split <;> rfl

theorem sparse_of_insert (points : PointMap) (id : Int64) (point : Point) :
    PointMap.sparseOf (points.insert id point) id = point.sparse := by
  simp [PointMap.sparseOf]

theorem perform_idem (operation : Operation) (points : PointMap) :
    perform operation (perform operation points) = perform operation points := by
  cases operation with
  | delete id =>
      apply Std.ExtTreeMap.ext_getElem?
      intro key
      simp only [perform, PointMap.delete, Std.ExtTreeMap.getElem?_erase]
      split <;> rfl
  | upsert id vector fields sparse =>
      simp only [perform, insert_insert, sparse_of_insert]
      split <;> rfl

/-- How the collection writes of a mutation perform an operation: in one write, or in two where
redoing the operation after the first gives the same result. -/
inductive StepsPerform (operation : Operation) :
    List (PointMap → Except Error PointMap) → Prop
  | one (step : PointMap → Except Error PointMap)
      (hstep : ∀ points, step points = .ok (perform operation points)) :
      StepsPerform operation [step]
  | two (first second : PointMap → Except Error PointMap)
      (hsteps : ∀ points, ∃ middle, first points = .ok middle ∧
        second middle = .ok (perform operation points) ∧
        perform operation middle = perform operation points) :
      StepsPerform operation [first, second]

theorem run_steps_of_perform {operation : Operation}
    {steps : List (PointMap → Except Error PointMap)} (h : StepsPerform operation steps)
    (points : PointMap) : runSteps steps points = .ok (perform operation points) := by
  cases h with
  | one step hstep => simp [runSteps, hstep, bind, Except.bind, pure, Except.pure]
  | two first second hsteps =>
      obtain ⟨middle, hfirst, hsecond, -⟩ := hsteps points
      simp [runSteps, hfirst, hsecond, bind, Except.bind, pure, Except.pure]

/-- A validated mutation the kernel accepts denotes an operation, and its writes perform it. -/
theorem steps_of_accepts (hvalid : validateReplicatedMutation mutation (some dimension) = .ok u)
    (haccepts : KernelAccepts mutation) :
    ∃ operation, Denotes mutation operation ∧
      StepsPerform operation (applySteps dimension mutation) := by
  rcases validate_replicated_mutation_ok hvalid with ⟨hop, id, hid⟩ |
    ⟨hop, id, vector, payload, sparse, htyped⟩
  · have hint : kernelInt (field mutation "id") = .ok (Int64.ofInt id) :=
      kernel_int_ok.2 ⟨id, hid, haccepts.id_fits id hid, rfl⟩
    refine ⟨.delete (Int64.ofInt id), .delete _ hop hint, ?_⟩
    simp only [applySteps, hop]
    refine .one _ fun points => ?_
    simp [deleteStep, hint, perform, bind, Except.bind, pure, Except.pure]
  · have hupsert := haccepts.upsert hop
    have hint : kernelInt (field mutation "id") = .ok (Int64.ofInt id) :=
      kernel_int_ok.2 ⟨id, htyped.id_eq, haccepts.id_fits id htyped.id_eq, rfl⟩
    obtain ⟨values, hvalues, hvector⟩ :=
      (kernel_vector_ok htyped.vector_length htyped.vector_number).2
        (by simpa [items, htyped.vector_eq] using hupsert.vector)
    obtain ⟨fields, hfields, hbytes⟩ := (kernel_fields_ok htyped.payload_typed htyped.names_nodup).2
      ⟨by simpa [items, htyped.payload_eq] using hupsert.field_count,
        by simpa [items, htyped.payload_eq] using hupsert.payload,
        by simpa [items, htyped.payload_eq] using hupsert.payload_size⟩
    have hvalues' : kernelVector (field mutation "vector") = .ok values := by
      rw [htyped.vector_eq]; exact hvalues
    have hfields' : kernelFields (field mutation "fields") = .ok fields := by
      rw [htyped.payload_eq]; exact hfields
    have hfirst : ∀ points, upsertStep dimension mutation points =
        .ok (points.insert (Int64.ofInt id) ⟨values, fields, points.sparseOf (Int64.ofInt id)⟩) :=
      fun points => upsert_step_ok.2
        ⟨_, values, fields, hint, hvalues', hfields', hvector, hbytes, rfl⟩
    by_cases hempty : sparse = []
    · refine ⟨.upsert (Int64.ofInt id) values fields [],
        .upsert _ _ _ _ hop hint hvalues' hfields' ?_, ?_⟩
      · simp [htyped.sparse_eq, hempty, kernelSparse, pure, Except.pure]
      · simp only [applySteps, hop, hasSparse, htyped.sparse_eq, hempty]
        exact .one _ fun points => by simp [hfirst, perform]
    · obtain ⟨elements, helements, hsparse⟩ := (kernel_sparse_ok hempty htyped.sparse_typed).2
        ⟨by simpa [items, htyped.sparse_eq] using hupsert.sparse,
          by simpa [items, htyped.sparse_eq] using hupsert.ascending⟩
      have helements' : kernelSparse (field mutation "sparse") = .ok elements := by
        rw [htyped.sparse_eq]; exact helements
      have hnonempty : elements.isEmpty = false := by
        have hlength := (map_m_ok.1 helements).length_eq
        cases elements with
        | nil => exact absurd (List.length_eq_zero_iff.1 hlength) hempty
        | cons element elements => rfl
      refine ⟨.upsert (Int64.ofInt id) values fields elements,
        .upsert _ _ _ _ hop hint hvalues' hfields' helements', ?_⟩
      have hsome : hasSparse mutation = true := by
        simp [hasSparse, htyped.sparse_eq, hempty]
      simp only [applySteps, hop, hsome, if_true]
      refine .two _ _ fun points => ⟨_, hfirst points, sparse_step_ok.2
        ⟨_, elements, _, hint, helements', hsparse, Std.ExtTreeMap.getElem?_insert_self, ?_⟩, ?_⟩
      · simp [perform, hnonempty, insert_insert]
      · simp [perform, hnonempty, insert_insert]

/-- A mutation that is applied is one the kernel accepts. -/
theorem accepts_of_run_steps
    (hvalid : validateReplicatedMutation mutation (some dimension) = .ok u)
    {points next : PointMap} (h : runSteps (applySteps dimension mutation) points = .ok next) :
    KernelAccepts mutation := by
  rcases validate_replicated_mutation_ok hvalid with ⟨hop, id, hid⟩ |
    ⟨hop, id, vector, payload, sparse, htyped⟩
  · simp only [applySteps, hop, runSteps, bind_ok, deleteStep] at h
    obtain ⟨_, ⟨_, hint, -⟩, -⟩ := h
    obtain ⟨number, hnumber, hfits, -⟩ := kernel_int_ok.1 hint
    refine ⟨fun value hvalue => ?_, fun hother => by simp [hop] at hother⟩
    cases hnumber.symm.trans hvalue
    exact hfits
  · have hfirst : ∃ middle, upsertStep dimension mutation points = .ok middle := by
      simp only [applySteps, hop] at h
      split at h <;>
        simp only [runSteps, bind_ok] at h
      · exact ⟨_, h.choose_spec.1⟩
      · exact ⟨_, h.choose_spec.1⟩
    obtain ⟨middle, hmiddle⟩ := hfirst
    obtain ⟨id', values, fields, hint, hvalues, hfields, hvector, hbytes, -⟩ :=
      upsert_step_ok.1 hmiddle
    rw [htyped.vector_eq] at hvalues
    rw [htyped.payload_eq] at hfields
    obtain ⟨number, hnumber, hfits, -⟩ := kernel_int_ok.1 hint
    obtain ⟨hcount, hpayload, hsize⟩ :=
      (kernel_fields_ok htyped.payload_typed htyped.names_nodup).1 ⟨fields, hfields, hbytes⟩
    have hfinite := (kernel_vector_ok htyped.vector_length htyped.vector_number).1
      ⟨values, hvalues, hvector⟩
    have hterms : (∀ item ∈ sparse, SparseItemAccepted item) ∧
        (sparse.map itemTerm).Pairwise (· < ·) := by
      by_cases hempty : sparse = []
      · simp [hempty]
      · have hsome : hasSparse mutation = true := by simp [hasSparse, htyped.sparse_eq, hempty]
        simp only [applySteps, hop, hsome, if_true, runSteps, bind_ok] at h
        obtain ⟨_, -, _, hsecond, -⟩ := h
        obtain ⟨_, elements, _, -, helements, hsparse, -⟩ := sparse_step_ok.1 hsecond
        rw [htyped.sparse_eq] at helements
        exact (kernel_sparse_ok hempty htyped.sparse_typed).1 ⟨elements, helements, hsparse⟩
    refine ⟨fun value hvalue => ?_, fun _ => ?_⟩
    · cases hnumber.symm.trans hvalue
      exact hfits
    · exact {
        vector := by simpa [items, htyped.vector_eq] using hfinite
        field_count := by simpa [items, htyped.payload_eq] using hcount
        payload := by simpa [items, htyped.payload_eq] using hpayload
        payload_size := by simpa [items, htyped.payload_eq] using hsize
        sparse := by simpa [items, htyped.sparse_eq] using hterms.1
        ascending := by simpa [items, htyped.sparse_eq] using hterms.2 }

end Akasha.Distributed

import Akasha.Document.VectorValue

/-!
# Vector field catalogs

A catalog fixes the identity, shape and index of every vector field of a collection. Its
constructor validates it, so a `FieldCatalog` carries its own check. Fields 0 and 1 are the
default dense and the default sparse vector of the old format; catalog version 2 adds named
fields and the sequence at which the old format ended.
-/

namespace Akasha

open Lib

/-- The identity and index tuning of one collection. Metric and scalar are tags. -/
structure CollectionConfig where
  dimension : Nat
  annMetric : Nat
  scalarKind : Nat
  m : Nat
  m0 : Nat
  efConstruction : Nat
  defaultEfSearch : Nat
  maxEfSearch : Nat
  maxLevel : Nat
  rebuildInactivePercent : Nat
  deltaMaxPoints : Nat
  levelSeed : UInt64
deriving DecidableEq, Repr

namespace CollectionConfig

/-- `defaults`. -/
def defaults (dimension : Nat) : CollectionConfig where
  dimension := dimension
  annMetric := 1
  scalarKind := 0
  m := 16
  m0 := 32
  efConstruction := 128
  defaultEfSearch := 64
  maxEfSearch := 512
  maxLevel := 32
  rebuildInactivePercent := 25
  deltaMaxPoints := 10000
  levelSeed := 0xA5A5A5A5A5A5A5A5

/-- The largest dimension of an 8-bit index on which its accumulator cannot overflow. -/
def i8MaxSafeDimension : Nat := 133144

def validate (config : CollectionConfig) : Except String Unit := do
  require (0 < config.dimension) "dimension must be positive"
  require (config.dimension < 2 ^ 32) "dimension must fit UInt32"
  require (config.annMetric ≤ 2)
    ("ann_metric has an unknown tag: " ++ toString config.annMetric)
  require (config.scalarKind ≤ 3)
    ("scalar_kind has an unknown tag: " ++ toString config.scalarKind)
  require (2 ≤ config.m) "m must be at least 2"
  require (config.m < 2 ^ 16) "m must fit UInt16"
  require (config.m ≤ config.m0) "m0 must be greater than or equal to m"
  require (config.m0 < 2 ^ 16) "m0 must fit UInt16"
  require (config.m0 ≤ config.efConstruction) "ef_construction must be greater than or equal to m0"
  require (config.efConstruction < 2 ^ 32) "ef_construction must fit UInt32"
  require (1 ≤ config.defaultEfSearch) "default_ef_search must be at least 1"
  require (config.defaultEfSearch < 2 ^ 32) "default_ef_search must fit UInt32"
  require (config.defaultEfSearch ≤ config.maxEfSearch)
    "max_ef_search must be greater than or equal to default_ef_search"
  require (config.maxEfSearch < 2 ^ 32) "max_ef_search must fit UInt32"
  require (1 ≤ config.maxLevel ∧ config.maxLevel ≤ 63) "max_level must be between 1 and 63"
  require (1 ≤ config.rebuildInactivePercent ∧ config.rebuildInactivePercent ≤ 90)
    "rebuild_inactive_percent must be between 1 and 90"
  require (0 < config.deltaMaxPoints) "delta_max_points must be positive"
  require (config.deltaMaxPoints < 2 ^ 32) "delta_max_points must fit UInt32"
  require (¬ (config.scalarKind = 3 ∧ config.annMetric = 1))
    "scalar_kind i8 is not compatible with ann_metric l2"
  require (¬ (config.scalarKind = 3 ∧ config.dimension > i8MaxSafeDimension))
    "i8 dimension exceeds the Int32 accumulator bound"

end CollectionConfig

/-- A field's identity, shape and index. Kinds are dense 0, sparse 1, multivector 2, binary 3;
indexes are none 0, HNSW 1, sparse 2. -/
structure VectorFieldSpec where
  id : Nat
  name : String
  kind : Nat
  scalar : Nat
  metric : Nat
  index : Nat
  dimension : Nat
  hnsw : Option CollectionConfig
deriving DecidableEq, Repr

def maxVectorFields : Nat := 1024

def maxVectorFieldNameBytes : Nat := 65535

namespace VectorFieldSpec

/-- The name is empty for the two old fields and for no other. -/
def validateName (field : VectorFieldSpec) : Except String Unit := do
  require ((utf8Bytes field.name).length ≤ maxVectorFieldNameBytes)
    "vector field name exceeds format limit"
  require (0 ∉ utf8Bytes field.name) "vector field name cannot contain NUL"
  if field.id < 2 then
    require ((utf8Bytes field.name).length = 0) "legacy vector field names must be empty"
  else require ((utf8Bytes field.name).length ≠ 0) "named vector field requires a name"

/-- The scalar, metric, dimension and index that a kind allows. -/
def validateKind (field : VectorFieldSpec) : Except String Unit :=
  match field.kind with
  | 0 | 2 => do
      require (field.scalar ≤ 4 ∧ field.metric ≤ 2 ∧ field.dimension ≠ 0)
        "invalid dense or multivector schema"
      require (field.index ≤ 1 ∧ ¬ (field.kind = 2 ∧ field.index ≠ 0))
        "invalid dense or multivector index"
  | 1 =>
      require (field.scalar = 0 ∧ field.metric = 0 ∧ field.dimension = 0 ∧ field.index = 2)
        "invalid sparse vector schema"
  | 3 =>
      require (field.scalar = 5 ∧ (field.metric = 3 ∨ field.metric = 4) ∧ field.dimension ≠ 0 ∧
        field.index = 0) "invalid binary vector schema"
  | _ => throw "unknown vector field kind"

/-- A field with an HNSW index carries its configuration, and no other field does. -/
def validateIndex (field : VectorFieldSpec) : Except String Unit :=
  match field.hnsw with
  | some config => do
      require (field.index = 1) "non-HNSW field cannot contain HNSW configuration"
      config.validate
      require (config.dimension = field.dimension ∧ config.annMetric = field.metric)
        "HNSW identity does not match vector field"
  | none => require (field.index ≠ 1) "HNSW field requires index configuration"

def validate (field : VectorFieldSpec) : Except String Unit := do
  require (field.id < 2 ^ 32) "vector field ID must fit UInt32"
  require (field.dimension < 2 ^ 32) "vector field dimension must fit UInt32"
  field.validateName
  field.validateKind
  field.validateIndex
  require (¬ (field.id = 0 ∧ (field.kind ≠ 0 ∨ field.scalar ≠ 0 ∨ field.index ≠ 1)))
    "legacy dense field must use F32 authority and HNSW"
  require (¬ (field.id = 1 ∧ field.kind ≠ 1)) "legacy sparse field must be sparse"

end VectorFieldSpec

/-- The fields are valid, their identifiers ascend and the names of named fields differ. -/
def validateSpecsAfter (previous : Option Nat) (names : List String) :
    List VectorFieldSpec → Except String Unit
  | [] => pure ()
  | field :: fields => do
      field.validate
      require (∀ id ∈ previous, id < field.id) "vector field IDs must strictly increase"
      require (2 ≤ field.id → field.name ∉ names) "vector field names must be unique"
      validateSpecsAfter (some field.id)
        (if 2 ≤ field.id then names ++ [field.name] else names) fields

/-- The metadata that a format version allows. -/
def validateCatalogVersion (formatVersion schemaRevision legacyCutoverSequence fieldCount : Nat) :
    Except String Unit :=
  match formatVersion with
  | 1 =>
      require (schemaRevision = 0 ∧ legacyCutoverSequence = 0 ∧ fieldCount = 2)
        "legacy catalog cannot contain extended metadata"
  | 2 => require (schemaRevision ≠ 0) "field catalog revision must be positive"
  | _ => throw "unsupported field catalog version"

/-- `FieldCatalog.validate`, on the parts of a catalog. -/
def validateCatalog (formatVersion schemaRevision legacyCutoverSequence : Nat)
    (fields : List VectorFieldSpec) : Except String Unit := do
  require (2 ≤ fields.length ∧ fields.length ≤ maxVectorFields)
    "vector field count exceeds catalog bounds"
  validateCatalogVersion formatVersion schemaRevision legacyCutoverSequence fields.length
  require ((fields.take 2).map (·.id) = [0, 1]) "field catalog requires both legacy identities"
  validateSpecsAfter none [] fields

/-- Validated metadata of a collection's fields. -/
structure FieldCatalog where
  formatVersion : Nat
  schemaRevision : Nat
  legacyCutoverSequence : Nat
  fields : List VectorFieldSpec
  valid : validateCatalog formatVersion schemaRevision legacyCutoverSequence fields = .ok ()
deriving DecidableEq

namespace FieldCatalog

/-- `field_at(ordinal_for(id))`: the field with this identifier. -/
def specFor (catalog : FieldCatalog) (id : Nat) : Option VectorFieldSpec :=
  catalog.fields.find? (·.id = id)

end FieldCatalog

/-- `VectorValue.validate`: the value has the kind, scalar and dimension of its field. -/
def VectorValue.validate (value : VectorValue) (field : VectorFieldSpec) : Except String Unit := do
  field.validate
  require (value.kind = field.kind ∧ value.scalar = field.scalar)
    "vector field kind or scalar mismatch"
  require (value.dimension = field.dimension) "vector field dimension mismatch"

/-! ## What a valid catalog says -/

theorem validate_specs_after_ok {previous : Option Nat} {names : List String}
    {fields : List VectorFieldSpec} (h : validateSpecsAfter previous names fields = .ok ()) :
    (∀ field ∈ fields, field.validate = .ok ()) ∧ (fields.map (·.id)).Pairwise (· < ·) ∧
      ∀ id ∈ previous, ∀ field ∈ fields, id < field.id := by
  induction fields generalizing previous names with
  | nil => exact ⟨nofun, .nil, fun _ _ => nofun⟩
  | cons field fields ih =>
      simp only [validateSpecsAfter, bind_ok, exists_unit, require_ok] at h
      obtain ⟨hvalid, hprevious, -, hrest⟩ := h
      obtain ⟨hvalids, hsorted, hlater⟩ := ih hrest
      have hfirst : ∀ other ∈ fields, field.id < other.id := hlater field.id rfl
      refine ⟨List.forall_mem_cons.2 ⟨hvalid, hvalids⟩, ?_, fun id hid => ?_⟩
      · rw [List.map_cons, List.pairwise_cons]
        refine ⟨fun id hid => ?_, hsorted⟩
        obtain ⟨other, hother, rfl⟩ := List.mem_map.1 hid
        exact hfirst other hother
      · have hlt := hprevious id hid
        exact List.forall_mem_cons.2 ⟨hlt, fun other hother => hlt.trans (hfirst other hother)⟩

namespace FieldCatalog

variable (catalog : FieldCatalog)

theorem specs_ok : validateSpecsAfter none [] catalog.fields = .ok () := by
  have h := catalog.valid
  unfold validateCatalog at h
  simp only [bind_ok, exists_unit, require_ok] at h
  obtain ⟨-, -, -, h⟩ := h
  exact h

theorem fields_length : 2 ≤ catalog.fields.length ∧ catalog.fields.length ≤ maxVectorFields := by
  have h := catalog.valid
  unfold validateCatalog at h
  simp only [bind_ok, exists_unit, require_ok] at h
  exact h.1

variable {catalog}

theorem spec_valid {id : Nat} {spec : VectorFieldSpec} (h : catalog.specFor id = some spec) :
    spec.validate = .ok () ∧ spec.id = id := by
  have hmem := List.mem_of_find?_eq_some h
  exact ⟨(validate_specs_after_ok catalog.specs_ok).1 spec hmem, by
    simpa using List.find?_some h⟩

theorem spec_id_lt {id : Nat} {spec : VectorFieldSpec} (h : catalog.specFor id = some spec) :
    id < 2 ^ 32 := by
  obtain ⟨hvalid, rfl⟩ := spec_valid h
  unfold VectorFieldSpec.validate at hvalid
  simp only [bind_ok, exists_unit, require_ok] at hvalid
  exact hvalid.1

variable (catalog) in
/-- The first field is the default dense one. -/
theorem default_field : ∃ spec ∈ catalog.fields, catalog.fields.head? = some spec ∧ spec.id = 0 ∧
    spec.kind = 0 ∧ spec.scalar = 0 ∧ 0 < spec.dimension := by
  have h := catalog.valid
  unfold validateCatalog at h
  simp only [bind_ok, exists_unit, require_ok] at h
  obtain ⟨⟨hlength, -⟩, -, hids, hspecs⟩ := h
  cases hfields : catalog.fields with
  | nil => simp [hfields] at hlength
  | cons spec rest =>
      rw [hfields, List.take_succ_cons, List.map_cons, List.cons.injEq] at hids
      have hvalid := (validate_specs_after_ok hspecs).1 spec (by rw [hfields]; exact .head _)
      unfold VectorFieldSpec.validate at hvalid
      simp only [bind_ok, exists_unit, require_ok] at hvalid
      obtain ⟨-, -, -, hkinds, -, hdense, -⟩ := hvalid
      have hshape := not_and.1 hdense hids.1
      rw [not_or, not_or, not_not, not_not] at hshape
      obtain ⟨hkind, hscalar, -⟩ := hshape
      unfold VectorFieldSpec.validateKind at hkinds
      simp only [hkind, bind_ok, exists_unit, require_ok] at hkinds
      exact ⟨spec, .head _, rfl, hids.1, hkind, hscalar, Nat.pos_of_ne_zero hkinds.1.2.2⟩

end FieldCatalog

end Akasha

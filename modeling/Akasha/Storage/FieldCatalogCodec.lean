import Akasha.Lib.ExactReader
import Akasha.Storage.FieldCatalog

/-!
# Field catalogs are read back

The decoders of `storage/collection_config.mojo` and `storage/field_catalog.mojo`. A configuration
and a catalog are decoded from exactly the bytes they are encoded to: `decode_config_iff` and
`decode_catalog_iff` say so as equivalences. The catalog decides how every later byte of the
collection is read, so one file must not be two catalogs and one catalog not two files.
-/

namespace Akasha.Storage

open Lib List

/-! ## Decoders -/

/-- Magic, version and flags of a configuration. -/
def readConfigHeader : Lib.Reader Unit := do
  let magic ← readSpan 4
  check (magic = catalogMagic) "invalid collection config magic"
  let version ← readU16
  check (version = 1) "unsupported collection config version"
  let flags ← readU16
  check (flags = 0) "unsupported collection config flags"

/-- Dimension, metric, scalar and the two neighbour counts. -/
def readConfigShape : Lib.Reader (Nat × Nat × Nat × Nat × Nat) := do
  let dimension ← readU32
  let annMetric ← readU8
  let scalarKind ← readU8
  let m ← readU16
  let m0 ← readU16
  let reserved ← readU16
  check (reserved = 0) "nonzero collection config reserved bytes"
  pure (dimension, annMetric, scalarKind, m, m0)

/-- The rest of the configuration. -/
def readConfigTuning (dimension annMetric scalarKind m m0 : Nat) : Lib.Reader CollectionConfig := do
  let efConstruction ← readU32
  let defaultEfSearch ← readU32
  let maxEfSearch ← readU32
  let maxLevel ← readU16
  let rebuildInactivePercent ← readU8
  let padding ← readU8
  check (padding = 0) "nonzero collection config reserved byte"
  let deltaMaxPoints ← readU32
  let levelSeed ← readU64
  let extension ← readUnsigned 8
  check (extension = 0) "nonzero collection config reserved extension bytes"
  pure ⟨dimension, annMetric, scalarKind, m, m0, efConstruction, defaultEfSearch, maxEfSearch,
    maxLevel, rebuildInactivePercent, deltaMaxPoints, levelSeed⟩

/-- `decode_collection_config_bytes`, behind the checksum. -/
def readCollectionConfig : Lib.Reader CollectionConfig := do
  readConfigHeader
  let (dimension, annMetric, scalarKind, m, m0) ← readConfigShape
  let config ← readConfigTuning dimension annMetric scalarKind m m0
  let _ ← readU32
  let left ← remaining
  check (left = 0) "unexpected collection config payload"
  pure config

/-- `decode_collection_config_bytes`. -/
def decodeCollectionConfigBytes (bytes : List UInt8) : Except String CollectionConfig := do
  require (bytes.length = 60) "collection config length mismatch"
  checkFileChecksum "collection config checksum mismatch" bytes
  let (config, _) ← readCollectionConfig bytes
  config.validate
  pure config

/-- `legacy_vector_fields`. -/
def legacyVectorFields (config : CollectionConfig) : Except String (List VectorFieldSpec) := do
  config.validate
  pure [⟨0, "", 0, 0, config.annMetric, 1, config.dimension, some config⟩,
    ⟨1, "", 1, 0, 0, 2, 0, none⟩]

/-- `FieldCatalog(..)`. -/
def createCatalog (formatVersion schemaRevision legacyCutoverSequence : Nat)
    (fields : List VectorFieldSpec) : Except String FieldCatalog :=
  match h : validateCatalog formatVersion schemaRevision legacyCutoverSequence fields with
  | .ok () => .ok ⟨formatVersion, schemaRevision, legacyCutoverSequence, fields, h⟩
  | .error e => .error e

/-- The index configuration behind the name of a field. -/
def readFieldHnsw (configLength : Nat) : Lib.Reader (Option CollectionConfig) :=
  if configLength ≠ 0 then do
    let bytes ← readSpan 60
    let config ← ofResult (decodeCollectionConfigBytes bytes)
    pure (some config)
  else pure none

/-- One field of `decode_field_catalog_bytes`. -/
def readFieldSpec : Lib.Reader VectorFieldSpec := do
  let id ← readU32
  let kind ← readU8
  let scalar ← readU8
  let metric ← readU8
  let index ← readU8
  let dimension ← readU32
  let nameLength ← readU16
  let configLength ← readU16
  let flags ← readU32
  let reserved ← readU32
  check (flags = 0 ∧ reserved = 0) "nonzero field descriptor flags or reserved bytes"
  check (configLength = if index = 1 then 60 else 0) "invalid vector index configuration length"
  let nameBytes ← readSpan nameLength
  let name ← readUtf8 nameBytes
  let hnsw ← readFieldHnsw configLength
  pure ⟨id, name, kind, scalar, metric, index, dimension, hnsw⟩

/-- `decode_field_catalog_bytes` behind the version, for version 2. -/
def readFieldCatalog (bytes : List UInt8) : Lib.Reader FieldCatalog := do
  check (¬ bytes.length < 36) "truncated field catalog header"
  let flags ← readU16
  check (flags = 0) "unsupported field catalog flags"
  let length ← readU32
  check (length = bytes.length) "field catalog length mismatch"
  let count ← readU32
  check (2 ≤ count ∧ count ≤ maxVectorFields) "vector field count exceeds catalog bounds"
  let revision ← readUnsigned 8
  let cutover ← readUnsigned 8
  let left ← remaining
  check (¬ count * 24 > left - 4) "truncated field catalog descriptors"
  ofResult (checkFileChecksum "field catalog checksum mismatch" bytes)
  let fields ← readTimes (fun _ => readFieldSpec) 0 count
  let left ← remaining
  check (left = 4) "unexpected trailing field catalog data"
  ofResult (createCatalog 2 revision cutover fields)

/-- The version 1 file is the configuration of the default dense field. -/
def decodeLegacyCatalog (bytes : List UInt8) : Except String FieldCatalog := do
  require (bytes.length = 60) "legacy collection config length mismatch"
  let config ← decodeCollectionConfigBytes bytes
  let fields ← legacyVectorFields config
  createCatalog 1 0 0 fields

/-- What a version says about the rest of the file. -/
def readCatalogVersion (bytes : List UInt8) (version : Nat) : Lib.Reader FieldCatalog :=
  match version with
  | 1 => ofResult (decodeLegacyCatalog bytes)
  | 2 => readFieldCatalog bytes
  | _ => fun _ => .error "unsupported field catalog version"

/-- `decode_field_catalog_bytes`. -/
def decodeFieldCatalogBytes (bytes : List UInt8) : Except String FieldCatalog := do
  require (¬ (bytes.length < 8 ∨ bytes.length > maxFieldCatalogBytes))
    "field catalog length exceeds bounds"
  let (magic, rest) ← readSpan 4 bytes
  require (magic = catalogMagic) "invalid field catalog magic"
  let (version, rest) ← readU16 rest
  let (catalog, _) ← readCatalogVersion bytes version rest
  pure catalog

/-! ## Configurations -/

/-- The bytes of a configuration in front of the checksum. -/
def configBody (config : CollectionConfig) : List UInt8 :=
  catalogMagic ++ (leBytes 2 1 ++ (leBytes 2 0 ++ (leBytes 4 config.dimension ++
    (leBytes 1 config.annMetric ++ (leBytes 1 config.scalarKind ++ (leBytes 2 config.m ++
      (leBytes 2 config.m0 ++ (leBytes 2 0 ++ (leBytes 4 config.efConstruction ++
        (leBytes 4 config.defaultEfSearch ++ (leBytes 4 config.maxEfSearch ++
          (leBytes 2 config.maxLevel ++ (leBytes 1 config.rebuildInactivePercent ++ (leBytes 1 0 ++
            (leBytes 4 config.deltaMaxPoints ++ (u64Bytes config.levelSeed ++
              leBytes 8 0))))))))))))))))

theorem length_config_body (config : CollectionConfig) : (configBody config).length = 56 := by
  simp only [configBody, u64Bytes, length_append, length_le_bytes]
  rfl

variable {bytes : List UInt8} {config : CollectionConfig}

theorem encode_config_ok :
    encodeCollectionConfig config = .ok bytes ↔
      config.validate = .ok () ∧ bytes = withChecksum (configBody config) := by
  unfold encodeCollectionConfig configBody
  simp only [bind_ok, exists_unit, pure_ok, le_bytes_one, cons_append,
    nil_append]
  exact and_congr_right fun _ => eq_comm

/-- Every field of a configuration fits its width. -/
structure ConfigFits (config : CollectionConfig) : Prop where
  dimension : config.dimension < 2 ^ 32
  annMetric : config.annMetric < 2 ^ 8
  scalarKind : config.scalarKind < 2 ^ 8
  m : config.m < 2 ^ 16
  m0 : config.m0 < 2 ^ 16
  efConstruction : config.efConstruction < 2 ^ 32
  defaultEfSearch : config.defaultEfSearch < 2 ^ 32
  maxEfSearch : config.maxEfSearch < 2 ^ 32
  maxLevel : config.maxLevel < 2 ^ 16
  rebuildInactivePercent : config.rebuildInactivePercent < 2 ^ 8
  deltaMaxPoints : config.deltaMaxPoints < 2 ^ 32

theorem config_fits (h : config.validate = .ok ()) :
    ConfigFits config := by
  unfold CollectionConfig.validate at h
  simp only [bind_ok, exists_unit, require_ok] at h
  obtain ⟨-, hdimension, hmetric, hscalar, -, hm, -, hm0, -, hef, -, hdefault, -, hmax, hlevel,
    hpercent, -, hdelta, -⟩ := h
  exact ⟨hdimension, by omega, by omega, hm, hm0, hef, hdefault, hmax, by omega, by omega, hdelta⟩

/-- The bytes before the dimension. -/
def configHeader : List UInt8 :=
  catalogMagic ++ (leBytes 2 1 ++ leBytes 2 0)

def configShape (dimension annMetric scalarKind m m0 : Nat) : List UInt8 :=
  leBytes 4 dimension ++ (leBytes 1 annMetric ++ (leBytes 1 scalarKind ++ (leBytes 2 m ++
    (leBytes 2 m0 ++ leBytes 2 0))))

def configTuning (config : CollectionConfig) : List UInt8 :=
  leBytes 4 config.efConstruction ++ (leBytes 4 config.defaultEfSearch ++
    (leBytes 4 config.maxEfSearch ++ (leBytes 2 config.maxLevel ++
      (leBytes 1 config.rebuildInactivePercent ++ (leBytes 1 0 ++ (leBytes 4 config.deltaMaxPoints ++
        (u64Bytes config.levelSeed ++ leBytes 8 0)))))))

theorem config_body_eq (config : CollectionConfig) : configBody config = configHeader ++
    (configShape config.dimension config.annMetric config.scalarKind config.m config.m0 ++
      configTuning config) := by
  simp only [configBody, configHeader, configShape, configTuning, append_assoc]

theorem exact_config_header : Exact readConfigHeader (fun _ => True) (fun _ => configHeader) := by
  intro bytes _ rest
  unfold readConfigHeader
  simp only [(exact_span 4).bind_ok, exact_u16.bind_ok, check_bind_ok, check_ok, true_and]
  constructor
  · rintro ⟨magic, -, r1, rfl, rfl, version, -, r2, rfl, rfl, flags, -, r3, rfl, rfl, rfl⟩
    simp only [configHeader, id, append_assoc]
  · rintro rfl
    simp only [configHeader, append_assoc]
    exact ⟨_, rfl, _, rfl, rfl, 1, by decide, _, rfl, rfl, 0, by decide, _, rfl, rfl, rfl⟩

theorem exact_config_shape : Exact readConfigShape
    (fun shape => shape.1 < 2 ^ 32 ∧ shape.2.1 < 2 ^ 8 ∧ shape.2.2.1 < 2 ^ 8 ∧
      shape.2.2.2.1 < 2 ^ 16 ∧ shape.2.2.2.2 < 2 ^ 16)
    (fun shape => configShape shape.1 shape.2.1 shape.2.2.1 shape.2.2.2.1 shape.2.2.2.2) := by
  rintro bytes ⟨dimension, metric, scalar, m, m0⟩ rest
  unfold readConfigShape
  simp only [exact_u32.bind_ok, exact_u16.bind_ok, exact_u8.bind_ok, check_bind_ok, reader_pure_ok,
    Prod.mk.injEq]
  constructor
  · rintro ⟨_, hdimension, r1, rfl, _, hmetric, r2, rfl, _, hscalar, r3, rfl, _, hm, r4, rfl, _, hm0,
      r5, rfl, reserved, -, r6, rfl, rfl, ⟨rfl, rfl, rfl, rfl, rfl⟩, rfl⟩
    refine ⟨⟨hdimension, hmetric, hscalar, hm, hm0⟩, ?_⟩
    simp only [configShape, append_assoc]
  · rintro ⟨⟨hdimension, hmetric, hscalar, hm, hm0⟩, rfl⟩
    simp only [configShape, append_assoc]
    exact ⟨_, hdimension, _, rfl, _, hmetric, _, rfl, _, hscalar, _, rfl, _, hm, _, rfl, _, hm0, _, rfl,
      0, by decide, _, rfl, rfl, ⟨rfl, rfl, rfl, rfl, rfl⟩, rfl⟩

/-- The configuration has the shape that was read, and its other fields fit. -/
structure TuningFits (dimension annMetric scalarKind m m0 : Nat) (config : CollectionConfig) :
    Prop where
  shape : config.dimension = dimension ∧ config.annMetric = annMetric ∧
    config.scalarKind = scalarKind ∧ config.m = m ∧ config.m0 = m0
  efConstruction : config.efConstruction < 2 ^ 32
  defaultEfSearch : config.defaultEfSearch < 2 ^ 32
  maxEfSearch : config.maxEfSearch < 2 ^ 32
  maxLevel : config.maxLevel < 2 ^ 16
  rebuildInactivePercent : config.rebuildInactivePercent < 2 ^ 8
  deltaMaxPoints : config.deltaMaxPoints < 2 ^ 32

theorem exact_config_tuning (dimension annMetric scalarKind m m0 : Nat) :
    Exact (readConfigTuning dimension annMetric scalarKind m m0)
      (TuningFits dimension annMetric scalarKind m m0) configTuning := by
  intro bytes config rest
  unfold readConfigTuning
  simp only [exact_u32.bind_ok, exact_u16.bind_ok, exact_u8.bind_ok, exact_u64.bind_ok,
    (exact_unsigned 8).bind_ok, check_bind_ok, reader_pure_ok, Prod.mk.injEq]
  constructor
  · rintro ⟨ef, hef, r1, rfl, defaultEf, hdefault, r2, rfl, maxEf, hmax, r3, rfl, level, hlevel, r4, rfl,
      percent, hpercent, r5, rfl, padding, -, r6, rfl, rfl, delta, hdelta, r7, rfl, seed, -, r8, rfl,
      extension, -, r9, rfl, rfl, rfl, rfl⟩
    refine ⟨⟨⟨rfl, rfl, rfl, rfl, rfl⟩, hef, hdefault, hmax, hlevel, hpercent, hdelta⟩, ?_⟩
    simp only [configTuning, append_assoc]
  · rintro ⟨⟨⟨rfl, rfl, rfl, rfl, rfl⟩, hef, hdefault, hmax, hlevel, hpercent, hdelta⟩, rfl⟩
    simp only [configTuning, append_assoc]
    exact ⟨_, hef, _, rfl, _, hdefault, _, rfl, _, hmax, _, rfl, _, hlevel, _, rfl, _, hpercent, _, rfl,
      0, by decide, _, rfl, rfl, _, hdelta, _, rfl, _, trivial, _, rfl, 0, by decide, _, rfl, rfl, rfl,
      rfl⟩

theorem read_config_iff {bytes rest : List UInt8} :
    readCollectionConfig bytes = .ok (config, rest) ↔
      rest = [] ∧ ConfigFits config ∧
        ∃ checksum < 256 ^ 4, bytes = configBody config ++ leBytes 4 checksum := by
  unfold readCollectionConfig
  simp only [exact_config_header.bind_ok, exact_config_shape.bind_ok,
    (exact_config_tuning _ _ _ _ _).bind_ok, exact_u32.bind_ok, remaining_bind_ok, check_bind_ok,
    reader_pure_ok, Prod.mk.injEq, config_body_eq]
  constructor
  · rintro ⟨_, -, r1, rfl, ⟨dimension, metric, scalar, m, m0⟩, ⟨hdimension, hmetric, hscalar, hm, hm0⟩,
      r2, rfl, config, ⟨⟨rfl, rfl, rfl, rfl, rfl⟩, hef, hdefault, hmax, hlevel, hpercent, hdelta⟩, r3,
      rfl, checksum, hchecksum, r4, rfl, hempty, rfl, rfl⟩
    obtain rfl := length_eq_zero_iff.1 hempty
    refine ⟨rfl, ⟨hdimension, hmetric, hscalar, hm, hm0, hef, hdefault, hmax, hlevel, hpercent,
      hdelta⟩, checksum, hchecksum, ?_⟩
    simp only [append_assoc, append_nil]
  · rintro ⟨rfl, h, checksum, hchecksum, rfl⟩
    simp only [append_assoc]
    exact ⟨(), trivial, _, rfl, (_, _, _, _, _),
      ⟨h.dimension, h.annMetric, h.scalarKind, h.m, h.m0⟩, _, rfl, config,
      ⟨⟨rfl, rfl, rfl, rfl, rfl⟩, h.efConstruction, h.defaultEfSearch, h.maxEfSearch, h.maxLevel,
        h.rebuildInactivePercent, h.deltaMaxPoints⟩, _, rfl, checksum, hchecksum, [],
      (append_nil _).symm, rfl, rfl, rfl⟩

theorem decode_config_iff :
    decodeCollectionConfigBytes bytes = .ok config ↔ encodeCollectionConfig config = .ok bytes := by
  rw [encode_config_ok]
  unfold decodeCollectionConfigBytes
  simp only [bind_ok, exists_unit, require_ok, pure_ok, Prod.exists]
  constructor
  · rintro ⟨-, hsum, _, rest, hread, hvalid, rfl⟩
    obtain ⟨-, -, checksum, hchecksum, rfl⟩ := read_config_iff.1 hread
    exact ⟨hvalid, (check_file_checksum_ok hchecksum).1 hsum⟩
  · rintro ⟨hvalid, rfl⟩
    have hcrc : (crc32 ((configBody config).drop 4)).toNat < 256 ^ 4 := UInt32.toNat_lt _
    refine ⟨?_, (check_file_checksum_ok hcrc).2 rfl, config, [],
      read_config_iff.2 ⟨rfl, config_fits hvalid, _, hcrc, rfl⟩, hvalid, rfl⟩
    rw [withChecksum, length_append, length_config_body, length_le_bytes]

/-! ## Fields -/

/-- The bytes of an index configuration, where there is one. -/
def hnswBytes : Option CollectionConfig → List UInt8
  | some config => withChecksum (configBody config)
  | none => []

def fieldBytes (field : VectorFieldSpec) : List UInt8 :=
  leBytes 4 field.id ++ (leBytes 1 field.kind ++ (leBytes 1 field.scalar ++ (leBytes 1 field.metric ++
    (leBytes 1 field.index ++ (leBytes 4 field.dimension ++
      (leBytes 2 (utf8Bytes field.name).length ++
        (leBytes 2 (if field.hnsw.isSome then 60 else 0) ++ (leBytes 4 0 ++ (leBytes 4 0 ++
          (utf8Bytes field.name ++ hnswBytes field.hnsw))))))))))

/-- A field that fits its descriptor, with a configuration exactly for an HNSW index. -/
structure FieldFits (field : VectorFieldSpec) : Prop where
  id : field.id < 2 ^ 32
  kind : field.kind < 2 ^ 8
  scalar : field.scalar < 2 ^ 8
  metric : field.metric < 2 ^ 8
  index : field.index < 2 ^ 8
  dimension : field.dimension < 2 ^ 32
  name : (utf8Bytes field.name).length < 2 ^ 16
  config_iff : field.hnsw.isSome ↔ field.index = 1
  config_valid : ∀ config ∈ field.hnsw, config.validate = .ok ()

variable {field : VectorFieldSpec}

/-- A validated field fits. -/
theorem field_fits (h : field.validate = .ok ()) : FieldFits field := by
  unfold VectorFieldSpec.validate at h
  simp only [bind_ok, exists_unit, require_ok] at h
  obtain ⟨hid, hdimension, hname, hkind, hindex, -, -⟩ := h
  unfold VectorFieldSpec.validateName at hname
  simp only [bind_ok, exists_unit, require_ok] at hname
  have hshape : field.kind ≤ 3 ∧ field.scalar ≤ 5 ∧ field.metric ≤ 4 ∧ field.index ≤ 2 := by
    unfold VectorFieldSpec.validateKind at hkind
    split at hkind
    case h_5 => cases hkind
    all_goals
      simp only [bind_ok, exists_unit, require_ok] at hkind
      omega
  have hconfig : (field.hnsw.isSome ↔ field.index = 1) ∧
      ∀ config ∈ field.hnsw, config.validate = .ok () := by
    unfold VectorFieldSpec.validateIndex at hindex
    cases hhnsw : field.hnsw with
    | none =>
        simp only [hhnsw, require_ok] at hindex
        exact ⟨⟨nofun, fun hone => absurd hone hindex⟩, nofun⟩
    | some config =>
        simp only [hhnsw, bind_ok, exists_unit, require_ok] at hindex
        refine ⟨⟨fun _ => hindex.1, fun _ => rfl⟩, fun other hother => ?_⟩
        obtain rfl := Option.some.inj hother
        exact hindex.2.1
  exact ⟨hid, by omega, by omega, by omega, by omega, hdimension, Nat.lt_succ_of_le hname.1,
    hconfig.1, hconfig.2⟩

theorem length_hnsw_bytes (hnsw : Option CollectionConfig) :
    (hnswBytes hnsw).length = if hnsw.isSome then 60 else 0 := by
  cases hnsw with
  | none => rfl
  | some config =>
      rw [hnswBytes, withChecksum, length_append, length_config_body, length_le_bytes]
      rfl

theorem length_field_bytes (field : VectorFieldSpec) :
    (fieldBytes field).length =
      24 + (utf8Bytes field.name).length + if field.hnsw.isSome then 60 else 0 := by
  simp only [fieldBytes, length_append, length_le_bytes, length_hnsw_bytes]
  omega

theorem encode_field_ok (h : FieldFits field) :
    encodeFieldSpec field = .ok (fieldBytes field) := by
  have hconfig : encodeHnsw field.hnsw = .ok (hnswBytes field.hnsw) := by
    cases hhnsw : field.hnsw with
    | none => rfl
    | some config => exact encode_config_ok.2 ⟨h.config_valid config hhnsw, rfl⟩
  refine bind_ok.2 ⟨_, hconfig, ?_⟩
  simp only [fieldBytes, le_bytes_one, cons_append, nil_append]
  rfl

/-- The reader of an index configuration of the length that goes with it. -/
theorem exact_field_hnsw (configLength : Nat) : Exact (readFieldHnsw configLength)
    (fun hnsw => (hnsw.isSome ↔ configLength ≠ 0) ∧ ∀ config ∈ hnsw, config.validate = .ok ())
    hnswBytes := by
  intro bytes hnsw rest
  unfold readFieldHnsw
  by_cases hzero : configLength = 0
  · rw [if_neg (not_not.2 hzero), reader_pure_ok, Prod.mk.injEq]
    cases hnsw with
    | none => simp [hnswBytes, hzero]
    | some config => simp [hzero]
  · rw [if_pos hzero]
    simp only [(exact_span 60).bind_ok, of_result_bind_ok, reader_pure_ok, Prod.mk.injEq,
      decode_config_iff, encode_config_ok]
    constructor
    · rintro ⟨span, -, left, rfl, config, ⟨hvalid, rfl⟩, rfl, rfl⟩
      refine ⟨⟨⟨fun _ => hzero, fun _ => rfl⟩, fun other hother => ?_⟩, rfl⟩
      obtain rfl := Option.some.inj hother
      exact hvalid
    · rintro ⟨⟨hsome, hvalid⟩, rfl⟩
      cases hnsw with
      | none => exact absurd (hsome.2 hzero) (by decide)
      | some config =>
          exact ⟨_, length_hnsw_bytes (some config), _, rfl, config, ⟨hvalid config rfl, rfl⟩, rfl,
            rfl⟩

theorem exact_field : Exact readFieldSpec FieldFits fieldBytes := by
  intro bytes field rest
  unfold readFieldSpec
  simp only [exact_u32.bind_ok, exact_u16.bind_ok, exact_u8.bind_ok, check_bind_ok, text_bind_ok,
    (exact_field_hnsw _).bind_ok, reader_pure_ok, Prod.mk.injEq]
  constructor
  · rintro ⟨id, hid, r1, rfl, kind, hkind, r2, rfl, scalar, hscalar, r3, rfl, metric, hmetric, r4, rfl,
      index, hindex, r5, rfl, dimension, hdimension, r6, rfl, _, hlength, r7, rfl, config, -, r8, rfl,
      flags, -, r9, rfl, reserved, -, r10, rfl, ⟨rfl, rfl⟩, hconfig, name, rfl, r11, rfl, hnsw,
      ⟨hsome, hvalid⟩, r12, rfl, rfl, rfl⟩
    have hiff : hnsw.isSome ↔ index = 1 := by
      rw [hsome, hconfig]
      by_cases hone : index = 1 <;> simp [hone]
    have hlen : config = if hnsw.isSome then 60 else 0 := by
      rw [hconfig]
      by_cases hone : index = 1 <;> simp [hone, hiff]
    refine ⟨⟨hid, hkind, hscalar, hmetric, hindex, hdimension, hlength, hiff, hvalid⟩, ?_⟩
    simp only [fieldBytes, hlen, append_assoc]
  · rintro ⟨h, rfl⟩
    have hlen : (if field.hnsw.isSome then 60 else 0) = if field.index = 1 then 60 else 0 := by
      by_cases hone : field.index = 1 <;> simp [hone, h.config_iff]
    have hsome : field.hnsw.isSome ↔ (if field.hnsw.isSome then 60 else 0) ≠ 0 := by
      by_cases hcase : field.hnsw.isSome <;> simp [hcase]
    simp only [fieldBytes, append_assoc]
    exact ⟨_, h.id, _, rfl, _, h.kind, _, rfl, _, h.scalar, _, rfl, _, h.metric, _, rfl, _, h.index, _,
      rfl, _, h.dimension, _, rfl, _, h.name, _, rfl, _, by split <;> decide, _, rfl, 0, by decide, _,
      rfl, 0, by decide, _, rfl, ⟨rfl, rfl⟩, hlen, _, rfl, _, rfl, _, ⟨hsome, h.config_valid⟩, _, rfl,
      rfl, rfl⟩

/-! ## Catalogs -/

variable {catalog : FieldCatalog}

theorem create_catalog_ok {formatVersion schemaRevision legacyCutoverSequence : Nat}
    {fields : List VectorFieldSpec} :
    createCatalog formatVersion schemaRevision legacyCutoverSequence fields = .ok catalog ↔
      catalog.formatVersion = formatVersion ∧ catalog.schemaRevision = schemaRevision ∧
        catalog.legacyCutoverSequence = legacyCutoverSequence ∧ catalog.fields = fields := by
  unfold createCatalog
  constructor
  · intro h
    split at h
    · obtain rfl := Except.ok.inj h
      exact ⟨rfl, rfl, rfl, rfl⟩
    · cases h
  · rintro ⟨rfl, rfl, rfl, rfl⟩
    split
    · rfl
    · next e h => rw [catalog.valid] at h; cases h

theorem catalog_fields_fit (catalog : FieldCatalog) :
    ∀ field ∈ catalog.fields, FieldFits field :=
  fun field hfield => field_fits ((validate_specs_after_ok catalog.specs_ok).1 field hfield)

/-- The body of a catalog of version 2. -/
def catalogBody (catalog : FieldCatalog) : List UInt8 :=
  catalogMagic ++ (leBytes 2 2 ++ (leBytes 2 0 ++ (leBytes 4 (catalogLength catalog) ++
    (leBytes 4 catalog.fields.length ++ (leBytes 8 catalog.schemaRevision ++
      (leBytes 8 catalog.legacyCutoverSequence ++ catalog.fields.flatMap fieldBytes))))))

theorem length_fields (fields : List VectorFieldSpec) : (fields.flatMap fieldBytes).length =
    (fields.map fun field =>
      24 + (utf8Bytes field.name).length + if field.hnsw.isSome then 60 else 0).sum := by
  induction fields with
  | nil => rfl
  | cons field fields ih =>
      rw [flatMap_cons, length_append, ih, length_field_bytes, map_cons, sum_cons]

theorem length_catalog_body (catalog : FieldCatalog) :
    (catalogBody catalog).length + 4 = catalogLength catalog := by
  simp only [catalogBody, catalogLength, length_append, length_le_bytes, length_fields]
  rw [show catalogMagic.length = 4 from rfl]
  omega

theorem catalog_length_le (catalog : FieldCatalog) :
    catalogLength catalog ≤ maxFieldCatalogBytes := by
  have hfields : (catalog.fields.flatMap fieldBytes).length ≤
      catalog.fields.length * (24 + maxVectorFieldNameBytes + 60) := by
    refine length_flat_map_le fun field hfield => ?_
    have hname := (catalog_fields_fit catalog field hfield).name
    have hconfig : (if field.hnsw.isSome then 60 else 0) ≤ 60 := by split <;> omega
    rw [length_field_bytes]
    unfold maxVectorFieldNameBytes
    omega
  have hcount := Nat.mul_le_mul_right (24 + maxVectorFieldNameBytes + 60) catalog.fields_length.2
  rw [length_fields] at hfields
  unfold catalogLength maxFieldCatalogBytes
  omega

/-- The default dense field is its configuration. -/
theorem legacy_dense_field (h : field.validate = .ok ()) (hid : field.id = 0) :
    ∃ config, field = ⟨0, "", 0, 0, config.annMetric, 1, config.dimension, some config⟩ ∧
      config.validate = .ok () := by
  unfold VectorFieldSpec.validate at h
  simp only [bind_ok, exists_unit, require_ok] at h
  obtain ⟨-, -, hname, -, hindex, hdense, -⟩ := h
  obtain ⟨id, name, kind, scalar, metric, index, dimension, hnsw⟩ := field
  subst hid
  obtain ⟨rfl, rfl, rfl⟩ : kind = 0 ∧ scalar = 0 ∧ index = 1 := by
    simpa [not_or, and_assoc] using hdense
  have hempty : name = "" := by
    unfold VectorFieldSpec.validateName at hname
    simp only [bind_ok, exists_unit, require_ok] at hname
    have hlength := hname.2.2
    rw [if_pos (by decide), require_ok] at hlength
    exact utf8_bytes_eq_nil.1 (length_eq_zero_iff.1 hlength)
  unfold VectorFieldSpec.validateIndex at hindex
  cases hnsw with
  | none =>
      rw [require_ok] at hindex
      exact absurd rfl hindex
  | some config =>
      simp only [bind_ok, exists_unit, require_ok] at hindex
      obtain ⟨-, hvalid, rfl, rfl⟩ := hindex
      exact ⟨config, by rw [hempty], hvalid⟩

/-- There is one default sparse field. -/
theorem legacy_sparse_field (h : field.validate = .ok ()) (hid : field.id = 1) :
    field = ⟨1, "", 1, 0, 0, 2, 0, none⟩ := by
  unfold VectorFieldSpec.validate at h
  simp only [bind_ok, exists_unit, require_ok] at h
  obtain ⟨-, -, hname, hkinds, hindex, -, hsparse⟩ := h
  obtain ⟨id, name, kind, scalar, metric, index, dimension, hnsw⟩ := field
  subst hid
  obtain rfl : kind = 1 := by simpa using hsparse
  have hempty : name = "" := by
    unfold VectorFieldSpec.validateName at hname
    simp only [bind_ok, exists_unit, require_ok] at hname
    have hlength := hname.2.2
    rw [if_pos (by decide), require_ok] at hlength
    exact utf8_bytes_eq_nil.1 (length_eq_zero_iff.1 hlength)
  obtain ⟨rfl, rfl, rfl, rfl⟩ := require_ok.1 hkinds
  unfold VectorFieldSpec.validateIndex at hindex
  cases hnsw with
  | none => rw [hempty]
  | some config =>
      simp only [bind_ok, exists_unit, require_ok] at hindex
      exact absurd hindex.1 (by decide)

/-- A version 1 catalog is the configuration of its dense field. -/
theorem legacy_catalog (h : catalog.formatVersion = 1) :
    ∃ config, encodeFieldCatalog catalog = encodeCollectionConfig config ∧
      config.validate = .ok () ∧ catalog.schemaRevision = 0 ∧ catalog.legacyCutoverSequence = 0 ∧
      legacyVectorFields config = .ok catalog.fields := by
  have hvalid := catalog.valid
  unfold validateCatalog at hvalid
  simp only [bind_ok, exists_unit, require_ok] at hvalid
  obtain ⟨-, hversion, hids, hspecs⟩ := hvalid
  rw [h] at hversion
  obtain ⟨hrevision, hcutover, hlength⟩ := require_ok.1 hversion
  obtain ⟨first, second, hfields⟩ := length_eq_two.1 hlength
  rw [hfields] at hids hspecs
  have hvalids := (validate_specs_after_ok hspecs).1
  obtain ⟨hfirst, hsecond⟩ : first.id = 0 ∧ second.id = 1 := by simpa using hids
  obtain ⟨config, rfl, hconfig⟩ := legacy_dense_field (hvalids first (by simp)) hfirst
  obtain rfl := legacy_sparse_field (hvalids second (by simp)) hsecond
  refine ⟨config, ?_, hconfig, hrevision, hcutover, ?_⟩
  · unfold encodeFieldCatalog
    rw [if_pos h, hfields]
    rfl
  · rw [hfields]
    exact bind_ok.2 ⟨(), hconfig, rfl⟩

theorem encode_catalog_ok (h : catalog.formatVersion = 2) :
    encodeFieldCatalog catalog = .ok (withChecksum (catalogBody catalog)) := by
  have hspecs : catalog.fields.mapM encodeFieldSpec = .ok (catalog.fields.map fieldBytes) :=
    map_m_map fun field hfield => encode_field_ok (catalog_fields_fit catalog field hfield)
  have hbody : catalogMagic ++ (leBytes 2 2 ++ (leBytes 2 0 ++ (leBytes 4 (catalogLength catalog) ++
      (leBytes 4 catalog.fields.length ++ (leBytes 8 catalog.schemaRevision ++
        (leBytes 8 catalog.legacyCutoverSequence ++
          (catalog.fields.map fieldBytes).flatten)))))) = catalogBody catalog := rfl
  have hlength := length_catalog_body catalog
  unfold encodeFieldCatalog
  rw [if_neg (by omega)]
  refine bind_ok.2 ⟨(), require_ok.2 (catalog_length_le catalog), bind_ok.2
    ⟨_, hspecs, ?_⟩⟩
  rw [hbody]
  exact bind_ok.2 ⟨(), require_ok.2 (by omega), rfl⟩

/-- The decoder of version 2 returns the catalogs whose file it is given. -/
theorem read_catalog_iff {bytes tail : List UInt8}
    (hbytes : bytes = catalogMagic ++ (leBytes 2 2 ++ tail)) :
    (∃ rest, readFieldCatalog bytes tail = .ok (catalog, rest)) ↔
      catalog.formatVersion = 2 ∧ CatalogFits catalog ∧
        bytes = withChecksum (catalogBody catalog) := by
  unfold readFieldCatalog
  simp only [exact_u16.bind_ok, exact_u32.bind_ok, (exact_unsigned 8).bind_ok,
    (exact_times exact_field _ _).bind_ok, check_bind_ok, remaining_bind_ok, of_result_bind_ok,
    of_result_ok, create_catalog_ok, exists_unit]
  constructor
  · rintro ⟨rest, -, flags, -, r1, rfl, rfl, length, -, r2, rfl, hlength, count, -, r3, rfl, -, revision,
      hrevision, r4, rfl, cutover, hcutover, r5, rfl, -, hsum, fields, ⟨rfl, -⟩, r6, rfl, hleft,
      ⟨hversion, rfl, rfl, rfl⟩, -⟩
    refine ⟨hversion, ⟨hrevision, hcutover⟩, ?_⟩
    have hclosing : leBytes 4 (leValue r6) = r6 := by
      rw [← hleft]
      exact le_bytes_le_value r6
    have hfits : leValue r6 < 256 ^ 4 := by
      have hlt := le_value_lt r6
      rwa [hleft] at hlt
    have hbody : bytes = catalogBody catalog ++ leBytes 4 (leValue r6) := by
      have hcount : length = catalogLength catalog := by
        rw [hlength, hbytes, ← length_catalog_body]
        simp only [catalogBody, length_append, length_le_bytes, hleft]
        omega
      rw [hbytes, hclosing, hcount]
      simp only [catalogBody, append_assoc]
    rw [hbody] at hsum ⊢
    exact (check_file_checksum_ok hfits).1 hsum
  · rintro ⟨hversion, hfits, hfile⟩
    have hcrc : (crc32 ((catalogBody catalog).drop 4)).toNat < 256 ^ 4 := UInt32.toNat_lt _
    have hlength : bytes.length = catalogLength catalog := by
      rw [hfile, withChecksum, length_append, length_le_bytes, length_catalog_body]
    have htail : tail = leBytes 2 0 ++ (leBytes 4 (catalogLength catalog) ++
        (leBytes 4 catalog.fields.length ++ (leBytes 8 catalog.schemaRevision ++
          (leBytes 8 catalog.legacyCutoverSequence ++ (catalog.fields.flatMap fieldBytes ++
            leBytes 4 (crc32 ((catalogBody catalog).drop 4)).toNat))))) := by
      have hparts : catalogMagic ++ (leBytes 2 2 ++ tail) = catalogMagic ++ (leBytes 2 2 ++
          (leBytes 2 0 ++ (leBytes 4 (catalogLength catalog) ++ (leBytes 4 catalog.fields.length ++
            (leBytes 8 catalog.schemaRevision ++ (leBytes 8 catalog.legacyCutoverSequence ++
              (catalog.fields.flatMap fieldBytes ++
                leBytes 4 (crc32 ((catalogBody catalog).drop 4)).toNat))))))) := by
        rw [← hbytes, hfile, withChecksum, catalogBody]
        simp only [append_assoc]
      exact append_cancel_left (append_cancel_left hparts)
    have hcount := catalog.fields_length
    have hsmall := catalog_length_le catalog
    have hfields : catalog.fields.length * 24 ≤ (catalog.fields.flatMap fieldBytes).length := by
      refine length_flat_map_ge fun field _ => ?_
      rw [length_field_bytes]
      omega
    have hlow : 36 ≤ catalogLength catalog := Nat.le_add_right _ _
    have hroom : ¬ catalog.fields.length * 24 > (catalog.fields.flatMap fieldBytes ++
        leBytes 4 (crc32 ((catalogBody catalog).drop 4)).toNat).length - 4 := by
      rw [length_append, length_le_bytes]
      omega
    have hwidth : catalogLength catalog < 2 ^ 32 := Nat.lt_of_le_of_lt hsmall (by decide)
    have hcounted : catalog.fields.length < 2 ^ 32 := Nat.lt_of_le_of_lt hcount.2 (by decide)
    have hsum : checkFileChecksum "field catalog checksum mismatch" bytes = .ok () := by
      rw [hfile]
      exact (check_file_checksum_ok hcrc).2 rfl
    rw [htail]
    exact ⟨leBytes 4 (crc32 ((catalogBody catalog).drop 4)).toNat, by omega, 0, by decide, _, rfl, rfl,
      _, hwidth, _, rfl, hlength.symm, _, hcounted, _, rfl, hcount, _, hfits.revision, _, rfl, _,
      hfits.cutover, _, rfl, hroom, hsum, _, ⟨rfl, catalog_fields_fit catalog⟩, _, rfl,
      length_le_bytes 4 _, ⟨hversion, rfl, rfl, rfl⟩, rfl⟩

theorem decode_catalog_ok :
    decodeFieldCatalogBytes bytes = .ok catalog ↔
      (8 ≤ bytes.length ∧ bytes.length ≤ maxFieldCatalogBytes) ∧
        ∃ version tail, bytes = catalogMagic ++ (leBytes 2 version ++ tail) ∧ version < 2 ^ 16 ∧
          ∃ rest, readCatalogVersion bytes version tail = .ok (catalog, rest) := by
  unfold decodeFieldCatalogBytes
  simp only [bind_ok, exists_unit, require_ok, pure_ok, Prod.exists, not_or,
    Nat.not_lt, gt_iff_lt]
  constructor
  · rintro ⟨hbounds, magic, r1, hmagic, rfl, version, tail, hversion, found, rest, hread, rfl⟩
    obtain ⟨-, hbytes⟩ := (exact_span _ _ _ _).1 hmagic
    obtain ⟨hfits, rfl⟩ := (exact_u16 _ _ _).1 hversion
    exact ⟨hbounds, version, tail, hbytes, hfits, rest, hread⟩
  · rintro ⟨hbounds, version, tail, hbytes, hfits, rest, hread⟩
    exact ⟨hbounds, _, _, (exact_span _ _ _ _).2 ⟨rfl, hbytes⟩, rfl, version, tail,
      (exact_u16 _ _ _).2 ⟨hfits, rfl⟩, catalog, rest, hread, rfl⟩

theorem decode_legacy_iff :
    decodeLegacyCatalog bytes = .ok catalog ↔
      catalog.formatVersion = 1 ∧ encodeFieldCatalog catalog = .ok bytes := by
  unfold decodeLegacyCatalog
  simp only [bind_ok, exists_unit, require_ok, decode_config_iff, create_catalog_ok]
  constructor
  · rintro ⟨-, config, hconfig, fields, hfields, hversion, -, -, rfl⟩
    obtain ⟨_, -, hfields⟩ := bind_ok.1 hfields
    refine ⟨hversion, ?_⟩
    unfold encodeFieldCatalog
    rw [if_pos hversion, ← pure_ok.1 hfields]
    exact hconfig
  · rintro ⟨hversion, hencode⟩
    obtain ⟨config, hsame, hvalid, hrevision, hcutover, hfields⟩ := legacy_catalog hversion
    rw [hsame] at hencode
    refine ⟨?_, config, hencode, _, hfields, hversion, hrevision, hcutover, rfl⟩
    rw [(encode_config_ok.1 hencode).2, withChecksum, length_append, length_config_body,
      length_le_bytes]

theorem catalog_version (catalog : FieldCatalog) :
    catalog.formatVersion = 1 ∨ catalog.formatVersion = 2 := by
  have hvalid := catalog.valid
  unfold validateCatalog at hvalid
  simp only [bind_ok, exists_unit, require_ok] at hvalid
  have hversion := hvalid.2.1
  unfold validateCatalogVersion at hversion
  split at hversion
  · next h => exact .inl h
  · next h => exact .inr h
  · cases hversion

/-- A catalog is decoded from exactly the bytes it is encoded to. -/
theorem decode_catalog_iff :
    decodeFieldCatalogBytes bytes = .ok catalog ↔
      CatalogFits catalog ∧ encodeFieldCatalog catalog = .ok bytes := by
  rw [decode_catalog_ok]
  constructor
  · rintro ⟨-, version, tail, hbytes, -, rest, hread⟩
    unfold readCatalogVersion at hread
    split at hread
    · obtain ⟨hversion, hencode⟩ := decode_legacy_iff.1 (of_result_ok.1 hread).1
      obtain ⟨-, -, -, hrevision, hcutover, -⟩ := legacy_catalog hversion
      exact ⟨⟨by rw [hrevision]; decide, by rw [hcutover]; decide⟩, hencode⟩
    · obtain ⟨hversion, hfits, rfl⟩ := (read_catalog_iff hbytes).1 ⟨rest, hread⟩
      exact ⟨hfits, encode_catalog_ok hversion⟩
    · cases hread
  · rintro ⟨hfits, hencode⟩
    rcases catalog_version catalog with hversion | hversion
    · obtain ⟨config, hsame, -⟩ := legacy_catalog hversion
      have hbytes := (encode_config_ok.1 (hsame.symm.trans hencode)).2
      have hlength : bytes.length = 60 := by
        rw [hbytes, withChecksum, length_append, length_config_body, length_le_bytes]
      have hparts : ∃ tail, bytes = catalogMagic ++ (leBytes 2 1 ++ tail) := by
        rw [hbytes, withChecksum, configBody, append_assoc, append_assoc]
        exact ⟨_, rfl⟩
      obtain ⟨tail, hparts⟩ := hparts
      exact ⟨by rw [hlength]; decide, 1, tail, hparts, by decide, tail,
        of_result_ok.2 ⟨decode_legacy_iff.2 ⟨hversion, hencode⟩, rfl⟩⟩
    · have hbytes : bytes = withChecksum (catalogBody catalog) :=
        Except.ok.inj (hencode.symm.trans (encode_catalog_ok hversion))
      have hlength : bytes.length = catalogLength catalog := by
        rw [hbytes, withChecksum, length_append, length_le_bytes, length_catalog_body]
      have hlow : 36 ≤ catalogLength catalog := Nat.le_add_right _ _
      have hparts : ∃ tail, bytes = catalogMagic ++ (leBytes 2 2 ++ tail) := by
        rw [hbytes, withChecksum, catalogBody, append_assoc, append_assoc]
        exact ⟨_, rfl⟩
      obtain ⟨tail, hparts⟩ := hparts
      obtain ⟨rest, hread⟩ := (read_catalog_iff hparts).2 ⟨hversion, hfits, hbytes⟩
      exact ⟨⟨by omega, hlength ▸ catalog_length_le catalog⟩, 2, tail, hparts, by decide, rest, hread⟩

/-- Every catalog is encoded within the limit and decoded again, and what is decoded is encoded to
the same bytes. -/
theorem field_catalog_round_trip :
    (∀ catalog : FieldCatalog, CatalogFits catalog → ∃ bytes,
      encodeFieldCatalog catalog = .ok bytes ∧ bytes.length ≤ maxFieldCatalogBytes ∧
        decodeFieldCatalogBytes bytes = .ok catalog) ∧
    ∀ bytes catalog, decodeFieldCatalogBytes bytes = .ok catalog →
      encodeFieldCatalog catalog = .ok bytes := by
  refine ⟨fun catalog hfits => ?_, fun bytes catalog hdecode => (decode_catalog_iff.1 hdecode).2⟩
  have hencode : ∃ bytes, encodeFieldCatalog catalog = .ok bytes := by
    rcases catalog_version catalog with hversion | hversion
    · obtain ⟨config, hsame, hvalid, -⟩ := legacy_catalog hversion
      exact ⟨_, hsame.trans (encode_config_ok.2 ⟨hvalid, rfl⟩)⟩
    · exact ⟨_, encode_catalog_ok hversion⟩
  obtain ⟨bytes, hencode⟩ := hencode
  have hdecode := decode_catalog_iff.2 ⟨hfits, hencode⟩
  exact ⟨bytes, hencode, (decode_catalog_ok.1 hdecode).1.2, hdecode⟩

/-- The two default fields and a binary one with a name, under revision 1. -/
def smallCatalog : FieldCatalog where
  formatVersion := 2
  schemaRevision := 1
  legacyCutoverSequence := 0
  fields := [⟨0, "", 0, 0, 1, 1, 4, some (CollectionConfig.defaults 4)⟩,
    ⟨1, "", 1, 0, 0, 2, 0, none⟩, ⟨2, "tags", 3, 5, 3, 0, 8, none⟩]
  valid := by decide +kernel

theorem field_catalog_round_trip_small : ∃ bytes,
    encodeFieldCatalog smallCatalog = .ok bytes ∧ bytes.length ≤ maxFieldCatalogBytes ∧
      decodeFieldCatalogBytes bytes = .ok smallCatalog :=
  field_catalog_round_trip.1 smallCatalog ⟨by decide, by decide +kernel⟩

end Akasha.Storage

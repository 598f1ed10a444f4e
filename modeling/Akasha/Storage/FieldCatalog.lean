import Akasha.Document.FieldCatalog
import Akasha.Storage.BinaryReader
import Akasha.Storage.Checksum

/-!
# Encoded field catalogs

The identity file of a collection: a configuration of fixed width in version 1, a catalog of
vector fields in version 2. Point batches carry the checksum at its end, so that they are read
only against the catalog they were written for.
-/

namespace Akasha.Storage

open Lib

/-- `AKCF`. -/
def catalogMagic : List UInt8 := [0x41, 0x4B, 0x43, 0x46]

def maxFieldCatalogBytes : Nat :=
  36 + maxVectorFields * (24 + maxVectorFieldNameBytes + 60)

/-- `encode_collection_config`. -/
def encodeCollectionConfig (config : CollectionConfig) : Except String (List UInt8) := do
  config.validate
  pure (withChecksum (catalogMagic ++ (leBytes 2 1 ++ (leBytes 2 0 ++ (leBytes 4 config.dimension ++
    (UInt8.ofNat config.annMetric :: UInt8.ofNat config.scalarKind :: (leBytes 2 config.m ++
      (leBytes 2 config.m0 ++ (leBytes 2 0 ++ (leBytes 4 config.efConstruction ++
        (leBytes 4 config.defaultEfSearch ++ (leBytes 4 config.maxEfSearch ++
          (leBytes 2 config.maxLevel ++ (UInt8.ofNat config.rebuildInactivePercent :: 0 ::
            (leBytes 4 config.deltaMaxPoints ++ (u64Bytes config.levelSeed ++
              leBytes 8 0))))))))))))))))

/-- The index configuration of a field, where it has one. -/
def encodeHnsw : Option CollectionConfig → Except String (List UInt8)
  | some config => encodeCollectionConfig config
  | none => pure []

/-- One field of a catalog. -/
def encodeFieldSpec (field : VectorFieldSpec) : Except String (List UInt8) := do
  let config ← encodeHnsw field.hnsw
  pure (leBytes 4 field.id ++ (UInt8.ofNat field.kind :: UInt8.ofNat field.scalar ::
    UInt8.ofNat field.metric :: UInt8.ofNat field.index :: (leBytes 4 field.dimension ++
      (leBytes 2 (utf8Bytes field.name).length ++ (leBytes 2 (if field.hnsw.isSome then 60 else 0) ++
        (leBytes 4 0 ++ (leBytes 4 0 ++ (utf8Bytes field.name ++ config))))))))

/-- The bytes of a catalog of version 2. -/
def catalogLength (catalog : FieldCatalog) : Nat :=
  36 + (catalog.fields.map fun field =>
    24 + (utf8Bytes field.name).length + if field.hnsw.isSome then 60 else 0).sum

/-- `encode_field_catalog`. A catalog carries the proof of its validation. -/
def encodeFieldCatalog (catalog : FieldCatalog) : Except String (List UInt8) :=
  if catalog.formatVersion = 1 then
    match catalog.fields.head?.bind (·.hnsw) with
    | some config => encodeCollectionConfig config
    | none => throw "legacy dense field has no configuration"
  else do
    require (catalogLength catalog ≤ maxFieldCatalogBytes) "field catalog length exceeds bounds"
    let fields ← catalog.fields.mapM encodeFieldSpec
    let body := catalogMagic ++ (leBytes 2 2 ++ (leBytes 2 0 ++ (leBytes 4 (catalogLength catalog) ++
      (leBytes 4 catalog.fields.length ++ (leBytes 8 catalog.schemaRevision ++
        (leBytes 8 catalog.legacyCutoverSequence ++ fields.flatten))))))
    require (body.length = catalogLength catalog - 4) "field catalog encoder length mismatch"
    pure (withChecksum body)

/-- `field_catalog_checksum`. -/
def fieldCatalogChecksum (catalog : FieldCatalog) : Except String Nat := do
  require (catalog.formatVersion = 2) "field-aware envelopes require a v2 catalog"
  let bytes ← encodeFieldCatalog catalog
  pure (leValue (bytes.drop (bytes.length - 4)))

/-- The numbers of a catalog that the source keeps in 64 bits. -/
structure CatalogFits (catalog : FieldCatalog) : Prop where
  revision : catalog.schemaRevision < 2 ^ 64
  cutover : catalog.legacyCutoverSequence < 2 ^ 64

theorem field_catalog_checksum_lt {catalog : FieldCatalog} {crc : Nat}
    (h : fieldCatalogChecksum catalog = .ok crc) : crc < 2 ^ 32 := by
  simp only [fieldCatalogChecksum, bind_ok, exists_unit, pure_ok] at h
  obtain ⟨-, bytes, -, rfl⟩ := h
  have hlt := le_value_lt (bytes.drop (bytes.length - 4))
  have hle : (bytes.drop (bytes.length - 4)).length ≤ 4 := by
    rw [List.length_drop]
    omega
  exact hlt.trans_le (Nat.pow_le_pow_right (by decide) hle)

end Akasha.Storage

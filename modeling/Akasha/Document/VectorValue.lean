import Akasha.Document.Value

/-!
# Vector fields

A point has vectors of several kinds, each stored under the identifier of a catalog field: field
0 is the default dense vector and field 1 the default sparse vector. Numeric values keep their
concrete scalar type.
-/

namespace Akasha

/-- Numbers of one scalar type; the 16-bit floats by their bits. -/
inductive NumericValues where
  | f32 (values : List F32)
  | bf16 (values : List UInt16)
  | f16 (values : List UInt16)
  | i8 (values : List Int8)
  | u8 (values : List UInt8)
deriving DecidableEq, Repr

namespace NumericValues

def count : NumericValues → Nat
  | .f32 values => values.length
  | .bf16 values => values.length
  | .f16 values => values.length
  | .i8 values => values.length
  | .u8 values => values.length

/-- The scalar type's tag. -/
def scalar : NumericValues → Nat
  | .f32 _ => 0
  | .bf16 _ => 1
  | .f16 _ => 2
  | .i8 _ => 3
  | .u8 _ => 4

end NumericValues

/-- One field value, independent of its name or index. -/
inductive VectorValue where
  | dense (values : NumericValues)
  | sparse (values : List SparseElement)
  | multi (dimension : Nat) (values : NumericValues)
  | binary (dimension : Nat) (values : List UInt8)
deriving DecidableEq, Repr

namespace VectorValue

def kind : VectorValue → Nat
  | .dense _ => 0
  | .sparse _ => 1
  | .multi _ _ => 2
  | .binary _ _ => 3

def scalar : VectorValue → Nat
  | .dense values => values.scalar
  | .sparse _ => 0
  | .multi _ values => values.scalar
  | .binary _ _ => 5

def dimension : VectorValue → Nat
  | .dense values => values.count
  | .sparse _ => 0
  | .multi dimension _ => dimension
  | .binary dimension _ => dimension

/-- The bytes of one scalar of the type with this tag. -/
def scalarWidth (scalar : Nat) : Nat :=
  if scalar = 0 then 4 else if scalar < 3 then 2 else 1

/-- `content_bytes`: the native storage of the value. -/
def contentBytes : VectorValue → Nat
  | .sparse values => values.length * 12
  | .binary _ values => values.length
  | .dense values => values.count * scalarWidth values.scalar
  | .multi _ values => values.count * scalarWidth values.scalar

/-- `_legacy_values`: field 0 is dense with binary32 values. -/
def legacyValues : VectorValue → List F32
  | .dense (.f32 values) => values
  | _ => []

end VectorValue

/-- A value stored under a catalog field. -/
structure PointField where
  id : Nat
  value : VectorValue
deriving DecidableEq, Repr

/-- `field_content_bytes`: the names, and the string bytes or eight bytes of each scalar. -/
def fieldContentBytes (fields : List DocumentField) : Nat :=
  (fields.map fun field => (utf8Bytes field.name).length +
    match field.value with
    | .string value => (utf8Bytes value).length
    | _ => 8).sum

end Akasha

import Akasha.Lib.Binary
import Akasha.Lib.Bytes
import Akasha.Lib.Except

/-!
# Machine values, payload fields and sparse vectors

The values a collection stores: binary32 vectors and weights, typed payload fields, and sparse
vectors. Floating-point numbers are their bit patterns; the only arithmetic on them is the
rounding conversion at the language boundary. The validators keep the error texts of
`document/record.mojo` and `index/sparse.mojo`.
-/

namespace Akasha

open Lib

/-! ## Floating-point bit patterns -/

/-- A `Float32` by its bits. -/
structure F32 where
  bits : UInt32
deriving DecidableEq, Repr

/-- A `Float64`, and a Python `float`, by its bits. -/
structure F64 where
  bits : UInt64
deriving DecidableEq, Repr

namespace F32

/-- The exponent bits are not all ones. -/
def isFinite (x : F32) : Bool :=
  x.bits.toNat % 2 ^ 31 < binary32.infinity

/-- Positive or negative zero. -/
def isZero (x : F32) : Bool :=
  x.bits.toNat % 2 ^ 31 = 0

end F32

namespace F64

/-- The exponent bits are not all ones. -/
def isFinite (x : F64) : Bool :=
  x.bits.toNat % 2 ^ 63 < binary64.infinity

/-- `Float32(py=value)`: round a double to the nearest `Float32`, ties to even. A NaN keeps its
sign and quiet bit. -/
def toF32 (x : F64) : F32 :=
  let sign := x.bits.toNat / 2 ^ 63
  let magnitude := x.bits.toNat % 2 ^ 63
  let rounded :=
    if magnitude < binary64.infinity then
      let (m, e) := decodeMagnitude binary64 magnitude
      roundMagnitude binary32 m e
    else if magnitude = binary64.infinity then binary32.infinity
    else 0x7FC00000
  ⟨UInt32.ofNat (sign * 2 ^ 31 + rounded)⟩

/-- `float(value)` of an integer: the nearest double, ties to even, or no value where Python
raises `OverflowError`. -/
def ofInt? (value : Int) : Option F64 :=
  let magnitude := roundMagnitude binary64 value.natAbs 0
  if magnitude < binary64.infinity then
    some ⟨UInt64.ofNat ((if value < 0 then 2 ^ 63 else 0) + magnitude)⟩
  else none

end F64

/-- `Int(py=value)` and `Int64(py=value)`: a machine integer, or no value outside 64 bits. -/
def int64OfInt? (value : Int) : Option Int64 :=
  if -2 ^ 63 ≤ value ∧ value < 2 ^ 63 then some (Int64.ofInt value) else none

/-! ## Payload fields -/

/-- A flat schemaless payload value with an explicit type tag. -/
inductive PayloadValue where
  | string (value : String)
  | integer (value : Int64)
  | floating (value : F64)
  | boolean (value : Bool)
deriving DecidableEq, Repr

/-- The stable type tag. -/
def PayloadValue.kind : PayloadValue → Nat
  | .string _ => 1
  | .integer _ => 2
  | .floating _ => 3
  | .boolean _ => 4

/-- One named, typed payload field. -/
structure DocumentField where
  name : String
  value : PayloadValue
deriving DecidableEq, Repr

/-- The UTF-8 bytes of a string. -/
def utf8Bytes (text : String) : List UInt8 :=
  text.toUTF8.data.toList

/-- A field name is not empty and contains no NUL byte. -/
def validateFieldName (name : String) : Except String Unit := do
  require ((utf8Bytes name).length ≠ 0) "document field name cannot be empty"
  require (0 ∉ utf8Bytes name) "document field name cannot contain NUL"

/-- Every name is valid and differs from the names before it. -/
def validateFieldsAfter : List String → List DocumentField → Except String Unit
  | _, [] => .ok ()
  | previous, field :: fields => do
      validateFieldName field.name
      require (field.name ∉ previous) "document field names must be unique"
      validateFieldsAfter (previous ++ [field.name]) fields

/-- `validate_fields`: the names are valid and pairwise different. -/
def validateFields (fields : List DocumentField) : Except String Unit :=
  validateFieldsAfter [] fields

/-! ## Sparse vectors -/

/-- One weighted term of a sparse vector. -/
structure SparseElement where
  termId : Int64
  weight : F32
deriving DecidableEq, Repr

/-- The elements after `previous` are non-negative, ascending, finite and non-zero. -/
def validateSparseAfter : Int → List SparseElement → Except String Unit
  | _, [] => .ok ()
  | previous, element :: elements => do
      require (0 ≤ element.termId.toInt) "sparse term IDs must be non-negative"
      require (previous < element.termId.toInt) "sparse term IDs must be unique and ascending"
      require (element.weight.isFinite ∧ ¬ element.weight.isZero)
        "sparse weights must be finite and non-zero"
      validateSparseAfter element.termId.toInt elements

/-- `validate_sparse`: a stored sparse vector is not empty and its terms ascend. -/
def validateSparse (elements : List SparseElement) : Except String Unit := do
  require (elements.length ≠ 0) "sparse vectors cannot be empty"
  validateSparseAfter (-1) elements

/-! ## Points -/

/-- The logical content of a live point: its dense vector, its payload, and its sparse vector,
empty when it has none. -/
structure Point where
  vector : List F32
  fields : List DocumentField
  sparse : List SparseElement
deriving DecidableEq, Repr

/-- A vector has the collection's dimension and finite values. -/
def validateVector (dimension : Nat) (values : List F32) : Except String Unit := do
  require (values.length = dimension) "vector dimension does not match collection"
  require (∀ value ∈ values, value.isFinite) "vectors must contain only finite values"

end Akasha

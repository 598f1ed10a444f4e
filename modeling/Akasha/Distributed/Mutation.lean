import Akasha.Distributed.Json
import Akasha.Document.Points

/-!
# Replicated mutations

`validateReplicatedMutation` is the check of `protocol.py`, over JSON values. `applySteps` is
the sequence of collection writes that `ReplicaShard._apply` makes for a mutation, with the
conversions of the language boundary (`python_module.mojo`) and the kernel's own validators:
each step is one durable write of the collection, or raises and changes nothing.
-/

namespace Akasha.Distributed

open Lib

/-- What a replica or the coordinator raises. `runtime` is an error of Python's own, `kernel` one
of the Mojo module, and `crash` the end of the process itself, which no handler sees. -/
inductive Error where
  | protocol (message : String)
  | staleEpoch (message : String)
  | unavailable (message : String)
  | quorumUnavailable (message : String)
  | clusterClosed
  | runtime (message : String)
  | kernel (message : String)
  | crash
deriving DecidableEq, Repr

/-! ## The validator -/

/-- `_exact_int`. -/
def exactInt (name : String) : Json → Except Error Int
  | .int value => pure value
  | _ => throw (.protocol s!"{name} must be an integer")

theorem exact_int_ok {name : String} {value : Json} {number : Int} :
    exactInt name value = .ok number ↔ value = .int number := by
  cases value <;> simp [exactInt, pure, Except.pure, throw, throwThe, MonadExceptOf.throw]

/-- `float(value)` of a number; no value where Python raises. -/
def toFloat? : Json → Option F64
  | .int value => F64.ofInt? value
  | .float value => some value
  | _ => none

/-- `_finite_number`. -/
def finiteNumber (value : Json) : Bool :=
  match toFloat? value with
  | some converted => converted.isFinite
  | none => false

/-- `int(value)` of a float: its whole part, or no value where Python raises. -/
def wholePart? (value : F64) : Option Int :=
  if value.isFinite then
    let (m, e) := decodeMagnitude binary64 (value.bits.toNat % 2 ^ 63)
    let whole := m * 2 ^ e.toNat / 2 ^ (-e).toNat
    some (if value.bits.toNat < 2 ^ 63 then whole else -whole)
  else none

/-- `int(value)`, or no value where Python raises. -/
def toInt? [FloatRepr] : Json → Option Int
  | .int value => some value
  | .bool value => some (if value then 1 else 0)
  | .float value => wholePart? value
  | .str text => FloatRepr.intOf text
  | .other number _ => number
  | _ => none

/-- `payload_checksum`; `json.dumps` or the UTF-8 encoding may raise. -/
def payloadChecksum [FloatRepr] (value : Json) : Except Error Nat := do
  require (convertible value) (.runtime "value has no canonical bytes")
  pure (checksumOf value)

theorem payload_checksum_ok [FloatRepr] {value : Json} {checksum : Nat} :
    payloadChecksum value = .ok checksum ↔ convertible value = true ∧ checksumOf value = checksum := by
  simp only [payloadChecksum, bind_ok, require_ok, exists_unit, pure_ok]

/-- `value[name]` of a `dict` whose keys were checked. -/
def field (value : Json) (name : String) : Json :=
  (value.get? name).getD .null

/-- The type names a payload item may carry. -/
def payloadKinds : List String := ["string", "int", "float", "bool"]

/-- `type(value) is str`, with the error of its check. -/
def exactStr (e : Error) : Json → Except Error String
  | .str value => pure value
  | _ => throw e

/-- `type(value) is list`, with the error of its check. -/
def exactList (e : Error) : Json → Except Error (List Json)
  | .arr items => pure items
  | _ => throw e

theorem exact_str_ok {e : Error} {value : Json} {text : String} :
    exactStr e value = .ok text ↔ value = .str text := by
  cases value <;> simp [exactStr, pure, Except.pure, throw, throwThe, MonadExceptOf.throw]

theorem exact_list_ok {e : Error} {value : Json} {values : List Json} :
    exactList e value = .ok values ↔ value = .arr values := by
  cases value <;> simp [exactList, pure, Except.pure, throw, throwThe, MonadExceptOf.throw]

/-- The value of a payload item has the type its kind names. -/
def payloadValueTyped (kind : String) (value : Json) : Except Error Unit := do
  require (kind = "string" → value.isStr)
    (.protocol "replicated mutation string payload is invalid")
  require (kind = "int" → value.isInt)
    (.protocol "replicated mutation integer payload is invalid")
  require (kind = "bool" → value.isBool)
    (.protocol "replicated mutation boolean payload is invalid")
  require (kind = "float" → finiteNumber value)
    (.protocol "replicated mutation float payload is invalid")

/-- One payload item, after the names already seen; returns its own name. -/
def validatePayloadItem (names : List String) (item : Json) : Except Error String := do
  require (item.hasKeys ["name", "type", "value"])
    (.protocol "replicated mutation payload fields mismatch")
  let name ← exactStr (.protocol "replicated mutation payload names are invalid")
    (field item "name")
  require (name ≠ "" ∧ name ∉ names)
    (.protocol "replicated mutation payload names are invalid")
  let kind ← exactStr (.protocol "replicated mutation payload type is invalid")
    (field item "type")
  require (kind ∈ payloadKinds) (.protocol "replicated mutation payload type is invalid")
  payloadValueTyped kind (field item "value")
  pure name

/-- The payload items in order. -/
def validatePayload : List String → List Json → Except Error Unit
  | _, [] => pure ()
  | names, item :: items => do
      let name ← validatePayloadItem names item
      validatePayload (name :: names) items

/-- One sparse item, after the terms already seen; returns its own term. -/
def validateSparseItem (terms : List Int) (item : Json) : Except Error Int := do
  require (item.hasKeys ["term_id", "weight"])
    (.protocol "replicated mutation sparse fields mismatch")
  let term ← exactInt "replicated mutation sparse term" (field item "term_id")
  require (0 ≤ term ∧ term ∉ terms) (.protocol "replicated mutation sparse term is invalid")
  require (finiteNumber (field item "weight"))
    (.protocol "replicated mutation sparse weight is invalid")
  pure term

/-- The sparse items in order. -/
def validateSparseItems : List Int → List Json → Except Error Unit
  | _, [] => pure ()
  | terms, item :: items => do
      let term ← validateSparseItem terms item
      validateSparseItems (term :: terms) items

/-- The vector, payload and sparse parts of an upsert. -/
def validateUpsert (mutation : Json) (dimension : Option Nat) : Except Error Unit := do
  let vector ← exactList (.protocol "replicated mutation vector must be a nonempty list")
    (field mutation "vector")
  require (vector ≠ []) (.protocol "replicated mutation vector must be a nonempty list")
  require (∀ expected ∈ dimension, vector.length = expected)
    (.protocol "replicated mutation vector dimension mismatch")
  require (∀ value ∈ vector, finiteNumber value)
    (.protocol "replicated mutation vector must contain finite numbers")
  let payload ← exactList (.protocol "replicated mutation payload must be a list")
    (field mutation "fields")
  validatePayload [] payload
  let sparse ← exactList (.protocol "replicated mutation sparse vector must be a list")
    (field mutation "sparse")
  validateSparseItems [] sparse

/-- `validate_replicated_mutation`. -/
def validateReplicatedMutation (mutation : Json) (dimension : Option Nat) :
    Except Error Unit :=
  match mutation.get? "operation" with
  | some (.str "delete") => do
      require (mutation.hasKeys ["operation", "id"])
        (.protocol "replicated delete mutation fields mismatch")
      let _ ← exactInt "replicated mutation id" (field mutation "id")
  | some (.str "upsert") => do
      require (mutation.hasKeys ["operation", "id", "vector", "fields", "sparse"])
        (.protocol "replicated upsert mutation fields mismatch")
      let _ ← exactInt "replicated mutation id" (field mutation "id")
      validateUpsert mutation dimension
  | _ => throw (.protocol "replicated mutation operation is invalid")

/-! ## What applying a mutation does -/

/-- `Int(py=value)`. -/
def kernelInt : Json → Except Error Int64
  | .int value =>
      match int64OfInt? value with
      | some converted => pure converted
      | none => throw (.kernel "integer does not fit 64 bits")
  | _ => throw (.kernel "expected an integer")

/-- An error of the Mojo module, as the caller of the binding sees it. -/
def kernelCheck {α : Type} : Except String α → Except Error α
  | .ok value => pure value
  | .error message => throw (.kernel message)

/-- `Float64(py=value)`. -/
def kernelFloat64 (value : Json) : Except Error F64 :=
  match toFloat? value with
  | some converted => pure converted
  | none => throw (.kernel "expected a number")

/-- `Float32(py=value)`. -/
def kernelFloat32 (value : Json) : Except Error F32 :=
  F64.toF32 <$> kernelFloat64 value

/-- `Bool(py=value)` of a Python bool. -/
def kernelBool : Json → Except Error Bool
  | .bool value => pure value
  | _ => throw (.kernel "expected a bool")

/-- `_float_vector`. -/
def kernelVector : Json → Except Error (List F32)
  | .arr values => values.mapM kernelFloat32
  | _ => pure []

/-- The typed conversion of one payload value, with the check of `PayloadValue.floating`. -/
def kernelValue (kind : String) (value : Json) : Except Error PayloadValue :=
  if kind = "string" then PayloadValue.string <$> exactStr (.kernel "expected a string") value
  else if kind = "int" then PayloadValue.integer <$> kernelInt value
  else if kind = "float" then do
    let converted ← kernelFloat64 value
    require converted.isFinite (.kernel "floating payload values must be finite")
    pure (PayloadValue.floating converted)
  else if kind = "bool" then PayloadValue.boolean <$> kernelBool value
  else throw (.kernel "unknown payload value type")

/-- One item of `_document_fields`, with the check of the `DocumentField` constructor. -/
def kernelField (item : Json) : Except Error DocumentField := do
  let name ← exactStr (.kernel "expected a string") (field item "name")
  let kind ← exactStr (.kernel "expected a string") (field item "type")
  let value ← kernelValue kind (field item "value")
  kernelCheck (validateFieldName name)
  pure ⟨name, value⟩

/-- `_document_fields`. -/
def kernelFields : Json → Except Error (List DocumentField)
  | .arr items => items.mapM kernelField
  | _ => pure []

/-- One element of `_sparse_vector`. -/
def kernelSparseElement (item : Json) : Except Error SparseElement := do
  let term ← kernelInt (field item "term_id")
  let weight ← kernelFloat32 (field item "weight")
  pure ⟨term, weight⟩

/-- `_sparse_vector`. -/
def kernelSparse : Json → Except Error (List SparseElement)
  | .arr items => items.mapM kernelSparseElement
  | _ => pure []

/-- `collection.upsert(point_id, vector, fields)`. -/
def upsertStep (dimension : Nat) (mutation : Json) (points : PointMap) :
    Except Error PointMap := do
  let values ← kernelVector (field mutation "vector")
  let fields ← kernelFields (field mutation "fields")
  let id ← kernelInt (field mutation "id")
  kernelCheck (points.upsertDocument dimension id values fields)

/-- `collection.upsert_sparse(point_id, sparse)`. -/
def sparseStep (mutation : Json) (points : PointMap) : Except Error PointMap := do
  let elements ← kernelSparse (field mutation "sparse")
  let id ← kernelInt (field mutation "id")
  kernelCheck (points.upsertSparse id elements)

/-- `collection.delete(point_id)`. -/
def deleteStep (mutation : Json) (points : PointMap) : Except Error PointMap := do
  let id ← kernelInt (field mutation "id")
  pure (points.delete id)

/-- The mutation carries sparse elements. -/
def hasSparse (mutation : Json) : Bool :=
  match field mutation "sparse" with
  | .arr items => !items.isEmpty
  | _ => false

/-- The collection writes of `_apply`, in order: a delete, or an upsert followed by the sparse
vector when there is one. -/
def applySteps (dimension : Nat) (mutation : Json) : List (PointMap → Except Error PointMap) :=
  match mutation.get? "operation" with
  | some (.str "delete") => [deleteStep mutation]
  | some (.str "upsert") =>
      if hasSparse mutation then [upsertStep dimension mutation, sparseStep mutation]
      else [upsertStep dimension mutation]
  | _ => [fun _ => .error (.protocol "unknown replicated mutation operation")]

/-- Run collection writes in order. -/
def runSteps : List (PointMap → Except Error PointMap) → PointMap → Except Error PointMap
  | [], points => pure points
  | step :: steps, points => step points >>= runSteps steps

/-- `ReplicaShard._apply` as a function of the collection's content. -/
def applyMutation (dimension : Nat) (mutation : Json) (points : PointMap) :
    Except Error PointMap := do
  validateReplicatedMutation mutation (some dimension)
  runSteps (applySteps dimension mutation) points

end Akasha.Distributed

import Akasha.Document.Codec
import Std.Data.ExtTreeMap

/-!
# The logical content of a collection

A collection is for a map from point identifiers to points. The operations below are what a
write means for that map when the collection accepts it: they are the interface the replicated
layer uses, and the storage engine's own model is related to them.
-/

namespace Akasha

/-- The live points of a collection. -/
abbrev PointMap := Std.ExtTreeMap Int64 Point

namespace PointMap

/-- The sparse vector a point has, empty when the point is absent or has none. -/
def sparseOf (points : PointMap) (id : Int64) : List SparseElement :=
  match points[id]? with
  | some point => point.sparse
  | none => []

/-- `upsert_document`: replace the vector and payload and keep the sparse vector. -/
def upsertDocument (dimension : Nat) (points : PointMap) (id : Int64) (values : List F32)
    (fields : List DocumentField) : Except String PointMap := do
  validateVector dimension values
  let _ ← encodePayload fields
  pure (points.insert id ⟨values, fields, points.sparseOf id⟩)

/-- `upsert_sparse`: replace the sparse vector of a live point. -/
def upsertSparse (points : PointMap) (id : Int64) (elements : List SparseElement) :
    Except String PointMap := do
  validateSparse elements
  match points[id]? with
  | some point => pure (points.insert id { point with sparse := elements })
  | none => throw "sparse vectors require an existing live point"

/-- `delete`: drop the point with all its fields; an absent point is no error. -/
def delete (points : PointMap) (id : Int64) : PointMap :=
  points.erase id

end PointMap

end Akasha

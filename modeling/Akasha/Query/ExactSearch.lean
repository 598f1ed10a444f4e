import Akasha.Compute.TopK
import Akasha.Storage.RowFilter

/-!
# Exact dense search

The exact executors of `api/snapshot.mojo`, `query/parallel_scan.mojo` and
`query/batch_executor.mojo` over a captured root: the single scan, the controlled scan, the
parallel scan of each run in ranges, and the batches. They partition the same rows by layer, by
range and by query, and keep a bounded heap for each part.

The score kernels are parameters. What they check before they score is modelled here.
-/

namespace Akasha.Query

open Lib Compute Storage

/-! ## Scores -/

inductive ScanMetric where
  | dot
  | l2
  | cosine
deriving DecidableEq

def ScanMetric.smallerIsBetter : ScanMetric → Bool
  | .l2 => true
  | _ => false

/-- What the kernels of `compute/simd.mojo` compute: the score of the checked kernel, the score of
the prevalidated one, and whether a squared norm comes out as zero in the plain loop of the
executors and in the lanes of the checked kernel. -/
structure ScoreKernels (S : Type) where
  checked : ScanMetric → List F32 → List F32 → S
  prevalidated : ScanMetric → List F32 → List F32 → S
  normIsZero : List F32 → Bool
  laneNormIsZero : List F32 → Bool

variable {S : Type} [LinearOrder S]

namespace ScoreKernels

/-- `_score`: the checked kernel validates the pair while it scores. -/
def checkedScore (kernels : ScoreKernels S) (metric : ScanMetric) (query values : List F32) :
    Except String S := do
  require (query.length ≠ 0) "vectors must not be empty"
  require (query.length = values.length) "vector dimensions must match"
  require ((∀ value ∈ query, value.isFinite) ∧ ∀ value ∈ values, value.isFinite)
    "vectors must contain only finite values"
  require (metric = .cosine → ¬ (kernels.laneNormIsZero query ∨ kernels.laneNormIsZero values))
    "cosine similarity requires non-zero vectors"
  pure (kernels.checked metric query values)

/-- The entries that the prevalidated kernel offers for the rows. -/
def scored (kernels : ScoreKernels S) (metric : ScanMetric) (query : List F32)
    (rows : List MemTableEntry) : List (TopKEntry S) :=
  rows.map fun row => ⟨row.id, kernels.prevalidated metric query row.values⟩

/-- The check of the values of a query, in the executors that score without checks. -/
def checkQuery (kernels : ScoreKernels S) (metric : ScanMetric) (query : List F32) :
    Except String Unit := do
  require (∀ value ∈ query, value.isFinite) "query vector must contain only finite values"
  require (metric = .cosine → ¬ kernels.normIsZero query)
    "cosine similarity requires non-zero vectors"

/-- The check of a stored vector for the cosine metric. -/
def checkNorm (kernels : ScoreKernels S) (metric : ScanMetric) (entry : MemTableEntry) :
    Except String Unit :=
  require (metric = .cosine → ¬ kernels.normIsZero entry.values)
    "cosine similarity requires non-zero vectors"

end ScoreKernels

/-! ## Which rows are searched -/

/-- `_validate_query`. -/
def validateQuery (root : ReadGeneration) (query : List F32) (k : Int) : Except String Unit := do
  require (query.length = root.config.dimension) "query dimension does not match snapshot"
  require (0 < k) "k must be positive"
  require (∀ value ∈ query, value.isFinite) "query vector must contain only finite values"

/-- `_visible_layers`. -/
def visibleLayers (root : ReadGeneration) : Except String (List (List Nat)) :=
  root.layers.mapM fun layer => layer.denseOrdinals layer.visibleOrdinals

/-- The slots with a default vector that a filter finds in a layer. -/
def whereOrdinals (rounds : Nat) (layer : ReadLayer) (expression : FilterExpression) :
    Except String (List Nat) := do
  let found ← layer.filteredOrdinals rounds expression
  layer.denseOrdinals found

/-- `_where_layers`. -/
def whereLayers (rounds : Nat) (root : ReadGeneration) (expression : FilterExpression) :
    Except String (List (List Nat)) :=
  root.layers.mapM fun layer => whereOrdinals rounds layer expression

/-- The layers of `_search_filtered`. -/
def conditionedLayers (root : ReadGeneration) (conditions : List FilterCondition) :
    Except String (List (List Nat)) :=
  root.layers.mapM fun layer => do
    let found ← layer.conditionedOrdinals conditions
    layer.denseOrdinals found

/-- `_total`. -/
def totalOf {α : Type} (layers : List (List α)) : Nat :=
  (layers.map List.length).sum

/-- The slots of the layers in the order of the nested loops. -/
def places (root : ReadGeneration) (layers : List (List Nat)) : List (MemTable × Nat) :=
  (root.layers.zip layers).flatMap fun part => part.2.map (part.1.run.memtable, ·)

/-! ## One heap -/

/-- The loop of `_scan`. -/
def offerPlaces (kernels : ScoreKernels S) (metric : ScanMetric) (query : List F32) :
    Compute.BoundedTopK S → List (MemTable × Nat) → Except String (Compute.BoundedTopK S)
  | topk, [] => pure topk
  | topk, (table, ordinal) :: places => do
      let entry ← table.entryRefAt ordinal
      let score ← kernels.checkedScore metric query entry.values
      offerPlaces kernels metric query (topk.offer ⟨entry.id, score⟩) places

/-- `_scan`. -/
def scan (kernels : ScoreKernels S) (root : ReadGeneration) (query : List F32) (k : Int)
    (metric : ScanMetric) (layers : List (List Nat)) : Except String (List (TopKEntry S)) :=
  if totalOf layers = 0 then pure []
  else do
    let topk ← Compute.BoundedTopK.create (min k (totalOf layers)) metric.smallerIsBetter
    let topk ← offerPlaces kernels metric query topk (places root layers)
    pure topk.sortedEntries

/-- `_search_filtered`; the search without a filter has no conditions. -/
def searchFiltered (kernels : ScoreKernels S) (root : ReadGeneration) (query : List F32) (k : Int)
    (metric : ScanMetric) (conditions : List FilterCondition) :
    Except String (List (TopKEntry S)) := do
  validateQuery root query k
  checkEach conditions FilterCondition.validate
  let layers ← conditionedLayers root conditions
  scan kernels root query k metric layers

/-- `_search_where`. -/
def searchWhere (rounds : Nat) (kernels : ScoreKernels S) (root : ReadGeneration)
    (query : List F32) (k : Int) (metric : ScanMetric) (expression : FilterExpression) :
    Except String (List (TopKEntry S)) := do
  validateQuery root query k
  expression.validate
  let layers ← whereLayers rounds root expression
  scan kernels root query k metric layers

/-! ## The controlled scan -/

/-- A candidate limit, and what the cancellation token and the clock say at each check. -/
structure QueryControl where
  maxCandidates : Int
  cancelled : Nat → Bool
  expired : Nat → Bool

namespace QueryControl

def validateCandidateCount (control : QueryControl) (count : Int) : Except String Unit :=
  require (¬ (count < 0 ∨ count > control.maxCandidates)) "query candidate resource limit exceeded"

/-- `checkpoint`: every 256th candidate asks the token and the clock. -/
def checkpoint (control : QueryControl) (moment : Nat) (ordinal : Int) : Except String Unit := do
  require (¬ ordinal < 0) "query checkpoint ordinal cannot be negative"
  if ordinal ≠ 0 ∧ ordinal % 256 ≠ 0 then pure ()
  else do
    require (¬ control.cancelled moment) "query cancelled"
    require (¬ control.expired moment) "query deadline exceeded"

end QueryControl

/-- The loop of `_search_controlled`; the checks before it are moment 0. -/
def offerControlled (kernels : ScoreKernels S) (metric : ScanMetric) (query : List F32)
    (control : QueryControl) :
    Nat → Compute.BoundedTopK S → List (MemTable × Nat) → Except String (Compute.BoundedTopK S)
  | _, topk, [] => pure topk
  | index, topk, (table, ordinal) :: places => do
      control.checkpoint (index + 1) index
      let entry ← table.entryRefAt ordinal
      let score ← kernels.checkedScore metric query entry.values
      offerControlled kernels metric query control (index + 1) (topk.offer ⟨entry.id, score⟩) places

/-- `_search_controlled`. -/
def searchControlled (kernels : ScoreKernels S) (root : ReadGeneration) (query : List F32) (k : Int)
    (metric : ScanMetric) (control : QueryControl) : Except String (List (TopKEntry S)) := do
  validateQuery root query k
  let layers ← visibleLayers root
  control.validateCandidateCount (totalOf layers)
  control.checkpoint 0 0
  if totalOf layers = 0 then pure []
  else do
    let topk ← Compute.BoundedTopK.create (min k (totalOf layers)) metric.smallerIsBetter
    let topk ← offerControlled kernels metric query control 0 topk (places root layers)
    control.checkpoint (totalOf layers + 1) 0
    pure topk.sortedEntries

/-! ## Ranges of one run -/

/-- `_merge`: one heap over the results of the runs. -/
def merge (parts : List (List (TopKEntry S))) (k : Int) (metric : ScanMetric) :
    Except String (List (TopKEntry S)) :=
  if totalOf parts = 0 then pure []
  else Compute.BoundedTopK.collect (min k (totalOf parts)) metric.smallerIsBetter parts.flatten

/-- The slots of one range. -/
def rangeSlots (ordinals : List Nat) (rangeCount rangeIndex : Nat) : List Nat :=
  let start := ordinals.length * rangeIndex / rangeCount
  let stop := ordinals.length * (rangeIndex + 1) / rangeCount
  (ordinals.drop start).take (stop - start)

/-- How many ranges a scan is cut into. -/
def rangeCount (workers : Int) (count : Nat) : Int :=
  min (max (if workers = 0 then 8 else workers) 1) count

/-- `execute_parallel_scan`. -/
def executeParallelScan (kernels : ScoreKernels S) (table : MemTable) (ordinals : List Nat)
    (query : List F32) (k : Int) (metric : ScanMetric) (workers : Int) :
    Except String (List (TopKEntry S)) := do
  require (query.length = table.dimension) "query dimension does not match snapshot"
  require (0 < k) "k must be positive"
  require (0 ≤ workers) "parallel scan worker count cannot be negative"
  kernels.checkQuery metric query
  checkEach ordinals fun ordinal => do
    let entry ← table.entryRefAt ordinal
    require (¬ entry.tombstone) "parallel scan candidate slot is not live"
    require (entry.values.length = table.dimension) "parallel scan candidate dimension mismatch"
    kernels.checkNorm metric entry
  if ordinals.length = 0 then pure []
  else do
    let resultCount := min k ordinals.length
    let count := (rangeCount workers ordinals.length).toNat
    let heaps ← (List.range count).mapM fun rangeIndex =>
      Compute.BoundedTopK.collect resultCount metric.smallerIsBetter
        (kernels.scored metric query (table.rowsAt (rangeSlots ordinals count rangeIndex)))
    Compute.BoundedTopK.collect resultCount metric.smallerIsBetter heaps.flatten

/-- `_search_parallel`. -/
def searchParallel (kernels : ScoreKernels S) (root : ReadGeneration) (query : List F32) (k : Int)
    (metric : ScanMetric) (workers : Int) (layers : List (List Nat)) :
    Except String (List (TopKEntry S)) := do
  let parts ← (root.layers.zip layers).mapM fun part =>
    executeParallelScan kernels part.1.run.memtable part.2 query k metric workers
  merge parts k metric

/-- The parallel search without a filter. -/
def searchVisibleParallel (kernels : ScoreKernels S) (root : ReadGeneration) (query : List F32)
    (k : Int) (metric : ScanMetric) (workers : Int) : Except String (List (TopKEntry S)) := do
  let layers ← visibleLayers root
  searchParallel kernels root query k metric workers layers

/-- `_search_where_parallel`. -/
def searchWhereParallel (rounds : Nat) (kernels : ScoreKernels S) (root : ReadGeneration)
    (query : List F32) (k : Int) (expression : FilterExpression) (metric : ScanMetric)
    (workers : Int) : Except String (List (TopKEntry S)) := do
  expression.validate
  let layers ← whereLayers rounds root expression
  searchParallel kernels root query k metric workers layers

/-! ## Batches -/

/-- The check of a query of a batch. -/
def checkBatchQuery (kernels : ScoreKernels S) (table : MemTable) (metric : ScanMetric)
    (query : List F32) : Except String Unit := do
  require (query.length = table.dimension) "query dimension does not match snapshot"
  kernels.checkQuery metric query

/-- The check of a candidate slot of a batch. -/
def checkBatchSlot (kernels : ScoreKernels S) (table : MemTable) (metric : ScanMetric)
    (ordinal : Nat) : Except String Unit := do
  let entry ← table.entryRefAt ordinal
  require (¬ entry.tombstone) "batch candidate slot is not live"
  kernels.checkNorm metric entry

/-- `execute_exact_ordinal_batch`: one list of slots for all queries. -/
def executeExactOrdinalBatch (kernels : ScoreKernels S) (table : MemTable)
    (queries : List (List F32)) (ordinals : List Nat) (k : Int) (metric : ScanMetric)
    (workers : Int) : Except String (List (List (TopKEntry S))) := do
  require (0 < k) "k must be positive"
  require (0 ≤ workers) "batch query worker count cannot be negative"
  checkEach queries (checkBatchQuery kernels table metric)
  if queries.length = 0 then pure []
  else do
    checkEach ordinals (checkBatchSlot kernels table metric)
    let resultCount := min k ordinals.length
    if resultCount = 0 then pure (queries.map fun _ => [])
    else
      queries.mapM fun query =>
        Compute.BoundedTopK.collect resultCount metric.smallerIsBetter
          (kernels.scored metric query (table.rowsAt ordinals))

/-- The checks of one query and its slots: first all slots are live, then their norms. -/
def checkBatchItem (kernels : ScoreKernels S) (table : MemTable) (metric : ScanMetric)
    (query : List F32) (ordinals : List Nat) : Except String Unit := do
  checkBatchQuery kernels table metric query
  checkEach ordinals fun ordinal => do
    let entry ← table.entryRefAt ordinal
    require (¬ entry.tombstone) "batch candidate slot is not live"
  checkEach ordinals fun ordinal => do
    let entry ← table.entryRefAt ordinal
    kernels.checkNorm metric entry

/-- `execute_exact_candidate_batch`: slots for each query. -/
def executeExactCandidateBatch (kernels : ScoreKernels S) (table : MemTable)
    (queries : List (List F32)) (candidates : List (List Nat)) (k : Int) (metric : ScanMetric)
    (workers : Int) : Except String (List (List (TopKEntry S))) := do
  require (queries.length = candidates.length) "batch query candidate count mismatch"
  require (0 < k) "k must be positive"
  require (0 ≤ workers) "batch query worker count cannot be negative"
  checkEach (queries.zip candidates) fun item => checkBatchItem kernels table metric item.1 item.2
  if queries.length = 0 then pure []
  else
    (queries.zip candidates).mapM fun item =>
      Compute.BoundedTopK.collect k metric.smallerIsBetter
        (kernels.scored metric item.1 (table.rowsAt item.2))

/-- `_merge_batch`: the results of each query over the runs. -/
def mergeBatch (parts : List (List (List (TopKEntry S)))) (queries : Nat) (k : Int)
    (metric : ScanMetric) : Except String (List (List (TopKEntry S))) :=
  if parts.length = 0 ∨ (parts.headD []).length ≠ queries then pure []
  else (List.range queries).mapM fun query => merge (parts.map (·.getD query [])) k metric

/-- `_search_batch`. -/
def searchBatch (kernels : ScoreKernels S) (root : ReadGeneration) (queries : List (List F32))
    (k : Int) (metric : ScanMetric) (workers : Int) :
    Except String (List (List (TopKEntry S))) := do
  let parts ← root.layers.mapM fun layer => do
    let ordinals ← layer.denseOrdinals layer.visibleOrdinals
    executeExactOrdinalBatch kernels layer.run.memtable queries ordinals k metric workers
  mergeBatch parts queries.length k metric

/-- `_search_where_batch`. -/
def searchWhereBatch (rounds : Nat) (kernels : ScoreKernels S) (root : ReadGeneration)
    (queries : List (List F32)) (expressions : List FilterExpression) (k : Int)
    (metric : ScanMetric) (workers : Int) : Except String (List (List (TopKEntry S))) := do
  require (queries.length = expressions.length) "batch query and filter counts must match"
  checkEach expressions FilterExpression.validate
  let parts ← root.layers.mapM fun layer => do
    let candidates ← expressions.mapM (whereOrdinals rounds layer)
    executeExactCandidateBatch kernels layer.run.memtable queries candidates k metric workers
  mergeBatch parts queries.length k metric

end Akasha.Query

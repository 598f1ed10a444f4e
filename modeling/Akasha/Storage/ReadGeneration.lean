import Akasha.Index.Metadata
import Akasha.Index.Sparse
import Akasha.Storage.MemTable

/-!
# Published read views

Readers see a chain of immutable runs, oldest first: a base, sealed runs, and a frozen copy of
the head that takes the writes. A row is visible when it is live in its run and no newer run has
a state for its point. `ReadGenerationCache` records each committed batch into the head, seals
the head when it is full, and replaces a prefix of the chain by a base that was merged from it.

A run has an owner number, which stands for the identity of its allocation: publishing a merge
compares owners, not contents.
-/

namespace Akasha.Storage

open Lib Index

/-! ## Runs and layers -/

/-- The derived indexes of a run: metadata by slot, sparse vectors by live point. -/
structure RunIndex where
  metadata : MetadataIndex
  sparse : SparseIndex

/-- An immutable run. The frozen head has no index. -/
structure ReadRun where
  owner : Nat
  memtable : MemTable
  index : Option RunIndex

/-- A run as seen by one root: the slots that newer runs shadow. -/
structure ReadLayer where
  run : ReadRun
  sealedHidden : List Nat
  headHidden : List Nat

namespace MemTable

def isLiveAt (table : MemTable) (ordinal : Nat) : Bool :=
  (table.entries[ordinal]?).any (!·.tombstone)

end MemTable

namespace ReadLayer

def isShadowed (layer : ReadLayer) : Bool :=
  layer.sealedHidden.length > 0 || layer.headHidden.length > 0

/-- The loop of `visible`: both lists of shadowed slots are read along with the slots. -/
def visibleFrom (table : MemTable) (sealedHidden head : List Nat) : List Nat → List Nat
  | [] => []
  | ordinal :: ordinals =>
      if table.isLiveAt ordinal then
        let sealedHidden := sealedHidden.dropWhile (· < ordinal)
        let head := head.dropWhile (· < ordinal)
        if sealedHidden.head? = some ordinal ∨ head.head? = some ordinal then
          visibleFrom table sealedHidden head ordinals
        else ordinal :: visibleFrom table sealedHidden head ordinals
      else visibleFrom table sealedHidden head ordinals

/-- Drop tombstones and shadowed slots from ascending slots. -/
def visible (layer : ReadLayer) (ordinals : List Nat) : List Nat :=
  visibleFrom layer.run.memtable layer.sealedHidden layer.headHidden ordinals

/-- The visible slots of a layer. -/
def visibleOrdinals (layer : ReadLayer) : List Nat :=
  if layer.isShadowed then layer.visible layer.run.memtable.liveOrdinals
  else layer.run.memtable.liveOrdinals

end ReadLayer

/-- What a capture reads of the collection's configuration, and the outcome of validating it. -/
structure ReadConfig where
  dimension : Nat
  fingerprint : Nat
  validate : Except String Unit

/-- One published view. -/
structure ReadGeneration where
  config : ReadConfig
  generation : Nat
  sequence : Nat
  revision : Nat
  layers : List ReadLayer
  visibleCount : Nat
  denseCount : Nat
  catalog : Option Nat

namespace ReadGeneration

/-- The layers below `layer`, newest first. -/
def findBelow (layers : List ReadLayer) (id : Int64) : Nat → Option (Nat × Nat)
  | 0 => none
  | layer + 1 =>
      match layers[layer]? with
      | none => none
      | some item =>
          match item.run.memtable.ordinalFor id with
          | some ordinal =>
              if item.run.memtable.isLiveAt ordinal then some (layer, ordinal) else none
          | none => findBelow layers id layer

/-- `find`: the layer and slot of the newest state, if that is live. -/
def find (root : ReadGeneration) (id : Int64) : Option (Nat × Nat) :=
  findBelow root.layers id root.layers.length

/-- The entry in a slot of a layer. -/
def entryAt (root : ReadGeneration) (layer ordinal : Nat) : Option MemTableEntry :=
  (root.layers[layer]?).bind (·.run.memtable.entries[ordinal]?)

/-- The visible entries of a layer. -/
def rowsOf (layer : ReadLayer) : List MemTableEntry :=
  layer.visibleOrdinals.filterMap (layer.run.memtable.entries[·]?)

/-- The visible entries of all layers, oldest layer first. -/
def rows (root : ReadGeneration) : List MemTableEntry :=
  root.layers.flatMap rowsOf

end ReadGeneration

/-! ## The publisher -/

def headMaxPoints : Nat := 1024

def headMaxBytes : Int := 4 * 1024 * 1024

/-- Feed a live entry to a sparse index. -/
def indexSparse (sparse : SparseIndex) (entry : MemTableEntry) : Except String SparseIndex :=
  if entry.hasSparse ∧ entry.sparse.length > 0 then sparse.upsert entry.id entry.sparse
  else pure sparse

/-- Feed the entries of a run to its indexes. -/
def indexEntries (index : RunIndex) : List MemTableEntry → Except String RunIndex
  | [] => pure index
  | entry :: entries =>
      if entry.tombstone then do
        let metadata ← index.metadata.delete entry.id
        indexEntries ⟨metadata, index.sparse⟩ entries
      else do
        let metadata ← index.metadata.upsert entry.id entry.payload
        let sparse ← indexSparse index.sparse entry
        indexEntries ⟨metadata, sparse⟩ entries

/-- `_indexed_run`. -/
def indexedRun (owner : Nat) (table : MemTable) : Except String ReadRun := do
  let opened ← MetadataIndex.empty.beginBulk
  let loaded ← indexEntries ⟨opened, SparseIndex.empty⟩ table.entries
  let metadata ← loaded.metadata.finishBulk
  require (metadata.slotCount = table.slotCount) "snapshot metadata slot alignment failed"
  pure ⟨owner, table, some ⟨metadata, loaded.sparse⟩⟩

/-- `_hidden_ordinals`: the slots of `older` whose points have a state in `newer`. -/
def hiddenOrdinals (older newer : MemTable) : List Nat :=
  newer.entries.filterMap fun entry => older.ordinalFor entry.id

/-- Drop repetitions from a sorted list. -/
def uniqueFrom (unique : List Nat) : List Nat → List Nat
  | [] => unique
  | ordinal :: ordinals =>
      if unique.getLast? = some ordinal then uniqueFrom unique ordinals
      else uniqueFrom (unique ++ [ordinal]) ordinals

/-- `_union`: the sorted union without repetitions. -/
def union (existing added : List Nat) : List Nat :=
  uniqueFrom [] ((added ++ existing).mergeSort (· ≤ ·))

/-- Shadow the slots of a layer that a newer run has states for. -/
def ReadLayer.shadow (layer : ReadLayer) (newer : MemTable) : ReadLayer :=
  let added := hiddenOrdinals layer.run.memtable newer
  if added.length = 0 then layer
  else { layer with sealedHidden := union layer.sealedHidden added }

/-- A captured run prefix and the base merged from it. -/
structure SealedMerge where
  runs : List ReadRun
  base : Option ReadRun

/-- Put the entries of a run over a table. -/
def putAll (table source : MemTable) : MemTable :=
  source.entries.foldl MemTable.put table

/-- `SealedMerge.build`: fold the runs, the newest state winning, into one indexed base. -/
def SealedMerge.build (merge : SealedMerge) (owner : Nat) : Except String SealedMerge :=
  match merge.runs with
  | [] => throw "sealed merge has no runs"
  | first :: rest => do
      let base ← indexedRun owner ((rest.map (·.memtable)).foldl putAll first.memtable)
      pure { merge with base := some base }

structure ReadGenerationCache where
  root : Option ReadGeneration
  generation : Nat
  revision : Nat
  layers : List ReadLayer
  head : Option MemTable
  headBytes : Int
  frozenHead : Option ReadRun
  sequence : Nat
  allocated : Nat

namespace ReadGenerationCache

/-- `ReadGenerationCache()`. -/
def new : ReadGenerationCache :=
  ⟨none, 0, 0, [], none, 0, none, 0, 0⟩

def invalidate (cache : ReadGenerationCache) : ReadGenerationCache :=
  { cache with root := none }

def publish (cache : ReadGenerationCache) (generation : Nat) : ReadGenerationCache :=
  { cache with generation := generation, root := none }

/-- Drop all derived state; the next capture builds a new base. -/
def reset (cache : ReadGenerationCache) : ReadGenerationCache :=
  { cache with root := none, layers := [], head := none, headBytes := 0, frozenHead := none }

def headCount (cache : ReadGenerationCache) : Nat :=
  match cache.head with
  | some head => head.slotCount
  | none => 0

/-- `_seal`: move the head into a sealed run. -/
def sealHead (cache : ReadGenerationCache) : Except String ReadGenerationCache :=
  match cache.head with
  | none => throw "read publisher has no head"
  | some table => do
      let run ← indexedRun cache.allocated table
      pure { cache with
        head := some (.empty table.dimension)
        headBytes := 0
        frozenHead := none
        layers := cache.layers.map (ReadLayer.shadow · table) ++ [⟨run, [], []⟩]
        allocated := cache.allocated + 1 }

/-- The bytes that the head holds for a point. -/
def headBytesOf (cache : ReadGenerationCache) (id : Int64) : Option Int :=
  (cache.head.bind (·.state id)).map (Int.ofNat ·.contentBytes)

/-- How many other points are in the head than one that may be there. -/
def otherPoints (cache : ReadGenerationCache) (replaced : Option Int) : Int :=
  cache.headCount - if replaced.isSome then 1 else 0

/-- Seal a head of other points that a record would overflow. -/
def makeRoom (cache : ReadGenerationCache) (replaced : Option Int) (incoming : Int) :
    Except String (ReadGenerationCache × Int) :=
  if cache.otherPoints replaced > 0 ∧
      cache.headBytes - replaced.getD 0 + incoming > headMaxBytes then do
    let room ← cache.sealHead
    pure (room, 0)
  else pure (cache, replaced.getD 0)

/-- Put one state into the head. The published copy of the head is not this one. -/
def putHead (cache : ReadGenerationCache) (entry : MemTableEntry) (added : Int) :
    ReadGenerationCache :=
  { cache with
    frozenHead := none
    head := cache.head.map (·.put entry)
    headBytes := cache.headBytes + added }

/-- `_record_one`. -/
def recordOne (cache : ReadGenerationCache) (table : MemTable) (id : Int64) :
    Except String ReadGenerationCache :=
  match table.state id with
  | none => throw "recorded ID is absent from the writer table"
  | some entry => do
      let incoming : Int := entry.contentBytes
      let (cache, replaced) ← cache.makeRoom (cache.headBytesOf id) incoming
      let cache := cache.putHead entry (incoming - replaced)
      if cache.headCount ≥ headMaxPoints ∨ cache.headBytes ≥ headMaxBytes then cache.sealHead
      else pure cache

/-- The loop of `record`. -/
def recordEach (cache : ReadGenerationCache) (table : MemTable) :
    List Int64 → Except String ReadGenerationCache
  | [] => pure cache
  | id :: ids => do
      let next ← cache.recordOne table id
      recordEach next table ids

/-- `record`: the committed states of a batch. A failure drops the derived state. -/
def record (cache : ReadGenerationCache) (table : MemTable) (ids : List Int64) (sequence : Nat) :
    ReadGenerationCache :=
  let cache := cache.invalidate
  if cache.layers.length = 0 then cache
  else
    match cache.recordEach table ids with
    | .ok next => { next with sequence := sequence }
    | .error _ => cache.reset

/-- `capture_merge`: the base and the sealed runs. -/
def captureMerge (cache : ReadGenerationCache) : SealedMerge :=
  ⟨cache.layers.map (·.run), none⟩

/-- Whether the captured runs are still the oldest ones, by identity. -/
def isCurrent (cache : ReadGenerationCache) (merge : SealedMerge) : Bool :=
  merge.runs.length ≤ cache.layers.length &&
    (cache.layers.take merge.runs.length).map (·.run.owner) == merge.runs.map (·.owner)

/-- `publish_merge`: replace the merged prefix; later runs and the head are kept. -/
def publishMerge (cache : ReadGenerationCache) (merge : SealedMerge) :
    ReadGenerationCache × Bool :=
  match merge.base with
  | none => (cache, false)
  | some base =>
      if cache.isCurrent merge then
        let kept := cache.layers.drop merge.runs.length
        let hidden := kept.flatMap fun layer => hiddenOrdinals base.memtable layer.run.memtable
        ({ cache.invalidate with layers := ⟨base, union [] hidden, []⟩ :: kept }, true)
      else (cache, false)

/-- `merge_sealed_runs`: capture, build and publish in one step. -/
def mergeSealedRuns (cache : ReadGenerationCache) : Except String ReadGenerationCache := do
  let merge ← cache.captureMerge.build cache.allocated
  pure ({ cache with allocated := cache.allocated + 1 }.publishMerge merge).1

/-- `_build_base`: start a new chain from the writer's table. -/
def buildBase (cache : ReadGenerationCache) (table : MemTable) (sequence : Nat) :
    Except String ReadGenerationCache := do
  let run ← indexedRun cache.allocated table
  pure { cache with
    layers := [⟨run, [], []⟩]
    head := some (.empty table.dimension)
    headBytes := 0
    frozenHead := none
    sequence := sequence
    allocated := cache.allocated + 1 }

/-- The frozen copy of a head that is not empty, made when there is none. -/
def freezeHead (cache : ReadGenerationCache) : ReadGenerationCache × Option ReadRun :=
  match cache.head with
  | none => (cache, none)
  | some head =>
      if head.slotCount = 0 then (cache, none)
      else
        match cache.frozenHead with
        | some run => (cache, some run)
        | none =>
            let run : ReadRun := ⟨cache.allocated, head, none⟩
            ({ cache with frozenHead := some run, allocated := cache.allocated + 1 }, some run)

/-- Shadow the slots that the frozen head has states for, and put the head on top. -/
def withHead (layers : List ReadLayer) (frozen : Option ReadRun) : List ReadLayer :=
  match frozen with
  | none => layers
  | some run =>
      layers.map (fun layer =>
        { layer with
          headHidden := (layer.headHidden ++
            hiddenOrdinals layer.run.memtable run.memtable).mergeSort (· ≤ ·) }) ++
        [⟨run, [], []⟩]

/-- Whether the cached root answers a capture. -/
def isCached (root : ReadGeneration) (config : ReadConfig) (generation sequence : Nat)
    (catalog : Option Nat) : Bool :=
  root.generation == generation && root.sequence == sequence &&
    root.config.fingerprint == config.fingerprint && root.catalog == catalog

/-- The chain that a capture reads, after its checks: a new base when there is none. -/
def currentChain (cache : ReadGenerationCache) (config : ReadConfig) (sequence : Nat)
    (table : MemTable) : Except String ReadGenerationCache := do
  require (cache.revision ≠ 2 ^ 64 - 1) "read view revision exhausted"
  config.validate
  require (table.dimension = config.dimension) "snapshot dimension mismatch"
  require (table.lastSequence ≤ sequence) "snapshot sequence precedes memtable"
  if cache.layers.length = 0 then cache.buildBase table sequence
  else do
    require (cache.sequence = sequence) "read publisher missed a committed write"
    pure cache

/-- Publish a root of the chain. `pinned` is the outcome of pinning its generation. -/
def publishRoot (cache : ReadGenerationCache) (config : ReadConfig) (generation sequence : Nat)
    (table : MemTable) (catalog : Option Nat) (pinned : Except String Unit) :
    ReadGenerationCache × Except String ReadGeneration :=
  let frozen := cache.freezeHead
  match pinned with
  | .error e => (frozen.1, .error e)
  | .ok () =>
      let root : ReadGeneration :=
        { config := config
          generation := generation
          sequence := sequence
          revision := frozen.1.revision + 1
          layers := withHead frozen.1.layers frozen.2
          visibleCount := table.liveCount
          denseCount := table.denseLiveCount
          catalog := catalog }
      ({ frozen.1 with root := some root, revision := frozen.1.revision + 1 }, .ok root)

/-- `acquire`: the cached root, or a new one of the current chain. -/
def acquire (cache : ReadGenerationCache) (config : ReadConfig) (generation sequence : Nat)
    (table : MemTable) (catalog : Option Nat) (pinned : Except String Unit) :
    ReadGenerationCache × Except String ReadGeneration :=
  match cache.root.filter (isCached · config generation sequence catalog) with
  | some root => (cache, .ok root)
  | none =>
      match cache.currentChain config sequence table with
      | .error e => (cache, .error e)
      | .ok cache => cache.publishRoot config generation sequence table catalog pinned

end ReadGenerationCache

end Akasha.Storage

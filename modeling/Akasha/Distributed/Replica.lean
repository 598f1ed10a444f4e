import Akasha.Distributed.Journal
import Akasha.Lib.Exec
import Akasha.Storage.Wal

/-!
# One replica of one shard

`ReplicaShard` keeps three durable things: the journal, the collection, and
`replica-state.json`. Its methods are programs over a `Process`, the files together with the
object in memory. Every change of a file goes through `durable`, which ends the process when
its allowance of file writes is used up; a crash point is therefore a choice of that number.
An append is two writes, the first of which leaves a torn line.
-/

namespace Akasha.Distributed

open Lib Lib.Exec

/-- The content of `replica-state.json`; all zero while the file is absent. -/
structure ReplicaState where
  term : Nat
  placementEpoch : Nat
  appliedIndex : Nat
deriving DecidableEq, Repr

/-- The durable files of one shard. -/
structure ShardDisk where
  state : ReplicaState
  journal : JournalFile
  collection : PointMap

/-- A shard directory nothing was written to. -/
def ShardDisk.empty : ShardDisk := ⟨⟨0, 0, 0⟩, ⟨[], false⟩, ∅⟩

/-- The `ReplicaShard` object: its identity, `term`, `placement_epoch` and `applied_index`, and
its journal. The collection object serves the durable content. -/
structure ReplicaShard where
  shardId : Nat
  dimension : Nat
  state : ReplicaState
  journal : ReplicaJournal

/-- The object before its constructor has read anything. -/
def ReplicaShard.unread (shardId dimension : Nat) : ReplicaShard :=
  ⟨shardId, dimension, ⟨0, 0, 0⟩, .empty⟩

/-- A replica process at work on one shard: the files, the object, and how many more file writes
happen before the process dies, if it does. -/
structure Process where
  disk : ShardDisk
  shard : ReplicaShard
  writes : Option Nat

/-- A method of `ReplicaShard`. -/
abbrev ShardM := Exec Process Error

/-- Change the files, or die. -/
def durable (change : ShardDisk → ShardDisk) : ShardM Unit := fun process =>
  match process.writes with
  | some 0 => (.error .crash, process)
  | some (left + 1) =>
      (.ok (), { process with disk := change process.disk, writes := some left })
  | none => (.ok (), { process with disk := change process.disk })

/-- Change the object in memory. -/
def modifyShard (change : ReplicaShard → ReplicaShard) : ShardM Unit :=
  update fun process => { process with shard := change process.shard }

/-- The file has begun to receive a line. -/
def JournalFile.tear (file : JournalFile) : JournalFile :=
  { file with torn := true }

/-- The file has received a whole line. -/
def JournalFile.append (file : JournalFile) (line : JournalRecord) : JournalFile :=
  ⟨file.lines ++ [line], false⟩

/-- `ReplicaJournal._append`. -/
def appendLine (line : JournalRecord) : ShardM Unit := do
  durable fun disk => { disk with journal := disk.journal.tear }
  durable fun disk => { disk with journal := disk.journal.append line }

/-- `_publish_state`: the temporary file is invisible, the rename is not. -/
def publishState : ShardM Unit := do
  let process ← read
  durable fun disk => { disk with state := process.shard.state }

/-- `configure`. -/
def configure (term placementEpoch : Nat) : ShardM ReplicaState := do
  let process ← read
  let state := process.shard.state
  if term < state.term ∨ placementEpoch < state.placementEpoch then
    raise (.staleEpoch "replica configuration epoch regression")
  else do
    modifyShard fun shard =>
      { shard with state := { shard.state with term, placementEpoch } }
    publishState
    pure ⟨term, placementEpoch, state.appliedIndex⟩

/-- `_validate_entry_epoch`. -/
def ReplicaShard.validateEntryEpoch (shard : ReplicaShard) (entry : ReplicatedEntry) :
    Except Error Unit := do
  require (entry.shardId = shard.shardId)
    (.protocol "replicated entry routed to wrong shard")
  require (entry.term = shard.state.term ∧ entry.placementEpoch = shard.state.placementEpoch)
    (.staleEpoch "stale shard term or placement epoch")

/-- One collection write of `_apply`. -/
def collectionStep (step : PointMap → Except Error PointMap) : ShardM Unit := do
  let process ← read
  let points ← lift (step process.disk.collection)
  durable fun disk => { disk with collection := points }

/-- `_apply`. -/
def apply (mutation : Json) : ShardM Unit := do
  let process ← read
  lift (validateReplicatedMutation mutation (some process.shard.dimension))
  forEach (applySteps process.shard.dimension mutation) collectionStep

/-- Apply an entry, record its index and publish the state. -/
def applyEntry (entry : ReplicatedEntry) : ShardM Unit := do
  apply entry.mutation
  modifyShard fun shard =>
    { shard with state := { shard.state with appliedIndex := entry.index } }
  publishState

/-- The end of `commit`: apply the entry unless its index is applied already. -/
def applyOnce (entry : ReplicatedEntry) : ShardM Unit := do
  let process ← read
  if process.shard.state.appliedIndex < entry.index then applyEntry entry else pure ()

/-- The end of `_load`: cut a torn line off the file. -/
def repairTornTail : ShardM Unit := do
  let process ← read
  if process.disk.journal.torn then
    durable fun disk => { disk with journal := { disk.journal with torn := false } }
  else pure ()

/-- `_replay_committed`. -/
def replayCommitted : ShardM Unit := do
  let process ← read
  forEach (process.shard.journal.committedAfter process.shard.state.appliedIndex) applyEntry

/-- `ReplicaJournal.commit`: mark the index and return the entry prepared there. -/
def journalCommit (index : Nat) : ShardM ReplicatedEntry := do
  let process ← read
  match process.shard.journal.prepared[index]? with
  | none => raise (.protocol "cannot commit an unprepared entry")
  | some entry => do
      if index ∈ process.shard.journal.committed then pure entry
      else do
        appendLine (.commit index)
        modifyShard fun shard => { shard with journal := shard.journal.addCommitted index }
        pure entry

section

variable [FloatRepr]

/-- `ReplicaJournal.prepare`: an index already prepared must carry the same checksum. -/
def journalPrepare (entry : ReplicatedEntry) : ShardM Unit := do
  lift entry.validate
  let process ← read
  match process.shard.journal.prepared[entry.index]? with
  | some existing =>
      if existing.mutationChecksum ≠ entry.mutationChecksum then
        raise (.protocol "conflicting duplicate replicated entry")
      else pure ()
  | none => do
      appendLine (.prepare entry)
      modifyShard fun shard => { shard with journal := shard.journal.addPrepared entry }

/-- `ReplicaShard.prepare`; returns the checksum of the reply. -/
def prepare (entry : ReplicatedEntry) : ShardM Nat := do
  let process ← read
  lift (process.shard.validateEntryEpoch entry)
  lift (validateReplicatedMutation entry.mutation (some process.shard.dimension))
  ensure (process.shard.journal.snapshotIndex < entry.index)
    (.protocol "replicated index predates installed snapshot")
  journalPrepare entry
  pure entry.mutationChecksum

/-- `ReplicaShard.commit`; returns the applied index of the reply. -/
def commit (entry : ReplicatedEntry) : ShardM Nat := do
  let process ← read
  lift (process.shard.validateEntryEpoch entry)
  lift (validateReplicatedMutation entry.mutation (some process.shard.dimension))
  journalPrepare entry
  let committed ← journalCommit entry.index
  applyOnce committed
  let process ← read
  pure process.shard.state.appliedIndex

/-- `ReplicaShard.__init__`: read the state file, load and repair the journal, replay. -/
def openShard (shardId dimension : Nat) : ShardM Unit := do
  let process ← read
  let journal ← lift (ReplicaJournal.load process.disk.journal.lines)
  repairTornTail
  modifyShard fun _ => ⟨shardId, dimension, process.disk.state, journal⟩
  replayCommitted

end

/-! ## Snapshots -/

/-- The most rows one kernel batch takes. -/
def maxBatchRows : Nat := 65536

/-- `_parse_snapshot_rows` on the rows of an export: the checks left once the types are right. -/
def parseSnapshotRows (dimension : Nat) (rows : List (Int64 × Point)) : Except Error Unit := do
  require (rows.map Prod.fst).Nodup (.protocol "snapshot point IDs must be unique")
  require (∀ row ∈ rows, row.2.vector.length = dimension)
    (.protocol "snapshot vector dimension mismatch")
  require (∀ row ∈ rows, ∀ value ∈ row.2.vector, value.isFinite)
    (.protocol "snapshot vector values must be finite")
  require (∀ row ∈ rows, (row.2.fields.map (·.name)).Nodup ∧ "" ∉ row.2.fields.map (·.name))
    (.protocol "snapshot payload names must be unique strings")
  require (∀ row ∈ rows, (row.2.sparse.map (·.termId)).Nodup ∧
      ∀ element ∈ row.2.sparse, 0 ≤ element.termId.toInt)
    (.protocol "snapshot sparse term IDs must be unique and non-negative")
  require (∀ row ∈ rows, ∀ element ∈ row.2.sparse, element.weight.isFinite)
    (.protocol "snapshot sparse weights must be finite numbers")

/-- The identifier, vector and payload of a mutation of a batch. -/
abbrev BatchDocument := Int64 × List F32 × List DocumentField

/-- The records of a batch in the log of a new collection. -/
def batchRecords (documents : List BatchDocument) : List Storage.WalRecord :=
  documents.zipIdx.map fun item =>
    .documentUpsert (UInt64.ofNat (item.2 + 1)) item.1.1 item.1.2.1 item.1.2.2

/-- `apply_batch` of upserts on a new collection: the limit of the binding, the checks of the
documents, and the envelope that holds them all. -/
def applyBatch (dimension : Nat) (documents : List BatchDocument) (points : PointMap) :
    Except Error PointMap := do
  require (documents.length ≤ maxBatchRows) (.kernel "mutation batch resource limit exceeded")
  let applied ← documents.foldlM (fun (points : PointMap) document =>
    kernelCheck (points.upsertDocument dimension document.1 document.2.1 document.2.2)) points
  let _ ← kernelCheck (Storage.encodeBatch dimension (batchRecords documents))
  pure applied

/-- The staged collection of `install_snapshot`: one batch of documents, then the sparse
vectors row by row. -/
def stageRows (dimension : Nat) (rows : List (Int64 × Point)) : Except Error PointMap :=
  if rows.isEmpty then pure ∅
  else do
    let documents ← applyBatch dimension
      (rows.map fun row => (row.1, row.2.vector, row.2.fields)) ∅
    rows.foldlM (fun (points : PointMap) row =>
      if row.2.sparse.isEmpty then pure points
      else kernelCheck (points.upsertSparse row.1 row.2.sparse)) documents

/-- `install_snapshot`: replace the whole directory by a staged one that holds the rows, a
journal with one snapshot record, and the new state. -/
def installSnapshot (rows : List (Int64 × Point)) (index term placementEpoch : Nat) :
    ShardM Unit := do
  let process ← read
  let state := process.shard.state
  if index < state.appliedIndex then
    raise (.protocol "snapshot cannot regress applied index")
  else if term < state.term ∨ placementEpoch < state.placementEpoch then
    raise (.staleEpoch "snapshot epoch regression")
  else do
    lift (parseSnapshotRows process.shard.dimension rows)
    let points ← lift (stageRows process.shard.dimension rows)
    durable fun _ => ⟨⟨term, placementEpoch, index⟩, ⟨[.snapshot index], false⟩, points⟩
    modifyShard fun shard =>
      { shard with
        state := ⟨term, placementEpoch, index⟩
        journal := { ReplicaJournal.empty with snapshotIndex := index } }

/-! ## A directory and its process -/

/-- A shard directory, and the object of the process that serves it, if one does. -/
structure Replica where
  disk : ShardDisk
  shard : Option ReplicaShard

/-- A directory nothing was written to. -/
def Replica.initial : Replica := ⟨.empty, none⟩

/-- What a method leaves: its object survives every exception but the end of the process. -/
def Replica.afterMethod {α : Type} : Except Error α × Process → Replica
  | (.error .crash, process) => ⟨process.disk, none⟩
  | (_, process) => ⟨process.disk, some process.shard⟩

/-- What a constructor leaves: an object only when it returns. -/
def Replica.afterOpen : Except Error Unit × Process → Replica
  | (.ok (), process) => ⟨process.disk, some process.shard⟩
  | (.error _, process) => ⟨process.disk, none⟩

/-- A method call with its allowance of file writes; nothing happens without a process. -/
def Replica.method {α : Type} (replica : Replica) (writes : Option Nat) (x : ShardM α) : Replica :=
  match replica.shard with
  | none => replica
  | some shard => .afterMethod (x ⟨replica.disk, shard, writes⟩)

end Akasha.Distributed

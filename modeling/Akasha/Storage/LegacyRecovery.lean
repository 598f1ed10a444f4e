import Akasha.Storage.Checkpoint
import Akasha.Storage.SparseLog
import Akasha.Storage.WalReader

/-!
# Recovery from a legacy checkpoint and both logs

`storage/legacy_recovery.mojo`. The dense and the sparse checkpoint are read first, then both logs
are merged by sequence; a sparse record that ties with a dense one comes before it. The dense log
is read through any reader that returns the records of one envelope at a time, so that a migration
can stop at the first envelope of points.
-/

namespace Akasha.Storage

open Lib
open Index (SparseIndex)

/-- What the merge of the two logs works on; `records` are the sparse records still to come. -/
structure LegacyState where
  table : MemTable
  sparse : SparseIndex
  pending : List SparseWalRecord
  lastSequence : UInt64
  records : List SparseWalRecord

/-- `LegacyRecovery`, without what the reader of the dense log knows itself. -/
structure LegacyRecovery where
  table : MemTable
  sparse : SparseIndex
  pending : List SparseWalRecord
  sparseWal : SparseWalReplayState
  checkpointLiveIds : List Int64
  snapshotSequence : UInt64
  lastSequence : UInt64
  generation : UInt64

/-- `SparseWalRecord.delete`. -/
def SparseWalRecord.deletion (sequence : UInt64) (id : Int64) : SparseWalRecord :=
  ⟨sequence, id, true, []⟩

/-- `_apply_recovered_sparse`, and the sequence it takes the merge to. -/
def applyRecoveredSparse (checkpoint : UInt64) (state : LegacyState) (record : SparseWalRecord) :
    Except String LegacyState :=
  if record.sequence ≤ checkpoint then
    pure { state with lastSequence := max state.lastSequence checkpoint }
  else do
    let sparse ← applySparseRecord state.sparse record
    pure { state with
      sparse := sparse
      pending := state.pending ++ [record]
      lastSequence := max state.lastSequence record.sequence }

/-- The sparse records that come before a dense one, or all that are left. -/
def mergeSparse (checkpoint : UInt64) (bound : Option UInt64) :
    LegacyState → List SparseWalRecord → Except String LegacyState
  | state, [] => pure { state with records := [] }
  | state, record :: records =>
      if bound.all (record.sequence ≤ ·) then do
        let next ← applyRecoveredSparse checkpoint state record
        mergeSparse checkpoint bound next records
      else pure { state with records := record :: records }

/-- A dense record behind the sparse ones that come before it. -/
def applyDenseRecord (checkpoint : UInt64) (state : LegacyState) (record : WalRecord) :
    Except String LegacyState := do
  let state ← mergeSparse checkpoint (some record.sequence) state state.records
  if record.sequence ≤ checkpoint then pure state
  else if record.isDelete then do
    let table ← state.table.applyDelete record.id record.sequence.toNat
    let last := max state.lastSequence record.sequence
    if (state.sparse.recordSlots[record.id]?).isSome then
      pure { state with
        table := table
        sparse := state.sparse.delete record.id
        pending := state.pending ++ [.deletion record.sequence record.id]
        lastSequence := last }
    else pure { state with table := table, lastSequence := last }
  else do
    let table ← state.table.applyDocumentUpsert record.id record.sequence.toNat record.values
      record.fields
    pure { state with table := table, lastSequence := max state.lastSequence record.sequence }

/-- The loop over the envelopes of the dense log. Every round reads at least one byte, so that as
many rounds as the log has bytes, and one more, come to its end. -/
def mergeLogs {ρ : Type} (next : ρ → Except String (List WalRecord × ρ)) (checkpoint : UInt64) :
    Nat → ρ → LegacyState → Except String (LegacyState × ρ)
  | 0, _, _ => throw "dense log was not read to its end"
  | rounds + 1, reader, state => do
      let (batch, reader) ← next reader
      if batch = [] then pure (state, reader)
      else do
        let state ← batch.foldlM (applyDenseRecord checkpoint) state
        mergeLogs next checkpoint rounds reader state

/-- The checkpoint of a legacy directory: its entries and sparse vectors, its last sequence and its
generation. -/
def loadLegacyCheckpoint (files : Files) (dimension : Nat) :
    Except String (MemTable × SparseIndex × UInt64 × UInt64) :=
  match files manifestFile with
  | none => pure (.empty dimension, .empty, 0, 0)
  | some _ => do
      let manifest ← loadManifest files dimension
      let table ← recoverDense files dimension manifest
      let sparse ← recoverSparse files manifest
      pure (table, sparse, manifest.lastSequence, manifest.generation)

def sparseWalFile : String := "sparse.wal"

def walFile : String := "wal.bin"

/-- `preflight_legacy_with_reader`, and the reader behind the last dense record. -/
def preflightLegacyWithReader {ρ : Type} (next : ρ → Except String (List WalRecord × ρ))
    (rounds : Nat) (reader : ρ) (files : Files) (dimension : Nat) :
    Except String (LegacyRecovery × ρ) := do
  let (table, sparse, snapshot, generation) ← loadLegacyCheckpoint files dimension
  let live := (table.entries.filter (!·.tombstone)).map (·.id)
  let sparseWal ← preflightSparseWal (files sparseWalFile)
  let (merged, reader) ← mergeLogs next snapshot rounds reader
    ⟨table, sparse, [], snapshot, sparseWal.records⟩
  let merged ← mergeSparse snapshot none merged merged.records
  let (table, sparse) ← merged.sparse.records.foldlM attachSparse (merged.table, merged.sparse)
  pure (⟨table, sparse, merged.pending, sparseWal, live, snapshot, merged.lastSequence, generation⟩,
    reader)

/-- `read_next` of the dense reader, with the reader it leaves. -/
def WalReader.next (chunk : Nat → Nat) (reader : WalReader) :
    Except String (List WalRecord × WalReader) :=
  match reader.readNext chunk with
  | (.ok records, reader) => pure (records, reader)
  | (.error message, _) => throw message

/-- `preflight_legacy_authority`, and the reader behind the last dense record. -/
def preflightLegacyAuthority (chunk : Nat → Nat) (files : Files) (dimension : Nat) :
    Except String (LegacyRecovery × WalReader) := do
  let reader ← WalReader.start (files walFile) dimension
  preflightLegacyWithReader (WalReader.next chunk) (reader.input.source.length + 1) reader files
    dimension

end Akasha.Storage

import Akasha.Storage.BinaryReader
import Akasha.Storage.Checksum
import Akasha.Storage.MemTableSlots

/-!
# Rebuildable index caches

A cache artifact keeps the encoding of a derived index together with the generation and sequence
it is for and the checksum of the table it was derived from. A cache is used if its key is that of
the recovered table. The checksum has 32 bits; the bytes under it determine every slot.
-/

namespace Akasha.Storage

open Lib

/-- `CACHE_METADATA_KIND`. -/
def cacheMetadataKind : Nat := 2

def maxCachePayloadBytes : Nat := 512 * 1024 * 1024

/-- `CacheArtifact`. -/
structure CacheArtifact where
  kind : Nat
  dimension : Nat
  generation : Nat
  sequence : Nat
  sourceChecksum : UInt32
  payload : List UInt8
deriving DecidableEq

/-- `_validate_header`, in the constructor of an artifact. -/
def CacheArtifact.validate (artifact : CacheArtifact) : Except String Unit := do
  require (1 ≤ artifact.kind ∧ artifact.kind ≤ 3) "unknown derived index cache kind"
  require (0 < artifact.dimension) "derived index cache dimension must be positive"
  require (artifact.payload.length ≤ maxCachePayloadBytes)
    "derived index cache payload is too large"

/-- `load_cache_payload`, on the artifact that its file holds, if it holds one. -/
def loadCachePayload (file : Option CacheArtifact) (kind dimension generation sequence : Nat)
    (checksum : UInt32) : Option (List UInt8) := do
  let artifact ← file
  guard (artifact.kind = kind ∧ artifact.dimension = dimension ∧
    artifact.generation = generation ∧ artifact.sequence = sequence ∧
    artifact.sourceChecksum = checksum)
  pure artifact.payload

/-- The bytes of one slot under the checksum. -/
def indexRow (entry : MemTableEntry) : Except String (List UInt8) := do
  let fields ← encodePayload entry.payload
  pure (i64Bytes entry.id ++ (leBytes 8 entry.sequence ++ ((if entry.tombstone then 1 else 0) ::
    0 :: (leBytes 2 0 ++ (entry.values.flatMap f32Bytes ++ (leBytes 4 fields.length ++ fields))))))

/-- The bytes of the slots in order. -/
def indexRows : List MemTableEntry → Except String (List UInt8)
  | [] => pure []
  | entry :: entries => do
      let row ← indexRow entry
      let rows ← indexRows entries
      pure (row ++ rows)

/-- The bytes under `authoritative_index_checksum`. -/
def authoritativeIndexBytes (table : MemTable) : Except String (List UInt8) := do
  let rows ← indexRows table.entries
  pure (leBytes 4 table.dimension ++ (leBytes 4 table.slotCount ++ rows))

/-- `authoritative_index_checksum`. -/
def authoritativeIndexChecksum (table : MemTable) : Except String UInt32 := do
  let bytes ← authoritativeIndexBytes table
  pure (crc32 bytes)

/-! ## The checksummed bytes determine the slots -/

/-- A slot, read off its bytes. -/
def readIndexRow (dimension : Nat) : Reader (Int64 × Option (List DocumentField)) := do
  let id ← readI64
  let _ ← readSpan 8
  let tombstone ← readU8
  let _ ← readU8
  let _ ← readU16
  let _ ← readF32s (if tombstone = 1 then 0 else dimension)
  let length ← readU32
  let bytes ← readSpan length
  let fields ← ofResult (decodePayload bytes)
  pure (id, if tombstone = 1 then none else some fields)

theorem reads_index_row {entry : MemTableEntry} {dimension : Nat} {row : List UInt8}
    (hentry : entry.Row dimension) (hrow : indexRow entry = .ok row) :
    Reads (readIndexRow dimension) row entry.slot ∧ row ≠ [] := by
  simp only [indexRow, bind_ok, pure_ok] at hrow
  obtain ⟨fields, hfields, rfl⟩ := hrow
  have hsize := encode_payload_length hfields
  have hmax : maxPayloadBytes = 16777216 := rfl
  have hflag : ∀ {α : Type} (a b : α), (if (if entry.tombstone = true then (1 : UInt8) else 0).toNat = 1
      then a else b) = if entry.tombstone then a else b := by
    intro α a b
    cases entry.tombstone <;> rfl
  refine ⟨?_, by simp [i64Bytes, leBytes]⟩
  refine reads_bind (reads_i64 entry.id) (reads_bind (reads_span (length_le_bytes 8 _)) ?_)
  refine reads_u8_cons (reads_u8_cons (reads_bind (reads_u16 (by decide)) ?_))
  rw [hflag, ← hentry.values_length]
  refine reads_bind (reads_f32s entry.values) (reads_bind (reads_u32 (by omega)) ?_)
  refine reads_last (reads_span rfl) ?_
  refine reads_silent (reads_of_result (decode_encode_payload hentry.payload_valid hfields)) ?_
  rw [hflag]
  exact reads_pure _

theorem index_rows_eq {entries : List MemTableEntry} {dimension : Nat} {rows : List UInt8}
    (hentries : ∀ entry ∈ entries, entry.Row dimension) (hrows : indexRows entries = .ok rows) :
    ∃ parts : List ((Int64 × Option (List DocumentField)) × List UInt8),
      parts.map (·.1) = entries.map (·.slot) ∧ parts.flatMap (·.2) = rows ∧
      ∀ part ∈ parts, Reads (readIndexRow dimension) part.2 part.1 ∧ part.2 ≠ [] := by
  induction entries generalizing rows with
  | nil =>
      simp only [indexRows, pure_ok] at hrows
      exact ⟨[], rfl, hrows, (by intros; contradiction)⟩
  | cons entry entries ih =>
      simp only [indexRows, bind_ok, pure_ok] at hrows
      obtain ⟨row, hrow, rest, hrest, rfl⟩ := hrows
      rw [List.forall_mem_cons] at hentries
      obtain ⟨parts, hslots, hbytes, hreads⟩ := ih hentries.2 hrest
      refine ⟨(entry.slot, row) :: parts, by simp [hslots], by simp [hbytes], ?_⟩
      rw [List.forall_mem_cons]
      exact ⟨reads_index_row hentries.1 hrow, hreads⟩

/-- Tables of rows with the same checksummed bytes have the same slots. -/
theorem index_bytes_injective {table other : MemTable} {bytes : List UInt8}
    (h : table.WellFormed) (hother : other.WellFormed) (hrows : table.Rows)
    (hotherRows : other.Rows) (hdim : table.dimension = other.dimension)
    (hbytes : authoritativeIndexBytes table = .ok bytes)
    (hotherBytes : authoritativeIndexBytes other = .ok bytes) : table.slots = other.slots := by
  simp only [authoritativeIndexBytes, bind_ok, pure_ok] at hbytes hotherBytes
  obtain ⟨rows, hencoded, rfl⟩ := hbytes
  obtain ⟨otherRows, hotherEncoded, heq⟩ := hotherBytes
  have hsame : otherRows = rows := by
    have hdrop := congrArg (List.drop 8) heq
    simpa [leBytes] using hdrop
  obtain ⟨parts, hslots, hparts, hreads⟩ := index_rows_eq
    (fun entry hentry => hrows entry.id entry ((MemTable.state_eq_some_iff h).2 ⟨hentry, rfl⟩))
    hencoded
  obtain ⟨others, hotherSlots, hotherParts, hotherReads⟩ := index_rows_eq
    (fun entry hentry =>
      hotherRows entry.id entry ((MemTable.state_eq_some_iff hother).2 ⟨hentry, rfl⟩))
    hotherEncoded
  rw [← hdim] at hotherReads
  rw [MemTable.slots, MemTable.slots, ← hslots, ← hotherSlots]
  exact reads_flatten_injective hreads hotherReads (by rw [hparts, hotherParts, hsame])

end Akasha.Storage

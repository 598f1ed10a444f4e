import Akasha.Document.PointCodec
import Akasha.Document.PointState
import Akasha.Storage.FieldCatalog
import Akasha.Storage.Wal
import Akasha.Storage.WalBuffer

/-!
# Field-aware log envelopes

A version 4 envelope of the log is a batch of point mutations, bound to the catalog it was
written for. `FieldWalReader` reads a log that starts with envelopes of the old versions, up to
the catalog's cutover, and goes on with point batches.
-/

namespace Akasha.Storage

open Lib List

def maxPointBatchMutations : Nat := 65536

def maxPointBatchBytes : Nat := 256 * 1024 * 1024

/-- `PointWalBatch`. -/
structure PointWalBatch where
  firstSequence : UInt64
  mutations : List PointMutation
deriving DecidableEq

/-- `PointWalBatch.last_sequence`. -/
def PointWalBatch.lastSequence (batch : PointWalBatch) : Except String UInt64 := do
  require (batch.mutations ≠ [] ∧ batch.firstSequence ≠ 0 ∧
      batch.firstSequence.toNat ≤ 2 ^ 64 - 1 - (batch.mutations.length - 1))
    "invalid field-aware WAL batch sequence range"
  pure (batch.firstSequence + UInt64.ofNat (batch.mutations.length - 1))

/-- `_validate_range`. -/
def validateRange (first : UInt64) (count : Nat) (catalog : FieldCatalog) (previous : UInt64) :
    Except String Unit := do
  require (1 ≤ count ∧ count ≤ maxPointBatchMutations) "invalid field-aware WAL mutation count"
  require (first ≠ 0 ∧ catalog.legacyCutoverSequence < first.toNat ∧ previous < first)
    "field-aware WAL sequence must follow cutover and previous envelope"
  require (first.toNat ≤ 2 ^ 64 - 1 - (count - 1)) "field-aware WAL sequence range overflows"

/-! ## Encoding -/

/-- The field of a catalog, as `field_at(ordinal_for(id))` finds it. -/
def fieldFor (catalog : FieldCatalog) (id : Nat) : Except String VectorFieldSpec :=
  match catalog.specFor id with
  | some spec => pure spec
  | none => throw "vector field ordinal out of bounds"

/-- The size of an update's body; a removal has none. -/
def updateSize (catalog : FieldCatalog) (update : FieldUpdate) : Except String Nat :=
  match update.value with
  | none => pure 0
  | some value => do
      let spec ← fieldFor catalog update.id
      vectorValueSize value spec

/-- The first loop of `_encode_mutation`: the length of the body, within the limit. -/
def mutationLength (catalog : FieldCatalog) : Nat → List FieldUpdate → Except String Nat
  | length, [] => pure length
  | length, update :: updates => do
      let size ← updateSize catalog update
      require (size + (64 + length + 12) ≤ maxPointBatchBytes)
        "field-aware WAL mutation exceeds envelope limit"
      mutationLength catalog (length + (12 + size)) updates

/-- The body of an update. -/
def updateBody (catalog : FieldCatalog) (update : FieldUpdate) : Except String (List UInt8) :=
  match update.value with
  | none => pure []
  | some value => do
      let spec ← fieldFor catalog update.id
      encodeVectorValue value spec

/-- One update. -/
def encodeUpdate (catalog : FieldCatalog) (update : FieldUpdate) : Except String (List UInt8) := do
  let body ← updateBody catalog update
  pure (leBytes 4 update.id ++ ((if update.value.isNone then 2 else 1) :: 0 :: (leBytes 2 0 ++
    (leBytes 4 body.length ++ body))))

/-- The second loop of `_encode_mutation`. -/
def encodeUpdates (catalog : FieldCatalog) : List FieldUpdate → Except String (List UInt8)
  | [] => pure []
  | update :: updates => do
      let first ← encodeUpdate catalog update
      let rest ← encodeUpdates catalog updates
      pure (first ++ rest)

/-- The payload of a mutation with its length, where it replaces the payload. -/
def encodeMutationPayload : Option (List DocumentField) → Except String (List UInt8)
  | none => pure []
  | some fields => do
      let payload ← encodePayload fields
      pure (leBytes 4 payload.length ++ payload)

/-- `_encode_mutation`. -/
def encodePointMutation (catalog : FieldCatalog) (mutation : PointMutation) :
    Except String (List UInt8) := do
  mutation.validate catalog
  let payload ← encodeMutationPayload mutation.payload
  let length ← mutationLength catalog payload.length mutation.fields
  let updates ← encodeUpdates catalog mutation.fields
  pure (i64Bytes mutation.id ++ (UInt8.ofNat mutation.kind ::
    (if mutation.payload.isSome then 1 else 0) :: (leBytes 2 0 ++
      (leBytes 4 mutation.fields.length ++ (leBytes 4 length ++ (payload ++ updates))))))

/-- The loop of `encode_point_batch`, after the bytes so far. -/
def encodePointMutations (catalog : FieldCatalog) :
    Nat → List PointMutation → Except String (List UInt8)
  | _, [] => pure []
  | total, mutation :: mutations => do
      let body ← encodePointMutation catalog mutation
      require (body.length + total ≤ maxPointBatchBytes)
        "field-aware WAL batch exceeds envelope limit"
      let rest ← encodePointMutations catalog (total + body.length) mutations
      pure (body ++ rest)

/-- `encode_point_batch`. -/
def encodePointBatch (catalog : FieldCatalog) (batch : PointWalBatch) :
    Except String (List UInt8) := do
  let crc ← fieldCatalogChecksum catalog
  validateRange batch.firstSequence batch.mutations.length catalog 0
  let bodies ← encodePointMutations catalog 44 batch.mutations
  pure (withChecksum (walHeader 4 4 (44 + bodies.length) (u64Bytes batch.firstSequence ++
    (leBytes 4 batch.mutations.length ++ (leBytes 8 catalog.schemaRevision ++ (leBytes 4 crc ++
      (leBytes 4 0 ++ bodies)))))))

/-! ## Decoding -/

/-- `point_batch_size`. -/
def pointBatchSize (bytes : List UInt8) : Except String Nat := do
  require (32 ≤ bytes.length) "truncated field-aware WAL framing"
  require (bytes.take 4 = walMagic) "invalid WAL record magic"
  let size := leValue ((bytes.drop 8).take 4)
  require (64 ≤ size ∧ size ≤ maxPointBatchBytes) "invalid field-aware WAL envelope length"
  pure size

/-- The field of an update that follows another. -/
def nextField (catalog : FieldCatalog) (previous : Option Nat) (id : Nat) :
    Except String VectorFieldSpec :=
  match catalog.specFor id with
  | none => throw "point mutation fields must be known, unique and sorted"
  | some spec => do
      require (∀ earlier ∈ previous, earlier < id)
        "point mutation fields must be known, unique and sorted"
      pure spec

/-- The body of an update. -/
def readUpdate (spec : VectorFieldSpec) (id action size : Nat) : Lib.Reader FieldUpdate :=
  if action = 1 then do
    let bytes ← readSpan size
    let value ← ofResult (decodeVectorValue bytes spec)
    pure ⟨id, some value⟩
  else do
    check (action = 2 ∧ size = 0) "invalid point mutation field action or length"
    pure ⟨id, none⟩

/-- The updates of a mutation. -/
def readUpdates (catalog : FieldCatalog) : Nat → Option Nat → Lib.Reader (List FieldUpdate)
  | 0, _ => pure []
  | count + 1, previous => do
      let id ← readU32
      let spec ← ofResult (nextField catalog previous id)
      let action ← readU8
      let flags ← readU8
      let reserved ← readU16
      check (flags = 0 ∧ reserved = 0) "unsupported point mutation field flags"
      let size ← readU32
      let update ← readUpdate spec id action size
      let rest ← readUpdates catalog count (some id)
      pure (update :: rest)

/-- The payload of a mutation. -/
def readMutationPayload (action : Nat) : Lib.Reader (Option (List DocumentField)) :=
  if action = 1 then do
    let size ← readU32
    check (size ≤ maxPayloadBytes) "point mutation payload exceeds bounds"
    let bytes ← readSpan size
    let payload ← ofResult (decodePayload bytes)
    pure (some payload)
  else pure none

/-- The body of a mutation. -/
def readPointBody (catalog : FieldCatalog) (action count : Nat) :
    Lib.Reader (List FieldUpdate × Option (List DocumentField)) := do
  let payload ← readMutationPayload action
  let left ← remaining
  check (count ≤ left / 12) "truncated point mutation field headers"
  let fields ← readUpdates catalog count none
  pure (fields, payload)

/-- The body of a mutation, to its end. -/
def decodePointBody (catalog : FieldCatalog) (action count : Nat) (bytes : List UInt8) :
    Except String (List FieldUpdate × Option (List DocumentField)) := do
  let (body, rest) ← readPointBody catalog action count bytes
  require (rest = []) "unexpected point mutation body bytes"
  pure body

/-- One mutation of a point batch. -/
def readPointMutation (catalog : FieldCatalog) : Lib.Reader PointMutation := do
  let id ← readI64
  let kind ← readU8
  let action ← readU8
  let reserved ← readU16
  check (action ≤ 1 ∧ reserved = 0) "invalid point mutation payload action or flags"
  let count ← readU32
  check (count ≤ maxVectorFields) "point mutation field count exceeds bounds"
  let size ← readU32
  let bytes ← readSpan size
  let (fields, payload) ← ofResult (decodePointBody catalog action count bytes)
  let mutation : PointMutation := ⟨id, kind, fields, payload⟩
  ofResult (mutation.validate catalog)
  pure mutation

/-- `_decode_point_batch` after its checksum, up to the end of the input. -/
def readPointBatch (catalog : FieldCatalog) (crc : Nat) (previous : UInt64) :
    Lib.Reader PointWalBatch := do
  let _ ← readU32
  let version ← readU16
  let operation ← readU8
  let flags ← readU8
  check (version = 4 ∧ operation = 4 ∧ flags = 0)
    "invalid field-aware WAL version, operation or flags"
  let _ ← readU32
  let first ← readU64
  let count ← readU32
  let revision ← readUnsigned 8
  let catalogCrc ← readU32
  let reserved ← readU32
  check (revision = catalog.schemaRevision ∧ catalogCrc = crc ∧ reserved = 0)
    "field-aware WAL catalog identity or reserved field mismatch"
  ofResult (validateRange first count catalog previous)
  let left ← remaining
  check (count ≤ left / 20) "truncated field-aware WAL mutation headers"
  let mutations ← readTimes (fun _ => readPointMutation catalog) 0 count
  pure ⟨first, mutations⟩

/-- `_decode_point_batch`. -/
def decodePointBatch (bytes : List UInt8) (catalog : FieldCatalog) (crc : Nat)
    (previous : UInt64) : Except String PointWalBatch := do
  let size ← pointBatchSize bytes
  require (size = bytes.length) "field-aware WAL envelope length mismatch"
  require ((crc32 ((bytes.take (bytes.length - 4)).drop 4)).toNat =
    leValue (bytes.drop (bytes.length - 4))) "field-aware WAL checksum mismatch"
  let (batch, rest) ← readPointBatch catalog crc previous (bytes.take (bytes.length - 4))
  require (rest = []) "unexpected field-aware WAL trailing bytes"
  pure batch

/-! ## The reader -/

/-- `field_at(0).dimension`: the dimension of the default dense field. -/
def denseDimension (catalog : FieldCatalog) : Nat :=
  (catalog.fields.head?.map (·.dimension)).getD 0

/-- `RecoveredWalEnvelope`: the mutations of one accepted envelope. -/
inductive RecoveredWalEnvelope where
  | legacy (formatVersion : Nat) (records : List WalRecord)
  | point (batch : PointWalBatch)
deriving DecidableEq

/-- `FieldWalReader`. A reader that raised stays failed; what else is in it then is not
looked at again. -/
structure FieldWalReader where
  input : WalReadBuffer
  catalog : FieldCatalog
  catalogCrc : Nat
  previousSequence : UInt64
  done : Bool
  failed : Bool
  validLength : Nat

namespace FieldWalReader

/-- `FieldWalReader.__init__` over a file with this content. -/
def start (source : List UInt8) (catalog : FieldCatalog) : Except String FieldWalReader := do
  let crc ← fieldCatalogChecksum catalog
  pure ⟨.start source, catalog, crc, 0, false, false, 0⟩

/-- The size of the envelope that a buffer starts with. -/
def sizeOf (version dimension : Nat) (bytes : List UInt8) : Except String Nat :=
  if version = 4 then pointBatchSize bytes else envelopeSize bytes dimension

/-- Decode one whole envelope: its mutations and its last sequence. -/
def decode (reader : FieldWalReader) (version dimension : Nat) (bytes : List UInt8) :
    Except String (RecoveredWalEnvelope × UInt64) :=
  if version = 4 then do
    let batch ← decodePointBatch bytes reader.catalog reader.catalogCrc reader.previousSequence
    let last ← batch.lastSequence
    pure (.point batch, last)
  else do
    let records ← decodeEnvelope bytes dimension reader.previousSequence
    let last := (records.getLast?.map (·.sequence)).getD reader.previousSequence
    require (last.toNat ≤ reader.catalog.legacyCutoverSequence)
      "legacy WAL envelope crosses catalog cutover"
    pure (.legacy version records, last)

/-- `read_next`. -/
def readNext (chunk : Nat → Nat) (reader : FieldWalReader) :
    Except String (Option RecoveredWalEnvelope × FieldWalReader) := do
  require (reader.failed = false) "cannot resume a failed field-aware WAL reader"
  let left := reader.input.source.length - reader.validLength
  if reader.done ∨ left < 32 then pure (none, { reader with done := true })
  else do
    let headed ← reader.input.ensureAvailable chunk 32 reader.validLength
    let version := leValue ((headed.view.drop 4).take 2)
    let size ← sizeOf version (denseDimension reader.catalog) headed.view
    if left < size then pure (none, { reader with input := headed, done := true })
    else do
      let filled ← headed.ensureAvailable chunk size reader.validLength
      let (envelope, last) ← reader.decode version (denseDimension reader.catalog) (filled.view.take size)
      let rest ← filled.consume size
      pure (some envelope, { reader with
        input := rest, previousSequence := last, validLength := reader.validLength + size })

/-- Reading until nothing is left: the envelopes that `read_next` returns. -/
inductive Drained (chunk : Nat → Nat) : FieldWalReader → List RecoveredWalEnvelope → Prop
  | stop {reader rest : FieldWalReader} (h : reader.readNext chunk = .ok (none, rest)) :
      Drained chunk reader []
  | next {reader rest : FieldWalReader} {envelope : RecoveredWalEnvelope}
      {envelopes : List RecoveredWalEnvelope}
      (h : reader.readNext chunk = .ok (some envelope, rest)) (hrest : Drained chunk rest envelopes) :
      Drained chunk reader (envelope :: envelopes)

end FieldWalReader

/-! ## One mutation -/

section

variable {catalog : FieldCatalog}

theorem field_for_eq {id : Nat} {spec : VectorFieldSpec} (h : catalog.specFor id = some spec) :
    fieldFor catalog id = .ok spec := by
  simp [fieldFor, h, pure, Except.pure]

/-- The body of an update is as long as was computed for it. -/
theorem length_update_body {update : FieldUpdate} {size : Nat} {body : List UInt8}
    (hconstructed : ∀ value, update.value = some value → value.Constructed)
    (hsize : updateSize catalog update = .ok size) (hbody : updateBody catalog update = .ok body) :
    body.length = size := by
  unfold updateSize at hsize
  unfold updateBody at hbody
  cases hvalue : update.value with
  | none =>
      simp only [hvalue, pure_ok] at hsize hbody
      rw [← hsize, ← hbody]
      rfl
  | some value =>
      simp only [hvalue, bind_ok] at hsize hbody
      obtain ⟨spec, hspec, hsize⟩ := hsize
      obtain ⟨spec', hspec', hbody⟩ := hbody
      cases hspec.symm.trans hspec'
      simp only [encodeVectorValue, bind_ok, pure_ok] at hbody
      obtain ⟨_, -, rfl⟩ := hbody
      simp only [vectorValueSize, bind_ok, exists_unit, pure_ok] at hsize
      obtain ⟨-, found, hfound, -, rfl⟩ := hsize
      exact length_vector_bytes (hconstructed value hvalue) hfound

variable {bytes : List UInt8}

/-- The announced length of the updates is the length of their bytes. -/
theorem mutation_length_eq {updates : List FieldUpdate} {start total : Nat}
    (hconstructed : ∀ update ∈ updates, ∀ value, update.value = some value → value.Constructed)
    (hlength : mutationLength catalog start updates = .ok total)
    (hbytes : encodeUpdates catalog updates = .ok bytes) :
    total = start + bytes.length ∧ (updates ≠ [] → total ≤ maxPointBatchBytes) ∧
      updates.length * 12 ≤ bytes.length := by
  induction updates generalizing start bytes with
  | nil =>
      simp only [mutationLength, encodeUpdates, pure_ok] at hlength hbytes
      subst hlength hbytes
      simp
  | cons update updates ih =>
      simp only [mutationLength, bind_ok, require_ok, exists_unit] at hlength
      simp only [encodeUpdates, encodeUpdate, bind_ok, pure_ok] at hbytes
      obtain ⟨size, hsize, hlimit, hlength⟩ := hlength
      obtain ⟨_, ⟨body, hbody, rfl⟩, rest, hrest, rfl⟩ := hbytes
      rw [forall_mem_cons] at hconstructed
      have heq := length_update_body hconstructed.1 hsize hbody
      obtain ⟨htotal, hbound, hcount⟩ := ih hconstructed.2 hlength hrest
      refine ⟨?_, fun _ => ?_, ?_⟩
      · rw [htotal]
        simp only [length_append, length_cons, length_le_bytes]
        omega
      · cases updates with
        | nil =>
            simp only [mutationLength, pure_ok] at hlength
            omega
        | cons next updates => exact hbound (by simp)
      · simp only [length_append, length_cons, length_le_bytes]
        omega

/-- One update, after its field was found. -/
theorem reads_update {update : FieldUpdate} {spec : VectorFieldSpec} {body : List UInt8}
    (hspec : catalog.specFor update.id = some spec)
    (hconstructed : ∀ value, update.value = some value → value.Constructed)
    (hbody : updateBody catalog update = .ok body) :
    Reads (readUpdate spec update.id (if update.value.isNone then 2 else 1) body.length) body
      update := by
  obtain ⟨id, value⟩ := update
  unfold updateBody at hbody
  cases value with
  | none =>
      simp only [pure_ok] at hbody
      subst hbody
      exact reads_check ⟨rfl, rfl⟩ (reads_pure _)
  | some value =>
      simp only [bind_ok, field_for_eq hspec, Except.ok.injEq, exists_eq_left'] at hbody
      rw [readUpdate, if_pos (by simp)]
      refine reads_last (reads_span rfl) ?_
      exact reads_silent (reads_of_result (decode_encode_vector (hconstructed value rfl) hbody))
        (reads_pure _)

/-- The updates of a mutation. -/
theorem reads_updates {updates : List FieldUpdate} {previous : Option Nat}
    (hvalid : PointMutation.validateUpdates catalog previous updates = .ok ())
    (hconstructed : ∀ update ∈ updates, ∀ value, update.value = some value → value.Constructed)
    (h : encodeUpdates catalog updates = .ok bytes) (hlength : bytes.length < 2 ^ 32) :
    Reads (readUpdates catalog updates.length previous) bytes updates := by
  induction updates generalizing previous bytes with
  | nil =>
      simp only [encodeUpdates, pure_ok] at h
      subst h
      exact reads_pure []
  | cons update updates ih =>
      simp only [encodeUpdates, encodeUpdate, bind_ok, pure_ok] at h
      obtain ⟨_, ⟨body, hbody, rfl⟩, rest, hrest, rfl⟩ := h
      obtain ⟨spec, hspec, hprevious, -, hvalids⟩ := validate_updates_cons hvalid
      rw [forall_mem_cons] at hconstructed
      simp only [length_append, length_cons, length_le_bytes] at hlength
      have hnext : nextField catalog previous update.id = .ok spec := by
        simp only [nextField, hspec, bind_ok, require_ok, exists_unit, pure_ok]
        exact ⟨hprevious, trivial⟩
      have hupdate := reads_update hspec hconstructed.1 hbody
      have haction : (if update.value.isNone = true then (2 : UInt8) else 1).toNat =
          if update.value.isNone then 2 else 1 := by split <;> rfl
      simp only [append_assoc, cons_append]
      refine reads_bind (reads_u32 (FieldCatalog.spec_id_lt hspec)) ?_
      refine reads_silent (reads_of_result hnext) ?_
      refine reads_u8_cons (reads_u8_cons ?_)
      refine reads_bind (reads_u16 (by decide)) (reads_check ⟨rfl, rfl⟩ ?_)
      refine reads_bind (reads_u32 (by omega)) ?_
      rw [haction]
      refine reads_bind hupdate ?_
      exact reads_last (ih hvalids hconstructed.2 hrest (by omega)) (reads_pure _)

theorem valid_of_point_payload {fields : List DocumentField} {u : Unit}
    (h : validatePointPayload fields = .ok u) : ∀ field ∈ fields, field.value.Valid := by
  intro field hfield
  simp only [validatePointPayload, bind_ok, exists_unit, check_each_ok] at h
  have hvalue := h.1 field hfield
  cases hkind : field.value with
  | floating value =>
      simp only [hkind, require_ok] at hvalue
      exact hvalue
  | _ => trivial

/-- The payload of a mutation. -/
theorem reads_mutation_payload {payload : Option (List DocumentField)}
    (hvalid : ∀ fields, payload = some fields → validatePointPayload fields = .ok ())
    (h : encodeMutationPayload payload = .ok bytes) :
    Reads (readMutationPayload (if payload.isSome then 1 else 0)) bytes payload ∧
      bytes.length ≤ 4 + maxPayloadBytes := by
  cases payload with
  | none =>
      simp only [encodeMutationPayload, pure_ok] at h
      subst h
      exact ⟨reads_pure none, Nat.zero_le _⟩
  | some fields =>
      simp only [encodeMutationPayload, bind_ok, pure_ok] at h
      obtain ⟨encoded, hencoded, rfl⟩ := h
      have hlength := encode_payload_length hencoded
      have hmax : maxPayloadBytes = 16777216 := rfl
      refine ⟨?_, by rw [length_append, length_le_bytes]; omega⟩
      rw [readMutationPayload, if_pos (by simp)]
      refine reads_bind (reads_u32 (by omega)) (reads_check hlength ?_)
      refine reads_last (reads_span rfl) ?_
      refine reads_silent (reads_of_result ?_) (reads_pure _)
      exact decode_encode_payload (valid_of_point_payload (hvalid fields rfl)) hencoded

/-- One mutation of a point batch. -/
theorem reads_point_mutation {mutation : PointMutation}
    (hconstructed : ∀ update ∈ mutation.fields, ∀ value, update.value = some value →
      value.Constructed) (h : encodePointMutation catalog mutation = .ok bytes) :
    Reads (readPointMutation catalog) bytes mutation ∧ 20 ≤ bytes.length := by
  simp only [encodePointMutation, bind_ok, exists_unit, pure_ok] at h
  obtain ⟨hvalidate, payload, hpayload, length, hlength, updates, hupdates, rfl⟩ := h
  have hvalid := mutation_validate_ok hvalidate
  have hchecks := hvalidate
  simp only [PointMutation.validate, bind_ok, require_ok, exists_unit] at hchecks
  obtain ⟨-, -, -, hcount, hupdatesValid, -⟩ := hchecks
  obtain ⟨hpayloadReads, hpayloadLength⟩ := reads_mutation_payload hvalid.payload_ok hpayload
  obtain ⟨htotal, hbound, htwelve⟩ := mutation_length_eq hconstructed hlength hupdates
  have hmaxPayload : maxPayloadBytes = 16777216 := rfl
  have hmaxBatch : maxPointBatchBytes = 268435456 := rfl
  have hmaxFields : maxVectorFields = 1024 := rfl
  have hsmall : length < 2 ^ 32 := by
    cases hfields : mutation.fields with
    | nil =>
        simp only [hfields, encodeUpdates, pure_ok] at hupdates
        subst hupdates
        simp only [length_nil] at htotal
        omega
    | cons update rest =>
        have := hbound (by simp [hfields])
        omega
  have hkind : (UInt8.ofNat mutation.kind).toNat = mutation.kind := by
    have hbounds := hvalid.kind_bounds
    rw [UInt8.toNat_ofNat']
    omega
  have haction : (if mutation.payload.isSome = true then (1 : UInt8) else 0).toNat =
      if mutation.payload.isSome then 1 else 0 := by split <;> rfl
  have hbody : decodePointBody catalog (if mutation.payload.isSome then 1 else 0)
      mutation.fields.length (payload ++ updates) = .ok (mutation.fields, mutation.payload) := by
    have hread : ReadsAll (readPointBody catalog (if mutation.payload.isSome then 1 else 0)
        mutation.fields.length) (payload ++ updates) (mutation.fields, mutation.payload) := by
      refine all_bind hpayloadReads (all_remaining (all_check (by omega) (reads_all ?_)))
      exact reads_last (reads_updates hupdatesValid hconstructed hupdates (by omega))
        (reads_pure _)
    simp only [decodePointBody, bind_ok, require_ok, exists_unit, pure_ok]
    exact ⟨_, hread, rfl, rfl⟩
  refine ⟨?_, ?_⟩
  · refine reads_bind (reads_i64 mutation.id) (reads_u8_cons (reads_u8_cons ?_))
    rw [hkind, haction]
    refine reads_bind (reads_u16 (by decide)) (reads_check ⟨by split <;> decide, rfl⟩ ?_)
    refine reads_bind (reads_u32 (by omega)) (reads_check hcount ?_)
    refine reads_bind (reads_u32 hsmall) ?_
    refine reads_last (reads_span (by rw [htotal, length_append])) ?_
    refine reads_silent (reads_of_result hbody) ?_
    exact reads_silent (reads_of_result hvalidate) (reads_pure _)
  · simp only [length_append, length_cons, length_le_bytes, i64Bytes]
    omega

/-- The mutations of a batch. -/
theorem reads_point_mutations {mutations : List PointMutation} {total : Nat} (index : Nat)
    (hconstructed : ∀ mutation ∈ mutations, ∀ update ∈ mutation.fields, ∀ value,
      update.value = some value → value.Constructed)
    (h : encodePointMutations catalog total mutations = .ok bytes) :
    Reads (readTimes (fun _ => readPointMutation catalog) index mutations.length) bytes
        mutations ∧ mutations.length * 20 ≤ bytes.length ∧
      (mutations ≠ [] → total + bytes.length ≤ maxPointBatchBytes) := by
  induction mutations generalizing total index bytes with
  | nil =>
      simp only [encodePointMutations, pure_ok] at h
      subst h
      exact ⟨reads_times_zero, by simp, fun hne => absurd rfl hne⟩
  | cons mutation mutations ih =>
      simp only [encodePointMutations, bind_ok, require_ok, exists_unit,
        pure_ok] at h
      obtain ⟨body, hbody, hlimit, rest, hrest, rfl⟩ := h
      rw [forall_mem_cons] at hconstructed
      obtain ⟨hread, htwenty⟩ := reads_point_mutation hconstructed.1 hbody
      obtain ⟨hreads, hcount, hmax⟩ := ih (index + 1) hconstructed.2 hrest
      refine ⟨reads_times_succ hread hreads, ?_, fun _ => ?_⟩
      · rw [length_append, length_cons]
        omega
      · rw [length_append]
        cases mutations with
        | nil =>
            simp only [encodePointMutations, pure_ok] at hrest
            subst hrest
            simp only [length_nil]
            omega
        | cons next mutations =>
            have := hmax (by simp)
            omega

end

/-! ## One point batch -/

theorem magic_bytes : walMagic = leBytes 4 0x4C574B41 := by decide

/-- The values of a batch were made by their constructors. -/
def PointWalBatch.Constructed (batch : PointWalBatch) : Prop :=
  ∀ mutation ∈ batch.mutations, ∀ update ∈ mutation.fields, ∀ value,
    update.value = some value → value.Constructed

section

variable {catalog : FieldCatalog} {crc : Nat} {batch : PointWalBatch} {bytes : List UInt8}

/-- The header and the mutations of a batch, without its checksum. -/
theorem reads_point_batch (hfits : CatalogFits catalog)
    (hcrc : fieldCatalogChecksum catalog = .ok crc) (hconstructed : batch.Constructed)
    (hrange : validateRange batch.firstSequence batch.mutations.length catalog 0 = .ok ())
    {bodies : List UInt8} (hbodies : encodePointMutations catalog 44 batch.mutations = .ok bodies)
    (size : Nat) (hsize : size < 2 ^ 32) (previous : UInt64)
    (hprevious : previous < batch.firstSequence) :
    ReadsAll (readPointBatch catalog crc previous)
      (walHeader 4 4 size (u64Bytes batch.firstSequence ++ (leBytes 4 batch.mutations.length ++
        (leBytes 8 catalog.schemaRevision ++ (leBytes 4 crc ++ (leBytes 4 0 ++ bodies)))))) batch := by
  obtain ⟨hreads, htwenty, -⟩ := reads_point_mutations 0 hconstructed hbodies
  simp only [validateRange, bind_ok, require_ok, exists_unit] at hrange
  obtain ⟨hcount, hfirst, hlast⟩ := hrange
  have hmax : maxPointBatchMutations = 65536 := rfl
  have hrange' : validateRange batch.firstSequence batch.mutations.length catalog previous =
      .ok () := by
    simp only [validateRange, bind_ok, require_ok, exists_unit]
    exact ⟨hcount, ⟨hfirst.1, hfirst.2.1, hprevious⟩, hlast⟩
  unfold walHeader
  rw [magic_bytes]
  refine all_bind (reads_u32 (by decide)) (all_bind (reads_u16 (by decide)) ?_)
  refine all_u8_cons (all_u8_cons (all_check ⟨rfl, rfl, rfl⟩ ?_))
  refine all_bind (reads_u32 hsize) (all_bind (reads_u64 batch.firstSequence) ?_)
  refine all_bind (reads_u32 (by omega)) (all_bind (reads_unsigned hfits.revision) ?_)
  refine all_bind (reads_u32 (field_catalog_checksum_lt hcrc)) ?_
  refine all_bind (reads_u32 (by decide)) (all_check ⟨rfl, rfl, rfl⟩ ?_)
  refine all_silent (reads_of_result hrange') (all_remaining (all_check (by omega) ?_))
  exact reads_all (reads_last hreads (reads_pure _))

/-- An encoded batch: its size is in its header, and it decodes to itself. -/
theorem decode_encode_point_batch (hfits : CatalogFits catalog)
    (hcrc : fieldCatalogChecksum catalog = .ok crc) (hconstructed : batch.Constructed)
    (h : encodePointBatch catalog batch = .ok bytes) :
    64 ≤ bytes.length ∧ leValue ((bytes.drop 4).take 2) = 4 ∧
      pointBatchSize bytes = .ok bytes.length ∧
      validateRange batch.firstSequence batch.mutations.length catalog 0 = .ok () ∧
      ∀ previous < batch.firstSequence,
        decodePointBatch bytes catalog crc previous = .ok batch := by
  simp only [encodePointBatch, bind_ok, exists_unit, pure_ok, hcrc,
    Except.ok.injEq, exists_eq_left'] at h
  obtain ⟨hrange, bodies, hbodies, rfl⟩ := h
  obtain ⟨-, htwenty, hmax⟩ := reads_point_mutations 0 hconstructed hbodies
  have hcount : 1 ≤ batch.mutations.length := by
    simp only [validateRange, bind_ok, require_ok, exists_unit] at hrange
    exact hrange.1.1
  have hmaximum : maxPointBatchBytes = 268435456 := rfl
  have hlimit := hmax (length_pos_iff.1 hcount)
  have hread := reads_point_batch hfits hcrc hconstructed hrange hbodies (44 + bodies.length)
    (by omega)
  generalize hrest : u64Bytes batch.firstSequence ++ (leBytes 4 batch.mutations.length ++
    (leBytes 8 catalog.schemaRevision ++ (leBytes 4 crc ++ (leBytes 4 0 ++ bodies)))) = rest
    at hread ⊢
  have hrestLength : rest.length = 28 + bodies.length := by
    rw [← hrest]
    simp only [length_append, length_le_bytes, u64Bytes]
    omega
  have hchecksum := check_with_checksum (walHeader 4 4 (44 + bodies.length) rest)
  have hdrop : (withChecksum (walHeader 4 4 (44 + bodies.length) rest)).length =
      44 + bodies.length := by
    rw [withChecksum, length_append, length_wal_header, length_le_bytes, hrestLength]
    omega
  have htake : (withChecksum (walHeader 4 4 (44 + bodies.length) rest)).take
      (44 + bodies.length - 4) = walHeader 4 4 (44 + bodies.length) rest := by
    rw [withChecksum]
    refine take_left' ?_
    rw [length_wal_header, hrestLength]
    omega
  obtain ⟨closing, -, hclosed⟩ := with_checksum_header 4 (44 + bodies.length) 4 rest
  have hsize : pointBatchSize (withChecksum (walHeader 4 4 (44 + bodies.length) rest)) =
      .ok (44 + bodies.length) := by
    have hvalue : leValue (leBytes 4 (44 + bodies.length)) = 44 + bodies.length := by
      rw [le_value_le_bytes]
      exact Nat.mod_eq_of_lt (by omega)
    have hmagic : (walHeader 4 4 (44 + bodies.length) (rest ++ leBytes 4 closing)).take 4 =
        walMagic := by simp [walHeader, walMagic]
    have hfield : ((walHeader 4 4 (44 + bodies.length) (rest ++ leBytes 4 closing)).drop 8).take 4 =
        leBytes 4 (44 + bodies.length) := by simp [walHeader, walMagic, leBytes]
    simp only [pointBatchSize, bind_ok, require_ok, exists_unit, pure_ok]
    rw [hdrop, hclosed, hmagic, hfield, hvalue]
    exact ⟨by omega, rfl, by omega, rfl⟩
  refine ⟨by omega, ?_, by rw [hdrop, hsize], hrange, fun previous hprevious => ?_⟩
  · rw [hclosed]
    exact wal_header_version (by decide)
  · simp only [decodePointBatch, bind_ok, require_ok, exists_unit, pure_ok]
    rw [hdrop, htake]
    refine ⟨_, hsize, rfl, ?_, _, hread previous hprevious, rfl, rfl⟩
    rw [checkChecksum, require_ok, hdrop, htake] at hchecksum
    exact hchecksum

end

/-! ## The log as a whole -/

/-- What is appended to the log of a collection with a catalog. -/
inductive FieldWalItem where
  | legacy (envelope : WalEnvelope)
  | point (batch : PointWalBatch)

/-- The format version of an envelope. -/
def WalEnvelope.version : WalEnvelope → Nat
  | .batch _ => 3
  | _ => 2

namespace FieldWalItem

def encode (catalog : FieldCatalog) : FieldWalItem → Except String (List UInt8)
  | .legacy envelope => envelope.encode (denseDimension catalog)
  | .point batch => encodePointBatch catalog batch

/-- What the reader returns for an item. -/
def recovered : FieldWalItem → RecoveredWalEnvelope
  | .legacy envelope => .legacy envelope.version envelope.records
  | .point batch => .point batch

/-- The values of an item were made by their constructors. -/
def Valid : FieldWalItem → Prop
  | .legacy envelope => envelope.Valid
  | .point batch => batch.Constructed

/-- The sequences of the mutations of an item. -/
def sequences : FieldWalItem → List Nat
  | .legacy envelope => envelope.records.map (·.sequence.toNat)
  | .point batch => (range batch.mutations.length).map (batch.firstSequence.toNat + ·)

end FieldWalItem

/-- The version that a stretch of the log starts with. -/
def versionOf (bytes : List UInt8) : Nat :=
  leValue ((bytes.drop 4).take 2)

theorem header_congr {first second : List UInt8} (dimension : Nat)
    (h : first.take 32 = second.take 32) (hfirst : 32 ≤ first.length)
    (hsecond : 32 ≤ second.length) :
    versionOf first = versionOf second ∧ ∀ version,
      FieldWalReader.sizeOf version dimension first =
        FieldWalReader.sizeOf version dimension second := by
  have hpart : ∀ start count, start + count ≤ 32 →
      (first.drop start).take count = (second.drop start).take count := by
    intro start count hle
    have heq := congrArg (fun bytes => (bytes.drop start).take count) h
    simp only [drop_take, take_take] at heq
    rwa [Nat.min_eq_left (by omega)] at heq
  have hmagic : first.take 4 = second.take 4 := by simpa using hpart 0 4 (by omega)
  refine ⟨congrArg leValue (hpart 4 2 (by omega)), fun version => ?_⟩
  unfold FieldWalReader.sizeOf pointBatchSize envelopeSize
  rw [hmagic, hpart 8 4 (by omega), hpart 4 2 (by omega)]
  simp only [hfirst, hsecond]

namespace FieldWalReader

/-- The reader has accepted what stands before these bytes of its file. -/
structure Ready (reader : FieldWalReader) (left : List UInt8) : Prop where
  failed : reader.failed = false
  done : reader.done = false
  holds : reader.input.Holds reader.validLength
  left_eq : reader.input.source.drop reader.validLength = left
  length_le : reader.validLength ≤ reader.input.source.length

section

variable {reader : FieldWalReader} {left : List UInt8} (chunk : Nat → Nat)

theorem Ready.length_eq (h : reader.Ready left) :
    reader.input.source.length - reader.validLength = left.length := by
  rw [← h.left_eq, length_drop]

theorem read_next_short (h : reader.Ready left) (hshort : left.length < 32) :
    ∃ rest, reader.readNext chunk = .ok (none, rest) := by
  refine ⟨{ reader with done := true }, ?_⟩
  simp only [readNext, bind_ok, require_ok, exists_unit, h.length_eq]
  rw [if_pos (.inr hshort)]
  exact ⟨h.failed, rfl⟩

theorem ensure_header (h : reader.Ready left) (hheader : 32 ≤ left.length) :
    ∃ headed, reader.input.ensureAvailable chunk 32 reader.validLength = .ok headed ∧
      headed.Holds reader.validLength ∧ headed.source = reader.input.source ∧
      versionOf headed.view = versionOf left ∧
      ∀ version dimension, sizeOf version dimension headed.view = sizeOf version dimension left := by
  have hlength := h.length_eq
  have hbound := h.length_le
  obtain ⟨headed, hensure, hholds, hsource, hview⟩ :=
    WalReadBuffer.ensure_available_ok chunk 32 h.holds (by omega)
  rw [h.left_eq] at hview
  have hlong : 32 ≤ headed.view.length := by
    have heq := congrArg length hview
    rw [length_take, length_take] at heq
    omega
  refine ⟨headed, hensure, hholds, hsource, ?_, fun version dimension => ?_⟩
  · exact (header_congr 0 hview hlong hheader).1
  · exact (header_congr dimension hview hlong hheader).2 version

theorem read_next_torn (h : reader.Ready left) (hheader : 32 ≤ left.length) {size : Nat}
    (hsize : sizeOf (versionOf left) (denseDimension reader.catalog) left = .ok size)
    (htorn : left.length < size) : ∃ rest, reader.readNext chunk = .ok (none, rest) := by
  obtain ⟨headed, hensure, -, -, hversion, hsizes⟩ := ensure_header chunk h hheader
  refine ⟨{ reader with input := headed, done := true }, ?_⟩
  simp only [readNext, bind_ok, require_ok, exists_unit, h.length_eq]
  rw [if_neg (by simp [h.done]; omega)]
  simp only [bind_ok]
  refine ⟨h.failed, headed, hensure, size, ?_, ?_⟩
  · show sizeOf (versionOf headed.view) _ headed.view = _
    rw [hversion, hsizes, hsize]
  · rw [if_pos htorn]
    rfl

/-- A whole envelope is returned, and the reader stands behind it. -/
theorem read_next_whole {bytes more : List UInt8} {envelope : RecoveredWalEnvelope}
    {last : UInt64} (h : reader.Ready (bytes ++ more)) (hheader : 32 ≤ bytes.length)
    (hsize : sizeOf (versionOf bytes) (denseDimension reader.catalog) bytes = .ok bytes.length)
    (hdecode : reader.decode (versionOf bytes) (denseDimension reader.catalog) bytes =
      .ok (envelope, last)) :
    ∃ rest, reader.readNext chunk = .ok (some envelope, rest) ∧ rest.Ready more ∧
      rest.catalog = reader.catalog ∧ rest.catalogCrc = reader.catalogCrc ∧
      rest.previousSequence = last := by
  have hlong : 32 ≤ (bytes ++ more).length := by
    rw [length_append]
    omega
  have hlength := h.length_eq
  have hbound := h.length_le
  rw [length_append] at hlength
  obtain ⟨headed, hensure, hholds, hsource, hversion, hsizes⟩ := ensure_header chunk h hlong
  have hfront : (bytes ++ more).take 32 = bytes.take 32 := by
    rw [take_append, Nat.sub_eq_zero_of_le hheader, take_zero, append_nil]
  have hcongr := header_congr (denseDimension reader.catalog) hfront hlong hheader
  obtain ⟨filled, hfill, hfilled, hfilledSource, hview⟩ :=
    WalReadBuffer.ensure_available_ok chunk bytes.length hholds (by rw [hsource]; omega)
  rw [hsource, h.left_eq, take_left] at hview
  have hroom : bytes.length ≤ filled.view.length := by
    have heq := congrArg length hview
    rw [length_take] at heq
    omega
  obtain ⟨rest, hconsume, hrest, hrestSource⟩ := WalReadBuffer.consume_ok hfilled hroom
  have hsourceEq : rest.source = reader.input.source := by
    rw [hrestSource, hfilledSource, hsource]
  refine ⟨{ reader with
    input := rest, previousSequence := last, validLength := reader.validLength + bytes.length },
    ?_, ⟨h.failed, h.done, hrest, ?_, ?_⟩, rfl, rfl, rfl⟩
  · simp only [readNext, bind_ok, require_ok, exists_unit, hlength]
    rw [if_neg (by simp [h.done]; omega)]
    simp only [bind_ok]
    refine ⟨h.failed, headed, hensure, bytes.length, ?_, ?_⟩
    · show sizeOf (versionOf headed.view) _ headed.view = _
      rw [hversion, hcongr.1, hsizes, hcongr.2, hsize]
    · rw [if_neg (by omega)]
      simp only [bind_ok, pure_ok]
      refine ⟨filled, hfill, (envelope, last), ?_, rest, hconsume, rfl⟩
      rw [hview]
      show reader.decode (versionOf headed.view) _ bytes = _
      rw [hversion, hcongr.1, hdecode]
  · show rest.source.drop (reader.validLength + bytes.length) = more
    rw [hsourceEq, ← drop_drop, h.left_eq, drop_left]
  · show reader.validLength + bytes.length ≤ rest.source.length
    rw [hsourceEq]
    omega

end

end FieldWalReader

/-! ## Items -/

section

variable {catalog : FieldCatalog} {crc : Nat} {bytes : List UInt8}

theorem dense_dimension_bounds (catalog : FieldCatalog) :
    0 < denseDimension catalog ∧ denseDimension catalog < 2 ^ 32 := by
  obtain ⟨spec, hmem, hhead, -, -, -, hpositive⟩ := catalog.default_field
  have hvalid := (validate_specs_after_ok catalog.specs_ok).1 spec hmem
  simp only [VectorFieldSpec.validate, bind_ok, require_ok, exists_unit] at hvalid
  simp only [denseDimension, hhead, Option.map_some, Option.getD_some]
  exact ⟨hpositive, hvalid.2.1⟩

/-- An encoded legacy envelope has mutations and says its version. -/
theorem legacy_version {envelope : WalEnvelope} {dimension : Nat}
    (h : envelope.encode dimension = .ok bytes) :
    envelope.records ≠ [] ∧ versionOf bytes = envelope.version := by
  have hrecord : ∀ record, encodeRecord dimension record = .ok bytes → versionOf bytes = 2 := by
    intro record hrecord
    simp only [encodeRecord, bind_ok, exists_unit, pure_ok] at hrecord
    obtain ⟨-, payload, -, rfl⟩ := hrecord
    obtain ⟨_, -, hclosed⟩ := with_checksum_header 2 _ record.operation _
    rw [hclosed]
    exact wal_header_version (by decide)
  cases envelope with
  | upsert sequence id values fields =>
      simp only [WalEnvelope.encode, encodeDocumentUpsert, bind_ok, exists_unit] at h
      exact ⟨by simp [WalEnvelope.records], hrecord _ h.2⟩
  | delete sequence id =>
      simp only [WalEnvelope.encode, encodeDelete, bind_ok, exists_unit] at h
      exact ⟨by simp [WalEnvelope.records], hrecord _ h.2⟩
  | batch records =>
      simp only [WalEnvelope.encode, encodeBatch, bind_ok, require_ok, exists_unit,
        pure_ok] at h
      obtain ⟨-, hne, -, -, -, body, -, -, rfl⟩ := h
      refine ⟨hne, ?_⟩
      obtain ⟨_, -, hclosed⟩ := with_checksum_header 3 _ 3 _
      rw [hclosed]
      exact wal_header_version (by decide)

theorem last_sequence_ok {batch : PointWalBatch}
    (h : validateRange batch.firstSequence batch.mutations.length catalog 0 = .ok ()) :
    ∃ last, batch.lastSequence = .ok last ∧
      last.toNat = batch.firstSequence.toNat + (batch.mutations.length - 1) := by
  simp only [validateRange, bind_ok, require_ok, exists_unit] at h
  obtain ⟨hcount, hfirst, hrange⟩ := h
  refine ⟨batch.firstSequence + UInt64.ofNat (batch.mutations.length - 1), ?_, ?_⟩
  · simp only [PointWalBatch.lastSequence, bind_ok, require_ok, exists_unit,
      pure_ok]
    exact ⟨⟨length_pos_iff.1 hcount.1, hfirst.1, hrange⟩, trivial⟩
  · rw [UInt64.toNat_add, UInt64.toNat_ofNat']
    omega

/-- What the reader needs to know of an encoded item. -/
structure Recoverable (catalog : FieldCatalog) (crc : Nat) (bytes : List UInt8)
    (item : FieldWalItem) : Prop where
  length_ge : 32 ≤ bytes.length
  size : FieldWalReader.sizeOf (versionOf bytes) (denseDimension catalog) bytes = .ok bytes.length
  positive : ∀ sequence ∈ item.sequences.head?, 0 < sequence
  decode : ∀ reader : FieldWalReader, reader.catalog = catalog → reader.catalogCrc = crc →
    (∀ sequence ∈ item.sequences.head?, reader.previousSequence.toNat < sequence) →
    ∃ last, reader.decode (versionOf bytes) (denseDimension catalog) bytes =
      .ok (item.recovered, last) ∧ last.toNat ∈ item.sequences

/-- Every encoded item can be recovered, if a legacy one does not cross the cutover. -/
theorem recoverable_encode {item : FieldWalItem} (hfits : CatalogFits catalog)
    (hcrc : fieldCatalogChecksum catalog = .ok crc) (hvalid : item.Valid)
    (hencode : item.encode catalog = .ok bytes)
    (hlegacy : ∀ envelope, item = .legacy envelope → bytes.length < 2 ^ 32 ∧
      ∀ sequence ∈ item.sequences, sequence ≤ catalog.legacyCutoverSequence) :
    Recoverable catalog crc bytes item := by
  cases item with
  | legacy envelope =>
      have hbounds := dense_dimension_bounds catalog
      obtain ⟨hsize, hcutover⟩ := hlegacy envelope rfl
      have henvelope := enveloped_encode hbounds.2 hvalid hencode hsize
      obtain ⟨hne, hversion⟩ := legacy_version hencode
      have hnotFour : versionOf bytes ≠ 4 := by
        rw [hversion]
        cases envelope <;> simp [WalEnvelope.version]
      have hmin := henvelope.length_le
      simp only [minRecordSize] at hmin
      refine ⟨by omega, ?_, ?_, fun reader hcatalog _ hprevious => ?_⟩
      · rw [FieldWalReader.sizeOf, if_neg hnotFour]
        exact henvelope.size
      · intro sequence hsequence
        simp only [FieldWalItem.sequences, head?_map, Option.mem_def,
          Option.map_eq_some_iff] at hsequence
        obtain ⟨first, hfirst, rfl⟩ := hsequence
        exact henvelope.positive first hfirst
      · obtain ⟨last, hlast⟩ : ∃ last, envelope.records.getLast? = some last :=
          ⟨_, getLast?_eq_some_getLast hne⟩
        have hmem : last.sequence.toNat ∈ (FieldWalItem.legacy envelope).sequences :=
          mem_map_of_mem (mem_of_getLast? hlast)
        refine ⟨last.sequence, ?_, hmem⟩
        rw [FieldWalReader.decode, if_neg hnotFour]
        simp only [bind_ok, require_ok, exists_unit, pure_ok]
        refine ⟨envelope.records, henvelope.decode _ ?_, ?_, ?_⟩
        · intro first hfirst
          refine hprevious _ ?_
          simp only [FieldWalItem.sequences, head?_map, Option.mem_def,
            Option.map_eq_some_iff]
          exact ⟨first, hfirst, rfl⟩
        · rw [hlast, hcatalog]
          exact hcutover _ hmem
        · rw [hlast, hversion]
          rfl
  | point batch =>
      obtain ⟨hlength, hversion, hsized, hrange, hdecode⟩ :=
        decode_encode_point_batch hfits hcrc hvalid hencode
      obtain ⟨last, hlast, hvalue⟩ := last_sequence_ok hrange
      have hrange' := hrange
      simp only [validateRange, bind_ok, require_ok, exists_unit] at hrange'
      obtain ⟨hcount, hfirst, -⟩ := hrange'
      have hmem : ∀ index < batch.mutations.length,
          batch.firstSequence.toNat + index ∈ (FieldWalItem.point batch).sequences := by
        intro index hindex
        exact mem_map_of_mem (mem_range.2 hindex)
      refine ⟨by omega, ?_, ?_, fun reader hcatalog hreader hprevious => ?_⟩
      · rw [FieldWalReader.sizeOf, versionOf, hversion, if_pos rfl]
        exact hsized
      · intro sequence hsequence
        have hin := mem_of_mem_head? hsequence
        simp only [FieldWalItem.sequences, mem_map] at hin
        obtain ⟨index, -, rfl⟩ := hin
        have := UInt64.pos_iff_ne_zero.2 hfirst.1
        have hpositive : 0 < batch.firstSequence.toNat := this
        omega
      · refine ⟨last, ?_, ?_⟩
        · rw [FieldWalReader.decode, versionOf, hversion, if_pos rfl]
          simp only [bind_ok, pure_ok]
          refine ⟨batch, ?_, last, hlast, rfl⟩
          rw [hcatalog, hreader]
          refine hdecode _ (hprevious _ ?_)
          simp only [FieldWalItem.sequences, head?_map, head?_range, Option.mem_def]
          rw [if_neg (by omega)]
          rfl
        · rw [hvalue]
          exact hmem _ (by omega)

end

/-! ## A log that is cut anywhere -/

/-- Reading the first bytes of a log, behind what was accepted. -/
theorem drained_prefix (chunk : Nat → Nat) {catalog : FieldCatalog} {crc : Nat}
    (log : List (FieldWalItem × List UInt8))
    (hrecoverable : ∀ item ∈ log, Recoverable catalog crc item.2 item.1)
    (hascending : log.Pairwise fun a b => ∀ sequence ∈ a.1.sequences, ∀ later ∈ b.1.sequences,
      sequence < later)
    {reader : FieldWalReader} (hcatalog : reader.catalog = catalog)
    (hcrc : reader.catalogCrc = crc) (n : Nat)
    (hprevious : ∀ item ∈ log, ∀ sequence ∈ item.1.sequences.head?,
      reader.previousSequence.toNat < sequence)
    (hready : reader.Ready ((log.flatMap (·.2)).take n)) :
    FieldWalReader.Drained chunk reader ((wholeEnvelopes log n).map FieldWalItem.recovered) := by
  induction log generalizing reader n with
  | nil =>
      obtain ⟨rest, hnext⟩ := FieldWalReader.read_next_short chunk hready (by simp)
      exact .stop hnext
  | cons item log ih =>
      obtain ⟨item, bytes⟩ := item
      rw [forall_mem_cons] at hrecoverable hprevious
      rw [pairwise_cons] at hascending
      have hitem := hrecoverable.1
      have hmin := hitem.length_ge
      rw [flatMap_cons] at hready
      rw [wholeEnvelopes]
      by_cases hwhole : bytes.length ≤ n
      · rw [if_pos hwhole, map_cons]
        rw [take_append, take_of_length_le hwhole] at hready
        obtain ⟨last, hdecode, hlast⟩ := hitem.decode reader hcatalog hcrc hprevious.1
        obtain ⟨rest, hnext, hrest, hcatalog', hcrc', hlast'⟩ :=
          FieldWalReader.read_next_whole chunk hready hmin (by rw [hcatalog]; exact hitem.size)
            (by rw [hcatalog]; exact hdecode)
        refine .next hnext (ih hrecoverable.2 hascending.2 (hcatalog'.trans hcatalog)
          (hcrc'.trans hcrc) _ (fun later hlater sequence hsequence => ?_) hrest)
        rw [hlast']
        exact hascending.1 later hlater _ hlast sequence (mem_of_mem_head? hsequence)
      · have hcut : (bytes ++ log.flatMap (·.2)).take n = bytes.take n := by
          rw [take_append, Nat.sub_eq_zero_of_le (by omega), take_zero, append_nil]
        rw [if_neg hwhole]
        rw [hcut] at hready
        have hlength : (bytes.take n).length = n := by
          rw [length_take]
          omega
        by_cases hheader : n < 32
        · obtain ⟨rest, hnext⟩ := FieldWalReader.read_next_short chunk hready (by omega)
          exact .stop hnext
        · have hfront : (bytes.take n).take 32 = bytes.take 32 := by
            rw [take_take, Nat.min_eq_left (by omega)]
          have hcongr := header_congr (denseDimension catalog) hfront (by omega) hmin
          have hsize : FieldWalReader.sizeOf (versionOf (bytes.take n))
              (denseDimension reader.catalog) (bytes.take n) = .ok bytes.length := by
            rw [hcatalog, hcongr.1, hcongr.2]
            exact hitem.size
          obtain ⟨rest, hnext⟩ :=
            FieldWalReader.read_next_torn chunk hready (by omega) hsize (by omega)
          exact .stop hnext

/-- Field-aware prefix decoding is exact: whatever part of a log the file holds and however
reads return it, the reader returns the mutations of the envelopes that lie wholly in it. -/
theorem field_wal_prefix (chunk : Nat → Nat) {catalog : FieldCatalog} {crc : Nat}
    (hfits : CatalogFits catalog) (hcrc : fieldCatalogChecksum catalog = .ok crc)
    (log : List (FieldWalItem × List UInt8))
    (hencoded : ∀ item ∈ log, item.1.encode catalog = .ok item.2)
    (hvalid : ∀ item ∈ log, item.1.Valid)
    (hlegacy : ∀ item ∈ log, ∀ envelope, item.1 = .legacy envelope → item.2.length < 2 ^ 32 ∧
      ∀ sequence ∈ item.1.sequences, sequence ≤ catalog.legacyCutoverSequence)
    (hascending : log.Pairwise fun a b => ∀ sequence ∈ a.1.sequences, ∀ later ∈ b.1.sequences,
      sequence < later) (n : Nat) :
    ∃ reader, FieldWalReader.start ((log.flatMap (·.2)).take n) catalog = .ok reader ∧
      FieldWalReader.Drained chunk reader ((wholeEnvelopes log n).map FieldWalItem.recovered) := by
  have hrecoverable : ∀ item ∈ log, Recoverable catalog crc item.2 item.1 := fun item hitem =>
    recoverable_encode hfits hcrc (hvalid item hitem) (hencoded item hitem) (hlegacy item hitem)
  refine ⟨⟨.start ((log.flatMap (·.2)).take n), catalog, crc, 0, false, false, 0⟩, ?_, ?_⟩
  · simp only [FieldWalReader.start, bind_ok, pure_ok]
    exact ⟨crc, hcrc, rfl⟩
  · exact drained_prefix chunk log hrecoverable hascending rfl rfl n
      (fun item hitem => (hrecoverable item hitem).positive)
      ⟨rfl, rfl, WalReadBuffer.start_holds _, rfl, Nat.zero_le _⟩

/-- A catalog with the two default fields and a binary one, after an old log of two mutations. -/
def sampleCatalog : FieldCatalog where
  formatVersion := 2
  schemaRevision := 1
  legacyCutoverSequence := 2
  fields := [⟨0, "", 0, 0, 1, 1, 1, some (.defaults 1)⟩, ⟨1, "", 1, 0, 0, 2, 0, none⟩,
    ⟨2, "code", 3, 5, 4, 0, 8, none⟩]
  valid := by decide +kernel

/-- A delete of the old format, a batch that sets a field and replaces a payload, and one that
removes a field and deletes a point. -/
def sampleItems : List FieldWalItem :=
  [.legacy (.delete 2 7),
    .point ⟨3, [⟨8, 1, [⟨2, some (.binary 8 [5])⟩], some [⟨"kind", .boolean true⟩]⟩]⟩,
    .point ⟨4, [⟨8, 3, [⟨2, none⟩], none⟩, ⟨9, 2, [], none⟩]⟩]

/-- The items and their bytes. -/
def sampleFieldLog : List (FieldWalItem × List UInt8) :=
  sampleItems.map fun item => (item, ((item.encode sampleCatalog).toOption).getD [])

/-- The log is cut in its last envelope, and every read returns one byte. -/
theorem field_wal_prefix_cut :
    ∃ reader, FieldWalReader.start ((sampleFieldLog.flatMap (·.2)).take 150) sampleCatalog =
        .ok reader ∧
      FieldWalReader.Drained (fun _ => 1) reader [.legacy 2 [.delete 2 7],
        .point ⟨3, [⟨8, 1, [⟨2, some (.binary 8 [5])⟩], some [⟨"kind", .boolean true⟩]⟩]⟩] := by
  have hfits : CatalogFits sampleCatalog := ⟨by decide, by decide⟩
  have hcrc : fieldCatalogChecksum sampleCatalog =
      .ok ((fieldCatalogChecksum sampleCatalog).toOption.getD 0) := by decide +kernel
  have hencoded : ∀ item ∈ sampleFieldLog, item.1.encode sampleCatalog = .ok item.2 := by
    decide +kernel
  have hitems : ∀ item ∈ sampleFieldLog, item.1 ∈ sampleItems := by
    intro item hitem
    obtain ⟨item, hmem, rfl⟩ := mem_map.1 hitem
    exact hmem
  have hvalid : ∀ item ∈ sampleFieldLog, item.1.Valid := by
    intro item hitem
    have hmem := hitems item hitem
    simp only [sampleItems, mem_cons, not_mem_nil, or_false] at hmem
    obtain heq | heq | heq := hmem <;> rw [heq]
    · show WalEnvelope.Valid _
      decide
    · simp only [FieldWalItem.Valid, PointWalBatch.Constructed, mem_cons, not_mem_nil,
        or_false, forall_eq, Option.some.injEq, forall_eq']
      show VectorValue.check _ = .ok ()
      decide
    · simp [FieldWalItem.Valid, PointWalBatch.Constructed]
  have hlegacy : ∀ item ∈ sampleFieldLog, ∀ envelope, item.1 = .legacy envelope →
      item.2.length < 2 ^ 32 ∧ ∀ sequence ∈ item.1.sequences, sequence ≤ 2 := by
    have hlengths : ∀ item ∈ sampleFieldLog, item.2.length < 2 ^ 32 := by decide +kernel
    intro item hitem envelope henvelope
    refine ⟨hlengths item hitem, ?_⟩
    have hmem := hitems item hitem
    rw [henvelope] at hmem ⊢
    simp only [sampleItems, mem_cons, not_mem_nil, or_false, reduceCtorEq,
      FieldWalItem.legacy.injEq] at hmem
    rw [hmem]
    decide
  have hascending : sampleFieldLog.Pairwise fun a b => ∀ sequence ∈ a.1.sequences,
      ∀ later ∈ b.1.sequences, sequence < later := by decide +kernel
  have hwhole : (wholeEnvelopes sampleFieldLog 150).map FieldWalItem.recovered =
      [.legacy 2 [.delete 2 7],
        .point ⟨3, [⟨8, 1, [⟨2, some (.binary 8 [5])⟩], some [⟨"kind", .boolean true⟩]⟩]⟩] := by
    decide +kernel
  rw [← hwhole]
  exact field_wal_prefix (fun _ => 1) hfits hcrc sampleFieldLog hencoded hvalid hlegacy
    hascending 150

end Akasha.Storage

import Akasha.Distributed.FloatText
import Akasha.Distributed.Journal

/-!
# The journal file byte by byte

`ReplicaJournal` over the bytes of its file: the envelope of a line with its checksum, the split
into lines, the torn-tail repair of `_load`, and the three calls that append. The file of the other
modules, a list of records and a torn flag, is what these bytes stand for: a line reads back as the
record it was written from, with the keys of the mutation sorted.

The main theorem is `crash_round_trip`: wherever a crash cuts the file, loading it gives the maps
after the calls whose lines are complete, and cuts the file to those lines.
-/

namespace Akasha.Distributed

open Lib List ReplicaJournal

/-! ## The format of a line -/

/-- `PROTOCOL_VERSION`, which every written line carries. -/
def protocolVersion : Int := 2

/-- `LEGACY_PROTOCOL_VERSION`, which is still read. -/
def legacyProtocolVersion : Int := 1

/-- `type(value) is dict`. -/
def Json.isObj : Json → Bool
  | .obj _ => true
  | _ => false

section

variable [FloatRepr]

/-- `checked_envelope`. -/
def checkedEnvelope (payload : Json) : Json :=
  .obj [("version", .int protocolVersion), ("payload", payload),
    ("checksum", .int (checksumOf payload))]

/-- `_decode_envelope_versioned`. -/
def decodeEnvelopeVersioned (value : Json) : Except Error (Int × Json) := do
  require (value.hasKeys ["version", "payload", "checksum"])
    (.protocol "distributed envelope fields mismatch")
  let version ← exactInt "distributed format version" (field value "version")
  require (version = legacyProtocolVersion ∨ version = protocolVersion)
    (.protocol "unsupported distributed format version")
  require (field value "payload").isObj
    (.protocol "distributed envelope payload must be an object")
  let checksum ← exactInt "distributed envelope checksum" (field value "checksum")
  require (checksum = checksumOf (field value "payload"))
    (.protocol "distributed envelope checksum mismatch")
  pure (version, field value "payload")

/-- `asdict(entry)`. -/
def ReplicatedEntry.asDict (entry : ReplicatedEntry) : Json :=
  .obj [("shard_id", .int entry.shardId), ("term", .int entry.term),
    ("placement_epoch", .int entry.placementEpoch), ("index", .int entry.index),
    ("request_id", .str entry.requestId), ("mutation", entry.mutation),
    ("mutation_checksum", .int entry.mutationChecksum)]

/-- `REPLICATED_ENTRY_FIELDS`. -/
def replicatedEntryFields : List String :=
  ["shard_id", "term", "placement_epoch", "index", "request_id", "mutation", "mutation_checksum"]

/-- `value["request_id"]`, or the empty string where it is none. -/
def requestIdOf : Json → String
  | .str text => text
  | _ => ""

/-- `ReplicatedEntry.from_dict`. The checks of `validate` stand here over the integers of the
`dict`, which may still be negative. -/
def ReplicatedEntry.fromDict (value : Json) : Except Error ReplicatedEntry := do
  require (value.hasKeys replicatedEntryFields) (.protocol "replicated entry fields mismatch")
  require (field value "mutation").isObj (.protocol "replicated mutation must be an object")
  let shardId ← exactInt "replicated shard_id" (field value "shard_id")
  let term ← exactInt "replicated term" (field value "term")
  let placementEpoch ← exactInt "replicated placement_epoch" (field value "placement_epoch")
  let index ← exactInt "replicated index" (field value "index")
  let checksum ← exactInt "replicated mutation_checksum" (field value "mutation_checksum")
  require (0 ≤ shardId ∧ 0 < term ∧ 0 < placementEpoch)
    (.protocol "invalid replicated entry epoch")
  require (0 < index ∧ requestIdOf (field value "request_id") ≠ "")
    (.protocol "invalid replicated entry identity")
  validateReplicatedMutation (field value "mutation") none
  require (checksum = checksumOf (field value "mutation"))
    (.protocol "replicated mutation checksum mismatch")
  pure ⟨shardId.toNat, term.toNat, placementEpoch.toNat, index.toNat,
    requestIdOf (field value "request_id"), field value "mutation", checksum.toNat⟩

/-- The payload of a line. -/
def JournalRecord.payload : JournalRecord → Json
  | .prepare entry => .obj [("kind", .str "prepare"), ("entry", entry.asDict)]
  | .commit index => .obj [("kind", .str "commit"), ("index", .int index)]
  | .snapshot index => .obj [("kind", .str "snapshot"), ("index", .int index)]

/-- The record of a payload, as `_load` takes it apart. A commit marker below zero has no prepared
entry, and a snapshot below zero does not move the largest one. -/
def recordOfPayload (payload : Json) : Except Error JournalRecord :=
  match payload.get? "kind" with
  | some (.str "prepare") => do
      require (payload.hasKeys ["kind", "entry"])
        (.protocol "replica journal prepare fields mismatch")
      let entry ← ReplicatedEntry.fromDict (field payload "entry")
      pure (.prepare entry)
  | some (.str "commit") => do
      require (payload.hasKeys ["kind", "index"])
        (.protocol "replica journal commit fields mismatch")
      let index ← exactInt "replica commit index" (field payload "index")
      require (0 ≤ index) (.protocol "commit marker has no prepared entry")
      pure (.commit index.toNat)
  | some (.str "snapshot") => do
      require (payload.hasKeys ["kind", "index"])
        (.protocol "replica journal snapshot fields mismatch")
      let index ← exactInt "replica snapshot index" (field payload "index")
      pure (.snapshot index.toNat)
  | _ => throw (.protocol "unknown replica journal record")

/-- The line that `_append` writes for a payload, without its line feed. -/
def recordText (record : JournalRecord) : List UInt8 :=
  canonicalBytes (checkedEnvelope record.payload)

end

section

variable [FloatText]

/-- One line of the file as a record. `UnicodeDecodeError` and the `ValueError` of a long integer
are not caught. -/
def recordOfLine (line : List UInt8) : Except Error JournalRecord :=
  match loads line with
  | .error .decode => throw (.protocol "replica journal corruption")
  | .error .unicode => throw (.runtime "UnicodeDecodeError")
  | .error .digits => throw (.runtime "ValueError")
  | .ok value =>
      match decodeEnvelopeVersioned value with
      | .error _ => throw (.protocol "replica journal corruption")
      | .ok (_, payload) => recordOfPayload payload

/-- The body of the loop of `_load`. -/
def ReplicaJournal.loadLine (journal : ReplicaJournal) (line : List UInt8) :
    Except Error ReplicaJournal :=
  if line = [] then pure journal
  else do
    let record ← recordOfLine line
    journal.loadRecord record

/-- The loop of `_load` over the lines of the file. -/
def loadText : ReplicaJournal → List (List UInt8) → Except Error ReplicaJournal
  | journal, [] => pure journal
  | journal, line :: lines => do
      let next ← journal.loadLine line
      loadText next lines

end

/-- `bytes.splitlines`, after the bytes of a line begun. -/
def splitLinesFrom : List UInt8 → List UInt8 → List (List UInt8)
  | current, [] => if current = [] then [] else [current]
  | current, 13 :: 10 :: rest => current :: splitLinesFrom [] rest
  | current, byte :: rest =>
      if byte = 10 ∨ byte = 13 then current :: splitLinesFrom [] rest
      else splitLinesFrom (current ++ [byte]) rest

/-- `bytes.splitlines`. -/
def splitLines (data : List UInt8) : List (List UInt8) := splitLinesFrom [] data

/-- `data[:complete_size]`: up to the last line feed where the file does not end with one. -/
def completeLines (data : List UInt8) : List UInt8 :=
  if data ≠ [] ∧ data.getLast? ≠ some 10 then data.rdropWhile (· ≠ 10) else data

/-- `ReplicaJournal` with its file. A file that does not exist reads as an empty one. -/
structure JournalOnDisk where
  journal : ReplicaJournal
  file : List UInt8

/-- `ReplicaJournal(path)`: load the complete lines, and cut a torn one off the file. -/
def openJournal [FloatText] (data : List UInt8) : Except Error JournalOnDisk := do
  let journal ← loadText .empty (splitLines (completeLines data))
  pure ⟨journal, completeLines data⟩

/-! ## The calls -/

/-- A call of a method that appends. -/
inductive JournalCall where
  | prepare (entry : ReplicatedEntry)
  | commit (index : Int)
  | installSnapshot (index : Int)

/-- What a call does once its checks have passed: append a line, or nothing where the journal has
it already. -/
def JournalCall.check [FloatRepr] (journal : ReplicaJournal) :
    JournalCall → Except Error (Option JournalRecord)
  | .prepare entry => do
      entry.validate
      match journal.prepared[entry.index]? with
      | some existing => do
          require (existing.mutationChecksum = entry.mutationChecksum)
            (.protocol "conflicting duplicate replicated entry")
          pure none
      | none => pure (some (.prepare entry))
  | .commit index => do
      require (0 ≤ index ∧ index.toNat ∈ journal.prepared)
        (.protocol "cannot commit an unprepared entry")
      if index.toNat ∈ journal.committed then pure none
      else pure (some (.commit index.toNat))
  | .installSnapshot index => do
      require ((journal.snapshotIndex : Int) ≤ index) (.protocol "snapshot index regression")
      pure (some (.snapshot index.toNat))

/-- The change of the maps after the line is written. -/
def ReplicaJournal.record (journal : ReplicaJournal) : JournalRecord → ReplicaJournal
  | .prepare entry => journal.addPrepared entry
  | .commit index => journal.addCommitted index
  | .snapshot index => { journal with snapshotIndex := index }

section

variable [FloatRepr]

/-- The whole line of a record. -/
def recordLine (record : JournalRecord) : List UInt8 := recordText record ++ [10]

/-- A call that returns. -/
def JournalCall.run (call : JournalCall) (disk : JournalOnDisk) : Except Error JournalOnDisk := do
  let record ← call.check disk.journal
  match record with
  | none => pure disk
  | some record => pure ⟨disk.journal.record record, disk.file ++ recordLine record⟩

/-- Calls one after another, all of which return. -/
def runCalls : List JournalCall → JournalOnDisk → Except Error JournalOnDisk
  | [], disk => pure disk
  | call :: calls, disk => do
      let next ← call.run disk
      runCalls calls next

end

/-! ## Validators do not see the order of keys -/

theorem lookup_perm {first second : List (String × Json)} (hperm : first.Perm second)
    (hnodup : (first.map (·.1)).Nodup) (name : String) :
    first.lookup name = second.lookup name := by
  induction hperm with
  | nil => rfl
  | cons item _ ih =>
      rw [lookup_cons, lookup_cons, ih (nodup_cons.1 hnodup).2]
  | swap item other rest =>
      obtain ⟨key, value⟩ := item
      obtain ⟨otherKey, otherValue⟩ := other
      have hne : key ≠ otherKey := by
        rintro rfl
        simp at hnodup
      simp only [lookup_cons]
      grind
  | trans hfirst _ ihfirst ihsecond =>
      rw [ihfirst hnodup, ihsecond ((hfirst.map _).nodup_iff.1 hnodup)]

theorem lookup_sorted_fields (fields : List (String × Json)) (name : String) :
    (sortedFields fields).lookup name = (fields.lookup name).map Json.canonical := by
  induction fields with
  | nil => rfl
  | cons item fields ih =>
      obtain ⟨key, value⟩ := item
      rw [sortedFields, lookup_cons, lookup_cons, ih]
      split <;> rfl

variable {value : Json}

theorem get_canonical (h : value.representable = true) (name : String) :
    value.canonical.get? name = (value.get? name).map Json.canonical := by
  cases value with
  | obj fields =>
      rw [Json.representable, Bool.and_eq_true, decide_eq_true_eq] at h
      have hperm := perm_insertionSort (fun a b : String × Json => a.1 ≤ b.1)
        (sortedFields fields)
      have hnames : (sortedFields fields).map (·.1) = fields.map (·.1) := by
        rw [sorted_fields_eq, map_map]
        rfl
      rw [Json.canonical, Json.get?, Json.get?,
        lookup_perm hperm ((hperm.map _).nodup_iff.2 (hnames ▸ h.1)), lookup_sorted_fields]
  | _ => rfl

theorem field_canonical (h : value.representable = true) (name : String) :
    field value.canonical name = (field value name).canonical := by
  rw [field, field, get_canonical h]
  cases value.get? name <;> rfl

theorem has_keys_canonical (value : Json) (names : List String) :
    value.canonical.hasKeys names = value.hasKeys names := by
  cases value with
  | obj fields =>
      have hperm := perm_insertionSort (fun a b : String × Json => a.1 ≤ b.1)
        (sortedFields fields)
      have hany : ∀ name, (∃ item ∈ sortedFields fields, item.1 = name) ↔
          ∃ item ∈ fields, item.1 = name := by
        simp [sorted_fields_eq]
      have hall : (∀ item ∈ sortedFields fields, item.1 ∈ names) ↔
          ∀ item ∈ fields, item.1 ∈ names := by
        rw [sorted_fields_eq, forall_mem_map]
      rw [Bool.eq_iff_iff]
      have hlength := hperm.length_eq.trans (by rw [sorted_fields_eq, length_map])
      simp only [Json.canonical, Json.hasKeys, Bool.and_eq_true, all_eq_true, hlength,
        decide_eq_true_eq, any_eq_true, beq_iff_eq, hperm.mem_iff, hany, hall]
  | _ => rfl

theorem representable_get {value item : Json} {name : String} (h : value.representable = true)
    (hget : value.get? name = some item) : item.representable = true := by
  cases value with
  | obj fields =>
      rw [Json.representable, Bool.and_eq_true] at h
      obtain ⟨before, after, rfl, -⟩ := lookup_eq_some_iff.1 hget
      exact (representable_fields_iff _).1 h.2 (name, item) (by simp)
  | _ => cases hget

theorem representable_field (h : value.representable = true) (name : String) :
    (field value name).representable = true := by
  rw [field]
  cases hget : value.get? name with
  | none => rfl
  | some item => exact representable_get h hget

@[simp] theorem exact_int_canonical (name : String) (value : Json) :
    exactInt name value.canonical = exactInt name value := by
  cases value <;> rfl

@[simp] theorem exact_str_canonical (e : Error) (value : Json) :
    exactStr e value.canonical = exactStr e value := by
  cases value <;> rfl

@[simp] theorem finite_number_canonical (value : Json) :
    finiteNumber value.canonical = finiteNumber value := by
  cases value <;> rfl

@[simp] theorem is_str_canonical (value : Json) : value.canonical.isStr = value.isStr := by
  cases value <;> rfl

@[simp] theorem is_int_canonical (value : Json) : value.canonical.isInt = value.isInt := by
  cases value <;> rfl

@[simp] theorem is_bool_canonical (value : Json) : value.canonical.isBool = value.isBool := by
  cases value <;> rfl

theorem exact_list_canonical (e : Error) (value : Json) :
    exactList e value.canonical = (exactList e value).map (·.map Json.canonical) := by
  cases value with
  | arr items => rw [Json.canonical, sorted_items_eq]; rfl
  | _ => rfl

theorem payload_value_typed_canonical (kind : String) (value : Json) :
    payloadValueTyped kind value.canonical = payloadValueTyped kind value := by
  simp only [payloadValueTyped, is_str_canonical, is_int_canonical, is_bool_canonical,
    finite_number_canonical]

theorem validate_payload_item_canonical {item : Json} (h : item.representable = true)
    (names : List String) :
    validatePayloadItem names item.canonical = validatePayloadItem names item := by
  simp only [validatePayloadItem, has_keys_canonical, field_canonical h, exact_str_canonical,
    payload_value_typed_canonical]

theorem validate_payload_canonical {items : List Json}
    (h : ∀ item ∈ items, item.representable = true) (names : List String) :
    validatePayload names (items.map Json.canonical) = validatePayload names items := by
  induction items generalizing names with
  | nil => rfl
  | cons item items ih =>
      simp only [map_cons, validatePayload,
        validate_payload_item_canonical (h item (by simp)),
        ih fun other hother => h other (by simp [hother])]

theorem validate_sparse_item_canonical {item : Json} (h : item.representable = true)
    (terms : List Int) :
    validateSparseItem terms item.canonical = validateSparseItem terms item := by
  simp only [validateSparseItem, has_keys_canonical, field_canonical h, exact_int_canonical,
    finite_number_canonical]

theorem validate_sparse_items_canonical {items : List Json}
    (h : ∀ item ∈ items, item.representable = true) (terms : List Int) :
    validateSparseItems terms (items.map Json.canonical) = validateSparseItems terms items := by
  induction items generalizing terms with
  | nil => rfl
  | cons item items ih =>
      simp only [map_cons, validateSparseItems,
        validate_sparse_item_canonical (h item (by simp)),
        ih fun other hother => h other (by simp [hother])]

theorem exact_list_bind {β : Type} {e : Error} (h : value.representable = true)
    {first second : List Json → Except Error β}
    (hsame : ∀ items : List Json, (∀ item ∈ items, item.representable = true) →
      first (items.map Json.canonical) = second items) :
    (exactList e value.canonical >>= first) = (exactList e value >>= second) := by
  rw [exact_list_canonical]
  cases value with
  | arr items =>
      rw [Json.representable, representable_items_iff] at h
      exact hsame items h
  | _ => rfl

theorem validate_upsert_canonical {mutation : Json} (h : mutation.representable = true)
    (dimension : Option Nat) :
    validateUpsert mutation.canonical dimension = validateUpsert mutation dimension := by
  have hsparse (e : Error) :
      (exactList e (field mutation "sparse").canonical >>= validateSparseItems []) =
        (exactList e (field mutation "sparse") >>= validateSparseItems []) :=
    exact_list_bind (representable_field h _) fun _ hitems =>
      validate_sparse_items_canonical hitems []
  simp only [validateUpsert, field_canonical h, hsparse]
  apply exact_list_bind (representable_field h _)
  intro vector hvector
  have hne : vector.map Json.canonical ≠ [] ↔ vector ≠ [] := by simp
  have hfinite : (∀ value ∈ vector.map Json.canonical, finiteNumber value = true) ↔
      ∀ value ∈ vector, finiteNumber value = true := by
    simp
  simp only [hne, hfinite, length_map]
  -- Only the payload is left, behind the checks of the vector.
  refine bind_congr fun _ => bind_congr fun _ => bind_congr fun _ => ?_
  apply exact_list_bind (representable_field h _)
  intro payload hpayload
  rw [validate_payload_canonical hpayload]

theorem validate_mutation_canonical {mutation : Json} (h : mutation.representable = true)
    (dimension : Option Nat) :
    validateReplicatedMutation mutation.canonical dimension =
      validateReplicatedMutation mutation dimension := by
  simp only [validateReplicatedMutation, get_canonical h, has_keys_canonical, field_canonical h,
    exact_int_canonical, validate_upsert_canonical h]
  cases mutation.get? "operation" with
  | none => rfl
  | some operation => cases operation <;> rfl

/-! ## A line reads back -/

/-- An entry with the keys of its mutation sorted. -/
def ReplicatedEntry.canonical (entry : ReplicatedEntry) : ReplicatedEntry :=
  { entry with mutation := entry.mutation.canonical }

/-- A record with the keys of its mutation sorted. -/
def JournalRecord.canonical : JournalRecord → JournalRecord
  | .prepare entry => .prepare entry.canonical
  | record => record

theorem is_obj_of_validate {mutation : Json} {dimension : Option Nat} {u : Unit}
    (h : validateReplicatedMutation mutation dimension = .ok u) : mutation.isObj = true := by
  cases mutation with
  | obj fields => rfl
  | _ => cases h

@[simp] theorem is_obj_canonical (value : Json) : value.canonical.isObj = value.isObj := by
  cases value <;> rfl

theorem payload_is_obj (record : JournalRecord) : ∃ fields, record.payload = .obj fields := by
  cases record <;> exact ⟨_, rfl⟩

variable {record : JournalRecord}

section

variable [FloatRepr]

theorem representable_checksum (value : Json) :
    (Json.int (checksumOf value)).representable = true := by
  apply decide_eq_true
  have hlt : checksumOf value < 2 ^ 32 := by
    rw [checksumOf]
    exact UInt32.toNat_lt _
  refine (Nat.length_toDigits_le_iff (by norm_num) (by unfold maxIntDigits; norm_num)).2 ?_
  calc (checksumOf value : Int).natAbs = checksumOf value := rfl
    _ < 10 ^ 10 := by omega
    _ ≤ 10 ^ maxIntDigits := Nat.pow_le_pow_right (by norm_num) (by unfold maxIntDigits; norm_num)

theorem representable_envelope {payload : Json} (h : payload.representable = true) :
    (checkedEnvelope payload).representable = true := by
  have hversion : (Json.int protocolVersion).representable = true := by decide
  rw [checkedEnvelope, Json.representable, representableFields, representableFields,
    representableFields, representableFields, hversion, h, representable_checksum]
  simp

theorem decode_envelope_checked {fields : List (String × Json)}
    (h : (Json.obj fields).representable = true) :
    decodeEnvelopeVersioned (checkedEnvelope (.obj fields)).canonical =
      .ok (protocolVersion, (Json.obj fields).canonical) := by
  have henvelope := representable_envelope h
  simp only [decodeEnvelopeVersioned, has_keys_canonical, field_canonical henvelope]
  have hversion : field (checkedEnvelope (.obj fields)) "version" = .int protocolVersion := rfl
  have hpayload : field (checkedEnvelope (.obj fields)) "payload" = .obj fields := rfl
  have hchecksum : field (checkedEnvelope (.obj fields)) "checksum" =
    .int (checksumOf (.obj fields)) := rfl
  have hkeys : (checkedEnvelope (.obj fields)).hasKeys ["version", "payload", "checksum"] = true :=
    rfl
  rw [hversion, hpayload, hchecksum, payload_checksum_canonical, hkeys]
  simp [bind_ok, require, exactInt, Json.canonical, Json.isObj]

/-- A validated entry comes back from its `dict`. -/
theorem from_dict_as_dict {entry : ReplicatedEntry} (h : entry.asDict.representable = true)
    (hvalid : entry.validate = .ok ()) :
    ReplicatedEntry.fromDict entry.asDict.canonical = .ok entry.canonical := by
  simp only [ReplicatedEntry.validate, bind_ok, require_ok, exists_unit] at hvalid
  obtain ⟨⟨hterm, hepoch⟩, ⟨hindex, hrequest⟩, hmutation, hchecksum⟩ := hvalid
  have hobj : entry.mutation.canonical.isObj = true := by
    rw [is_obj_canonical]
    exact is_obj_of_validate hmutation
  simp only [ReplicatedEntry.fromDict, has_keys_canonical, field_canonical h]
  have hfield : field entry.asDict "mutation" = entry.mutation := rfl
  have hrepresentable : entry.mutation.representable = true := hfield ▸ representable_field h _
  simp only [show field entry.asDict "shard_id" = .int entry.shardId from rfl,
    show field entry.asDict "term" = .int entry.term from rfl,
    show field entry.asDict "placement_epoch" = .int entry.placementEpoch from rfl,
    show field entry.asDict "index" = .int entry.index from rfl,
    show field entry.asDict "request_id" = .str entry.requestId from rfl,
    show field entry.asDict "mutation_checksum" = .int entry.mutationChecksum from rfl,
    show entry.asDict.hasKeys replicatedEntryFields = true from rfl,
    hfield, exact_int_canonical, payload_checksum_canonical,
    validate_mutation_canonical hrepresentable, hmutation, ← hchecksum]
  simp [bind_ok, require, exactInt, Json.canonical, requestIdOf, hobj, hterm, hepoch,
    hindex, hrequest, ReplicatedEntry.canonical]

/-- The record may be written: its payload is representable, and its entry valid. -/
def JournalRecord.Writable (record : JournalRecord) : Prop :=
  record.payload.representable = true ∧
    ∀ entry, record = .prepare entry → entry.validate = .ok ()

/-- The payload of a record reads back. -/
theorem record_of_payload (h : record.Writable) :
    recordOfPayload record.payload.canonical = .ok record.canonical := by
  obtain ⟨hpayload, hvalid⟩ := h
  simp only [recordOfPayload, get_canonical hpayload, has_keys_canonical, field_canonical hpayload]
  cases record with
  | prepare entry =>
      have hentry : entry.asDict.representable = true := representable_field hpayload "entry"
      have hfield : field (JournalRecord.prepare entry).payload "entry" = entry.asDict := rfl
      have hkeys : (JournalRecord.prepare entry).payload.hasKeys ["kind", "entry"] = true := rfl
      rw [hfield, hkeys, from_dict_as_dict hentry (hvalid entry rfl)]
      rfl
  | commit index =>
      have hfield : field (JournalRecord.commit index).payload "index" = .int index := rfl
      have hkeys : (JournalRecord.commit index).payload.hasKeys ["kind", "index"] = true := rfl
      rw [hfield, hkeys]
      simp [JournalRecord.payload, Json.get?, Json.canonical, bind_ok, require, exactInt,
        JournalRecord.canonical]
  | snapshot index =>
      have hfield : field (JournalRecord.snapshot index).payload "index" = .int index := rfl
      have hkeys : (JournalRecord.snapshot index).payload.hasKeys ["kind", "index"] = true := rfl
      rw [hfield, hkeys]
      simp [JournalRecord.payload, Json.get?, Json.canonical, require, exactInt,
        JournalRecord.canonical]

end

section

variable [LawfulFloatText]

theorem record_of_line (h : record.Writable) :
    recordOfLine (recordText record) = .ok record.canonical := by
  obtain ⟨fields, hfields⟩ := payload_is_obj record
  have henvelope := representable_envelope h.1
  have hdecode := decode_envelope_checked (hfields ▸ h.1)
  rw [← hfields] at hdecode
  rw [recordOfLine, recordText, loads_canonical_bytes henvelope]
  simp only [hdecode, record_of_payload h]

theorem unbroken_record_text (h : record.Writable) :
    Unbroken (recordText record) :=
  unbroken_canonical_bytes (representable_envelope h.1)

theorem record_text_ne_nil (record : JournalRecord) : recordText record ≠ [] := by
  simp [recordText, checkedEnvelope, canonicalBytes]

end

/-! ## Lines -/

theorem split_lines_from_line {line : List UInt8} (h : Unbroken line) (current rest : List UInt8) :
    splitLinesFrom current (line ++ 10 :: rest) = (current ++ line) :: splitLinesFrom [] rest := by
  induction line generalizing current with
  | nil => simp [splitLinesFrom]
  | cons byte line ih =>
      have hbyte := h byte (by simp)
      have hrest := ih (fun other hother => h other (by simp [hother])) (current ++ [byte])
      rw [cons_append, splitLinesFrom]
      · rw [if_neg (by simpa using hbyte), hrest]
        simp
      · rintro _ rfl
        exact absurd rfl hbyte.2

/-- A file that ends with a line feed, or is empty. -/
def EndsLine (file : List UInt8) : Prop := file = [] ∨ file.getLast? = some 10

variable {file : List UInt8}

theorem EndsLine.tail {byte : UInt8} (h : EndsLine (byte :: file)) :
    EndsLine file ∧ (file = [] → byte = 10) := by
  rcases h with h | h
  · cases h
  · cases file with
    | nil => exact ⟨.inl rfl, fun _ => by simpa using h⟩
    | cons next file => exact ⟨.inr (by simpa [getLast?_cons_cons] using h), by simp⟩

theorem split_lines_from_cons (current : List UInt8) (byte : UInt8) (rest : List UInt8)
    (h : ¬ (byte = 13 ∧ rest.head? = some 10)) :
    splitLinesFrom current (byte :: rest) =
      if byte = 10 ∨ byte = 13 then current :: splitLinesFrom [] rest
      else splitLinesFrom (current ++ [byte]) rest := by
  rw [splitLinesFrom]
  rintro tail rfl rfl
  simp at h

/-- Text after a complete file is split on its own. -/
theorem split_lines_from_append (h : EndsLine file) (current rest : List UInt8)
    (hcurrent : file = [] → current = []) :
    splitLinesFrom current (file ++ rest) = splitLinesFrom current file ++ splitLines rest := by
  induction file using twoStepInduction generalizing current with
  | nil => simp [hcurrent rfl, splitLinesFrom, splitLines]
  | singleton byte =>
      obtain rfl := h.tail.2 rfl
      simp [splitLinesFrom, splitLines]
  | cons_cons byte next file ih ihnext =>
      obtain ⟨hnext, -⟩ := h.tail
      by_cases hpair : byte = 13 ∧ next = 10
      · obtain ⟨rfl, rfl⟩ := hpair
        simp only [cons_append, splitLinesFrom]
        rw [ih hnext.tail.1 [] fun _ => rfl]
      · have hfile := split_lines_from_cons current byte (next :: file) (by simpa using hpair)
        have happend := split_lines_from_cons current byte (next :: file ++ rest)
          (by simpa using hpair)
        rw [cons_append, happend, hfile]
        split
        · rw [ihnext next hnext [] fun _ => rfl, cons_append]
        · exact ihnext next hnext _ (by simp)

theorem complete_lines_of_ends (h : EndsLine file) :
    completeLines file = file := by
  rw [completeLines, if_neg]
  rintro ⟨hne, hlast⟩
  rcases h with rfl | h
  · exact hne rfl
  · exact hlast h

/-- What follows the last line feed is cut off. -/
theorem complete_lines_append {file torn : List UInt8} (hfile : EndsLine file)
    (htorn : ∀ byte ∈ torn, byte ≠ 10) : completeLines (file ++ torn) = file := by
  have hdrop : (file ++ torn).rdropWhile (· ≠ 10) = file := by
    induction torn using reverseRecOn with
    | nil =>
        rw [append_nil]
        rcases hfile with rfl | hlast
        · rfl
        · rw [rdropWhile_eq_self_iff]
          intro hne
          rw [getLast?_eq_some_getLast hne] at hlast
          simp [Option.some.inj hlast]
    | append_singleton torn byte ih =>
        have hbyte : decide (byte ≠ 10) = true := by simpa using htorn byte (by simp)
        rw [← append_assoc,
          rdropWhile_concat_pos (fun byte : UInt8 => decide (byte ≠ 10)) _ _ hbyte]
        exact ih fun other hother => htorn other (by simp [hother])
  rcases eq_nil_or_concat torn with rfl | ⟨front, byte, rfl⟩
  · rw [append_nil]
    exact complete_lines_of_ends hfile
  · rw [completeLines, if_pos, hdrop]
    exact ⟨by simp, by simpa using htorn byte (by simp)⟩

theorem ends_line_complete (data : List UInt8) : EndsLine (completeLines data) := by
  unfold completeLines
  split
  · by_cases hnil : data.rdropWhile (· ≠ 10) = []
    · exact .inl hnil
    · refine .inr ?_
      rw [getLast?_eq_some_getLast hnil]
      have hlast := rdropWhile_last_not (fun byte : UInt8 => decide (byte ≠ 10)) data hnil
      simpa using hlast
  · next h =>
      by_cases hnil : data = []
      · exact .inl hnil
      · exact .inr (by simpa [hnil] using h)

variable {disk : JournalOnDisk}

section

variable [FloatText]

theorem load_text_append (journal : ReplicaJournal) (first second : List (List UInt8)) :
    loadText journal (first ++ second) =
      (loadText journal first >>= fun next => loadText next second) := by
  induction first generalizing journal with
  | nil => rfl
  | cons line lines ih =>
      simp only [cons_append, loadText]
      cases journal.loadLine line with
      | error e => rfl
      | ok next => exact ih next

theorem open_torn {file torn : List UInt8} (h : EndsLine file)
    (htorn : ∀ byte ∈ torn, byte ≠ 10) : openJournal (file ++ torn) = openJournal file := by
  rw [openJournal, openJournal, complete_lines_append h htorn, complete_lines_of_ends h]

theorem open_journal_ok {data : List UInt8} :
    openJournal data = .ok disk ↔
      loadText .empty (splitLines (completeLines data)) = .ok disk.journal ∧
        disk.file = completeLines data := by
  simp only [openJournal, bind_ok, pure_ok]
  constructor
  · rintro ⟨journal, hload, rfl⟩
    exact ⟨hload, rfl⟩
  · rintro ⟨hload, hfile⟩
    exact ⟨disk.journal, hload, by rw [← hfile]⟩

end

section

variable [LawfulFloatText]

theorem open_append {next : ReplicaJournal} (hopen : openJournal file = .ok disk)
    (hfile : EndsLine file) (h : record.Writable)
    (hnext : disk.journal.loadRecord record.canonical = .ok next) :
    openJournal (file ++ recordLine record) = .ok ⟨next, file ++ recordLine record⟩ := by
  have hends : EndsLine (file ++ recordLine record) := .inr (by simp [recordLine])
  rw [open_journal_ok, complete_lines_of_ends hfile] at hopen
  rw [open_journal_ok, complete_lines_of_ends hends]
  refine ⟨?_, rfl⟩
  have hsplit : splitLines (file ++ recordLine record) =
      splitLines file ++ [recordText record] := by
    rw [splitLines, split_lines_from_append hfile [] _ fun _ => rfl, recordLine]
    rw [splitLines, split_lines_from_line (unbroken_record_text h) [] []]
    rfl
  rw [hsplit, load_text_append, hopen.1]
  change (disk.journal.loadLine (recordText record) >>= fun next => pure next) = _
  rw [bind_pure, loadLine, if_neg (record_text_ne_nil record), record_of_line h]
  exact hnext

end

/-! ## Calls and the file they leave -/

/-- The values a call writes are representable. -/
def JournalCall.representable : JournalCall → Bool
  | .prepare entry => entry.asDict.representable
  | .commit index => (Json.int index).representable
  | .installSnapshot index => (Json.int index).representable

/-- The same maps: `==` of Python does not see the order of keys, and a set has no order. -/
structure ReplicaJournal.Same (first second : ReplicaJournal) : Prop where
  prepared : ∀ index : Nat, first.prepared[index]?.map ReplicatedEntry.canonical =
    second.prepared[index]?.map ReplicatedEntry.canonical
  committed : ∀ index, index ∈ first.committed ↔ index ∈ second.committed
  snapshotIndex : first.snapshotIndex = second.snapshotIndex

@[simp] theorem ReplicatedEntry.canonical_canonical (entry : ReplicatedEntry) :
    entry.canonical.canonical = entry.canonical := by
  unfold canonical
  rw [Akasha.Distributed.canonical_canonical]

theorem ReplicaJournal.Same.mem_prepared {first second : ReplicaJournal}
    (h : first.Same second) (index : Nat) : index ∈ first.prepared ↔ index ∈ second.prepared := by
  have hprepared := congrArg Option.isSome (h.prepared index)
  rw [Option.isSome_map, Option.isSome_map] at hprepared
  rw [Std.ExtTreeMap.mem_iff_isSome_getElem?, Std.ExtTreeMap.mem_iff_isSome_getElem?, hprepared]

variable {call : JournalCall}

section

variable [FloatRepr]

theorem validate_canonical {entry : ReplicatedEntry} (h : entry.mutation.representable = true) :
    entry.canonical.validate = entry.validate := by
  unfold ReplicatedEntry.validate ReplicatedEntry.canonical
  rw [validate_mutation_canonical h]
  simp only [payload_checksum_canonical]

/-- What a call does when it returns with a line written. -/
theorem check_some {journal : ReplicaJournal} (h : call.check journal = .ok (some record)) :
    (∃ entry, call = .prepare entry ∧ record = .prepare entry ∧ entry.validate = .ok () ∧
        journal.prepared[entry.index]? = none) ∨
      (∃ index : Nat, call = .commit index ∧ record = .commit index ∧ index ∈ journal.prepared) ∨
      ∃ index : Nat, call = .installSnapshot index ∧ record = .snapshot index ∧
        journal.snapshotIndex ≤ index := by
  cases call with
  | prepare entry =>
      simp only [JournalCall.check, bind_ok, exists_unit] at h
      obtain ⟨hvalid, h⟩ := h
      split at h
      · obtain ⟨-, -, h⟩ := bind_ok.1 h
        cases h
      · next hnone =>
          simp only [pure_ok, Option.some.injEq] at h
          exact .inl ⟨entry, rfl, h.symm, hvalid, hnone⟩
  | commit index =>
      simp only [JournalCall.check, bind_ok, require_ok, exists_unit] at h
      obtain ⟨⟨hnonneg, hprepared⟩, h⟩ := h
      obtain ⟨index, rfl⟩ := Int.eq_ofNat_of_zero_le hnonneg
      split at h
      · simp [pure_ok] at h
      · simp only [pure_ok, Option.some.injEq] at h
        exact .inr (.inl ⟨index, rfl, h.symm, hprepared⟩)
  | installSnapshot index =>
      simp only [JournalCall.check, bind_ok, require_ok, exists_unit, pure_ok,
        Option.some.injEq] at h
      obtain ⟨hle, rfl⟩ := h
      obtain ⟨index, rfl⟩ := Int.eq_ofNat_of_zero_le (le_trans (by omega) hle)
      exact .inr (.inr ⟨index, rfl, rfl, by omega⟩)

theorem writable_of_check {journal : ReplicaJournal} (hcall : call.representable = true)
    (h : call.check journal = .ok (some record)) : record.Writable := by
  rcases check_some h with ⟨entry, rfl, rfl, hvalid, -⟩ | ⟨index, rfl, rfl, -⟩ |
    ⟨index, rfl, rfl, -⟩
  · refine ⟨?_, fun other hother => by cases hother; exact hvalid⟩
    have hentry : entry.asDict.representable = true := hcall
    simp [JournalRecord.payload, Json.representable, representableFields, hentry]
  · refine ⟨?_, fun other hother => by cases hother⟩
    have hindex : (Json.int index).representable = true := hcall
    simp [JournalRecord.payload, Json.representable, representableFields] at hindex ⊢
    exact hindex
  · refine ⟨?_, fun other hother => by cases hother⟩
    have hindex : (Json.int index).representable = true := hcall
    simp [JournalRecord.payload, Json.representable, representableFields] at hindex ⊢
    exact hindex

/-- Loading the line of a call changes the maps as the call did. -/
theorem load_record_of_check {loaded journal : ReplicaJournal} (hcall : call.representable = true)
    (hsame : loaded.Same journal) (h : call.check journal = .ok (some record)) :
    ∃ next, loaded.loadRecord record.canonical = .ok next ∧
      next.Same (journal.record record) := by
  rcases check_some h with ⟨entry, rfl, rfl, hvalid, hnone⟩ | ⟨index, rfl, rfl, hprepared⟩ |
    ⟨index, rfl, rfl, hle⟩
  · have hentry : entry.asDict.representable = true := hcall
    have hmutation : entry.mutation.representable = true := representable_field hentry "mutation"
    have hloaded : loaded.prepared[entry.index]? = none := by
      have := hsame.prepared entry.index
      rw [hnone] at this
      simpa using this
    refine ⟨loaded.addPrepared entry.canonical, ?_, ?_, hsame.committed, hsame.snapshotIndex⟩
    · refine load_record_prepare_ok.2 ⟨?_, ?_, rfl⟩
      · rw [validate_canonical hmutation, hvalid]
      · intro existing hexisting
        rw [show entry.canonical.index = entry.index from rfl, hloaded] at hexisting
        cases hexisting
    · intro index
      rw [record, add_prepared_get, add_prepared_get,
        show entry.canonical.index = entry.index from rfl]
      split
      · simp
      · exact hsame.prepared index
  · refine ⟨loaded.addCommitted index, ?_, ?_, ?_, ?_⟩
    · exact load_record_commit_ok.2 ⟨(hsame.mem_prepared index).2 hprepared, rfl⟩
    · intro other
      simpa [record] using hsame.prepared other
    · intro other
      simp [record, hsame.committed]
    · simpa [record] using hsame.snapshotIndex
  · refine ⟨{ loaded with snapshotIndex := max loaded.snapshotIndex index }, rfl, hsame.prepared,
      hsame.committed, ?_⟩
    change max loaded.snapshotIndex index = index
    rw [hsame.snapshotIndex]
    omega

end

section

variable [LawfulFloatText]

/-- The file of a journal loads to its maps as it stands. -/
structure JournalOnDisk.Stored (disk : JournalOnDisk) : Prop where
  ends : EndsLine disk.file
  loads : ∃ loaded : ReplicaJournal, openJournal disk.file = .ok ⟨loaded, disk.file⟩ ∧
    loaded.Same disk.journal

theorem run_ok {disk next : JournalOnDisk} (h : call.run disk = .ok next) :
    next = disk ∨ ∃ record, call.check disk.journal = .ok (some record) ∧
      next = ⟨disk.journal.record record, disk.file ++ recordLine record⟩ := by
  obtain ⟨record, hcheck, h⟩ := bind_ok.1 h
  cases record with
  | none => exact .inl (pure_ok.1 h).symm
  | some record => exact .inr ⟨record, hcheck, (pure_ok.1 h).symm⟩

theorem stored_run {disk next : JournalOnDisk} (hcall : call.representable = true)
    (hstored : disk.Stored) (h : call.run disk = .ok next) :
    next.Stored := by
  rcases run_ok h with rfl | ⟨record, hcheck, rfl⟩
  · exact hstored
  · obtain ⟨loaded, hopen, hsame⟩ := hstored.loads
    obtain ⟨journal, hload, hnext⟩ := load_record_of_check hcall hsame hcheck
    exact ⟨.inr (by simp [recordLine]), journal,
      open_append hopen hstored.ends (writable_of_check hcall hcheck) hload, hnext⟩

theorem stored_open {data : List UInt8} (h : openJournal data = .ok disk) : disk.Stored := by
  obtain ⟨hload, hfile⟩ := open_journal_ok.1 h
  have hends : EndsLine disk.file := hfile ▸ ends_line_complete data
  refine ⟨hends, disk.journal, ?_, ⟨fun _ => rfl, fun _ => Iff.rfl, rfl⟩⟩
  rw [open_journal_ok, complete_lines_of_ends hends]
  exact ⟨hfile ▸ hload, rfl⟩

theorem open_cut (hstored : disk.Stored) (h : record.Writable) {cut : Nat}
    (hlow : disk.file.length ≤ cut) (hcut : cut < (disk.file ++ recordLine record).length) :
    openJournal ((disk.file ++ recordLine record).take cut) = openJournal disk.file := by
  have htake : (disk.file ++ recordLine record).take cut =
      disk.file ++ (recordText record).take (cut - disk.file.length) := by
    rw [length_append, recordLine, length_append, length_singleton] at hcut
    rw [take_append, take_of_length_le hlow, recordLine,
      take_append_of_le_length (by omega)]
  rw [htake]
  refine open_torn hstored.ends fun byte hbyte => ?_
  exact (unbroken_record_text h byte (mem_of_mem_take hbyte)).1

theorem file_prefix {calls : List JournalCall} {disk final : JournalOnDisk}
    (h : runCalls calls disk = .ok final) : disk.file <+: final.file := by
  induction calls generalizing disk with
  | nil =>
      cases pure_ok.1 h
      exact prefix_rfl
  | cons call calls ih =>
      obtain ⟨next, hnext, hrest⟩ := bind_ok.1 h
      have hgrows : disk.file <+: next.file := by
        rcases run_ok hnext with rfl | ⟨record, -, rfl⟩
        · exact prefix_rfl
        · exact prefix_append _ _
      exact hgrows.trans (ih hrest)

/-- The calls whose lines are complete in the first `cut` bytes of the file. -/
structure CompleteCalls (calls before after : List JournalCall) (start kept : JournalOnDisk)
    (cut : Nat) : Prop where
  split : calls = before ++ after
  run : runCalls before start = .ok kept
  complete : kept.file.length ≤ cut
  torn : ∀ call next, after.head? = some call → call.run kept = .ok next → cut < next.file.length

/-- A journal is opened and called, every call returns, and a crash cuts the file anywhere in what
the calls have written. Opening the file gives the maps after the calls whose lines are complete
and cuts the file to those lines, and opening it again gives the same. -/
theorem crash_round_trip {data : List UInt8} {start final : JournalOnDisk}
    {calls : List JournalCall} {cut : Nat} (hopen : openJournal data = .ok start)
    (hcalls : ∀ call ∈ calls, call.representable = true)
    (hrun : runCalls calls start = .ok final) (hlow : start.file.length ≤ cut)
    (hcut : cut ≤ final.file.length) :
    ∃ before after kept, CompleteCalls calls before after start kept cut ∧
      ∃ loaded : ReplicaJournal, loaded.Same kept.journal ∧
        openJournal (final.file.take cut) = .ok ⟨loaded, kept.file⟩ ∧
        openJournal kept.file = .ok ⟨loaded, kept.file⟩ := by
  have hstored := stored_open hopen
  clear hopen
  induction calls generalizing start with
  | nil =>
      have hsame := pure_ok.1 hrun
      subst hsame
      obtain ⟨loaded, hload, hsame⟩ := hstored.loads
      refine ⟨[], [], start, ⟨rfl, rfl, hlow, by simp⟩, loaded, hsame, ?_, hload⟩
      rw [take_of_length_le hlow]
      exact hload
  | cons call calls ih =>
      obtain ⟨next, hnext, hrest⟩ := bind_ok.1 hrun
      by_cases hcomplete : next.file.length ≤ cut
      · obtain ⟨before, after, kept, hkept, hloaded⟩ :=
          ih (fun other hother => hcalls other (by simp [hother])) hrest hcomplete
            (stored_run (hcalls call (by simp)) hstored hnext)
        refine ⟨call :: before, after, kept, ⟨?_, ?_, hkept.complete, hkept.torn⟩, hloaded⟩
        · rw [hkept.split, cons_append]
        · exact bind_ok.2 ⟨next, hnext, hkept.run⟩
      · -- The cut is in the line of this call.
        obtain ⟨loaded, hload, hsame⟩ := hstored.loads
        refine ⟨[], call :: calls, start, ⟨rfl, rfl, hlow, ?_⟩, loaded, hsame, ?_, hload⟩
        · intro other otherNext hother hotherNext
          obtain rfl : call = other := by simpa using hother
          rw [hnext] at hotherNext
          cases hotherNext
          omega
        · rcases run_ok hnext with rfl | ⟨record, hcheck, rfl⟩
          · exact absurd hlow hcomplete
          · obtain ⟨rest, hfinal⟩ := file_prefix hrest
            have hshort : cut < (start.file ++ recordLine record).length := by
              simpa using hcomplete
            rw [← hfinal, take_append_of_le_length hshort.le,
              open_cut hstored (writable_of_check (hcalls call (by simp)) hcheck) hlow hshort,
              hload]

end

/-- An entry that upserts a point with the vector `[0.1]`. -/
def writtenEntry : ReplicatedEntry :=
  @ReplicatedEntry.create pythonFloatText.toFloatRepr 0 1 1 1 "request"
    (.obj [("operation", .str "upsert"), ("id", .int 1),
      ("vector", .arr [.float ⟨0x3FB999999999999A⟩]), ("fields", .arr []), ("sparse", .arr [])])

theorem written_entry_check :
    @JournalCall.check pythonFloatText.toFloatRepr .empty (.prepare writtenEntry) =
      .ok (some (.prepare writtenEntry)) := by
  have hvalid : @ReplicatedEntry.validate pythonFloatText.toFloatRepr writtenEntry = .ok () := by
    decide +kernel
  simp only [JournalCall.check, hvalid]
  simp [empty]

/-- The second of two lines is cut after its first byte. -/
theorem crash_round_trip_second_line :
    letI := pythonFloatText
    ∃ final, runCalls [.prepare writtenEntry, .commit 1] ⟨.empty, []⟩ = .ok final ∧
      ∃ before after kept,
        CompleteCalls [.prepare writtenEntry, .commit 1] before after ⟨.empty, []⟩ kept
            ((recordLine (.prepare writtenEntry)).length + 1) ∧
          ∃ loaded : ReplicaJournal, loaded.Same kept.journal ∧
            openJournal (final.file.take ((recordLine (.prepare writtenEntry)).length + 1)) =
              .ok ⟨loaded, kept.file⟩ ∧
            openJournal kept.file = .ok ⟨loaded, kept.file⟩ := by
  let := pythonFloatText
  have hcommit : (JournalCall.commit 1).check (empty.addPrepared writtenEntry) =
      .ok (some (.commit 1)) := by
    have hindex : writtenEntry.index = 1 := rfl
    simp [JournalCall.check, addPrepared, empty, hindex, require]
  have hrun : runCalls [.prepare writtenEntry, .commit 1] ⟨.empty, []⟩ = .ok
      ⟨(empty.addPrepared writtenEntry).addCommitted 1,
        recordLine (.prepare writtenEntry) ++ recordLine (.commit 1)⟩ := by
    have hfirst : (JournalCall.prepare writtenEntry).run ⟨.empty, []⟩ = .ok
        ⟨empty.addPrepared writtenEntry, recordLine (.prepare writtenEntry)⟩ :=
      bind_ok.2 ⟨_, written_entry_check, rfl⟩
    have hsecond : (JournalCall.commit 1).run
        ⟨empty.addPrepared writtenEntry, recordLine (.prepare writtenEntry)⟩ = .ok
          ⟨(empty.addPrepared writtenEntry).addCommitted 1,
            recordLine (.prepare writtenEntry) ++ recordLine (.commit 1)⟩ :=
      bind_ok.2 ⟨_, hcommit, rfl⟩
    exact bind_ok.2 ⟨_, hfirst, bind_ok.2 ⟨_, hsecond, rfl⟩⟩
  have hopen : openJournal [] = .ok ⟨.empty, []⟩ := rfl
  refine ⟨_, hrun, crash_round_trip hopen ?_ hrun (Nat.zero_le _) ?_⟩
  · decide +kernel
  · rw [length_append, recordLine, recordLine, length_append, length_append]
    simp

end Akasha.Distributed

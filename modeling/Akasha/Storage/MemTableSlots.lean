import Akasha.Lib.Slots
import Akasha.Storage.MemTable

/-!
# Slots of the table

The table as an insertion-ordered list: every change puts one slot, in the place of its
identifier or behind all others. What a slot shows is the payload of a live point; `Row` is what
the writes ensure of every entry of a collection of the old format.
-/

namespace Akasha.Storage

open Lib

/-- What the slot of an entry shows: its identifier, and its payload if it is live. -/
def MemTableEntry.slot (entry : MemTableEntry) : Int64 × Option (List DocumentField) :=
  (entry.id, if entry.tombstone then none else some entry.payload)

/-- A tombstone has no default vector and a live entry one of the table's dimension; the floats of
a payload were made by their constructor. -/
structure MemTableEntry.Row (dimension : Nat) (entry : MemTableEntry) : Prop where
  values_length : entry.values.length = if entry.tombstone then 0 else dimension
  payload_valid : ∀ field ∈ entry.payload, field.value.Valid

namespace MemTable

variable {table next : MemTable}

/-- The identifiers in the order of their slots. -/
def ids (table : MemTable) : List Int64 :=
  table.entries.map (·.id)

/-- What the table shows, in the order of its slots. -/
def slots (table : MemTable) : List (Int64 × Option (List DocumentField)) :=
  table.entries.map (·.slot)

/-- What the table shows for an identifier. -/
def contents (table : MemTable) (id : Int64) : Option (List DocumentField) :=
  (table.state id).bind (·.slot.2)

/-! ## The order of the slots -/

variable {id : Int64}

theorem slot_for_mem (h : table.WellFormed) {slot : Nat × MemTableEntry}
    (hslot : table.slotFor id = some slot) : id ∈ table.ids := by
  obtain ⟨hold, hid⟩ := (slot_for_iff h).1 hslot
  exact List.mem_map.2 ⟨_, List.mem_of_getElem? hold, hid⟩

theorem slot_for_not_mem (h : table.WellFormed) (hslot : table.slotFor id = none) :
    id ∉ table.ids := by
  intro hmem
  obtain ⟨entry, hentry, hid⟩ := List.mem_map.1 hmem
  exact (slot_for_none h).1 hslot entry hentry hid

theorem map_id_set {entries : List MemTableEntry} {index : Nat} {old entry : MemTableEntry}
    (hold : entries[index]? = some old) (hid : entry.id = old.id) :
    (entries.set index entry).map (·.id) = entries.map (·.id) := by
  refine List.ext_getElem? fun o => ?_
  rw [List.getElem?_map, List.getElem?_map, List.getElem?_set]
  split
  · rename_i heq
    subst heq
    rw [if_pos (List.getElem?_eq_some_iff.1 hold).1, hold, Option.map_some, Option.map_some, hid]
  · rfl

/-- Every change keeps the order of the slots; a new identifier gets the last one. -/
theorem change_ids (h : table.WellFormed) {change : Change} (hrun : change.apply table = .ok next) :
    next.ids = if change.id ∈ table.ids then table.ids else table.ids ++ [change.id] := by
  cases change with
  | upsert id sequence values fields =>
      simp only [Change.apply, applyDocumentUpsert, bind_ok, require_ok,
        exists_unit] at hrun
      obtain ⟨-, -, -, hrun⟩ := hrun
      show _ = if id ∈ table.ids then _ else table.ids ++ [id]
      cases hslot : table.slotFor id with
      | none =>
          rw [show (table.advanceSequence sequence).slotFor id = none from hslot] at hrun
          obtain rfl := pure_ok.1 hrun
          rw [if_neg (slot_for_not_mem h hslot)]
          exact List.map_append
      | some slot =>
          obtain ⟨index, old⟩ := slot
          obtain ⟨hold, -⟩ := (slot_for_iff h).1 hslot
          rw [show (table.advanceSequence sequence).slotFor id = some (index, old) from hslot]
            at hrun
          rw [if_pos (slot_for_mem h hslot)]
          simp only at hrun
          split at hrun
          · obtain rfl := pure_ok.1 hrun
            rfl
          · obtain rfl := pure_ok.1 hrun
            exact map_id_set hold rfl
  | delete id sequence =>
      simp only [Change.apply, applyDelete, bind_ok, require_ok, exists_unit] at hrun
      obtain ⟨-, hrun⟩ := hrun
      show _ = if id ∈ table.ids then _ else table.ids ++ [id]
      cases hslot : table.slotFor id with
      | none =>
          rw [show (table.advanceSequence sequence).slotFor id = none from hslot] at hrun
          obtain rfl := pure_ok.1 hrun
          rw [if_neg (slot_for_not_mem h hslot)]
          exact List.map_append
      | some slot =>
          obtain ⟨index, old⟩ := slot
          obtain ⟨hold, hid⟩ := (slot_for_iff h).1 hslot
          rw [show (table.advanceSequence sequence).slotFor id = some (index, old) from hslot]
            at hrun
          rw [if_pos (slot_for_mem h hslot)]
          simp only at hrun
          split at hrun
          · obtain rfl := pure_ok.1 hrun
            rfl
          · obtain rfl := pure_ok.1 hrun
            exact map_id_set hold hid.symm
  | setSparse id elements =>
      simp only [Change.apply, setSparse, bind_ok, exists_unit] at hrun
      obtain ⟨-, hrun⟩ := hrun
      show _ = if id ∈ table.ids then _ else table.ids ++ [id]
      cases hslot : table.slotFor id with
      | none => simp [hslot, throw, throwThe, MonadExceptOf.throw] at hrun
      | some slot =>
          obtain ⟨index, old⟩ := slot
          obtain ⟨hold, -⟩ := (slot_for_iff h).1 hslot
          simp only [hslot, bind_ok, require_ok, exists_unit, pure_ok] at hrun
          obtain ⟨-, rfl⟩ := hrun
          rw [if_pos (slot_for_mem h hslot)]
          exact map_id_set hold rfl
  | put entry =>
      obtain rfl := Except.ok.inj hrun
      show _ = if entry.id ∈ table.ids then _ else table.ids ++ [entry.id]
      unfold put
      cases hslot : table.slotFor entry.id with
      | none =>
          simp only [show (table.advanceSequence entry.sequence).slotFor entry.id = none from hslot]
          rw [if_neg (slot_for_not_mem h hslot)]
          exact List.map_append
      | some slot =>
          obtain ⟨index, old⟩ := slot
          obtain ⟨hold, hid⟩ := (slot_for_iff h).1 hslot
          simp only [show (table.advanceSequence entry.sequence).slotFor entry.id =
            some (index, old) from hslot]
          rw [if_pos (slot_for_mem h hslot)]
          exact map_id_set hold hid.symm

/-! ## What the slots show -/

theorem map_fst_slots (table : MemTable) : table.slots.map (·.1) = table.ids := by
  rw [slots, List.map_map]
  rfl

theorem slots_eq (h : table.WellFormed) :
    table.slots = table.ids.map fun id => (id, table.contents id) := by
  rw [slots, ids, List.map_map]
  refine List.map_congr_left fun entry hentry => ?_
  have hstate := (state_eq_some_iff h).2 ⟨hentry, rfl⟩
  show (entry.id, _) = (entry.id, table.contents entry.id)
  rw [contents, hstate]
  rfl

theorem change_slots (change : Change) (h : table.WellFormed) (hnext : next.WellFormed)
    {entry : MemTableEntry} (hrun : change.apply table = .ok next)
    (hstate : next.state = Function.update table.state change.id (some entry)) :
    next.slots = putBy Prod.fst table.slots entry.slot := by
  have hid : entry.id = change.id := by
    have hsome : next.state change.id = some entry := by rw [hstate, Function.update_self]
    exact ((state_eq_some_iff hnext).1 hsome).2
  have hcontents : next.contents = Function.update table.contents entry.id entry.slot.2 := by
    funext id
    rw [contents, hstate, Function.update_apply, Function.update_apply, hid]
    split
    · rfl
    · rfl
  rw [slots_eq hnext, slots_eq h, change_ids h hrun, hcontents]
  have hput := put_by_map (ids_nodup h) table.contents entry.id entry.slot.2
  rw [hid] at hput ⊢
  exact hput.symm.trans (congrArg _ (Prod.ext hid.symm rfl))

theorem put_slots (h : table.WellFormed) (entry : MemTableEntry) :
    (table.put entry).slots = putBy Prod.fst table.slots entry.slot :=
  change_slots (.put entry) h (put_spec h entry).1 rfl (put_spec h entry).2

theorem upsert_slots (h : table.WellFormed) (hdim : 0 < table.dimension) {sequence : Nat}
    {values : List F32} {fields : List DocumentField}
    (hnew : ∀ entry, table.state id = some entry → entry.sequence < sequence)
    (hrun : table.applyDocumentUpsert id sequence values fields = .ok next) :
    next.slots = putBy Prod.fst table.slots (id, some fields) := by
  obtain ⟨hnext, -, -, hstate⟩ := apply_document_upsert_ok h hdim hrun
  rw [change_slots (.upsert id sequence values fields) h hnext hrun hstate]
  congr 1
  unfold upsertEntry
  cases hold : table.state id with
  | none => rfl
  | some old =>
      have hid := ((state_eq_some_iff h).1 hold).2
      simp only [if_neg (Nat.not_le.2 (hnew old hold))]
      exact Prod.ext hid rfl

theorem delete_slots (h : table.WellFormed) {sequence : Nat}
    (hnew : ∀ entry, table.state id = some entry → entry.sequence < sequence)
    (hrun : table.applyDelete id sequence = .ok next) :
    next.slots = putBy Prod.fst table.slots (id, none) := by
  obtain ⟨hnext, -, -, hstate⟩ := apply_delete_ok h hrun
  rw [change_slots (.delete id sequence) h hnext hrun hstate]
  congr 1
  unfold deleteEntry
  cases hold : table.state id with
  | none => rfl
  | some old =>
      simp only [if_neg (Nat.not_le.2 (hnew old hold))]
      rfl

theorem set_sparse_slots (h : table.WellFormed) {elements : List SparseElement}
    (hrun : table.setSparse id elements = .ok next) : next.slots = table.slots := by
  obtain ⟨hnext, -, -, old, hold, hlive, hstate⟩ := set_sparse_ok h hrun
  have hput := change_slots (.setSparse id elements) h hnext hrun hstate
  have hid := ((state_eq_some_iff h).1 hold).2
  have hmem : old.slot ∈ table.slots := List.mem_map_of_mem ((state_eq_some_iff h).1 hold).1
  rw [hput]
  exact put_by_same (by rw [map_fst_slots]; exact ids_nodup h) hmem

/-! ## Rows -/

/-- Every entry is a row. -/
def Rows (table : MemTable) : Prop :=
  ∀ id entry, table.state id = some entry → entry.Row table.dimension

/-- What the callers ensure of the data of a change. -/
def Change.RowOk (dimension : Nat) : Change → Prop
  | .upsert _ _ _ fields => ∀ field ∈ fields, field.value.Valid
  | .put entry => entry.Row dimension
  | .delete _ _ => True
  | .setSparse _ _ => True

theorem values_set_vector (entry : MemTableEntry) (field : PointField) {entry' : MemTableEntry}
    (h : entry'.vectors = MemTableEntry.setVector entry.vectors field) :
    entry'.values = if field.id = 0 then field.value.legacyValues else entry.values := by
  unfold MemTableEntry.values MemTableEntry.field?
  rw [h, MemTableEntry.find_set_vector]
  by_cases hid : field.id = 0
  · rw [if_pos hid.symm, if_pos hid]
    rfl
  · rw [if_neg (Ne.symm hid), if_neg hid]

theorem tombstone_row (dimension : Nat) (id : Int64) (sequence : Nat) :
    (tombstoneOf id sequence).Row dimension :=
  ⟨rfl, nofun⟩

/-- A written document is a row. -/
theorem upsert_row {old : Option MemTableEntry} {sequence dimension : Nat} {values : List F32}
    {fields : List DocumentField} (hold : ∀ entry, old = some entry → entry.Row dimension)
    (hlength : values.length = dimension) (hdim : 0 < dimension)
    (hfields : ∀ field ∈ fields, field.value.Valid) :
    (upsertEntry old id sequence values fields).Row dimension := by
  unfold upsertEntry
  cases old with
  | none =>
      refine ⟨?_, hfields⟩
      have hne : values.length ≠ 0 := by omega
      simp only [MemTableEntry.values, MemTableEntry.field?, MemTableEntry.withFields]
      rw [if_pos hne]
      exact hlength
  | some old =>
      simp only
      split
      · exact hold old rfl
      · refine ⟨?_, hfields⟩
        rw [values_set_vector old ⟨0, .dense (.f32 values)⟩ rfl]
        exact hlength

theorem delete_row {old : Option MemTableEntry} {sequence dimension : Nat}
    (hold : ∀ entry, old = some entry → entry.Row dimension) :
    (deleteEntry old id sequence).Row dimension := by
  unfold deleteEntry
  cases old with
  | none => exact tombstone_row dimension id sequence
  | some old =>
      simp only
      split
      · exact hold old rfl
      · exact tombstone_row dimension id sequence

/-- Every change keeps the rows. -/
theorem change_rows (change : Change) (h : table.WellFormed) (hdim : 0 < table.dimension)
    (hrows : table.Rows) (hok : change.RowOk table.dimension) (hrun : change.apply table = .ok next) :
    next.Rows := by
  have hput : ∀ entry, next.state = Function.update table.state change.id (some entry) →
      next.dimension = table.dimension → entry.Row table.dimension → next.Rows := by
    intro entry hstate hd hrow id found hfound
    rw [hstate, Function.update_apply] at hfound
    rw [hd]
    split at hfound
    · exact Option.some.inj hfound ▸ hrow
    · exact hrows id found hfound
  cases change with
  | upsert id sequence values fields =>
      obtain ⟨-, hd, -, hstate⟩ := apply_document_upsert_ok h hdim hrun
      have hlength := hrun
      simp only [Change.apply, applyDocumentUpsert, bind_ok, require_ok,
        exists_unit] at hlength
      exact hput _ hstate hd (upsert_row (hrows id) hlength.2.1 hdim hok)
  | delete id sequence =>
      obtain ⟨-, hd, -, hstate⟩ := apply_delete_ok h hrun
      exact hput _ hstate hd (delete_row (hrows id))
  | setSparse id elements =>
      obtain ⟨-, hd, -, old, hold, hlive, hstate⟩ := set_sparse_ok h hrun
      have hrow := hrows id old hold
      refine hput _ hstate hd ⟨?_, hrow.payload_valid⟩
      rw [values_set_vector old ⟨1, .sparse elements⟩ rfl]
      exact hrow.values_length
  | put entry =>
      obtain ⟨-, hd, -⟩ := change_apply_ok h hdim hrun
      obtain rfl := Except.ok.inj hrun
      exact hput entry (put_spec h entry).2 hd hok

end MemTable

end Akasha.Storage

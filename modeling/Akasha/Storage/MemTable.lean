import Akasha.Document.Codec
import Akasha.Document.VectorValue
import Mathlib.Data.List.DropRight
import Mathlib.Logic.Function.Basic
import Std.Data.ExtTreeMap

/-!
# The latest state of every point

`MemTable` keeps the newest entry of each point in a stable slot, tombstones included, with two
cached counts. `MemTable.state` is what it is for: a map from identifiers to entries. Each
operation is stated by what it does to that map, and `MemTable.WellFormed` says that slots,
identifiers and counts agree.
-/

namespace Akasha.Storage

open Lib Function List

/-- The newest known state of one point. -/
structure MemTableEntry where
  id : Int64
  sequence : Nat
  documentSequence : Nat
  tombstone : Bool
  vectors : List PointField
  payload : List DocumentField
deriving DecidableEq, Repr

namespace MemTableEntry

/-- `MemTableEntry(id, sequence, tombstone, values)` with a payload. -/
def withFields (id : Int64) (sequence : Nat) (tombstone : Bool) (values : List F32)
    (fields : List DocumentField) : MemTableEntry where
  id := id
  sequence := sequence
  documentSequence := if ¬ tombstone ∧ values.length ≠ 0 then sequence else 0
  tombstone := tombstone
  vectors := if values.length ≠ 0 then [⟨0, .dense (.f32 values)⟩] else []
  payload := fields

/-- The value of a vector field, if the point has it. -/
def field? (entry : MemTableEntry) (id : Nat) : Option VectorValue :=
  (entry.vectors.find? (·.id = id)).map (·.value)

def hasDense (entry : MemTableEntry) : Bool :=
  (entry.field? 0).isSome

def hasSparse (entry : MemTableEntry) : Bool :=
  (entry.field? 1).isSome

/-- The default dense vector, empty when the point has none. -/
def values (entry : MemTableEntry) : List F32 :=
  ((entry.field? 0).map (·.legacyValues)).getD []

/-- The default sparse vector, empty when the point has none. -/
def sparse (entry : MemTableEntry) : List SparseElement :=
  match entry.field? 1 with
  | some (.sparse elements) => elements
  | _ => []

/-- `content_bytes`: the payload and every vector. -/
def contentBytes (entry : MemTableEntry) : Nat :=
  fieldContentBytes entry.payload + (entry.vectors.map (·.value.contentBytes)).sum

/-- A live entry with a default dense vector. -/
def isDenseLive (entry : MemTableEntry) : Bool :=
  !entry.tombstone && entry.hasDense

/-- `_set_vector`: replace the field, or insert it behind the smaller identifiers. -/
def setVector (vectors : List PointField) (field : PointField) : List PointField :=
  match vectors.findIdx? (·.id = field.id) with
  | some ordinal => vectors.set ordinal field
  | none =>
      vectors.rdropWhile (field.id < ·.id) ++ field :: vectors.rtakeWhile (field.id < ·.id)

/-- `dense_descriptor`: the default dense vector with its own document version. -/
def denseDescriptor (entry : MemTableEntry) : MemTableEntry where
  id := entry.id
  sequence := if entry.hasDense then entry.documentSequence else entry.sequence
  documentSequence := entry.documentSequence
  tombstone := entry.tombstone || !entry.hasDense
  vectors := (entry.vectors.find? (·.id = 0)).toList
  payload := []

/-- Setting a field sets that field and no other. -/
theorem find_set_vector (vectors : List PointField) (field : PointField) (id : Nat) :
    (setVector vectors field).find? (·.id = id) =
      if id = field.id then some field else vectors.find? (·.id = id) := by
  unfold setVector
  cases hfind : vectors.findIdx? (·.id = field.id) with
  | some ordinal =>
      obtain ⟨hlt, hhit, hbefore⟩ := findIdx?_eq_some_iff_getElem.1 hfind
      have hsplit : vectors = vectors.take ordinal ++ vectors[ordinal] ::
          vectors.drop (ordinal + 1) := by
        rw [getElem_cons_drop, take_append_drop]
      have hnone : ∀ f ∈ vectors.take ordinal, f.id ≠ field.id := by
        intro f hf
        obtain ⟨i, hi, rfl⟩ := mem_iff_getElem.1 hf
        rw [getElem_take]
        have := hbefore i (by rw [length_take] at hi; omega)
        simpa using this
      have hset : vectors.set ordinal field = vectors.take ordinal ++ field ::
          vectors.drop (ordinal + 1) := set_eq_take_append_cons_drop.trans (if_pos hlt)
      simp only [hset]
      rw [find?_append, find?_cons]
      by_cases hid : id = field.id
      · have : (vectors.take ordinal).find? (·.id = id) = none := by
          rw [find?_eq_none]
          intro f hf
          simpa [hid] using hnone f hf
        rw [this, if_pos hid]
        simp [hid]
      · have hold : vectors[ordinal].id ≠ id := by
          intro h
          exact hid (h.symm.trans (by simpa using hhit))
        rw [if_neg hid]
        conv_rhs => rw [hsplit]
        rw [find?_append, find?_cons]
        simp [Ne.symm hid, hold]
  | none =>
      have hnone : ∀ f ∈ vectors, f.id ≠ field.id := by
        simpa using findIdx?_eq_none_iff.1 hfind
      simp only
      rw [find?_append, find?_cons]
      by_cases hid : id = field.id
      · have : (vectors.rdropWhile (field.id < ·.id)).find? (·.id = id) = none := by
          rw [find?_eq_none]
          intro f hf
          simpa [hid] using hnone f ((List.rdropWhile_prefix _ _).subset hf)
        rw [this, if_pos hid]
        simp [hid]
      · rw [if_neg hid]
        have hsplit : vectors.rdropWhile (field.id < ·.id) ++
            vectors.rtakeWhile (field.id < ·.id) = vectors := by
          unfold rdropWhile rtakeWhile
          rw [← reverse_append, takeWhile_append_dropWhile, reverse_reverse]
        conv_rhs => rw [← hsplit]
        rw [find?_append]
        simp [Ne.symm hid]

theorem has_dense_set_vector (entry : MemTableEntry) (field : PointField)
    {entry' : MemTableEntry} (h : entry'.vectors = setVector entry.vectors field) :
    entry'.hasDense = (decide (field.id = 0) || entry.hasDense) := by
  unfold hasDense field?
  rw [h, find_set_vector]
  by_cases hid : field.id = 0
  · simp [hid]
  · rw [if_neg (Ne.symm hid)]
    simp [hid]

end MemTableEntry

/-- The latest entries in slot order. -/
structure MemTable where
  dimension : Nat
  lastSequence : Nat
  entries : List MemTableEntry
  idOrdinals : Std.ExtTreeMap Int64 Nat
  liveCount : Nat
  denseLiveCount : Nat

namespace MemTable

/-- `MemTable(dimension)`. -/
def empty (dimension : Nat) : MemTable :=
  ⟨dimension, 0, [], ∅, 0, 0⟩

def slotCount (table : MemTable) : Nat :=
  table.entries.length

def ordinalFor (table : MemTable) (id : Int64) : Option Nat :=
  table.idOrdinals[id]?

/-- The slot of an identifier and the entry in it. -/
def slotFor (table : MemTable) (id : Int64) : Option (Nat × MemTableEntry) :=
  (table.ordinalFor id).bind fun ordinal => (table.entries[ordinal]?).map (ordinal, ·)

/-- The latest entry of an identifier, tombstones included. -/
def state (table : MemTable) (id : Int64) : Option MemTableEntry :=
  (table.slotFor id).map (·.2)

/-- `live_ordinals`: the slots of the live entries, ascending. -/
def liveOrdinals (table : MemTable) : List Nat :=
  (range table.entries.length).filter fun ordinal =>
    (table.entries[ordinal]?).any (!·.tombstone)

/-- `_advance_sequence`. -/
def advanceSequence (table : MemTable) (sequence : Nat) : MemTable :=
  { table with lastSequence := max table.lastSequence sequence }

/-- Give a new identifier the next slot. -/
def append (table : MemTable) (entry : MemTableEntry) : MemTable :=
  { table with
    entries := table.entries ++ [entry]
    idOrdinals := table.idOrdinals.insert entry.id table.entries.length }

/-- `put`: install one accepted state in the slot of its identifier. -/
def put (table : MemTable) (entry : MemTableEntry) : MemTable :=
  let table := table.advanceSequence entry.sequence
  let dense := table.denseLiveCount + if entry.isDenseLive then 1 else 0
  match table.slotFor entry.id with
  | none =>
      { table.append entry with
        liveCount := table.liveCount + if entry.tombstone then 0 else 1
        denseLiveCount := dense }
  | some (index, old) =>
      { table with
        entries := table.entries.set index entry
        liveCount :=
          if old.tombstone ≠ entry.tombstone then
            if entry.tombstone then table.liveCount - 1 else table.liveCount + 1
          else table.liveCount
        denseLiveCount := dense - if old.isDenseLive then 1 else 0 }

/-- `apply_document_upsert`: replace the default dense vector and the payload of a point and keep
its other fields; an older write changes nothing. -/
def applyDocumentUpsert (table : MemTable) (id : Int64) (sequence : Nat) (values : List F32)
    (fields : List DocumentField) : Except String MemTable := do
  require (sequence ≠ 0) "memtable sequence must be positive"
  require (values.length = table.dimension) "vector dimension does not match memtable"
  validateFields fields
  let table := table.advanceSequence sequence
  match table.slotFor id with
  | some (index, old) =>
      if sequence ≤ old.sequence then pure table
      else
        pure { table with
          denseLiveCount :=
            table.denseLiveCount + if old.tombstone ∨ ¬ old.hasDense then 1 else 0
          liveCount := table.liveCount + if old.tombstone then 1 else 0
          entries := table.entries.set index { old with
            sequence := sequence
            documentSequence := sequence
            tombstone := false
            vectors := MemTableEntry.setVector old.vectors ⟨0, .dense (.f32 values)⟩
            payload := fields } }
  | none =>
      pure { table.append (.withFields id sequence false values fields) with
        liveCount := table.liveCount + 1
        denseLiveCount := table.denseLiveCount + 1 }

/-- `set_sparse`: replace the sparse vector of a live point. -/
def setSparse (table : MemTable) (id : Int64) (elements : List SparseElement) :
    Except String MemTable := do
  validateSparse elements
  match table.slotFor id with
  | some (index, old) => do
      require (¬ old.tombstone) "sparse vectors require an existing live point"
      pure { table with
        entries := table.entries.set index { old with
          vectors := MemTableEntry.setVector old.vectors ⟨1, .sparse elements⟩ } }
  | none => throw "sparse vectors require an existing live point"

/-- The entry of a deleted point. -/
def tombstoneOf (id : Int64) (sequence : Nat) : MemTableEntry :=
  .withFields id sequence true [] []

/-- `apply_delete`: leave a tombstone without vectors and payload, also for an unknown point; an
older delete changes nothing. -/
def applyDelete (table : MemTable) (id : Int64) (sequence : Nat) : Except String MemTable := do
  require (sequence ≠ 0) "memtable sequence must be positive"
  let table := table.advanceSequence sequence
  match table.slotFor id with
  | some (index, old) =>
      if sequence ≤ old.sequence then pure table
      else
        pure { table with
          liveCount := if old.tombstone then table.liveCount else table.liveCount - 1
          denseLiveCount :=
            if ¬ old.tombstone ∧ old.hasDense then table.denseLiveCount - 1
            else table.denseLiveCount
          entries := table.entries.set index (tombstoneOf id sequence) }
  | none => pure (table.append (tombstoneOf id sequence))

/-! ## What the operations keep -/

/-- Slots and identifiers determine each other and the counts are right. -/
structure WellFormed (table : MemTable) : Prop where
  ordinals_iff : ∀ (id : Int64) (o : Nat),
    table.idOrdinals[id]? = some o ↔ ∃ e, table.entries[o]? = some e ∧ e.id = id
  live_eq : table.liveCount = table.entries.countP (!·.tombstone)
  dense_eq : table.denseLiveCount = table.entries.countP (·.isDenseLive)

variable {table : MemTable}

theorem empty_well_formed (dimension : Nat) : (empty dimension).WellFormed where
  ordinals_iff id o := by simp [empty]
  live_eq := rfl
  dense_eq := rfl

variable {e : MemTableEntry}

theorem slot_for_iff (h : table.WellFormed) {id : Int64} {o : Nat} :
    table.slotFor id = some (o, e) ↔ table.entries[o]? = some e ∧ e.id = id := by
  unfold slotFor ordinalFor
  simp only [Option.bind_eq_some_iff, Option.map_eq_some_iff, Prod.mk.injEq]
  constructor
  · rintro ⟨o', ho', e', he', rfl, rfl⟩
    obtain ⟨e'', he'', hid⟩ := (h.ordinals_iff id o').1 ho'
    rw [he'] at he''
    exact ⟨he', Option.some.inj he'' ▸ hid⟩
  · rintro ⟨he, hid⟩
    exact ⟨o, (h.ordinals_iff id o).2 ⟨e, he, hid⟩, e, he, rfl, rfl⟩

theorem slot_for_none (h : table.WellFormed) {id : Int64} :
    table.slotFor id = none ↔ ∀ e ∈ table.entries, e.id ≠ id := by
  constructor
  · intro hnone e he hid
    obtain ⟨o, ho⟩ := mem_iff_getElem?.1 he
    rw [(slot_for_iff h).2 ⟨ho, hid⟩] at hnone
    cases hnone
  · intro hall
    refine Option.eq_none_iff_forall_ne_some.2 fun ⟨o, e⟩ hsome => ?_
    obtain ⟨he, hid⟩ := (slot_for_iff h).1 hsome
    exact hall e (mem_of_getElem? he) hid

theorem state_eq_some_iff (h : table.WellFormed) {id : Int64} :
    table.state id = some e ↔ e ∈ table.entries ∧ e.id = id := by
  unfold state
  rw [Option.map_eq_some_iff]
  constructor
  · rintro ⟨⟨o, e'⟩, hslot, rfl⟩
    obtain ⟨he, hid⟩ := (slot_for_iff h).1 hslot
    exact ⟨mem_of_getElem? he, hid⟩
  · rintro ⟨he, hid⟩
    obtain ⟨o, ho⟩ := mem_iff_getElem?.1 he
    exact ⟨(o, e), (slot_for_iff h).2 ⟨ho, hid⟩, rfl⟩

theorem ids_nodup (h : table.WellFormed) : (table.entries.map (·.id)).Nodup := by
  refine pairwise_map.2 (pairwise_iff_getElem.2 fun i j hi hj hij heq => ?_)
  have h₁ := (h.ordinals_iff _ i).2 ⟨_, getElem?_eq_getElem hi, rfl⟩
  have h₂ := (h.ordinals_iff _ j).2 ⟨_, getElem?_eq_getElem hj, heq.symm⟩
  rw [h₁] at h₂
  exact absurd (Option.some.inj h₂) (by omega)

/-- An entry in the slot of its identifier is replaced. -/
theorem set_well_formed (h : table.WellFormed) {index : Nat} {old : MemTableEntry}
    (entry : MemTableEntry) (hold : table.entries[index]? = some old) (hid : entry.id = old.id)
    (live dense : Nat)
    (hlive : live + (if old.tombstone then 0 else 1) =
      table.liveCount + if entry.tombstone then 0 else 1)
    (hdense : dense + (if old.isDenseLive then 1 else 0) =
      table.denseLiveCount + if entry.isDenseLive then 1 else 0) (last : Nat) :
    WellFormed { table with
      lastSequence := last, entries := table.entries.set index entry, liveCount := live,
      denseLiveCount := dense } ∧
    state { table with
      lastSequence := last, entries := table.entries.set index entry, liveCount := live,
      denseLiveCount := dense } = update table.state entry.id (some entry) := by
  obtain ⟨hlt, hget⟩ := List.getElem?_eq_some_iff.1 hold
  have hcount : ∀ p : MemTableEntry → Bool, (table.entries.set index entry).countP p +
      (if p old then 1 else 0) = table.entries.countP p + if p entry then 1 else 0 := by
    intro p
    rw [countP_set hlt, hget]
    have : (if p old = true then 1 else 0) ≤ table.entries.countP p := by
      split
      · rename_i hp
        exact countP_pos_iff.2 ⟨old, mem_of_getElem? hold, hp⟩
      · exact Nat.zero_le _
    omega
  have hwf : WellFormed { table with
      lastSequence := last, entries := table.entries.set index entry, liveCount := live,
      denseLiveCount := dense } := by
    refine ⟨fun id o => ?_, ?_, ?_⟩
    · show table.idOrdinals[id]? = some o ↔ ∃ e, (table.entries.set index entry)[o]? = some e ∧ _
      rw [h.ordinals_iff, getElem?_set]
      by_cases ho : index = o
      · subst ho
        rw [hold, if_pos rfl, if_pos hlt]
        simp [hid]
      · rw [if_neg ho]
    · have := hcount (!·.tombstone)
      have hl := h.live_eq
      simp only [Bool.not_eq_true', ← Bool.not_eq_true, ite_not] at this
      show live = (table.entries.set index entry).countP _
      omega
    · have := hcount (·.isDenseLive)
      have hd := h.dense_eq
      show dense = (table.entries.set index entry).countP _
      omega
  refine ⟨hwf, funext fun id => Option.ext fun e => ?_⟩
  rw [state_eq_some_iff hwf, update_apply]
  have hmem : ∀ e, e ∈ table.entries.set index entry ↔
      e = entry ∨ e ∈ table.entries ∧ e.id ≠ entry.id := by
    intro e
    rw [mem_iff_getElem?]
    simp only [getElem?_set]
    constructor
    · rintro ⟨o, ho⟩
      by_cases hio : index = o
      · subst hio
        rw [if_pos rfl, if_pos hlt] at ho
        exact .inl (Option.some.inj ho).symm
      · rw [if_neg hio] at ho
        refine .inr ⟨mem_of_getElem? ho, fun heq => hio ?_⟩
        have h₁ := (h.ordinals_iff e.id o).2 ⟨e, ho, rfl⟩
        have h₂ := (h.ordinals_iff e.id index).2 ⟨old, hold, by rw [← hid, heq]⟩
        rw [h₁] at h₂
        exact (Option.some.inj h₂).symm
    · rintro (rfl | ⟨he, hne⟩)
      · exact ⟨index, by rw [if_pos rfl, if_pos hlt]⟩
      · obtain ⟨o, ho⟩ := mem_iff_getElem?.1 he
        refine ⟨o, ?_⟩
        rw [if_neg, ho]
        rintro rfl
        rw [hold] at ho
        exact hne (Option.some.inj ho ▸ hid.symm)
  show e ∈ table.entries.set index entry ∧ e.id = id ↔ _
  rw [hmem]
  by_cases hide : id = entry.id
  · subst hide
    simp only [if_pos, Option.some.injEq]
    constructor
    · rintro ⟨rfl | ⟨-, hne⟩, heq⟩
      · rfl
      · exact absurd heq hne
    · rintro rfl
      exact ⟨.inl rfl, rfl⟩
  · rw [if_neg hide, state_eq_some_iff h]
    constructor
    · rintro ⟨rfl | ⟨he, -⟩, heq⟩
      · exact absurd heq.symm hide
      · exact ⟨he, heq⟩
    · rintro ⟨he, rfl⟩
      exact ⟨.inr ⟨he, hide⟩, rfl⟩

/-- A new identifier gets a slot. -/
theorem append_well_formed (h : table.WellFormed) (entry : MemTableEntry)
    (hnew : table.slotFor entry.id = none) (last live dense : Nat)
    (hlive : live = table.liveCount + if entry.tombstone then 0 else 1)
    (hdense : dense = table.denseLiveCount + if entry.isDenseLive then 1 else 0) :
    WellFormed { table.append entry with
      lastSequence := last, liveCount := live, denseLiveCount := dense } ∧
    state { table.append entry with
      lastSequence := last, liveCount := live, denseLiveCount := dense } =
        update table.state entry.id (some entry) := by
  have hids := (slot_for_none h).1 hnew
  have hwf : WellFormed { table.append entry with
      lastSequence := last, liveCount := live, denseLiveCount := dense } := by
    refine ⟨fun id o => ?_, ?_, ?_⟩
    · show (table.idOrdinals.insert entry.id table.entries.length)[id]? = some o ↔
        ∃ e, (table.entries ++ [entry])[o]? = some e ∧ e.id = id
      rw [Std.ExtTreeMap.getElem?_insert]
      split
      · rename_i heq
        obtain rfl : entry.id = id := Std.LawfulEqCmp.eq_of_compare heq
        constructor
        · intro ho
          obtain rfl := Option.some.inj ho
          exact ⟨entry, by simp, rfl⟩
        · rintro ⟨e, he, hid⟩
          by_cases hlt : o < table.entries.length
          · rw [getElem?_append_left hlt] at he
            exact absurd hid (hids e (List.mem_of_getElem? he))
          · have := (List.getElem?_eq_some_iff.1 he).1
            rw [List.length_append, List.length_singleton] at this
            congr 1
            omega
      · rename_i hne
        rw [h.ordinals_iff]
        by_cases hlt : o < table.entries.length
        · rw [getElem?_append_left hlt]
        · have hnone : table.entries[o]? = none := getElem?_eq_none (by omega)
          rw [hnone]
          refine ⟨nofun, ?_⟩
          rintro ⟨e, he, hid⟩
          rw [getElem?_append_right (by omega)] at he
          have heq : e = entry := by
            obtain ⟨hlt', heq⟩ := List.getElem?_eq_some_iff.1 he
            simpa using heq.symm
          rw [heq] at hid
          exact absurd (hid ▸ Std.ReflCmp.compare_self) hne
    · show live = (table.entries ++ [entry]).countP _
      rw [countP_append, countP_singleton, hlive, h.live_eq]
      cases entry.tombstone <;> simp
    · show dense = (table.entries ++ [entry]).countP _
      rw [countP_append, countP_singleton, hdense, h.dense_eq]
  refine ⟨hwf, funext fun id => Option.ext fun e => ?_⟩
  rw [state_eq_some_iff hwf, update_apply]
  show e ∈ table.entries ++ [entry] ∧ e.id = id ↔ _
  rw [mem_append, mem_singleton]
  by_cases hide : id = entry.id
  · subst hide
    simp only [if_pos, Option.some.injEq]
    constructor
    · rintro ⟨he | rfl, heq⟩
      · exact absurd heq (hids e he)
      · rfl
    · rintro rfl
      exact ⟨.inr rfl, rfl⟩
  · rw [if_neg hide, state_eq_some_iff h]
    constructor
    · rintro ⟨he | rfl, heq⟩
      · exact ⟨he, heq⟩
      · exact absurd heq.symm hide
    · rintro ⟨he, heq⟩
      exact ⟨.inl he, heq⟩

/-- `put` installs the entry. -/
theorem put_spec (h : table.WellFormed) (entry : MemTableEntry) :
    (table.put entry).WellFormed ∧
      (table.put entry).state = update table.state entry.id (some entry) := by
  unfold put
  cases hslot : table.slotFor entry.id with
  | none =>
      simp only [show (table.advanceSequence entry.sequence).slotFor entry.id = none from hslot]
      exact append_well_formed h entry hslot (max table.lastSequence entry.sequence) _ _ rfl rfl
  | some slot =>
      obtain ⟨index, old⟩ := slot
      obtain ⟨hold, hid⟩ := (slot_for_iff h).1 hslot
      simp only [show (table.advanceSequence entry.sequence).slotFor entry.id = some (index, old)
        from hslot]
      have hmem := mem_of_getElem? hold
      refine set_well_formed h entry hold hid.symm _ _ ?_ ?_ (max table.lastSequence entry.sequence)
      · have hpos : old.tombstone = false → 0 < table.liveCount := fun hlive => by
          rw [h.live_eq]
          exact countP_pos_iff.2 ⟨old, hmem, by rw [hlive]; rfl⟩
        show (if old.tombstone ≠ entry.tombstone then
          if entry.tombstone = true then table.liveCount - 1 else table.liveCount + 1
          else table.liveCount) + _ = _
        cases ho : old.tombstone with
        | false =>
            have := hpos ho
            cases entry.tombstone
            · simp
            · simp only [Bool.false_eq_true, ne_eq, not_false_eq_true, if_true, if_false]
              omega
        | true => cases entry.tombstone <;> simp
      · have hpos : old.isDenseLive = true → 0 < table.denseLiveCount := fun hlive => by
          rw [h.dense_eq]
          exact countP_pos_iff.2 ⟨old, hmem, hlive⟩
        show (table.denseLiveCount + (if entry.isDenseLive = true then 1 else 0) -
          if old.isDenseLive = true then 1 else 0) + _ = _
        cases ho : old.isDenseLive with
        | false => simp
        | true => have := hpos ho; simp; omega

/-- The entry of a point after a document is written at a sequence. -/
def upsertEntry (old : Option MemTableEntry) (id : Int64) (sequence : Nat) (values : List F32)
    (fields : List DocumentField) : MemTableEntry :=
  match old with
  | some old =>
      if sequence ≤ old.sequence then old
      else { old with
        sequence := sequence
        documentSequence := sequence
        tombstone := false
        vectors := MemTableEntry.setVector old.vectors ⟨0, .dense (.f32 values)⟩
        payload := fields }
  | none => .withFields id sequence false values fields

/-- The entry of a point after a delete at a sequence. -/
def deleteEntry (old : Option MemTableEntry) (id : Int64) (sequence : Nat) : MemTableEntry :=
  match old with
  | some old => if sequence ≤ old.sequence then old else tombstoneOf id sequence
  | none => tombstoneOf id sequence

theorem advance_well_formed (h : table.WellFormed) (sequence : Nat) :
    (table.advanceSequence sequence).WellFormed :=
  ⟨h.ordinals_iff, h.live_eq, h.dense_eq⟩

theorem state_of_slot {id : Int64} {index : Nat} (h : table.slotFor id = some (index, e)) :
    table.state id = some e := by
  unfold state
  rw [h]
  rfl

theorem state_of_none {id : Int64} (h : table.slotFor id = none) : table.state id = none := by
  unfold state
  rw [h]
  rfl

variable {next : MemTable}

/-- `apply_document_upsert` writes the point's entry. -/
theorem apply_document_upsert_ok (h : table.WellFormed) (hdim : 0 < table.dimension) {id : Int64}
    {sequence : Nat} {values : List F32} {fields : List DocumentField}
    (hrun : table.applyDocumentUpsert id sequence values fields = .ok next) :
    next.WellFormed ∧ next.dimension = table.dimension ∧
      next.lastSequence = max table.lastSequence sequence ∧ next.state = update table.state
        id (some (upsertEntry (table.state id) id sequence values fields)) := by
  unfold applyDocumentUpsert at hrun
  simp only [bind_ok, require_ok, exists_unit] at hrun
  obtain ⟨-, hlen, -, hrun⟩ := hrun
  cases hslot : table.slotFor id with
  | none =>
      rw [show (table.advanceSequence sequence).slotFor id = none from hslot] at hrun
      obtain rfl := pure_ok.1 hrun
      have hentry : (MemTableEntry.withFields id sequence false values fields).isDenseLive = true := by
        have hne : values.length ≠ 0 := by omega
        unfold MemTableEntry.isDenseLive MemTableEntry.hasDense MemTableEntry.field?
          MemTableEntry.withFields
        simp [hne]
      obtain ⟨hwf, hstate⟩ := append_well_formed h
        (.withFields id sequence false values fields) hslot (max table.lastSequence sequence)
        (table.liveCount + 1) (table.denseLiveCount + 1) rfl (by rw [hentry]; rfl)
      refine ⟨hwf, rfl, rfl, ?_⟩
      rw [state_of_none hslot]
      exact hstate
  | some slot =>
      obtain ⟨index, old⟩ := slot
      obtain ⟨hold, hid⟩ := (slot_for_iff h).1 hslot
      rw [show (table.advanceSequence sequence).slotFor id = some (index, old) from hslot] at hrun
      rw [state_of_slot hslot]
      simp only [upsertEntry] at hrun ⊢
      split at hrun
      · rename_i hle
        obtain rfl := pure_ok.1 hrun
        refine ⟨advance_well_formed h sequence, rfl, rfl, ?_⟩
        rw [if_pos hle, ← state_of_slot hslot, update_eq_self]
        rfl
      · rename_i hgt
        obtain rfl := pure_ok.1 hrun
        rw [if_neg hgt, ← hid]
        have hdense : MemTableEntry.isDenseLive { old with
            sequence := sequence, documentSequence := sequence, tombstone := false,
            vectors := MemTableEntry.setVector old.vectors ⟨0, .dense (.f32 values)⟩,
            payload := fields } = true := by
          unfold MemTableEntry.isDenseLive
          rw [MemTableEntry.has_dense_set_vector old ⟨0, .dense (.f32 values)⟩ rfl]
          rfl
        obtain ⟨hwf, hstate⟩ := set_well_formed h { old with
            sequence := sequence, documentSequence := sequence, tombstone := false,
            vectors := MemTableEntry.setVector old.vectors ⟨0, .dense (.f32 values)⟩,
            payload := fields } hold rfl
          (table.liveCount + if old.tombstone then 1 else 0)
          (table.denseLiveCount + if old.tombstone ∨ ¬ old.hasDense then 1 else 0)
          (by cases old.tombstone <;> simp)
          (by
            rw [hdense]
            unfold MemTableEntry.isDenseLive
            cases old.tombstone <;> cases old.hasDense <;> simp)
          (max table.lastSequence sequence)
        exact ⟨hwf, rfl, rfl, hstate⟩

/-- `apply_delete` leaves a tombstone. -/
theorem apply_delete_ok (h : table.WellFormed) {id : Int64} {sequence : Nat}
    (hrun : table.applyDelete id sequence = .ok next) :
    next.WellFormed ∧ next.dimension = table.dimension ∧
      next.lastSequence = max table.lastSequence sequence ∧ next.state = update table.state
        id (some (deleteEntry (table.state id) id sequence)) := by
  unfold applyDelete at hrun
  simp only [bind_ok, require_ok, exists_unit] at hrun
  obtain ⟨-, hrun⟩ := hrun
  cases hslot : table.slotFor id with
  | none =>
      rw [show (table.advanceSequence sequence).slotFor id = none from hslot] at hrun
      obtain rfl := pure_ok.1 hrun
      obtain ⟨hwf, hstate⟩ := append_well_formed h (tombstoneOf id sequence) hslot
        (max table.lastSequence sequence) table.liveCount table.denseLiveCount rfl rfl
      refine ⟨hwf, rfl, rfl, ?_⟩
      rw [state_of_none hslot]
      exact hstate
  | some slot =>
      obtain ⟨index, old⟩ := slot
      obtain ⟨hold, hid⟩ := (slot_for_iff h).1 hslot
      rw [show (table.advanceSequence sequence).slotFor id = some (index, old) from hslot] at hrun
      rw [state_of_slot hslot]
      simp only [deleteEntry] at hrun ⊢
      split at hrun
      · rename_i hle
        obtain rfl := pure_ok.1 hrun
        refine ⟨advance_well_formed h sequence, rfl, rfl, ?_⟩
        rw [if_pos hle, ← state_of_slot hslot, update_eq_self]
        rfl
      · rename_i hgt
        obtain rfl := pure_ok.1 hrun
        rw [if_neg hgt]
        have hmem := mem_of_getElem? hold
        obtain ⟨hwf, hstate⟩ := set_well_formed h (tombstoneOf id sequence) hold hid.symm
          (if old.tombstone then table.liveCount else table.liveCount - 1)
          (if ¬ old.tombstone ∧ old.hasDense then table.denseLiveCount - 1
            else table.denseLiveCount)
          (by
            have hpos : old.tombstone = false → 0 < table.liveCount := fun hlive => by
              rw [h.live_eq]
              exact countP_pos_iff.2 ⟨old, hmem, by rw [hlive]; rfl⟩
            show _ = table.liveCount + 0
            cases ho : old.tombstone with
            | true => rfl
            | false => have := hpos ho; simp; omega)
          (by
            have hpos : old.isDenseLive = true → 0 < table.denseLiveCount := fun hlive => by
              rw [h.dense_eq]
              exact countP_pos_iff.2 ⟨old, hmem, hlive⟩
            show _ = table.denseLiveCount + 0
            unfold MemTableEntry.isDenseLive at hpos ⊢
            cases ho : old.tombstone <;> cases hd : old.hasDense <;> simp [ho, hd] at hpos ⊢
            omega)
          (max table.lastSequence sequence)
        exact ⟨hwf, rfl, rfl, hstate⟩

/-- `set_sparse` changes the sparse field of a live point. -/
theorem set_sparse_ok (h : table.WellFormed) {id : Int64} {elements : List SparseElement}
    (hrun : table.setSparse id elements = .ok next) :
    next.WellFormed ∧ next.dimension = table.dimension ∧
      next.lastSequence = table.lastSequence ∧ ∃ old, table.state id = some old ∧
        old.tombstone = false ∧ next.state = update table.state id (some { old with
          vectors := MemTableEntry.setVector old.vectors ⟨1, .sparse elements⟩ }) := by
  unfold setSparse at hrun
  simp only [bind_ok, exists_unit] at hrun
  obtain ⟨-, hrun⟩ := hrun
  cases hslot : table.slotFor id with
  | none => simp [hslot, throw, throwThe, MonadExceptOf.throw] at hrun
  | some slot =>
      obtain ⟨index, old⟩ := slot
      obtain ⟨hold, hid⟩ := (slot_for_iff h).1 hslot
      simp only [hslot, bind_ok, require_ok, exists_unit, pure_ok] at hrun
      obtain ⟨hlive, rfl⟩ := hrun
      have hdense : MemTableEntry.hasDense { old with
          vectors := MemTableEntry.setVector old.vectors ⟨1, .sparse elements⟩ } = old.hasDense :=
        MemTableEntry.has_dense_set_vector old ⟨1, .sparse elements⟩ rfl
      obtain ⟨hwf, hstate⟩ := set_well_formed h { old with
          vectors := MemTableEntry.setVector old.vectors ⟨1, .sparse elements⟩ } hold rfl
        table.liveCount table.denseLiveCount rfl
        (by
          unfold MemTableEntry.isDenseLive
          rw [hdense])
        table.lastSequence
      refine ⟨hwf, rfl, rfl, old, state_of_slot hslot, by simpa using hlive, ?_⟩
      rw [← hid]
      exact hstate

/-! ## Operations as one type -/

/-- One change of the table. -/
inductive Change where
  | upsert (id : Int64) (sequence : Nat) (values : List F32) (fields : List DocumentField)
  | delete (id : Int64) (sequence : Nat)
  | setSparse (id : Int64) (elements : List SparseElement)
  | put (entry : MemTableEntry)

/-- The point a change is about. -/
def Change.id : Change → Int64
  | .upsert id _ _ _ => id
  | .delete id _ => id
  | .setSparse id _ => id
  | .put entry => entry.id

def Change.apply (table : MemTable) : Change → Except String MemTable
  | .upsert id sequence values fields => table.applyDocumentUpsert id sequence values fields
  | .delete id sequence => table.applyDelete id sequence
  | .setSparse id elements => table.setSparse id elements
  | .put entry => .ok (table.put entry)

/-- The changes of a batch in order. -/
def applyChanges (table : MemTable) : List Change → Except String MemTable
  | [] => pure table
  | change :: changes => do
      let next ← change.apply table
      applyChanges next changes

/-- A change keeps the table well formed and changes the state of its point only. -/
theorem change_apply_ok (h : table.WellFormed) (hdim : 0 < table.dimension) {change : Change}
    (hrun : change.apply table = .ok next) :
    next.WellFormed ∧ next.dimension = table.dimension ∧
      (∃ entry, next.state = update table.state change.id (some entry)) := by
  cases change with
  | upsert id sequence values fields =>
      obtain ⟨hwf, hd, -, hstate⟩ := apply_document_upsert_ok h hdim hrun
      exact ⟨hwf, hd, _, hstate⟩
  | delete id sequence =>
      obtain ⟨hwf, hd, -, hstate⟩ := apply_delete_ok h hrun
      exact ⟨hwf, hd, _, hstate⟩
  | setSparse id elements =>
      obtain ⟨hwf, hd, -, old, -, -, hstate⟩ := set_sparse_ok h hrun
      exact ⟨hwf, hd, _, hstate⟩
  | put entry =>
      obtain rfl := Except.ok.inj hrun
      obtain ⟨hwf, hstate⟩ := put_spec h entry
      refine ⟨hwf, ?_, _, hstate⟩
      unfold MemTable.put
      simp only
      split <;> rfl

/-- A batch changes the states of its points only. -/
theorem apply_changes_ok (h : table.WellFormed) (hdim : 0 < table.dimension)
    {changes : List Change} (hrun : table.applyChanges changes = .ok next) :
    next.WellFormed ∧ next.dimension = table.dimension ∧
      (∀ id, id ∉ changes.map (·.id) → next.state id = table.state id) ∧
      ∀ id ∈ changes.map (·.id), (next.state id).isSome = true := by
  induction changes generalizing table with
  | nil =>
      obtain rfl := pure_ok.1 hrun
      exact ⟨h, rfl, fun _ _ => rfl, nofun⟩
  | cons change changes ih =>
      simp only [applyChanges, bind_ok] at hrun
      obtain ⟨middle, hfirst, hrest⟩ := hrun
      obtain ⟨hwf, hd, entry, hstate⟩ := change_apply_ok h hdim hfirst
      obtain ⟨hwf', hd', hother, hsome⟩ := ih hwf (hd ▸ hdim) hrest
      refine ⟨hwf', hd'.trans hd, fun id hid => ?_, fun id hid => ?_⟩
      · rw [map_cons, mem_cons, not_or] at hid
        rw [hother id hid.2, hstate, update_of_ne hid.1]
      · by_cases hrest : id ∈ changes.map (·.id)
        · exact hsome id hrest
        · rw [hother id hrest, hstate]
          rcases mem_cons.1 hid with rfl | hid
          · rw [update_self]
            rfl
          · exact absurd hid hrest

end MemTable

end Akasha.Storage

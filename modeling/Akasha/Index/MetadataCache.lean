import Akasha.Index.Metadata
import Akasha.Lib.Slots
import Akasha.Storage.BinaryReader

/-!
# Slots of the metadata index and their cache

`slots` is what an index shows, slot by slot. Writing the state of a point puts one slot; the
cache of an index is its slots in order, and reading it back writes them into an empty index.
-/

namespace Akasha.Index

open Lib List

/-- An identifier, and its fields if it is live. -/
abbrev Slot := Int64 × Option (List DocumentField)

namespace MetadataIndex

/-- The fields of a live slot. -/
def contentAt (index : MetadataIndex) (ordinal : Nat) : Option (List DocumentField) :=
  if index.live.has ordinal then some (index.fieldsAt ordinal) else none

/-- What the index shows, in the order of its slots. -/
def slots (index : MetadataIndex) : List Slot :=
  index.ids.zipIdx.map fun (id, ordinal) => (id, index.contentAt ordinal)

/-- Write the final state of a point: a tombstone is deleted, a live point upserted. -/
def writeSlot (index : MetadataIndex) : Slot → Except String MetadataIndex
  | (id, some fields) => index.upsert id fields
  | (id, none) => index.delete id

/-- Write the states of points in order. -/
def writeSlots (index : MetadataIndex) : List Slot → Except String MetadataIndex
  | [] => pure index
  | slot :: slots => do
      let next ← index.writeSlot slot
      writeSlots next slots

/-! ## The cache -/

/-- One slot of the cache. -/
def encodeCacheSlot (index : MetadataIndex) (id : Int64) (ordinal : Nat) :
    Except String (List UInt8) := do
  let payload ← encodePayload (index.fieldsAt ordinal)
  require (payload.length < 2 ^ 32) "metadata cache payload exceeds format"
  pure (i64Bytes id ++ ((if index.live.has ordinal then 1 else 0) :: 0 :: (leBytes 2 0 ++
    (leBytes 4 payload.length ++ payload))))

/-- The slots of the cache in order. -/
def encodeCacheSlots (index : MetadataIndex) : List (Int64 × Nat) → Except String (List UInt8)
  | [] => pure []
  | (id, ordinal) :: slots => do
      let first ← index.encodeCacheSlot id ordinal
      let rest ← encodeCacheSlots index slots
      pure (first ++ rest)

/-- `encode_cache_payload`. -/
def encodeCachePayload (index : MetadataIndex) : Except String (List UInt8) := do
  require (index.slotCount < 2 ^ 32) "metadata cache slot count exceeds format"
  let slots ← index.encodeCacheSlots index.ids.zipIdx
  pure (leBytes 4 index.slotCount ++ slots)

/-- Write a slot that was read; a tombstone has no fields. -/
def restoreSlot (index : MetadataIndex) (live : Nat) (id : Int64) (fields : List DocumentField) :
    Except String MetadataIndex :=
  if live = 1 then index.upsert id fields
  else do
    require (fields.length = 0) "metadata tombstone cache contains fields"
    index.delete id

/-- One round of the loop of `decode_cache_payload`. -/
def readCacheSlot (index : MetadataIndex) : Reader MetadataIndex := do
  let id ← readI64
  let live ← readU8
  let reserved ← readU8
  let flags ← readU16
  check (live ≤ 1 ∧ reserved = 0 ∧ flags = 0) "metadata cache slot header is invalid"
  let length ← readU32
  let left ← remaining
  check (length ≤ left) "metadata cache field payload is truncated"
  let bytes ← readSpan length
  let fields ← ofResult (decodePayload bytes)
  ofResult (index.restoreSlot live id fields)

/-- The loop of `decode_cache_payload`. -/
def readCacheSlots (index : MetadataIndex) : Nat → Reader MetadataIndex
  | 0 => pure index
  | count + 1 => do
      let next ← index.readCacheSlot
      readCacheSlots next count

/-- The slot count and the slots, into an empty index. -/
def readCache : Reader MetadataIndex := do
  let count ← readU32
  check (count ≤ 10000000) "metadata cache slot count exceeds limit"
  let index ← ofResult empty.beginBulk
  index.readCacheSlots count

/-- `decode_cache_payload`. -/
def decodeCachePayload (bytes : List UInt8) : Except String MetadataIndex := do
  let (index, rest) ← readCache bytes
  require (rest = []) "metadata cache has trailing bytes"
  index.finishBulk

/-! ## What writes do to the slots -/

variable {index next : MetadataIndex}

theorem map_fst_slots (index : MetadataIndex) : index.slots.map (·.1) = index.ids := by
  rw [slots, map_map]
  exact zipIdx_map_fst 0 index.ids

theorem slots_get (index : MetadataIndex) (ordinal : Nat) :
    index.slots[ordinal]? = (index.ids[ordinal]?).map fun id => (id, index.contentAt ordinal) := by
  rw [slots, List.getElem?_map, List.getElem?_zipIdx, Option.map_map]
  simp only [Nat.zero_add]
  rfl

theorem ids_nodup (h : Consistent index) : index.ids.Nodup := by
  refine nodup_iff_pairwise_ne.2 (pairwise_iff_getElem.2 fun i j hi hj hij heq => ?_)
  have h₁ := (h.ordinals_iff _ i).2 (List.getElem?_eq_getElem hi)
  have h₂ := (h.ordinals_iff _ j).2 (heq ▸ List.getElem?_eq_getElem hj)
  rw [h₁] at h₂
  exact absurd (Option.some.inj h₂) (by omega)

/-- What an index shows for an identifier. -/
def contents (index : MetadataIndex) : Contents := fun id =>
  index.ordinals[id]?.bind index.contentAt

theorem current_contents (h : Consistent index) : Current index index.contents := by
  refine ⟨fun id fields hsome => ?_, fun o id ho => ?_⟩
  · obtain ⟨o, ho, -⟩ := Option.bind_eq_some_iff.1 hsome
    exact ⟨o, ho⟩
  · rw [contents, (h.ordinals_iff id o).2 ho]
    rfl

theorem slots_eq {contents : Contents} (h : Current index contents) :
    index.slots = index.ids.map fun id => (id, contents id) := by
  refine ext_getElem? fun o => ?_
  rw [slots_get, List.getElem?_map]
  cases hid : index.ids[o]? with
  | none => rfl
  | some id =>
      rw [Option.map_some, Option.map_some, h.shown o id hid]
      rfl

theorem slots_update (h : Consistent index) {id : Int64} {content : Option (List DocumentField)}
    (hcurrent : Current next (Function.update index.contents id content))
    (hids : next.ids = if id ∈ index.ids then index.ids else index.ids ++ [id]) :
    next.slots = putBy Prod.fst index.slots (id, content) := by
  rw [slots_eq hcurrent, slots_eq (current_contents h), hids, put_by_map (ids_nodup h)]

theorem write_slot_ok (slot : Slot) (h : Consistent index)
    (hrun : index.writeSlot slot = .ok next) :
    Consistent next ∧ next.slots = putBy Prod.fst index.slots slot ∧
      next.bulkLoading = index.bulkLoading := by
  have hc := current_contents h
  obtain ⟨id, content⟩ := slot
  cases content with
  | some fields =>
      have hchecks := hrun
      simp only [writeSlot, upsert, bind_ok, require_ok, exists_unit] at hchecks
      obtain ⟨result, hresult, hr, hcr, hids, hbulk⟩ := upsert_ok h hc hchecks.1 hchecks.2.1
      obtain rfl : result = next := Except.ok.inj (hresult.symm.trans hrun)
      exact ⟨hr, slots_update h hcr hids, hbulk⟩
  | none =>
      obtain ⟨result, hresult, hr, hcr, hids, hbulk⟩ := delete_ok h hc id
      obtain rfl : result = next := Except.ok.inj (hresult.symm.trans hrun)
      exact ⟨hr, slots_update h hcr hids, hbulk⟩

theorem write_slots_ok {slots : List Slot} (h : Consistent index)
    (hrun : index.writeSlots slots = .ok next) :
    Consistent next ∧ next.slots = slots.foldl (putBy Prod.fst) index.slots ∧
      next.bulkLoading = index.bulkLoading := by
  induction slots generalizing index with
  | nil =>
      obtain rfl := pure_ok.1 hrun
      exact ⟨h, rfl, rfl⟩
  | cons slot slots ih =>
      simp only [writeSlots, bind_ok] at hrun
      obtain ⟨middle, hfirst, hrest⟩ := hrun
      obtain ⟨hmiddle, hput, hbulk⟩ := write_slot_ok slot h hfirst
      obtain ⟨hnext, hputs, hbulk'⟩ := ih hmiddle hrest
      refine ⟨hnext, ?_, hbulk'.trans hbulk⟩
      rw [hputs, hput]
      rfl

theorem begin_bulk_slots (h : Consistent index) (hrun : index.beginBulk = .ok next) :
    Consistent next ∧ next.slots = index.slots ∧ next.bulkLoading = true := by
  have hchecks := hrun
  simp only [beginBulk, bind_ok, require_ok, exists_unit, pure_ok] at hchecks
  obtain ⟨hempty, _, -, _, -, hnext⟩ := hchecks
  obtain ⟨result, hresult, hr, -⟩ := begin_bulk_ok h (current_contents h) hempty
  obtain rfl : result = next := Except.ok.inj (hresult.symm.trans hrun)
  exact ⟨hr, hnext ▸ rfl, hnext ▸ rfl⟩

theorem finish_bulk_slots (h : Consistent index) (hrun : index.finishBulk = .ok next) :
    Consistent next ∧ next.slots = index.slots ∧ next.bulkLoading = false := by
  have hchecks := hrun
  simp only [finishBulk, bind_ok, require_ok, exists_unit, pure_ok] at hchecks
  obtain ⟨hloading, _, -, _, -, hnext⟩ := hchecks
  obtain ⟨result, hresult, hr, -⟩ := finish_bulk_ok h (current_contents h) hloading
  obtain rfl : result = next := Except.ok.inj (hresult.symm.trans hrun)
  exact ⟨hr, hnext ▸ rfl, hnext ▸ rfl⟩

/-! ## The cache round trip -/

variable {source : MetadataIndex} {bytes : List UInt8}

/-- Reading one slot of a cache writes it. -/
theorem reads_cache_slot (hsource : Consistent source) {id : Int64} {ordinal : Nat}
    (hvalid : ∀ field ∈ source.fieldsAt ordinal, field.value.Valid)
    (hencode : source.encodeCacheSlot id ordinal = .ok bytes)
    (hwrite : index.writeSlot (id, source.contentAt ordinal) = .ok next) :
    Reads index.readCacheSlot bytes next := by
  simp only [encodeCacheSlot, bind_ok, require_ok, exists_unit, pure_ok] at hencode
  obtain ⟨payload, hpayload, hlength, rfl⟩ := hencode
  have hdecode := decode_encode_payload hvalid hpayload
  have hrestore : index.restoreSlot (if source.live.has ordinal = true then 1 else 0) id
      (source.fieldsAt ordinal) = .ok next := by
    unfold restoreSlot
    unfold contentAt at hwrite
    cases hlive : source.live.has ordinal with
    | true =>
        rw [hlive, if_pos rfl] at hwrite
        exact hwrite
    | false =>
        simp only [hlive, Bool.false_eq_true, if_false, zero_ne_one, writeSlot] at hwrite ⊢
        simp only [bind_ok, require_ok, exists_unit]
        exact ⟨by rw [hsource.dead_empty ordinal hlive]; rfl, hwrite⟩
  have hflag : (if source.live.has ordinal = true then (1 : UInt8) else 0).toNat =
      if source.live.has ordinal = true then 1 else 0 := by split <;> rfl
  refine reads_bind (reads_i64 id) (reads_u8_cons (reads_u8_cons ?_))
  rw [hflag]
  refine reads_bind (reads_u16 (by decide)) (reads_check ⟨by split <;> decide, rfl, rfl⟩ ?_)
  refine reads_bind (reads_u32 hlength) (reads_remaining fun left hleft => reads_check hleft ?_)
  refine reads_last (reads_span rfl) ?_
  refine reads_silent (reads_of_result hdecode) ?_
  exact reads_of_result hrestore

/-- A slot whose identifier is new is written. -/
theorem write_slot_fresh (slot : Slot) (h : Consistent index) (hnew : slot.1 ∉ index.ids)
    (hvalid : ∀ fields, slot.2 = some fields → validateFields fields = .ok ()) :
    ∃ next, index.writeSlot slot = .ok next ∧ Consistent next ∧ next.ids = index.ids ++ [slot.1] ∧
      next.slots = index.slots ++ [slot] ∧ next.bulkLoading = index.bulkLoading := by
  obtain ⟨id, content⟩ := slot
  obtain ⟨next, hrun⟩ : ∃ next, index.writeSlot (id, content) = .ok next := by
    cases content with
    | some fields =>
        have hnone : ¬ (index.bulkLoading = true ∧ (index.ordinalFor id).isSome = true) := by
          rintro ⟨-, hsome⟩
          obtain ⟨o, ho⟩ := Option.isSome_iff_exists.1 hsome
          exact hnew (mem_of_getElem? ((h.ordinals_iff id o).1 ho))
        obtain ⟨next, hnext, -⟩ := upsert_ok h (current_contents h) (hvalid fields rfl) hnone
        exact ⟨next, hnext⟩
    | none =>
        obtain ⟨next, hnext, -⟩ := delete_ok h (current_contents h) id
        exact ⟨next, hnext⟩
  obtain ⟨hnext, hput, hbulk⟩ := write_slot_ok (id, content) h hrun
  have happend : putBy Prod.fst index.slots (id, content) = index.slots ++ [(id, content)] := by
    refine fold_put_fresh index.slots [(id, content)] ?_
    rw [map_append, map_fst_slots]
    exact nodup_append.2 ⟨ids_nodup h, nodup_singleton _, fun a ha b hb heq =>
      hnew (by simpa [heq, mem_singleton.1 hb] using ha)⟩
  refine ⟨next, hrun, hnext, ?_, hput.trans happend, hbulk⟩
  rw [← map_fst_slots, hput, happend, map_append, map_fst_slots]
  rfl

/-- Reading the slots of a cache appends them. -/
theorem reads_cache_slots (hsource : Consistent source) {rows : List (Int64 × Nat)}
    (h : Consistent index) (hnodup : (index.ids ++ rows.map (·.1)).Nodup)
    (hvalid : ∀ ordinal, ∀ field ∈ source.fieldsAt ordinal, field.value.Valid)
    (hencode : source.encodeCacheSlots rows = .ok bytes) :
    ∃ next, Reads (index.readCacheSlots rows.length) bytes next ∧ Consistent next ∧
      next.slots = index.slots ++ rows.map (fun row => (row.1, source.contentAt row.2)) ∧
      next.bulkLoading = index.bulkLoading := by
  induction rows generalizing index bytes with
  | nil =>
      simp only [encodeCacheSlots, pure_ok] at hencode
      subst hencode
      exact ⟨index, reads_pure index, h, by simp, rfl⟩
  | cons row rows ih =>
      obtain ⟨id, ordinal⟩ := row
      simp only [encodeCacheSlots, bind_ok, pure_ok] at hencode
      obtain ⟨first, hfirst, rest, hrest, rfl⟩ := hencode
      rw [map_cons] at hnodup
      have hnew : id ∉ index.ids := fun hmem =>
        (nodup_append.1 hnodup).2.2 id hmem id (by simp) rfl
      have hfields : ∀ fields, source.contentAt ordinal = some fields →
          validateFields fields = .ok () := by
        intro fields hsome
        obtain ⟨hlive, heq⟩ := Option.ite_none_right_eq_some.1 hsome
        have hencoded := hfirst
        simp only [encodeCacheSlot, bind_ok] at hencoded
        obtain ⟨payload, hpayload, -⟩ := hencoded
        rw [← Option.some.inj heq]
        exact (encode_payload_ok.1 ⟨payload, hpayload⟩).2.1
      obtain ⟨middle, hwrite, hmiddle, hids, hslots, hbulk⟩ :=
        write_slot_fresh (id, source.contentAt ordinal) h hnew hfields
      obtain ⟨next, hreads, hnext, hslots', hbulk'⟩ :=
        ih hmiddle (by rw [hids]; simpa using hnodup) hrest
      refine ⟨next, ?_, hnext, ?_, hbulk'.trans hbulk⟩
      · exact reads_bind (reads_cache_slot hsource (hvalid ordinal) hfirst hwrite) hreads
      · rw [hslots', hslots, append_assoc]
        rfl

/-- The bytes of a cache are read in full. -/
theorem reads_cache (hsource : Consistent source)
    (hvalid : ∀ ordinal, ∀ field ∈ source.fieldsAt ordinal, field.value.Valid)
    (hlimit : source.slotCount ≤ 10000000) (hencode : source.encodeCachePayload = .ok bytes) :
    ∃ filled, ReadsAll readCache bytes filled ∧ Consistent filled ∧
      filled.slots = source.slots ∧ filled.bulkLoading = true := by
  simp only [encodeCachePayload, bind_ok, require_ok, exists_unit, pure_ok] at hencode
  obtain ⟨hcount, encoded, hencoded, rfl⟩ := hencode
  obtain ⟨begun, hbegin⟩ : ∃ begun, empty.beginBulk = .ok begun := by
    obtain ⟨begun, hbegin, -⟩ :=
      begin_bulk_ok empty_consistent (current_contents empty_consistent) (by decide)
    exact ⟨begun, hbegin⟩
  obtain ⟨hbegun, hslots, hbulk⟩ := begin_bulk_slots empty_consistent hbegin
  have hids : begun.ids = [] := by
    rw [← map_fst_slots, hslots]
    rfl
  obtain ⟨filled, hreads, hfilled, hfilledSlots, hfilledBulk⟩ := reads_cache_slots hsource hbegun
    (by rw [hids, nil_append, zipIdx_map_fst]; exact ids_nodup hsource) hvalid hencoded
  rw [length_zipIdx] at hreads
  refine ⟨filled, all_bind (reads_u32 hcount) (all_check hlimit ?_), hfilled, ?_,
    hfilledBulk.trans hbulk⟩
  · exact all_silent (reads_of_result hbegin) (reads_all hreads)
  · rw [hfilledSlots, hslots]
    rfl

theorem cache_decodes (hsource : Consistent source)
    (hvalid : ∀ ordinal, ∀ field ∈ source.fieldsAt ordinal, field.value.Valid)
    (hlimit : source.slotCount ≤ 10000000) (hencode : source.encodeCachePayload = .ok bytes) :
    ∃ next, decodeCachePayload bytes = .ok next ∧ Consistent next ∧ next.slots = source.slots ∧
      next.bulkLoading = false := by
  obtain ⟨filled, hreads, hfilled, hslots, hbulk⟩ := reads_cache hsource hvalid hlimit hencode
  obtain ⟨next, hfinish, -⟩ := finish_bulk_ok hfilled (current_contents hfilled) hbulk
  obtain ⟨hnext, hnextSlots, hnextBulk⟩ := finish_bulk_slots hfilled hfinish
  refine ⟨next, ?_, hnext, hnextSlots.trans hslots, hnextBulk⟩
  simp only [decodeCachePayload, bind_ok, require_ok, exists_unit]
  exact ⟨(filled, []), hreads, rfl, hfinish⟩

theorem decode_encode_cache (hsource : Consistent source)
    (hvalid : ∀ ordinal, ∀ field ∈ source.fieldsAt ordinal, field.value.Valid)
    (hencode : source.encodeCachePayload = .ok bytes)
    (hdecode : decodeCachePayload bytes = .ok next) :
    Consistent next ∧ next.slots = source.slots ∧ next.bulkLoading = false := by
  have hlimit : source.slotCount ≤ 10000000 := by
    simp only [encodeCachePayload, bind_ok, require_ok, exists_unit, pure_ok]
      at hencode
    obtain ⟨hcount, encoded, -, rfl⟩ := hencode
    simp only [decodeCachePayload, bind_ok, require_ok, exists_unit] at hdecode
    obtain ⟨⟨read, rest⟩, hread, -⟩ := hdecode
    have hafter := reads_then (reads_u32 hcount) hread
    exact (check_then hafter).1
  obtain ⟨found, hfound, hspec⟩ := cache_decodes hsource hvalid hlimit hencode
  obtain rfl : found = next := Except.ok.inj (hfound.symm.trans hdecode)
  exact hspec

end MetadataIndex

end Akasha.Index

import Akasha.Document.Value
import Akasha.Lib.Except
import Mathlib.Logic.Function.Basic
import Std.Data.ExtTreeMap

/-!
# Graph slots and the segmented index

An HNSW graph appends a slot for every vector it is given and keeps one current slot for each
point. `SegmentedHnsw` puts a mutable delta graph over an immutable base and binds each current
point to its source. The vectors that a graph stores are prepared from the caller's numbers by
`prepare`, which depends on the metric and the scalar kind. Edges and levels are left out: they
decide which points a search visits, not which points are current. A raise while a slot is linked
abandons the whole index under construction.
-/

namespace Akasha.Index

open Lib Function List

variable {V : Type}

/-- A slot of a graph. Replaced and deleted slots stay, but are not current. -/
structure HnswSlot (V : Type) where
  id : Int64
  vector : V
  current : Bool

/-- The slots of a graph and the current slot of each point. -/
structure HnswIndex (V : Type) where
  slots : List (HnswSlot V)
  currentSlots : Std.ExtTreeMap Int64 Nat

variable {values : List F32}

namespace HnswIndex

/-- `HnswIndex(config)`. -/
def empty : HnswIndex V :=
  ⟨[], ∅⟩

/-- `current_slot`: a stale entry of the map is rejected. -/
def currentSlot (index : HnswIndex V) (id : Int64) : Option Nat :=
  (index.currentSlots[id]?).filter fun slot =>
    (index.slots[slot]?).any fun item => item.current && item.id == id

/-- `append`: a new slot, published as the current one. -/
def append (index : HnswIndex V) (id : Int64) (vector : V) : Except String (HnswIndex V) := do
  require ((index.currentSlot id).isNone) "HNSW public ID already has a current slot"
  pure {
    slots := index.slots ++ [⟨id, vector, true⟩]
    currentSlots := index.currentSlots.insert id index.slots.length }

/-- `mark_replaced` and `mark_deleted`: the slot of a point is no longer current. -/
def retire (index : HnswIndex V) (id : Int64) : HnswIndex V :=
  match index.currentSlot id with
  | none => index
  | some slot =>
      { slots := index.slots.modify slot fun item => { item with current := false }
        currentSlots := index.currentSlots.erase id }

variable (prepare : List F32 → Except String V)

/-- `add`: a point that has no current slot. -/
def add (index : HnswIndex V) (id : Int64) (values : List F32) :
    Except String (HnswIndex V) := do
  require ((index.currentSlot id).isNone) "HNSW point IDs must be unique"
  let prepared ← prepare values
  index.append id prepared

/-- `upsert`: the vector is prepared before the old slot is retired. -/
def upsert (index : HnswIndex V) (id : Int64) (values : List F32) :
    Except String (HnswIndex V) := do
  let prepared ← prepare values
  (index.retire id).append id prepared

/-- `delete`: whether the point had a current slot. -/
def delete (index : HnswIndex V) (id : Int64) : HnswIndex V × Bool :=
  (index.retire id, (index.currentSlot id).isSome)

/-- The vector in the current slot of a point. -/
def vector? (index : HnswIndex V) (id : Int64) : Option V :=
  (index.currentSlot id).bind fun slot => (index.slots[slot]?).map (·.vector)

/-- A slot holds the current vector of a point. -/
def HoldsAt (index : HnswIndex V) (id : Int64) (slot : Nat) (vector : V) : Prop :=
  index.slots[slot]? = some ⟨id, vector, true⟩

/-- The map of current slots agrees with the slots. -/
def WellFormed (index : HnswIndex V) : Prop :=
  ∀ (id : Int64) (slot : Nat),
    index.currentSlots[id]? = some slot ↔ ∃ vector, index.HoldsAt id slot vector

variable {prepare} {index next : HnswIndex V} {id : Int64} {vector : V}

theorem empty_well_formed : (empty : HnswIndex V).WellFormed := by
  intro id slot
  simp [empty, HoldsAt]

theorem current_slot_eq (h : index.WellFormed) : index.currentSlot id = index.currentSlots[id]? := by
  unfold currentSlot
  cases hslot : index.currentSlots[id]? with
  | none => rfl
  | some slot =>
      obtain ⟨vector, hholds⟩ := (h id slot).1 hslot
      refine Option.filter_some_pos ?_
      rw [hholds]
      simp

theorem vector_iff (h : index.WellFormed) :
    index.vector? id = some vector ↔ ∃ slot, index.HoldsAt id slot vector := by
  unfold vector?
  rw [current_slot_eq h, Option.bind_eq_some_iff]
  constructor
  · rintro ⟨slot, hslot, hvector⟩
    obtain ⟨v, hholds⟩ := (h id slot).1 hslot
    rw [hholds] at hvector
    exact ⟨slot, Option.some.inj hvector ▸ hholds⟩
  · rintro ⟨slot, hholds⟩
    exact ⟨slot, (h id slot).2 ⟨vector, hholds⟩, by rw [hholds]; rfl⟩

theorem vector_is_none (h : index.WellFormed) :
    index.vector? id = none ↔ ∀ slot vector, ¬ index.HoldsAt id slot vector := by
  rw [Option.eq_none_iff_forall_ne_some]
  constructor
  · intro hnone slot vector hholds
    exact hnone vector ((vector_iff h).2 ⟨slot, hholds⟩)
  · intro hnone vector hsome
    obtain ⟨slot, hholds⟩ := (vector_iff h).1 hsome
    exact hnone slot vector hholds

theorem holds_unique (h : index.WellFormed) {slot slot' : Nat} {vector' : V}
    (hslot : index.HoldsAt id slot vector) (hslot' : index.HoldsAt id slot' vector') :
    slot = slot' := by
  have h₁ := (h id slot).2 ⟨vector, hslot⟩
  have h₂ := (h id slot').2 ⟨vector', hslot'⟩
  rw [h₁] at h₂
  exact Option.some.inj h₂

theorem vector_update (h : index.WellFormed) (hnext : next.WellFormed) {bound : Option V}
    (hself : next.vector? id = bound)
    (hother : ∀ other ≠ id, ∀ slot vector,
      next.HoldsAt other slot vector ↔ index.HoldsAt other slot vector) :
    next.vector? = update index.vector? id bound := by
  funext other
  rw [update_apply]
  split
  · rename_i heq
    rw [heq, hself]
  · rename_i hne
    refine Option.ext fun vector => ?_
    rw [vector_iff hnext, vector_iff h]
    exact exists_congr fun slot => hother other hne slot vector

/-- Appending gives a point its vector and touches no other point. -/
theorem append_ok (h : index.WellFormed) (hrun : index.append id vector = .ok next) :
    next.WellFormed ∧ next.vector? = update index.vector? id (some vector) := by
  unfold append at hrun
  simp only [bind_ok, exists_unit, require_ok, pure_ok] at hrun
  obtain ⟨hnone, rfl⟩ := hrun
  rw [Option.isNone_iff_eq_none, current_slot_eq h] at hnone
  have hfresh : ∀ slot v, ¬ index.HoldsAt id slot v := fun slot v hholds => by
    rw [(h id slot).2 ⟨v, hholds⟩] at hnone
    cases hnone
  -- A slot of the longer list is the new one or an old one.
  have hget : ∀ other slot v, HoldsAt ⟨index.slots ++ [⟨id, vector, true⟩],
      index.currentSlots.insert id index.slots.length⟩ other slot v ↔
        index.HoldsAt other slot v ∨ slot = index.slots.length ∧ other = id ∧ v = vector := by
    intro other slot v
    unfold HoldsAt
    rcases Nat.lt_trichotomy slot index.slots.length with hlt | heq | hgt
    · rw [List.getElem?_append_left hlt]
      exact ⟨.inl, fun hor => hor.elim (fun hold => hold) fun hnew => absurd hnew.1 (by omega)⟩
    · subst heq
      rw [List.getElem?_concat_length, List.getElem?_eq_none le_rfl]
      simp [eq_comm]
    · rw [List.getElem?_eq_none (by simp only [length_append, length_singleton]; omega),
        List.getElem?_eq_none (by omega)]
      simp only [reduceCtorEq, false_or, false_iff, not_and]
      omega
  have hwf : WellFormed ⟨index.slots ++ [⟨id, vector, true⟩],
      index.currentSlots.insert id index.slots.length⟩ := by
    intro other slot
    simp only [hget, Std.ExtTreeMap.getElem?_insert]
    by_cases hid : id = other
    · subst hid
      rw [if_pos Std.ReflCmp.compare_self, Option.some.injEq]
      simp only [true_and]
      constructor
      · intro heq
        exact ⟨vector, .inr ⟨heq.symm, rfl⟩⟩
      · rintro ⟨v, hholds | ⟨heq, -⟩⟩
        · exact absurd hholds (hfresh slot v)
        · exact heq.symm
    · rw [if_neg fun heq => hid (Std.LawfulEqCmp.eq_of_compare heq), h other slot]
      exact exists_congr fun v => ⟨.inl, fun hor => hor.elim (fun hold => hold) fun hnew =>
        absurd hnew.2.1.symm hid⟩
  refine ⟨hwf, vector_update h hwf ((vector_iff hwf).2 ⟨index.slots.length, ?_⟩) ?_⟩
  · exact (hget _ _ _).2 (.inr ⟨rfl, rfl, rfl⟩)
  · intro other hne slot v
    rw [hget]
    exact ⟨fun hor => hor.elim (fun hold => hold) fun hnew => absurd hnew.2.1 hne, .inl⟩

/-- Retiring leaves a point without a current slot and touches no other point. -/
theorem retire_spec (h : index.WellFormed) (id : Int64) :
    (index.retire id).WellFormed ∧
      (index.retire id).vector? = update index.vector? id none := by
  unfold retire
  cases hslot : index.currentSlot id with
  | none =>
      rw [current_slot_eq h] at hslot
      refine ⟨h, ?_⟩
      have hself : index.vector? id = none := by
        rw [vector?, current_slot_eq h, hslot]
        rfl
      rw [← hself, update_eq_self]
  | some slot =>
      rw [current_slot_eq h] at hslot
      obtain ⟨vector, hholds⟩ := (h id slot).1 hslot
      have hget : ∀ other slot' v, HoldsAt
          ⟨index.slots.modify slot fun item => { item with current := false },
            index.currentSlots.erase id⟩ other slot' v ↔
          index.HoldsAt other slot' v ∧ other ≠ id := by
        intro other slot' v
        unfold HoldsAt
        rw [List.getElem?_modify]
        by_cases heq : slot = slot'
        · subst heq
          have hold : index.slots[slot]? = some ⟨id, vector, true⟩ := hholds
          simp only [hold, if_true, Option.map_eq_map, Option.map_some, Option.some.injEq,
            HnswSlot.mk.injEq, Bool.false_eq_true, and_false, false_iff, not_and, not_not]
          exact fun hsame => hsame.1.symm
        · simp only [heq, if_false, Option.map_eq_map, Option.map_id_fun']
          refine ⟨fun hold => ⟨hold, fun hid => heq ?_⟩, fun hand => hand.1⟩
          exact holds_unique h hholds (hid ▸ hold)
      have hwf : WellFormed ⟨index.slots.modify slot fun item => { item with current := false },
          index.currentSlots.erase id⟩ := by
        intro other slot'
        simp only [hget, Std.ExtTreeMap.getElem?_erase]
        by_cases hid : id = other
        · subst hid
          simp
        · rw [if_neg fun heq => hid (Std.LawfulEqCmp.eq_of_compare heq), h other slot']
          simp [Ne.symm hid]
      refine ⟨hwf, vector_update h hwf ((vector_is_none hwf).2 fun slot' v hholds' => ?_) ?_⟩
      · exact ((hget _ _ _).1 hholds').2 rfl
      · intro other hne slot' v
        rw [hget]
        exact and_iff_left hne

theorem add_ok (h : index.WellFormed) (hrun : index.add prepare id values = .ok next) :
    next.WellFormed ∧ ∃ vector, prepare values = .ok vector ∧
      next.vector? = update index.vector? id (some vector) := by
  unfold add at hrun
  simp only [bind_ok, exists_unit, require_ok] at hrun
  obtain ⟨-, vector, hprepare, happend⟩ := hrun
  obtain ⟨hwf, hvector⟩ := append_ok h happend
  exact ⟨hwf, vector, hprepare, hvector⟩

theorem upsert_ok (h : index.WellFormed) (hrun : index.upsert prepare id values = .ok next) :
    next.WellFormed ∧ ∃ vector, prepare values = .ok vector ∧
      next.vector? = update index.vector? id (some vector) := by
  unfold upsert at hrun
  simp only [bind_ok] at hrun
  obtain ⟨vector, hprepare, happend⟩ := hrun
  obtain ⟨hretired, hnone⟩ := retire_spec h id
  obtain ⟨hwf, hvector⟩ := append_ok hretired happend
  refine ⟨hwf, vector, hprepare, ?_⟩
  rw [hvector, hnone, update_idem]

/-- A vector that can be prepared is taken. -/
theorem upsert_returns (h : index.WellFormed) (hprepare : prepare values = .ok vector) :
    ∃ next, index.upsert prepare id values = .ok next := by
  obtain ⟨hretired, hnone⟩ := retire_spec h id
  have hfree : ((index.retire id).currentSlot id).isNone = true := by
    rw [current_slot_eq hretired, Option.isNone_iff_eq_none, Option.eq_none_iff_forall_ne_some]
    intro slot hslot
    obtain ⟨found, hholds⟩ := (hretired id slot).1 hslot
    have hvector := (vector_iff hretired).2 ⟨slot, hholds⟩
    rw [hnone, update_self] at hvector
    cases hvector
  exact ⟨_, bind_ok.2 ⟨vector, hprepare, bind_ok.2 ⟨(), require_ok.2 hfree, rfl⟩⟩⟩

/-- The map has one entry for each current slot. -/
theorem size_current_slots (h : index.WellFormed) :
    index.currentSlots.size = index.slots.countP (·.current) := by
  -- Both count the positions that hold a current slot.
  have hcount : index.slots.countP (·.current) =
      ((List.range index.slots.length).filter fun slot =>
        (index.slots[slot]?).any (·.current)).length := by
    have hmap : index.slots.map some =
        (List.range index.slots.length).map (index.slots[·]?) := by
      refine ext_getElem (by simp) fun position hleft hright => ?_
      rw [length_map] at hleft
      simp [List.getElem?_eq_getElem hleft]
    have hsome : index.slots.countP (·.current) =
        (index.slots.map some).countP (fun found => found.any (·.current)) := by
      rw [countP_map]
      rfl
    rw [hsome, hmap, countP_map, countP_eq_length_filter]
    rfl
  rw [hcount, ← Std.ExtTreeMap.length_toList, ← length_map Prod.snd]
  refine List.Perm.length_eq ((perm_ext_iff_of_nodup ?_ ?_).2 fun slot => ?_)
  · refine pairwise_map.2 (Std.ExtTreeMap.distinct_keys_toList.imp_of_mem ?_)
    intro a b ha hb hne heq
    obtain ⟨v, hv⟩ := (h a.1 a.2).1 (Std.ExtTreeMap.mem_toList_iff_getElem?_eq_some.1 ha)
    obtain ⟨w, hw⟩ := (h b.1 b.2).1 (Std.ExtTreeMap.mem_toList_iff_getElem?_eq_some.1 hb)
    unfold HoldsAt at hv hw
    rw [heq, hw] at hv
    simp only [Option.some.injEq, HnswSlot.mk.injEq] at hv
    exact hne (hv.1 ▸ Std.ReflCmp.compare_self)
  · exact nodup_range.filter _
  · simp only [mem_map, mem_filter, mem_range]
    constructor
    · rintro ⟨⟨id, slot⟩, hmem, rfl⟩
      obtain ⟨v, hv⟩ := (h id slot).1 (Std.ExtTreeMap.mem_toList_iff_getElem?_eq_some.1 hmem)
      unfold HoldsAt at hv
      exact ⟨(List.getElem?_eq_some_iff.1 hv).1, by rw [hv]; rfl⟩
    · rintro ⟨hlt, hcurrent⟩
      rw [List.getElem?_eq_getElem hlt] at hcurrent
      refine ⟨(index.slots[slot].id, slot), Std.ExtTreeMap.mem_toList_iff_getElem?_eq_some.2
        ((h _ slot).2 ⟨index.slots[slot].vector, ?_⟩), rfl⟩
      unfold HoldsAt
      rw [List.getElem?_eq_getElem hlt]
      have hflag : index.slots[slot].current = true := hcurrent
      rw [← hflag]

end HnswIndex

/-! ## A delta over a base -/

/-- Where the current vector of a point is: a slot of the base, or the delta. -/
inductive HnswSource where
  | base (slot : Nat)
  | delta
deriving DecidableEq

/-- An immutable base graph overlaid by a mutable delta. -/
structure SegmentedHnsw (V : Type) where
  base : HnswIndex V
  delta : HnswIndex V
  sources : Std.ExtTreeMap Int64 HnswSource

namespace SegmentedHnsw

/-- The loop of `_index_owned_base_sources` over the slots before `count`. -/
def indexSources (base : HnswIndex V) : Nat → Std.ExtTreeMap Int64 HnswSource
  | 0 => ∅
  | slot + 1 =>
      match base.slots[slot]? with
      | some item =>
          if item.current then (indexSources base slot).insert item.id (.base slot)
          else indexSources base slot
      | none => indexSources base slot

/-- `from_owned`. -/
def fromOwned (base : HnswIndex V) : SegmentedHnsw V :=
  ⟨base, .empty, indexSources base base.slots.length⟩

/-- `current_point_count`. -/
def currentPointCount (index : SegmentedHnsw V) : Nat :=
  index.sources.size

/-- `contains_current`. -/
def containsCurrent (index : SegmentedHnsw V) (id : Int64) : Bool :=
  (index.sources[id]?).isSome

/-- The vector that a point is bound to. -/
def vector? (index : SegmentedHnsw V) (id : Int64) : Option V :=
  match index.sources[id]? with
  | none => none
  | some (.base slot) => (index.base.slots[slot]?).map (·.vector)
  | some .delta => index.delta.vector? id

/-- `upsert`: the delta takes the vector. -/
def upsert (prepare : List F32 → Except String V) (index : SegmentedHnsw V) (id : Int64)
    (values : List F32) : Except String (SegmentedHnsw V) := do
  let delta ← index.delta.upsert prepare id values
  pure { index with delta := delta, sources := index.sources.insert id .delta }

/-- `delete`: whether the point was current. -/
def delete (index : SegmentedHnsw V) (id : Int64) : SegmentedHnsw V × Bool :=
  match index.sources[id]? with
  | none => (index, false)
  | some (.base _) => ({ index with sources := index.sources.erase id }, true)
  | some .delta =>
      let deleted := index.delta.delete id
      if deleted.2 then ({ index with delta := deleted.1, sources := index.sources.erase id }, true)
      else (index, false)

/-- Every source holds the vector of its point. -/
structure WellFormed (index : SegmentedHnsw V) : Prop where
  base_wf : index.base.WellFormed
  delta_wf : index.delta.WellFormed
  base_source : ∀ (id : Int64) slot, index.sources[id]? = some (.base slot) →
    ∃ vector, index.base.HoldsAt id slot vector
  delta_source : ∀ id : Int64, index.sources[id]? = some .delta →
    (index.delta.vector? id).isSome = true

variable {prepare : List F32 → Except String V} {index next : SegmentedHnsw V} {id : Int64}

theorem contains_current_iff (h : index.WellFormed) :
    index.containsCurrent id = (index.vector? id).isSome := by
  unfold containsCurrent vector?
  cases hsource : index.sources[id]? with
  | none => rfl
  | some source =>
      cases source with
      | base slot =>
          obtain ⟨vector, hholds⟩ := h.base_source id slot hsource
          simp [show index.base.slots[slot]? = _ from hholds]
      | delta => simp [h.delta_source id hsource]

theorem index_sources_spec {base : HnswIndex V} (h : base.WellFormed) (count : Nat) (id : Int64) :
    (indexSources base count)[id]? = ((base.currentSlots[id]?).filter (· < count)).map .base := by
  induction count with
  | zero =>
      rw [indexSources, Std.ExtTreeMap.getElem?_empty]
      cases base.currentSlots[id]? <;> simp
  | succ slot ih =>
      rw [indexSources]
      by_cases hcurrent : base.currentSlots[id]? = some slot
      · -- The slot read now is the current one of the point.
        obtain ⟨vector, hholds⟩ := (h id slot).1 hcurrent
        rw [show base.slots[slot]? = _ from hholds, hcurrent]
        simp
      · have hfilter : (base.currentSlots[id]?).filter (· < slot + 1) =
            (base.currentSlots[id]?).filter (· < slot) := by
          cases hother : base.currentSlots[id]? with
          | none => rfl
          | some other =>
              have hne : other ≠ slot := fun heq => hcurrent (heq ▸ hother)
              rw [Option.filter_some, Option.filter_some]
              have hiff : other < slot + 1 ↔ other < slot := by omega
              simp only [hiff]
        rw [hfilter, ← ih]
        cases hitem : base.slots[slot]? with
        | none => rfl
        | some item =>
            simp only
            split
            · rename_i hflag
              rw [Std.ExtTreeMap.getElem?_insert, if_neg fun heq => hcurrent ?_]
              obtain rfl : item.id = id := Std.LawfulEqCmp.eq_of_compare heq
              refine (h item.id slot).2 ⟨item.vector, ?_⟩
              show base.slots[slot]? = some ⟨item.id, item.vector, true⟩
              rw [hitem, ← hflag]
            · rfl

/-- A graph adopted as the base binds its points as before. -/
theorem from_owned_spec {base : HnswIndex V} (h : base.WellFormed) :
    (fromOwned base).WellFormed ∧ (fromOwned base).vector? = base.vector? := by
  have hsources : ∀ id : Int64, (fromOwned base).sources[id]? =
      (base.currentSlots[id]?).map .base := by
    intro id
    refine (index_sources_spec h base.slots.length id).trans (congrArg (Option.map _) ?_)
    cases hslot : base.currentSlots[id]? with
    | none => rfl
    | some slot =>
        obtain ⟨vector, hholds⟩ := (h id slot).1 hslot
        refine Option.filter_some_pos (decide_eq_true ?_)
        exact (List.getElem?_eq_some_iff.1 hholds).1
  refine ⟨⟨h, HnswIndex.empty_well_formed, fun id slot hsource => ?_, fun id hsource => ?_⟩, ?_⟩
  · rw [hsources, Option.map_eq_some_iff] at hsource
    obtain ⟨slot', hslot, heq⟩ := hsource
    exact (h id slot).1 (HnswSource.base.inj heq ▸ hslot)
  · rw [hsources, Option.map_eq_some_iff] at hsource
    obtain ⟨slot', -, heq⟩ := hsource
    cases heq
  · funext id
    unfold vector? HnswIndex.vector?
    rw [hsources, HnswIndex.current_slot_eq h]
    cases base.currentSlots[id]? <;> rfl

theorem upsert_ok (h : index.WellFormed) (hrun : index.upsert prepare id values = .ok next) :
    next.WellFormed ∧ ∃ vector, prepare values = .ok vector ∧
      next.vector? = update index.vector? id (some vector) := by
  unfold upsert at hrun
  simp only [bind_ok, pure_ok] at hrun
  obtain ⟨delta, hdelta, rfl⟩ := hrun
  obtain ⟨hwf, vector, hprepare, hvector⟩ := HnswIndex.upsert_ok h.delta_wf hdelta
  have hsources : ∀ other : Int64, (index.sources.insert id HnswSource.delta)[other]? =
      if other = id then some .delta else index.sources[other]? := by
    intro other
    rw [Std.ExtTreeMap.getElem?_insert]
    by_cases heq : id = other
    · rw [if_pos (heq ▸ Std.ReflCmp.compare_self), if_pos heq.symm]
    · rw [if_neg fun hcmp => heq (Std.LawfulEqCmp.eq_of_compare hcmp), if_neg (Ne.symm heq)]
  refine ⟨⟨h.base_wf, hwf, fun other slot hsource => ?_, fun other hsource => ?_⟩, vector, hprepare,
    ?_⟩
  · rw [hsources] at hsource
    split at hsource
    · cases hsource
    · exact h.base_source other slot hsource
  · rw [hsources] at hsource
    rw [hvector, update_apply]
    split at hsource
    · rename_i heq
      rw [if_pos heq]
      rfl
    · rename_i hne
      rw [if_neg hne]
      exact h.delta_source other hsource
  · funext other
    unfold vector?
    simp only [hsources, hvector]
    by_cases heq : other = id
    · simp only [heq, if_true, update_self]
    · simp only [heq, if_false, update_of_ne heq]

/-- Deleting a point unbinds it and no other. -/
theorem delete_spec (h : index.WellFormed) (id : Int64) :
    (index.delete id).1.WellFormed ∧
      (index.delete id).1.vector? = update index.vector? id none := by
  have hsources : ∀ other : Int64, (index.sources.erase id)[other]? =
      if other = id then none else index.sources[other]? := by
    intro other
    rw [Std.ExtTreeMap.getElem?_erase]
    by_cases heq : id = other
    · rw [if_pos (heq ▸ Std.ReflCmp.compare_self), if_pos heq.symm]
    · rw [if_neg fun hcmp => heq (Std.LawfulEqCmp.eq_of_compare hcmp), if_neg (Ne.symm heq)]
  unfold delete
  cases hsource : index.sources[id]? with
  | none =>
      refine ⟨h, ?_⟩
      have hnone : index.vector? id = none := by
        rw [vector?, hsource]
      rw [← hnone, update_eq_self]
  | some source =>
      cases source with
      | base slot =>
          refine ⟨⟨h.base_wf, h.delta_wf, fun other slot' hother => ?_, fun other hother => ?_⟩, ?_⟩
          · rw [hsources] at hother
            split at hother
            · cases hother
            · exact h.base_source other slot' hother
          · rw [hsources] at hother
            split at hother
            · cases hother
            · exact h.delta_source other hother
          · funext other
            unfold vector?
            simp only [hsources]
            by_cases heq : other = id
            · simp only [heq, if_true, update_self]
            · simp only [heq, if_false, update_of_ne heq]
      | delta =>
          obtain ⟨hwf, hvector⟩ := HnswIndex.retire_spec h.delta_wf id
          have hdeleted : (index.delta.delete id).2 = true := by
            have hsome := h.delta_source id hsource
            unfold HnswIndex.delete
            unfold HnswIndex.vector? at hsome
            cases hslot : index.delta.currentSlot id with
            | none => simp [hslot] at hsome
            | some slot => rfl
          simp only [hdeleted, if_true]
          refine ⟨⟨h.base_wf, hwf, fun other slot' hother => ?_, fun other hother => ?_⟩, ?_⟩
          · rw [hsources] at hother
            split at hother
            · cases hother
            · exact h.base_source other slot' hother
          · rw [hsources] at hother
            split at hother
            · cases hother
            · rename_i hne
              show ((index.delta.retire id).vector? other).isSome = true
              rw [hvector, update_of_ne hne]
              exact h.delta_source other hother
          · funext other
            unfold vector? HnswIndex.delete
            simp only [hsources, hvector]
            by_cases heq : other = id
            · simp only [heq, if_true, update_self]
            · simp only [heq, if_false, update_of_ne heq]

end SegmentedHnsw

end Akasha.Index

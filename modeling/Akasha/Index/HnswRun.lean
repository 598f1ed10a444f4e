import Akasha.Index.HnswProgress

/-!
# Runs of the index

A run is a sequence of `add`, `upsert` and `delete` calls on a fresh index in which no call
raises. `hnsw_run_sound` says what every run leaves: the current slots are those of the points
that the calls leave, with the prepared form of their last vectors, the counters agree with a
recount, and `validate_structure` accepts the index unless the graph has outgrown the audit, which
numbers the owned levels of all slots with a `UInt32`. Replaced slots stay, so that replacing one
point over and over is enough to outgrow it.
-/

namespace Akasha.Hnsw

open Lib Lib.Exec

variable {V : Type}

/-- A call on an index. -/
inductive HnswCall where
  | add (id : Int64) (values : List F32)
  | upsert (id : Int64) (values : List F32)
  | delete (id : Int64)

/-- Perform a call; the answer of `delete` is dropped. -/
def HnswCall.perform (dispatcher : MetricDispatcher V) :
    HnswCall → Exec (HnswIndex V) String Unit
  | .add id values => HnswIndex.add dispatcher id values
  | .upsert id values => HnswIndex.upsert dispatcher id values
  | .delete id => update fun index => (index.delete dispatcher id).1

/-- The vectors that a call leaves. -/
def HnswCall.apply (vectors : Int64 → Option (List F32)) :
    HnswCall → Int64 → Option (List F32)
  | .add id values => Function.update vectors id (some values)
  | .upsert id values => Function.update vectors id (some values)
  | .delete id => Function.update vectors id none

/-- Perform calls in order. -/
def runCalls (dispatcher : MetricDispatcher V) (calls : List HnswCall) :
    Exec (HnswIndex V) String Unit :=
  forEach calls (HnswCall.perform dispatcher)

/-- The vectors that calls leave. -/
def vectorsAfter (calls : List HnswCall) : Int64 → Option (List F32) :=
  calls.foldl HnswCall.apply fun _ => none

/-- The current slot of every point holds the prepared form of its vector. -/
def Holds (dispatcher : MetricDispatcher V) (vectors : Int64 → Option (List F32))
    (index : HnswIndex V) : Prop :=
  ∀ id, (vectors id).map dispatcher.prepare = (index.graph.slotsOf.vector? id).map .ok

variable {dispatcher : MetricDispatcher V} {index next : HnswIndex V}
  {vectors : Int64 → Option (List F32)}

variable {id : Int64}

theorem holds_update (h : Holds dispatcher vectors index) {values : Option (List F32)}
    {vector : Option V} (hpair : values.map dispatcher.prepare = vector.map .ok)
    (hnext : next.graph.slotsOf.vector? =
      Function.update index.graph.slotsOf.vector? id vector) :
    Holds dispatcher (Function.update vectors id values) next := by
  intro other
  rw [hnext]
  by_cases heq : other = id
  · rw [heq, Function.update_self, Function.update_self]
    exact hpair
  · rw [Function.update_of_ne heq, Function.update_of_ne heq]
    exact h other

/-- One call that returns keeps the invariant and binds what it should. -/
theorem perform_ok (hvalid : dispatcher.Valid)
    (hidentity : dispatcher.identity = index.config.identity) (h : index.Inv dispatcher)
    (hholds : Holds dispatcher vectors index) {call : HnswCall} {u : Unit}
    (hrun : call.perform dispatcher index = (.ok u, next)) :
    next.Inv dispatcher ∧ next.config = index.config ∧
      Holds dispatcher (call.apply vectors) next := by
  have hsound := h.sound.published
  cases call with
  | add id values =>
      obtain ⟨hinv, hconfig, hslots⟩ := HnswIndex.add_ok h hvalid hrun
      obtain ⟨-, vector, hprepare, hvector⟩ := Index.HnswIndex.add_ok hsound hslots
      have hpair : (some values).map dispatcher.prepare = (some vector).map .ok :=
        congrArg some hprepare
      exact ⟨hinv, hconfig, holds_update hholds hpair hvector⟩
  | upsert id values =>
      obtain ⟨hinv, hconfig, hslots⟩ := HnswIndex.upsert_ok h hvalid hrun
      obtain ⟨-, vector, hprepare, hvector⟩ := Index.HnswIndex.upsert_ok hsound hslots
      have hpair : (some values).map dispatcher.prepare = (some vector).map .ok :=
        congrArg some hprepare
      exact ⟨hinv, hconfig, holds_update hholds hpair hvector⟩
  | delete id =>
      have hupdate : update (fun index => (index.delete dispatcher id).1) index =
          (.ok u, next) := hrun
      obtain rfl := update_ok_iff.1 hupdate
      obtain ⟨hinv, hconfig, hslots⟩ := HnswIndex.delete_spec h hidentity id
      have hpair : (none : Option (List F32)).map dispatcher.prepare = (none : Option V).map .ok :=
        rfl
      refine ⟨hinv, hconfig, holds_update hholds hpair ?_⟩
      have hfst : (index.graph.slotsOf.delete id).1 =
          (index.delete dispatcher id).1.graph.slotsOf := congrArg Prod.fst hslots
      rw [← hfst]
      exact (Index.HnswIndex.retire_spec hsound id).2

theorem run_calls_ok (hvalid : dispatcher.Valid) {calls : List HnswCall} {u : Unit}
    (hidentity : dispatcher.identity = index.config.identity) (h : index.Inv dispatcher)
    (hholds : Holds dispatcher vectors index)
    (hrun : runCalls dispatcher calls index = (.ok u, next)) :
    next.Inv dispatcher ∧ next.config = index.config ∧
      Holds dispatcher (calls.foldl HnswCall.apply vectors) next := by
  induction calls generalizing index vectors with
  | nil =>
      obtain ⟨-, rfl⟩ := pure_ok_iff.1 hrun
      exact ⟨h, rfl, hholds⟩
  | cons call calls ih =>
      obtain ⟨_, middle, hstep, hrest⟩ := bind_ok_iff.1 hrun
      obtain ⟨hinv, hconfig, hmiddle⟩ := perform_ok hvalid hidentity h hholds hstep
      obtain ⟨hnext, hconfig', hlast⟩ := ih (hidentity.trans (by rw [hconfig])) hinv hmiddle hrest
      exact ⟨hnext, hconfig'.trans hconfig, hlast⟩

/-- After every run in which no call raises: the current slots belong one-to-one to the points
that the calls leave and hold the prepared form of their last vectors, the inactive slots are
counted, the entry level is the highest of the current slots, and `validate_structure` accepts the
index exactly when the owned levels can be numbered and the vectors fit one tape. -/
theorem hnsw_run_sound (config : HnswConfig) (dispatcher : MetricDispatcher V)
    (hvalid : dispatcher.Valid) (hidentity : dispatcher.identity = config.identity)
    (calls : List HnswCall) (index : HnswIndex V)
    (hrun : runCalls dispatcher calls (.create config) = (.ok (), index)) :
    (index.validateStructure dispatcher = .ok () ↔
      index.graph.ownedLevels.length ≤ emptyNeighbor ∧
        (0 < index.graph.slotCount →
          config.identity.dimension ≤ intMax / index.graph.slotCount)) ∧
    (∀ id slot, index.graph.currentSlot id = some slot ↔
      ∃ record, index.graph.records[slot]? = some record ∧ record.current = true ∧
        record.id = id) ∧
    (∀ id, vectorsAfter calls id = none ↔ index.graph.currentSlot id = none) ∧
    (∀ id values, vectorsAfter calls id = some values → ∃ slot record,
      index.graph.currentSlot id = some slot ∧ index.graph.records[slot]? = some record ∧
        dispatcher.prepare values = .ok record.vector) ∧
    index.buildStats.inactiveSlots = index.graph.records.countP (!·.current) ∧
    (∀ record ∈ index.graph.records, record.current = true →
      (record.level : Int) ≤ index.entryLevel) := by
  have hempty : Holds dispatcher (fun _ => none) (.create config) := by
    intro id
    have hnone : (HnswIndex.create config : HnswIndex V).graph.slotsOf.vector? id = none :=
      (Index.HnswIndex.vector_is_none Index.HnswIndex.empty_well_formed).2
        fun slot vector hholds => by simp [Index.HnswIndex.HoldsAt, Index.HnswIndex.empty] at hholds
    rw [hnone]
    rfl
  obtain ⟨hinv, hconfig, hholds⟩ := run_calls_ok hvalid hidentity (HnswIndex.create_inv config)
    hempty hrun
  have hpublished := hinv.sound.published
  have hcurrent : ∀ id, index.graph.currentSlot id = index.graph.currentSlots[id]? := fun id => by
    rw [HnswStorage.current_slot_slots_of, Index.HnswIndex.current_slot_eq hpublished]
    rfl
  -- A slot holds the vector of a point when its record is a current one of it.
  have hrecord : ∀ id slot vector, index.graph.slotsOf.HoldsAt id slot vector ↔
      ∃ record, index.graph.records[slot]? = some record ∧ record.current = true ∧
        record.id = id ∧ record.vector = vector := by
    intro id slot vector
    unfold Index.HnswIndex.HoldsAt
    rw [HnswStorage.slots_of_get, Option.map_eq_some_iff]
    simp only [SlotRecord.slot, Index.HnswSlot.mk.injEq]
    exact exists_congr fun record => and_congr_right fun _ => by tauto
  refine ⟨?_, fun id slot => ?_, fun id => ?_, fun id values hvalues => ?_, hinv.inactive,
    hinv.highest⟩
  · rw [HnswIndex.validate_structure_iff hinv (hidentity.trans (by rw [hconfig]; rfl)), hconfig]
    rfl
  · rw [hcurrent]
    refine (hpublished id slot).trans ?_
    simp only [hrecord]
    constructor
    · rintro ⟨vector, record, hget, hflag, hid, -⟩
      exact ⟨record, hget, hflag, hid⟩
    · rintro ⟨record, hget, hflag, hid⟩
      exact ⟨record.vector, record, hget, hflag, hid, rfl⟩
  · have hid := hholds id
    rw [← Option.map_eq_none_iff (f := dispatcher.prepare)]
    unfold vectorsAfter
    rw [hid, Option.map_eq_none_iff, Index.HnswIndex.vector_is_none hpublished, hcurrent,
      Option.eq_none_iff_forall_ne_some]
    constructor
    · intro hnone slot hslot
      obtain ⟨vector, hat⟩ := (hpublished id slot).1 hslot
      exact hnone slot vector hat
    · intro hnone slot vector hat
      exact hnone slot ((hpublished id slot).2 ⟨vector, hat⟩)
  · have hid := hholds id
    unfold vectorsAfter at hvalues
    rw [hvalues, Option.map_some] at hid
    obtain ⟨vector, hvector, hprepared⟩ := Option.map_eq_some_iff.1 hid.symm
    obtain ⟨slot, hat⟩ := (Index.HnswIndex.vector_iff hpublished).1 hvector
    obtain ⟨record, hget, -, -, rfl⟩ := (hrecord id slot vector).1 hat
    exact ⟨slot, record, by rw [hcurrent]; exact (hpublished id slot).2 ⟨_, hat⟩, hget,
      hprepared.symm⟩

/-- `HnswIndex(1, m=1, max_level=4)`: about half of the points of a level are on the next. -/
def steepConfig : HnswConfig where
  toGraphConfig := narrowConfig
  efConstruction := 128
  maxEfSearch := 512
  maxLevel := 4
  levelSeed := 0xA5A5A5A5A5A5A5A5
  levelMultiplier := 2
  m_small := by decide
  m0_small := by decide

/-- Points of levels 0, 1 and 3: the entry point is replaced, another point deleted and inserted
anew. -/
def steepCalls : List HnswCall :=
  [.add 1 [⟨0⟩], .upsert 2 [⟨0⟩], .add 3 [⟨0⟩], .upsert 2 [⟨0⟩], .delete 1, .add 1 [⟨0⟩]]

theorem hnsw_run_sound_steep : ∃ index,
    runCalls lineDispatcher steepCalls (.create steepConfig) = (.ok (), index) ∧
      index.validateStructure lineDispatcher = .ok () ∧ index.graph.slotCount = 5 ∧
      index.buildStats.inactiveSlots = index.graph.records.countP (!·.current) := by
  have hreturns : (runCalls lineDispatcher steepCalls (.create steepConfig)).1 = .ok () := by
    decide +kernel
  have hlevels : (runCalls lineDispatcher steepCalls (.create steepConfig)).2.graph.nodes.map
      (fun node => node.level + 1) = [1, 4, 2, 4, 1] := by
    decide +kernel
  rcases hrun : runCalls lineDispatcher steepCalls (.create steepConfig) with ⟨result, index⟩
  rw [hrun] at hreturns hlevels
  obtain rfl : result = .ok () := hreturns
  obtain ⟨hvalid, -, -, -, hinactive, -⟩ := hnsw_run_sound steepConfig lineDispatcher
    line_dispatcher_valid rfl _ _ hrun
  have hcount : index.graph.slotCount = 5 := by
    have hlength := congrArg List.length hlevels
    rw [List.length_map] at hlength
    exact hlength
  refine ⟨index, rfl, hvalid.2 ⟨?_, fun _ => ?_⟩, hcount, hinactive⟩
  · rw [HnswStorage.length_owned_levels, hlevels]
    decide
  · rw [hcount]
    decide

/-! ## Outgrowing the audit -/

/-- An index whose slots are all of one point. -/
structure Alone (dispatcher : MetricDispatcher V) (id : Int64) (count : Nat)
    (index : HnswIndex V) : Prop where
  inv : index.Inv dispatcher
  ids : index.graph.slotsOf.slots.map (·.id) = List.replicate count id

/-- An upsert adds a slot of its point and changes the point of no other slot. -/
theorem slots_upsert_ids {prepare : List F32 → Except String V} {slots slots' : Index.HnswIndex V}
    {values : List F32} (hrun : slots.upsert prepare id values = .ok slots') :
    slots'.slots.map (·.id) = slots.slots.map (·.id) ++ [id] := by
  have hretire : (slots.retire id).slots.map (·.id) = slots.slots.map (·.id) := by
    unfold Index.HnswIndex.retire
    split
    · rfl
    · refine List.ext_getElem? fun other => ?_
      simp only [List.getElem?_map, List.getElem?_modify]
      cases slots.slots[other]? with
      | none => rfl
      | some item =>
          simp only [Option.map_eq_map, Option.map_some, Option.some.injEq]
          split <;> rfl
  unfold Index.HnswIndex.upsert Index.HnswIndex.append at hrun
  simp only [bind_ok, exists_unit, require_ok, pure_ok] at hrun
  obtain ⟨prepared, -, -, rfl⟩ := hrun
  rw [List.map_append, hretire]
  rfl

theorem alone_slot_count {count : Nat} (h : Alone dispatcher id count index) :
    index.graph.slotCount = count := by
  have hlength := congrArg List.length h.ids
  unfold HnswStorage.slotsOf at hlength
  rw [HnswStorage.slot_count_records]
  simpa using hlength

/-- A run that replaces one point over and over returns as long as there are slots. -/
theorem run_alone_returns (hvalid : dispatcher.Valid) {values : List F32} {prepared : V}
    (hprepare : dispatcher.prepare values = .ok prepared)
    (hquery : dispatcher.validatePrepared prepared = .ok ())
    (hstorable : dispatcher.storable prepared = .ok ()) (rest : Nat) {count : Nat}
    (hidentity : dispatcher.identity = index.config.identity)
    (hef : 0 < index.config.efConstruction) (hmultiplier : 2 ≤ index.config.levelMultiplier)
    (hlevels : index.config.maxLevel ≤ levelLimit) (h : Alone dispatcher id count index)
    (hroom : count + rest ≤ emptyNeighbor) :
    ∃ next, runCalls dispatcher (List.replicate rest (.upsert id values)) index = (.ok (), next) ∧
      next.config = index.config ∧ Alone dispatcher id (count + rest) next := by
  induction rest generalizing index count with
  | zero => exact ⟨index, rfl, rfl, h⟩
  | succ rest ih =>
      have hslots := alone_slot_count h
      obtain ⟨middle, hstep⟩ := HnswIndex.upsert_returns id hvalid h.inv hidentity hprepare
        hquery hstorable hef hmultiplier hlevels (by omega)
      obtain ⟨hinv, hconfig, hupsert⟩ := HnswIndex.upsert_ok h.inv hvalid hstep
      have hmiddle : Alone dispatcher id (count + 1) middle := by
        refine ⟨hinv, ?_⟩
        rw [slots_upsert_ids hupsert, h.ids, List.replicate_succ']
      obtain ⟨next, hrun, hconfig', hnext⟩ := ih (hidentity.trans (by rw [hconfig]))
        (by rw [hconfig]; exact hef) (by rw [hconfig]; exact hmultiplier)
        (by rw [hconfig]; exact hlevels) hmiddle (by omega)
      refine ⟨next, bind_ok_iff.2 ⟨(), middle, hstep, hrun⟩, hconfig'.trans hconfig, ?_⟩
      rw [show count + (rest + 1) = count + 1 + rest by omega]
      exact hnext

theorem alone_owned_levels {level count : Nat} (h : Alone dispatcher id count index)
    (hlevel : HnswIndex.levelOf index.config id = .ok level) :
    index.graph.ownedLevels.length = count * (level + 1) := by
  have hmem : ∀ node ∈ index.graph.nodes, node.level + 1 = level + 1 := by
    intro node hnode
    have hrecord : node.record ∈ index.graph.records := List.mem_map_of_mem hnode
    have hid : node.id ∈ index.graph.slotsOf.slots.map (·.id) := by
      unfold HnswStorage.slotsOf
      rw [List.map_map]
      exact List.mem_map_of_mem hrecord
    rw [h.ids] at hid
    have hsame := h.inv.levels _ hrecord
    have hnodeId : node.record.id = id := List.eq_of_mem_replicate hid
    rw [hnodeId, hlevel] at hsame
    exact congrArg (· + 1) (Except.ok.inj hsame).symm
  have hlength : index.graph.nodes.length = count := alone_slot_count h
  rw [HnswStorage.length_owned_levels, List.map_congr_left hmem, List.map_const', hlength]
  simp

/-- Replacing a point of level 3 until there are `2 ^ 30` slots makes `2 ^ 32` owned levels. -/
theorem steep_run_outgrows_audit : ∃ index,
    runCalls lineDispatcher (List.replicate (2 ^ 30) (.upsert 2 [⟨0⟩])) (.create steepConfig) =
      (.ok (), index) ∧ index.validateStructure lineDispatcher ≠ .ok () := by
  have hlevel : HnswIndex.levelOf (HnswIndex.create steepConfig : HnswIndex Nat).config 2 =
      .ok 3 := by decide +kernel
  have hempty : Alone lineDispatcher 2 0 (.create steepConfig) :=
    ⟨HnswIndex.create_inv steepConfig, rfl⟩
  have hprepare : lineDispatcher.prepare [⟨0⟩] = .ok 1 := rfl
  have hroom : 0 + 2 ^ 30 ≤ emptyNeighbor := by
    unfold emptyNeighbor
    omega
  obtain ⟨index, hrun, hconfig, hindex⟩ := run_alone_returns line_dispatcher_valid hprepare rfl rfl
    (2 ^ 30) rfl (by decide) (by decide) (by decide) hempty hroom
  refine ⟨index, hrun, fun haccepted => ?_⟩
  have hcells := ((HnswIndex.validate_structure_iff hindex.inv (by rw [hconfig]; rfl)).1
    haccepted).1
  rw [alone_owned_levels hindex (by rw [hconfig]; exact hlevel)] at hcells
  unfold emptyNeighbor at hcells
  omega

end Akasha.Hnsw

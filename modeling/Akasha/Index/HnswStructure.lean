import Akasha.Index.HnswCore
import Akasha.Index.SegmentedHnsw

/-!
# Slot lifecycle and the structural audit

A slot is appended before it is linked and becomes the current one of its point only when its
links are made. `slotsOf` forgets edges, levels and counters: what remains is the slot model of
`SegmentedHnsw.lean`, and the lifecycle operations are its operations. `validateStructure` and
`auditLinks` are the checks that accept a graph before it is searched or adopted.
-/

namespace Akasha.Hnsw

open Lib List
open Index (HnswSlot)

variable {V : Type}

/-- `UInt16.MAX`, the largest level. -/
def levelLimit : Nat := 65535

/-- A slot of the slot model. -/
def SlotRecord.slot (record : SlotRecord V) : HnswSlot V :=
  ⟨record.id, record.vector, record.current⟩

namespace HnswStorage

/-! ## Lifecycle -/

/-- `_append_unpublished`: a current slot that the map of points does not know yet. -/
def appendUnpublished (dispatcher : MetricDispatcher V) (id : Int64) (vector : V) (level : Nat)
    (graph : HnswStorage V) : Except String (HnswStorage V × Nat) := do
  dispatcher.storable vector
  require (level ≤ levelLimit) "HNSW level must fit UInt16"
  require ((graph.currentSlot id).isNone) "HNSW public ID already has a current slot"
  if h : graph.nodes.length < emptyNeighbor then
    pure ({ graph with
      nodes := graph.nodes ++ [⟨id, true, false, false, vector, [], replicate level []⟩]
      slots_fit := by rw [length_append, length_singleton]; omega },
      graph.nodes.length)
  else throw "HNSW slot count exceeds the UInt32 edge address space"

/-- `_publish_current`. -/
def publishCurrent (id : Int64) (slot : Nat) (graph : HnswStorage V) :
    Except String (HnswStorage V) := do
  let node ← graph.node slot
  require (node.id = id ∧ node.current = true) "HNSW current-slot publication is inconsistent"
  require ((graph.currentSlot id).isNone) "HNSW public ID already has a current slot"
  pure { graph with currentSlots := graph.currentSlots.insert id slot }

/-- `mark_replaced`. -/
def markReplaced (id : Int64) (graph : HnswStorage V) : Except String (HnswStorage V × Nat) :=
  match graph.currentSlot id with
  | none => throw "HNSW public ID has no current slot to replace"
  | some slot =>
      pure ({ graph.modifyNode slot fun node => { node with current := false, replaced := true } with
        currentSlots := graph.currentSlots.erase id }, slot)

/-- `mark_deleted`: whether the point had a current slot. -/
def markDeleted (id : Int64) (graph : HnswStorage V) : HnswStorage V × Bool :=
  match graph.currentSlot id with
  | none => (graph, false)
  | some slot =>
      ({ graph.modifyNode slot fun node => { node with current := false, deleted := true } with
        currentSlots := graph.currentSlots.erase id }, true)

/-! ## Validation -/

/-- The `UInt16` and `Int` bounds on levels and tape lengths, slot by slot. -/
def checkTapes (graph : HnswStorage V) :
    Nat → Nat → List (HnswNode V) → Except String Unit
  | _, _, [] => .ok ()
  | cells, counts, node :: nodes => do
      require (node.level ≤ levelLimit) "HNSW stored level does not fit UInt16"
      require (node.level ≤ (intMax - graph.config.m0) / graph.config.m)
        "HNSW node neighbor allocation overflows Int"
      require (graph.config.m0 + node.level * graph.config.m ≤ intMax - cells)
        "HNSW neighbor tape length overflows Int"
      require (node.level + 1 ≤ intMax - counts) "HNSW neighbor count tape length overflows Int"
      checkTapes graph (cells + (graph.config.m0 + node.level * graph.config.m))
        (counts + (node.level + 1)) nodes

/-- The neighbours of a slot on a level: within capacity, slots of the graph, no repeats. -/
def checkLayer (graph : HnswStorage V) (slot level : Nat) : Except String Unit := do
  let capacity ← graph.levelCapacity slot level
  let values ← graph.neighbors slot level
  require (values.length ≤ capacity) "HNSW neighbor count exceeds capacity"
  checkEach values (graph.validateNeighbor slot)
  require values.Nodup "HNSW neighbor tape has a duplicate"

/-- One flag for each slot, the map of points, and the lists of every level. -/
def checkSlot (graph : HnswStorage V) (slot : Nat) : Except String Unit := do
  let node ← graph.node slot
  require (node.current.toNat + node.deleted.toNat + node.replaced.toNat = 1)
    "HNSW slot lifecycle flags are inconsistent"
  require (node.current = true → graph.currentSlot node.id = some slot)
    "HNSW current ID map is inconsistent"
  checkEach (range (node.level + 1)) (graph.checkLayer slot)

/-- `HnswStorage.validate_structure`. The codes of a compact kind are checked as they were when
the vector was stored. -/
def validateStructure (dispatcher : MetricDispatcher V) (graph : HnswStorage V) :
    Except String Unit := do
  require (graph.slotCount ≤ emptyNeighbor)
    "HNSW slot count exceeds the UInt32 edge address space"
  require (0 < graph.slotCount →
    graph.config.identity.dimension ≤ intMax / graph.slotCount)
    "HNSW flat vector tape length overflows Int"
  checkEach graph.nodes fun node => dispatcher.storable node.vector
  graph.checkTapes 0 0 graph.nodes
  checkEach (range graph.slotCount) graph.checkSlot
  require (graph.currentSlots.size = graph.nodes.countP (·.current))
    "HNSW current ID map contains stale entries"
  checkEach graph.currentSlots.toList fun entry =>
    require (graph.currentSlot entry.1 = some entry.2)
      "HNSW current ID map contains an invalid entry"

/-- The pairs of a slot and a level it owns. -/
def ownedLevels (graph : HnswStorage V) : List (Nat × Nat) :=
  (range graph.slotCount).flatMap fun slot =>
    match graph.nodes[slot]? with
    | some node => (range (node.level + 1)).map fun level => (slot, level)
    | none => []

/-- The directed edges: level, source and target. -/
def edges (graph : HnswStorage V) : List (Nat × Nat × Nat) :=
  graph.ownedLevels.flatMap fun cell =>
    (graph.adjacency cell.2 cell.1).map fun neighbor => (cell.2, cell.1, neighbor)

/-- `_audit_bidirectional_links`: the sorted keys of the edges and of their reverses agree when
each occurs as often as the other. -/
def auditLinks (graph : HnswStorage V) : Except String Unit := do
  require (graph.valid = true) "cannot search an invalid HNSW graph"
  require (graph.ownedLevels.length ≤ emptyNeighbor)
    "HNSW owned level count exceeds validation address space"
  checkEach graph.ownedLevels fun cell =>
    require ((graph.adjacency cell.2 cell.1).length ≤ graph.capacityAt cell.2)
      "HNSW touched adjacency exceeds level capacity"
  checkEach graph.edges fun edge => do
    let owned ← graph.level edge.2.2
    require (edge.1 ≤ owned) "HNSW edge target does not own graph level"
  require (graph.edges.isPerm (graph.edges.map fun edge => (edge.1, edge.2.2, edge.2.1)) = true)
    "HNSW graph contains an asymmetric edge"

/-- `validate_bidirectional_links`. -/
def validateBidirectionalLinks (dispatcher : MetricDispatcher V) (graph : HnswStorage V) :
    Except String Unit := do
  graph.validateStructure dispatcher
  graph.auditLinks

/-! ## The slots without edges -/

/-- The slots and the map of points. -/
def slotsOf (graph : HnswStorage V) : Index.HnswIndex V :=
  ⟨graph.records.map SlotRecord.slot, graph.currentSlots⟩

variable {graph next : HnswStorage V} {dispatcher : MetricDispatcher V} {id : Int64} {vector : V}
  {level slot : Nat}

theorem slots_of_get (graph : HnswStorage V) (slot : Nat) :
    graph.slotsOf.slots[slot]? = (graph.records[slot]?).map SlotRecord.slot := by
  unfold slotsOf
  rw [getElem?_map]

theorem current_slot_slots_of (graph : HnswStorage V) (id : Int64) :
    graph.currentSlot id = graph.slotsOf.currentSlot id := by
  unfold currentSlot Index.HnswIndex.currentSlot slotsOf records
  refine congrArg (fun test => Option.filter test _) (funext fun slot => ?_)
  rw [getElem?_map, getElem?_map]
  cases graph.nodes[slot]? <;> rfl

theorem current_slot_record (h : graph.currentSlot id = some slot) :
    ∃ record, graph.records[slot]? = some record ∧ record.current = true ∧ record.id = id := by
  unfold currentSlot at h
  obtain ⟨-, hany⟩ := Option.filter_eq_some_iff.1 h
  unfold records
  rw [getElem?_map]
  cases hnode : graph.nodes[slot]? with
  | none => simp [hnode] at hany
  | some node =>
      simp only [hnode, Option.any_some, Bool.and_eq_true, beq_iff_eq] at hany
      exact ⟨node.record, rfl, hany.1, hany.2⟩

/-- Appending adds a slot without edges and leaves everything else alone. -/
theorem append_unpublished_ok {appended : Nat}
    (hrun : graph.appendUnpublished dispatcher id vector level = .ok (next, appended)) :
    dispatcher.storable vector = .ok () ∧ level ≤ levelLimit ∧ graph.currentSlot id = none ∧
      appended = graph.slotCount ∧
      next.records = graph.records ++ [⟨id, level, true, false, false, vector⟩] ∧
      next.config = graph.config ∧ next.currentSlots = graph.currentSlots ∧
      next.valid = graph.valid ∧ next.edgeCount = graph.edgeCount ∧
      ∀ layer, next.adjacency layer = graph.adjacency layer := by
  unfold appendUnpublished at hrun
  simp only [bind_ok, exists_unit, require_ok, Option.isNone_iff_eq_none] at hrun
  obtain ⟨hstorable, hlevel, hnone, hrun⟩ := hrun
  split at hrun
  · simp only [pure_ok, Prod.mk.injEq] at hrun
    obtain ⟨rfl, rfl⟩ := hrun
    refine ⟨hstorable, hlevel, hnone, rfl, ?_, rfl, rfl, rfl, ?_, fun layer => ?_⟩
    · simp [records, HnswNode.record, HnswNode.level]
    · simp [edgeCount, HnswNode.edgeCount]
    · funext other
      unfold adjacency
      rcases Nat.lt_trichotomy other graph.nodes.length with hlt | heq | hgt
      · rw [getElem?_append_left hlt]
      · rw [heq, getElem?_concat_length, getElem?_eq_none le_rfl]
        cases layer with
        | zero => rfl
        | succ layer =>
            simp only [Option.elim_some, HnswNode.layer, getElem?_replicate, Option.elim_none]
            split <;> rfl
      · rw [getElem?_eq_none (by simp only [length_append, length_singleton]; omega),
          getElem?_eq_none (by omega)]
  · cases hrun

/-- Linking and publishing an appended slot is the append of the slot model. -/
theorem publish_current_ok {linked : HnswStorage V}
    (hrecords : next.records = graph.records ++ [⟨id, level, true, false, false, vector⟩])
    (hslots : next.currentSlots = graph.currentSlots)
    (hrun : next.publishCurrent id slot = .ok linked) (hslot : slot = graph.slotCount) :
    linked.records = next.records ∧ linked.config = next.config ∧ linked.valid = next.valid ∧
      linked.edgeCount = next.edgeCount ∧ (∀ layer, linked.adjacency layer = next.adjacency layer) ∧
      (graph.currentSlot id = none →
        graph.slotsOf.append id vector = .ok linked.slotsOf) := by
  unfold publishCurrent at hrun
  simp only [bind_ok, exists_unit, require_ok, pure_ok] at hrun
  obtain ⟨node, -, -, -, rfl⟩ := hrun
  refine ⟨rfl, rfl, rfl, rfl, fun _ => rfl, fun hnone => ?_⟩
  unfold Index.HnswIndex.append
  simp only [bind_ok, exists_unit, require_ok, pure_ok, ← current_slot_slots_of,
    hnone, Option.isNone_none, true_and]
  have hview : ∀ slots, slotsOf { next with currentSlots := slots } =
      ⟨(graph.records ++ [⟨id, level, true, false, false, vector⟩] :
        List (SlotRecord V)).map SlotRecord.slot, slots⟩ := by
    intro slots
    unfold slotsOf
    rw [← hrecords]
    rfl
  rw [hview, hslots, hslot, map_append, slot_count_records]
  unfold slotsOf
  rw [length_map]
  rfl

variable {change : HnswNode V → HnswNode V}

theorem records_modify_node (graph : HnswStorage V) (slot : Nat)
    {changed : SlotRecord V → SlotRecord V}
    (h : ∀ node, (change node).record = changed node.record) :
    (graph.modifyNode slot change).records = graph.records.modify slot changed := by
  unfold records modifyNode
  refine ext_getElem? fun other => ?_
  rw [getElem?_map, getElem?_modify, getElem?_modify, getElem?_map]
  cases graph.nodes[other]? with
  | none => rfl
  | some node =>
      simp only [Option.map_eq_map, Option.map_some, Option.some.injEq]
      split
      · exact h node
      · rfl

/-- A change that keeps the edges of nodes keeps the graph linked and its edges counted. -/
theorem modify_node_edges (graph : HnswStorage V) (slot : Nat)
    (h : ∀ node, (change node).base = node.base ∧ (change node).upper = node.upper) :
    (graph.modifyNode slot change).edgeCount = graph.edgeCount ∧
      ∀ layer, (graph.modifyNode slot change).adjacency layer = graph.adjacency layer := by
  have hlayer : ∀ node layer, (change node).layer layer = node.layer layer := by
    intro node layer
    cases layer with
    | zero => exact (h node).1
    | succ layer => simp only [HnswNode.layer, (h node).2]
  have hcount : ∀ node, (change node).edgeCount = node.edgeCount := by
    intro node
    simp only [HnswNode.edgeCount, (h node).1, (h node).2]
  constructor
  · unfold edgeCount modifyNode
    refine congrArg sum (ext_getElem? fun other => ?_)
    rw [getElem?_map, getElem?_map, getElem?_modify]
    cases graph.nodes[other]? with
    | none => rfl
    | some node =>
        simp only [Option.map_eq_map, Option.map_some, Option.some.injEq]
        split
        · exact hcount node
        · rfl
  · intro layer
    funext other
    unfold adjacency modifyNode
    rw [getElem?_modify]
    cases graph.nodes[other]? with
    | none => rfl
    | some node =>
        simp only [Option.map_eq_map, Option.map_some, Option.elim_some]
        split
        · exact hlayer node layer
        · rfl

/-- What retiring the slot of a point changes. -/
structure Retires (graph : HnswStorage V) (id : Int64) (slot : Nat)
    (changed : SlotRecord V → SlotRecord V) (next : HnswStorage V) : Prop where
  records : next.records = graph.records.modify slot changed
  config : next.config = graph.config
  valid : next.valid = graph.valid
  edges : next.edgeCount = graph.edgeCount
  adjacency : ∀ layer, next.adjacency layer = graph.adjacency layer
  slots : next.slotsOf = graph.slotsOf.retire id

theorem retires_of_modify (hcurrent : graph.currentSlot id = some slot)
    {changed : SlotRecord V → SlotRecord V}
    (hedges : ∀ node, (change node).base = node.base ∧ (change node).upper = node.upper)
    (hchange : ∀ node, (change node).record = changed node.record)
    (hchanged : ∀ record, (changed record).id = record.id ∧
      (changed record).vector = record.vector ∧ (changed record).current = false) :
    graph.Retires id slot changed
      { graph.modifyNode slot change with currentSlots := graph.currentSlots.erase id } := by
  obtain ⟨hcount, hadjacency⟩ := modify_node_edges graph slot hedges
  have hrecords := records_modify_node graph slot hchange
  refine ⟨hrecords, rfl, rfl, hcount, hadjacency, ?_⟩
  have hview : slotsOf { graph.modifyNode slot change with
      currentSlots := graph.currentSlots.erase id } =
      ⟨(graph.records.modify slot changed).map SlotRecord.slot,
        graph.currentSlots.erase id⟩ := by
    rw [← hrecords]
    rfl
  rw [hview, Index.HnswIndex.retire, ← current_slot_slots_of, hcurrent]
  simp only [Index.HnswIndex.mk.injEq]
  refine ⟨ext_getElem? fun other => ?_, rfl⟩
  rw [getElem?_map, getElem?_modify, getElem?_modify, slots_of_get]
  cases graph.records[other]? with
  | none => rfl
  | some record =>
      obtain ⟨hid, hvector, hflag⟩ := hchanged record
      simp only [Option.map_eq_map, Option.map_some, Option.some.injEq, SlotRecord.slot]
      split
      · rw [hid, hvector, hflag]
      · rfl

theorem mark_replaced_ok (hrun : graph.markReplaced id = .ok (next, slot)) :
    graph.currentSlot id = some slot ∧
      graph.Retires id slot (fun record => { record with current := false, replaced := true })
        next := by
  unfold markReplaced at hrun
  cases hcurrent : graph.currentSlot id with
  | none =>
      rw [hcurrent] at hrun
      cases hrun
  | some found =>
      rw [hcurrent] at hrun
      simp only [pure_ok, Prod.mk.injEq] at hrun
      obtain ⟨rfl, rfl⟩ := hrun
      exact ⟨rfl, retires_of_modify hcurrent (fun _ => ⟨rfl, rfl⟩) (fun _ => rfl)
        fun _ => ⟨rfl, rfl, rfl⟩⟩

theorem mark_deleted_spec (graph : HnswStorage V) (id : Int64) :
    (graph.currentSlot id = none ∧ graph.markDeleted id = (graph, false)) ∨
      ∃ slot next, graph.currentSlot id = some slot ∧ graph.markDeleted id = (next, true) ∧
        graph.Retires id slot (fun record => { record with current := false, deleted := true })
          next := by
  unfold markDeleted
  cases hcurrent : graph.currentSlot id with
  | none => exact .inl ⟨rfl, rfl⟩
  | some slot =>
      exact .inr ⟨slot, _, rfl, rfl, retires_of_modify hcurrent (fun _ => ⟨rfl, rfl⟩)
        (fun _ => rfl) fun _ => ⟨rfl, rfl, rfl⟩⟩

/-! ## Sound graphs pass validation -/

/-- What every graph built by the index satisfies: linked both ways, a map of points that agrees
with the slots, one lifecycle flag for each slot, storable vectors and bounded levels. -/
structure Sound (dispatcher : MetricDispatcher V) (graph : HnswStorage V) : Prop where
  wellLinked : graph.WellLinked
  published : graph.slotsOf.WellFormed
  flags : ∀ record ∈ graph.records,
    record.current.toNat + record.deleted.toNat + record.replaced.toNat = 1
  storable : ∀ record ∈ graph.records, dispatcher.storable record.vector = .ok ()
  levels : ∀ record ∈ graph.records, record.level ≤ levelLimit

theorem record_mem {node : HnswNode V} (h : graph.nodes[slot]? = some node) :
    node.record ∈ graph.records :=
  mem_map_of_mem (mem_of_getElem? h)

theorem mem_owned_levels {cell : Nat × Nat} :
    cell ∈ graph.ownedLevels ↔ graph.Owns cell.1 cell.2 := by
  unfold ownedLevels Owns
  simp only [mem_flatMap, mem_range]
  constructor
  · rintro ⟨slot, -, hmem⟩
    cases hnode : graph.nodes[slot]? with
    | none =>
        rw [hnode] at hmem
        exact absurd hmem not_mem_nil
    | some node =>
        rw [hnode] at hmem
        obtain ⟨level, hlevel, rfl⟩ := mem_map.1 hmem
        exact ⟨node, hnode, by simpa [Nat.lt_succ_iff] using hlevel⟩
  · rintro ⟨node, hnode, hle⟩
    refine ⟨cell.1, (List.getElem?_eq_some_iff.1 hnode).1, ?_⟩
    rw [hnode]
    exact mem_map.2 ⟨cell.2, mem_range.2 (by omega), rfl⟩

theorem owned_levels_nodup (graph : HnswStorage V) : graph.ownedLevels.Nodup := by
  unfold ownedLevels
  rw [nodup_flatMap]
  constructor
  · intro slot _
    cases graph.nodes[slot]? with
    | none => exact nodup_nil
    | some node => exact nodup_range.map fun a b h => (Prod.mk.inj h).2
  · refine nodup_range.imp fun {a b} hne cell ha hb => hne ?_
    -- A cell names the slot that it belongs to.
    have hslot : ∀ slot, (cell ∈ match graph.nodes[slot]? with
        | some node => (range (node.level + 1)).map fun level => (slot, level)
        | none => []) → cell.1 = slot := by
      intro slot hmem
      cases hnode : graph.nodes[slot]? with
      | none =>
          rw [hnode] at hmem
          exact absurd hmem not_mem_nil
      | some node =>
          rw [hnode] at hmem
          obtain ⟨level, -, rfl⟩ := mem_map.1 hmem
          rfl
    exact (hslot a ha).symm.trans (hslot b hb)

theorem mem_edges {edge : Nat × Nat × Nat} :
    edge ∈ graph.edges ↔ edge.2.2 ∈ graph.adjacency edge.1 edge.2.1 := by
  unfold edges
  simp only [mem_flatMap, mem_map]
  constructor
  · rintro ⟨cell, -, neighbor, hneighbor, rfl⟩
    exact hneighbor
  · intro hmem
    exact ⟨(edge.2.1, edge.1), mem_owned_levels.2 (owns_of_mem hmem), edge.2.2, hmem, rfl⟩

theorem edges_nodup (h : ∀ level slot, (graph.adjacency level slot).Nodup) :
    graph.edges.Nodup := by
  unfold edges
  rw [nodup_flatMap]
  constructor
  · intro cell _
    refine (h cell.2 cell.1).map fun a b heq => ?_
    simpa using heq
  · refine (owned_levels_nodup graph).imp fun {a b} hne edge ha hb => hne ?_
    obtain ⟨x, -, rfl⟩ := mem_map.1 ha
    obtain ⟨y, -, heq⟩ := mem_map.1 hb
    simp only [Prod.mk.injEq] at heq
    exact Prod.ext heq.2.1.symm heq.1.symm

/-- The audit accepts a linked graph whose cells can be numbered. -/
theorem audit_links_ok (h : graph.WellLinked) (hvalid : graph.valid = true)
    (hcells : graph.ownedLevels.length ≤ emptyNeighbor) : graph.auditLinks = .ok () := by
  unfold auditLinks HnswStorage.level
  simp only [bind_ok, exists_unit, require_ok, check_each_ok, pure_ok, node_ok]
  refine ⟨hvalid, hcells, fun cell _ => h.bounded cell.2 cell.1, fun edge hedge => ?_, ?_⟩
  · obtain ⟨node, hnode, hle⟩ := owns_target h (mem_edges.1 hedge)
    exact ⟨_, ⟨node, hnode, rfl⟩, hle⟩
  · rw [isPerm_iff]
    have hnodup := edges_nodup fun level slot => (h.linked level).nodup slot
    refine (perm_ext_iff_of_nodup hnodup ?_).2 fun edge => ?_
    · refine hnodup.map fun a b heq => ?_
      simp only [Prod.mk.injEq] at heq
      exact Prod.ext heq.1 (Prod.ext heq.2.2 heq.2.1)
    · rw [mem_edges, mem_map]
      constructor
      · intro hmem
        exact ⟨(edge.1, edge.2.2, edge.2.1), mem_edges.2 ((h.linked edge.1).symm _ _ hmem), rfl⟩
      · rintro ⟨other, hother, rfl⟩
        exact (h.linked other.1).symm _ _ (mem_edges.1 hother)

theorem length_owned_levels (graph : HnswStorage V) :
    graph.ownedLevels.length = (graph.nodes.map fun node => node.level + 1).sum := by
  unfold ownedLevels slotCount
  rw [length_flatMap]
  refine congrArg sum (ext_getElem (by simp) fun slot hleft hright => ?_)
  rw [length_map] at hright
  simp only [getElem_map, getElem_range, getElem?_eq_getElem hright,
    length_map, length_range]

/-- Tapes of slots whose cells can be numbered fit the `Int` bounds. -/
theorem check_tapes_ok (hm : graph.config.m ≤ levelLimit) (hm0 : graph.config.m0 ≤ levelLimit)
    {nodes : List (HnswNode V)} (hlevels : ∀ node ∈ nodes, node.level ≤ levelLimit)
    {cells counts : Nat} (hcells : cells ≤ levelLimit * counts)
    (hcounts : counts + (nodes.map fun node => node.level + 1).sum ≤ emptyNeighbor) :
    graph.checkTapes cells counts nodes = .ok () := by
  induction nodes generalizing cells counts with
  | nil => rfl
  | cons node nodes ih =>
      have hlevel := hlevels node mem_cons_self
      have hpos := graph.config.m_fits.1
      have hnode : node.level * graph.config.m ≤ node.level * levelLimit :=
        Nat.mul_le_mul_left _ hm
      have hdiv : node.level ≤ (intMax - graph.config.m0) / graph.config.m := by
        rw [Nat.le_div_iff_mul_le hpos]
        unfold levelLimit intMax at *
        omega
      simp only [map_cons, sum_cons] at hcounts
      unfold checkTapes
      simp only [bind_ok, exists_unit, require_ok]
      refine ⟨hlevel, hdiv, ?_, ?_, ih (fun other hother => hlevels other
        (mem_cons_of_mem _ hother)) ?_ (by omega)⟩
      · unfold levelLimit emptyNeighbor intMax at *
        omega
      · unfold emptyNeighbor intMax at *
        omega
      · unfold levelLimit at *
        omega

theorem check_slot_ok (h : graph.Sound dispatcher) {node : HnswNode V}
    (hnode : graph.nodes[slot]? = some node) : graph.checkSlot slot = .ok () := by
  unfold checkSlot checkLayer
  simp only [bind_ok, exists_unit, require_ok, check_each_ok, node_ok, level_capacity_ok,
    neighbors_ok, validate_neighbor_ok, mem_range]
  refine ⟨node, hnode, h.flags _ (record_mem hnode), fun hcurrent => ?_, fun level hlevel => ?_⟩
  · rw [current_slot_slots_of, Index.HnswIndex.current_slot_eq h.published]
    refine (h.published node.id slot).2 ⟨node.vector, ?_⟩
    unfold Index.HnswIndex.HoldsAt
    rw [slots_of_get, records, getElem?_map, hnode]
    simp only [Option.map_some, SlotRecord.slot, HnswNode.record, hcurrent]
  · have howns : graph.Owns slot level := ⟨node, hnode, by omega⟩
    refine ⟨_, ⟨howns, rfl⟩, _, ⟨howns, rfl⟩, h.wellLinked.bounded level slot, ?_,
      (h.wellLinked.linked level).nodup slot⟩
    intro neighbor hneighbor
    refine ⟨lt_of_owns howns, lt_of_owns (owns_target h.wellLinked hneighbor), fun heq => ?_⟩
    exact (h.wellLinked.linked level).irrefl slot (heq ▸ hneighbor)

/-- A sound graph is rejected only where its cells cannot be numbered or its vectors do not fit
one tape. -/
theorem validate_bidirectional_links_iff (h : graph.Sound dispatcher)
    (hm : graph.config.m ≤ levelLimit) (hm0 : graph.config.m0 ≤ levelLimit)
    (hvalid : graph.valid = true) :
    graph.validateBidirectionalLinks dispatcher = .ok () ↔
      graph.ownedLevels.length ≤ emptyNeighbor ∧
        (0 < graph.slotCount →
          graph.config.identity.dimension ≤ intMax / graph.slotCount) := by
  unfold validateBidirectionalLinks validateStructure
  simp only [bind_ok, exists_unit, require_ok, check_each_ok]
  constructor
  · rintro ⟨⟨-, hdimension, -⟩, haudit⟩
    unfold auditLinks at haudit
    simp only [bind_ok, exists_unit, require_ok] at haudit
    exact ⟨haudit.2.1, hdimension⟩
  · rintro ⟨hcells, hdimension⟩
    refine ⟨⟨graph.slots_fit, hdimension, fun node hnode => ?_, ?_, fun slot hslot => ?_, ?_,
      fun entry hentry => ?_⟩, audit_links_ok h.wellLinked hvalid hcells⟩
    · exact h.storable node.record (mem_map_of_mem hnode)
    · refine check_tapes_ok hm hm0 (fun node hnode => ?_) (Nat.zero_le _) ?_
      · exact h.levels node.record (mem_map_of_mem hnode)
      · rw [← length_owned_levels, Nat.zero_add]
        exact hcells
    · exact check_slot_ok h (getElem?_eq_getElem (mem_range.1 hslot))
    · have hsize := Index.HnswIndex.size_current_slots h.published
      unfold slotsOf records at hsize
      rw [map_map, countP_map] at hsize
      exact hsize
    · rw [current_slot_slots_of, Index.HnswIndex.current_slot_eq h.published]
      exact Std.ExtTreeMap.mem_toList_iff_getElem?_eq_some.1 hentry

/-! ## What the audit guarantees -/

theorem check_tapes_levels {cells counts : Nat} {nodes : List (HnswNode V)}
    (h : graph.checkTapes cells counts nodes = .ok ()) :
    ∀ node ∈ nodes, node.level ≤ levelLimit := by
  induction nodes generalizing cells counts with
  | nil => exact nofun
  | cons node nodes ih =>
      simp only [checkTapes, bind_ok, exists_unit, require_ok] at h
      obtain ⟨hlevel, -, -, -, hrest⟩ := h
      exact forall_mem_cons.2 ⟨hlevel, ih hrest⟩

/-- The local checks of every slot and the audit of the edges make a linked graph. -/
theorem well_linked_of_audit (hslots : ∀ slot < graph.slotCount, graph.checkSlot slot = .ok ())
    (haudit : graph.auditLinks = .ok ()) : graph.WellLinked := by
  -- Lists of levels that a slot does not own are empty.
  have hlayer : ∀ level slot, graph.adjacency level slot = [] ∨
      graph.checkLayer slot level = .ok () := by
    intro level slot
    rcases eq_nil_or_concat (graph.adjacency level slot) with hnil | ⟨front, last, hlast⟩
    · exact .inl hnil
    · right
      have hmem : last ∈ graph.adjacency level slot := by
        rw [hlast, concat_eq_append]
        exact mem_concat_self
      obtain ⟨node, hnode, hlevel⟩ := owns_of_mem hmem
      have hslot := hslots slot (List.getElem?_eq_some_iff.1 hnode).1
      unfold checkSlot at hslot
      simp only [bind_ok, exists_unit, require_ok, check_each_ok, node_ok,
        mem_range] at hslot
      obtain ⟨found, hfound, -, -, hlayers⟩ := hslot
      rw [hnode] at hfound
      obtain rfl := Option.some.inj hfound
      exact hlayers level (by omega)
  have hchecked : ∀ level slot, graph.checkLayer slot level = .ok () →
      (graph.adjacency level slot).length ≤ graph.capacityAt level ∧
        (∀ neighbor ∈ graph.adjacency level slot, neighbor ≠ slot) ∧
        (graph.adjacency level slot).Nodup := by
    intro level slot hcheck
    unfold checkLayer at hcheck
    simp only [bind_ok, exists_unit, require_ok, check_each_ok, level_capacity_ok,
      neighbors_ok, validate_neighbor_ok] at hcheck
    obtain ⟨_, ⟨-, rfl⟩, _, ⟨-, rfl⟩, hlength, htargets, hnodup⟩ := hcheck
    exact ⟨hlength, fun neighbor hneighbor => (htargets neighbor hneighbor).2.2, hnodup⟩
  unfold auditLinks at haudit
  simp only [bind_ok, exists_unit, require_ok, isPerm_iff] at haudit
  obtain ⟨-, -, -, -, hperm⟩ := haudit
  refine ⟨fun level => ⟨fun slot => ?_, fun slot hself => ?_, fun slot other hother => ?_⟩,
    fun level slot => ?_⟩
  · rcases hlayer level slot with hnil | hcheck
    · rw [hnil]
      exact nodup_nil
    · exact (hchecked level slot hcheck).2.2
  · rcases hlayer level slot with hnil | hcheck
    · rw [hnil] at hself
      exact absurd hself not_mem_nil
    · exact (hchecked level slot hcheck).2.1 slot hself rfl
  · have hedge : (level, slot, other) ∈ graph.edges := mem_edges.2 hother
    obtain ⟨edge, hreverse, heq⟩ := mem_map.1 (hperm.mem_iff.1 hedge)
    simp only [Prod.mk.injEq] at heq
    obtain ⟨rfl, rfl, rfl⟩ := heq
    exact mem_edges.1 hreverse
  · rcases hlayer level slot with hnil | hcheck
    · rw [hnil]
      exact Nat.zero_le _
    · exact (hchecked level slot hcheck).1

/-- The checks of the map of points make it agree with the slots. -/
theorem published_of_checks (hslots : ∀ slot < graph.slotCount, graph.checkSlot slot = .ok ())
    (hentries : ∀ entry ∈ graph.currentSlots.toList,
      graph.currentSlot entry.1 = some entry.2) : graph.slotsOf.WellFormed := by
  intro id slot
  constructor
  · intro hslot
    have hcurrent : graph.currentSlot id = some slot :=
      hentries (id, slot) (Std.ExtTreeMap.mem_toList_iff_getElem?_eq_some.2 hslot)
    obtain ⟨record, hrecord, hflag, hid⟩ := current_slot_record hcurrent
    refine ⟨record.vector, ?_⟩
    unfold Index.HnswIndex.HoldsAt
    rw [slots_of_get, hrecord, ← hflag, ← hid]
    rfl
  · rintro ⟨vector, hholds⟩
    unfold Index.HnswIndex.HoldsAt at hholds
    rw [slots_of_get, records, getElem?_map, Option.map_map, Option.map_eq_some_iff] at hholds
    obtain ⟨node, hnode, hslot⟩ := hholds
    have hcheck := hslots slot (List.getElem?_eq_some_iff.1 hnode).1
    unfold checkSlot at hcheck
    simp only [bind_ok, exists_unit, require_ok, node_ok] at hcheck
    obtain ⟨found, hfound, -, hmap, -⟩ := hcheck
    rw [hnode] at hfound
    obtain rfl := Option.some.inj hfound
    simp only [Function.comp_apply, SlotRecord.slot, HnswNode.record, HnswSlot.mk.injEq] at hslot
    have hcurrent := hmap hslot.2.2
    unfold currentSlot at hcurrent
    rw [← hslot.1]
    exact (Option.filter_eq_some_iff.1 hcurrent).1

/-- A graph that the audit accepts is sound. -/
theorem validate_bidirectional_links_sound
    (h : graph.validateBidirectionalLinks dispatcher = .ok ()) : graph.Sound dispatcher := by
  unfold validateBidirectionalLinks validateStructure at h
  simp only [bind_ok, exists_unit, require_ok, check_each_ok, mem_range] at h
  obtain ⟨⟨-, -, hstorable, htapes, hslots, -, hentries⟩, haudit⟩ := h
  refine ⟨well_linked_of_audit hslots haudit, published_of_checks hslots hentries,
    fun record hrecord => ?_, fun record hrecord => ?_, fun record hrecord => ?_⟩
  · obtain ⟨node, hnode, rfl⟩ := mem_map.1 hrecord
    obtain ⟨slot, hslot⟩ := List.getElem?_of_mem hnode
    have hcheck := hslots slot (List.getElem?_eq_some_iff.1 hslot).1
    unfold checkSlot at hcheck
    simp only [bind_ok, exists_unit, require_ok, node_ok] at hcheck
    obtain ⟨found, hfound, hflags, -⟩ := hcheck
    rw [hslot] at hfound
    obtain rfl := Option.some.inj hfound
    exact hflags
  · obtain ⟨node, hnode, rfl⟩ := mem_map.1 hrecord
    exact hstorable node hnode
  · obtain ⟨node, hnode, rfl⟩ := mem_map.1 hrecord
    exact check_tapes_levels htapes node hnode

end HnswStorage

end Akasha.Hnsw

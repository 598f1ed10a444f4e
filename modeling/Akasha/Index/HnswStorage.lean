import Akasha.Document.Value
import Akasha.Lib.Adjacency
import Akasha.Lib.Except
import Akasha.Lib.Slots
import Std.Data.ExtTreeMap

/-!
# Graph storage

`HnswStorage` holds the slots of an HNSW graph: an append-only list of nodes, each with its point,
its lifecycle flags, its prepared vector and one bounded list of neighbours for every level it
owns. The flat tapes of `hnsw_storage.mojo` reserve `m0 + level * m` cells for a node; here the
occupied cells of a level are a list, and a node has as many lists as its level says. A slot is
addressed by its position. Replaced and deleted slots stay as bridges of the graph, but are not
current.
-/

namespace Akasha.Hnsw

open Lib

/-- The metric of a graph. -/
inductive MetricKind where
  | dot
  | l2
  | cosine
deriving DecidableEq, Repr

/-- The scalar representation of the vectors of a graph. -/
inductive ScalarKind where
  | f32
  | bf16
  | f16
  | i8
deriving DecidableEq, Repr

/-- What a dispatcher and a graph must agree on. -/
structure StorageIdentity where
  dimension : Nat
  metric : MetricKind
  scalar : ScalarKind
deriving DecidableEq, Repr

/-- `UInt32.MAX`: the largest slot count, and the marker of an empty cell. -/
def emptyNeighbor : Nat := 4294967295

/-- The largest `Int`. -/
def intMax : Nat := 9223372036854775807

/-- The dimension from which products of I8 codes may leave an `Int32` accumulator. -/
def i8MaxSafeDimension : Nat := 133144

/-- Identity and capacities that `HnswStorage.__init__` accepts. -/
structure GraphConfig where
  identity : StorageIdentity
  m : Nat
  m0 : Nat
  dimension_fits : 0 < identity.dimension ∧ identity.dimension ≤ emptyNeighbor
  m_fits : 0 < m ∧ m ≤ emptyNeighbor
  m0_fits : 0 < m0 ∧ m0 ≤ emptyNeighbor
  i8_fits : identity.scalar = .i8 →
    identity.metric ≠ .l2 ∧ identity.dimension ≤ i8MaxSafeDimension

/-- One slot. A node of level `n` has `n` upper lists. -/
structure HnswNode (V : Type) where
  id : Int64
  current : Bool
  deleted : Bool
  replaced : Bool
  vector : V
  base : List Nat
  upper : List (List Nat)

/-- What a slot is apart from its edges. -/
structure SlotRecord (V : Type) where
  id : Int64
  level : Nat
  current : Bool
  deleted : Bool
  replaced : Bool
  vector : V

/-- The slots of a graph, and the current slot of each point. -/
structure HnswStorage (V : Type) where
  config : GraphConfig
  nodes : List (HnswNode V)
  currentSlots : Std.ExtTreeMap Int64 Nat
  valid : Bool
  slots_fit : nodes.length ≤ emptyNeighbor

variable {V : Type}

namespace HnswNode

/-- The level of a node. -/
def level (node : HnswNode V) : Nat :=
  node.upper.length

/-- The neighbours of a node on a level; none above its own. -/
def layer (node : HnswNode V) : Nat → List Nat
  | 0 => node.base
  | level + 1 => node.upper[level]?.getD []

/-- Write the neighbours of a node on a level. -/
def setLayer (node : HnswNode V) (values : List Nat) : Nat → HnswNode V
  | 0 => { node with base := values }
  | level + 1 => { node with upper := node.upper.set level values }

/-- The number of edges that leave a node. -/
def edgeCount (node : HnswNode V) : Nat :=
  node.base.length + (node.upper.map List.length).sum

/-- What a node is apart from its edges. -/
def record (node : HnswNode V) : SlotRecord V :=
  ⟨node.id, node.level, node.current, node.deleted, node.replaced, node.vector⟩

variable {node : HnswNode V} {values : List Nat} {level : Nat}

@[simp] theorem set_layer_level (node : HnswNode V) (values : List Nat) (level : Nat) :
    (node.setLayer values level).level = node.level := by
  cases level with
  | zero => rfl
  | succ level => simp [setLayer, HnswNode.level]

theorem layer_eq_nil (h : node.level < level) : node.layer level = [] := by
  cases level with
  | zero => omega
  | succ level =>
      unfold HnswNode.level at h
      rw [layer, List.getElem?_eq_none (by omega)]
      rfl

theorem layer_set_layer (h : level ≤ node.level) (other : Nat) :
    (node.setLayer values level).layer other = if other = level then values else node.layer other := by
  unfold HnswNode.level at h
  cases level with
  | zero => cases other <;> simp [setLayer, layer]
  | succ level =>
      cases other with
      | zero => simp [setLayer, layer]
      | succ other =>
          simp only [setLayer, layer, Nat.add_right_cancel_iff]
          by_cases heq : other = level
          · rw [if_pos heq, heq, List.getElem?_set_self (by omega)]
            rfl
          · rw [if_neg heq, List.getElem?_set_ne fun hsame => heq hsame.symm]

theorem record_set_layer (node : HnswNode V) (values : List Nat) (level : Nat) :
    (node.setLayer values level).record = node.record := by
  unfold record
  rw [set_layer_level]
  cases level with
  | zero => rfl
  | succ level => rfl

theorem edge_count_set_layer (h : level ≤ node.level) :
    (node.setLayer values level).edgeCount + (node.layer level).length =
      node.edgeCount + values.length := by
  unfold HnswNode.level at h
  cases level with
  | zero =>
      simp only [setLayer, edgeCount, layer]
      omega
  | succ level =>
      have hget : node.upper[level]? = some (node.layer (level + 1)) := by
        rw [layer, List.getElem?_eq_getElem (by omega)]
        rfl
      have hsum := sum_map_modify List.length (fun _ => values) hget
      rw [← List.set_eq_modify] at hsum
      simp only [setLayer, edgeCount]
      omega

end HnswNode

namespace HnswStorage

/-- `HnswStorage(dimension, m, m0)`. -/
def create (config : GraphConfig) : HnswStorage V where
  config := config
  nodes := []
  currentSlots := ∅
  valid := true
  slots_fit := Nat.zero_le _

/-- `slot_count`. -/
def slotCount (graph : HnswStorage V) : Nat :=
  graph.nodes.length

/-- `mark_invalid`: quarantine the graph. -/
def markInvalid (graph : HnswStorage V) : HnswStorage V :=
  { graph with valid := false }

/-- Change the node in a slot. -/
def modifyNode (graph : HnswStorage V) (slot : Nat) (change : HnswNode V → HnswNode V) :
    HnswStorage V :=
  { graph with
    nodes := graph.nodes.modify slot change
    slots_fit := by rw [List.length_modify]; exact graph.slots_fit }

/-- The neighbours of a slot on a level; none where there is no such slot or level. -/
def adjacency (graph : HnswStorage V) (level slot : Nat) : List Nat :=
  (graph.nodes[slot]?).elim [] (·.layer level)

/-- The slots, apart from their edges. -/
def records (graph : HnswStorage V) : List (SlotRecord V) :=
  graph.nodes.map HnswNode.record

/-- The number of directed edges. -/
def edgeCount (graph : HnswStorage V) : Nat :=
  (graph.nodes.map HnswNode.edgeCount).sum

/-- The capacity of a level. -/
def capacityAt (graph : HnswStorage V) (level : Nat) : Nat :=
  if level = 0 then graph.config.m0 else graph.config.m

/-- A slot exists and owns the level. -/
def Owns (graph : HnswStorage V) (slot level : Nat) : Prop :=
  ∃ node, graph.nodes[slot]? = some node ∧ level ≤ node.level

/-! ## Reading slots -/

/-- `_slot_index`: the node in a slot. -/
def node (graph : HnswStorage V) (slot : Nat) : Except String (HnswNode V) :=
  match graph.nodes[slot]? with
  | some node => .ok node
  | none => .error "HNSW slot out of bounds"

/-- `id_at`. -/
def idAt (graph : HnswStorage V) (slot : Nat) : Except String Int64 := do
  let node ← graph.node slot
  pure node.id

/-- `level`. -/
def level (graph : HnswStorage V) (slot : Nat) : Except String Nat := do
  let node ← graph.node slot
  pure node.level

/-- `is_current`. -/
def isCurrent (graph : HnswStorage V) (slot : Nat) : Bool :=
  (graph.nodes[slot]?).any (·.current)

/-- `current_slot`: a stale entry of the map is rejected. -/
def currentSlot (graph : HnswStorage V) (id : Int64) : Option Nat :=
  (graph.currentSlots[id]?).filter fun slot =>
    (graph.nodes[slot]?).any fun node => node.current && node.id == id

/-- `_validate_level`. -/
def validateLevel (graph : HnswStorage V) (slot level : Nat) : Except String Unit := do
  let owned ← graph.level slot
  require (level ≤ owned) "HNSW graph level out of bounds"

/-- `level_capacity`. -/
def levelCapacity (graph : HnswStorage V) (slot level : Nat) : Except String Nat := do
  graph.validateLevel slot level
  pure (graph.capacityAt level)

/-- The occupied cells of a level, as `neighbor_count` and `neighbor_at` read them. -/
def neighbors (graph : HnswStorage V) (slot level : Nat) : Except String (List Nat) := do
  graph.validateLevel slot level
  pure (graph.adjacency level slot)

/-- `neighbor_count`. -/
def neighborCount (graph : HnswStorage V) (slot level : Nat) : Except String Nat := do
  let values ← graph.neighbors slot level
  pure values.length

/-- `_validate_neighbor`. -/
def validateNeighbor (graph : HnswStorage V) (slot neighbor : Nat) : Except String Unit := do
  let _ ← graph.node slot
  require (neighbor ≠ emptyNeighbor) "HNSW empty-neighbor sentinel cannot be an edge"
  let _ ← graph.node neighbor
  require (neighbor ≠ slot) "HNSW self edges are not allowed"

/-- `contains_neighbor`. -/
def containsNeighbor (graph : HnswStorage V) (slot level neighbor : Nat) :
    Except String Bool := do
  graph.validateNeighbor slot neighbor
  let values ← graph.neighbors slot level
  pure (values.contains neighbor)

/-! ## Writing edges -/

/-- Overwrite the cells of a level. -/
def writeNeighbors (graph : HnswStorage V) (slot level : Nat) (values : List Nat) :
    HnswStorage V :=
  graph.modifyNode slot (·.setLayer values level)

/-- `remove_neighbor`: close the gap, and tell whether the edge was there. -/
def removeNeighbor (graph : HnswStorage V) (slot level neighbor : Nat) :
    Except String (HnswStorage V × Bool) := do
  graph.validateNeighbor slot neighbor
  let values ← graph.neighbors slot level
  if neighbor ∈ values then
    pure (graph.writeNeighbors slot level (values.erase neighbor), true)
  else pure (graph, false)

/-- The loop of `set_neighbors` over the proposed values. -/
def checkNeighbors (graph : HnswStorage V) (slot : Nat) :
    List Nat → List Nat → Except String Unit
  | _, [] => .ok ()
  | earlier, value :: values => do
      graph.validateNeighbor slot value
      require (value ∉ earlier) "HNSW neighbor list contains a duplicate"
      checkNeighbors graph slot (earlier ++ [value]) values

/-- `set_neighbors`. -/
def setNeighbors (graph : HnswStorage V) (slot level : Nat) (values : List Nat) :
    Except String (HnswStorage V) := do
  let capacity ← graph.levelCapacity slot level
  require (values.length ≤ capacity) "HNSW neighbor list exceeds level capacity"
  graph.checkNeighbors slot [] values
  pure (graph.writeNeighbors slot level values)

/-! ## What the operations return -/

variable {graph next last : HnswStorage V} {slot level neighbor : Nat} {values : List Nat}
  {item : HnswNode V}

theorem node_ok : graph.node slot = .ok item ↔ graph.nodes[slot]? = some item := by
  unfold node
  cases graph.nodes[slot]? <;> simp

theorem node_of_lt (h : slot < graph.slotCount) : ∃ item, graph.node slot = .ok item :=
  ⟨_, node_ok.2 (List.getElem?_eq_getElem h)⟩

theorem lt_of_owns (h : graph.Owns slot level) : slot < graph.slotCount := by
  obtain ⟨item, hitem, -⟩ := h
  exact (List.getElem?_eq_some_iff.1 hitem).1

theorem validate_level_ok {u : Unit} :
    graph.validateLevel slot level = .ok u ↔ graph.Owns slot level := by
  unfold validateLevel HnswStorage.level Owns
  simp only [bind_ok, pure_ok, node_ok, require_ok]
  constructor
  · rintro ⟨owned, ⟨item, hitem, rfl⟩, hle⟩
    exact ⟨item, hitem, hle⟩
  · rintro ⟨item, hitem, hle⟩
    exact ⟨_, ⟨item, hitem, rfl⟩, hle⟩

theorem level_capacity_ok {capacity : Nat} : graph.levelCapacity slot level = .ok capacity ↔
    graph.Owns slot level ∧ graph.capacityAt level = capacity := by
  unfold levelCapacity
  simp only [bind_ok, exists_unit, validate_level_ok, pure_ok]

theorem neighbors_ok : graph.neighbors slot level = .ok values ↔
    graph.Owns slot level ∧ graph.adjacency level slot = values := by
  unfold neighbors
  simp only [bind_ok, exists_unit, validate_level_ok, pure_ok]

theorem neighbor_count_ok {count : Nat} : graph.neighborCount slot level = .ok count ↔
    graph.Owns slot level ∧ (graph.adjacency level slot).length = count := by
  unfold neighborCount
  simp only [bind_ok, neighbors_ok, pure_ok]
  constructor
  · rintro ⟨values, ⟨howns, rfl⟩, hlength⟩
    exact ⟨howns, hlength⟩
  · rintro ⟨howns, hlength⟩
    exact ⟨_, ⟨howns, rfl⟩, hlength⟩

theorem validate_neighbor_ok {u : Unit} : graph.validateNeighbor slot neighbor = .ok u ↔
    slot < graph.slotCount ∧ neighbor < graph.slotCount ∧ neighbor ≠ slot := by
  unfold validateNeighbor
  simp only [bind_ok, exists_unit, require_ok, node_ok, List.getElem?_eq_some_iff]
  have hfit := graph.slots_fit
  constructor
  · rintro ⟨_, ⟨hslot, -⟩, -, _, ⟨hneighbor, -⟩, hne⟩
    exact ⟨hslot, hneighbor, hne⟩
  · rintro ⟨hslot, hneighbor, hne⟩
    have hmarker : neighbor ≠ emptyNeighbor := by
      unfold slotCount at hneighbor
      omega
    exact ⟨_, ⟨hslot, rfl⟩, hmarker, _, ⟨hneighbor, rfl⟩, hne⟩

theorem check_neighbors_ok {earlier : List Nat} {u : Unit} :
    graph.checkNeighbors slot earlier values = .ok u ↔
      (∀ value ∈ values, graph.validateNeighbor slot value = .ok () ∧ value ∉ earlier) ∧
        values.Nodup := by
  induction values generalizing earlier with
  | nil => simp [checkNeighbors]
  | cons value values ih =>
      rw [checkNeighbors]
      simp only [bind_ok, exists_unit, require_ok, ih, List.forall_mem_cons,
        List.nodup_cons, List.mem_append, List.mem_singleton, not_or]
      constructor
      · rintro ⟨hvalid, hnew, hrest, hnodup⟩
        exact ⟨⟨⟨hvalid, hnew⟩, fun v hv => ⟨(hrest v hv).1, (hrest v hv).2.1⟩⟩,
          fun hmem => (hrest value hmem).2.2 rfl, hnodup⟩
      · rintro ⟨⟨⟨hvalid, hnew⟩, hrest⟩, hnot, hnodup⟩
        exact ⟨hvalid, hnew, fun v hv => ⟨(hrest v hv).1, (hrest v hv).2,
          fun heq => hnot (heq ▸ hv)⟩, hnodup⟩

theorem set_neighbors_ok : graph.setNeighbors slot level values = .ok next ↔
    graph.Owns slot level ∧ values.length ≤ graph.capacityAt level ∧
      (∀ value ∈ values, value < graph.slotCount ∧ value ≠ slot) ∧ values.Nodup ∧
        graph.writeNeighbors slot level values = next := by
  unfold setNeighbors
  simp only [bind_ok, exists_unit, require_ok, level_capacity_ok, check_neighbors_ok,
    validate_neighbor_ok, pure_ok]
  constructor
  · rintro ⟨capacity, ⟨howns, rfl⟩, hlength, ⟨hvalues, hnodup⟩, hnext⟩
    exact ⟨howns, hlength, fun v hv => (hvalues v hv).1.2, hnodup, hnext⟩
  · rintro ⟨howns, hlength, hvalues, hnodup, hnext⟩
    exact ⟨_, ⟨howns, rfl⟩, hlength, ⟨fun v hv =>
      ⟨⟨lt_of_owns howns, hvalues v hv⟩, List.not_mem_nil⟩, hnodup⟩, hnext⟩

/-! ## Graphs that differ in their edges -/

/-- The second graph is the first with other edges. -/
structure SameSlots (graph next : HnswStorage V) : Prop where
  records : next.records = graph.records
  config : next.config = graph.config
  currentSlots : next.currentSlots = graph.currentSlots
  valid : next.valid = graph.valid

/-- The second graph is the first with other edges on one level. -/
structure Relinked (level : Nat) (graph next : HnswStorage V) : Prop
    extends SameSlots graph next where
  other : ∀ layer, layer ≠ level → next.adjacency layer = graph.adjacency layer

theorem same_slots_refl (graph : HnswStorage V) : SameSlots graph graph :=
  ⟨rfl, rfl, rfl, rfl⟩

theorem same_slots_trans (h : SameSlots graph next) (h' : SameSlots next last) :
    SameSlots graph last :=
  ⟨h'.records.trans h.records, h'.config.trans h.config, h'.currentSlots.trans h.currentSlots,
    h'.valid.trans h.valid⟩

theorem relinked_refl (level : Nat) (graph : HnswStorage V) : Relinked level graph graph :=
  ⟨same_slots_refl graph, fun _ _ => rfl⟩

theorem relinked_trans (h : Relinked level graph next) (h' : Relinked level next last) :
    Relinked level graph last :=
  ⟨same_slots_trans h.toSameSlots h'.toSameSlots,
    fun layer hne => (h'.other layer hne).trans (h.other layer hne)⟩

theorem slot_count_records (graph : HnswStorage V) : graph.slotCount = graph.records.length := by
  unfold records slotCount
  rw [List.length_map]

theorem owns_records : graph.Owns slot level ↔
    ∃ record, graph.records[slot]? = some record ∧ level ≤ record.level := by
  unfold Owns records
  rw [List.getElem?_map]
  cases graph.nodes[slot]? with
  | none => simp
  | some item => simp [HnswNode.record]

theorem is_current_records : graph.isCurrent slot = (graph.records[slot]?).any (·.current) := by
  unfold isCurrent records
  rw [List.getElem?_map]
  cases graph.nodes[slot]? <;> rfl

theorem same_slot_count (h : SameSlots graph next) : next.slotCount = graph.slotCount := by
  rw [slot_count_records, slot_count_records, h.records]

theorem same_owns (h : SameSlots graph next) : next.Owns slot level ↔ graph.Owns slot level := by
  rw [owns_records, owns_records, h.records]

theorem same_is_current (h : SameSlots graph next) (slot : Nat) :
    next.isCurrent slot = graph.isCurrent slot := by
  rw [is_current_records, is_current_records, h.records]

theorem same_capacity (h : SameSlots graph next) (layer : Nat) :
    next.capacityAt layer = graph.capacityAt layer := by
  unfold capacityAt
  rw [h.config]

/-- Writing a list relinks one level: the list of the slot changes and the edges with it. -/
theorem write_neighbors_relinked (h : graph.Owns slot level) (values : List Nat) :
    Relinked level graph (graph.writeNeighbors slot level values) ∧
      (graph.writeNeighbors slot level values).adjacency level =
        Function.update (graph.adjacency level) slot values ∧
      (graph.writeNeighbors slot level values).edgeCount + (graph.adjacency level slot).length =
        graph.edgeCount + values.length := by
  obtain ⟨item, hitem, hle⟩ := h
  -- Every layer of the new graph, read through the written slot.
  have hlayer : ∀ layer other, (graph.writeNeighbors slot level values).adjacency layer other =
      if layer = level ∧ other = slot then values else graph.adjacency layer other := by
    intro layer other
    unfold adjacency writeNeighbors modifyNode
    simp only [List.getElem?_modify]
    by_cases heq : slot = other
    · subst heq
      simp only [if_true, hitem, Option.map_eq_map, Option.map_some, Option.elim_some, and_true]
      exact HnswNode.layer_set_layer hle layer
    · have hne : ¬ other = slot := fun hsame => heq hsame.symm
      simp only [heq, hne, if_false, and_false, Option.map_eq_map, Option.map_id_fun']
      rfl
  refine ⟨⟨⟨?_, rfl, rfl, rfl⟩, fun layer hne => ?_⟩, ?_, ?_⟩
  · show (graph.nodes.modify slot (·.setLayer values level)).map HnswNode.record = _
    unfold records
    refine List.ext_getElem? fun other => ?_
    rw [List.getElem?_map, List.getElem?_map, List.getElem?_modify]
    cases graph.nodes[other]? with
    | none => rfl
    | some found =>
        simp only [Option.map_eq_map, Option.map_some, Option.some.injEq]
        split
        · exact HnswNode.record_set_layer found values level
        · rfl
  · funext other
    rw [hlayer, if_neg fun hand => hne hand.1]
  · funext other
    rw [hlayer, Function.update_apply]
    simp only [true_and]
  · have hsum := sum_map_modify HnswNode.edgeCount (·.setLayer values level) hitem
    have hnode : (item.setLayer values level).edgeCount + (item.layer level).length =
        item.edgeCount + values.length := HnswNode.edge_count_set_layer hle
    have hold : graph.adjacency level slot = item.layer level := by
      unfold adjacency
      rw [hitem]
      rfl
    rw [hold]
    unfold edgeCount writeNeighbors modifyNode
    simp only at hsum ⊢
    omega

end HnswStorage

end Akasha.Hnsw

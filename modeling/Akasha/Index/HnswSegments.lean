import Akasha.Index.HnswAudit
import Akasha.Index.HnswProgress
import Akasha.Lib.Tally

/-!
# A graph in two segments

`SegmentedHnsw` overlays an immutable base graph, owned or mapped, with a mutable delta. A map
binds every current point to its slot of the base or to the delta, with two counters beside it and
a counter of base slots that are no longer bound. `Coherent` says that all of these agree, and
coherent segments pass `validate_overlay` whenever their delta passes its own validation
(`validate_overlay_iff`).
-/

namespace Akasha.Hnsw

open Lib Lib.Exec List Option
open Index (HnswSource)

variable {V : Type}

deriving instance DecidableEq for GraphConfig
deriving instance DecidableEq for HnswConfig

/-- What `CollectionConfig.validate` accepts, as far as a graph uses it. -/
structure HnswCollectionConfig extends HnswConfig where
  deltaMaxPoints : Nat
  m_least : 2 ≤ m
  m_le : m ≤ m0
  construction_fits : m0 ≤ efConstruction
  search_pos : 0 < maxEfSearch
  max_level_le : maxLevel ≤ 63
  multiplier_eq : levelMultiplier = m
  delta_max_pos : 0 < deltaMaxPoints

/-! ## Sources -/

/-- `_CurrentSourceState`. -/
structure CurrentSources where
  sources : Std.ExtTreeMap Int64 HnswSource
  baseCount : Nat
  deltaCount : Nat

/-- Whether a point is bound to the base. -/
def isBase : HnswSource → Bool
  | .base _ => true
  | .delta => false

/-- Whether a point is bound to the delta. -/
def isDelta : HnswSource → Bool
  | .base _ => false
  | .delta => true

variable {source : HnswSource}

namespace CurrentSources

def empty : CurrentSources :=
  ⟨∅, 0, 0⟩

/-- `source_for`, with no source for `0`. -/
def sourceFor (state : CurrentSources) (id : Int64) : Option HnswSource :=
  state.sources[id]?

/-- `_decrement`. -/
def decrement (state : CurrentSources) : HnswSource → Except String CurrentSources
  | .delta => do
      require (0 < state.deltaCount) "HNSW delta source count underflow"
      pure { state with deltaCount := state.deltaCount - 1 }
  | .base _ => do
      require (0 < state.baseCount) "HNSW base source count underflow"
      pure { state with baseCount := state.baseCount - 1 }

/-- Take a source that a point may have off the counters. -/
def discount (state : CurrentSources) (id : Int64) : Except String CurrentSources :=
  match state.sourceFor id with
  | some old => state.decrement old
  | none => pure state

/-- `_replace`, as `set_base` and `set_delta` call it. -/
def replace (state : CurrentSources) (id : Int64) (source : HnswSource) :
    Except String CurrentSources := do
  let kept ← state.discount id
  pure {
    sources := kept.sources.insert id source
    baseCount := kept.baseCount + (isBase source).toNat
    deltaCount := kept.deltaCount + (isDelta source).toNat }

/-- `remove`: whether the point had a source. -/
def remove (state : CurrentSources) (id : Int64) : Except String (CurrentSources × Bool) :=
  match state.sourceFor id with
  | none => pure (state, false)
  | some source => do
      let kept ← state.decrement source
      pure ({ kept with sources := kept.sources.erase id }, true)

/-- The counters count. -/
structure Counted (state : CurrentSources) : Prop where
  base : state.baseCount = tally isBase state.sources
  delta : state.deltaCount = tally isDelta state.sources

variable {state next : CurrentSources} {id : Int64}

/-- Counters that count do not underflow. -/
theorem decrement_returns (h : state.Counted) (hsource : state.sourceFor id = some source) :
    ∃ kept, state.decrement source = .ok kept ∧ kept.sources = state.sources ∧
      kept.baseCount = tally isBase (state.sources.erase id) ∧
      kept.deltaCount = tally isDelta (state.sources.erase id) := by
  have hbase := tally_erase isBase state.sources id
  have hdelta := tally_erase isDelta state.sources id
  unfold sourceFor at hsource
  rw [hsource, elim_some, ← h.base] at hbase
  rw [hsource, elim_some, ← h.delta] at hdelta
  cases source with
  | delta =>
      have hpos : 0 < state.deltaCount := by
        rw [hdelta]
        simp only [isDelta, Bool.toNat_true]
        omega
      refine ⟨{ state with deltaCount := state.deltaCount - 1 }, ?_, rfl, ?_, ?_⟩
      · unfold decrement
        simp only [bind_ok, exists_unit, require_ok]
        exact ⟨hpos, rfl⟩
      · simpa [isBase] using hbase
      · show state.deltaCount - 1 = _
        rw [hdelta]
        simp [isDelta]
  | base slot =>
      have hpos : 0 < state.baseCount := by
        rw [hbase]
        simp only [isBase, Bool.toNat_true]
        omega
      refine ⟨{ state with baseCount := state.baseCount - 1 }, ?_, rfl, ?_, ?_⟩
      · unfold decrement
        simp only [bind_ok, exists_unit, require_ok]
        exact ⟨hpos, rfl⟩
      · show state.baseCount - 1 = _
        rw [hbase]
        simp [isBase]
      · simpa [isDelta] using hdelta

/-- Binding a point returns and keeps the counters. -/
theorem replace_returns (h : state.Counted) (id : Int64) (source : HnswSource) :
    ∃ next, state.replace id source = .ok next ∧ next.sources = state.sources.insert id source ∧
      next.Counted := by
  have hkept : ∃ kept, state.discount id = .ok kept ∧ kept.sources = state.sources ∧
      kept.baseCount = tally isBase (state.sources.erase id) ∧
      kept.deltaCount = tally isDelta (state.sources.erase id) := by
    unfold discount
    cases hsource : state.sourceFor id with
    | some old => exact decrement_returns h hsource
    | none =>
        have hbase := tally_erase isBase state.sources id
        have hdelta := tally_erase isDelta state.sources id
        unfold sourceFor at hsource
        rw [hsource, elim_none, Nat.zero_add] at hbase hdelta
        exact ⟨state, rfl, rfl, h.base.trans hbase, h.delta.trans hdelta⟩
  obtain ⟨kept, hrun, hsources, hbase, hdelta⟩ := hkept
  refine ⟨⟨kept.sources.insert id source, kept.baseCount + (isBase source).toNat,
    kept.deltaCount + (isDelta source).toNat⟩, bind_ok.2 ⟨kept, hrun, rfl⟩, ?_, ?_, ?_⟩
  · show kept.sources.insert id source = _
    rw [hsources]
  · show kept.baseCount + (isBase source).toNat = tally isBase (kept.sources.insert id source)
    rw [hsources, tally_insert, hbase, Nat.add_comm]
  · show kept.deltaCount + (isDelta source).toNat = tally isDelta (kept.sources.insert id source)
    rw [hsources, tally_insert, hdelta, Nat.add_comm]

theorem remove_returns (h : state.Counted) (hsource : state.sourceFor id = some source) :
    ∃ next, state.remove id = .ok (next, true) ∧ next.sources = state.sources.erase id ∧
      next.Counted := by
  obtain ⟨kept, hrun, hsources, hbase, hdelta⟩ := decrement_returns h hsource
  refine ⟨{ kept with sources := kept.sources.erase id }, ?_, by rw [hsources], ?_, ?_⟩
  · unfold remove
    rw [hsource]
    exact bind_ok.2 ⟨kept, hrun, rfl⟩
  · show kept.baseCount = tally isBase (kept.sources.erase id)
    rw [hsources, hbase]
  · show kept.deltaCount = tally isDelta (kept.sources.erase id)
    rw [hsources, hdelta]

end CurrentSources

/-! ## The base -/

/-- `HnswGraphView`: a graph in a mapped sidecar, with the counts of the header. The points of a
view are found by their slots only; the map of points of `graph` is not read. -/
structure HnswGraphView (V : Type) where
  config : HnswConfig
  isOpen : Bool
  graph : HnswStorage V
  livePoints : Nat
  levelCells : Nat
  directedEdges : Nat
  entrySlot : Option Nat
  entryLevel : Int

namespace HnswGraphView

/-- `validate_search_ready`. -/
def validateSearchReady (view : HnswGraphView V) : Except String Unit :=
  require (view.isOpen = true) "cannot search a closed HNSW graph view"

/-- The first loop of `validate_structure_with_stats`: the nodes and their vectors, with the ids of
the current nodes so far. -/
def checkNodes (dispatcher : MetricDispatcher V) (view : HnswGraphView V) :
    List Int64 → List (HnswNode V) → Except String (List Int64)
  | ids, [] => pure ids
  | ids, node :: nodes => do
      require (node.level ≤ view.config.maxLevel) "HNSW snapshot node level is invalid"
      require (node.current.toNat + node.deleted.toNat + node.replaced.toNat = 1)
        "HNSW snapshot node lifecycle flags are invalid"
      checkEach (List.range (node.level + 1)) fun level =>
        require ((node.layer level).length ≤ view.graph.capacityAt level)
          "HNSW snapshot neighbor count exceeds capacity"
      dispatcher.validatePrepared node.vector
      if node.current then do
        require (node.id ∉ ids) "HNSW snapshot current public IDs must be unique"
        checkNodes dispatcher view (ids ++ [node.id]) nodes
      else checkNodes dispatcher view ids nodes

/-- The second loop: the neighbours of a node on a level. -/
def checkNeighbors (view : HnswGraphView V) (cell : Nat × Nat) : Except String Unit := do
  checkEach (view.graph.adjacency cell.2 cell.1) fun neighbor => do
    require (neighbor < view.graph.slotCount) "HNSW snapshot neighbor ordinal is invalid"
    require (neighbor ≠ cell.1) "HNSW snapshot self edges are not allowed"
    let level ← view.graph.level neighbor
    require (cell.2 ≤ level) "HNSW snapshot edge target lacks graph level"
  require (view.graph.adjacency cell.2 cell.1).Nodup "HNSW snapshot neighbor list has a duplicate"

/-- The check of the entry point. -/
def checkEntry (view : HnswGraphView V) : Except String Unit :=
  if view.graph.slotCount = 0 then
    require (view.entrySlot = none ∧ view.entryLevel = -1)
      "empty HNSW snapshot entry point is invalid"
  else
    match view.entrySlot with
    | none => throw "non-empty HNSW snapshot entry point is invalid"
    | some entry =>
        require ((view.graph.nodes[entry]?).any (fun node => view.entryLevel = node.level) ∧
            ∀ node ∈ view.graph.nodes, node.current = true → (node.level : Int) ≤ view.entryLevel)
          "HNSW snapshot entry point is invalid"

/-- `validate_structure`. The offsets of the records are not part of the model. -/
def validateStructure (dispatcher : MetricDispatcher V) (view : HnswGraphView V) :
    Except String Unit := do
  view.validateSearchReady
  require (view.livePoints ≤ view.graph.slotCount)
    "HNSW graph view live count exceeds slot count"
  let ids ← checkNodes dispatcher view [] view.graph.nodes
  require (ids.length = view.livePoints) "HNSW snapshot live count does not match node flags"
  require (view.graph.ownedLevels.length = view.levelCells)
    "HNSW snapshot level count does not match nodes"
  require (view.graph.edgeCount = view.directedEdges)
    "HNSW snapshot edge count does not match nodes"
  checkEach view.graph.ownedLevels view.checkNeighbors
  view.checkEntry
  let _ ← view.graph.auditBidirectionalLinks

end HnswGraphView

/-- `_base_kind` with the base that it names. -/
inductive HnswBase (V : Type) where
  | none
  | owned (index : HnswIndex V)
  | mapped (view : HnswGraphView V)

namespace HnswBase

/-- The nodes of the base. -/
def nodes : HnswBase V → List (HnswNode V)
  | .none => []
  | .owned index => index.graph.nodes
  | .mapped view => view.graph.nodes

/-- `base_slot_count`. -/
def slotCount (base : HnswBase V) : Nat := base.nodes.length

/-- `_base_live_count`. -/
def liveCount : HnswBase V → Int
  | .none => 0
  | .owned index => index.activeCount
  | .mapped view => view.livePoints

/-- The base can be read: it was not unmapped. -/
def isOpen : HnswBase V → Bool
  | .mapped view => view.isOpen
  | _ => true

/-- The point of a slot that `is_current`. -/
def currentId (base : HnswBase V) (slot : Nat) : Option Int64 :=
  if base.isOpen then ((base.nodes[slot]?).filter (·.current)).map (·.id) else .none

/-- The vector in a slot. -/
def vectorAt (base : HnswBase V) (slot : Nat) : Option V :=
  (base.nodes[slot]?).map (·.vector)

/-- The configuration of a base. -/
def config : HnswBase V → Option HnswConfig
  | .none => .none
  | .owned index => some index.config
  | .mapped view => some view.config

/-- The loops of `_index_owned_base_sources` and `_index_mapped_base_sources`. -/
def indexSources (base : HnswBase V) : List Nat → CurrentSources → Except String CurrentSources
  | [], state => pure state
  | slot :: slots, state =>
      match base.currentId slot with
      | .none => base.indexSources slots state
      | some id => do
          let next ← state.replace id (.base slot)
          base.indexSources slots next

end HnswBase

/-! ## The segments -/

/-- `SegmentedHnsw`. -/
structure SegmentedHnsw (V : Type) where
  config : HnswCollectionConfig
  base : HnswBase V
  delta : HnswIndex V
  sources : CurrentSources
  baseStaleCount : Nat
  deltaMutations : Nat

namespace SegmentedHnsw

/-- `SegmentedHnsw(config)`. -/
def new (config : HnswCollectionConfig) : SegmentedHnsw V :=
  ⟨config, .none, .create config.toHnswConfig, .empty, 0, 0⟩

/-- `_record_mutation`. -/
def recordMutation (index : SegmentedHnsw V) : SegmentedHnsw V :=
  if index.deltaMutations < index.config.deltaMaxPoints then
    { index with deltaMutations := index.deltaMutations + 1 }
  else index

/-- `_base_source_matches`, for the slot that a source names. -/
def baseSourceMatches (index : SegmentedHnsw V) (id : Int64) (slot : Nat) : Bool :=
  index.base.currentId slot = some id

variable (dispatcher : MetricDispatcher V)

/-- `_validate_identity`. -/
def validateIdentity (index : SegmentedHnsw V) : Except String Unit := do
  require (dispatcher.identity = index.config.identity)
    "distance backend dispatcher does not match config"
  require (index.delta.config = index.config.toHnswConfig)
    "segmented HNSW delta config diverged from identity"
  match index.base with
  | .none => pure ()
  | .owned base =>
      require (base.config = index.config.toHnswConfig)
        "segmented HNSW owned base config mismatch"
  | .mapped view =>
      require (view.config = index.config.toHnswConfig)
        "segmented HNSW mapped base config mismatch"

/-- A collection over a base, with the sources of the base. -/
def adopt (config : HnswCollectionConfig) (base : HnswBase V) :
    Except String (SegmentedHnsw V) := do
  let sources ← base.indexSources (List.range base.slotCount) .empty
  pure { new config with base := base, sources := sources }

/-- `from_owned`. The collection takes the configuration of the base. -/
def fromOwned (config : HnswCollectionConfig) (base : HnswIndex V) :
    Except String (SegmentedHnsw V) := do
  base.validateStructure dispatcher
  adopt config (.owned base)

/-- `from_mapped`. The collection takes the configuration of the view. -/
def fromMapped (config : HnswCollectionConfig) (view : HnswGraphView V) :
    Except String (SegmentedHnsw V) := do
  view.validateSearchReady
  adopt config (.mapped view)

/-- `promote_delta_base`: the delta becomes the owned base. -/
def promoteDeltaBase (index : SegmentedHnsw V) : Except String (SegmentedHnsw V) := do
  require (index.base.slotCount = 0) "segmented HNSW already has a non-empty base"
  index.delta.validateStructure dispatcher
  adopt index.config (.owned index.delta)

/-- Bind a point to the delta. -/
def setDelta (id : Int64) : Exec (SegmentedHnsw V) String Unit :=
  .attempt fun index => do
    let sources ← index.sources.replace id .delta
    pure ({ index with sources := sources }, ())

/-- Count one more base slot that is no longer bound. -/
def staleBase (index : SegmentedHnsw V) : SegmentedHnsw V :=
  { index with baseStaleCount := index.baseStaleCount + 1 }

/-- `upsert`. -/
def upsert (id : Int64) (values : List F32) : Exec (SegmentedHnsw V) String Unit := do
  let index ← read
  lift (index.validateIdentity dispatcher)
  zoom (·.delta) (fun delta index => { index with delta := delta })
    (HnswIndex.upsert dispatcher id values)
  update fun changed =>
    if ((index.sources.sourceFor id).any isBase) then changed.staleBase else changed
  setDelta id
  update recordMutation

/-- Forget a point whose slot is retired. -/
def unbind (id : Int64) : Exec (SegmentedHnsw V) String Bool := do
  attempt fun index => do
    let removed ← index.sources.remove id
    pure ({ index with sources := removed.1 }, ())
  update recordMutation
  pure true

/-- `delete`: whether the point was current. -/
def delete (id : Int64) : Exec (SegmentedHnsw V) String Bool := do
  let index ← read
  lift (index.validateIdentity dispatcher)
  match index.sources.sourceFor id with
  | none => pure false
  | some (.base _) => do
      update staleBase
      unbind id
  | some .delta =>
      let deleted := index.delta.delete dispatcher id
      if deleted.2 then do
        update fun changed => { changed with delta := deleted.1 }
        unbind id
      else do
        update fun changed => { changed with delta := deleted.1 }
        pure false

/-- The check of `validate_overlay` on a source. -/
def checkSource (index : SegmentedHnsw V) (entry : Int64 × HnswSource) : Except String Unit :=
  match entry.2 with
  | .delta => require ((index.delta.graph.currentSlot entry.1).isSome)
      "segmented HNSW delta source is not current"
  | .base slot => require (index.baseSourceMatches entry.1 slot = true)
      "segmented HNSW base source is inconsistent"

/-- `validate_overlay`. -/
def validateOverlay (index : SegmentedHnsw V) : Except String Unit := do
  index.validateIdentity dispatcher
  index.delta.validateStructure dispatcher
  checkEach index.sources.sources.toList index.checkSource
  require (index.base.liveCount - tally isBase index.sources.sources = index.baseStaleCount)
    "segmented HNSW stale base count is inconsistent"
  require (tally isBase index.sources.sources = index.sources.baseCount ∧
    tally isDelta index.sources.sources = index.sources.deltaCount ∧
    tally isBase index.sources.sources + tally isDelta index.sources.sources =
      index.sources.sources.size)
    "segmented HNSW cached source counts are inconsistent"
  checkEach index.delta.graph.nodes fun node =>
    require (node.current = true → index.sources.sourceFor node.id = some .delta)
      "segmented HNSW current delta slot has no source"

end SegmentedHnsw

/-! ## The sources of a base -/

namespace HnswBase

/-- The points of the current slots. -/
def currentIds (base : HnswBase V) : List Int64 :=
  (List.range base.slotCount).filterMap base.currentId

/-- What a valid base promises to the segments. -/
structure Sound (base : HnswBase V) : Prop where
  unique : base.currentIds.Nodup
  live : base.liveCount = base.currentIds.length

variable {base : HnswBase V} {id : Int64} {slot : Nat}

theorem current_id_iff : base.currentId slot = some id ↔
    base.isOpen = true ∧ ∃ node, base.nodes[slot]? = some node ∧ node.current = true ∧
      node.id = id := by
  unfold currentId
  by_cases hopen : base.isOpen = true
  · rw [if_pos hopen]
    simp only [hopen, true_and, map_eq_some_iff, filter_eq_some_iff, and_assoc]
  · rw [if_neg hopen]
    exact ⟨nofun, fun h => absurd h.1 hopen⟩

theorem lt_of_current_id (h : base.currentId slot = some id) : slot < base.slotCount := by
  obtain ⟨-, node, hnode, -⟩ := current_id_iff.1 h
  exact (List.getElem?_eq_some_iff.1 hnode).1

theorem mem_current_ids : id ∈ base.currentIds ↔ ∃ slot, base.currentId slot = some id := by
  unfold currentIds
  rw [mem_filterMap]
  constructor
  · rintro ⟨slot, -, hslot⟩
    exact ⟨slot, hslot⟩
  · rintro ⟨slot, hslot⟩
    exact ⟨slot, mem_range.2 (lt_of_current_id hslot), hslot⟩

/-- The loop over the slots binds their points. -/
theorem index_sources_spec {slots : List Nat} {state : CurrentSources} (h : state.Counted)
    (hnodup : (slots.filterMap base.currentId).Nodup)
    (hfresh : ∀ id ∈ slots.filterMap base.currentId, state.sourceFor id = .none) :
    ∃ next, base.indexSources slots state = .ok next ∧ next.Counted ∧
      next.baseCount = state.baseCount + (slots.filterMap base.currentId).length ∧
      ∀ id source, next.sourceFor id = some source ↔ state.sourceFor id = some source ∨
        ∃ slot ∈ slots, base.currentId slot = some id ∧ source = .base slot := by
  induction slots generalizing state with
  | nil => exact ⟨state, rfl, h, rfl, fun id source => by simp⟩
  | cons slot slots ih =>
      cases hslot : base.currentId slot with
      | none =>
          rw [filterMap_cons_none hslot] at hnodup hfresh ⊢
          obtain ⟨next, hrun, hcounted, hcount, hsource⟩ := ih h hnodup hfresh
          refine ⟨next, ?_, hcounted, hcount, fun id source => ?_⟩
          · rw [indexSources, hslot]
            exact hrun
          · simp only [hsource, mem_cons, or_and_right, exists_or, exists_eq_left, hslot,
              reduceCtorEq, false_and, false_or]
      | some found =>
          rw [filterMap_cons_some hslot] at hnodup hfresh ⊢
          obtain ⟨hnot, hnodup⟩ := nodup_cons.1 hnodup
          have hnone := hfresh found mem_cons_self
          obtain ⟨middle, hreplace, hsources, hmiddle⟩ :=
            CurrentSources.replace_returns h found (.base slot)
          have hget : ∀ other, middle.sourceFor other =
              if other = found then some (.base slot) else state.sourceFor other := by
            intro other
            unfold CurrentSources.sourceFor
            rw [hsources, get_insert]
          have hstays : ∀ id ∈ slots.filterMap base.currentId, middle.sourceFor id = .none := by
            intro id hid
            have hne : id ≠ found := fun heq => hnot (heq ▸ hid)
            rw [hget, if_neg hne]
            exact hfresh id (mem_cons_of_mem _ hid)
          obtain ⟨next, hrun, hcounted, hcount, hsource⟩ := ih hmiddle hnodup hstays
          have hbase : middle.baseCount = state.baseCount + 1 := by
            have herase := tally_erase isBase state.sources found
            unfold CurrentSources.sourceFor at hnone
            rw [hnone, elim_none, Nat.zero_add] at herase
            rw [hmiddle.base, h.base, hsources, tally_insert, ← herase]
            exact Nat.add_comm _ _
          refine ⟨next, ?_, hcounted, ?_, fun id source => ?_⟩
          · rw [indexSources, hslot]
            exact bind_ok.2 ⟨middle, hreplace, hrun⟩
          · rw [hcount, hbase, length_cons]
            omega
          · rw [hsource, hget]
            by_cases heq : id = found
            · subst heq
              have hfree : ∀ other ∈ slots, base.currentId other ≠ some id := fun other hmem hid =>
                hnot (mem_filterMap.2 ⟨other, hmem, hid⟩)
              rw [if_pos rfl, hnone]
              simp only [Option.some.injEq, mem_cons, or_and_right, exists_or, exists_eq_left,
                hslot, true_and, reduceCtorEq, false_or]
              exact ⟨fun hor => hor.elim (fun hleft => .inl hleft.symm) .inr,
                fun hor => hor.elim (fun hleft => .inl hleft.symm) .inr⟩
            · have hne : base.currentId slot ≠ some id := by
                rw [hslot]
                exact fun hsome => heq (Option.some.inj hsome).symm
              rw [if_neg heq]
              simp only [mem_cons, or_and_right, exists_or, exists_eq_left, hne, false_and,
                false_or]

end HnswBase

/-! ## Coherent segments -/

namespace SegmentedHnsw

/-- The sources, the segments and the counters agree. -/
structure Coherent (dispatcher : MetricDispatcher V) (index : SegmentedHnsw V) : Prop where
  identity : dispatcher.identity = index.config.identity
  base_config : ∀ config, index.base.config = some config → config = index.config.toHnswConfig
  base_sound : index.base.Sound
  delta_config : index.delta.config = index.config.toHnswConfig
  delta_inv : index.delta.Inv dispatcher
  base_source : ∀ id slot, index.sources.sourceFor id = some (.base slot) →
    index.base.currentId slot = some id
  delta_source : ∀ id, index.sources.sourceFor id = some .delta ↔
    (index.delta.graph.slotsOf.vector? id).isSome = true
  counted : index.sources.Counted
  stale : index.baseStaleCount + index.sources.baseCount = index.base.currentIds.length

variable {dispatcher : MetricDispatcher V} {index next : SegmentedHnsw V} {id : Int64}

theorem validate_identity_of (h : index.Coherent dispatcher) :
    index.validateIdentity dispatcher = .ok () := by
  have hbase := h.base_config
  unfold validateIdentity
  simp only [bind_ok, exists_unit, require_ok]
  refine ⟨h.identity, h.delta_config, ?_⟩
  cases hkind : index.base with
  | none => rfl
  | owned base =>
      rw [hkind] at hbase
      exact require_ok.2 (hbase base.config rfl)
  | mapped view =>
      rw [hkind] at hbase
      exact require_ok.2 (hbase view.config rfl)

theorem active_count_eq {graph : HnswIndex V} (h : graph.graph.slotsOf.WellFormed)
    (hinactive : graph.buildStats.inactiveSlots = graph.graph.records.countP (!·.current)) :
    graph.activeCount = graph.graph.currentSlots.size := by
  have hsize := Index.HnswIndex.size_current_slots h
  have hsplit : graph.graph.records.length = graph.graph.records.countP (·.current) +
      graph.graph.records.countP (!·.current) := by
    rw [length_eq_countP_add_countP (fun record : SlotRecord V => record.current)]
    congr 1
    refine countP_congr fun record _ => ?_
    cases record.current <;> simp
  unfold HnswStorage.slotsOf at hsize
  rw [countP_map] at hsize
  have hcurrent : graph.graph.records.countP ((fun slot : Index.HnswSlot V => slot.current) ∘
      SlotRecord.slot) = graph.graph.records.countP (·.current) := rfl
  simp only at hsize
  unfold HnswIndex.activeCount
  rw [HnswStorage.slot_count_records]
  omega

theorem base_or_delta (sources : Std.ExtTreeMap Int64 HnswSource) :
    tally isBase sources + tally isDelta sources = sources.size := by
  unfold tally
  rw [← Std.ExtTreeMap.length_toList,
    length_eq_countP_add_countP (fun entry : Int64 × HnswSource => isBase entry.2)]
  congr 1
  refine countP_congr fun entry _ => ?_
  cases entry.2 <;> simp [isBase, isDelta]

/-- Coherent segments pass the validation of the overlay when their delta passes its own. -/
theorem validate_overlay_iff (h : index.Coherent dispatcher) :
    index.validateOverlay dispatcher = .ok () ↔
      index.delta.validateStructure dispatcher = .ok () := by
  have hpublished := h.delta_inv.sound.published
  have hsome : ∀ id, (index.delta.graph.currentSlot id).isSome =
      (index.delta.graph.slotsOf.vector? id).isSome := by
    intro id
    rw [HnswStorage.current_slot_slots_of]
    cases hslot : index.delta.graph.slotsOf.currentSlot id with
    | none =>
        unfold Index.HnswIndex.vector?
        rw [hslot]
        rfl
    | some slot =>
        rw [Index.HnswIndex.current_slot_eq hpublished] at hslot
        obtain ⟨vector, hholds⟩ := (hpublished id slot).1 hslot
        rw [(Index.HnswIndex.vector_iff hpublished).2 ⟨slot, hholds⟩]
        rfl
  unfold validateOverlay
  simp only [bind_ok, exists_unit, require_ok, check_each_ok]
  refine ⟨fun hall => hall.2.1, fun hdelta => ?_⟩
  refine ⟨validate_identity_of h, hdelta, fun entry hentry => ?_, ?_,
    ⟨h.counted.base.symm, h.counted.delta.symm, base_or_delta _⟩, fun node hnode hcurrent => ?_⟩
  · obtain ⟨key, source⟩ := entry
    have hsource : index.sources.sourceFor key = some source :=
      Std.ExtTreeMap.mem_toList_iff_getElem?_eq_some.1 hentry
    cases source with
    | base slot =>
        refine require_ok.2 ?_
        unfold baseSourceMatches
        rw [h.base_source key slot hsource]
        exact decide_eq_true rfl
    | delta =>
        refine require_ok.2 ?_
        rw [hsome]
        exact (h.delta_source key).1 hsource
  · have hstale := h.stale
    rw [h.base_sound.live, ← h.counted.base]
    omega
  · obtain ⟨slot, hslot⟩ := List.getElem?_of_mem hnode
    have hholds : index.delta.graph.slotsOf.HoldsAt node.id slot node.vector := by
      unfold Index.HnswIndex.HoldsAt
      rw [HnswStorage.slots_of_get, HnswStorage.records, List.getElem?_map, hslot, ← hcurrent]
      rfl
    rw [h.delta_source, (Index.HnswIndex.vector_iff hpublished).2 ⟨slot, hholds⟩]
    rfl

/-! ## What the operations do -/

/-- The current vector of a point, where its source says that it is. -/
def vector? (index : SegmentedHnsw V) (id : Int64) : Option V :=
  match index.sources.sourceFor id with
  | none => none
  | some (.base slot) => index.base.vectorAt slot
  | some .delta => index.delta.graph.slotsOf.vector? id

/-- A step that binds one point to the delta, or to nothing, and leaves the base alone. -/
structure Rebinds (dispatcher : MetricDispatcher V) (index : SegmentedHnsw V) (id : Int64)
    (bound : Option V) (next : SegmentedHnsw V) : Prop where
  config : next.config = index.config
  base : next.base = index.base
  delta_config : next.delta.config = index.delta.config
  delta_inv : next.delta.Inv dispatcher
  delta_vector : next.delta.graph.slotsOf.vector? =
    Function.update index.delta.graph.slotsOf.vector? id bound
  source : ∀ other, next.sources.sourceFor other =
    if other = id then bound.map fun _ => .delta else index.sources.sourceFor other
  counted : next.sources.Counted
  base_count : next.sources.baseCount = tally isBase (index.sources.sources.erase id)
  stale : next.baseStaleCount =
    index.baseStaleCount + ((index.sources.sourceFor id).any isBase).toNat

theorem base_count_erase (h : index.Coherent dispatcher) (id : Int64) :
    tally isBase (index.sources.sources.erase id) +
      ((index.sources.sourceFor id).any isBase).toNat = index.sources.baseCount := by
  have herase := tally_erase isBase index.sources.sources id
  unfold CurrentSources.sourceFor
  rw [h.counted.base, herase]
  cases index.sources.sources[id]? with
  | none => simp
  | some source => simp [Nat.add_comm]

theorem rebinds_coherent {bound : Option V} (h : index.Coherent dispatcher)
    (hstep : Rebinds dispatcher index id bound next) : next.Coherent dispatcher where
  identity := by
    rw [hstep.config]
    exact h.identity
  base_config := by
    rw [hstep.base, hstep.config]
    exact h.base_config
  base_sound := by
    rw [hstep.base]
    exact h.base_sound
  delta_config := by
    rw [hstep.delta_config, hstep.config]
    exact h.delta_config
  delta_inv := hstep.delta_inv
  base_source := by
    intro other slot hother
    rw [hstep.base]
    rw [hstep.source] at hother
    split at hother
    · cases bound with
      | none => cases hother
      | some vector => cases hother
    · exact h.base_source other slot hother
  delta_source := by
    intro other
    rw [hstep.source, hstep.delta_vector]
    by_cases heq : other = id
    · rw [if_pos heq, heq, Function.update_self]
      cases bound with
      | none => exact ⟨nofun, nofun⟩
      | some vector => exact ⟨fun _ => rfl, fun _ => rfl⟩
    · rw [if_neg heq, Function.update_of_ne heq]
      exact h.delta_source other
  counted := hstep.counted
  stale := by
    have hstale := h.stale
    have hcount := base_count_erase h id
    rw [hstep.base, hstep.stale, hstep.base_count]
    omega

theorem rebinds_vector {bound : Option V} (hstep : Rebinds dispatcher index id bound next) :
    next.vector? = Function.update index.vector? id bound := by
  funext other
  unfold vector?
  rw [hstep.source, hstep.base, hstep.delta_vector]
  by_cases heq : other = id
  · rw [if_pos heq, heq, Function.update_self, Function.update_self]
    cases bound with
    | none => rfl
    | some vector => rfl
  · rw [if_neg heq, Function.update_of_ne heq, Function.update_of_ne heq]

theorem record_mutation_rebinds {bound : Option V}
    (h : Rebinds dispatcher index id bound next) :
    Rebinds dispatcher index id bound next.recordMutation := by
  unfold recordMutation
  split
  · exact { h with }
  · exact h

/-- `upsert` gives a point its prepared vector. -/
theorem upsert_ok (h : index.Coherent dispatcher) (hvalid : dispatcher.Valid) {values : List F32}
    {u : Unit} (hrun : upsert dispatcher id values index = (.ok u, next)) :
    ∃ vector, dispatcher.prepare values = .ok vector ∧
      Rebinds dispatcher index id (some vector) next := by
  unfold upsert at hrun
  rw [read_bind, bind_ok_iff] at hrun
  obtain ⟨_, _, hidentity, hrun⟩ := hrun
  obtain ⟨-, rfl⟩ := lift_ok_iff.1 hidentity
  obtain ⟨_, _, hzoom, hrun⟩ := bind_ok_iff.1 hrun
  obtain ⟨delta, hinsert, rfl⟩ := zoom_ok_iff.1 hzoom
  obtain ⟨_, staled, hstaled, hrun⟩ := bind_ok_iff.1 hrun
  obtain ⟨_, bound, hset, hrun⟩ := bind_ok_iff.1 hrun
  obtain rfl := update_ok_iff.1 hrun
  obtain ⟨hinv, hconfig, hslots⟩ := HnswIndex.upsert_ok h.delta_inv hvalid hinsert
  obtain ⟨-, vector, hprepare, hvector⟩ :=
    Index.HnswIndex.upsert_ok h.delta_inv.sound.published hslots
  -- The counter of stale base slots follows the source that the point had.
  have hstale : staled = { index with
      delta := delta
      baseStaleCount := index.baseStaleCount +
        ((index.sources.sourceFor id).any isBase).toNat } := by
    rw [← update_ok_iff.1 hstaled]
    cases (index.sources.sourceFor id).any isBase with
    | false => rfl
    | true => rfl
  obtain ⟨sources, hreplace, hsources, hcounted⟩ :=
    CurrentSources.replace_returns h.counted id .delta
  have hbound : bound = { staled with sources := sources } := by
    have hattempt := attempt_ok_iff.1 hset
    rw [hstale] at hattempt ⊢
    obtain ⟨found, hfound, hpair⟩ := bind_ok.1 hattempt
    rw [hreplace] at hfound
    obtain rfl := Except.ok.inj hfound
    exact (congrArg Prod.fst (Except.ok.inj hpair)).symm
  subst hbound hstale
  refine ⟨vector, hprepare, record_mutation_rebinds
    ⟨rfl, rfl, hconfig, hinv, hvector, fun other => ?_, hcounted, ?_, rfl⟩⟩
  · show sources.sourceFor other = _
    unfold CurrentSources.sourceFor
    rw [hsources, get_insert]
    rfl
  · show sources.baseCount = _
    rw [hcounted.base, hsources, tally_insert]
    exact Nat.zero_add _

/-- Forgetting a bound point whose slot is retired. -/
theorem unbind_ok (index : SegmentedHnsw V) (h : index.sources.Counted) {deleted : Bool}
    (hsource : index.sources.sourceFor id = some source)
    (hrun : unbind id index = (.ok deleted, next)) :
    ∃ sources, index.sources.remove id = .ok (sources, true) ∧
      sources.sources = index.sources.sources.erase id ∧ sources.Counted ∧ deleted = true ∧
      next = ({ index with sources := sources } : SegmentedHnsw V).recordMutation := by
  obtain ⟨sources, hremove, hsources, hcounted⟩ := CurrentSources.remove_returns h hsource
  unfold unbind at hrun
  obtain ⟨_, kept, hattempt, hrun⟩ := bind_ok_iff.1 hrun
  have hattempt := attempt_ok_iff.1 hattempt
  obtain ⟨found, hfound, hpair⟩ := bind_ok.1 hattempt
  rw [hremove] at hfound
  obtain rfl := Except.ok.inj hfound
  obtain ⟨_, last, hupdate, hrun⟩ := bind_ok_iff.1 hrun
  obtain ⟨rfl, rfl⟩ := pure_ok_iff.1 hrun
  have hkept : { index with sources := sources } = kept :=
    congrArg Prod.fst (Except.ok.inj hpair)
  refine ⟨sources, hremove, hsources, hcounted, rfl, ?_⟩
  rw [hkept, update_ok_iff.1 hupdate]

/-- `delete` leaves a point without a vector. -/
theorem delete_ok (h : index.Coherent dispatcher) {deleted : Bool}
    (hrun : delete dispatcher id index = (.ok deleted, next)) :
    Rebinds dispatcher index id none next := by
  have hdelta := h.delta_source id
  unfold delete at hrun
  rw [read_bind, bind_ok_iff] at hrun
  obtain ⟨_, _, hidentity, hrun⟩ := hrun
  obtain ⟨-, rfl⟩ := lift_ok_iff.1 hidentity
  have hcounts : ∀ sources : CurrentSources, sources.Counted →
      sources.sources = index.sources.sources.erase id →
        (∀ other, sources.sourceFor other =
          if other = id then none else index.sources.sourceFor other) ∧
        sources.baseCount = tally isBase (index.sources.sources.erase id) := by
    intro sources hcounted hsources
    refine ⟨fun other => ?_, by rw [hcounted.base, hsources]⟩
    unfold CurrentSources.sourceFor
    rw [hsources, get_erase]
  cases hsource : index.sources.sourceFor id with
  | none =>
      rw [hsource] at hrun hdelta
      obtain ⟨-, rfl⟩ := pure_ok_iff.1 hrun
      have herase : index.sources.sources.erase id = index.sources.sources := by
        refine Std.ExtTreeMap.ext_getElem? fun other => ?_
        rw [get_erase]
        split
        · rename_i heq
          rw [heq]
          exact hsource.symm
        · rfl
      obtain ⟨hget, hcount⟩ := hcounts index.sources h.counted herase.symm
      have hnone : index.delta.graph.slotsOf.vector? id = none :=
        not_isSome_iff_eq_none.1 fun hsome => nomatch hdelta.2 hsome
      refine ⟨rfl, rfl, rfl, h.delta_inv, ?_, hget, h.counted, hcount, ?_⟩
      · rw [← hnone, Function.update_eq_self]
      · rw [hsource]
        rfl
  | some source =>
      rw [hsource] at hrun hdelta
      cases source with
      | base slot =>
          obtain ⟨_, staled, hupdate, hrun⟩ := bind_ok_iff.1 hrun
          obtain rfl := update_ok_iff.1 hupdate
          obtain ⟨sources, -, hsources, hcounted, -, rfl⟩ :=
            unbind_ok index.staleBase h.counted hsource hrun
          obtain ⟨hget, hcount⟩ := hcounts sources hcounted hsources
          have hnone : index.delta.graph.slotsOf.vector? id = none :=
            not_isSome_iff_eq_none.1 fun hsome => nomatch hdelta.2 hsome
          refine record_mutation_rebinds
            ⟨rfl, rfl, rfl, h.delta_inv, ?_, hget, hcounted, hcount, ?_⟩
          · show index.delta.graph.slotsOf.vector? = _
            rw [← hnone, Function.update_eq_self]
          · rw [hsource]
            rfl
      | delta =>
          have hidentity : dispatcher.identity = index.delta.config.identity := by
            rw [h.delta_config]
            exact h.identity
          obtain ⟨hinv, hconfig, hslots⟩ := HnswIndex.delete_spec h.delta_inv hidentity id
          obtain ⟨-, hvector⟩ := Index.HnswIndex.retire_spec h.delta_inv.sound.published id
          have hfst : index.delta.graph.slotsOf.retire id =
              (index.delta.delete dispatcher id).1.graph.slotsOf := congrArg Prod.fst hslots
          rw [hfst] at hvector
          have hcurrent : (index.delta.delete dispatcher id).2 = true := by
            have hsnd := congrArg Prod.snd hslots
            rw [← hsnd]
            have hsome := hdelta.1 rfl
            obtain ⟨vector, hvec⟩ := isSome_iff_exists.1 hsome
            obtain ⟨slot, hholds⟩ := (Index.HnswIndex.vector_iff
              h.delta_inv.sound.published).1 hvec
            show (index.delta.graph.slotsOf.currentSlot id).isSome = true
            rw [Index.HnswIndex.current_slot_eq h.delta_inv.sound.published,
              (h.delta_inv.sound.published id slot).2 ⟨vector, hholds⟩]
            rfl
          simp only [hcurrent, if_true] at hrun
          obtain ⟨_, retired, hupdate, hrun⟩ := bind_ok_iff.1 hrun
          obtain rfl := update_ok_iff.1 hupdate
          obtain ⟨sources, -, hsources, hcounted, -, rfl⟩ :=
            unbind_ok { index with delta := (index.delta.delete dispatcher id).1 } h.counted
              hsource hrun
          obtain ⟨hget, hcount⟩ := hcounts sources hcounted hsources
          refine record_mutation_rebinds
            ⟨rfl, rfl, hconfig, hinv, hvector, hget, hcounted, hcount, ?_⟩
          rw [hsource]
          rfl

end SegmentedHnsw

end Akasha.Hnsw

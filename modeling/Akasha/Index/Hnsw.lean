import Akasha.Index.HnswSearch
import Akasha.Index.HnswStructure

/-!
# The HNSW index

`HnswIndex` adds, replaces and deletes points of one graph. A new slot is linked level by level
from the entry point and published last; the slot of a replaced or deleted point stays as a bridge.
The level of a slot is a hash of its point, so that a replacement has the level of what it
replaces: that keeps the entry point on the highest current level when the entry itself is
replaced. Counters of distance evaluations and the diagnostics of searches are left out.
-/

namespace Akasha.Hnsw

open Lib Lib.Exec HnswStorage List

variable {V : Type}

/-! ## Levels -/

/-- `splitmix64`. -/
def splitmix64 (value : UInt64) : UInt64 :=
  let mixed := value + 0x9E3779B97F4A7C15
  let mixed := (mixed ^^^ (mixed >>> 30)) * 0xBF58476D1CE4E5B9
  let mixed := (mixed ^^^ (mixed >>> 27)) * 0x94D049BB133111EB
  mixed ^^^ (mixed >>> 31)

/-- The loop of `_sample_level_from_hash`: the levels that are left, and the threshold. -/
def levelLoop (centeredBucket divisor : UInt64) : Nat → UInt64 → Nat
  | 0, _ => 0
  | rest + 1, threshold =>
      if threshold / divisor = 0 ∨ threshold / divisor < centeredBucket then 0
      else levelLoop centeredBucket divisor rest (threshold / divisor) + 1

/-- `_sample_level_from_hash`. -/
def sampleLevelFromHash (hash : UInt64) (m maximum : Nat) : Except String Nat := do
  require (2 ≤ m) "HNSW level multiplier must be at least two"
  pure (levelLoop (((hash >>> 11) <<< 1) + 1) (UInt64.ofNat m) maximum ((1 : UInt64) <<< 54))

/-- `sample_level`. -/
def sampleLevel (id : Int64) (seed : UInt64) (m maximum : Nat) : Except String Nat :=
  sampleLevelFromHash (splitmix64 (id.toUInt64 ^^^ seed)) m maximum

/-! ## The index -/

/-- What `HnswIndex.__init__` accepts, for a collection configuration or the legacy one. -/
structure HnswConfig extends GraphConfig where
  efConstruction : Nat
  maxEfSearch : Nat
  maxLevel : Nat
  levelSeed : UInt64
  levelMultiplier : Nat
  m_small : m ≤ levelLimit
  m0_small : m0 ≤ levelLimit

/-- `HnswIndex`: the graph, its entry point and its counters. -/
structure HnswIndex (V : Type) where
  config : HnswConfig
  graph : HnswStorage V
  entrySlot : Option Nat
  entryLevel : Int
  valid : Bool
  buildStats : HnswBuildStats

namespace HnswIndex

/-- `HnswIndex(config)`. -/
def create (config : HnswConfig) : HnswIndex V where
  config := config
  graph := .create config.toGraphConfig
  entrySlot := none
  entryLevel := -1
  valid := true
  buildStats := ⟨0, 0, -1, 0⟩

/-- Run an operation of the graph. -/
def onGraph {α : Type} (x : Exec (HnswStorage V) String α) : Exec (HnswIndex V) String α :=
  zoom (·.graph) (fun graph index => { index with graph := graph }) x

/-- Quarantine the graph and the index. -/
def invalidate (index : HnswIndex V) : HnswIndex V :=
  { index with graph := index.graph.markInvalid, valid := false }

/-- `_validate_bound_identity`. -/
def validateBoundIdentity (dispatcher : MetricDispatcher V) (index : HnswIndex V) :
    Except String Unit := do
  require (dispatcher.identity = index.config.identity)
    "HNSW metric dispatcher diverged from identity"
  require (index.graph.config.identity = index.config.identity ∧
    index.graph.config.m = index.config.m ∧ index.graph.config.m0 = index.config.m0)
    "HNSW packed storage diverged from identity"

/-- `_active_count`. -/
def activeCount (index : HnswIndex V) : Int :=
  (index.graph.slotCount : Int) - index.buildStats.inactiveSlots

/-- The level that a point is given. -/
def levelOf (config : HnswConfig) (id : Int64) : Except String Nat :=
  sampleLevel id config.levelSeed config.levelMultiplier config.maxLevel

variable (dispatcher : MetricDispatcher V)

/-- Link a slot on the levels below `count`, from the highest. -/
def linkLayers (efConstruction : Nat) (prepared : V) (newSlot : Nat) :
    Nat → Nat → HnswBuildStats → Exec (HnswStorage V) String HnswBuildStats
  | 0, _, stats => pure stats
  | level + 1, current, stats => do
      let graph ← read
      let candidates ← lift (graph.searchLayer dispatcher prepared admitAll efConstruction
        current level efConstruction)
      let nextEntry := (candidates.head?).elim current (·.slot)
      let capacity ← lift (graph.levelCapacity newSlot level)
      let selected ← lift (graph.selectNeighbors dispatcher candidates (some newSlot) capacity
        true true)
      let linked ← connectBidirectional dispatcher newSlot level selected stats
      linkLayers efConstruction prepared newSlot level nextEntry linked

/-- The descent from the entry point and the links of a staged slot. -/
def linkSlot (index : HnswIndex V) (prepared : V) (newLevel entry newSlot : Nat) :
    Exec (HnswStorage V) String HnswBuildStats := do
  let graph ← read
  let current ← lift (graph.descend dispatcher prepared newLevel
    (index.entryLevel - newLevel).toNat entry)
  linkLayers dispatcher index.config.efConstruction prepared newSlot
    (min (newLevel : Int) index.entryLevel + 1).toNat current index.buildStats

/-- The branch of `_insert_prepared` for the first current slot of a graph. -/
def insertFirst (id : Int64) (prepared : V) (newLevel : Nat) :
    Exec (HnswIndex V) String Unit := do
  let first ← onGraph (.attempt (·.appendUnpublished dispatcher id prepared newLevel))
  onGraph (.attempt fun graph => (·, ()) <$> graph.publishCurrent id first)
  update fun index => { index with
    entrySlot := some first
    entryLevel := newLevel
    buildStats := { index.buildStats with
      slotCount := index.graph.slotCount
      maximumLevel := newLevel } }

/-- The branch of `_insert_prepared` that links the slot. -/
def insertLinked (id : Int64) (prepared : V) (newLevel entry : Nat) (replacingEntry : Bool) :
    Exec (HnswIndex V) String Unit := do
  let index ← read
  let newSlot ← onGraph (.attempt (·.appendUnpublished dispatcher id prepared newLevel))
  let built ← catching (onGraph (linkSlot dispatcher index prepared newLevel entry newSlot))
    fun error => do
      update invalidate
      raise error
  onGraph (.attempt fun graph => (·, ()) <$> graph.publishCurrent id newSlot)
  update fun linked =>
    let counted := { built with slotCount := linked.graph.slotCount }
    if replacingEntry = true ∨ index.entryLevel < newLevel then
      { linked with
        entrySlot := some newSlot
        entryLevel := newLevel
        buildStats := { counted with maximumLevel := newLevel } }
    else { linked with buildStats := counted }

/-- `_insert_prepared`. -/
def insertPrepared (id : Int64) (prepared : V) (newLevel : Nat)
    (replacingEntry hasOtherLive : Bool) : Exec (HnswIndex V) String Unit := do
  let index ← read
  match index.entrySlot, hasOtherLive with
  | some entry, true => insertLinked dispatcher id prepared newLevel entry replacingEntry
  | _, _ => insertFirst dispatcher id prepared newLevel

/-- `add`. -/
def add (id : Int64) (values : List F32) : Exec (HnswIndex V) String Unit := do
  let index ← read
  lift (index.validateBoundIdentity dispatcher)
  ensure (index.valid = true ∧ index.graph.valid = true)
    "cannot mutate an invalid HNSW index"
  ensure ((index.graph.currentSlot id).isNone) "HNSW point IDs must be unique"
  let prepared ← lift (dispatcher.prepare values)
  let newLevel ← lift (levelOf index.config id)
  insertPrepared dispatcher id prepared newLevel false (decide (0 < index.activeCount))

/-- Retire the slot that an upsert replaces, and tell whether it was the entry point. -/
def retireReplaced (id : Int64) : Exec (HnswIndex V) String Bool := do
  let index ← read
  match index.graph.currentSlot id with
  | none => pure false
  | some old => do
      let _ ← onGraph (.attempt (·.markReplaced id))
      update fun retired => { retired with
        buildStats := { retired.buildStats with
          inactiveSlots := retired.buildStats.inactiveSlots + 1 } }
      pure (decide (index.entrySlot = some old))

/-- `upsert`: the vector is prepared before the old slot is retired. -/
def upsert (id : Int64) (values : List F32) : Exec (HnswIndex V) String Unit := do
  let index ← read
  lift (index.validateBoundIdentity dispatcher)
  ensure (index.valid = true ∧ index.graph.valid = true)
    "cannot mutate an invalid HNSW index"
  let prepared ← lift (dispatcher.prepare values)
  let newLevel ← lift (levelOf index.config id)
  let replacingEntry ← retireReplaced id
  let retired ← read
  catching (insertPrepared dispatcher id prepared newLevel replacingEntry
      (decide (0 < retired.activeCount)))
    fun error => do
      update invalidate
      raise error

/-- `delete`: whether the point had a current slot. -/
def delete (id : Int64) (index : HnswIndex V) : HnswIndex V × Bool :=
  if index.valid = true ∧ index.graph.valid = true then
    match index.validateBoundIdentity dispatcher with
    | .error _ => (index.invalidate, false)
    | .ok () =>
        let marked := index.graph.markDeleted id
        if marked.2 then
          ({ index with
            graph := marked.1
            buildStats := { index.buildStats with
              inactiveSlots := index.buildStats.inactiveSlots + 1 } }, true)
        else (index, false)
  else (index, false)

/-- The checks of `validate_structure` on the entry point of a graph with slots. -/
def checkEntry (index : HnswIndex V) : Except String Unit :=
  match index.entrySlot with
  | none => throw "non-empty HNSW index has no entry point"
  | some entry => do
      let owned ← index.graph.level entry
      require (index.entryLevel = owned) "HNSW entry level does not match entry slot"
      require (∀ record ∈ index.graph.records, record.current = true →
        (record.level : Int) ≤ index.entryLevel) "HNSW entry point is below a live graph level"
      require (index.buildStats.inactiveSlots = index.graph.records.countP (!·.current))
        "HNSW inactive statistics are inconsistent"

/-- `validate_structure`. -/
def validateStructure (index : HnswIndex V) : Except String Unit := do
  index.validateBoundIdentity dispatcher
  require (index.valid = true ∧ index.graph.valid = true) "HNSW index is marked invalid"
  index.graph.validateBidirectionalLinks dispatcher
  if index.graph.slotCount = 0 then
    require (index.entrySlot = none ∧ index.entryLevel = -1) "empty HNSW entry point is invalid"
  else index.checkEntry
  require (index.buildStats.slotCount = index.graph.slotCount)
    "HNSW build statistics slot count is inconsistent"
  require (index.buildStats.maximumLevel = index.entryLevel)
    "HNSW build statistics maximum level is inconsistent"

/-! ## The invariant -/

/-- What holds of an index between two calls. -/
structure Inv (dispatcher : MetricDispatcher V) (index : HnswIndex V) : Prop where
  config : index.graph.config = index.config.toGraphConfig
  valid : index.valid = true
  graph_valid : index.graph.valid = true
  sound : index.graph.Sound dispatcher
  levels : ∀ record ∈ index.graph.records, levelOf index.config record.id = .ok record.level
  entry : (index.graph.records = [] ∧ index.entrySlot = none ∧ index.entryLevel = -1) ∨
    ∃ slot record, index.entrySlot = some slot ∧ index.graph.records[slot]? = some record ∧
      index.entryLevel = record.level
  highest : ∀ record ∈ index.graph.records, record.current = true →
    (record.level : Int) ≤ index.entryLevel
  slots : index.buildStats.slotCount = index.graph.slotCount
  inactive : index.buildStats.inactiveSlots = index.graph.records.countP (!·.current)
  maximum : index.buildStats.maximumLevel = index.entryLevel
  edges : index.buildStats.directedEdges = index.graph.edgeCount

variable {dispatcher} {index next : HnswIndex V} {id : Int64} {prepared : V} {newLevel : Nat}

theorem create_inv (config : HnswConfig) : (create config : HnswIndex V).Inv dispatcher where
  config := rfl
  valid := rfl
  graph_valid := rfl
  sound := by
    refine ⟨⟨fun level => ⟨fun x => ?_, fun x => ?_, fun x y h => ?_⟩, fun level x => ?_⟩,
      Index.HnswIndex.empty_well_formed, nofun, nofun, nofun⟩
    · exact nodup_nil
    · exact not_mem_nil
    · exact absurd h not_mem_nil
    · exact Nat.zero_le _
  levels := nofun
  entry := .inl ⟨rfl, rfl, rfl⟩
  highest := nofun
  slots := rfl
  inactive := rfl
  maximum := rfl
  edges := rfl

theorem well_linked_congr {graph other : HnswStorage V} (h : graph.WellLinked)
    (hconfig : other.config = graph.config)
    (hadjacency : ∀ layer, other.adjacency layer = graph.adjacency layer) : other.WellLinked := by
  refine ⟨fun level => hadjacency level ▸ h.linked level, fun level slot => ?_⟩
  rw [hadjacency]
  refine Nat.le_trans (h.bounded level slot) (Nat.le_of_eq ?_)
  unfold capacityAt
  rw [hconfig]

/-- Linking a slot on its levels changes edges and their counter only. -/
theorem link_layers_ok (hvalid : dispatcher.Valid) {graph linked : HnswStorage V}
    {efConstruction newSlot count current : Nat} {stats built : HnswBuildStats}
    (hrun : linkLayers dispatcher efConstruction prepared newSlot count current stats graph =
      (.ok built, linked))
    (h : graph.WellLinked) (hidentity : dispatcher.identity = graph.config.identity) :
    HnswStorage.SameSlots graph linked ∧ linked.WellLinked ∧
      built = { stats with
        directedEdges := stats.directedEdges + ((linked.edgeCount : Int) - graph.edgeCount) } := by
  induction count generalizing graph current stats with
  | zero =>
      rw [linkLayers, pure_ok_iff] at hrun
      obtain ⟨rfl, rfl⟩ := hrun
      refine ⟨same_slots_refl graph, h, ?_⟩
      rw [show stats.directedEdges + ((graph.edgeCount : Int) - graph.edgeCount) =
        stats.directedEdges by omega]
  | succ level ih =>
      rw [linkLayers, read_bind, bind_ok_iff] at hrun
      obtain ⟨candidates, _, hsearch, hrun⟩ := hrun
      obtain ⟨-, rfl⟩ := lift_ok_iff.1 hsearch
      obtain ⟨capacity, _, hcapacity, hrun⟩ := bind_ok_iff.1 hrun
      obtain ⟨-, rfl⟩ := lift_ok_iff.1 hcapacity
      obtain ⟨selected, _, hselect, hrun⟩ := bind_ok_iff.1 hrun
      obtain ⟨-, rfl⟩ := lift_ok_iff.1 hselect
      obtain ⟨middle, between, hconnect, hrun⟩ := bind_ok_iff.1 hrun
      rcases connect_bidirectional_run h hvalid hidentity newSlot level selected stats with
        ⟨error, -, herror⟩ | ⟨-, delta, reached, hok, hconnects⟩
      · rw [herror] at hconnect
        cases hconnect
      · rw [hok] at hconnect
        simp only [Prod.mk.injEq, Except.ok.injEq] at hconnect
        obtain ⟨rfl, rfl⟩ := hconnect
        have hsame := hconnects.relinked.toSameSlots
        obtain ⟨hrest, hlinked, hbuilt⟩ := ih hrun hconnects.wellLinked
          (hidentity.trans (congrArg _ hsame.config.symm))
        refine ⟨same_slots_trans hsame hrest, hlinked, ?_⟩
        have hedges := hconnects.edges
        rw [hbuilt]
        simp only [HnswBuildStats.mk.injEq, true_and]
        omega

theorem append_step_ok {slot : Nat}
    (h : onGraph (.attempt (·.appendUnpublished dispatcher id prepared newLevel)) index =
      (.ok slot, next)) :
    ∃ staged, index.graph.appendUnpublished dispatcher id prepared newLevel = .ok (staged, slot) ∧
      { index with graph := staged } = next := by
  obtain ⟨staged, hattempt, hnext⟩ := zoom_ok_iff.1 h
  exact ⟨staged, attempt_ok_iff.1 hattempt, hnext⟩

theorem publish_step_ok {slot : Nat} {u : Unit}
    (h : onGraph (.attempt fun graph => (·, ()) <$> graph.publishCurrent id slot) index =
      (.ok u, next)) :
    ∃ published, index.graph.publishCurrent id slot = .ok published ∧
      { index with graph := published } = next := by
  obtain ⟨published, hattempt, hnext⟩ := zoom_ok_iff.1 h
  have hmap := attempt_ok_iff.1 hattempt
  simp only [map_ok, Prod.mk.injEq] at hmap
  obtain ⟨_, hpublish, rfl, -⟩ := hmap
  exact ⟨_, hpublish, hnext⟩

/-- What inserting a slot does to an index: one more slot, published, and counters that count
it. -/
structure Inserts (dispatcher : MetricDispatcher V) (index : HnswIndex V) (id : Int64)
    (prepared : V) (newLevel : Nat) (next : HnswIndex V) : Prop where
  config : next.config = index.config
  valid : next.valid = index.valid
  graph_config : next.graph.config = index.graph.config
  graph_valid : next.graph.valid = index.graph.valid
  storable : dispatcher.storable prepared = .ok ()
  level_fits : newLevel ≤ levelLimit
  records : next.graph.records =
    index.graph.records ++ [⟨id, newLevel, true, false, false, prepared⟩]
  slots : index.graph.slotsOf.append id prepared = .ok next.graph.slotsOf
  wellLinked : next.graph.WellLinked
  counted : next.buildStats.slotCount = next.graph.slotCount
  inactive : next.buildStats.inactiveSlots = index.buildStats.inactiveSlots
  edges : next.buildStats.directedEdges - index.buildStats.directedEdges =
    (next.graph.edgeCount : Int) - index.graph.edgeCount

/-- The first current slot becomes the entry point, without links. -/
theorem insert_first_ok (h : index.Inv dispatcher)
    (hrun : insertFirst dispatcher id prepared newLevel index = (.ok (), next)) :
    Inserts dispatcher index id prepared newLevel next ∧
      next.entrySlot = some index.graph.slotCount ∧ next.entryLevel = newLevel ∧
      next.buildStats.maximumLevel = newLevel := by
  unfold insertFirst at hrun
  obtain ⟨first, _, hstage, hrun⟩ := bind_ok_iff.1 hrun
  obtain ⟨staged, happend, rfl⟩ := append_step_ok hstage
  obtain ⟨hstorable, hfits, hnone, rfl, hrecords, hconfig, hslots, hvalid, hedges, hadjacency⟩ :=
    append_unpublished_ok happend
  obtain ⟨_, _, hstep, hrun⟩ := bind_ok_iff.1 hrun
  obtain ⟨published, hpublish, rfl⟩ := publish_step_ok hstep
  obtain ⟨hsame, hconfig', hvalid', hedges', hadjacency', happended⟩ :=
    publish_current_ok hrecords hslots hpublish rfl
  rw [update_ok_iff] at hrun
  subst hrun
  refine ⟨⟨rfl, rfl, hconfig'.trans hconfig, hvalid'.trans hvalid, hstorable, hfits,
    hsame.trans hrecords, happended hnone, ?_, rfl, rfl, ?_⟩, rfl, rfl, rfl⟩
  · exact well_linked_congr h.sound.wellLinked (hconfig'.trans hconfig)
      fun layer => (hadjacency' layer).trans (hadjacency layer)
  · have heq := hedges'.trans hedges
    show index.buildStats.directedEdges - index.buildStats.directedEdges = _
    rw [heq]
    omega

/-- A linked slot becomes the entry point when it replaces it or is higher. -/
theorem insert_linked_ok (h : index.Inv dispatcher) (hvalid : dispatcher.Valid)
    (hidentity : dispatcher.identity = index.config.identity) {entry : Nat} {replacingEntry : Bool}
    (hrun : insertLinked dispatcher id prepared newLevel entry replacingEntry index =
      (.ok (), next)) :
    Inserts dispatcher index id prepared newLevel next ∧
      ((replacingEntry = true ∨ index.entryLevel < newLevel) ∧
          next.entrySlot = some index.graph.slotCount ∧ next.entryLevel = newLevel ∧
          next.buildStats.maximumLevel = newLevel ∨
        ¬ (replacingEntry = true ∨ index.entryLevel < newLevel) ∧
          next.entrySlot = index.entrySlot ∧ next.entryLevel = index.entryLevel ∧
          next.buildStats.maximumLevel = index.buildStats.maximumLevel) := by
  unfold insertLinked at hrun
  rw [read_bind, bind_ok_iff] at hrun
  obtain ⟨newSlot, _, hstage, hrun⟩ := hrun
  obtain ⟨staged, happend, rfl⟩ := append_step_ok hstage
  obtain ⟨hstorable, hfits, hnone, rfl, hrecords, hconfig, hslots, hgraph, hedges, hadjacency⟩ :=
    append_unpublished_ok happend
  have hstaged := well_linked_congr h.sound.wellLinked hconfig hadjacency
  -- The links.
  obtain ⟨built, _, hbuild, hrun⟩ := bind_ok_iff.1 hrun
  obtain ⟨linked, hlink, rfl⟩ := zoom_ok_iff.1 (catching_raise_ok_iff.1 hbuild)
  unfold linkSlot at hlink
  rw [read_bind, bind_ok_iff] at hlink
  obtain ⟨current, _, hdescend, hlink⟩ := hlink
  obtain ⟨-, rfl⟩ := lift_ok_iff.1 hdescend
  have hgraphIdentity : dispatcher.identity = staged.config.identity := by
    rw [hconfig, h.config]
    exact hidentity
  obtain ⟨hsame, hlinked, hbuilt⟩ := link_layers_ok hvalid hlink hstaged hgraphIdentity
  -- The publication.
  obtain ⟨_, _, hstep, hrun⟩ := bind_ok_iff.1 hrun
  obtain ⟨published, hpublish, rfl⟩ := publish_step_ok hstep
  obtain ⟨hsame', hconfig', hvalid', hedges', hadjacency', happended⟩ :=
    publish_current_ok (hsame.records.trans hrecords) (hsame.currentSlots.trans hslots)
      hpublish rfl
  have hcounts : (published.edgeCount : Int) - index.graph.edgeCount =
      (linked.edgeCount : Int) - staged.edgeCount := by
    rw [hedges', hedges]
  have hpublished := well_linked_congr hlinked hconfig' hadjacency'
  rw [update_ok_iff] at hrun
  split at hrun
  · rename_i hentry
    subst hrun
    refine ⟨⟨rfl, rfl, (hconfig'.trans hsame.config).trans hconfig,
      (hvalid'.trans hsame.valid).trans hgraph, hstorable, hfits,
      (hsame'.trans hsame.records).trans hrecords, happended hnone, hpublished, rfl, ?_, ?_⟩,
      .inl ⟨hentry, rfl, rfl, rfl⟩⟩
    · rw [hbuilt]
    · rw [hcounts, hbuilt]
      show index.buildStats.directedEdges + ((linked.edgeCount : Int) - staged.edgeCount) -
        index.buildStats.directedEdges = _
      omega
  · rename_i hentry
    subst hrun
    refine ⟨⟨rfl, rfl, (hconfig'.trans hsame.config).trans hconfig,
      (hvalid'.trans hsame.valid).trans hgraph, hstorable, hfits,
      (hsame'.trans hsame.records).trans hrecords, happended hnone, hpublished, rfl, ?_, ?_⟩,
      .inr ⟨hentry, rfl, rfl, ?_⟩⟩
    · rw [hbuilt]
    · rw [hcounts, hbuilt]
      show index.buildStats.directedEdges + ((linked.edgeCount : Int) - staged.edgeCount) -
        index.buildStats.directedEdges = _
      omega
    · rw [hbuilt]

/-- An inserted slot keeps the invariant when the entry point stays on the highest current
level. -/
theorem inserts_inv (h : index.Inv dispatcher)
    (hinsert : Inserts dispatcher index id prepared newLevel next)
    (hlevel : levelOf index.config id = .ok newLevel)
    (hentry : ∃ slot record, next.entrySlot = some slot ∧ next.graph.records[slot]? = some record ∧
      next.entryLevel = record.level)
    (hhighest : ∀ record ∈ next.graph.records, record.current = true →
      (record.level : Int) ≤ next.entryLevel)
    (hmaximum : next.buildStats.maximumLevel = next.entryLevel) : next.Inv dispatcher where
  config := by rw [hinsert.graph_config, h.config, hinsert.config]
  valid := hinsert.valid.trans h.valid
  graph_valid := hinsert.graph_valid.trans h.graph_valid
  sound := by
    have hnew : ∀ p : SlotRecord V → Prop, (∀ record ∈ index.graph.records, p record) →
        p ⟨id, newLevel, true, false, false, prepared⟩ →
        ∀ record ∈ next.graph.records, p record := by
      intro p hold hp record hrecord
      rw [hinsert.records, mem_append, mem_singleton] at hrecord
      rcases hrecord with hrecord | rfl
      · exact hold record hrecord
      · exact hp
    exact ⟨hinsert.wellLinked, (Index.HnswIndex.append_ok h.sound.published hinsert.slots).1,
      hnew _ h.sound.flags rfl, hnew _ h.sound.storable hinsert.storable,
      hnew _ h.sound.levels hinsert.level_fits⟩
  levels := by
    intro record hrecord
    rw [hinsert.records, mem_append, mem_singleton] at hrecord
    rw [hinsert.config]
    rcases hrecord with hrecord | rfl
    · exact h.levels record hrecord
    · exact hlevel
  entry := .inr hentry
  highest := hhighest
  slots := hinsert.counted
  inactive := by
    rw [hinsert.inactive, h.inactive, hinsert.records, countP_append]
    rfl
  maximum := hmaximum
  edges := by
    have hedges := hinsert.edges
    have hold := h.edges
    omega

theorem inserts_last (hinsert : Inserts dispatcher index id prepared newLevel next) :
    next.graph.records[index.graph.slotCount]? =
      some ⟨id, newLevel, true, false, false, prepared⟩ := by
  rw [hinsert.records, slot_count_records, List.getElem?_concat_length]

theorem insert_prepared_cases {replacingEntry hasOtherLive : Bool}
    (hrun : insertPrepared dispatcher id prepared newLevel replacingEntry hasOtherLive index =
      (.ok (), next)) :
    (∃ entry, index.entrySlot = some entry ∧
        insertLinked dispatcher id prepared newLevel entry replacingEntry index = (.ok (), next)) ∨
      (∀ slot, index.entrySlot = some slot → hasOtherLive = false) ∧
        insertFirst dispatcher id prepared newLevel index = (.ok (), next) := by
  unfold insertPrepared at hrun
  rw [read_bind] at hrun
  cases hslot : index.entrySlot with
  | none =>
      rw [hslot] at hrun
      exact .inr ⟨nofun, hrun⟩
  | some entry =>
      rw [hslot] at hrun
      cases hasOtherLive with
      | true => exact .inl ⟨entry, rfl, hrun⟩
      | false => exact .inr ⟨fun _ _ => rfl, hrun⟩

/-- `_insert_prepared` keeps the invariant. The entry point may only be replaced by a slot of
the same point, which has its level; a graph without other current slots starts anew. -/
theorem insert_prepared_inv (h : index.Inv dispatcher) (hvalid : dispatcher.Valid)
    (hidentity : dispatcher.identity = index.config.identity)
    (hlevel : levelOf index.config id = .ok newLevel) {replacingEntry hasOtherLive : Bool}
    (hreplacing : replacingEntry = true → ∃ slot record, index.entrySlot = some slot ∧
      index.graph.records[slot]? = some record ∧ record.id = id)
    (hlive : hasOtherLive = decide (0 < index.activeCount))
    (hrun : insertPrepared dispatcher id prepared newLevel replacingEntry hasOtherLive index =
      (.ok (), next)) :
    next.Inv dispatcher ∧ next.config = index.config ∧
      index.graph.slotsOf.append id prepared = .ok next.graph.slotsOf := by
  rcases insert_prepared_cases hrun with ⟨entry, hslot, hrun⟩ | ⟨hfirst, hrun⟩
  · obtain ⟨hinsert, hentry⟩ := insert_linked_ok h hvalid hidentity hrun
    refine ⟨inserts_inv h hinsert hlevel ?_ ?_ ?_, hinsert.config, hinsert.slots⟩
    · rcases hentry with ⟨-, hnew, hnewLevel, -⟩ | ⟨-, hsame, hsameLevel, -⟩
      · exact ⟨_, _, hnew, inserts_last hinsert, hnewLevel⟩
      · rcases h.entry with ⟨-, hnone, -⟩ | ⟨slot, record, hold, hrecord, hrecordLevel⟩
        · rw [hnone] at hslot
          cases hslot
        · refine ⟨slot, record, hsame.trans hold, ?_, hsameLevel.trans hrecordLevel⟩
          rw [hinsert.records, List.getElem?_append_left]
          · exact hrecord
          · exact (List.getElem?_eq_some_iff.1 hrecord).1
    · intro record hrecord hcurrent
      rw [hinsert.records, mem_append, mem_singleton] at hrecord
      rcases hentry with ⟨hwhy, -, hnewLevel, -⟩ | ⟨hwhy, -, hsameLevel, -⟩
      · rw [hnewLevel]
        rcases hrecord with hrecord | rfl
        · -- The old entry level is not above the new one.
          have hold := h.highest record hrecord hcurrent
          rcases hwhy with hreplaced | hlt
          · obtain ⟨slot, old, hentrySlot, hget, hid⟩ := hreplacing hreplaced
            rcases h.entry with ⟨-, hnone, -⟩ | ⟨slot', record', hslot', hget', hrecordLevel⟩
            · rw [hnone] at hentrySlot
              cases hentrySlot
            · rw [hentrySlot] at hslot'
              obtain rfl := Option.some.inj hslot'
              rw [hget] at hget'
              obtain rfl := Option.some.inj hget'
              have hsame := h.levels old (mem_of_getElem? hget)
              rw [hid, hlevel] at hsame
              have heq : newLevel = old.level := Except.ok.inj hsame
              omega
          · omega
        · exact le_rfl
      · rw [hsameLevel]
        rcases hrecord with hrecord | rfl
        · exact h.highest record hrecord hcurrent
        · push Not at hwhy
          exact hwhy.2
    · rcases hentry with ⟨-, -, hnewLevel, hmax⟩ | ⟨-, -, hsameLevel, hmax⟩
      · rw [hmax, hnewLevel]
      · rw [hmax, hsameLevel, h.maximum]
  · obtain ⟨hinsert, hnew, hnewLevel, hmax⟩ := insert_first_ok h hrun
    refine ⟨inserts_inv h hinsert hlevel ⟨_, _, hnew, inserts_last hinsert, hnewLevel⟩ ?_
      (hmax.trans hnewLevel.symm), hinsert.config, hinsert.slots⟩
    -- No other slot is current.
    have hnone : ∀ record ∈ index.graph.records, record.current = false := by
      rcases h.entry with ⟨hnil, -, -⟩ | ⟨slot, record, hslot, -, -⟩
      · rw [hnil]
        nofun
      · rw [hfirst slot hslot, eq_comm, decide_eq_false_iff_not] at hlive
        unfold activeCount at hlive
        rw [h.inactive, slot_count_records] at hlive
        have hall : index.graph.records.countP (!·.current) = index.graph.records.length := by
          have hle : index.graph.records.countP (!·.current) ≤ index.graph.records.length :=
            countP_le_length
          omega
        intro record hrecord
        have hflag := countP_eq_length.1 hall record hrecord
        simpa using hflag
    intro record hrecord hcurrent
    rw [hinsert.records, mem_append, mem_singleton] at hrecord
    rcases hrecord with hrecord | rfl
    · rw [hnone record hrecord] at hcurrent
      cases hcurrent
    · rw [hnewLevel]

/-- Retiring the slot of a point keeps the invariant: the entry point may be a retired slot. -/
theorem retire_inv (h : index.Inv dispatcher) {graph : HnswStorage V} {slot : Nat}
    {changed : SlotRecord V → SlotRecord V} (hcurrent : index.graph.currentSlot id = some slot)
    (hretires : index.graph.Retires id slot changed graph)
    (hsame : ∀ record, (changed record).id = record.id ∧ (changed record).level = record.level ∧
      (changed record).vector = record.vector)
    (hflag : ∀ record, (changed record).current = false)
    (hflags : ∀ record : SlotRecord V, record.current = true →
      record.current.toNat + record.deleted.toNat + record.replaced.toNat = 1 →
      (changed record).current.toNat + (changed record).deleted.toNat +
        (changed record).replaced.toNat = 1) :
    Inv dispatcher { index with
      graph := graph
      buildStats := { index.buildStats with
        inactiveSlots := index.buildStats.inactiveSlots + 1 } } := by
  obtain ⟨record, hget, hrecord, -⟩ := current_slot_record hcurrent
  -- A record of the new graph is an old one or the changed one.
  have hmem : ∀ found ∈ graph.records, found ∈ index.graph.records ∨ found = changed record := by
    intro found hfound
    rw [hretires.records] at hfound
    obtain ⟨position, hposition⟩ := List.getElem?_of_mem hfound
    rw [List.getElem?_modify] at hposition
    by_cases heq : slot = position
    · subst heq
      rw [hget] at hposition
      simp only [if_true, Option.map_eq_map, Option.map_some, Option.some.injEq] at hposition
      exact .inr hposition.symm
    · have hsamePosition : index.graph.records[position]? = some found := by
        simpa [heq] using hposition
      exact .inl (mem_of_getElem? hsamePosition)
  have hold := mem_of_getElem? hget
  have hcount : graph.slotCount = index.graph.slotCount := by
    rw [slot_count_records, slot_count_records, hretires.records,
      length_modify]
  refine ⟨hretires.config.trans h.config, h.valid, hretires.valid.trans h.graph_valid, ?_, ?_, ?_,
    ?_, h.slots.trans hcount.symm, ?_, h.maximum, ?_⟩
  · refine ⟨well_linked_congr h.sound.wellLinked hretires.config hretires.adjacency, ?_, ?_, ?_, ?_⟩
    · rw [hretires.slots]
      exact (Index.HnswIndex.retire_spec h.sound.published id).1
    · intro found hfound
      rcases hmem found hfound with hfound | rfl
      · exact h.sound.flags found hfound
      · exact hflags record hrecord (h.sound.flags record hold)
    · intro found hfound
      rcases hmem found hfound with hfound | rfl
      · exact h.sound.storable found hfound
      · rw [(hsame record).2.2]
        exact h.sound.storable record hold
    · intro found hfound
      rcases hmem found hfound with hfound | rfl
      · exact h.sound.levels found hfound
      · rw [(hsame record).2.1]
        exact h.sound.levels record hold
  · intro found hfound
    rcases hmem found hfound with hfound | rfl
    · exact h.levels found hfound
    · rw [(hsame record).1, (hsame record).2.1]
      exact h.levels record hold
  · rcases h.entry with ⟨hnil, -, -⟩ | ⟨entry, found, hentry, hfound, hlevel⟩
    · rw [hnil] at hold
      exact absurd hold not_mem_nil
    · refine .inr ⟨entry, ?_⟩
      show ∃ record, index.entrySlot = some entry ∧ graph.records[entry]? = some record ∧
        index.entryLevel = record.level
      rw [hretires.records, List.getElem?_modify, hfound]
      refine ⟨_, hentry, rfl, ?_⟩
      split
      · rw [(hsame found).2.1]
        exact hlevel
      · exact hlevel
  · intro found hfound hfoundCurrent
    rcases hmem found hfound with hfound | rfl
    · exact h.highest found hfound hfoundCurrent
    · rw [hflag record] at hfoundCurrent
      cases hfoundCurrent
  · show index.buildStats.inactiveSlots + 1 = graph.records.countP (!·.current)
    have hp : (!record.current) = false := by rw [hrecord]; rfl
    have hp' : (!(changed record).current) = true := by rw [hflag]; rfl
    have hmodify : (index.graph.records.modify slot changed).countP (!·.current) =
        index.graph.records.countP (!·.current) + 1 := count_modify hget hp hp'
    rw [hretires.records, hmodify, h.inactive]
  · show index.buildStats.directedEdges = (graph.edgeCount : Int)
    rw [hretires.edges]
    exact h.edges

theorem bound_identity (h : index.validateBoundIdentity dispatcher = .ok ()) :
    dispatcher.identity = index.config.identity := by
  unfold validateBoundIdentity at h
  simp only [bind_ok, exists_unit, require_ok] at h
  exact h.1

theorem bound_identity_of (h : index.Inv dispatcher)
    (hidentity : dispatcher.identity = index.config.identity) :
    index.validateBoundIdentity dispatcher = .ok () := by
  unfold validateBoundIdentity
  simp only [bind_ok, exists_unit, require_ok, h.config]
  exact ⟨hidentity, trivial, trivial, trivial⟩

/-- `add` keeps the invariant and is the `add` of the slot model. -/
theorem add_ok (h : index.Inv dispatcher) (hvalid : dispatcher.Valid) {values : List F32}
    (hrun : add dispatcher id values index = (.ok (), next)) :
    next.Inv dispatcher ∧ next.config = index.config ∧
      index.graph.slotsOf.add dispatcher.prepare id values = .ok next.graph.slotsOf := by
  unfold add at hrun
  rw [read_bind, bind_ok_iff] at hrun
  obtain ⟨_, _, hstep₁, hrun⟩ := hrun
  obtain ⟨hidentity, rfl⟩ := lift_ok_iff.1 hstep₁
  obtain ⟨_, _, hstep₂, hrun⟩ := bind_ok_iff.1 hrun
  obtain ⟨-, rfl⟩ := ensure_ok_iff.1 hstep₂
  obtain ⟨_, _, hstep₃, hrun⟩ := bind_ok_iff.1 hrun
  obtain ⟨hnone, rfl⟩ := ensure_ok_iff.1 hstep₃
  obtain ⟨prepared, _, hstep₄, hrun⟩ := bind_ok_iff.1 hrun
  obtain ⟨hprepare, rfl⟩ := lift_ok_iff.1 hstep₄
  obtain ⟨newLevel, _, hstep₅, hrun⟩ := bind_ok_iff.1 hrun
  obtain ⟨hlevel, rfl⟩ := lift_ok_iff.1 hstep₅
  obtain ⟨hinv, hconfig, hslots⟩ := insert_prepared_inv h hvalid (bound_identity hidentity) hlevel
    (by intro hreplacing; cases hreplacing) rfl hrun
  refine ⟨hinv, hconfig, ?_⟩
  unfold Index.HnswIndex.add
  simp only [bind_ok, exists_unit, require_ok]
  rw [current_slot_slots_of] at hnone
  exact ⟨hnone, prepared, hprepare, hslots⟩

/-- Retiring what an upsert replaces keeps the invariant; a replaced entry point belongs to the
point. -/
theorem retire_replaced_ok (h : index.Inv dispatcher) {replacingEntry : Bool}
    (hrun : retireReplaced id index = (.ok replacingEntry, next)) :
    next.Inv dispatcher ∧ next.config = index.config ∧
      next.graph.slotsOf = index.graph.slotsOf.retire id ∧
      (replacingEntry = true → ∃ slot record, next.entrySlot = some slot ∧
        next.graph.records[slot]? = some record ∧ record.id = id) := by
  unfold retireReplaced at hrun
  rw [read_bind] at hrun
  cases hcurrent : index.graph.currentSlot id with
  | none =>
      rw [hcurrent] at hrun
      obtain ⟨rfl, rfl⟩ := pure_ok_iff.1 hrun
      refine ⟨h, rfl, ?_, nofun⟩
      rw [Index.HnswIndex.retire, ← current_slot_slots_of, hcurrent]
  | some old =>
      rw [hcurrent] at hrun
      obtain ⟨slot, _, hstep, hrun⟩ := bind_ok_iff.1 hrun
      obtain ⟨graph, hattempt, rfl⟩ := zoom_ok_iff.1 hstep
      obtain ⟨hslot, hretires⟩ := mark_replaced_ok (attempt_ok_iff.1 hattempt)
      obtain rfl := Option.some.inj (hcurrent.symm.trans hslot)
      obtain ⟨_, _, hupdate, hrun⟩ := bind_ok_iff.1 hrun
      obtain rfl := update_ok_iff.1 hupdate
      obtain ⟨rfl, rfl⟩ := pure_ok_iff.1 hrun
      refine ⟨?_, rfl, hretires.slots, fun hentry => ?_⟩
      · refine retire_inv h hcurrent hretires (fun _ => ⟨rfl, rfl, rfl⟩) (fun _ => rfl) ?_
        intro record hrecord hflags
        rw [hrecord] at hflags
        show (false : Bool).toNat + record.deleted.toNat + (true : Bool).toNat = 1
        simp only [Bool.toNat_true, Bool.toNat_false] at hflags ⊢
        omega
      · obtain ⟨record, hget, -, hid⟩ := current_slot_record hcurrent
        rw [decide_eq_true_eq] at hentry
        refine ⟨old, { record with current := false, replaced := true }, hentry, ?_, hid⟩
        show graph.records[old]? = _
        rw [hretires.records, List.getElem?_modify, hget]
        simp

/-- `upsert` keeps the invariant and is the `upsert` of the slot model. -/
theorem upsert_ok (h : index.Inv dispatcher) (hvalid : dispatcher.Valid) {values : List F32}
    (hrun : upsert dispatcher id values index = (.ok (), next)) :
    next.Inv dispatcher ∧ next.config = index.config ∧
      index.graph.slotsOf.upsert dispatcher.prepare id values = .ok next.graph.slotsOf := by
  unfold upsert at hrun
  rw [read_bind, bind_ok_iff] at hrun
  obtain ⟨_, _, hstep₁, hrun⟩ := hrun
  obtain ⟨hidentity, rfl⟩ := lift_ok_iff.1 hstep₁
  obtain ⟨_, _, hstep₂, hrun⟩ := bind_ok_iff.1 hrun
  obtain ⟨-, rfl⟩ := ensure_ok_iff.1 hstep₂
  obtain ⟨prepared, _, hstep₃, hrun⟩ := bind_ok_iff.1 hrun
  obtain ⟨hprepare, rfl⟩ := lift_ok_iff.1 hstep₃
  obtain ⟨newLevel, _, hstep₄, hrun⟩ := bind_ok_iff.1 hrun
  obtain ⟨hlevel, rfl⟩ := lift_ok_iff.1 hstep₄
  obtain ⟨replacingEntry, retired, hretire, hrun⟩ := bind_ok_iff.1 hrun
  obtain ⟨hretired, hconfig, hslots, hreplacing⟩ := retire_replaced_ok h hretire
  rw [read_bind, catching_raise_ok_iff] at hrun
  obtain ⟨hinv, hconfig', hslots'⟩ := insert_prepared_inv hretired hvalid
    ((bound_identity hidentity).trans (by rw [hconfig])) (by rw [hconfig]; exact hlevel)
    hreplacing rfl hrun
  refine ⟨hinv, hconfig'.trans hconfig, ?_⟩
  unfold Index.HnswIndex.upsert
  simp only [bind_ok]
  exact ⟨prepared, hprepare, by rw [← hslots]; exact hslots'⟩

/-- `delete` keeps the invariant and is the `delete` of the slot model. -/
theorem delete_spec (h : index.Inv dispatcher)
    (hidentity : dispatcher.identity = index.config.identity) (id : Int64) :
    (delete dispatcher id index).1.Inv dispatcher ∧
      (delete dispatcher id index).1.config = index.config ∧
      index.graph.slotsOf.delete id = ((delete dispatcher id index).1.graph.slotsOf,
        (delete dispatcher id index).2) := by
  unfold delete
  rw [if_pos ⟨h.valid, h.graph_valid⟩, bound_identity_of h hidentity]
  unfold Index.HnswIndex.delete
  rw [← current_slot_slots_of]
  rcases mark_deleted_spec index.graph id with
    ⟨hnone, hmarked⟩ | ⟨slot, graph, hcurrent, hmarked, hretires⟩
  · simp only [hmarked, Bool.false_eq_true, if_false, hnone, Option.isSome_none]
    refine ⟨h, trivial, ?_⟩
    rw [Index.HnswIndex.retire, ← current_slot_slots_of, hnone]
  · simp only [hmarked, if_true, hcurrent, Option.isSome_some]
    refine ⟨?_, trivial, by rw [hretires.slots]⟩
    refine retire_inv h hcurrent hretires (fun _ => ⟨rfl, rfl, rfl⟩) (fun _ => rfl) ?_
    intro record hrecord hflags
    rw [hrecord] at hflags
    show (false : Bool).toNat + (true : Bool).toNat + record.replaced.toNat = 1
    simp only [Bool.toNat_true, Bool.toNat_false] at hflags ⊢
    omega

/-- An index that keeps the invariant passes validation where its cells can be numbered and its
vectors fit one tape. -/
theorem validate_structure_iff (h : index.Inv dispatcher)
    (hidentity : dispatcher.identity = index.config.identity) :
    index.validateStructure dispatcher = .ok () ↔
      index.graph.ownedLevels.length ≤ emptyNeighbor ∧
        (0 < index.graph.slotCount →
          index.config.identity.dimension ≤ intMax / index.graph.slotCount) := by
  have hlinks := validate_bidirectional_links_iff h.sound
    (by rw [h.config]; exact index.config.m_small) (by rw [h.config]; exact index.config.m0_small)
    h.graph_valid
  rw [h.config] at hlinks
  unfold validateStructure
  simp only [bind_ok, exists_unit, require_ok]
  constructor
  · rintro ⟨-, -, haccepted, -⟩
    exact hlinks.1 haccepted
  · intro hbounds
    refine ⟨bound_identity_of h hidentity, ⟨h.valid, h.graph_valid⟩, hlinks.2 hbounds, ?_⟩
    · rcases h.entry with ⟨hnil, hnone, hlevel⟩ | ⟨slot, record, hslot, hrecord, hlevel⟩
      · have hzero : index.graph.slotCount = 0 := by
          rw [slot_count_records, hnil]
          rfl
        rw [if_pos hzero]
        simp only [bind_ok, exists_unit, require_ok]
        exact ⟨⟨hnone, hlevel⟩, h.slots, h.maximum⟩
      · have hpos : ¬ index.graph.slotCount = 0 := by
          rw [slot_count_records]
          have := (List.getElem?_eq_some_iff.1 hrecord).1
          omega
        rw [if_neg hpos]
        unfold checkEntry level
        simp only [hslot, bind_ok, exists_unit, require_ok, pure_ok,
          node_ok]
        unfold records at hrecord
        rw [List.getElem?_map, Option.map_eq_some_iff] at hrecord
        obtain ⟨node, hnode, rfl⟩ := hrecord
        exact ⟨⟨_, ⟨node, hnode, rfl⟩, hlevel, h.highest, h.inactive⟩, h.slots, h.maximum⟩

end HnswIndex

end Akasha.Hnsw

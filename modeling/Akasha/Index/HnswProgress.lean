import Akasha.Index.Hnsw
import Akasha.Index.HnswTraversal

/-!
# Calls on an index that return

`add` and `upsert` raise on a vector that the metric or the scalar kind refuses, and when the slots
are used up. `upsert_returns` says that on an index that keeps its invariant they raise for no
other reason: the searches of the construction return, what they find can be selected from, and the
selected slots can be linked.
-/

namespace Akasha.Hnsw

open Lib Lib.Exec HnswStorage

variable {V : Type}

/-! ## Levels -/

theorem level_loop_le (centeredBucket divisor : UInt64) (rest : Nat) (threshold : UInt64) :
    levelLoop centeredBucket divisor rest threshold ≤ rest := by
  induction rest generalizing threshold with
  | zero => exact le_rfl
  | succ rest ih =>
      rw [levelLoop]
      split
      · omega
      · have hrest := ih (threshold / divisor)
        omega

theorem level_of_returns {config : HnswConfig} (h : 2 ≤ config.levelMultiplier) (id : Int64) :
    ∃ level, HnswIndex.levelOf config id = .ok level ∧ level ≤ config.maxLevel := by
  unfold HnswIndex.levelOf sampleLevel sampleLevelFromHash
  simp only [bind_ok, exists_unit, require_ok, pure_ok]
  exact ⟨_, ⟨h, rfl⟩, level_loop_le _ _ _ _⟩

namespace HnswIndex

variable {dispatcher : MetricDispatcher V} {index : HnswIndex V} {id : Int64} {prepared : V}
  {newLevel : Nat}

/-! ## Linking -/

variable {graph : HnswStorage V}

/-- Slots that a construction search finds can be linked. -/
theorem link_layers_returns (hvalid : dispatcher.Valid) (h : graph.Searchable dispatcher prepared)
    (hidentity : dispatcher.identity = graph.config.identity) {efConstruction newSlot : Nat}
    (hef : 0 < efConstruction) (hcurrent : graph.isCurrent newSlot = true) (count : Nat)
    (hnew : ∀ level < count, graph.Owns newSlot level) {current : Nat}
    (hentry : ∀ level < count, graph.Owns current level) (stats : HnswBuildStats) :
    ∃ built linked, linkLayers dispatcher efConstruction prepared newSlot count current stats graph =
      (.ok built, linked) := by
  induction count generalizing graph current stats with
  | zero => exact ⟨stats, graph, rfl⟩
  | succ level ih =>
      have hall : graph.Answers admitAll := ⟨rfl, fun _ _ _ => ⟨true, rfl⟩⟩
      have howns := hnew level (Nat.lt_succ_self level)
      obtain ⟨candidates, hsearch, -, hfound⟩ := search_layer_returns (h.layer level) hall
        (hentry level (Nat.lt_succ_self level)) hef le_rfl
      -- The candidates can be selected from.
      have hcandidates : ∀ item ∈ candidates, ∃ stored left right,
          graph.node item.slot = .ok stored ∧ item.id = stored.id ∧
            item.distance = dispatcher.distance left right ∧
            (true = true → graph.isCurrent item.slot = true) := by
        intro item hitem
        have heligible := hfound.eligible item hitem
        have hread := heligible.item_at
        unfold itemAt at hread
        simp only [bind_ok, pure_ok] at hread
        obtain ⟨stored, hstored, hread⟩ := hread
        refine ⟨stored, prepared, stored.vector, hstored, ?_, ?_, fun _ => heligible.current⟩
        · rw [← hread]
        · rw [← hread]
      have hexcluded : ∀ slot ∈ some newSlot, slot < graph.slotCount := by
        intro slot hslot
        rw [← Option.mem_some.1 hslot]
        exact lt_of_owns howns
      obtain ⟨selected, hselect⟩ := select_neighbors_total hvalid hidentity hexcluded
        hcandidates (graph.capacityAt level) true
      obtain ⟨-, -, hselected⟩ := select_neighbors_spec hselect
      -- What is selected can be linked.
      have hcheck : checkConnect dispatcher graph newSlot level selected = .ok () := by
        refine check_connect_ok.2 ⟨h.valid, h.dimension, howns, hcurrent, fun slot hslot => ?_⟩
        obtain ⟨hne, item, hitem, rfl⟩ := hselected slot hslot
        have heligible := hfound.eligible item hitem
        exact ⟨heligible.owns, fun heq => hne (by rw [heq]), heligible.current⟩
      rcases connect_bidirectional_run h.wellLinked hvalid hidentity newSlot level selected stats with
        ⟨error, hfailed, -⟩ | ⟨-, delta, next, hconnect, hconnects⟩
      · rw [hcheck] at hfailed
        cases hfailed
      · have hsame := hconnects.relinked.toSameSlots
        have hnext : next.Searchable dispatcher prepared :=
          ⟨hsame.valid.trans h.valid, h.dimension.trans (by rw [hsame.config]), h.prepared,
            hconnects.wellLinked⟩
        have hnextEntry : ∀ layer < level,
            next.Owns ((candidates.head?).elim current (·.slot)) layer := by
          intro layer hlayer
          rw [same_owns hsame]
          cases candidates with
          | nil => exact hentry layer (by omega)
          | cons item rest =>
              exact owns_of_le (hfound.eligible item List.mem_cons_self).owns
                (by omega)
        obtain ⟨built, linked, hrest⟩ := ih hnext (hidentity.trans (by rw [hsame.config]))
          ((same_is_current hsame newSlot).trans hcurrent)
          (fun layer hlayer => (same_owns hsame).2 (hnew layer (by omega))) hnextEntry
          { stats with directedEdges := stats.directedEdges + delta }
        refine ⟨built, linked, ?_⟩
        rw [linkLayers, read_bind]
        refine bind_ok_iff.2 ⟨candidates, graph, lift_ok_iff.2 ⟨hsearch, rfl⟩, ?_⟩
        refine bind_ok_iff.2 ⟨graph.capacityAt level, graph, lift_ok_iff.2
          ⟨level_capacity_ok.2 ⟨howns, rfl⟩, rfl⟩, ?_⟩
        refine bind_ok_iff.2 ⟨selected, graph, lift_ok_iff.2 ⟨hselect, rfl⟩, ?_⟩
        exact bind_ok_iff.2 ⟨_, next, hconnect, hrest⟩

/-! ## Inserting -/

theorem retire_replaced_returns (index : HnswIndex V) (id : Int64) :
    ∃ replacingEntry retired, retireReplaced id index = (.ok replacingEntry, retired) := by
  unfold retireReplaced
  rw [read_bind]
  cases hcurrent : index.graph.currentSlot id with
  | none => exact ⟨false, index, rfl⟩
  | some old =>
      have hmark : ∃ graph, index.graph.markReplaced id = .ok (graph, old) := by
        unfold markReplaced
        rw [hcurrent]
        exact ⟨_, rfl⟩
      obtain ⟨graph, hgraph⟩ := hmark
      refine ⟨_, _, bind_ok_iff.2 ⟨old, { index with graph := graph }, ?_, rfl⟩⟩
      exact zoom_ok_iff.2 ⟨graph, attempt_ok_iff.2 hgraph, rfl⟩

theorem current_slot_none (h : graph.currentSlots[id]? = none) :
    graph.currentSlot id = none := by
  unfold currentSlot
  rw [h]
  rfl

theorem append_unpublished_returns (hstorable : dispatcher.storable prepared = .ok ())
    (hfits : newLevel ≤ levelLimit) (hnone : graph.currentSlots[id]? = none)
    (hroom : graph.slotCount < emptyNeighbor) :
    ∃ staged, graph.appendUnpublished dispatcher id prepared newLevel =
      .ok (staged, graph.slotCount) := by
  have hlt : graph.nodes.length < emptyNeighbor := hroom
  unfold appendUnpublished
  simp only [bind_ok, exists_unit, require_ok, hstorable, hfits, current_slot_none hnone,
    Option.isNone_none, hlt, dite_true, pure_ok, Prod.mk.injEq, true_and]
  exact ⟨_, rfl, rfl⟩

theorem publish_current_returns {slot : Nat} {record : SlotRecord V}
    (hrecord : graph.records[slot]? = some record) (hid : record.id = id)
    (hcurrent : record.current = true) (hnone : graph.currentSlots[id]? = none) :
    ∃ published, graph.publishCurrent id slot = .ok published := by
  unfold records at hrecord
  rw [List.getElem?_map, Option.map_eq_some_iff] at hrecord
  obtain ⟨node, hnode, rfl⟩ := hrecord
  unfold publishCurrent
  simp only [bind_ok, exists_unit, require_ok, pure_ok, node_ok,
    current_slot_none hnone, Option.isNone_none]
  exact ⟨_, node, hnode, ⟨hid, hcurrent⟩, trivial, rfl⟩

theorem publish_step_returns {slot : Nat} {published : HnswStorage V}
    (h : index.graph.publishCurrent id slot = .ok published) :
    onGraph (.attempt fun graph => (·, ()) <$> graph.publishCurrent id slot) index =
      (.ok (), { index with graph := published }) := by
  refine zoom_ok_iff.2 ⟨published, attempt_ok_iff.2 ?_, rfl⟩
  show ((·, ()) <$> index.graph.publishCurrent id slot) = _
  rw [h]
  rfl

theorem insert_first_returns (hstorable : dispatcher.storable prepared = .ok ())
    (hfits : newLevel ≤ levelLimit) (hnone : index.graph.currentSlots[id]? = none)
    (hroom : index.graph.slotCount < emptyNeighbor) :
    ∃ next, insertFirst dispatcher id prepared newLevel index = (.ok (), next) := by
  obtain ⟨staged, happend⟩ := append_unpublished_returns hstorable hfits hnone hroom
  obtain ⟨-, -, -, -, hrecords, -, hslots, -⟩ := append_unpublished_ok happend
  have hlast : staged.records[index.graph.slotCount]? =
      some ⟨id, newLevel, true, false, false, prepared⟩ := by
    rw [hrecords, slot_count_records, List.getElem?_concat_length]
  obtain ⟨published, hpublish⟩ := publish_current_returns hlast rfl rfl (hslots ▸ hnone)
  refine ⟨_, bind_ok_iff.2 ⟨index.graph.slotCount, { index with graph := staged }, ?_,
    bind_ok_iff.2 ⟨(), _, publish_step_returns hpublish, rfl⟩⟩⟩
  exact zoom_ok_iff.2 ⟨staged, attempt_ok_iff.2 happend, rfl⟩

/-- A staged slot can be linked from the entry point. -/
theorem link_slot_returns (hvalid : dispatcher.Valid) (h : index.Inv dispatcher)
    (hidentity : dispatcher.identity = index.config.identity)
    (hquery : dispatcher.validatePrepared prepared = .ok ())
    (hef : 0 < index.config.efConstruction) {staged : HnswStorage V} {entry newSlot : Nat}
    (hentry : index.entrySlot = some entry)
    (hstage : index.graph.appendUnpublished dispatcher id prepared newLevel =
      .ok (staged, newSlot)) :
    ∃ built linked, linkSlot dispatcher index prepared newLevel entry newSlot staged =
      (.ok built, linked) := by
  obtain ⟨-, -, -, rfl, hrecords, hconfig, -, hstagedValid, -, hadjacency⟩ :=
    append_unpublished_ok hstage
  have hgraphIdentity : dispatcher.identity = staged.config.identity := by
    rw [hconfig, h.config]
    exact hidentity
  have hready : staged.Searchable dispatcher prepared :=
    ⟨hstagedValid.trans h.graph_valid, by rw [hgraphIdentity], hquery,
      well_linked_congr h.sound.wellLinked hconfig hadjacency⟩
  -- The entry point owns its level, and the new slot all of its own.
  have howns : ∃ level : Nat, index.entryLevel = level ∧ staged.Owns entry level := by
    rcases h.entry with ⟨-, hnone, -⟩ | ⟨slot, record, hslot, hrecord, hlevel⟩
    · rw [hnone] at hentry
      cases hentry
    · rw [hentry] at hslot
      obtain rfl := Option.some.inj hslot
      refine ⟨record.level, hlevel, owns_records.2 ⟨record, ?_, le_rfl⟩⟩
      rw [hrecords, List.getElem?_append_left (List.getElem?_eq_some_iff.1 hrecord).1]
      exact hrecord
  obtain ⟨level, hlevel, hentryOwns⟩ := howns
  have hlast : staged.records[index.graph.slotCount]? =
      some ⟨id, newLevel, true, false, false, prepared⟩ := by
    rw [hrecords, slot_count_records, List.getElem?_concat_length]
  have hnew : ∀ layer < min newLevel level + 1, staged.Owns index.graph.slotCount layer :=
    fun layer hlayer => owns_records.2 ⟨_, hlast, by show layer ≤ newLevel; omega⟩
  have hcurrent : staged.isCurrent index.graph.slotCount = true := by
    rw [is_current_records, hlast]
    rfl
  have hdescend : ∃ found, staged.descend dispatcher prepared newLevel (level - newLevel) entry =
      .ok found ∧ staged.Owns found (min newLevel level) := by
    by_cases hle : newLevel ≤ level
    · obtain ⟨found, hfound, hspec⟩ := descend_returns hready newLevel
        (level - newLevel) (by rw [Nat.add_sub_cancel' hle]; exact hentryOwns)
      exact ⟨found, hfound, by rw [min_eq_left hle]; exact hspec⟩
    · rw [show level - newLevel = 0 by omega, min_eq_right (by omega)]
      exact ⟨entry, rfl, hentryOwns⟩
  obtain ⟨found, hfound, hfoundOwns⟩ := hdescend
  obtain ⟨built, linked, hlink⟩ := link_layers_returns hvalid hready hgraphIdentity hef hcurrent
    (min newLevel level + 1) hnew
    (fun layer hlayer => owns_of_le hfoundOwns (by omega)) index.buildStats
  refine ⟨built, linked, ?_⟩
  unfold linkSlot
  rw [read_bind, hlevel]
  refine bind_ok_iff.2 ⟨found, staged, lift_ok_iff.2 ⟨?_, rfl⟩, ?_⟩
  · rw [show ((level : Int) - newLevel).toNat = level - newLevel by omega]
    exact hfound
  · rw [show (min (newLevel : Int) level + 1).toNat = min newLevel level + 1 by omega]
    exact hlink

theorem link_slot_same (hvalid : dispatcher.Valid) {staged linked : HnswStorage V}
    (hidentity : dispatcher.identity = staged.config.identity) (h : staged.WellLinked)
    {entry newSlot : Nat} {built : HnswBuildStats}
    (hrun : linkSlot dispatcher index prepared newLevel entry newSlot staged =
      (.ok built, linked)) : HnswStorage.SameSlots staged linked := by
  unfold linkSlot at hrun
  rw [read_bind, bind_ok_iff] at hrun
  obtain ⟨current, _, hdescend, hlink⟩ := hrun
  obtain ⟨-, rfl⟩ := lift_ok_iff.1 hdescend
  exact (link_layers_ok hvalid hlink h hidentity).1

theorem insert_linked_returns (hvalid : dispatcher.Valid) (h : index.Inv dispatcher)
    (hidentity : dispatcher.identity = index.config.identity)
    (hquery : dispatcher.validatePrepared prepared = .ok ())
    (hstorable : dispatcher.storable prepared = .ok ())
    (hef : 0 < index.config.efConstruction) (hfits : newLevel ≤ levelLimit)
    (hnone : index.graph.currentSlots[id]? = none) (hroom : index.graph.slotCount < emptyNeighbor)
    {entry : Nat} (hentry : index.entrySlot = some entry) (replacingEntry : Bool) :
    ∃ next, insertLinked dispatcher id prepared newLevel entry replacingEntry index =
      (.ok (), next) := by
  obtain ⟨staged, happend⟩ := append_unpublished_returns hstorable hfits hnone hroom
  obtain ⟨-, -, -, -, hrecords, hconfig, hslots, -, -, hadjacency⟩ :=
    append_unpublished_ok happend
  obtain ⟨built, linked, hlink⟩ := link_slot_returns hvalid h hidentity hquery hef hentry happend
  have hsame := link_slot_same hvalid
    (show dispatcher.identity = staged.config.identity by rw [hconfig, h.config]; exact hidentity)
    (well_linked_congr h.sound.wellLinked hconfig hadjacency) hlink
  have hlast : linked.records[index.graph.slotCount]? =
      some ⟨id, newLevel, true, false, false, prepared⟩ := by
    rw [hsame.records, hrecords, slot_count_records, List.getElem?_concat_length]
  obtain ⟨published, hpublish⟩ := publish_current_returns hlast rfl rfl
    (by rw [hsame.currentSlots, hslots]; exact hnone)
  unfold insertLinked
  rw [read_bind]
  refine ⟨_, bind_ok_iff.2 ⟨index.graph.slotCount, { index with graph := staged }, ?_,
    bind_ok_iff.2 ⟨built, { index with graph := linked }, ?_,
      bind_ok_iff.2 ⟨(), _, publish_step_returns hpublish, rfl⟩⟩⟩⟩
  · exact zoom_ok_iff.2 ⟨staged, attempt_ok_iff.2 happend, rfl⟩
  · rw [catching_raise_ok_iff]
    exact zoom_ok_iff.2 ⟨linked, hlink, rfl⟩

/-- An upsert of a vector that the metric takes returns while there are slots. -/
theorem upsert_returns (id : Int64) (hvalid : dispatcher.Valid) (h : index.Inv dispatcher)
    (hidentity : dispatcher.identity = index.config.identity) {values : List F32}
    (hprepare : dispatcher.prepare values = .ok prepared)
    (hquery : dispatcher.validatePrepared prepared = .ok ())
    (hstorable : dispatcher.storable prepared = .ok ())
    (hef : 0 < index.config.efConstruction) (hmultiplier : 2 ≤ index.config.levelMultiplier)
    (hlevels : index.config.maxLevel ≤ levelLimit) (hroom : index.graph.slotCount < emptyNeighbor) :
    ∃ next, upsert dispatcher id values index = (.ok (), next) := by
  obtain ⟨level, hlevel, hle⟩ := level_of_returns hmultiplier id
  obtain ⟨replacingEntry, retired, hretire⟩ := retire_replaced_returns index id
  obtain ⟨hinv, hconfig, hslots, -⟩ := retire_replaced_ok h hretire
  have hnone : retired.graph.currentSlots[id]? = none := by
    have hgone : retired.graph.slotsOf.vector? id = none := by
      rw [hslots, (Index.HnswIndex.retire_spec h.sound.published id).2, Function.update_self]
    rw [Option.eq_none_iff_forall_ne_some]
    intro slot hslot
    obtain ⟨vector, hat⟩ := (hinv.sound.published id slot).1 hslot
    exact (Index.HnswIndex.vector_is_none hinv.sound.published).1 hgone slot vector hat
  have hcount : retired.graph.slotCount = index.graph.slotCount := by
    have hlength : retired.graph.slotsOf.slots.length = index.graph.slotsOf.slots.length := by
      rw [hslots]
      unfold Index.HnswIndex.retire
      split
      · rfl
      · rw [List.length_modify]
    unfold slotsOf at hlength
    rw [List.length_map, List.length_map] at hlength
    rw [slot_count_records, slot_count_records, hlength]
  have hinsert : ∀ hasOtherLive, ∃ next, insertPrepared dispatcher id prepared level replacingEntry
      hasOtherLive retired = (.ok (), next) := by
    intro hasOtherLive
    have hfirst := insert_first_returns hstorable (hle.trans hlevels) hnone (hcount ▸ hroom)
    unfold insertPrepared
    rw [read_bind]
    cases hentry : retired.entrySlot with
    | none => exact hfirst
    | some entry =>
        cases hasOtherLive with
        | false => exact hfirst
        | true =>
            exact insert_linked_returns hvalid hinv (hidentity.trans (by rw [hconfig])) hquery
              hstorable (by rw [hconfig]; exact hef) (hle.trans hlevels) hnone (hcount ▸ hroom)
              hentry replacingEntry
  obtain ⟨next, hrun⟩ := hinsert (decide (0 < retired.activeCount))
  refine ⟨next, ?_⟩
  unfold upsert
  rw [read_bind]
  refine bind_ok_iff.2 ⟨(), index, lift_ok_iff.2 ⟨bound_identity_of h hidentity, rfl⟩, ?_⟩
  refine bind_ok_iff.2 ⟨(), index, ensure_ok_iff.2 ⟨⟨h.valid, h.graph_valid⟩, rfl⟩, ?_⟩
  refine bind_ok_iff.2 ⟨prepared, index, lift_ok_iff.2 ⟨hprepare, rfl⟩, ?_⟩
  refine bind_ok_iff.2 ⟨level, index, lift_ok_iff.2 ⟨hlevel, rfl⟩, ?_⟩
  refine bind_ok_iff.2 ⟨replacingEntry, retired, hretire, ?_⟩
  rw [read_bind, catching_raise_ok_iff]
  exact hrun

end HnswIndex

end Akasha.Hnsw

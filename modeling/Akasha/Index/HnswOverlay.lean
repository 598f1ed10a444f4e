import Akasha.Index.HnswRun
import Akasha.Index.HnswSegments
import Mathlib.Data.List.Pairwise

/-!
# Runs of the segments

A run opens segments over nothing, over an owned index or over a mapped view, and performs
`upsert`, `delete` and `promote_delta_base` calls that do not raise. `segments_place_every_point`
says what every run leaves: each point has one place that the admission of the search lets
through, which holds its last vector, and the counters are the recounts of the slots.
`validate_overlay` accepts the segments unless the delta has outgrown the audit of its graph.
-/

namespace Akasha.Hnsw

open Lib Lib.Exec List
open Index (HnswSource)

variable {V : Type}

/-! ## Bases that can be adopted -/

theorem filter_map_range {α β : Type} (f : α → Option β) (l : List α) :
    (range l.length).filterMap (fun i => (l[i]?).bind f) = l.filterMap f := by
  induction l with
  | nil => rfl
  | cons x l ih =>
      rw [length_cons, range_succ_eq_map, filterMap_cons, filterMap_map]
      show (match f x with
        | none => (range l.length).filterMap fun i => (l[i]?).bind f
        | some b => b :: (range l.length).filterMap fun i => (l[i]?).bind f) = _
      rw [ih, filterMap_cons]
      cases f x with
      | none => rfl
      | some b => rfl

theorem count_any_split {α β : Type} (f : α → Option β) (p : α → β → Bool) (l : List α) :
    l.countP (fun a => (f a).isSome) =
      l.countP (fun a => (f a).any (p a)) + l.countP fun a => (f a).any fun b => !p a b := by
  induction l with
  | nil => rfl
  | cons a l ih =>
      rw [countP_cons, countP_cons, countP_cons, ih]
      cases f a with
      | none => rfl
      | some b =>
          rcases Bool.eq_false_or_eq_true (p a b) with hp | hp
          · simp only [Option.isSome_some, Option.any_some, hp, Bool.not_true, if_true,
              Bool.false_eq_true, if_false]
            omega
          · simp only [Option.isSome_some, Option.any_some, hp, Bool.not_false, if_true,
              Bool.false_eq_true, if_false]
            omega

variable {config : HnswCollectionConfig}

namespace HnswBase

variable {base : HnswBase V} {id : Int64} {slot : Nat}

/-- The points of an open base are those of its current nodes. -/
theorem current_ids_eq (h : base.isOpen = true) :
    base.currentIds = (base.nodes.filter (·.current)).map (·.id) := by
  have hid : base.currentId = fun slot => (base.nodes[slot]?).bind fun node =>
      if node.current = true then some node.id else .none := by
    funext slot
    unfold currentId
    rw [if_pos h]
    cases base.nodes[slot]? with
    | none => rfl
    | some node =>
        rw [Option.bind_some, Option.filter_some]
        split
        · rfl
        · rfl
  unfold currentIds slotCount
  rw [hid, filter_map_range]
  induction base.nodes with
  | nil => rfl
  | cons node nodes ih =>
      rw [filterMap_cons, filter_cons]
      split
      · rename_i hnone
        rw [if_neg fun hcurrent => by rw [if_pos hcurrent] at hnone; cases hnone]
        exact ih
      · rename_i found hsome
        by_cases hcurrent : node.current = true
        · rw [if_pos hcurrent] at hsome ⊢
          rw [map_cons, ih, Option.some.inj hsome]
        · rw [if_neg hcurrent] at hsome
          cases hsome

theorem slot_unique (h : base.currentIds.Nodup) {slot' : Nat}
    (hslot : base.currentId slot = some id) (hslot' : base.currentId slot' = some id) :
    slot = slot' := by
  by_contra hne
  have hmem := mem_range.2 (lt_of_current_id hslot)
  have hmem' := mem_range.2 (lt_of_current_id hslot')
  unfold currentIds at h
  rw [nodup_iff_pairwise_ne, pairwise_filterMap] at h
  have hsymm : Std.Symm fun a b => ∀ x, base.currentId a = some x →
      ∀ y, base.currentId b = some y → x ≠ y :=
    ⟨fun a b hab x hx y hy => (hab y hy x hx).symm⟩
  exact h.forall hmem hmem' hne id hslot id hslot' rfl

/-- The vector that a base holds for a point. -/
def vector? (base : HnswBase V) (id : Int64) : Option V :=
  ((range base.slotCount).find? fun slot => decide (base.currentId slot = some id)).bind
    base.vectorAt

theorem vector_of_slot (h : base.currentIds.Nodup) (hslot : base.currentId slot = some id) :
    base.vector? id = base.vectorAt slot := by
  unfold vector?
  have hfound : ((range base.slotCount).find? fun slot =>
      decide (base.currentId slot = some id)).isSome = true :=
    find?_isSome.2 ⟨slot, mem_range.2 (lt_of_current_id hslot), decide_eq_true hslot⟩
  obtain ⟨found, hfind⟩ := Option.isSome_iff_exists.1 hfound
  have htest := find?_some hfind
  have hid : base.currentId found = some id := of_decide_eq_true htest
  rw [hfind, Option.bind_some, slot_unique h hid hslot]

theorem vector_none (h : ∀ slot, base.currentId slot ≠ some id) : base.vector? id = .none := by
  unfold vector?
  rw [find?_eq_none.2 fun slot _ => ?_]
  · rfl
  · exact fun hslot => h slot (of_decide_eq_true hslot)

theorem owned_holds {index : HnswIndex V} {vector : V} :
    index.graph.slotsOf.HoldsAt id slot vector ↔
      (HnswBase.owned index).currentId slot = some id ∧
        (HnswBase.owned index).vectorAt slot = some vector := by
  rw [current_id_iff]
  unfold Index.HnswIndex.HoldsAt vectorAt
  show _ ↔ (true = true ∧ ∃ node, index.graph.nodes[slot]? = some node ∧ _) ∧
    (index.graph.nodes[slot]?).map _ = _
  rw [HnswStorage.slots_of_get, HnswStorage.records, getElem?_map]
  cases index.graph.nodes[slot]? with
  | none =>
      refine ⟨by intros; contradiction, ?_⟩
      rintro ⟨⟨-, node, hnode, -⟩, -⟩
      cases hnode
  | some node =>
      simp only [Option.map_some, Option.some.injEq, SlotRecord.slot, HnswNode.record,
        Index.HnswSlot.mk.injEq, true_and, exists_eq_left']
      tauto

theorem owned_holds_of {index : HnswIndex V} (h : (HnswBase.owned index).currentId slot = some id) :
    ∃ vector, index.graph.slotsOf.HoldsAt id slot vector := by
  obtain ⟨-, node, hnode, -⟩ := current_id_iff.1 h
  exact ⟨node.vector, owned_holds.2 ⟨h, congrArg (Option.map _) hnode⟩⟩

theorem owned_unique {index : HnswIndex V} (h : index.graph.slotsOf.WellFormed) :
    (HnswBase.owned index).currentIds.Nodup := by
  unfold currentIds
  refine List.Nodup.filterMap (fun slot slot' id hslot hslot' => ?_) nodup_range
  obtain ⟨vector, hholds⟩ := owned_holds_of hslot
  obtain ⟨vector', hholds'⟩ := owned_holds_of hslot'
  exact Index.HnswIndex.holds_unique h hholds hholds'

theorem owned_vector {index : HnswIndex V} (h : index.graph.slotsOf.WellFormed) :
    (HnswBase.owned index).vector? = index.graph.slotsOf.vector? := by
  funext id
  refine Option.ext fun vector => ?_
  rw [Index.HnswIndex.vector_iff h]
  constructor
  · intro hvector
    by_cases hslot : ∃ slot, (HnswBase.owned index).currentId slot = some id
    · obtain ⟨slot, hslot⟩ := hslot
      rw [vector_of_slot (owned_unique h) hslot] at hvector
      exact ⟨slot, owned_holds.2 ⟨hslot, hvector⟩⟩
    · rw [vector_none (not_exists.1 hslot)] at hvector
      cases hvector
  · rintro ⟨slot, hholds⟩
    obtain ⟨hslot, hvector⟩ := owned_holds.1 hholds
    rw [vector_of_slot (owned_unique h) hslot, hvector]

theorem owned_published {dispatcher : MetricDispatcher V} {index : HnswIndex V}
    (h : index.validateStructure dispatcher = .ok ()) : index.graph.slotsOf.WellFormed := by
  unfold HnswIndex.validateStructure at h
  simp only [bind_ok, exists_unit, require_ok] at h
  obtain ⟨-, -, hlinks, -⟩ := h
  exact (HnswStorage.validate_bidirectional_links_sound hlinks).published

/-- The slots of an index that validation accepts are a sound base. `validate_structure` does not
read the count of inactive slots of an index without slots. -/
theorem owned_sound {dispatcher : MetricDispatcher V} {index : HnswIndex V}
    (h : index.validateStructure dispatcher = .ok ())
    (hempty : index.graph.slotCount = 0 → index.buildStats.inactiveSlots = 0) :
    (HnswBase.owned index).Sound := by
  have hwf := owned_published h
  unfold HnswIndex.validateStructure at h
  simp only [bind_ok, exists_unit, require_ok] at h
  obtain ⟨-, -, -, hentry⟩ := h
  have hinactive : index.buildStats.inactiveSlots = index.graph.records.countP (!·.current) := by
    by_cases hzero : index.graph.slotCount = 0
    · rw [HnswStorage.slot_count_records] at hzero
      rw [hempty (by rw [HnswStorage.slot_count_records]; exact hzero),
        length_eq_zero_iff.1 hzero]
      rfl
    · rw [if_neg hzero] at hentry
      unfold HnswIndex.checkEntry at hentry
      cases hslot : index.entrySlot with
      | none =>
          rw [hslot] at hentry
          simp only [bind_ok] at hentry
          obtain ⟨_, hthrow, -⟩ := hentry
          cases hthrow
      | some entry =>
          rw [hslot] at hentry
          simp only [bind_ok, exists_unit, require_ok] at hentry
          obtain ⟨⟨_, -, -, -, hcount⟩, -⟩ := hentry
          exact hcount
  have hnodes : (HnswBase.owned index).currentIds =
      (index.graph.nodes.filter (·.current)).map (·.id) := current_ids_eq rfl
  refine ⟨owned_unique hwf, ?_⟩
  show index.activeCount = _
  rw [SegmentedHnsw.active_count_eq hwf hinactive, hnodes, length_map,
    ← countP_eq_length_filter]
  have hsize := Index.HnswIndex.size_current_slots hwf
  unfold HnswStorage.slotsOf HnswStorage.records at hsize
  rw [map_map, countP_map] at hsize
  exact congrArg Nat.cast hsize

/-- The loop over the nodes of a view collects the points of the current ones. -/
theorem check_nodes_ok {dispatcher : MetricDispatcher V} {view : HnswGraphView V}
    {nodes : List (HnswNode V)} {ids result : List Int64} (hnodup : ids.Nodup)
    (h : view.checkNodes dispatcher ids nodes = .ok result) :
    result = ids ++ (nodes.filter (·.current)).map (·.id) ∧ result.Nodup := by
  induction nodes generalizing ids with
  | nil =>
      obtain rfl := Except.ok.inj h
      exact ⟨(append_nil ids).symm, hnodup⟩
  | cons node nodes ih =>
      rw [HnswGraphView.checkNodes] at h
      simp only [bind_ok, exists_unit, require_ok] at h
      obtain ⟨-, -, -, -, hrest⟩ := h
      by_cases hcurrent : node.current = true
      · rw [if_pos hcurrent] at hrest
        simp only [bind_ok, exists_unit, require_ok] at hrest
        obtain ⟨hfresh, hrest⟩ := hrest
        have hlonger : (ids ++ [node.id]).Nodup := by
          refine nodup_append.2
            ⟨hnodup, nodup_singleton _, fun id hid other hother heq => ?_⟩
          rw [heq, mem_singleton.1 hother] at hid
          exact hfresh hid
        obtain ⟨rfl, hresult⟩ := ih hlonger hrest
        refine ⟨?_, hresult⟩
        rw [filter_cons_of_pos hcurrent, map_cons, append_assoc]
        rfl
      · rw [if_neg hcurrent] at hrest
        rw [filter_cons_of_neg hcurrent]
        exact ih hnodup hrest

theorem mapped_sound {dispatcher : MetricDispatcher V} {view : HnswGraphView V}
    (h : view.validateStructure dispatcher = .ok ()) : (HnswBase.mapped view).Sound := by
  unfold HnswGraphView.validateStructure HnswGraphView.validateSearchReady at h
  simp only [bind_ok, exists_unit, require_ok] at h
  obtain ⟨hopen, -, ids, hids, hlive, -⟩ := h
  obtain ⟨hnodes, hnodup⟩ := check_nodes_ok nodup_nil hids
  have hcurrent : (HnswBase.mapped view).currentIds = ids := by
    have hbase : (HnswBase.mapped view).isOpen = true := hopen
    rw [current_ids_eq hbase, hnodes]
    rfl
  refine ⟨by rw [hcurrent]; exact hnodup, ?_⟩
  rw [hcurrent, hlive]
  rfl

/-- What a base has to be for a collection to open over it. -/
def ValidFor (dispatcher : MetricDispatcher V) (config : HnswCollectionConfig) : HnswBase V → Prop
  | .none => True
  | .owned base => base.config = config.toHnswConfig ∧
      base.validateStructure dispatcher = .ok () ∧
      (base.graph.slotCount = 0 → base.buildStats.inactiveSlots = 0)
  | .mapped view => view.config = config.toHnswConfig ∧ view.validateStructure dispatcher = .ok ()

theorem valid_for_sound {dispatcher : MetricDispatcher V} (h : base.ValidFor dispatcher config) :
    base.Sound ∧ ∀ found, base.config = some found → found = config.toHnswConfig := by
  cases base with
  | none => exact ⟨⟨nodup_nil, rfl⟩, nofun⟩
  | owned base =>
      obtain ⟨hconfig, hvalid, hempty⟩ := h
      exact ⟨owned_sound hvalid hempty, fun found hfound => (Option.some.inj hfound) ▸ hconfig⟩
  | mapped view =>
      obtain ⟨hconfig, hvalid⟩ := h
      exact ⟨mapped_sound hvalid, fun found hfound => (Option.some.inj hfound) ▸ hconfig⟩

end HnswBase

/-! ## Opening and promoting -/

namespace SegmentedHnsw

variable {dispatcher : MetricDispatcher V} {index next : SegmentedHnsw V}

/-- A collection over a sound base returns, and knows the points of the base. -/
theorem adopt_returns {base : HnswBase V} (hidentity : dispatcher.identity = config.identity)
    (h : base.Sound) (hconfig : ∀ found, base.config = some found → found = config.toHnswConfig) :
    ∃ index, adopt config base = .ok index ∧ index.Coherent dispatcher ∧
      index.config = config ∧ index.vector? = base.vector? := by
  have hcounted : CurrentSources.empty.Counted := ⟨rfl, rfl⟩
  obtain ⟨sources, hrun, hsources, hcount, hget⟩ :=
    HnswBase.index_sources_spec hcounted h.unique fun id _ => rfl
  have hsource : ∀ id source, sources.sourceFor id = some source ↔
      ∃ slot, base.currentId slot = some id ∧ source = .base slot := by
    intro id source
    rw [hget]
    constructor
    · rintro (hnone | ⟨slot, -, hslot⟩)
      · cases hnone
      · exact ⟨slot, hslot⟩
    · rintro ⟨slot, hslot, heq⟩
      exact .inr ⟨slot, mem_range.2 (HnswBase.lt_of_current_id hslot), hslot, heq⟩
  have hempty : ∀ id, (HnswIndex.create config.toHnswConfig : HnswIndex V).graph.slotsOf.vector? id
      = none := fun id => (Index.HnswIndex.vector_is_none Index.HnswIndex.empty_well_formed).2
    fun slot vector hholds => by simp [Index.HnswIndex.HoldsAt, Index.HnswIndex.empty] at hholds
  refine ⟨{ new config with base := base, sources := sources },
    bind_ok.2 ⟨sources, hrun, rfl⟩, ?_, rfl, ?_⟩
  · refine ⟨hidentity, hconfig, h, rfl, HnswIndex.create_inv _, fun id slot hslot => ?_,
      fun id => ?_, hsources, ?_⟩
    · obtain ⟨found, hfound, heq⟩ := (hsource id _).1 hslot
      rw [HnswSource.base.inj heq]
      exact hfound
    · show sources.sourceFor id = some .delta ↔ _
      rw [hsource]
      constructor
      · rintro ⟨slot, -, heq⟩
        cases heq
      · intro hsome
        have hnone := hempty id
        rw [show (new config : SegmentedHnsw V).delta = .create config.toHnswConfig from rfl,
          hnone] at hsome
        cases hsome
    · show 0 + sources.baseCount = base.currentIds.length
      rw [hcount]
      show 0 + (0 + base.currentIds.length) = _
      omega
  · funext id
    unfold vector?
    dsimp only
    cases hid : sources.sourceFor id with
    | none =>
        refine (HnswBase.vector_none fun slot hslot => ?_).symm
        rw [(hsource id (.base slot)).2 ⟨slot, hslot, rfl⟩] at hid
        cases hid
    | some source =>
        obtain ⟨slot, hslot, rfl⟩ := (hsource id source).1 hid
        exact (HnswBase.vector_of_slot h.unique hslot).symm

/-- Promoting the delta keeps every vector. -/
theorem promote_ok (h : index.Coherent dispatcher)
    (hrun : index.promoteDeltaBase dispatcher = .ok next) :
    next.Coherent dispatcher ∧ next.config = index.config ∧ next.vector? = index.vector? := by
  unfold promoteDeltaBase at hrun
  simp only [bind_ok, exists_unit, require_ok] at hrun
  obtain ⟨hzero, hvalid, hadopt⟩ := hrun
  have hpublished := h.delta_inv.sound.published
  have hsound : (HnswBase.owned index.delta).Sound := by
    refine HnswBase.owned_sound hvalid fun hslots => ?_
    rw [HnswStorage.slot_count_records] at hslots
    rw [h.delta_inv.inactive, length_eq_zero_iff.1 hslots]
    rfl
  obtain ⟨found, hfound, hcoherent, hconfig, hvector⟩ := adopt_returns h.identity hsound
    fun config hconfig => (Option.some.inj hconfig) ▸ h.delta_config
  rw [hfound] at hadopt
  obtain rfl := Except.ok.inj hadopt
  refine ⟨hcoherent, hconfig, ?_⟩
  rw [hvector, HnswBase.owned_vector hpublished]
  funext id
  unfold vector?
  cases hid : index.sources.sourceFor id with
  | none =>
      have hdelta := h.delta_source id
      rw [hid] at hdelta
      exact Option.not_isSome_iff_eq_none.1 fun hsome => by cases hdelta.2 hsome
  | some source =>
      cases source with
      | delta => rfl
      | base slot =>
          have hlt := HnswBase.lt_of_current_id (h.base_source id slot hid)
          omega

/-! ## Places -/

end SegmentedHnsw

/-- A slot of one of the two graphs. -/
inductive SegmentPlace where
  | base (slot : Nat)
  | delta (slot : Nat)

namespace SegmentedHnsw

/-- `_SourceAdmission._allows_item`, for the base or for the delta. -/
def allowsItem (index : SegmentedHnsw V) (delta : Bool) (slot : Nat) (id : Int64) : Bool :=
  if delta then index.sources.sourceFor id = some .delta
  else index.sources.sourceFor id = some (.base slot)

/-- A search can return a point from a place: the slot is a current one of the point, and the
admission lets it through. -/
def Admits (index : SegmentedHnsw V) (id : Int64) : SegmentPlace → Prop
  | .base slot => index.base.currentId slot = some id ∧ index.allowsItem false slot id = true
  | .delta slot => (HnswBase.owned index.delta).currentId slot = some id ∧
      index.allowsItem true slot id = true

/-- The vector in a place. -/
def vectorIn (index : SegmentedHnsw V) : SegmentPlace → Option V
  | .base slot => index.base.vectorAt slot
  | .delta slot => (HnswBase.owned index.delta).vectorAt slot

/-- The current base slots that are bound to their points. -/
def isBound (index : SegmentedHnsw V) (slot : Nat) : Bool :=
  (index.base.currentId slot).any fun id => index.allowsItem false slot id

/-- The current base slots that are masked. -/
def isMasked (index : SegmentedHnsw V) (slot : Nat) : Bool :=
  (index.base.currentId slot).any fun id => !index.allowsItem false slot id

variable {dispatcher : MetricDispatcher V} {index : SegmentedHnsw V}

/-- A point that has a vector has one place, which holds it, and other points have none. -/
theorem places_of_coherent (h : index.Coherent dispatcher) (id : Int64) :
    match index.vector? id with
    | none => ∀ place, ¬ index.Admits id place
    | some vector => ∃ place, (∀ other, index.Admits id other ↔ other = place) ∧
        index.vectorIn place = some vector := by
  have hpublished := h.delta_inv.sound.published
  unfold vector?
  cases hid : index.sources.sourceFor id with
  | none =>
      intro place hadmits
      cases place with
      | base slot =>
          have hallows := of_decide_eq_true hadmits.2
          rw [hid] at hallows
          cases hallows
      | delta slot =>
          have hallows := of_decide_eq_true hadmits.2
          rw [hid] at hallows
          cases hallows
  | some source =>
      cases source with
      | base slot =>
          have hcurrent := h.base_source id slot hid
          obtain ⟨-, node, hnode, -⟩ := HnswBase.current_id_iff.1 hcurrent
          have hvector : index.base.vectorAt slot = some node.vector :=
            congrArg (Option.map _) hnode
          show match index.base.vectorAt slot with
            | none => _
            | some vector => _
          rw [hvector]
          refine ⟨.base slot, fun other => ⟨fun hadmits => ?_, ?_⟩, hvector⟩
          · cases other with
            | base other =>
                have hallows := of_decide_eq_true hadmits.2
                rw [hid] at hallows
                rw [HnswSource.base.inj (Option.some.inj hallows)]
            | delta other =>
                have hallows := of_decide_eq_true hadmits.2
                rw [hid] at hallows
                cases hallows
          · rintro rfl
            exact ⟨hcurrent, decide_eq_true hid⟩
      | delta =>
          obtain ⟨vector, hvector⟩ := Option.isSome_iff_exists.1 ((h.delta_source id).1 hid)
          obtain ⟨slot, hholds⟩ := (Index.HnswIndex.vector_iff hpublished).1 hvector
          obtain ⟨hcurrent, hat⟩ := HnswBase.owned_holds.1 hholds
          show match index.delta.graph.slotsOf.vector? id with
            | none => _
            | some vector => _
          rw [hvector]
          refine ⟨.delta slot, fun other => ⟨fun hadmits => ?_, ?_⟩, hat⟩
          · cases other with
            | base other =>
                have hallows := of_decide_eq_true hadmits.2
                rw [hid] at hallows
                cases hallows
            | delta other =>
                obtain ⟨vector', hother⟩ := HnswBase.owned_holds_of hadmits.1
                rw [Index.HnswIndex.holds_unique hpublished hother hholds]
          · rintro rfl
            exact ⟨hcurrent, decide_eq_true hid⟩

/-- The counters are the recounts of the slots. -/
theorem counts_of_coherent (h : index.Coherent dispatcher) :
    index.sources.baseCount = (range index.base.slotCount).countP index.isBound ∧
      index.baseStaleCount = (range index.base.slotCount).countP index.isMasked ∧
      index.sources.deltaCount = index.delta.graph.nodes.countP (·.current) := by
  have hpublished := h.delta_inv.sound.published
  -- The points bound to the base are those of the bound slots.
  have hbound : tally isBase index.sources.sources =
      (range index.base.slotCount).countP index.isBound := by
    have hcount : (range index.base.slotCount).countP index.isBound =
        ((range index.base.slotCount).filterMap fun slot => (index.base.currentId slot).filter
          fun id => index.allowsItem false slot id).length := by
      rw [length_filterMap_eq_countP]
      refine countP_congr fun slot _ => ?_
      rw [Option.isSome_filter]
      exact Iff.rfl
    rw [hcount]
    refine tally_eq_length ?_ fun id => ?_
    · refine List.Nodup.filterMap (fun slot slot' id hslot hslot' => ?_) nodup_range
      have hallows := of_decide_eq_true (Option.filter_eq_some_iff.1 hslot).2
      rw [of_decide_eq_true (Option.filter_eq_some_iff.1 hslot').2] at hallows
      exact (HnswSource.base.inj (Option.some.inj hallows)).symm
    · rw [mem_filterMap]
      constructor
      · rintro ⟨slot, -, hslot⟩
        exact ⟨_, of_decide_eq_true (Option.filter_eq_some_iff.1 hslot).2, rfl⟩
      · rintro ⟨source, hsource, hbase⟩
        cases source with
        | delta => cases hbase
        | base slot =>
            have hcurrent := h.base_source id slot hsource
            exact ⟨slot, mem_range.2 (HnswBase.lt_of_current_id hcurrent),
              Option.filter_eq_some_iff.2 ⟨hcurrent, decide_eq_true hsource⟩⟩
  -- A current base slot is bound or masked.
  have hsplit : index.base.currentIds.length =
      (range index.base.slotCount).countP index.isBound +
        (range index.base.slotCount).countP index.isMasked := by
    unfold HnswBase.currentIds
    rw [length_filterMap_eq_countP]
    exact count_any_split index.base.currentId (index.allowsItem false) _
  have hdelta : tally isDelta index.sources.sources =
      index.delta.graph.nodes.countP (·.current) := by
    have howned : (HnswBase.owned index.delta).currentIds =
        (index.delta.graph.nodes.filter (·.current)).map (·.id) := HnswBase.current_ids_eq rfl
    rw [countP_eq_length_filter, ← length_map (f := (·.id)), ← howned]
    refine tally_eq_length (HnswBase.owned_unique hpublished) fun id => ?_
    have hdelta := h.delta_source id
    unfold CurrentSources.sourceFor at hdelta
    rw [HnswBase.mem_current_ids]
    constructor
    · rintro ⟨slot, hslot⟩
      obtain ⟨vector, hholds⟩ := HnswBase.owned_holds_of hslot
      refine ⟨.delta, hdelta.2 ?_, rfl⟩
      rw [(Index.HnswIndex.vector_iff hpublished).2 ⟨slot, hholds⟩]
      rfl
    · rintro ⟨source, hsource, his⟩
      cases source with
      | base slot => cases his
      | delta =>
          obtain ⟨vector, hvector⟩ := Option.isSome_iff_exists.1 (hdelta.1 hsource)
          obtain ⟨slot, hholds⟩ := (Index.HnswIndex.vector_iff hpublished).1 hvector
          exact ⟨slot, (HnswBase.owned_holds.1 hholds).1⟩
  have hstale := h.stale
  refine ⟨h.counted.base.trans hbound, ?_, h.counted.delta.trans hdelta⟩
  rw [h.counted.base, hbound] at hstale
  omega

end SegmentedHnsw

/-! ## Runs -/

/-- A call on the segments. -/
inductive SegmentCall where
  | upsert (id : Int64) (values : List F32)
  | delete (id : Int64)
  | promote

section Runs

variable (dispatcher : MetricDispatcher V)

/-- The segments over a base: a new collection, `from_owned` or `from_mapped`. -/
def openSegments (config : HnswCollectionConfig) (base : HnswBase V) :
    Except String (SegmentedHnsw V) :=
  match base with
  | .none => pure (.new config)
  | .owned index => SegmentedHnsw.fromOwned dispatcher config index
  | .mapped view => SegmentedHnsw.fromMapped config view

/-- Perform a call; the answer of `delete` is dropped. -/
def SegmentCall.perform : SegmentCall → Exec (SegmentedHnsw V) String Unit
  | .upsert id values => SegmentedHnsw.upsert dispatcher id values
  | .delete id => do
      let _ ← SegmentedHnsw.delete dispatcher id
  | .promote => .attempt fun index => (·, ()) <$> index.promoteDeltaBase dispatcher

/-- Perform calls in order. -/
def runSegments (calls : List SegmentCall) : Exec (SegmentedHnsw V) String Unit :=
  forEach calls (SegmentCall.perform dispatcher)

/-- The prepared vectors that a call leaves. -/
def SegmentCall.apply (vectors : Int64 → Option V) : SegmentCall → Int64 → Option V
  | .upsert id values =>
      match dispatcher.prepare values with
      | .ok vector => Function.update vectors id (some vector)
      | .error _ => vectors
  | .delete id => Function.update vectors id none
  | .promote => vectors

/-- The prepared vectors that calls leave. -/
def segmentVectors (base : HnswBase V) (calls : List SegmentCall) : Int64 → Option V :=
  calls.foldl (SegmentCall.apply dispatcher) base.vector?

end Runs

variable {dispatcher : MetricDispatcher V} {index next : SegmentedHnsw V}

theorem open_segments_ok {base : HnswBase V} (hidentity : dispatcher.identity = config.identity)
    (hbase : base.ValidFor dispatcher config)
    (hopen : openSegments dispatcher config base = .ok index) :
    index.Coherent dispatcher ∧ index.config = config ∧ index.vector? = base.vector? := by
  obtain ⟨hsound, hconfig⟩ := HnswBase.valid_for_sound hbase
  obtain ⟨found, hadopt, hspec⟩ := SegmentedHnsw.adopt_returns hidentity hsound hconfig
  have hfound : SegmentedHnsw.adopt config base = .ok index := by
    cases base with
    | none => exact hopen
    | owned base =>
        obtain ⟨_, -, hrest⟩ := bind_ok.1 hopen
        exact hrest
    | mapped view =>
        obtain ⟨_, -, hrest⟩ := bind_ok.1 hopen
        exact hrest
  rw [hadopt] at hfound
  obtain rfl := Except.ok.inj hfound
  exact hspec

/-- One call that returns keeps the segments coherent and gives the vectors that it should. -/
theorem segment_call_ok (hvalid : dispatcher.Valid) (h : index.Coherent dispatcher)
    {call : SegmentCall} {u : Unit} (hrun : call.perform dispatcher index = (.ok u, next)) :
    next.Coherent dispatcher ∧ next.config = index.config ∧
      next.vector? = call.apply dispatcher index.vector? := by
  cases call with
  | upsert id values =>
      obtain ⟨vector, hprepare, hstep⟩ := SegmentedHnsw.upsert_ok h hvalid hrun
      refine ⟨SegmentedHnsw.rebinds_coherent h hstep, hstep.config, ?_⟩
      show _ = match dispatcher.prepare values with
        | .ok vector => Function.update index.vector? id (some vector)
        | .error _ => index.vector?
      rw [SegmentedHnsw.rebinds_vector hstep, hprepare]
  | delete id =>
      obtain ⟨deleted, last, hdelete, hrest⟩ := bind_ok_iff.1 hrun
      obtain ⟨-, rfl⟩ := pure_ok_iff.1 hrest
      have hstep := SegmentedHnsw.delete_ok h hdelete
      exact ⟨SegmentedHnsw.rebinds_coherent h hstep, hstep.config,
        SegmentedHnsw.rebinds_vector hstep⟩
  | promote =>
      have hattempt : attempt (fun index : SegmentedHnsw V =>
          (·, ()) <$> index.promoteDeltaBase dispatcher) index = (.ok u, next) := hrun
      have hmap : (·, ()) <$> index.promoteDeltaBase dispatcher = .ok (next, u) :=
        attempt_ok_iff.1 hattempt
      obtain ⟨found, hpromote, hpair⟩ := map_ok.1 hmap
      obtain rfl : found = next := congrArg Prod.fst hpair
      exact SegmentedHnsw.promote_ok h hpromote

theorem run_segments_ok (hvalid : dispatcher.Valid) {calls : List SegmentCall} {u : Unit}
    (h : index.Coherent dispatcher) (hrun : runSegments dispatcher calls index = (.ok u, next)) :
    next.Coherent dispatcher ∧ next.config = index.config ∧
      next.vector? = calls.foldl (SegmentCall.apply dispatcher) index.vector? := by
  induction calls generalizing index with
  | nil =>
      obtain ⟨-, rfl⟩ := pure_ok_iff.1 hrun
      exact ⟨h, rfl, rfl⟩
  | cons call calls ih =>
      obtain ⟨_, middle, hstep, hrest⟩ := bind_ok_iff.1 hrun
      obtain ⟨hmiddle, hconfig, hvector⟩ := segment_call_ok hvalid h hstep
      obtain ⟨hnext, hconfig', hlast⟩ := ih hmiddle hrest
      exact ⟨hnext, hconfig'.trans hconfig, by rw [hlast, hvector, foldl_cons]⟩

/-- The segments of a rebuild, without edges and levels, bind the vectors that these do. -/
structure SegmentedHnsw.Mirrors (index : SegmentedHnsw V) (mirror : Index.SegmentedHnsw V) :
    Prop where
  wf : mirror.WellFormed
  vector : mirror.vector? = index.vector?

/-- A call on the segments of a rebuild. A promotion moves no vector. -/
def SegmentCall.mirror (prepare : List F32 → Except String V) (mirror : Index.SegmentedHnsw V) :
    SegmentCall → Except String (Index.SegmentedHnsw V)
  | .upsert id values => mirror.upsert prepare id values
  | .delete id => pure (mirror.delete id).1
  | .promote => pure mirror

theorem open_segments_mirrored {base : HnswIndex V}
    (hidentity : dispatcher.identity = config.identity)
    (hbase : (HnswBase.owned base).ValidFor dispatcher config)
    (hopen : openSegments dispatcher config (.owned base) = .ok index) :
    index.Mirrors (.fromOwned base.graph.slotsOf) := by
  obtain ⟨-, -, hvector⟩ := open_segments_ok hidentity hbase hopen
  have hwf := HnswBase.owned_published hbase.2.1
  obtain ⟨hmirror, hsame⟩ := Index.SegmentedHnsw.from_owned_spec hwf
  refine ⟨hmirror, ?_⟩
  rw [hsame, hvector, HnswBase.owned_vector hwf]

theorem segment_call_mirrored (hvalid : dispatcher.Valid) (h : index.Coherent dispatcher)
    {mirror : Index.SegmentedHnsw V} (hmirror : index.Mirrors mirror) {call : SegmentCall}
    {u : Unit} (hrun : call.perform dispatcher index = (.ok u, next)) :
    ∃ last, call.mirror dispatcher.prepare mirror = .ok last ∧ next.Mirrors last := by
  cases call with
  | upsert id values =>
      obtain ⟨vector, hprepare, hstep⟩ := SegmentedHnsw.upsert_ok h hvalid hrun
      obtain ⟨delta, hdelta⟩ := Index.HnswIndex.upsert_returns hmirror.wf.delta_wf hprepare
      have hlast : mirror.upsert dispatcher.prepare id values = .ok
          { mirror with delta := delta, sources := mirror.sources.insert id .delta } :=
        bind_ok.2 ⟨delta, hdelta, rfl⟩
      obtain ⟨hwf, found, hfound, hvector⟩ := Index.SegmentedHnsw.upsert_ok hmirror.wf hlast
      obtain rfl := Except.ok.inj (hprepare.symm.trans hfound)
      refine ⟨_, hlast, hwf, ?_⟩
      rw [hvector, hmirror.vector, SegmentedHnsw.rebinds_vector hstep]
  | delete id =>
      obtain ⟨deleted, last, hdelete, hrest⟩ := bind_ok_iff.1 hrun
      obtain ⟨-, rfl⟩ := pure_ok_iff.1 hrest
      obtain ⟨hwf, hvector⟩ := Index.SegmentedHnsw.delete_spec hmirror.wf id
      refine ⟨_, rfl, hwf, ?_⟩
      rw [hvector, hmirror.vector,
        SegmentedHnsw.rebinds_vector (SegmentedHnsw.delete_ok h hdelete)]
  | promote =>
      obtain ⟨-, -, hvector⟩ := segment_call_ok hvalid h hrun
      exact ⟨mirror, rfl, hmirror.wf, hmirror.vector.trans hvector.symm⟩

/-- A run that returns is one of the segments of a rebuild: they take the same calls and bind the
same vectors. -/
theorem run_segments_mirrored (hvalid : dispatcher.Valid) {calls : List SegmentCall} {u : Unit}
    (h : index.Coherent dispatcher) {mirror : Index.SegmentedHnsw V}
    (hmirror : index.Mirrors mirror)
    (hrun : runSegments dispatcher calls index = (.ok u, next)) :
    ∃ last, calls.foldlM (SegmentCall.mirror dispatcher.prepare) mirror = .ok last ∧
      next.Mirrors last := by
  induction calls generalizing index mirror with
  | nil =>
      obtain ⟨-, rfl⟩ := pure_ok_iff.1 hrun
      exact ⟨mirror, rfl, hmirror⟩
  | cons call calls ih =>
      obtain ⟨_, middle, hstep, hrest⟩ := bind_ok_iff.1 hrun
      obtain ⟨hmiddle, -⟩ := segment_call_ok hvalid h hstep
      obtain ⟨found, hcall, hfound⟩ := segment_call_mirrored hvalid h hmirror hstep
      obtain ⟨last, hlast, hmirrors⟩ := ih hmiddle hfound hrest
      exact ⟨last, bind_ok.2 ⟨found, hcall, hlast⟩, hmirrors⟩

/-- After every run in which no call raises: each point of the map that the calls leave has one
place, which holds its vector, and no other point has one; the counters are the recounts of the
slots; and `validate_overlay` accepts the segments exactly when the owned levels of the delta can
be numbered and its vectors fit one tape. -/
theorem segments_place_every_point (config : HnswCollectionConfig)
    (dispatcher : MetricDispatcher V) (hvalid : dispatcher.Valid)
    (hidentity : dispatcher.identity = config.identity) (base : HnswBase V)
    (hbase : base.ValidFor dispatcher config) (first index : SegmentedHnsw V)
    (hopen : openSegments dispatcher config base = .ok first) (calls : List SegmentCall)
    (hrun : runSegments dispatcher calls first = (.ok (), index)) :
    (∀ id vector, segmentVectors dispatcher base calls id = some vector →
      ∃ place, (∀ other, index.Admits id other ↔ other = place) ∧
        index.vectorIn place = some vector) ∧
    (∀ id, segmentVectors dispatcher base calls id = none → ∀ place, ¬ index.Admits id place) ∧
    index.sources.baseCount = (range index.base.slotCount).countP index.isBound ∧
    index.baseStaleCount = (range index.base.slotCount).countP index.isMasked ∧
    index.sources.deltaCount = index.delta.graph.nodes.countP (·.current) ∧
    (index.validateOverlay dispatcher = .ok () ↔
      index.delta.graph.ownedLevels.length ≤ emptyNeighbor ∧
        (0 < index.delta.graph.slotCount →
          config.identity.dimension ≤ intMax / index.delta.graph.slotCount)) := by
  obtain ⟨hfirst, hconfig, hvector⟩ := open_segments_ok hidentity hbase hopen
  obtain ⟨hlast, hconfig', hvector'⟩ := run_segments_ok hvalid hfirst hrun
  have hvectors : index.vector? = segmentVectors dispatcher base calls := by
    rw [hvector', hvector]
    rfl
  obtain ⟨hbound, hmasked, hdelta⟩ := SegmentedHnsw.counts_of_coherent hlast
  refine ⟨fun id vector hid => ?_, fun id hid => ?_, hbound, hmasked, hdelta, ?_⟩
  · have hplaces := SegmentedHnsw.places_of_coherent hlast id
    rw [hvectors, hid] at hplaces
    exact hplaces
  · have hplaces := SegmentedHnsw.places_of_coherent hlast id
    rw [hvectors, hid] at hplaces
    exact hplaces
  · have hdeltaConfig : index.delta.config = config.toHnswConfig := by
      rw [hlast.delta_config, hconfig', hconfig]
    rw [SegmentedHnsw.validate_overlay_iff hlast, HnswIndex.validate_structure_iff hlast.delta_inv
      (by rw [hdeltaConfig]; exact hidentity), hdeltaConfig]

theorem line_dimension_fits : 0 < 1 ∧ 1 ≤ emptyNeighbor := by decide

theorem line_scalar_fits :
    ScalarKind.f32 = .i8 → MetricKind.l2 ≠ .l2 ∧ 1 ≤ i8MaxSafeDimension := by decide

/-- A collection over lines, with two neighbours for each slot and level. -/
def lineCollection : HnswCollectionConfig where
  identity := ⟨1, .l2, .f32⟩
  m := 2
  m0 := 4
  dimension_fits := line_dimension_fits
  m_fits := by decide
  m0_fits := by decide
  i8_fits := line_scalar_fits
  efConstruction := 128
  maxEfSearch := 512
  maxLevel := 4
  levelSeed := 0xA5A5A5A5A5A5A5A5
  levelMultiplier := 2
  m_small := by decide
  m0_small := by decide
  deltaMaxPoints := 8
  m_least := by decide
  m_le := by decide
  construction_fits := by decide
  search_pos := by decide
  max_level_le := by decide
  multiplier_eq := rfl
  delta_max_pos := by decide

/-- An index with a slot for point 1 and one for point 2. -/
def lineBase : HnswIndex Nat :=
  (runCalls lineDispatcher [.upsert 1 [⟨0⟩], .upsert 2 [⟨0⟩]]
    (.create lineCollection.toHnswConfig)).2

/-- Both points leave the base, one of them for good. -/
def lineSegmentCalls : List SegmentCall :=
  [.upsert 1 [⟨0⟩, ⟨0⟩], .delete 2, .upsert 2 [⟨0⟩], .upsert 3 [⟨0⟩], .delete 1]

theorem segments_place_every_point_line : ∃ first index,
    openSegments lineDispatcher lineCollection (.owned lineBase) = .ok first ∧
      runSegments lineDispatcher lineSegmentCalls first = (.ok (), index) ∧
      (∀ place, ¬ index.Admits 1 place) ∧ index.validateOverlay lineDispatcher = .ok () := by
  have hbase : (HnswBase.owned lineBase).ValidFor lineDispatcher lineCollection :=
    ⟨rfl, by decide +kernel, by decide +kernel⟩
  have hcomputed : (openSegments lineDispatcher lineCollection (.owned lineBase)).toOption.map
      (fun first => ((runSegments lineDispatcher lineSegmentCalls first).1,
        (runSegments lineDispatcher lineSegmentCalls first).2.delta.graph.ownedLevels.length,
        (runSegments lineDispatcher lineSegmentCalls first).2.delta.graph.slotCount)) =
      some (.ok (), 7, 3) := by
    decide +kernel
  cases hopen : openSegments lineDispatcher lineCollection (.owned lineBase) with
  | error e =>
      rw [hopen] at hcomputed
      cases hcomputed
  | ok first =>
      rw [hopen] at hcomputed
      rcases hrun : runSegments lineDispatcher lineSegmentCalls first with ⟨result, index⟩
      have hpair := Option.some.inj hcomputed
      simp only [hrun, Prod.mk.injEq] at hpair
      obtain ⟨rfl, hlevels, hslots⟩ := hpair
      obtain ⟨-, hnone, -, -, -, hvalid⟩ := segments_place_every_point lineCollection lineDispatcher
        line_dispatcher_valid rfl (.owned lineBase) hbase first index hopen lineSegmentCalls hrun
      refine ⟨first, index, rfl, hrun, hnone 1 rfl, hvalid.2 ⟨?_, fun _ => ?_⟩⟩
      · rw [hlevels]
        decide
      · rw [hslots]
        decide

/-! ## Outgrowing the audit -/

namespace SegmentedHnsw

/-- An upsert that the delta performs returns. -/
theorem upsert_returns (h : index.Coherent dispatcher) {id : Int64} {values : List F32}
    {delta : HnswIndex V}
    (hinsert : HnswIndex.upsert dispatcher id values index.delta = (.ok (), delta)) :
    ∃ next, upsert dispatcher id values index = (.ok (), next) ∧ next.delta = delta ∧
      next.config = index.config := by
  obtain ⟨sources, hreplace, -⟩ := CurrentSources.replace_returns h.counted id .delta
  obtain ⟨staled, hstaled⟩ : ∃ staled : SegmentedHnsw V, staled =
      if (index.sources.sourceFor id).any isBase then
        ({ index with delta := delta } : SegmentedHnsw V).staleBase
      else { index with delta := delta } := ⟨_, rfl⟩
  have hsame : staled.sources = index.sources ∧ staled.delta = delta ∧
      staled.config = index.config := by
    rw [hstaled]
    split
    · exact ⟨rfl, rfl, rfl⟩
    · exact ⟨rfl, rfl, rfl⟩
  have hset : setDelta id staled = (.ok (), { staled with sources := sources }) := by
    refine attempt_ok_iff.2 (bind_ok.2 ⟨sources, ?_, rfl⟩)
    rw [hsame.1]
    exact hreplace
  have hrecord : ∀ changed : SegmentedHnsw V, changed.recordMutation.delta = changed.delta ∧
      changed.recordMutation.config = changed.config := by
    intro changed
    unfold recordMutation
    split
    · exact ⟨rfl, rfl⟩
    · exact ⟨rfl, rfl⟩
  obtain ⟨hdelta, hconfig⟩ := hrecord { staled with sources := sources }
  refine ⟨_, ?_, hdelta.trans hsame.2.1, hconfig.trans hsame.2.2⟩
  unfold upsert
  rw [read_bind]
  refine bind_ok_iff.2 ⟨(), index, lift_ok_iff.2 ⟨validate_identity_of h, rfl⟩, ?_⟩
  refine bind_ok_iff.2
    ⟨(), { index with delta := delta }, zoom_ok_iff.2 ⟨delta, hinsert, rfl⟩, ?_⟩
  refine bind_ok_iff.2 ⟨(), staled, update_ok_iff.2 hstaled.symm, ?_⟩
  exact bind_ok_iff.2 ⟨(), _, hset, update_ok_iff.2 rfl⟩

/-- A run that replaces one point of the delta over and over returns as long as there are
slots. -/
theorem run_alone_returns (hvalid : dispatcher.Valid) {id : Int64} {values : List F32}
    {prepared : V} (hprepare : dispatcher.prepare values = .ok prepared)
    (hquery : dispatcher.validatePrepared prepared = .ok ())
    (hstorable : dispatcher.storable prepared = .ok ()) (rest : Nat) {count : Nat}
    (hef : 0 < index.config.efConstruction) (h : index.Coherent dispatcher)
    (halone : Alone dispatcher id count index.delta) (hroom : count + rest ≤ emptyNeighbor) :
    ∃ next, runSegments dispatcher (replicate rest (.upsert id values)) index =
      (.ok (), next) ∧ next.config = index.config ∧ next.Coherent dispatcher ∧
        Alone dispatcher id (count + rest) next.delta := by
  induction rest generalizing index count with
  | zero => exact ⟨index, rfl, rfl, h, halone⟩
  | succ rest ih =>
      have hslots := alone_slot_count halone
      have hconfig := h.delta_config
      have hmultiplier : 2 ≤ index.delta.config.levelMultiplier := by
        rw [hconfig, index.config.multiplier_eq]
        exact index.config.m_least
      have hlevels : index.delta.config.maxLevel ≤ levelLimit := by
        rw [hconfig]
        exact index.config.max_level_le.trans (by decide)
      obtain ⟨delta, hinsert⟩ := HnswIndex.upsert_returns id hvalid h.delta_inv
        (by rw [hconfig]; exact h.identity) hprepare hquery hstorable (by rw [hconfig]; exact hef)
        hmultiplier hlevels (by omega)
      obtain ⟨hinv, -, hupsert⟩ := HnswIndex.upsert_ok h.delta_inv hvalid hinsert
      obtain ⟨middle, hstep, hdelta, hmiddleConfig⟩ := upsert_returns h hinsert
      obtain ⟨hmiddle, -⟩ := segment_call_ok hvalid h (show (SegmentCall.upsert id values).perform
        dispatcher index = (.ok (), middle) from hstep)
      have hmiddleAlone : Alone dispatcher id (count + 1) middle.delta := by
        rw [hdelta]
        refine ⟨hinv, ?_⟩
        rw [slots_upsert_ids hupsert, halone.ids, replicate_succ']
      obtain ⟨next, hrun, hconfig', hnext, hlast⟩ := ih (by rw [hmiddleConfig]; exact hef) hmiddle
        hmiddleAlone (by omega)
      refine ⟨next, bind_ok_iff.2 ⟨(), middle, hstep, hrun⟩, hconfig'.trans hmiddleConfig,
        hnext, ?_⟩
      rw [show count + (rest + 1) = count + 1 + rest by omega]
      exact hlast

end SegmentedHnsw

/-- Replacing a point of level 3 until the delta has `2 ^ 30` slots makes `2 ^ 32` owned levels. -/
theorem segments_outgrow_audit : ∃ first index : SegmentedHnsw Nat,
    openSegments lineDispatcher lineCollection .none = .ok first ∧
      runSegments lineDispatcher (replicate (2 ^ 30) (.upsert 2 [⟨0⟩])) first =
        (.ok (), index) ∧ index.validateOverlay lineDispatcher ≠ .ok () := by
  have hlevel : HnswIndex.levelOf lineCollection.toHnswConfig 2 = .ok 3 := by decide +kernel
  have hopen : openSegments lineDispatcher lineCollection .none =
      .ok (.new lineCollection : SegmentedHnsw Nat) := rfl
  have hbase : (HnswBase.none : HnswBase Nat).ValidFor lineDispatcher lineCollection := True.intro
  obtain ⟨hcoherent, -⟩ := open_segments_ok rfl hbase hopen
  have hempty : Alone lineDispatcher 2 0
      (SegmentedHnsw.new lineCollection : SegmentedHnsw Nat).delta := ⟨HnswIndex.create_inv _, rfl⟩
  have hprepare : lineDispatcher.prepare [⟨0⟩] = .ok 1 := rfl
  have hroom : 0 + 2 ^ 30 ≤ emptyNeighbor := by
    unfold emptyNeighbor
    omega
  obtain ⟨index, hrun, hlast, hindex, halone⟩ := SegmentedHnsw.run_alone_returns
    line_dispatcher_valid hprepare rfl rfl (2 ^ 30) (by decide) hcoherent hempty hroom
  refine ⟨_, index, hopen, hrun, fun haccepted => ?_⟩
  have hdelta : index.delta.config = lineCollection.toHnswConfig := by
    rw [hindex.delta_config, hlast]
    rfl
  have hvalid := (SegmentedHnsw.validate_overlay_iff hindex).1 haccepted
  have hcells := ((HnswIndex.validate_structure_iff hindex.delta_inv
    (by rw [hdelta]; rfl)).1 hvalid).1
  rw [alone_owned_levels halone (by rw [hdelta]; exact hlevel)] at hcells
  unfold emptyNeighbor at hcells
  omega

end Akasha.Hnsw

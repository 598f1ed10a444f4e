import Akasha.Index.HnswHeap
import Akasha.Index.HnswSearch
import Mathlib.Data.Finset.Card
import Mathlib.Data.Finset.Range

/-!
# What a search returns

On a graph whose edges go both ways a traversal never meets a slot that does not own the level it
runs on, so that a search from an owned entry point raises nothing. `Found` says what it returns:
items of different slots, every one current and admitted, with the distance of its stored vector.
Which items those are depends on the graph; that the loops end by themselves, and not because a
model's bound is reached, is `greedy_loop_stable`.
-/

namespace Akasha.Hnsw

open Lib List

variable {V : Type}

/-- The items of a layer search that are results. -/
def HnswSearchScratch.admitted (scratch : HnswSearchScratch) (admission : HnswResultAdmission) :
    List HnswHeapItem :=
  if admission.allowAll then scratch.results else scratch.filteredResults

namespace HnswStorage

/-- What a search asks of a graph and of a prepared query. -/
structure Searchable (graph : HnswStorage V) (dispatcher : MetricDispatcher V) (query : V) :
    Prop where
  valid : graph.valid = true
  dimension : dispatcher.identity.dimension = graph.config.identity.dimension
  prepared : dispatcher.validatePrepared query = .ok ()
  wellLinked : graph.WellLinked

/-- What the search of one level asks: the edges of the level lead to slots that own it. -/
structure LayerSearchable (graph : HnswStorage V) (dispatcher : MetricDispatcher V) (query : V)
    (level : Nat) : Prop where
  valid : graph.valid = true
  dimension : dispatcher.identity.dimension = graph.config.identity.dimension
  prepared : dispatcher.validatePrepared query = .ok ()
  closed : ∀ slot neighbor, neighbor ∈ graph.adjacency level slot → graph.Owns neighbor level

/-- An admission that answers for every slot of a graph. -/
structure Answers (graph : HnswStorage V) (admission : HnswResultAdmission) : Prop where
  validate : admission.validate graph.slotCount = .ok ()
  allows : ∀ slot node, graph.nodes[slot]? = some node →
    ∃ allowed, admission.allowsItem slot node.id = .ok allowed

/-- An item that a search may return: a current and admitted slot that owns the level, with its
point and its distance. -/
structure Eligible (graph : HnswStorage V) (dispatcher : MetricDispatcher V) (query : V)
    (admission : HnswResultAdmission) (level : Nat) (item : HnswHeapItem) : Prop where
  owns : graph.Owns item.slot level
  item_at : graph.itemAt dispatcher query item.slot = .ok item
  current : graph.isCurrent item.slot = true
  allowed : admission.allowsItem item.slot item.id = .ok true

/-- What a search returns. -/
structure Found (graph : HnswStorage V) (dispatcher : MetricDispatcher V) (query : V)
    (admission : HnswResultAdmission) (level : Nat) (items : List HnswHeapItem) : Prop where
  slots_nodup : (items.map (·.slot)).Nodup
  eligible : ∀ item ∈ items, graph.Eligible dispatcher query admission level item

variable {graph : HnswStorage V} {dispatcher : MetricDispatcher V} {query : V}
  {admission : HnswResultAdmission} {level slot : Nat}

theorem Searchable.layer (h : graph.Searchable dispatcher query) (level : Nat) :
    graph.LayerSearchable dispatcher query level :=
  ⟨h.valid, h.dimension, h.prepared, fun _ _ hneighbor => owns_target h.wellLinked hneighbor⟩

/-! ## Reading -/

theorem item_at_of_owns (dispatcher : MetricDispatcher V) (query : V)
    (h : graph.Owns slot level) : ∃ item,
    graph.itemAt dispatcher query slot = .ok item ∧ item.slot = slot := by
  obtain ⟨node, hnode, -⟩ := h
  refine ⟨⟨node.id, slot, dispatcher.distance query node.vector⟩, ?_, rfl⟩
  unfold itemAt
  simp only [bind_ok, pure_ok, node_ok]
  exact ⟨node, hnode, rfl⟩

variable {item : HnswHeapItem}

theorem item_at_slot (h : graph.itemAt dispatcher query slot = .ok item) :
    item.slot = slot := by
  unfold itemAt at h
  simp only [bind_ok, pure_ok] at h
  obtain ⟨node, -, rfl⟩ := h
  rfl

theorem check_target_of_owns (h : graph.Owns slot level) : graph.checkTarget level slot = .ok () := by
  obtain ⟨node, hnode, hlevel⟩ := h
  unfold checkTarget HnswStorage.level
  simp only [bind_ok, pure_ok, node_ok, require_ok]
  exact ⟨node.level, ⟨node, hnode, rfl⟩, hlevel⟩

theorem owns_of_le {upper : Nat} (h : graph.Owns slot upper) (hle : level ≤ upper) :
    graph.Owns slot level := by
  obtain ⟨node, hnode, hlevel⟩ := h
  exact ⟨node, hnode, hle.trans hlevel⟩

theorem validate_search_boundary_of (h : graph.LayerSearchable dispatcher query level)
    (hentry : graph.Owns slot level) :
    graph.validateSearchBoundary dispatcher query slot level = .ok () := by
  have hlt := lt_of_owns hentry
  have hcount : 0 < graph.slotCount := by omega
  obtain ⟨node, hnode, hlevel⟩ := hentry
  unfold validateSearchBoundary HnswStorage.level
  simp only [bind_ok, exists_unit, pure_ok, node_ok, require_ok, check_each_ok,
    neighbors_ok]
  refine ⟨h.valid, hcount, h.dimension, h.prepared, hlt, node.level, ⟨node, hnode, rfl⟩, hlevel,
    graph.adjacency level slot, ⟨⟨node, hnode, hlevel⟩, rfl⟩, fun neighbor hneighbor => ?_⟩
  exact check_target_of_owns (h.closed slot neighbor hneighbor)

/-! ## Greedy descent -/

/-- The best of an item and some neighbours is one of them. -/
theorem greedy_best_returns {best : HnswHeapItem} {edges : List Nat}
    (hbest : graph.Owns best.slot level ∧ graph.itemAt dispatcher query best.slot = .ok best)
    (hedges : ∀ neighbor ∈ edges, graph.Owns neighbor level) :
    ∃ found, graph.greedyBest dispatcher query level best edges = .ok found ∧
      graph.Owns found.slot level ∧ graph.itemAt dispatcher query found.slot = .ok found := by
  induction edges generalizing best with
  | nil => exact ⟨best, rfl, hbest⟩
  | cons neighbor rest ih =>
      have howns := hedges neighbor mem_cons_self
      obtain ⟨item, hitem, hslot⟩ := item_at_of_owns dispatcher query howns
      have hnext : graph.Owns (if isBetter item best then item else best).slot level ∧
          graph.itemAt dispatcher query (if isBetter item best then item else best).slot =
            .ok (if isBetter item best then item else best) := by
        split
        · rw [hslot]
          exact ⟨howns, hitem⟩
        · exact hbest
      obtain ⟨found, hfound, hspec⟩ := ih hnext fun other hother =>
        hedges other (mem_cons_of_mem _ hother)
      refine ⟨found, ?_, hspec⟩
      simp only [greedyBest, bind_ok, exists_unit]
      exact ⟨check_target_of_owns howns, item, hitem, hfound⟩

variable {current : HnswHeapItem}

theorem greedy_loop_step (h : graph.LayerSearchable dispatcher query level)
    (hcurrent : graph.Owns current.slot level ∧
      graph.itemAt dispatcher query current.slot = .ok current) :
    ∃ best, graph.greedyBest dispatcher query level current (graph.adjacency level current.slot) =
        .ok best ∧
      graph.Owns best.slot level ∧ graph.itemAt dispatcher query best.slot = .ok best ∧
      ∀ fuel, graph.greedyLoop dispatcher query level (fuel + 1) current =
        if isBetter best current then graph.greedyLoop dispatcher query level fuel best
        else .ok current := by
  obtain ⟨best, hbest, howns, hitem⟩ := greedy_best_returns hcurrent
    fun neighbor hneighbor => h.closed current.slot neighbor hneighbor
  have hedges : graph.neighbors current.slot level = .ok (graph.adjacency level current.slot) :=
    neighbors_ok.2 ⟨hcurrent.1, rfl⟩
  refine ⟨best, hbest, howns, hitem, fun fuel => ?_⟩
  rw [greedyLoop, hedges]
  show (graph.greedyBest dispatcher query level current _ >>= _) = _
  rw [hbest]
  rfl

theorem greedy_loop_returns (h : graph.LayerSearchable dispatcher query level) (fuel : Nat)
    (hcurrent : graph.Owns current.slot level ∧
      graph.itemAt dispatcher query current.slot = .ok current) :
    ∃ found, graph.greedyLoop dispatcher query level fuel current = .ok found ∧
      graph.Owns found.slot level := by
  induction fuel generalizing current with
  | zero => exact ⟨current, rfl, hcurrent.1⟩
  | succ fuel ih =>
      obtain ⟨best, -, howns, hitem, hstep⟩ := greedy_loop_step h hcurrent
      rw [hstep]
      by_cases hbetter : isBetter best current = true
      · rw [if_pos hbetter]
        exact ih ⟨howns, hitem⟩
      · rw [if_neg hbetter]
        exact ⟨current, rfl, hcurrent.1⟩

/-- The number of slots that are better than an item. -/
def betterSlots (graph : HnswStorage V) (dispatcher : MetricDispatcher V) (query : V)
    (current : HnswHeapItem) : Nat :=
  ((Finset.range graph.slotCount).filter fun slot =>
    (graph.itemAt dispatcher query slot).toOption.any (isBetter · current)).card

theorem better_slots_lt {best current : HnswHeapItem} (hlt : best.slot < graph.slotCount)
    (hitem : graph.itemAt dispatcher query best.slot = .ok best)
    (hbetter : isBetter best current = true) :
    graph.betterSlots dispatcher query best < graph.betterSlots dispatcher query current := by
  rw [is_better_iff] at hbetter
  refine Finset.card_lt_card (Finset.ssubset_iff_of_subset ?_ |>.2 ⟨best.slot, ?_, ?_⟩)
  · intro slot hslot
    rw [Finset.mem_filter] at hslot ⊢
    refine ⟨hslot.1, ?_⟩
    obtain ⟨item, hread, hless⟩ := (Option.any_eq_true _ _).1 hslot.2
    rw [Option.any_eq_true]
    rw [is_better_iff] at hless
    exact ⟨item, hread, (is_better_iff item current).2 (hless.trans hbetter)⟩
  · rw [Finset.mem_filter, Finset.mem_range, hitem]
    exact ⟨hlt, (is_better_iff best current).2 hbetter⟩
  · rw [Finset.mem_filter, hitem]
    rintro ⟨-, hself⟩
    exact lt_irrefl _ ((is_better_iff best best).1 hself)

/-- The descent ends because no neighbour is better: a larger bound changes nothing. -/
theorem greedy_loop_stable (h : graph.LayerSearchable dispatcher query level) {fuel : Nat}
    (hcurrent : graph.Owns current.slot level ∧
      graph.itemAt dispatcher query current.slot = .ok current)
    (hfuel : graph.betterSlots dispatcher query current ≤ fuel) (extra : Nat) :
    graph.greedyLoop dispatcher query level (fuel + extra) current =
      graph.greedyLoop dispatcher query level fuel current := by
  induction fuel generalizing current with
  | zero =>
      cases extra with
      | zero => rfl
      | succ extra =>
          obtain ⟨best, -, howns, hitem, hstep⟩ := greedy_loop_step h hcurrent
          have hnot : ¬ isBetter best current = true := by
            intro hbetter
            have hless := better_slots_lt (lt_of_owns howns) hitem hbetter
            omega
          rw [Nat.zero_add, hstep, if_neg hnot]
          rfl
  | succ fuel ih =>
      obtain ⟨best, -, howns, hitem, hstep⟩ := greedy_loop_step h hcurrent
      rw [show fuel + 1 + extra = fuel + extra + 1 by omega, hstep, hstep]
      by_cases hbetter : isBetter best current = true
      · have hless := better_slots_lt (lt_of_owns howns) hitem hbetter
        rw [if_pos hbetter, if_pos hbetter]
        exact ih ⟨howns, hitem⟩ (by omega)
      · rw [if_neg hbetter, if_neg hbetter]

theorem better_slots_le (current : HnswHeapItem) :
    graph.betterSlots dispatcher query current ≤ graph.slotCount := by
  refine (Finset.card_filter_le _ _).trans ?_
  rw [Finset.card_range]

theorem greedy_descent_returns (h : graph.Searchable dispatcher query)
    (hentry : graph.Owns slot level) :
    ∃ found, graph.greedyDescent dispatcher query slot level = .ok found ∧
      graph.Owns found.slot level := by
  obtain ⟨item, hitem, hslot⟩ := item_at_of_owns dispatcher query hentry
  have hstart : graph.Owns item.slot level ∧
      graph.itemAt dispatcher query item.slot = .ok item := by
    rw [hslot]
    exact ⟨hentry, hitem⟩
  obtain ⟨found, hfound, howns⟩ := greedy_loop_returns (h.layer level) graph.slotCount hstart
  refine ⟨found, ?_, howns⟩
  unfold greedyDescent
  simp only [bind_ok, exists_unit]
  exact ⟨validate_search_boundary_of (h.layer level) hentry, item, hitem, hfound⟩

theorem descend_returns (h : graph.Searchable dispatcher query) (bottom steps : Nat)
    (hentry : graph.Owns slot (bottom + steps)) :
    ∃ found, graph.descend dispatcher query bottom steps slot = .ok found ∧
      graph.Owns found bottom := by
  induction steps generalizing slot with
  | zero => exact ⟨slot, rfl, hentry⟩
  | succ steps ih =>
      obtain ⟨item, hitem, howns⟩ := greedy_descent_returns h hentry
      obtain ⟨found, hfound, hspec⟩ := ih (owns_of_le howns (by omega))
      refine ⟨found, ?_, hspec⟩
      simp only [descend, bind_ok]
      exact ⟨item, hitem, hfound⟩

/-! ## Searching one layer -/

/-- What holds between two visits of a layer search. -/
structure Explores (graph : HnswStorage V) (dispatcher : MetricDispatcher V) (query : V)
    (admission : HnswResultAdmission) (level : Nat) (scratch : HnswSearchScratch) : Prop where
  visited_nodup : scratch.visited.Nodup
  visited_lt : ∀ slot ∈ scratch.visited, slot < graph.slotCount
  frontier : ∀ item ∈ scratch.candidates, graph.Owns item.slot level
  seen : ∀ item ∈ scratch.admitted admission, item.slot ∈ scratch.visited
  found : graph.Found dispatcher query admission level (scratch.admitted admission)

theorem offer_nodup {heap : List HnswHeapItem} (capacity : Nat) (h : (heap.map (·.slot)).Nodup)
    (hnew : ∀ other ∈ heap, other.slot ≠ item.slot) :
    ((offer heap item capacity).map (·.slot)).Nodup ∧
      ∀ other ∈ offer heap item capacity, other = item ∨ other ∈ heap := by
  have hperm : ((heap.orderedInsert ItemLe item).map (·.slot)).Perm
      (item.slot :: heap.map (·.slot)) :=
    (perm_orderedInsert ItemLe item heap).map _
  have hnodup : (item.slot :: heap.map (·.slot)).Nodup := by
    refine nodup_cons.2 ⟨fun hslot => ?_, h⟩
    obtain ⟨other, hother, heq⟩ := mem_map.1 hslot
    exact hnew other hother heq
  refine ⟨(hperm.nodup_iff.2 hnodup).sublist ((take_sublist capacity _).map _), ?_⟩
  intro other hother
  exact (mem_orderedInsert ItemLe).1 (mem_of_mem_take hother)

theorem found_offer {heap : List HnswHeapItem} (capacity : Nat)
    (h : graph.Found dispatcher query admission level heap)
    (hitem : graph.Eligible dispatcher query admission level item)
    (hnew : ∀ other ∈ heap, other.slot ≠ item.slot) :
    graph.Found dispatcher query admission level (offer heap item capacity) ∧
      ∀ other ∈ offer heap item capacity, other = item ∨ other ∈ heap := by
  obtain ⟨hnodup, hmem⟩ := offer_nodup capacity h.slots_nodup hnew
  refine ⟨⟨hnodup, fun other hother => ?_⟩, hmem⟩
  rcases hmem other hother with rfl | hold
  · exact hitem
  · exact h.eligible other hold

/-- A scored slot is offered when it may be a result, and only then. -/
theorem consider_result_ok (hanswers : graph.Answers admission) (capacity : Nat)
    (heap : List HnswHeapItem) (howns : graph.Owns item.slot level)
    (hitem : graph.itemAt dispatcher query item.slot = .ok item) :
    (graph.Eligible dispatcher query admission level item ∧
        graph.considerResult admission capacity item heap = .ok (offer heap item capacity)) ∨
      (¬ graph.Eligible dispatcher query admission level item ∧
        graph.considerResult admission capacity item heap = .ok heap) := by
  unfold considerResult
  by_cases hcurrent : graph.isCurrent item.slot = true
  · obtain ⟨node, hnode, hlevel⟩ := howns
    have hid : item.id = node.id := by
      unfold itemAt at hitem
      simp only [bind_ok, pure_ok, node_ok] at hitem
      obtain ⟨found, hfound, hitem⟩ := hitem
      rw [hnode] at hfound
      obtain rfl := Option.some.inj hfound
      rw [← hitem]
    obtain ⟨allowed, hallowed⟩ := hanswers.allows item.slot node hnode
    rw [← hid] at hallowed
    rw [if_pos hcurrent, hallowed]
    cases allowed with
    | false =>
        refine .inr ⟨fun heligible => ?_, rfl⟩
        have hcontra := heligible.allowed
        rw [hallowed] at hcontra
        cases hcontra
    | true => exact .inl ⟨⟨⟨node, hnode, hlevel⟩, hitem, hcurrent, hallowed⟩, rfl⟩
  · rw [if_neg hcurrent]
    exact .inr ⟨fun heligible => hcurrent heligible.current, rfl⟩

/-- What the first visit of a slot does to the scratch. -/
structure Visits (graph : HnswStorage V) (dispatcher : MetricDispatcher V) (query : V)
    (admission : HnswResultAdmission) (level ef : Nat) (item : HnswHeapItem)
    (scratch next : HnswSearchScratch) : Prop where
  visited : next.visited = item.slot :: scratch.visited
  candidates : next.candidates = scratch.candidates
  radius : next.results = scratch.results ∨ next.results = offer scratch.results item ef
  admitted : (graph.Eligible dispatcher query admission level item ∧
      next.admitted admission = offer (scratch.admitted admission) item ef) ∨
    (¬ graph.Eligible dispatcher query admission level item ∧
      next.admitted admission = scratch.admitted admission)

variable (dispatcher query) in
theorem visit_ok (hanswers : graph.Answers admission) (ef : Nat) (scratch : HnswSearchScratch)
    (howns : graph.Owns slot level) :
    ∃ item next, graph.visit dispatcher query admission ef slot scratch = .ok (item, next) ∧
      graph.itemAt dispatcher query slot = .ok item ∧ item.slot = slot ∧
      graph.Visits dispatcher query admission level ef item scratch next := by
  obtain ⟨item, hitem, rfl⟩ := item_at_of_owns dispatcher query howns
  have hconsider := fun heap => consider_result_ok hanswers ef heap howns hitem
  unfold visit considerItem
  simp only [hitem, bind_ok, pure_ok]
  -- A filtered search keeps its results beside the radius.
  cases hall : admission.allowAll with
  | true =>
      have hadmitted : ∀ other : HnswSearchScratch, other.admitted admission = other.results :=
        fun other => if_pos hall
      rcases hconsider scratch.results with ⟨heligible, hkept⟩ | ⟨heligible, hkept⟩
      · refine ⟨item, { scratch with
            visited := item.slot :: scratch.visited, results := offer scratch.results item ef },
          ⟨item, rfl, _, ?_, rfl⟩, rfl, rfl, ⟨rfl, rfl, .inr rfl, .inl ⟨heligible, ?_⟩⟩⟩
        · simp only [if_true, bind_ok, pure_ok]
          exact ⟨_, hkept, rfl⟩
        · rw [hadmitted, hadmitted]
      · refine ⟨item, { scratch with visited := item.slot :: scratch.visited },
          ⟨item, rfl, _, ?_, rfl⟩, rfl, rfl, ⟨rfl, rfl, .inl rfl, .inr ⟨heligible, ?_⟩⟩⟩
        · simp only [if_true, bind_ok, pure_ok]
          exact ⟨_, hkept, rfl⟩
        · rw [hadmitted, hadmitted]
  | false =>
      have hadmitted : ∀ other : HnswSearchScratch,
          other.admitted admission = other.filteredResults := fun other => by
        rw [HnswSearchScratch.admitted, hall, if_neg Bool.false_ne_true]
      rcases hconsider scratch.filteredResults with ⟨heligible, hkept⟩ | ⟨heligible, hkept⟩
      · refine ⟨item, { scratch with
            visited := item.slot :: scratch.visited
            results := offer scratch.results item ef
            filteredResults := offer scratch.filteredResults item ef },
          ⟨item, rfl, _, ?_, rfl⟩, rfl, rfl, ⟨rfl, rfl, .inr rfl, .inl ⟨heligible, ?_⟩⟩⟩
        · simp only [Bool.false_eq_true, if_false, bind_ok, pure_ok]
          exact ⟨_, hkept, rfl⟩
        · rw [hadmitted, hadmitted]
      · refine ⟨item, { scratch with
            visited := item.slot :: scratch.visited
            results := offer scratch.results item ef },
          ⟨item, rfl, _, ?_, rfl⟩, rfl, rfl, ⟨rfl, rfl, .inr rfl, .inr ⟨heligible, ?_⟩⟩⟩
        · simp only [Bool.false_eq_true, if_false, bind_ok, pure_ok]
          exact ⟨_, hkept, rfl⟩
        · rw [hadmitted, hadmitted]

/-- A slot is scored once, and only then. -/
theorem visits_explores {ef : Nat} {scratch next : HnswSearchScratch}
    (h : graph.Explores dispatcher query admission level scratch)
    (hvisits : graph.Visits dispatcher query admission level ef item scratch next)
    (howns : graph.Owns item.slot level) (hnew : item.slot ∉ scratch.visited) :
    graph.Explores dispatcher query admission level next := by
  have hother : ∀ other ∈ scratch.admitted admission, other.slot ≠ item.slot := by
    intro other hother heq
    exact hnew (heq ▸ h.seen other hother)
  have hkept : graph.Found dispatcher query admission level (next.admitted admission) ∧
      ∀ other ∈ next.admitted admission, other = item ∨ other ∈ scratch.admitted admission := by
    rcases hvisits.admitted with ⟨heligible, heq⟩ | ⟨-, heq⟩
    · rw [heq]
      exact found_offer ef h.found heligible hother
    · rw [heq]
      exact ⟨h.found, fun other hmem => .inr hmem⟩
  refine ⟨?_, ?_, ?_, fun other hmem => ?_, hkept.1⟩
  · rw [hvisits.visited]
    exact nodup_cons.2 ⟨hnew, h.visited_nodup⟩
  · rw [hvisits.visited]
    exact forall_mem_cons.2 ⟨lt_of_owns howns, h.visited_lt⟩
  · rw [hvisits.candidates]
    exact h.frontier
  · rw [hvisits.visited]
    rcases hkept.2 other hmem with rfl | hold
    · exact mem_cons_self
    · exact mem_cons_of_mem _ (h.seen other hold)

variable {scratch : HnswSearchScratch}

theorem visit_returns (hanswers : graph.Answers admission) (ef : Nat)
    (h : graph.Explores dispatcher query admission level scratch) (howns : graph.Owns slot level)
    (hnew : slot ∉ scratch.visited) :
    ∃ item next, graph.visit dispatcher query admission ef slot scratch = .ok (item, next) ∧
      item.slot = slot ∧ next.visited = slot :: scratch.visited ∧
      next.candidates = scratch.candidates ∧
      graph.Explores dispatcher query admission level next := by
  obtain ⟨item, next, hvisit, _, rfl, hvisits⟩ :=
    visit_ok dispatcher query hanswers ef scratch howns
  exact ⟨item, next, hvisit, rfl, hvisits.visited, hvisits.candidates,
    visits_explores h hvisits howns hnew⟩

theorem push_explores (ef : Nat) (h : graph.Explores dispatcher query admission level scratch)
    (hitem : graph.Owns item.slot level) :
    graph.Explores dispatcher query admission level (scratch.push ef item) ∧
      (scratch.push ef item).visited = scratch.visited ∧
      (scratch.push ef item).candidates.length ≤ scratch.candidates.length + 1 := by
  unfold HnswSearchScratch.push
  split
  · exact ⟨h, rfl, by omega⟩
  · refine ⟨⟨h.visited_nodup, h.visited_lt, fun other hother => ?_, h.seen, h.found⟩, rfl, ?_⟩
    · rcases (mem_orderedInsert ItemLe).1 hother with rfl | hold
      · exact hitem
      · exact h.frontier other hold
    · rw [orderedInsert_length]

/-- Expanding a slot raises nothing, and the frontier grows by no more than the slots seen. -/
theorem expand_returns (hanswers : graph.Answers admission) (ef : Nat) {edges : List Nat}
    (hedges : ∀ neighbor ∈ edges, graph.Owns neighbor level)
    (h : graph.Explores dispatcher query admission level scratch) :
    ∃ next, graph.expand dispatcher query admission ef level edges scratch = .ok next ∧
      graph.Explores dispatcher query admission level next ∧
      next.candidates.length + scratch.visited.length ≤
        scratch.candidates.length + next.visited.length := by
  induction edges generalizing scratch with
  | nil => exact ⟨scratch, rfl, h, le_rfl⟩
  | cons neighbor rest ih =>
      have howns := hedges neighbor mem_cons_self
      have hrest : ∀ other ∈ rest, graph.Owns other level := fun other hother =>
        hedges other (mem_cons_of_mem _ hother)
      by_cases hseen : neighbor ∈ scratch.visited
      · obtain ⟨next, hnext, hspec⟩ := ih hrest h
        refine ⟨next, ?_, hspec⟩
        simp only [expand, bind_ok, exists_unit, if_pos hseen]
        exact ⟨check_target_of_owns howns, hnext⟩
      · obtain ⟨item, visited, hvisit, hslot, hvisited, hcandidates, hexplores⟩ :=
          visit_returns hanswers ef h howns hseen
        obtain ⟨hpushed, hpushedVisited, hlength⟩ := push_explores ef hexplores (hslot ▸ howns)
        obtain ⟨next, hnext, hspec, hgrowth⟩ := ih hrest hpushed
        refine ⟨next, ?_, hspec, ?_⟩
        · simp only [expand, bind_ok, exists_unit, if_neg hseen]
          exact ⟨check_target_of_owns howns, (item, visited), hvisit, hnext⟩
        · rw [hpushedVisited, hvisited, length_cons] at hgrowth
          rw [hcandidates] at hlength
          omega

theorem search_loop_nil (h : scratch.candidates = []) (ef fuel : Nat) :
    graph.searchLoop dispatcher query admission ef level fuel scratch = .ok scratch := by
  cases fuel with
  | zero => rfl
  | succ fuel => rw [searchLoop, h]

/-- What one round of the search does with the slot it takes from the frontier. -/
theorem pop_explores (h : graph.LayerSearchable dispatcher query level)
    (hanswers : graph.Answers admission) (ef : Nat)
    (hexplores : graph.Explores dispatcher query admission level scratch)
    {candidate : HnswHeapItem} {rest : List HnswHeapItem}
    (hcandidates : scratch.candidates = candidate :: rest) :
    ∃ expanded, graph.Explores dispatcher query admission level expanded ∧
      expanded.candidates.length + scratch.visited.length ≤ rest.length + expanded.visited.length ∧
      ∀ fuel, graph.searchLoop dispatcher query admission ef level (fuel + 1) scratch =
        if scratch.beyond ef candidate.distance then .ok scratch
        else graph.searchLoop dispatcher query admission ef level fuel expanded := by
  have howns := hexplores.frontier candidate (by rw [hcandidates]; exact mem_cons_self)
  have hpopped : graph.Explores dispatcher query admission level
      { scratch with candidates := rest } :=
    ⟨hexplores.visited_nodup, hexplores.visited_lt, fun item hitem =>
      hexplores.frontier item (by rw [hcandidates]; exact mem_cons_of_mem _ hitem),
      hexplores.seen, hexplores.found⟩
  obtain ⟨expanded, hexpand, hspec, hgrowth⟩ := expand_returns hanswers ef
    (h.closed candidate.slot) hpopped
  have hedges : graph.neighbors candidate.slot level =
      .ok (graph.adjacency level candidate.slot) := neighbors_ok.2 ⟨howns, rfl⟩
  refine ⟨expanded, hspec, hgrowth, fun fuel => ?_⟩
  rw [searchLoop, hcandidates]
  by_cases hbeyond : scratch.beyond ef candidate.distance = true
  · simp only [hbeyond, if_true]
  · simp only [hbeyond, Bool.false_eq_true, if_false, hedges]
    show (graph.expand dispatcher query admission ef level _ _ >>= _) = _
    rw [hexpand]
    rfl

theorem search_loop_returns (h : graph.LayerSearchable dispatcher query level)
    (hanswers : graph.Answers admission) (ef fuel : Nat)
    (hexplores : graph.Explores dispatcher query admission level scratch) :
    ∃ next, graph.searchLoop dispatcher query admission ef level fuel scratch = .ok next ∧
      graph.Explores dispatcher query admission level next := by
  induction fuel generalizing scratch with
  | zero => exact ⟨scratch, rfl, hexplores⟩
  | succ fuel ih =>
      cases hcandidates : scratch.candidates with
      | nil => exact ⟨scratch, search_loop_nil hcandidates ef _, hexplores⟩
      | cons candidate rest =>
          obtain ⟨expanded, hspec, -, hstep⟩ := pop_explores h hanswers ef hexplores hcandidates
          rw [hstep]
          by_cases hbeyond : scratch.beyond ef candidate.distance = true
          · rw [if_pos hbeyond]
            exact ⟨scratch, rfl, hexplores⟩
          · rw [if_neg hbeyond]
            exact ih hspec

theorem visited_length_le (h : graph.Explores dispatcher query admission level scratch) :
    scratch.visited.length ≤ graph.slotCount := by
  have hsub : scratch.visited ⊆ List.range graph.slotCount := fun slot hslot =>
    mem_range.2 (h.visited_lt slot hslot)
  have hlength := (h.visited_nodup.subperm hsub).length_le
  rwa [length_range] at hlength

theorem found_take {items : List HnswHeapItem} (k : Nat)
    (h : graph.Found dispatcher query admission level items) :
    graph.Found dispatcher query admission level (items.take k) :=
  ⟨h.slots_nodup.sublist ((take_sublist k items).map _),
    fun item hitem => h.eligible item (mem_of_mem_take hitem)⟩

/-- A layer search from an owned entry point returns. -/
theorem search_layer_returns (h : graph.LayerSearchable dispatcher query level)
    (hanswers : graph.Answers admission) {ef entry k : Nat} (hentry : graph.Owns entry level)
    (hk : 0 < k) (hef : k ≤ ef) :
    ∃ items, graph.searchLayer dispatcher query admission ef entry level k = .ok items ∧
      items.length ≤ k ∧ graph.Found dispatcher query admission level items := by
  have hempty : graph.Explores dispatcher query admission level ⟨[], [], [], []⟩ := by
    refine ⟨nodup_nil, nofun, nofun, ?_, ?_⟩
    · unfold HnswSearchScratch.admitted
      split <;> nofun
    · unfold HnswSearchScratch.admitted
      split <;> exact ⟨nodup_nil, nofun⟩
  obtain ⟨item, seen, hvisit, hslot, -, -, hseen⟩ :=
    visit_returns hanswers ef hempty hentry not_mem_nil
  have hstart : graph.Explores dispatcher query admission level
      { seen with candidates := [item] } := by
    refine ⟨hseen.visited_nodup, hseen.visited_lt, fun other hother => ?_, hseen.seen, hseen.found⟩
    rw [mem_singleton.1 hother, hslot]
    exact hentry
  obtain ⟨finished, hloop, hfinished⟩ := search_loop_returns h hanswers ef graph.slotCount hstart
  refine ⟨(finished.admitted admission).take k, ?_, length_take_le _ _,
    found_take k hfinished.found⟩
  unfold searchLayer
  simp only [bind_ok, exists_unit, require_ok, pure_ok]
  exact ⟨hk, by omega, hef, validate_search_boundary_of h hentry, hanswers.validate, (item, seen),
    hvisit, finished, hloop, rfl⟩

end HnswStorage

end Akasha.Hnsw

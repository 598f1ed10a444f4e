import Akasha.Index.HnswTraversal
import Akasha.Lib.Exec

/-!
# Greedy descent with its distance cache

`greedy_descent` of `hnsw_core.mojo` as it runs on one level: it keeps the distance of every slot
it met and asks for none twice. `Cached` says what the cache holds between two scores, and
`descent_rounds_ok` that the rounds move as `HnswStorage.greedyLoop` does. The main theorem,
`greedy_descent_local_minimum`, says that the descent ends by itself, scores no slot twice and
returns a slot that none of its neighbours precedes.
-/

namespace Akasha.Hnsw

open Lib Lib.Exec

/-- The counters of `HnswSearchStats` that a descent changes. -/
structure DescentStats where
  upperVisited : Nat
  distanceEvaluations : Nat
deriving DecidableEq, Repr

/-- The distances found so far, the caller's counters, and the slots scored, latest first. -/
structure DescentState where
  distances : Std.ExtTreeMap Nat Rat
  stats : DescentStats
  scored : List Nat

/-- The distance of a slot is kept, and counted. -/
def DescentState.keep (state : DescentState) (slot : Nat) (distance : Rat) : DescentState where
  distances := state.distances.insert slot distance
  stats := ⟨state.stats.upperVisited + 1, state.stats.distanceEvaluations + 1⟩
  scored := slot :: state.scored

/-- `HnswGreedyResult`. -/
structure HnswGreedyResult where
  slot : Nat
  distance : Rat
deriving DecidableEq, Repr

namespace Descent

variable {V : Type} (graph : HnswStorage V) (dispatcher : MetricDispatcher V) (query : V)
  (level : Nat)

/-- `distance_to_slot`. -/
def distanceToSlot (slot : Nat) : Except String Rat := do
  let node ← graph.node slot
  pure (dispatcher.distance query node.vector)

/-- Score a slot that is not in the cache. -/
def scoreSlot (slot : Nat) : Exec DescentState String Rat := do
  let distance ← lift (distanceToSlot graph dispatcher query slot)
  update fun state => state.keep slot distance
  pure distance

/-- The distance of a neighbour, from the cache if it is there. -/
def neighborDistance (slot : Nat) : Exec DescentState String Rat := do
  let state ← read
  match state.distances[slot]? with
  | none => scoreSlot graph dispatcher query slot
  | some distance => pure distance

/-- The loop over the edges of the current slot: the best item so far. -/
def bestNeighbor : HnswHeapItem → List Nat → Exec DescentState String HnswHeapItem
  | best, [] => pure best
  | best, neighbor :: rest => do
      lift (graph.checkTarget level neighbor)
      let distance ← neighborDistance graph dispatcher query neighbor
      let id ← lift (graph.idAt neighbor)
      let item : HnswHeapItem := ⟨id, neighbor, distance⟩
      bestNeighbor (if isBetter item best then item else best) rest

/-- `while True`, for at most some rounds. -/
def descentRounds : Nat → Nat → Rat → Exec DescentState String HnswGreedyResult
  | 0, _, _ => raise "too many rounds"
  | rounds + 1, slot, distance => do
      let id ← lift (graph.idAt slot)
      let current : HnswHeapItem := ⟨id, slot, distance⟩
      let edges ← lift (graph.neighbors slot level)
      let best ← bestNeighbor graph dispatcher query level current edges
      if isBetter best current then descentRounds rounds best.slot best.distance
      else pure ⟨slot, distance⟩

/-- `greedy_descent`. -/
def greedyDescent (rounds entry : Nat) : Exec DescentState String HnswGreedyResult := do
  lift (graph.validateSearchBoundary dispatcher query entry level)
  let distance ← scoreSlot graph dispatcher query entry
  descentRounds graph dispatcher query level rounds entry distance

/-! ## What the cache holds -/

/-- The cache holds the distances of the slots scored, each scored once and counted. -/
structure Cached (start : DescentStats) (state : DescentState) : Prop where
  scored_nodup : state.scored.Nodup
  scored_lt : ∀ slot ∈ state.scored, slot < graph.slotCount
  holds : ∀ slot distance, state.distances[slot]? = some distance →
    distanceToSlot graph dispatcher query slot = .ok distance
  complete : ∀ slot ∈ state.scored, (state.distances[slot]?).isSome
  upper_visited : state.stats.upperVisited = start.upperVisited + state.scored.length
  distance_evaluations :
    state.stats.distanceEvaluations = start.distanceEvaluations + state.scored.length

variable {graph dispatcher query level}
variable {start : DescentStats} {state : DescentState} {slot : Nat}

theorem distance_of_item {item : HnswHeapItem}
    (h : graph.itemAt dispatcher query slot = .ok item) :
    distanceToSlot graph dispatcher query slot = .ok item.distance ∧
      graph.idAt slot = .ok item.id := by
  unfold HnswStorage.itemAt at h
  simp only [bind_ok, pure_ok] at h
  obtain ⟨node, hnode, rfl⟩ := h
  unfold distanceToSlot HnswStorage.idAt
  simp only [bind_ok, pure_ok]
  exact ⟨⟨node, hnode, rfl⟩, node, hnode, rfl⟩

/-- A slot that is not in the cache is scored for the first time. -/
theorem score_slot_ok (h : Cached graph dispatcher query start state) {distance : Rat}
    (hslot : slot < graph.slotCount) (hnew : state.distances[slot]? = none)
    (hdistance : distanceToSlot graph dispatcher query slot = .ok distance) :
    ∃ next, scoreSlot graph dispatcher query slot state = (.ok distance, next) ∧
      Cached graph dispatcher query start next := by
  refine ⟨state.keep slot distance, ?_, ⟨?_, ?_, ?_, ?_, ?_, ?_⟩⟩
  · unfold scoreSlot
    rw [lift_ok_bind hdistance]
    rfl
  · refine List.nodup_cons.2 ⟨fun hmem => ?_, h.scored_nodup⟩
    have hsome := h.complete slot hmem
    rw [hnew] at hsome
    cases hsome
  · exact List.forall_mem_cons.2 ⟨hslot, h.scored_lt⟩
  · intro other found hfound
    rw [DescentState.keep, Std.ExtTreeMap.getElem?_insert] at hfound
    split at hfound
    · next heq =>
        obtain rfl := compare_eq_iff_eq.1 heq
        exact Option.some.inj hfound ▸ hdistance
    · exact h.holds other found hfound
  · intro other hother
    rw [DescentState.keep, Std.ExtTreeMap.getElem?_insert]
    split
    · rfl
    · next hne =>
        rcases List.mem_cons.1 hother with rfl | hold
        · exact absurd (compare_eq_iff_eq.2 rfl) hne
        · exact h.complete other hold
  · show state.stats.upperVisited + 1 = start.upperVisited + (state.scored.length + 1)
    rw [h.upper_visited, Nat.add_assoc]
  · show state.stats.distanceEvaluations + 1 = start.distanceEvaluations + (state.scored.length + 1)
    rw [h.distance_evaluations, Nat.add_assoc]

theorem neighbor_distance_ok (h : Cached graph dispatcher query start state) {distance : Rat}
    (hslot : slot < graph.slotCount)
    (hdistance : distanceToSlot graph dispatcher query slot = .ok distance) :
    ∃ next, neighborDistance graph dispatcher query slot state = (.ok distance, next) ∧
      Cached graph dispatcher query start next := by
  unfold neighborDistance
  rw [read_bind]
  cases hfound : state.distances[slot]? with
  | none => exact score_slot_ok h hslot hfound hdistance
  | some found =>
      have hsame := (h.holds slot found hfound).symm.trans hdistance
      obtain rfl := Except.ok.inj hsame
      exact ⟨state, rfl, h⟩

/-- The loop over the edges finds what the loop without a cache finds. -/
theorem best_neighbor_ok {best found : HnswHeapItem} {edges : List Nat}
    (h : Cached graph dispatcher query start state)
    (hedges : ∀ neighbor ∈ edges, graph.Owns neighbor level)
    (hfound : graph.greedyBest dispatcher query level best edges = .ok found) :
    ∃ next, bestNeighbor graph dispatcher query level best edges state = (.ok found, next) ∧
      Cached graph dispatcher query start next := by
  induction edges generalizing best state with
  | nil =>
      obtain rfl := Except.ok.inj hfound
      exact ⟨state, rfl, h⟩
  | cons neighbor rest ih =>
      rw [List.forall_mem_cons] at hedges
      simp only [HnswStorage.greedyBest, bind_ok, exists_unit] at hfound
      obtain ⟨htarget, item, hitem, hrest⟩ := hfound
      obtain ⟨hdistance, hid⟩ := distance_of_item hitem
      obtain ⟨scored, hscored, hcached⟩ :=
        neighbor_distance_ok h (HnswStorage.lt_of_owns hedges.1) hdistance
      have hslot := HnswStorage.item_at_slot hitem
      have hsame : (⟨item.id, neighbor, item.distance⟩ : HnswHeapItem) = item := by rw [← hslot]
      obtain ⟨next, hnext, hkept⟩ := ih hcached hedges.2 hrest
      refine ⟨next, ?_, hkept⟩
      rw [bestNeighbor, lift_ok_bind htarget, bind_of_ok hscored,
        lift_ok_bind hid, hsame]
      exact hnext

/-- The best of an item and some neighbours is none worse than any of them. -/
theorem greedy_best_le {best found : HnswHeapItem} {edges : List Nat}
    (h : graph.greedyBest dispatcher query level best edges = .ok found) :
    ItemLe found best ∧ ∀ neighbor ∈ edges, ∀ item,
      graph.itemAt dispatcher query neighbor = .ok item → ItemLe found item := by
  induction edges generalizing best with
  | nil =>
      obtain rfl := Except.ok.inj h
      exact ⟨refl_of ItemLe best, by simp⟩
  | cons neighbor rest ih =>
      simp only [HnswStorage.greedyBest, bind_ok, exists_unit] at h
      obtain ⟨-, item, hitem, hrest⟩ := h
      obtain ⟨hfound, hothers⟩ := ih hrest
      have hboth : ItemLe (if isBetter item best then item else best) best ∧
          ItemLe (if isBetter item best then item else best) item := by
        by_cases hbetter : isBetter item best = true
        · rw [if_pos hbetter]
          have hnot := (is_better_iff_not_le item best).1 hbetter
          exact ⟨(total_of ItemLe item best).resolve_right hnot, refl_of ItemLe item⟩
        · rw [if_neg hbetter]
          have hle := not_not.1 fun hnot => hbetter ((is_better_iff_not_le item best).2 hnot)
          exact ⟨refl_of ItemLe best, hle⟩
      refine ⟨trans_of ItemLe hfound hboth.1, List.forall_mem_cons.2 ⟨fun other hother => ?_, hothers⟩⟩
      obtain rfl := Except.ok.inj (hitem.symm.trans hother)
      exact trans_of ItemLe hfound hboth.2

/-- An item that no neighbour of its slot precedes. -/
structure LocalMinimum (graph : HnswStorage V) (dispatcher : MetricDispatcher V) (query : V)
    (level : Nat) (item : HnswHeapItem) : Prop where
  owns : graph.Owns item.slot level
  item_at : graph.itemAt dispatcher query item.slot = .ok item
  neighbors : ∀ neighbor ∈ graph.adjacency level item.slot, ∀ other,
    graph.itemAt dispatcher query neighbor = .ok other → ¬ isBetter other item

/-- The rounds with the cache move as the rounds without it. Each goes to a better slot, so they
end after as many as there are better slots. -/
theorem descent_rounds_ok (hsearch : graph.LayerSearchable dispatcher query level) {rounds : Nat}
    {current : HnswHeapItem} (h : Cached graph dispatcher query start state)
    (hcurrent : graph.Owns current.slot level ∧
      graph.itemAt dispatcher query current.slot = .ok current)
    (hrounds : graph.betterSlots dispatcher query current < rounds) :
    ∃ found next, descentRounds graph dispatcher query level rounds current.slot current.distance
        state = (.ok ⟨found.slot, found.distance⟩, next) ∧
      Cached graph dispatcher query start next ∧
      graph.greedyLoop dispatcher query level rounds current = .ok found ∧
      ItemLe found current ∧ LocalMinimum graph dispatcher query level found := by
  induction rounds generalizing current state with
  | zero => omega
  | succ rounds ih =>
      obtain ⟨best, hbest, howns, hitem, hstep⟩ := HnswStorage.greedy_loop_step hsearch hcurrent
      obtain ⟨hle, hneighbors⟩ := greedy_best_le hbest
      obtain ⟨-, hid⟩ := distance_of_item hcurrent.2
      have hedges := HnswStorage.neighbors_ok.2 ⟨hcurrent.1, rfl⟩
      obtain ⟨next, hnext, hcached⟩ := best_neighbor_ok h
        (fun neighbor hneighbor => hsearch.closed current.slot neighbor hneighbor) hbest
      rw [descentRounds, lift_ok_bind hid, lift_ok_bind hedges, bind_of_ok hnext,
        hstep]
      by_cases hbetter : isBetter best current = true
      · have hless := HnswStorage.better_slots_lt (HnswStorage.lt_of_owns howns) hitem hbetter
        obtain ⟨found, last, hrun, hkept, hloop, hfound, hminimum⟩ :=
          ih hcached ⟨howns, hitem⟩ (by omega)
        rw [if_pos hbetter, if_pos hbetter]
        exact ⟨found, last, hrun, hkept, hloop, trans_of ItemLe hfound hle, hminimum⟩
      · rw [if_neg hbetter, if_neg hbetter]
        refine ⟨current, next, rfl, hcached, rfl, refl_of ItemLe current, hcurrent.1, hcurrent.2,
          fun neighbor hneighbor other hother hless => ?_⟩
        -- the neighbour is not before the best one, and the best one not before the slot
        have hstay := not_not.1 fun hnot => hbetter ((is_better_iff_not_le best current).2 hnot)
        have hafter := trans_of ItemLe hstay (hneighbors neighbor hneighbor other hother)
        exact (is_better_iff_not_le other current).1 hless hafter

/-- A descent with a cache is the descent of the search. -/
theorem greedy_descent_ok (hsearch : graph.LayerSearchable dispatcher query level) {entry rounds : Nat}
    (hentry : graph.Owns entry level) (hrounds : graph.slotCount < rounds) (start : DescentStats) :
    ∃ item found next, greedyDescent graph dispatcher query level rounds entry ⟨∅, start, []⟩ =
        (.ok ⟨found.slot, found.distance⟩, next) ∧
      graph.itemAt dispatcher query entry = .ok item ∧
      graph.greedyDescent dispatcher query entry level = .ok found ∧
      Cached graph dispatcher query start next ∧ ItemLe found item ∧
      LocalMinimum graph dispatcher query level found := by
  obtain ⟨item, hitem, hslot⟩ := HnswStorage.item_at_of_owns dispatcher query hentry
  have hcheck := HnswStorage.validate_search_boundary_of hsearch hentry
  have hempty : Cached graph dispatcher query start ⟨∅, start, []⟩ :=
    ⟨List.nodup_nil, by simp, by simp, by simp, rfl, rfl⟩
  obtain ⟨scored, hscored, hcached⟩ := score_slot_ok hempty (HnswStorage.lt_of_owns hentry)
    Std.ExtTreeMap.getElem?_empty (distance_of_item hitem).1
  have hcurrent : graph.Owns item.slot level ∧
      graph.itemAt dispatcher query item.slot = .ok item := by
    rw [hslot]
    exact ⟨hentry, hitem⟩
  have hbetter := @HnswStorage.better_slots_le _ graph dispatcher query item
  have henough : graph.betterSlots dispatcher query item < rounds := by omega
  obtain ⟨found, next, hrun, hkept, hloop, hle, hminimum⟩ :=
    descent_rounds_ok hsearch hcached hcurrent henough
  refine ⟨item, found, next, ?_, hitem, ?_, hkept, hle, hminimum⟩
  · unfold greedyDescent
    rw [lift_ok_bind hcheck, bind_of_ok hscored, ← hslot]
    exact hrun
  · -- more rounds than there are slots change nothing
    obtain ⟨extra, rfl⟩ := Nat.exists_eq_add_of_le hrounds.le
    rw [HnswStorage.greedy_loop_stable hsearch hcurrent hbetter] at hloop
    unfold HnswStorage.greedyDescent
    simp only [bind_ok, exists_unit]
    exact ⟨hcheck, item, hitem, hloop⟩

/-- A descent ends by itself and scores no slot twice. It returns a slot of the level, with its
distance, that none of its neighbours precedes, and that is not worse than the entry. -/
theorem greedy_descent_local_minimum (graph : HnswStorage V) (dispatcher : MetricDispatcher V)
    (query : V) (level entry rounds : Nat) (h : graph.LayerSearchable dispatcher query level)
    (hentry : graph.Owns entry level) (hrounds : graph.slotCount < rounds) (start : DescentStats) :
    ∃ item found final, greedyDescent graph dispatcher query level rounds entry ⟨∅, start, []⟩ =
        (.ok ⟨found.slot, found.distance⟩, final) ∧
      final.scored.Nodup ∧ (∀ slot ∈ final.scored, slot < graph.slotCount) ∧
      final.stats.distanceEvaluations = start.distanceEvaluations + final.scored.length ∧
      final.stats.upperVisited = start.upperVisited + final.scored.length ∧
      LocalMinimum graph dispatcher query level found ∧
      graph.itemAt dispatcher query entry = .ok item ∧ ¬ isBetter item found := by
  obtain ⟨item, found, final, hrun, hitem, -, hcached, hle, hminimum⟩ :=
    greedy_descent_ok h hentry hrounds start
  refine ⟨item, found, final, hrun, hcached.scored_nodup, hcached.scored_lt,
    hcached.distance_evaluations, hcached.upper_visited, hminimum, hitem, fun hbetter => ?_⟩
  exact (is_better_iff_not_le item found).1 hbetter hle

/-- From the far end of a line of two slots to the slot at the query. -/
theorem greedy_descent_local_minimum_narrow :
    ∃ item found final, greedyDescent narrowGraph lineDispatcher 0 0 4 1 ⟨∅, ⟨0, 0⟩, []⟩ =
        (.ok ⟨found.slot, found.distance⟩, final) ∧
      final.scored.Nodup ∧ narrowGraph.itemAt lineDispatcher 0 1 = .ok item ∧
      ¬ isBetter item found := by
  have hsearchable : narrowGraph.LayerSearchable lineDispatcher 0 0 :=
    ⟨rfl, rfl, rfl, fun _ _ hneighbor =>
      HnswStorage.owns_target narrow_graph_well_linked hneighbor⟩
  obtain ⟨item, found, final, hrun, hnodup, -, -, -, -, hitem, hle⟩ :=
    greedy_descent_local_minimum narrowGraph lineDispatcher 0 0 1 4 hsearchable
      ⟨_, rfl, Nat.zero_le _⟩ (by decide) ⟨0, 0⟩
  exact ⟨item, found, final, hrun, hnodup, hitem, hle⟩

end Descent

end Akasha.Hnsw

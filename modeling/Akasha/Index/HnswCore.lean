import Akasha.Index.HnswStorage
import Akasha.Lib.Exec
import Mathlib.Data.List.Sort
import Mathlib.Data.Rat.Defs

/-!
# Linking the graph

`connect_bidirectional` links a slot with the neighbours selected for it on one level. Either end
of a new edge may be full: its list is then selected anew around its own vector, an edge that
one of the two selections drops is not made, and every neighbour that lost its place loses the
reverse edge too. A distance is taken as the rational number that a finite `Float32` is, so that
the checks for a finite distance pass; whether a distance is in the range of its metric is
checked.
-/

namespace Akasha.Hnsw

open Lib Lib.Exec List

/-- What a graph uses of the metric: how it prepares a vector or a query, the checks that
storing a prepared vector makes for its scalar kind, the check on a prepared query, and the
distance of prepared vectors. -/
structure MetricDispatcher (V : Type) where
  identity : StorageIdentity
  prepare : List F32 → Except String V
  storable : V → Except String Unit
  validatePrepared : V → Except String Unit
  distance : V → V → Rat

/-- Distances are in the range of the metric. -/
def MetricDispatcher.Valid {V : Type} (dispatcher : MetricDispatcher V) : Prop :=
  ∀ lhs rhs, (dispatcher.identity.metric ≠ .dot → 0 ≤ dispatcher.distance lhs rhs) ∧
    (dispatcher.identity.metric = .cosine → dispatcher.distance lhs rhs ≤ 2)

/-- A candidate, ordered by distance, point and slot. -/
structure HnswHeapItem where
  id : Int64
  slot : Nat
  distance : Rat
deriving DecidableEq, Repr

/-- `_is_better` and `_search_item_better`. -/
def isBetter (lhs rhs : HnswHeapItem) : Bool :=
  if lhs.distance ≠ rhs.distance then lhs.distance < rhs.distance
  else if lhs.id ≠ rhs.id then lhs.id < rhs.id
  else lhs.slot < rhs.slot

/-- An item that another does not precede may stand before it. -/
def ItemLe (lhs rhs : HnswHeapItem) : Prop :=
  isBetter rhs lhs = false

instance : DecidableRel ItemLe := fun _ _ => inferInstanceAs (Decidable (_ = _))

/-- Keep the first item of each slot. -/
def firstSlots : List Nat → List HnswHeapItem → List HnswHeapItem
  | _, [] => []
  | seen, item :: items =>
      if item.slot ∈ seen then firstSlots seen items
      else item :: firstSlots (item.slot :: seen) items

/-- The counters of a graph under construction. -/
structure HnswBuildStats where
  slotCount : Nat
  inactiveSlots : Nat
  maximumLevel : Int
  directedEdges : Int
deriving DecidableEq, Repr

variable {V : Type}

/-- The range checks on a distance. -/
def MetricDispatcher.checkDistance (dispatcher : MetricDispatcher V) (negative large : String)
    (distance : Rat) : Except String Unit := do
  require (dispatcher.identity.metric ≠ .dot → 0 ≤ distance) negative
  require (dispatcher.identity.metric = .cosine → distance ≤ 2) large

namespace HnswStorage

variable (graph : HnswStorage V) (dispatcher : MetricDispatcher V)

/-- `distance_between`. -/
def distanceBetween (lhs rhs : Nat) : Except String Rat := do
  let left ← graph.node lhs
  let right ← graph.node rhs
  pure (dispatcher.distance left.vector right.vector)

/-! ## Selecting neighbours -/

/-- The checks of `_select_neighbors_heuristic` on a candidate. -/
def checkCandidate (requireCurrent : Bool) (candidate : HnswHeapItem) : Except String Unit := do
  let storedId ← graph.idAt candidate.slot
  require (candidate.id = storedId) "HNSW candidate public ID does not match graph slot"
  require (requireCurrent = true → graph.isCurrent candidate.slot = true)
    "HNSW neighbor selection requires current candidates"
  dispatcher.checkDistance "L2 and cosine candidate distances cannot be negative"
    "cosine candidate distance cannot exceed two" candidate.distance

/-- Whether no selected neighbour is closer to the candidate than the query is. -/
def isDiverse (candidate : HnswHeapItem) : List Nat → Except String Bool
  | [] => .ok true
  | selected :: rest => do
      let pairDistance ← graph.distanceBetween dispatcher candidate.slot selected
      dispatcher.checkDistance "L2 and cosine pair distances cannot be negative"
        "cosine neighbor-pair distance cannot exceed two" pairDistance
      if pairDistance < candidate.distance then pure false
      else isDiverse candidate rest

/-- The selection loop: the diverse candidates, and those that were pruned. -/
def selectDiverse (capacity : Nat) :
    List HnswHeapItem → List Nat → List Nat → Except String (List Nat × List Nat)
  | [], selected, pruned => .ok (selected, pruned)
  | candidate :: rest, selected, pruned =>
      if capacity ≤ selected.length then .ok (selected, pruned)
      else do
        let diverse ← graph.isDiverse dispatcher candidate selected
        if diverse then selectDiverse capacity rest (selected ++ [candidate.slot]) pruned
        else selectDiverse capacity rest selected (pruned ++ [candidate.slot])

/-- `_select_neighbors_heuristic`. The heap of the source drains in the order of its items. -/
def selectNeighbors (candidates : List HnswHeapItem) (excluded : Option Nat) (capacity : Nat)
    (keepPruned requireCurrent : Bool) : Except String (List Nat) := do
  require (dispatcher.identity = graph.config.identity)
    "metric dispatcher identity does not match HNSW graph"
  checkEach excluded.toList fun slot => do
    let _ ← graph.idAt slot
    pure ()
  checkEach candidates (graph.checkCandidate dispatcher requireCurrent)
  let included := candidates.filter fun candidate => excluded ≠ some candidate.slot
  let ordered := firstSlots [] (included.insertionSort ItemLe)
  let found ← graph.selectDiverse dispatcher capacity ordered [] []
  if keepPruned then pure (found.1 ++ found.2.take (capacity - found.1.length))
  else pure found.1

/-- `_adjacency_with_candidate`: the list of a slot when one more edge is considered. -/
def adjacencyWithCandidate (center candidate level : Nat) : Except String (List Nat) := do
  let present ← graph.neighbors center level
  let values := if candidate ∈ present then present else present ++ [candidate]
  let capacity ← graph.levelCapacity center level
  if values.length ≤ capacity then pure values
  else do
    let candidates ← values.mapM fun value => do
      let distance ← graph.distanceBetween dispatcher center value
      let id ← graph.idAt value
      pure (⟨id, value, distance⟩ : HnswHeapItem)
    graph.selectNeighbors dispatcher candidates none capacity true false

/-- `_removed_neighbors`. -/
def removedNeighbors (center level : Nat) (retained : List Nat) : Except String (List Nat) := do
  let values ← graph.neighbors center level
  pure (values.filter (· ∉ retained))

/-- `_validate_link_level`. -/
def validateLinkLevel (slot level : Nat) : Except String Unit := do
  let owned ← graph.level slot
  require (level ≤ owned) "HNSW node does not own touched graph level"
  let values ← graph.neighbors slot level
  let capacity ← graph.levelCapacity slot level
  require (values.length ≤ capacity) "HNSW touched adjacency exceeds level capacity"
  checkEach values fun neighbor => do
    let target ← graph.level neighbor
    require (level ≤ target) "HNSW edge target does not own graph level"
    let back ← graph.containsNeighbor neighbor level slot
    require (back = true) "HNSW graph contains an asymmetric edge"

end HnswStorage

/-! ## Making edges -/

/-- Write the list of a slot, and give the change of its length. -/
def replaceNeighbors (slot level : Nat) (values : List Nat) :
    Exec (HnswStorage V) String Int := do
  let graph ← read
  let before ← lift (graph.neighborCount slot level)
  let next ← lift (graph.setNeighbors slot level values)
  update fun _ => next
  let after ← lift (next.neighborCount slot level)
  pure ((after : Int) - before)

/-- Remove an endpoint from the lists of the slots it dropped; the change of the edges. -/
def dropReverse (level center : Nat) : List Nat → Exec (HnswStorage V) String Int
  | [] => pure 0
  | removed :: rest => do
      let graph ← read
      let removal ← lift (graph.removeNeighbor removed level center)
      update fun _ => removal.1
      let delta ← dropReverse level center rest
      pure (delta - if removal.2 then 1 else 0)

/-- Write the final lists of two slots, drop the reverse of every edge that they lost and check
what was touched; the change of the edges. -/
def exchangeNeighbors (endpoint level neighbor : Nat) (endpointFinal neighborFinal : List Nat) :
    Exec (HnswStorage V) String Int := do
  let graph ← read
  let removedFromEndpoint ← lift (graph.removedNeighbors endpoint level endpointFinal)
  let removedFromNeighbor ← lift (graph.removedNeighbors neighbor level neighborFinal)
  let endpointDelta ← replaceNeighbors endpoint level endpointFinal
  let neighborDelta ← replaceNeighbors neighbor level neighborFinal
  let endpointDropped ← dropReverse level endpoint removedFromEndpoint
  let neighborDropped ← dropReverse level neighbor removedFromNeighbor
  let touched := endpoint :: neighbor :: (removedFromEndpoint ++ removedFromNeighbor)
  let linked ← read
  lift (checkEach touched fun slot => linked.validateLinkLevel slot level)
  pure (endpointDelta + neighborDelta + endpointDropped + neighborDropped)

/-- The body of the loop of `connect_bidirectional`; it gives the change of the edges. -/
def linkProposal (dispatcher : MetricDispatcher V) (endpoint level neighbor : Nat) :
    Exec (HnswStorage V) String Int := do
  let graph ← read
  let endpointOriginal ← lift (graph.neighbors endpoint level)
  let neighborOriginal ← lift (graph.neighbors neighbor level)
  let endpointProposed ←
    lift (graph.adjacencyWithCandidate dispatcher endpoint neighbor level)
  let neighborProposed ←
    lift (graph.adjacencyWithCandidate dispatcher neighbor endpoint level)
  -- An edge is made only if both ends keep it; else both keep the lists they had.
  if neighbor ∈ endpointProposed ∧ endpoint ∈ neighborProposed then
    exchangeNeighbors endpoint level neighbor endpointProposed neighborProposed
  else exchangeNeighbors endpoint level neighbor endpointOriginal neighborOriginal

/-- The loop over the proposals. -/
def linkProposals (dispatcher : MetricDispatcher V) (endpoint level : Nat) :
    List Nat → Exec (HnswStorage V) String Int
  | [] => pure 0
  | neighbor :: rest => do
      let delta ← linkProposal dispatcher endpoint level neighbor
      let others ← linkProposals dispatcher endpoint level rest
      pure (delta + others)

/-- The checks on a selected neighbour before anything changes. -/
def checkProposal (graph : HnswStorage V) (endpoint level neighbor : Nat) :
    Except String Unit := do
  let _ ← graph.idAt neighbor
  require (neighbor ≠ endpoint) "HNSW self edges are not allowed"
  let owned ← graph.level neighbor
  require (level ≤ owned) "HNSW edge target does not own graph level"
  require (graph.isCurrent neighbor = true) "HNSW link neighbor must be current"

/-- The checks of `connect_bidirectional` before anything changes. -/
def checkConnect (dispatcher : MetricDispatcher V) (graph : HnswStorage V)
    (endpoint level : Nat) (selected : List Nat) : Except String Unit := do
  require (graph.valid = true) "cannot mutate an invalid HNSW graph"
  require (dispatcher.identity.dimension = graph.config.identity.dimension)
    "metric dispatcher dimension does not match HNSW graph"
  let _ ← graph.levelCapacity endpoint level
  require (graph.isCurrent endpoint = true) "HNSW link endpoint must be current"
  checkEach selected (checkProposal graph endpoint level)

/-- `connect_bidirectional`. The proposals are the selected slots, each at its first place; a
failure after the checks quarantines the graph. -/
def connectBidirectional (dispatcher : MetricDispatcher V) (endpoint level : Nat)
    (selected : List Nat) (stats : HnswBuildStats) :
    Exec (HnswStorage V) String HnswBuildStats := do
  let graph ← read
  lift (checkConnect dispatcher graph endpoint level selected)
  let proposals := selected.eraseDups
  let delta ← catching (linkProposals dispatcher endpoint level proposals) fun error => do
    update HnswStorage.markInvalid
    raise error
  pure { stats with directedEdges := stats.directedEdges + delta }

/-! ## What selection returns -/

theorem first_slots_spec (seen : List Nat) (items : List HnswHeapItem) :
    ((firstSlots seen items).map (·.slot)).Nodup ∧
      ∀ item ∈ firstSlots seen items, item ∈ items ∧ item.slot ∉ seen := by
  induction items generalizing seen with
  | nil => simp [firstSlots]
  | cons item items ih =>
      rw [firstSlots]
      split
      · obtain ⟨hnodup, hmem⟩ := ih seen
        exact ⟨hnodup, fun found hfound =>
          ⟨mem_cons_of_mem _ (hmem found hfound).1, (hmem found hfound).2⟩⟩
      · rename_i hnew
        obtain ⟨hnodup, hmem⟩ := ih (item.slot :: seen)
        rw [map_cons, nodup_cons]
        refine ⟨⟨fun hslot => ?_, hnodup⟩, fun found hfound => ?_⟩
        · obtain ⟨found, hfound, heq⟩ := mem_map.1 hslot
          exact (hmem found hfound).2 (heq ▸ mem_cons_self)
        · rcases mem_cons.1 hfound with rfl | hfound
          · exact ⟨mem_cons_self, hnew⟩
          · exact ⟨mem_cons_of_mem _ (hmem found hfound).1,
              fun hseen => (hmem found hfound).2 (mem_cons_of_mem _ hseen)⟩

variable {touched : Nat → Prop} {selected : List Nat}

namespace HnswStorage

variable {graph next last : HnswStorage V} {dispatcher : MetricDispatcher V}

theorem distance_between_of_lt (dispatcher : MetricDispatcher V) {lhs rhs : Nat}
    (hlhs : lhs < graph.slotCount) (hrhs : rhs < graph.slotCount) : ∃ left right,
      graph.distanceBetween dispatcher lhs rhs = .ok (dispatcher.distance left right) := by
  obtain ⟨left, hleft⟩ := node_of_lt hlhs
  obtain ⟨right, hright⟩ := node_of_lt hrhs
  refine ⟨left.vector, right.vector, ?_⟩
  unfold distanceBetween
  simp only [bind_ok, pure_ok]
  exact ⟨left, hleft, right, hright, rfl⟩

theorem check_distance_ok (h : dispatcher.Valid) (negative large : String) (lhs rhs : V) :
    dispatcher.checkDistance negative large (dispatcher.distance lhs rhs) = .ok () := by
  unfold MetricDispatcher.checkDistance
  simp only [bind_ok, exists_unit, require_ok]
  exact h lhs rhs

/-- Diversity is decided for every candidate of the graph. -/
theorem is_diverse_total (h : dispatcher.Valid) {candidate : HnswHeapItem}
    (hcandidate : candidate.slot < graph.slotCount)
    (hselected : ∀ slot ∈ selected, slot < graph.slotCount) :
    ∃ diverse, graph.isDiverse dispatcher candidate selected = .ok diverse := by
  induction selected with
  | nil => exact ⟨true, rfl⟩
  | cons slot rest ih =>
      obtain ⟨left, right, hdistance⟩ :=
        distance_between_of_lt dispatcher hcandidate (hselected slot mem_cons_self)
      obtain ⟨diverse, hdiverse⟩ := ih fun other hother =>
        hselected other (mem_cons_of_mem _ hother)
      have hcheck := check_distance_ok h "L2 and cosine pair distances cannot be negative"
        "cosine neighbor-pair distance cannot exceed two" left right
      by_cases hlt : dispatcher.distance left right < candidate.distance
      · refine ⟨false, ?_⟩
        simp only [isDiverse, bind_ok, exists_unit]
        exact ⟨_, hdistance, hcheck, by rw [if_pos hlt]; rfl⟩
      · refine ⟨diverse, ?_⟩
        simp only [isDiverse, bind_ok, exists_unit]
        exact ⟨_, hdistance, hcheck, by rw [if_neg hlt]; exact hdiverse⟩

/-- The selected and the pruned slots are different ordered candidates. -/
theorem select_diverse_spec {capacity : Nat} {ordered : List HnswHeapItem}
    {selected pruned : List Nat} {found : List Nat × List Nat}
    (hrun : graph.selectDiverse dispatcher capacity ordered selected pruned = .ok found)
    (hnodup : (selected ++ pruned ++ ordered.map (·.slot)).Nodup)
    (hlength : selected.length ≤ capacity) :
    (found.1 ++ found.2).Nodup ∧ found.1.length ≤ capacity ∧
      ∀ slot ∈ found.1 ++ found.2, slot ∈ selected ++ pruned ++ ordered.map (·.slot) := by
  induction ordered generalizing selected pruned with
  | nil =>
      rw [selectDiverse] at hrun
      cases hrun
      rw [map_nil, append_nil] at hnodup
      exact ⟨hnodup, hlength, fun slot hslot => mem_append_left _ hslot⟩
  | cons candidate rest ih =>
      rw [selectDiverse] at hrun
      split at hrun
      · cases hrun
        exact ⟨(nodup_append.1 hnodup).1, hlength,
          fun slot hslot => mem_append_left _ hslot⟩
      · rename_i hroom
        obtain ⟨diverse, -, hrun⟩ := bind_ok.1 hrun
        split at hrun
        · have hperm : (selected ++ pruned ++ (candidate :: rest).map (·.slot)).Perm
              (selected ++ [candidate.slot] ++ pruned ++ rest.map (·.slot)) := by
            simp only [map_cons, append_assoc, singleton_append]
            exact perm_middle.append_left selected
          obtain ⟨hfound, hle, hmem⟩ := ih hrun (hperm.nodup_iff.1 hnodup) (by
            rw [length_append, length_singleton]
            omega)
          exact ⟨hfound, hle, fun slot hslot => hperm.mem_iff.2 (hmem slot hslot)⟩
        · have heq : selected ++ pruned ++ (candidate :: rest).map (·.slot) =
              selected ++ (pruned ++ [candidate.slot]) ++ rest.map (·.slot) := by
            simp only [map_cons, append_assoc, singleton_append]
          rw [heq] at hnodup ⊢
          exact ih hrun hnodup hlength

theorem select_diverse_total (h : dispatcher.Valid) (capacity : Nat) {ordered : List HnswHeapItem}
    (pruned : List Nat) (hordered : ∀ item ∈ ordered, item.slot < graph.slotCount)
    (hselected : ∀ slot ∈ selected, slot < graph.slotCount) :
    ∃ found, graph.selectDiverse dispatcher capacity ordered selected pruned = .ok found := by
  induction ordered generalizing selected pruned with
  | nil => exact ⟨_, rfl⟩
  | cons candidate rest ih =>
      rw [selectDiverse]
      split
      · exact ⟨_, rfl⟩
      · have hcandidate := hordered candidate mem_cons_self
        have hrest : ∀ item ∈ rest, item.slot < graph.slotCount := fun item hitem =>
          hordered item (mem_cons_of_mem _ hitem)
        obtain ⟨diverse, hdiverse⟩ := is_diverse_total h hcandidate hselected
        simp only [bind_ok, hdiverse, Except.ok.injEq, exists_eq_left']
        split
        · refine ih pruned hrest fun slot hslot => ?_
          rcases mem_append.1 hslot with hslot | hslot
          · exact hselected slot hslot
          · rw [mem_singleton.1 hslot]
            exact hcandidate
        · exact ih _ hrest hselected

/-- Selection returns different candidates, no more than fit. -/
theorem select_neighbors_spec {candidates : List HnswHeapItem} {excluded : Option Nat}
    {capacity : Nat} {keepPruned requireCurrent : Bool} {values : List Nat}
    (hrun : graph.selectNeighbors dispatcher candidates excluded capacity keepPruned
      requireCurrent = .ok values) :
    values.Nodup ∧ values.length ≤ capacity ∧
      ∀ value ∈ values, excluded ≠ some value ∧ ∃ item ∈ candidates, item.slot = value := by
  unfold selectNeighbors at hrun
  simp only [bind_ok, exists_unit] at hrun
  obtain ⟨-, -, -, found, hfound, hrun⟩ := hrun
  obtain ⟨hordered, hitems⟩ := first_slots_spec []
    ((candidates.filter fun candidate => excluded ≠ some candidate.slot).insertionSort ItemLe)
  obtain ⟨hnodup, hlength, hmem⟩ := select_diverse_spec hfound (by simpa using hordered)
    (Nat.zero_le _)
  have hfrom : ∀ value ∈ found.1 ++ found.2,
      excluded ≠ some value ∧ ∃ item ∈ candidates, item.slot = value := by
    intro value hvalue
    have hslot := hmem value hvalue
    rw [nil_append, nil_append] at hslot
    obtain ⟨item, hitem, rfl⟩ := mem_map.1 hslot
    have hin := (mem_insertionSort ItemLe).1 (hitems item hitem).1
    rw [mem_filter, decide_eq_true_eq] at hin
    exact ⟨hin.2, item, hin.1, rfl⟩
  split at hrun
  · obtain rfl := pure_ok.1 hrun
    have hsub : List.Sublist (found.1 ++ found.2.take (capacity - found.1.length))
        (found.1 ++ found.2) := (List.Sublist.refl _).append (take_sublist _ _)
    refine ⟨hnodup.sublist hsub, ?_, fun value hvalue => hfrom value (hsub.subset hvalue)⟩
    rw [length_append, length_take]
    omega
  · obtain rfl := pure_ok.1 hrun
    exact ⟨(nodup_append.1 hnodup).1, hlength,
      fun value hvalue => hfrom value (mem_append_left _ hvalue)⟩

/-- Selecting among slots of the graph by their distances from one vector returns. -/
theorem select_neighbors_total (h : dispatcher.Valid)
    (hidentity : dispatcher.identity = graph.config.identity) {candidates : List HnswHeapItem}
    {excluded : Option Nat} (hexcluded : ∀ slot ∈ excluded, slot < graph.slotCount)
    {requireCurrent : Bool}
    (hcandidates : ∀ item ∈ candidates, ∃ stored left right, graph.node item.slot = .ok stored ∧
      item.id = stored.id ∧ item.distance = dispatcher.distance left right ∧
      (requireCurrent = true → graph.isCurrent item.slot = true))
    (capacity : Nat) (keepPruned : Bool) :
    ∃ values, graph.selectNeighbors dispatcher candidates excluded capacity keepPruned
      requireCurrent = .ok values := by
  have hcheck : ∀ item ∈ candidates,
      graph.checkCandidate dispatcher requireCurrent item = .ok () := by
    intro item hitem
    obtain ⟨stored, left, right, hnode, hid, hdistance, hcurrent⟩ := hcandidates item hitem
    unfold checkCandidate idAt
    simp only [bind_ok, exists_unit, require_ok, pure_ok]
    refine ⟨stored.id, ⟨stored, hnode, rfl⟩, hid, hcurrent, ?_⟩
    rw [hdistance]
    exact check_distance_ok h _ _ left right
  have hslot : ∀ slot ∈ excluded.toList, (do
      let _ ← graph.idAt slot
      pure () : Except String Unit) = .ok () := by
    intro slot hslot
    obtain ⟨stored, hnode⟩ := node_of_lt (hexcluded slot (Option.mem_toList.1 hslot))
    unfold idAt
    rw [hnode]
    rfl
  have hslots : ∀ item ∈ firstSlots [] ((candidates.filter fun candidate =>
      excluded ≠ some candidate.slot).insertionSort ItemLe), item.slot < graph.slotCount := by
    intro item hitem
    have hin := (mem_insertionSort ItemLe).1 ((first_slots_spec [] _).2 item hitem).1
    obtain ⟨stored, -, -, hnode, -⟩ := hcandidates item (List.mem_filter.1 hin).1
    exact (List.getElem?_eq_some_iff.1 (node_ok.1 hnode)).1
  obtain ⟨found, hfound⟩ := select_diverse_total h capacity [] hslots
    fun slot hslot => absurd hslot not_mem_nil
  unfold selectNeighbors
  simp only [bind_ok, exists_unit, require_ok]
  cases keepPruned with
  | true =>
      exact ⟨_, hidentity, check_each_ok.2 hslot, check_each_ok.2 hcheck, found, hfound, rfl⟩
  | false =>
      exact ⟨_, hidentity, check_each_ok.2 hslot, check_each_ok.2 hcheck, found, hfound, rfl⟩

/-! ## Graphs whose edges go both ways -/

/-- On every level the edges go both ways, without repeats or self edges, and no list exceeds
the capacity of its level. -/
structure WellLinked (graph : HnswStorage V) : Prop where
  linked : ∀ level, Linked (graph.adjacency level)
  bounded : ∀ level slot, (graph.adjacency level slot).length ≤ graph.capacityAt level

variable {level slot endpoint neighbor : Nat} {values : List Nat}

theorem owns_of_mem (h : neighbor ∈ graph.adjacency level slot) : graph.Owns slot level := by
  unfold adjacency at h
  cases hitem : graph.nodes[slot]? with
  | none =>
      rw [hitem] at h
      exact absurd h not_mem_nil
  | some item =>
      rw [hitem] at h
      refine ⟨item, hitem, ?_⟩
      by_contra hlt
      rw [Option.elim_some, HnswNode.layer_eq_nil (by omega)] at h
      exact absurd h not_mem_nil

theorem owns_target (h : graph.WellLinked) (hmem : neighbor ∈ graph.adjacency level slot) :
    graph.Owns neighbor level :=
  owns_of_mem ((h.linked level).symm slot neighbor hmem)

/-- Considering one more edge keeps a list bounded and takes up nothing else. -/
theorem adjacency_with_candidate_spec (h : graph.WellLinked) (hvalid : dispatcher.Valid)
    (hidentity : dispatcher.identity = graph.config.identity)
    (hslot : graph.Owns slot level) (hneighbor : neighbor < graph.slotCount) :
    ∃ values, graph.adjacencyWithCandidate dispatcher slot neighbor level = .ok values ∧
      values.Nodup ∧ values.length ≤ graph.capacityAt level ∧
        ∀ value ∈ values, value = neighbor ∨ value ∈ graph.adjacency level slot := by
  have hlinked := h.linked level
  obtain ⟨wanted, hwanted, hnodup, hmem⟩ : ∃ wanted, wanted =
      (if neighbor ∈ graph.adjacency level slot then graph.adjacency level slot
        else graph.adjacency level slot ++ [neighbor]) ∧ wanted.Nodup ∧
      ∀ value ∈ wanted, value = neighbor ∨ value ∈ graph.adjacency level slot := by
    refine ⟨_, rfl, ?_, ?_⟩
    · split
      · exact hlinked.nodup slot
      · rename_i hnew
        rw [nodup_append]
        exact ⟨hlinked.nodup slot, nodup_singleton neighbor, fun x hx y hy heq =>
          hnew (mem_singleton.1 hy ▸ heq ▸ hx)⟩
    · intro value hvalue
      split at hvalue
      · exact .inr hvalue
      · rcases mem_append.1 hvalue with hvalue | hvalue
        · exact .inr hvalue
        · exact .inl (mem_singleton.1 hvalue)
  have hlt : ∀ value ∈ wanted, value < graph.slotCount := by
    intro value hvalue
    rcases hmem value hvalue with rfl | hvalue
    · exact hneighbor
    · exact lt_of_owns (owns_target h hvalue)
  unfold adjacencyWithCandidate
  simp only [bind_ok, neighbors_ok, level_capacity_ok]
  by_cases hfits : wanted.length ≤ graph.capacityAt level
  · refine ⟨wanted, ⟨_, ⟨hslot, rfl⟩, _, ⟨hslot, rfl⟩, ?_⟩, hnodup, hfits, hmem⟩
    rw [← hwanted, if_pos hfits]
    rfl
  · -- The list is full: it is selected anew among the old neighbours and the candidate.
    have hitems : ∀ value ∈ wanted, ∃ item : HnswHeapItem, (do
        let distance ← graph.distanceBetween dispatcher slot value
        let id ← graph.idAt value
        pure (⟨id, value, distance⟩ : HnswHeapItem)) = Except.ok item := by
      intro value hvalue
      obtain ⟨left, right, hdistance⟩ :=
        distance_between_of_lt dispatcher (lt_of_owns hslot) (hlt value hvalue)
      obtain ⟨stored, hstored⟩ := node_of_lt (hlt value hvalue)
      unfold idAt
      simp only [bind_ok, pure_ok]
      exact ⟨_, _, hdistance, _, ⟨stored, hstored, rfl⟩, rfl⟩
    obtain ⟨items, hmap⟩ := map_m_is_ok.2 hitems
    have hpair := map_m_ok.1 hmap
    have hfrom : ∀ item ∈ items, item.slot ∈ wanted ∧ ∃ stored left right,
        graph.node item.slot = .ok stored ∧ item.id = stored.id ∧
          item.distance = dispatcher.distance left right ∧
          (false = true → graph.isCurrent item.slot = true) := by
      intro item hitem
      obtain ⟨value, hvalue, hrun⟩ := forall₂_exists_left hpair hitem
      unfold idAt at hrun
      simp only [bind_ok, pure_ok] at hrun
      obtain ⟨distance, hdistance, id, ⟨stored, hstored, rfl⟩, rfl⟩ := hrun
      obtain ⟨left, right, hvalue'⟩ :=
        distance_between_of_lt dispatcher (lt_of_owns hslot) (hlt value hvalue)
      rw [hdistance] at hvalue'
      exact ⟨hvalue, stored, left, right, hstored, rfl, Except.ok.inj hvalue', nofun⟩
    have hnone : ∀ slot ∈ (none : Option Nat), slot < graph.slotCount := nofun
    obtain ⟨values, hvalues⟩ := select_neighbors_total hvalid hidentity hnone
      (fun item hitem => (hfrom item hitem).2) (graph.capacityAt level) true
    obtain ⟨hselected, hlength, hsub⟩ := select_neighbors_spec hvalues
    refine ⟨values, ⟨_, ⟨hslot, rfl⟩, _, ⟨hslot, rfl⟩, ?_⟩, hselected, hlength, ?_⟩
    · rw [← hwanted, if_neg hfits]
      exact bind_ok.2 ⟨items, hmap, hvalues⟩
    · intro value hvalue
      obtain ⟨-, item, hitem, rfl⟩ := hsub value hvalue
      exact hmem _ (hfrom item hitem).1

/-- The checks after a link pass on a graph whose edges go both ways. -/
theorem validate_link_level_ok (h : graph.WellLinked) (hslot : graph.Owns slot level) :
    graph.validateLinkLevel slot level = .ok () := by
  have howned : ∀ other, graph.Owns other level →
      ∃ owned, graph.level other = .ok owned ∧ level ≤ owned := by
    rintro other ⟨item, hitem, hle⟩
    unfold HnswStorage.level
    simp only [bind_ok, pure_ok]
    exact ⟨_, ⟨item, node_ok.2 hitem, rfl⟩, hle⟩
  obtain ⟨owned, hlevel, hle⟩ := howned slot hslot
  unfold validateLinkLevel containsNeighbor
  simp only [bind_ok, exists_unit, require_ok, neighbors_ok, level_capacity_ok,
    check_each_ok, validate_neighbor_ok, pure_ok]
  refine ⟨owned, hlevel, hle, _, ⟨hslot, rfl⟩, _, ⟨hslot, rfl⟩, h.bounded level slot, ?_⟩
  intro neighbor hneighbor
  have htarget := owns_target h hneighbor
  obtain ⟨target, htlevel, htle⟩ := howned neighbor htarget
  refine ⟨target, htlevel, htle, true, ⟨⟨lt_of_owns htarget, lt_of_owns hslot, ?_⟩, _,
    ⟨htarget, rfl⟩, ?_⟩, rfl⟩
  · exact fun heq => (h.linked level).irrefl slot (heq ▸ hneighbor)
  · rw [contains_iff_mem]
    exact (h.linked level).symm slot neighbor hneighbor

/-- What a link step did: other edges on one level, still both ways and bounded, an edge count
that changed by `delta`, and no list changed beyond the touched slots and those they dropped. -/
structure Connects (touched : Nat → Prop) (level : Nat) (graph : HnswStorage V) (delta : Int)
    (next : HnswStorage V) : Prop where
  relinked : Relinked level graph next
  wellLinked : next.WellLinked
  edges : (next.edgeCount : Int) = graph.edgeCount + delta
  confined : Confined touched (graph.adjacency level) (next.adjacency level)

theorem connects_refl (h : graph.WellLinked) (touched : Nat → Prop) (level : Nat) :
    Connects touched level graph 0 graph :=
  ⟨relinked_refl level graph, h, by omega, confined_refl _ _⟩

theorem connects_trans {delta delta' : Int} (h : Connects touched level graph delta next)
    (h' : Connects touched level next delta' last) :
    Connects touched level graph (delta + delta') last := by
  refine ⟨relinked_trans h.relinked h'.relinked, h'.wellLinked, ?_,
    confined_trans h.confined h'.confined⟩
  have hedges := h.edges
  have hedges' := h'.edges
  omega

end HnswStorage

open HnswStorage

variable {graph next : HnswStorage V} {dispatcher : MetricDispatcher V}
  {level slot endpoint neighbor : Nat} {values : List Nat}

theorem replace_neighbors_run (h : graph.Owns slot level)
    (hlength : values.length ≤ graph.capacityAt level)
    (hvalues : ∀ value ∈ values, value < graph.slotCount ∧ value ≠ slot) (hnodup : values.Nodup) :
    replaceNeighbors slot level values graph =
      (.ok ((values.length : Int) - (graph.adjacency level slot).length),
        graph.writeNeighbors slot level values) := by
  have hset := set_neighbors_ok.2 ⟨h, hlength, hvalues, hnodup, rfl⟩
  obtain ⟨hrelinked, hwritten, -⟩ := write_neighbors_relinked h values
  have hafter : (graph.writeNeighbors slot level values).neighborCount slot level =
      .ok values.length := by
    refine neighbor_count_ok.2 ⟨(same_owns hrelinked.toSameSlots).2 h, ?_⟩
    rw [hwritten, Function.update_self]
  unfold replaceNeighbors
  rw [read_bind, lift_ok_bind (neighbor_count_ok.2 ⟨h, rfl⟩), lift_ok_bind hset,
    update_bind, lift_ok_bind hafter]
  rfl

/-- Dropping the reverse edges relinks one level and counts what it dropped. -/
theorem drop_reverse_run {center : Nat} (hcenter : center < graph.slotCount) {removed : List Nat}
    (hremoved : ∀ slot ∈ removed, graph.Owns slot level ∧ slot ≠ center) :
    ∃ delta next, dropReverse level center removed graph = (.ok delta, next) ∧
      Relinked level graph next ∧
      next.adjacency level = unlink (graph.adjacency level) center removed ∧
      (next.edgeCount : Int) = graph.edgeCount + delta := by
  induction removed generalizing graph with
  | nil => exact ⟨0, graph, rfl, relinked_refl level graph, rfl, by omega⟩
  | cons slot rest ih =>
      obtain ⟨howns, hne⟩ := hremoved slot mem_cons_self
      -- One removal erases the centre from one list, whether or not it is there.
      obtain ⟨middle, dropped, hstep, hrelinked, hadj, hcount⟩ : ∃ middle dropped,
          graph.removeNeighbor slot level center = .ok (middle, dropped) ∧
          Relinked level graph middle ∧
          middle.adjacency level = Function.update (graph.adjacency level) slot
            ((graph.adjacency level slot).erase center) ∧
          (middle.edgeCount : Int) = graph.edgeCount - if dropped = true then 1 else 0 := by
        unfold removeNeighbor
        simp only [bind_ok, exists_unit, validate_neighbor_ok, neighbors_ok]
        by_cases hmem : center ∈ graph.adjacency level slot
        · obtain ⟨hwrite, hadj, hedges⟩ := write_neighbors_relinked howns
            ((graph.adjacency level slot).erase center)
          refine ⟨_, true, ⟨⟨lt_of_owns howns, hcenter, hne.symm⟩, _, ⟨howns, rfl⟩, ?_⟩, hwrite,
            hadj, ?_⟩
          · rw [if_pos hmem]
            rfl
          · have hlength := length_erase_of_mem hmem
            have hpos := length_pos_of_mem hmem
            rw [if_pos rfl]
            omega
        · refine ⟨graph, false, ⟨⟨lt_of_owns howns, hcenter, hne.symm⟩, _, ⟨howns, rfl⟩, ?_⟩,
            relinked_refl level graph, ?_, ?_⟩
          · rw [if_neg hmem]
            rfl
          · rw [erase_of_not_mem hmem, Function.update_eq_self]
          · rw [if_neg Bool.false_ne_true]
            omega
      obtain ⟨delta, next, hrest, hnext, hlists, hedges⟩ := ih
        ((same_slot_count hrelinked.toSameSlots).symm ▸ hcenter) (fun other hother =>
          ⟨(same_owns hrelinked.toSameSlots).2 (hremoved other (mem_cons_of_mem _ hother)).1,
            (hremoved other (mem_cons_of_mem _ hother)).2⟩)
      refine ⟨delta - if dropped = true then 1 else 0, next, ?_,
        relinked_trans hrelinked hnext, ?_, ?_⟩
      · rw [dropReverse, read_bind, lift_ok_bind hstep, update_bind,
          bind_of_ok hrest]
        rfl
      · rw [hlists, hadj]
        rfl
      · rw [hedges, hcount]
        omega

/-- Lists that two slots may take: bounded, taking up no edge but the one between them, on which
they agree. -/
structure Exchange (graph : HnswStorage V) (level endpoint neighbor : Nat) (as bs : List Nat) :
    Prop where
  distinct : endpoint ≠ neighbor
  owns : graph.Owns endpoint level
  owns' : graph.Owns neighbor level
  nodup : as.Nodup
  nodup' : bs.Nodup
  length : as.length ≤ graph.capacityAt level
  length' : bs.length ≤ graph.capacityAt level
  adds : ∀ x ∈ as, x = neighbor ∨ x ∈ graph.adjacency level endpoint
  adds' : ∀ x ∈ bs, x = endpoint ∨ x ∈ graph.adjacency level neighbor
  edge : neighbor ∈ as ↔ endpoint ∈ bs

variable {as bs : List Nat}

theorem Exchange.symm (h : Exchange graph level endpoint neighbor as bs) :
    Exchange graph level neighbor endpoint bs as :=
  ⟨h.distinct.symm, h.owns', h.owns, h.nodup', h.nodup, h.length', h.length, h.adds', h.adds,
    h.edge.symm⟩

theorem exchange_not_self (hgraph : graph.WellLinked)
    (h : Exchange graph level endpoint neighbor as bs) : endpoint ∉ as := fun hmem =>
  (h.adds endpoint hmem).elim h.distinct ((hgraph.linked level).irrefl endpoint)

theorem exchange_targets (hgraph : graph.WellLinked)
    (h : Exchange graph level endpoint neighbor as bs) :
    ∀ x ∈ as, x < graph.slotCount ∧ x ≠ endpoint := by
  intro x hx
  refine ⟨?_, fun heq => exchange_not_self hgraph h (heq ▸ hx)⟩
  rcases h.adds x hx with rfl | hmem
  · exact lt_of_owns h.owns'
  · exact lt_of_owns (owns_target hgraph hmem)

theorem removed_owns (hgraph : graph.WellLinked) {center : Nat} {kept : List Nat} :
    ∀ x ∈ (graph.adjacency level center).filter (· ∉ kept),
      graph.Owns x level ∧ x ≠ center := by
  intro x hx
  have hmem := (mem_filter.1 hx).1
  exact ⟨owns_target hgraph hmem, fun heq => (hgraph.linked level).irrefl center (heq ▸ hmem)⟩

/-- A graph with exchanged lists on one level is linked again. -/
theorem exchange_well_linked (hgraph : graph.WellLinked)
    (h : Exchange graph level endpoint neighbor as bs) (hall : Relinked level graph next)
    (hrelink : next.adjacency level = relink (graph.adjacency level) endpoint neighbor as bs) :
    next.WellLinked := by
  constructor
  · intro layer
    by_cases heq : layer = level
    · rw [heq, hrelink]
      exact relink_linked (hgraph.linked level) h.distinct h.nodup h.nodup' h.adds h.adds'
        (exchange_not_self hgraph h) (exchange_not_self hgraph h.symm) h.edge
    · rw [hall.other layer heq]
      exact hgraph.linked layer
  · intro layer slot
    rw [same_capacity hall.toSameSlots]
    by_cases heq : layer = level
    · rw [heq, hrelink]
      exact length_relink (hgraph.bounded level) h.length h.length' slot
    · rw [hall.other layer heq]
      exact hgraph.bounded layer slot

/-- Exchanging the lists of two slots fails nowhere. -/
theorem exchange_neighbors_run (hgraph : graph.WellLinked)
    (h : Exchange graph level endpoint neighbor as bs) (htouched : touched endpoint)
    (htouched' : touched neighbor) :
    ∃ delta next, exchangeNeighbors endpoint level neighbor as bs graph = (.ok delta, next) ∧
      Connects touched level graph delta next := by
  -- The two lists are written.
  obtain ⟨hwrite₁, hadj₁, hedges₁⟩ := write_neighbors_relinked h.owns as
  have hreplace₁ := replace_neighbors_run h.owns h.length (exchange_targets hgraph h) h.nodup
  have howns₁ := (same_owns hwrite₁.toSameSlots).2 h.owns'
  have hreplace₂ := replace_neighbors_run howns₁
    ((same_capacity hwrite₁.toSameSlots level).symm ▸ h.length')
    (fun x hx => (same_slot_count hwrite₁.toSameSlots).symm ▸ exchange_targets hgraph h.symm x hx) h.nodup'
  obtain ⟨hwrite₂, hadj₂, hedges₂⟩ := write_neighbors_relinked howns₁ bs
  have hwritten := relinked_trans hwrite₁ hwrite₂
  -- The reverse edges of what was dropped go.
  obtain ⟨delta₃, graph₃, hdrop₃, hrelinked₃, hadj₃, hedges₃⟩ := drop_reverse_run
    ((same_slot_count hwritten.toSameSlots).symm ▸ lt_of_owns h.owns)
    (fun x (hx : x ∈ (graph.adjacency level endpoint).filter (· ∉ as)) =>
      ⟨(same_owns hwritten.toSameSlots).2 (removed_owns hgraph x hx).1, (removed_owns hgraph x hx).2⟩)
  have hrelinked := relinked_trans hwritten hrelinked₃
  obtain ⟨delta₄, next, hdrop₄, hrelinked₄, hadj₄, hedges₄⟩ := drop_reverse_run
    ((same_slot_count hrelinked.toSameSlots).symm ▸ lt_of_owns h.owns')
    (fun x (hx : x ∈ (graph.adjacency level neighbor).filter (· ∉ bs)) =>
      ⟨(same_owns hrelinked.toSameSlots).2 (removed_owns hgraph x hx).1, (removed_owns hgraph x hx).2⟩)
  have hall := relinked_trans hrelinked hrelinked₄
  have hrelink : next.adjacency level =
      relink (graph.adjacency level) endpoint neighbor as bs := by
    rw [hadj₄, hadj₃, hadj₂, hadj₁]
    rfl
  have hnext := exchange_well_linked hgraph h hall hrelink
  have hchecks : checkEach (endpoint :: neighbor ::
      ((graph.adjacency level endpoint).filter (· ∉ as) ++
        (graph.adjacency level neighbor).filter (· ∉ bs)))
      (fun slot => next.validateLinkLevel slot level) = .ok () := by
    refine check_each_ok.2 fun slot hslot => validate_link_level_ok hnext ?_
    rw [same_owns hall.toSameSlots]
    simp only [mem_cons, mem_append] at hslot
    rcases hslot with rfl | rfl | hslot | hslot
    · exact h.owns
    · exact h.owns'
    · exact (removed_owns hgraph slot hslot).1
    · exact (removed_owns hgraph slot hslot).1
  have hlists : ∀ {center : Nat} {kept : List Nat}, graph.Owns center level →
      graph.removedNeighbors center level kept =
        .ok ((graph.adjacency level center).filter (· ∉ kept)) := by
    intro center kept howns
    unfold removedNeighbors
    simp only [bind_ok, neighbors_ok, pure_ok]
    exact ⟨_, ⟨howns, rfl⟩, rfl⟩
  have hrun : exchangeNeighbors endpoint level neighbor as bs graph =
      (.ok ((as.length : Int) - (graph.adjacency level endpoint).length +
        ((bs.length : Int) -
          ((graph.writeNeighbors endpoint level as).adjacency level neighbor).length) +
        delta₃ + delta₄), next) := by
    unfold exchangeNeighbors
    rw [read_bind, lift_ok_bind (hlists h.owns), lift_ok_bind (hlists h.owns'),
      bind_of_ok hreplace₁, bind_of_ok hreplace₂, bind_of_ok hdrop₃,
      bind_of_ok hdrop₄, read_bind, lift_ok_bind hchecks]
    rfl
  refine ⟨_, next, hrun, hall, hnext, ?_, ?_⟩
  · rw [hedges₄, hedges₃]
    omega
  · rw [hrelink]
    exact relink_confined (hgraph.linked level) h.nodup h.nodup' htouched htouched'

/-- One proposal is linked without a failure, whatever the two selections drop. -/
theorem link_proposal_run (h : graph.WellLinked) (hvalid : dispatcher.Valid)
    (hidentity : dispatcher.identity = graph.config.identity)
    (hendpoint : graph.Owns endpoint level) (hneighbor : graph.Owns neighbor level)
    (hne : neighbor ≠ endpoint) (htouched : touched endpoint) (htouched' : touched neighbor) :
    ∃ delta next, linkProposal dispatcher endpoint level neighbor graph = (.ok delta, next) ∧
      Connects touched level graph delta next := by
  have hlinked := h.linked level
  obtain ⟨as, has, hnodup, hlength, hadds⟩ := adjacency_with_candidate_spec h hvalid hidentity
    hendpoint (lt_of_owns hneighbor)
  obtain ⟨bs, hbs, hnodup', hlength', hadds'⟩ := adjacency_with_candidate_spec h hvalid hidentity
    hneighbor (lt_of_owns hendpoint)
  unfold linkProposal
  rw [read_bind, lift_ok_bind (neighbors_ok.2 ⟨hendpoint, rfl⟩),
    lift_ok_bind (neighbors_ok.2 ⟨hneighbor, rfl⟩), lift_ok_bind has,
    lift_ok_bind hbs]
  split
  · rename_i hkeep
    exact exchange_neighbors_run h ⟨hne.symm, hendpoint, hneighbor, hnodup, hnodup', hlength,
      hlength', hadds, hadds', iff_of_true hkeep.1 hkeep.2⟩ htouched htouched'
  · -- The rejected edge was never there, or both ends had it.
    exact exchange_neighbors_run h ⟨hne.symm, hendpoint, hneighbor, hlinked.nodup _,
      hlinked.nodup _, h.bounded _ _, h.bounded _ _, fun x hx => .inr hx, fun x hx => .inr hx,
      hlinked.symm _ _, hlinked.symm _ _⟩ htouched htouched'

theorem link_proposals_run (h : graph.WellLinked) (hvalid : dispatcher.Valid)
    (hidentity : dispatcher.identity = graph.config.identity)
    (hendpoint : graph.Owns endpoint level) {proposals : List Nat}
    (hproposals : ∀ neighbor ∈ proposals, graph.Owns neighbor level ∧ neighbor ≠ endpoint)
    (htouched : touched endpoint) (htouched' : ∀ neighbor ∈ proposals, touched neighbor) :
    ∃ delta next, linkProposals dispatcher endpoint level proposals graph = (.ok delta, next) ∧
      Connects touched level graph delta next := by
  induction proposals generalizing graph with
  | nil => exact ⟨0, graph, rfl, connects_refl h touched level⟩
  | cons neighbor rest ih =>
      obtain ⟨howns, hne⟩ := hproposals neighbor mem_cons_self
      obtain ⟨delta, middle, hstep, hconnects⟩ := link_proposal_run h hvalid hidentity hendpoint
        howns hne htouched (htouched' neighbor mem_cons_self)
      have hrelinked := hconnects.relinked
      obtain ⟨others, next, hrest, hconnects'⟩ := ih hconnects.wellLinked
        (hidentity.trans (congrArg _ hrelinked.config.symm))
        ((same_owns hrelinked.toSameSlots).2 hendpoint)
        (fun other hother => ⟨(same_owns hrelinked.toSameSlots).2
          (hproposals other (mem_cons_of_mem _ hother)).1,
          (hproposals other (mem_cons_of_mem _ hother)).2⟩)
        (fun other hother => htouched' other (mem_cons_of_mem _ hother))
      refine ⟨delta + others, next, ?_, connects_trans hconnects hconnects'⟩
      rw [linkProposals, bind_of_ok hstep, bind_of_ok hrest]
      rfl

/-- What the checks before the first change let pass. -/
theorem check_connect_ok {u : Unit} :
    checkConnect dispatcher graph endpoint level selected = .ok u ↔
      graph.valid = true ∧
      dispatcher.identity.dimension = graph.config.identity.dimension ∧
      graph.Owns endpoint level ∧ graph.isCurrent endpoint = true ∧
      ∀ neighbor ∈ selected, graph.Owns neighbor level ∧ neighbor ≠ endpoint ∧
        graph.isCurrent neighbor = true := by
  unfold checkConnect checkProposal idAt HnswStorage.level Owns
  simp only [bind_ok, exists_unit, require_ok, level_capacity_ok, check_each_ok, node_ok,
    pure_ok]
  constructor
  · rintro ⟨hgraph, hdimension, _, ⟨howns, -⟩, hcurrent, hselected⟩
    refine ⟨hgraph, hdimension, howns, hcurrent, fun neighbor hneighbor => ?_⟩
    obtain ⟨_, -, hne, _, ⟨item, hitem, rfl⟩, hle, hneighbor⟩ := hselected neighbor hneighbor
    exact ⟨⟨item, hitem, hle⟩, hne, hneighbor⟩
  · rintro ⟨hgraph, hdimension, howns, hcurrent, hselected⟩
    refine ⟨hgraph, hdimension, _, ⟨howns, rfl⟩, hcurrent, fun neighbor hneighbor => ?_⟩
    obtain ⟨⟨item, hitem, hle⟩, hne, hneighbor⟩ := hselected neighbor hneighbor
    exact ⟨_, ⟨item, hitem, rfl⟩, hne, _, ⟨item, hitem, rfl⟩, hle, hneighbor⟩

/-- A rejected call changes nothing; an accepted one links without a failure. -/
theorem connect_bidirectional_run (h : graph.WellLinked) (hvalid : dispatcher.Valid)
    (hidentity : dispatcher.identity = graph.config.identity) (endpoint level : Nat)
    (selected : List Nat) (stats : HnswBuildStats) :
    (∃ error, checkConnect dispatcher graph endpoint level selected = .error error ∧
        connectBidirectional dispatcher endpoint level selected stats graph =
          (.error error, graph)) ∨
      checkConnect dispatcher graph endpoint level selected = .ok () ∧ ∃ delta next,
        connectBidirectional dispatcher endpoint level selected stats graph =
          (.ok { stats with directedEdges := stats.directedEdges + delta }, next) ∧
        Connects (· ∈ endpoint :: selected) level graph delta next := by
  cases hcheck : checkConnect dispatcher graph endpoint level selected with
  | error error =>
      refine .inl ⟨error, rfl, ?_⟩
      unfold connectBidirectional
      rw [read_bind, hcheck]
      rfl
  | ok u =>
      obtain ⟨-, -, hendpoint, -, hselected⟩ := check_connect_ok.1 hcheck
      have hproposals : ∀ neighbor ∈ selected.eraseDups,
          graph.Owns neighbor level ∧ neighbor ≠ endpoint := fun neighbor hneighbor =>
        ⟨(hselected neighbor (mem_eraseDups.1 hneighbor)).1,
          (hselected neighbor (mem_eraseDups.1 hneighbor)).2.1⟩
      have htouched : ∀ neighbor ∈ selected.eraseDups, neighbor ∈ endpoint :: selected :=
        fun neighbor hneighbor => mem_cons_of_mem _ (mem_eraseDups.1 hneighbor)
      have hendpoint' : endpoint ∈ endpoint :: selected := mem_cons_self
      obtain ⟨delta, next, hrun, hconnects⟩ := link_proposals_run h hvalid hidentity hendpoint
        hproposals hendpoint' htouched
      refine .inr ⟨rfl, delta, next, ?_, hconnects⟩
      have hcaught : catching (linkProposals dispatcher endpoint level selected.eraseDups)
          (fun error => do
            update HnswStorage.markInvalid
            raise error) graph = (.ok delta, next) := by
        unfold catching
        rw [hrun]
      unfold connectBidirectional
      rw [read_bind, lift_ok_bind hcheck]
      exact bind_of_ok hcaught

/-- Linking a slot keeps the edges of every level going both ways, free of repeats and self
edges, and within capacity. The edge counter changes with the edges, other levels stay, and so
does the list of every slot but the linked one, its neighbours and those that these dropped. An
accepted call returns, and a rejected one leaves the graph as it was. -/
theorem connect_bidirectional_linked (graph : HnswStorage V) (dispatcher : MetricDispatcher V)
    (endpoint level : Nat) (selected : List Nat) (stats : HnswBuildStats) (h : graph.WellLinked)
    (hvalid : dispatcher.Valid) (hidentity : dispatcher.identity = graph.config.identity) :
    ∃ result next,
      connectBidirectional dispatcher endpoint level selected stats graph = (result, next) ∧
      next.WellLinked ∧
      (∀ stats', result = .ok stats' →
        stats'.directedEdges - stats.directedEdges = (next.edgeCount : Int) - graph.edgeCount) ∧
      (∀ layer, layer ≠ level → next.adjacency layer = graph.adjacency layer) ∧
      (∀ slot, next.adjacency level slot ≠ graph.adjacency level slot →
        slot ∈ endpoint :: selected ∨ ∃ center ∈ endpoint :: selected,
          slot ∈ graph.adjacency level center ∧ slot ∉ next.adjacency level center) ∧
      ((∃ stats', result = .ok stats') ↔
        checkConnect dispatcher graph endpoint level selected = .ok ()) ∧
      (∀ error, result = .error error → next = graph) := by
  rcases connect_bidirectional_run h hvalid hidentity endpoint level selected stats with
    ⟨error, hcheck, hrun⟩ | ⟨hcheck, delta, next, hrun, hconnects⟩
  · refine ⟨_, graph, hrun, h, nofun, fun _ _ => rfl, fun slot hne => absurd rfl hne, ?_,
      fun _ _ => rfl⟩
    rw [hcheck]
    simp
  · refine ⟨_, next, hrun, hconnects.wellLinked, ?_, hconnects.relinked.other, ?_, ?_, nofun⟩
    · intro stats' hstats
      obtain rfl := Except.ok.inj hstats
      have hedges := hconnects.edges
      show stats.directedEdges + delta - stats.directedEdges = _
      omega
    · intro slot hne
      by_cases hslot : slot ∈ endpoint :: selected
      · exact .inl hslot
      · exact .inr (confined_dropped (h.linked level) (hconnects.wellLinked.linked level)
          hconnects.confined hslot hne)
    · exact iff_of_true ⟨_, rfl⟩ hcheck

/-- One neighbour on each level, and vectors of one component. -/
def narrowConfig : GraphConfig where
  identity := ⟨1, .l2, .f32⟩
  m := 1
  m0 := 1
  dimension_fits := by decide
  m_fits := by decide
  m0_fits := by decide
  i8_fits := by decide

/-- The distance of positions on a line. -/
def lineDispatcher : MetricDispatcher Nat where
  identity := ⟨1, .l2, .f32⟩
  prepare := fun values => .ok values.length
  storable := fun _ => .ok ()
  validatePrepared := fun _ => .ok ()
  distance := fun lhs rhs => ((lhs - rhs + (rhs - lhs) : Nat) : Rat)

theorem line_dispatcher_valid : lineDispatcher.Valid := by
  intro lhs rhs
  refine ⟨fun _ => ?_, fun hmetric => absurd hmetric (by decide)⟩
  exact Rat.natCast_nonneg

/-- Two linked slots at positions 0 and 5, and a slot at position 1. -/
def narrowGraph : HnswStorage Nat where
  config := narrowConfig
  nodes := [⟨10, true, false, false, 0, [1], []⟩, ⟨11, true, false, false, 5, [0], []⟩,
    ⟨12, true, false, false, 1, [], []⟩]
  currentSlots := (((∅ : Std.ExtTreeMap Int64 Nat).insert 10 0).insert 11 1).insert 12 2
  valid := true
  slots_fit := by decide

theorem narrow_graph_well_linked : narrowGraph.WellLinked := by
  have hadj : ∀ level slot, narrowGraph.adjacency level slot =
      if level = 0 ∧ slot = 0 then [1] else if level = 0 ∧ slot = 1 then [0] else [] := by
    intro level slot
    rcases slot with _ | _ | _ | slot <;> cases level <;> simp [adjacency, narrowGraph, HnswNode.layer]
  refine ⟨fun level => ⟨fun x => ?_, fun x => ?_, fun x y => ?_⟩, fun level slot => ?_⟩
  · rw [hadj]
    split
    · exact nodup_singleton 1
    · split
      · exact nodup_singleton 0
      · exact nodup_nil
  · rw [hadj]
    split_ifs with h₁ h₂
    · simp [h₁.2]
    · simp [h₂.2]
    · exact not_mem_nil
  · rw [hadj, hadj]
    split_ifs <;> simp_all
  · rw [hadj]
    unfold capacityAt
    split_ifs <;> simp [narrowGraph, narrowConfig]

/-- The full list of the first slot takes the nearer slot, and the slot it drops loses its only
edge. -/
theorem connect_bidirectional_linked_narrow : ∃ result next,
    connectBidirectional lineDispatcher 2 0 [0] ⟨3, 0, 0, 2⟩ narrowGraph = (result, next) ∧
      next.WellLinked ∧ next.adjacency 0 0 = [2] ∧ next.adjacency 0 1 = [] ∧
      next.adjacency 0 2 = [0] := by
  obtain ⟨result, next, hrun, hlinked, -⟩ := connect_bidirectional_linked narrowGraph lineDispatcher
    2 0 [0] ⟨3, 0, 0, 2⟩ narrow_graph_well_linked line_dispatcher_valid rfl
  have hlists : ((connectBidirectional lineDispatcher 2 0 [0] ⟨3, 0, 0, 2⟩ narrowGraph).2.nodes.map
      (·.base)) = [[2], [], [0]] := by decide +kernel
  rw [hrun] at hlists
  have hget : ∀ slot, next.adjacency 0 slot = (next.nodes.map (·.base))[slot]?.getD [] := by
    intro slot
    rw [getElem?_map]
    unfold adjacency
    cases next.nodes[slot]? <;> rfl
  refine ⟨result, next, hrun, hlinked, ?_, ?_, ?_⟩ <;> rw [hget, hlists] <;> rfl

end Akasha.Hnsw

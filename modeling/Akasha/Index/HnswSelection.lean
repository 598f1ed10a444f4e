import Akasha.Index.HnswHeap
import Mathlib.Data.List.Dedup

/-!
# Selecting neighbours in any order

`_select_neighbors_heuristic` as its callers see it, with the candidates as they are handed over
and the counter of distance evaluations: the candidates go through a heap, and the evaluations are
counted on the side until the selection has succeeded. What is selected is `selectNeighbors` of the
distinct candidates (`select_heuristic_ok`), and `select_neighbors_order_free` says what that is
and that the order of the candidates does not matter.
-/

namespace Akasha.Hnsw

open Lib Lib.Exec List

/-- A candidate as it is handed over; the distance is missing when it is not finite. -/
structure SelectionCandidate where
  id : Int64
  slot : Nat
  distance : Option Rat
deriving DecidableEq, Repr

/-- `HnswBuildStats` with the counter that a selection advances. -/
structure SelectionStats extends HnswBuildStats where
  distanceEvaluations : Nat
deriving DecidableEq, Repr

variable {V : Type}

variable {item : HnswHeapItem}

namespace HnswStorage

variable (graph : HnswStorage V) (dispatcher : MetricDispatcher V)

/-- The checks on a candidate, in the order of the source. -/
def readCandidate (requireCurrent : Bool) (candidate : SelectionCandidate) :
    Except String HnswHeapItem := do
  let storedId ← graph.idAt candidate.slot
  require (candidate.id = storedId) "HNSW candidate public ID does not match graph slot"
  require (requireCurrent = true → graph.isCurrent candidate.slot = true)
    "HNSW neighbor selection requires current candidates"
  let distance ← candidate.distance.elim (.error "HNSW candidate distance must be finite") .ok
  dispatcher.checkDistance "L2 and cosine candidate distances cannot be negative"
    "cosine candidate distance cannot exceed two" distance
  pure ⟨candidate.id, candidate.slot, distance⟩

/-- The loop over the selected neighbours, with the number of evaluations. -/
def countDiverse (candidate : HnswHeapItem) : List Nat → Nat → Except String (Bool × Nat)
  | [], count => .ok (true, count)
  | selected :: rest, count => do
      let pairDistance ← graph.distanceBetween dispatcher candidate.slot selected
      dispatcher.checkDistance "L2 and cosine pair distances cannot be negative"
        "cosine neighbor-pair distance cannot exceed two" pairDistance
      if pairDistance < candidate.distance then pure (false, count + 1)
      else countDiverse candidate rest (count + 1)

/-- The selection loop, with the number of evaluations. -/
def countSelect (capacity : Nat) :
    List HnswHeapItem → List Nat → List Nat → Nat → Except String ((List Nat × List Nat) × Nat)
  | [], selected, pruned, count => .ok ((selected, pruned), count)
  | candidate :: rest, selected, pruned, count =>
      if capacity ≤ selected.length then .ok ((selected, pruned), count)
      else do
        let (diverse, count) ← graph.countDiverse dispatcher candidate selected count
        if diverse then countSelect capacity rest (selected ++ [candidate.slot]) pruned count
        else countSelect capacity rest selected (pruned ++ [candidate.slot]) count

/-- `_select_neighbors_heuristic` before it commits the number of evaluations. -/
def selectHeuristic (candidates : List SelectionCandidate) (excluded : Option Nat) (capacity : Int)
    (keepPruned requireCurrent : Bool) : Except String (List Nat × Nat) := do
  require (0 ≤ capacity) "HNSW neighbor selection capacity cannot be negative"
  require (dispatcher.identity = graph.config.identity)
    "metric dispatcher identity does not match HNSW graph"
  checkEach excluded.toList fun slot => do
    let _ ← graph.idAt slot
    pure ()
  let items ← candidates.mapM (graph.readCandidate dispatcher requireCurrent)
  let heap := (items.filter fun item => excluded ≠ some item.slot).foldl pushCandidate #[]
  let ordered := firstSlots [] (popAll isWorse heap)
  let ((selected, pruned), count) ← graph.countSelect dispatcher capacity.toNat ordered [] [] 0
  if keepPruned then pure (selected ++ pruned.take (capacity.toNat - selected.length), count)
  else pure (selected, count)

/-- `_select_neighbors_heuristic`. -/
def selectNeighborsHeuristic (candidates : List SelectionCandidate) (excluded : Option Nat)
    (capacity : Int) (keepPruned requireCurrent : Bool) :
    Exec SelectionStats String (List Nat) := do
  let found ← lift
    (graph.selectHeuristic dispatcher candidates excluded capacity keepPruned requireCurrent)
  update fun stats =>
    { stats with distanceEvaluations := stats.distanceEvaluations + found.2 }
  pure found.1

/-! ## The counter aside -/

variable {graph : HnswStorage V} {dispatcher : MetricDispatcher V}

theorem count_diverse_fst (candidate : HnswHeapItem) (selected : List Nat) (count : Nat) :
    Prod.fst <$> graph.countDiverse dispatcher candidate selected count =
      graph.isDiverse dispatcher candidate selected := by
  induction selected generalizing count with
  | nil => rfl
  | cons slot rest ih =>
      rw [countDiverse, isDiverse]
      cases graph.distanceBetween dispatcher candidate.slot slot with
      | error message => rfl
      | ok distance =>
          cases hcheck : dispatcher.checkDistance "L2 and cosine pair distances cannot be negative"
              "cosine neighbor-pair distance cannot exceed two" distance with
          | error message => simp only [bind, Except.bind, hcheck]; rfl
          | ok u =>
              simp only [bind, Except.bind, hcheck]
              by_cases hlt : distance < candidate.distance
              · rw [if_pos hlt, if_pos hlt]
                rfl
              · rw [if_neg hlt, if_neg hlt]
                exact ih (count + 1)

theorem count_select_fst (capacity : Nat) (ordered : List HnswHeapItem) (selected pruned : List Nat)
    (count : Nat) :
    Prod.fst <$> graph.countSelect dispatcher capacity ordered selected pruned count =
      graph.selectDiverse dispatcher capacity ordered selected pruned := by
  induction ordered generalizing selected pruned count with
  | nil => rfl
  | cons candidate rest ih =>
      rw [countSelect, selectDiverse]
      by_cases hfull : capacity ≤ selected.length
      · rw [if_pos hfull, if_pos hfull]
        rfl
      · rw [if_neg hfull, if_neg hfull, ← count_diverse_fst candidate selected count]
        cases graph.countDiverse dispatcher candidate selected count with
        | error message => rfl
        | ok found =>
            obtain ⟨diverse, counted⟩ := found
            cases diverse with
            | true => exact ih _ _ _
            | false => exact ih _ _ _

/-! ## What the selection loop does -/

/-- The item is strictly nearer to the slot than to the centre. -/
def NearerTo (graph : HnswStorage V) (dispatcher : MetricDispatcher V) (item : HnswHeapItem)
    (slot : Nat) : Prop :=
  ∃ distance, graph.distanceBetween dispatcher item.slot slot = .ok distance ∧
    distance < item.distance

/-- The item is at most as far from the centre as from the slot. -/
def CentreNearest (graph : HnswStorage V) (dispatcher : MetricDispatcher V) (item : HnswHeapItem)
    (slot : Nat) : Prop :=
  ∃ distance, graph.distanceBetween dispatcher item.slot slot = .ok distance ∧
    item.distance ≤ distance

theorem is_diverse_ok {selected : List Nat} {diverse : Bool}
    (h : graph.isDiverse dispatcher item selected = .ok diverse) :
    (diverse = true → ∀ slot ∈ selected, graph.CentreNearest dispatcher item slot) ∧
      (diverse = false → ∃ slot ∈ selected, graph.NearerTo dispatcher item slot) := by
  induction selected with
  | nil =>
      obtain rfl := Except.ok.inj h
      exact ⟨fun _ => (by intros; contradiction), (by intros; contradiction)⟩
  | cons slot rest ih =>
      simp only [isDiverse, bind_ok, exists_unit] at h
      obtain ⟨distance, hdistance, -, h⟩ := h
      by_cases hlt : distance < item.distance
      · rw [if_pos hlt] at h
        obtain rfl := pure_ok.1 h
        exact ⟨(by intros; contradiction), fun _ => ⟨slot, mem_cons_self, distance, hdistance, hlt⟩⟩
      · rw [if_neg hlt] at h
        obtain ⟨hall, hsome⟩ := ih h
        refine ⟨fun htrue => forall_mem_cons.2 ⟨⟨distance, hdistance, not_lt.1 hlt⟩,
          hall htrue⟩, fun hfalse => ?_⟩
        obtain ⟨other, hother, hnearer⟩ := hsome hfalse
        exact ⟨other, mem_cons_of_mem _ hother, hnearer⟩

/-- How the loop divides the ordered candidates: those it chose, those it passed over, and the rest
that it did not consider because there was no room. -/
structure Divides (graph : HnswStorage V) (dispatcher : MetricDispatcher V) (capacity : Nat)
    (selected : List Nat) (ordered chosen passed rest : List HnswHeapItem) : Prop where
  considered : ∃ front, ordered = front ++ rest ∧ front.Perm (chosen ++ passed)
  full : rest ≠ [] → capacity ≤ (selected ++ chosen.map (·.slot)).length
  nearer : ∀ item ∈ passed, ∃ slot ∈ selected ++ chosen.map (·.slot),
    graph.NearerTo dispatcher item slot
  apart : ∀ item ∈ chosen, ∀ slot ∈ selected, graph.CentreNearest dispatcher item slot
  diverse : chosen.Pairwise fun earlier later => graph.CentreNearest dispatcher later earlier.slot

theorem select_diverse_divides {capacity : Nat} {ordered : List HnswHeapItem}
    {selected pruned : List Nat} {found : List Nat × List Nat}
    (hrun : graph.selectDiverse dispatcher capacity ordered selected pruned = .ok found) :
    ∃ chosen passed rest, graph.Divides dispatcher capacity selected ordered chosen passed rest ∧
      found.1 = selected ++ chosen.map (·.slot) ∧ found.2 = pruned ++ passed.map (·.slot) := by
  induction ordered generalizing selected pruned with
  | nil =>
      obtain rfl := Except.ok.inj hrun
      exact ⟨[], [], [], ⟨⟨[], rfl, .refl _⟩, fun h => absurd rfl h, nofun, nofun, .nil⟩,
        (append_nil _).symm, (append_nil _).symm⟩
  | cons item ordered ih =>
      rw [selectDiverse] at hrun
      by_cases hfull : capacity ≤ selected.length
      · rw [if_pos hfull] at hrun
        obtain rfl := Except.ok.inj hrun
        refine ⟨[], [], item :: ordered, ⟨⟨[], rfl, .refl _⟩, fun _ => ?_, nofun, nofun, .nil⟩,
          (append_nil _).symm, (append_nil _).symm⟩
        rwa [map_nil, append_nil]
      rw [if_neg hfull] at hrun
      obtain ⟨diverse, hdiverse, hrun⟩ := bind_ok.1 hrun
      obtain ⟨hall, hsome⟩ := is_diverse_ok hdiverse
      cases diverse with
      | true =>
          obtain ⟨chosen, passed, rest, hdivides, hfirst, hsecond⟩ := ih hrun
          obtain ⟨front, rfl, hperm⟩ := hdivides.considered
          have hslots : selected ++ [item.slot] ++ chosen.map (·.slot) =
              selected ++ (item :: chosen).map (·.slot) := by
            rw [append_assoc]
            rfl
          have hafull := hdivides.full
          have hnearer := hdivides.nearer
          rw [hslots] at hfirst hafull hnearer
          refine ⟨item :: chosen, passed, rest, ⟨⟨item :: front, rfl, hperm.cons item⟩, hafull,
            hnearer, ?_, ?_⟩, hfirst, hsecond⟩
          · refine forall_mem_cons.2 ⟨hall rfl, fun other hother slot hslot => ?_⟩
            exact hdivides.apart other hother slot (mem_append_left _ hslot)
          · refine pairwise_cons.2 ⟨fun later hlater => ?_, hdivides.diverse⟩
            exact hdivides.apart later hlater item.slot
              (mem_append_right _ (mem_singleton.2 rfl))
      | false =>
          obtain ⟨chosen, passed, rest, hdivides, hfirst, hsecond⟩ := ih hrun
          obtain ⟨front, rfl, hperm⟩ := hdivides.considered
          refine ⟨chosen, item :: passed, rest, ⟨⟨item :: front, rfl, ?_⟩, hdivides.full, ?_,
            hdivides.apart, hdivides.diverse⟩, hfirst, ?_⟩
          · exact (hperm.cons item).trans perm_middle.symm
          · refine forall_mem_cons.2 ⟨?_, hdivides.nearer⟩
            obtain ⟨slot, hslot, hnearer⟩ := hsome rfl
            exact ⟨slot, mem_append_left _ hslot, hnearer⟩
          · rw [hsecond, append_assoc]
            rfl

/-! ## The distinct candidates -/

end HnswStorage

theorem first_slots_sublist (seen : List Nat) (items : List HnswHeapItem) :
    List.Sublist (firstSlots seen items) items := by
  induction items generalizing seen with
  | nil => exact .slnil
  | cons item items ih =>
      rw [firstSlots]
      split
      · exact (ih seen).cons item
      · exact (ih _).cons_cons item

/-- In sorted items the first of a slot is not behind any other of it. -/
theorem first_slots_cover {seen : List Nat} {items : List HnswHeapItem}
    (hsorted : items.Pairwise ItemLe) (hitem : item ∈ items) (hnew : item.slot ∉ seen) :
    ∃ first ∈ firstSlots seen items, first.slot = item.slot ∧ ItemLe first item := by
  induction items generalizing seen with
  | nil => exact absurd hitem not_mem_nil
  | cons head items ih =>
      obtain ⟨hhead, hrest⟩ := pairwise_cons.1 hsorted
      rw [firstSlots]
      by_cases hseen : head.slot ∈ seen
      · rw [if_pos hseen]
        rcases mem_cons.1 hitem with rfl | hitem
        · exact absurd hseen hnew
        · exact ih hrest hitem hnew
      · rw [if_neg hseen]
        by_cases hslot : head.slot = item.slot
        · refine ⟨head, mem_cons_self, hslot, ?_⟩
          rcases mem_cons.1 hitem with rfl | hitem
          · exact (total_of ItemLe item item).elim id id
          · exact hhead item hitem
        · have hitem := (mem_cons.1 hitem).resolve_left fun heq => hslot (by rw [heq])
          obtain ⟨first, hfirst, hspec⟩ := ih hrest hitem
            (show item.slot ∉ head.slot :: seen by
              rw [mem_cons, not_or]
              exact ⟨fun heq => hslot heq.symm, hnew⟩)
          exact ⟨first, mem_cons_of_mem _ hfirst, hspec⟩

theorem distance_le_of_item_le {lhs rhs : HnswHeapItem} (h : ItemLe lhs rhs) :
    lhs.distance ≤ rhs.distance := by
  rw [item_le_iff, HnswHeapItem.key, HnswHeapItem.key, Prod.Lex.toLex_le_toLex] at h
  rcases h with hlt | ⟨heq, -⟩
  · exact hlt.le
  · exact heq.le

/-- The item of a slot with the least distance that was handed over for it. -/
structure NearestItem (candidates : List SelectionCandidate) (item : HnswHeapItem) : Prop where
  handed : (⟨item.id, item.slot, some item.distance⟩ : SelectionCandidate) ∈ candidates
  least : ∀ candidate ∈ candidates, candidate.slot = item.slot →
    ∀ distance ∈ candidate.distance, item.distance ≤ distance

/-- The slots that were handed over, each once, without the excluded one. -/
def distinctSlots (candidates : List SelectionCandidate) (excluded : Option Nat) : List Nat :=
  ((candidates.map (·.slot)).filter fun slot => excluded ≠ some slot).dedup

namespace HnswStorage

variable {graph : HnswStorage V} {dispatcher : MetricDispatcher V}
  {candidates : List SelectionCandidate} {excluded : Option Nat} {capacity : Int}
  {keepPruned requireCurrent : Bool} {values : List Nat} {count : Nat}

theorem read_candidate_ok {candidate : SelectionCandidate}
    (h : graph.readCandidate dispatcher requireCurrent candidate = .ok item) :
    candidate = ⟨item.id, item.slot, some item.distance⟩ ∧ graph.idAt item.slot = .ok item.id ∧
      graph.checkCandidate dispatcher requireCurrent item = .ok () := by
  obtain ⟨id, slot, distance⟩ := candidate
  simp only [readCandidate, bind_ok, exists_unit, require_ok, pure_ok] at h
  obtain ⟨storedId, hid, rfl, hcurrent, finite, hfinite, hcheck, rfl⟩ := h
  cases distance with
  | none => cases hfinite
  | some distance =>
      obtain rfl := Except.ok.inj hfinite
      refine ⟨rfl, hid, ?_⟩
      simp only [checkCandidate, bind_ok, exists_unit, require_ok]
      exact ⟨_, hid, rfl, hcurrent, hcheck⟩

/-- A selection is the selection among the items of the candidates. -/
theorem select_heuristic_ok (h : graph.selectHeuristic dispatcher candidates excluded capacity
      keepPruned requireCurrent = .ok (values, count)) :
    ∃ items, candidates.mapM (graph.readCandidate dispatcher requireCurrent) = .ok items ∧
      graph.selectNeighbors dispatcher items excluded capacity.toNat keepPruned requireCurrent =
        .ok values := by
  simp only [selectHeuristic, bind_ok, exists_unit, require_ok] at h
  obtain ⟨-, hidentity, hexcluded, items, hitems, ⟨⟨selected, pruned⟩, counted⟩, hcount, h⟩ := h
  have hchecks : checkEach items (graph.checkCandidate dispatcher requireCurrent) = .ok () := by
    refine check_each_ok.2 fun item hitem => ?_
    obtain ⟨candidate, -, hread⟩ := forall₂_exists_left (map_m_ok.1 hitems) hitem
    exact (read_candidate_ok hread).2.2
  rw [pop_all_pushed] at hcount
  have hselect := @count_select_fst V graph dispatcher capacity.toNat
    (firstSlots [] ((items.filter fun item => excluded ≠ some item.slot).insertionSort ItemLe))
    [] [] 0
  rw [hcount] at hselect
  refine ⟨items, hitems, ?_⟩
  simp only [selectNeighbors, bind_ok, exists_unit, require_ok]
  refine ⟨hidentity, hexcluded, hchecks, (selected, pruned), hselect.symm, ?_⟩
  cases keepPruned with
  | true =>
      obtain ⟨rfl, -⟩ := Prod.mk.inj (pure_ok.1 h)
      rfl
  | false =>
      obtain ⟨rfl, -⟩ := Prod.mk.inj (pure_ok.1 h)
      rfl

/-- The distinct items, best first, from which the selection is made. -/
def distinctItems (items : List HnswHeapItem) (excluded : Option Nat) : List HnswHeapItem :=
  firstSlots [] ((items.filter fun item => excluded ≠ some item.slot).insertionSort ItemLe)

variable {items : List HnswHeapItem}

variable (excluded items) in
theorem distinct_items_sorted : (distinctItems items excluded).Pairwise ItemLe :=
  (pairwise_insertionSort ItemLe _).sublist (first_slots_sublist [] _)

theorem distinct_items_nodup : ((distinctItems items excluded).map (·.slot)).Nodup :=
  (first_slots_spec [] _).1

theorem mem_of_distinct (h : item ∈ distinctItems items excluded) :
    item ∈ items ∧ excluded ≠ some item.slot := by
  have hin := (mem_insertionSort ItemLe).1 ((first_slots_sublist [] _).subset h)
  rwa [mem_filter, decide_eq_true_eq] at hin

theorem distinct_items_cover (hitem : item ∈ items) (hincluded : excluded ≠ some item.slot) :
    ∃ first ∈ distinctItems items excluded, first.slot = item.slot ∧ ItemLe first item := by
  refine first_slots_cover (pairwise_insertionSort ItemLe _) ?_ not_mem_nil
  rw [mem_insertionSort, mem_filter, decide_eq_true_eq]
  exact ⟨hitem, hincluded⟩

/-- The distinct items are the nearest ones that were handed over. -/
theorem mem_distinct_iff
    (hitems : candidates.mapM (graph.readCandidate dispatcher requireCurrent) = .ok items) :
    item ∈ distinctItems items excluded ↔
      NearestItem candidates item ∧ excluded ≠ some item.slot := by
  rw [map_m_ok] at hitems
  have hread : ∀ found ∈ items, graph.idAt found.slot = .ok found.id ∧
      (⟨found.id, found.slot, some found.distance⟩ : SelectionCandidate) ∈ candidates := by
    intro found hfound
    obtain ⟨candidate, hcandidate, hread⟩ := forall₂_exists_left hitems hfound
    obtain ⟨rfl, hid, -⟩ := read_candidate_ok hread
    exact ⟨hid, hcandidate⟩
  have hhanded : ∀ candidate ∈ candidates, ∃ found ∈ items, found.slot = candidate.slot ∧
      candidate.distance = some found.distance ∧ found.id = candidate.id := by
    intro candidate hcandidate
    obtain ⟨found, hfound, hread⟩ := forall₂_exists_right hitems hcandidate
    obtain ⟨rfl, -⟩ := read_candidate_ok hread
    exact ⟨found, hfound, rfl, rfl, rfl⟩
  constructor
  · intro hitem
    obtain ⟨hin, hincluded⟩ := mem_of_distinct hitem
    refine ⟨⟨(hread item hin).2, fun candidate hcandidate hslot distance hdistance => ?_⟩,
      hincluded⟩
    obtain ⟨other, hother, hotherSlot, hotherDistance, -⟩ := hhanded candidate hcandidate
    obtain ⟨first, hfirst, hfirstSlot, hle⟩ := distinct_items_cover hother
      (show excluded ≠ _ by rwa [hotherSlot, hslot])
    have hsame : first = item := inj_on_of_nodup_map distinct_items_nodup hfirst hitem
      (by rw [hfirstSlot, hotherSlot, hslot])
    rw [hotherDistance] at hdistance
    obtain rfl := Option.some.inj hdistance
    rw [← hsame]
    exact distance_le_of_item_le hle
  · rintro ⟨hnearest, hincluded⟩
    obtain ⟨found, hfound, hslot, hdistance, hid⟩ := hhanded _ hnearest.handed
    obtain ⟨first, hfirst, hfirstSlot, hle⟩ := distinct_items_cover hfound
      (show excluded ≠ _ by rwa [hslot])
    have hin := (hread first (mem_of_distinct hfirst).1)
    have hleast := hnearest.least _ hin.2 (hfirstSlot.trans hslot) _ rfl
    have hsame : first = item := by
      have hstored := (hread found hfound).1
      rw [← hfirstSlot, hin.1] at hstored
      have hge := distance_le_of_item_le hle
      rw [← Option.some.inj hdistance] at hge
      obtain ⟨firstId, firstSlot, firstDistance⟩ := first
      obtain ⟨itemId, itemSlot, itemDistance⟩ := item
      simp only at hfirstSlot hslot hstored hge hleast hid
      rw [Except.ok.injEq] at hstored
      rw [hstored, hid, hfirstSlot, hslot, le_antisymm hge hleast]
    rwa [← hsame]

theorem distinct_slots_perm
    (hitems : candidates.mapM (graph.readCandidate dispatcher requireCurrent) = .ok items) :
    ((distinctItems items excluded).map (·.slot)).Perm (distinctSlots candidates excluded) := by
  rw [distinctSlots, perm_ext_iff_of_nodup distinct_items_nodup (nodup_dedup _)]
  intro slot
  rw [mem_dedup, mem_filter, decide_eq_true_eq, mem_map, mem_map]
  constructor
  · rintro ⟨item, hitem, rfl⟩
    obtain ⟨hnearest, hincluded⟩ := (mem_distinct_iff hitems).1 hitem
    exact ⟨⟨_, hnearest.handed, rfl⟩, hincluded⟩
  · rintro ⟨⟨candidate, hcandidate, rfl⟩, hincluded⟩
    obtain ⟨item, hitem, hread⟩ := forall₂_exists_right (map_m_ok.1 hitems) hcandidate
    obtain ⟨rfl, -⟩ := read_candidate_ok hread
    obtain ⟨first, hfirst, hslot, -⟩ := distinct_items_cover hitem hincluded
    exact ⟨first, hfirst, hslot⟩

/-! ## The selection -/

/-- What a selection returns. -/
structure Selects (graph : HnswStorage V) (dispatcher : MetricDispatcher V)
    (candidates : List SelectionCandidate) (excluded : Option Nat) (capacity : Int)
    (keepPruned : Bool) (values : List Nat) : Prop where
  nodup : values.Nodup
  candidate : ∀ value ∈ values, value ∈ distinctSlots candidates excluded
  length_le : (values.length : Int) ≤ capacity
  /-- With the pruned candidates the lists are as full as they can be. -/
  filled : keepPruned = true →
    values.length = min capacity.toNat (distinctSlots candidates excluded).length
  /-- Without them, no chosen slot is nearer to one chosen before it than to the centre. -/
  diverse : keepPruned = false → values.Pairwise fun earlier later =>
    ∀ item, NearestItem candidates item → item.slot = later →
      graph.CentreNearest dispatcher item earlier
  /-- There is room for an item when fewer slots are chosen than fit, or one that is not better. -/
  passed : keepPruned = false → ∀ item, NearestItem candidates item → excluded ≠ some item.slot →
    item.slot ∉ values →
      ((values.length : Int) < capacity ∨
        ∃ later, NearestItem candidates later ∧ later.slot ∈ values ∧ isBetter item later = true) →
      ∃ slot ∈ values, graph.NearerTo dispatcher item slot

theorem select_heuristic_selects (h : graph.selectHeuristic dispatcher candidates excluded capacity
      keepPruned requireCurrent = .ok (values, count)) :
    graph.Selects dispatcher candidates excluded capacity keepPruned values := by
  have hcapacity : 0 ≤ capacity := by
    simp only [selectHeuristic, bind_ok, exists_unit, require_ok] at h
    exact h.1
  obtain ⟨items, hitems, hselect⟩ := select_heuristic_ok h
  obtain ⟨hnodup, hlength, hfrom⟩ := select_neighbors_spec hselect
  simp only [selectNeighbors, bind_ok, exists_unit] at hselect
  obtain ⟨-, -, -, found, hfound, hselect⟩ := hselect
  obtain ⟨chosen, passed, rest, hdivides, hchosen, hpassed⟩ := select_diverse_divides hfound
  obtain ⟨front, hordered, hperm⟩ := hdivides.considered
  have hslots : ((distinctItems items excluded).map (·.slot)).Perm
      (distinctSlots candidates excluded) := distinct_slots_perm hitems
  rw [nil_append] at hchosen hpassed
  have hcount : (distinctSlots candidates excluded).length =
      found.1.length + found.2.length + rest.length := by
    rw [← hslots.length_eq, length_map, distinctItems, hordered, length_append,
      hperm.length_eq, length_append, hchosen, hpassed, length_map, length_map]
  have hfull : rest ≠ [] → capacity.toNat ≤ found.1.length := fun hne => by
    rw [hchosen]
    exact hdivides.full hne
  -- The nearest item of a slot is the only distinct item of it.
  have hsame : ∀ {first second : HnswHeapItem}, first ∈ distinctItems items excluded →
      NearestItem candidates second → second.slot = first.slot → second = first := by
    intro first second hfirst hsecond hslot
    obtain ⟨-, hincluded⟩ := (mem_distinct_iff hitems).1 hfirst
    refine inj_on_of_nodup_map distinct_items_nodup ?_ hfirst hslot
    exact (mem_distinct_iff hitems).2 ⟨hsecond, by rwa [hslot]⟩
  have hin : ∀ item ∈ chosen ++ passed, item ∈ distinctItems items excluded := fun item hitem => by
    rw [distinctItems, hordered]
    exact mem_append_left _ (hperm.mem_iff.2 hitem)
  refine ⟨hnodup, fun value hvalue => ?_, by omega, fun hkeep => ?_, fun hkeep => ?_,
    fun hkeep => ?_⟩
  · obtain ⟨hincluded, item, hitem, rfl⟩ := hfrom value hvalue
    obtain ⟨first, hfirst, hslot, -⟩ := distinct_items_cover hitem hincluded
    exact hslots.mem_iff.1 (mem_map.2 ⟨first, hfirst, hslot⟩)
  · rw [hkeep, if_pos rfl] at hselect
    obtain rfl := pure_ok.1 hselect
    rw [length_append, length_take] at hlength ⊢
    by_cases hrest : rest = []
    · rw [hrest, length_nil] at hcount
      omega
    · have := hfull hrest
      omega
  · rw [hkeep, if_neg Bool.false_ne_true, pure_ok] at hselect
    rw [← hselect, hchosen, pairwise_map]
    refine hdivides.diverse.imp_of_mem fun {earlier later} hearlier hlater hcentre item hnearest
      hslot => ?_
    rwa [hsame (hin later (mem_append_left _ hlater)) hnearest hslot]
  · rw [hkeep, if_neg Bool.false_ne_true, pure_ok] at hselect
    intro item hnearest hincluded hout hroom
    rw [← hselect, hchosen] at hout hroom ⊢
    have hitem : item ∈ front ++ rest := by
      rw [← hordered]
      exact (mem_distinct_iff hitems).2 ⟨hnearest, hincluded⟩
    rcases mem_append.1 hitem with hfront | hrest
    · rcases mem_append.1 (hperm.mem_iff.1 hfront) with hmem | hmem
      · exact absurd (mem_map_of_mem hmem) hout
      · obtain ⟨slot, hslot, hnearer⟩ := hdivides.nearer item hmem
        exact ⟨slot, hslot, hnearer⟩
    -- No room is left for what was not considered.
    · have hle := hfull (ne_nil_of_mem hrest)
      rw [hchosen] at hle
      rcases hroom with hlt | ⟨later, hlater, hvalue, hbetter⟩
      · omega
      · obtain ⟨other, hother, hslot⟩ := mem_map.1 hvalue
        have hfound := hin other (mem_append_left _ hother)
        obtain rfl := hsame hfound hlater hslot.symm
        have hsorted := distinct_items_sorted excluded items
        rw [distinctItems, hordered, pairwise_append] at hsorted
        have hbefore := hsorted.2.2 later (hperm.mem_iff.2 (mem_append_left _ hother)) item hrest
        exact absurd hbefore ((is_better_iff_not_le item later).1 hbetter)

/-! ## The order of the candidates -/

theorem select_heuristic_perm {permuted : List SelectionCandidate} (hperm : permuted.Perm candidates)
    (h : graph.selectHeuristic dispatcher candidates excluded capacity keepPruned requireCurrent =
      .ok (values, count)) :
    graph.selectHeuristic dispatcher permuted excluded capacity keepPruned requireCurrent =
      .ok (values, count) := by
  simp only [selectHeuristic, bind_ok, exists_unit, require_ok] at h ⊢
  obtain ⟨hcapacity, hidentity, hexcluded, items, hitems, h⟩ := h
  obtain ⟨permutedItems, hpermuted, hsame⟩ :=
    perm_comp_forall₂ hperm (map_m_ok.1 hitems)
  refine ⟨hcapacity, hidentity, hexcluded, permutedItems, map_m_ok.2 hpermuted, ?_⟩
  have hordered : (permutedItems.filter fun item => excluded ≠ some item.slot).insertionSort ItemLe =
      (items.filter fun item => excluded ≠ some item.slot).insertionSort ItemLe :=
    sorted_unique_items (pairwise_insertionSort ItemLe _)
      ((perm_insertionSort ItemLe _).trans (hsame.filter _).symm)
  rw [pop_all_pushed] at h ⊢
  rwa [hordered]

theorem select_neighbors_heuristic_run (stats : SelectionStats) :
    graph.selectNeighborsHeuristic dispatcher candidates excluded capacity keepPruned
        requireCurrent stats =
      match graph.selectHeuristic dispatcher candidates excluded capacity keepPruned
        requireCurrent with
      | .ok (values, count) => (.ok values,
          { stats with distanceEvaluations := stats.distanceEvaluations + count })
      | .error error => (.error error, stats) := by
  unfold selectNeighborsHeuristic
  cases hselect : graph.selectHeuristic dispatcher candidates excluded capacity keepPruned
      requireCurrent with
  | error error => exact bind_of_error rfl
  | ok found => rfl


/-- Every permutation of the candidates gives the same selection or raises as well; what is
selected has its properties whatever the distances are; a selection that raises counts nothing. -/
theorem select_neighbors_order_free (graph : HnswStorage V) (dispatcher : MetricDispatcher V)
    (candidates : List SelectionCandidate) (excluded : Option Nat) (capacity : Int)
    (keepPruned requireCurrent : Bool) (stats : SelectionStats) :
    (∀ permuted : List SelectionCandidate, permuted.Perm candidates → ∀ values next,
      graph.selectNeighborsHeuristic dispatcher permuted excluded capacity keepPruned requireCurrent
          stats = (.ok values, next) ↔
        graph.selectNeighborsHeuristic dispatcher candidates excluded capacity keepPruned
          requireCurrent stats = (.ok values, next)) ∧
    (∀ values next, graph.selectNeighborsHeuristic dispatcher candidates excluded capacity keepPruned
        requireCurrent stats = (.ok values, next) →
      graph.Selects dispatcher candidates excluded capacity keepPruned values) ∧
    ∀ error next, graph.selectNeighborsHeuristic dispatcher candidates excluded capacity keepPruned
      requireCurrent stats = (.error error, next) → next = stats := by
  have hpermuted : ∀ first second : List SelectionCandidate, first.Perm second → ∀ values next,
      graph.selectNeighborsHeuristic dispatcher first excluded capacity keepPruned requireCurrent
          stats = (.ok values, next) →
        graph.selectNeighborsHeuristic dispatcher second excluded capacity keepPruned requireCurrent
          stats = (.ok values, next) := by
    intro first second hperm values next h
    rw [select_neighbors_heuristic_run] at h ⊢
    cases hselect : graph.selectHeuristic dispatcher first excluded capacity keepPruned
        requireCurrent with
    | error error =>
        rw [hselect] at h
        cases h
    | ok found =>
        rw [select_heuristic_perm hperm.symm hselect]
        rwa [hselect] at h
  refine ⟨fun permuted hperm values next => ⟨hpermuted _ _ hperm values next,
    hpermuted _ _ hperm.symm values next⟩, fun values next h => ?_, fun error next h => ?_⟩
  · rw [select_neighbors_heuristic_run] at h
    cases hselect : graph.selectHeuristic dispatcher candidates excluded capacity keepPruned
        requireCurrent with
    | error error =>
        rw [hselect] at h
        cases h
    | ok found =>
        rw [hselect] at h
        cases h
        exact select_heuristic_selects hselect
  · rw [select_neighbors_heuristic_run] at h
    cases hselect : graph.selectHeuristic dispatcher candidates excluded capacity keepPruned
        requireCurrent with
    | error error =>
        rw [hselect] at h
        cases h
        rfl
    | ok found =>
        rw [hselect] at h
        cases h

end HnswStorage

end Akasha.Hnsw

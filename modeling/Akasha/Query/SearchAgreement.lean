import Akasha.Compute.Rational
import Akasha.Query.ExactSearch

/-!
# The exact searches agree

Every executor keeps the best of its part of the rows, and the best of these are the best of all
(`best_flatten_best`). With the filters of the layers read as sets of rows, each search of a root
over a table returns the best of the table's live points that have a default vector and satisfy
the filter: `exact_searches_agree`.
-/

namespace Akasha.Query

open Lib Compute Storage List

variable {S : Type} [LinearOrder S]

/-! ## Vectors that pass every check -/

/-- A vector of the dimension whose values are finite and whose norm counts as non-zero wherever
it is tested. -/
structure ScoreKernels.Accepts (kernels : ScoreKernels S) (metric : ScanMetric) (dimension : Nat)
    (values : List F32) : Prop where
  length_eq : values.length = dimension
  finite : ∀ value ∈ values, value.isFinite = true
  nonzero : metric = .cosine →
    kernels.normIsZero values = false ∧ kernels.laneNormIsZero values = false

/-- Both kernels give the same score. -/
def ScoreKernels.Agree (kernels : ScoreKernels S) : Prop :=
  ∀ metric lhs rhs, kernels.checked metric lhs rhs = kernels.prevalidated metric lhs rhs

/-- The best `k` of some rows, by score and identifier. -/
def bestOf (kernels : ScoreKernels S) (metric : ScanMetric) (query : List F32) (k : Int)
    (rows : List MemTableEntry) : List (TopKEntry S) :=
  best (TopKEntry.Ahead metric.smallerIsBetter) k.toNat (kernels.scored metric query rows)

variable {kernels : ScoreKernels S} {metric : ScanMetric} {dimension : Nat} {query : List F32}
  {k : Int}

omit [LinearOrder S] in
theorem checked_score_ok (hagree : kernels.Agree) (hdim : 0 < dimension)
    (hquery : kernels.Accepts metric dimension query) {values : List F32}
    (hvalues : kernels.Accepts metric dimension values) :
    kernels.checkedScore metric query values = .ok (kernels.prevalidated metric query values) := by
  have hlength := hquery.length_eq
  have hnonzero : metric = .cosine →
      ¬ (kernels.laneNormIsZero query ∨ kernels.laneNormIsZero values) := by
    intro hcosine
    rw [(hquery.nonzero hcosine).2, (hvalues.nonzero hcosine).2]
    simp
  refine bind_ok.2 ⟨(), require_ok.2 (by omega), bind_ok.2 ⟨(), require_ok.2
    (hlength.trans hvalues.length_eq.symm), bind_ok.2 ⟨(), require_ok.2
    ⟨hquery.finite, hvalues.finite⟩, bind_ok.2 ⟨(), require_ok.2 hnonzero, ?_⟩⟩⟩⟩
  exact congrArg Except.ok (hagree metric query values)

omit [LinearOrder S] in
theorem check_query_ok (hquery : kernels.Accepts metric dimension query) :
    kernels.checkQuery metric query = .ok () := by
  refine bind_ok.2 ⟨(), require_ok.2 hquery.finite, require_ok.2 fun hcosine => ?_⟩
  rw [(hquery.nonzero hcosine).1]
  exact Bool.false_ne_true

omit [LinearOrder S] in
theorem check_norm_ok {entry : MemTableEntry}
    (hentry : kernels.Accepts metric dimension entry.values) :
    kernels.checkNorm metric entry = .ok () := by
  refine require_ok.2 fun hcosine => ?_
  rw [(hentry.nonzero hcosine).1]
  exact Bool.false_ne_true

/-! ## One heap over the places -/

/-- The entries at the places. -/
def placeRows (places : List (MemTable × Nat)) : List MemTableEntry :=
  places.filterMap fun place => place.1.entries[place.2]?

/-- A place whose entry the executors accept. -/
def Scannable (kernels : ScoreKernels S) (metric : ScanMetric) (dimension : Nat)
    (table : MemTable) (ordinal : Nat) : Prop :=
  ∃ entry, table.entries[ordinal]? = some entry ∧ entry.tombstone = false ∧
    kernels.Accepts metric dimension entry.values

theorem entry_ref_at_ok {table : MemTable} {ordinal : Nat} {entry : MemTableEntry}
    (h : table.entries[ordinal]? = some entry) : table.entryRefAt ordinal = .ok entry := by
  unfold MemTable.entryRefAt
  rw [h]
  rfl

theorem offer_places_ok (hagree : kernels.Agree) (hdim : 0 < dimension)
    (hquery : kernels.Accepts metric dimension query) {places : List (MemTable × Nat)}
    (hplaces : ∀ place ∈ places, Scannable kernels metric dimension place.1 place.2)
    (topk : Compute.BoundedTopK S) :
    offerPlaces kernels metric query topk places =
      .ok ((kernels.scored metric query (placeRows places)).foldl Compute.BoundedTopK.offer topk) := by
  induction places generalizing topk with
  | nil => rfl
  | cons place places ih =>
      obtain ⟨table, ordinal⟩ := place
      obtain ⟨entry, he, -, hentry⟩ := hplaces _ mem_cons_self
      refine bind_ok.2 ⟨entry, entry_ref_at_ok he, bind_ok.2
        ⟨_, checked_score_ok hagree hdim hquery hentry, ?_⟩⟩
      rw [ih fun place hplace => hplaces place (mem_cons_of_mem _ hplace)]
      have hrows : placeRows ((table, ordinal) :: places) = entry :: placeRows places := by
        unfold placeRows
        rw [filterMap_cons, he]
      rw [hrows]
      rfl

theorem offer_controlled_eq {control : QueryControl} (hcancelled : ∀ n, control.cancelled n = false)
    (hexpired : ∀ n, control.expired n = false) (index : Nat) (topk : Compute.BoundedTopK S)
    (places : List (MemTable × Nat)) :
    offerControlled kernels metric query control index topk places =
      offerPlaces kernels metric query topk places := by
  induction places generalizing index topk with
  | nil => rfl
  | cons place places ih =>
      have hcheck : control.checkpoint (index + 1) index = .ok () := by
        refine bind_ok.2 ⟨(), require_ok.2 (by omega), ?_⟩
        split
        · rfl
        · rw [hcancelled, hexpired]
          rfl
      simp only [offerControlled, offerPlaces, hcheck, ih]
      rfl

/-! ## The rows that a search is about -/

variable {root : ReadGeneration} {keep : MemTableEntry → Bool}

/-- The slots to keep, layer by layer. -/
def pickedLayers (root : ReadGeneration) (keep : MemTableEntry → Bool) : List (List Nat) :=
  root.layers.map (·.picked keep)

theorem places_picked (root : ReadGeneration) (keep : MemTableEntry → Bool) :
    places root (pickedLayers root keep) =
      root.layers.flatMap fun layer => (layer.picked keep).map (layer.table, ·) := by
  unfold places pickedLayers
  induction root.layers with
  | nil => rfl
  | cons layer layers ih =>
      rw [map_cons, zip_cons_cons, flatMap_cons, flatMap_cons, ih]

theorem place_rows_picked (root : ReadGeneration) (keep : MemTableEntry → Bool) :
    placeRows (places root (pickedLayers root keep)) = root.rows.filter keep := by
  rw [places_picked]
  unfold placeRows ReadGeneration.rows
  rw [filterMap_flatMap, filter_flatMap]
  refine flatMap_congr fun layer _ => ?_
  rw [filterMap_map]
  exact ReadLayer.rows_at_picked layer keep

theorem total_of_picked (root : ReadGeneration) (keep : MemTableEntry → Bool) :
    totalOf (pickedLayers root keep) = (places root (pickedLayers root keep)).length := by
  rw [places_picked, length_flatMap]
  unfold totalOf pickedLayers
  rw [map_map]
  refine congrArg sum (map_congr_left fun layer _ => ?_)
  rw [length_map]
  rfl

/-- A root whose rows to keep pass every check. -/
structure Searchable (kernels : ScoreKernels S) (metric : ScanMetric) (dimension : Nat)
    (root : ReadGeneration) (keep : MemTableEntry → Bool) : Prop where
  layers_ne : root.layers ≠ []
  dimension_pos : 0 < dimension
  dimension_eq : root.config.dimension = dimension
  run_dimension : ∀ layer ∈ root.layers, layer.table.dimension = dimension
  slots : ∀ layer ∈ root.layers, ∀ o ∈ layer.picked keep,
    Scannable kernels metric dimension layer.table o

variable {ordinals : List Nat}

omit [LinearOrder S] in
theorem length_rows_at {table : MemTable}
    (h : ∀ o ∈ ordinals, Scannable kernels metric dimension table o) :
    (table.rowsAt ordinals).length = ordinals.length := by
  unfold MemTable.rowsAt
  rw [filterMap_length_eq_length]
  intro o ho
  obtain ⟨entry, he, -⟩ := h o ho
  rw [he]
  rfl

section Searchable

variable (hroot : Searchable kernels metric dimension root keep)

include hroot

omit [LinearOrder S] in
theorem places_scannable : ∀ place ∈ places root (pickedLayers root keep),
    Scannable kernels metric dimension place.1 place.2 := by
  intro place hplace
  rw [places_picked] at hplace
  obtain ⟨layer, hlayer, hplace⟩ := mem_flatMap.1 hplace
  obtain ⟨o, ho, rfl⟩ := mem_map.1 hplace
  exact hroot.slots layer hlayer o ho

omit [LinearOrder S] in
theorem total_of_rows : totalOf (pickedLayers root keep) = (root.rows.filter keep).length := by
  rw [total_of_picked, ← place_rows_picked]
  unfold placeRows
  symm
  rw [filterMap_length_eq_length]
  intro place hplace
  obtain ⟨entry, he, -⟩ := places_scannable hroot place hplace
  rw [he]
  rfl

/-- One heap over all places keeps the best rows. -/
theorem scan_ok (hagree : kernels.Agree) (hquery : kernels.Accepts metric dimension query)
    (hk : 0 < k) :
    scan kernels root query k metric (pickedLayers root keep) =
      .ok (bestOf kernels metric query k (root.rows.filter keep)) := by
  have htotal := total_of_rows hroot
  unfold scan
  by_cases hnone : totalOf (pickedLayers root keep) = 0
  · have hnil : root.rows.filter keep = [] := length_eq_zero_iff.1 (htotal ▸ hnone)
    rw [if_pos hnone, hnil]
    exact congrArg Except.ok (best_nil _ _).symm
  · rw [if_neg hnone]
    have hoffer := offer_places_ok hagree hroot.dimension_pos hquery (places_scannable hroot)
    rw [place_rows_picked] at hoffer
    have hne : kernels.scored metric query (root.rows.filter keep) ≠ [] := by
      intro hnil
      have := congrArg length hnil
      rw [ScoreKernels.scored, length_map, ← htotal] at this
      exact hnone this
    have hcollect := Compute.BoundedTopK.collect_min_ok hk metric.smallerIsBetter hne
    rw [ScoreKernels.scored, length_map, ← htotal, ← ScoreKernels.scored] at hcollect
    obtain ⟨topk, htopk, hentries⟩ := bind_ok.1 hcollect
    exact bind_ok.2 ⟨topk, htopk, bind_ok.2 ⟨_, hoffer topk, hentries⟩⟩

end Searchable

/-! ## Heaps that are merged -/

theorem merge_ok (hk : 0 < k) (metric : ScanMetric) (parts : List (List (TopKEntry S))) :
    merge parts k metric =
      .ok (best (TopKEntry.Ahead metric.smallerIsBetter) k.toNat parts.flatten) := by
  have htotal : totalOf parts = parts.flatten.length := length_flatten.symm
  unfold merge
  rw [htotal]
  by_cases hnone : parts.flatten.length = 0
  · rw [if_pos hnone, length_eq_zero_iff.1 hnone, best_nil]
    rfl
  · rw [if_neg hnone]
    exact Compute.BoundedTopK.collect_min_ok hk _ fun hnil => hnone (by rw [hnil]; rfl)

theorem best_of_flatten (k : Int) (parts : List (List MemTableEntry)) :
    best (TopKEntry.Ahead metric.smallerIsBetter) k.toNat
        (parts.map (bestOf kernels metric query k)).flatten =
      bestOf kernels metric query k parts.flatten := by
  have hparts : parts.map (bestOf kernels metric query k) =
      (parts.map (kernels.scored metric query)).map
        (best (TopKEntry.Ahead metric.smallerIsBetter) k.toNat) := by
    rw [map_map]
    rfl
  have hscored : (parts.map (kernels.scored metric query)).flatten =
      kernels.scored metric query parts.flatten := map_flatten.symm
  rw [hparts, best_flatten_best, hscored]
  rfl

theorem range_slots_flatten (ordinals : List Nat) {count : Nat} (hcount : 0 < count) :
    (range count).flatMap (rangeSlots ordinals count) = ordinals := by
  have hslices := flat_map_slices ordinals (fun i => ordinals.length * i / count)
    (by rw [Nat.mul_zero, Nat.zero_div])
    (fun i => Nat.div_le_div_right (Nat.mul_le_mul_left _ (Nat.le_succ i))) count
  rw [Nat.mul_div_cancel _ hcount, take_length] at hslices
  exact hslices

theorem execute_parallel_scan_ok {table : MemTable} (hdim : table.dimension = dimension)
    (hquery : kernels.Accepts metric dimension query)
    (hslots : ∀ o ∈ ordinals, Scannable kernels metric dimension table o) (hk : 0 < k)
    (workers : Nat) :
    executeParallelScan kernels table ordinals query k metric workers =
      .ok (bestOf kernels metric query k (table.rowsAt ordinals)) := by
  have hchecks : checkEach ordinals (fun ordinal => do
      let entry ← table.entryRefAt ordinal
      require (¬ entry.tombstone) "parallel scan candidate slot is not live"
      require (entry.values.length = table.dimension) "parallel scan candidate dimension mismatch"
      kernels.checkNorm metric entry) = .ok () := by
    refine check_each_ok.2 fun o ho => ?_
    obtain ⟨entry, he, hlive, hentry⟩ := hslots o ho
    refine bind_ok.2 ⟨entry, entry_ref_at_ok he, bind_ok.2 ⟨(), require_ok.2
      (by rw [hlive]; exact Bool.false_ne_true), bind_ok.2 ⟨(), require_ok.2
      (hentry.length_eq.trans hdim.symm), check_norm_ok hentry⟩⟩⟩
  refine bind_ok.2 ⟨(), require_ok.2 (hquery.length_eq.trans hdim.symm), bind_ok.2
    ⟨(), require_ok.2 hk, bind_ok.2 ⟨(), require_ok.2 (by omega), bind_ok.2
    ⟨(), check_query_ok hquery, bind_ok.2 ⟨(), hchecks, ?_⟩⟩⟩⟩⟩
  by_cases hnone : ordinals.length = 0
  · rw [if_pos hnone, length_eq_zero_iff.1 hnone]
    exact congrArg Except.ok (best_nil _ _).symm
  · rw [if_neg hnone]
    have hresult : 0 < min k ordinals.length := by omega
    have hcount : 0 < (rangeCount workers ordinals.length).toNat := by
      unfold rangeCount
      split <;> omega
    generalize (rangeCount workers ordinals.length).toNat = count at hcount
    -- Each range keeps its best, and together the ranges are all slots.
    refine bind_ok.2
      ⟨_, map_m_map fun i _ => Compute.BoundedTopK.collect_ok hresult _ _, ?_⟩
    have hparts : ((range count).map fun i =>
        best (TopKEntry.Ahead metric.smallerIsBetter) (min k ordinals.length).toNat
          (kernels.scored metric query (table.rowsAt (rangeSlots ordinals count i)))) =
        ((range count).map fun i =>
          kernels.scored metric query (table.rowsAt (rangeSlots ordinals count i))).map
          (best (TopKEntry.Ahead metric.smallerIsBetter) (min k ordinals.length).toNat) := by
      rw [map_map]
      rfl
    have hflatten : ((range count).map fun i =>
        kernels.scored metric query (table.rowsAt (rangeSlots ordinals count i))).flatten =
        kernels.scored metric query (table.rowsAt ordinals) := by
      conv_rhs => rw [← range_slots_flatten ordinals hcount]
      unfold ScoreKernels.scored MemTable.rowsAt
      rw [filterMap_flatMap, map_flatMap, flatMap_def]
    have hmin : (min k ordinals.length).toNat = min k.toNat ordinals.length := by omega
    have hlength : (kernels.scored metric query (table.rowsAt ordinals)).length =
        ordinals.length := by
      rw [ScoreKernels.scored, length_map, length_rows_at hslots]
    rw [Compute.BoundedTopK.collect_ok hresult, hparts, best_flatten_best, hflatten, hmin, ← hlength,
      best_min_length]
    rfl

theorem flatten_rows (root : ReadGeneration) (keep : MemTableEntry → Bool) :
    (root.layers.map fun layer => (ReadGeneration.rowsOf layer).filter keep).flatten =
      root.rows.filter keep := by
  unfold ReadGeneration.rows
  rw [filter_flatMap, flatMap_def]

theorem search_parallel_ok (hroot : Searchable kernels metric dimension root keep)
    (hquery : kernels.Accepts metric dimension query) (hk : 0 < k) (workers : Nat) :
    searchParallel kernels root query k metric workers (pickedLayers root keep) =
      .ok (bestOf kernels metric query k (root.rows.filter keep)) := by
  have hzip : root.layers.zip (pickedLayers root keep) =
      root.layers.map fun layer => (layer, layer.picked keep) := by
    unfold pickedLayers
    induction root.layers with
    | nil => rfl
    | cons layer layers ih => rw [map_cons, zip_cons_cons, ih, map_cons]
  have hparts : (root.layers.zip (pickedLayers root keep)).mapM (fun part =>
      executeParallelScan kernels part.1.run.memtable part.2 query k metric workers) =
      .ok ((root.layers.map fun layer => (ReadGeneration.rowsOf layer).filter keep).map
        (bestOf kernels metric query k)) := by
    rw [hzip, map_m_map (g := fun part =>
      bestOf kernels metric query k (part.1.table.rowsAt part.2)), map_map, map_map]
    · refine congrArg Except.ok (map_congr_left fun layer _ => ?_)
      show bestOf kernels metric query k _ = bestOf kernels metric query k _
      rw [ReadLayer.rows_at_picked]
    · intro part hpart
      obtain ⟨layer, hlayer, rfl⟩ := mem_map.1 hpart
      exact execute_parallel_scan_ok (hroot.run_dimension layer hlayer) hquery
        (hroot.slots layer hlayer) hk workers
  refine bind_ok.2 ⟨_, hparts, ?_⟩
  rw [merge_ok hk, best_of_flatten, flatten_rows]

/-! ## Batches of queries -/

/-- The results of each item over the layers are merged item by item. -/
theorem merge_batch_ok {ι : Type} (hk : 0 < k) {layers : List ReadLayer} (hne : layers ≠ [])
    (items : List ι) (part : ReadLayer → ι → List (TopKEntry S)) :
    mergeBatch (layers.map fun layer => items.map (part layer)) items.length k metric =
      .ok (items.map fun item => best (TopKEntry.Ahead metric.smallerIsBetter) k.toNat
        (layers.map (part · item)).flatten) := by
  have hshape : ¬ ((layers.map fun layer => items.map (part layer)).length = 0 ∨
      ((layers.map fun layer => items.map (part layer)).headD []).length ≠ items.length) := by
    cases layers with
    | nil => exact absurd rfl hne
    | cons layer layers => simp
  unfold mergeBatch
  rw [if_neg hshape, map_m_map (g := fun i => best (TopKEntry.Ahead metric.smallerIsBetter)
    k.toNat ((layers.map fun layer => items.map (part layer)).map (·.getD i [])).flatten)
    fun i _ => merge_ok hk metric _]
  refine congrArg Except.ok (ext_getElem (by simp) fun i hi hi' => ?_)
  rw [getElem_map, getElem_map, getElem_range, map_map]
  congr 2
  refine map_congr_left fun layer _ => ?_
  have hlt : i < items.length := by simpa using hi'
  simp [getD_eq_getElem?_getD, getElem?_map, getElem?_eq_getElem hlt]

variable {queries : List (List F32)}

theorem execute_exact_ordinal_batch_ok {table : MemTable} (hdim : table.dimension = dimension)
    (hqueries : ∀ query ∈ queries, kernels.Accepts metric dimension query)
    (hslots : ∀ o ∈ ordinals, Scannable kernels metric dimension table o) (hk : 0 < k)
    (workers : Nat) :
    executeExactOrdinalBatch kernels table queries ordinals k metric workers =
      .ok (queries.map fun query => bestOf kernels metric query k (table.rowsAt ordinals)) := by
  have hchecks : checkEach queries (checkBatchQuery kernels table metric) = .ok () := by
    refine check_each_ok.2 fun query hquery => ?_
    have haccepts := hqueries query hquery
    exact bind_ok.2 ⟨(), require_ok.2 (haccepts.length_eq.trans hdim.symm),
      check_query_ok haccepts⟩
  refine bind_ok.2 ⟨(), require_ok.2 hk, bind_ok.2 ⟨(), require_ok.2 (by omega),
    bind_ok.2 ⟨(), hchecks, ?_⟩⟩⟩
  by_cases hnone : queries.length = 0
  · rw [if_pos hnone, length_eq_zero_iff.1 hnone]
    rfl
  · rw [if_neg hnone]
    have hlive : checkEach ordinals (checkBatchSlot kernels table metric) = .ok () := by
      refine check_each_ok.2 fun o ho => ?_
      obtain ⟨entry, he, hlive, hentry⟩ := hslots o ho
      exact bind_ok.2 ⟨entry, entry_ref_at_ok he, bind_ok.2 ⟨(), require_ok.2
        (by rw [hlive]; exact Bool.false_ne_true), check_norm_ok hentry⟩⟩
    have hlength := length_rows_at hslots
    refine bind_ok.2 ⟨(), hlive, ?_⟩
    by_cases hzero : min k ordinals.length = 0
    · -- A layer without candidates has no results.
      have hnil : table.rowsAt ordinals = [] := length_eq_zero_iff.1 (by omega)
      rw [if_pos hzero, hnil]
      refine congrArg Except.ok (map_congr_left fun query _ => ?_)
      exact (best_nil _ _).symm
    · rw [if_neg hzero]
      refine map_m_map fun query _ => ?_
      have hne : kernels.scored metric query (table.rowsAt ordinals) ≠ [] := by
        intro hnil
        have := congrArg length hnil
        rw [ScoreKernels.scored, length_map, hlength, length_nil] at this
        omega
      have hcollect := Compute.BoundedTopK.collect_min_ok hk metric.smallerIsBetter hne
      rwa [ScoreKernels.scored, length_map, hlength] at hcollect

theorem execute_exact_candidate_batch_ok {table : MemTable} {candidates : List (List Nat)}
    (hdim : table.dimension = dimension) (hcounts : queries.length = candidates.length)
    (hqueries : ∀ query ∈ queries, kernels.Accepts metric dimension query)
    (hslots : ∀ ordinals ∈ candidates, ∀ o ∈ ordinals,
      Scannable kernels metric dimension table o) (hk : 0 < k) (workers : Nat) :
    executeExactCandidateBatch kernels table queries candidates k metric workers =
      .ok ((queries.zip candidates).map fun item =>
        bestOf kernels metric item.1 k (table.rowsAt item.2)) := by
  have hchecks : checkEach (queries.zip candidates)
      (fun item => checkBatchItem kernels table metric item.1 item.2) = .ok () := by
    refine check_each_ok.2 fun item hitem => ?_
    obtain ⟨hquery, hordinals⟩ := of_mem_zip hitem
    have haccepts := hqueries _ hquery
    refine bind_ok.2 ⟨(), bind_ok.2 ⟨(), require_ok.2
      (haccepts.length_eq.trans hdim.symm), check_query_ok haccepts⟩, bind_ok.2
      ⟨(), check_each_ok.2 fun o ho => ?_, check_each_ok.2 fun o ho => ?_⟩⟩
    · obtain ⟨entry, he, hlive, -⟩ := hslots _ hordinals o ho
      exact bind_ok.2 ⟨entry, entry_ref_at_ok he, require_ok.2
        (by rw [hlive]; exact Bool.false_ne_true)⟩
    · obtain ⟨entry, he, -, hentry⟩ := hslots _ hordinals o ho
      exact bind_ok.2 ⟨entry, entry_ref_at_ok he, check_norm_ok hentry⟩
  refine bind_ok.2 ⟨(), require_ok.2 hcounts, bind_ok.2 ⟨(), require_ok.2 hk,
    bind_ok.2 ⟨(), require_ok.2 (by omega), bind_ok.2 ⟨(), hchecks, ?_⟩⟩⟩⟩
  by_cases hnone : queries.length = 0
  · rw [if_pos hnone, length_eq_zero_iff.1 hnone]
    rfl
  · rw [if_neg hnone]
    exact map_m_map fun item _ => Compute.BoundedTopK.collect_ok hk _ _

/-! ## The searches of a root -/

variable {table : MemTable}

/-- The live entries of a table that have a default vector. -/
def denseRows (table : MemTable) : List MemTableEntry :=
  table.entries.filter fun entry => !entry.tombstone && entry.hasDense

/-- Those whose payloads a filter holds for. -/
def matchingRows (table : MemTable) (expression : FilterExpression) : List MemTableEntry :=
  (denseRows table).filter fun entry => expression.holds entry.payload

theorem best_of_rows (hroot : root.Over table) (keep : MemTableEntry → Bool) :
    bestOf kernels metric query k (root.rows.filter fun e => keep e && e.hasDense) =
      bestOf kernels metric query k ((denseRows table).filter keep) := by
  have hperm := (ReadGeneration.rows_perm hroot.shows hroot.table_wf).filter
    fun e => keep e && e.hasDense
  rw [filter_filter] at hperm
  have hrows : (denseRows table).filter keep =
      table.entries.filter fun e => (keep e && e.hasDense) && !e.tombstone := by
    unfold denseRows
    rw [filter_filter]
    refine filter_congr fun e _ => ?_
    cases keep e <;> cases e.hasDense <;> cases e.tombstone <;> rfl
  rw [hrows]
  exact best_perm _ (hperm.map _)

theorem over_layer (hroot : root.Over table) {layer : ReadLayer} (hlayer : layer ∈ root.layers) :
    layer.table.WellFormed ∧ layer.Sorted ∧ layer.run.Proper table.dimension := by
  obtain ⟨hwf, hsorted⟩ := layered_forall hroot.shows.layered layer hlayer
  exact ⟨hwf, hsorted, hroot.proper.runs layer hlayer⟩

omit [LinearOrder S] in
/-- A root over a table of vectors that pass every check. -/
theorem over_searchable (hroot : root.Over table)
    (hstored : ∀ e ∈ denseRows table, kernels.Accepts metric table.dimension e.values)
    (keep : MemTableEntry → Bool) :
    Searchable kernels metric table.dimension root fun e => keep e && e.hasDense where
  layers_ne := hroot.proper.layers_ne
  dimension_pos := hroot.dimension_pos
  dimension_eq := hroot.proper.dimension_eq
  run_dimension := fun layer hlayer => (over_layer hroot hlayer).2.2.dimension_eq
  slots := by
    intro layer hlayer o ho
    obtain ⟨-, hsorted, -⟩ := over_layer hroot hlayer
    obtain ⟨e, he, hlive, hkeep⟩ := ReadLayer.picked_entry hsorted ho
    -- The entry of a visible slot is a row of the root, so it is in the table.
    have hrow : e ∈ root.rows := by
      refine mem_flatMap.2 ⟨layer, hlayer, mem_filterMap.2 ⟨o, ?_, he⟩⟩
      exact (mem_filter.1 ho).1
    have hentry := (ReadGeneration.rows_perm hroot.shows hroot.table_wf).mem_iff.1 hrow
    refine ⟨e, he, hlive, hstored e (mem_filter.2 ⟨(mem_filter.1 hentry).1, ?_⟩)⟩
    rw [hlive, (Bool.and_eq_true_iff.1 hkeep).2]
    rfl

theorem visible_layers_ok (hroot : root.Over table) :
    visibleLayers root = .ok (pickedLayers root fun e => true && e.hasDense) := by
  refine map_m_map fun layer hlayer => ?_
  obtain ⟨-, hsorted, -⟩ := over_layer hroot hlayer
  rw [← ReadLayer.picked_true hsorted, ReadLayer.dense_ordinals_picked hsorted]

theorem conditioned_layers_ok (hroot : root.Over table) (conditions : List FilterCondition) :
    conditionedLayers root conditions =
      .ok (pickedLayers root fun e => matchesAll e.payload conditions && e.hasDense) := by
  refine map_m_map fun layer hlayer => ?_
  obtain ⟨hwf, hsorted, hproper⟩ := over_layer hroot hlayer
  exact bind_ok.2 ⟨_, ReadLayer.conditioned_ordinals_ok hwf hsorted hproper conditions,
    ReadLayer.dense_ordinals_picked hsorted _⟩

variable {expression : FilterExpression}

theorem where_ordinals_ok (hroot : root.Over table) (hvalid : expression.validate = .ok ()) :
    ∃ enough, ∀ rounds, enough ≤ rounds → ∀ layer ∈ root.layers,
      whereOrdinals rounds layer expression =
        .ok (layer.picked fun e => expression.holds e.payload && e.hasDense) := by
  refine enough_for_all root.layers fun layer hlayer => ?_
  obtain ⟨hwf, hsorted, hproper⟩ := over_layer hroot hlayer
  obtain ⟨enough, henough⟩ := ReadLayer.filtered_ordinals_ok hwf hsorted hproper hvalid
  exact ⟨enough, fun rounds hrounds => bind_ok.2 ⟨_, henough rounds hrounds,
    ReadLayer.dense_ordinals_picked hsorted _⟩⟩

omit [LinearOrder S] in
theorem validate_query_ok (hroot : root.Over table)
    (hquery : kernels.Accepts metric table.dimension query) (hk : 0 < k) :
    validateQuery root query k = .ok () :=
  bind_ok.2 ⟨(), require_ok.2 (hquery.length_eq.trans hroot.proper.dimension_eq.symm),
    bind_ok.2 ⟨(), require_ok.2 hk, require_ok.2 hquery.finite⟩⟩

section Searches

variable (hroot : root.Over table) (hagree : kernels.Agree)
  (hstored : ∀ e ∈ denseRows table, kernels.Accepts metric table.dimension e.values) (hk : 0 < k)

include hroot hagree hstored hk

theorem search_filtered_ok (hquery : kernels.Accepts metric table.dimension query)
    (conditions : List FilterCondition) :
    searchFiltered kernels root query k metric conditions =
      .ok (bestOf kernels metric query k
        ((denseRows table).filter fun e => matchesAll e.payload conditions)) := by
  rw [← best_of_rows hroot]
  exact bind_ok.2 ⟨(), validate_query_ok hroot hquery hk, bind_ok.2
    ⟨(), check_each_ok.2 fun condition _ => condition.validate_ok, bind_ok.2
    ⟨_, conditioned_layers_ok hroot conditions,
      scan_ok (over_searchable hroot hstored _) hagree hquery hk⟩⟩⟩

theorem search_where_ok (hquery : kernels.Accepts metric table.dimension query)
    (hvalid : expression.validate = .ok ()) {rounds : Nat}
    (hrounds : ∀ layer ∈ root.layers, whereOrdinals rounds layer expression =
      .ok (layer.picked fun e => expression.holds e.payload && e.hasDense)) :
    searchWhere rounds kernels root query k metric expression =
      .ok (bestOf kernels metric query k (matchingRows table expression)) := by
  rw [matchingRows, ← best_of_rows hroot]
  exact bind_ok.2 ⟨(), validate_query_ok hroot hquery hk, bind_ok.2 ⟨(), hvalid,
    bind_ok.2 ⟨_, map_m_map hrounds,
      scan_ok (over_searchable hroot hstored _) hagree hquery hk⟩⟩⟩

theorem search_controlled_ok (hquery : kernels.Accepts metric table.dimension query)
    {control : QueryControl} (hcancelled : ∀ n, control.cancelled n = false)
    (hexpired : ∀ n, control.expired n = false)
    (hbudget : (denseRows table).length ≤ control.maxCandidates) :
    searchControlled kernels root query k metric control =
      .ok (bestOf kernels metric query k (denseRows table)) := by
  have hsearchable := over_searchable hroot hstored fun _ => true
  have htrue : (denseRows table).filter (fun _ => true) = denseRows table :=
    filter_eq_self.2 fun _ _ => rfl
  have hscan := scan_ok hsearchable hagree hquery hk
  rw [best_of_rows hroot, htrue] at hscan
  have htotal : totalOf (pickedLayers root fun e => true && e.hasDense) =
      (denseRows table).length := by
    rw [total_of_rows hsearchable]
    have hperm := (ReadGeneration.rows_perm hroot.shows hroot.table_wf).filter
      fun e => true && e.hasDense
    rw [hperm.length_eq, filter_filter]
    unfold denseRows
    refine congrArg length (filter_congr fun e _ => ?_)
    rw [Bool.true_and, Bool.and_comm]
  have hcheck : ∀ moment, control.checkpoint moment 0 = .ok () := by
    intro moment
    refine bind_ok.2 ⟨(), require_ok.2 (by omega), ?_⟩
    rw [if_neg (by simp), hcancelled, hexpired]
    rfl
  refine bind_ok.2 ⟨(), validate_query_ok hroot hquery hk, bind_ok.2
    ⟨_, visible_layers_ok hroot, bind_ok.2 ⟨(), require_ok.2 (by omega), bind_ok.2
    ⟨(), hcheck 0, ?_⟩⟩⟩⟩
  unfold scan at hscan
  by_cases hnone : totalOf (pickedLayers root fun e => true && e.hasDense) = 0
  · rw [if_pos hnone] at hscan ⊢
    exact hscan
  · rw [if_neg hnone] at hscan ⊢
    obtain ⟨topk, htopk, hscan⟩ := bind_ok.1 hscan
    obtain ⟨filled, hfilled, hentries⟩ := bind_ok.1 hscan
    exact bind_ok.2 ⟨topk, htopk, bind_ok.2
      ⟨filled, (offer_controlled_eq hcancelled hexpired 0 topk _).trans hfilled,
        bind_ok.2 ⟨(), hcheck _, hentries⟩⟩⟩

omit hagree

theorem search_visible_parallel_ok (hquery : kernels.Accepts metric table.dimension query)
    (workers : Nat) :
    searchVisibleParallel kernels root query k metric workers =
      .ok (bestOf kernels metric query k (denseRows table)) := by
  have hsearch := search_parallel_ok (over_searchable hroot hstored fun _ => true) hquery hk workers
  rw [best_of_rows hroot, filter_eq_self.2 fun _ _ => rfl] at hsearch
  exact bind_ok.2 ⟨_, visible_layers_ok hroot, hsearch⟩

theorem search_where_parallel_ok (hquery : kernels.Accepts metric table.dimension query)
    (hvalid : expression.validate = .ok ()) {rounds : Nat}
    (hrounds : ∀ layer ∈ root.layers, whereOrdinals rounds layer expression =
      .ok (layer.picked fun e => expression.holds e.payload && e.hasDense)) (workers : Nat) :
    searchWhereParallel rounds kernels root query k expression metric workers =
      .ok (bestOf kernels metric query k (matchingRows table expression)) := by
  rw [matchingRows, ← best_of_rows hroot]
  exact bind_ok.2 ⟨(), hvalid, bind_ok.2 ⟨_, map_m_map hrounds,
    search_parallel_ok (over_searchable hroot hstored _) hquery hk workers⟩⟩

theorem search_batch_ok
    (hqueries : ∀ query ∈ queries, kernels.Accepts metric table.dimension query) (workers : Nat) :
    searchBatch kernels root queries k metric workers =
      .ok (queries.map fun query => bestOf kernels metric query k (denseRows table)) := by
  have hsearchable := over_searchable hroot hstored fun _ => true
  have hparts : root.layers.mapM (fun layer => do
      let ordinals ← layer.denseOrdinals layer.visibleOrdinals
      executeExactOrdinalBatch kernels layer.run.memtable queries ordinals k metric workers) =
      .ok (root.layers.map fun layer => queries.map fun query => bestOf kernels metric query k
        ((ReadGeneration.rowsOf layer).filter fun e => true && e.hasDense)) := by
    refine map_m_map fun layer hlayer => ?_
    obtain ⟨-, hsorted, hproper⟩ := over_layer hroot hlayer
    rw [← ReadLayer.picked_true hsorted, ← ReadLayer.rows_at_picked]
    exact bind_ok.2 ⟨_, ReadLayer.dense_ordinals_picked hsorted _,
      execute_exact_ordinal_batch_ok hproper.dimension_eq hqueries
        (hsearchable.slots layer hlayer) hk workers⟩
  refine bind_ok.2 ⟨_, hparts, ?_⟩
  rw [merge_batch_ok hk hroot.proper.layers_ne queries]
  refine congrArg Except.ok (map_congr_left fun query _ => ?_)
  have htrue : (denseRows table).filter (fun _ => true) = denseRows table :=
    filter_eq_self.2 fun _ _ => rfl
  rw [← htrue, ← best_of_rows hroot, ← flatten_rows, ← best_of_flatten, map_map]
  rfl

theorem search_where_batch_ok {items : List (List F32 × FilterExpression)}
    (hqueries : ∀ item ∈ items, kernels.Accepts metric table.dimension item.1)
    (hvalid : ∀ item ∈ items, item.2.validate = .ok ()) {rounds : Nat}
    (hrounds : ∀ item ∈ items, ∀ layer ∈ root.layers, whereOrdinals rounds layer item.2 =
      .ok (layer.picked fun e => item.2.holds e.payload && e.hasDense)) (workers : Nat) :
    searchWhereBatch rounds kernels root (items.map Prod.fst) (items.map Prod.snd) k metric workers =
      .ok (items.map fun item =>
        bestOf kernels metric item.1 k (matchingRows table item.2)) := by
  have hparts : root.layers.mapM (fun layer => do
      let candidates ← (items.map Prod.snd).mapM (whereOrdinals rounds layer)
      executeExactCandidateBatch kernels layer.run.memtable (items.map Prod.fst) candidates k metric
        workers) =
      .ok (root.layers.map fun layer => items.map fun item : List F32 × FilterExpression =>
        bestOf kernels metric item.1 k ((ReadGeneration.rowsOf layer).filter fun e =>
          item.2.holds e.payload && e.hasDense)) := by
    refine map_m_map fun layer hlayer => ?_
    obtain ⟨-, hsorted, hproper⟩ := over_layer hroot hlayer
    have hcandidates : (items.map Prod.snd).mapM (whereOrdinals rounds layer) =
        .ok (items.map fun item => layer.picked fun e => item.2.holds e.payload && e.hasDense) := by
      rw [mapM_map]
      exact map_m_map fun item hitem => hrounds item hitem layer hlayer
    refine bind_ok.2 ⟨_, hcandidates, ?_⟩
    rw [execute_exact_candidate_batch_ok hproper.dimension_eq (by simp) ?_ ?_ hk workers]
    · rw [zip_map', map_map]
      refine congrArg Except.ok (map_congr_left fun item _ => ?_)
      exact congrArg _ (ReadLayer.rows_at_picked layer _)
    · intro query hquery
      obtain ⟨item, hitem, rfl⟩ := mem_map.1 hquery
      exact hqueries item hitem
    · intro ordinals hordinals
      obtain ⟨item, hitem, rfl⟩ := mem_map.1 hordinals
      exact (over_searchable hroot hstored _).slots layer hlayer
  have hvalidated : checkEach (items.map Prod.snd) FilterExpression.validate = .ok () := by
    refine check_each_ok.2 fun expression hexpression => ?_
    obtain ⟨item, hitem, rfl⟩ := mem_map.1 hexpression
    exact hvalid item hitem
  refine bind_ok.2 ⟨(), require_ok.2 (by simp), bind_ok.2 ⟨(), hvalidated,
    bind_ok.2 ⟨_, hparts, ?_⟩⟩⟩
  rw [length_map, merge_batch_ok hk hroot.proper.layers_ne items]
  refine congrArg Except.ok (map_congr_left fun item _ => ?_)
  rw [matchingRows, ← best_of_rows hroot, ← flatten_rows, ← best_of_flatten, map_map]
  rfl

end Searches

/-- All exact searches of a captured root return the best `k` by score and identifier of the
visible points that have a default vector and satisfy the filter: the single scan, the controlled
scan, the parallel scan with any number of workers, and each member of a batch. -/
theorem exact_searches_agree {reader : Reader} (h : ReaderReachable reader) {config : ReadConfig}
    {generation : Nat} {catalog : Option Nat} {pinned : Except String Unit}
    {cache : ReadGenerationCache} {root : ReadGeneration}
    (hrun : reader.cache.acquire config generation reader.sequence reader.table catalog pinned =
      (cache, .ok root))
    {kernels : ScoreKernels S} (hagree : kernels.Agree) {metric : ScanMetric}
    (hstored : ∀ e ∈ denseRows reader.table,
      kernels.Accepts metric reader.table.dimension e.values) {k : Int} (hk : 0 < k) :
    (∀ query, kernels.Accepts metric reader.table.dimension query →
      searchFiltered kernels root query k metric [] =
        .ok (bestOf kernels metric query k (denseRows reader.table)) ∧
      (∀ control : QueryControl, (∀ n, control.cancelled n = false) →
        (∀ n, control.expired n = false) →
        (denseRows reader.table).length ≤ control.maxCandidates →
        searchControlled kernels root query k metric control =
          .ok (bestOf kernels metric query k (denseRows reader.table))) ∧
      ∀ workers : Nat, searchVisibleParallel kernels root query k metric workers =
        .ok (bestOf kernels metric query k (denseRows reader.table))) ∧
    (∀ queries : List (List F32),
      (∀ query ∈ queries, kernels.Accepts metric reader.table.dimension query) →
      ∀ workers : Nat, searchBatch kernels root queries k metric workers =
        .ok (queries.map fun query => bestOf kernels metric query k (denseRows reader.table))) ∧
    ∀ items : List (List F32 × FilterExpression),
      (∀ item ∈ items, kernels.Accepts metric reader.table.dimension item.1) →
      (∀ item ∈ items, item.2.validate = .ok ()) →
      ∃ enough, ∀ rounds, enough ≤ rounds →
        (∀ item ∈ items,
          searchWhere rounds kernels root item.1 k metric item.2 =
            .ok (bestOf kernels metric item.1 k (matchingRows reader.table item.2)) ∧
          ∀ workers : Nat,
            searchWhereParallel rounds kernels root item.1 k item.2 metric workers =
              .ok (bestOf kernels metric item.1 k (matchingRows reader.table item.2))) ∧
        ∀ workers : Nat,
          searchWhereBatch rounds kernels root (items.map Prod.fst) (items.map Prod.snd) k metric
              workers =
            .ok (items.map fun item =>
              bestOf kernels metric item.1 k (matchingRows reader.table item.2)) := by
  have hroot := acquire_over h hrun
  refine ⟨fun query hquery => ⟨?_, ?_, ?_⟩, fun queries hqueries workers => ?_,
    fun items hqueries hvalid => ?_⟩
  · have hall : (denseRows reader.table).filter (fun e => matchesAll e.payload []) =
        denseRows reader.table := filter_eq_self.2 fun _ _ => rfl
    have hsearch := search_filtered_ok hroot hagree hstored hk hquery []
    rwa [hall] at hsearch
  · exact fun control hcancelled hexpired hbudget =>
      search_controlled_ok hroot hagree hstored hk hquery hcancelled hexpired hbudget
  · exact search_visible_parallel_ok hroot hstored hk hquery
  · exact search_batch_ok hroot hstored hk hqueries workers
  · obtain ⟨enough, henough⟩ := enough_for_all items fun item hitem =>
      where_ordinals_ok hroot (hvalid item hitem)
    refine ⟨enough, fun rounds hrounds => ⟨fun item hitem => ⟨?_, ?_⟩, ?_⟩⟩
    · exact search_where_ok hroot hagree hstored hk (hqueries item hitem) (hvalid item hitem)
        (henough rounds hrounds item hitem)
    · exact search_where_parallel_ok hroot hstored hk (hqueries item hitem) (hvalid item hitem)
        (henough rounds hrounds item hitem)
    · exact search_where_batch_ok hroot hstored hk hqueries hvalid (henough rounds hrounds)

/-- The metrics on the numbers that the floats denote. -/
def exactScore : ScanMetric → List F32 → List F32 → ℚ
  | .dot, lhs, rhs => dotRat (lhs.map F32.toRat) (rhs.map F32.toRat)
  | .l2, lhs, rhs => l2Rat (lhs.map F32.toRat) (rhs.map F32.toRat)
  | .cosine, lhs, rhs => cosineRat (lhs.map F32.toRat) (rhs.map F32.toRat)

/-- Kernels without rounding. -/
def exactKernels : ScoreKernels ℚ where
  checked := exactScore
  prevalidated := exactScore
  normIsZero values := exactScore .dot values values = 0
  laneNormIsZero values := exactScore .dot values values = 0

/-- The points whose payload has a value. -/
def sampleFilter : FilterExpression :=
  ⟨[⟨.condition, some ⟨"a", .equal, .integer 1, by decide +kernel, rfl⟩, []⟩], 0⟩

/-- The scans of a root over a base and a head: two points tie, the filter rejects the best one. -/
theorem exact_searches_agree_sample : ∃ cache root rounds,
    sampleReader.cache.acquire ⟨1, 0, .ok ()⟩ 0 sampleReader.sequence sampleReader.table none
      (.ok ()) = (cache, .ok root) ∧
      searchFiltered exactKernels root [⟨0x3F800000⟩] 2 .dot [] = .ok [⟨4, 2⟩, ⟨2, 1⟩] ∧
      searchVisibleParallel exactKernels root [⟨0x3F800000⟩] 2 .dot 3 = .ok [⟨4, 2⟩, ⟨2, 1⟩] ∧
      searchWhere rounds exactKernels root [⟨0x3F800000⟩] 2 .dot sampleFilter =
        .ok [⟨2, 1⟩, ⟨3, 1⟩] := by
  obtain ⟨cache, root, hrun, -⟩ := acquire_shows_table_sample
  have hbest : bestOf exactKernels .dot [⟨0x3F800000⟩] 2 (denseRows sampleReader.table) =
      [⟨4, 2⟩, ⟨2, 1⟩] := by decide +kernel
  -- the best point has another payload value, and the other two tie
  have hmatching : bestOf exactKernels .dot [⟨0x3F800000⟩] 2
      (matchingRows sampleReader.table sampleFilter) = [⟨2, 1⟩, ⟨3, 1⟩] := by decide +kernel
  have hlength : ∀ e ∈ denseRows sampleReader.table,
      e.values.length = sampleReader.table.dimension := by decide +kernel
  have hfinite : ∀ e ∈ denseRows sampleReader.table, ∀ value ∈ e.values,
      value.isFinite = true := by decide +kernel
  have hquery : exactKernels.Accepts .dot sampleReader.table.dimension [⟨0x3F800000⟩] :=
    ⟨by decide +kernel, by decide +kernel, nofun⟩
  obtain ⟨hsearch, -, hwhere⟩ := @exact_searches_agree ℚ _ _ sample_reader_reachable _ _ _ _ _ _
    hrun exactKernels (fun _ _ _ => rfl) .dot
    (fun e he => ⟨hlength e he, hfinite e he, nofun⟩) 2 (by decide)
  obtain ⟨hfiltered, -, hparallel⟩ := hsearch _ hquery
  obtain ⟨enough, henough⟩ := hwhere [([⟨0x3F800000⟩], sampleFilter)] 
    (forall_mem_singleton.2 hquery) (forall_mem_singleton.2 (by decide +kernel))
  have hfound := ((henough enough le_rfl).1 _ mem_cons_self).1
  rw [hbest] at hfiltered hparallel
  rw [hmatching] at hfound
  exact ⟨cache, root, enough, hrun, hfiltered, hparallel 3, hfound⟩

end Akasha.Query

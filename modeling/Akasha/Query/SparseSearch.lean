import Akasha.Query.Fusion
import Akasha.Query.SearchAgreement
import Akasha.Storage.SparseHits

/-!
# Sparse and hybrid search

The sparse and hybrid searches of `api/snapshot.mojo`. A filtered sparse search takes its filter
from `_where_layers`, which it shares with the dense searches and which keeps the slots with a
default dense vector only. `search_sparse_ok` says what the search returns for any filter of
slots, `search_hybrid_where_ok` what the filtered hybrid search fuses; `sparse_where_iff` says for
which tables the result is the best of all points that satisfy the filter. A sum of products may
be a NaN, which the heap does not rank: the results are about scores without one.
-/

namespace Akasha.Query

open Lib Compute Index Storage List

variable {S : Type} [LinearOrder S]

/-! ## The searches -/

section Searches

variable (nan : S → Bool)

/-- The hits of a layer that its filter matched, when there is a filter. -/
def keptHits (matched : Option (List Nat)) (hits : List (SparseHit S)) : List (TopKEntry S) :=
  (hits.filter fun hit => matched.all (containsSorted · hit.ordinal)).map fun hit =>
    ⟨hit.id, hit.score⟩

/-- The matched slots of each layer, when there is a filter. -/
def layerFilters (root : ReadGeneration) : Option (List (List Nat)) → List (Option (List Nat))
  | none => root.layers.map fun _ => none
  | some matched => matched.map some

/-- `_search_sparse`. -/
def searchSparse (ops : SparseOps S) (root : ReadGeneration) (query : List SparseElement) (k : Int)
    (matched : Option (List (List Nat))) : Except String (List (TopKEntry S)) := do
  validateSparse query
  require (0 < k) "k must be positive"
  let parts ← (root.layers.zip (layerFilters root matched)).mapM fun part => do
    let hits ← part.1.sparseHits ops query
    pure (keptHits part.2 hits)
  if parts.flatten.length = 0 then pure []
  else BoundedTopK.collectScores nan (min k parts.flatten.length) false parts.flatten

/-- `search_sparse_dot`. -/
def searchSparseDot (ops : SparseOps S) (root : ReadGeneration) (query : List SparseElement)
    (k : Int) : Except String (List (TopKEntry S)) :=
  searchSparse nan ops root query k none

/-- `search_sparse_dot_where`. -/
def searchSparseDotWhere (rounds : Nat) (ops : SparseOps S) (root : ReadGeneration)
    (query : List SparseElement) (k : Int) (expression : FilterExpression) :
    Except String (List (TopKEntry S)) := do
  validateSparse query
  expression.validate
  let layers ← whereLayers rounds root expression
  searchSparse nan ops root query k (some layers)

/-- `_validate_hybrid`. -/
def validateHybrid (root : ReadGeneration) (denseQuery : List F32)
    (sparseQuery : List SparseElement) (k fetchK rankConstant : Int) : Except String Unit := do
  validateQuery root denseQuery k
  validateSparse sparseQuery
  require (¬ fetchK < k) "hybrid fetch_k must be at least positive k"
  require (0 < rankConstant) "RRF rank constant must be positive"

/-- The sparse branch of `_search_hybrid_where`. -/
def hybridSparse (rounds : Nat) (ops : SparseOps S) (root : ReadGeneration)
    (query : List SparseElement) (fetchK : Int) (expression : FilterExpression) :
    Except String (List (TopKEntry S)) := do
  let layers ← whereLayers rounds root expression
  searchSparse nan ops root query fetchK (some layers)

end Searches

/-- `_search_hybrid_where`. -/
def searchHybridWhere (nan : ℚ → Bool) (rounds : Nat) (kernels : ScoreKernels ℚ)
    (ops : SparseOps ℚ) (root : ReadGeneration) (denseQuery : List F32) (sparseQuery : List SparseElement)
    (k fetchK rankConstant : Int) (metric : ScanMetric) (expression : FilterExpression) :
    Except String (List SearchResult) := do
  validateHybrid root denseQuery sparseQuery k fetchK rankConstant
  expression.validate
  let dense ← searchWhere rounds kernels root denseQuery fetchK metric expression
  let sparse ← hybridSparse nan rounds ops root sparseQuery fetchK expression
  reciprocalRankFusion dense sparse k rankConstant

/-! ## What a sparse search is for -/

/-- The rows that share a term with the query, scored. -/
def sparseScored (ops : SparseOps S) (query : List SparseElement) (rows : List MemTableEntry) :
    List (TopKEntry S) :=
  rows.filterMap fun row => (sharedScore ops query row.sparse).map (⟨row.id, ·⟩)

/-- The best `k` by score and identifier of the rows that share a term with the query. -/
def bestSparse (ops : SparseOps S) (query : List SparseElement) (k : Int)
    (rows : List MemTableEntry) : List (TopKEntry S) :=
  best (TopKEntry.Ahead false) k.toNat (sparseScored ops query rows)

/-- Every score is a number. -/
def Numbers (nan : S → Bool) (ops : SparseOps S) (query : List SparseElement)
    (rows : List MemTableEntry) : Prop :=
  ∀ entry ∈ sparseScored ops query rows, nan entry.score = false

/-- The live entries of a table. -/
def liveRows (table : MemTable) : List MemTableEntry :=
  table.entries.filter (!·.tombstone)

/-- The live entries whose payloads a filter holds for. -/
def satisfying (table : MemTable) (expression : FilterExpression) : List MemTableEntry :=
  (liveRows table).filter fun entry => expression.holds entry.payload

/-! ## What a sparse search returns -/

variable {root : ReadGeneration} {table : MemTable} {keep : MemTableEntry → Bool}
  {query : List SparseElement} {k : Int} {nan : S → Bool}

variable {rows : List MemTableEntry}

omit [LinearOrder S] in
theorem Numbers.filter {ops : SparseOps S} (h : Numbers nan ops query rows) :
    Numbers nan ops query (rows.filter keep) :=
  fun entry hentry => h entry ((List.filter_sublist.filterMap _).subset hentry)

omit [LinearOrder S] in
/-- The hits of a layer that are kept are its scored rows to keep. -/
theorem kept_hits_perm (ops : SparseOps S) {layer : ReadLayer} {hits : List (SparseHit S)}
    (hhits : hits.Perm (layer.visibleOrdinals.filterMap (rowHit ops query layer.table)))
    {matched : Option (List Nat)}
    (hmatched : ∀ o ∈ layer.visibleOrdinals,
      matched.all (containsSorted · o) = (layer.table.entries[o]?).any keep) :
    (keptHits matched hits).Perm
      (sparseScored ops query ((ReadGeneration.rowsOf layer).filter keep)) := by
  refine ((hhits.filter _).map _).trans (List.Perm.of_eq ?_)
  unfold sparseScored ReadGeneration.rowsOf
  rw [List.filter_filterMap, map_filterMap, filter_filterMap, filterMap_filterMap]
  refine filterMap_congr fun o ho => ?_
  have hkeep := hmatched o ho
  cases he : layer.table.entries[o]? with
  | none => simp [rowHit, he]
  | some e =>
      rw [he, Option.any_some] at hkeep
      have hrow : rowHit ops query layer.table o =
          (sharedScore ops query e.sparse).map (⟨o, e.id, ·⟩) := by
        unfold rowHit
        rw [he]
        rfl
      rw [hrow, Option.filter_some]
      cases hscore : sharedScore ops query e.sparse with
      | none => cases keep e <;> simp [hscore]
      | some score => cases hk : keep e <;> simp [hkeep, hk, hscore]

section Search

variable (hroot : root.Over table) (hstored : table.SparseValid) (ops : SparseOps S)
  (hquery : validateSparse query = .ok ())

include hroot hstored hquery

omit [LinearOrder S] in
theorem layer_hits_ok {layer : ReadLayer} (hlayer : layer ∈ root.layers)
    {matched : Option (List Nat)}
    (hmatched : ∀ o ∈ layer.visibleOrdinals,
      matched.all (containsSorted · o) = (layer.table.entries[o]?).any keep) :
    ∃ hits, (do
        let hits ← layer.sparseHits ops query
        pure (keptHits matched hits)) = Except.ok (ε := String) hits ∧
      hits.Perm (sparseScored ops query ((ReadGeneration.rowsOf layer).filter keep)) := by
  obtain ⟨hwf, hsorted, hproper⟩ := over_layer hroot hlayer
  have hascending : ∀ e ∈ ReadGeneration.rowsOf layer, Ascending e.sparse := by
    intro e he
    have hrow : e ∈ root.rows := mem_flatMap.2 ⟨layer, hlayer, he⟩
    have hentry := (ReadGeneration.rows_perm hroot.shows hroot.table_wf).mem_iff.1 hrow
    obtain ⟨hmem, hlive⟩ := mem_filter.1 hentry
    exact hstored.ascending hmem (by simpa using hlive)
  obtain ⟨hits, hrun, hperm⟩ :=
    ReadLayer.sparse_hits_ok ops hquery hwf hsorted hproper hascending
  exact ⟨_, bind_ok.2 ⟨hits, hrun, rfl⟩, kept_hits_perm ops hperm hmatched⟩

omit [LinearOrder S] in
/-- The layers together give the scored rows to keep. -/
theorem all_hits_ok {matched : ReadLayer → Option (List Nat)}
    (hmatched : ∀ layer ∈ root.layers, ∀ o ∈ layer.visibleOrdinals,
      (matched layer).all (containsSorted · o) = (layer.table.entries[o]?).any keep) :
    ∃ parts, (root.layers.zip (root.layers.map matched)).mapM (fun part => do
        let hits ← part.1.sparseHits ops query
        pure (keptHits part.2 hits)) = Except.ok (ε := String) parts ∧
      parts.flatten.Perm (sparseScored ops query (root.rows.filter keep)) := by
  have hlayer := fun layer (hlayer : layer ∈ root.layers) =>
    layer_hits_ok hroot hstored ops hquery hlayer (hmatched layer hlayer)
  rw [← map_prod_left_eq_zip, mapM_map]
  unfold ReadGeneration.rows
  revert hlayer
  generalize root.layers = layers
  intro hlayer
  induction layers with
  | nil => exact ⟨[], rfl, List.Perm.refl _⟩
  | cons layer layers ih =>
      obtain ⟨hits, hrun, hperm⟩ := hlayer layer mem_cons_self
      obtain ⟨parts, hparts, hrest⟩ := ih fun l hl => hlayer l (List.mem_cons_of_mem _ hl)
      refine ⟨hits :: parts, ?_, ?_⟩
      · rw [List.mapM_cons]
        exact bind_ok.2 ⟨hits, hrun, bind_ok.2 ⟨parts, hparts, rfl⟩⟩
      · rw [List.flatten_cons, flatMap_cons, filter_append]
        unfold sparseScored at hperm hrest ⊢
        rw [List.filterMap_append]
        exact hperm.append hrest

/-- A sparse search returns the best of the rows that share a term and are kept. -/
theorem search_sparse_ok (hk : 0 < k) {matched : Option (List (List Nat))}
    {filter : ReadLayer → Option (List Nat)}
    (hfilter : layerFilters root matched = root.layers.map filter)
    (hmatched : ∀ layer ∈ root.layers, ∀ o ∈ layer.visibleOrdinals,
      (filter layer).all (containsSorted · o) = (layer.table.entries[o]?).any keep)
    (hnumbers : Numbers nan ops query ((liveRows table).filter keep)) :
    searchSparse nan ops root query k matched =
      .ok (bestSparse ops query k ((liveRows table).filter keep)) := by
  obtain ⟨parts, hparts, hperm⟩ := all_hits_ok hroot hstored ops hquery hmatched
  have hrows := ((ReadGeneration.rows_perm hroot.shows hroot.table_wf).filter keep).filterMap
    fun row => (sharedScore ops query row.sparse).map (TopKEntry.mk row.id)
  rw [← hfilter] at hparts
  refine bind_ok.2 ⟨(), hquery, bind_ok.2 ⟨(), require_ok.2 hk, bind_ok.2
    ⟨parts, hparts, ?_⟩⟩⟩
  have hbest : best (TopKEntry.Ahead false) k.toNat parts.flatten =
      bestSparse ops query k ((liveRows table).filter keep) :=
    best_perm _ (hperm.trans hrows)
  rw [← hbest]
  by_cases hnone : parts.flatten.length = 0
  · rw [if_pos hnone, length_eq_zero_iff.1 hnone, best_nil]
    rfl
  · rw [if_neg hnone, BoundedTopK.collect_scores_eq fun entry hentry =>
      hnumbers entry ((hperm.trans hrows).subset hentry)]
    exact BoundedTopK.collect_min_ok hk _ fun hnil => hnone (by rw [hnil]; rfl)

theorem search_sparse_dot_ok (hk : 0 < k) (hnumbers : Numbers nan ops query (liveRows table)) :
    searchSparseDot nan ops root query k = .ok (bestSparse ops query k (liveRows table)) := by
  have hall : (liveRows table).filter (fun _ => true) = liveRows table :=
    filter_eq_self.2 fun _ _ => rfl
  rw [← hall] at hnumbers ⊢
  refine search_sparse_ok hroot hstored ops hquery hk rfl (fun layer hlayer o ho => ?_) hnumbers
  obtain ⟨-, hsorted, -⟩ := over_layer hroot hlayer
  obtain ⟨e, he, -⟩ := ReadLayer.visible_entry hsorted ho
  rw [he]
  rfl

theorem search_sparse_picked_ok (hk : 0 < k) (keep : MemTableEntry → Bool)
    (hnumbers : Numbers nan ops query ((liveRows table).filter keep)) :
    searchSparse nan ops root query k (some (pickedLayers root keep)) =
      .ok (bestSparse ops query k ((liveRows table).filter keep)) := by
  have hfilter : layerFilters root (some (pickedLayers root keep)) =
      root.layers.map fun layer => some (layer.picked keep) := map_map
  refine search_sparse_ok hroot hstored ops hquery hk hfilter (fun layer hlayer o ho => ?_) hnumbers
  obtain ⟨-, hsorted, -⟩ := over_layer hroot hlayer
  -- The picked slots ascend, so the search in them finds every one.
  have hascending : (layer.picked keep).Pairwise (· ≤ ·) := by
    unfold ReadLayer.picked
    rw [ReadLayer.visible_ordinals_eq hsorted]
    exact ((List.pairwise_lt_range.imp Nat.le_of_lt).sublist filter_sublist).sublist
      filter_sublist
  rw [Option.all_some, Bool.eq_iff_iff, contains_sorted_iff hascending, ReadLayer.picked,
    mem_filter]
  exact ⟨(·.2), fun h => ⟨ho, h⟩⟩

/-- The filtered search and the sparse branch of the filtered hybrid search return the best of the
rows that satisfy the filter and have a dense vector. -/
theorem sparse_where_ok {expression : FilterExpression} (hvalid : expression.validate = .ok ())
    (hnumbers : Numbers nan ops query (satisfying table expression)) :
    ∃ enough, ∀ rounds, enough ≤ rounds → ∀ k : Int, 0 < k →
      searchSparseDotWhere nan rounds ops root query k expression =
        .ok (bestSparse ops query k ((satisfying table expression).filter (·.hasDense))) ∧
      hybridSparse nan rounds ops root query k expression =
        .ok (bestSparse ops query k ((satisfying table expression).filter (·.hasDense))) := by
  obtain ⟨enough, henough⟩ := where_ordinals_ok hroot hvalid
  refine ⟨enough, fun rounds hrounds k hk => ?_⟩
  have hlayers : whereLayers rounds root expression =
      .ok (pickedLayers root fun e => expression.holds e.payload && e.hasDense) :=
    map_m_map (henough rounds hrounds)
  have hrows : (satisfying table expression).filter (·.hasDense) =
      (liveRows table).filter fun e => expression.holds e.payload && e.hasDense := by
    unfold satisfying
    rw [List.filter_filter]
    exact filter_congr fun e _ => Bool.and_comm _ _
  have hsearch := search_sparse_picked_ok hroot hstored ops hquery hk
    (fun e => expression.holds e.payload && e.hasDense) (hrows ▸ hnumbers.filter)
  rw [hrows]
  exact ⟨bind_ok.2 ⟨(), hquery, bind_ok.2 ⟨(), hvalid, bind_ok.2
    ⟨_, hlayers, hsearch⟩⟩⟩, bind_ok.2 ⟨_, hlayers, hsearch⟩⟩

/-- The filtered hybrid search fuses the best of the rows with a dense vector that satisfy the
filter with the best of them that share a term. -/
theorem search_hybrid_where_ok {nan : ℚ → Bool} {kernels : ScoreKernels ℚ} (hagree : kernels.Agree)
    {metric : ScanMetric} {denseQuery : List F32}
    (hdense : kernels.Accepts metric table.dimension denseQuery)
    (hrows : ∀ e ∈ denseRows table, kernels.Accepts metric table.dimension e.values)
    (ops : SparseOps ℚ) {expression : FilterExpression} (hvalid : expression.validate = .ok ())
    (hnumbers : Numbers nan ops query (satisfying table expression)) {fetchK rankConstant : Int}
    (hk : 0 < k) (hfetch : k ≤ fetchK) (hconstant : 0 < rankConstant) :
    ∃ enough, ∀ rounds, enough ≤ rounds →
      searchHybridWhere nan rounds kernels ops root denseQuery query k fetchK rankConstant metric
          expression =
        reciprocalRankFusion
          (bestOf kernels metric denseQuery fetchK (matchingRows table expression))
          (bestSparse ops query fetchK ((satisfying table expression).filter (·.hasDense))) k
          rankConstant := by
  obtain ⟨enough, henough⟩ := sparse_where_ok hroot hstored ops hquery hvalid hnumbers
  obtain ⟨enough', henough'⟩ := where_ordinals_ok hroot hvalid
  refine ⟨max enough enough', fun rounds hrounds => ?_⟩
  have hpositive : 0 < fetchK := hk.trans_le hfetch
  have hbranch := (henough rounds (le_of_max_le_left hrounds) fetchK hpositive).2
  have hscan := search_where_ok hroot hagree hrows hpositive hdense hvalid
    (henough' rounds (le_of_max_le_right hrounds))
  have hchecked : validateHybrid root denseQuery query k fetchK rankConstant = .ok () := by
    simp only [validateHybrid, bind_ok, exists_unit, require_ok]
    exact ⟨validate_query_ok hroot hdense hk, hquery, by omega, hconstant⟩
  rw [searchHybridWhere, hchecked, hvalid, hscan, hbranch]
  rfl

end Search

/-! ## When the filtered search is exact -/

/-- Every row without a dense vector that shares a term with the query is behind at least `k` such
rows with one. -/
def Outranked (ops : SparseOps S) (query : List SparseElement) (k : Int)
    (rows : List MemTableEntry) : Prop :=
  ∀ missed ∈ sparseScored ops query (rows.filter (!·.hasDense)),
    k.toNat ≤ (sparseScored ops query (rows.filter (·.hasDense))).countP
      fun found => TopKEntry.Ahead false found missed

omit [LinearOrder S] in
theorem mem_sparse_scored {ops : SparseOps S} {entry : TopKEntry S}
    (h : entry ∈ sparseScored ops query rows) : ∃ row ∈ rows, row.id = entry.id := by
  obtain ⟨row, hrow, hmap⟩ := mem_filterMap.1 h
  obtain ⟨score, -, rfl⟩ := Option.map_eq_some_iff.1 hmap
  exact ⟨row, hrow, rfl⟩

/-- Leaving out the rows without a dense vector keeps the best `k` exactly when they are
outranked. -/
theorem best_sparse_dense_iff (ops : SparseOps S) (hnodup : (rows.map (·.id)).Nodup) :
    bestSparse ops query k (rows.filter (·.hasDense)) = bestSparse ops query k rows ↔
      Outranked ops query k rows := by
  have hperm : (sparseScored ops query (rows.filter (·.hasDense)) ++
      sparseScored ops query (rows.filter (!·.hasDense))).Perm (sparseScored ops query rows) := by
    unfold sparseScored
    rw [← filterMap_append]
    exact (List.filter_append_perm (·.hasDense) rows).filterMap _
  -- A point has one row, with a dense vector or without.
  have hnew : ∀ missed ∈ sparseScored ops query (rows.filter (!·.hasDense)),
      missed ∉ sparseScored ops query (rows.filter (·.hasDense)) := by
    intro missed hmissed hfound
    obtain ⟨row, hrow, hid⟩ := mem_sparse_scored hmissed
    obtain ⟨row', hrow', hid'⟩ := mem_sparse_scored hfound
    obtain ⟨hmem, hdense⟩ := mem_filter.1 hrow
    obtain ⟨hmem', hdense'⟩ := mem_filter.1 hrow'
    obtain rfl : row = row' := inj_on_of_nodup_map hnodup hmem hmem' (hid.trans hid'.symm)
    rw [hdense'] at hdense
    cases hdense
  unfold bestSparse Outranked
  rw [← best_perm _ hperm, eq_comm]
  exact best_append_eq_iff _ hnew

/-- As long as no score is a NaN, the filtered sparse search returns the best `k` by score and
identifier of the visible points that share a term with the query and satisfy the filter exactly
when each such point without a
dense vector is behind at least `k` such points with one; the sparse branch of the filtered hybrid
search ranks that list under the same condition. -/
theorem sparse_where_iff {reader : Reader} (h : ReaderReachable reader) {config : ReadConfig}
    {generation : Nat} {catalog : Option Nat} {pinned : Except String Unit}
    {cache : ReadGenerationCache} {root : ReadGeneration}
    (hrun : reader.cache.acquire config generation reader.sequence reader.table catalog pinned =
      (cache, .ok root))
    (hstored : reader.table.SparseValid) (ops : SparseOps S) {query : List SparseElement}
    (hquery : validateSparse query = .ok ()) {expression : FilterExpression}
    (hvalid : expression.validate = .ok ())
    (hnumbers : Numbers nan ops query (satisfying reader.table expression)) :
    ∃ enough, ∀ rounds, enough ≤ rounds → ∀ k : Int, 0 < k →
      (searchSparseDotWhere nan rounds ops root query k expression =
          .ok (bestSparse ops query k (satisfying reader.table expression)) ↔
        Outranked ops query k (satisfying reader.table expression)) ∧
      (hybridSparse nan rounds ops root query k expression =
          .ok (bestSparse ops query k (satisfying reader.table expression)) ↔
        Outranked ops query k (satisfying reader.table expression)) := by
  have hroot := acquire_over h hrun
  have hnodup : ((satisfying reader.table expression).map (·.id)).Nodup := by
    refine (MemTable.ids_nodup hroot.table_wf).sublist (List.Sublist.map _ ?_)
    exact filter_sublist.trans filter_sublist
  obtain ⟨enough, henough⟩ := sparse_where_ok hroot hstored ops hquery hvalid hnumbers
  refine ⟨enough, fun rounds hrounds k hk => ?_⟩
  obtain ⟨hsearch, hbranch⟩ := henough rounds hrounds k hk
  rw [hsearch, hbranch, Except.ok.injEq, best_sparse_dense_iff ops hnodup]
  exact ⟨Iff.rfl, Iff.rfl⟩

/-- Products and sums without rounding. -/
def exactOps : SparseOps ℚ where
  product lhs rhs := lhs.toRat * rhs.toRat
  add := (· + ·)

/-- No rational number is a NaN. -/
def exactNan (_ : ℚ) : Bool := false

/-- The filter without conditions, which holds for every payload. -/
def everyPayload : FilterExpression :=
  ⟨[⟨.all, none, []⟩], 0⟩

/-- One point with a dense and a sparse vector, and one with a sparse vector of a given weight. -/
def mixedTable (weight : F32) : MemTable :=
  ((MemTable.empty 1).put ⟨1, 1, 1, false,
      [⟨0, .dense (.f32 [⟨0⟩])⟩, ⟨1, .sparse [⟨7, ⟨0x3F800000⟩⟩]⟩], []⟩).put
    ⟨2, 2, 0, false, [⟨1, .sparse [⟨7, weight⟩]⟩], []⟩

theorem mixed_table_reachable (weight : F32) :
    ReaderReachable (.start (mixedTable weight) 2) :=
  .start _ 2 (MemTable.put_spec (MemTable.put_spec (MemTable.empty_well_formed 1) _).1 _).1
    (by rw [mixedTable, put_dimension, put_dimension]; decide)

theorem mixed_table_valid {weight : F32}
    (h : validateSparse [⟨7, weight⟩] = .ok ()) : (mixedTable weight).SparseValid := by
  have hentries : (mixedTable weight).entries = [⟨1, 1, 1, false,
      [⟨0, .dense (.f32 [⟨0⟩])⟩, ⟨1, .sparse [⟨7, ⟨0x3F800000⟩⟩]⟩], []⟩,
      ⟨2, 2, 0, false, [⟨1, .sparse [⟨7, weight⟩]⟩], []⟩] := rfl
  unfold MemTable.SparseValid
  rw [hentries]
  intro e he _
  rcases mem_cons.1 he with rfl | he
  · exact .inr (by decide +kernel)
  · rw [List.mem_singleton.1 he]
    exact .inr h

/-- A capture of a new reader over the table. -/
def mixedCapture (weight : F32) : ReadGenerationCache × Except String ReadGeneration :=
  (Reader.start (mixedTable weight) 2).cache.acquire ⟨1, 0, .ok ()⟩ 0 2 (mixedTable weight) none
    (.ok ())

theorem mixed_capture_ok {weight : F32} (h : (mixedCapture weight).2.toOption.isSome = true) :
    ∃ cache root, mixedCapture weight = (cache, .ok root) := by
  obtain ⟨root, hroot⟩ := Option.isSome_iff_exists.1 h
  exact ⟨(mixedCapture weight).1, root, Prod.ext rfl (to_option_some.1 hroot)⟩

/-- A point of half the weight is outranked, so leaving it out does no harm. -/
theorem sparse_where_iff_sample : ∃ cache root, mixedCapture ⟨0x3F000000⟩ = (cache, .ok root) ∧
    ∃ enough, ∀ rounds, enough ≤ rounds →
      searchSparseDotWhere exactNan rounds exactOps root [⟨7, ⟨0x3F800000⟩⟩] 1 everyPayload =
        .ok [⟨1, 1⟩] := by
  obtain ⟨cache, root, hrun⟩ := @mixed_capture_ok ⟨0x3F000000⟩ (by decide +kernel)
  obtain ⟨enough, henough⟩ := sparse_where_iff (mixed_table_reachable ⟨0x3F000000⟩) hrun
    (mixed_table_valid (by decide +kernel)) exactOps
    (show validateSparse [⟨7, ⟨0x3F800000⟩⟩] = .ok () by decide +kernel)
    (show everyPayload.validate = .ok () by decide +kernel)
    (show Numbers exactNan _ _ _ from fun _ _ => rfl)
  refine ⟨cache, root, hrun, enough, fun rounds hrounds => ?_⟩
  rw [((henough rounds hrounds 1 (by decide)).1).2 (by unfold Outranked; decide +kernel)]
  decide +kernel

/-- The best point has a sparse vector only; the filtered searches return the other one. -/
theorem sparse_where_drops_best : ∃ cache root, mixedCapture ⟨0x40000000⟩ = (cache, .ok root) ∧
    (∃ enough, ∀ rounds, enough ≤ rounds →
      searchSparseDotWhere exactNan rounds exactOps root [⟨7, ⟨0x3F800000⟩⟩] 1 everyPayload =
        .ok [⟨1, 1⟩] ∧
      hybridSparse exactNan rounds exactOps root [⟨7, ⟨0x3F800000⟩⟩] 1 everyPayload = .ok [⟨1, 1⟩]) ∧
    searchSparseDot exactNan exactOps root [⟨7, ⟨0x3F800000⟩⟩] 1 = .ok [⟨2, 2⟩] ∧
    bestSparse exactOps [⟨7, ⟨0x3F800000⟩⟩] 1
      (satisfying (mixedTable ⟨0x40000000⟩) everyPayload) = [⟨2, 2⟩] := by
  obtain ⟨cache, root, hrun⟩ := @mixed_capture_ok ⟨0x40000000⟩ (by decide +kernel)
  have hroot := acquire_over (mixed_table_reachable ⟨0x40000000⟩) hrun
  have hstored := @mixed_table_valid ⟨0x40000000⟩ (by decide +kernel)
  have hquery : validateSparse [⟨7, ⟨0x3F800000⟩⟩] = .ok () := by decide +kernel
  obtain ⟨enough, henough⟩ := sparse_where_ok hroot hstored exactOps hquery
    (show everyPayload.validate = .ok () by decide +kernel)
    (show Numbers exactNan _ _ _ from fun _ _ => rfl)
  refine ⟨cache, root, hrun, ⟨enough, fun rounds hrounds => ?_⟩, ?_, by decide +kernel⟩
  · obtain ⟨hsearch, hbranch⟩ := henough rounds hrounds 1 (by decide)
    have hbest : bestSparse exactOps [⟨7, ⟨0x3F800000⟩⟩] 1
        ((satisfying (mixedTable ⟨0x40000000⟩) everyPayload).filter (·.hasDense)) =
          [⟨1, 1⟩] := by decide +kernel
    rw [← hbest]
    exact ⟨hsearch, hbranch⟩
  · rw [search_sparse_dot_ok hroot hstored exactOps hquery (by decide) fun _ _ => rfl]
    decide +kernel

end Akasha.Query

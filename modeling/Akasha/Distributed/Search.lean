import Akasha.Distributed.Availability
import Akasha.Query.Fusion
import Mathlib.Data.List.Perm.Subperm

/-!
# Distributed search

`search` of the coordinator with the merge of the shards' answers: each shard is asked for its own
best `k`, and the coordinator ranks what they returned. In hybrid mode both branches are ranked
globally before their ranks are fused. The kernel's search of one collection is a parameter; what
is assumed of it is that it returns the best `k` of the collection it is asked to search.

`wp_search_merged` says what the coordinator returns, and `distributed_search_eq_single_iff` for
which requests that is what one collection with all the points returns: the coordinator fuses any
two rankings, and does not check what one collection checks of a hybrid request.
-/

namespace Akasha.Distributed

open Lib Lib.Exec Compute Query List

/-! ## Requests -/

inductive Metric where
  | dot
  | l2
  | cosine
deriving DecidableEq

inductive SearchMode where
  | exact
  | approx
  | sparse
  | hybrid
deriving DecidableEq

/-- `SearchRequest`. -/
structure SearchRequest where
  metric : Metric
  k : Int
  vector : Option (List F64) := none
  sparse : List (Int × F64) := []
  mode : SearchMode := .exact
  efSearch : Int := 64
  fetchK : Int := 50
  rankConstant : Int := 60
  filter : Option Json := none

namespace SearchRequest

/-- Distances rank upwards, and every other score downwards. -/
def smallerIsBetter (request : SearchRequest) : Bool :=
  request.metric = .l2 ∧ request.mode ≠ .sparse ∧ request.mode ≠ .hybrid

/-- The dense branch of a hybrid request. -/
def denseBranch (request : SearchRequest) : SearchRequest :=
  { metric := request.metric, k := request.fetchK, vector := request.vector, mode := .exact,
    filter := request.filter }

/-- The sparse branch of a hybrid request. -/
def sparseBranch (request : SearchRequest) : SearchRequest :=
  { metric := request.metric, k := request.fetchK, sparse := request.sparse, mode := .sparse,
    filter := request.filter }

/-- The requests the shards are sent. -/
def parts (request : SearchRequest) : List SearchRequest :=
  if request.mode = .hybrid then [request.denseBranch, request.sparseBranch] else [request]

end SearchRequest

/-! ## The merge -/

/-- `unique[result.id] = result`: a key keeps its first place and takes the last value. -/
def putResult : List SearchResult → SearchResult → List SearchResult
  | [], result => [result]
  | first :: rest, result =>
      if first.id = result.id then result :: rest else first :: putResult rest result

/-- `values[:k]`. -/
def sliceUpTo {α : Type} (values : List α) (k : Int) : List α :=
  if 0 ≤ k then values.take k.toNat else values.take (values.length - k.natAbs)

/-- `_global_topk`. -/
def globalTopk (results : List SearchResult) (k : Int) (smallerIsBetter : Bool) :
    List SearchResult :=
  sliceUpTo ((results.foldl putResult []).insertionSort (TopKEntry.Ahead smallerIsBetter)) k

/-- No rank makes a denominator zero. -/
def Divides (rankConstant : Int) (ranks : Nat) : Prop :=
  ∀ place < ranks, rankConstant + (place + 1 : Nat) ≠ 0

instance (rankConstant : Int) (ranks : Nat) : Decidable (Divides rankConstant ranks) :=
  inferInstanceAs (Decidable (∀ place < ranks, rankConstant + (place + 1 : Nat) ≠ 0))

variable (kernel : SearchRequest → PointMap → Except String (List SearchResult))

/-- `_fanout`: the answers of the shards, one after the other. -/
def fanout (request : SearchRequest) : ClusterM (List SearchResult) := do
  let world ← read
  let answers ← collect (range world.metadata.shardCount) fun shardId =>
    some <$> queryShard shardId (kernel request)
  pure answers.flatten

/-- `_search_hybrid`. -/
def searchHybrid (request : SearchRequest) (epoch : Nat) : ClusterM (List SearchResult) := do
  ensure (request.vector.isSome ∧ request.sparse ≠ [])
    (.runtime "distributed hybrid search requires dense and sparse queries")
  let dense ← fanout kernel request.denseBranch
  let sparse ← fanout kernel request.sparseBranch
  let world ← read
  ensure (world.metadata.epoch = epoch)
    (.protocol "cluster metadata epoch changed during hybrid query")
  let dense := globalTopk dense request.fetchK request.denseBranch.smallerIsBetter
  let sparse := globalTopk sparse request.fetchK request.sparseBranch.smallerIsBetter
  ensure (Divides request.rankConstant (max dense.length sparse.length))
    (.runtime "division by zero")
  let scores := accumulate request.rankConstant (accumulate request.rankConstant [] dense) sparse
  pure (sliceUpTo (scores.insertionSort (TopKEntry.Ahead false)) request.k)

/-- `search`. -/
def searchMerged (request : SearchRequest) : ClusterM (List SearchResult) := do
  ensureOpen
  let before ← read
  if request.mode = .hybrid then searchHybrid kernel request before.metadata.epoch
  else do
    let raw ← fanout kernel request
    let after ← read
    ensure (after.metadata.epoch = before.metadata.epoch)
      (.protocol "cluster metadata epoch changed during query")
    pure (globalTopk raw request.k request.smallerIsBetter)

/-! ## One collection -/

section Single

variable (score : SearchRequest → Int64 → Point → Option ℚ)
  (admits : SearchRequest → Except String Unit)

/-- The points that have a score under a request. -/
def scored (request : SearchRequest) (points : PointMap) : List SearchResult :=
  points.toList.filterMap fun (id, point) => (score request id point).map (TopKEntry.mk id)

/-- The best `k` of a collection by score and identifier. -/
def ranking (request : SearchRequest) (points : PointMap) : List SearchResult :=
  best (TopKEntry.Ahead request.smallerIsBetter) request.k.toNat (scored score request points)

/-- `ResourceLimits.max_k` by default. -/
def maxK : Int := 10000

/-- The checks of an exact or a sparse search. The kernel's own, of the numbers of the query and of
its filter, are a parameter. -/
def validateBranch (request : SearchRequest) : Except String Unit := do
  require (request.k ≤ maxK) "query k resource limit exceeded"
  require (request.mode = .sparse ∨ request.vector.isSome) "exact search requires a dense vector"
  require (request.mode = .exact ∨ request.sparse ≠ []) "sparse vectors cannot be empty"
  admits request
  require (0 < request.k) "k must be positive"

/-- `Collection.search` of one collection in exact or sparse mode: its best `k`. -/
def searchBranch (request : SearchRequest) (points : PointMap) :
    Except String (List SearchResult) := do
  validateBranch admits request
  pure (ranking score request points)

/-- `Collection.search` of one collection: in hybrid mode the fusion of its two rankings after
`_validate_hybrid`. -/
def singleSearch (request : SearchRequest) (points : PointMap) :
    Except String (List SearchResult) :=
  if request.mode = .hybrid then do
    require (request.k ≤ maxK) "query k resource limit exceeded"
    require request.vector.isSome "hybrid search requires a dense vector"
    admits request.denseBranch
    require (0 < request.k) "k must be positive"
    require (request.sparse ≠ []) "sparse vectors cannot be empty"
    admits request.sparseBranch
    require (request.k ≤ request.fetchK) "hybrid fetch_k must be at least positive k"
    reciprocalRankFusion (ranking score request.denseBranch points)
      (ranking score request.sparseBranch points) request.k request.rankConstant
  else searchBranch score admits request points

/-- What the coordinator makes of the rankings of all points. -/
def mergedSearch (request : SearchRequest) (points : PointMap) :
    Except String (List SearchResult) :=
  if request.mode = .hybrid then do
    let dense ← searchBranch score admits request.denseBranch points
    let sparse ← searchBranch score admits request.sparseBranch points
    require (Divides request.rankConstant (max dense.length sparse.length)) "division by zero"
    let scores := accumulate request.rankConstant (accumulate request.rankConstant [] dense) sparse
    pure (sliceUpTo (scores.insertionSort (TopKEntry.Ahead false)) request.k)
  else searchBranch score admits request points

end Single

/-! ## What the shards hold -/

/-- The points that belong to a shard. -/
def routedTo (metadata : ClusterMetadata) (shardId : Nat) (points : PointMap) : PointMap :=
  points.filter fun id _ => metadata.route id.toInt = shardId

/-- Every replica that is up to date with its shard holds the points routed to it. -/
def Stored (points : PointMap) (world : World) : Prop :=
  ∀ shardId < world.metadata.shardCount, ∀ name shard,
    (world.replica name shardId).shard = some shard →
    (world.metadata.shards shardId).committedIndex ≤ shard.state.appliedIndex →
    (world.replica name shardId).disk.collection = routedTo world.metadata shardId points

/-- A replica that can answer a query of its shard. -/
def Serves (world : World) (shardId : Nat) (name : String) : Prop :=
  (world.nodes name).alive = true ∧ (world.nodes name).partitioned = false ∧
    ∃ shard, (world.replica name shardId).shard = some shard ∧
      (world.metadata.shards shardId).committedIndex ≤ shard.state.appliedIndex

/-- The cluster is open, no call fails, and every shard has a replica that can answer. -/
structure Answering (world : World) : Prop where
  isOpen : world.closed = false
  faults : world.faults = []
  serves : ∀ shardId < world.metadata.shardCount,
    ∃ name ∈ (world.metadata.shards shardId).ordered, Serves world shardId name

/-- Every shard answers the request with its own best `k`, unless the request is not valid. -/
def ShardsRank (score : SearchRequest → Int64 → Point → Option ℚ)
    (admits : SearchRequest → Except String Unit) (points : PointMap) (world : World)
    (request : SearchRequest) : Prop :=
  ∀ shardId < world.metadata.shardCount,
    kernel request (routedTo world.metadata shardId points) =
      searchBranch score admits request (routedTo world.metadata shardId points)

/-! ## Merging rankings -/

/-- Results of different points stay as they are. -/
theorem foldl_put_result {kept results : List SearchResult}
    (h : ((kept ++ results).map (·.id)).Nodup) :
    results.foldl putResult kept = kept ++ results := by
  induction results generalizing kept with
  | nil => simp
  | cons result results ih =>
      have hput : ∀ prior : List SearchResult, result.id ∉ prior.map (·.id) →
          putResult prior result = prior ++ [result] := by
        intro prior
        induction prior with
        | nil => exact fun _ => rfl
        | cons first rest ihp =>
            intro hnew
            simp only [map_cons, mem_cons, not_or] at hnew
            rw [putResult, if_neg (fun heq => hnew.1 heq.symm), ihp hnew.2, cons_append]
      have hnew : result.id ∉ kept.map (·.id) := by
        rw [map_append, map_cons, nodup_append] at h
        exact fun hmem => h.2.2 _ hmem _ mem_cons_self rfl
      rw [foldl_cons, hput kept hnew, ih (by simpa using h)]
      simp

/-- Splitting a list by the value of a bounded function loses nothing. -/
theorem flat_map_filter_perm {α : Type} (f : α → Nat) (n : Nat) (xs : List α)
    (h : ∀ x ∈ xs, f x < n) :
    ((range n).flatMap fun value => xs.filter fun x => f x = value).Perm xs := by
  suffices hn : ∀ m, ((range m).flatMap fun value => xs.filter fun x => f x = value).Perm
      (xs.filter fun x => f x < m) by
    refine (hn n).trans (List.Perm.of_eq ?_)
    exact filter_eq_self.2 fun x hx => by simpa using h x hx
  intro m
  induction m with
  | zero => simp
  | succ m ih =>
      rw [range_succ, flatMap_append, flatMap_singleton]
      have hsplit := filter_append_perm (fun x => decide (f x < m))
        (xs.filter fun x => f x < m + 1)
      rw [filter_filter, filter_filter] at hsplit
      have hlow : (fun x => decide (f x < m) && decide (f x < m + 1)) =
          fun x => decide (f x < m) := by
        funext x
        by_cases hx : f x < m
        · simp [hx, Nat.lt_succ_of_lt hx]
        · simp [hx]
      have hhigh : (fun x => (!decide (f x < m)) && decide (f x < m + 1)) =
          fun x => decide (f x = m) := by
        funext x
        by_cases hx : f x = m
        · simp [hx]
        · by_cases hlt : f x < m
          · simp [hlt, hx]
          · have : ¬ f x < m + 1 := by omega
            simp [hx, this]
      rw [hlow, hhigh] at hsplit
      exact (ih.append_right _).trans hsplit

section Merge

variable {score : SearchRequest → Int64 → Point → Option ℚ} {request : SearchRequest}
  {points : PointMap} {metadata : ClusterMetadata}

theorem scored_nodup : ((scored score request points).map (·.id)).Nodup := by
  have hkeys : (points.toList.map Prod.fst).Nodup := by
    rw [Std.ExtTreeMap.map_fst_toList_eq_keys]
    exact Std.ExtTreeMap.nodup_keys
  refine hkeys.sublist ?_
  unfold scored
  induction points.toList with
  | nil => simp
  | cons entry entries ih =>
      rw [filterMap_cons]
      cases hscore : score request entry.1 entry.2 with
      | none => simpa [hscore] using ih.cons entry.1
      | some value => simpa [hscore] using ih.cons_cons entry.1

variable (score request points) in
theorem scored_routed (h : 0 < metadata.shardCount) :
    ((range metadata.shardCount).flatMap fun shardId =>
      scored score request (routedTo metadata shardId points)).Perm
      (scored score request points) := by
  have hsplit := flat_map_filter_perm (fun entry : Int64 × Point => metadata.route entry.1.toInt)
    metadata.shardCount points.toList (fun entry _ => Nat.mod_lt _ h)
  have hmap := hsplit.filterMap fun entry =>
    (score request entry.1 entry.2).map (TopKEntry.mk entry.1)
  rw [filterMap_flatMap] at hmap
  refine (List.Perm.of_eq ?_).trans hmap
  congr 1
  funext shardId
  rw [scored, routedTo, Std.ExtTreeMap.toList_filter]

variable (score request points) in
/-- Ranking the shards' own best gives the ranking of all points. -/
theorem global_topk_rankings (h : 0 < metadata.shardCount) (hk : 0 ≤ request.k) :
    globalTopk ((range metadata.shardCount).flatMap fun shardId =>
        ranking score request (routedTo metadata shardId points)) request.k
        request.smallerIsBetter =
      ranking score request points := by
  have hparts : ((range metadata.shardCount).flatMap fun shardId =>
      ranking score request (routedTo metadata shardId points)) =
      (((range metadata.shardCount).map fun shardId =>
        scored score request (routedTo metadata shardId points)).map
          (best (TopKEntry.Ahead request.smallerIsBetter) request.k.toNat)).flatten := by
    rw [map_map, flatMap]
    rfl
  have hsub : ∀ parts : List (List SearchResult),
      ((parts.map (best (TopKEntry.Ahead request.smallerIsBetter) request.k.toNat)).flatten).Subperm
        parts.flatten := by
    intro parts
    induction parts with
    | nil => exact List.Subperm.refl []
    | cons part parts ih =>
        rw [map_cons, flatten_cons, flatten_cons]
        exact List.Subperm.append (best_subperm _ _ part) ih
  have hperm := scored_routed score request points h
  have hnodup : (((range metadata.shardCount).flatMap fun shardId =>
      ranking score request (routedTo metadata shardId points)).map (·.id)).Nodup := by
    rw [hparts]
    obtain ⟨kept, hkept, hsublist⟩ := (hsub _).trans hperm.subperm
    exact (hkept.map _).nodup_iff.1 (scored_nodup.sublist (hsublist.map _))
  rw [globalTopk, foldl_put_result (by simpa using hnodup), nil_append, sliceUpTo, if_pos hk,
    ← best, hparts, best_flatten_best, ← flatMap]
  exact best_perm _ hperm

end Merge

/-! ## Reading the cluster -/

/-- What reads leave alone. -/
structure Reads (world after : World) : Prop where
  metadata : after.metadata = world.metadata
  nodes : after.nodes = world.nodes
  faults : world.faults = [] → after.faults = []

theorem Reads.refl (world : World) : Reads world world :=
  ⟨rfl, rfl, fun h => h⟩

theorem Reads.trans {first second third : World} (h : Reads first second)
    (h' : Reads second third) : Reads first third :=
  ⟨h'.metadata.trans h.metadata, h'.nodes.trans h.nodes, fun hfaults => h'.faults (h.faults hfaults)⟩

/-- The errors that the coordinator's `try` statements catch. -/
def Caught : Error → Prop
  | .protocol _ => True
  | .staleEpoch _ => True
  | .unavailable _ => True
  | _ => False

theorem wp_attempt_caught {α : Type} {x : ClusterM α} {Q : Option α → World → Prop}
    {E : Error → World → Prop} {world : World}
    (h : wp x (fun a => Q (some a)) (fun e w => (Caught e → Q none w) ∧ (¬ Caught e → E e w))
      world) : wp (attempt x) Q E world := by
  simp only [attempt, wp_catching, wp_map]
  refine wp_mono h (fun _ _ h => h) ?_
  rintro e w ⟨hcaught, hraised⟩
  cases e with
  | protocol message => exact hcaught trivial
  | staleEpoch message => exact hcaught trivial
  | unavailable message => exact hcaught trivial
  | quorumUnavailable message => exact hraised not_false
  | clusterClosed => exact hraised not_false
  | runtime message => exact hraised not_false
  | kernel message => exact hraised not_false
  | crash => exact hraised not_false

section Reading

variable {world : World} {name : String} {shardId : Nat}

/-- A read is answered from the shard. Without faults it fails only when the replica does not run,
cannot be reached or has the shard not open, or because its answer is an error. -/
theorem wp_reading {α : Type} {answer : ShardDisk → ReplicaShard → Except Error α}
    {note : Node → History → History} (hanswer : ∀ disk shard, answer disk shard ≠ .error .crash) :
    wp (rpc name (readRequest shardId answer note))
      (fun a w => Reads world w ∧ ∃ shard, (world.replica name shardId).shard = some shard ∧
        answer (world.replica name shardId).disk shard = .ok a)
      (fun e w => Reads world w ∧ (world.faults = [] → Caught e ∧
        ((world.nodes name).alive = true → (world.nodes name).partitioned = false →
          ∀ shard, (world.replica name shardId).shard = some shard →
            ∀ a, answer (world.replica name shardId).disk shard ≠ .ok a))) world := by
  have hfault : wp nextFault (fun fault w => ∃ faults, w = { world with faults } ∧
      (world.faults = [] → fault = .none ∧ faults = [])) (fun _ _ => False) world := by
    unfold wp nextFault
    cases hfaults : world.faults with
    | nil => exact ⟨world.faults, rfl, fun _ => ⟨rfl, hfaults⟩⟩
    | cons fault faults => exact ⟨faults, rfl, fun h => nomatch h⟩
  simp only [rpc, wp_bind]
  refine wp_mono hfault ?_ fun _ _ h => h.elim
  rintro fault _ ⟨faults, rfl, hcalm⟩
  have hbefore : Reads world { world with faults } := ⟨rfl, rfl, fun h => (hcalm h).2⟩
  simp only [wp_ensure, wp_read]
  refine ⟨fun _ => ⟨fun halive => ⟨fun _ => ⟨fun hreachable => ?_, fun hcut => ⟨hbefore, ?_⟩⟩,
    fun hlost => ⟨hbefore, ?_⟩⟩, fun hdead => ⟨hbefore, ?_⟩⟩, fun hcrash => ⟨hbefore, ?_⟩⟩
  · -- The request arrives.
    have hnode : Node.afterRequest ((readRequest shardId answer note).handle fault.writes
        (world.nodes name)) = world.nodes name := by
      simp only [readRequest]
      split
      · rfl
      · next shard hshard =>
          generalize hresult : answer ((world.nodes name).replicas shardId).disk shard = result
          cases result with
          | ok a => rfl
          | error e =>
              cases e with
              | crash => exact absurd hresult (hanswer _ _)
              | _ => rfl
    have hleft : Reads world (({ world with faults }.note (note (world.nodes name))).setNode name
        (.afterRequest ((readRequest shardId answer note).handle fault.writes
          (world.nodes name)))) := by
      rw [hnode]
      refine ⟨rfl, ?_, fun h => (hcalm h).2⟩
      funext other
      change (if other = name then world.nodes name else world.nodes other) = _
      split
      · next h => rw [h]
      · rfl
    change _ ∧ _
    refine ⟨fun _ => ⟨fun _ => ?_, fun hlost => ⟨hleft, fun h => ?_⟩⟩,
      fun hcrash => ⟨hleft, fun h => ?_⟩⟩
    · rw [wp_lift]
      constructor
      · intro a ha
        refine ⟨hleft, ?_⟩
        simp only [readRequest] at ha
        split at ha
        · simp [Except.mapError] at ha
        · next shard hshard =>
            refine ⟨shard, hshard, ?_⟩
            revert ha
            change Except.mapError wireError (answer (world.replica name shardId).disk shard) =
              .ok a → _
            cases answer (world.replica name shardId).disk shard <;> simp [Except.mapError]
      · intro e he
        refine ⟨hleft, fun _ => ?_⟩
        simp only [readRequest] at he
        split at he
        · next hclosed =>
            simp only [Except.mapError, Except.error.injEq] at he
            subst he
            refine ⟨trivial, fun _ _ shard hshard => ?_⟩
            cases hclosed.symm.trans hshard
        · next shard hshard =>
            have hmap : Except.mapError wireError
                (answer (world.replica name shardId).disk shard) = .error e := he
            cases hresult : answer (world.replica name shardId).disk shard with
            | ok a => simp [hresult, Except.mapError] at hmap
            | error raised =>
                simp only [hresult, Except.mapError, Except.error.injEq] at hmap
                refine ⟨?_, fun _ _ other hother a hok => ?_⟩
                · subst hmap
                  cases raised <;> trivial
                · cases (show some shard = some other from hshard.symm.trans hother)
                  rw [hresult] at hok
                  cases hok
    · exact absurd (hcalm h).1 fun hnone => hlost (by simp [hnone])
    · exact absurd (hcalm h).1 fun hnone => hcrash (by simp [hnone])
  · intro _
    refine ⟨trivial, fun _ hreachable => ?_⟩
    exact absurd (Or.inr (by simp [hreachable])) hcut
  · intro h
    exact absurd (hcalm h).1 fun hnone => hlost (by simp [hnone])
  · intro _
    exact ⟨trivial, fun halive => absurd halive hdead⟩
  · intro h
    exact absurd (hcalm h).1 fun hnone => hcrash (by simp [hnone])

variable {ρ : Type} {answer : PointMap → Except String ρ} {result : Except String ρ}

/-- The replicas of a shard that are up to date give one answer, or one error. -/
def Agrees (world : World) (shardId : Nat) (answer : PointMap → Except String ρ)
    (result : Except String ρ) : Prop :=
  ∀ name shard, (world.replica name shardId).shard = some shard →
    (world.metadata.shards shardId).committedIndex ≤ shard.state.appliedIndex →
    answer (world.replica name shardId).disk.collection = result

variable (name) in
/-- One turn of `_query_shard`. -/
theorem wp_query_caught_up_agrees (hagrees : Agrees world shardId answer result) :
    wp (queryCaughtUp shardId (world.metadata.shards shardId).committedIndex answer name)
      (fun found w => Reads world w ∧ (∀ a, found = some a → result = .ok a) ∧
        (found = none → ¬ Serves world shardId name))
      (fun e w => Reads world w ∧ (world.faults = [] → Caught e ∧
        ∀ value, result = .ok value → ¬ Serves world shardId name))
      world := by
  simp only [queryCaughtUp, wp_bind]
  refine wp_mono (wp_reading fun _ _ => by simp [pure, Except.pure]) ?_ ?_
  · rintro state reached ⟨hreads, shard, hshard, hstate⟩
    cases pure_ok.1 hstate
    rw [wp_ite]
    refine ⟨fun hcaught => ?_, fun hbehind => ?_⟩
    · rw [wp_map]
      refine wp_mono (wp_reading fun disk _ => ?_) ?_ ?_
      · cases hkernel : answer disk.collection <;>
          simp [kernelCheck, pure, Except.pure, throw, throwThe, MonadExceptOf.throw]
      · rintro a w ⟨hreads', other, -, ha⟩
        refine ⟨hreads.trans hreads', fun b hb => ?_, fun hnone => by cases hnone⟩
        cases hb
        have hsame := hagrees name shard hshard hcaught
        rw [World.replica, hreads.nodes] at ha
        rw [kernel_check_ok] at ha
        exact hsame.symm.trans ha
      · rintro e w ⟨hreads', herr⟩
        refine ⟨hreads.trans hreads', fun hfaults => ?_⟩
        obtain ⟨hcaughtErr, hnever⟩ := herr (hreads.faults hfaults)
        refine ⟨hcaughtErr, ?_⟩
        rintro value hvalue ⟨halive, hreachable, -⟩
        have hsame := (hagrees name shard hshard hcaught).trans hvalue
        refine hnever (by rw [hreads.nodes]; exact halive) (by rw [hreads.nodes]; exact hreachable)
          shard (by rw [World.replica, hreads.nodes]; exact hshard) value ?_
        rw [World.replica, hreads.nodes]
        exact kernel_check_ok.2 hsame
    · refine ⟨hreads, by simp, fun _ => ?_⟩
      rintro ⟨-, -, other, hother, hle⟩
      cases hshard.symm.trans hother
      exact hbehind hle
  · rintro e w ⟨hreads, herr⟩
    refine ⟨hreads, fun hfaults => ⟨(herr hfaults).1, ?_⟩⟩
    rintro _ - ⟨halive, hreachable, shard, hshard, -⟩
    exact (herr hfaults).2 halive hreachable shard hshard shard.state rfl

theorem agrees_of_reads {reached : World} (hreads : Reads world reached)
    (hagrees : Agrees world shardId answer result) : Agrees reached shardId answer result := by
  intro name shard hshard hcaught
  rw [World.replica, hreads.nodes] at hshard ⊢
  rw [hreads.metadata] at hcaught
  exact hagrees name shard hshard hcaught

theorem serves_of_reads {reached : World} (hreads : Reads world reached) :
    Serves reached shardId name ↔ Serves world shardId name := by
  unfold Serves World.replica
  rw [hreads.nodes, hreads.metadata]

/-- `_query_shard` returns the answer on which the replicas agree, unless none of them serves. -/
theorem wp_query_shard_agrees (hagrees : Agrees world shardId answer result) :
    wp (queryShard shardId answer) (fun found w => Reads world w ∧ result = .ok found)
      (fun _ w => Reads world w ∧ (world.faults = [] → ∀ value, result = .ok value →
        ∀ name ∈ (world.metadata.shards shardId).ordered, ¬ Serves world shardId name))
      world := by
  simp only [queryShard, wp_bind, wp_read]
  suffices h : ∀ names reached, Reads world reached →
      wp (firstAnswer shardId (world.metadata.shards shardId).committedIndex answer names)
        (fun found w => Reads world w ∧ result = .ok found)
        (fun _ w => Reads world w ∧ (world.faults = [] → ∀ value, result = .ok value →
          ∀ name ∈ names, ¬ Serves world shardId name)) reached from
    h _ world (.refl world)
  intro names
  induction names with
  | nil => exact fun reached hreads => ⟨hreads, fun _ _ _ name hname =>
      absurd hname not_mem_nil⟩
  | cons name names ih =>
      intro reached hreads
      have hlater : ∀ w, Reads world w →
          (world.faults = [] → ∀ value, result = .ok value → ¬ Serves world shardId name) →
          wp (firstAnswer shardId (world.metadata.shards shardId).committedIndex answer names)
            (fun found w => Reads world w ∧ result = .ok found)
            (fun _ w => Reads world w ∧ (world.faults = [] → ∀ value, result = .ok value →
              ∀ other ∈ name :: names, ¬ Serves world shardId other)) w := by
        intro w hw hnot
        refine wp_mono (ih w hw) (fun _ _ h => h) ?_
        rintro _ _ ⟨hafter, hnone⟩
        refine ⟨hafter, fun hfaults value hvalue other hother => ?_⟩
        rcases mem_cons.1 hother with rfl | hother
        · exact hnot hfaults value hvalue
        · exact hnone hfaults value hvalue other hother
      simp only [firstAnswer, wp_bind]
      have hturn := wp_query_caught_up_agrees name (agrees_of_reads hreads hagrees)
      rw [hreads.metadata] at hturn
      refine wp_attempt_caught (wp_mono hturn ?_ ?_)
      · rintro found w ⟨hafter, hsome, hnone⟩
        cases found with
        | some a => exact ⟨hreads.trans hafter, hsome a rfl⟩
        | none =>
            exact hlater w (hreads.trans hafter)
              fun _ _ _ => (serves_of_reads hreads).not.1 (hnone rfl)
      · rintro e w ⟨hafter, herr⟩
        refine ⟨fun _ => hlater w (hreads.trans hafter) fun hfaults value hvalue =>
          (serves_of_reads hreads).not.1 ((herr (hreads.faults hfaults)).2 value hvalue),
          fun hraised => ?_⟩
        exact ⟨hreads.trans hafter, fun hfaults =>
          absurd (herr (hreads.faults hfaults)).1 hraised⟩

end Reading

section Searching

variable {kernel} {score : SearchRequest → Int64 → Point → Option ℚ}
  {admits : SearchRequest → Except String Unit} {points : PointMap} {world : World}
  {request : SearchRequest}

theorem positive_of_valid (h : validateBranch admits request = .ok ()) : 0 < request.k := by
  simp only [validateBranch, bind_ok, exists_unit, require_ok] at h
  exact h.2.2.2.2

theorem validate_dense_iff : validateBranch admits request.denseBranch = .ok () ↔
    request.fetchK ≤ maxK ∧ request.vector.isSome ∧ admits request.denseBranch = .ok () ∧
      0 < request.fetchK := by
  simp only [validateBranch, bind_ok, exists_unit, require_ok]
  simp [SearchRequest.denseBranch]

theorem validate_sparse_iff : validateBranch admits request.sparseBranch = .ok () ↔
    request.fetchK ≤ maxK ∧ request.sparse ≠ [] ∧ admits request.sparseBranch = .ok () ∧
      0 < request.fetchK := by
  simp only [validateBranch, bind_ok, exists_unit, require_ok]
  simp [SearchRequest.sparseBranch]

variable {found : List SearchResult}

theorem merged_hybrid_ok (hhybrid : request.mode = .hybrid) :
    mergedSearch score admits request points = .ok found ↔
      validateBranch admits request.denseBranch = .ok () ∧
        validateBranch admits request.sparseBranch = .ok () ∧
        Divides request.rankConstant (max (ranking score request.denseBranch points).length
          (ranking score request.sparseBranch points).length) ∧
        found = sliceUpTo ((accumulate request.rankConstant (accumulate request.rankConstant []
          (ranking score request.denseBranch points))
          (ranking score request.sparseBranch points)).insertionSort (TopKEntry.Ahead false))
          request.k := by
  simp only [mergedSearch, if_pos hhybrid, searchBranch, bind_ok, exists_unit, require_ok,
    pure_ok]
  constructor
  · rintro ⟨_, ⟨hdense, rfl⟩, _, ⟨hsparse, rfl⟩, hdivides, rfl⟩
    exact ⟨hdense, hsparse, hdivides, rfl⟩
  · rintro ⟨hdense, hsparse, hdivides, rfl⟩
    exact ⟨_, ⟨hdense, rfl⟩, _, ⟨hsparse, rfl⟩, hdivides, rfl⟩

/-- What the fan-out returns is ranked as all points are, unless the request is not valid or a shard
has no replica that serves. -/
theorem wp_fanout (hcount : 0 < world.metadata.shardCount) (hstored : Stored points world)
    (hrank : ShardsRank kernel score admits points world request) :
    wp (fanout kernel request)
      (fun found w => Reads world w ∧ validateBranch admits request = .ok () ∧
        globalTopk found request.k request.smallerIsBetter = ranking score request points)
      (fun _ w => Reads world w ∧ (world.faults = [] → validateBranch admits request = .ok () →
        ∃ shardId < world.metadata.shardCount,
          ∀ name ∈ (world.metadata.shards shardId).ordered, ¬ Serves world shardId name))
      world := by
  simp only [fanout, wp_bind, wp_read, wp_pure]
  have hagrees : ∀ shardId < world.metadata.shardCount,
      Agrees world shardId (kernel request)
        (searchBranch score admits request (routedTo world.metadata shardId points)) := by
    intro shardId hlt name shard hshard hcaught
    rw [hstored shardId hlt name shard hshard hcaught]
    exact hrank shardId hlt
  refine wp_mono (wp_collect (fun asked kept w => Reads world w ∧
    (asked ≠ [] → validateBranch admits request = .ok ()) ∧
    kept = asked.map fun shardId => ranking score request (routedTo world.metadata shardId points))
      _ ?_ ⟨.refl world, fun h => absurd rfl h, rfl⟩) ?_ fun _ _ h => h
  · rintro asked kept shardId later hrange reached ⟨hreads, -, rfl⟩
    have hlt : shardId < world.metadata.shardCount := by
      rw [← mem_range, hrange]
      simp
    rw [wp_map]
    refine wp_mono (wp_query_shard_agrees (agrees_of_reads hreads (hagrees shardId hlt))) ?_ ?_
    · rintro found w ⟨hafter, hfound⟩
      simp only [searchBranch, bind_ok, exists_unit, pure_ok] at hfound
      obtain ⟨hvalid, rfl⟩ := hfound
      exact ⟨hreads.trans hafter, fun _ => hvalid, by simp⟩
    · rintro e w ⟨hafter, hnone⟩
      refine ⟨hreads.trans hafter, fun hfaults hvalid => ⟨shardId, hlt, fun name hname => ?_⟩⟩
      rw [← serves_of_reads hreads]
      exact hnone (hreads.faults hfaults) _ (bind_ok.2 ⟨(), hvalid, rfl⟩) name
        (by rw [hreads.metadata]; exact hname)
  · rintro answers w ⟨hreads, hvalid, rfl⟩
    have hvalid := hvalid (by simpa using hcount.ne')
    exact ⟨hreads, hvalid, global_topk_rankings score request points hcount
      (positive_of_valid hvalid).le⟩

theorem not_answering (h : world.faults = [] → ∃ shardId < world.metadata.shardCount,
    ∀ name ∈ (world.metadata.shards shardId).ordered, ¬ Serves world shardId name) :
    ¬ Answering world := by
  rintro ⟨-, hfaults, hall⟩
  obtain ⟨shardId, hlt, hnot⟩ := h hfaults
  obtain ⟨name, hname, hserve⟩ := hall shardId hlt
  exact hnot name hname hserve

/-- The coordinator's search returns what it makes of the rankings of all points, or finds a shard
that no replica serves. -/
theorem wp_search_merged (hcount : 0 < world.metadata.shardCount) (hstored : Stored points world)
    (hrank : ∀ part ∈ request.parts, ShardsRank kernel score admits points world part) :
    wp (searchMerged kernel request)
      (fun found _ => mergedSearch score admits request points = .ok found)
      (fun _ _ => ∀ found, mergedSearch score admits request points = .ok found →
        ¬ Answering world) world := by
  simp only [searchMerged, ensureOpen, wp_bind, wp_read, wp_ensure, wp_ite]
  refine ⟨fun _ => ⟨fun hhybrid => ?_, fun hplain => ?_⟩, fun hclosed _ _ hanswering => ?_⟩
  · -- Both branches are ranked globally, and then fused.
    simp only [SearchRequest.parts, if_pos hhybrid, mem_cons, not_mem_nil, or_false,
      forall_eq_or_imp, forall_eq] at hrank
    simp only [searchHybrid, wp_bind, wp_ensure]
    refine ⟨fun hqueries => ?_, fun hbad found hfound => ?_⟩
    · refine wp_mono (wp_fanout hcount hstored hrank.1) ?_ fun _ _ h found hfound =>
        not_answering fun hfaults => h.2 hfaults ((merged_hybrid_ok hhybrid).1 hfound).1
      rintro dense reached ⟨hreads, hdense, htop⟩
      have hstored' : Stored points reached := by
        unfold Stored World.replica at hstored ⊢
        rw [hreads.metadata, hreads.nodes]
        exact hstored
      have hrank' : ShardsRank kernel score admits points reached request.sparseBranch := by
        unfold ShardsRank
        rw [hreads.metadata]
        exact hrank.2
      refine wp_mono (wp_fanout (by rw [hreads.metadata]; exact hcount) hstored' hrank') ?_ ?_
      · rintro sparse after ⟨hreads', hsparse, htop'⟩
        simp only [wp_read, wp_pure]
        refine ⟨fun _ => ⟨fun hdivides => ?_, fun hzero found hfound => ?_⟩, fun hepoch => ?_⟩
        · rw [merged_hybrid_ok hhybrid, ← htop, ← htop']
          exact ⟨hdense, hsparse, hdivides, rfl⟩
        · rw [merged_hybrid_ok hhybrid, ← htop, ← htop'] at hfound
          exact absurd hfound.2.2.1 hzero
        · exact absurd (congrArg _ (hreads'.metadata.trans hreads.metadata)) hepoch
      · rintro e w ⟨-, hnone⟩ found hfound
        refine not_answering fun hfaults => ?_
        obtain ⟨shardId, hlt, hnot⟩ := hnone (hreads.faults hfaults)
          ((merged_hybrid_ok hhybrid).1 hfound).2.1
        rw [hreads.metadata] at hlt hnot
        exact ⟨shardId, hlt, fun name hname => (serves_of_reads hreads).not.1 (hnot name hname)⟩
    · obtain ⟨hdense, hsparse, -⟩ := (merged_hybrid_ok hhybrid).1 hfound
      exact absurd ⟨(validate_dense_iff.1 hdense).2.1, (validate_sparse_iff.1 hsparse).2.1⟩ hbad
  · simp only [SearchRequest.parts, if_neg hplain, mem_singleton, forall_eq] at hrank
    simp only [mergedSearch, if_neg hplain, searchBranch, bind_ok, exists_unit,
      pure_ok]
    refine wp_mono (wp_fanout hcount hstored hrank) ?_ fun _ _ h found hfound =>
      not_answering fun hfaults => h.2 hfaults hfound.1
    rintro found reached ⟨hreads, hvalid, htop⟩
    simp only [wp_pure]
    refine ⟨fun _ => ⟨hvalid, htop.symm⟩, fun hepoch => ?_⟩
    exact absurd (congrArg _ hreads.metadata) hepoch
  · exact hclosed (by simp [hanswering.isOpen])

section Outcome

variable (hcount : 0 < world.metadata.shardCount) (hstored : Stored points world)
  (hrank : ∀ part ∈ request.parts, ShardsRank kernel score admits points world part)

include hcount hstored hrank

theorem search_merged_returned (hfound : (searchMerged kernel request world).1 = .ok found) :
    mergedSearch score admits request points = .ok found := by
  have h := wp_search_merged hcount hstored hrank
  unfold wp at h
  split at h
  · next a w hrun =>
      rw [hrun] at hfound
      cases Except.ok.inj hfound
      exact h
  · next e w hrun =>
      rw [hrun] at hfound
      cases hfound

theorem search_merged_ok_iff (hanswering : Answering world) {results : List SearchResult} :
    (searchMerged kernel request world).1 = .ok results ↔
      mergedSearch score admits request points = .ok results := by
  refine ⟨search_merged_returned hcount hstored hrank, fun hresults => ?_⟩
  have h := wp_search_merged hcount hstored hrank
  unfold wp at h
  split at h
  · next a w hrun =>
      rw [hrun]
      exact congrArg Except.ok (Except.ok.inj (h.symm.trans hresults))
  · exact absurd hanswering (h results hresults)

end Outcome

/-- For every positive `k` and constant the coordinator fuses the two rankings of all points. -/
theorem merged_fused (hfound : mergedSearch score admits request points = .ok found)
    (hhybrid : request.mode = .hybrid) (hk : 0 < request.k) (hconstant : 0 < request.rankConstant) :
    reciprocalRankFusion (ranking score request.denseBranch points)
      (ranking score request.sparseBranch points) request.k request.rankConstant = .ok found := by
  obtain ⟨-, -, -, hfound⟩ := (merged_hybrid_ok hhybrid).1 hfound
  rw [sliceUpTo, if_pos hk.le, ← best] at hfound
  exact reciprocal_rank_fusion_ok.2 ⟨hk, hconstant, hfound⟩

/-- The limits that one collection checks of a hybrid request hold exactly when those do that the
shards check of its branches and no rank makes a denominator of the coordinator zero. -/
def LimitsAgree (score : SearchRequest → Int64 → Point → Option ℚ) (points : PointMap)
    (request : SearchRequest) : Prop :=
  (0 < request.k ∧ request.k ≤ maxK ∧ request.k ≤ request.fetchK ∧ 0 < request.rankConstant) ↔
    0 < request.fetchK ∧ request.fetchK ≤ maxK ∧
      Divides request.rankConstant (min request.fetchK.toNat
        (max (scored score request.denseBranch points).length
          (scored score request.sparseBranch points).length))

/-- The coordinator and one collection give one answer to a hybrid request that the kernel admits
exactly when their limits agree on it. -/
theorem merged_eq_single_iff (hhybrid : request.mode = .hybrid) :
    (∀ results, mergedSearch score admits request points = .ok results ↔
        singleSearch score admits request points = .ok results) ↔
      (request.vector.isSome → request.sparse ≠ [] → admits request.denseBranch = .ok () →
        admits request.sparseBranch = .ok () → LimitsAgree score points request) := by
  have hlength : max (ranking score request.denseBranch points).length
      (ranking score request.sparseBranch points).length = min request.fetchK.toNat
        (max (scored score request.denseBranch points).length
          (scored score request.sparseBranch points).length) := by
    simp only [ranking, best, length_take, length_insertionSort, min_max_distrib_left]
    rfl
  have hsingle : ∀ results, singleSearch score admits request points = .ok results ↔
      request.k ≤ maxK ∧ request.vector.isSome ∧ admits request.denseBranch = .ok () ∧
        0 < request.k ∧ request.sparse ≠ [] ∧ admits request.sparseBranch = .ok () ∧
        request.k ≤ request.fetchK ∧ 0 < request.k ∧ 0 < request.rankConstant ∧
        results = best (TopKEntry.Ahead false) request.k.toNat
          (accumulate request.rankConstant (accumulate request.rankConstant []
            (ranking score request.denseBranch points))
            (ranking score request.sparseBranch points)) := by
    intro results
    simp only [singleSearch, if_pos hhybrid, bind_ok, exists_unit, require_ok,
      reciprocal_rank_fusion_ok]
  have hslice : ∀ scores : List SearchResult, 0 < request.k →
      sliceUpTo (scores.insertionSort (TopKEntry.Ahead false)) request.k =
        best (TopKEntry.Ahead false) request.k.toNat scores := by
    intro scores hk
    rw [sliceUpTo, if_pos hk.le, best]
  simp only [hsingle, merged_hybrid_ok hhybrid, validate_dense_iff, validate_sparse_iff, hlength,
    LimitsAgree]
  constructor
  · intro h hvector hsparse hdense hbranch
    constructor
    · rintro ⟨hk, hmax, hfetch, hconstant⟩
      obtain ⟨⟨hlimit, -, -, hpositive⟩, -, hdivides, -⟩ :=
        (h _).2 ⟨hmax, hvector, hdense, hk, hsparse, hbranch, hfetch, hk, hconstant, rfl⟩
      exact ⟨hpositive, hlimit, hdivides⟩
    · rintro ⟨hpositive, hlimit, hdivides⟩
      obtain ⟨hmax, -, -, hk, -, -, hfetch, -, hconstant, -⟩ :=
        (h _).1 ⟨⟨hlimit, hvector, hdense, hpositive⟩, ⟨hlimit, hsparse, hbranch, hpositive⟩,
          hdivides, rfl⟩
      exact ⟨hk, hmax, hfetch, hconstant⟩
  · intro h results
    constructor
    · rintro ⟨⟨hlimit, hvector, hdense, hpositive⟩, ⟨-, hsparse, hbranch, -⟩, hdivides, hresults⟩
      obtain ⟨hk, hmax, hfetch, hconstant⟩ :=
        (h hvector hsparse hdense hbranch).2 ⟨hpositive, hlimit, hdivides⟩
      exact ⟨hmax, hvector, hdense, hk, hsparse, hbranch, hfetch, hk, hconstant,
        hresults.trans (hslice _ hk)⟩
    · rintro ⟨hmax, hvector, hdense, hk, hsparse, hbranch, hfetch, -, hconstant, hresults⟩
      obtain ⟨hpositive, hlimit, hdivides⟩ :=
        (h hvector hsparse hdense hbranch).1 ⟨hk, hmax, hfetch, hconstant⟩
      exact ⟨⟨hlimit, hvector, hdense, hpositive⟩, ⟨hlimit, hsparse, hbranch, hpositive⟩, hdivides,
        hresults.trans (hslice _ hk).symm⟩

end Searching

/-- The number a finite `Float32` denotes. -/
def exactF32 (x : F32) : ℚ :=
  let (m, e) := decodeMagnitude binary32 (x.bits.toNat % 2 ^ 31)
  (if x.bits.toNat / 2 ^ 31 = 0 then 1 else -1) * m * (2 : ℚ) ^ e

/-- The number a finite `Float64` denotes. -/
def exactF64 (x : F64) : ℚ :=
  let (m, e) := decodeMagnitude binary64 (x.bits.toNat % 2 ^ 63)
  (if x.bits.toNat / 2 ^ 63 = 0 then 1 else -1) * m * (2 : ℚ) ^ e

/-- The exact dot product of a request with a point: none when a sparse request shares no term
with it. -/
def dotScore (request : SearchRequest) (_ : Int64) (point : Point) : Option ℚ :=
  let shared := request.sparse.filterMap fun item =>
    (point.sparse.find? (·.termId.toInt = item.1)).map fun found =>
      exactF64 item.2 * exactF32 found.weight
  if request.mode = .sparse then if shared = [] then none else some shared.sum
  else request.vector.map fun query =>
    ((query.map exactF64).zipWith (· * ·) (point.vector.map exactF32)).sum

/-- Two one-dimensional points, 1.0 with a sparse vector and 2.0. -/
def samplePoints : PointMap :=
  Std.ExtTreeMap.ofList ([(0, ⟨[⟨0x3F800000⟩], [], [⟨7, ⟨0x3F800000⟩⟩]⟩),
    (1, ⟨[⟨0x40000000⟩], [], []⟩)] : List (Int64 × Point))

/-- Two shards on one node. -/
def samplePlacement : ClusterMetadata where
  dimension := 1
  shardCount := 2
  replicationFactor := 1
  epoch := 1
  members := ["node-0"]
  shardOrder := [0, 1]
  shards := fun _ => ⟨1, 1, "node-0", ["node-0"], 1, 1⟩
  requestTable := fun _ => none

/-- A node that runs and has applied everything: it holds of each shard what is routed there. -/
def sampleServing : World :=
  { World.initial with
    metadata := samplePlacement
    up := true
    nodes := fun _ => ⟨true, false, fun shardId =>
      ⟨{ ShardDisk.empty with collection := routedTo samplePlacement shardId samplePoints },
        some ⟨shardId, 1, ⟨1, 1, 1⟩, .empty⟩⟩⟩ }

theorem sample_answering : Answering sampleServing :=
  ⟨rfl, rfl, fun _ _ => ⟨"node-0", mem_cons_self, rfl, rfl, _, rfl, Nat.le_refl 1⟩⟩

/-- A shard's collection that searches as one collection does. -/
def sampleKernel : SearchRequest → PointMap → Except String (List SearchResult) :=
  searchBranch dotScore fun _ => .ok ()

/-- The best by the dot product with 1.0 and by the weight of a term, fused. -/
def sampleSearch (k fetchK : Int) : SearchRequest :=
  { metric := .dot, k, vector := some [⟨0x3FF0000000000000⟩], sparse := [(7, ⟨0x3FF0000000000000⟩)],
    mode := .hybrid, fetchK }

end Akasha.Distributed

import Akasha.Index.HnswBeam
import Akasha.Index.HnswScratch
import Akasha.Lib.Exec

/-!
# A layer search with its scratch

`search_layer` of `hnsw_core.mojo` as it runs: on a scratch that earlier searches used, with two
binary heaps, and with the counters that its caller reads. It computes what the search over lists
does (`Tracks`), so that it ends by itself, scores no slot twice and returns the best items that
can be reached: `search_layer_exact`.
-/

namespace Akasha.Hnsw

open Lib Lib.Exec

/-- The counters of `HnswSearchStats` that a layer search changes. -/
structure HnswSearchStats where
  baseVisited : Nat
  distanceEvaluations : Nat
  retainedCandidates : Nat
  filteredRejections : Nat
  inactiveRejections : Nat
  deriving DecidableEq

/-- The caller's scratch and counters, and the slots scored, latest first. -/
structure LayerState where
  scratch : EpochScratch
  stats : HnswSearchStats
  scored : List Nat
  deriving DecidableEq

/-- One more slot is scored. -/
def LayerState.countScored (state : LayerState) (slot : Nat) : LayerState :=
  { state with
    stats := { state.stats with
      baseVisited := state.stats.baseVisited + 1
      distanceEvaluations := state.stats.distanceEvaluations + 1 }
    scored := slot :: state.scored }

namespace LayerSearch

variable {V : Type} (graph : HnswStorage V) (dispatcher : MetricDispatcher V) (query : V)
  (admission : HnswResultAdmission) (ef level : Nat)

/-- Change the scratch with a step that may raise. -/
def onScratch {α : Type} (step : EpochScratch → Except String (EpochScratch × α)) :
    Exec LayerState String α :=
  attempt fun state => do
    let (scratch, a) ← step state.scratch
    pure ({ state with scratch := scratch }, a)

/-- The distance of a slot is computed and counted. -/
def scoreSlot (slot : Nat) : Exec LayerState String HnswHeapItem := do
  let item ← lift (graph.itemAt dispatcher query slot)
  update fun state => state.countScored slot
  pure item

/-- `scratch.results.offer(item, ef)`. -/
def offerRadius (item : HnswHeapItem) : Exec LayerState String Unit :=
  onScratch fun scratch => do
    let results ← offerResult ef scratch.results item
    pure ({ scratch with results := results }, ())

/-- `scratch.filtered_results.offer(item, ef)`. -/
def offerFiltered (item : HnswHeapItem) : Exec LayerState String Unit :=
  onScratch fun scratch => do
    let results ← offerResult ef scratch.filteredResults item
    pure ({ scratch with filteredResults := results }, ())

/-- `_consider_result_admission`; the heap it offers to is a parameter of the source. -/
def considerResultAdmission (item : HnswHeapItem) (offerTo : Exec LayerState String Unit) :
    Exec LayerState String Unit := do
  if graph.isCurrent item.slot then do
    let allowed ← lift (admission.allowsItem item.slot item.id)
    if allowed then offerTo
    else update fun state => { state with
      stats := { state.stats with filteredRejections := state.stats.filteredRejections + 1 } }
  else update fun state => { state with
    stats := { state.stats with inactiveRejections := state.stats.inactiveRejections + 1 } }

/-- The radius of a filtered search is retained beside its results. -/
def retain (item : HnswHeapItem) : Exec LayerState String Unit :=
  if admission.allowAll then
    considerResultAdmission graph admission item (offerRadius ef item)
  else do
    offerRadius ef item
    considerResultAdmission graph admission item (offerFiltered ef item)

/-- `scratch.candidates.push(item)`. -/
def pushFrontier (item : HnswHeapItem) : Exec LayerState String Unit :=
  update fun state => { state with
    scratch := { state.scratch with candidates := pushCandidate state.scratch.candidates item } }

/-- `scratch.candidates.pop()`, after the loop has asked whether there is one. -/
def popFrontier : Exec LayerState String (Option HnswHeapItem) := fun state =>
  match popCandidate state.scratch.candidates with
  | none => (.ok none, state)
  | some (candidate, rest) =>
      (.ok (some candidate), { state with scratch := { state.scratch with candidates := rest } })

/-- A candidate ends the search when it is farther than the worst of a full radius. -/
def endsSearch (scratch : EpochScratch) (distance : Rat) : Except String Bool :=
  if ef ≤ scratch.results.size then do
    let worst ← peekWorst scratch.results
    pure (worst.distance < distance)
  else pure false

/-- An item enters the frontier unless it is farther than the worst of a full radius. -/
def entersFrontier (scratch : EpochScratch) (distance : Rat) : Except String Bool :=
  if scratch.results.size < ef then pure true
  else do
    let worst ← peekWorst scratch.results
    pure (distance ≤ worst.distance)

/-- Add a scored neighbour to the frontier. -/
def extendFrontier (item : HnswHeapItem) : Exec LayerState String Unit := do
  let state ← read
  let enters ← lift (entersFrontier ef state.scratch item.distance)
  if enters then pushFrontier item else pure ()

/-- One edge of an expanded slot. -/
def visitNeighbor (neighbor : Nat) : Exec LayerState String Unit := do
  lift (graph.checkTarget level neighbor)
  let first ← onScratch fun scratch => scratch.visit neighbor
  if first then do
    let item ← scoreSlot graph dispatcher query neighbor
    retain graph admission ef item
    extendFrontier ef item
  else pure ()

/-- `while not scratch.candidates.is_empty()`, for at most some rounds. -/
def searchRounds : Nat → Exec LayerState String Unit
  | 0 => raise "too many rounds"
  | rounds + 1 => do
      let popped ← popFrontier
      match popped with
      | none => pure ()
      | some candidate => do
          let state ← read
          let ends ← lift (endsSearch ef state.scratch candidate.distance)
          if ends then pure ()
          else do
            let edges ← lift (graph.neighbors candidate.slot level)
            forEach edges (visitNeighbor graph dispatcher query admission ef level)
            searchRounds rounds

/-- Drain the results and keep the first `k`. -/
def takeBest (k : Nat) : Exec LayerState String (List HnswHeapItem) := fun state =>
  let scratch := state.scratch
  let best := (takeSortedBest
    (if admission.allowAll then scratch.results else scratch.filteredResults)).take k
  (.ok best, { state with
    scratch :=
      if admission.allowAll then { scratch with results := #[] }
      else { scratch with filteredResults := #[] }
    stats := { state.stats with retainedCandidates := best.length } })

/-- `search_layer`. -/
def searchLayer (rounds entry k : Nat) : Exec LayerState String (List HnswHeapItem) := do
  ensure (0 < k) "HNSW search k must be positive"
  ensure (0 < ef) "HNSW search ef must be positive"
  ensure (k ≤ ef) "HNSW search ef must be at least k"
  lift (graph.validateSearchBoundary dispatcher query entry level)
  lift (admission.validate graph.slotCount)
  onScratch fun scratch => do
    let next ← scratch.begin graph.slotCount ef
    pure (next, ())
  let _ ← onScratch fun scratch => scratch.visit entry
  let item ← scoreSlot graph dispatcher query entry
  pushFrontier item
  retain graph admission ef item
  searchRounds graph dispatcher query admission ef level rounds
  takeBest admission k

/-! ## The search over lists -/

/-- The state holds what the lists of the search do, and the counters count the visited slots. -/
structure Tracks (slotCount ef : Nat) (start : HnswSearchStats) (lists : HnswSearchScratch)
    (state : LayerState) : Prop where
  marks : state.scratch.Marks slotCount lists.visited
  sorted : lists.candidates.Pairwise ItemLe
  candidates : Frontier state.scratch.candidates lists.candidates
  results : Retains ef state.scratch.results lists.results
  filtered : Retains ef state.scratch.filteredResults lists.filteredResults
  scored : state.scored = lists.visited
  base_visited : state.stats.baseVisited = start.baseVisited + lists.visited.length
  distance_evaluations :
    state.stats.distanceEvaluations = start.distanceEvaluations + lists.visited.length

variable {graph dispatcher query admission ef level}
variable {start : HnswSearchStats} {lists next : HnswSearchScratch} {state : LayerState}
  {item : HnswHeapItem} {slot slotCount : Nat}

theorem on_scratch_ok {α : Type} {step : EpochScratch → Except String (EpochScratch × α)}
    {scratch : EpochScratch} {a : α} (h : step state.scratch = .ok (scratch, a)) :
    onScratch step state = (.ok a, { state with scratch := scratch }) := by
  refine attempt_ok_iff.2 ?_
  show (step state.scratch >>= _) = _
  rw [h]
  rfl

theorem first_visit_ok (h : Tracks slotCount ef start lists state) (hslot : slot < slotCount)
    (hnew : slot ∉ lists.visited) (hitem : graph.itemAt dispatcher query slot = .ok item) :
    ∃ marked counted, onScratch (·.visit slot) state = (.ok true, marked) ∧
      scoreSlot graph dispatcher query slot marked = (.ok item, counted) ∧
      Tracks slotCount ef start { lists with visited := slot :: lists.visited } counted := by
  obtain ⟨scratch, hvisit, hmarks, hcandidates, hresults, hfiltered⟩ :=
    EpochScratch.visit_first h.marks hslot hnew
  refine ⟨_, LayerState.countScored { state with scratch := scratch } slot,
    on_scratch_ok hvisit, ?_, ?_⟩
  · unfold scoreSlot
    rw [lift_ok_bind hitem]
    rfl
  · refine ⟨hmarks, h.sorted, ?_, ?_, ?_, congrArg (slot :: ·) h.scored, ?_, ?_⟩
    · exact hcandidates ▸ h.candidates
    · exact hresults ▸ h.results
    · exact hfiltered ▸ h.filtered
    · exact congrArg (· + 1) h.base_visited
    · exact congrArg (· + 1) h.distance_evaluations

theorem push_frontier_ok (h : Tracks slotCount ef start lists state) (item : HnswHeapItem) :
    ∃ pushed, pushFrontier item state = (.ok (), pushed) ∧ Tracks slotCount ef start
      { lists with candidates := lists.candidates.orderedInsert ItemLe item } pushed := by
  obtain ⟨hheap, hperm⟩ := frontier_push h.candidates item
  refine ⟨_, rfl, EpochScratch.marks_of_same h.marks rfl rfl rfl,
    h.sorted.orderedInsert item lists.candidates, ⟨hheap, ?_⟩, h.results, h.filtered, h.scored,
    h.base_visited, h.distance_evaluations⟩
  exact hperm.trans (List.perm_orderedInsert ItemLe item lists.candidates).symm

theorem offer_radius_ok (h : Tracks slotCount ef start lists state) (hef : 0 < ef)
    (item : HnswHeapItem) :
    ∃ offered, offerRadius ef item state = (.ok (), offered) ∧ Tracks slotCount ef start
      { lists with results := offer lists.results item ef } offered := by
  obtain ⟨results, hoffer, hretains⟩ := retains_offer h.results hef item
  refine ⟨_, on_scratch_ok (bind_ok.2 ⟨results, hoffer, rfl⟩), ?_⟩
  exact ⟨EpochScratch.marks_of_same h.marks rfl rfl rfl, h.sorted, h.candidates, hretains,
    h.filtered, h.scored, h.base_visited, h.distance_evaluations⟩

theorem offer_filtered_ok (h : Tracks slotCount ef start lists state) (hef : 0 < ef)
    (item : HnswHeapItem) :
    ∃ offered, offerFiltered ef item state = (.ok (), offered) ∧ Tracks slotCount ef start
      { lists with filteredResults := offer lists.filteredResults item ef } offered := by
  obtain ⟨results, hoffer, hretains⟩ := retains_offer h.filtered hef item
  refine ⟨_, on_scratch_ok (bind_ok.2 ⟨results, hoffer, rfl⟩), ?_⟩
  exact ⟨EpochScratch.marks_of_same h.marks rfl rfl rfl, h.sorted, h.candidates, h.results,
    hretains, h.scored, h.base_visited, h.distance_evaluations⟩

/-- Considering an item offers it or counts a rejection. -/
theorem consider_ok {heap kept : List HnswHeapItem} {offerTo : Exec LayerState String Unit}
    {offered : LayerState} (h : graph.considerResult admission ef item heap = .ok kept)
    (hoffer : offerTo state = (.ok (), offered)) :
    (kept = offer heap item ef ∧
        considerResultAdmission graph admission item offerTo state = (.ok (), offered)) ∨
      (kept = heap ∧ ∃ stats, stats.baseVisited = state.stats.baseVisited ∧
        stats.distanceEvaluations = state.stats.distanceEvaluations ∧
        considerResultAdmission graph admission item offerTo state =
          (.ok (), { state with stats := stats })) := by
  unfold HnswStorage.considerResult at h
  unfold considerResultAdmission
  by_cases hcurrent : graph.isCurrent item.slot = true
  · rw [if_pos hcurrent] at h ⊢
    obtain ⟨allowed, hallowed, hkept⟩ := bind_ok.1 h
    rw [lift_ok_bind hallowed]
    cases allowed with
    | true => exact .inl ⟨(Except.ok.inj hkept).symm, hoffer⟩
    | false =>
        exact .inr ⟨(Except.ok.inj hkept).symm, { state.stats with
          filteredRejections := state.stats.filteredRejections + 1 }, rfl, rfl, rfl⟩
  · rw [if_neg hcurrent] at h ⊢
    exact .inr ⟨(Except.ok.inj h).symm, { state.stats with
      inactiveRejections := state.stats.inactiveRejections + 1 }, rfl, rfl, rfl⟩

theorem tracks_stats (h : Tracks slotCount ef start lists state) {stats : HnswSearchStats}
    (hbase : stats.baseVisited = state.stats.baseVisited)
    (hdistance : stats.distanceEvaluations = state.stats.distanceEvaluations) :
    Tracks slotCount ef start lists { state with stats := stats } :=
  ⟨h.marks, h.sorted, h.candidates, h.results, h.filtered, h.scored, hbase.trans h.base_visited,
    hdistance.trans h.distance_evaluations⟩

theorem retain_ok (h : Tracks slotCount ef start lists state) (hef : 0 < ef)
    (hconsidered : graph.considerItem admission ef item lists = .ok next) :
    ∃ retained, retain graph admission ef item state = (.ok (), retained) ∧
      Tracks slotCount ef start next retained := by
  unfold HnswStorage.considerItem at hconsidered
  unfold retain
  by_cases hall : admission.allowAll = true
  · rw [if_pos hall] at hconsidered ⊢
    obtain ⟨kept, hkept, hnext⟩ := bind_ok.1 hconsidered
    obtain rfl := Except.ok.inj hnext
    obtain ⟨offered, hoffered, htracks⟩ := offer_radius_ok h hef item
    rcases consider_ok hkept hoffered with ⟨rfl, hrun⟩ | ⟨rfl, stats, hbase, hdistance, hrun⟩
    · exact ⟨offered, hrun, htracks⟩
    · exact ⟨_, hrun, tracks_stats h hbase hdistance⟩
  · rw [if_neg hall] at hconsidered ⊢
    obtain ⟨kept, hkept, hnext⟩ := bind_ok.1 hconsidered
    obtain rfl := Except.ok.inj hnext
    obtain ⟨radius, hradius, hradiusTracks⟩ := offer_radius_ok h hef item
    obtain ⟨offered, hoffered, htracks⟩ := offer_filtered_ok hradiusTracks hef item
    rw [bind_of_ok hradius]
    rcases consider_ok hkept hoffered with ⟨rfl, hrun⟩ | ⟨rfl, stats, hbase, hdistance, hrun⟩
    · exact ⟨offered, hrun, htracks⟩
    · exact ⟨_, hrun, tracks_stats hradiusTracks hbase hdistance⟩

theorem peek_worst_ok (h : Tracks slotCount ef start lists state) (hef : 0 < ef)
    (hfull : ef ≤ lists.results.length) :
    ∃ worst, lists.results.getLast? = some worst ∧
      peekWorst state.scratch.results = .ok worst := by
  have hne : lists.results ≠ [] := by
    rintro hnil
    rw [hnil, List.length_nil] at hfull
    omega
  refine ⟨lists.results.getLast hne, List.getLast?_eq_some_getLast hne, ?_⟩
  rw [peekWorst, retains_worst h.results, List.getLast?_eq_some_getLast hne]
  rfl

theorem ends_search_ok (h : Tracks slotCount ef start lists state) (hef : 0 < ef)
    (distance : Rat) : endsSearch ef state.scratch distance = .ok (lists.beyond ef distance) := by
  unfold endsSearch HnswSearchScratch.beyond
  rw [h.results.size]
  by_cases hfull : ef ≤ lists.results.length
  · obtain ⟨worst, hlast, hpeek⟩ := peek_worst_ok h hef hfull
    rw [if_pos hfull, hpeek, hlast, decide_eq_true hfull, Bool.true_and]
    rfl
  · rw [if_neg hfull, decide_eq_false hfull, Bool.false_and]
    rfl

theorem enters_frontier_ok (h : Tracks slotCount ef start lists state) (hef : 0 < ef)
    (distance : Rat) :
    entersFrontier ef state.scratch distance = .ok (!lists.beyond ef distance) := by
  unfold entersFrontier HnswSearchScratch.beyond
  rw [h.results.size]
  by_cases hfull : ef ≤ lists.results.length
  · obtain ⟨worst, hlast, hpeek⟩ := peek_worst_ok h hef hfull
    rw [if_neg (by omega), hpeek, hlast, decide_eq_true hfull, Bool.true_and, Option.any_some,
      ← decide_not]
    simp only [not_lt]
    rfl
  · rw [if_pos (by omega), decide_eq_false hfull, Bool.false_and]
    rfl

theorem extend_frontier_ok (h : Tracks slotCount ef start lists state) (hef : 0 < ef)
    (item : HnswHeapItem) :
    ∃ extended, extendFrontier ef item state = (.ok (), extended) ∧
      Tracks slotCount ef start (lists.push ef item) extended := by
  unfold extendFrontier HnswSearchScratch.push
  rw [read_bind, lift_ok_bind (enters_frontier_ok h hef item.distance)]
  cases lists.beyond ef item.distance with
  | true => exact ⟨state, rfl, h⟩
  | false => exact push_frontier_ok h item

theorem pop_frontier_ok (h : Tracks slotCount ef start lists state) {candidate : HnswHeapItem}
    {rest : List HnswHeapItem} (hcandidates : lists.candidates = candidate :: rest) :
    ∃ popped, popFrontier state = (.ok (some candidate), popped) ∧
      Tracks slotCount ef start { lists with candidates := rest } popped := by
  have hfrontier := h.candidates
  have hsorted := h.sorted
  rw [hcandidates] at hfrontier hsorted
  obtain ⟨hfirst, hrest⟩ := List.pairwise_cons.1 hsorted
  obtain ⟨heap, hpop, hheap⟩ := frontier_pop hfrontier hfirst
  refine ⟨{ state with scratch := { state.scratch with candidates := heap } }, ?_, ?_⟩
  · rw [popFrontier, hpop]
  · exact ⟨EpochScratch.marks_of_same h.marks rfl rfl rfl, hrest, hheap, h.results, h.filtered,
      h.scored, h.base_visited, h.distance_evaluations⟩

/-! ## Loops -/

theorem lt_of_check_target (h : graph.checkTarget level slot = .ok ()) :
    slot < graph.slotCount := by
  unfold HnswStorage.checkTarget HnswStorage.level at h
  simp only [bind_ok, pure_ok, HnswStorage.node_ok, require_ok] at h
  obtain ⟨_, ⟨node, hnode, -⟩, -⟩ := h
  exact (List.getElem?_eq_some_iff.1 hnode).1

/-- Expanding a slot does what it does to the lists. -/
theorem expand_ok (hef : 0 < ef) {edges : List Nat}
    (h : Tracks graph.slotCount ef start lists state)
    (hexpand : graph.expand dispatcher query admission ef level edges lists = .ok next) :
    ∃ expanded, forEach edges (visitNeighbor graph dispatcher query admission ef level) state =
        (.ok (), expanded) ∧ Tracks graph.slotCount ef start next expanded := by
  induction edges generalizing lists state with
  | nil =>
      obtain rfl := Except.ok.inj hexpand
      exact ⟨state, rfl, h⟩
  | cons neighbor edges ih =>
      obtain ⟨⟨⟩, hcheck, hrest⟩ := bind_ok.1 hexpand
      have hlt := lt_of_check_target hcheck
      by_cases hseen : neighbor ∈ lists.visited
      · rw [if_pos hseen] at hrest
        obtain ⟨expanded, hrun, htracks⟩ := ih h hrest
        refine ⟨expanded, ?_, htracks⟩
        have hmark : onScratch (·.visit neighbor) state = (.ok false, state) :=
          on_scratch_ok (EpochScratch.visit_again h.marks hlt hseen)
        have hvisit : visitNeighbor graph dispatcher query admission ef level neighbor state =
            (.ok (), state) := by
          unfold visitNeighbor
          rw [lift_ok_bind hcheck, bind_of_ok hmark]
          rfl
        rw [forEach, bind_of_ok hvisit, hrun]
      · rw [if_neg hseen] at hrest
        obtain ⟨pair, hpair, hrest⟩ := bind_ok.1 hrest
        obtain ⟨item, hitem, hvisited⟩ := bind_ok.1 hpair
        obtain ⟨seen, hconsidered, hreturn⟩ := bind_ok.1 hvisited
        obtain rfl := Except.ok.inj hreturn
        obtain ⟨marked, counted, hmark, hscore, hcounted⟩ := first_visit_ok h hlt hseen hitem
        obtain ⟨retained, hretain, hretained⟩ := retain_ok hcounted hef hconsidered
        obtain ⟨extended, hextend, hextended⟩ := extend_frontier_ok hretained hef item
        obtain ⟨expanded, hrun, htracks⟩ := ih hextended hrest
        refine ⟨expanded, ?_, htracks⟩
        have hvisit : visitNeighbor graph dispatcher query admission ef level neighbor state =
            (.ok (), extended) := by
          unfold visitNeighbor
          rw [lift_ok_bind hcheck, bind_of_ok hmark]
          show (scoreSlot graph dispatcher query neighbor >>= _) marked = _
          rw [bind_of_ok hscore, bind_of_ok hretain, hextend]
        rw [forEach, bind_of_ok hvisit, hrun]

/-- A round takes a candidate, which ends the search or is expanded. -/
theorem round_ok (hef : 0 < ef) (h : Tracks graph.slotCount ef start lists state)
    {candidate : HnswHeapItem} {rest : List HnswHeapItem}
    (hcandidates : lists.candidates = candidate :: rest) :
    ∃ popped, Tracks graph.slotCount ef start { lists with candidates := rest } popped ∧
      ∀ rounds, searchRounds graph dispatcher query admission ef level (rounds + 1) state =
        if lists.beyond ef candidate.distance then (.ok (), popped)
        else (do
          let edges ← lift (graph.neighbors candidate.slot level)
          forEach edges (visitNeighbor graph dispatcher query admission ef level)
          searchRounds graph dispatcher query admission ef level rounds :
            Exec LayerState String Unit) popped := by
  obtain ⟨popped, hpop, hpopped⟩ := pop_frontier_ok h hcandidates
  have hends := ends_search_ok hpopped hef candidate.distance
  refine ⟨popped, hpopped, fun rounds => ?_⟩
  rw [searchRounds, bind_of_ok hpop]
  show (read >>= _ : Exec LayerState String Unit) popped = _
  rw [read_bind, lift_ok_bind hends]
  show (if lists.beyond ef candidate.distance = true then pure () else _ :
    Exec LayerState String Unit) popped = _
  by_cases hbeyond : lists.beyond ef candidate.distance = true
  · rw [if_pos hbeyond, if_pos hbeyond]
    rfl
  · rw [if_neg hbeyond, if_neg hbeyond]

/-- An ended search stops at its next candidate. -/
theorem ended_ok (hef : 0 < ef) (h : Tracks graph.slotCount ef start lists state)
    (hended : lists.Ended ef) (rounds : Nat) :
    ∃ stopped rest,
      searchRounds graph dispatcher query admission ef level (rounds + 1) state =
          (.ok (), stopped) ∧
        Tracks graph.slotCount ef start { lists with candidates := rest } stopped := by
  cases hcandidates : lists.candidates with
  | nil =>
      have hfrontier := h.candidates
      rw [hcandidates] at hfrontier
      have hpop : popFrontier state = (.ok none, state) := by
        rw [popFrontier, frontier_pop_none hfrontier]
      refine ⟨state, lists.candidates, ?_, h⟩
      rw [searchRounds, bind_of_ok hpop]
      rfl
  | cons candidate rest =>
      obtain ⟨popped, hpopped, hround⟩ := round_ok hef h hcandidates
      have hbeyond : lists.beyond ef candidate.distance = true :=
        hended candidate (by rw [hcandidates]; rfl)
      exact ⟨popped, rest, (hround rounds).trans (if_pos hbeyond), hpopped⟩

/-- The loop does what it does to the lists, and ends by itself. -/
theorem rounds_ok (hef : 0 < ef) {fuel rounds : Nat}
    (h : Tracks graph.slotCount ef start lists state)
    (hloop : graph.searchLoop dispatcher query admission ef level fuel lists = .ok next)
    (hended : next.Ended ef) (hrounds : fuel < rounds) :
    ∃ stopped rest,
      searchRounds graph dispatcher query admission ef level rounds state = (.ok (), stopped) ∧
        Tracks graph.slotCount ef start { next with candidates := rest } stopped := by
  induction fuel generalizing lists state rounds with
  | zero =>
      obtain rfl := Except.ok.inj hloop
      obtain ⟨extra, rfl⟩ := Nat.exists_eq_add_of_lt hrounds
      exact ended_ok hef h hended _
  | succ fuel ih =>
      obtain ⟨extra, rfl⟩ : ∃ extra, rounds = extra + 1 := ⟨rounds - 1, by omega⟩
      rw [HnswStorage.searchLoop] at hloop
      cases hcandidates : lists.candidates with
      | nil =>
          rw [hcandidates] at hloop
          obtain rfl := Except.ok.inj hloop
          exact ended_ok hef h hended _
      | cons candidate rest =>
          rw [hcandidates] at hloop
          change (if lists.beyond ef candidate.distance = true then Except.ok lists else _) =
            Except.ok next at hloop
          by_cases hbeyond : lists.beyond ef candidate.distance = true
          · rw [if_pos hbeyond] at hloop
            obtain rfl := Except.ok.inj hloop
            exact ended_ok hef h hended _
          · rw [if_neg hbeyond] at hloop
            obtain ⟨edges, hedges, hexpanded⟩ := bind_ok.1 hloop
            obtain ⟨expanded, hexpand, hrest⟩ := bind_ok.1 hexpanded
            obtain ⟨popped, hpopped, hround⟩ := round_ok hef h hcandidates
            obtain ⟨grown, hgrown, hgrownTracks⟩ := expand_ok hef hpopped hexpand
            obtain ⟨stopped, left, hrun, htracks⟩ := ih hgrownTracks hrest
              (show fuel < extra by omega)
            refine ⟨stopped, left, ?_, htracks⟩
            rw [hround, if_neg hbeyond, lift_ok_bind hedges, bind_of_ok hgrown, hrun]

/-! ## The whole search -/

theorem consider_item_candidates (h : graph.considerItem admission ef item lists = .ok next)
    (candidates : List HnswHeapItem) :
    graph.considerItem admission ef item { lists with candidates := candidates } =
      .ok { next with candidates := candidates } := by
  unfold HnswStorage.considerItem at h ⊢
  by_cases hall : admission.allowAll = true
  · rw [if_pos hall] at h ⊢
    obtain ⟨kept, hkept, hnext⟩ := bind_ok.1 h
    obtain rfl := Except.ok.inj hnext
    exact bind_ok.2 ⟨kept, hkept, rfl⟩
  · rw [if_neg hall] at h ⊢
    obtain ⟨kept, hkept, hnext⟩ := bind_ok.1 h
    obtain rfl := Except.ok.inj hnext
    exact bind_ok.2 ⟨kept, hkept, rfl⟩

theorem take_best_ok (h : Tracks slotCount ef start lists state) (k : Nat) :
    ∃ taken, takeBest admission k state = (.ok ((lists.admitted admission).take k), taken) ∧
      taken.scratch.WellMarked ∧ taken.scored = state.scored ∧
      taken.stats.baseVisited = state.stats.baseVisited ∧
      taken.stats.distanceEvaluations = state.stats.distanceEvaluations := by
  have hdrained : takeSortedBest
      (if admission.allowAll then state.scratch.results else state.scratch.filteredResults) =
        lists.admitted admission := by
    unfold HnswSearchScratch.admitted
    split
    · exact retains_take h.results
    · exact retains_take h.filtered
  refine ⟨_, Prod.ext (congrArg (fun items => Except.ok (List.take k items)) hdrained) rfl, ?_, rfl,
    rfl, rfl⟩
  show EpochScratch.WellMarked (if admission.allowAll then _ else _)
  split
  · exact ⟨h.marks.prepared, h.marks.marks⟩
  · exact ⟨h.marks.prepared, h.marks.marks⟩

theorem owns_of_validate_search_boundary {entry : Nat}
    (h : graph.validateSearchBoundary dispatcher query entry level = .ok ()) :
    graph.Owns entry level := by
  unfold HnswStorage.validateSearchBoundary HnswStorage.level at h
  simp only [bind_ok, exists_unit, pure_ok, HnswStorage.node_ok, require_ok] at h
  obtain ⟨-, -, -, -, -, _, ⟨node, hnode, rfl⟩, hlevel, -⟩ := h
  exact ⟨node, hnode, hlevel⟩

variable {scratch : EpochScratch} {entry k rounds : Nat}

theorem search_layer_rejected (h : ¬ (0 < k ∧ k ≤ ef ∧ graph.Owns entry level)) (rounds : Nat) :
    ∃ e, searchLayer graph dispatcher query admission ef level rounds entry k state =
      (.error e, state) := by
  unfold searchLayer
  by_cases hk : 0 < k
  · rw [bind_of_ok (ensure_of hk _ state)]
    by_cases hpos : 0 < ef
    · rw [bind_of_ok (ensure_of hpos _ state)]
      by_cases hef : k ≤ ef
      · rw [bind_of_ok (ensure_of hef _ state)]
        cases hcheck : graph.validateSearchBoundary dispatcher query entry level with
        | error e => exact ⟨e, bind_of_error rfl⟩
        | ok done => exact absurd ⟨hk, hef, owns_of_validate_search_boundary hcheck⟩ h
      · exact ⟨_, bind_of_error (ensure_of_not hef _ state)⟩
    · exact ⟨_, bind_of_error (ensure_of_not hpos _ state)⟩
  · exact ⟨_, bind_of_error (ensure_of_not hk _ state)⟩

/-- A search on a used scratch returns what the search on lists does, the best items; it scores no
slot twice and leaves the scratch for the next search. -/
theorem search_layer_ok (h : graph.LayerSearchable dispatcher query level)
    (hanswers : graph.Answers admission) (hrounds : graph.slotCount < rounds)
    (hscratch : scratch.WellMarked) (start : HnswSearchStats) (hk : 0 < k) (hef : k ≤ ef)
    (hentry : graph.Owns entry level) :
    ∃ items final, searchLayer graph dispatcher query admission ef level rounds entry k
        ⟨scratch, start, []⟩ = (.ok items, final) ∧
      graph.searchLayer dispatcher query admission ef entry level k = .ok items ∧
      graph.Best dispatcher query admission level ef entry k items ∧ final.scratch.WellMarked ∧
      final.scored.Nodup ∧
      final.stats.baseVisited = start.baseVisited + final.scored.length ∧
      final.stats.distanceEvaluations = start.distanceEvaluations + final.scored.length := by
  have hpos : 0 < ef := hk.trans_le hef
  have hlt := HnswStorage.lt_of_owns hentry
  obtain ⟨item, seen, hvisit, hvisited, hstart⟩ :=
    HnswStorage.beam_start dispatcher query hanswers hentry hpos
  obtain ⟨finished, hloop, hbeam, hended⟩ := HnswStorage.search_loop_beam h hanswers
    graph.slotCount hstart (by
      show [item].length + graph.slotCount ≤ graph.slotCount + seen.visited.length
      rw [hvisited, List.length_singleton, List.length_singleton]
      omega)
  obtain ⟨scored, hitem, hscored⟩ := bind_ok.1 hvisit
  obtain ⟨admitted, hconsidered, hpair⟩ := bind_ok.1 hscored
  obtain ⟨rfl, rfl⟩ := Prod.mk.inj (Except.ok.inj hpair)
  obtain ⟨begun, hbegin, hmarks, hcandidates, hresults, hfiltered⟩ :=
    EpochScratch.begin_ok hscratch graph.slotCount hpos
  have hbegun : Tracks graph.slotCount ef start ⟨[], [], [], []⟩ ⟨begun, start, []⟩ := by
    refine ⟨hmarks, .nil, ?_, ?_, ?_, rfl, rfl, rfl⟩
    · show Frontier begun.candidates []
      rw [hcandidates]
      exact frontier_empty
    · show Retains ef begun.results []
      rw [hresults]
      exact retains_empty ef
    · show Retains ef begun.filteredResults []
      rw [hfiltered]
      exact retains_empty ef
  obtain ⟨marked, counted, hmark, hscore, hcounted⟩ :=
    first_visit_ok hbegun hlt List.not_mem_nil hitem
  obtain ⟨pushed, hpush, hpushed⟩ := push_frontier_ok hcounted scored
  obtain ⟨retained, hretain, hretained⟩ :=
    retain_ok hpushed hpos (consider_item_candidates hconsidered [scored])
  obtain ⟨stopped, rest, hrun, hstopped⟩ := rounds_ok hpos hretained hloop hended hrounds
  obtain ⟨final, htake, hmarked, hfinal, hbase, hdistance⟩ := take_best_ok hstopped k
  have hsame : final.scored = finished.visited := hfinal.trans hstopped.scored
  have hcount : finished.visited.length = final.scored.length := by rw [hsame]
  have hcheck := HnswStorage.validate_search_boundary_of h hentry
  refine ⟨_, final, ?_, ?_, HnswStorage.beam_best h hbeam hended k, hmarked, ?_, ?_, ?_⟩
  · have hprepare : onScratch (fun scratch => do
          let next ← scratch.begin graph.slotCount ef
          pure (next, ())) ⟨scratch, start, []⟩ = (.ok (), ⟨begun, start, []⟩) :=
      on_scratch_ok (bind_ok.2 ⟨begun, hbegin, rfl⟩)
    unfold searchLayer
    rw [bind_of_ok (ensure_of hk _ _), bind_of_ok (ensure_of hpos _ _),
      bind_of_ok (ensure_of hef _ _), lift_ok_bind hcheck,
      lift_ok_bind hanswers.validate, bind_of_ok hprepare, bind_of_ok hmark,
      bind_of_ok hscore, bind_of_ok hpush, bind_of_ok hretain,
      bind_of_ok hrun, htake]
    rfl
  · simp only [HnswStorage.searchLayer, bind_ok, require_ok, exists_unit, pure_ok]
    exact ⟨hk, hpos, hef, hcheck, hanswers.validate, _, hvisit, finished, hloop, rfl⟩
  · rw [hsame]
    exact hbeam.visited_nodup
  · rw [hbase, hstopped.base_visited, ← hcount]
  · rw [hdistance, hstopped.distance_evaluations, ← hcount]

/-- A layer search ends whatever its scratch was used for, and scores no slot twice. It returns
when its entry owns the level and its demand fits its beam; then it returns different current and
admitted slots, best first, and with a full beam the best of all that can be reached. -/
theorem search_layer_exact (graph : HnswStorage V) (dispatcher : MetricDispatcher V) (query : V)
    (admission : HnswResultAdmission) (level ef entry k rounds : Nat)
    (h : graph.LayerSearchable dispatcher query level) (hanswers : graph.Answers admission)
    (hrounds : graph.slotCount < rounds) (scratch : EpochScratch) (hscratch : scratch.WellMarked)
    (start : HnswSearchStats) :
    let run := searchLayer graph dispatcher query admission ef level rounds entry k
      ⟨scratch, start, []⟩
    run.2.scratch.WellMarked ∧ run.2.scored.Nodup ∧
      run.2.stats.distanceEvaluations = start.distanceEvaluations + run.2.scored.length ∧
      ((∃ items, run.1 = .ok items) ↔ 0 < k ∧ k ≤ ef ∧ graph.Owns entry level) ∧
      ∀ items, run.1 = .ok items → graph.Best dispatcher query admission level ef entry k items := by
  intro run
  by_cases hasked : 0 < k ∧ k ≤ ef ∧ graph.Owns entry level
  · obtain ⟨hk, hef, hentry⟩ := hasked
    obtain ⟨items, final, hrun, -, hbest, hmarked, hscored, -, hdistance⟩ :=
      search_layer_ok h hanswers hrounds hscratch start hk hef hentry
    have hrun : run = (.ok items, final) := hrun
    rw [hrun]
    refine ⟨hmarked, hscored, hdistance, ⟨fun _ => ⟨hk, hef, hentry⟩, fun _ => ⟨items, rfl⟩⟩, ?_⟩
    rintro _ ⟨⟩
    exact hbest
  · obtain ⟨e, hrun⟩ : ∃ e, run = (.error e, ⟨scratch, start, []⟩) :=
      search_layer_rejected hasked rounds
    rw [hrun]
    refine ⟨hscratch, List.nodup_nil, rfl, ⟨?_, fun hcontra => absurd hcontra hasked⟩, nofun⟩
    rintro ⟨_, ⟨⟩⟩

/-- A search whose scratch is at its last epoch, from a slot at position 0. -/
theorem search_layer_exact_narrow :
    let run := searchLayer narrowGraph lineDispatcher 0 admitAll 3 0 4 0 2
      ⟨⟨[lastEpoch, 7], lastEpoch, #[], #[], #[], 2⟩, ⟨0, 0, 0, 0, 0⟩, []⟩
    run.2.scratch.WellMarked ∧ run.2.scored.Nodup ∧ ∃ items, run.1 = .ok items ∧
      narrowGraph.Best lineDispatcher 0 admitAll 0 3 0 2 items := by
  intro run
  have hsearchable : narrowGraph.LayerSearchable lineDispatcher 0 0 :=
    ⟨rfl, rfl, rfl, fun _ _ hneighbor =>
      HnswStorage.owns_target narrow_graph_well_linked hneighbor⟩
  obtain ⟨hmarked, hscored, -, hreturns, hbest⟩ := search_layer_exact narrowGraph
    lineDispatcher 0 admitAll 0 3 0 2 4 hsearchable ⟨rfl, fun _ _ _ => ⟨true, rfl⟩⟩
    (by decide) ⟨[lastEpoch, 7], lastEpoch, #[], #[], #[], 2⟩
    ⟨by decide, List.forall_mem_cons.2 ⟨by decide, List.forall_mem_singleton.2 (by decide)⟩⟩
    ⟨0, 0, 0, 0, 0⟩
  obtain ⟨items, hitems⟩ := hreturns.2 ⟨by decide, by decide, _, rfl, Nat.zero_le _⟩
  exact ⟨hmarked, hscored, items, hitems, hbest items hitems⟩

end LayerSearch

end Akasha.Hnsw

import Akasha.Index.HnswTraversal
import Mathlib.Logic.Relation

/-!
# A search with a full beam

A layer search stops early when its radius is full and the frontier lies beyond it. With a beam as
wide as the graph that happens only when every slot was seen, so the search ends with all slots
that can be reached from its entry. `Beam` is what holds between two visits; its last two fields say
something only of such a beam.
-/

namespace Akasha.Hnsw

open Lib List

/-! ## Offers -/

theorem offer_sorted {heap : List HnswHeapItem} (item : HnswHeapItem) (capacity : Nat)
    (h : heap.Pairwise ItemLe) : (offer heap item capacity).Pairwise ItemLe :=
  (h.orderedInsert item heap).sublist (take_sublist _ _)

theorem mem_offer_of_room {heap : List HnswHeapItem} {item other : HnswHeapItem} {capacity : Nat}
    (h : heap.length < capacity) : other ∈ offer heap item capacity ↔ other = item ∨ other ∈ heap := by
  rw [offer, take_of_length_le (by rw [orderedInsert_length]; omega),
    mem_orderedInsert]

variable {V : Type}

namespace HnswStorage

/-- A traversal of a level can come from one slot to the other. -/
def Reachable (graph : HnswStorage V) (level : Nat) : Nat → Nat → Prop :=
  Relation.ReflTransGen fun slot neighbor => neighbor ∈ graph.adjacency level slot

/-- What holds between two visits, while the neighbours of a slot are visited. -/
structure Beam (graph : HnswStorage V) (dispatcher : MetricDispatcher V) (query : V)
    (admission : HnswResultAdmission) (level ef entry : Nat) (busy : Option Nat)
    (scratch : HnswSearchScratch) : Prop
    extends graph.Explores dispatcher query admission level scratch where
  started : entry ∈ scratch.visited
  waiting : ∀ item ∈ scratch.candidates, item.slot ∈ scratch.visited
  sorted : (scratch.admitted admission).Pairwise ItemLe
  reached : ∀ slot ∈ scratch.visited, graph.Reachable level entry slot
  radius_nodup : (scratch.results.map (·.slot)).Nodup
  radius_seen : ∀ item ∈ scratch.results, item.slot ∈ scratch.visited
  /-- Every seen slot that may be a result is one. -/
  complete : graph.slotCount ≤ ef → ∀ item,
    graph.Eligible dispatcher query admission level item → item.slot ∈ scratch.visited →
      item ∈ scratch.admitted admission
  /-- A seen slot waits in the frontier unless its neighbours are seen, or all slots are. -/
  covered : graph.slotCount ≤ ef → ∀ slot ∈ scratch.visited, busy = some slot ∨
    (∃ item ∈ scratch.candidates, item.slot = slot) ∨
    (∀ neighbor ∈ graph.adjacency level slot, neighbor ∈ scratch.visited) ∨
    ∀ other < graph.slotCount, other ∈ scratch.visited

variable {graph : HnswStorage V} {dispatcher : MetricDispatcher V} {query : V}
  {admission : HnswResultAdmission} {level ef entry slot : Nat} {busy : Option Nat}
  {scratch next : HnswSearchScratch} {item : HnswHeapItem}

theorem all_seen {visited : List Nat} (hnodup : visited.Nodup)
    (hlt : ∀ slot ∈ visited, slot < graph.slotCount) (hlength : graph.slotCount ≤ visited.length) :
    ∀ slot < graph.slotCount, slot ∈ visited := by
  intro slot hslot
  have hsub : visited ⊆ range graph.slotCount := fun other hother =>
    mem_range.2 (hlt other hother)
  have hperm := (hnodup.subperm hsub).perm_of_length_le (by rwa [length_range])
  exact hperm.mem_iff.2 (mem_range.2 hslot)

theorem beyond_all_seen (h : graph.Explores dispatcher query admission level scratch)
    (hnodup : (scratch.results.map (·.slot)).Nodup)
    (hseen : ∀ item ∈ scratch.results, item.slot ∈ scratch.visited) (hef : graph.slotCount ≤ ef)
    {distance : Rat} (hbeyond : scratch.beyond ef distance = true) :
    ∀ slot < graph.slotCount, slot ∈ scratch.visited := by
  have hfull : ef ≤ scratch.results.length := by
    rw [HnswSearchScratch.beyond, Bool.and_eq_true, decide_eq_true_eq] at hbeyond
    exact hbeyond.1
  have hsub : scratch.results.map (·.slot) ⊆ scratch.visited := by
    intro slot hslot
    obtain ⟨item, hitem, rfl⟩ := mem_map.1 hslot
    exact hseen item hitem
  have hlength := (hnodup.subperm hsub).length_le
  rw [length_map] at hlength
  exact all_seen h.visited_nodup h.visited_lt (by omega)

theorem eligible_eq {first second : HnswHeapItem}
    (hfirst : graph.Eligible dispatcher query admission level first)
    (hsecond : graph.itemAt dispatcher query second.slot = .ok second)
    (hslot : first.slot = second.slot) : first = second := by
  have hitem := hfirst.item_at
  rw [hslot, hsecond] at hitem
  exact (Except.ok.inj hitem).symm

/-- A slot is seen for the first time and enters the frontier. -/
theorem beam_visit (h : graph.Beam dispatcher query admission level ef entry busy scratch)
    (hvisits : graph.Visits dispatcher query admission level ef item scratch next)
    (hitem : graph.itemAt dispatcher query item.slot = .ok item)
    (howns : graph.Owns item.slot level) (hnew : item.slot ∉ scratch.visited)
    (hreachable : graph.Reachable level entry item.slot) :
    graph.Beam dispatcher query admission level ef entry busy (next.push ef item) := by
  have hexplores := visits_explores h.toExplores hvisits howns hnew
  obtain ⟨hpushed, hvisited, -⟩ := push_explores ef hexplores howns
  have hseen : (next.push ef item).visited = item.slot :: scratch.visited :=
    hvisited.trans hvisits.visited
  have hresults : (next.push ef item).results = next.results := by
    unfold HnswSearchScratch.push
    split <;> rfl
  have hadmitted : (next.push ef item).admitted admission = next.admitted admission := by
    unfold HnswSearchScratch.push
    split <;> rfl
  have hradius : (next.results.map (·.slot)).Nodup ∧
      ∀ other ∈ next.results, other.slot ∈ item.slot :: scratch.visited := by
    rcases hvisits.radius with heq | heq
    · rw [heq]
      exact ⟨h.radius_nodup, fun other hother =>
        mem_cons_of_mem _ (h.radius_seen other hother)⟩
    · have hfresh : ∀ other ∈ scratch.results, other.slot ≠ item.slot := fun other hother hslot =>
        hnew (hslot ▸ h.radius_seen other hother)
      obtain ⟨hnodup, hmem⟩ := offer_nodup ef h.radius_nodup hfresh
      rw [heq]
      refine ⟨hnodup, fun other hother => ?_⟩
      rcases hmem other hother with rfl | hold
      · exact mem_cons_self
      · exact mem_cons_of_mem _ (h.radius_seen other hold)
  have hcandidates : ∀ other ∈ (next.push ef item).candidates,
      other = item ∨ other ∈ scratch.candidates := by
    unfold HnswSearchScratch.push
    rw [← hvisits.candidates]
    split
    · exact fun other hother => .inr hother
    · exact fun other hother => (mem_orderedInsert ItemLe).1 hother
  refine ⟨hpushed, ?_, fun other hother => ?_, ?_, ?_, ?_, ?_, fun hef other heligible hslot => ?_,
    fun hef slot hslot => ?_⟩
  · rw [hseen]
    exact mem_cons_of_mem _ h.started
  · rw [hseen]
    rcases hcandidates other hother with rfl | hold
    · exact mem_cons_self
    · exact mem_cons_of_mem _ (h.waiting other hold)
  · rw [hadmitted]
    rcases hvisits.admitted with ⟨-, heq⟩ | ⟨-, heq⟩
    · rw [heq]
      exact offer_sorted item ef h.sorted
    · rw [heq]
      exact h.sorted
  · rw [hseen]
    exact forall_mem_cons.2 ⟨hreachable, h.reached⟩
  · rw [hresults]
    exact hradius.1
  · rw [hresults, hseen]
    exact hradius.2
  · rw [hadmitted]
    rw [hseen] at hslot
    have hold : other.slot ∈ scratch.visited → other ∈ scratch.admitted admission :=
      h.complete hef other heligible
    -- The beam has room for the new slot, since it has for every slot of the graph.
    have hroom : (scratch.admitted admission).length < ef := by
      have hsub : (scratch.admitted admission).map (·.slot) ⊆ scratch.visited := by
        intro slot hslot
        obtain ⟨found, hfound, rfl⟩ := mem_map.1 hslot
        exact h.seen found hfound
      have hlength := (h.found.slots_nodup.subperm hsub).length_le
      have hvisitedLength := visited_length_le hexplores
      rw [length_map] at hlength
      rw [hvisits.visited, length_cons] at hvisitedLength
      omega
    rcases hvisits.admitted with ⟨-, heq⟩ | ⟨hrejected, heq⟩
    · rw [heq, mem_offer_of_room hroom]
      rcases mem_cons.1 hslot with hsame | hmem
      · exact .inl (eligible_eq heligible hitem hsame)
      · exact .inr (hold hmem)
    · rw [heq]
      rcases mem_cons.1 hslot with hsame | hmem
      · exact absurd (eligible_eq heligible hitem hsame ▸ heligible) hrejected
      · exact hold hmem
  · rw [hseen] at hslot ⊢
    unfold HnswSearchScratch.push
    by_cases hbeyond : next.beyond ef item.distance = true
    · have hall := beyond_all_seen hexplores hradius.1 (by rw [hvisits.visited]; exact hradius.2) hef
        hbeyond
      rw [hvisits.visited] at hall
      exact .inr (.inr (.inr hall))
    · rw [if_neg hbeyond]
      have hinsert : ∀ other, other ∈ next.candidates.orderedInsert ItemLe item ↔
          other = item ∨ other ∈ scratch.candidates := fun other => by
        rw [mem_orderedInsert, hvisits.candidates]
      rcases mem_cons.1 hslot with rfl | hmem
      · exact .inr (.inl ⟨item, (hinsert item).2 (.inl rfl), rfl⟩)
      · rcases h.covered hef slot hmem with hbusy | ⟨other, hother, hsame⟩ | hneighbors | hall
        · exact .inl hbusy
        · exact .inr (.inl ⟨other, (hinsert other).2 (.inr hother), hsame⟩)
        · exact .inr (.inr (.inl fun neighbor hneighbor =>
            mem_cons_of_mem _ (hneighbors neighbor hneighbor)))
        · exact .inr (.inr (.inr fun other hother => mem_cons_of_mem _ (hall other hother)))

/-- Visiting the neighbours of a slot sees all of them. -/
theorem expand_beam (hanswers : graph.Answers admission) {edges : List Nat}
    (hedges : ∀ neighbor ∈ edges, graph.Owns neighbor level)
    (hreachable : ∀ neighbor ∈ edges, graph.Reachable level entry neighbor)
    (h : graph.Beam dispatcher query admission level ef entry busy scratch) :
    ∃ next, graph.expand dispatcher query admission ef level edges scratch = .ok next ∧
      graph.Beam dispatcher query admission level ef entry busy next ∧
        (∀ slot ∈ scratch.visited, slot ∈ next.visited) ∧
          ∀ neighbor ∈ edges, neighbor ∈ next.visited := by
  induction edges generalizing scratch with
  | nil => exact ⟨scratch, rfl, h, fun _ hslot => hslot, nofun⟩
  | cons neighbor edges ih =>
      obtain ⟨howns, hrest⟩ := forall_mem_cons.1 hedges
      obtain ⟨hreached, hrestReachable⟩ := forall_mem_cons.1 hreachable
      have hcheck := check_target_of_owns howns
      by_cases hseen : neighbor ∈ scratch.visited
      · obtain ⟨next, hnext, hbeam, hkept, hall⟩ := ih hrest hrestReachable h
        refine ⟨next, ?_, hbeam, hkept, forall_mem_cons.2 ⟨hkept neighbor hseen, hall⟩⟩
        simp only [expand, bind_ok, exists_unit, if_pos hseen]
        exact ⟨hcheck, hnext⟩
      · obtain ⟨item, visited, hvisit, hitem, rfl, hvisits⟩ :=
          visit_ok dispatcher query hanswers ef scratch howns
        obtain ⟨next, hnext, hbeam, hkept, hall⟩ :=
          ih hrest hrestReachable (beam_visit h hvisits hitem howns hseen hreached)
        have hpushed : (visited.push ef item).visited = item.slot :: scratch.visited := by
          rw [← hvisits.visited]
          unfold HnswSearchScratch.push
          split <;> rfl
        rw [hpushed] at hkept
        refine ⟨next, ?_, hbeam, fun slot hslot => hkept slot (mem_cons_of_mem _ hslot),
          forall_mem_cons.2 ⟨hkept item.slot mem_cons_self, hall⟩⟩
        simp only [expand, bind_ok, exists_unit, if_neg hseen]
        exact ⟨hcheck, (item, visited), hvisit, hnext⟩

/-- A slot is taken from the frontier and its neighbours are visited. -/
theorem pop_beam (h : graph.LayerSearchable dispatcher query level)
    (hanswers : graph.Answers admission)
    (hbeam : graph.Beam dispatcher query admission level ef entry none scratch)
    {candidate : HnswHeapItem} {rest : List HnswHeapItem}
    (hcandidates : scratch.candidates = candidate :: rest) :
    ∃ expanded, graph.expand dispatcher query admission ef level
        (graph.adjacency level candidate.slot) { scratch with candidates := rest } = .ok expanded ∧
      graph.Beam dispatcher query admission level ef entry none expanded ∧
        expanded.candidates.length + scratch.visited.length ≤
          rest.length + expanded.visited.length := by
  have hin : candidate ∈ scratch.candidates := by
    rw [hcandidates]
    exact mem_cons_self
  have hrest : ∀ item ∈ rest, item ∈ scratch.candidates := fun item hitem => by
    rw [hcandidates]
    exact mem_cons_of_mem _ hitem
  have hpopped : graph.Beam dispatcher query admission level ef entry (some candidate.slot)
      { scratch with candidates := rest } := by
    refine ⟨⟨hbeam.visited_nodup, hbeam.visited_lt, fun item hitem =>
      hbeam.frontier item (hrest item hitem), hbeam.seen, hbeam.found⟩, hbeam.started,
      fun item hitem => hbeam.waiting item (hrest item hitem), hbeam.sorted, hbeam.reached,
      hbeam.radius_nodup, hbeam.radius_seen, hbeam.complete, fun hef slot hslot => ?_⟩
    rcases hbeam.covered hef slot hslot with hbusy | ⟨item, hitem, rfl⟩ | hneighbors | hall
    · cases hbusy
    · rw [hcandidates] at hitem
      rcases mem_cons.1 hitem with rfl | hitem
      · exact .inl rfl
      · exact .inr (.inl ⟨item, hitem, rfl⟩)
    · exact .inr (.inr (.inl hneighbors))
    · exact .inr (.inr (.inr hall))
  have hreached := hbeam.reached candidate.slot (hbeam.waiting candidate hin)
  obtain ⟨expanded, hexpand, hexpanded, -, hneighbors⟩ := expand_beam hanswers
    (h.closed candidate.slot) (fun neighbor hneighbor => hreached.tail hneighbor) hpopped
  obtain ⟨same, hsame, -, hgrowth⟩ :=
    expand_returns hanswers ef (h.closed candidate.slot) hpopped.toExplores
  rw [hexpand] at hsame
  obtain rfl := Except.ok.inj hsame
  refine ⟨expanded, hexpand, ⟨hexpanded.toExplores, hexpanded.started, hexpanded.waiting,
    hexpanded.sorted, hexpanded.reached, hexpanded.radius_nodup, hexpanded.radius_seen,
    hexpanded.complete, fun hef slot hslot => ?_⟩, hgrowth⟩
  rcases hexpanded.covered hef slot hslot with hbusy | hcovered
  · obtain rfl := Option.some.inj hbusy
    exact .inr (.inr (.inl hneighbors))
  · exact .inr hcovered

end HnswStorage

/-- The frontier is empty or lies beyond the radius. -/
def HnswSearchScratch.Ended (ef : Nat) (scratch : HnswSearchScratch) : Prop :=
  ∀ candidate ∈ scratch.candidates.head?, scratch.beyond ef candidate.distance = true

namespace HnswStorage

variable {graph : HnswStorage V} {dispatcher : MetricDispatcher V} {query : V}
  {admission : HnswResultAdmission} {level ef entry : Nat} {scratch : HnswSearchScratch}

/-- The loop ends by itself, not because its bound is reached. -/
theorem search_loop_beam (h : graph.LayerSearchable dispatcher query level)
    (hanswers : graph.Answers admission) (fuel : Nat)
    (hbeam : graph.Beam dispatcher query admission level ef entry none scratch)
    (hfuel : scratch.candidates.length + graph.slotCount ≤ fuel + scratch.visited.length) :
    ∃ next, graph.searchLoop dispatcher query admission ef level fuel scratch = .ok next ∧
      graph.Beam dispatcher query admission level ef entry none next ∧ next.Ended ef := by
  induction fuel generalizing scratch with
  | zero =>
      have hseen := visited_length_le hbeam.toExplores
      have hnil : scratch.candidates = [] := eq_nil_of_length_eq_zero (by omega)
      refine ⟨scratch, rfl, hbeam, ?_⟩
      rw [HnswSearchScratch.Ended, hnil]
      nofun
  | succ fuel ih =>
      rw [searchLoop]
      cases hcandidates : scratch.candidates with
      | nil =>
          refine ⟨scratch, rfl, hbeam, ?_⟩
          rw [HnswSearchScratch.Ended, hcandidates]
          nofun
      | cons candidate rest =>
          by_cases hbeyond : scratch.beyond ef candidate.distance = true
          · refine ⟨scratch, if_pos hbeyond, hbeam, ?_⟩
            rw [HnswSearchScratch.Ended, hcandidates]
            rintro _ ⟨⟩
            exact hbeyond
          · obtain ⟨expanded, hexpand, hexpanded, hgrowth⟩ := pop_beam h hanswers hbeam hcandidates
            rw [hcandidates, length_cons] at hfuel
            obtain ⟨next, hnext, hspec⟩ := ih hexpanded (by omega)
            have hedges : graph.neighbors candidate.slot level =
                .ok (graph.adjacency level candidate.slot) :=
              neighbors_ok.2 ⟨hbeam.frontier candidate (by
                rw [hcandidates]
                exact mem_cons_self), rfl⟩
            refine ⟨next, ?_, hspec⟩
            simp only [hbeyond, Bool.false_eq_true, if_false, bind_ok]
            exact ⟨_, hedges, expanded, hexpand, hnext⟩

theorem ended_visited_iff (h : graph.LayerSearchable dispatcher query level)
    (hbeam : graph.Beam dispatcher query admission level ef entry none scratch)
    (hended : scratch.Ended ef) (hef : graph.slotCount ≤ ef) (slot : Nat) :
    slot ∈ scratch.visited ↔ graph.Reachable level entry slot := by
  refine ⟨hbeam.reached slot, fun hreachable => ?_⟩
  induction hreachable with
  | refl => exact hbeam.started
  | @tail slot neighbor _ hedge ih =>
      rcases hbeam.covered hef slot ih with hbusy | ⟨item, hitem, -⟩ | hneighbors | hall
      · cases hbusy
      · obtain ⟨candidate, rest, hcandidates⟩ := exists_cons_of_ne_nil (ne_nil_of_mem hitem)
        have hbeyond := hended candidate (by rw [hcandidates]; rfl)
        exact beyond_all_seen hbeam.toExplores hbeam.radius_nodup hbeam.radius_seen hef hbeyond
          neighbor (lt_of_owns (h.closed slot neighbor hedge))
      · exact hneighbors neighbor hedge
      · exact hall neighbor (lt_of_owns (h.closed slot neighbor hedge))

/-- What a layer search returns: the items in their order, and with a full beam the best of all
that can be reached. -/
structure Best (graph : HnswStorage V) (dispatcher : MetricDispatcher V) (query : V)
    (admission : HnswResultAdmission) (level ef entry k : Nat) (items : List HnswHeapItem) : Prop
    extends graph.Found dispatcher query admission level items where
  length_le : items.length ≤ k
  ordered : items.Pairwise fun earlier later => isBetter earlier later = true
  exact : graph.slotCount ≤ ef → ∃ all : List HnswHeapItem, all.Nodup ∧
    (∀ item, item ∈ all ↔ graph.Eligible dispatcher query admission level item ∧
      graph.Reachable level entry item.slot) ∧ items = best ItemLe k all

theorem beam_best (h : graph.LayerSearchable dispatcher query level)
    (hbeam : graph.Beam dispatcher query admission level ef entry none scratch)
    (hended : scratch.Ended ef) (k : Nat) :
    graph.Best dispatcher query admission level ef entry k
      ((scratch.admitted admission).take k) := by
  have hnodup : (scratch.admitted admission).Nodup := .of_map _ hbeam.found.slots_nodup
  have hstrict : (scratch.admitted admission).Pairwise fun earlier later =>
      isBetter earlier later = true := by
    refine (hbeam.sorted.and hnodup).imp fun {earlier later} hpair => ?_
    rw [is_better_iff_not_le]
    exact fun hge => hpair.2 (antisymm_of ItemLe hpair.1 hge)
  refine ⟨found_take k hbeam.found, length_take_le _ _,
    hstrict.sublist (take_sublist k _), fun hef => ⟨scratch.admitted admission, hnodup,
      fun item => ⟨fun hitem => ?_, fun hitem => ?_⟩, ?_⟩⟩
  · exact ⟨hbeam.found.eligible item hitem,
      hbeam.reached item.slot (hbeam.seen item hitem)⟩
  · exact hbeam.complete hef item hitem.1 ((ended_visited_iff h hbeam hended hef item.slot).2 hitem.2)
  · rw [best, hbeam.sorted.insertionSort_eq]

variable (dispatcher query) in
/-- The first visit of a search. -/
theorem beam_start (hanswers : graph.Answers admission) (hentry : graph.Owns entry level)
    (hef : 0 < ef) :
    ∃ item seen, graph.visit dispatcher query admission ef entry ⟨[], [], [], []⟩ =
        .ok (item, seen) ∧ seen.visited = [entry] ∧
      graph.Beam dispatcher query admission level ef entry none
        { seen with candidates := [item] } := by
  have hnone : (⟨[], [], [], []⟩ : HnswSearchScratch).admitted admission = [] := by
    unfold HnswSearchScratch.admitted
    split <;> rfl
  have hempty : graph.Explores dispatcher query admission level ⟨[], [], [], []⟩ := by
    refine ⟨nodup_nil, nofun, nofun, ?_, ?_⟩
    · rw [hnone]
      nofun
    · rw [hnone]
      exact ⟨nodup_nil, nofun⟩
  obtain ⟨item, seen, hvisit, hitem, rfl, hvisits⟩ :=
    visit_ok dispatcher query hanswers ef ⟨[], [], [], []⟩ hentry
  have hexplores := visits_explores hempty hvisits hentry not_mem_nil
  have hvisited : seen.visited = [item.slot] := hvisits.visited
  have hfirst : ∀ slot ∈ seen.visited, slot = item.slot := fun slot hslot => by
    rw [hvisited] at hslot
    exact mem_singleton.1 hslot
  have hoffer : offer [] item ef = [item] := take_of_length_le hef
  have hradius : seen.results = [] ∨ seen.results = [item] := by
    rw [← hoffer]
    exact hvisits.radius
  have hadmitted : (graph.Eligible dispatcher query admission level item ∧
        seen.admitted admission = [item]) ∨
      (¬ graph.Eligible dispatcher query admission level item ∧ seen.admitted admission = []) := by
    have hstep := hvisits.admitted
    rwa [hnone, hoffer] at hstep
  refine ⟨item, seen, hvisit, hvisited, ⟨⟨hexplores.visited_nodup, hexplores.visited_lt,
    fun other hother => ?_, hexplores.seen, hexplores.found⟩, ?_, fun other hother => ?_, ?_,
    fun slot hslot => ?_, ?_, fun other hother => ?_, fun _ other heligible hslot => ?_,
    fun _ slot hslot => .inr (.inl ⟨item, mem_singleton_self item, (hfirst slot hslot).symm⟩)⟩⟩
  · rw [mem_singleton.1 hother]
    exact hentry
  · show item.slot ∈ seen.visited
    rw [hvisited]
    exact mem_singleton_self _
  · show other.slot ∈ seen.visited
    rw [mem_singleton.1 hother, hvisited]
    exact mem_singleton_self _
  · show (seen.admitted admission).Pairwise ItemLe
    rcases hadmitted with ⟨-, heq⟩ | ⟨-, heq⟩
    · rw [heq]
      exact pairwise_singleton _ _
    · rw [heq]
      exact List.Pairwise.nil
  · rw [hfirst slot hslot]
    exact .refl
  · show (seen.results.map (·.slot)).Nodup
    rcases hradius with heq | heq
    · rw [heq]
      exact nodup_nil
    · rw [heq]
      exact nodup_singleton _
  · change other ∈ seen.results at hother
    show other.slot ∈ seen.visited
    rcases hradius with heq | heq
    · rw [heq] at hother
      exact absurd hother not_mem_nil
    · rw [heq] at hother
      rw [mem_singleton.1 hother, hvisited]
      exact mem_singleton_self _
  · show other ∈ seen.admitted admission
    have hsame := eligible_eq heligible hitem (hfirst other.slot hslot)
    rcases hadmitted with ⟨-, heq⟩ | ⟨hrejected, -⟩
    · rw [heq, hsame]
      exact mem_singleton_self _
    · exact absurd (hsame ▸ heligible) hrejected

end HnswStorage

end Akasha.Hnsw

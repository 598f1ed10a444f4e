import Akasha.Index.HnswHeap
import Akasha.Index.HnswSearch

/-!
# The scratch of a search

`hnsw_scratch.mojo`: the visited marks of a search are the epoch of its `begin`, so that a search
does not clear the marks of an earlier one. No mark is ahead of the epoch (`WellMarked`), whatever
searches the scratch was used for; `Marks` says which slots of a graph are marked in the current
one, and `visit_after_begin` what a visit returns after any calls. `ResultMaxHeap` is the bounded
heap of the library: it retains what the list of a search does (`Retains`).
-/

namespace Akasha.Hnsw

open Lib List

/-- `UInt32.MAX`, after which the epochs start again. -/
def lastEpoch : UInt32 :=
  0xFFFFFFFF

/-- `HnswSearchScratch` of the source: marks and heaps that are used again. -/
structure EpochScratch where
  visitedEpochs : List UInt32
  epoch : UInt32
  candidates : Array HnswHeapItem
  results : Array HnswHeapItem
  filteredResults : Array HnswHeapItem
  preparedSlotCount : Nat
  deriving DecidableEq

namespace EpochScratch

/-- `HnswSearchScratch()`. -/
def empty : EpochScratch :=
  ⟨[], 0, #[], #[], #[], 0⟩

/-- `_ensure_slot_count`. -/
def ensureSlotCount (scratch : EpochScratch) (newCount : Nat) : EpochScratch :=
  if newCount ≤ scratch.preparedSlotCount then scratch
  else { scratch with
    visitedEpochs := scratch.visitedEpochs ++
      replicate (newCount - scratch.visitedEpochs.length) 0
    preparedSlotCount := newCount }

/-- `_reset_wrapped_epochs`. -/
def resetWrappedEpochs (scratch : EpochScratch) : EpochScratch :=
  { scratch with visitedEpochs := scratch.visitedEpochs.map fun _ => 0, epoch := 1 }

/-- The epoch of the next search. -/
def advanceEpoch (scratch : EpochScratch) : EpochScratch :=
  if scratch.epoch = lastEpoch then scratch.resetWrappedEpochs
  else { scratch with epoch := scratch.epoch + 1 }

/-- `begin`; reserving storage changes nothing that is read. -/
def begin (scratch : EpochScratch) (slotCount ef : Nat) : Except String EpochScratch := do
  require (0 < ef) "HNSW scratch ef must be positive"
  pure { advanceEpoch { scratch.ensureSlotCount slotCount with preparedSlotCount := slotCount } with
    candidates := #[]
    results := #[]
    filteredResults := #[] }

/-- `visit`: whether this is the first visit of the slot. -/
def visit (scratch : EpochScratch) (slot : Nat) : Except String (EpochScratch × Bool) := do
  require (scratch.epoch ≠ 0) "HNSW scratch begin must be called before visit"
  require (slot < scratch.preparedSlotCount) "HNSW scratch slot is outside the prepared range"
  match scratch.visitedEpochs[slot]? with
  | none => throw "index out of bounds"
  | some mark =>
      if mark = scratch.epoch then pure (scratch, false)
      else pure ({ scratch with
        visitedEpochs := scratch.visitedEpochs.set slot scratch.epoch }, true)

/-- What holds of the marks between two searches. -/
structure WellMarked (scratch : EpochScratch) : Prop where
  prepared : scratch.preparedSlotCount ≤ scratch.visitedEpochs.length
  marks : ∀ mark ∈ scratch.visitedEpochs, mark ≤ scratch.epoch

/-- In the current search exactly these slots of a graph are marked. -/
structure Marks (scratch : EpochScratch) (slotCount : Nat) (visited : List Nat) : Prop
    extends scratch.WellMarked where
  started : scratch.epoch ≠ 0
  count : scratch.preparedSlotCount = slotCount
  marked : ∀ slot < slotCount,
    scratch.visitedEpochs[slot]? = some scratch.epoch ↔ slot ∈ visited

theorem empty_well_marked : empty.WellMarked :=
  ⟨le_rfl, nofun⟩

variable {scratch next : EpochScratch} {slotCount ef slot : Nat} {visited : List Nat}

theorem ensure_well_marked (h : scratch.WellMarked) (slotCount : Nat) :
    (scratch.ensureSlotCount slotCount).WellMarked ∧
      slotCount ≤ (scratch.ensureSlotCount slotCount).visitedEpochs.length := by
  unfold ensureSlotCount
  split
  · rename_i hle
    exact ⟨h, hle.trans h.prepared⟩
  · have hlength : slotCount ≤ (scratch.visitedEpochs ++
        replicate (slotCount - scratch.visitedEpochs.length) (0 : UInt32)).length := by
      rw [length_append, length_replicate]
      omega
    refine ⟨⟨hlength, fun mark hmark => ?_⟩, hlength⟩
    rcases mem_append.1 hmark with hold | hnew
    · exact h.marks mark hold
    · rw [eq_of_mem_replicate hnew]
      exact UInt32.zero_le

/-- The epoch of a new search is on no mark. -/
theorem advance_fresh (h : ∀ mark ∈ scratch.visitedEpochs, mark ≤ scratch.epoch) :
    scratch.advanceEpoch.epoch ≠ 0 ∧
      ∀ mark ∈ scratch.advanceEpoch.visitedEpochs, mark < scratch.advanceEpoch.epoch := by
  unfold advanceEpoch
  split
  · refine ⟨show (1 : UInt32) ≠ 0 by decide, fun mark hmark => ?_⟩
    obtain ⟨_, -, rfl⟩ := mem_map.1 hmark
    exact show (0 : UInt32) < 1 by decide
  · rename_i hlast
    have hstep : (scratch.epoch + 1).toNat = scratch.epoch.toNat + 1 := by
      have hne : scratch.epoch.toNat ≠ lastEpoch.toNat := fun heq => hlast (UInt32.toNat_inj.1 heq)
      have hmax : lastEpoch.toNat = 4294967295 := by decide
      have hlt := scratch.epoch.toNat_lt
      rw [UInt32.toNat_add, show (1 : UInt32).toNat = 1 from rfl]
      omega
    refine ⟨fun hzero => ?_, fun mark hmark => ?_⟩
    · change scratch.epoch + 1 = 0 at hzero
      rw [hzero] at hstep
      cases hstep
    · show mark < scratch.epoch + 1
      have hle := UInt32.le_iff_toNat_le.1 (h mark hmark)
      rw [UInt32.lt_iff_toNat_lt, hstep]
      omega

theorem advance_length : scratch.advanceEpoch.visitedEpochs.length = scratch.visitedEpochs.length := by
  unfold advanceEpoch
  split
  · exact length_map _
  · rfl

theorem begin_ok (h : scratch.WellMarked) (slotCount : Nat) (hef : 0 < ef) :
    ∃ next, scratch.begin slotCount ef = .ok next ∧ next.Marks slotCount [] ∧
      next.candidates = #[] ∧ next.results = #[] ∧ next.filteredResults = #[] := by
  obtain ⟨hensured, hlength⟩ := ensure_well_marked h slotCount
  obtain ⟨hstarted, hfresh⟩ := @advance_fresh
    { scratch.ensureSlotCount slotCount with preparedSlotCount := slotCount } hensured.marks
  refine ⟨_, bind_ok.2 ⟨(), require_ok.2 hef, rfl⟩, ?_, rfl, rfl, rfl⟩
  have hcount : (advanceEpoch { scratch.ensureSlotCount slotCount with
      preparedSlotCount := slotCount }).preparedSlotCount = slotCount := by
    unfold advanceEpoch
    split <;> rfl
  refine ⟨⟨?_, fun mark hmark => UInt32.le_of_lt (hfresh mark hmark)⟩, hstarted, hcount,
    fun slot _ => ⟨fun hmark => ?_, nofun⟩⟩
  · show _ ≤ (advanceEpoch _).visitedEpochs.length
    rw [hcount, advance_length]
    exact hlength
  · exact absurd (hfresh _ (mem_of_getElem? hmark)) (UInt32.lt_irrefl _)

/-- The first visit marks the slot. -/
theorem visit_first (h : scratch.Marks slotCount visited) (hslot : slot < slotCount)
    (hnew : slot ∉ visited) :
    ∃ next, scratch.visit slot = .ok (next, true) ∧ next.Marks slotCount (slot :: visited) ∧
      next.candidates = scratch.candidates ∧ next.results = scratch.results ∧
      next.filteredResults = scratch.filteredResults := by
  have hlt : slot < scratch.visitedEpochs.length := by
    have hprepared := h.prepared
    rw [h.count] at hprepared
    omega
  have hmark : scratch.visitedEpochs[slot] ≠ scratch.epoch := fun heq =>
    hnew ((h.marked slot hslot).1 (by rw [getElem?_eq_getElem hlt, heq]))
  refine ⟨{ scratch with visitedEpochs := scratch.visitedEpochs.set slot scratch.epoch }, ?_,
    ⟨⟨?_, fun mark hmem => ?_⟩, h.started, h.count, fun other hother => ?_⟩, rfl, rfl, rfl⟩
  · unfold visit
    simp only [bind_ok, exists_unit, require_ok, getElem?_eq_getElem hlt,
      if_neg hmark]
    exact ⟨h.started, by rw [h.count]; exact hslot, rfl⟩
  · show _ ≤ (scratch.visitedEpochs.set slot scratch.epoch).length
    rw [length_set]
    exact h.prepared
  · rcases mem_or_eq_of_mem_set hmem with hold | rfl
    · exact h.marks mark hold
    · exact UInt32.le_refl _
  · show (scratch.visitedEpochs.set slot scratch.epoch)[other]? = some scratch.epoch ↔ _
    rw [getElem?_set, mem_cons]
    by_cases hsame : slot = other
    · rw [if_pos hsame, if_pos hlt]
      exact iff_of_true rfl (.inl hsame.symm)
    · rw [if_neg hsame, h.marked other hother, or_iff_right (Ne.symm hsame)]

theorem visit_again (h : scratch.Marks slotCount visited) (hslot : slot < slotCount)
    (hseen : slot ∈ visited) : scratch.visit slot = .ok (scratch, false) := by
  unfold visit
  simp only [bind_ok, exists_unit, require_ok, (h.marked slot hslot).2 hseen, if_true]
  exact ⟨h.started, by rw [h.count]; exact hslot, rfl⟩

theorem marks_of_same (h : scratch.Marks slotCount visited)
    (hepochs : next.visitedEpochs = scratch.visitedEpochs) (hepoch : next.epoch = scratch.epoch)
    (hcount : next.preparedSlotCount = scratch.preparedSlotCount) :
    next.Marks slotCount visited := by
  refine ⟨⟨?_, ?_⟩, ?_, ?_, ?_⟩
  · rw [hepochs, hcount]
    exact h.prepared
  · rw [hepochs, hepoch]
    exact h.marks
  · rw [hepoch]
    exact h.started
  · rw [hcount]
    exact h.count
  · rw [hepochs, hepoch]
    exact h.marked

/-! ### Any calls -/

/-- A call of `begin` or of `visit`. -/
inductive Call where
  | begin (slotCount ef : Int)
  | visit (slot : UInt32)
deriving DecidableEq

/-- What a call returns, with the scratch it leaves; a call that raises leaves it as it was. -/
def Call.run (scratch : EpochScratch) : Call → Except String (EpochScratch × Option Bool)
  | .begin slotCount ef => do
      require (0 ≤ slotCount) "HNSW scratch slot count cannot be negative"
      let next ← scratch.begin slotCount.toNat ef.toNat
      pure (next, none)
  | .visit slot => do
      let (next, first) ← scratch.visit slot.toNat
      pure (next, some first)

/-- The scratch after a call, whether it raised or not. -/
def Call.after (scratch : EpochScratch) (call : Call) : EpochScratch :=
  match call.run scratch with
  | .ok (next, _) => next
  | .error _ => scratch

/-- The scratch after some calls. -/
def runCalls (scratch : EpochScratch) (calls : List Call) : EpochScratch :=
  calls.foldl Call.after scratch

/-- A call that starts a search. -/
def Call.Begins : Call → Prop
  | .begin slotCount ef => 0 ≤ slotCount ∧ 0 < ef
  | .visit _ => False

/-- The slots that calls visit. -/
def visitedSlots (calls : List Call) : List Nat :=
  calls.filterMap fun
    | .begin _ _ => none
    | .visit slot => some slot.toNat

theorem after_not_begins {slotCount ef : Int} (h : ¬ (Call.begin slotCount ef).Begins) :
    Call.after scratch (.begin slotCount ef) = scratch := by
  unfold Call.after
  cases hrun : (Call.begin slotCount ef).run scratch with
  | error => rfl
  | ok result =>
      unfold Call.run begin at hrun
      simp only [bind_ok, exists_unit, require_ok] at hrun
      obtain ⟨hcount, next, ⟨hef, -⟩, -⟩ := hrun
      exact absurd ⟨hcount, by omega⟩ h

theorem after_visit (scratch : EpochScratch) (slot : UInt32) :
    Call.after scratch (.visit slot) =
      match scratch.visit slot.toNat with
      | .ok (next, _) => next
      | .error _ => scratch := by
  unfold Call.after Call.run
  dsimp only
  cases scratch.visit slot.toNat <;> rfl

theorem after_begins (h : scratch.WellMarked) {slotCount ef : Int}
    (hbegins : (Call.begin slotCount ef).Begins) :
    (Call.after scratch (.begin slotCount ef)).Marks slotCount.toNat [] := by
  obtain ⟨hcount, hef⟩ := hbegins
  obtain ⟨next, hnext, hmarks, -⟩ := begin_ok h slotCount.toNat (by omega : 0 < ef.toNat)
  have hrun : (Call.begin slotCount ef).run scratch = .ok (next, none) :=
    bind_ok.2 ⟨(), require_ok.2 hcount, bind_ok.2 ⟨next, hnext, rfl⟩⟩
  unfold Call.after
  rw [hrun]
  exact hmarks

theorem visit_well_marked (h : scratch.WellMarked) {slot : Nat} {first : Bool}
    (hvisit : scratch.visit slot = .ok (next, first)) : next.WellMarked := by
  unfold visit at hvisit
  simp only [bind_ok, exists_unit, require_ok] at hvisit
  obtain ⟨-, -, hvisit⟩ := hvisit
  split at hvisit
  · cases hvisit
  · split at hvisit
    · obtain ⟨rfl, -⟩ := Prod.mk.inj (pure_ok.1 hvisit)
      exact h
    · obtain ⟨rfl, -⟩ := Prod.mk.inj (pure_ok.1 hvisit)
      refine ⟨?_, fun mark hmark => ?_⟩
      · show _ ≤ (scratch.visitedEpochs.set slot scratch.epoch).length
        rw [length_set]
        exact h.prepared
      · rcases mem_or_eq_of_mem_set hmark with hold | rfl
        · exact h.marks mark hold
        · exact UInt32.le_refl _

theorem after_well_marked (h : scratch.WellMarked) (call : Call) :
    (call.after scratch).WellMarked := by
  cases call with
  | begin slotCount ef =>
      by_cases hbegins : (Call.begin slotCount ef).Begins
      · exact (after_begins h hbegins).toWellMarked
      · rw [after_not_begins hbegins]
        exact h
  | visit slot =>
      rw [after_visit]
      cases hvisit : scratch.visit slot.toNat with
      | error => exact h
      | ok result => exact visit_well_marked h hvisit

theorem run_well_marked (h : scratch.WellMarked) (calls : List Call) :
    (runCalls scratch calls).WellMarked := by
  induction calls generalizing scratch with
  | nil => exact h
  | cons call calls ih => exact ih (after_well_marked h call)

/-- One call within a search: a visit marks its slot, and a visit outside the graph or a `begin`
that raises marks nothing. -/
theorem after_marks (h : scratch.Marks slotCount visited) {call : Call} (hcall : ¬ call.Begins) :
    ∃ visited', (call.after scratch).Marks slotCount visited' ∧ ∀ slot < slotCount,
      slot ∈ visited' ↔ slot ∈ visited ∨ slot ∈ visitedSlots [call] := by
  cases call with
  | begin slotCount ef =>
      rw [after_not_begins hcall]
      exact ⟨visited, h, fun slot _ => by simp [visitedSlots]⟩
  | visit visit =>
      have hslots : visitedSlots [Call.visit visit] = [visit.toNat] := rfl
      rw [hslots, after_visit]
      by_cases hslot : visit.toNat < slotCount
      · by_cases hseen : visit.toNat ∈ visited
        · rw [visit_again h hslot hseen]
          refine ⟨visited, h, fun slot _ => ⟨.inl, fun hmem => ?_⟩⟩
          exact hmem.elim id fun hsame => mem_singleton.1 hsame ▸ hseen
        · obtain ⟨next, hvisit, hmarks, -⟩ := visit_first h hslot hseen
          rw [hvisit]
          refine ⟨_, hmarks, fun slot _ => ?_⟩
          rw [mem_cons, mem_singleton, or_comm]
      · have hraises : ∃ message, scratch.visit visit.toNat = .error message := by
          cases hvisit : scratch.visit visit.toNat with
          | error message => exact ⟨message, rfl⟩
          | ok result =>
              unfold EpochScratch.visit at hvisit
              simp only [bind_ok, exists_unit, require_ok] at hvisit
              exact absurd (h.count ▸ hvisit.2.1) hslot
        obtain ⟨message, hraises⟩ := hraises
        rw [hraises]
        refine ⟨visited, h, fun slot hlt => ⟨.inl, fun hmem => ?_⟩⟩
        refine hmem.elim id fun hsame => ?_
        rw [mem_singleton.1 hsame] at hlt
        exact absurd hlt hslot

theorem run_marks (h : scratch.Marks slotCount visited) {calls : List Call}
    (hcalls : ∀ call ∈ calls, ¬ call.Begins) :
    ∃ visited', (runCalls scratch calls).Marks slotCount visited' ∧ ∀ slot < slotCount,
      slot ∈ visited' ↔ slot ∈ visited ∨ slot ∈ visitedSlots calls := by
  induction calls generalizing scratch visited with
  | nil => exact ⟨visited, h, fun slot _ => by simp [visitedSlots]⟩
  | cons call calls ih =>
      obtain ⟨between, hbetween, hone⟩ := after_marks h (hcalls call mem_cons_self)
      obtain ⟨visited', hmarks, hrest⟩ := ih hbetween fun other hother =>
        hcalls other (mem_cons_of_mem _ hother)
      refine ⟨visited', hmarks, fun slot hslot => ?_⟩
      have hsplit : visitedSlots (call :: calls) = visitedSlots [call] ++ visitedSlots calls := by
        show filterMap _ ([call] ++ calls) = _
        exact filterMap_append
      rw [hrest slot hslot, hone slot hslot, hsplit, mem_append, or_assoc]

theorem mem_visited_slots {calls : List Call} {slot : UInt32} :
    slot.toNat ∈ visitedSlots calls ↔ Call.visit slot ∈ calls := by
  unfold visitedSlots
  rw [mem_filterMap]
  constructor
  · rintro ⟨call, hcall, hslot⟩
    cases call with
    | begin => cases hslot
    | visit other =>
        obtain rfl := UInt32.toNat_inj.1 (Option.some.inj hslot)
        exact hcall
  · intro hcall
    exact ⟨_, hcall, rfl⟩

/-- After any calls, the last accepted `begin` and whatever was called since: a visit within that
graph returns, and says whether the slot was not visited since. -/
theorem visit_after_begin (earlier : List Call) {slotCount ef : Int}
    (hbegins : (Call.begin slotCount ef).Begins) {later : List Call}
    (hlater : ∀ call ∈ later, ¬ call.Begins) {slot : UInt32} (hslot : slot.toNat < slotCount) :
    ∃ next first,
      (Call.visit slot).run (runCalls empty (earlier ++ Call.begin slotCount ef :: later)) =
        .ok (next, some first) ∧ (first = true ↔ Call.visit slot ∉ later) := by
  have hbefore := run_well_marked empty_well_marked earlier
  have hstarted := after_begins hbefore hbegins
  obtain ⟨visited, hmarks, hvisited⟩ := run_marks hstarted hlater
  have hsplit : runCalls empty (earlier ++ Call.begin slotCount ef :: later) =
      runCalls ((Call.begin slotCount ef).after (runCalls empty earlier)) later := by
    unfold runCalls
    rw [foldl_append, foldl_cons]
  rw [hsplit]
  have hlt : slot.toNat < slotCount.toNat := by omega
  have hmem := hvisited slot.toNat hlt
  rw [or_iff_right not_mem_nil, mem_visited_slots] at hmem
  by_cases hseen : slot.toNat ∈ visited
  · refine ⟨_, false, bind_ok.2 ⟨_, visit_again hmarks hlt hseen, rfl⟩, ?_⟩
    exact iff_of_false Bool.false_ne_true fun hnew => hnew (hmem.1 hseen)
  · obtain ⟨next, hvisit, -⟩ := visit_first hmarks hlt hseen
    refine ⟨next, true, bind_ok.2 ⟨_, hvisit, rfl⟩, ?_⟩
    exact iff_of_true rfl fun hvisit => hseen (hmem.2 hvisit)

/-- A search over a smaller graph than the one before, then one over a larger graph. -/
theorem visit_after_begin_sample : ∃ next first,
    (Call.visit 1).run (runCalls empty ([.begin 3 1, .visit 2, .begin 1 1] ++
      .begin 3 1 :: [.visit 2, .begin 5 0])) = .ok (next, some first) ∧
        (first = true ↔ Call.visit 1 ∉ [Call.visit 2, .begin 5 0]) :=
  visit_after_begin [.begin 3 1, .visit 2, .begin 1 1] ⟨by decide, by decide⟩
    (fun call hcall => by
      rcases mem_cons.1 hcall with rfl | hcall
      · exact id
      · rw [mem_singleton.1 hcall]
        exact fun hbegins => absurd hbegins.2 (by decide))
    (by decide)

end EpochScratch

/-! ## The retained results -/

/-- `while len(self._heap) > capacity: self.pop_worst()`. -/
def trimWorst (capacity : Nat) (heap : Array HnswHeapItem) : Array HnswHeapItem :=
  if h : capacity < heap.size then
    trimWorst capacity (popRoot isBetter heap (by omega))
  else heap
termination_by heap.size
decreasing_by
  rw [popRoot, size_sift_down, Array.size_pop, Array.size_swap]
  omega

/-- `ResultMaxHeap.offer`. -/
def offerResult (capacity : Nat) (heap : Array HnswHeapItem) (item : HnswHeapItem) :
    Except String (Array HnswHeapItem) := do
  require (0 < capacity) "result heap capacity must be positive"
  pure (Lib.offer isBetter capacity (trimWorst capacity heap) item)

/-- `ResultMaxHeap.peek_worst`. -/
def peekWorst (heap : Array HnswHeapItem) : Except String HnswHeapItem :=
  match heap[0]? with
  | none => throw "cannot peek an empty result heap"
  | some worst => pure worst

/-- `ResultMaxHeap.take_sorted_best`. -/
def takeSortedBest (heap : Array HnswHeapItem) : List HnswHeapItem :=
  drain isBetter heap []

/-- The heap retains these items. -/
structure Retains (capacity : Nat) (heap : Array HnswHeapItem) (items : List HnswHeapItem) :
    Prop where
  isHeap : IsHeap ItemLe heap
  perm : heap.toList.Perm items
  sorted : items.Pairwise ItemLe
  length_le : items.length ≤ capacity

theorem retains_empty (capacity : Nat) : Retains capacity #[] [] :=
  ⟨fun _ _ _ _ _ ha => by simp at ha, .refl _, .nil, Nat.zero_le _⟩

variable {capacity : Nat} {heap : Array HnswHeapItem} {items : List HnswHeapItem}

theorem Retains.size (h : Retains capacity heap items) : heap.size = items.length := by
  rw [← Array.length_toList, h.perm.length_eq]

/-- The heap keeps what the list of the search does. -/
theorem retains_offer (h : Retains capacity heap items) (hcapacity : 0 < capacity)
    (item : HnswHeapItem) :
    ∃ next, offerResult capacity heap item = .ok next ∧
      Retains capacity next (offer items item capacity) := by
  have hsize := h.size
  have htrim : trimWorst capacity heap = heap := by
    have hle := h.length_le
    rw [trimWorst, dif_neg (by omega)]
  have hkeeps : KeepsBest ItemLe capacity heap heap.toList :=
    ⟨h.isHeap, ⟨[], by rw [append_nil], fun _ _ => nofun⟩, by
      have hle := h.length_le
      rw [Array.length_toList]
      omega⟩
  obtain ⟨hheap, ⟨rest, hperm, hrest⟩, hlength⟩ :=
    keeps_best_offer is_better_iff_not_le hkeeps item
  refine ⟨_, bind_ok.2 ⟨(), require_ok.2 hcapacity, rfl⟩, ?_⟩
  rw [htrim]
  have hsorted := pairwise_insertionSort ItemLe
    (Lib.offer isBetter capacity heap item).toList
  have hsame := perm_insertionSort ItemLe (Lib.offer isBetter capacity heap item).toList
  -- The kept items in their order are the best of the retained ones and the new one.
  have hbest : best ItemLe capacity (item :: items) =
      (Lib.offer isBetter capacity heap item).toList.insertionSort ItemLe := by
    have hall : (item :: items).Perm (heap.toList ++ [item]) :=
      (h.perm.symm.cons item).trans (perm_append_singleton item heap.toList).symm
    refine best_of_perm ItemLe (hall.trans (hperm.trans (hsame.symm.append_right rest))) hsorted
      (fun a ha b hb => hrest a (hsame.mem_iff.1 ha) b hb) ?_
    rw [length_insertionSort, Array.length_toList, hlength, hall.length_eq]
  have hoffer : offer items item capacity =
      (Lib.offer isBetter capacity heap item).toList.insertionSort ItemLe := by
    rw [← hbest, best, insertionSort_cons, h.sorted.insertionSort_eq]
    rfl
  rw [hoffer]
  refine ⟨hheap, hsame.symm, hsorted, ?_⟩
  rw [length_insertionSort, Array.length_toList, hlength]
  exact min_le_left _ _

/-- The root is the worst item. -/
theorem retains_worst (h : Retains capacity heap items) : heap[0]? = items.getLast? := by
  by_cases hnil : items = []
  · have hsize := h.size
    rw [hnil, length_nil] at hsize
    rw [hnil, Array.getElem?_eq_none (by omega)]
    rfl
  · have hpos : 0 < heap.size := by
      rw [h.size]
      exact length_pos_iff.2 hnil
    have hroot : heap[0] ∈ items := h.perm.mem_iff.1 (Array.getElem_mem_toList hpos)
    have hworst : ItemLe (items.getLast hnil) heap[0] :=
      root_worst_mem h.isHeap hpos _ (h.perm.mem_iff.2 (getLast_mem hnil))
    have hlast : ItemLe heap[0] (items.getLast hnil) := by
      have hsorted := h.sorted
      rw [← dropLast_append_getLast hnil, pairwise_append] at hsorted
      rw [← dropLast_append_getLast hnil] at hroot
      rcases mem_append.1 hroot with hfront | hsame
      · exact hsorted.2.2 _ hfront _ (mem_singleton_self _)
      · rw [mem_singleton] at hsame
        rw [← hsame]
        exact (total_of ItemLe _ _).elim id id
    rw [Array.getElem?_eq_getElem hpos, getLast?_eq_some_getLast hnil,
      antisymm_of ItemLe hlast hworst]

theorem retains_take (h : Retains capacity heap items) : takeSortedBest heap = items := by
  obtain ⟨hsorted, hperm⟩ := drain_sorted is_better_iff_not_le heap [] h.isHeap .nil
    fun _ _ => nofun
  rw [append_nil] at hperm
  rw [takeSortedBest, ← sorted_unique_items hsorted (hperm.trans h.perm), h.sorted.insertionSort_eq]

end Akasha.Hnsw

import Akasha.Index.HnswCore
import Akasha.Lib.TopK
import Mathlib.Algebra.Order.Ring.Unbundled.Rat
import Mathlib.Data.Prod.Lex

/-!
# The heaps of a search

`hnsw_heap.mojo`: the frontier of a search has its best item at the root, the retained results
their worst one. Both are the binary heap of the library, the first with the order turned around.
Items are ordered totally, so that emptying either heap gives its items in their order.
-/

namespace Akasha.Hnsw

open Lib List

/-! ## The order of items -/

/-- What items are ordered by. -/
def HnswHeapItem.key (item : HnswHeapItem) : Rat ×ₗ Int ×ₗ Nat :=
  toLex (item.distance, toLex (item.id.toInt, item.slot))

theorem is_better_iff (lhs rhs : HnswHeapItem) : isBetter lhs rhs = true ↔ lhs.key < rhs.key := by
  unfold isBetter HnswHeapItem.key
  rw [Prod.Lex.toLex_lt_toLex, Prod.Lex.toLex_lt_toLex]
  by_cases hdistance : lhs.distance = rhs.distance
  · by_cases hid : lhs.id = rhs.id
    · simp [hdistance, hid]
    · have hne : lhs.id.toInt ≠ rhs.id.toInt := fun heq => hid (Int64.toInt_inj.1 heq)
      simp [hdistance, hid, hne, Int64.lt_iff_toInt_lt]
  · simp [hdistance]

theorem item_le_iff (lhs rhs : HnswHeapItem) : ItemLe lhs rhs ↔ lhs.key ≤ rhs.key := by
  rw [ItemLe, ← not_lt, ← is_better_iff, Bool.not_eq_true]

theorem key_injective {lhs rhs : HnswHeapItem} (h : lhs.key = rhs.key) : lhs = rhs := by
  obtain ⟨lhsId, lhsSlot, lhsDistance⟩ := lhs
  obtain ⟨rhsId, rhsSlot, rhsDistance⟩ := rhs
  simp only [HnswHeapItem.key, EmbeddingLike.apply_eq_iff_eq, Prod.mk.injEq] at h
  obtain ⟨rfl, hid, rfl⟩ := h
  rw [Int64.toInt_inj.1 hid]

instance : Std.Total ItemLe :=
  ⟨fun a b => by simpa only [item_le_iff] using le_total a.key b.key⟩

instance : IsTrans HnswHeapItem ItemLe :=
  ⟨fun a b c => by simpa only [item_le_iff] using le_trans (a := a.key)⟩

instance : Std.Antisymm ItemLe :=
  ⟨fun a b hab hba => key_injective (le_antisymm ((item_le_iff a b).1 hab) ((item_le_iff b a).1 hba))⟩

theorem is_better_iff_not_le (lhs rhs : HnswHeapItem) : isBetter lhs rhs = true ↔ ¬ ItemLe rhs lhs := by
  rw [ItemLe, Bool.not_eq_false]

theorem sorted_unique_items {items sorted : List HnswHeapItem} (hsorted : sorted.Pairwise ItemLe)
    (hperm : sorted.Perm items) : items.insertionSort ItemLe = sorted :=
  List.Perm.eq_of_pairwise' (pairwise_insertionSort ItemLe items) hsorted
    ((perm_insertionSort ItemLe items).trans hperm.symm)

/-! ## The frontier -/

/-- `_is_worse`. -/
def isWorse (lhs rhs : HnswHeapItem) : Bool :=
  isBetter rhs lhs

/-- The order of the frontier: the best item last. -/
def ItemGe (lhs rhs : HnswHeapItem) : Prop :=
  ItemLe rhs lhs

instance : Std.Total ItemGe :=
  ⟨fun a b => total_of ItemLe b a⟩

instance : IsTrans HnswHeapItem ItemGe :=
  ⟨fun _ _ _ hab hbc => trans_of ItemLe hbc hab⟩

theorem is_worse_iff (lhs rhs : HnswHeapItem) : isWorse lhs rhs = true ↔ ¬ ItemGe rhs lhs :=
  is_better_iff_not_le rhs lhs

/-- `CandidateMinHeap.push`. -/
def pushCandidate (heap : Array HnswHeapItem) (item : HnswHeapItem) : Array HnswHeapItem :=
  siftUp isWorse (heap.push item) heap.size

/-- `CandidateMinHeap.pop`; an empty heap has nothing to pop. -/
def popCandidate (heap : Array HnswHeapItem) : Option (HnswHeapItem × Array HnswHeapItem) :=
  if h : 0 < heap.size then some (heap[0], popRoot isWorse heap h) else none

/-- The frontier holds these items. -/
structure Frontier (heap : Array HnswHeapItem) (items : List HnswHeapItem) : Prop where
  isHeap : IsHeap ItemGe heap
  perm : heap.toList.Perm items

theorem frontier_empty : Frontier #[] [] :=
  ⟨fun _ _ _ _ _ ha => by simp at ha, .refl _⟩

variable {heap : Array HnswHeapItem} {items : List HnswHeapItem}

theorem frontier_push (h : Frontier heap items) (item : HnswHeapItem) :
    Frontier (pushCandidate heap item) (item :: items) := by
  obtain ⟨hheap, hperm⟩ := is_heap_push is_worse_iff h.isHeap item
  exact ⟨hheap, (hperm.trans perm_append_comm).trans (h.perm.cons item)⟩

theorem frontier_pop {first : HnswHeapItem} (h : Frontier heap (first :: items))
    (hfirst : ∀ item ∈ items, ItemLe first item) :
    ∃ rest, popCandidate heap = some (first, rest) ∧ Frontier rest items := by
  have hpos : 0 < heap.size := by
    rw [← Array.length_toList, h.perm.length_eq]
    exact Nat.succ_pos _
  obtain ⟨hheap, hperm⟩ := is_heap_pop_root is_worse_iff h.isHeap hpos
  have hroot : heap[0] = first := by
    have hbest : ItemLe heap[0] first :=
      root_worst_mem h.isHeap hpos first (h.perm.mem_iff.2 mem_cons_self)
    rcases mem_cons.1 (h.perm.mem_iff.1 (Array.getElem_mem_toList hpos)) with heq | hmem
    · exact heq
    · exact antisymm_of ItemLe hbest (hfirst _ hmem)
  refine ⟨popRoot isWorse heap hpos, ?_, hheap, ?_⟩
  · rw [popCandidate, dif_pos hpos, hroot]
  · rw [hroot] at hperm
    exact (hperm.symm.trans h.perm).cons_inv

theorem frontier_pop_none (h : Frontier heap []) : popCandidate heap = none := by
  have hsize : heap.size = 0 := by rw [← Array.length_toList, h.perm.length_eq, length_nil]
  rw [popCandidate, dif_neg (by omega)]

theorem frontier_pop_all (h : Frontier heap items) :
    popAll isWorse heap = items.insertionSort ItemLe := by
  obtain ⟨hsorted, hperm⟩ := pop_all_sorted is_worse_iff h.isHeap
  exact (sorted_unique_items hsorted (hperm.trans h.perm)).symm

theorem frontier_push_all (pushed : List HnswHeapItem) (h : Frontier heap items) :
    Frontier (pushed.foldl pushCandidate heap) (pushed.reverse ++ items) := by
  induction pushed generalizing heap items with
  | nil => exact h
  | cons item pushed ih =>
      rw [foldl_cons, reverse_cons, append_assoc]
      exact ih (frontier_push h item)

theorem pop_all_pushed (items : List HnswHeapItem) :
    popAll isWorse (items.foldl pushCandidate #[]) = items.insertionSort ItemLe := by
  have hfrontier := frontier_push_all items frontier_empty
  rw [append_nil] at hfrontier
  rw [frontier_pop_all hfrontier]
  exact sorted_unique_items (pairwise_insertionSort ItemLe items)
    ((perm_insertionSort ItemLe items).trans (reverse_perm items).symm)

end Akasha.Hnsw

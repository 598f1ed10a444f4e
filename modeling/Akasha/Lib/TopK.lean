import Mathlib.Data.List.Sort

/-!
# The best elements of a list

`best r k xs` is the first `k` elements of `xs` in the order `r`. It may be taken from parts that
were cut to their own best `k` (`best_flatten_best`), and it is what a bounded heap keeps: the
heap's root is its worst element, a better candidate replaces the root, and draining the heap
gives the kept elements best first (`drain_offer_all`).
-/

namespace Akasha.Lib

open List

variable {α : Type}

/-! ## Parts of a list -/

theorem flat_map_slices (xs : List α) (bound : Nat → Nat) (hzero : bound 0 = 0)
    (hmono : ∀ i, bound i ≤ bound (i + 1)) (n : Nat) :
    (range n).flatMap (fun i => (xs.drop (bound i)).take (bound (i + 1) - bound i)) =
      xs.take (bound n) := by
  induction n with
  | zero => rw [hzero]; rfl
  | succ n ih =>
      rw [range_succ, flatMap_append, ih, flatMap_singleton, ← take_add,
        Nat.add_sub_cancel' (hmono n)]

/-! ## The first elements in an order -/

section Best

variable (r : α → α → Prop) [DecidableRel r]

/-- The first `k` elements in the order. -/
def best (k : Nat) (xs : List α) : List α :=
  (xs.insertionSort r).take k

@[simp]
theorem best_nil (k : Nat) : best r k [] = [] :=
  take_nil

theorem best_subset (k : Nat) (xs : List α) : best r k xs ⊆ xs := by
  intro x hx
  exact (mem_insertionSort r).1 (mem_of_mem_take hx)

theorem best_subperm (k : Nat) (xs : List α) : (best r k xs).Subperm xs :=
  ((take_sublist k _).subperm).trans (perm_insertionSort r xs).subperm

theorem best_min_length (k : Nat) (xs : List α) : best r (min k xs.length) xs = best r k xs := by
  rw [best, best, ← length_insertionSort r xs, take_eq_take_min, min_assoc, min_self,
    ← take_eq_take_min]

variable [Std.Total r] [IsTrans α r] [Std.Antisymm r]

variable {k : Nat}

theorem best_perm {xs ys : List α} (h : xs.Perm ys) : best r k xs = best r k ys := by
  have hsorted : xs.insertionSort r = ys.insertionSort r :=
    List.Perm.eq_of_pairwise' (pairwise_insertionSort r xs) (pairwise_insertionSort r ys)
      ((perm_insertionSort r xs).trans (h.trans (perm_insertionSort r ys).symm))
  rw [best, best, hsorted]

theorem insertion_sort_append (xs ys : List α) :
    (xs ++ ys).insertionSort r =
      merge (xs.insertionSort r) (ys.insertionSort r) (r · ·) := by
  apply List.Perm.eq_of_pairwise' (pairwise_insertionSort r _)
  · exact (pairwise_insertionSort r xs).merge (pairwise_insertionSort r ys)
  · have hparts := (perm_insertionSort r xs).append (perm_insertionSort r ys)
    exact (perm_insertionSort r _).trans (hparts.symm.trans (merge_perm_append _).symm)

omit [Std.Total r] [IsTrans α r] [Std.Antisymm r] in
/-- The first elements of a merge come from the first elements of its parts. -/
theorem take_merge (k : Nat) (xs ys : List α) :
    (merge xs ys (r · ·)).take k =
      (merge (xs.take k) (ys.take k) (r · ·)).take k := by
  induction k generalizing xs ys with
  | zero => simp
  | succ k ih =>
      cases xs with
      | nil => simp [take_take]
      | cons x xs =>
          cases ys with
          | nil => simp [take_take]
          | cons y ys =>
              by_cases h : r x y
              · rw [cons_merge_cons_pos _ _ _ (by simpa using h), take_succ_cons,
                  take_succ_cons, take_succ_cons,
                  cons_merge_cons_pos _ _ _ (by simpa using h), take_succ_cons,
                  ih xs (y :: ys), ih (xs.take k) (y :: ys.take k)]
                cases k with
                | zero => simp
                | succ k => simp [take_take]
              · rw [cons_merge_cons_neg _ _ _ (by simpa using h), take_succ_cons,
                  take_succ_cons, take_succ_cons,
                  cons_merge_cons_neg _ _ _ (by simpa using h), take_succ_cons,
                  ih (x :: xs) ys, ih (x :: xs.take k) (ys.take k)]
                cases k with
                | zero => simp
                | succ k => simp [take_take]

theorem best_append (k : Nat) (xs ys : List α) :
    best r k (xs ++ ys) = best r k (best r k xs ++ best r k ys) := by
  have hsorted : ∀ zs : List α, (best r k zs).insertionSort r = best r k zs := fun zs =>
    ((pairwise_insertionSort r zs).sublist (take_sublist k _)).insertionSort_eq
  rw [best, best, insertion_sort_append, insertion_sort_append, hsorted, hsorted, take_merge]
  rfl

theorem best_flatten_best (k : Nat) (parts : List (List α)) :
    best r k (parts.map (best r k)).flatten = best r k parts.flatten := by
  have hbest : ∀ zs : List α, best r k (best r k zs) = best r k zs := by
    intro zs
    have hsorted : (best r k zs).insertionSort r = best r k zs :=
      ((pairwise_insertionSort r zs).sublist (take_sublist k _)).insertionSort_eq
    rw [best, hsorted, best, take_take, min_self]
  induction parts with
  | nil => rfl
  | cons part parts ih =>
      rw [map_cons, flatten_cons, flatten_cons, best_append, ih, hbest,
        ← best_append]

/-- A sorted front that nothing in the rest precedes is the best of the whole. -/
theorem best_of_perm {xs front rest : List α} (hperm : xs.Perm (front ++ rest))
    (hfront : front.Pairwise r) (hrest : ∀ a ∈ front, ∀ b ∈ rest, r a b)
    (hlength : front.length = min k xs.length) : best r k xs = front := by
  have hsorted : (front ++ rest.insertionSort r).Pairwise r := by
    rw [pairwise_append]
    refine ⟨hfront, pairwise_insertionSort r rest, ?_⟩
    intro a ha b hb
    exact hrest a ha b ((mem_insertionSort r).1 hb)
  have hsort : xs.insertionSort r = front ++ rest.insertionSort r :=
    List.Perm.eq_of_pairwise' (pairwise_insertionSort r xs) hsorted
      ((perm_insertionSort r xs).trans
        (hperm.trans ((perm_insertionSort r rest).symm.append_left front)))
  rw [best, hsort]
  rcases Nat.le_total k xs.length with h | h
  · exact take_left' (by omega)
  · have hnil : rest = [] := by
      have := hperm.length_eq
      rw [length_append] at this
      exact length_eq_zero_iff.1 (by omega)
    subst hnil
    simp only [insertionSort_nil, append_nil]
    exact take_of_length_le (by omega)

omit [Std.Antisymm r] in
theorem best_ahead {xs : List α} {a b : α} (ha : a ∈ best r k xs) (hb : b ∈ xs)
    (hout : b ∉ best r k xs) : r a b := by
  have hsplit : best r k xs ++ (xs.insertionSort r).drop k = xs.insertionSort r :=
    take_append_drop k _
  have hsorted := pairwise_insertionSort r xs
  rw [← hsplit] at hsorted
  have hmem : b ∈ best r k xs ++ (xs.insertionSort r).drop k := by
    rw [hsplit]
    exact (mem_insertionSort r).2 hb
  exact (pairwise_append.1 hsorted).2.2 a ha b ((mem_append.1 hmem).resolve_left hout)

omit [Std.Antisymm r] in
/-- An element of the best has fewer than `k` elements ahead of anything that it is not ahead of. -/
theorem count_ahead_lt {xs : List α} {a b : α} (ha : a ∈ best r k xs) (hab : ¬ r a b) :
    xs.countP (fun x => r x b) < k := by
  obtain ⟨i, hi, hget⟩ := mem_iff_getElem.1 ha
  have hik : i < k := lt_of_lt_of_le hi (length_take_le k _)
  have hlt : i < (xs.insertionSort r).length :=
    lt_of_lt_of_le hi (length_take_le' k _)
  have hgeti : (xs.insertionSort r)[i] = a := by
    rw [← hget]
    exact getElem_take.symm
  -- From the element on, nothing is ahead of `b`.
  have hlater : ((xs.insertionSort r).drop i).countP (fun x => r x b) = 0 := by
    rw [countP_eq_zero]
    intro x hx hxb
    rw [decide_eq_true_eq] at hxb
    have hsorted := (pairwise_insertionSort r xs).sublist (drop_sublist i _)
    rw [← getElem_cons_drop hlt, hgeti] at hsorted hx
    rcases mem_cons.1 hx with rfl | hx
    · exact hab hxb
    · exact hab (IsTrans.trans _ _ _ ((pairwise_cons.1 hsorted).1 x hx) hxb)
  have hcount : xs.countP (fun x => r x b) =
      ((xs.insertionSort r).take i).countP (fun x => r x b) := by
    rw [← (perm_insertionSort r xs).countP_eq]
    conv_lhs => rw [← take_append_drop i (xs.insertionSort r)]
    rw [countP_append, hlater, Nat.add_zero]
  rw [hcount]
  have := @countP_le_length _ (fun x => decide (r x b)) ((xs.insertionSort r).take i)
  have := length_take_le i (xs.insertionSort r)
  omega

/-- Leaving elements out does not change the best when each of them has `k` others ahead of it,
and only then. -/
theorem best_append_eq_iff {xs ys : List α} (hnew : ∀ y ∈ ys, y ∉ xs) :
    best r k (xs ++ ys) = best r k xs ↔ ∀ y ∈ ys, k ≤ xs.countP (fun x => r x y) := by
  constructor
  · intro heq y hy
    by_contra hcount
    have hmem : y ∈ xs ++ ys := mem_append_right _ hy
    have hout : y ∉ best r k (xs ++ ys) := by
      rw [heq]
      exact fun h => hnew y hy (best_subset r k xs h)
    -- All of the best are ahead of `y`, so there are fewer than `k` of them.
    have hall : (best r k xs).countP (fun x => r x y) = (best r k xs).length := by
      rw [countP_eq_length]
      intro x hx
      rw [← heq] at hx
      exact decide_eq_true (best_ahead r hx hmem hout)
    have hle := (best_subperm r k xs).countP_le (fun x => decide (r x y))
    have hlength := congrArg length heq
    have hpos := length_pos_of_mem hy
    simp only [best, length_take, length_insertionSort, length_append] at *
    omega
  · intro hcount
    refine best_of_perm r (?_ : (xs ++ ys).Perm
      (best r k xs ++ ((xs.insertionSort r).drop k ++ ys))) ?_ ?_ ?_
    · rw [← append_assoc, best, take_append_drop]
      exact (perm_insertionSort r xs).symm.append_right ys
    · exact (pairwise_insertionSort r xs).sublist (take_sublist k _)
    · intro a ha b hb
      rcases mem_append.1 hb with hb | hb
      · have hsorted := pairwise_insertionSort r xs
        rw [← take_append_drop k (xs.insertionSort r)] at hsorted
        exact (pairwise_append.1 hsorted).2.2 a ha b hb
      · by_contra hab
        have := count_ahead_lt r ha hab
        have := hcount b hb
        omega
    · rcases Nat.lt_or_ge xs.length k with h | h
      · cases ys with
        | nil => simp [best]
        | cons y ys =>
            have := hcount y mem_cons_self
            have := @countP_le_length _ (fun x => decide (r x y)) xs
            omega
      · simp only [best, length_take, length_insertionSort, length_append]
        omega

end Best

/-! ## A bounded heap whose root is the worst element -/

/-- The position above a position. -/
def heapParent (index : Nat) : Nat := (index - 1) / 2

variable {index : Nat}

section Sift

variable (better : α → α → Bool)

/-- Move the element at a position up while it is worse than the one above it. -/
def siftUp (heap : Array α) (index : Nat) : Array α :=
  if h : 0 < index ∧ index < heap.size then
    have hparent : heapParent index < heap.size := by unfold heapParent; omega
    if better heap[heapParent index] heap[index] then
      siftUp (heap.swap index (heapParent index) h.2 hparent) (heapParent index)
    else heap
  else heap
termination_by index
decreasing_by unfold heapParent; omega

/-- The worse of the two positions below a position that has one. -/
def worstChild (heap : Array α) (index : Nat) : Nat :=
  if h : 2 * index + 2 < heap.size then
    if better heap[2 * index + 1] heap[2 * index + 2] then 2 * index + 2 else 2 * index + 1
  else 2 * index + 1

theorem worst_child_bounds {heap : Array α} (h : 2 * index + 1 < heap.size) :
    worstChild better heap index < heap.size ∧
      (worstChild better heap index = 2 * index + 1 ∨
        worstChild better heap index = 2 * index + 2) := by
  unfold worstChild
  split
  · split <;> omega
  · omega

/-- Move the element at a position down while it is better than one below it. -/
def siftDown (heap : Array α) (index : Nat) : Array α :=
  if h : 2 * index + 1 < heap.size then
    have hchild := worst_child_bounds better h
    have hindex : index < heap.size := by omega
    have hworst : worstChild better heap index < heap.size := hchild.1
    if better heap[index] heap[worstChild better heap index] then
      siftDown (heap.swap index (worstChild better heap index) hindex hworst)
        (worstChild better heap index)
    else heap
  else heap
termination_by heap.size - index
decreasing_by
  rw [Array.size_swap]
  omega

theorem size_sift_down (heap : Array α) (index : Nat) :
    (siftDown better heap index).size = heap.size := by
  induction heap, index using siftDown.induct better with
  | case1 heap index h hchild hindex hworst hbetter ih =>
      rw [siftDown, dif_pos h, if_pos hbetter, ih, Array.size_swap]
  | case2 heap index h hchild hindex hworst hbetter =>
      rw [siftDown, dif_pos h, if_neg hbetter]
  | case3 heap index h => rw [siftDown, dif_neg h]

/-- Keep a candidate while there is room, or in place of a worse root. -/
def offer (capacity : Nat) (heap : Array α) (candidate : α) : Array α :=
  if heap.size < capacity then siftUp better (heap.push candidate) heap.size
  else if h : 0 < heap.size then
    if better candidate heap[0] then siftDown better (heap.set 0 candidate h) 0 else heap
  else heap

/-- Take the root off: the last element takes its place and moves down. -/
def popRoot (heap : Array α) (h : 0 < heap.size) : Array α :=
  siftDown better (heap.swap 0 (heap.size - 1) h (by omega)).pop 0

/-- Take the elements off worst first, and put each before those already taken. -/
def drain (heap : Array α) (drained : List α) : List α :=
  if h : 0 < heap.size then drain (popRoot better heap h) (heap[0] :: drained) else drained
termination_by heap.size
decreasing_by
  rw [popRoot, size_sift_down, Array.size_pop, Array.size_swap]
  omega

/-- Take the elements off one after another. -/
def popAll (heap : Array α) : List α :=
  if h : 0 < heap.size then heap[0] :: popAll (popRoot better heap h) else []
termination_by heap.size
decreasing_by
  rw [popRoot, size_sift_down, Array.size_pop, Array.size_swap]
  omega

theorem drain_eq_pop_all (heap : Array α) (drained : List α) :
    drain better heap drained = (popAll better heap).reverse ++ drained := by
  induction heap, drained using drain.induct better with
  | case1 heap drained h ih =>
      rw [drain, dif_pos h, popAll, dif_pos h, ih, reverse_cons, append_assoc]
      rfl
  | case2 heap drained h =>
      rw [drain, dif_neg h, popAll, dif_neg h]
      rfl

/-- Offer the elements in order to an empty heap. -/
def offerAll (capacity : Nat) (xs : List α) : Array α :=
  xs.foldl (offer better capacity) #[]

/-! ### Images of heaps -/

section Image

variable {β : Type} {better} {f : β → α} {inner : β → β → Bool}
  (hf : ∀ a b, better (f a) (f b) = inner a b)

theorem map_swap (heap : Array β) (i j : Nat) (hi : i < heap.size) (hj : j < heap.size) :
    (heap.map f).swap i j (by simpa using hi) (by simpa using hj) = (heap.swap i j).map f := by
  simp [Array.swap_def]

include hf

theorem sift_up_map (heap : Array β) (index : Nat) :
    siftUp better (heap.map f) index = (siftUp inner heap index).map f := by
  induction heap, index using siftUp.induct inner with
  | case1 heap index h hparent hworse ih =>
      rw [siftUp, siftUp, dif_pos h, dif_pos (by simpa using h), if_pos hworse,
        if_pos (by simpa [hf] using hworse), map_swap _ _ _ h.2 hparent, ih]
  | case2 heap index h hparent hworse =>
      rw [siftUp, siftUp, dif_pos h, dif_pos (by simpa using h), if_neg hworse,
        if_neg (by simpa [hf] using hworse)]
  | case3 heap index h => rw [siftUp, siftUp, dif_neg h, dif_neg (by simpa using h)]

theorem sift_down_map (heap : Array β) (index : Nat) :
    siftDown better (heap.map f) index = (siftDown inner heap index).map f := by
  have hworst : ∀ heap : Array β,
      worstChild better (heap.map f) = worstChild inner heap := by
    intro heap
    funext index
    simp [worstChild, hf]
  induction heap, index using siftDown.induct inner with
  | case1 heap index h hchild hindex hlt hbetter ih =>
      rw [siftDown, siftDown, dif_pos h, dif_pos (by simpa using h), if_pos hbetter,
        if_pos (by simpa [hf, hworst] using hbetter)]
      simp only [hworst]
      rw [map_swap _ _ _ hindex hlt, ih]
  | case2 heap index h hchild hindex hlt hbetter =>
      rw [siftDown, siftDown, dif_pos h, dif_pos (by simpa using h), if_neg hbetter,
        if_neg (by simpa [hf, hworst] using hbetter)]
  | case3 heap index h => rw [siftDown, siftDown, dif_neg h, dif_neg (by simpa using h)]

theorem offer_map (capacity : Nat) (heap : Array β) (candidate : β) :
    offer better capacity (heap.map f) (f candidate) =
      (offer inner capacity heap candidate).map f := by
  unfold offer
  simp only [Array.size_map, ← Array.map_push, sift_up_map hf, Array.getElem_map, hf]
  split_ifs
  · rfl
  · rw [← sift_down_map hf, Array.map_set]
  · rfl
  · rfl

theorem drain_map (heap : Array β) (drained : List β) :
    drain better (heap.map f) (drained.map f) = (drain inner heap drained).map f := by
  induction heap, drained using drain.induct inner with
  | case1 heap drained h ih =>
      have hpop : popRoot better (heap.map f) (by simpa using h) =
          (popRoot inner heap h).map f := by
        simp only [popRoot, Array.size_map]
        rw [map_swap _ _ _ h (by omega), ← Array.map_pop, sift_down_map hf]
      rw [drain, drain, dif_pos h, dif_pos (by simpa using h), hpop, Array.getElem_map,
        ← map_cons, ih]
  | case2 heap drained h => rw [drain, drain, dif_neg h, dif_neg (by simpa using h)]

/-- Ranking the images of some elements by what they are compared with. -/
theorem drain_offer_all_map (capacity : Nat) (xs : List β) :
    drain better (offerAll better capacity (xs.map f)) [] =
      (drain inner (offerAll inner capacity xs) []).map f := by
  have hoffers : ∀ heap : Array β, (xs.map f).foldl (offer better capacity) (heap.map f) =
      (xs.foldl (offer inner capacity) heap).map f := by
    induction xs with
    | nil => exact fun _ => rfl
    | cons x xs ih =>
        intro heap
        rw [map_cons, foldl_cons, foldl_cons, offer_map hf, ih]
  have hheap := hoffers #[]
  rw [Array.map_empty] at hheap
  rw [← drain_map hf, map_nil, offerAll, offerAll, hheap]

end Image

variable {better} in
/-- Only the comparisons of the offered elements matter. -/
theorem drain_offer_all_congr {other : α → α → Bool} {xs : List α}
    (h : ∀ a ∈ xs, ∀ b ∈ xs, better a b = other a b) (capacity : Nat) :
    drain better (offerAll better capacity xs) [] =
      drain other (offerAll other capacity xs) [] := by
  have hfirst := drain_offer_all_map (f := (Subtype.val : {x // x ∈ xs} → α))
    (fun a b => h a a.2 b b.2) capacity xs.attach
  have hsecond := drain_offer_all_map (f := (Subtype.val : {x // x ∈ xs} → α))
    (fun a b => (rfl : other a b = other a b)) capacity xs.attach
  rw [attach_map_subtype_val] at hfirst hsecond
  rw [hfirst, hsecond]

end Sift

section Heap

variable {r : α → α → Prop} [Std.Total r] [IsTrans α r] {better : α → α → Bool}

/-- Every element but the root is at least as good as the one above it, except possibly at the
positions that are skipped. -/
def HeapExcept (r : α → α → Prop) (heap : Array α) (skip : Nat → Prop) : Prop :=
  ∀ index a b, 0 < index → ¬ skip index → heap[index]? = some a →
    heap[heapParent index]? = some b → r a b

/-- The elements below a position are at least as good as the one above it. -/
def HeapAround (r : α → α → Prop) (heap : Array α) (hole : Nat) : Prop :=
  ∀ index a b, 0 < index → 0 < hole → heapParent index = hole → heap[index]? = some a →
    heap[heapParent hole]? = some b → r a b

/-- The heap property. -/
def IsHeap (r : α → α → Prop) (heap : Array α) : Prop :=
  HeapExcept r heap fun _ => False

theorem heap_parent_lt (h : 0 < index) : heapParent index < index := by
  unfold heapParent; omega

variable {heap : Array α}

omit [Std.Total r] in
/-- Exchanging a position with a better one above it moves the hole up. -/
theorem heap_swap_up (hpos : 0 < index) (hindex : index < heap.size)
    (hparent : heapParent index < heap.size) (hworse : r heap[heapParent index] heap[index])
    (hexcept : HeapExcept r heap (· = index)) (haround : HeapAround r heap index) :
    HeapExcept r (heap.swap index (heapParent index) hindex hparent) (· = heapParent index) ∧
      HeapAround r (heap.swap index (heapParent index) hindex hparent) (heapParent index) := by
  have hlt : heapParent index < index := heap_parent_lt hpos
  have hself : heap[heapParent index]? = some heap[heapParent index] :=
    Array.getElem?_eq_getElem hparent
  have hup : ∀ b, 0 < heapParent index → heap[heapParent (heapParent index)]? = some b →
      r heap[heapParent index] b := fun b h hb =>
    hexcept (heapParent index) _ b h (by omega) hself hb
  constructor
  · intro j a b hj hne ha hb
    rw [Array.getElem?_swap] at ha hb
    rw [if_neg (fun h => hne h.symm)] at ha
    by_cases hij : index = j
    · subst hij
      rw [if_pos rfl] at ha hb
      cases ha
      cases hb
      exact hworse
    rw [if_neg hij] at ha
    by_cases hp : heapParent index = heapParent j
    · rw [if_pos hp] at hb
      cases hb
      have hb : heap[heapParent j]? = some heap[heapParent index] := by rw [← hp]; exact hself
      exact trans_of r (hexcept j a _ hj (fun h => hij h.symm) ha hb) hworse
    rw [if_neg hp] at hb
    by_cases hip : index = heapParent j
    · rw [if_pos hip] at hb
      cases hb
      exact haround j a _ hj hpos hip.symm ha hself
    rw [if_neg hip] at hb
    exact hexcept j a b hj (fun h => hij h.symm) ha hb
  · intro j a b hj hp hpj ha hb
    have hpp := heap_parent_lt hp
    have hlow : heapParent j < j := heap_parent_lt hj
    rw [Array.getElem?_swap, if_neg (by omega), if_neg (by omega)] at hb
    rw [Array.getElem?_swap, if_neg (by omega)] at ha
    by_cases hij : index = j
    · rw [if_pos hij] at ha
      cases ha
      exact hup b hp hb
    rw [if_neg hij] at ha
    have hj' : heap[heapParent j]? = some heap[heapParent index] := by rw [hpj]; exact hself
    exact trans_of r (hexcept j a _ hj (fun h => hij h.symm) ha hj') (hup b hp hb)

/-- Moving up from a hole gives a heap of the same elements. -/
theorem is_heap_sift_up (hbetter : ∀ a b, better a b = true ↔ ¬ r b a) (heap : Array α)
    (index : Nat) (hexcept : HeapExcept r heap (· = index)) (haround : HeapAround r heap index)
    (hindex : index < heap.size) :
    IsHeap r (siftUp better heap index) ∧ (siftUp better heap index).Perm heap := by
  induction heap, index using siftUp.induct better with
  | case1 heap index h hparent hworse ih =>
      rw [siftUp, dif_pos h, if_pos hworse]
      have hle : r heap[heapParent index] heap[index] :=
        (total_of r _ _).resolve_right ((hbetter _ _).1 hworse)
      obtain ⟨hexcept', haround'⟩ := heap_swap_up h.1 h.2 hparent hle hexcept haround
      obtain ⟨hheap, hperm⟩ := ih hexcept' haround' (by rw [Array.size_swap]; exact hparent)
      exact ⟨hheap, hperm.trans (Array.swap_perm h.2 hparent)⟩
  | case2 heap index h hparent hworse =>
      rw [siftUp, dif_pos h, if_neg hworse]
      refine ⟨?_, .refl heap⟩
      intro j a b hj _ ha hb
      by_cases hij : j = index
      · subst hij
        rw [Array.getElem?_eq_getElem h.2] at ha
        rw [Array.getElem?_eq_getElem hparent] at hb
        cases ha
        cases hb
        exact not_not.1 fun hr => hworse ((hbetter _ _).2 hr)
      · exact hexcept j a b hj hij ha hb
  | case3 heap index h =>
      rw [siftUp, dif_neg h]
      refine ⟨?_, .refl heap⟩
      intro j a b hj _ ha hb
      exact hexcept j a b hj (by omega) ha hb

omit [IsTrans α r] in
/-- The worse position below is at most as good as both. -/
theorem worst_child_worst (hbetter : ∀ a b, better a b = true ↔ ¬ r b a) {heap : Array α}
    {index j : Nat} {a b : α} (hj : 0 < j) (hparent : heapParent j = index)
    (ha : heap[j]? = some a) (hb : heap[worstChild better heap index]? = some b) : r a b := by
  have hrefl : ∀ x, r x x := fun x => (total_of r x x).elim id id
  have hjcase : j = 2 * index + 1 ∨ j = 2 * index + 2 := by unfold heapParent at hparent; omega
  have hsize : j < heap.size := (Array.getElem?_eq_some_iff.1 ha).1
  unfold worstChild at hb
  split at hb
  · rename_i h
    have hleft := Array.getElem?_eq_getElem (show 2 * index + 1 < heap.size by omega)
    have hright := Array.getElem?_eq_getElem h
    split at hb
    · rename_i hworse
      rw [hright] at hb
      cases hb
      rcases hjcase with rfl | rfl
      · rw [hleft] at ha
        cases ha
        exact (total_of r _ _).resolve_right ((hbetter _ _).1 hworse)
      · rw [hright] at ha
        cases ha
        exact hrefl _
    · rename_i hworse
      rw [hleft] at hb
      cases hb
      rcases hjcase with rfl | rfl
      · rw [hleft] at ha
        cases ha
        exact hrefl _
      · rw [hright] at ha
        cases ha
        exact not_not.1 fun hr => hworse ((hbetter _ _).2 hr)
  · rcases hjcase with rfl | rfl
    · rw [ha] at hb
      cases hb
      exact hrefl _
    · omega

omit [IsTrans α r] in
/-- Exchanging a position with the worse one below it moves the hole down. -/
theorem heap_swap_down (hbetter : ∀ a b, better a b = true ↔ ¬ r b a)
    (hchild : 2 * index + 1 < heap.size) (hindex : index < heap.size)
    (hworst : worstChild better heap index < heap.size)
    (hle : r heap[index] heap[worstChild better heap index])
    (hexcept : HeapExcept r heap (heapParent · = index)) (haround : HeapAround r heap index) :
    HeapExcept r (heap.swap index (worstChild better heap index) hindex hworst)
        (heapParent · = worstChild better heap index) ∧
      HeapAround r (heap.swap index (worstChild better heap index) hindex hworst)
        (worstChild better heap index) := by
  have hbounds := worst_child_bounds better hchild
  have hself := Array.getElem?_eq_getElem hworst
  have hbelow := @worst_child_worst _ r _ better hbetter heap index
  generalize worstChild better heap index = child at *
  have hparent : heapParent child = index := by unfold heapParent; omega
  constructor
  · intro j a b hj hne ha hb
    have hlow := heap_parent_lt hj
    rw [Array.getElem?_swap] at ha hb
    rw [if_neg (fun h => hne h.symm)] at hb
    by_cases hpj : index = heapParent j
    · rw [if_pos hpj] at hb
      cases hb
      by_cases hjc : child = j
      · rw [if_pos hjc] at ha
        cases ha
        exact hle
      rw [if_neg hjc, if_neg (by omega)] at ha
      exact hbelow hj hpj.symm ha hself
    rw [if_neg hpj] at hb
    have hjc : child ≠ j := fun h => hpj (by rw [← h, hparent])
    rw [if_neg hjc] at ha
    by_cases hij : index = j
    · rw [if_pos hij] at ha
      cases ha
      subst hij
      exact haround child _ b (by omega) hj hparent hself hb
    rw [if_neg hij] at ha
    exact hexcept j a b hj (fun h => hpj h.symm) ha hb
  · intro j a b hj hc hpj ha hb
    have hlow := heap_parent_lt hj
    have hclow := heap_parent_lt hc
    rw [hparent] at hb
    rw [Array.getElem?_swap, if_neg (by omega), if_pos rfl] at hb
    cases hb
    rw [Array.getElem?_swap, if_neg (by omega), if_neg (by omega)] at ha
    exact hexcept j a _ hj (by omega) ha (by rw [hpj]; exact hself)

/-- Moving down from a hole gives a heap of the same elements. -/
theorem is_heap_sift_down (hbetter : ∀ a b, better a b = true ↔ ¬ r b a) (heap : Array α)
    (index : Nat) (hexcept : HeapExcept r heap (heapParent · = index))
    (haround : HeapAround r heap index) :
    IsHeap r (siftDown better heap index) ∧ (siftDown better heap index).Perm heap := by
  induction heap, index using siftDown.induct better with
  | case1 heap index h hchild hindex hworst hworse ih =>
      rw [siftDown, dif_pos h, if_pos hworse]
      have hle : r heap[index] heap[worstChild better heap index] :=
        (total_of r _ _).resolve_right ((hbetter _ _).1 hworse)
      obtain ⟨hexcept', haround'⟩ := heap_swap_down hbetter h hindex hworst hle hexcept haround
      obtain ⟨hheap, hperm⟩ := ih hexcept' haround'
      exact ⟨hheap, hperm.trans (Array.swap_perm hindex hworst)⟩
  | case2 heap index h hchild hindex hworst hworse =>
      rw [siftDown, dif_pos h, if_neg hworse]
      refine ⟨?_, .refl heap⟩
      intro j a b hj _ ha hb
      by_cases hpj : heapParent j = index
      · rw [hpj, Array.getElem?_eq_getElem hindex] at hb
        cases hb
        have hle : r heap[worstChild better heap index] heap[index] :=
          not_not.1 fun hr => hworse ((hbetter _ _).2 hr)
        exact trans_of r
          (worst_child_worst hbetter hj hpj ha (Array.getElem?_eq_getElem hworst)) hle
      · exact hexcept j a b hj hpj ha hb
  | case3 heap index h =>
      rw [siftDown, dif_neg h]
      refine ⟨?_, .refl heap⟩
      intro j a b hj _ ha hb
      have hsize : j < heap.size := (Array.getElem?_eq_some_iff.1 ha).1
      exact hexcept j a b hj (by unfold heapParent; omega) ha hb

theorem root_worst (hheap : IsHeap r heap) {root : α} (hroot : heap[0]? = some root) (index : Nat)
    (a : α) (ha : heap[index]? = some a) :
    r a root := by
  induction index using Nat.strongRecOn generalizing a with
  | _ index ih =>
      by_cases h : 0 < index
      · have hlt := heap_parent_lt h
        have hsize : index < heap.size := (Array.getElem?_eq_some_iff.1 ha).1
        have hb := Array.getElem?_eq_getElem (show heapParent index < heap.size by omega)
        exact trans_of r (hheap index a _ h not_false ha hb) (ih _ hlt _ hb)
      · obtain rfl : index = 0 := by omega
        rw [hroot] at ha
        cases ha
        exact (total_of r root root).elim id id

theorem root_worst_mem (hheap : IsHeap r heap) (hpos : 0 < heap.size) :
    ∀ a ∈ heap.toList, r a heap[0] := by
  intro a ha
  obtain ⟨j, hj⟩ := mem_iff_getElem?.1 ha
  exact root_worst hheap (Array.getElem?_eq_getElem hpos) j a (by simpa using hj)

omit [Std.Total r] [IsTrans α r] in
theorem heap_except_root (other : Array α) (hheap : IsHeap r heap)
    (hsame : ∀ index a, 0 < index → other[index]? = some a → heap[index]? = some a) :
    HeapExcept r other (heapParent · = 0) ∧ HeapAround r other 0 := by
  constructor
  · intro j a b hj hp ha hb
    exact hheap j a b hj not_false (hsame j a hj ha) (hsame _ b (by omega) hb)
  · intro j a b _ h
    exact absurd h (lt_irrefl 0)

/-- A new element moves up from behind the last one. -/
theorem is_heap_push (hbetter : ∀ a b, better a b = true ↔ ¬ r b a) (hheap : IsHeap r heap)
    (x : α) :
    IsHeap r (siftUp better (heap.push x) heap.size) ∧
      (siftUp better (heap.push x) heap.size).toList.Perm (heap.toList ++ [x]) := by
  have hexcept : HeapExcept r (heap.push x) (· = heap.size) := by
    intro j a b hj hne ha hb
    have hlt := heap_parent_lt hj
    have hjsize : j < (heap.push x).size := (Array.getElem?_eq_some_iff.1 ha).1
    rw [Array.size_push] at hjsize
    rw [Array.getElem?_push, if_neg hne] at ha
    rw [Array.getElem?_push, if_neg (by omega)] at hb
    exact hheap j a b hj not_false ha hb
  have haround : HeapAround r (heap.push x) heap.size := by
    intro j a b hj _ hp ha
    have hlt := heap_parent_lt hj
    have hjsize : j < (heap.push x).size := (Array.getElem?_eq_some_iff.1 ha).1
    rw [Array.size_push] at hjsize
    omega
  obtain ⟨hsifted, hsame⟩ :=
    is_heap_sift_up hbetter (heap.push x) heap.size hexcept haround (by simp)
  have hlist := Array.perm_iff_toList_perm.1 hsame
  rw [Array.toList_push] at hlist
  exact ⟨hsifted, hlist⟩

/-- What a bounded heap holds after some elements were offered: the rest is no better than any
element kept, and elements are dropped only when the heap is full. -/
structure KeepsBest (r : α → α → Prop) (capacity : Nat) (heap : Array α) (offered : List α) :
    Prop where
  isHeap : IsHeap r heap
  split : ∃ rest, offered.Perm (heap.toList ++ rest) ∧ ∀ a ∈ heap.toList, ∀ b ∈ rest, r a b
  size : heap.size = min capacity offered.length

/-- One more element is offered. -/
theorem keeps_best_offer (hbetter : ∀ a b, better a b = true ↔ ¬ r b a) {capacity : Nat}
    {offered : List α} (h : KeepsBest r capacity heap offered) (x : α) :
    KeepsBest r capacity (offer better capacity heap x) (offered ++ [x]) := by
  obtain ⟨rest, hperm, hrest⟩ := h.split
  have hlength := hperm.length_eq
  simp only [length_append, Array.length_toList] at hlength
  have hsize := h.size
  unfold offer
  by_cases hroom : heap.size < capacity
  · rw [if_pos hroom]
    have hnil : rest = [] := length_eq_zero_iff.1 (by omega)
    subst hnil
    obtain ⟨hheap, hlist⟩ := is_heap_push hbetter h.isHeap x
    refine ⟨hheap, ⟨[], ?_, by simp⟩, ?_⟩
    · rw [append_nil] at hperm ⊢
      exact (hperm.append_right [x]).trans hlist.symm
    · rw [← Array.length_toList, hlist.length_eq, length_append, length_append,
        length_singleton, Array.length_toList]
      simp only [length_nil] at hlength
      omega
  rw [if_neg hroom]
  by_cases hpos : 0 < heap.size
  · rw [dif_pos hpos]
    have hworst := root_worst_mem h.isHeap hpos
    have hlist : heap.toList.Perm (heap[0] :: heap.toList.tail) := by
      cases hl : heap.toList with
      | nil =>
          rw [← Array.length_toList, hl] at hpos
          exact absurd hpos (by simp)
      | cons a as =>
          have : heap[0] = a := by
            have : heap.toList[0] = heap[0] := Array.getElem_toList hpos
            rw [← this]
            simp [hl]
          rw [this, tail_cons]
    by_cases hx : better x heap[0]
    · rw [if_pos hx]
      have hxroot : r x heap[0] := (total_of r _ _).resolve_right ((hbetter _ _).1 hx)
      obtain ⟨hexcept, haround⟩ := heap_except_root (heap.set 0 x hpos) h.isHeap
        (fun j a hj ha => by rwa [Array.getElem?_set, if_neg (by omega)] at ha)
      obtain ⟨hheap, hsame⟩ := is_heap_sift_down hbetter _ 0 hexcept haround
      have hkept := Array.perm_iff_toList_perm.1 hsame
      have hset : (heap.set 0 x hpos).toList = x :: heap.toList.tail := by
        rw [Array.toList_set]
        cases hl : heap.toList with
        | nil => rw [hl] at hlist; exact absurd hlist.length_eq (by simp)
        | cons a as => rfl
      rw [hset] at hkept
      refine ⟨hheap, ⟨heap[0] :: rest, ?_, ?_⟩, ?_⟩
      · refine (hperm.append_right [x]).trans ?_
        refine ((hlist.append_right rest).append_right [x]).trans ?_
        refine List.Perm.trans ?_ (hkept.symm.append_right _)
        refine (perm_append_comm).trans ?_
        simp only [cons_append, nil_append]
        exact (perm_middle.symm).cons x
      · intro a ha b hb
        have hmem := hkept.mem_iff.1 ha
        have hbest : r a heap[0] := by
          rcases mem_cons.1 hmem with rfl | hmem
          · exact hxroot
          · exact hworst a (mem_of_mem_tail hmem)
        rcases mem_cons.1 hb with rfl | hb
        · exact hbest
        · exact trans_of r hbest (hrest _ (Array.getElem_mem_toList hpos) b hb)
      · rw [hsame.size_eq, Array.size_set, length_append, length_singleton]
        omega
    · rw [if_neg hx]
      have hxroot : r heap[0] x := not_not.1 fun hr => hx ((hbetter _ _).2 hr)
      refine ⟨h.isHeap, ⟨rest ++ [x], ?_, ?_⟩, ?_⟩
      · rw [← append_assoc]
        exact hperm.append_right [x]
      · intro a ha b hb
        rcases mem_append.1 hb with hb | hb
        · exact hrest a ha b hb
        · rw [mem_singleton] at hb
          subst hb
          exact trans_of r (hworst a ha) hxroot
      · rw [length_append, length_singleton]
        omega
  · rw [dif_neg hpos]
    have hempty : heap.toList = [] := length_eq_zero_iff.1 (by rw [Array.length_toList]; omega)
    refine ⟨h.isHeap, ⟨rest ++ [x], ?_, ?_⟩, ?_⟩
    · rw [← append_assoc]
      exact hperm.append_right [x]
    · rw [hempty]
      exact fun a ha => absurd ha not_mem_nil
    · rw [length_append, length_singleton]
      omega

theorem keeps_best_offer_all (hbetter : ∀ a b, better a b = true ↔ ¬ r b a) (capacity : Nat)
    (xs : List α) : KeepsBest r capacity (offerAll better capacity xs) xs := by
  suffices h : ∀ (heap : Array α) (offered : List α), KeepsBest r capacity heap offered →
      KeepsBest r capacity (xs.foldl (offer better capacity) heap) (offered ++ xs) by
    have hempty : KeepsBest r capacity (#[] : Array α) [] :=
      ⟨fun j a b _ _ ha => by simp at ha, ⟨[], by simp, by simp⟩, by simp⟩
    simpa [offerAll] using h #[] [] hempty
  induction xs with
  | nil => intro heap offered h; simpa using h
  | cons x xs ih =>
      intro heap offered h
      have := ih _ _ (keeps_best_offer hbetter h x)
      rwa [append_assoc] at this

/-- Taking the root off leaves a heap of the other elements. -/
theorem is_heap_pop_root (hbetter : ∀ a b, better a b = true ↔ ¬ r b a) (hheap : IsHeap r heap)
    (hpos : 0 < heap.size) :
    IsHeap r (popRoot better heap hpos) ∧
      heap.toList.Perm (heap[0] :: (popRoot better heap hpos).toList) := by
  have hlast : heap.size - 1 < heap.size := by omega
  obtain ⟨hexcept, haround⟩ := heap_except_root
    (heap.swap 0 (heap.size - 1) hpos hlast).pop hheap (fun j a hj ha => by
      rw [Array.getElem?_pop, Array.size_swap] at ha
      split at ha
      · rwa [Array.getElem?_swap, if_neg (by omega), if_neg (by omega)] at ha
      · cases ha)
  obtain ⟨hpopped, hsame⟩ := is_heap_sift_down hbetter _ 0 hexcept haround
  refine ⟨hpopped, ?_⟩
  have hswap : ((heap.swap 0 (heap.size - 1) hpos hlast).pop).push heap[0] =
      heap.swap 0 (heap.size - 1) hpos hlast := by
    apply Array.ext_getElem?
    intro i
    rw [Array.getElem?_push, Array.getElem?_pop, Array.size_pop, Array.size_swap]
    by_cases hi : i = heap.size - 1
    · rw [if_pos hi, Array.getElem?_swap, if_pos hi.symm]
    · rw [if_neg hi]
      split
      · rfl
      · rw [Array.getElem?_eq_none (by rw [Array.size_swap]; omega)]
  have hparts := Array.perm_iff_toList_perm.1 (Array.swap_perm hpos hlast)
  rw [← hswap, Array.toList_push] at hparts
  exact hparts.symm.trans
    (perm_append_comm.trans ((Array.perm_iff_toList_perm.1 hsame).symm.cons heap[0]))

/-- Draining a heap gives its elements in order. -/
theorem drain_sorted (hbetter : ∀ a b, better a b = true ↔ ¬ r b a) (heap : Array α)
    (drained : List α) (hheap : IsHeap r heap) (hdrained : drained.Pairwise r)
    (hbest : ∀ a ∈ heap.toList, ∀ b ∈ drained, r a b) :
    (drain better heap drained).Pairwise r ∧
      (drain better heap drained).Perm (heap.toList ++ drained) := by
  induction heap, drained using drain.induct better with
  | case1 heap drained hpos ih =>
      rw [drain, dif_pos hpos]
      have hworst := root_worst_mem hheap hpos
      obtain ⟨hpopped, hperm⟩ := is_heap_pop_root hbetter hheap hpos
      have hmem : ∀ a ∈ (popRoot better heap hpos).toList, a ∈ heap.toList := fun a ha =>
        hperm.mem_iff.2 (mem_cons_of_mem _ ha)
      have hroot : heap[0] ∈ heap.toList := Array.getElem_mem_toList hpos
      obtain ⟨hsorted, hall⟩ := ih hpopped (hdrained.cons fun b hb => hbest _ hroot b hb)
        (by
          intro a ha b hb
          rcases mem_cons.1 hb with rfl | hb
          · exact hworst a (hmem a ha)
          · exact hbest a (hmem a ha) b hb)
      refine ⟨hsorted, hall.trans ?_⟩
      exact perm_middle.trans (hperm.symm.append_right drained)
  | case2 heap drained hpos =>
      rw [drain, dif_neg hpos]
      have hempty : heap.toList = [] := length_eq_zero_iff.1 (by rw [Array.length_toList]; omega)
      rw [hempty, nil_append]
      exact ⟨hdrained, .refl _⟩

theorem pop_all_sorted (hbetter : ∀ a b, better a b = true ↔ ¬ r b a) (hheap : IsHeap r heap) :
    (popAll better heap).Pairwise (fun a b => r b a) ∧ (popAll better heap).Perm heap.toList := by
  obtain ⟨hsorted, hperm⟩ := drain_sorted hbetter heap [] hheap List.Pairwise.nil
    (fun _ _ _ hb => absurd hb not_mem_nil)
  rw [drain_eq_pop_all, append_nil] at hsorted hperm
  rw [append_nil] at hperm
  exact ⟨pairwise_reverse.1 hsorted, (reverse_perm _).symm.trans hperm⟩

theorem drain_offer_all [DecidableRel r] [Std.Antisymm r]
    (hbetter : ∀ a b, better a b = true ↔ ¬ r b a) (capacity : Nat) (xs : List α) :
    drain better (offerAll better capacity xs) [] = best r capacity xs := by
  have hkept := keeps_best_offer_all hbetter capacity xs
  obtain ⟨rest, hperm, hrest⟩ := hkept.split
  obtain ⟨hsorted, hall⟩ := drain_sorted hbetter _ [] hkept.isHeap List.Pairwise.nil
    (fun _ _ _ hb => absurd hb not_mem_nil)
  rw [append_nil] at hall
  refine (best_of_perm r (hperm.trans (hall.symm.append_right rest)) hsorted ?_ ?_).symm
  · exact fun a ha b hb => hrest a (hall.mem_iff.1 ha) b hb
  · rw [hall.length_eq, Array.length_toList, hkept.size]

end Heap

end Akasha.Lib

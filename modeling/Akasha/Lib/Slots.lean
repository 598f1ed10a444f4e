import Mathlib.Algebra.GroupWithZero.Nat
import Mathlib.Data.List.Nodup

/-!
# Lists of slots with a key

A list in which each key has one slot, as an insertion-ordered map. `putBy` replaces the element
of a key in its slot, or appends a new one; looking a key up finds the element that was put last.
-/

namespace Akasha.Lib

open List

variable {α κ : Type} [DecidableEq κ] (key : α → κ)

/-- The element of a key. -/
def findBy (k : κ) (xs : List α) : Option α :=
  xs.find? fun x => key x = k

/-- Put an element into the slot of its key, or into a new slot. -/
def putBy (xs : List α) (x : α) : List α :=
  match xs.findIdx? fun y => key y = key x with
  | some slot => xs.set slot x
  | none => xs ++ [x]

variable {key}

/-- A put changes the element of its key only. -/
theorem find_put_by (xs : List α) (x : α) (k : κ) :
    findBy key k (putBy key xs x) = if k = key x then some x else findBy key k xs := by
  unfold findBy putBy
  induction xs with
  | nil =>
      by_cases h : k = key x
      · simp [h]
      · simp [h, Ne.symm h]
  | cons y ys ih =>
      rw [findIdx?_cons]
      by_cases hy : key y = key x
      · simp only [hy, decide_true, if_true]
        by_cases h : k = key x
        · simp [h]
        · simp [h, Ne.symm h, hy]
      · simp only [hy, decide_false, Bool.false_eq_true, if_false]
        cases hslot : ys.findIdx? fun z => decide (key z = key x) with
        | none =>
            simp only [hslot] at ih
            simp only [Option.map_none, cons_append, find?_cons, ih]
            by_cases h : key y = k
            · simp [h, show k ≠ key x from h ▸ hy]
            · simp [h]
        | some slot =>
            simp only [hslot] at ih
            simp only [Option.map_some, set_cons_succ, find?_cons, ih]
            by_cases h : key y = k
            · simp [h, show k ≠ key x from h ▸ hy]
            · simp [h]

variable {xs : List α}

theorem find_by_key {k : κ} {x : α} (h : findBy key k xs = some x) : key x = k := by
  simpa using find?_some h

theorem mem_of_find_by {k : κ} {x : α} (h : findBy key k xs = some x) : x ∈ xs :=
  mem_of_find?_eq_some h

theorem find_by_none {k : κ} : findBy key k xs = none ↔ k ∉ xs.map key := by
  unfold findBy
  rw [find?_eq_none]
  simp [eq_comm]

theorem find_by_of_mem (hnodup : (xs.map key).Nodup) {x : α} (h : x ∈ xs) :
    findBy key (key x) xs = some x := by
  unfold findBy
  induction xs with
  | nil => cases h
  | cons y ys ih =>
      obtain ⟨hfresh, hrest⟩ := nodup_cons.1 hnodup
      rcases mem_cons.1 h with rfl | h
      · simp
      · have hne : key y ≠ key x := fun heq => hfresh (heq ▸ mem_map_of_mem h)
        rw [find?_cons, decide_eq_false hne]
        exact ih hrest h

theorem find_by_eq_some (hnodup : (xs.map key).Nodup) {k : κ} {x : α} :
    findBy key k xs = some x ↔ x ∈ xs ∧ key x = k :=
  ⟨fun h => ⟨mem_of_find_by h, find_by_key h⟩, fun ⟨h, hk⟩ => hk ▸ find_by_of_mem hnodup h⟩

theorem find_by_perm {xs ys : List α} (hperm : xs.Perm ys) (hnodup : (ys.map key).Nodup) (k : κ) :
    findBy key k xs = findBy key k ys := by
  have hnodup' := (hperm.map key).nodup_iff.2 hnodup
  cases hfind : findBy key k ys with
  | none =>
      refine find_by_none.2 fun hmem => find_by_none.1 hfind ?_
      exact (hperm.map key).mem_iff.1 hmem
  | some y =>
      obtain ⟨hmem, hk⟩ := (find_by_eq_some hnodup).1 hfind
      exact (find_by_eq_some hnodup').2 ⟨hperm.mem_iff.2 hmem, hk⟩

/-- A put keeps one slot for each key. -/
theorem put_by_keys (xs : List α) (x : α) :
    (putBy key xs x).map key =
      if key x ∈ xs.map key then xs.map key else xs.map key ++ [key x] := by
  unfold putBy
  cases hslot : xs.findIdx? fun y => decide (key y = key x) with
  | none =>
      have hnone : key x ∉ xs.map key := by
        rw [mem_map]
        rintro ⟨y, hy, heq⟩
        simpa [heq] using findIdx?_eq_none_iff.1 hslot y hy
      rw [if_neg hnone, map_append]
      rfl
  | some slot =>
      obtain ⟨hlt, hhit, -⟩ := findIdx?_eq_some_iff_getElem.1 hslot
      have hkey : key xs[slot] = key x := by simpa using hhit
      rw [if_pos (mem_map.2 ⟨xs[slot], getElem_mem hlt, hkey⟩), map_set, ← hkey]
      refine ext_getElem (by simp) fun i hi hi' => ?_
      rw [getElem_set]
      split
      · rename_i heq
        subst heq
        rw [getElem_map]
      · rfl

theorem put_by_nodup (h : (xs.map key).Nodup) (x : α) :
    ((putBy key xs x).map key).Nodup := by
  rw [put_by_keys]
  split
  · exact h
  · rename_i hnew
    exact nodup_append.2 ⟨h, nodup_singleton _, fun k hk k' hk' heq => by
      rw [mem_singleton.1 hk'] at heq
      exact hnew (heq ▸ hk)⟩

variable (key) in
/-- A put moves a count from the old element of its key to the new one. -/
theorem count_put_by (xs : List α) (x : α) (p : α → Bool) :
    (putBy key xs x).countP p + (if (findBy key (key x) xs).any p then 1 else 0) =
      xs.countP p + if p x then 1 else 0 := by
  unfold putBy findBy
  induction xs with
  | nil => simp
  | cons y ys ih =>
      rw [findIdx?_cons, find?_cons]
      by_cases hy : key y = key x
      · simp only [hy, decide_true, if_true, set_cons_zero, countP_cons, Option.any_some]
        omega
      · simp only [hy, decide_false, Bool.false_eq_true, if_false]
        cases hslot : ys.findIdx? fun z => decide (key z = key x) with
        | none =>
            simp only [hslot] at ih
            simp only [Option.map_none, cons_append, countP_cons]
            omega
        | some slot =>
            simp only [hslot] at ih
            simp only [Option.map_some, set_cons_succ, countP_cons]
            omega

theorem find_fold_put_last (updates : List α) (k : κ) :
    findBy key k (updates.foldl (putBy key) xs) =
      (findBy key k updates.reverse).or (findBy key k xs) := by
  induction updates generalizing xs with
  | nil => rfl
  | cons x updates ih =>
      rw [foldl_cons, ih, find_put_by, reverse_cons, findBy, findBy, findBy,
        find?_append, Option.or_assoc]
      by_cases h : k = key x
      · simp [h]
      · simp [h, Ne.symm h]

theorem fold_put_nodup (updates : List α) (h : (xs.map key).Nodup) :
    ((updates.foldl (putBy key) xs).map key).Nodup := by
  induction updates generalizing xs with
  | nil => exact h
  | cons x updates ih => exact ih (put_by_nodup h x)

theorem find_fold_put (updates : List α) (hnodup : (updates.map key).Nodup) (k : κ) :
    findBy key k (updates.foldl (putBy key) xs) =
      (findBy key k updates).or (findBy key k xs) := by
  rw [find_fold_put_last, find_by_perm (reverse_perm updates) hnodup]

theorem fold_update {β : Type} (xs : List α) (hnodup : (xs.map key).Nodup) (g : α → β) (f : κ → β)
    (k : κ) :
    xs.foldl (fun f x => Function.update f (key x) (g x)) f k =
      (findBy key k xs).elim (f k) g := by
  induction xs generalizing f with
  | nil => rfl
  | cons x xs ih =>
      obtain ⟨hfresh, hrest⟩ := nodup_cons.1 hnodup
      rw [foldl_cons, ih hrest]
      by_cases h : k = key x
      · have hnone : findBy key k xs = none := find_by_none.2 (h ▸ hfresh)
        rw [hnone, h]
        simp [findBy]
      · have hskip : findBy key k (x :: xs) = findBy key k xs := by
          unfold findBy
          rw [find?_cons_of_neg (by simpa using Ne.symm h)]
        rw [hskip, Function.update_of_ne h]

theorem eq_of_find_by {xs ys : List α} (hnodup : (xs.map key).Nodup)
    (hkeys : xs.map key = ys.map key) (hfind : ∀ k, findBy key k xs = findBy key k ys) :
    xs = ys := by
  have hlength : xs.length = ys.length := by simpa using congrArg length hkeys
  refine ext_getElem hlength fun i hi hi' => ?_
  have hkey : key xs[i] = key ys[i] := by
    have := getElem_of_eq hkeys (by simpa using hi)
    rwa [getElem_map, getElem_map] at this
  have hx := find_by_of_mem hnodup (getElem_mem hi)
  have hy := find_by_of_mem (hkeys ▸ hnodup) (getElem_mem hi')
  rw [hfind, hkey, hy] at hx
  exact (Option.some.inj hx).symm

theorem find_map_slots {β : Type} (keys : List κ) (f : κ → β) (k : κ) :
    findBy Prod.fst k (keys.map fun i => (i, f i)) = if k ∈ keys then some (k, f k) else none := by
  induction keys with
  | nil => rfl
  | cons i keys ih =>
      unfold findBy at ih ⊢
      rw [map_cons, find?_cons]
      by_cases h : i = k
      · simp [h]
      · simp only [h, decide_false, ih, mem_cons, Ne.symm h, false_or]

/-- A put into slots that show a map updates the map. -/
theorem put_by_map {β : Type} {keys : List κ} (hnodup : keys.Nodup) (f : κ → β) (k : κ) (v : β) :
    putBy Prod.fst (keys.map fun i => (i, f i)) (k, v) =
      (if k ∈ keys then keys else keys ++ [k]).map fun i => (i, Function.update f k v i) := by
  have hmap : ∀ (g : κ → β) (ks : List κ), (ks.map fun i => (i, g i)).map Prod.fst = ks := by
    intro g ks
    rw [map_map]
    exact map_id ks
  refine eq_of_find_by (put_by_nodup ((hmap f keys).symm ▸ hnodup) _) ?_ fun k' => ?_
  · rw [put_by_keys, hmap, hmap]
  · rw [find_put_by, find_map_slots, find_map_slots]
    by_cases h : k' = k
    · have hmem : k ∈ if k ∈ keys then keys else keys ++ [k] := by split <;> simp_all
      rw [if_pos h, h, if_pos hmem, Function.update_self]
    · have hiff : (k' ∈ if k ∈ keys then keys else keys ++ [k]) ↔ k' ∈ keys := by
        split
        · rfl
        · simp [h]
      rw [if_neg h, Function.update_of_ne h]
      simp only [hiff]

theorem fold_put_fresh (xs updates : List α) (hnodup : ((xs ++ updates).map key).Nodup) :
    updates.foldl (putBy key) xs = xs ++ updates := by
  induction updates generalizing xs with
  | nil => simp
  | cons x updates ih =>
      have hfresh : xs.findIdx? (fun y => key y = key x) = none := by
        rw [findIdx?_eq_none_iff]
        intro y hy
        rw [map_append, map_cons, nodup_append] at hnodup
        simpa using hnodup.2.2 (key y) (mem_map_of_mem hy) (key x) (by simp)
      have hput : putBy key xs x = xs ++ [x] := by simp [putBy, hfresh]
      rw [foldl_cons, hput, ih _ (by simpa using hnodup), append_assoc]
      rfl

theorem put_by_same (hnodup : (xs.map key).Nodup) {x : α} (h : x ∈ xs) :
    putBy key xs x = xs := by
  refine eq_of_find_by (put_by_nodup hnodup x) ?_ fun k => ?_
  · rw [put_by_keys, if_pos (mem_map_of_mem h)]
  · rw [find_put_by]
    split
    · rename_i heq
      rw [heq, find_by_of_mem hnodup h]
    · rfl

/-! ## Sums over slots -/

theorem sum_map_modify {α : Type} (f : α → Nat) (change : α → α) {xs : List α} {index : Nat} {x : α}
    (h : xs[index]? = some x) :
    ((xs.modify index change).map f).sum + f x = (xs.map f).sum + f (change x) := by
  induction xs generalizing index with
  | nil => simp at h
  | cons y ys ih =>
      cases index with
      | zero =>
          obtain rfl : y = x := by simpa using h
          simp only [modify_zero_cons, map_cons, sum_cons]
          omega
      | succ index =>
          have hrest := ih (by simpa using h)
          simp only [modify_succ_cons, map_cons, sum_cons]
          omega

theorem count_modify {α : Type} {p : α → Bool} {change : α → α} {xs : List α} {index : Nat} {x : α}
    (h : xs[index]? = some x) (hold : p x = false) (hnew : p (change x) = true) :
    (xs.modify index change).countP p = xs.countP p + 1 := by
  induction xs generalizing index with
  | nil => simp at h
  | cons y ys ih =>
      cases index with
      | zero =>
          obtain rfl : y = x := by simpa using h
          simp [modify_zero_cons, hold, hnew]
      | succ index =>
          simp only [modify_succ_cons, countP_cons, ih (by simpa using h)]
          omega

end Akasha.Lib

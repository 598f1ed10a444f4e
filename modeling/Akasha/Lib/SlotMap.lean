import Akasha.Lib.Slots
import Akasha.Lib.Tally

/-!
# Lists with a map from keys to slots

`Indexed key xs slots` says that the map finds the slot of each key and nothing else, so keys and
slots determine each other. Elements are appended, or removed by moving the last element into the
hole (`swapRemove`), after which the map has to follow the moved element (`reslot`).
-/

namespace Akasha.Lib

open List

variable {α κ : Type}

/-! ## Removal by the last element -/

/-- Swap an element with the last one and drop it. -/
def swapRemove (xs : List α) (slot : Nat) : List α :=
  match xs.getLast? with
  | some last => (xs.set slot last).dropLast
  | none => xs

theorem swap_remove_concat_lt (xs : List α) (last : α) {slot : Nat} (h : slot < xs.length) :
    swapRemove (xs ++ [last]) slot = xs.set slot last := by
  unfold swapRemove
  rw [getLast?_append, getLast?_singleton]
  simp only [Option.some_or]
  rw [set_append_left _ _ h, dropLast_concat]

theorem swap_remove_concat_self (xs : List α) (last : α) :
    swapRemove (xs ++ [last]) xs.length = xs := by
  unfold swapRemove
  rw [getLast?_append, getLast?_singleton]
  simp only [Option.some_or]
  rw [set_append_right _ _ (Nat.le_refl _), Nat.sub_self, set_cons_zero,
    dropLast_concat]

/-- The other elements stay. -/
theorem swap_remove_perm {xs : List α} {slot : Nat} {x : α} (h : xs[slot]? = some x) :
    xs.Perm (x :: swapRemove xs slot) := by
  have hlt := (List.getElem?_eq_some_iff.1 h).1
  rcases List.eq_nil_or_concat xs with rfl | ⟨front, last, rfl⟩
  · cases h
  · rw [concat_eq_append] at *
    by_cases hslot : slot < front.length
    · rw [swap_remove_concat_lt front last hslot]
      rw [List.getElem?_append_left hslot] at h
      obtain ⟨_, hx⟩ := List.getElem?_eq_some_iff.1 h
      have hset : front.set slot last =
          front.take slot ++ last :: front.drop (slot + 1) :=
        set_eq_take_append_cons_drop.trans (if_pos hslot)
      have hfront : front = front.take slot ++ x :: front.drop (slot + 1) := by
        rw [← hx, getElem_cons_drop, take_append_drop]
      rw [hset]
      conv_lhs => rw [hfront]
      refine (perm_append_singleton last _).trans ?_
      exact ((perm_middle).cons last).trans ((List.Perm.swap _ _ _).trans
        ((perm_middle).symm.cons x))
    · obtain rfl : slot = front.length := by
        rw [length_append, length_singleton] at hlt
        omega
      have hlast : (front ++ [last])[front.length]? = some last := by simp
      obtain rfl : last = x := Option.some.inj (hlast.symm.trans h)
      rw [swap_remove_concat_self]
      exact perm_append_singleton last front

/-! ## The map from keys to slots -/

variable [Ord κ] [Std.TransOrd κ] [Std.LawfulEqOrd κ] [DecidableEq κ] {key : α → κ}

/-- The map finds the slot of each key and nothing else. -/
def Indexed (key : α → κ) (xs : List α) (slots : Std.ExtTreeMap κ Nat) : Prop :=
  ∀ (k : κ) (slot : Nat), slots[k]? = some slot ↔ ∃ x, xs[slot]? = some x ∧ key x = k

/-- Let the map follow the element that has moved into a slot. -/
def reslot (key : α → κ) (xs : List α) (slot : Nat) (slots : Std.ExtTreeMap κ Nat) :
    Std.ExtTreeMap κ Nat :=
  match xs[slot]? with
  | some moved => slots.insert (key moved) slot
  | none => slots

variable {xs : List α} {slots : Std.ExtTreeMap κ Nat}

omit [Std.LawfulEqOrd κ] [DecidableEq κ] in
theorem indexed_empty : Indexed key [] (∅ : Std.ExtTreeMap κ Nat) := by
  intro k slot
  simp

omit [Std.LawfulEqOrd κ] [DecidableEq κ] in
theorem indexed_slot_eq (h : Indexed key xs slots) {i j : Nat} {x y : α} (hx : xs[i]? = some x)
    (hy : xs[j]? = some y) (hkey : key x = key y) : i = j := by
  have hi := (h _ _).2 ⟨x, hx, rfl⟩
  have hj := (h _ _).2 ⟨y, hy, rfl⟩
  rw [hkey] at hi
  exact Option.some.inj (hi.symm.trans hj)

omit [Std.LawfulEqOrd κ] [DecidableEq κ] in
theorem indexed_nodup (h : Indexed key xs slots) : (xs.map key).Nodup := by
  rw [List.Nodup, pairwise_map, pairwise_iff_getElem]
  intro i j hi hj hlt heq
  have := indexed_slot_eq h (getElem?_eq_getElem hi) (getElem?_eq_getElem hj) heq
  omega

omit [Std.LawfulEqOrd κ] [DecidableEq κ] in
theorem indexed_none_iff (h : Indexed key xs slots) {k : κ} :
    slots[k]? = none ↔ k ∉ xs.map key := by
  constructor
  · intro hnone hmem
    obtain ⟨x, hx, rfl⟩ := mem_map.1 hmem
    obtain ⟨slot, hslot⟩ := mem_iff_getElem?.1 hx
    rw [(h _ _).2 ⟨x, hslot, rfl⟩] at hnone
    cases hnone
  · intro hmem
    refine Option.eq_none_iff_forall_ne_some.2 fun slot hslot => hmem ?_
    obtain ⟨x, hx, rfl⟩ := (h _ _).1 hslot
    exact mem_map_of_mem (mem_of_getElem? hx)

omit [Std.LawfulEqOrd κ] in
theorem indexed_find (h : Indexed key xs slots) (k : κ) :
    (slots[k]?).bind (xs[·]?) = findBy key k xs := by
  cases hslot : slots[k]? with
  | none => exact (find_by_none.2 ((indexed_none_iff h).1 hslot)).symm
  | some slot =>
      obtain ⟨x, hx, rfl⟩ := (h k slot).1 hslot
      rw [Option.bind_some, hx]
      exact (find_by_of_mem (indexed_nodup h) (mem_of_getElem? hx)).symm

/-- A new element takes the next slot. -/
theorem indexed_push (h : Indexed key xs slots) {x : α} (hnew : key x ∉ xs.map key) :
    Indexed key (xs ++ [x]) (slots.insert (key x) xs.length) := by
  intro k slot
  rw [get_insert]
  by_cases hk : k = key x
  · subst hk
    rw [if_pos rfl, Option.some.injEq]
    constructor
    · rintro rfl
      exact ⟨x, by rw [getElem?_append_right (Nat.le_refl _), Nat.sub_self]; rfl, rfl⟩
    · rintro ⟨y, hy, hkey⟩
      by_contra hne
      have hlt := (List.getElem?_eq_some_iff.1 hy).1
      rw [List.length_append, List.length_singleton] at hlt
      rw [getElem?_append_left (by omega)] at hy
      exact hnew (hkey ▸ mem_map_of_mem (mem_of_getElem? hy))
  · rw [if_neg hk, h]
    refine exists_congr fun y => and_congr_left fun hkey => ?_
    by_cases hlt : slot < xs.length
    · rw [getElem?_append_left hlt]
    · rw [getElem?_append_right (Nat.le_of_not_lt hlt), getElem?_eq_none (by omega)]
      refine ⟨nofun, fun hy => ?_⟩
      obtain rfl := mem_singleton.1 (mem_of_getElem? hy)
      exact absurd hkey.symm hk

omit [Std.LawfulEqOrd κ] [DecidableEq κ] in
theorem indexed_modify (h : Indexed key xs slots) {f : α → α} (hf : ∀ x, key (f x) = key x)
    (slot : Nat) : Indexed key (xs.modify slot f) slots := by
  intro k other
  rw [h, getElem?_modify]
  have hkey : ∀ x, key (if slot = other then f x else x) = key x := by
    intro x
    split
    · exact hf x
    · rfl
  constructor
  · rintro ⟨x, hx, rfl⟩
    exact ⟨_, by rw [hx]; rfl, hkey x⟩
  · rintro ⟨y, hy, rfl⟩
    obtain ⟨x, hx, rfl⟩ := Option.map_eq_some_iff.1 hy
    exact ⟨x, hx, (hkey x).symm⟩

/-- The last element moves into the slot of the removed one, and the map follows it. -/
theorem indexed_swap_remove (h : Indexed key xs slots) {slot : Nat} {x : α}
    (hx : xs[slot]? = some x) :
    Indexed key (swapRemove xs slot)
      (reslot key (swapRemove xs slot) slot (slots.erase (key x))) := by
  have hlt := (List.getElem?_eq_some_iff.1 hx).1
  rcases List.eq_nil_or_concat xs with rfl | ⟨front, last, rfl⟩
  · cases hx
  rw [concat_eq_append] at *
  rw [length_append, length_singleton] at hlt
  have hlast : (front ++ [last])[front.length]? = some last := by simp
  have hfront : ∀ {o : Nat}, o < front.length → (front ++ [last])[o]? = front[o]? :=
    fun ho => getElem?_append_left ho
  unfold reslot
  by_cases hslot : slot < front.length
  · -- The last element fills the hole.
    rw [swap_remove_concat_lt front last hslot, getElem?_set_self hslot]
    have hne : key x ≠ key last := fun heq => by
      have := indexed_slot_eq h hx hlast heq
      omega
    intro k other
    rw [get_insert, get_erase]
    by_cases hk : k = key last
    · rw [if_pos hk, Option.some.injEq]
      constructor
      · rintro rfl
        exact ⟨last, getElem?_set_self hslot, hk.symm⟩
      · rintro ⟨y, hy, hkey⟩
        by_contra hother
        rw [List.getElem?_set_ne hother] at hy
        have holt := (List.getElem?_eq_some_iff.1 hy).1
        have := indexed_slot_eq h ((hfront holt).trans hy) hlast (hkey.trans hk)
        omega
    · rw [if_neg hk]
      by_cases hkx : k = key x
      · rw [if_pos hkx]
        refine ⟨nofun, ?_⟩
        rintro ⟨y, hy, hkey⟩
        by_cases hother : slot = other
        · rw [← hother, getElem?_set_self hslot, Option.some.injEq] at hy
          exact absurd (hkey.symm.trans (congrArg key hy.symm)) hk
        · rw [List.getElem?_set_ne hother] at hy
          have holt := (List.getElem?_eq_some_iff.1 hy).1
          exact absurd (indexed_slot_eq h hx ((hfront holt).trans hy) (hkx.symm.trans hkey.symm))
            hother
      · rw [if_neg hkx, h]
        refine exists_congr fun y => and_congr_left fun hkey => ?_
        by_cases hother : slot = other
        · rw [← hother, hx, getElem?_set_self hslot]
          constructor
          · exact fun heq => absurd (hkey.symm.trans (congrArg key (Option.some.inj heq).symm)) hkx
          · exact fun heq => absurd (hkey.symm.trans (congrArg key (Option.some.inj heq).symm)) hk
        · rw [getElem?_set_ne hother]
          by_cases holt : other < front.length
          · rw [hfront holt]
          · rw [getElem?_eq_none (Nat.le_of_not_lt holt)]
            refine ⟨fun hy => ?_, nofun⟩
            rw [getElem?_append_right (Nat.le_of_not_lt holt)] at hy
            obtain rfl := mem_singleton.1 (mem_of_getElem? hy)
            exact absurd hkey.symm hk
  · -- The removed element was the last one.
    obtain rfl : slot = front.length := by omega
    obtain rfl : last = x := Option.some.inj (hlast.symm.trans hx)
    rw [swap_remove_concat_self, getElem?_eq_none (Nat.le_refl _)]
    intro k other
    rw [get_erase]
    by_cases hk : k = key last
    · rw [if_pos hk]
      refine ⟨nofun, ?_⟩
      rintro ⟨y, hy, hkey⟩
      have holt := (List.getElem?_eq_some_iff.1 hy).1
      have := indexed_slot_eq h ((hfront holt).trans hy) hlast (hkey.trans hk)
      omega
    · rw [if_neg hk, h]
      refine exists_congr fun y => and_congr_left fun hkey => ?_
      by_cases holt : other < front.length
      · rw [hfront holt]
      · rw [getElem?_eq_none (Nat.le_of_not_lt holt),
          getElem?_append_right (Nat.le_of_not_lt holt)]
        refine ⟨fun hy => ?_, nofun⟩
        obtain rfl := mem_singleton.1 (mem_of_getElem? hy)
        exact absurd hkey.symm hk

theorem find_by_swap_remove (h : Indexed key xs slots) {slot : Nat} {x : α}
    (hx : xs[slot]? = some x) {k : κ} (hk : key x ≠ k) :
    findBy key k (swapRemove xs slot) = findBy key k xs := by
  have hperm := swap_remove_perm hx
  have hremoved := indexed_nodup (indexed_swap_remove h hx)
  cases hfind : findBy key k xs with
  | none =>
      refine find_by_none.2 fun hmem => find_by_none.1 hfind ?_
      exact (hperm.map key).mem_iff.2 (mem_cons_of_mem _ hmem)
  | some y =>
      have hkey := find_by_key hfind
      rcases mem_cons.1 (hperm.mem_iff.1 (mem_of_find_by hfind)) with rfl | hmem
      · exact absurd hkey hk
      · rw [← hkey]
        exact find_by_of_mem hremoved hmem

end Akasha.Lib

import Akasha.Lib.Except
import Mathlib.Data.List.Perm.Basic
import Std.Data.ExtTreeMap

/-!
# Maps and their items

A map is determined by its items in any order. Reading the items back one by one, each from some
encoding of it, gives the map.
-/

namespace Akasha.Lib

variable {κ β : Type} [Ord κ] [Std.TransOrd κ] [Std.LawfulEqOrd κ] [DecidableEq κ]

variable {items : List (κ × β)}

/-- The map of its own items, in any order. -/
theorem of_list_items {map : Std.ExtTreeMap κ β compare} (h : items.Perm map.toList) :
    Std.ExtTreeMap.ofList items compare = map := by
  have hdistinct : items.Pairwise fun a b => ¬ compare a.1 b.1 = .eq :=
    (h.pairwise_iff fun hne heq => hne (Std.OrientedCmp.eq_symm heq)).2
      Std.ExtTreeMap.distinct_keys_toList
  have hsome : ∀ key value, (key, value) ∈ items ↔ map[key]? = some value := fun key value =>
    h.mem_iff.trans Std.ExtTreeMap.mem_toList_iff_getElem?_eq_some
  apply Std.ExtTreeMap.ext_getElem?
  intro key
  cases hvalue : map[key]? with
  | some value =>
      exact Std.ExtTreeMap.getElem?_ofList_of_mem Std.ReflCmp.compare_self hdistinct
        ((hsome key value).2 hvalue)
  | none =>
      refine Std.ExtTreeMap.getElem?_ofList_of_contains_eq_false ?_
      rw [Bool.eq_false_iff, ne_eq, List.contains_iff_mem, List.mem_map]
      intro hmem
      obtain ⟨item, hitem, rfl⟩ := hmem
      rw [(hsome item.1 item.2).1 hitem] at hvalue
      cases hvalue

theorem read_items {ε α : Type} {f : α → Except ε (κ × β)} {encode : κ × β → α} {xs : List α}
    {map : Std.ExtTreeMap κ β compare} (hperm : xs.Perm (map.toList.map encode))
    (h : ∀ item ∈ map.toList, f (encode item) = .ok item) :
    ∃ items, xs.mapM f = .ok items ∧ Std.ExtTreeMap.ofList items compare = map := by
  have hread : List.Forall₂ (fun x item => f x = .ok item) (map.toList.map encode) map.toList := by
    rw [List.forall₂_map_left_iff, List.forall₂_same]
    exact h
  obtain ⟨items, hitems, hsame⟩ := List.perm_comp_forall₂ hperm hread
  exact ⟨items, map_m_ok.2 hitems, of_list_items hsame⟩

theorem mem_of_get_of_list {key : κ} {value : β}
    (h : (Std.ExtTreeMap.ofList items compare)[key]? = some value) : (key, value) ∈ items := by
  rw [Std.ExtTreeMap.ofList_eq_insertMany_empty, Std.ExtTreeMap.getElem?_insertMany_list,
    List.findSomeRev?_eq_findSome?_reverse, Std.ExtTreeMap.getElem?_empty, Option.or_none] at h
  obtain ⟨⟨found, other⟩, hitem, hfound⟩ := List.exists_of_findSome?_eq_some h
  simp only [Option.ite_none_right_eq_some, Option.some.injEq] at hfound
  obtain ⟨heq, rfl⟩ := hfound
  obtain rfl := Std.LawfulEqCmp.eq_of_compare heq
  exact List.mem_reverse.1 hitem

theorem mem_of_list_iff {key : κ} :
    key ∈ Std.ExtTreeMap.ofList items compare ↔ key ∈ items.map Prod.fst := by
  rw [Std.ExtTreeMap.mem_ofList, List.contains_iff_mem]

end Akasha.Lib

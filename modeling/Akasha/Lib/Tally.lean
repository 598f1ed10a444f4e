import Mathlib.Data.List.Nodup
import Mathlib.Data.List.Perm.Subperm
import Std.Data.ExtTreeMap

/-!
# Counting the entries of a map

`tally p t` counts the entries of a map whose value satisfies `p`. A counter that is kept beside a
map is right when it is such a tally; `tally_erase` and `tally_insert` say how it changes with the
map.
-/

namespace Akasha.Lib

open Std.ExtTreeMap List

variable {κ β : Type} [Ord κ] [Std.TransOrd κ] [Std.LawfulEqOrd κ]

/-- The number of entries whose value satisfies `p`. -/
def tally (p : β → Bool) (t : Std.ExtTreeMap κ β) : Nat :=
  t.toList.countP fun entry => p entry.2

theorem to_list_nodup (t : Std.ExtTreeMap κ β) : t.toList.Nodup := by
  refine distinct_keys_toList.imp fun {a b} hne heq => ?_
  rw [heq] at hne
  exact hne Std.ReflCmp.compare_self

theorem get_erase (t : Std.ExtTreeMap κ β) (k other : κ) [DecidableEq κ] :
    (t.erase k)[other]? = if other = k then none else t[other]? := by
  rw [Std.ExtTreeMap.getElem?_erase]
  by_cases heq : k = other
  · rw [if_pos (heq ▸ Std.ReflCmp.compare_self), if_pos heq.symm]
  · rw [if_neg fun hcmp => heq (Std.LawfulEqCmp.eq_of_compare hcmp), if_neg (Ne.symm heq)]

theorem get_insert (t : Std.ExtTreeMap κ β) (k : κ) (v : β) (other : κ) [DecidableEq κ] :
    (t.insert k v)[other]? = if other = k then some v else t[other]? := by
  rw [Std.ExtTreeMap.getElem?_insert]
  by_cases heq : k = other
  · rw [if_pos (heq ▸ Std.ReflCmp.compare_self), if_pos heq.symm]
  · rw [if_neg fun hcmp => heq (Std.LawfulEqCmp.eq_of_compare hcmp), if_neg (Ne.symm heq)]

variable [DecidableEq κ]

theorem to_list_perm_erase {t : Std.ExtTreeMap κ β} {k : κ} {v : β} (h : t[k]? = some v) :
    t.toList.Perm ((k, v) :: (t.erase k).toList) := by
  refine (perm_ext_iff_of_nodup (to_list_nodup t) ?_).2 fun entry => ?_
  · refine nodup_cons.2 ⟨fun hmem => ?_, to_list_nodup _⟩
    rw [Std.ExtTreeMap.mem_toList_iff_getElem?_eq_some, get_erase, if_pos rfl] at hmem
    cases hmem
  · rw [mem_cons, mem_toList_iff_getElem?_eq_some,
      mem_toList_iff_getElem?_eq_some, get_erase]
    obtain ⟨key, value⟩ := entry
    by_cases heq : key = k
    · subst heq
      simp [h, eq_comm]
    · simp [heq]

omit [DecidableEq κ] in
/-- A tally counts the keys whose value satisfies `p`. -/
theorem tally_eq_length {p : β → Bool} {t : Std.ExtTreeMap κ β} {keys : List κ}
    (hnodup : keys.Nodup) (hkeys : ∀ k, k ∈ keys ↔ ∃ v, t[k]? = some v ∧ p v = true) :
    tally p t = keys.length := by
  unfold tally
  rw [countP_eq_length_filter, ← length_map (f := Prod.fst)]
  refine List.Perm.length_eq ((perm_ext_iff_of_nodup ?_ hnodup).2 fun k => ?_)
  · refine List.Nodup.map_on (fun entry hentry other hother heq => ?_)
      ((to_list_nodup t).filter _)
    have hget := mem_toList_iff_getElem?_eq_some.1 (mem_filter.1 hentry).1
    have hother' := mem_toList_iff_getElem?_eq_some.1 (mem_filter.1 hother).1
    rw [← heq, hget] at hother'
    exact Prod.ext heq (Option.some.inj hother')
  · rw [hkeys, mem_map]
    constructor
    · rintro ⟨⟨key, v⟩, hentry, rfl⟩
      obtain ⟨hmem, hp⟩ := mem_filter.1 hentry
      exact ⟨v, mem_toList_iff_getElem?_eq_some.1 hmem, hp⟩
    · rintro ⟨v, hget, hp⟩
      exact ⟨(k, v), mem_filter.2
        ⟨Std.ExtTreeMap.mem_toList_iff_getElem?_eq_some.2 hget, hp⟩, rfl⟩

theorem tally_erase (p : β → Bool) (t : Std.ExtTreeMap κ β) (k : κ) :
    tally p t = ((t[k]?).elim 0 fun v => (p v).toNat) + tally p (t.erase k) := by
  cases hget : t[k]? with
  | none =>
      have hsame : t.erase k = t := by
        refine ext_getElem? fun other => ?_
        rw [get_erase]
        split
        · rename_i heq
          rw [heq, hget]
        · rfl
      rw [hsame, Option.elim_none, Nat.zero_add]
  | some v =>
      unfold tally
      rw [(to_list_perm_erase hget).countP_eq, countP_cons, Option.elim_some]
      cases p v <;> simp [Nat.add_comm]

theorem tally_insert (p : β → Bool) (t : Std.ExtTreeMap κ β) (k : κ) (v : β) :
    tally p (t.insert k v) = (p v).toNat + tally p (t.erase k) := by
  rw [tally_erase p (t.insert k v) k, get_insert, if_pos rfl, Option.elim_some]
  have hsame : (t.insert k v).erase k = t.erase k := by
    refine ext_getElem? fun other => ?_
    rw [get_erase, get_erase, get_insert]
    split
    · rfl
    · rfl
  rw [hsame]

end Akasha.Lib

import Mathlib.Data.List.Nodup
import Mathlib.Data.List.Perm.Subperm
import Mathlib.Data.List.Sort
import Mathlib.Logic.Function.Basic

/-!
# Adjacency lists with edges in both directions

An adjacency gives every node the ordered list of its neighbours. `Linked` says that its edges go
both ways, that no list repeats a node and that no node is its own neighbour. `relink` gives two
nodes new lists and takes each of them out of the lists of the nodes it no longer names. Between
the writes the adjacency is not symmetric; `relink_linked` says that it is in the end, provided
that the two new lists agree on the edge between the two nodes and add no other. `Confined`
collects what a sequence of such steps leaves alone. A list of edges is closed under reversal when
the sorted keys of the edges are those of their reverses: `sorted_keys_eq_iff`.
-/

namespace Akasha.Lib

open Function List

variable {α : Type} [DecidableEq α]

omit [DecidableEq α] in
/-- Edges go both ways; no list repeats a node or names its own. -/
structure Linked (adj : α → List α) : Prop where
  nodup : ∀ x, (adj x).Nodup
  irrefl : ∀ x, x ∉ adj x
  symm : ∀ x y, y ∈ adj x → x ∈ adj y

/-- Take a node out of the lists of some nodes. -/
def unlink (adj : α → List α) (x : α) : List α → α → List α
  | [] => adj
  | y :: ys => unlink (update adj y ((adj y).erase x)) x ys

/-- Give `a` and `b` new lists and drop the reverse of every edge that they no longer have. -/
def relink (adj : α → List α) (a b : α) (as bs : List α) : α → List α :=
  let written := update (update adj a as) b bs
  unlink (unlink written a ((adj a).filter (· ∉ as))) b ((adj b).filter (· ∉ bs))

variable {adj : α → List α} {a b x y z : α} {as bs ys : List α}

theorem unlink_sublist (adj : α → List α) (x : α) (ys : List α) (y : α) :
    List.Sublist (unlink adj x ys y) (adj y) := by
  induction ys generalizing adj with
  | nil => exact List.Sublist.refl _
  | cons z zs ih =>
      rw [unlink]
      refine (ih _).trans ?_
      rw [update_apply]
      split
      · rename_i heq
        rw [heq]
        exact erase_sublist
      · exact List.Sublist.refl _

theorem mem_unlink (h : ∀ y, (adj y).Nodup) :
    z ∈ unlink adj x ys y ↔ z ∈ adj y ∧ (z = x → y ∉ ys) := by
  induction ys generalizing adj with
  | nil => simp [unlink]
  | cons w ws ih =>
      have hnodup : ∀ y, (update adj w ((adj w).erase x) y).Nodup := by
        intro y
        rw [update_apply]
        split
        · exact (h w).erase x
        · exact h y
      rw [unlink, ih hnodup, update_apply]
      by_cases heq : y = w
      · subst heq
        simp only [if_true, (h y).mem_erase_iff, mem_cons, true_or, not_true_eq_false]
        exact ⟨fun hand => ⟨hand.1.2, fun hz => absurd hz hand.1.1⟩,
          fun hand => ⟨⟨hand.2, hand.1⟩, fun hz => absurd hz hand.2⟩⟩
      · simp only [heq, if_false, mem_cons, false_or]

section Relink

variable (h : Linked adj) (hab : a ≠ b) (has : as.Nodup) (hbs : bs.Nodup)

include h has hbs in
private theorem written_nodup (y : α) :
    (update (update adj a as) b bs y).Nodup := by
  rw [update_apply, update_apply]
  split
  · exact hbs
  · split
    · exact has
    · exact h.nodup y

include h has hbs in
theorem mem_relink : z ∈ relink adj a b as bs y ↔
    z ∈ update (update adj a as) b bs y ∧
      (z = a → y ∈ adj a → y ∈ as) ∧ (z = b → y ∈ adj b → y ∈ bs) := by
  have hfirst : ∀ y, (unlink (update (update adj a as) b bs) a
      ((adj a).filter (· ∉ as)) y).Nodup := fun y =>
    (written_nodup h has hbs y).sublist (unlink_sublist _ _ _ _)
  unfold relink
  rw [mem_unlink hfirst, mem_unlink (written_nodup h has hbs), and_assoc]
  simp only [mem_filter, decide_eq_true_eq, not_and, not_not]

include h hab has hbs in
/-- Edges still go both ways when the two nodes agree on the edge between them and take up no
other. -/
theorem relink_linked (hadd : ∀ x ∈ as, x = b ∨ x ∈ adj a) (hadd' : ∀ x ∈ bs, x = a ∨ x ∈ adj b)
    (hself : a ∉ as) (hself' : b ∉ bs) (hedge : b ∈ as ↔ a ∈ bs) :
    Linked (relink adj a b as bs) := by
  have hmem : ∀ y z, z ∈ relink adj a b as bs y ↔ _ := fun y z => mem_relink h has hbs
  have hat : ∀ z, z ∈ relink adj a b as bs a ↔ z ∈ as := by
    intro z
    rw [hmem, update_of_ne hab, update_self]
    refine and_iff_left_of_imp fun hz => ⟨fun heq => absurd (heq ▸ hz) hself, fun heq _ => ?_⟩
    exact hedge.1 (heq ▸ hz)
  have hbt : ∀ z, z ∈ relink adj a b as bs b ↔ z ∈ bs := by
    intro z
    rw [hmem, update_self]
    refine and_iff_left_of_imp fun hz => ⟨fun heq _ => ?_, fun heq => absurd (heq ▸ hz) hself'⟩
    exact hedge.2 (heq ▸ hz)
  have hother : ∀ y, y ≠ a → y ≠ b → ∀ z, z ∈ relink adj a b as bs y ↔
      z ∈ adj y ∧ (z = a → y ∈ as) ∧ (z = b → y ∈ bs) := by
    intro y hya hyb z
    rw [hmem, update_of_ne hyb, update_of_ne hya]
    refine and_congr_right fun hz => and_congr ?_ ?_
    · exact forall_congr' fun heq => ⟨fun himp => himp (h.symm y a (heq ▸ hz)), fun hy _ => hy⟩
    · exact forall_congr' fun heq => ⟨fun himp => himp (h.symm y b (heq ▸ hz)), fun hy _ => hy⟩
  refine ⟨fun y => ?_, fun y => ?_, fun y z hz => ?_⟩
  · exact (written_nodup h has hbs y).sublist
      ((unlink_sublist _ _ _ _).trans (unlink_sublist _ _ _ _))
  · by_cases hya : y = a
    · rw [hya, hat]
      exact hself
    · by_cases hyb : y = b
      · rw [hyb, hbt]
        exact hself'
      · rw [hother y hya hyb]
        exact fun hand => h.irrefl y hand.1
  · -- The end that a list was written for decides, then the other end.
    by_cases hya : y = a
    · subst hya
      rw [hat] at hz
      by_cases hzb : z = b
      · subst hzb
        exact (hbt y).2 (hedge.1 hz)
      · have hza : z ≠ y := fun heq => hself (heq ▸ hz)
        rw [hother z hza hzb]
        refine ⟨h.symm y z ((hadd z hz).resolve_left hzb), fun _ => hz, fun heq => ?_⟩
        exact absurd heq hab
    · by_cases hyb : y = b
      · subst hyb
        rw [hbt] at hz
        by_cases hza : z = a
        · subst hza
          exact (hat y).2 (hedge.2 hz)
        · have hzb : z ≠ y := fun heq => hself' (heq ▸ hz)
          rw [hother z hza hzb]
          refine ⟨h.symm y z ((hadd' z hz).resolve_left hza), fun heq => ?_, fun _ => hz⟩
          exact absurd heq.symm hab
      · rw [hother y hya hyb] at hz
        obtain ⟨hz, hzas, hzbs⟩ := hz
        by_cases hza : z = a
        · subst hza
          exact (hat y).2 (hzas rfl)
        · by_cases hzb : z = b
          · subst hzb
            exact (hbt y).2 (hzbs rfl)
          · rw [hother z hza hzb]
            exact ⟨h.symm y z hz, fun heq => absurd heq hya, fun heq => absurd heq hyb⟩

end Relink

theorem length_relink {bound : α → Nat} (h : ∀ y, (adj y).length ≤ bound y)
    (has : as.length ≤ bound a) (hbs : bs.length ≤ bound b) (y : α) :
    (relink adj a b as bs y).length ≤ bound y := by
  have hsub := (unlink_sublist (unlink (update (update adj a as) b bs) a
    ((adj a).filter (· ∉ as))) b ((adj b).filter (· ∉ bs)) y).trans (unlink_sublist _ _ _ _)
  refine Nat.le_trans hsub.length_le ?_
  rw [update_apply, update_apply]
  split
  · rename_i heq
    exact heq ▸ hbs
  · split
    · rename_i heq
      exact heq ▸ has
    · exact h y

/-! ## What steps leave alone -/

omit [DecidableEq α] in
/-- Outside `touched` a list only loses entries, and none that lies outside too. -/
structure Confined (touched : α → Prop) (adj next : α → List α) : Prop where
  sublist : ∀ x, ¬ touched x → List.Sublist (next x) (adj x)
  kept : ∀ x y, ¬ touched x → ¬ touched y → y ∈ adj x → y ∈ next x

omit [DecidableEq α] in
theorem confined_refl (touched : α → Prop) (adj : α → List α) : Confined touched adj adj :=
  ⟨fun _ _ => List.Sublist.refl _, fun _ _ _ _ hmem => hmem⟩

omit [DecidableEq α] in
theorem confined_trans {touched : α → Prop} {next last : α → List α}
    (h : Confined touched adj next) (h' : Confined touched next last) :
    Confined touched adj last :=
  ⟨fun x hx => (h'.sublist x hx).trans (h.sublist x hx),
    fun x y hx hy hmem => h'.kept x y hx hy (h.kept x y hx hy hmem)⟩

theorem relink_confined (h : Linked adj) (has : as.Nodup) (hbs : bs.Nodup) {touched : α → Prop}
    (ha : touched a) (hb : touched b) : Confined touched adj (relink adj a b as bs) := by
  have hwritten : ∀ x, ¬ touched x →
      update (update adj a as) b bs x = adj x := by
    intro x hx
    rw [update_of_ne fun heq => hx (by rw [heq]; exact hb),
      update_of_ne fun heq => hx (by rw [heq]; exact ha)]
  constructor
  · intro x hx
    have hsub := (unlink_sublist (unlink (update (update adj a as) b bs) a
      ((adj a).filter (· ∉ as))) b ((adj b).filter (· ∉ bs)) x).trans (unlink_sublist _ _ _ _)
    rw [hwritten x hx] at hsub
    exact hsub
  · intro x y hx hy hmem
    rw [mem_relink h has hbs, hwritten x hx]
    exact ⟨hmem, fun heq => absurd (heq ▸ ha) hy, fun heq => absurd (heq ▸ hb) hy⟩

omit [DecidableEq α] in
theorem confined_dropped {touched : α → Prop} {next : α → List α} (h : Linked adj)
    (hnext : Linked next) (hconfined : Confined touched adj next) (hx : ¬ touched x)
    (hchanged : next x ≠ adj x) : ∃ c, touched c ∧ x ∈ adj c ∧ x ∉ next c := by
  have hsub := hconfined.sublist x hx
  obtain ⟨c, hc, hlost⟩ : ∃ c ∈ adj x, c ∉ next x := by
    by_contra hnone
    push Not at hnone
    have hperm := (subperm_of_subset (h.nodup x) hnone).length_le
    exact hchanged (hsub.eq_of_length_le hperm)
  refine ⟨c, ?_, h.symm x c hc, fun hmem => hlost (hnext.symm c x hmem)⟩
  by_contra hc'
  exact hlost (hconfined.kept x c hx hc' hc)

/-! ## Edges compared by sorted keys -/

section

variable {ε κ : Type}

theorem merge_sort_eq_iff (r : κ → κ → Prop) [DecidableRel r] [Std.Total r] [IsTrans κ r]
    [Std.Antisymm r] {xs ys : List κ} :
    xs.mergeSort (r · ·) = ys.mergeSort (r · ·) ↔ xs.Perm ys := by
  constructor
  · intro h
    exact (mergeSort_perm xs _).symm.trans (h ▸ mergeSort_perm ys _)
  · intro h
    refine List.Perm.eq_of_pairwise' (pairwise_mergeSort' r xs)
      (pairwise_mergeSort' r ys) ?_
    exact (mergeSort_perm xs _).trans (h.trans (mergeSort_perm ys _).symm)

/-- The keys of some different edges are those of their reverses when each reverse is one of them,
if the keys tell the edges and the reverses apart. -/
theorem sorted_keys_eq_iff (r : κ → κ → Prop) [DecidableRel r] [Std.Total r] [IsTrans κ r]
    [Std.Antisymm r] {edges : List ε} {key : ε → κ} {reverse : ε → ε} (hnodup : edges.Nodup)
    (hreverse : ∀ edge ∈ edges, reverse (reverse edge) = edge)
    (hkey : ∀ edge ∈ edges ++ edges.map reverse, ∀ other ∈ edges ++ edges.map reverse,
      key edge = key other → edge = other) :
    (edges.map key).mergeSort (r · ·) = (edges.map fun edge => key (reverse edge)).mergeSort (r · ·) ↔
      ∀ edge ∈ edges, reverse edge ∈ edges := by
  have hleft : ∀ edge ∈ edges, edge ∈ edges ++ edges.map reverse := fun edge hedge =>
    mem_append_left _ hedge
  have hright : ∀ edge ∈ edges, reverse edge ∈ edges ++ edges.map reverse := fun edge hedge =>
    mem_append_right _ (mem_map_of_mem hedge)
  rw [merge_sort_eq_iff r]
  constructor
  · intro hperm edge hedge
    obtain ⟨other, hother, hsame⟩ := mem_map.1
      (hperm.mem_iff.2 (mem_map_of_mem (f := fun edge => key (reverse edge)) hedge))
    rw [← hkey other (hleft other hother) _ (hright edge hedge) hsame]
    exact hother
  · intro hclosed
    refine (perm_ext_iff_of_nodup ?_ ?_).2 fun k => ?_
    · exact hnodup.map_on fun edge hedge other hother =>
        hkey edge (hleft edge hedge) other (hleft other hother)
    · refine hnodup.map_on fun edge hedge other hother hsame => ?_
      have heq := hkey _ (hright edge hedge) _ (hright other hother) hsame
      rw [← hreverse edge hedge, heq, hreverse other hother]
    · rw [mem_map, mem_map]
      constructor
      · rintro ⟨edge, hedge, rfl⟩
        exact ⟨reverse edge, hclosed edge hedge, by rw [hreverse edge hedge]⟩
      · rintro ⟨edge, hedge, rfl⟩
        exact ⟨reverse edge, hclosed edge hedge, rfl⟩

end

end Akasha.Lib

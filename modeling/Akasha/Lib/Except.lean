import Mathlib.Data.List.Forall2

/-!
# Successful runs of `Except`

Checks in `Except` are written with `require`. The lemmas say what it means that a computation
returned: the equations that take a `do` block apart, and the element-wise reading of
`List.mapM`.
-/

namespace Akasha.Lib

open List

variable {ε α β : Type}

variable {f : α → Except ε β}

theorem bind_ok {x : Except ε α} {b : β} :
    (x >>= f) = .ok b ↔ ∃ a, x = .ok a ∧ f a = .ok b := by
  cases x with
  | error e => simp [bind, Except.bind]
  | ok a => simp [bind, Except.bind]

theorem exists_unit {p : Unit → Prop} : (∃ u, p u) ↔ p () :=
  ⟨fun ⟨_, h⟩ => h, fun h => ⟨(), h⟩⟩

/-- A check on what an option holds is decided by the option, not by the type. -/
instance (priority := high) decidableForallOption {p : α → Prop} [DecidablePred p]
    (o : Option α) : Decidable (∀ a ∈ o, p a) :=
  Option.decidableForallMem o

/-- A check on the items of a list is decided by the list, not by the type. -/
instance (priority := high) decidableForallList {p : α → Prop} [DecidablePred p]
    (items : List α) : Decidable (∀ a ∈ items, p a) :=
  List.decidableBAll p items

/-- Raise `e` unless the condition holds. -/
def require (condition : Prop) [Decidable condition] (e : ε) : Except ε Unit :=
  if condition then .ok () else .error e

theorem require_ok {condition : Prop} [Decidable condition] {e : ε} {u : Unit} :
    require condition e = .ok u ↔ condition := by
  unfold require
  split <;> simp_all

/-- Run a check on the elements in order. -/
def checkEach : List α → (α → Except ε Unit) → Except ε Unit
  | [], _ => .ok ()
  | x :: xs, check => do
      check x
      checkEach xs check

variable {xs : List α}

theorem check_each_ok {check : α → Except ε Unit} {u : Unit} :
    checkEach xs check = .ok u ↔ ∀ x ∈ xs, check x = .ok () := by
  induction xs with
  | nil => simp [checkEach]
  | cons x xs ih => simp only [checkEach, bind_ok, exists_unit, ih, forall_mem_cons]

theorem pure_ok {a b : α} : (pure a : Except ε α) = .ok b ↔ a = b := by
  simp [pure, Except.pure]

theorem map_ok {x : Except ε α} {f : α → β} {b : β} :
    (f <$> x) = .ok b ↔ ∃ a, x = .ok a ∧ f a = b := by
  cases x <;> simp [Functor.map, Except.map]

variable {ys : List β}

theorem map_m_ok :
    xs.mapM f = .ok ys ↔ List.Forall₂ (fun x y => f x = .ok y) xs ys := by
  induction xs generalizing ys with
  | nil => cases ys <;> simp [pure, Except.pure]
  | cons x xs ih =>
      rw [mapM_cons, bind_ok]
      constructor
      · rintro ⟨y, hy, h⟩
        obtain ⟨rest, hrest, h⟩ := bind_ok.1 h
        simp only [pure, Except.pure, Except.ok.injEq] at h
        subst h
        exact .cons hy (ih.1 hrest)
      · intro h
        cases h with
        | cons hy hrest =>
            exact ⟨_, hy, bind_ok.2 ⟨_, ih.2 hrest, rfl⟩⟩

theorem map_m_is_ok :
    (∃ ys, xs.mapM f = .ok ys) ↔ ∀ x ∈ xs, ∃ y, f x = .ok y := by
  simp only [map_m_ok]
  induction xs with
  | nil => exact ⟨fun _ x hx => (not_mem_nil hx).elim, fun _ => ⟨[], .nil⟩⟩
  | cons x xs ih =>
      constructor
      · rintro ⟨ys, h⟩
        cases h with
        | cons hy hrest =>
            intro a ha
            rcases mem_cons.1 ha with rfl | ha
            · exact ⟨_, hy⟩
            · exact ih.1 ⟨_, hrest⟩ a ha
      · intro h
        obtain ⟨y, hy⟩ := h x mem_cons_self
        obtain ⟨ys, hys⟩ := ih.2 fun a ha => h a (mem_cons_of_mem x ha)
        exact ⟨y :: ys, .cons hy hys⟩

theorem map_m_map {g : α → β} (h : ∀ x ∈ xs, f x = .ok (g x)) : xs.mapM f = .ok (xs.map g) := by
  rw [map_m_ok, List.forall₂_map_right_iff, List.forall₂_same]
  exact h

theorem map_m_iff {p : α → Prop} {g : α → β} (h : ∀ x ∈ xs, ∀ y, f x = .ok y ↔ p x ∧ y = g x) :
    xs.mapM f = .ok ys ↔ (∀ x ∈ xs, p x) ∧ ys = xs.map g := by
  constructor
  · intro hall
    have hp : ∀ x ∈ xs, p x := fun x hx => by
      obtain ⟨y, hy⟩ := map_m_is_ok.1 ⟨ys, hall⟩ x hx
      exact ((h x hx y).1 hy).1
    have hmap : xs.mapM f = .ok (xs.map g) :=
      map_m_map fun x hx => (h x hx _).2 ⟨hp x hx, rfl⟩
    exact ⟨hp, Except.ok.inj (hall.symm.trans hmap)⟩
  · rintro ⟨hp, rfl⟩
    exact map_m_map fun x hx => (h x hx _).2 ⟨hp x hx, rfl⟩

theorem enough_for_all {P : α → Nat → Prop} (xs : List α)
    (h : ∀ x ∈ xs, ∃ enough, ∀ rounds, enough ≤ rounds → P x rounds) :
    ∃ enough, ∀ rounds, enough ≤ rounds → ∀ x ∈ xs, P x rounds := by
  induction xs with
  | nil => exact ⟨0, fun _ _ => nofun⟩
  | cons x xs ih =>
      obtain ⟨enough, henough⟩ := ih fun y hy => h y (mem_cons_of_mem _ hy)
      obtain ⟨first, hfirst⟩ := h x mem_cons_self
      refine ⟨max first enough, fun rounds hrounds => forall_mem_cons.2 ⟨?_, ?_⟩⟩
      · exact hfirst rounds (Nat.le_trans (Nat.le_max_left _ _) hrounds)
      · exact henough rounds (Nat.le_trans (Nat.le_max_right _ _) hrounds)

variable {R : α → β → Prop}

theorem forall₂_map_eq {γ : Type} {f : α → γ} {g : β → γ} (h : List.Forall₂ R xs ys)
    (hR : ∀ x ∈ xs, ∀ y, R x y → g y = f x) :
    ys.map g = xs.map f := by
  induction h with
  | nil => rfl
  | cons hxy hrest ih =>
      rw [map_cons, map_cons, hR _ mem_cons_self _ hxy,
        ih fun x hx y => hR x (mem_cons_of_mem _ hx) y]

theorem forall₂_exists_left (h : List.Forall₂ R xs ys) {y : β} (hy : y ∈ ys) : ∃ x ∈ xs, R x y := by
  induction h with
  | nil => exact (not_mem_nil hy).elim
  | cons hxy _ ih =>
      rcases mem_cons.1 hy with rfl | hy
      · exact ⟨_, mem_cons_self, hxy⟩
      · obtain ⟨x, hx, hR⟩ := ih hy
        exact ⟨x, mem_cons_of_mem _ hx, hR⟩

theorem forall₂_exists_right (h : List.Forall₂ R xs ys) {x : α} (hx : x ∈ xs) : ∃ y ∈ ys, R x y :=
  forall₂_exists_left h.flip hx

/-- What the last item has, and each item takes over from a later one, every item has. -/
theorem forall_of_last {r : α → α → Prop} {p : α → Prop} {prior : List α} (hprior : prior.Pairwise r)
    (hback : ∀ x y, r x y → p y → p x) (hlast : ∀ last ∈ prior.getLast?, p last) :
    ∀ x ∈ prior, p x := by
  intro x hx
  obtain ⟨front, last, rfl⟩ : ∃ front last, prior = front ++ [last] :=
    ⟨prior.dropLast, prior.getLast (ne_nil_of_mem hx), (dropLast_append_getLast _).symm⟩
  have hend : p last := hlast last (by simp)
  rcases mem_append.1 hx with hfront | hx
  · exact hback x last ((pairwise_append.1 hprior).2.2 x hfront last (by simp)) hend
  · rwa [mem_singleton.1 hx]

/-- A loop that checks each item against the ones before accepts the items that are valid by
themselves and in order. -/
theorem checked_in_order {r : α → α → Prop} {valid : α → Prop} {prior xs : List α}
    {loop : List α → List α → Except ε Unit} (hnil : ∀ prior, loop prior [] = .ok ())
    (hcons : ∀ prior x xs, prior.Pairwise r → (loop prior (x :: xs) = .ok () ↔
      (valid x ∧ ∀ y ∈ prior, r y x) ∧ loop (prior ++ [x]) xs = .ok ()))
    (hprior : prior.Pairwise r) :
    loop prior xs = .ok () ↔ (∀ x ∈ xs, valid x) ∧ (prior ++ xs).Pairwise r := by
  induction xs generalizing prior with
  | nil => simp [hnil, hprior]
  | cons x xs ih =>
      have hnext : (prior ++ [x]).Pairwise r ↔ ∀ y ∈ prior, r y x := by
        simp [pairwise_append, hprior]
      rw [hcons prior x xs hprior, forall_mem_cons, append_cons prior x xs]
      constructor
      · rintro ⟨⟨hvalid, hbefore⟩, hrest⟩
        obtain ⟨hall, hpairs⟩ := (ih (hnext.2 hbefore)).1 hrest
        exact ⟨⟨hvalid, hall⟩, hpairs⟩
      · rintro ⟨⟨hvalid, hall⟩, hpairs⟩
        have horder := (pairwise_append.1 hpairs).1
        exact ⟨⟨hvalid, hnext.1 horder⟩, (ih horder).2 ⟨hall, hpairs⟩⟩

theorem to_option_some {x : Except ε α} {a : α} : x.toOption = some a ↔ x = .ok a := by
  cases x <;> simp [Except.toOption]

theorem guard_some {condition : Prop} [Decidable condition] {u : Unit} :
    (guard condition : Option Unit) = some u ↔ condition := by
  by_cases h : condition <;> simp [guard, h, failure]

end Akasha.Lib

import Mathlib.Data.Nat.Find
import Mathlib.Data.Nat.Init
import Mathlib.Order.Basic

/-!
# Interleavings of parties

Several parties act on one state, one action at a time, in any order. An `Interleaving` is a
whole such order. Nobody need act at a time, so an order that comes to an end is one in which
nobody acts from then on.

Read `Interleaving.invariant` for what holds at all times, and `Interleaving.leads_to` for what
happens in the end: while a party that is treated fairly has something to do, and each of its
actions brings it nearer to a goal, the goal is reached.
-/

namespace Akasha.Lib

variable {σ α : Type}

/-- An order in which the actions `α` happen to a state; `none` where nobody acts. -/
structure Interleaving (Step : σ → α → σ → Prop) (initial : σ) where
  state : Nat → σ
  action : Nat → Option α
  starts : state 0 = initial
  acts : ∀ n a, action n = some a → Step (state n) a (state (n + 1))
  rests : ∀ n, action n = none → state (n + 1) = state n

namespace Interleaving

variable {Step : σ → α → σ → Prop} {initial : σ} (run : Interleaving Step initial)

/-- The actions of a party are not put off forever: after each time it acts again, unless it has
nothing to do. -/
def Fair (Ready : σ → Prop) (Own : α → Prop) : Prop :=
  ∀ n, ∃ m, n ≤ m ∧ ((∃ a, run.action m = some a ∧ Own a) ∨ ¬ Ready (run.state m))

variable {run} {Inv : σ → Prop}

theorem next_of_acts_or_rests {P : σ → Prop} {n : Nat} (hrest : P (run.state n))
    (hact : ∀ a, run.action n = some a → P (run.state (n + 1))) : P (run.state (n + 1)) := by
  cases haction : run.action n with
  | none =>
      rw [run.rests n haction]
      exact hrest
  | some a => exact hact a haction

theorem invariant (hinitial : Inv initial)
    (hstep : ∀ {s a s'}, Inv s → Step s a s' → Inv s') (n : Nat) : Inv (run.state n) := by
  induction n with
  | zero =>
      rw [run.starts]
      exact hinitial
  | succ n ih => exact next_of_acts_or_rests ih fun a ha => hstep ih (run.acts n a ha)

/-- What holds at a time and survives every action up to a later time holds then, unless an
action between the two reached the goal. -/
theorem holds_until {P : σ → Prop} {Goal : Nat → Prop} {n m : Nat} (hnm : n ≤ m)
    (hP : P (run.state n))
    (hstep : ∀ i a, n ≤ i → i < m → P (run.state i) → run.action i = some a →
      Goal i ∨ P (run.state (i + 1))) :
    (∃ i, n ≤ i ∧ i < m ∧ Goal i) ∨ P (run.state m) := by
  induction m, hnm using Nat.le_induction with
  | base => exact .inr hP
  | succ m hnm ih =>
      obtain ⟨i, hni, him, hgoal⟩ | hm :=
        ih fun i a hni him => hstep i a hni (Nat.lt_succ_of_lt him)
      · exact .inl ⟨i, hni, Nat.lt_succ_of_lt him, hgoal⟩
      cases haction : run.action m with
      | none =>
          right
          rw [run.rests m haction]
          exact hm
      | some a =>
          obtain hgoal | hnext := hstep m a hnm (Nat.lt_succ_self m) hm haction
          · exact .inl ⟨m, hnm, Nat.lt_succ_self m, hgoal⟩
          · exact .inr hnext

theorem holds_to_goal {P : σ → Prop} {Goal : Nat → Prop}
    (hstep : ∀ i a, P (run.state i) → run.action i = some a → Goal i ∨ P (run.state (i + 1)))
    {n : Nat} (hP : P (run.state n)) (hgoal : ∃ m, n ≤ m ∧ Goal m) :
    ∃ m, n ≤ m ∧ Goal m ∧ ∀ i, n ≤ i → i ≤ m → P (run.state i) := by
  classical
  obtain ⟨hn, hfirst⟩ := Nat.find_spec hgoal
  refine ⟨Nat.find hgoal, hn, hfirst, fun i hni hi => ?_⟩
  obtain ⟨j, hnj, hji, hreached⟩ | hPi := @holds_until _ _ _ _ run P Goal _ _ hni hP
    fun j a _ _ => hstep j a
  · exact absurd ⟨hnj, hreached⟩ (Nat.find_min hgoal (hji.trans_le hi))
  · exact hPi

/-- A party that is treated fairly and has something to do while `P` holds reaches the goal, when
no action leads out of `P` but to the goal, no action adds to `rank` and each of its own takes
from it. -/
theorem leads_to {Ready : σ → Prop} {Own : α → Prop} {P : σ → Prop} {Goal : Nat → Prop}
    (hfair : run.Fair Ready Own) (rank : σ → Nat) (hready : ∀ {s}, P s → Ready s)
    (hstep : ∀ i a, P (run.state i) → run.action i = some a → Goal i ∨
      (P (run.state (i + 1)) ∧ rank (run.state (i + 1)) ≤ rank (run.state i) ∧
        (Own a → rank (run.state (i + 1)) < rank (run.state i))))
    {n : Nat} (hP : P (run.state n)) : ∃ m, n ≤ m ∧ Goal m := by
  induction hrank : rank (run.state n) using Nat.strong_induction_on generalizing n with
  | _ bound ih =>
    -- the party's next action, or a time at which it has nothing to do
    obtain ⟨m, hnm, hm⟩ := hfair n
    obtain ⟨i, hni, -, hgoal⟩ | ⟨hPm, hle⟩ := @holds_until _ _ _ _ run
      (fun s => P s ∧ rank s ≤ rank (run.state n)) Goal _ _ hnm ⟨hP, Nat.le_refl _⟩
      fun i a _ _ hPi ha => (hstep i a hPi.1 ha).imp_right fun hnext =>
        ⟨hnext.1, hnext.2.1.trans hPi.2⟩
    · exact ⟨i, hni, hgoal⟩
    obtain ⟨a, haction, hown⟩ | hidle := hm
    · obtain hgoal | ⟨hnext, -, hless⟩ := hstep m a hPm haction
      · exact ⟨m, hnm, hgoal⟩
      have hlt : rank (run.state (m + 1)) < bound := hrank ▸ (hless hown).trans_le hle
      obtain ⟨m', hm', hgoal⟩ := ih _ hlt hnext rfl
      exact ⟨m', (Nat.le_succ_of_le hnm).trans hm', hgoal⟩
    · exact absurd (hready hPm) hidle

end Interleaving

end Akasha.Lib

import Akasha.Lib.Except
import Akasha.Lib.TopK
import Mathlib.Data.Prod.Lex

/-!
# The bounded heap of scored points

`compute/topk.mojo` over any score type. Scores are compared as the code compares floats that
are not NaN, so a linear order on them is all that is used. `BoundedTopK.sorted_entries_offers`
says that the heap keeps the best candidates in order; `BoundedTopK.collect` is the use that every
exact executor makes of it. The sparse searches may meet a NaN, and `BoundedTopK.collectScores` is
the same heap with the comparison that the code makes then.
-/

namespace Akasha.Compute

open Lib

variable {S : Type} [LinearOrder S]

/-! ## Entries in order -/

/-- A point identifier and its score. -/
structure TopKEntry (S : Type) where
  id : Int64
  score : S
deriving DecidableEq

namespace TopKEntry

/-- `_is_better`: by score, and by the smaller identifier among equal scores. -/
def isBetter (smallerIsBetter : Bool) (lhs rhs : TopKEntry S) : Bool :=
  if lhs.score = rhs.score then lhs.id.toInt < rhs.id.toInt
  else if smallerIsBetter then lhs.score < rhs.score
  else rhs.score < lhs.score

/-- `_is_better` where some scores may be NaN: a NaN equals no score and is on no side of one. -/
def isBetterScore (nan : S → Bool) (smallerIsBetter : Bool) (lhs rhs : TopKEntry S) : Bool :=
  !nan lhs.score && !nan rhs.score && isBetter smallerIsBetter lhs rhs

/-- The order of a ranking: nothing later is better. -/
def Ahead (smallerIsBetter : Bool) (lhs rhs : TopKEntry S) : Prop :=
  isBetter smallerIsBetter rhs lhs = false

instance (smallerIsBetter : Bool) :
    DecidableRel (Ahead smallerIsBetter : TopKEntry S → TopKEntry S → Prop) :=
  fun lhs rhs => inferInstanceAs (Decidable (isBetter smallerIsBetter rhs lhs = false))

theorem ahead_true_iff {a b : TopKEntry S} :
    Ahead true a b ↔ toLex (a.score, a.id.toInt) ≤ toLex (b.score, b.id.toInt) := by
  unfold Ahead isBetter
  rw [Prod.Lex.toLex_le_toLex]
  rcases lt_trichotomy a.score b.score with h | h | h
  · simp [h, h.ne', not_lt.2 h.le]
  · simp [h]
  · simp [h, h.ne, h.ne', not_lt.2 h.le]

theorem ahead_false_iff {a b : TopKEntry S} :
    Ahead false a b ↔ toLex (OrderDual.toDual a.score, a.id.toInt) ≤
      toLex (OrderDual.toDual b.score, b.id.toInt) := by
  unfold Ahead isBetter
  rw [Prod.Lex.toLex_le_toLex, OrderDual.toDual_lt_toDual, OrderDual.toDual_inj]
  rcases lt_trichotomy a.score b.score with h | h | h
  · simp [h, h.ne, h.ne', not_lt.2 h.le]
  · simp [h]
  · simp [h, h.ne, not_lt.2 h.le]

instance (smallerIsBetter : Bool) :
    Std.Total (Ahead smallerIsBetter : TopKEntry S → TopKEntry S → Prop) where
  total a b := by
    cases smallerIsBetter
    · rw [ahead_false_iff, ahead_false_iff]
      exact le_total _ _
    · rw [ahead_true_iff, ahead_true_iff]
      exact le_total _ _

instance (smallerIsBetter : Bool) : IsTrans (TopKEntry S) (Ahead smallerIsBetter) where
  trans a b c := by
    cases smallerIsBetter
    · rw [ahead_false_iff, ahead_false_iff, ahead_false_iff]
      exact le_trans
    · rw [ahead_true_iff, ahead_true_iff, ahead_true_iff]
      exact le_trans

instance (smallerIsBetter : Bool) :
    Std.Antisymm (Ahead smallerIsBetter : TopKEntry S → TopKEntry S → Prop) where
  antisymm a b hab hba := by
    -- Entries that are ahead of each other have the same key.
    have hkey : a.score = b.score ∧ a.id.toInt = b.id.toInt := by
      cases smallerIsBetter
      · rw [ahead_false_iff] at hab hba
        simpa using le_antisymm hab hba
      · rw [ahead_true_iff] at hab hba
        simpa using le_antisymm hab hba
    cases a
    cases b
    exact congrArg₂ TopKEntry.mk (Int64.toInt_inj.1 hkey.2) hkey.1

end TopKEntry

/-! ## The heap -/

/-- `BoundedTopK`: the retained entries, worst at the root. -/
structure BoundedTopK (S : Type) where
  capacity : Nat
  smallerIsBetter : Bool
  heap : Array (TopKEntry S)

namespace BoundedTopK

/-- `BoundedTopK(capacity, smaller_is_better)`. -/
def create (capacity : Int) (smallerIsBetter : Bool) : Except String (BoundedTopK S) := do
  require (0 < capacity) "top-k capacity must be positive"
  pure ⟨capacity.toNat, smallerIsBetter, #[]⟩

/-- `offer`. -/
def offer (topk : BoundedTopK S) (candidate : TopKEntry S) : BoundedTopK S :=
  { topk with
    heap := Lib.offer (TopKEntry.isBetter topk.smallerIsBetter) topk.capacity topk.heap candidate }

/-- `sorted_entries`. -/
def sortedEntries (topk : BoundedTopK S) : List (TopKEntry S) :=
  drain (TopKEntry.isBetter topk.smallerIsBetter) topk.heap []

theorem foldl_offer (capacity : Nat) (smallerIsBetter : Bool) (xs : List (TopKEntry S))
    (heap : Array (TopKEntry S)) :
    xs.foldl offer ⟨capacity, smallerIsBetter, heap⟩ =
      ⟨capacity, smallerIsBetter,
        xs.foldl (Lib.offer (TopKEntry.isBetter smallerIsBetter) capacity) heap⟩ := by
  induction xs generalizing heap with
  | nil => rfl
  | cons x xs ih => exact ih _

theorem sorted_entries_offers (capacity : Nat) (smallerIsBetter : Bool)
    (candidates : List (TopKEntry S)) :
    (candidates.foldl offer ⟨capacity, smallerIsBetter, #[]⟩).sortedEntries =
      best (TopKEntry.Ahead smallerIsBetter) capacity candidates := by
  rw [foldl_offer]
  apply drain_offer_all
  intro a b
  simp [TopKEntry.Ahead]

/-- Offer the candidates to a new heap and drain it. -/
def collect (capacity : Int) (smallerIsBetter : Bool) (candidates : List (TopKEntry S)) :
    Except String (List (TopKEntry S)) := do
  let topk ← create capacity smallerIsBetter
  pure (candidates.foldl offer topk).sortedEntries

theorem collect_ok {capacity : Int} (hcapacity : 0 < capacity) (smallerIsBetter : Bool)
    (candidates : List (TopKEntry S)) :
    collect capacity smallerIsBetter candidates =
      .ok (best (TopKEntry.Ahead smallerIsBetter) capacity.toNat candidates) := by
  refine bind_ok.2 ⟨⟨capacity.toNat, smallerIsBetter, #[]⟩,
    bind_ok.2 ⟨(), require_ok.2 hcapacity, rfl⟩, ?_⟩
  rw [sorted_entries_offers]
  rfl

theorem collect_min_ok {k : Int} (hk : 0 < k) (smallerIsBetter : Bool)
    {candidates : List (TopKEntry S)} (hne : candidates ≠ []) :
    collect (min k candidates.length) smallerIsBetter candidates =
      .ok (best (TopKEntry.Ahead smallerIsBetter) k.toNat candidates) := by
  have hlength : 0 < candidates.length := List.length_pos_iff.2 hne
  have hmin : (min k candidates.length).toNat = min k.toNat candidates.length := by omega
  rw [collect_ok (by omega), hmin, best_min_length]

/-- `collect` where some scores may be NaN. -/
def collectScores (nan : S → Bool) (capacity : Int) (smallerIsBetter : Bool)
    (candidates : List (TopKEntry S)) : Except String (List (TopKEntry S)) := do
  require (0 < capacity) "top-k capacity must be positive"
  let better := TopKEntry.isBetterScore nan smallerIsBetter
  pure (drain better (offerAll better capacity.toNat candidates) [])

/-- Without a NaN among the candidates it is the same heap. -/
theorem collect_scores_eq {nan : S → Bool} {candidates : List (TopKEntry S)}
    (h : ∀ candidate ∈ candidates, nan candidate.score = false) (capacity : Int)
    (smallerIsBetter : Bool) :
    collectScores nan capacity smallerIsBetter candidates =
      collect capacity smallerIsBetter candidates := by
  have hbetter : ∀ a ∈ candidates, ∀ b ∈ candidates,
      TopKEntry.isBetterScore nan smallerIsBetter a b =
        TopKEntry.isBetter smallerIsBetter a b := by
    intro a ha b hb
    rw [TopKEntry.isBetterScore, h a ha, h b hb]
    rfl
  simp only [collectScores, collect, create, bind_assoc, pure_bind, foldl_offer,
    drain_offer_all_congr hbetter]
  rfl

end BoundedTopK

end Akasha.Compute

import Akasha.Compute.TopK
import Akasha.Document.Points
import Mathlib.Algebra.Order.Field.Rat

/-!
# Reciprocal rank fusion

`query/fusion.mojo` over exact rationals. `reciprocal_rank_fusion_ok` says what the fusion of two
rankings returns.
-/

namespace Akasha.Query

open Lib Compute

/-- A point with its score. -/
abbrev SearchResult := TopKEntry ℚ

/-- Add to the score of a point, which starts at nothing. Points stay in the order in which they
were first seen. -/
def addScore : List SearchResult → Int64 → ℚ → List SearchResult
  | [], id, contribution => [⟨id, contribution⟩]
  | result :: results, id, contribution =>
      if result.id = id then ⟨id, result.score + contribution⟩ :: results
      else result :: addScore results id contribution

/-- `_accumulate` from a rank on: what each place of a ranking adds to its point. -/
def accumulateFrom (rankConstant : Int) : Nat → List SearchResult → List SearchResult →
    List SearchResult
  | _, scores, [] => scores
  | rank, scores, result :: ranking =>
      accumulateFrom rankConstant (rank + 1)
        (addScore scores result.id (1 / (rankConstant + rank : ℚ))) ranking

/-- `_accumulate`. -/
def accumulate (rankConstant : Int) (scores ranking : List SearchResult) : List SearchResult :=
  accumulateFrom rankConstant 1 scores ranking

/-- `reciprocal_rank_fusion`. -/
def reciprocalRankFusion (dense sparse : List SearchResult) (k rankConstant : Int) :
    Except String (List SearchResult) := do
  require (0 < k) "k must be positive"
  require (0 < rankConstant) "RRF rank constant must be positive"
  let scores := accumulate rankConstant (accumulate rankConstant [] dense) sparse
  if scores = [] then pure []
  else BoundedTopK.collect (min k scores.length) false scores

/-- The fusion returns the best fused scores for every positive `k` and constant. -/
theorem reciprocal_rank_fusion_ok {dense sparse results : List SearchResult}
    {k rankConstant : Int} :
    reciprocalRankFusion dense sparse k rankConstant = .ok results ↔
      0 < k ∧ 0 < rankConstant ∧ results = best (TopKEntry.Ahead false) k.toNat
        (accumulate rankConstant (accumulate rankConstant [] dense) sparse) := by
  unfold reciprocalRankFusion
  simp only [bind_ok, require_ok, exists_unit]
  generalize accumulate rankConstant (accumulate rankConstant [] dense) sparse = scores
  refine and_congr_right fun hk => and_congr_right fun _ => ?_
  by_cases hnil : scores = []
  · subst hnil
    rw [if_pos rfl, pure_ok, best_nil, eq_comm]
  · rw [if_neg hnil, BoundedTopK.collect_min_ok hk false hnil, Except.ok.injEq, eq_comm]

end Akasha.Query

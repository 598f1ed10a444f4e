import Akasha.Index.HnswProgress
import Mathlib.Order.Bounds.Basic

/-!
# The level of a hash

`_sample_level_from_hash` divides its threshold by the multiplier once for each level, so that no
power of the multiplier is ever formed. The level is nevertheless the one of the powers: the
centered uniform `(2 t + 1) / 2 ^ 54` of a hash is at most `m⁻ᵏ` exactly for the levels `k` that
the loop passes (`sample_level_exact`).
-/

namespace Akasha.Hnsw

open Lib

theorem mul_pow_succ_le_iff {bucket divisor threshold : Nat} (h : 0 < divisor) (k : Nat) :
    bucket * divisor ^ (k + 1) ≤ threshold ↔ bucket * divisor ^ k ≤ threshold / divisor := by
  rw [Nat.le_div_iff_mul_le h, Nat.pow_succ, Nat.mul_assoc]

/-- The loop ends at the last level whose power the threshold admits. -/
theorem level_loop_greatest {centeredBucket divisor : UInt64} (hbucket : 0 < centeredBucket.toNat)
    (hdivisor : 0 < divisor.toNat) (rest : Nat) {threshold : UInt64}
    (hle : centeredBucket.toNat ≤ threshold.toNat) :
    IsGreatest {k | k ≤ rest ∧ centeredBucket.toNat * divisor.toNat ^ k ≤ threshold.toNat}
      (levelLoop centeredBucket divisor rest threshold) := by
  have hzero : centeredBucket.toNat * divisor.toNat ^ 0 ≤ threshold.toNat := by
    rwa [Nat.pow_zero, Nat.mul_one]
  induction rest generalizing threshold with
  | zero => exact ⟨⟨Nat.le_refl 0, hzero⟩, fun _ hk => hk.1⟩
  | succ rest ih =>
      have hdiv : (threshold / divisor).toNat = threshold.toNat / divisor.toNat :=
        UInt64.toNat_div threshold divisor
      rw [levelLoop]
      split
      · rename_i hstop
        refine ⟨⟨Nat.zero_le _, hzero⟩, fun k hk => ?_⟩
        -- The first power is already too large.
        have hsmall : threshold.toNat / divisor.toNat < centeredBucket.toNat := by
          rcases hstop with hnone | hlt
          · rw [← hdiv, hnone]
            exact hbucket
          · rw [← hdiv]
            exact UInt64.lt_iff_toNat_lt.1 hlt
        cases k with
        | zero => exact Nat.le_refl 0
        | succ k =>
            have hnext := (mul_pow_succ_le_iff hdivisor k).1 hk.2
            have hpow : centeredBucket.toNat ≤ centeredBucket.toNat * divisor.toNat ^ k :=
              Nat.le_mul_of_pos_right _ (Nat.pow_pos hdivisor)
            omega
      · rename_i hgo
        have hnext : centeredBucket.toNat ≤ (threshold / divisor).toNat := by
          have hnot : ¬ threshold / divisor < centeredBucket := fun hlt => hgo (.inr hlt)
          rw [UInt64.lt_iff_toNat_lt] at hnot
          omega
        obtain ⟨⟨hrest, hpower⟩, hgreatest⟩ := ih hnext (by rwa [Nat.pow_zero, Nat.mul_one])
        refine ⟨⟨Nat.succ_le_succ hrest, ?_⟩, fun k hk => ?_⟩
        · rw [mul_pow_succ_le_iff hdivisor, ← hdiv]
          exact hpower
        · cases k with
          | zero => exact Nat.zero_le _
          | succ k =>
              have hpower := (mul_pow_succ_le_iff hdivisor k).1 hk.2
              rw [← hdiv] at hpower
              exact Nat.succ_le_succ (hgreatest ⟨Nat.le_of_succ_le_succ hk.1, hpower⟩)

theorem centered_bucket (hash : UInt64) :
    (((hash >>> 11) <<< 1) + 1).toNat = 2 * (hash.toNat / 2 ^ 11) + 1 := by
  have hlt := hash.toNat_lt
  have htop : (hash >>> 11).toNat = hash.toNat / 2 ^ 11 := by
    rw [UInt64.toNat_shiftRight]
    exact Nat.shiftRight_eq_div_pow _ _
  have hshift : ((hash >>> 11) <<< 1).toNat = 2 * (hash.toNat / 2 ^ 11) := by
    rw [UInt64.toNat_shiftLeft, htop, Nat.shiftLeft_eq]
    show hash.toNat / 2 ^ 11 * 2 ^ 1 % 2 ^ 64 = _
    omega
  rw [UInt64.toNat_add, hshift, show (1 : UInt64).toNat = 1 from rfl]
  omega

/-- The variable `threshold` of the loop after some rounds. -/
def thresholdAfter (divisor : UInt64) (rounds : Nat) : UInt64 :=
  Nat.repeat (· / divisor) rounds ((1 : UInt64) <<< 54)

theorem threshold_after (divisor : UInt64) (rounds : Nat) :
    (thresholdAfter divisor rounds).toNat = 2 ^ 54 / divisor.toNat ^ rounds := by
  induction rounds with
  | zero => rw [Nat.pow_zero, Nat.div_one]; rfl
  | succ rounds ih =>
      show (thresholdAfter divisor rounds / divisor).toNat = _
      rw [UInt64.toNat_div, ih, Nat.div_div_eq_div_mul, ← Nat.pow_succ]

/-- The level of a hash is the largest one within the maximum whose power of the multiplier the
centered bucket admits. The bucket, the divisor and all thresholds are the numbers that unbounded
arithmetic computes. -/
theorem sample_level_exact (hash : UInt64) {m maximum : Int64} (hm : 2 ≤ m)
    (hmaximum : 0 ≤ maximum) :
    (∃ level, sampleLevelFromHash hash m.toNatClampNeg maximum.toNatClampNeg = .ok level ∧
      IsGreatest {k : Nat | (k : Int) ≤ maximum.toInt ∧
        (2 * (hash.toNat / 2 ^ 11) + 1 : Int) * m.toInt ^ k ≤ 2 ^ 54} level) ∧
      (((hash >>> 11) <<< 1) + 1).toNat = 2 * (hash.toNat / 2 ^ 11) + 1 ∧
      ((UInt64.ofNat m.toNatClampNeg).toNat : Int) = m.toInt ∧
      ∀ rounds, (thresholdAfter (UInt64.ofNat m.toNatClampNeg) rounds).toNat =
        2 ^ 54 / m.toNatClampNeg ^ rounds := by
  have htwo : (2 : Int) ≤ m.toInt := Int64.le_iff_toInt_le.1 hm
  have hzero : (0 : Int) ≤ maximum.toInt := Int64.le_iff_toInt_le.1 hmaximum
  have hfits : m.toInt < 2 ^ 63 := m.toInt_lt
  obtain ⟨multiplier, hmultiplier⟩ := Int.eq_ofNat_of_zero_le (Int.le_trans (by decide) htwo)
  obtain ⟨limit, hlimit⟩ := Int.eq_ofNat_of_zero_le hzero
  have hmNat : m.toNatClampNeg = multiplier := by
    rw [Int64.toNatClampNeg, hmultiplier]
    exact Int.toNat_natCast multiplier
  have hmaxNat : maximum.toNatClampNeg = limit := by
    rw [Int64.toNatClampNeg, hlimit]
    exact Int.toNat_natCast limit
  have hdivisor : (UInt64.ofNat multiplier).toNat = multiplier :=
    UInt64.toNat_ofNat_of_lt' (by show multiplier < 2 ^ 64; omega)
  have hbucket := centered_bucket hash
  have hhash := hash.toNat_lt
  have hgreatest := @level_loop_greatest (((hash >>> 11) <<< 1) + 1) (UInt64.ofNat multiplier)
    (by omega) (by omega) limit ((1 : UInt64) <<< 54)
    (by rw [hbucket]; show _ ≤ 2 ^ 54; omega)
  rw [hbucket, hdivisor] at hgreatest
  rw [hmNat, hmaxNat, hlimit, hmultiplier]
  refine ⟨⟨_, bind_ok.2 ⟨(), require_ok.2 (by omega), rfl⟩, ?_⟩, hbucket,
    congrArg Nat.cast hdivisor, fun rounds => by rw [threshold_after, hdivisor]⟩
  have hset : {k : Nat | (k : Int) ≤ (limit : Int) ∧
      (2 * (hash.toNat / 2 ^ 11) + 1 : Int) * (multiplier : Int) ^ k ≤ 2 ^ 54} =
      {k | k ≤ limit ∧ (2 * (hash.toNat / 2 ^ 11) + 1) * multiplier ^ k ≤
        ((1 : UInt64) <<< 54).toNat} := by
    ext k
    show _ ↔ k ≤ limit ∧ (2 * (hash.toNat / 2 ^ 11) + 1) * multiplier ^ k ≤ 2 ^ 54
    exact and_congr Int.ofNat_le (by exact_mod_cast Iff.rfl)
  rw [hset]
  exact hgreatest

/-- The last hash of level 1 for multiplier 2: the next one has level 0. -/
theorem sample_level_exact_sample :
    ((2 : Int64) ≤ 2 ∧ (0 : Int64) ≤ 32) ∧
      (∃ level, sampleLevelFromHash 0x7FFFFFFFFFFFFFFF 2 32 = .ok level ∧
        IsGreatest {k : Nat | (k : Int) ≤ 32 ∧ (2 * (2 ^ 52 - 1) + 1 : Int) * 2 ^ k ≤ 2 ^ 54}
          level) ∧
      sampleLevelFromHash 0x8000000000000000 2 32 = .ok 0 := by
  refine ⟨⟨by decide, by decide⟩, ?_, by decide⟩
  exact (@sample_level_exact 0x7FFFFFFFFFFFFFFF 2 32 (by decide) (by decide)).1

end Akasha.Hnsw

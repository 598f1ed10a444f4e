import Akasha.Lib.Binary
import Mathlib.Algebra.Order.Field.Power
import Mathlib.Algebra.Order.Floor.Semifield
import Mathlib.Data.Int.Log
import Mathlib.Data.Rat.Floor
import Mathlib.Tactic.FieldSimp

/-!
# Rounding rationals to binary formats

`roundRational` is round-to-nearest-even of any nonnegative rational into the magnitude bits of a
binary format, as reading a decimal numeral needs it. The main theorem, `round_rational_value`, says
that the value of a finite magnitude rounds to that magnitude: any text that denotes exactly the
value of a float reads back as the float. `value_round_exact` is the other direction, for numbers
that the format holds exactly, as when a narrow float is widened.
-/

namespace Akasha.Lib

/-- The nearest natural number, ties to even. -/
def nearestEven (r : ℚ) : Nat :=
  let low := ⌊r⌋₊
  if 2 * (r - low) < 1 then low
  else if 1 < 2 * (r - low) then low + 1
  else if low % 2 = 0 then low
  else low + 1

/-- The magnitude bits of a nonnegative rational rounded into the format; overflow gives
infinity. -/
def roundRational (format : BinaryFormat) (r : ℚ) : Nat :=
  if r = 0 then 0
  else
    let q := max format.emin (Int.log 2 r - format.fraction)
    min format.infinity
      ((q - format.emin).toNat * 2 ^ format.fraction + nearestEven (r / 2 ^ q))

/-- The number that a finite magnitude denotes. -/
def BinaryFormat.value (format : BinaryFormat) (magnitude : Nat) : ℚ :=
  let (m, e) := decodeMagnitude format magnitude
  m * 2 ^ e

@[simp] theorem nearest_even_nat (n : Nat) : nearestEven n = n := by
  simp [nearestEven]

theorem floor_le_nearest_even (r : ℚ) : ⌊r⌋₊ ≤ nearestEven r := by
  unfold nearestEven
  simp only
  split_ifs <;> omega

theorem round_rational_le (format : BinaryFormat) (r : ℚ) :
    roundRational format r ≤ format.infinity := by
  unfold roundRational
  split
  · exact Nat.zero_le _
  · exact min_le_left _ _

theorem BinaryFormat.value_pos (format : BinaryFormat) {magnitude : Nat} (h : 0 < magnitude) :
    0 < format.value magnitude := by
  have hdiv := Nat.div_add_mod magnitude (2 ^ format.fraction)
  unfold BinaryFormat.value decodeMagnitude
  by_cases hzero : magnitude / 2 ^ format.fraction = 0
  · have hfraction : 0 < magnitude % 2 ^ format.fraction := by
      rw [hzero, Nat.mul_zero, Nat.zero_add] at hdiv
      omega
    simp only [hzero, if_true]
    positivity
  · simp only [if_neg hzero]
    positivity

theorem log_two_mul_zpow {m k : Nat} (e : Int) (hlow : 2 ^ k ≤ m) (hhigh : m < 2 ^ (k + 1)) :
    Int.log 2 ((m : ℚ) * 2 ^ e) = k + e := by
  have hm : 0 < m := lt_of_lt_of_le (by positivity) hlow
  have hpos : (0 : ℚ) < m * 2 ^ e := by positivity
  have htwo : ((2 : ℕ) : ℚ) = 2 := by norm_num
  apply le_antisymm
  · have hlt : (m : ℚ) * 2 ^ e < ((2 : ℕ) : ℚ) ^ (k + e + 1) := by
      rw [htwo, show (k : Int) + e + 1 = ((k + 1 : ℕ) : Int) + e by push_cast; ring,
        zpow_add₀ (by norm_num), zpow_natCast]
      have : (m : ℚ) < 2 ^ (k + 1) := by exact_mod_cast hhigh
      exact mul_lt_mul_of_pos_right this (by positivity)
    have := (Int.lt_zpow_iff_log_lt (by norm_num) hpos).1 hlt
    omega
  · apply (Int.zpow_le_iff_le_log (by norm_num) hpos).1
    rw [htwo, zpow_add₀ (by norm_num), zpow_natCast]
    have : ((2 : ℚ)) ^ k ≤ m := by exact_mod_cast hlow
    exact mul_le_mul_of_nonneg_right this (by positivity)

variable {format : BinaryFormat}

theorem round_rational_of_unit {m : Nat} {e : Int} (hm : 0 < m)
    (hunit : max format.emin (Int.log 2 ((m : ℚ) * 2 ^ e) - format.fraction) = e) :
    roundRational format (m * 2 ^ e) =
      min format.infinity ((e - format.emin).toNat * 2 ^ format.fraction + m) := by
  have hne : (m : ℚ) * 2 ^ e ≠ 0 := by positivity
  unfold roundRational
  rw [if_neg hne]
  simp only [hunit]
  rw [mul_div_assoc, div_self (by positivity), mul_one, nearest_even_nat]

/-- The value of a finite magnitude rounds to that magnitude. -/
theorem round_rational_value {magnitude : Nat} (h : magnitude ≤ format.infinity) :
    roundRational format (format.value magnitude) = magnitude := by
  have hdiv := Nat.div_add_mod magnitude (2 ^ format.fraction)
  have hmod : magnitude % 2 ^ format.fraction < 2 ^ format.fraction :=
    Nat.mod_lt _ (by positivity)
  unfold BinaryFormat.value decodeMagnitude
  by_cases hzero : magnitude / 2 ^ format.fraction = 0
  · -- A subnormal: its unit is the smallest one.
    simp only [hzero, if_true]
    have hself : magnitude % 2 ^ format.fraction = magnitude := by
      simpa [hzero] using hdiv
    rw [hself] at hmod ⊢
    by_cases hm : magnitude = 0
    · simp [hm, roundRational]
    · have hlog := log_two_mul_zpow format.emin (Nat.pow_log_le_self 2 hm)
        (Nat.lt_pow_succ_log_self (by norm_num) magnitude)
      have hbound : Nat.log 2 magnitude < format.fraction :=
        Nat.log_lt_of_lt_pow hm hmod
      rw [round_rational_of_unit (Nat.pos_of_ne_zero hm) (by rw [hlog]; omega)]
      simpa using h
  · -- A normal number: its significand has the leading bit.
    rw [if_neg hzero]
    generalize hfraction : magnitude % 2 ^ format.fraction = fraction at *
    generalize hexponent : magnitude / 2 ^ format.fraction = exponent at *
    have hlog := log_two_mul_zpow (m := 2 ^ format.fraction + fraction)
      (format.emin + ((exponent : Int) - 1)) (Nat.le_add_right _ _) (by omega)
    rw [round_rational_of_unit (by positivity) (by rw [hlog]; omega)]
    have hunit : (format.emin + ((exponent : Int) - 1) - format.emin).toNat = exponent - 1 := by
      omega
    rw [hunit]
    obtain ⟨previous, rfl⟩ := Nat.exists_eq_succ_of_ne_zero hzero
    have hsum : (previous.succ - 1) * 2 ^ format.fraction + (2 ^ format.fraction + fraction) =
        magnitude := by
      rw [← hdiv, Nat.succ_sub_one, Nat.succ_eq_add_one]
      ring
    rw [hsum, min_eq_right h]

theorem round_half_even_eq (numerator : Nat) {denominator : Nat} (h : 0 < denominator) :
    roundHalfEven numerator denominator = nearestEven ((numerator : ℚ) / denominator) := by
  have hfloor : ⌊(numerator : ℚ) / denominator⌋₊ = numerator / denominator :=
    Nat.floor_div_eq_div numerator denominator
  have hpos : (0 : ℚ) < denominator := by exact_mod_cast h
  have hrest : 2 * ((numerator : ℚ) / denominator - (numerator / denominator : ℕ)) =
      (2 * (numerator % denominator : ℕ) : ℕ) / denominator := by
    have hsum : (numerator : ℚ) =
        denominator * (numerator / denominator : ℕ) + (numerator % denominator : ℕ) := by
      exact_mod_cast (Nat.div_add_mod numerator denominator).symm
    field_simp
    push_cast
    linarith
  unfold roundHalfEven nearestEven
  simp only [hfloor, hrest, div_lt_one hpos, one_lt_div hpos, Nat.cast_lt]

/-- Rounding a dyadic number is rounding the rational. -/
theorem round_magnitude_eq (format : BinaryFormat) (m : Nat) (e : Int) :
    roundMagnitude format m e = roundRational format (m * 2 ^ e) := by
  by_cases hm : m = 0
  · simp [hm, roundMagnitude, roundRational]
  · have hne : (m : ℚ) * 2 ^ e ≠ 0 := by positivity
    have hlog : Int.log 2 ((m : ℚ) * 2 ^ e) = Nat.log2 m + e :=
      log_two_mul_zpow e (Nat.log2_self_le hm) Nat.lt_log2_self
    unfold roundMagnitude roundRational
    rw [if_neg hm, if_neg hne]
    simp only [hlog]
    generalize max format.emin (Nat.log2 m + e - format.fraction) = q
    have hround : (if q ≤ e then m * 2 ^ (e - q).toNat else roundHalfEven m (2 ^ (q - e).toNat)) =
        nearestEven ((m : ℚ) * 2 ^ e / 2 ^ q) := by
      split
      · next hle =>
          have hexact : (m : ℚ) * 2 ^ e / 2 ^ q = ((m * 2 ^ (e - q).toNat : ℕ) : ℚ) := by
            push_cast
            rw [← zpow_natCast, Int.toNat_of_nonneg (by omega), zpow_sub₀ (by norm_num), mul_div_assoc]
          rw [hexact, nearest_even_nat]
      · next hlt =>
          rw [round_half_even_eq m (by positivity)]
          congr 1
          push_cast
          rw [← zpow_natCast, Int.toNat_of_nonneg (by omega), zpow_sub₀ (by norm_num)]
          field_simp
    rw [hround]

/-- The significand of a number with no more bits than the format has, at its unit. -/
theorem exact_unit {m : Nat} {e : Int} (hm : m ≠ 0) (hbits : m < 2 ^ (format.fraction + 1))
    (he : format.emin ≤ e) :
    ∃ (q : Int) (n : Nat), q = max format.emin (Nat.log2 m + e - format.fraction) ∧
      n = m * 2 ^ (e - q).toNat ∧ n < 2 ^ (format.fraction + 1) ∧
      (q ≠ format.emin → 2 ^ format.fraction ≤ n) ∧ (m : ℚ) * 2 ^ e = n * 2 ^ q ∧
      roundRational format (m * 2 ^ e) =
        min format.infinity ((q - format.emin).toNat * 2 ^ format.fraction + n) := by
  have hne : (m : ℚ) * 2 ^ e ≠ 0 := by positivity
  have hlog : Int.log 2 ((m : ℚ) * 2 ^ e) = Nat.log2 m + e :=
    log_two_mul_zpow e (Nat.log2_self_le hm) Nat.lt_log2_self
  have hlogbits : Nat.log2 m ≤ format.fraction := by
    have := (Nat.log2_lt hm).2 hbits
    omega
  obtain ⟨q, hq⟩ : ∃ q, q = max format.emin (Nat.log2 m + e - format.fraction) := ⟨_, rfl⟩
  have hexact : (m : ℚ) * 2 ^ e / 2 ^ q = ((m * 2 ^ (e - q).toNat : ℕ) : ℚ) := by
    push_cast
    rw [← zpow_natCast, Int.toNat_of_nonneg (by omega), zpow_sub₀ (by norm_num), mul_div_assoc]
  refine ⟨q, m * 2 ^ (e - q).toNat, hq, rfl, ?_, ?_, ?_, ?_⟩
  · calc m * 2 ^ (e - q).toNat < 2 ^ (Nat.log2 m + 1) * 2 ^ (e - q).toNat :=
          Nat.mul_lt_mul_of_pos_right Nat.lt_log2_self (by positivity)
      _ = 2 ^ (Nat.log2 m + 1 + (e - q).toNat) := (pow_add _ _ _).symm
      _ ≤ 2 ^ (format.fraction + 1) := Nat.pow_le_pow_right (by norm_num) (by omega)
  · intro hunit
    have hshift : Nat.log2 m + (e - q).toNat = format.fraction := by omega
    rw [← hshift, pow_add]
    exact Nat.mul_le_mul_right _ (Nat.log2_self_le hm)
  · rw [← hexact]
    field_simp
  · unfold roundRational
    rw [if_neg hne]
    simp only [hlog, ← hq, hexact, nearest_even_nat]

/-- A number with no more bits than the significand has, in the range of the format, is the value
of the magnitude it rounds to. -/
theorem value_round_exact {m : Nat} {e : Int} (hbits : m < 2 ^ (format.fraction + 1))
    (he : format.emin ≤ e) (hfinite : roundRational format (m * 2 ^ e) < format.infinity) :
    format.value (roundRational format (m * 2 ^ e)) = m * 2 ^ e := by
  by_cases hm : m = 0
  · subst hm
    simp [roundRational, BinaryFormat.value, decodeMagnitude]
  obtain ⟨q, n, hq, -, hbound, hnormal, hvalue, hround⟩ := exact_unit hm hbits he
  rw [hround] at hfinite ⊢
  rw [min_eq_right (by omega), hvalue]
  unfold BinaryFormat.value decodeMagnitude
  by_cases hsub : n < 2 ^ format.fraction
  · -- A subnormal stands at the smallest unit.
    have hunit : q = format.emin := by
      by_contra hne
      have := hnormal hne
      omega
    have hzero : (q - format.emin).toNat = 0 := by omega
    rw [hzero, Nat.zero_mul, Nat.zero_add, Nat.div_eq_of_lt hsub, Nat.mod_eq_of_lt hsub, hunit]
    simp
  · obtain ⟨rest, hrest⟩ : ∃ rest, n = 2 ^ format.fraction + rest :=
      ⟨n - 2 ^ format.fraction, by omega⟩
    have hsmall : rest < 2 ^ format.fraction := by
      rw [pow_succ] at hbound
      omega
    have hcode : (q - format.emin).toNat * 2 ^ format.fraction + n =
        rest + 2 ^ format.fraction * ((q - format.emin).toNat + 1) := by
      rw [hrest]
      ring
    rw [hcode, Nat.add_mul_div_left _ _ (by positivity), Nat.div_eq_of_lt hsmall,
      Nat.add_mul_mod_self_left, Nat.mod_eq_of_lt hsmall, Nat.zero_add]
    rw [if_neg (Nat.succ_ne_zero _), hrest]
    simp only
    congr 2
    push_cast
    omega

theorem decode_magnitude_bounds {magnitude : Nat} {m : Nat} {e : Int}
    (h : decodeMagnitude format magnitude = (m, e)) :
    m < 2 ^ (format.fraction + 1) ∧ format.emin ≤ e ∧
      e ≤ format.emin + (magnitude / 2 ^ format.fraction : ℕ) := by
  have hmod : magnitude % 2 ^ format.fraction < 2 ^ format.fraction := Nat.mod_lt _ (by positivity)
  rw [pow_succ]
  unfold decodeMagnitude at h
  simp only at h
  generalize magnitude / 2 ^ format.fraction = exponent at h ⊢
  split at h
  · obtain ⟨rfl, rfl⟩ := Prod.mk.inj h
    omega
  · obtain ⟨rfl, rfl⟩ := Prod.mk.inj h
    omega

end Akasha.Lib

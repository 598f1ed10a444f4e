import Mathlib.Data.BitVec

/-!
# Reflected cyclic redundancy checks

The division register of a reflected check, of any width and with any polynomial. A step is linear
in exclusive or, and `steps_split` divides a register into the bits that leave it within `n` steps
and the ones that only move down.
-/

namespace Akasha.Lib.Crc

variable {w : Nat} (polynomial : BitVec w)

/-- One step of the division, without a bit of the message. -/
def step (register : BitVec w) : BitVec w :=
  (register >>> 1) ^^^ (if register.getLsbD 0 then polynomial else 0#w)

/-- One step of the division with the next bit of the message. -/
def serial (register : BitVec w) (bit : Bool) : BitVec w :=
  (register >>> 1) ^^^ (if register.getLsbD 0 ^^ bit then polynomial else 0#w)

/-- `n` steps of the division. -/
def steps (n : Nat) : BitVec w → BitVec w := (step polynomial)^[n]

theorem steps_succ (n : Nat) (register : BitVec w) :
    steps polynomial (n + 1) register = step polynomial (steps polynomial n register) :=
  Function.iterate_succ_apply' _ _ _

theorem steps_add (m n : Nat) (register : BitVec w) :
    steps polynomial (m + n) register = steps polynomial m (steps polynomial n register) :=
  Function.iterate_add_apply _ _ _ _

/-! ## Linearity -/

theorem choose_xor (a b : Bool) :
    (if a ^^ b then polynomial else 0#w) =
      (if a then polynomial else 0#w) ^^^ (if b then polynomial else 0#w) := by
  cases a <;> cases b <;> simp

theorem step_xor (a b : BitVec w) :
    step polynomial (a ^^^ b) = step polynomial a ^^^ step polynomial b := by
  unfold step
  rw [BitVec.ushiftRight_xor_distrib, BitVec.getLsbD_xor, choose_xor]
  ac_rfl

theorem steps_xor (n : Nat) (a b : BitVec w) :
    steps polynomial n (a ^^^ b) = steps polynomial n a ^^^ steps polynomial n b := by
  induction n with
  | zero => rfl
  | succ n ih => rw [steps_succ, steps_succ, steps_succ, ih, step_xor]

theorem steps_of_clear {n : Nat} {register : BitVec w}
    (h : ∀ i < n, register.getLsbD i = false) : steps polynomial n register = register >>> n := by
  induction n with
  | zero => rw [BitVec.ushiftRight_zero]; rfl
  | succ n ih =>
      have hlow : (register >>> n).getLsbD 0 = false := by
        rw [BitVec.getLsbD_ushiftRight]
        exact h n (by omega)
      rw [steps_succ, ih fun i hi => h i (by omega), step, hlow, if_neg Bool.false_ne_true,
        BitVec.xor_zero, BitVec.shiftRight_add]

/-- The low bits of a register. -/
def low (n : Nat) (register : BitVec w) : BitVec w := register &&& BitVec.ofNat w (2 ^ n - 1)

theorem low_bit (n i : Nat) (register : BitVec w) :
    (low n register).getLsbD i = (register.getLsbD i && decide (i < n)) := by
  rw [low, BitVec.getLsbD_and, BitVec.getLsbD_ofNat, Nat.testBit_two_pow_sub_one]
  by_cases hi : i < w
  · rw [decide_eq_true hi, Bool.true_and]
  · rw [BitVec.getLsbD_of_ge register i (by omega), Bool.false_and, Bool.false_and]

theorem steps_split (n : Nat) (register : BitVec w) :
    steps polynomial n register = (register >>> n) ^^^ steps polynomial n (low n register) := by
  have hclear : ∀ i < n, (register ^^^ low n register).getLsbD i = false := fun i hi => by
    rw [BitVec.getLsbD_xor, low_bit, decide_eq_true hi, Bool.and_true, Bool.xor_self]
  have hmoved : (register ^^^ low n register) >>> n = register >>> n := by
    refine BitVec.eq_of_getLsbD_eq fun i _ => ?_
    rw [BitVec.getLsbD_ushiftRight, BitVec.getLsbD_xor, low_bit, decide_eq_false (by omega),
      Bool.and_false, Bool.xor_false, BitVec.getLsbD_ushiftRight]
  have hparts : register = register ^^^ low n register ^^^ low n register := by
    rw [BitVec.xor_assoc, BitVec.xor_self, BitVec.xor_zero]
  calc steps polynomial n register
      = steps polynomial n (register ^^^ low n register ^^^ low n register) := by rw [← hparts]
    _ = (register >>> n) ^^^ steps polynomial n (low n register) := by
        rw [steps_xor, steps_of_clear polynomial hclear, hmoved]

theorem steps_shift_left {n : Nat} {register : BitVec w}
    (h : ∀ i, w ≤ i + n → register.getLsbD i = false) :
    steps polynomial n (register <<< n) = register := by
  have hclear : ∀ i < n, (register <<< n).getLsbD i = false := fun i hi => by
    rw [BitVec.getLsbD_shiftLeft, decide_eq_true hi, Bool.not_true, Bool.and_false, Bool.false_and]
  rw [steps_of_clear polynomial hclear]
  refine BitVec.eq_of_getLsbD_eq fun i hi => ?_
  rw [BitVec.getLsbD_ushiftRight, BitVec.getLsbD_shiftLeft, decide_eq_false (by omega : ¬ n + i < n),
    Bool.not_false, Bool.and_true, Nat.add_sub_cancel_left]
  by_cases hfits : n + i < w
  · rw [decide_eq_true hfits, Bool.true_and]
  · rw [decide_eq_false hfits, Bool.false_and, h i (by omega)]

/-! ## Bits of the message -/

theorem step_serial (register message : BitVec w) :
    step polynomial (register ^^^ message) =
      serial polynomial register (message.getLsbD 0) ^^^ (message >>> 1) := by
  unfold step serial
  rw [BitVec.ushiftRight_xor_distrib, BitVec.getLsbD_xor]
  ac_rfl

theorem serial_steps (n : Nat) (register message : BitVec w) :
    ((List.range n).map message.getLsbD).foldl (serial polynomial) register ^^^ (message >>> n) =
      steps polynomial n (register ^^^ message) := by
  induction n with
  | zero => rw [BitVec.ushiftRight_zero]; rfl
  | succ n ih =>
      rw [steps_succ, ← ih, step_serial, List.range_succ, List.map_append, List.foldl_append,
        BitVec.getLsbD_ushiftRight, BitVec.shiftRight_add]
      rfl

end Akasha.Lib.Crc

import Mathlib.Data.List.Basic
import Mathlib.Data.List.Induction
import Mathlib.Tactic.IntervalCases
import Mathlib.Tactic.NormNum

/-!
# Decimal numerals in ASCII

The decimal digits of a number as bytes. `IsNumeral` says which lists of bytes are numerals: digits
without a leading zero. A numeral and its value determine each other: `numeral_value` and
`value_numeral`.
-/

namespace Akasha.Lib

/-- The bytes of the decimal digits of a number. -/
def numeral (n : Nat) : List UInt8 :=
  (Nat.toDigits 10 n).map fun c => UInt8.ofNat c.toNat

def IsDigitByte (byte : UInt8) : Prop :=
  48 ≤ byte.toNat ∧ byte.toNat ≤ 57

/-- The value of digits behind the number `result`. -/
def valueFrom (result : Nat) (bytes : List UInt8) : Nat :=
  bytes.foldl (fun result byte => result * 10 + (byte.toNat - 48)) result

/-- Digits without a leading zero. -/
structure IsNumeral (bytes : List UInt8) : Prop where
  ne_nil : bytes ≠ []
  digits : ∀ byte ∈ bytes, IsDigitByte byte
  no_leading_zero : bytes.head? = some 48 → bytes.length = 1

theorem value_from_append (result : Nat) (first second : List UInt8) :
    valueFrom result (first ++ second) = valueFrom (valueFrom result first) second :=
  List.foldl_append

theorem le_value_from (result : Nat) (bytes : List UInt8) : result ≤ valueFrom result bytes := by
  induction bytes generalizing result with
  | nil => exact Nat.le_refl result
  | cons byte bytes ih =>
      have hrest := ih (result * 10 + (byte.toNat - 48))
      show result ≤ valueFrom (result * 10 + (byte.toNat - 48)) bytes
      omega

/-! ## Digits -/

theorem digit_byte (d : Nat) (h : d < 10) :
    UInt8.ofNat (Nat.digitChar d).toNat = UInt8.ofNat (48 + d) := by
  interval_cases d <;> rfl

theorem digit_byte_to_nat {d : Nat} (h : d < 10) : (UInt8.ofNat (48 + d)).toNat = 48 + d :=
  UInt8.toNat_ofNat_of_lt' (by show 48 + d < 256; omega)

theorem of_digit_byte {byte : UInt8} (h : IsDigitByte byte) :
    UInt8.ofNat (48 + (byte.toNat - 48)) = byte := by
  rw [show 48 + (byte.toNat - 48) = byte.toNat by have := h.1; omega, UInt8.ofNat_toNat]

theorem numeral_of_lt {n : Nat} (h : n < 10) : numeral n = [UInt8.ofNat (48 + n)] := by
  rw [numeral, Nat.toDigits_of_lt_base h, List.map_singleton, digit_byte n h]

theorem numeral_snoc {n d : Nat} (hn : 0 < n) (hd : d < 10) :
    numeral (n * 10 + d) = numeral n ++ [UInt8.ofNat (48 + d)] := by
  have hle : 10 ≤ n * 10 + d := by omega
  rw [numeral, Nat.toDigits_of_base_le (by norm_num) hle, List.map_append,
    show (n * 10 + d) / 10 = n by omega, show (n * 10 + d) % 10 = d by omega,
    List.map_singleton, digit_byte d hd]
  rfl

/-! ## Numerals and values -/

theorem numeral_rec {P : Nat → Prop} (hdigit : ∀ d < 10, P d)
    (hsnoc : ∀ n d, 0 < n → d < 10 → P n → P (n * 10 + d)) (n : Nat) : P n := by
  induction n using Nat.strongRecOn with
  | ind n ih =>
      by_cases hlt : n < 10
      · exact hdigit n hlt
      · rw [show n = n / 10 * 10 + n % 10 by omega]
        exact hsnoc _ _ (by omega) (by omega) (ih (n / 10) (by omega))

theorem value_numeral (n : Nat) : valueFrom 0 (numeral n) = n := by
  induction n using numeral_rec with
  | hdigit d hd =>
      rw [numeral_of_lt hd]
      show 0 * 10 + ((UInt8.ofNat (48 + d)).toNat - 48) = d
      rw [digit_byte_to_nat hd]
      omega
  | hsnoc n d hn hd ih =>
      rw [numeral_snoc hn hd, value_from_append, ih]
      show n * 10 + ((UInt8.ofNat (48 + d)).toNat - 48) = _
      rw [digit_byte_to_nat hd]
      omega

theorem digit_byte_is_digit {d : Nat} (h : d < 10) : IsDigitByte (UInt8.ofNat (48 + d)) := by
  unfold IsDigitByte
  rw [digit_byte_to_nat h]
  omega

theorem is_numeral (n : Nat) : IsNumeral (numeral n) ∧ (0 < n → (numeral n).head? ≠ some 48) := by
  induction n using numeral_rec with
  | hdigit d hd =>
      rw [numeral_of_lt hd]
      refine ⟨⟨List.cons_ne_nil _ _, fun byte hbyte => ?_, fun _ => rfl⟩, fun hpos heq => ?_⟩
      · rw [List.mem_singleton.1 hbyte]
        exact digit_byte_is_digit hd
      · have hcode := congrArg UInt8.toNat (Option.some.inj heq)
        rw [digit_byte_to_nat hd] at hcode
        change 48 + d = 48 at hcode
        omega
  | hsnoc n d hn hd ih =>
      rw [numeral_snoc hn hd]
      have hhead : (numeral n ++ [UInt8.ofNat (48 + d)]).head? = (numeral n).head? :=
        List.head?_append_of_ne_nil _ ih.1.ne_nil
      refine ⟨⟨by simp, fun byte hbyte => ?_, fun hzero => ?_⟩, fun _ => hhead ▸ ih.2 hn⟩
      · rcases List.mem_append.1 hbyte with hbyte | hbyte
        · exact ih.1.digits byte hbyte
        · rw [List.mem_singleton.1 hbyte]
          exact digit_byte_is_digit hd
      · exact absurd (hhead ▸ hzero) (ih.2 hn)

/-- A numeral is the one of its value. -/
theorem numeral_value {bytes : List UInt8} (h : IsNumeral bytes) :
    numeral (valueFrom 0 bytes) = bytes := by
  induction bytes using List.reverseRecOn with
  | nil => exact absurd rfl h.ne_nil
  | append_singleton front byte ih =>
      have hbyte := h.digits byte (by simp)
      have hd : byte.toNat - 48 < 10 := by have := hbyte.2; omega
      rw [value_from_append]
      show numeral (valueFrom 0 front * 10 + (byte.toNat - 48)) = _
      cases front with
      | nil =>
          show numeral (0 * 10 + (byte.toNat - 48)) = _
          rw [Nat.zero_mul, Nat.zero_add, numeral_of_lt hd, of_digit_byte hbyte]
          rfl
      | cons first rest =>
          -- Behind a first digit that is not zero the front is a numeral of a positive number.
          have hfirst : first ≠ 48 := fun heq => by
            have hlength := h.no_leading_zero (by rw [heq]; rfl)
            simp at hlength
          have hfront : IsNumeral (first :: rest) :=
            ⟨List.cons_ne_nil _ _, fun other hother => h.digits other (List.mem_append_left _ hother),
              fun hhead => absurd (Option.some.inj hhead) hfirst⟩
          have hpos : 0 < valueFrom 0 (first :: rest) := by
            have hdigit := (h.digits first (by simp)).1
            have hne : first.toNat ≠ 48 := fun heq => hfirst (UInt8.toNat_inj.1 heq)
            have hle := le_value_from (0 * 10 + (first.toNat - 48)) rest
            show 0 < valueFrom (0 * 10 + (first.toNat - 48)) rest
            omega
          rw [numeral_snoc hpos hd, ih hfront, of_digit_byte hbyte]

end Akasha.Lib

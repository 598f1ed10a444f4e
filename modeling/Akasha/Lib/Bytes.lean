import Mathlib.Data.List.Basic
import Mathlib.Tactic.Ring

/-!
# Little-endian bytes and a bounds-checked reader

Fixed-width little-endian encodings of natural numbers as byte lists, and the readers that take
them off the front of an input. `read_unsigned_append` says that reading what was written gives
the value reduced to its width, with the rest of the input untouched.
-/

namespace Akasha.Lib

open List

/-- The `width` low bytes of a number, least significant first. -/
def leBytes : Nat → Nat → List UInt8
  | 0, _ => []
  | width + 1, value => UInt8.ofNat (value % 256) :: leBytes width (value / 256)

/-- The number a little-endian byte list denotes. -/
def leValue : List UInt8 → Nat
  | [] => 0
  | byte :: bytes => byte.toNat + 256 * leValue bytes

@[simp] theorem length_le_bytes (width value : Nat) : (leBytes width value).length = width := by
  induction width generalizing value with
  | zero => rfl
  | succ width ih => simp [leBytes, ih]

@[simp] theorem le_value_le_bytes (width value : Nat) :
    leValue (leBytes width value) = value % 256 ^ width := by
  induction width generalizing value with
  | zero => simp [leBytes, leValue, Nat.mod_one]
  | succ width ih =>
      have hbyte : (UInt8.ofNat (value % 256)).toNat = value % 256 := by
        simp [UInt8.toNat_ofNat']
      rw [leBytes, leValue, ih, hbyte, pow_succ', Nat.mod_mul]

theorem le_value_lt (bytes : List UInt8) : leValue bytes < 256 ^ bytes.length := by
  induction bytes with
  | nil => simp [leValue]
  | cons byte bytes ih =>
      have hbyte : byte.toNat < 256 := byte.toNat_lt
      rw [leValue, length_cons, pow_succ']
      omega

theorem length_flat_map_const {α : Type} {write : α → List UInt8} {width : Nat}
    (h : ∀ value, (write value).length = width) (values : List α) :
    (values.flatMap write).length = values.length * width := by
  induction values with
  | nil => simp
  | cons value values ih =>
      rw [flatMap_cons, length_append, ih, h, length_cons, Nat.succ_mul,
        Nat.add_comm]

theorem length_flat_map_ge {α : Type} {write : α → List UInt8} {width : Nat} {values : List α}
    (h : ∀ value ∈ values, width ≤ (write value).length) :
    values.length * width ≤ (values.flatMap write).length := by
  induction values with
  | nil => simp
  | cons value values ih =>
      obtain ⟨hvalue, hrest⟩ := forall_mem_cons.1 h
      have hlater := ih hrest
      rw [flatMap_cons, length_append, length_cons, Nat.succ_mul]
      omega

theorem length_flat_map_le {α : Type} {write : α → List UInt8} {width : Nat} {values : List α}
    (h : ∀ value ∈ values, (write value).length ≤ width) :
    (values.flatMap write).length ≤ values.length * width := by
  induction values with
  | nil => simp
  | cons value values ih =>
      obtain ⟨hvalue, hrest⟩ := forall_mem_cons.1 h
      have hlater := ih hrest
      rw [flatMap_cons, length_append, length_cons, Nat.succ_mul]
      omega

/-! ## Readers -/

/-- A reader takes a value off the front of the bytes or fails. -/
abbrev Reader (α : Type) := StateT (List UInt8) (Except String) α

/-- Take the next `count` bytes. -/
def readSpan (count : Nat) : Reader (List UInt8) := fun bytes =>
  if count ≤ bytes.length then .ok (bytes.take count, bytes.drop count)
  else .error "truncated binary value"

/-- Take the next `count` bytes as a little-endian number. -/
def readUnsigned (count : Nat) : Reader Nat := fun bytes =>
  if count ≤ bytes.length then .ok (leValue (bytes.take count), bytes.drop count)
  else .error "truncated binary value"

theorem read_span_append {count : Nat} {front : List UInt8} (rest : List UInt8)
    (hlength : front.length = count) : readSpan count (front ++ rest) = .ok (front, rest) := by
  subst hlength
  simp [readSpan]

theorem read_unsigned_append (count value : Nat) (rest : List UInt8) :
    readUnsigned count (leBytes count value ++ rest) = .ok (value % 256 ^ count, rest) := by
  have htake : (leBytes count value ++ rest).take count = leBytes count value :=
    take_left' (length_le_bytes count value)
  have hdrop : (leBytes count value ++ rest).drop count = rest :=
    drop_left' (length_le_bytes count value)
  simp [readUnsigned, htake, hdrop]

end Akasha.Lib

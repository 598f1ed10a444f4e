import Akasha.Lib.Crc
import Akasha.Storage.Checksum

/-!
# The checksum eight bytes at a time

The portable path of `crc32_update` (`storage/checksum.mojo`). From 32 bytes on it takes eight bytes
at a time through eight tables, one for each place of a byte in the block. However a message is cut
into chunks, `crc32_update_portable_serial` says that the register is the one of the division bit
by bit.
-/

namespace Akasha

open Lib BitVec

/-- `_CRC32_BLOCK_TABLES`, by level and byte. -/
def crc32BlockTable : Nat → UInt32 → UInt32
  | 0, byte => crc32TableEntry byte
  | level + 1, byte =>
      let previous := crc32BlockTable level byte
      (previous >>> 8) ^^^ crc32TableEntry (previous &&& 255)

/-- One block of `_crc32_update_blocks`. -/
def crc32UpdateBlock (register : UInt32) (b0 b1 b2 b3 b4 b5 b6 b7 : UInt8) : UInt32 :=
  let low := register ^^^ (b0.toUInt32 <<< 0) ^^^ (b1.toUInt32 <<< 8) ^^^ (b2.toUInt32 <<< 16) ^^^
    (b3.toUInt32 <<< 24)
  let high := (0 : UInt32) ||| (b4.toUInt32 <<< 0) ||| (b5.toUInt32 <<< 8) ||| (b6.toUInt32 <<< 16) |||
    (b7.toUInt32 <<< 24)
  crc32BlockTable 7 (low &&& 255) ^^^ crc32BlockTable 6 ((low >>> 8) &&& 255) ^^^
    crc32BlockTable 5 ((low >>> 16) &&& 255) ^^^ crc32BlockTable 4 (low >>> 24) ^^^
    crc32BlockTable 3 (high &&& 255) ^^^ crc32BlockTable 2 ((high >>> 8) &&& 255) ^^^
    crc32BlockTable 1 ((high >>> 16) &&& 255) ^^^ crc32BlockTable 0 (high >>> 24)

/-- `_crc32_update_blocks`: whole blocks, then the bytes that are left. -/
def crc32UpdateBlocks (register : UInt32) : List UInt8 → UInt32
  | b0 :: b1 :: b2 :: b3 :: b4 :: b5 :: b6 :: b7 :: data =>
      crc32UpdateBlocks (crc32UpdateBlock register b0 b1 b2 b3 b4 b5 b6 b7) data
  | data => crc32Update register data

/-- `crc32_update` without the processor's own instruction. -/
def crc32UpdatePortable (register : UInt32) (data : List UInt8) : UInt32 :=
  if data.length ≥ 32 then crc32UpdateBlocks register data else crc32Update register data

/-- One bit of the message, by the reflected polynomial. -/
def crc32Serial (register : UInt32) (bit : Bool) : UInt32 :=
  (register >>> 1) ^^^ (if (register &&& 1 = 1) ≠ (bit = true) then 0xEDB88320 else 0)

/-- The bits of a byte, the low one first. -/
def byteBits (byte : UInt8) : List Bool :=
  (List.range 8).map byte.toNat.testBit

/-! ## Steps of the division -/

/-- `n` bits of the division. -/
def crc32Steps (n : Nat) (register : UInt32) : UInt32 :=
  Nat.repeat crc32Bit n register

theorem low_bit_eq (register : UInt32) :
    register &&& 1 = 1 ↔ register.toBitVec.getLsbD 0 = true := by
  rw [← UInt32.toBitVec_inj, UInt32.toBitVec_and]
  show register.toBitVec &&& 1#32 = 1#32 ↔ _
  rw [BitVec.and_one_eq_setWidth_ofBool_getLsbD]
  cases register.toBitVec.getLsbD 0 <;> decide

theorem crc32_bit_to_bit_vec (register : UInt32) :
    (crc32Bit register).toBitVec = Crc.step 0xEDB88320#32 register.toBitVec := by
  unfold crc32Bit Crc.step
  rw [UInt32.toBitVec_xor, UInt32.toBitVec_shiftRight]
  simp only [low_bit_eq]
  split <;> rfl

theorem crc32_steps_to_bit_vec (n : Nat) (register : UInt32) :
    (crc32Steps n register).toBitVec = Crc.steps 0xEDB88320#32 n register.toBitVec := by
  induction n with
  | zero => rfl
  | succ n ih =>
      rw [Crc.steps_succ, ← ih]
      exact crc32_bit_to_bit_vec _

theorem crc32_steps_add (m n : Nat) (register : UInt32) :
    crc32Steps (m + n) register = crc32Steps m (crc32Steps n register) := by
  apply UInt32.toBitVec_inj.1
  simp only [crc32_steps_to_bit_vec, Crc.steps_add]

theorem crc32_steps_xor (n : Nat) (a b : UInt32) :
    crc32Steps n (a ^^^ b) = crc32Steps n a ^^^ crc32Steps n b := by
  apply UInt32.toBitVec_inj.1
  simp only [crc32_steps_to_bit_vec, UInt32.toBitVec_xor, Crc.steps_xor]

theorem crc32_steps_eight (register : UInt32) :
    crc32Steps 8 register = (register >>> 8) ^^^ crc32TableEntry (register &&& 255) := by
  apply UInt32.toBitVec_inj.1
  show _ = ((register >>> 8) ^^^ crc32Steps 8 (register &&& 255)).toBitVec
  rw [UInt32.toBitVec_xor, crc32_steps_to_bit_vec, crc32_steps_to_bit_vec, Crc.steps_split]
  rfl

/-! ## Bytes in a word -/

theorem byte_bit_of_ge {byte : UInt8} {i : Nat} (h : 8 ≤ i) :
    byte.toUInt32.toBitVec.getLsbD i = false := by
  rw [UInt8.toBitVec_toUInt32, getLsbD_setWidth, getLsbD_of_ge byte.toBitVec i h,
    Bool.and_false]

theorem byte_shift_right (byte : UInt8) : byte.toUInt32.toBitVec >>> 8 = 0#32 := by
  refine eq_of_getLsbD_eq fun i _ => ?_
  rw [BitVec.getLsbD_ushiftRight, byte_bit_of_ge (by omega), getLsbD_zero]

theorem placed_to_bit_vec {place : UInt32} (h : place.toNat ≤ 24) (byte : UInt8) :
    (byte.toUInt32 <<< place).toBitVec = byte.toUInt32.toBitVec <<< place.toNat := by
  have hmod : (place.toBitVec % 32).toNat = place.toNat := by
    rw [BitVec.toNat_umod]
    show place.toNat % 32 = place.toNat
    omega
  rw [UInt32.toBitVec_shiftLeft, shiftLeft_eq', hmod]

theorem crc32_steps_placed {place : UInt32} (h : place.toNat ≤ 24) (byte : UInt8) :
    crc32Steps place.toNat (byte.toUInt32 <<< place) = byte.toUInt32 := by
  apply UInt32.toBitVec_inj.1
  rw [crc32_steps_to_bit_vec, placed_to_bit_vec h]
  exact Crc.steps_shift_left _ fun i hi => byte_bit_of_ge (by omega)

theorem crc32_update_byte_steps (register : UInt32) (byte : UInt8) :
    crc32UpdateByte register byte = crc32Steps 8 (register ^^^ byte.toUInt32) := by
  rw [crc32_steps_eight, crc32UpdateByte]
  congr 1
  apply UInt32.toBitVec_inj.1
  show register.toBitVec >>> 8 = (register.toBitVec ^^^ byte.toUInt32.toBitVec) >>> 8
  rw [BitVec.ushiftRight_xor_distrib, byte_shift_right, xor_zero]

theorem crc32_update_byte_placed {place : UInt32} (h : place.toNat ≤ 24) (register : UInt32)
    (byte : UInt8) :
    crc32UpdateByte (crc32Steps place.toNat register) byte =
      crc32Steps (8 + place.toNat) (register ^^^ (byte.toUInt32 <<< place)) := by
  rw [crc32_update_byte_steps, crc32_steps_add, crc32_steps_xor place.toNat, crc32_steps_placed h]

theorem crc32_update_word (register : UInt32) (b0 b1 b2 b3 : UInt8) :
    crc32Update register [b0, b1, b2, b3] =
      crc32Steps 32 (register ^^^ (b0.toUInt32 <<< 0) ^^^ (b1.toUInt32 <<< 8) ^^^
        (b2.toUInt32 <<< 16) ^^^ (b3.toUInt32 <<< 24)) := by
  have h0 : crc32UpdateByte register b0 = crc32Steps 8 (register ^^^ (b0.toUInt32 <<< 0)) :=
    @crc32_update_byte_placed 0 (by decide) register b0
  have h1 (x : UInt32) : crc32UpdateByte (crc32Steps 8 x) b1 =
      crc32Steps 16 (x ^^^ (b1.toUInt32 <<< 8)) :=
    @crc32_update_byte_placed 8 (by decide) x b1
  have h2 (x : UInt32) : crc32UpdateByte (crc32Steps 16 x) b2 =
      crc32Steps 24 (x ^^^ (b2.toUInt32 <<< 16)) :=
    @crc32_update_byte_placed 16 (by decide) x b2
  have h3 (x : UInt32) : crc32UpdateByte (crc32Steps 24 x) b3 =
      crc32Steps 32 (x ^^^ (b3.toUInt32 <<< 24)) :=
    @crc32_update_byte_placed 24 (by decide) x b3
  show crc32UpdateByte (crc32UpdateByte (crc32UpdateByte (crc32UpdateByte register b0) b1) b2) b3 = _
  rw [h0, h1, h2, h3]

theorem crc32_steps_byte (n : Nat) (register : UInt32) :
    crc32Steps (n + 8) register =
      crc32Steps (n + 8) (register &&& 255) ^^^ crc32Steps n (register >>> 8) := by
  rw [crc32_steps_add, crc32_steps_eight, crc32_steps_xor, UInt32.xor_comm, crc32_steps_add]
  rfl

theorem crc32_steps_word (n : Nat) (register : UInt32) :
    crc32Steps (n + 32) register =
      crc32Steps (n + 32) (register &&& 255) ^^^ crc32Steps (n + 24) ((register >>> 8) &&& 255) ^^^
        crc32Steps (n + 16) ((register >>> 16) &&& 255) ^^^ crc32Steps (n + 8) (register >>> 24) := by
  have hsecond : register >>> 8 >>> 8 = register >>> 16 :=
    UInt32.toBitVec_inj.1 (BitVec.shiftRight_add register.toBitVec 8 8).symm
  have hthird : register >>> 16 >>> 8 = register >>> 24 :=
    UInt32.toBitVec_inj.1 (BitVec.shiftRight_add register.toBitVec 16 8).symm
  rw [crc32_steps_byte (n + 24) register, crc32_steps_byte (n + 16) (register >>> 8), hsecond,
    crc32_steps_byte (n + 8) (register >>> 16), hthird, UInt32.xor_assoc, UInt32.xor_assoc]

/-! ## Blocks -/

theorem crc32_block_table_eq (level : Nat) (byte : UInt32) :
    crc32BlockTable level byte = crc32Steps (8 * (level + 1)) byte := by
  induction level with
  | zero => rfl
  | succ level ih =>
      rw [crc32BlockTable, ← crc32_steps_eight, ih, ← crc32_steps_add, Nat.add_comm]
      rfl

theorem or_eq_xor {a b : UInt32}
    (h : ∀ i, a.toBitVec.getLsbD i = false ∨ b.toBitVec.getLsbD i = false) : a ||| b = a ^^^ b := by
  apply UInt32.toBitVec_inj.1
  rw [UInt32.toBitVec_or, UInt32.toBitVec_xor]
  refine eq_of_getLsbD_eq fun i _ => ?_
  rw [BitVec.getLsbD_or, getLsbD_xor]
  cases h i with
  | inl hclear => rw [hclear, Bool.false_or, Bool.false_xor]
  | inr hclear => rw [hclear, Bool.or_false, Bool.xor_false]

/-- A byte placed above a register does not meet its bits. -/
theorem or_placed {place : UInt32} (h : place.toNat ≤ 24) {register : UInt32}
    (hbelow : ∀ i ≥ place.toNat, register.toBitVec.getLsbD i = false) (byte : UInt8) :
    register ||| (byte.toUInt32 <<< place) = register ^^^ (byte.toUInt32 <<< place) ∧
      ∀ i ≥ place.toNat + 8,
        (register ^^^ (byte.toUInt32 <<< place)).toBitVec.getLsbD i = false := by
  have hbit (i : Nat) (hi : i < place.toNat ∨ place.toNat + 8 ≤ i) :
      (byte.toUInt32 <<< place).toBitVec.getLsbD i = false := by
    rw [placed_to_bit_vec h, getLsbD_shiftLeft]
    cases hi with
    | inl hi => rw [decide_eq_true hi, Bool.not_true, Bool.and_false, Bool.false_and]
    | inr hi => rw [byte_bit_of_ge (by omega), Bool.and_false]
  constructor
  · refine or_eq_xor fun i => ?_
    by_cases hi : i < place.toNat
    · exact .inr (hbit i (.inl hi))
    · exact .inl (hbelow i (by omega))
  · intro i hi
    rw [UInt32.toBitVec_xor, getLsbD_xor, hbelow i (by omega), hbit i (.inr hi),
      Bool.false_xor]

theorem high_word_eq (b0 b1 b2 b3 : UInt8) :
    (0 : UInt32) ||| (b0.toUInt32 <<< 0) ||| (b1.toUInt32 <<< 8) ||| (b2.toUInt32 <<< 16) |||
        (b3.toUInt32 <<< 24) =
      (0 : UInt32) ^^^ (b0.toUInt32 <<< 0) ^^^ (b1.toUInt32 <<< 8) ^^^ (b2.toUInt32 <<< 16) ^^^
        (b3.toUInt32 <<< 24) := by
  obtain ⟨h0, hbelow⟩ := @or_placed 0 (by decide) 0 (fun i _ => getLsbD_zero) b0
  obtain ⟨h1, hbelow⟩ := @or_placed 8 (by decide) _ hbelow b1
  obtain ⟨h2, hbelow⟩ := @or_placed 16 (by decide) _ hbelow b2
  obtain ⟨h3, -⟩ := @or_placed 24 (by decide) _ hbelow b3
  rw [h0, h1, h2, h3]

theorem xor_four (x a b c d : UInt32) :
    x ^^^ a ^^^ b ^^^ c ^^^ d = x ^^^ (0 ^^^ a ^^^ b ^^^ c ^^^ d) := by
  rw [UInt32.zero_xor]
  simp only [UInt32.xor_assoc]

theorem xor_eight (a b c d e f g h : UInt32) :
    a ^^^ b ^^^ c ^^^ d ^^^ e ^^^ f ^^^ g ^^^ h = a ^^^ b ^^^ c ^^^ d ^^^ (e ^^^ f ^^^ g ^^^ h) := by
  simp only [UInt32.xor_assoc]

theorem crc32_update_block_eq (register : UInt32) (b0 b1 b2 b3 b4 b5 b6 b7 : UInt8) :
    crc32UpdateBlock register b0 b1 b2 b3 b4 b5 b6 b7 =
      crc32Update register [b0, b1, b2, b3, b4, b5, b6, b7] := by
  have hfour : crc32Update register [b0, b1, b2, b3, b4, b5, b6, b7] =
      crc32Update (crc32Update register [b0, b1, b2, b3]) [b4, b5, b6, b7] :=
    crc32_update_append register [b0, b1, b2, b3] [b4, b5, b6, b7]
  rw [hfour, crc32_update_word, crc32_update_word, crc32UpdateBlock, high_word_eq]
  simp only [crc32_block_table_eq, Nat.reduceAdd, Nat.reduceMul]
  generalize register ^^^ (b0.toUInt32 <<< 0) ^^^ (b1.toUInt32 <<< 8) ^^^ (b2.toUInt32 <<< 16) ^^^
    (b3.toUInt32 <<< 24) = low
  rw [xor_four (crc32Steps 32 low)]
  generalize (0 : UInt32) ^^^ (b4.toUInt32 <<< 0) ^^^ (b5.toUInt32 <<< 8) ^^^
    (b6.toUInt32 <<< 16) ^^^ (b7.toUInt32 <<< 24) = high
  -- The low word goes through 64 steps and the high one through 32.
  rw [crc32_steps_xor, ← crc32_steps_add, crc32_steps_word 32 low, crc32_steps_word 0 high]
  simp only [Nat.reduceAdd]
  exact xor_eight _ _ _ _ _ _ _ _

theorem crc32_update_blocks_eq (register : UInt32) (data : List UInt8) :
    crc32UpdateBlocks register data = crc32Update register data := by
  induction register, data using crc32UpdateBlocks.induct with
  | case1 register b0 b1 b2 b3 b4 b5 b6 b7 data ih =>
      rw [crc32UpdateBlocks, ih, crc32_update_block_eq, ← crc32_update_append]
      simp only [List.cons_append, List.nil_append]
  | case2 register data hshort => rw [crc32UpdateBlocks]; exact hshort

theorem crc32_update_portable_eq (register : UInt32) (data : List UInt8) :
    crc32UpdatePortable register data = crc32Update register data := by
  unfold crc32UpdatePortable
  split
  · exact crc32_update_blocks_eq register data
  · rfl

/-! ## Bit by bit -/

theorem crc32_serial_to_bit_vec (register : UInt32) (bit : Bool) :
    (crc32Serial register bit).toBitVec = Crc.serial 0xEDB88320#32 register.toBitVec bit := by
  unfold crc32Serial Crc.serial
  rw [UInt32.toBitVec_xor, UInt32.toBitVec_shiftRight]
  simp only [low_bit_eq]
  cases register.toBitVec.getLsbD 0 <;> cases bit <;> rfl

theorem foldl_serial_to_bit_vec (register : UInt32) (bits : List Bool) :
    (bits.foldl crc32Serial register).toBitVec =
      bits.foldl (Crc.serial 0xEDB88320#32) register.toBitVec := by
  induction bits generalizing register with
  | nil => rfl
  | cons bit bits ih => rw [List.foldl_cons, List.foldl_cons, ih, crc32_serial_to_bit_vec]

theorem byte_bits_eq (byte : UInt8) :
    byteBits byte = (List.range 8).map byte.toUInt32.toBitVec.getLsbD := rfl

theorem foldl_byte_bits (register : UInt32) (byte : UInt8) :
    (byteBits byte).foldl crc32Serial register = crc32UpdateByte register byte := by
  apply UInt32.toBitVec_inj.1
  have hserial := Crc.serial_steps 0xEDB88320#32 8 register.toBitVec byte.toUInt32.toBitVec
  rw [byte_shift_right, xor_zero] at hserial
  rw [foldl_serial_to_bit_vec, byte_bits_eq, hserial, crc32_update_byte_steps,
    crc32_steps_to_bit_vec, UInt32.toBitVec_xor]

theorem crc32_update_serial (register : UInt32) (data : List UInt8) :
    crc32Update register data = (data.flatMap byteBits).foldl crc32Serial register := by
  induction data generalizing register with
  | nil => rfl
  | cons byte data ih =>
      rw [List.flatMap_cons, List.foldl_append, foldl_byte_bits, ← ih]
      rfl

/-- Any chunks of a message leave the register of the division bit by bit. -/
theorem crc32_update_portable_serial (register : UInt32) (chunks : List (List UInt8)) :
    chunks.foldl crc32UpdatePortable register =
      (chunks.flatten.flatMap byteBits).foldl crc32Serial register := by
  induction chunks generalizing register with
  | nil => rfl
  | cons chunk chunks ih =>
      rw [List.foldl_cons, ih, crc32_update_portable_eq, crc32_update_serial, List.flatten_cons,
        List.flatMap_append, List.foldl_append]

/-- The check value of CRC-32/ISO-HDLC. -/
example : ~~~ crc32UpdatePortable 0xFFFFFFFF [0x31, 0x32, 0x33, 0x34, 0x35, 0x36, 0x37, 0x38, 0x39] =
    0xCBF43926 := by
  decide +kernel

end Akasha

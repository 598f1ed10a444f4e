import Akasha.Document.Value
import Akasha.Lib.ExactReader

/-!
# Reading machine values

The readers of `BorrowedBinaryReader` for the values of the storage formats, beside the bytes
`BinaryWriter` writes for them. Numbers of at most 32 bits are read as natural numbers.
-/

namespace Akasha

open Lib

/-! ## Writers -/

/-- `write_u64`. -/
def u64Bytes (value : UInt64) : List UInt8 :=
  leBytes 8 value.toNat

/-- `write_i64`. -/
def i64Bytes (value : Int64) : List UInt8 :=
  leBytes 8 value.toUInt64.toNat

/-- `write_f32`. -/
def f32Bytes (value : F32) : List UInt8 :=
  leBytes 4 value.bits.toNat

/-- `write_f64`. -/
def f64Bytes (value : F64) : List UInt8 :=
  leBytes 8 value.bits.toNat

/-! ## Readers -/

/-- `read_u8`. -/
def readU8 : Reader Nat := readUnsigned 1

/-- `read_u16`. -/
def readU16 : Reader Nat := readUnsigned 2

/-- `read_u32`. -/
def readU32 : Reader Nat := readUnsigned 4

/-- `read_u64`. -/
def readU64 : Reader UInt64 := UInt64.ofNat <$> readUnsigned 8

/-- `read_i64`. -/
def readI64 : Reader Int64 := (fun value => (UInt64.ofNat value).toInt64) <$> readUnsigned 8

/-- `read_f32`. -/
def readF32 : Reader F32 := (fun value => ⟨UInt32.ofNat value⟩) <$> readUnsigned 4

/-- `read_f64`. -/
def readF64 : Reader F64 := (fun value => ⟨UInt64.ofNat value⟩) <$> readUnsigned 8

/-- `read_f32s`: the bounds are checked before anything is taken. -/
def readF32s (count : Nat) : Reader (List F32) := fun bytes =>
  if count ≤ bytes.length / 4 then readTimes (fun _ => readF32) 0 count bytes
  else .error "truncated binary F32 tape"

/-- `String(from_utf8=bytes)`. -/
def readUtf8 (bytes : List UInt8) : Reader String := fun rest =>
  match String.fromUTF8? ⟨⟨bytes⟩⟩ with
  | some text => .ok (text, rest)
  | none => .error "invalid UTF-8"

/-! ## What was written is read -/

theorem reads_u8 (value : UInt8) : Reads readU8 [value] value.toNat := by
  have hbytes : [value] = leBytes 1 value.toNat := by
    simp [leBytes]
  rw [hbytes]
  exact reads_unsigned value.toNat_lt

theorem reads_u8_cons {β : Type} {next : Nat → Reader β} {value : UInt8} {bytes : List UInt8}
    {b : β} (h : Reads (next value.toNat) bytes b) :
    Reads (readU8 >>= next) (value :: bytes) b :=
  reads_bind (reads_u8 value) h

theorem all_u8_cons {β : Type} {next : Nat → Reader β} {value : UInt8} {bytes : List UInt8}
    {b : β} (h : ReadsAll (next value.toNat) bytes b) :
    ReadsAll (readU8 >>= next) (value :: bytes) b :=
  all_bind (reads_u8 value) h

theorem reads_u16 {value : Nat} (h : value < 2 ^ 16) : Reads readU16 (leBytes 2 value) value :=
  reads_unsigned h

theorem reads_u32 {value : Nat} (h : value < 2 ^ 32) : Reads readU32 (leBytes 4 value) value :=
  reads_unsigned h

theorem reads_u64 (value : UInt64) : Reads readU64 (u64Bytes value) value := by
  have hlt : value.toNat < 256 ^ 8 := value.toNat_lt
  have hread := reads_map UInt64.ofNat (reads_unsigned hlt)
  rwa [UInt64.ofNat_toNat] at hread

theorem reads_i64 (value : Int64) : Reads readI64 (i64Bytes value) value := by
  have hlt : value.toUInt64.toNat < 256 ^ 8 := value.toUInt64.toNat_lt
  have hread := reads_map (fun number => (UInt64.ofNat number).toInt64) (reads_unsigned hlt)
  rwa [UInt64.ofNat_toNat, show value.toUInt64.toInt64 = value from rfl] at hread

theorem reads_f32 (value : F32) : Reads readF32 (f32Bytes value) value := by
  have hlt : value.bits.toNat < 256 ^ 4 := value.bits.toNat_lt
  have hread := reads_map (fun number => F32.mk (UInt32.ofNat number)) (reads_unsigned hlt)
  rwa [UInt32.ofNat_toNat] at hread

theorem reads_f64 (value : F64) : Reads readF64 (f64Bytes value) value := by
  have hlt : value.bits.toNat < 256 ^ 8 := value.bits.toNat_lt
  have hread := reads_map (fun number => F64.mk (UInt64.ofNat number)) (reads_unsigned hlt)
  rwa [UInt64.ofNat_toNat] at hread

theorem length_flat_map_f32 (values : List F32) :
    (values.flatMap f32Bytes).length = values.length * 4 :=
  length_flat_map_const (fun _ => length_le_bytes 4 _) values

theorem reads_f32s (values : List F32) :
    Reads (readF32s values.length) (values.flatMap f32Bytes) values := by
  intro rest
  have hroom : values.length ≤ (values.flatMap f32Bytes ++ rest).length / 4 := by
    rw [List.length_append, length_flat_map_f32]
    omega
  rw [readF32s, if_pos hroom]
  exact reads_times (fun value _ => reads_f32 value) 0 rest

theorem reads_utf8 (text : String) : Reads (readUtf8 (utf8Bytes text)) [] text := by
  intro rest
  have hbytes : (⟨⟨utf8Bytes text⟩⟩ : ByteArray) = text.toByteArray := rfl
  simp only [readUtf8, hbytes, String.fromUTF8?]
  rw [dif_pos text.isValidUTF8]
  rfl

/-! ## What was read is what was written -/

theorem le_bytes_one (value : Nat) : leBytes 1 value = [UInt8.ofNat value] := by
  rw [leBytes, leBytes]
  congr 1
  apply UInt8.toNat_inj.1
  simp

theorem exact_u8 : Exact readU8 (· < 2 ^ 8) (leBytes 1) :=
  exact_unsigned 1

theorem exact_u16 : Exact readU16 (· < 2 ^ 16) (leBytes 2) :=
  exact_unsigned 2

theorem exact_u32 : Exact readU32 (· < 2 ^ 32) (leBytes 4) :=
  exact_unsigned 4

theorem read_u64_iff {bytes rest : List UInt8} {value : UInt64} :
    readU64 bytes = .ok (value, rest) ↔ bytes = u64Bytes value ++ rest := by
  have hexact := exact_map (exact_unsigned 8) (f := UInt64.ofNat) (g := UInt64.toNat)
    (fun b _ => UInt64.ofNat_toNat) (fun a ha => UInt64.toNat_ofNat_of_lt' ha)
  exact (hexact bytes value rest).trans (and_iff_right value.toNat_lt)

theorem exact_u64 : Exact readU64 (fun _ => True) u64Bytes :=
  fun _ _ _ => read_u64_iff.trans (and_iff_right trivial).symm

theorem read_i64_iff {bytes rest : List UInt8} {value : Int64} :
    readI64 bytes = .ok (value, rest) ↔ bytes = i64Bytes value ++ rest := by
  have hexact := exact_map (exact_unsigned 8) (f := fun number => (UInt64.ofNat number).toInt64)
    (g := fun number : Int64 => number.toUInt64.toNat)
    (fun b _ => by rw [UInt64.ofNat_toNat]; rfl)
    (fun a ha => by
      show (UInt64.ofNat a).toNat = a
      exact UInt64.toNat_ofNat_of_lt' ha)
  exact (hexact bytes value rest).trans (and_iff_right value.toUInt64.toNat_lt)

theorem read_f32_iff {bytes rest : List UInt8} {value : F32} :
    readF32 bytes = .ok (value, rest) ↔ bytes = f32Bytes value ++ rest := by
  have hexact := exact_map (exact_unsigned 4) (f := fun number => F32.mk (UInt32.ofNat number))
    (g := fun value : F32 => value.bits.toNat) (fun b _ => by rw [UInt32.ofNat_toNat])
    (fun a ha => UInt32.toNat_ofNat_of_lt' ha)
  exact (hexact bytes value rest).trans (and_iff_right value.bits.toNat_lt)

theorem read_f64_iff {bytes rest : List UInt8} {value : F64} :
    readF64 bytes = .ok (value, rest) ↔ bytes = f64Bytes value ++ rest := by
  have hexact := exact_map (exact_unsigned 8) (f := fun number => F64.mk (UInt64.ofNat number))
    (g := fun value : F64 => value.bits.toNat) (fun b _ => by rw [UInt64.ofNat_toNat])
    (fun a ha => UInt64.toNat_ofNat_of_lt' ha)
  exact (hexact bytes value rest).trans (and_iff_right value.bits.toNat_lt)

theorem exact_i64 : Exact readI64 (fun _ => True) i64Bytes :=
  fun _ _ _ => read_i64_iff.trans (and_iff_right trivial).symm

theorem exact_f32 : Exact readF32 (fun _ => True) f32Bytes :=
  fun _ _ _ => read_f32_iff.trans (and_iff_right trivial).symm

theorem exact_f64 : Exact readF64 (fun _ => True) f64Bytes :=
  fun _ _ _ => read_f64_iff.trans (and_iff_right trivial).symm

theorem read_utf8_iff {text : String} {bytes input rest : List UInt8} :
    readUtf8 bytes input = .ok (text, rest) ↔ bytes = utf8Bytes text ∧ input = rest := by
  constructor
  · intro h
    unfold readUtf8 String.fromUTF8? at h
    by_cases hvalid : (⟨⟨bytes⟩⟩ : ByteArray).IsValidUTF8
    · rw [dif_pos hvalid] at h
      obtain ⟨rfl, rfl⟩ := Prod.mk.inj (Except.ok.inj h)
      exact ⟨rfl, rfl⟩
    · rw [dif_neg hvalid] at h
      cases h
  · rintro ⟨rfl, rfl⟩
    exact reads_utf8 text input

theorem text_bind_ok {β : Type} {length : Nat} {next : String → Reader β} {bytes : List UInt8}
    {result : β × List UInt8} :
    (readSpan length >>= fun span => readUtf8 span >>= next) bytes = .ok result ↔
      ∃ text, (utf8Bytes text).length = length ∧ ∃ rest, bytes = utf8Bytes text ++ rest ∧
        next text rest = .ok result := by
  rw [(exact_span length).bind_ok]
  constructor
  · rintro ⟨span, hlength, rest, rfl, h⟩
    obtain ⟨text, left, htext, hnext⟩ := reader_bind_ok.1 h
    obtain ⟨rfl, rfl⟩ := read_utf8_iff.1 htext
    exact ⟨text, hlength, rest, rfl, hnext⟩
  · rintro ⟨text, hlength, rest, rfl, hnext⟩
    exact ⟨_, hlength, rest, rfl, reader_bind_ok.2 ⟨text, rest, reads_utf8 text rest, hnext⟩⟩

theorem utf8_bytes_injective {first second : String} (h : utf8Bytes first = utf8Bytes second) :
    first = second := by
  have hfirst := reads_utf8 first []
  rw [h, reads_utf8 second []] at hfirst
  exact (Prod.mk.inj (Except.ok.inj hfirst)).1.symm

theorem utf8_bytes_flat_map (text : String) :
    utf8Bytes text = text.toList.flatMap String.utf8EncodeChar := by
  have hbytes : text.toUTF8 = text.toList.utf8Encode := String.utf8Encode_toList.symm
  rw [utf8Bytes, hbytes]
  simp [List.utf8Encode]

theorem utf8_bytes_eq_nil {text : String} : utf8Bytes text = [] ↔ text = "" := by
  constructor
  · exact fun h => utf8_bytes_injective h
  · rintro rfl
    rfl

end Akasha

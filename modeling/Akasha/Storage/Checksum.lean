import Akasha.Lib.Bytes
import Akasha.Lib.Except

/-!
# CRC-32/ISO-HDLC

The checksum of the storage formats (`storage/checksum.mojo`), and of `zlib.crc32`, one byte at
a time with the reflected polynomial.
-/

namespace Akasha

open Lib

/-- One bit of the reflected division. -/
def crc32Bit (remainder : UInt32) : UInt32 :=
  (remainder >>> 1) ^^^ (if remainder &&& 1 = 1 then 0xEDB88320 else 0)

/-- The `_CRC32_TABLE` entry of one byte: eight bits of the division. -/
def crc32TableEntry (byte : UInt32) : UInt32 :=
  Nat.repeat crc32Bit 8 byte

/-- `_crc32_update`: advance the register over one byte. -/
def crc32UpdateByte (register : UInt32) (byte : UInt8) : UInt32 :=
  (register >>> 8) ^^^ crc32TableEntry ((register ^^^ byte.toUInt32) &&& 0xFF)

/-- `crc32_update`: advance the register over a byte list. -/
def crc32Update (register : UInt32) (data : List UInt8) : UInt32 :=
  data.foldl crc32UpdateByte register

theorem crc32_update_append (register : UInt32) (a b : List UInt8) :
    crc32Update register (a ++ b) = crc32Update (crc32Update register a) b := by
  unfold crc32Update
  rw [List.foldl_append]

/-- `crc32`: start from all ones and complement the result. -/
def crc32 (data : List UInt8) : UInt32 :=
  ~~~ crc32Update 0xFFFFFFFF data

/-- Close a file or an envelope with the CRC-32 of everything after its magic. -/
def withChecksum (body : List UInt8) : List UInt8 :=
  body ++ leBytes 4 (crc32 (body.drop 4)).toNat

namespace Storage

/-- The comparison of the CRC-32 that closes a file. -/
def checkFileChecksum (message : String) (bytes : List UInt8) : Except String Unit :=
  require ((crc32 ((bytes.take (bytes.length - 4)).drop 4)).toNat =
    leValue (bytes.drop (bytes.length - 4))) message

theorem check_file_checksum_ok {message : String} {body : List UInt8} {checksum : Nat}
    (h : checksum < 256 ^ 4) {u : Unit} :
    checkFileChecksum message (body ++ leBytes 4 checksum) = .ok u ↔
      body ++ leBytes 4 checksum = withChecksum body := by
  have hlength : (body ++ leBytes 4 checksum).length - 4 = body.length := by simp
  have hcrc : (crc32 (body.drop 4)).toNat < 256 ^ 4 := UInt32.toNat_lt _
  rw [checkFileChecksum, require_ok, hlength, List.take_left, List.drop_left, le_value_le_bytes,
    Nat.mod_eq_of_lt h, withChecksum, List.append_cancel_left_eq]
  constructor
  · intro heq
    rw [heq]
  · intro heq
    have hvalue := congrArg leValue heq
    rwa [le_value_le_bytes, le_value_le_bytes, Nat.mod_eq_of_lt h, Nat.mod_eq_of_lt hcrc,
      eq_comm] at hvalue

end Storage

end Akasha

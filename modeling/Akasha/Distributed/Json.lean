import Akasha.Document.Value
import Akasha.Storage.Checksum
import Mathlib.Data.List.Sort

/-!
# JSON values and their checksum

The values that cross process boundaries and stand in the journal are Python values made by
`json`. A `dict` is the list of its items in insertion order. `canonicalBytes` is
`json.dumps(value, sort_keys=True, separators=(",", ":"), ensure_ascii=False)`, and `checksumOf`
the CRC-32 of it; `convertible` says when Python has these bytes. How Python prints a float and
reads an integer is left to the class `FloatRepr`: nothing proved here depends on it.
-/

namespace Akasha.Distributed

/-- A Python value as `json` reads and writes it. `other` is a value of any other type, or a text
that UTF-8 does not encode: what `int` makes of it, and how it is written, where Python does not
raise. -/
inductive Json where
  | null
  | bool (value : Bool)
  | int (value : Int)
  | float (value : F64)
  | str (value : String)
  | arr (items : List Json)
  | obj (fields : List (String × Json))
  | other (number : Option Int) (text : Option String)

namespace Json

/-- `value.get(name)`: the item of a `dict`. -/
def get? : Json → String → Option Json
  | .obj fields, name => fields.lookup name
  | _, _ => none

/-- `type(value) is str`. -/
def isStr : Json → Bool
  | .str _ => true
  | _ => false

/-- `type(value) is int`. -/
def isInt : Json → Bool
  | .int _ => true
  | _ => false

/-- `type(value) is bool`. -/
def isBool : Json → Bool
  | .bool _ => true
  | _ => false

theorem is_str_iff {value : Json} : value.isStr = true ↔ ∃ text, value = .str text := by
  cases value <;> simp [isStr]

theorem is_int_iff {value : Json} : value.isInt = true ↔ ∃ number, value = .int number := by
  cases value <;> simp [isInt]

theorem is_bool_iff {value : Json} : value.isBool = true ↔ ∃ flag, value = .bool flag := by
  cases value <;> simp [isBool]

/-- `type(value) is dict and set(value) == names`. -/
def hasKeys : Json → List String → Bool
  | .obj fields, names =>
      fields.length == names.length && fields.all (fun item => item.1 ∈ names) &&
        names.all (fun name => fields.any (fun item => item.1 == name))
  | _, _ => false

end Json

mutual

/-- Equality of values, structurally. -/
def Json.same : Json → Json → Bool
  | .null, .null => true
  | .bool a, .bool b => a == b
  | .int a, .int b => a == b
  | .float a, .float b => a == b
  | .str a, .str b => a == b
  | .arr a, .arr b => sameItems a b
  | .obj a, .obj b => sameFields a b
  | .other a text, .other b written => a == b && text == written
  | _, _ => false

/-- Equality of lists, element by element. -/
def sameItems : List Json → List Json → Bool
  | [], [] => true
  | a :: first, b :: second => a.same b && sameItems first second
  | _, _ => false

/-- Equality of `dict` items in insertion order. -/
def sameFields : List (String × Json) → List (String × Json) → Bool
  | [], [] => true
  | (name, a) :: first, (other, b) :: second =>
      name == other && a.same b && sameFields first second
  | _, _ => false

end

mutual

theorem Json.same_iff : ∀ a b : Json, a.same b = true ↔ a = b
  | .null, b => by cases b <;> simp [Json.same]
  | .bool _, b => by cases b <;> simp [Json.same]
  | .int _, b => by cases b <;> simp [Json.same]
  | .float _, b => by cases b <;> simp [Json.same]
  | .str _, b => by cases b <;> simp [Json.same]
  | .arr first, b => by cases b <;> simp [Json.same, same_items_iff first]
  | .obj first, b => by cases b <;> simp [Json.same, same_fields_iff first]
  | .other _ _, b => by cases b <;> simp [Json.same]

theorem same_items_iff : ∀ a b : List Json, sameItems a b = true ↔ a = b
  | [], b => by cases b <;> simp [sameItems]
  | a :: first, b => by
      cases b <;> simp [sameItems, Json.same_iff a, same_items_iff first]

theorem same_fields_iff : ∀ a b : List (String × Json), sameFields a b = true ↔ a = b
  | [], b => by cases b <;> simp [sameFields]
  | (name, a) :: first, b => by
      cases b with
      | nil => simp [sameFields]
      | cons item second =>
          obtain ⟨other, b⟩ := item
          simp [sameFields, Json.same_iff a, same_fields_iff first, and_assoc]

end

instance : DecidableEq Json := fun a b => decidable_of_iff _ (Json.same_iff a b)

/-- Python's `float.__repr__`, and `int` of a text where it does not raise. -/
class FloatRepr where
  repr : F64 → String
  intOf : String → Option Int

/-- The representations of a few floats, enough for the sample runs. -/
@[reducible] def sampleFloatRepr : FloatRepr where
  repr value :=
    if value.bits = 0 then "0.0"
    else if value.bits = 0x3FF0000000000000 then "1.0"
    else if value.bits = 0x4000000000000000 then "2.0"
    else "nan"
  intOf := String.toInt?

/-- One character of a JSON string: quotes, backslashes and control characters are escaped. -/
def escapeChar (c : Char) : List Char :=
  if c = '"' then ['\\', '"']
  else if c = '\\' then ['\\', '\\']
  else if c = '\n' then ['\\', 'n']
  else if c = '\r' then ['\\', 'r']
  else if c = '\t' then ['\\', 't']
  else if c.toNat = 8 then ['\\', 'b']
  else if c.toNat = 12 then ['\\', 'f']
  else if c.toNat < 32 then
    ['\\', 'u', '0', '0', Nat.digitChar (c.toNat / 16), Nat.digitChar (c.toNat % 16)]
  else [c]

/-- A JSON string with its quotes, in UTF-8. -/
def quoteBytes (text : String) : List UInt8 :=
  34 :: (text.toList.flatMap escapeChar).flatMap String.utf8EncodeChar ++ [34]

/-- Join encoded parts with commas. -/
def joinComma : List (List UInt8) → List UInt8
  | [] => []
  | [part] => part
  | part :: parts => part ++ 44 :: joinComma parts

section

variable [FloatRepr]

mutual

/-- `canonical_bytes`: compact JSON with sorted keys, in UTF-8. -/
def canonicalBytes : Json → List UInt8
  | .null => utf8Bytes "null"
  | .bool value => utf8Bytes (if value then "true" else "false")
  | .int value => utf8Bytes (toString value)
  | .float value => utf8Bytes (FloatRepr.repr value)
  | .str value => quoteBytes value
  | .arr items => 91 :: joinComma (canonicalItems items) ++ [93]
  | .obj fields =>
      let sorted := (canonicalFields fields).insertionSort (fun a b => a.1 ≤ b.1)
      123 :: joinComma (sorted.map fun item => quoteBytes item.1 ++ 58 :: item.2) ++ [125]
  | .other _ text => utf8Bytes (text.getD "")

/-- The encoded items of a list. -/
def canonicalItems : List Json → List (List UInt8)
  | [] => []
  | item :: items => canonicalBytes item :: canonicalItems items

/-- The keys of a `dict` with their encoded values. -/
def canonicalFields : List (String × Json) → List (String × List UInt8)
  | [] => []
  | (name, value) :: fields => (name, canonicalBytes value) :: canonicalFields fields

end

/-- `zlib.crc32` of the canonical bytes. -/
def checksumOf (value : Json) : Nat :=
  (crc32 (canonicalBytes value)).toNat

end

/-- The most digits `int` reads and `str` prints. -/
def maxIntDigits : Nat := 4300

mutual

/-- `canonical_bytes` does not raise: Python writes every value, and every integer has no more
digits than it prints. -/
def convertible : Json → Bool
  | .int value => (Nat.toDigits 10 value.natAbs).length ≤ maxIntDigits
  | .arr items => convertibleItems items
  | .obj fields => convertibleFields fields
  | .other _ text => text.isSome
  | _ => true

/-- Every item of a list. -/
def convertibleItems : List Json → Bool
  | [] => true
  | item :: items => convertible item && convertibleItems items

/-- Every value of a `dict`. -/
def convertibleFields : List (String × Json) → Bool
  | [] => true
  | (_, value) :: fields => convertible value && convertibleFields fields

end

theorem convertible_items_iff (items : List Json) :
    convertibleItems items = true ↔ ∀ item ∈ items, convertible item = true := by
  induction items with
  | nil => simp [convertibleItems]
  | cons item items ih => simp [convertibleItems, ih]

theorem convertible_fields_iff (fields : List (String × Json)) :
    convertibleFields fields = true ↔ ∀ entry ∈ fields, convertible entry.2 = true := by
  induction fields with
  | nil => simp [convertibleFields]
  | cons entry fields ih => simp [convertibleFields, ih]

end Akasha.Distributed

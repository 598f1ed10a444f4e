import Akasha.Distributed.Json
import Mathlib.Data.Char
import Mathlib.Data.List.TakeDrop
import Mathlib.Tactic.IntervalCases

/-!
# JSON as text

`loads` is `json.loads` on the bytes of a line: UTF-8, then the scanner of Python's `json` module
with its whitespace, escapes, surrogate pairs, number syntax and repeated keys. `printText` is the
text of a value, and `canonical_bytes_eq` says that the bytes the checksums are taken of are the
text of the value with sorted keys. The lemmas here say where the scanner stops: a string at its
closing quote, a number where the text no longer goes on as one.
-/

namespace Akasha.Distributed

open Lib List

/-! ## The scanner -/

/-- What `json.loads` may raise: `JSONDecodeError`, `UnicodeDecodeError`, or the `ValueError` of an
integer with too many digits. -/
inductive JsonError where
  | decode
  | unicode
  | digits
deriving DecidableEq, Repr

/-- `[ \t\n\r]*`. -/
def skipSpace (chars : List Char) : List Char :=
  chars.dropWhile fun c => c = ' ' ∨ c = '\t' ∨ c = '\n' ∨ c = '\r'

/-- The value of a hexadecimal digit. -/
def hexDigit? (c : Char) : Option Nat :=
  if '0' ≤ c ∧ c ≤ '9' then some (c.toNat - 48)
  else if 'a' ≤ c ∧ c ≤ 'f' then some (c.toNat - 87)
  else if 'A' ≤ c ∧ c ≤ 'F' then some (c.toNat - 55)
  else none

/-- The value of four hexadecimal digits. -/
def hexUnit? (a b c d : Char) : Option Nat := do
  let first ← hexDigit? a
  let second ← hexDigit? b
  let third ← hexDigit? c
  let fourth ← hexDigit? d
  pure (((first * 16 + second) * 16 + third) * 16 + fourth)

/-- The character an escape of one letter stands for. -/
def escaped? (c : Char) : Option Char :=
  if c = '"' then some '"'
  else if c = '\\' then some '\\'
  else if c = '/' then some '/'
  else if c = 'b' then some (Char.ofNat 8)
  else if c = 'f' then some (Char.ofNat 12)
  else if c = 'n' then some '\n'
  else if c = 'r' then some '\r'
  else if c = 't' then some '\t'
  else none

/-- The code points of a string up to its closing quote; an escaped surrogate stands alone. -/
def scanUnits : List Char → Option (List Nat × List Char)
  | [] => none
  | '"' :: rest => some ([], rest)
  | '\\' :: 'u' :: a :: b :: c :: d :: rest => do
      let unit ← hexUnit? a b c d
      let (units, left) ← scanUnits rest
      pure (unit :: units, left)
  | '\\' :: c :: rest => do
      let value ← escaped? c
      let (units, left) ← scanUnits rest
      pure (value.toNat :: units, left)
  | c :: rest =>
      if c.toNat < 32 ∨ c = '\\' then none
      else do
        let (units, left) ← scanUnits rest
        pure (c.toNat :: units, left)

/-- A high surrogate before a low one makes one character. A surrogate on its own has no character;
the checksum of the line it stands in could not be computed. -/
def joinSurrogates : List Nat → Option (List Char)
  | [] => some []
  | unit :: rest =>
      if 0xD800 ≤ unit ∧ unit < 0xDC00 then
        match rest with
        | low :: rest =>
            if 0xDC00 ≤ low ∧ low < 0xE000 then
              (Char.ofNat (0x10000 + (unit - 0xD800) * 0x400 + (low - 0xDC00)) :: ·) <$>
                joinSurrogates rest
            else none
        | [] => none
      else if 0xDC00 ≤ unit ∧ unit < 0xE000 then none
      else (Char.ofNat unit :: ·) <$> joinSurrogates rest

/-- `scanstring`, after the opening quote. -/
def scanString (chars : List Char) : Except JsonError (String × List Char) :=
  match scanUnits chars with
  | none => .error .decode
  | some (units, rest) =>
      match joinSurrogates units with
      | some text => .ok (String.ofList text, rest)
      | none => .error .unicode

/-- The digits at the front. -/
def scanDigits (chars : List Char) : List Char × List Char :=
  chars.span Char.isDigit

/-- The part `-?` of a number. -/
def scanMinus : List Char → List Char × List Char
  | '-' :: rest => (['-'], rest)
  | rest => ([], rest)

/-- The part `0|[1-9][0-9]*` of a number. -/
def scanWhole : List Char → List Char × List Char
  | '0' :: rest => (['0'], rest)
  | chars => scanDigits chars

/-- The part `(\.[0-9]+)?` of a number. -/
def scanFraction : List Char → List Char × List Char
  | '.' :: rest =>
      let (digits, left) := scanDigits rest
      if digits = [] then ([], '.' :: rest) else ('.' :: digits, left)
  | rest => ([], rest)

/-- The part `[-+]?` of an exponent. -/
def scanSign : List Char → List Char × List Char
  | '-' :: rest => (['-'], rest)
  | '+' :: rest => (['+'], rest)
  | rest => ([], rest)

/-- The part `([eE][-+]?[0-9]+)?` of a number. -/
def scanExponent : List Char → List Char × List Char
  | [] => ([], [])
  | c :: rest =>
      if c = 'e' ∨ c = 'E' then
        let (sign, unsigned) := scanSign rest
        let (digits, left) := scanDigits unsigned
        if digits = [] then ([], c :: rest) else (c :: sign ++ digits, left)
      else ([], c :: rest)

/-- The match of `NUMBER_RE` at the front of a text, and what follows it. -/
structure NumberParts where
  minus : List Char
  whole : List Char
  fraction : List Char
  exponent : List Char
  rest : List Char
deriving DecidableEq

/-- `NUMBER_RE.match`; without a whole part there is no match. -/
def numberParts (chars : List Char) : NumberParts :=
  let (minus, unsigned) := scanMinus chars
  let (whole, afterWhole) := scanWhole unsigned
  let (fraction, afterFraction) := scanFraction afterWhole
  let (exponent, rest) := scanExponent afterFraction
  ⟨minus, whole, fraction, exponent, rest⟩

/-- `int(text)`: digits with an optional sign. -/
def intOfText : List Char → Int
  | '-' :: digits => -(Nat.ofDigitChars 10 digits 0 : Int)
  | digits => Nat.ofDigitChars 10 digits 0

/-- Python's floats as text. -/
class FloatText extends FloatRepr where
  /-- `float(text)`. -/
  float : List Char → F64

section

variable [FloatText]

/-- A number without fraction and exponent is an integer. -/
def numberOfText (minus whole fraction exponent : List Char) : Except JsonError Json :=
  if fraction = [] ∧ exponent = [] then
    if whole.length ≤ maxIntDigits then .ok (.int (intOfText (minus ++ whole)))
    else .error .digits
  else .ok (.float (FloatText.float (minus ++ whole ++ fraction ++ exponent)))

/-- A number at the front of the text. -/
def scanNumber (chars : List Char) : Except JsonError (Json × List Char) :=
  let parts := numberParts chars
  if parts.whole = [] then .error .decode
  else do
    let number ← numberOfText parts.minus parts.whole parts.fraction parts.exponent
    pure (number, parts.rest)

/-- A literal that starts with neither a quote nor a bracket. -/
def scanLiteral : List Char → Except JsonError (Json × List Char)
  | 'n' :: 'u' :: 'l' :: 'l' :: rest => .ok (.null, rest)
  | 't' :: 'r' :: 'u' :: 'e' :: rest => .ok (.bool true, rest)
  | 'f' :: 'a' :: 'l' :: 's' :: 'e' :: rest => .ok (.bool false, rest)
  | 'N' :: 'a' :: 'N' :: rest => .ok (.float ⟨0x7FF8000000000000⟩, rest)
  | 'I' :: 'n' :: 'f' :: 'i' :: 'n' :: 'i' :: 't' :: 'y' :: rest =>
      .ok (.float ⟨0x7FF0000000000000⟩, rest)
  | '-' :: 'I' :: 'n' :: 'f' :: 'i' :: 'n' :: 'i' :: 't' :: 'y' :: rest =>
      .ok (.float ⟨0xFFF0000000000000⟩, rest)
  | chars => scanNumber chars

/-- `dict(pairs)`: the last value of a key, at the place of the first. -/
def setItem (fields : List (String × Json)) (item : String × Json) : List (String × Json) :=
  if fields.any (·.1 = item.1) then
    fields.map fun old => if old.1 = item.1 then item else old
  else fields ++ [item]

mutual

/-- `scan_once`, with a bound on its nesting and length. -/
def scanValue : Nat → List Char → Except JsonError (Json × List Char)
  | 0, _ => .error .decode
  | _ + 1, '"' :: rest => do
      let (text, left) ← scanString rest
      pure (.str text, left)
  | fuel + 1, '{' :: rest =>
      match skipSpace rest with
      | '}' :: left => .ok (.obj [], left)
      | inside => do
          let (fields, left) ← scanMembers fuel [] inside
          pure (.obj fields, left)
  | fuel + 1, '[' :: rest =>
      match skipSpace rest with
      | ']' :: left => .ok (.arr [], left)
      | inside => do
          let (items, left) ← scanItems fuel inside
          pure (.arr items, left)
  | _ + 1, chars => scanLiteral chars

/-- The members of an object, up to its closing brace. -/
def scanMembers : Nat → List (String × Json) → List Char →
    Except JsonError (List (String × Json) × List Char)
  | fuel + 1, fields, '"' :: rest => do
      let (name, afterName) ← scanString rest
      match skipSpace afterName with
      | ':' :: afterColon => do
          let (value, afterValue) ← scanValue fuel (skipSpace afterColon)
          match skipSpace afterValue with
          | '}' :: left => pure (setItem fields (name, value), left)
          | ',' :: more => scanMembers fuel (setItem fields (name, value)) (skipSpace more)
          | _ => .error .decode
      | _ => .error .decode
  | _, _, _ => .error .decode

/-- The items of an array, up to its closing bracket. -/
def scanItems : Nat → List Char → Except JsonError (List Json × List Char)
  | 0, _ => .error .decode
  | fuel + 1, chars => do
      let (item, afterItem) ← scanValue fuel chars
      match skipSpace afterItem with
      | ']' :: left => pure ([item], left)
      | ',' :: more => do
          let (items, left) ← scanItems fuel (skipSpace more)
          pure (item :: items, left)
      | _ => .error .decode

end

/-- `json.loads` of a string: one value, with nothing but space around it. -/
def loadsText (chars : List Char) : Except JsonError Json := do
  let (value, rest) ← scanValue (chars.length + 1) (skipSpace chars)
  if skipSpace rest = [] then pure value else .error .decode

/-- `json.loads` of bytes in UTF-8. -/
def loads (bytes : List UInt8) : Except JsonError Json :=
  match String.fromUTF8? ⟨⟨bytes⟩⟩ with
  | some text => loadsText text.toList
  | none => .error .unicode

end

/-! ## Strings -/

theorem scan_units_hex {n : Nat} (h : n < 32) (rest : List Char) :
    scanUnits ('\\' :: 'u' :: '0' :: '0' :: Nat.digitChar (n / 16) :: Nat.digitChar (n % 16) ::
        rest) =
      (scanUnits rest).map fun found => (n :: found.1, found.2) := by
  have hunit : hexUnit? '0' '0' (Nat.digitChar (n / 16)) (Nat.digitChar (n % 16)) = some n := by
    revert n
    decide
  rw [scanUnits, hunit]
  cases scanUnits rest <;> rfl

theorem scan_units_plain {c : Char} (hquote : c ≠ '"') (hslash : c ≠ '\\')
    (h : 32 ≤ c.toNat) (rest : List Char) :
    scanUnits (c :: rest) = (scanUnits rest).map fun found => (c.toNat :: found.1, found.2) := by
  rw [scanUnits, if_neg (not_or.2 ⟨by omega, hslash⟩)]
  · cases scanUnits rest <;> rfl
  · exact hquote
  · intro _ _ _ _ _ hc
    exact absurd hc hslash
  · intro _ _ hc
    exact absurd hc hslash

theorem scan_units_letter {letter c : Char} (hletter : letter ≠ 'u')
    (h : escaped? letter = some c) (rest : List Char) :
    scanUnits ('\\' :: letter :: rest) =
      (scanUnits rest).map fun found => (c.toNat :: found.1, found.2) := by
  rw [scanUnits, h]
  · cases scanUnits rest <;> rfl
  · intro _ _ _ _ _ hu
    exact absurd hu hletter

theorem scan_units_escape (c : Char) (rest : List Char) :
    scanUnits (escapeChar c ++ rest) =
      (scanUnits rest).map fun found => (c.toNat :: found.1, found.2) := by
  unfold escapeChar
  iterate 5
    split
    · next h =>
        subst h
        exact scan_units_letter (by decide) rfl rest
  split
  · next h =>
      obtain rfl : c = Char.ofNat 8 := by rw [← h, Char.ofNat_toNat]
      exact scan_units_letter (by decide) rfl rest
  split
  · next h =>
      obtain rfl : c = Char.ofNat 12 := by rw [← h, Char.ofNat_toNat]
      exact scan_units_letter (by decide) rfl rest
  split
  · next h => exact scan_units_hex h rest
  · exact scan_units_plain ‹_› ‹_› (by omega) rest

theorem to_digits_head {n : Nat} (h : 0 < n) : (Nat.toDigits 10 n).head? ≠ some '0' := by
  induction n using Nat.strongRecOn with
  | ind n ih =>
      by_cases hlt : n < 10
      · rw [Nat.toDigits_of_lt_base hlt]
        interval_cases n <;> simp
      · rw [Nat.toDigits_of_base_le (by norm_num) (by omega),
          head?_append_of_ne_nil _ Nat.toDigits_ne_nil]
        exact ih (n / 10) (by omega) (by omega)

theorem scan_units_text (text rest : List Char) :
    scanUnits (text.flatMap escapeChar ++ '"' :: rest) = some (text.map Char.toNat, rest) := by
  induction text with
  | nil => rfl
  | cons c text ih =>
      rw [flatMap_cons, append_assoc, scan_units_escape, ih]
      rfl

theorem join_surrogates_text (text : List Char) :
    joinSurrogates (text.map Char.toNat) = some text := by
  induction text with
  | nil => rfl
  | cons c text ih =>
      have hvalid : c.toNat < 0xD800 ∨ 0xDFFF < c.toNat := by
        have := c.valid
        simp [UInt32.isValidChar, Nat.isValidChar] at this
        have : c.toNat = c.val.toNat := rfl
        omega
      rw [map_cons, joinSurrogates.eq_def]
      simp only
      rw [if_neg (by omega), if_neg (by omega), ih,
        Char.ofNat_toNat]
      rfl

theorem scan_string_quote (text : String) (rest : List Char) :
    scanString (text.toList.flatMap escapeChar ++ '"' :: rest) = .ok (text, rest) := by
  rw [scanString, scan_units_text]
  simp [join_surrogates_text]

/-! ## Numbers -/

/-- The text does not go on as a number would. -/
def EndsNumber (rest : List Char) : Prop :=
  ∀ c ∈ rest.head?, c.isDigit = false ∧ c ≠ '.' ∧ c ≠ 'e' ∧ c ≠ 'E'

/-- The digits of a part of a number: at least one. -/
def Digits (digits : List Char) : Prop :=
  digits ≠ [] ∧ ∀ c ∈ digits, c.isDigit = true

/-- The parts of a number in the syntax of `NUMBER_RE`. -/
structure NumberText (minus whole fraction exponent : List Char) : Prop where
  minus : minus = [] ∨ minus = ['-']
  whole : whole = ['0'] ∨ Digits whole ∧ whole.head? ≠ some '0'
  fraction : fraction = [] ∨ ∃ digits, Digits digits ∧ fraction = '.' :: digits
  exponent : exponent = [] ∨ ∃ sign digits, (sign = [] ∨ sign = ['-'] ∨ sign = ['+']) ∧
    Digits digits ∧ exponent = 'e' :: sign ++ digits

theorem scan_digits_append {digits rest : List Char} (h : ∀ c ∈ digits, c.isDigit = true)
    (hrest : ∀ c ∈ rest.head?, c.isDigit = false) :
    scanDigits (digits ++ rest) = (digits, rest) := by
  rw [scanDigits, span_eq_takeWhile_dropWhile]
  have hstop : rest.takeWhile Char.isDigit = [] ∧ rest.dropWhile Char.isDigit = rest := by
    cases rest with
    | nil => simp
    | cons c rest => simp [hrest c (by simp)]
  rw [takeWhile_append_of_pos h, dropWhile_append_of_pos h, hstop.1, hstop.2,
    append_nil]

/-- The exponent of a number ends where the number does. -/
theorem scan_exponent_append {exponent rest : List Char}
    (h : exponent = [] ∨ ∃ sign digits, (sign = [] ∨ sign = ['-'] ∨ sign = ['+']) ∧
      Digits digits ∧ exponent = 'e' :: sign ++ digits)
    (hrest : EndsNumber rest) : scanExponent (exponent ++ rest) = (exponent, rest) := by
  rcases h with rfl | ⟨sign, digits, hsign, hdigits, rfl⟩
  · cases rest with
    | nil => rfl
    | cons c rest =>
        have := hrest c (by simp)
        simp [scanExponent, this.2.2]
  · have hscan := scan_digits_append hdigits.2 fun c hc => (hrest c hc).1
    have hsigned : scanSign (sign ++ digits ++ rest) = (sign, digits ++ rest) := by
      rcases hsign with rfl | rfl | rfl
      · obtain ⟨hne, hall⟩ := hdigits
        obtain ⟨c, digits, rfl⟩ := exists_cons_of_ne_nil hne
        have hc := hall c (by simp)
        rw [nil_append, cons_append, scanSign]
        · intro _ hcons
          obtain rfl := (cons.inj hcons).1
          exact absurd hc (by decide)
        · intro _ hcons
          obtain rfl := (cons.inj hcons).1
          exact absurd hc (by decide)
      · rfl
      · rfl
    rw [cons_append, cons_append, scanExponent, if_pos (.inl rfl)]
    simp only [hsigned, hscan, if_neg hdigits.1, cons_append]

theorem scan_fraction_append {fraction rest : List Char}
    (h : fraction = [] ∨ ∃ digits, Digits digits ∧ fraction = '.' :: digits)
    (hrest : ∀ c ∈ rest.head?, c.isDigit = false ∧ c ≠ '.') :
    scanFraction (fraction ++ rest) = (fraction, rest) := by
  rcases h with rfl | ⟨digits, hdigits, rfl⟩
  · cases rest with
    | nil => rfl
    | cons c rest =>
        rw [nil_append, scanFraction]
        intro _ hcons
        obtain rfl := (cons.inj hcons).1
        exact (hrest _ (by simp)).2 rfl
  · rw [cons_append, scanFraction]
    simp only [scan_digits_append hdigits.2 fun c hc => (hrest c hc).1, if_neg hdigits.1]

theorem scan_whole_append {whole rest : List Char}
    (h : whole = ['0'] ∨ Digits whole ∧ whole.head? ≠ some '0')
    (hrest : ∀ c ∈ rest.head?, c.isDigit = false) :
    scanWhole (whole ++ rest) = (whole, rest) := by
  rcases h with rfl | ⟨⟨hne, hall⟩, hhead⟩
  · rfl
  · obtain ⟨c, whole, rfl⟩ := exists_cons_of_ne_nil hne
    rw [← scan_digits_append hall hrest, cons_append, scanWhole]
    intro _ hcons
    obtain rfl := (cons.inj hcons).1
    exact hhead rfl

theorem number_parts_append {minus whole fraction exponent rest : List Char}
    (h : NumberText minus whole fraction exponent) (hrest : EndsNumber rest) :
    numberParts (minus ++ whole ++ fraction ++ exponent ++ rest) =
      ⟨minus, whole, fraction, exponent, rest⟩ := by
  have hexponent : ∀ c ∈ (exponent ++ rest).head?, c.isDigit = false ∧ c ≠ '.' := by
    rcases h.exponent with rfl | ⟨sign, digits, -, -, rfl⟩
    · intro c hc
      exact ⟨(hrest c hc).1, (hrest c hc).2.1⟩
    · simp
  have hfraction : ∀ c ∈ (fraction ++ (exponent ++ rest)).head?, c.isDigit = false := by
    rcases h.fraction with rfl | ⟨digits, -, rfl⟩
    · exact fun c hc => (hexponent c hc).1
    · simp
  have hminus : scanMinus (minus ++ (whole ++ (fraction ++ (exponent ++ rest)))) =
      (minus, whole ++ (fraction ++ (exponent ++ rest))) := by
    rcases h.minus with rfl | rfl
    · have hhead : ∀ c ∈ whole.head?, c.isDigit = true := by
        rcases h.whole with rfl | ⟨⟨-, hall⟩, -⟩
        · simp
        · exact fun c hc => hall c (mem_of_head? hc)
      cases hwhole : whole with
      | nil => rcases h.whole with h | ⟨⟨hne, -⟩, -⟩ <;> simp_all
      | cons c whole =>
          rw [hwhole] at hhead
          rw [nil_append, cons_append, scanMinus]
          intro _ hcons
          obtain rfl := (cons.inj hcons).1
          exact absurd (hhead '-' rfl) (by decide)
    · rfl
  simp only [append_assoc, numberParts, hminus, scan_whole_append h.whole hfraction,
    scan_fraction_append h.fraction hexponent, scan_exponent_append h.exponent hrest]

theorem digits_to_digits (n : Nat) : Digits (Nat.toDigits 10 n) :=
  ⟨Nat.toDigits_ne_nil, fun _ hc => Nat.isDigit_of_mem_toDigits (by norm_num) le_rfl hc⟩

theorem whole_to_digits (n : Nat) :
    Nat.toDigits 10 n = ['0'] ∨
      Digits (Nat.toDigits 10 n) ∧ (Nat.toDigits 10 n).head? ≠ some '0' := by
  rcases Nat.eq_zero_or_pos n with rfl | hpos
  · exact .inl (Nat.toDigits_zero 10)
  · exact .inr ⟨digits_to_digits n, to_digits_head hpos⟩

/-- The text of an integer is its sign and the digits of its magnitude. -/
theorem int_text (value : Int) : ∃ minus, (minus = [] ∨ minus = ['-']) ∧
    (toString value).toList = minus ++ Nat.toDigits 10 value.natAbs ∧
      intOfText (minus ++ Nat.toDigits 10 value.natAbs) = value := by
  rw [Int.toString_eq_repr, Int.repr_eq_if]
  by_cases h : 0 ≤ value
  · refine ⟨[], .inl rfl, ?_, ?_⟩
    · rw [if_pos h, Nat.toList_repr, nil_append, show value.toNat = value.natAbs by omega]
    · obtain ⟨c, digits, hcons⟩ := exists_cons_of_ne_nil (digits_to_digits value.natAbs).1
      have hc := (digits_to_digits value.natAbs).2 c (by simp [hcons])
      have hread : intOfText (Nat.toDigits 10 value.natAbs) =
          Nat.ofDigitChars 10 (Nat.toDigits 10 value.natAbs) 0 := by
        rw [hcons, intOfText]
        intro _ heq
        obtain rfl := (cons.inj heq).1
        exact absurd hc (by decide)
      rw [nil_append, hread, Nat.ofDigitChars_ten_toDigits]
      omega
  · refine ⟨['-'], .inr rfl, ?_, ?_⟩
    · rw [if_neg h, String.toList_append, Nat.toList_repr]
      congr
      omega
    · rw [cons_append, nil_append, intOfText, Nat.ofDigitChars_ten_toDigits]
      omega

/-! ## Printing -/

/-- A JSON string with its quotes. -/
def quoteText (text : String) : List Char :=
  '"' :: text.toList.flatMap escapeChar ++ ['"']

/-- Join printed parts with commas. -/
def joinText : List (List Char) → List Char
  | [] => []
  | [part] => part
  | part :: parts => part ++ ',' :: joinText parts

section

variable [FloatRepr]

mutual

/-- `json.dumps(value, separators=(",", ":"), ensure_ascii=False)`: the keys of objects in
insertion order. -/
def printText : Json → List Char
  | .null => "null".toList
  | .bool value => (if value then "true" else "false").toList
  | .int value => (toString value).toList
  | .float value => (FloatRepr.repr value).toList
  | .str value => quoteText value
  | .arr items => '[' :: joinText (printItems items) ++ [']']
  | .obj fields => '{' :: joinText (printFields fields) ++ ['}']
  | .other _ text => (text.getD "").toList

/-- The printed items of a list. -/
def printItems : List Json → List (List Char)
  | [] => []
  | item :: items => printText item :: printItems items

/-- The printed items of a `dict`. -/
def printFields : List (String × Json) → List (List Char)
  | [] => []
  | (name, value) :: fields => (quoteText name ++ ':' :: printText value) :: printFields fields

end

end

mutual

/-- A value with the keys of its objects sorted. Python's `==` does not tell it from the value
itself. -/
def Json.canonical : Json → Json
  | .arr items => .arr (sortedItems items)
  | .obj fields => .obj ((sortedFields fields).insertionSort (fun a b => a.1 ≤ b.1))
  | value => value

/-- The items of a list, each with sorted keys. -/
def sortedItems : List Json → List Json
  | [] => []
  | item :: items => item.canonical :: sortedItems items

/-- The items of a `dict`, each value with sorted keys. -/
def sortedFields : List (String × Json) → List (String × Json)
  | [] => []
  | (name, value) :: fields => (name, value.canonical) :: sortedFields fields

end

mutual

/-- JSON can represent the value: floats are finite, integers have no more digits than Python
converts, and no `dict` repeats a key. -/
def Json.representable : Json → Bool
  | .int value => (Nat.toDigits 10 value.natAbs).length ≤ maxIntDigits
  | .float value => value.isFinite
  | .arr items => representableItems items
  | .obj fields => (fields.map (·.1)).Nodup && representableFields fields
  | .other _ _ => false
  | _ => true

/-- Every item of a list is representable. -/
def representableItems : List Json → Bool
  | [] => true
  | item :: items => item.representable && representableItems items

/-- Every value of a `dict` is representable. -/
def representableFields : List (String × Json) → Bool
  | [] => true
  | (_, value) :: fields => value.representable && representableFields fields

end

theorem sorted_items_eq (items : List Json) : sortedItems items = items.map Json.canonical := by
  induction items with
  | nil => rfl
  | cons item items ih => rw [sortedItems, ih, map_cons]

theorem sorted_fields_eq (fields : List (String × Json)) :
    sortedFields fields = fields.map fun item => (item.1, item.2.canonical) := by
  induction fields with
  | nil => rfl
  | cons item fields ih => rw [sortedFields, ih, map_cons]

theorem representable_items_iff (items : List Json) :
    representableItems items = true ↔ ∀ item ∈ items, item.representable = true := by
  induction items with
  | nil => simp [representableItems]
  | cons item items ih => simp [representableItems, ih]

theorem representable_fields_iff (fields : List (String × Json)) :
    representableFields fields = true ↔ ∀ item ∈ fields, item.2.representable = true := by
  induction fields with
  | nil => simp [representableFields]
  | cons item fields ih => simp [representableFields, ih]

section

variable [FloatRepr]

theorem print_items_eq (items : List Json) : printItems items = items.map printText := by
  induction items with
  | nil => rfl
  | cons item items ih => rw [printItems, ih, map_cons]

theorem print_fields_eq (fields : List (String × Json)) :
    printFields fields =
      fields.map fun item => quoteText item.1 ++ ':' :: printText item.2 := by
  induction fields with
  | nil => rfl
  | cons item fields ih => rw [printFields, ih, map_cons]

theorem canonical_items_eq (items : List Json) :
    canonicalItems items = items.map canonicalBytes := by
  induction items with
  | nil => rfl
  | cons item items ih => rw [canonicalItems, ih, map_cons]

theorem canonical_fields_eq (fields : List (String × Json)) :
    canonicalFields fields = fields.map fun item => (item.1, canonicalBytes item.2) := by
  induction fields with
  | nil => rfl
  | cons item fields ih => rw [canonicalFields, ih, map_cons]

end

/-- A text in UTF-8. -/
def encodeText (text : List Char) : List UInt8 := text.flatMap String.utf8EncodeChar

theorem encode_text_append (first second : List Char) :
    encodeText (first ++ second) = encodeText first ++ encodeText second :=
  flatMap_append

theorem encode_enclosed (first last : Char) (inside : List Char) :
    encodeText (first :: inside ++ [last]) =
      String.utf8EncodeChar first ++ encodeText inside ++ String.utf8EncodeChar last := by
  simp [encodeText]

theorem utf8_bytes_eq (text : String) : utf8Bytes text = encodeText text.toList := by
  have hbytes : text.toUTF8 = text.toList.utf8Encode := String.utf8Encode_toList.symm
  rw [utf8Bytes, hbytes]
  simp [utf8Encode, encodeText]

theorem quote_bytes_eq (text : String) : quoteBytes text = encodeText (quoteText text) := by
  rw [quoteText, encode_text_append]
  rfl

theorem join_comma_eq (parts : List (List Char)) :
    joinComma (parts.map encodeText) = encodeText (joinText parts) := by
  induction parts with
  | nil => rfl
  | cons part parts ih =>
      cases parts with
      | nil => rfl
      | cons next parts =>
          have hjoin : joinComma ((part :: next :: parts).map encodeText) =
              encodeText part ++ 44 :: joinComma ((next :: parts).map encodeText) := rfl
          rw [hjoin, ih]
          exact (encode_text_append part (',' :: joinText (next :: parts))).symm

section

variable [FloatRepr]

mutual

/-- The canonical bytes are the printed value with sorted keys. -/
theorem canonical_bytes_eq : ∀ value : Json,
    canonicalBytes value = encodeText (printText value.canonical)
  | .null => by rw [canonicalBytes, utf8_bytes_eq]; rfl
  | .bool _ => by rw [canonicalBytes, utf8_bytes_eq]; rfl
  | .int _ => by rw [canonicalBytes, utf8_bytes_eq]; rfl
  | .float _ => by rw [canonicalBytes, utf8_bytes_eq]; rfl
  | .other _ _ => by rw [canonicalBytes, utf8_bytes_eq]; rfl
  | .str _ => by rw [canonicalBytes, quote_bytes_eq]; rfl
  | .arr items => by
      rw [canonicalBytes, canonical_items_encode items, join_comma_eq, Json.canonical, printText,
        encode_enclosed]
      rfl
  | .obj fields => by
      have hsort := map_insertionSort (fun a b : String × Json => a.1 ≤ b.1)
        (fun a b : String × List UInt8 => a.1 ≤ b.1)
        (fun item => (item.1, encodeText (printText item.2))) (sortedFields fields) (by simp)
      have hitem : (fun item : String × Json =>
          quoteBytes item.1 ++ 58 :: encodeText (printText item.2)) =
          encodeText ∘ fun item => quoteText item.1 ++ ':' :: printText item.2 := by
        funext item
        rw [Function.comp_apply, encode_text_append, quote_bytes_eq]
        rfl
      rw [canonicalBytes, canonical_fields_encode fields, ← hsort, map_map,
        Json.canonical, printText, print_fields_eq, encode_enclosed, ← join_comma_eq, map_map,
        ← hitem]
      rfl

theorem canonical_items_encode : ∀ items : List Json,
    canonicalItems items = (printItems (sortedItems items)).map encodeText
  | [] => rfl
  | item :: items => by
      rw [canonicalItems, canonical_bytes_eq item, canonical_items_encode items, sortedItems,
        printItems, map_cons]

theorem canonical_fields_encode : ∀ fields : List (String × Json),
    canonicalFields fields =
      (sortedFields fields).map fun item => (item.1, encodeText (printText item.2))
  | [] => rfl
  | (name, value) :: fields => by
      rw [canonicalFields, canonical_bytes_eq value, canonical_fields_encode fields, sortedFields,
        map_cons]

end

end

end Akasha.Distributed

import Akasha.Distributed.JsonRoundTrip
import Akasha.Lib.Decimal
import Mathlib.Data.List.DropRight

/-!
# Python's floats as text

`floatOfText` is `float` on a decimal numeral: the nearest double, ties to even. `reprText` is
`float.__repr__`: the shortest decimal that reads back, the closest of them where several are as
short, in positional form between `1e-4` and `1e16` and with an exponent elsewhere. The main result
is the instance `pythonFloatText`, which shows that the two keep what `LawfulFloatText` asks.
-/

namespace Akasha.Distributed

open Lib List

/-! ## Reading -/

/-- The exponent of a number, with the letter before it. -/
def exponentOfText : List Char → Int
  | _ :: '-' :: digits => -(Nat.ofDigitChars 10 digits 0 : Int)
  | _ :: '+' :: digits => Nat.ofDigitChars 10 digits 0
  | _ :: digits => Nat.ofDigitChars 10 digits 0
  | [] => 0

/-- The number that a numeral without sign denotes. The fraction has its point. -/
def decimalValue (whole fraction exponent : List Char) : ℚ :=
  Nat.ofDigitChars 10 (whole ++ fraction.tail) 0 *
    10 ^ (exponentOfText exponent - (fraction.tail.length : Int))

/-- The float with a sign and magnitude bits. -/
def floatOfBits (negative : Bool) (magnitude : Nat) : F64 :=
  ⟨UInt64.ofNat ((if negative then 2 ^ 63 else 0) + magnitude)⟩

/-- `float(text)`. -/
def floatOfText (chars : List Char) : F64 :=
  let parts := numberParts chars
  floatOfBits (parts.minus ≠ [])
    (roundRational binary64 (decimalValue parts.whole parts.fraction parts.exponent))

/-! ## Printing -/

/-- A numeral without sign, by its parts. -/
structure Numeral where
  whole : List Char
  fraction : List Char
  exponent : List Char

/-- The characters of a numeral. -/
def Numeral.text (numeral : Numeral) : List Char :=
  numeral.whole ++ numeral.fraction ++ numeral.exponent

/-- At least two digits, as C prints an exponent. -/
def exponentDigits (n : Nat) : List Char :=
  if n < 10 then '0' :: Nat.toDigits 10 n else Nat.toDigits 10 n

/-- A numeral with the point after `point` of its digits: `format_float_short` with code `r`. -/
def formatDigits (digits : List Char) (point : Int) : Numeral :=
  if -4 < point ∧ point ≤ 16 then
    if point ≤ 0 then
      ⟨['0'], '.' :: (List.replicate (-point).toNat '0' ++ digits), []⟩
    else
      let whole := digits.take point.toNat
      let fraction := digits.drop point.toNat
      ⟨whole ++ List.replicate (point.toNat - whole.length) '0',
        '.' :: (if fraction = [] then ['0'] else fraction), []⟩
  else
    let exponent := point - 1
    ⟨digits.take 1, if digits.drop 1 = [] then [] else '.' :: digits.drop 1,
      'e' :: (if exponent < 0 then '-' else '+') :: exponentDigits exponent.natAbs⟩

/-- The numeral of `significand * 10 ^ exponent`, without trailing zeros. -/
def decimalNumeral (significand : Nat) (exponent : Int) : Numeral :=
  let digits := Nat.toDigits 10 significand
  formatDigits (digits.rdropWhile (· = '0')) (digits.length + exponent)

/-- The two decimals with a given number of digits around a positive number, the closer first. -/
def decimalsAround (r : ℚ) (count : Nat) : List Numeral :=
  let exponent := Int.log 10 r + 1 - count
  let scaled := r / 10 ^ exponent
  let low := ⌊scaled⌋₊
  let near := nearestEven scaled
  [decimalNumeral near exponent, decimalNumeral (if near = low then low + 1 else low) exponent]

/-- The exact value of a magnitude as a numeral with exponent. -/
def exactNumeral (magnitude : Nat) : Numeral :=
  let (m, e) := decodeMagnitude binary64 magnitude
  ⟨Nat.toDigits 10 (m * 2 ^ e.toNat * 5 ^ (-e).toNat), [],
    'e' :: '-' :: Nat.toDigits 10 (-e).toNat⟩

/-- The shortest numeral that reads back as a positive finite magnitude. Seventeen digits always
do; the exact value stands for what is never reached. -/
def shortestNumeral (magnitude : Nat) : Numeral :=
  (((List.range 17).flatMap fun count =>
    decimalsAround (binary64.value magnitude) (count + 1)).find? fun numeral =>
      floatOfText numeral.text = floatOfBits false magnitude).getD (exactNumeral magnitude)

/-- The text of a magnitude. -/
def magnitudeText (magnitude : Nat) : List Char :=
  if magnitude = 0 then "0.0".toList else (shortestNumeral magnitude).text

/-- `float.__repr__`, and the names `json` gives to what is not finite. -/
def reprText (x : F64) : String :=
  let negative := 2 ^ 63 ≤ x.bits.toNat
  let magnitude := x.bits.toNat % 2 ^ 63
  if magnitude < binary64.infinity then
    String.ofList ((if negative then ['-'] else []) ++ magnitudeText magnitude)
  else if magnitude = binary64.infinity then
    if negative then "-Infinity" else "Infinity"
  else "NaN"

/-! ## The laws -/

/-- A numeral in the syntax of `NUMBER_RE` that is no integer. -/
structure Numeral.Formed (numeral : Numeral) : Prop where
  text : NumberText [] numeral.whole numeral.fraction numeral.exponent
  float : ¬ (numeral.fraction = [] ∧ numeral.exponent = [])

theorem Numeral.Formed.signed {numeral : Numeral} (h : numeral.Formed) {minus : List Char}
    (hminus : minus = [] ∨ minus = ['-']) :
    NumberText minus numeral.whole numeral.fraction numeral.exponent :=
  ⟨hminus, h.text.whole, h.text.fraction, h.text.exponent⟩

theorem Numeral.Formed.float_text {numeral : Numeral} (h : numeral.Formed) {minus : List Char}
    (hminus : minus = [] ∨ minus = ['-']) :
    floatOfText (minus ++ numeral.text) = floatOfBits (minus ≠ [])
      (roundRational binary64
        (decimalValue numeral.whole numeral.fraction numeral.exponent)) := by
  have hends : EndsNumber [] := by simp [EndsNumber]
  have hparts := number_parts_append (h.signed hminus) hends
  rw [append_nil] at hparts
  rw [Numeral.text, ← append_assoc, ← append_assoc, floatOfText, hparts]

theorem digits_exponent (n : Nat) : Digits (exponentDigits n) := by
  unfold exponentDigits
  split
  · refine ⟨by simp, ?_⟩
    simp only [forall_mem_cons]
    exact ⟨by decide, (digits_to_digits n).2⟩
  · exact digits_to_digits n

/-- Digits with a point or an exponent are a numeral. -/
theorem formed_format_digits {digits : List Char} (h : Digits digits)
    (hhead : digits.head? ≠ some '0') (point : Int) : (formatDigits digits point).Formed := by
  obtain ⟨hne, hall⟩ := h
  obtain ⟨first, others, rfl⟩ := exists_cons_of_ne_nil hne
  have hzeros : ∀ n, ∀ c ∈ List.replicate n '0', c.isDigit = true := by
    intro n c hc
    rw [(mem_replicate.1 hc).2]
    decide
  unfold formatDigits
  split
  · split
    · refine ⟨⟨.inl rfl, .inl rfl, .inr ⟨_, ⟨by simp, ?_⟩, rfl⟩, .inl rfl⟩, by simp⟩
      intro c hc
      rcases mem_append.1 hc with hc | hc
      · exact hzeros _ c hc
      · exact hall c hc
    · -- The point stands after a digit, so the whole part starts with the first one.
      obtain ⟨n, hn⟩ : ∃ n, point.toNat = n + 1 := ⟨point.toNat - 1, by omega⟩
      refine ⟨⟨.inl rfl, .inr ⟨⟨?_, ?_⟩, ?_⟩, .inr ⟨_, ?_, rfl⟩, .inl rfl⟩, by simp⟩
      · simp [hn]
      · intro c hc
        rcases mem_append.1 hc with hc | hc
        · exact hall c (mem_of_mem_take hc)
        · exact hzeros _ c hc
      · simpa [hn] using hhead
      · split
        · exact ⟨by simp, by simp⟩
        · exact ⟨‹_›, fun c hc => hall c (mem_of_mem_drop hc)⟩
  · refine ⟨⟨.inl rfl, .inr ⟨⟨by simp, ?_⟩, by simpa using hhead⟩, ?_, .inr ?_⟩, by simp⟩
    · exact fun c hc => hall c (mem_of_mem_take hc)
    · split
      · exact .inl rfl
      · exact .inr ⟨_, ⟨‹_›, fun c hc => hall c (mem_of_mem_drop hc)⟩, rfl⟩
    · by_cases hsign : point - 1 < 0
      · exact ⟨['-'], _, .inr (.inl rfl), digits_exponent _, by simp [hsign]; rfl⟩
      · exact ⟨['+'], _, .inr (.inr rfl), digits_exponent _, by simp [hsign]; rfl⟩

theorem formed_decimal_numeral {significand : Nat} (h : 0 < significand) (exponent : Int) :
    (decimalNumeral significand exponent).Formed := by
  have hdigits := digits_to_digits significand
  have hhead := to_digits_head h
  have hprefix := List.rdropWhile_prefix (fun c : Char => decide (c = '0'))
    (Nat.toDigits 10 significand)
  unfold decimalNumeral
  obtain ⟨first, others, hcons⟩ := exists_cons_of_ne_nil hdigits.1
  rw [hcons] at hhead hprefix
  have hne : (Nat.toDigits 10 significand).rdropWhile (fun c => decide (c = '0')) ≠ [] := by
    rw [Ne, rdropWhile_eq_nil_iff]
    intro hall
    have := hall first (by simp [hcons])
    simp_all
  refine formed_format_digits ⟨hne, fun c hc => ?_⟩ ?_ _
  · exact hdigits.2 c ((hcons ▸ hprefix).subset hc)
  · rw [hcons] at hne ⊢
    obtain ⟨c, left, hleft⟩ := exists_cons_of_ne_nil hne
    rw [hleft] at hprefix ⊢
    rw [List.head?_cons, (cons_prefix_cons.1 hprefix).1]
    simpa using hhead

theorem formed_decimals_around {r : ℚ} (h : 0 < r) (count : Nat) {numeral : Numeral}
    (hnumeral : numeral ∈ decimalsAround r (count + 1)) : numeral.Formed := by
  have hscaled : 1 ≤ r / 10 ^ (Int.log 10 r + 1 - ((count + 1 : ℕ) : Int)) := by
    have hlog : ((10 : ℕ) : ℚ) ^ Int.log 10 r ≤ r := Int.zpow_log_le_self (by norm_num) h
    rw [one_le_div (by positivity)]
    refine le_trans (zpow_le_zpow_right₀ (by norm_num) ?_) hlog
    omega
  have hlow := (Nat.one_le_floor_iff _).2 hscaled
  simp only [decimalsAround, mem_cons, not_mem_nil, or_false] at hnumeral
  rcases hnumeral with rfl | rfl
  · exact formed_decimal_numeral (hlow.trans (floor_le_nearest_even _)) _
  · exact formed_decimal_numeral (by split <;> omega) _

theorem decimal_value_exact (magnitude : Nat) :
    decimalValue (exactNumeral magnitude).whole (exactNumeral magnitude).fraction
      (exactNumeral magnitude).exponent = binary64.value magnitude := by
  unfold exactNumeral BinaryFormat.value
  generalize decodeMagnitude binary64 magnitude = decoded
  obtain ⟨m, e⟩ := decoded
  simp only [decimalValue, exponentOfText, tail_nil, append_nil, length_nil,
    Nat.ofDigitChars_ten_toDigits]
  rcases Int.eq_nat_or_neg e with ⟨n, rfl | rfl⟩
  · simp
  · have hten : (10 : ℚ) ^ n = 2 ^ n * 5 ^ n := by rw [← mul_pow]; norm_num
    simp only [Int.toNat_neg_natCast, neg_neg, Int.toNat_natCast, pow_zero, mul_one,
      Nat.cast_zero, sub_zero, zpow_neg, zpow_natCast, hten]
    push_cast
    field_simp

theorem formed_exact (magnitude : Nat) : (exactNumeral magnitude).Formed :=
  ⟨⟨.inl rfl, whole_to_digits _, .inl rfl,
    .inr ⟨['-'], _, .inr (.inl rfl), digits_to_digits _, rfl⟩⟩, by simp [exactNumeral]⟩

theorem float_of_bits_inj {magnitude other : Nat} (h : magnitude ≤ binary64.infinity)
    (hother : other ≤ binary64.infinity)
    (heq : floatOfBits false magnitude = floatOfBits false other) : magnitude = other := by
  have hbits := congrArg (fun x => x.bits.toNat) heq
  simp only [floatOfBits, UInt64.toNat_ofNat', binary64] at hbits h hother
  omega

theorem float_of_bits_parts (x : F64) :
    floatOfBits (2 ^ 63 ≤ x.bits.toNat) (x.bits.toNat % 2 ^ 63) = x := by
  have hlt := x.bits.toNat_lt
  have hbits : (if decide (2 ^ 63 ≤ x.bits.toNat) = true then 2 ^ 63 else 0) +
      x.bits.toNat % 2 ^ 63 = x.bits.toNat := by
    by_cases hsign : 2 ^ 63 ≤ x.bits.toNat
    · rw [if_pos (decide_eq_true hsign)]
      omega
    · rw [if_neg (by simpa using hsign)]
      omega
  rw [floatOfBits, hbits, UInt64.ofNat_toNat]

/-- The shortest numeral is one, and denotes a number that rounds to its magnitude. -/
theorem shortest_numeral_spec {magnitude : Nat} (hpos : 0 < magnitude)
    (h : magnitude ≤ binary64.infinity) :
    (shortestNumeral magnitude).Formed ∧
      roundRational binary64 (decimalValue (shortestNumeral magnitude).whole
        (shortestNumeral magnitude).fraction (shortestNumeral magnitude).exponent) =
      magnitude := by
  have hvalue := binary64.value_pos hpos
  unfold shortestNumeral
  cases hfind : ((List.range 17).flatMap fun count =>
    decimalsAround (binary64.value magnitude) (count + 1)).find? fun numeral =>
      decide (floatOfText numeral.text = floatOfBits false magnitude) with
  | none =>
      refine ⟨formed_exact magnitude, ?_⟩
      rw [Option.getD_none, decimal_value_exact, round_rational_value h]
  | some numeral =>
      obtain ⟨count, -, hmem⟩ := mem_flatMap.1 (mem_of_find?_eq_some hfind)
      have hformed := formed_decimals_around hvalue count hmem
      have hread : floatOfText numeral.text = floatOfBits false magnitude := by
        simpa using List.find?_some hfind
      have htext := hformed.float_text (.inl (Eq.refl []))
      rw [nil_append, hread] at htext
      exact ⟨hformed, (float_of_bits_inj h (round_rational_le _ _) (by simpa using htext)).symm⟩

theorem magnitude_text_spec {magnitude : Nat} (h : magnitude ≤ binary64.infinity) :
    ∃ numeral : Numeral, numeral.Formed ∧ magnitudeText magnitude = numeral.text ∧
      roundRational binary64 (decimalValue numeral.whole numeral.fraction numeral.exponent) =
        magnitude := by
  unfold magnitudeText
  by_cases hzero : magnitude = 0
  · subst hzero
    refine ⟨⟨['0'], ['.', '0'], []⟩, ?_, rfl, by decide +kernel⟩
    exact ⟨⟨.inl rfl, .inl rfl, .inr ⟨['0'], ⟨by simp, by simp⟩, rfl⟩, .inl rfl⟩, by simp⟩
  · obtain ⟨hformed, hround⟩ := shortest_numeral_spec (Nat.pos_of_ne_zero hzero) h
    exact ⟨_, hformed, by rw [if_neg hzero], hround⟩

/-- The text of a finite float is a signed numeral that reads back. -/
theorem repr_text_spec {x : F64} (h : x.isFinite = true) : ∃ minus, ∃ numeral : Numeral,
    (minus = [] ∨ minus = ['-']) ∧ numeral.Formed ∧
      (reprText x).toList = minus ++ numeral.text ∧ floatOfText (minus ++ numeral.text) = x := by
  have hlt : x.bits.toNat % 2 ^ 63 < binary64.infinity := of_decide_eq_true h
  obtain ⟨numeral, hformed, htext, hround⟩ := magnitude_text_spec hlt.le
  have hrepr : (reprText x).toList =
      (if 2 ^ 63 ≤ x.bits.toNat then ['-'] else []) ++ numeral.text := by
    rw [reprText]
    simp only [if_pos hlt, String.toList_ofList, htext]
  have hread := float_of_bits_parts x
  rw [← hround] at hread
  by_cases hsign : 2 ^ 63 ≤ x.bits.toNat
  · rw [if_pos hsign] at hrepr
    refine ⟨['-'], numeral, .inr rfl, hformed, hrepr, ?_⟩
    rw [decide_eq_true hsign] at hread
    rw [hformed.float_text (.inr rfl)]
    simpa using hread
  · rw [if_neg hsign] at hrepr
    refine ⟨[], numeral, .inl rfl, hformed, hrepr, ?_⟩
    rw [decide_eq_false hsign] at hread
    rw [hformed.float_text (.inl rfl)]
    simpa using hread

/-- Python's `repr` and `float` keep the laws of floats as text. -/
@[reducible] def pythonFloatText : LawfulFloatText where
  repr := reprText
  intOf := String.toInt?
  float := floatOfText
  repr_text x h := by
    obtain ⟨minus, numeral, hminus, hformed, htext, -⟩ := repr_text_spec h
    refine ⟨minus, _, _, _, hformed.signed hminus, hformed.float, ?_⟩
    simp [htext, Numeral.text]
  float_repr x h := by
    obtain ⟨minus, numeral, -, -, htext, hread⟩ := repr_text_spec h
    rw [htext, hread]

example : reprText ⟨0x3FB999999999999A⟩ = "0.1" := by decide +kernel

example : reprText ⟨0x7FEFFFFFFFFFFFFF⟩ = "1.7976931348623157e+308" := by decide +kernel

end Akasha.Distributed

import Akasha.Lib.Numeral
import Akasha.Storage.BinaryReader
import Akasha.Storage.ManifestFile

/-!
# Names of HNSW jobs

`parse_hnsw_job_name` (`storage/manifest.mojo`) reads `hnsw-<sequence>-<generation>-<claim>.bin`.
`parse_hnsw_job_name_ok` says that it accepts the one spelling of three numbers below `2 ^ 64`, and
that its loop over machine words, `canonicalWord`, computes the numbers of the loop over naturals.
-/

namespace Akasha.Storage.ManifestFile

open Lib List

/-! ## Text as bytes -/

theorem utf8_bytes_append (first second : String) :
    utf8Bytes (first ++ second) = utf8Bytes first ++ utf8Bytes second := by
  rw [utf8_bytes_flat_map, utf8_bytes_flat_map, utf8_bytes_flat_map, String.toList_append,
    flatMap_append]

theorem encode_ascii {c : Char} (h : c.isDigit) :
    String.utf8EncodeChar c = [UInt8.ofNat c.toNat] := by
  have hle : c.val ≤ 127 := by
    have hdigit := Char.isDigit_iff_toNat.1 h
    show c.val.toNat ≤ 127
    have : c.toNat ≤ 57 := hdigit.2
    show c.toNat ≤ 127
    omega
  rw [String.utf8EncodeChar_eq_singleton (Char.utf8Size_eq_one_iff.2 hle)]
  rfl

theorem utf8_bytes_to_string (n : Nat) : utf8Bytes (toString n) = numeral n := by
  have hdigits : ∀ c ∈ Nat.toDigits 10 n, c.isDigit := fun c hc =>
    Nat.isDigit_of_mem_toDigits (by norm_num) (by norm_num) hc
  rw [utf8_bytes_flat_map, Nat.toString_eq_repr, Nat.toList_repr, numeral]
  generalize Nat.toDigits 10 n = digits at hdigits ⊢
  induction digits with
  | nil => rfl
  | cons c digits ih =>
      rw [flatMap_cons, encode_ascii (hdigits c mem_cons_self),
        ih fun c hc => hdigits c (mem_cons_of_mem _ hc)]
      rfl

/-! ## One number -/

theorem digit_range {byte : UInt8} : ¬ (byte < 48 ∨ byte > 57) ↔ IsDigitByte byte := by
  rw [IsDigitByte, not_or, UInt8.not_lt, gt_iff_lt, UInt8.not_lt]
  rfl

theorem overflow_exact {result digit : Nat} (h : digit < 10) :
    ¬ result > (2 ^ 64 - 1 - digit) / 10 ↔ result * 10 + digit < 2 ^ 64 := by
  omega

variable {bytes : List UInt8}

theorem canonical_digits_ok {result value : Nat} (h : result < 2 ^ 64) :
    canonicalDigits result bytes = .ok value ↔
      (∀ byte ∈ bytes, IsDigitByte byte) ∧ valueFrom result bytes = value ∧ value < 2 ^ 64 := by
  induction bytes generalizing result with
  | nil =>
      constructor
      · intro heq
        have hvalue : result = value := Except.ok.inj heq
        exact ⟨fun byte hbyte => absurd hbyte not_mem_nil, hvalue, hvalue ▸ h⟩
      · rintro ⟨-, rfl, -⟩
        rfl
  | cons byte bytes ih =>
      simp only [canonicalDigits, bind_ok, exists_unit, require_ok, digit_range]
      constructor
      · rintro ⟨hbyte, hnext, hrest⟩
        have hnext := (overflow_exact (by have := hbyte.2; omega)).1 hnext
        obtain ⟨hdigits, hvalue, hlt⟩ := (ih hnext).1 hrest
        exact ⟨forall_mem_cons.2 ⟨hbyte, hdigits⟩, hvalue, hlt⟩
      · rintro ⟨hdigits, hvalue, hlt⟩
        obtain ⟨hbyte, hdigits⟩ := forall_mem_cons.1 hdigits
        -- What stands in front of the other digits is not above the value of all of them.
        have hnext : result * 10 + (byte.toNat - 48) < 2 ^ 64 := by
          have hle := le_value_from (result * 10 + (byte.toNat - 48)) bytes
          have heq : valueFrom (result * 10 + (byte.toNat - 48)) bytes = value := hvalue
          omega
        exact ⟨hbyte, (overflow_exact (by have := hbyte.2; omega)).2 hnext,
          (ih hnext).2 ⟨hdigits, hvalue, hlt⟩⟩

theorem canonical_start :
    ¬ (bytes.length = 0 ∨ (bytes.length > 1 ∧ bytes.head? = some 48)) ↔
      bytes ≠ [] ∧ (bytes.head? = some 48 → bytes.length = 1) := by
  rw [not_or, length_eq_zero_iff]
  constructor
  · rintro ⟨hne, hstart⟩
    refine ⟨hne, fun hhead => ?_⟩
    have hpos := length_pos_iff.2 hne
    have hle : ¬ bytes.length > 1 := fun hlt => hstart ⟨hlt, hhead⟩
    omega
  · rintro ⟨hne, hstart⟩
    refine ⟨hne, ?_⟩
    rintro ⟨hlt, hhead⟩
    have := hstart hhead
    omega

theorem canonical_u64_ok {value : Nat} :
    canonicalU64 bytes = .ok value ↔ bytes = numeral value ∧ value < 2 ^ 64 := by
  simp only [canonicalU64, bind_ok, exists_unit, require_ok, canonical_start,
    canonical_digits_ok (show 0 < 2 ^ 64 by norm_num)]
  constructor
  · rintro ⟨⟨hne, hstart⟩, hdigits, rfl, hlt⟩
    exact ⟨(numeral_value ⟨hne, hdigits, hstart⟩).symm, hlt⟩
  · rintro ⟨rfl, hlt⟩
    have hnumeral := (is_numeral value).1
    exact ⟨⟨hnumeral.ne_nil, hnumeral.no_leading_zero⟩, hnumeral.digits, value_numeral value, hlt⟩

/-- The loop of `_canonical_u64` in machine words. -/
def canonicalWord : UInt64 → List UInt8 → Except String UInt64
  | result, [] => pure result
  | result, byte :: bytes => do
      require (¬ (byte < 48 ∨ byte > 57)) "invalid HNSW job filename integer"
      let digit := (byte - 48).toUInt64
      require (¬ result > (0xFFFFFFFFFFFFFFFF - digit) / 10) "HNSW job filename integer overflow"
      canonicalWord (result * 10 + digit) bytes

theorem word_digit {byte : UInt8} (h : IsDigitByte byte) :
    (byte - 48).toUInt64.toNat = byte.toNat - 48 := by
  rw [UInt8.toNat_toUInt64, UInt8.toNat_sub_of_le]
  · rfl
  · exact UInt8.le_iff_toNat_le.2 h.1

theorem word_overflow {result digit : UInt64} (h : digit.toNat < 10) :
    result > (0xFFFFFFFFFFFFFFFF - digit) / 10 ↔
      result.toNat > (2 ^ 64 - 1 - digit.toNat) / 10 := by
  rw [gt_iff_lt, UInt64.lt_iff_toNat_lt, UInt64.toNat_div, UInt64.toNat_sub_of_le]
  · rfl
  · rw [UInt64.le_iff_toNat_le]
    show digit.toNat ≤ 18446744073709551615
    omega

/-- No step of the loop wraps around. -/
theorem canonical_word (result : UInt64) (bytes : List UInt8) :
    (canonicalWord result bytes).map UInt64.toNat = canonicalDigits result.toNat bytes := by
  induction bytes generalizing result with
  | nil => rfl
  | cons byte bytes ih =>
      unfold canonicalWord canonicalDigits
      by_cases hrange : ¬ (byte < 48 ∨ byte > 57)
      · have hbyte := digit_range.1 hrange
        have hdigit := word_digit hbyte
        have hlt : (byte - 48).toUInt64.toNat < 10 := by have := hbyte.2; omega
        simp only [require, if_pos hrange]
        have hsame := not_congr (@word_overflow result _ hlt)
        rw [hdigit] at hsame
        by_cases hroom : ¬ result > (0xFFFFFFFFFFFFFFFF - (byte - 48).toUInt64) / 10
        · have hnat := hsame.1 hroom
          have hnext := (overflow_exact (by have := hbyte.2; omega)).1 hnat
          have hword : (result * 10 + (byte - 48).toUInt64).toNat =
              result.toNat * 10 + (byte.toNat - 48) := by
            rw [UInt64.toNat_add, UInt64.toNat_mul, hdigit]
            show (result.toNat * 10 % 2 ^ 64 + (byte.toNat - 48)) % 2 ^ 64 = _
            rw [Nat.mod_eq_of_lt (show result.toNat * 10 < 2 ^ 64 by omega),
              Nat.mod_eq_of_lt hnext]
          rw [if_pos hroom, if_pos hnat, ← hword]
          exact ih _
        · rw [if_neg hroom, if_neg fun hnat => hroom (hsame.2 hnat)]
          rfl
      · simp only [require, if_neg hrange]
        rfl

/-! ## The name -/

theorem name_body (hstart : hnswNamePrefix <+: bytes) (hend : hnswNameSuffix <:+ bytes) :
    ∃ body, bytes = hnswNamePrefix ++ (body ++ hnswNameSuffix) := by
  obtain ⟨rest, hrest⟩ := hstart
  obtain ⟨front, hfront⟩ := hend
  rcases append_eq_append_iff.1 (hfront.trans hrest.symm) with
    ⟨shared, hfrom, hto⟩ | ⟨body, -, hbody⟩
  · -- A shared part would begin with the dot of the suffix, which the prefix does not have.
    cases shared with
    | nil => exact ⟨[], by rw [← hrest, hto]; rfl⟩
    | cons byte shared =>
        have hdot : byte = 46 := (List.cons.inj hto).1.symm
        have hmem : (46 : UInt8) ∈ hnswNamePrefix := by
          rw [hfrom, hdot]
          exact mem_append_right _ mem_cons_self
        exact absurd hmem (by decide +kernel)
  · exact ⟨body, by rw [← hrest, hbody]⟩

theorem dash_not_mem_numeral (n : Nat) : (45 : UInt8) ∉ numeral n := fun hmem =>
  absurd ((is_numeral n).1.digits 45 hmem).1 (by decide)

/-- The name of a job. -/
def hnswJobName (sequence generation claim : Nat) : String :=
  "hnsw-" ++ toString sequence ++ "-" ++ toString generation ++ "-" ++ toString claim ++ ".bin"

theorem utf8_bytes_job_name (sequence generation claim : Nat) :
    utf8Bytes (hnswJobName sequence generation claim) =
      hnswNamePrefix ++ ([45].intercalate [numeral sequence, numeral generation, numeral claim] ++
        hnswNameSuffix) := by
  have hdash : utf8Bytes "-" = [45] := by decide +kernel
  rw [hnswJobName]
  simp only [utf8_bytes_append, utf8_bytes_to_string, hdash, hnswNamePrefix, hnswNameSuffix]
  simp [List.intercalate, List.intersperse]

theorem split_numerals {body : List UInt8} {sequence generation claim : Nat} :
    body.splitOn 45 = [numeral sequence, numeral generation, numeral claim] ↔
      body = [45].intercalate [numeral sequence, numeral generation, numeral claim] := by
  constructor
  · intro hsplit
    rw [← hsplit, intercalate_splitOn]
  · rintro rfl
    refine splitOn_intercalate 45 (fun part hpart => ?_) (cons_ne_nil _ _)
    simp only [mem_cons, not_mem_nil, or_false] at hpart
    obtain rfl | rfl | rfl := hpart <;> exact dash_not_mem_numeral _

/-- The bytes that the parser splits. -/
def jobNameBody (bytes : List UInt8) : List UInt8 :=
  let unprefixed := bytes.drop hnswNamePrefix.length
  if hnswNameSuffix <:+ unprefixed
    then unprefixed.take (unprefixed.length - hnswNameSuffix.length) else unprefixed

theorem job_name_body (body : List UInt8) :
    jobNameBody (hnswNamePrefix ++ (body ++ hnswNameSuffix)) = body := by
  unfold jobNameBody
  dsimp only
  rw [drop_left, if_pos (suffix_append _ _), length_append, Nat.add_sub_cancel,
    take_left]

theorem parse_parts_ok {name : String} {sequence generation claim : Nat} :
    parseHnswJobName name = .ok (sequence, generation, claim) ↔
      (hnswNamePrefix <+: utf8Bytes name ∧ hnswNameSuffix <:+ utf8Bytes name) ∧
        (jobNameBody (utf8Bytes name)).splitOn 45 =
          [numeral sequence, numeral generation, numeral claim] ∧
        sequence < 2 ^ 64 ∧ generation < 2 ^ 64 ∧ claim < 2 ^ 64 := by
  simp only [parseHnswJobName, bind_ok, exists_unit, require_ok]
  refine and_congr_right fun _ => ?_
  rw [← jobNameBody]
  generalize (jobNameBody (utf8Bytes name)).splitOn 45 = parts
  constructor
  · intro h
    split at h
    · simp only [bind_ok, pure_ok, canonical_u64_ok, Prod.mk.injEq] at h
      obtain ⟨_, ⟨rfl, hsequence⟩, _, ⟨rfl, hgeneration⟩, _, ⟨rfl, hclaim⟩, rfl, rfl, rfl⟩ := h
      exact ⟨rfl, hsequence, hgeneration, hclaim⟩
    · cases h
  · rintro ⟨rfl, hsequence, hgeneration, hclaim⟩
    simp only [bind_ok, pure_ok]
    exact ⟨_, canonical_u64_ok.2 ⟨rfl, hsequence⟩, _, canonical_u64_ok.2 ⟨rfl, hgeneration⟩, _,
      canonical_u64_ok.2 ⟨rfl, hclaim⟩, rfl⟩

/-- The parser accepts exactly the names of jobs, and its words do not wrap around. -/
theorem parse_hnsw_job_name_ok (name : String) (sequence generation claim : Nat) :
    (parseHnswJobName name = .ok (sequence, generation, claim) ↔
      name = "hnsw-" ++ toString sequence ++ "-" ++ toString generation ++ "-" ++ toString claim ++
          ".bin" ∧
        sequence < 2 ^ 64 ∧ generation < 2 ^ 64 ∧ claim < 2 ^ 64) ∧
    ∀ bytes, (canonicalWord 0 bytes).map UInt64.toNat = canonicalDigits 0 bytes := by
  refine ⟨?_, fun bytes => canonical_word 0 bytes⟩
  show _ ↔ name = hnswJobName sequence generation claim ∧ _
  rw [parse_parts_ok]
  constructor
  · rintro ⟨⟨hstart, hend⟩, hparts, hlt⟩
    obtain ⟨body, hbody⟩ := name_body hstart hend
    rw [hbody, job_name_body, split_numerals] at hparts
    refine ⟨utf8_bytes_injective ?_, hlt⟩
    rw [hbody, hparts, utf8_bytes_job_name]
  · rintro ⟨rfl, hlt⟩
    rw [utf8_bytes_job_name]
    refine ⟨⟨prefix_append _ _, ?_⟩, ?_, hlt⟩
    · rw [← append_assoc]
      exact suffix_append _ _
    · rw [job_name_body, split_numerals]

end Akasha.Storage.ManifestFile

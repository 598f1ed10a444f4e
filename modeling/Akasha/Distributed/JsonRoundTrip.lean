import Akasha.Distributed.JsonText

/-!
# JSON read back from its text

A value that JSON can represent comes back from its canonical bytes with the keys of its objects
sorted, which Python's `==` does not see: `loads_canonical_bytes`. The bytes never hold a line
break, whatever the strings and names in the value: `unbroken_canonical_bytes`.

What Python's documentation says of `repr` and `float` is the class `LawfulFloatText`.
-/

namespace Akasha.Distributed

open Lib List

/-! ## Reading what was printed -/

/-- What Python promises of `repr` and `float`: the text of a finite float is a number with a
fraction or an exponent, and reads back as the same float. -/
class LawfulFloatText extends FloatText where
  repr_text : ∀ x : F64, x.isFinite = true → ∃ minus whole fraction exponent,
    NumberText minus whole fraction exponent ∧ ¬ (fraction = [] ∧ exponent = []) ∧
      (FloatRepr.repr x).toList = minus ++ whole ++ fraction ++ exponent
  float_repr : ∀ x : F64, x.isFinite = true → float (FloatRepr.repr x).toList = x

variable {chars : List Char}

theorem skip_space_of_head (h : ∀ c ∈ chars.head?, ¬ (c = ' ' ∨ c = '\t' ∨ c = '\n' ∨ c = '\r')) :
    skipSpace chars = chars := by
  cases chars with
  | nil => rfl
  | cons c chars =>
      have := h c rfl
      simp only [skipSpace, dropWhile_cons, decide_eq_true_eq, if_neg this]

/-- The text starts with a digit, or with a minus and a digit. -/
def StartsNumber (chars : List Char) : Prop :=
  (∃ c left, chars = c :: left ∧ c.isDigit = true) ∨
    ∃ c left, chars = '-' :: c :: left ∧ c.isDigit = true

theorem NumberText.starts {minus whole fraction exponent : List Char}
    (h : NumberText minus whole fraction exponent) (rest : List Char) :
    StartsNumber (minus ++ whole ++ fraction ++ exponent ++ rest) := by
  have hwhole : ∃ c left, whole = c :: left ∧ c.isDigit = true := by
    rcases h.whole with rfl | ⟨⟨hne, hall⟩, -⟩
    · exact ⟨'0', [], rfl, by decide⟩
    · obtain ⟨c, left, rfl⟩ := exists_cons_of_ne_nil hne
      exact ⟨c, left, rfl, hall c (by simp)⟩
  obtain ⟨c, left, rfl, hc⟩ := hwhole
  rcases h.minus with rfl | rfl
  · exact .inl ⟨c, left ++ fraction ++ exponent ++ rest, by simp, hc⟩
  · exact .inr ⟨c, left ++ fraction ++ exponent ++ rest, by simp, hc⟩

theorem StartsNumber.ne_cons (h : StartsNumber chars) {c : Char} (hc : c.isDigit = false)
    (hminus : c ≠ '-') (rest : List Char) : chars ≠ c :: rest := by
  rintro rfl
  rcases h with ⟨first, left, hcons, hfirst⟩ | ⟨second, left, hcons, -⟩
  · obtain rfl := (cons.inj hcons).1
    simp [hc] at hfirst
  · exact hminus (cons.inj hcons).1

theorem StartsNumber.ne_minus_cons (h : StartsNumber chars) {c : Char} (hc : c.isDigit = false)
    (rest : List Char) : chars ≠ '-' :: c :: rest := by
  rintro rfl
  rcases h with ⟨first, left, hcons, hfirst⟩ | ⟨second, left, hcons, hsecond⟩
  · obtain rfl := (cons.inj hcons).1
    exact absurd hfirst (by decide)
  · obtain rfl := (cons.inj (cons.inj hcons).2).1
    simp [hc] at hsecond

theorem set_item_new {fields : List (String × Json)} {item : String × Json}
    (h : item.1 ∉ fields.map (·.1)) : setItem fields item = fields ++ [item] := by
  rw [setItem, if_neg]
  simpa using h

theorem join_text_cons (part next : List Char) (parts : List (List Char)) :
    joinText (part :: next :: parts) = part ++ ',' :: joinText (next :: parts) := rfl

theorem join_text_head (part : List Char) (parts : List (List Char)) :
    ∃ left, joinText (part :: parts) = part ++ left := by
  cases parts with
  | nil => exact ⟨[], (append_nil part).symm⟩
  | cons next parts => exact ⟨_, join_text_cons part next parts⟩

variable {value : Json}

section

variable [LawfulFloatText]

theorem scan_number_append {minus whole fraction exponent rest : List Char}
    (h : NumberText minus whole fraction exponent) (hrest : EndsNumber rest) :
    scanNumber (minus ++ whole ++ fraction ++ exponent ++ rest) =
      (numberOfText minus whole fraction exponent).map (·, rest) := by
  have hwhole : whole ≠ [] := by
    rcases h.whole with rfl | ⟨⟨hne, -⟩, -⟩
    · simp
    · exact hne
  rw [scanNumber, number_parts_append h hrest]
  simp only [if_neg hwhole]
  cases numberOfText minus whole fraction exponent <;> rfl

theorem scan_value_of_starts (h : StartsNumber chars) (fuel : Nat) :
    scanValue (fuel + 1) chars = scanNumber chars := by
  have hliteral : scanLiteral chars = scanNumber chars := by
    rw [scanLiteral]
    · exact fun _ => h.ne_cons (by decide) (by decide) _
    · exact fun _ => h.ne_cons (by decide) (by decide) _
    · exact fun _ => h.ne_cons (by decide) (by decide) _
    · exact fun _ => h.ne_cons (by decide) (by decide) _
    · exact fun _ => h.ne_cons (by decide) (by decide) _
    · exact fun _ => h.ne_minus_cons (by decide) _
  rw [scanValue, hliteral]
  · exact fun _ => h.ne_cons (by decide) (by decide) _
  · exact fun _ => h.ne_cons (by decide) (by decide) _
  · exact fun _ => h.ne_cons (by decide) (by decide) _

theorem scan_value_number {minus whole fraction exponent : List Char}
    (h : NumberText minus whole fraction exponent)
    (hvalue : numberOfText minus whole fraction exponent = .ok value) {rest : List Char}
    (hrest : EndsNumber rest) (fuel : Nat) :
    scanValue (fuel + 1) (minus ++ whole ++ fraction ++ exponent ++ rest) = .ok (value, rest) := by
  rw [scan_value_of_starts (h.starts rest), scan_number_append h hrest, hvalue]
  rfl

theorem print_int_parts {value : Int}
    (h : (Nat.toDigits 10 value.natAbs).length ≤ maxIntDigits) :
    ∃ minus whole fraction exponent, NumberText minus whole fraction exponent ∧
      printText (.int value) = minus ++ whole ++ fraction ++ exponent ∧
      numberOfText minus whole fraction exponent = .ok (.int value) := by
  obtain ⟨minus, hminus, htext, hread⟩ := int_text value
  refine ⟨minus, Nat.toDigits 10 value.natAbs, [], [], ?_, ?_, ?_⟩
  · exact ⟨hminus, whole_to_digits _, .inl rfl, .inl rfl⟩
  · rw [printText, htext, append_nil, append_nil]
  · rw [numberOfText, if_pos ⟨rfl, rfl⟩, if_pos h, hread]

theorem print_float_parts {value : F64} (h : value.isFinite = true) :
    ∃ minus whole fraction exponent, NumberText minus whole fraction exponent ∧
      printText (.float value) = minus ++ whole ++ fraction ++ exponent ∧
      numberOfText minus whole fraction exponent = .ok (.float value) := by
  obtain ⟨minus, whole, fraction, exponent, htext, hparts, hrepr⟩ :=
    LawfulFloatText.repr_text value h
  refine ⟨minus, whole, fraction, exponent, htext, ?_, ?_⟩
  · rw [printText, hrepr]
  · rw [numberOfText, if_neg hparts, ← hrepr, LawfulFloatText.float_repr value h]

/-- The first character of a printed value is no space and closes nothing. -/
theorem print_head (h : value.representable = true) :
    ∃ c left, printText value = c :: left ∧ c ∉ [' ', '\t', '\n', '\r', ']', '}'] := by
  have hnumber : ∀ {minus whole fraction exponent : List Char},
      NumberText minus whole fraction exponent →
      ∃ c left, minus ++ whole ++ fraction ++ exponent = c :: left ∧
        c ∉ [' ', '\t', '\n', '\r', ']', '}'] := by
    intro minus whole fraction exponent htext
    have hstarts := htext.starts []
    rw [append_nil] at hstarts
    rcases hstarts with ⟨c, left, hcons, hc⟩ | ⟨c, left, hcons, -⟩
    · refine ⟨c, left, hcons, ?_⟩
      intro hmem
      simp only [mem_cons, not_mem_nil, or_false] at hmem
      rcases hmem with rfl | rfl | rfl | rfl | rfl | rfl <;> exact absurd hc (by decide)
    · exact ⟨'-', c :: left, hcons, by decide⟩
  cases value with
  | null => exact ⟨'n', _, rfl, by decide⟩
  | bool value =>
      cases value with
      | false => exact ⟨'f', _, rfl, by decide⟩
      | true => exact ⟨'t', _, rfl, by decide⟩
  | int value =>
      obtain ⟨_, _, _, _, htext, hprint, -⟩ := print_int_parts (of_decide_eq_true h)
      rw [hprint]
      exact hnumber htext
  | float value =>
      obtain ⟨_, _, _, _, htext, hprint, -⟩ := print_float_parts h
      rw [hprint]
      exact hnumber htext
  | str value => exact ⟨'"', _, rfl, by decide⟩
  | arr items => exact ⟨'[', _, rfl, by decide⟩
  | obj fields => exact ⟨'{', _, rfl, by decide⟩
  | other _ _ => cases h

theorem skip_space_print (h : value.representable = true) (rest : List Char) :
    skipSpace (printText value ++ rest) = printText value ++ rest := by
  obtain ⟨c, left, hprint, hc⟩ := print_head h
  rw [hprint]
  apply skip_space_of_head
  intro d hd
  obtain rfl : c = d := by simpa using hd
  simp only [mem_cons, not_or] at hc
  simp [hc]

theorem print_pos (h : value.representable = true) :
    0 < (printText value).length := by
  obtain ⟨c, left, hprint, -⟩ := print_head h
  simp [hprint]

mutual

/-- A printed value reads back, and the text after it is left. -/
theorem scan_value_print : ∀ (value : Json) (fuel : Nat) (rest : List Char),
    value.representable = true → EndsNumber rest → (printText value).length ≤ fuel + 1 →
      scanValue (fuel + 1) (printText value ++ rest) = .ok (value, rest)
  | .null, _, _, _, _, _ => rfl
  | .bool true, _, _, _, _, _ => rfl
  | .bool false, _, _, _, _, _ => rfl
  | .int value, fuel, rest, h, hrest, _ => by
      obtain ⟨minus, whole, fraction, exponent, htext, hprint, hread⟩ :=
        print_int_parts (of_decide_eq_true h)
      rw [hprint]
      exact scan_value_number htext hread hrest fuel
  | .float value, fuel, rest, h, hrest, _ => by
      obtain ⟨minus, whole, fraction, exponent, htext, hprint, hread⟩ := print_float_parts h
      rw [hprint]
      exact scan_value_number htext hread hrest fuel
  | .str value, fuel, rest, _, _, _ => by
      have htext : printText (.str value) ++ rest =
          '"' :: (value.toList.flatMap escapeChar ++ '"' :: rest) := by
        simp [printText, quoteText]
      rw [htext, scanValue, scan_string_quote]
      rfl
  | .arr [], _, _, _, _, _ => rfl
  | .arr (item :: items), fuel, rest, h, _, hfuel => by
      rw [Json.representable] at h
      have hitem : item.representable = true := (Bool.and_eq_true _ _ ▸ h).1
      obtain ⟨left, hjoin⟩ := join_text_head (printText item) (printItems items)
      have htext : printText (.arr (item :: items)) ++ rest =
          '[' :: (joinText (printItems (item :: items)) ++ ']' :: rest) := by
        simp [printText]
      have hlength : (joinText (printItems (item :: items))).length < fuel := by
        simp [printText] at hfuel
        omega
      have hskip : skipSpace (joinText (printItems (item :: items)) ++ ']' :: rest) =
          joinText (printItems (item :: items)) ++ ']' :: rest := by
        rw [printItems, hjoin, append_assoc, skip_space_print hitem]
      rw [htext, scanValue, hskip]
      split
      · next heq =>
          obtain ⟨c, tail, hprint, hc⟩ := print_head hitem
          rw [printItems, hjoin, hprint] at heq
          obtain rfl := (cons.inj heq).1
          simp at hc
      · rw [scan_items_print item items fuel rest h hlength]
        rfl
  | .obj [], _, _, _, _, _ => rfl
  | .obj ((name, value) :: fields), fuel, rest, h, _, hfuel => by
      rw [Json.representable, Bool.and_eq_true] at h
      obtain ⟨left, hjoin⟩ :=
        join_text_head (quoteText name ++ ':' :: printText value) (printFields fields)
      have htext : printText (.obj ((name, value) :: fields)) ++ rest =
          '{' :: (joinText (printFields ((name, value) :: fields)) ++ '}' :: rest) := by
        simp [printText]
      have hlength : (joinText (printFields ((name, value) :: fields))).length < fuel := by
        simp [printText] at hfuel
        omega
      have hquote : ∃ tail, joinText (printFields ((name, value) :: fields)) ++ '}' :: rest =
          '"' :: tail := by
        rw [printFields, hjoin]
        exact ⟨_, rfl⟩
      obtain ⟨tail, hquote⟩ := hquote
      have hread := scan_members_print [] name value fields fuel rest (of_decide_eq_true h.1) h.2
        hlength
      rw [htext, scanValue, hquote]
      rw [hquote] at hread
      change (scanMembers fuel [] ('"' :: tail) >>= _) = _
      rw [hread]
      rfl
termination_by value => sizeOf value

/-- The printed items of an array read back. -/
theorem scan_items_print : ∀ (item : Json) (items : List Json) (fuel : Nat) (rest : List Char),
    representableItems (item :: items) = true →
      (joinText (printItems (item :: items))).length < fuel →
      scanItems fuel (joinText (printItems (item :: items)) ++ ']' :: rest) =
        .ok (item :: items, rest)
  | item, [], fuel, rest, h, hfuel => by
      simp only [representableItems, Bool.and_true] at h
      have hpos := print_pos h
      change (printText item).length < fuel at hfuel
      obtain ⟨fuel, rfl⟩ : ∃ n, fuel = n + 2 := ⟨fuel - 2, by omega⟩
      change scanItems (fuel + 2) (printText item ++ ']' :: rest) = _
      rw [scanItems, scan_value_print item fuel (']' :: rest) h (by simp [EndsNumber]) (by omega)]
      rfl
  | item, next :: items, fuel, rest, h, hfuel => by
      rw [representableItems, Bool.and_eq_true] at h
      have hpos := print_pos h.1
      have hjoin : joinText (printItems (item :: next :: items)) =
          printText item ++ ',' :: joinText (printItems (next :: items)) := rfl
      rw [hjoin, length_append, length_cons] at hfuel
      obtain ⟨fuel, rfl⟩ : ∃ n, fuel = n + 2 := ⟨fuel - 2, by omega⟩
      have hnext : next.representable = true := (Bool.and_eq_true _ _ ▸ h.2).1
      have hskip : skipSpace (joinText (printItems (next :: items)) ++ ']' :: rest) =
          joinText (printItems (next :: items)) ++ ']' :: rest := by
        obtain ⟨left, hleft⟩ := join_text_head (printText next) (printItems items)
        rw [printItems, hleft, append_assoc, skip_space_print hnext]
      rw [hjoin, append_assoc, scanItems,
        scan_value_print item fuel _ h.1 (by simp [EndsNumber]) (by omega)]
      change (scanItems (fuel + 1)
        (skipSpace (joinText (printItems (next :: items)) ++ ']' :: rest)) >>= _) = _
      rw [hskip, scan_items_print next items (fuel + 1) rest h.2 (by omega)]
      rfl
termination_by item items => sizeOf (item :: items)

/-- The printed items of a `dict` read back, after those already read. -/
theorem scan_members_print : ∀ (read : List (String × Json)) (name : String) (value : Json)
    (fields : List (String × Json)) (fuel : Nat) (rest : List Char),
    ((read ++ (name, value) :: fields).map (·.1)).Nodup →
      representableFields ((name, value) :: fields) = true →
      (joinText (printFields ((name, value) :: fields))).length < fuel →
      scanMembers fuel read (joinText (printFields ((name, value) :: fields)) ++ '}' :: rest) =
        .ok (read ++ (name, value) :: fields, rest)
  | read, name, value, [], fuel, rest, hnodup, h, hfuel => by
      simp only [representableFields, Bool.and_true] at h
      have hnew : name ∉ read.map (·.1) := by
        simp only [map_append, map_cons, nodup_append] at hnodup
        exact fun hmem => hnodup.2.2 name hmem name (by simp) rfl
      change (quoteText name ++ ':' :: printText value).length < fuel at hfuel
      rw [length_append, length_cons] at hfuel
      have hpos := print_pos h
      obtain ⟨fuel, rfl⟩ : ∃ n, fuel = n + 2 := ⟨fuel - 2, by omega⟩
      have htext : joinText (printFields [(name, value)]) ++ '}' :: rest =
          '"' :: (name.toList.flatMap escapeChar ++
            '"' :: ':' :: (printText value ++ '}' :: rest)) := by
        simp [printFields, joinText, quoteText]
      rw [htext, scanMembers, scan_string_quote]
      change (scanValue (fuel + 1) (skipSpace (printText value ++ '}' :: rest)) >>= _) = _
      rw [skip_space_print h, scan_value_print value fuel _ h (by simp [EndsNumber]) (by omega)]
      change Except.ok (setItem read (name, value), rest) = _
      rw [set_item_new hnew]
  | read, name, value, (next, other) :: fields, fuel, rest, hnodup, h, hfuel => by
      rw [representableFields, Bool.and_eq_true] at h
      have hnew : name ∉ read.map (·.1) := by
        simp only [map_append, map_cons, nodup_append] at hnodup
        exact fun hmem => hnodup.2.2 name hmem name (by simp) rfl
      have hjoin : joinText (printFields ((name, value) :: (next, other) :: fields)) =
          quoteText name ++ ':' :: printText value ++
            ',' :: joinText (printFields ((next, other) :: fields)) := rfl
      rw [hjoin, length_append, length_append, length_cons, length_cons]
        at hfuel
      have hpos := print_pos h.1
      obtain ⟨fuel, rfl⟩ : ∃ n, fuel = n + 2 := ⟨fuel - 2, by omega⟩
      have htext : joinText (printFields ((name, value) :: (next, other) :: fields)) ++
          '}' :: rest = '"' :: (name.toList.flatMap escapeChar ++ '"' :: ':' :: (printText value ++
            ',' :: (joinText (printFields ((next, other) :: fields)) ++ '}' :: rest))) := by
        simp [hjoin, quoteText]
      have hskip : skipSpace (joinText (printFields ((next, other) :: fields)) ++ '}' :: rest) =
          joinText (printFields ((next, other) :: fields)) ++ '}' :: rest := by
        obtain ⟨left, hleft⟩ :=
          join_text_head (quoteText next ++ ':' :: printText other) (printFields fields)
        rw [printFields, hleft]
        rfl
      rw [htext, scanMembers, scan_string_quote]
      change (scanValue (fuel + 1) (skipSpace (printText value ++ ',' :: _)) >>= _) = _
      rw [skip_space_print h.1, scan_value_print value fuel _ h.1 (by simp [EndsNumber])
        (by omega)]
      change scanMembers (fuel + 1) (setItem read (name, value))
        (skipSpace (joinText (printFields ((next, other) :: fields)) ++ '}' :: rest)) = _
      rw [hskip, set_item_new hnew, scan_members_print (read ++ [(name, value)]) next other fields
        (fuel + 1) rest (by simpa using hnodup) h.2 (by omega), append_assoc]
      rfl
termination_by _ name value fields => sizeOf ((name, value) :: fields)

end

end

/-! ## Sorted keys -/

mutual

/-- Sorting the keys keeps a value representable. -/
theorem representable_canonical : ∀ value : Json,
    value.representable = true → value.canonical.representable = true
  | .null, _ => rfl
  | .bool _, _ => rfl
  | .int _, h => h
  | .float _, h => h
  | .str _, _ => rfl
  | .arr items, h => by
      rw [Json.representable] at h
      rw [Json.canonical, Json.representable]
      exact representable_sorted_items items h
  | .obj fields, h => by
      rw [Json.representable, Bool.and_eq_true, decide_eq_true_eq] at h
      rw [Json.canonical, Json.representable, Bool.and_eq_true, decide_eq_true_eq]
      have hperm := perm_insertionSort (fun a b : String × Json => a.1 ≤ b.1)
        (sortedFields fields)
      have hnames : (sortedFields fields).map (·.1) = fields.map (·.1) := by
        rw [sorted_fields_eq, map_map]
        rfl
      refine ⟨((hperm.map _).nodup_iff).2 (hnames ▸ h.1), ?_⟩
      rw [representable_fields_iff]
      intro item hitem
      exact (representable_fields_iff _).1 (representable_sorted_fields fields h.2) item
        (hperm.mem_iff.1 hitem)

theorem representable_sorted_items : ∀ items : List Json,
    representableItems items = true → representableItems (sortedItems items) = true
  | [], _ => rfl
  | item :: items, h => by
      rw [representableItems, Bool.and_eq_true] at h
      rw [sortedItems, representableItems, representable_canonical item h.1,
        representable_sorted_items items h.2]
      rfl

theorem representable_sorted_fields : ∀ fields : List (String × Json),
    representableFields fields = true → representableFields (sortedFields fields) = true
  | [], _ => rfl
  | (name, value) :: fields, h => by
      rw [representableFields, Bool.and_eq_true] at h
      rw [sortedFields, representableFields, representable_canonical value h.1,
        representable_sorted_fields fields h.2]
      rfl

end

mutual

theorem canonical_canonical : ∀ value : Json, value.canonical.canonical = value.canonical
  | .null => rfl
  | .bool _ => rfl
  | .int _ => rfl
  | .float _ => rfl
  | .str _ => rfl
  | .other _ _ => rfl
  | .arr items => by rw [Json.canonical, Json.canonical, sorted_items_sorted items]
  | .obj fields => by
      have hsorted := pairwise_insertionSort (fun a b : String × Json => a.1 ≤ b.1)
        (sortedFields fields)
      have hmap := map_insertionSort (fun a b : String × Json => a.1 ≤ b.1)
        (fun a b : String × Json => a.1 ≤ b.1) (fun item => (item.1, item.2.canonical))
        (sortedFields fields) (by simp)
      rw [Json.canonical, Json.canonical, sorted_fields_eq, hmap, ← sorted_fields_eq,
        sorted_fields_sorted fields]
      rw [hsorted.insertionSort_eq]

theorem sorted_items_sorted : ∀ items : List Json,
    sortedItems (sortedItems items) = sortedItems items
  | [] => rfl
  | item :: items => by
      rw [sortedItems, sortedItems, canonical_canonical item, sorted_items_sorted items]

theorem sorted_fields_sorted : ∀ fields : List (String × Json),
    sortedFields (sortedFields fields) = sortedFields fields
  | [] => rfl
  | (name, value) :: fields => by
      rw [sortedFields, sortedFields, canonical_canonical value, sorted_fields_sorted fields]

end

theorem canonical_bytes_canonical [FloatRepr] (value : Json) :
    canonicalBytes value.canonical = canonicalBytes value := by
  rw [canonical_bytes_eq, canonical_canonical, ← canonical_bytes_eq]

theorem payload_checksum_canonical [FloatRepr] (value : Json) :
    checksumOf value.canonical = checksumOf value := by
  rw [checksumOf, canonical_bytes_canonical, checksumOf]

theorem decode_encode_text (text : List Char) :
    String.fromUTF8? ⟨⟨encodeText text⟩⟩ = some (String.ofList text) := by
  have hencode : encodeText text = utf8Bytes (String.ofList text) := by
    rw [utf8_bytes_eq, String.toList_ofList]
  have hbytes : (⟨⟨utf8Bytes (String.ofList text)⟩⟩ : ByteArray) =
      (String.ofList text).toByteArray := rfl
  rw [hencode, hbytes, String.fromUTF8?, dif_pos (String.ofList text).isValidUTF8]
  rfl

theorem ends_number_space {space : List Char} (h : skipSpace space = []) : EndsNumber space := by
  intro c hc
  cases space with
  | nil => cases hc
  | cons first rest =>
      obtain rfl : first = c := by simpa using hc
      have hspace : first = ' ' ∨ first = '\t' ∨ first = '\n' ∨ first = '\r' := by
        by_contra hnot
        rw [skip_space_of_head (by simpa using hnot)] at h
        cases h
      rcases hspace with rfl | rfl | rfl | rfl <;> decide

theorem loads_canonical_append [LawfulFloatText] {value : Json} (h : value.representable = true)
    {space : List Char} (hspace : skipSpace space = []) :
    loads (canonicalBytes value ++ encodeText space) = .ok value.canonical := by
  have hcanonical := representable_canonical value h
  rw [loads, canonical_bytes_eq, ← encode_text_append, decode_encode_text]
  simp only [String.toList_ofList, loadsText]
  have hscan := scan_value_print value.canonical
    (printText value.canonical ++ space).length space hcanonical (ends_number_space hspace)
    (by rw [length_append]; omega)
  rw [skip_space_print hcanonical space, hscan]
  simp [bind, Except.bind, hspace, pure, Except.pure]

theorem loads_canonical_bytes [LawfulFloatText] (h : value.representable = true) :
    loads (canonicalBytes value) = .ok value.canonical := by
  have hloads := @loads_canonical_append _ value h [] rfl
  rwa [encodeText, flatMap_nil, append_nil] at hloads

/-! ## No line break in canonical bytes -/

/-- Neither a line feed nor a carriage return, which end a line of `bytes.splitlines`. -/
def Unbroken (bytes : List UInt8) : Prop := ∀ byte ∈ bytes, byte ≠ 10 ∧ byte ≠ 13

/-- The bytes of a printable character are no control characters. -/
theorem utf8_encode_ge {c : Char} (h : 32 ≤ c.toNat) {byte : UInt8}
    (hbyte : byte ∈ String.utf8EncodeChar c) : 32 ≤ byte.toNat := by
  have hval : c.toNat = c.val.toNat := rfl
  have hbyte : ∃ n, byte = UInt8.ofNat n ∧ 32 ≤ n ∧ n < 256 := by
    unfold String.utf8EncodeChar at hbyte
    simp only at hbyte
    split at hbyte
    · exact ⟨_, mem_singleton.1 hbyte, by omega, by omega⟩
    · split at hbyte
      · simp only [mem_cons, not_mem_nil, or_false] at hbyte
        rcases hbyte with hbyte | hbyte <;> exact ⟨_, hbyte, by omega, by omega⟩
      · split at hbyte
        · simp only [mem_cons, not_mem_nil, or_false] at hbyte
          rcases hbyte with hbyte | hbyte | hbyte <;> exact ⟨_, hbyte, by omega, by omega⟩
        · simp only [mem_cons, not_mem_nil, or_false] at hbyte
          rcases hbyte with hbyte | hbyte | hbyte | hbyte <;> exact ⟨_, hbyte, by omega, by omega⟩
  obtain ⟨n, rfl, hlow, hhigh⟩ := hbyte
  rw [UInt8.toNat_ofNat_of_lt' hhigh]
  exact hlow

/-- Every character is printable. -/
def Printable (text : List Char) : Prop := ∀ c ∈ text, 32 ≤ c.toNat

theorem unbroken_of_printable {text : List Char} (h : Printable text) :
    Unbroken (encodeText text) := by
  intro byte hbyte
  obtain ⟨c, hc, hbyte⟩ := mem_flatMap.1 hbyte
  have hge := utf8_encode_ge (h c hc) hbyte
  refine ⟨?_, ?_⟩ <;> rintro rfl <;> exact absurd hge (by decide)

@[simp] theorem printable_nil : Printable [] := by simp [Printable]

@[simp] theorem printable_cons {c : Char} {text : List Char} :
    Printable (c :: text) ↔ 32 ≤ c.toNat ∧ Printable text := by simp [Printable]

@[simp] theorem printable_append {first second : List Char} :
    Printable (first ++ second) ↔ Printable first ∧ Printable second := by
  simp [Printable, or_imp, forall_and]

theorem printable_escape (c : Char) : Printable (escapeChar c) := by
  have hdigit : ∀ n < 16, 32 ≤ (Nat.digitChar n).toNat := by decide
  unfold escapeChar
  split_ifs <;> simp
  · exact ⟨hdigit _ (by omega), hdigit _ (by omega)⟩
  · omega

theorem printable_quote (text : String) : Printable (quoteText text) := by
  have hescaped : Printable (text.toList.flatMap escapeChar) := by
    intro c hc
    obtain ⟨d, -, hc⟩ := mem_flatMap.1 hc
    exact printable_escape d c hc
  simp [quoteText, hescaped]

theorem printable_join {parts : List (List Char)} (h : ∀ part ∈ parts, Printable part) :
    Printable (joinText parts) := by
  induction parts with
  | nil => exact printable_nil
  | cons part parts ih =>
      have hrest := ih fun other hother => h other (by simp [hother])
      cases parts with
      | nil => exact h part (by simp)
      | cons next parts =>
          rw [join_text_cons, printable_append, printable_cons]
          exact ⟨h part (by simp), by decide, hrest⟩

theorem Digits.printable {digits : List Char} (h : Digits digits) : Printable digits := by
  intro c hc
  have := h.2 c hc
  simp only [Char.isDigit, Bool.and_eq_true, decide_eq_true_eq] at this
  have hle : (48 : Nat) ≤ c.toNat := this.1
  omega

theorem NumberText.printable {minus whole fraction exponent : List Char}
    (h : NumberText minus whole fraction exponent) :
    Printable (minus ++ whole ++ fraction ++ exponent) := by
  simp only [printable_append]
  refine ⟨⟨⟨?_, ?_⟩, ?_⟩, ?_⟩
  · rcases h.minus with rfl | rfl <;> simp
  · rcases h.whole with rfl | ⟨hdigits, -⟩
    · simp
    · exact hdigits.printable
  · rcases h.fraction with rfl | ⟨digits, hdigits, rfl⟩
    · simp
    · simp [hdigits.printable]
  · rcases h.exponent with rfl | ⟨sign, digits, hsign, hdigits, rfl⟩
    · simp
    · rcases hsign with rfl | rfl | rfl <;> simp [hdigits.printable]

section

variable [LawfulFloatText]

mutual

/-- A printed value has no control character. -/
theorem printable_print : ∀ value : Json, value.representable = true → Printable (printText value)
  | .null, _ => by simp [printText]
  | .bool value, _ => by cases value <;> simp [printText]
  | .int value, h => by
      obtain ⟨_, _, _, _, htext, hprint, -⟩ := print_int_parts (of_decide_eq_true h)
      rw [hprint]
      exact htext.printable
  | .float value, h => by
      obtain ⟨_, _, _, _, htext, hprint, -⟩ := print_float_parts h
      rw [hprint]
      exact htext.printable
  | .str value, _ => printable_quote value
  | .arr items, h => by
      rw [Json.representable] at h
      have hitems := printable_join (printable_print_items items h)
      simp [printText, hitems]
  | .obj fields, h => by
      rw [Json.representable, Bool.and_eq_true] at h
      have hfields := printable_join (printable_print_fields fields h.2)
      simp [printText, hfields]

theorem printable_print_items : ∀ items : List Json, representableItems items = true →
    ∀ part ∈ printItems items, Printable part
  | [], _ => by simp [printItems]
  | item :: items, h => by
      rw [representableItems, Bool.and_eq_true] at h
      rw [printItems, forall_mem_cons]
      exact ⟨printable_print item h.1, printable_print_items items h.2⟩

theorem printable_print_fields : ∀ fields : List (String × Json),
    representableFields fields = true → ∀ part ∈ printFields fields, Printable part
  | [], _ => by simp [printFields]
  | (name, value) :: fields, h => by
      rw [representableFields, Bool.and_eq_true] at h
      rw [printFields, forall_mem_cons]
      refine ⟨?_, printable_print_fields fields h.2⟩
      rw [printable_append, printable_cons]
      exact ⟨printable_quote name, by decide, printable_print value h.1⟩

end

theorem unbroken_canonical_bytes (h : value.representable = true) :
    Unbroken (canonicalBytes value) := by
  rw [canonical_bytes_eq]
  exact unbroken_of_printable (printable_print _ (representable_canonical value h))

end

end Akasha.Distributed

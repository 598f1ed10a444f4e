import Akasha.Index.Bitmap
import Akasha.Lib.Bisect
import Akasha.Query.Filter
import Mathlib.Data.List.Lex
import Mathlib.Data.Prod.Lex

/-!
# Sorted postings

`KeywordIndex` keeps String and Bool postings and `SortedBlockIndex` Int64 and Float64 postings,
each as one list ordered by field, value and ordinal. The two numeric lists differ in their
values only: `NumberEntry` is the common entry. Evaluating a condition finds a range of the
list by binary search and sets the ordinals of that range; `evaluate_keyword_ok` and
`evaluate_number_ok` say which postings that is.
-/

namespace Akasha.Index

open Lib Query Function PayloadValue List

/-- Strings compare by their UTF-8 bytes. -/
def textOrder (text : String) : List ℕ :=
  (utf8Bytes text).map UInt8.toNat

theorem text_order_inj {a b : String} : textOrder a = textOrder b ↔ a = b := by
  constructor
  · intro h
    have hbytes : utf8Bytes a = utf8Bytes b :=
      map_injective_iff.2 (fun _ _ => UInt8.toNat_inj.1) h
    unfold utf8Bytes at hbytes
    have harray : a.toUTF8 = b.toUTF8 := by
      rw [ByteArray.ext_iff, ← Array.toList_inj]
      exact hbytes
    exact String.toByteArray_inj.1 harray
  · rintro rfl
    rfl

/-! ## Numbers -/

/-- A posting of a numeric field. -/
structure NumberEntry (ν : Type) where
  name : String
  value : ν
  ordinal : Nat
deriving DecidableEq, Repr

section Number

variable {ν : Type} (order : ν → Int)

/-- `_int_after` and `_float_after`: by field name, then value, then ordinal. -/
def numberAfter (left right : NumberEntry ν) : Bool :=
  if left.name ≠ right.name then textOrder left.name > textOrder right.name
  else if order left.value ≠ order right.value then order left.value > order right.value
  else left.ordinal > right.ordinal

/-- Where a field's entries start. -/
def numberFieldStart (entries : List (NumberEntry ν)) (name : String) : Nat :=
  partitionPoint (fun e => textOrder e.name < textOrder name) entries 0 entries.length

/-- Where they end. -/
def numberFieldEnd (entries : List (NumberEntry ν)) (name : String) (start : Nat) : Nat :=
  partitionPoint (fun e => textOrder e.name ≤ textOrder name) entries start entries.length

/-- The first entry of a field that is not smaller than the value. -/
def numberLowerBound (entries : List (NumberEntry ν)) (value : ν) (start stop : Nat) : Nat :=
  partitionPoint (fun e => order e.value < order value) entries start stop

/-- The first that is greater. -/
def numberUpperBound (entries : List (NumberEntry ν)) (value : ν) (start stop : Nat) : Nat :=
  partitionPoint (fun e => order e.value ≤ order value) entries start stop

/-- `_evaluate_int` and `_evaluate_float`: the postings whose ordinals are set, in order. -/
def numberRange (entries : List (NumberEntry ν)) (name : String) (value : ν)
    (operatorKind : FilterOperator) : List (NumberEntry ν) :=
  let start := numberFieldStart entries name
  let stop := numberFieldEnd entries name start
  let lower := numberLowerBound order entries value start stop
  let upper := numberUpperBound order entries value lower stop
  match operatorKind with
  | .equal => slice entries lower upper
  | .notEqual => slice entries start lower ++ slice entries upper stop
  | .lessThan => slice entries start lower
  | .lessOrEqual => slice entries start upper
  | .greaterThan => slice entries upper stop
  | .greaterOrEqual => slice entries lower stop

/-- The order of the postings as a key. -/
def numberKey (e : NumberEntry ν) : List ℕ ×ₗ Int ×ₗ Nat :=
  toLex (textOrder e.name, toLex (order e.value, e.ordinal))

variable {order}

theorem number_after_iff (a b : NumberEntry ν) :
    numberAfter order a b = true ↔ numberKey order b < numberKey order a := by
  unfold numberAfter numberKey
  rw [Prod.Lex.toLex_lt_toLex, Prod.Lex.toLex_lt_toLex, text_order_inj]
  split
  · rename_i hname
    simp [Ne.symm hname]
  · rename_i hname
    rw [not_ne_iff] at hname
    split
    · rename_i hvalue
      simp [hname, Ne.symm hvalue]
    · rename_i hvalue
      rw [not_ne_iff] at hvalue
      simp [hname, hvalue]

theorem number_family_sorted {entries : List (NumberEntry ν)}
    (h : KeySorted (numberKey order) entries) :
    FamilySorted (fun e => textOrder e.name) (fun e => order e.value) entries := by
  refine List.Pairwise.imp (fun {a b} hab => ?_) h
  unfold numberKey at hab
  rw [Prod.Lex.toLex_lt_toLex, Prod.Lex.toLex_lt_toLex] at hab
  rcases hab with hname | ⟨hname, hvalue | ⟨hvalue, -⟩⟩
  · exact .inl hname
  · exact .inr ⟨hname, hvalue.le⟩
  · exact .inr ⟨hname, hvalue.le⟩

/-- The range of a condition holds the postings of its field whose values compare so. -/
theorem mem_number_range {entries : List (NumberEntry ν)}
    (hs : KeySorted (numberKey order) entries) {name : String} {value : ν}
    {operatorKind : FilterOperator} {e : NumberEntry ν} :
    e ∈ numberRange order entries name value operatorKind ↔
      e ∈ entries ∧ e.name = name ∧
        compareOrdered (order e.value) (order value) operatorKind = true := by
  have hloc := located_of_sorted (f := textOrder name) (v := order value)
    (number_family_sorted hs)
    (fun e _ => decide_eq_true_iff) (fun e _ => decide_eq_true_iff)
    (fun e _ _ => decide_eq_true_iff) (fun e _ _ => decide_eq_true_iff) rfl rfl rfl rfl
  rw [← text_order_inj]
  unfold numberRange compareOrdered
  cases operatorKind with
  | equal => exact hloc.mem_eq.trans (by rw [decide_eq_true_iff])
  | lessThan => exact hloc.mem_lt.trans (by rw [decide_eq_true_iff])
  | lessOrEqual => exact hloc.mem_le.trans (by rw [decide_eq_true_iff])
  | greaterThan => exact hloc.mem_gt.trans (by rw [decide_eq_true_iff])
  | greaterOrEqual => exact hloc.mem_ge.trans (by rw [decide_eq_true_iff])
  | notEqual =>
      refine (mem_append.trans (or_congr hloc.mem_lt hloc.mem_gt)).trans ?_
      rw [decide_eq_true_iff, ne_iff_lt_or_gt]
      tauto

end Number

def intAfter (left right : NumberEntry Int64) : Bool :=
  numberAfter Int64.toInt left right

def floatAfter (left right : NumberEntry F64) : Bool :=
  numberAfter F64.order left right

/-! ## Keywords -/

/-- A posting of a String or Bool field; the value of the other kind is empty. -/
structure KeywordEntry where
  name : String
  kind : Nat
  stringValue : String
  boolValue : Bool
  ordinal : Nat
deriving DecidableEq, Repr

/-- The posting of a field, if its value is a String or a Bool. -/
def keywordOf (field : DocumentField) (ordinal : Nat) : Option KeywordEntry :=
  match field.value with
  | .string value => some ⟨field.name, 1, value, false, ordinal⟩
  | .boolean value => some ⟨field.name, 4, "", value, ordinal⟩
  | _ => none

/-- `_keyword_after`: by field name, kind, value and ordinal. -/
def keywordAfter (left right : KeywordEntry) : Bool :=
  if left.name ≠ right.name then textOrder left.name > textOrder right.name
  else if left.kind ≠ right.kind then left.kind > right.kind
  else if left.stringValue ≠ right.stringValue then
    textOrder left.stringValue > textOrder right.stringValue
  else if left.boolValue ≠ right.boolValue then left.boolValue && !right.boolValue
  else left.ordinal > right.ordinal

/-- `_keyword_family_before`. -/
def keywordFamilyBefore (entry : KeywordEntry) (name : String) (kind : Nat) : Bool :=
  textOrder entry.name < textOrder name ∨ entry.name = name ∧ entry.kind < kind

/-- `_keyword_family_after`. -/
def keywordFamilyAfter (entry : KeywordEntry) (name : String) (kind : Nat) : Bool :=
  textOrder entry.name > textOrder name ∨ entry.name = name ∧ entry.kind > kind

def keywordFamilyStart (entries : List KeywordEntry) (name : String) (kind : Nat) : Nat :=
  partitionPoint (keywordFamilyBefore · name kind) entries 0 entries.length

def keywordFamilyEnd (entries : List KeywordEntry) (name : String) (kind start : Nat) : Nat :=
  partitionPoint (!keywordFamilyAfter · name kind) entries start entries.length

/-- `_keyword_value_before`: by the member of the entry that the value's kind uses. -/
def keywordValueBefore (entry : KeywordEntry) : PayloadValue → Bool
  | .string value => textOrder entry.stringValue < textOrder value
  | .boolean value => !entry.boolValue && value
  | _ => false

/-- `_keyword_value_after`. -/
def keywordValueAfter (entry : KeywordEntry) : PayloadValue → Bool
  | .string value => textOrder entry.stringValue > textOrder value
  | .boolean value => entry.boolValue && !value
  | _ => false

def keywordValueLower (entries : List KeywordEntry) (value : PayloadValue) (start stop : Nat) :
    Nat :=
  partitionPoint (keywordValueBefore · value) entries start stop

def keywordValueUpper (entries : List KeywordEntry) (value : PayloadValue) (start stop : Nat) :
    Nat :=
  partitionPoint (!keywordValueAfter · value) entries start stop

/-- `_same_value`. -/
def sameValue (entry : KeywordEntry) : PayloadValue → Bool
  | .string value => entry.kind = 1 ∧ entry.stringValue = value
  | .boolean value => entry.kind = 4 ∧ entry.boolValue = value
  | _ => false

/-- `KeywordIndex.evaluate`: the postings whose ordinals are set, in order. -/
def keywordRange (entries : List KeywordEntry) (name : String) (value : PayloadValue)
    (operatorKind : FilterOperator) : List KeywordEntry :=
  let start := keywordFamilyStart entries name value.kind
  let stop := keywordFamilyEnd entries name value.kind start
  if operatorKind = .notEqual then
    (slice entries start stop).filter (!sameValue · value)
  else
    let lower := keywordValueLower entries value start stop
    let upper := keywordValueUpper entries value lower stop
    slice entries lower upper

/-- The order of the postings as a key. -/
def keywordKey (e : KeywordEntry) : List ℕ ×ₗ ℕ ×ₗ List ℕ ×ₗ Bool ×ₗ ℕ :=
  toLex (textOrder e.name, toLex (e.kind, toLex (textOrder e.stringValue,
    toLex (e.boolValue, e.ordinal))))

theorem keyword_after_iff (a b : KeywordEntry) :
    keywordAfter a b = true ↔ keywordKey b < keywordKey a := by
  unfold keywordAfter keywordKey
  simp only [Prod.Lex.toLex_lt_toLex, text_order_inj]
  by_cases hname : a.name = b.name
  case neg => simp [hname, Ne.symm hname]
  by_cases hkind : a.kind = b.kind
  case neg => simp [hname, hkind, Ne.symm hkind]
  by_cases hstring : a.stringValue = b.stringValue
  case neg => simp [hname, hkind, hstring, Ne.symm hstring]
  by_cases hbool : a.boolValue = b.boolValue
  · simp [hname, hkind, hstring, hbool]
  · simp only [hname, hkind, hstring, Ne.symm hbool]
    cases ha : a.boolValue <;> cases hb : b.boolValue <;> simp_all

/-- The field and the kind of a posting. -/
def keywordFamily (e : KeywordEntry) : List ℕ ×ₗ ℕ :=
  toLex (textOrder e.name, e.kind)

/-- The value of a posting. -/
def keywordValue (e : KeywordEntry) : List ℕ ×ₗ Bool :=
  toLex (textOrder e.stringValue, e.boolValue)

theorem keyword_family_sorted {entries : List KeywordEntry} (h : KeySorted keywordKey entries) :
    FamilySorted keywordFamily keywordValue entries := by
  refine List.Pairwise.imp (fun {a b} hab => ?_) h
  unfold keywordKey at hab
  unfold keywordFamily keywordValue
  simp only [Prod.Lex.toLex_lt_toLex, Prod.Lex.toLex_le_toLex, toLex_inj, Prod.mk.injEq] at hab ⊢
  rcases hab with h | ⟨h₁, h | ⟨h₂, h | ⟨h₃, h | ⟨h₄, -⟩⟩⟩⟩
  · exact .inl (.inl h)
  · exact .inl (.inr ⟨h₁, h⟩)
  · exact .inr ⟨⟨h₁, h₂⟩, .inl h⟩
  · exact .inr ⟨⟨h₁, h₂⟩, .inr ⟨h₃, h.le⟩⟩
  · exact .inr ⟨⟨h₁, h₂⟩, .inr ⟨h₃, h₄.le⟩⟩

/-- The member that an entry's kind does not use is empty. -/
def KeywordEntry.WellTyped (e : KeywordEntry) : Prop :=
  e.kind = 1 ∧ e.boolValue = false ∨ e.kind = 4 ∧ e.stringValue = ""

/-- The place of a condition's value among the values of its family. -/
def valueKey : PayloadValue → List ℕ ×ₗ Bool
  | .string value => toLex (textOrder value, false)
  | .boolean value => toLex (textOrder "", value)
  | _ => toLex ([], false)

/-- In the family of a condition the value tests compare with the condition's value. -/
theorem keyword_value_compare {e : KeywordEntry} (htyped : e.WellTyped) {value : PayloadValue}
    (hvalue : value.kind = 1 ∨ value.kind = 4) (hkind : e.kind = value.kind) :
    (keywordValueBefore e value = true ↔ keywordValue e < valueKey value) ∧
      ((!keywordValueAfter e value) = true ↔ keywordValue e ≤ valueKey value) ∧
      (sameValue e value = true ↔ keywordValue e = valueKey value) := by
  unfold KeywordEntry.WellTyped at htyped
  cases value with
  | integer value => exact absurd hvalue (by simp [kind])
  | floating value => exact absurd hvalue (by simp [kind])
  | string value =>
      replace hkind : e.kind = 1 := hkind
      have hbool : e.boolValue = false := (htyped.resolve_right fun h => by omega).2
      simp [keywordValueBefore, keywordValueAfter, sameValue, keywordValue, valueKey, hbool, hkind,
        Prod.Lex.toLex_lt_toLex, text_order_inj, le_iff_lt_or_eq]
  | boolean value =>
      replace hkind : e.kind = 4 := hkind
      have hstring : e.stringValue = "" := (htyped.resolve_left fun h => by omega).2
      simp only [keywordValueBefore, keywordValueAfter, sameValue, keywordValue, valueKey, hstring,
        hkind, Prod.Lex.toLex_lt_toLex, Prod.Lex.toLex_le_toLex]
      cases e.boolValue <;> cases value <;> simp

theorem keyword_family_compare (e : KeywordEntry) (name : String) (kind : ℕ) :
    (keywordFamilyBefore e name kind = true ↔ keywordFamily e < toLex (textOrder name, kind)) ∧
      ((!keywordFamilyAfter e name kind) = true ↔
        keywordFamily e ≤ toLex (textOrder name, kind)) := by
  unfold keywordFamilyBefore keywordFamilyAfter keywordFamily
  rw [← not_lt, Prod.Lex.toLex_lt_toLex, Prod.Lex.toLex_lt_toLex]
  refine ⟨by simp [text_order_inj], ?_⟩
  rw [Bool.not_eq_true', decide_eq_false_iff_not]
  refine not_congr ?_
  rw [← text_order_inj, eq_comm (a := textOrder e.name)]

/-- The range of a condition holds the postings of its field and kind that are, or are not, its
value. -/
theorem mem_keyword_range {entries : List KeywordEntry} (hs : KeySorted keywordKey entries)
    (htyped : ∀ e ∈ entries, e.WellTyped) {name : String} {value : PayloadValue}
    (hvalue : value.kind = 1 ∨ value.kind = 4) {operatorKind : FilterOperator}
    {e : KeywordEntry} :
    e ∈ keywordRange entries name value operatorKind ↔
      e ∈ entries ∧ (e.name = name ∧ e.kind = value.kind) ∧
        (sameValue e value = true ↔ operatorKind ≠ .notEqual) := by
  have hfamily : ∀ e : KeywordEntry, keywordFamily e = toLex (textOrder name, value.kind) ↔
      e.name = name ∧ e.kind = value.kind := by
    intro e
    unfold keywordFamily
    rw [toLex_inj, Prod.mk.injEq, text_order_inj]
  have hvalues := fun e he (hf : keywordFamily e = toLex (textOrder name, value.kind)) =>
    keyword_value_compare (htyped e he) hvalue ((hfamily e).1 hf).2
  have hloc := located_of_sorted (f := toLex (textOrder name, value.kind)) (v := valueKey value)
    (keyword_family_sorted hs)
    (fun e _ => (keyword_family_compare e name value.kind).1)
    (fun e _ => (keyword_family_compare e name value.kind).2)
    (fun e he hf => (hvalues e he hf).1) (fun e he hf => (hvalues e he hf).2.1) rfl rfl rfl rfl
  unfold keywordRange
  simp only
  split
  · rename_i hop
    rw [mem_filter]
    refine (and_congr_left' hloc.mem_family).trans ?_
    rw [hfamily, hop, Bool.not_eq_true']
    simp [and_assoc]
  · rename_i hop
    refine hloc.mem_eq.trans ?_
    constructor
    · rintro ⟨he, hf, hv⟩
      exact ⟨he, (hfamily e).1 hf, iff_of_true ((hvalues e he hf).2.2.2 hv) hop⟩
    · rintro ⟨he, hf, hv⟩
      exact ⟨he, (hfamily e).2 hf, (hvalues e he ((hfamily e).2 hf)).2.2.1 (hv.2 hop)⟩

/-! ## The two indexes -/

/-- Set the ordinals of a list of postings. -/
def setOrdinals : Bitmap → List Nat → Except String Bitmap
  | bitmap, [] => pure bitmap
  | bitmap, ordinal :: ordinals => do
      let next ← bitmap.set ordinal
      setOrdinals next ordinals

theorem set_ordinals_ok {ordinals : List Nat} {bitmap : Bitmap} (h : bitmap.WellFormed)
    (hbound : ∀ ordinal ∈ ordinals, ordinal < bitmap.size) :
    ∃ result, setOrdinals bitmap ordinals = .ok result ∧ result.WellFormed ∧
      result.size = bitmap.size ∧
      ∀ i, result.has i = true ↔ bitmap.has i = true ∨ i ∈ ordinals := by
  induction ordinals generalizing bitmap with
  | nil => exact ⟨bitmap, rfl, h, rfl, fun i => by simp⟩
  | cons ordinal ordinals ih =>
      obtain ⟨next, hnext, hwf, hsize, hbits⟩ :=
        Bitmap.set_ok h (hbound ordinal mem_cons_self)
      obtain ⟨result, hresult, hwf', hsize', hbits'⟩ := ih hwf fun o ho => by
        rw [hsize]
        exact hbound o (mem_cons_of_mem _ ho)
      refine ⟨result, ?_, hwf', hsize'.trans hsize, fun i => ?_⟩
      · rw [setOrdinals, hnext]
        exact hresult
      · rw [hbits', hbits, Bool.or_eq_true, decide_eq_true_iff, mem_cons, or_assoc]

theorem set_ordinals_of_size {ordinals : List Nat} {size : Nat} {p : Nat → Prop}
    (hmem : ∀ o, o ∈ ordinals ↔ p o) (hbound : ∀ o, p o → o < size) :
    ∃ bitmap, setOrdinals (Bitmap.ofSize size) ordinals = .ok bitmap ∧ bitmap.WellFormed ∧
      bitmap.size = size ∧ ∀ o, bitmap.has o = true ↔ p o := by
  obtain ⟨bitmap, hbitmap, hwf, hsize, hbits⟩ :=
    set_ordinals_ok (Bitmap.of_size_well_formed size) fun o ho => hbound o ((hmem o).1 ho)
  refine ⟨bitmap, hbitmap, hwf, hsize, fun o => ?_⟩
  rw [hbits, Bitmap.of_size_has, hmem]
  exact or_iff_right (by decide)

/-- A field whose postings are keywords. -/
def isKeyword (field : DocumentField) : Bool :=
  field.value.kind = 1 ∨ field.value.kind = 4

structure KeywordIndex where
  size : Nat
  entries : List KeywordEntry
  bulkLoading : Bool
deriving DecidableEq

namespace KeywordIndex

def resize (index : KeywordIndex) (size : Nat) : Except String KeywordIndex := do
  require (index.size ≤ size) "keyword index resize cannot shrink"
  pure { index with size := size }

def beginBulk (index : KeywordIndex) : Except String KeywordIndex := do
  require (¬ index.bulkLoading ∧ index.entries.length = 0)
    "keyword bulk load requires an empty index"
  pure { index with bulkLoading := true }

def finishBulk (index : KeywordIndex) : Except String KeywordIndex := do
  require (index.bulkLoading) "keyword bulk load is not active"
  pure { index with entries := sortPostings keywordAfter index.entries, bulkLoading := false }

/-- `_KeywordEntry(name, value, ordinal)` behind the checks of `add` and `remove`. -/
def entryFor (index : KeywordIndex) (field : DocumentField) (ordinal : Nat) :
    Except String KeywordEntry :=
  match keywordOf field ordinal with
  | none => throw "keyword index requires String or Bool values"
  | some entry => do
      require (ordinal < index.size) "keyword index ordinal out of bounds"
      pure entry

def add (index : KeywordIndex) (field : DocumentField) (ordinal : Nat) :
    Except String KeywordIndex := do
  let entry ← index.entryFor field ordinal
  pure { index with entries := insertPosting keywordAfter index.entries entry index.bulkLoading }

def remove (index : KeywordIndex) (field : DocumentField) (ordinal : Nat) :
    Except String KeywordIndex := do
  let entry ← index.entryFor field ordinal
  pure { index with entries := removePosting keywordAfter index.entries entry index.bulkLoading }

def evaluate (index : KeywordIndex) (condition : FilterCondition) : Except String Bitmap := do
  condition.validate
  require (condition.value.kind = 1 ∨ condition.value.kind = 4)
    "keyword index requires String or Bool values"
  require (¬ index.bulkLoading) "keyword bulk load must finish before queries"
  setOrdinals (Bitmap.ofSize index.size)
    ((keywordRange index.entries condition.name condition.value condition.operatorKind).map
      (·.ordinal))

end KeywordIndex

/-- The posting of an Int64 field. -/
def integerOf (field : DocumentField) (ordinal : Nat) : Option (NumberEntry Int64) :=
  match field.value with
  | .integer value => some ⟨field.name, value, ordinal⟩
  | _ => none

/-- The posting of a Float64 field. -/
def floatOf (field : DocumentField) (ordinal : Nat) : Option (NumberEntry F64) :=
  match field.value with
  | .floating value => some ⟨field.name, value, ordinal⟩
  | _ => none

structure SortedBlockIndex where
  size : Nat
  integers : List (NumberEntry Int64)
  floats : List (NumberEntry F64)
  bulkLoading : Bool
deriving DecidableEq

namespace SortedBlockIndex

def resize (index : SortedBlockIndex) (size : Nat) : Except String SortedBlockIndex := do
  require (index.size ≤ size) "sorted block index resize cannot shrink"
  pure { index with size := size }

def beginBulk (index : SortedBlockIndex) : Except String SortedBlockIndex := do
  require (¬ index.bulkLoading ∧ index.integers.length = 0 ∧ index.floats.length = 0)
    "sorted block bulk load requires an empty index"
  pure { index with bulkLoading := true }

def finishBulk (index : SortedBlockIndex) : Except String SortedBlockIndex := do
  require (index.bulkLoading) "sorted block bulk load is not active"
  pure { index with
    integers := sortPostings intAfter index.integers
    floats := sortPostings floatAfter index.floats
    bulkLoading := false }

def add (index : SortedBlockIndex) (field : DocumentField) (ordinal : Nat) :
    Except String SortedBlockIndex := do
  require (ordinal < index.size) "sorted block ordinal out of bounds"
  match field.value with
  | .integer value =>
      pure { index with
        integers := insertPosting intAfter index.integers ⟨field.name, value, ordinal⟩
          index.bulkLoading }
  | .floating value =>
      pure { index with
        floats := insertPosting floatAfter index.floats ⟨field.name, value, ordinal⟩
          index.bulkLoading }
  | _ => throw "sorted block index requires Int64 or Float64 values"

def remove (index : SortedBlockIndex) (field : DocumentField) (ordinal : Nat) :
    Except String SortedBlockIndex := do
  require (ordinal < index.size) "sorted block ordinal out of bounds"
  match field.value with
  | .integer value =>
      pure { index with
        integers := removePosting intAfter index.integers ⟨field.name, value, ordinal⟩
          index.bulkLoading }
  | .floating value =>
      pure { index with
        floats := removePosting floatAfter index.floats ⟨field.name, value, ordinal⟩
          index.bulkLoading }
  | _ => throw "sorted block index requires Int64 or Float64 values"

def evaluate (index : SortedBlockIndex) (condition : FilterCondition) : Except String Bitmap := do
  condition.validate
  require (¬ index.bulkLoading) "sorted block bulk load must finish before queries"
  match condition.value with
  | .integer value =>
      setOrdinals (Bitmap.ofSize index.size)
        ((numberRange Int64.toInt index.integers condition.name value
          condition.operatorKind).map (·.ordinal))
  | .floating value =>
      setOrdinals (Bitmap.ofSize index.size)
        ((numberRange F64.order index.floats condition.name value
          condition.operatorKind).map (·.ordinal))
  | _ => throw "sorted block index requires Int64 or Float64 values"

end SortedBlockIndex

/-! ## Postings of the stored fields

Three lists of postings are kept in the same way. A family says which posting a field has and
how postings are ordered; `Tracks` says that a list holds the postings of the fields stored at
the ordinals, and no others. -/

variable {field : DocumentField} {ordinal : Nat}

theorem keyword_of_eq {entry : KeywordEntry} (h : keywordOf field ordinal = some entry) :
    entry.name = field.name ∧ entry.ordinal = ordinal ∧ entry.WellTyped := by
  unfold keywordOf at h
  split at h
  · obtain rfl := Option.some.inj h
    exact ⟨rfl, rfl, .inl ⟨rfl, rfl⟩⟩
  · obtain rfl := Option.some.inj h
    exact ⟨rfl, rfl, .inr ⟨rfl, rfl⟩⟩
  · cases h

theorem integer_of_eq {entry : NumberEntry Int64} (h : integerOf field ordinal = some entry) :
    ∃ value, entry = ⟨field.name, value, ordinal⟩ ∧ field.value = .integer value := by
  unfold integerOf at h
  split at h
  · exact ⟨_, (Option.some.inj h).symm, by assumption⟩
  · cases h

theorem float_of_eq {entry : NumberEntry F64} (h : floatOf field ordinal = some entry) :
    ∃ value, entry = ⟨field.name, value, ordinal⟩ ∧ field.value = .floating value := by
  unfold floatOf at h
  split at h
  · exact ⟨_, (Option.some.inj h).symm, by assumption⟩
  · cases h

/-- One kind of postings. -/
structure PostingFamily (α κ : Type) [LinearOrder κ] where
  entryOf : DocumentField → Nat → Option α
  rank : α → κ
  after : α → α → Bool
  after_iff : ∀ a b, after a b = true ↔ rank b < rank a
  rank_field : ∀ {f f' o o' e e'}, entryOf f o = some e → entryOf f' o' = some e' →
    rank e = rank e' → f.name = f'.name ∧ o = o'

/-- String and Bool postings. -/
def keywordPostings : PostingFamily KeywordEntry (List ℕ ×ₗ ℕ ×ₗ List ℕ ×ₗ Bool ×ₗ ℕ) where
  entryOf := keywordOf
  rank := keywordKey
  after := keywordAfter
  after_iff := keyword_after_iff
  rank_field := by
    intro f f' o o' e e' he he' hrank
    obtain ⟨hname, hordinal, -⟩ := keyword_of_eq he
    obtain ⟨hname', hordinal', -⟩ := keyword_of_eq he'
    unfold keywordKey at hrank
    simp only [toLex_inj, Prod.mk.injEq, text_order_inj] at hrank
    rw [hname, hname', hordinal, hordinal'] at hrank
    exact ⟨hrank.1, hrank.2.2.2.2⟩

/-- Int64 postings. -/
def integerPostings : PostingFamily (NumberEntry Int64) (List ℕ ×ₗ Int ×ₗ ℕ) where
  entryOf := integerOf
  rank := numberKey Int64.toInt
  after := intAfter
  after_iff := number_after_iff
  rank_field := by
    intro f f' o o' e e' he he' hrank
    obtain ⟨v, rfl, -⟩ := integer_of_eq he
    obtain ⟨v', rfl, -⟩ := integer_of_eq he'
    unfold numberKey at hrank
    simp only [toLex_inj, Prod.mk.injEq, text_order_inj] at hrank
    exact ⟨hrank.1, hrank.2.2⟩

/-- Float64 postings. -/
def floatPostings : PostingFamily (NumberEntry F64) (List ℕ ×ₗ Int ×ₗ ℕ) where
  entryOf := floatOf
  rank := numberKey F64.order
  after := floatAfter
  after_iff := number_after_iff
  rank_field := by
    intro f f' o o' e e' he he' hrank
    obtain ⟨v, rfl, -⟩ := float_of_eq he
    obtain ⟨v', rfl, -⟩ := float_of_eq he'
    unfold numberKey at hrank
    simp only [toLex_inj, Prod.mk.injEq, text_order_inj] at hrank
    exact ⟨hrank.1, hrank.2.2⟩

namespace PostingFamily

variable {α κ : Type} [LinearOrder κ] (family : PostingFamily α κ)

/-- The list holds the postings of the stored fields, each once, in order unless a bulk load is
under way. -/
structure Tracks (bulk : Bool) (fieldsAt : Nat → List DocumentField) (entries : List α) :
    Prop where
  ordered : OrderedPostings family.rank bulk entries
  mem_iff : ∀ e, e ∈ entries ↔ ∃ o, ∃ f ∈ fieldsAt o, family.entryOf f o = some e

variable {family} {bulk : Bool} {fieldsAt : Nat → List DocumentField} {entries : List α}

/-- The postings after one more field is stored. -/
def added (family : PostingFamily α κ) (bulk : Bool) (entries : List α) (field : DocumentField)
    (ordinal : Nat) : List α :=
  match family.entryOf field ordinal with
  | some entry => insertPosting family.after entries entry bulk
  | none => entries

/-- The postings after a stored field is dropped. -/
def removed (family : PostingFamily α κ) (bulk : Bool) (entries : List α) (field : DocumentField)
    (ordinal : Nat) : List α :=
  match family.entryOf field ordinal with
  | some entry => removePosting family.after entries entry bulk
  | none => entries

/-- Storing a field under a new name adds its posting. -/
theorem Tracks.added (h : family.Tracks bulk fieldsAt entries)
    (hnew : ∀ f ∈ fieldsAt ordinal, f.name ≠ field.name) :
    family.Tracks bulk (update fieldsAt ordinal (fieldsAt ordinal ++ [field]))
      (family.added bulk entries field ordinal) := by
  have hstored : ∀ e, (∃ o, ∃ f ∈ update fieldsAt ordinal (fieldsAt ordinal ++ [field]) o,
      family.entryOf f o = some e) ↔ e ∈ entries ∨ family.entryOf field ordinal = some e := by
    intro e
    rw [h.mem_iff]
    constructor
    · rintro ⟨o, f, hf, he⟩
      by_cases ho : o = ordinal
      · subst ho
        rw [update_self] at hf
        rcases mem_append.1 hf with hf | hf
        · exact .inl ⟨o, f, hf, he⟩
        · rw [mem_singleton.1 hf] at he
          exact .inr he
      · rw [update_of_ne ho] at hf
        exact .inl ⟨o, f, hf, he⟩
    · rintro (⟨o, f, hf, he⟩ | he)
      · refine ⟨o, f, ?_, he⟩
        by_cases ho : o = ordinal
        · subst ho
          rw [update_self]
          exact mem_append_left _ hf
        · rwa [update_of_ne ho]
      · exact ⟨ordinal, field, by rw [update_self]; simp, he⟩
  unfold PostingFamily.added
  cases hentry : family.entryOf field ordinal with
  | none =>
      refine ⟨h.ordered, fun e => ?_⟩
      rw [hstored, hentry]
      simp
  | some entry =>
      have hrank : ∀ e ∈ entries, family.rank e ≠ family.rank entry := by
        intro e he hrank
        obtain ⟨o, f, hf, hfe⟩ := (h.mem_iff e).1 he
        obtain ⟨hname, rfl⟩ := family.rank_field hfe hentry hrank
        exact hnew f hf hname
      obtain ⟨hordered, hperm⟩ := insert_posting_spec family.after_iff h.ordered hrank
      refine ⟨hordered, fun e => ?_⟩
      rw [hstored, hentry, hperm.mem_iff, mem_cons, Option.some.injEq, or_comm,
        eq_comm (a := e)]

/-- Dropping the first stored field of an ordinal drops its posting. -/
theorem Tracks.removed (h : family.Tracks bulk fieldsAt entries) {rest : List DocumentField}
    (hfields : fieldsAt ordinal = field :: rest) (hnew : ∀ f ∈ rest, f.name ≠ field.name) :
    family.Tracks bulk (update fieldsAt ordinal rest)
      (family.removed bulk entries field ordinal) := by
  have hstored : ∀ e, (∃ o, ∃ f ∈ update fieldsAt ordinal rest o,
      family.entryOf f o = some e) ↔ e ∈ entries ∧ family.entryOf field ordinal ≠ some e := by
    intro e
    rw [h.mem_iff]
    constructor
    · rintro ⟨o, f, hf, he⟩
      by_cases ho : o = ordinal
      · subst ho
        rw [update_self] at hf
        refine ⟨⟨o, f, by rw [hfields]; exact mem_cons_of_mem _ hf, he⟩, fun hfield => ?_⟩
        exact hnew f hf (family.rank_field he hfield rfl).1
      · rw [update_of_ne ho] at hf
        exact ⟨⟨o, f, hf, he⟩, fun hfield => ho (family.rank_field he hfield rfl).2⟩
    · rintro ⟨⟨o, f, hf, he⟩, hne⟩
      refine ⟨o, f, ?_, he⟩
      by_cases ho : o = ordinal
      · subst ho
        rw [update_self]
        rw [hfields] at hf
        exact (mem_cons.1 hf).resolve_left fun heq => hne (heq ▸ he)
      · rwa [update_of_ne ho]
  unfold PostingFamily.removed
  cases hentry : family.entryOf field ordinal with
  | none =>
      refine ⟨h.ordered, fun e => ?_⟩
      rw [hstored, hentry]
      simp
  | some entry =>
      have hmem : entry ∈ entries :=
        (h.mem_iff entry).2 ⟨ordinal, field, by rw [hfields]; exact mem_cons_self, hentry⟩
      obtain ⟨hordered, hperm⟩ := remove_posting_spec family.after_iff h.ordered hmem
      have hnotin : entry ∉ removePosting family.after entries entry bulk := fun hin =>
        (pairwise_cons.1 (distinct_of_perm h.ordered.distinct hperm)).1 entry hin rfl
      refine ⟨hordered, fun e => ?_⟩
      rw [hstored, hentry, hperm.mem_iff, mem_cons, ne_eq, Option.some.injEq]
      constructor
      · intro he
        exact ⟨.inr he, fun heq => hnotin (heq ▸ he)⟩
      · rintro ⟨he | he, hne⟩
        · exact absurd he.symm hne
        · exact he

end PostingFamily

theorem keyword_add_ok {index : KeywordIndex} (hordinal : ordinal < index.size)
    (hkeyword : isKeyword field = true) :
    index.add field ordinal = .ok { index with
      entries := keywordPostings.added index.bulkLoading index.entries field ordinal } := by
  obtain ⟨name, value⟩ := field
  unfold KeywordIndex.add KeywordIndex.entryFor require
  rw [if_pos hordinal]
  cases value with
  | string value => rfl
  | boolean value => rfl
  | integer value => exact absurd hkeyword (by simp [isKeyword, kind])
  | floating value => exact absurd hkeyword (by simp [isKeyword, kind])

theorem keyword_remove_ok {index : KeywordIndex} (hordinal : ordinal < index.size)
    (hkeyword : isKeyword field = true) :
    index.remove field ordinal = .ok { index with
      entries := keywordPostings.removed index.bulkLoading index.entries field ordinal } := by
  obtain ⟨name, value⟩ := field
  unfold KeywordIndex.remove KeywordIndex.entryFor require
  rw [if_pos hordinal]
  cases value with
  | string value => rfl
  | boolean value => rfl
  | integer value => exact absurd hkeyword (by simp [isKeyword, kind])
  | floating value => exact absurd hkeyword (by simp [isKeyword, kind])

variable {index : SortedBlockIndex}

theorem number_add_ok (hordinal : ordinal < index.size) (hkeyword : isKeyword field = false) :
    index.add field ordinal = .ok { index with
      integers := integerPostings.added index.bulkLoading index.integers field ordinal
      floats := floatPostings.added index.bulkLoading index.floats field ordinal } := by
  obtain ⟨name, value⟩ := field
  unfold SortedBlockIndex.add require
  rw [if_pos hordinal]
  cases value with
  | string value => exact absurd hkeyword (by simp [isKeyword, kind])
  | boolean value => exact absurd hkeyword (by simp [isKeyword, kind])
  | integer value => rfl
  | floating value => rfl

theorem number_remove_ok (hordinal : ordinal < index.size) (hkeyword : isKeyword field = false) :
    index.remove field ordinal = .ok { index with
      integers := integerPostings.removed index.bulkLoading index.integers field ordinal
      floats := floatPostings.removed index.bulkLoading index.floats field ordinal } := by
  obtain ⟨name, value⟩ := field
  unfold SortedBlockIndex.remove require
  rw [if_pos hordinal]
  cases value with
  | string value => exact absurd hkeyword (by simp [isKeyword, kind])
  | boolean value => exact absurd hkeyword (by simp [isKeyword, kind])
  | integer value => rfl
  | floating value => rfl

theorem entry_of_is_keyword (field : DocumentField) (ordinal : Nat) :
    (isKeyword field = true → integerOf field ordinal = none ∧ floatOf field ordinal = none) ∧
      (isKeyword field = false → keywordOf field ordinal = none) := by
  obtain ⟨name, value⟩ := field
  cases value <;> simp [isKeyword, kind, integerOf, floatOf, keywordOf]

/-! ## Evaluating a condition -/

variable {fieldsAt : Nat → List DocumentField}

theorem condition_keyword_operator (condition : FilterCondition)
    (hvalue : condition.value.kind = 1 ∨ condition.value.kind = 4) :
    condition.operatorKind = .equal ∨ condition.operatorKind = .notEqual := by
  have hvalid := condition.valid
  unfold validateCondition at hvalid
  simp only [bind_ok, require_ok, exists_unit] at hvalid
  have hrange : ¬ condition.operatorKind.isRange = true := fun h => hvalid.2 ⟨h, hvalue⟩
  cases hop : condition.operatorKind <;> simp [hop, FilterOperator.isRange] at hrange ⊢

/-- The posting of a field matches a condition as the field's value does. -/
theorem keyword_of_matches {entry : KeywordEntry} (h : keywordOf field ordinal = some entry)
    (condition : FilterCondition) (hvalue : condition.value.kind = 1 ∨ condition.value.kind = 4) :
    (entry.kind = condition.value.kind ∧
      (sameValue entry condition.value = true ↔ condition.operatorKind ≠ .notEqual)) ↔
        matchesValue field.value condition = true := by
  have hop := condition_keyword_operator condition hvalue
  unfold keywordOf at h
  unfold matchesValue
  cases hfield : field.value with
  | integer value => simp [hfield] at h
  | floating value => simp [hfield] at h
  | string left =>
      simp only [hfield, Option.some.injEq] at h
      subst h
      cases hcond : condition.value with
      | string right => rcases hop with hop | hop <;> simp [hop, sameValue, kind]
      | boolean right => simp [kind]
      | integer right => simp [hcond, kind] at hvalue
      | floating right => simp [hcond, kind] at hvalue
  | boolean left =>
      simp only [hfield, Option.some.injEq] at h
      subst h
      cases hcond : condition.value with
      | boolean right => rcases hop with hop | hop <;> simp [hop, sameValue, kind]
      | string right => simp [kind]
      | integer right => simp [hcond, kind] at hvalue
      | floating right => simp [hcond, kind] at hvalue

variable {condition : FilterCondition}

theorem keyword_of_some (hvalue : condition.value.kind = 1 ∨ condition.value.kind = 4)
    (h : matchesValue field.value condition = true) (ordinal : Nat) :
    ∃ entry, keywordOf field ordinal = some entry := by
  unfold keywordOf
  cases hfield : field.value with
  | string left => exact ⟨_, rfl⟩
  | boolean left => exact ⟨_, rfl⟩
  | integer left =>
      cases hcond : condition.value <;>
        simp [matchesValue, hfield, hcond, kind] at h hvalue
  | floating left =>
      cases hcond : condition.value <;>
        simp [matchesValue, hfield, hcond, kind] at h hvalue

/-- `KeywordIndex.evaluate` finds the ordinals with a field that matches the condition. -/
theorem keyword_evaluate_ok {index : KeywordIndex}
    (h : keywordPostings.Tracks false fieldsAt index.entries) (hbulk : index.bulkLoading = false)
    (hsize : ∀ o, (∃ f ∈ fieldsAt o, f.name = condition.name ∧
      matchesValue f.value condition = true) → o < index.size)
    (hvalue : condition.value.kind = 1 ∨ condition.value.kind = 4) :
    ∃ bitmap, index.evaluate condition = .ok bitmap ∧ bitmap.WellFormed ∧
      bitmap.size = index.size ∧ ∀ o, bitmap.has o = true ↔
        ∃ f ∈ fieldsAt o, f.name = condition.name ∧ matchesValue f.value condition = true := by
  have htyped : ∀ e ∈ index.entries, e.WellTyped := by
    intro e he
    obtain ⟨o, f, -, hf⟩ := (h.mem_iff e).1 he
    exact (keyword_of_eq hf).2.2
  have hsorted : KeySorted keywordKey index.entries := h.ordered.sorted rfl
  -- A posting in the range is a matching field of its ordinal.
  have hrange : ∀ o, o ∈ (keywordRange index.entries condition.name condition.value
      condition.operatorKind).map (·.ordinal) ↔
        ∃ f ∈ fieldsAt o, f.name = condition.name ∧ matchesValue f.value condition = true := by
    intro o
    rw [mem_map]
    constructor
    · rintro ⟨e, he, rfl⟩
      obtain ⟨he, ⟨hname, hkind⟩, hsame⟩ := (mem_keyword_range hsorted htyped hvalue).1 he
      obtain ⟨o, f, hmem, hf⟩ := (h.mem_iff e).1 he
      obtain ⟨hfname, ho, -⟩ := keyword_of_eq hf
      exact ⟨f, ho ▸ hmem, hfname ▸ hname, (keyword_of_matches hf condition hvalue).1 ⟨hkind, hsame⟩⟩
    · rintro ⟨f, hmem, hname, hmatch⟩
      obtain ⟨e, he⟩ := keyword_of_some hvalue hmatch o
      obtain ⟨hfname, ho, -⟩ := keyword_of_eq he
      obtain ⟨hkind, hsame⟩ := (keyword_of_matches he condition hvalue).2 hmatch
      exact ⟨e, (mem_keyword_range hsorted htyped hvalue).2
        ⟨(h.mem_iff e).2 ⟨o, f, hmem, he⟩, ⟨hfname.trans hname, hkind⟩, hsame⟩, ho⟩
  unfold KeywordIndex.evaluate require
  rw [condition.validate_ok, if_pos hvalue, if_pos (by simp [hbulk])]
  exact set_ordinals_of_size hrange hsize

/-- A range of numeric postings finds the ordinals with a field that matches. -/
theorem number_evaluate_ok {ν : Type} {order : ν → Int} {entries : List (NumberEntry ν)}
    (wrap : ν → PayloadValue) {size : Nat} {value : ν} (hs : KeySorted (numberKey order) entries)
    (hmem : ∀ e, e ∈ entries ↔ ∃ o, ⟨e.name, wrap e.value⟩ ∈ fieldsAt o ∧ e.ordinal = o)
    (hwrap : ∀ v, matchesValue (wrap v) condition =
      compareOrdered (order v) (order value) condition.operatorKind)
    (hother : ∀ stored, matchesValue stored condition = true → ∃ v, stored = wrap v)
    (hsize : ∀ o, (∃ f ∈ fieldsAt o, f.name = condition.name ∧
      matchesValue f.value condition = true) → o < size) :
    ∃ bitmap, setOrdinals (Bitmap.ofSize size)
        ((numberRange order entries condition.name value condition.operatorKind).map
          (·.ordinal)) = .ok bitmap ∧ bitmap.WellFormed ∧
      bitmap.size = size ∧ ∀ o, bitmap.has o = true ↔
        ∃ f ∈ fieldsAt o, f.name = condition.name ∧ matchesValue f.value condition = true := by
  have hrange : ∀ o, o ∈ (numberRange order entries condition.name value
      condition.operatorKind).map (·.ordinal) ↔
        ∃ f ∈ fieldsAt o, f.name = condition.name ∧ matchesValue f.value condition = true := by
    intro o
    rw [mem_map]
    constructor
    · rintro ⟨e, he, rfl⟩
      obtain ⟨he, hname, hcompare⟩ := (mem_number_range hs).1 he
      obtain ⟨o, hf, rfl⟩ := (hmem e).1 he
      exact ⟨_, hf, hname, (hwrap e.value).trans hcompare⟩
    · rintro ⟨f, hf, hname, hmatch⟩
      obtain ⟨v, hv⟩ := hother f.value hmatch
      rw [hv, hwrap] at hmatch
      refine ⟨⟨f.name, v, o⟩, (mem_number_range hs).2 ⟨(hmem _).2 ⟨o, ?_, rfl⟩, hname, hmatch⟩, rfl⟩
      show (⟨f.name, wrap v⟩ : DocumentField) ∈ fieldsAt o
      rw [← hv]
      exact hf
  exact set_ordinals_of_size hrange hsize

/-- `SortedBlockIndex.evaluate` finds the ordinals with a field that matches the condition. -/
theorem sorted_block_evaluate_ok (hi : integerPostings.Tracks false fieldsAt index.integers)
    (hf : floatPostings.Tracks false fieldsAt index.floats) (hbulk : index.bulkLoading = false)
    (hsize : ∀ o, (∃ f ∈ fieldsAt o, f.name = condition.name ∧
      matchesValue f.value condition = true) → o < index.size)
    (hvalue : ¬ (condition.value.kind = 1 ∨ condition.value.kind = 4)) :
    ∃ bitmap, index.evaluate condition = .ok bitmap ∧ bitmap.WellFormed ∧
      bitmap.size = index.size ∧ ∀ o, bitmap.has o = true ↔
        ∃ f ∈ fieldsAt o, f.name = condition.name ∧ matchesValue f.value condition = true := by
  unfold SortedBlockIndex.evaluate require
  rw [condition.validate_ok, if_pos (by simp [hbulk])]
  cases hcond : condition.value with
  | string value => exact absurd (.inl (by rw [hcond]; rfl)) hvalue
  | boolean value => exact absurd (.inr (by rw [hcond]; rfl)) hvalue
  | integer value =>
      refine number_evaluate_ok .integer (hi.ordered.sorted rfl) (fun e => ?_)
        (fun v => by simp only [matchesValue, hcond]; rfl) (fun stored h => ?_) hsize
      · rw [hi.mem_iff]
        constructor
        · rintro ⟨o, f, hmem, he⟩
          obtain ⟨v, rfl, hv⟩ := integer_of_eq he
          exact ⟨o, by rw [← hv]; exact hmem, rfl⟩
        · rintro ⟨o, hmem, rfl⟩
          exact ⟨e.ordinal, _, hmem, rfl⟩
      · cases stored <;> simp [matchesValue, hcond] at h ⊢
  | floating value =>
      refine number_evaluate_ok .floating (hf.ordered.sorted rfl) (fun e => ?_)
        (fun v => by simp only [matchesValue, hcond]; rfl) (fun stored h => ?_) hsize
      · rw [hf.mem_iff]
        constructor
        · rintro ⟨o, f, hmem, he⟩
          obtain ⟨v, rfl, hv⟩ := float_of_eq he
          exact ⟨o, by rw [← hv]; exact hmem, rfl⟩
        · rintro ⟨o, hmem, rfl⟩
          exact ⟨e.ordinal, _, hmem, rfl⟩
      · cases stored <;> simp [matchesValue, hcond] at h ⊢

end Akasha.Index

import Akasha.Index.Postings
import Std.Data.ExtTreeMap

/-!
# The metadata index

`MetadataIndex` gives every point identifier a slot and keeps, for the live slots, the fields,
a bitmap and the postings. Every change goes through the postings of the old and of the new
fields. `Consistent` is what the changes keep: the postings are those of the stored fields, a
dead slot stores none, and slots and identifiers determine each other. `Current` relates the
slots to what was last written for each identifier.
-/

namespace Akasha.Index

open Lib Query Function List

structure MetadataIndex where
  ids : List Int64
  ordinals : Std.ExtTreeMap Int64 Nat
  fields : List (List DocumentField)
  live : Bitmap
  keywords : KeywordIndex
  numbers : SortedBlockIndex
  bulkLoading : Bool

/-- `_same_fields`: fields of equal representation, floats by their bits. -/
def sameFields (left right : List DocumentField) : Bool :=
  left = right

namespace MetadataIndex

/-- `MetadataIndex()`. -/
def empty : MetadataIndex where
  ids := []
  ordinals := ∅
  fields := []
  live := Bitmap.ofSize 0
  keywords := ⟨0, [], false⟩
  numbers := ⟨0, [], [], false⟩
  bulkLoading := false

def slotCount (index : MetadataIndex) : Nat :=
  index.ids.length

def ordinalFor (index : MetadataIndex) (id : Int64) : Option Nat :=
  index.ordinals[id]?

/-- The stored fields of a slot. -/
def fieldsAt (index : MetadataIndex) (ordinal : Nat) : List DocumentField :=
  index.fields.getD ordinal []

def liveUniverse (index : MetadataIndex) : Bitmap :=
  index.live

def beginBulk (index : MetadataIndex) : Except String MetadataIndex := do
  require (¬ (index.bulkLoading ∨ index.slotCount ≠ 0))
    "metadata bulk load requires an empty index"
  let keywords ← index.keywords.beginBulk
  let numbers ← index.numbers.beginBulk
  pure { index with keywords := keywords, numbers := numbers, bulkLoading := true }

def finishBulk (index : MetadataIndex) : Except String MetadataIndex := do
  require (index.bulkLoading) "metadata bulk load is not active"
  let keywords ← index.keywords.finishBulk
  let numbers ← index.numbers.finishBulk
  pure { index with keywords := keywords, numbers := numbers, bulkLoading := false }

/-- `_append_slot`: a new slot without fields, not live. -/
def appendSlot (index : MetadataIndex) (id : Int64) : Except String MetadataIndex := do
  let size := index.ids.length + 1
  let live ← index.live.resize size
  let keywords ← index.keywords.resize size
  let numbers ← index.numbers.resize size
  pure { index with
    ids := index.ids ++ [id]
    ordinals := index.ordinals.insert id index.ids.length
    fields := index.fields ++ [[]]
    live := live
    keywords := keywords
    numbers := numbers }

def addField (index : MetadataIndex) (ordinal : Nat) (field : DocumentField) :
    Except String MetadataIndex :=
  if isKeyword field then do
    let keywords ← index.keywords.add field ordinal
    pure { index with keywords := keywords }
  else do
    let numbers ← index.numbers.add field ordinal
    pure { index with numbers := numbers }

def removeField (index : MetadataIndex) (ordinal : Nat) (field : DocumentField) :
    Except String MetadataIndex :=
  if isKeyword field then do
    let keywords ← index.keywords.remove field ordinal
    pure { index with keywords := keywords }
  else do
    let numbers ← index.numbers.remove field ordinal
    pure { index with numbers := numbers }

/-- Add the postings of the fields in order. -/
def addFields (index : MetadataIndex) (ordinal : Nat) :
    List DocumentField → Except String MetadataIndex
  | [] => pure index
  | field :: fields => do
      let next ← index.addField ordinal field
      addFields next ordinal fields

/-- Remove the postings of the fields in order. -/
def removeEach (index : MetadataIndex) (ordinal : Nat) :
    List DocumentField → Except String MetadataIndex
  | [] => pure index
  | field :: fields => do
      let next ← index.removeField ordinal field
      removeEach next ordinal fields

/-- `_remove_fields`. -/
def removeFields (index : MetadataIndex) (ordinal : Nat) : Except String MetadataIndex :=
  index.removeEach ordinal (index.fieldsAt ordinal)

/-- The end of `upsert`: add the postings, store the fields and set the live bit. -/
def storeFields (index : MetadataIndex) (ordinal : Nat) (fields : List DocumentField) :
    Except String MetadataIndex := do
  let posted ← index.addFields ordinal fields
  let live ← posted.live.set ordinal
  pure { posted with fields := posted.fields.set ordinal fields, live := live }

def upsert (index : MetadataIndex) (id : Int64) (fields : List DocumentField) :
    Except String MetadataIndex := do
  validateFields fields
  require (¬ (index.bulkLoading ∧ (index.ordinalFor id).isSome))
    "metadata bulk load requires unique point IDs"
  match index.ordinalFor id with
  | some ordinal => do
      let live ← index.live.contains ordinal
      if live ∧ sameFields (index.fieldsAt ordinal) fields then pure index
      else
        let cleared ← index.removeFields ordinal
        cleared.storeFields ordinal fields
  | none => do
      let grown ← index.appendSlot id
      grown.storeFields index.slotCount fields

def delete (index : MetadataIndex) (id : Int64) : Except String MetadataIndex :=
  match index.ordinalFor id with
  | none => index.appendSlot id
  | some ordinal => do
      let cleared ← index.removeFields ordinal
      let live ← cleared.live.clear ordinal
      pure { cleared with fields := cleared.fields.set ordinal [], live := live }

def evaluateCondition (index : MetadataIndex) (condition : FilterCondition) :
    Except String Bitmap := do
  condition.validate
  let candidates ←
    if condition.value.kind = 1 ∨ condition.value.kind = 4 then index.keywords.evaluate condition
    else index.numbers.evaluate condition
  index.live.intersection candidates

/-! ## What the changes keep -/

/-- The postings are those of the fields stored at the ordinals. -/
structure Tracked (bulk : Bool) (size : Nat) (fieldsAt : Nat → List DocumentField)
    (keywords : KeywordIndex) (numbers : SortedBlockIndex) : Prop where
  keyword_size : keywords.size = size
  number_size : numbers.size = size
  keyword_bulk : keywords.bulkLoading = bulk
  number_bulk : numbers.bulkLoading = bulk
  keywords : keywordPostings.Tracks bulk fieldsAt keywords.entries
  integers : integerPostings.Tracks bulk fieldsAt numbers.integers
  floats : floatPostings.Tracks bulk fieldsAt numbers.floats

/-- Slots and identifiers determine each other, a dead slot stores no fields, and the postings
are those of the stored fields. -/
structure Consistent (index : MetadataIndex) : Prop where
  fields_length : index.fields.length = index.ids.length
  ordinals_iff : ∀ (id : Int64) (o : Nat), index.ordinals[id]? = some o ↔ index.ids[o]? = some id
  live_well_formed : index.live.WellFormed
  live_size : index.live.size = index.ids.length
  names_nodup : ∀ o, ((index.fieldsAt o).map (·.name)).Nodup
  dead_empty : ∀ o, index.live.has o = false → index.fieldsAt o = []
  tracked : Tracked index.bulkLoading index.ids.length index.fieldsAt index.keywords index.numbers

variable {bulk : Bool} {size : Nat} {stored : Nat → List DocumentField} {index : MetadataIndex}

variable {ordinal : Nat}

/-- Adding the postings of one field. -/
theorem add_field_ok (h : Tracked bulk size stored index.keywords index.numbers)
    (hordinal : ordinal < size) {field : DocumentField}
    (hnew : ∀ f ∈ stored ordinal, f.name ≠ field.name) :
    ∃ keywords numbers, index.addField ordinal field =
        .ok { index with keywords := keywords, numbers := numbers } ∧
      Tracked bulk size (update stored ordinal (stored ordinal ++ [field])) keywords
        numbers := by
  have hk := h.keywords.added hnew
  have hi := h.integers.added hnew
  have hf := h.floats.added hnew
  unfold addField
  cases hkeyword : isKeyword field with
  | true =>
      -- A keyword has no numeric posting, so the numeric lists track the new fields as they are.
      obtain ⟨hint, hfloat⟩ := (entry_of_is_keyword field ordinal).1 hkeyword
      have hadd := keyword_add_ok (h.keyword_size ▸ hordinal) hkeyword
      refine ⟨_, index.numbers, by rw [if_pos rfl, hadd]; rfl, ?_⟩
      refine ⟨h.keyword_size, h.number_size, h.keyword_bulk, h.number_bulk, ?_, ?_, ?_⟩
      · rw [h.keyword_bulk]
        exact hk
      · simpa only [PostingFamily.added, integerPostings, hint] using hi
      · simpa only [PostingFamily.added, floatPostings, hfloat] using hf
  | false =>
      have hword := (entry_of_is_keyword field ordinal).2 hkeyword
      have hadd := number_add_ok (h.number_size ▸ hordinal) hkeyword
      refine ⟨index.keywords, _, by rw [if_neg (by decide), hadd]; rfl, ?_⟩
      refine ⟨h.keyword_size, h.number_size, h.keyword_bulk, h.number_bulk, ?_, ?_, ?_⟩
      · simpa only [PostingFamily.added, keywordPostings, hword] using hk
      · rw [h.number_bulk]
        exact hi
      · rw [h.number_bulk]
        exact hf

/-- Removing the postings of the first field that is left. -/
theorem remove_field_ok (h : Tracked bulk size stored index.keywords index.numbers)
    (hordinal : ordinal < size) {field : DocumentField} {rest : List DocumentField}
    (hfields : stored ordinal = field :: rest) (hnew : ∀ f ∈ rest, f.name ≠ field.name) :
    ∃ keywords numbers, index.removeField ordinal field =
        .ok { index with keywords := keywords, numbers := numbers } ∧
      Tracked bulk size (update stored ordinal rest) keywords numbers := by
  have hk := h.keywords.removed hfields hnew
  have hi := h.integers.removed hfields hnew
  have hf := h.floats.removed hfields hnew
  unfold removeField
  cases hkeyword : isKeyword field with
  | true =>
      obtain ⟨hint, hfloat⟩ := (entry_of_is_keyword field ordinal).1 hkeyword
      have hremove := keyword_remove_ok (h.keyword_size ▸ hordinal) hkeyword
      refine ⟨_, index.numbers, by rw [if_pos rfl, hremove]; rfl, ?_⟩
      refine ⟨h.keyword_size, h.number_size, h.keyword_bulk, h.number_bulk, ?_, ?_, ?_⟩
      · rw [h.keyword_bulk]
        exact hk
      · simpa only [PostingFamily.removed, integerPostings, hint] using hi
      · simpa only [PostingFamily.removed, floatPostings, hfloat] using hf
  | false =>
      have hword := (entry_of_is_keyword field ordinal).2 hkeyword
      have hremove := number_remove_ok (h.number_size ▸ hordinal) hkeyword
      refine ⟨index.keywords, _, by rw [if_neg (by decide), hremove]; rfl, ?_⟩
      refine ⟨h.keyword_size, h.number_size, h.keyword_bulk, h.number_bulk, ?_, ?_, ?_⟩
      · simpa only [PostingFamily.removed, keywordPostings, hword] using hk
      · rw [h.number_bulk]
        exact hi
      · rw [h.number_bulk]
        exact hf

variable {fields : List DocumentField}

/-- Adding the postings of all fields of a slot. -/
theorem add_fields_ok (index : MetadataIndex)
    (h : Tracked bulk size stored index.keywords index.numbers) (hordinal : ordinal < size)
    (hnames : ((stored ordinal ++ fields).map (·.name)).Nodup) :
    ∃ keywords numbers, index.addFields ordinal fields =
        .ok { index with keywords := keywords, numbers := numbers } ∧
      Tracked bulk size (update stored ordinal (stored ordinal ++ fields)) keywords
        numbers := by
  induction fields generalizing index stored with
  | nil =>
      refine ⟨index.keywords, index.numbers, rfl, ?_⟩
      rwa [append_nil, update_eq_self]
  | cons field fields ih =>
      have hnew : ∀ f ∈ stored ordinal, f.name ≠ field.name := by
        rw [map_append, map_cons, nodup_append] at hnames
        exact fun f hf => hnames.2.2 _ (mem_map_of_mem hf) _ mem_cons_self
      obtain ⟨keywords, numbers, hadd, htracked⟩ := add_field_ok h hordinal hnew
      obtain ⟨keywords', numbers', hrest, htracked'⟩ :=
        ih { index with keywords := keywords, numbers := numbers } htracked
          (by rwa [update_self, append_assoc, singleton_append])
      refine ⟨keywords', numbers', ?_, ?_⟩
      · rw [addFields, hadd]
        exact hrest
      · rwa [update_self, update_idem, append_assoc,
          singleton_append] at htracked'

/-- Removing the postings of all fields of a slot. -/
theorem remove_each_ok (h : Tracked bulk size stored index.keywords index.numbers)
    (hordinal : ordinal < size) (hfields : stored ordinal = fields)
    (hnames : (fields.map (·.name)).Nodup) :
    ∃ keywords numbers, index.removeEach ordinal fields =
        .ok { index with keywords := keywords, numbers := numbers } ∧
      Tracked bulk size (update stored ordinal []) keywords numbers := by
  induction fields generalizing index stored with
  | nil =>
      refine ⟨index.keywords, index.numbers, rfl, ?_⟩
      rwa [← hfields, update_eq_self]
  | cons field fields ih =>
      obtain ⟨hfield, hrest⟩ := nodup_cons.1 (map_cons ▸ hnames)
      have hnew : ∀ f ∈ fields, f.name ≠ field.name := fun f hf hname =>
        hfield (hname ▸ mem_map_of_mem (f := (·.name)) hf)
      obtain ⟨keywords, numbers, hremove, htracked⟩ := remove_field_ok h hordinal hfields hnew
      obtain ⟨keywords', numbers', hrest, htracked'⟩ :=
        @ih _ { index with keywords := keywords, numbers := numbers } htracked
          (update_self _ _ _) hrest
      refine ⟨keywords', numbers', ?_, ?_⟩
      · rw [removeEach, hremove]
        exact hrest
      · rwa [update_idem] at htracked'

/-- A slot of the index is replaced: its fields, its live bit and its postings. -/
theorem consistent_set_slot (h : Consistent index) (hordinal : ordinal < index.ids.length)
    {live : Bitmap} {keywords : KeywordIndex} {numbers : SortedBlockIndex}
    (hnames : (fields.map (·.name)).Nodup) (hlive : live.WellFormed)
    (hsize : live.size = index.live.size)
    (hbits : ∀ o, o ≠ ordinal → live.has o = index.live.has o)
    (hdead : live.has ordinal = false → fields = [])
    (htracked : Tracked index.bulkLoading index.ids.length
      (update index.fieldsAt ordinal fields) keywords numbers) :
    Consistent { index with
      fields := index.fields.set ordinal fields, live := live, keywords := keywords,
      numbers := numbers } ∧
      fieldsAt { index with
        fields := index.fields.set ordinal fields, live := live, keywords := keywords,
        numbers := numbers } = update index.fieldsAt ordinal fields := by
  have hfieldsAt : fieldsAt { index with
      fields := index.fields.set ordinal fields, live := live, keywords := keywords,
      numbers := numbers } = update index.fieldsAt ordinal fields := by
    funext o
    unfold fieldsAt
    rw [update_apply, getD_eq_getElem?_getD, getElem?_set]
    by_cases ho : o = ordinal
    · rw [if_pos ho.symm, if_pos (by rw [h.fields_length]; exact hordinal), if_pos ho]
      rfl
    · rw [if_neg (Ne.symm ho), if_neg ho, getD_eq_getElem?_getD]
  refine ⟨⟨?_, h.ordinals_iff, hlive, hsize.trans h.live_size, fun o => ?_, fun o ho => ?_, ?_⟩,
    hfieldsAt⟩
  · rw [length_set]
    exact h.fields_length
  · rw [hfieldsAt, update_apply]
    split
    · exact hnames
    · exact h.names_nodup o
  · rw [hfieldsAt, update_apply]
    split
    · rename_i heq
      exact hdead (heq ▸ ho)
    · rename_i hne
      exact h.dead_empty o ((hbits o hne).symm.trans ho)
  · rw [hfieldsAt]
    exact htracked

theorem empty_consistent : Consistent empty where
  fields_length := rfl
  ordinals_iff id o := by
    show (∅ : Std.ExtTreeMap Int64 Nat)[id]? = some o ↔ ([] : List Int64)[o]? = some id
    simp
  live_well_formed := Bitmap.of_size_well_formed 0
  live_size := rfl
  names_nodup o := by
    show ((([] : List (List DocumentField)).getD o []).map (·.name)).Nodup
    simp
  dead_empty o _ := rfl
  tracked := by
    have hnone : ∀ o, empty.fieldsAt o = [] := fun o => rfl
    have htracks : ∀ {α κ : Type} [LinearOrder κ] (family : PostingFamily α κ),
        family.Tracks false empty.fieldsAt [] := fun family =>
      ⟨⟨.nil, fun _ => .nil⟩, fun e => by simp [hnone]⟩
    exact ⟨rfl, rfl, rfl, rfl, htracks _, htracks _, htracks _⟩

variable {id : Int64}

/-- A new slot stores nothing and is not live. -/
theorem append_slot_ok (h : Consistent index) (hid : index.ordinals[id]? = none) :
    ∃ grown, index.appendSlot id = .ok grown ∧ Consistent grown ∧
      grown.ids = index.ids ++ [id] ∧ grown.fieldsAt = index.fieldsAt ∧
      (∀ o, grown.live.has o = index.live.has o) ∧ grown.bulkLoading = index.bulkLoading := by
  obtain ⟨live, hlive, hwf, hsize, hbits⟩ := Bitmap.resize_ok h.live_well_formed
    (show index.live.size ≤ index.ids.length + 1 by have := h.live_size; omega)
  have hk := h.tracked.keyword_size
  have hn := h.tracked.number_size
  have hfieldsAt : ∀ o, (index.fields ++ [[]]).getD o [] = index.fieldsAt o := by
    intro o
    unfold fieldsAt
    by_cases ho : o < index.fields.length
    · rw [getD_append _ _ _ _ ho]
    · rw [getD_append_right _ _ _ _ (by omega), getD_eq_default index.fields _ (by omega)]
      cases o - index.fields.length <;> rfl
  refine ⟨{ index with
      ids := index.ids ++ [id]
      ordinals := index.ordinals.insert id index.ids.length
      fields := index.fields ++ [[]]
      live := live
      keywords := { index.keywords with size := index.ids.length + 1 }
      numbers := { index.numbers with size := index.ids.length + 1 } }, ?_, ?_, rfl,
    funext hfieldsAt, hbits, rfl⟩
  · unfold appendSlot KeywordIndex.resize SortedBlockIndex.resize require
    simp only [hlive, if_pos (show index.keywords.size ≤ index.ids.length + 1 by omega),
      if_pos (show index.numbers.size ≤ index.ids.length + 1 by omega)]
    rfl
  · refine ⟨?_, fun id' o => ?_, hwf, ?_, fun o => ?_, fun o ho => ?_, ?_⟩
    · simp only [length_append, length_singleton, h.fields_length]
    · -- The new identifier has the last slot, the others keep theirs.
      rw [Std.ExtTreeMap.getElem?_insert]
      split
      · rename_i heq
        obtain rfl : id = id' := Std.LawfulEqCmp.eq_of_compare heq
        constructor
        · rintro ho
          obtain rfl := Option.some.inj ho
          rw [getElem?_append_right (Nat.le_refl _), Nat.sub_self]
          rfl
        · intro ho
          by_cases hlt : o < index.ids.length
          · rw [getElem?_append_left hlt] at ho
            have := (h.ordinals_iff id o).2 ho
            rw [hid] at this
            cases this
          · rw [List.getElem?_append_right (by omega)] at ho
            have := (List.getElem?_eq_some_iff.1 ho).1
            simp only [List.length_singleton] at this
            congr 1
            omega
      · rename_i hne
        rw [h.ordinals_iff]
        by_cases hlt : o < index.ids.length
        · rw [getElem?_append_left hlt]
        · have hnone : index.ids[o]? = none := getElem?_eq_none (by omega)
          rw [getElem?_append_right (by omega), hnone]
          refine ⟨nofun, fun ho => ?_⟩
          have heq : id = id' := by
            obtain ⟨hlt', heq⟩ := List.getElem?_eq_some_iff.1 ho
            simpa using heq
          exact absurd (heq ▸ Std.ReflCmp.compare_self) hne
    · simp only [hsize, length_append, length_singleton]
    · show (((index.fields ++ [[]]).getD o []).map DocumentField.name).Nodup
      rw [hfieldsAt]
      exact h.names_nodup o
    · show (index.fields ++ [[]]).getD o [] = []
      rw [hfieldsAt]
      exact h.dead_empty o ((hbits o).symm.trans ho)
    · have hfun : fieldsAt { index with
          ids := index.ids ++ [id]
          ordinals := index.ordinals.insert id index.ids.length
          fields := index.fields ++ [[]]
          live := live
          keywords := { index.keywords with size := index.ids.length + 1 }
          numbers := { index.numbers with size := index.ids.length + 1 } } = index.fieldsAt :=
        funext hfieldsAt
      rw [hfun]
      refine ⟨?_, ?_, h.tracked.keyword_bulk, h.tracked.number_bulk, h.tracked.keywords,
        h.tracked.integers, h.tracked.floats⟩ <;>
        simp only [length_append, length_singleton]

theorem remove_fields_ok (h : Consistent index) (hordinal : ordinal < index.ids.length) :
    ∃ keywords numbers, index.removeFields ordinal =
        .ok { index with keywords := keywords, numbers := numbers } ∧
      Tracked index.bulkLoading index.ids.length (update index.fieldsAt ordinal [])
        keywords numbers :=
  remove_each_ok h.tracked hordinal rfl (h.names_nodup ordinal)

/-- Storing the fields of a slot whose postings have been removed. -/
theorem store_fields_ok (h : Consistent index) (hordinal : ordinal < index.ids.length)
    {keywords : KeywordIndex} {numbers : SortedBlockIndex}
    (htracked : Tracked index.bulkLoading index.ids.length
      (update index.fieldsAt ordinal []) keywords numbers)
    (hnames : (fields.map (·.name)).Nodup) :
    ∃ next, storeFields { index with keywords := keywords, numbers := numbers } ordinal fields =
        .ok next ∧ Consistent next ∧ next.ids = index.ids ∧
      next.fieldsAt = update index.fieldsAt ordinal fields ∧
      (∀ o, next.live.has o = (index.live.has o || decide (o = ordinal))) ∧
      next.bulkLoading = index.bulkLoading := by
  obtain ⟨keywords', numbers', hadd, htracked'⟩ := add_fields_ok
    { index with keywords := keywords, numbers := numbers } htracked hordinal
    (show ((update index.fieldsAt ordinal [] ordinal ++ fields).map (·.name)).Nodup by
      rwa [update_self, nil_append])
  rw [update_self, nil_append, update_idem] at htracked'
  obtain ⟨live, hlive, hwf, hsize, hbits⟩ := Bitmap.set_ok h.live_well_formed
    (show ordinal < index.live.size by rw [h.live_size]; exact hordinal)
  obtain ⟨hconsistent, hfieldsAt⟩ := consistent_set_slot h hordinal hnames hwf hsize
    (fun o ho => by rw [hbits, decide_eq_false ho, Bool.or_false])
    (fun hdead => by rw [hbits, decide_eq_true rfl, Bool.or_true] at hdead; cases hdead) htracked'
  refine ⟨_, ?_, hconsistent, rfl, hfieldsAt, hbits, rfl⟩
  unfold storeFields
  rw [hadd]
  show (index.live.set ordinal >>= _) = _
  rw [hlive]
  rfl

/-! ## The contents -/

/-- What was last written for each identifier; an identifier that is not live has no fields. -/
abbrev Contents := Int64 → Option (List DocumentField)

/-- The slots show the contents. -/
structure Current (index : MetadataIndex) (contents : Contents) : Prop where
  known : ∀ id fields, contents id = some fields → ∃ o, index.ordinals[id]? = some o
  shown : ∀ (o : Nat) id, index.ids[o]? = some id →
    contents id = if index.live.has o then some (index.fieldsAt o) else none

variable {contents : Contents}

/-- A changed slot shows the new contents of its identifier, the others are as before. -/
theorem current_update (h : Consistent index) (hc : Current index contents) {next : MetadataIndex}
    (hnext : Consistent next) (hid : index.ids[ordinal]? = some id) (hids : next.ids = index.ids)
    {fields : Option (List DocumentField)} (hother : ∀ o, o ≠ ordinal →
      next.live.has o = index.live.has o ∧ next.fieldsAt o = index.fieldsAt o)
    (hslot : fields = if next.live.has ordinal then some (next.fieldsAt ordinal) else none) :
    Current next (update contents id fields) := by
  refine ⟨fun id' fields' hfields => ?_, fun o id' ho => ?_⟩
  · by_cases heq : id' = id
    · exact ⟨ordinal, by rw [hnext.ordinals_iff, hids, heq]; exact hid⟩
    · rw [update_of_ne heq] at hfields
      obtain ⟨o, ho⟩ := hc.known id' fields' hfields
      exact ⟨o, by rw [hnext.ordinals_iff, hids, ← h.ordinals_iff]; exact ho⟩
  · rw [hids] at ho
    by_cases heq : o = ordinal
    · subst heq
      rw [hid] at ho
      rw [← Option.some.inj ho, update_self]
      exact hslot
    · -- Two slots have two identifiers.
      have hne : id' ≠ id := by
        rintro rfl
        have h₁ := (h.ordinals_iff id' o).2 ho
        have h₂ := (h.ordinals_iff id' ordinal).2 hid
        rw [h₁] at h₂
        exact heq (Option.some.inj h₂)
      obtain ⟨hlive, hfields⟩ := hother o heq
      rw [update_of_ne hne, hc.shown o id' ho, hlive, hfields]

/-- A new slot that is not live leaves the contents as they are. -/
theorem current_append (h : Consistent index) (hc : Current index contents)
    {grown : MetadataIndex} (hgrown : Consistent grown) (hid : index.ordinals[id]? = none)
    (hids : grown.ids = index.ids ++ [id]) (hfields : grown.fieldsAt = index.fieldsAt)
    (hlive : ∀ o, grown.live.has o = index.live.has o) :
    contents id = none ∧ Current grown contents := by
  have hnone : contents id = none := by
    refine Option.eq_none_iff_forall_ne_some.2 fun fields hsome => ?_
    obtain ⟨o, ho⟩ := hc.known id fields hsome
    rw [hid] at ho
    cases ho
  refine ⟨hnone, fun id' fields' hsome => ?_, fun o id' ho => ?_⟩
  · obtain ⟨o, ho⟩ := hc.known id' fields' hsome
    refine ⟨o, ?_⟩
    rw [hgrown.ordinals_iff, hids]
    have := (h.ordinals_iff id' o).1 ho
    rwa [List.getElem?_append_left (List.getElem?_eq_some_iff.1 this).1]
  · rw [hids] at ho
    rw [hlive, hfields]
    by_cases hlt : o < index.ids.length
    · rw [getElem?_append_left hlt] at ho
      exact hc.shown o id' ho
    · rw [getElem?_append_right (by omega)] at ho
      have heq : id = id' := by
        obtain ⟨hlt', heq⟩ := List.getElem?_eq_some_iff.1 ho
        simpa using heq
      rw [← heq, hnone, h.live_well_formed.tail_clear o (by rw [h.live_size]; omega)]
      rfl

theorem not_mem_ids (h : Consistent index) (hid : index.ordinalFor id = none) :
    id ∉ index.ids := by
  intro hmem
  obtain ⟨o, ho⟩ := mem_iff_getElem?.1 hmem
  have hsome := (h.ordinals_iff id o).2 ho
  rw [show index.ordinals[id]? = none from hid] at hsome
  cases hsome

/-! ## The operations

Each operation either raises at its first checks, before it has changed anything, or returns. -/

/-- Fields that pass their check are written, also over an earlier version. -/
theorem upsert_ok (h : Consistent index) (hc : Current index contents)
    (hvalid : validateFields fields = .ok ())
    (hbulk : ¬ (index.bulkLoading = true ∧ (index.ordinalFor id).isSome = true)) :
    ∃ next, index.upsert id fields = .ok next ∧ Consistent next ∧
      Current next (update contents id (some fields)) ∧
      next.ids = (if id ∈ index.ids then index.ids else index.ids ++ [id]) ∧
      next.bulkLoading = index.bulkLoading := by
  have hnames := (validate_fields_ok.1 hvalid).2
  unfold upsert require
  rw [hvalid, if_pos hbulk]
  cases hordinal : index.ordinalFor id with
  | some ordinal =>
      have hid := (h.ordinals_iff id ordinal).1 hordinal
      have hlt : ordinal < index.ids.length := (List.getElem?_eq_some_iff.1 hid).1
      have hcontains := Bitmap.contains_ok
        (show ordinal < index.live.size by rw [h.live_size]; exact hlt)
      by_cases hsame : index.live.has ordinal = true ∧ sameFields (index.fieldsAt ordinal) fields
      · -- The same fields again: nothing changes, and nothing has to.
        refine ⟨index, ?_, h, current_update h hc h hid rfl (fun o _ => ⟨rfl, rfl⟩) ?_,
          (if_pos (mem_of_getElem? hid)).symm, rfl⟩
        · show (index.live.contains ordinal >>= _) = _
          rw [hcontains]
          exact if_pos hsame
        · rw [if_pos hsame.1, of_decide_eq_true hsame.2]
      · obtain ⟨keywords, numbers, hremove, htracked⟩ := remove_fields_ok h hlt
        obtain ⟨next, hstore, hnext, hids, hfields, hlive, hloading⟩ :=
          store_fields_ok h hlt htracked hnames
        refine ⟨next, ?_, hnext, current_update h hc hnext hid hids (fun o ho => ?_) ?_,
          hids.trans (if_pos (mem_of_getElem? hid)).symm, hloading⟩
        · show (index.live.contains ordinal >>= _) = _
          rw [hcontains]
          refine (if_neg hsame).trans ?_
          rw [hremove]
          exact hstore
        · rw [hlive, hfields, decide_eq_false ho, Bool.or_false, update_of_ne ho]
          exact ⟨rfl, rfl⟩
        · rw [hlive, decide_eq_true rfl, Bool.or_true, if_pos rfl, hfields, update_self]
  | none =>
      obtain ⟨grown, hgrow, hgrown, hids, hfields, hlive, hbulk'⟩ := append_slot_ok h hordinal
      obtain ⟨-, hcg⟩ := current_append h hc hgrown hordinal hids hfields hlive
      have hlt : index.ids.length < grown.ids.length := by
        rw [hids, length_append, length_singleton]
        omega
      have hid : grown.ids[index.ids.length]? = some id := by
        rw [hids, getElem?_append_right (Nat.le_refl _), Nat.sub_self]
        rfl
      have hempty : grown.fieldsAt index.ids.length = [] := by
        rw [hfields]
        exact h.dead_empty _ (h.live_well_formed.tail_clear _ (by rw [h.live_size]))
      obtain ⟨next, hstore, hnext, hids', hfields', hlive', hloading⟩ := store_fields_ok hgrown hlt
        (show Tracked grown.bulkLoading grown.ids.length (update grown.fieldsAt
            index.ids.length []) grown.keywords grown.numbers by
          rw [← hempty, update_eq_self]
          exact hgrown.tracked) hnames
      refine ⟨next, ?_, hnext, current_update hgrown hcg hnext hid hids' (fun o ho => ?_) ?_,
        hids'.trans (hids.trans (if_neg (not_mem_ids h hordinal)).symm), hloading.trans hbulk'⟩
      · show (index.appendSlot id >>= _) = _
        rw [hgrow]
        exact hstore
      · rw [hlive', hfields', decide_eq_false ho, Bool.or_false, update_of_ne ho]
        exact ⟨rfl, rfl⟩
      · rw [hlive', decide_eq_true rfl, Bool.or_true, if_pos rfl, hfields', update_self]

/-- A delete always returns; the identifier of an unknown point gets a slot that is not live. -/
theorem delete_ok (h : Consistent index) (hc : Current index contents) (id : Int64) :
    ∃ next, index.delete id = .ok next ∧ Consistent next ∧
      Current next (update contents id none) ∧
      next.ids = (if id ∈ index.ids then index.ids else index.ids ++ [id]) ∧
      next.bulkLoading = index.bulkLoading := by
  unfold delete
  cases hordinal : index.ordinalFor id with
  | none =>
      obtain ⟨grown, hgrow, hgrown, hids, hfields, hlive, hbulk⟩ := append_slot_ok h hordinal
      obtain ⟨hnone, hcg⟩ := current_append h hc hgrown hordinal hids hfields hlive
      refine ⟨grown, hgrow, hgrown, ?_, hids.trans (if_neg (not_mem_ids h hordinal)).symm, hbulk⟩
      rwa [← hnone, update_eq_self]
  | some ordinal =>
      have hid := (h.ordinals_iff id ordinal).1 hordinal
      have hlt : ordinal < index.ids.length := (List.getElem?_eq_some_iff.1 hid).1
      obtain ⟨keywords, numbers, hremove, htracked⟩ := remove_fields_ok h hlt
      obtain ⟨live, hlive, hwf, hsize, hbits⟩ := Bitmap.clear_ok h.live_well_formed
        (show ordinal < index.live.size by rw [h.live_size]; exact hlt)
      obtain ⟨hnext, hfields⟩ := consistent_set_slot h hlt
        (show (([] : List DocumentField).map (·.name)).Nodup from nodup_nil) hwf hsize
        (fun o ho => by rw [hbits, decide_eq_true ho, Bool.and_true]) (fun _ => rfl) htracked
      refine ⟨_, ?_, hnext, current_update h hc hnext hid rfl (fun o ho => ⟨?_, ?_⟩) ?_,
        (if_pos (mem_of_getElem? hid)).symm, rfl⟩
      · simp only [hremove]
        show (index.live.clear ordinal >>= _) = _
        rw [hlive]
        rfl
      · show live.has o = index.live.has o
        rw [hbits, decide_eq_true ho, Bool.and_true]
      · rw [hfields, update_of_ne ho]
      · show none = if live.has ordinal = true then _ else none
        rw [hbits, decide_eq_false (by simp), Bool.and_false]
        rfl

/-- A bulk load begins on an index without slots. -/
theorem begin_bulk_ok (h : Consistent index) (hc : Current index contents)
    (hempty : ¬ (index.bulkLoading = true ∨ index.slotCount ≠ 0)) :
    ∃ next, index.beginBulk = .ok next ∧ Consistent next ∧ Current next contents := by
  have hbulk : index.bulkLoading = false := Bool.eq_false_iff.2 fun h => hempty (.inl h)
  have hids : index.ids.length = 0 := by
    by_contra hne
    exact hempty (.inr hne)
  have hnone : ∀ o, index.fieldsAt o = [] := by
    intro o
    unfold fieldsAt
    rw [getD_eq_default _ _ (by rw [h.fields_length]; omega)]
  have hnil : ∀ {α κ : Type} [LinearOrder κ] {family : PostingFamily α κ} {entries : List α}
      {bulk : Bool}, family.Tracks bulk index.fieldsAt entries → entries = [] := by
    intro α κ _ family entries bulk ht
    refine eq_nil_iff_forall_not_mem.2 fun e he => ?_
    obtain ⟨o, f, hf, -⟩ := (ht.mem_iff e).1 he
    rw [hnone] at hf
    exact not_mem_nil hf
  have hk := hnil h.tracked.keywords
  have hi := hnil h.tracked.integers
  have hf := hnil h.tracked.floats
  have hkb := h.tracked.keyword_bulk.trans hbulk
  have hnb := h.tracked.number_bulk.trans hbulk
  refine ⟨{ index with
      keywords := { index.keywords with bulkLoading := true }
      numbers := { index.numbers with bulkLoading := true }
      bulkLoading := true }, ?_, ?_, ⟨hc.known, hc.shown⟩⟩
  · unfold beginBulk KeywordIndex.beginBulk SortedBlockIndex.beginBulk require
    rw [if_pos hempty, if_pos (by simp [hkb, hk]), if_pos (by simp [hnb, hi, hf])]
    rfl
  · have hopen : ∀ {α κ : Type} [LinearOrder κ] {family : PostingFamily α κ} {entries : List α},
        family.Tracks index.bulkLoading index.fieldsAt entries →
          family.Tracks true index.fieldsAt entries := fun ht =>
      ⟨⟨ht.ordered.distinct, nofun⟩, ht.mem_iff⟩
    exact ⟨h.fields_length, h.ordinals_iff, h.live_well_formed, h.live_size, h.names_nodup,
      h.dead_empty, h.tracked.keyword_size, h.tracked.number_size, rfl, rfl,
      hopen h.tracked.keywords, hopen h.tracked.integers, hopen h.tracked.floats⟩

/-- The end of a bulk load sorts the postings. -/
theorem finish_bulk_ok (h : Consistent index) (hc : Current index contents)
    (hbulk : index.bulkLoading = true) :
    ∃ next, index.finishBulk = .ok next ∧ Consistent next ∧ Current next contents := by
  have hkb := h.tracked.keyword_bulk.trans hbulk
  have hnb := h.tracked.number_bulk.trans hbulk
  refine ⟨{ index with
      keywords := { index.keywords with
        entries := sortPostings keywordAfter index.keywords.entries, bulkLoading := false }
      numbers := { index.numbers with
        integers := sortPostings intAfter index.numbers.integers
        floats := sortPostings floatAfter index.numbers.floats
        bulkLoading := false }
      bulkLoading := false }, ?_, ?_, ⟨hc.known, hc.shown⟩⟩
  · unfold finishBulk KeywordIndex.finishBulk SortedBlockIndex.finishBulk require
    rw [if_pos hbulk, if_pos hkb, if_pos hnb]
    rfl
  · have hsort : ∀ {α κ : Type} [LinearOrder κ] {family : PostingFamily α κ} {entries : List α},
        family.Tracks index.bulkLoading index.fieldsAt entries →
          family.Tracks false index.fieldsAt (sortPostings family.after entries) := by
      intro α κ _ family entries ht
      obtain ⟨hordered, hperm⟩ := sort_postings_spec family.after_iff ht.ordered
      exact ⟨hordered, fun e => hperm.mem_iff.trans (ht.mem_iff e)⟩
    exact ⟨h.fields_length, h.ordinals_iff, h.live_well_formed, h.live_size, h.names_nodup,
      h.dead_empty, h.tracked.keyword_size, h.tracked.number_size, rfl, rfl,
      hsort h.tracked.keywords, hsort h.tracked.integers, hsort h.tracked.floats⟩

/-! ## Runs -/

/-- One call on the index. The floats of a payload are finite by construction. -/
inductive MetadataOp where
  | upsert (id : Int64) (fields : List DocumentField)
      (constructible : ∀ field ∈ fields, field.value.isConstructible = true)
  | delete (id : Int64)
  | beginBulk
  | finishBulk

/-- The call on the index. -/
def MetadataOp.run (index : MetadataIndex) : MetadataOp → Except String MetadataIndex
  | .upsert id fields _ => index.upsert id fields
  | .delete id => index.delete id
  | .beginBulk => index.beginBulk
  | .finishBulk => index.finishBulk

/-- What a call that returns means for the contents. -/
def MetadataOp.effect (contents : Contents) : MetadataOp → Contents
  | .upsert id fields _ => update contents id (some fields)
  | .delete id => update contents id none
  | .beginBulk | .finishBulk => contents

/-- The index and what was last written, after a call; a call that raises changes neither. -/
def applyOp (state : MetadataIndex × Contents) (op : MetadataOp) : MetadataIndex × Contents :=
  match op.run state.1 with
  | .ok next => (next, op.effect state.2)
  | .error _ => state

/-- The states of an index that was empty. -/
def runOps (ops : List MetadataOp) : MetadataIndex × Contents :=
  ops.foldl applyOp (empty, fun _ => none)

/-- Every call keeps the index consistent and its slots current. -/
theorem apply_op_current {state : MetadataIndex × Contents} (h : Consistent state.1)
    (hc : Current state.1 state.2) (op : MetadataOp) :
    Consistent (applyOp state op).1 ∧ Current (applyOp state op).1 (applyOp state op).2 := by
  have hok : ∀ next, op.run state.1 = .ok next →
      Consistent next ∧ Current next (op.effect state.2) := by
    intro next hnext
    cases op with
    | upsert id fields constructible =>
        have hchecks := hnext
        simp only [MetadataOp.run, upsert, bind_ok, require_ok, exists_unit] at hchecks
        obtain ⟨result, hresult, hr, hcr, -⟩ := upsert_ok h hc hchecks.1 hchecks.2.1
        obtain rfl : result = next := Except.ok.inj (hresult.symm.trans hnext)
        exact ⟨hr, hcr⟩
    | delete id =>
        obtain ⟨result, hresult, hr, hcr, -⟩ := delete_ok h hc id
        obtain rfl : result = next := Except.ok.inj (hresult.symm.trans hnext)
        exact ⟨hr, hcr⟩
    | beginBulk =>
        have hchecks := hnext
        simp only [MetadataOp.run, beginBulk, bind_ok, require_ok, exists_unit] at hchecks
        obtain ⟨result, hresult, hr⟩ := begin_bulk_ok h hc hchecks.1
        obtain rfl : result = next := Except.ok.inj (hresult.symm.trans hnext)
        exact hr
    | finishBulk =>
        have hchecks := hnext
        simp only [MetadataOp.run, finishBulk, bind_ok, require_ok, exists_unit] at hchecks
        obtain ⟨result, hresult, hr⟩ := finish_bulk_ok h hc hchecks.1
        obtain rfl : result = next := Except.ok.inj (hresult.symm.trans hnext)
        exact hr
  unfold applyOp
  cases hrun : op.run state.1 with
  | ok next => exact hok next hrun
  | error e => exact ⟨h, hc⟩

theorem run_ops_current (ops : List MetadataOp) :
    Consistent (runOps ops).1 ∧ Current (runOps ops).1 (runOps ops).2 := by
  have hstart : Current empty fun _ => none := by
    refine ⟨nofun, fun o id h => ?_⟩
    rw [show empty.ids = [] from rfl, getElem?_nil] at h
    cases h
  suffices hfold : ∀ state : MetadataIndex × Contents, Consistent state.1 →
      Current state.1 state.2 → Consistent (ops.foldl applyOp state).1 ∧
        Current (ops.foldl applyOp state).1 (ops.foldl applyOp state).2 from
    hfold _ empty_consistent hstart
  induction ops with
  | nil => exact fun state h hc => ⟨h, hc⟩
  | cons op ops ih =>
      intro state h hc
      obtain ⟨h', hc'⟩ := apply_op_current h hc op
      exact ih _ h' hc'

/-! ## Evaluating a condition -/

/-- The first field of a name is the only one. -/
theorem matches_condition_iff (hnames : (fields.map (·.name)).Nodup) (condition : FilterCondition) :
    matchesCondition fields condition = true ↔
      ∃ f ∈ fields, f.name = condition.name ∧ matchesValue f.value condition = true := by
  unfold matchesCondition
  cases hfind : fields.find? (·.name = condition.name) with
  | none =>
      have := find?_eq_none.1 hfind
      refine ⟨nofun, ?_⟩
      rintro ⟨f, hf, hname, -⟩
      exact absurd (decide_eq_true hname) (this f hf)
  | some field =>
      have hname : field.name = condition.name := by
        simpa using find?_some hfind
      have hmem := mem_of_find?_eq_some hfind
      constructor
      · exact fun hmatch => ⟨field, hmem, hname, hmatch⟩
      · rintro ⟨f, hf, hfname, hmatch⟩
        have heq : field = f :=
          inj_on_of_nodup_map hnames hmem hf (hname.trans hfname.symm)
        rwa [heq]

/-- `evaluate_condition` finds the live slots whose fields match. -/
theorem evaluate_condition_ok (h : Consistent index) (hbulk : index.bulkLoading = false)
    (condition : FilterCondition) :
    ∃ bitmap, index.evaluateCondition condition = .ok bitmap ∧ bitmap.WellFormed ∧
      bitmap.size = index.slotCount ∧ ∀ o, bitmap.has o =
        (index.live.has o && matchesCondition (index.fieldsAt o) condition) := by
  have hbound : ∀ o, (∃ f ∈ index.fieldsAt o, f.name = condition.name ∧
      matchesValue f.value condition = true) → o < index.ids.length := by
    rintro o ⟨f, hf, -⟩
    refine Nat.lt_of_not_le fun hge => ?_
    rw [h.dead_empty o (h.live_well_formed.tail_clear o (by rw [h.live_size]; exact hge))] at hf
    exact not_mem_nil hf
  have htracked := h.tracked
  rw [hbulk] at htracked
  -- Both indexes find the slots with a matching field.
  obtain ⟨candidates, hcandidates, hwf, hsize, hbits⟩ : ∃ bitmap,
      (if condition.value.kind = 1 ∨ condition.value.kind = 4 then
        index.keywords.evaluate condition else index.numbers.evaluate condition) = .ok bitmap ∧
      bitmap.WellFormed ∧ bitmap.size = index.ids.length ∧ ∀ o, bitmap.has o = true ↔
        ∃ f ∈ index.fieldsAt o, f.name = condition.name ∧
          matchesValue f.value condition = true := by
    split
    · rename_i hvalue
      have := keyword_evaluate_ok htracked.keywords htracked.keyword_bulk
        (fun o ho => by rw [htracked.keyword_size]; exact hbound o ho) hvalue
      rwa [htracked.keyword_size] at this
    · rename_i hvalue
      have := sorted_block_evaluate_ok htracked.integers htracked.floats htracked.number_bulk
        (fun o ho => by rw [htracked.number_size]; exact hbound o ho) hvalue
      rwa [htracked.number_size] at this
  obtain ⟨bitmap, hbitmap, hwf', hsize', hbits'⟩ := Bitmap.intersection_ok h.live_well_formed hwf
    (h.live_size.trans hsize.symm)
  refine ⟨bitmap, ?_, hwf', hsize'.trans h.live_size, fun o => ?_⟩
  · by_cases hvalue : condition.value.kind = 1 ∨ condition.value.kind = 4
    · rw [if_pos hvalue] at hcandidates
      simp only [evaluateCondition, condition.validate_ok, if_pos hvalue, hcandidates]
      exact hbitmap
    · rw [if_neg hvalue] at hcandidates
      simp only [evaluateCondition, condition.validate_ok, if_neg hvalue, hcandidates]
      exact hbitmap
  · rw [hbits']
    congr 1
    rw [Bool.eq_iff_iff, hbits, matches_condition_iff (h.names_nodup o)]

end MetadataIndex

end Akasha.Index

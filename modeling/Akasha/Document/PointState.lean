import Akasha.Document.Codec
import Akasha.Document.FieldCatalog
import Akasha.Lib.Slots
import Mathlib.Data.List.Perm.Subperm

/-!
# Point states and point mutations

A point state is one complete version of a point: its payload and its vector fields, or a
tombstone. A mutation is a patch of some fields; `applyPointMutation` is the whole transition.
The point's sequence counts every mutation, while its document sequence moves only with the
default dense field and the payload.
-/

namespace Akasha

open Lib List Option

/-- Set a field to a value, or remove it. -/
structure FieldUpdate where
  id : Nat
  value : Option VectorValue
deriving DecidableEq, Repr

/-- A field patch: merge or create 1, delete 2, patch an existing point 3. No payload keeps the
payload, an empty one clears it. -/
structure PointMutation where
  id : Int64
  kind : Nat
  fields : List FieldUpdate
  payload : Option (List DocumentField)
deriving DecidableEq, Repr

/-- `_validate_payload`: the floats are finite and the payload can be encoded. -/
def validatePointPayload (fields : List DocumentField) : Except String Unit := do
  checkEach fields fun field =>
    match field.value with
    | .floating value => require value.isFinite "point payload floats must be finite"
    | _ => pure ()
  let _ ← encodePayload fields
  pure ()

namespace PointMutation

/-- `PointMutation.delete`. -/
def delete (id : Int64) : PointMutation :=
  ⟨id, 2, [], none⟩

/-- The updates are of known fields, in ascending order, and their values fit the fields. -/
def validateUpdates (catalog : FieldCatalog) (previous : Option Nat) :
    List FieldUpdate → Except String Unit
  | [] => pure ()
  | update :: updates => do
      match catalog.specFor update.id with
      | none => throw "field updates must be known, unique and sorted"
      | some spec => do
          require (∀ id ∈ previous, id < update.id)
            "field updates must be known, unique and sorted"
          match update.value with
          | some value => value.validate spec
          | none => pure ()
      validateUpdates catalog (some update.id) updates

def validate (mutation : PointMutation) (catalog : FieldCatalog) : Except String Unit := do
  require (catalog.formatVersion = 2) "point mutations require a field catalog"
  require (1 ≤ mutation.kind ∧ mutation.kind ≤ 3) "unknown point mutation kind"
  require (¬ (mutation.kind = 2 ∧ (mutation.fields.length ≠ 0 ∨ mutation.payload.isSome)))
    "point deletion cannot contain fields or payload"
  require (mutation.fields.length ≤ maxVectorFields) "point field count exceeds catalog bounds"
  validateUpdates catalog none mutation.fields
  match mutation.payload with
  | some payload => validatePointPayload payload
  | none => pure ()

/-- Whether the patch touches the default dense field or the payload. -/
def changesDocument (mutation : PointMutation) : Bool :=
  mutation.payload.isSome || mutation.fields.any (·.id = 0)

end PointMutation

/-- One complete version of a point. A tombstone has neither payload nor fields. -/
structure PointState where
  id : Int64
  sequence : Nat
  documentSequence : Nat
  tombstone : Bool
  fields : List PointField
  payload : Option (List DocumentField)
deriving DecidableEq, Repr

namespace PointState

/-- `PointState.live`. -/
def live (id : Int64) (sequence documentSequence : Nat) (fields : List PointField)
    (payload : List DocumentField) : PointState :=
  ⟨id, sequence, documentSequence, false, fields, some payload⟩

/-- `PointState.deleted`. -/
def deleted (id : Int64) (sequence : Nat) : PointState :=
  ⟨id, sequence, 0, true, [], none⟩

/-- The value of a field, if the point has it. -/
def field? (point : PointState) (id : Nat) : Option VectorValue :=
  (point.fields.find? (·.id = id)).map (·.value)

/-- The fields are known, in ascending order, and their values fit the catalog's fields. -/
def validateFields (catalog : FieldCatalog) (previous : Option Nat) :
    List PointField → Except String Unit
  | [] => pure ()
  | field :: fields => do
      match catalog.specFor field.id with
      | none => throw "point fields must be known, unique and sorted"
      | some spec => do
          require (∀ id ∈ previous, id < field.id)
            "point fields must be known, unique and sorted"
          field.value.validate spec
      validateFields catalog (some field.id) fields

/-- The checks of a live point. -/
def validateLive (point : PointState) (catalog : FieldCatalog) : Except String Unit :=
  match point.payload with
  | none => throw "invalid live point field owners"
  | some payload => do
      require (point.fields.length ≤ maxVectorFields) "invalid live point field owners"
      validateFields catalog none point.fields
      require ((point.field? 0).isSome ↔ point.documentSequence ≠ 0)
        "document version requires default dense and vice versa"
      validatePointPayload payload

def validate (point : PointState) (catalog : FieldCatalog) : Except String Unit := do
  require (catalog.formatVersion = 2 ∧ point.sequence ≠ 0 ∧
    catalog.legacyCutoverSequence ≤ point.sequence)
    "point state requires a catalog and positive sequence"
  require (point.documentSequence ≤ point.sequence) "document version exceeds point version"
  if point.tombstone then
    require (point.documentSequence = 0 ∧ point.fields.length = 0 ∧ point.payload.isNone)
      "tombstone cannot contain fields or payload"
  else point.validateLive catalog

end PointState

/-- The merge loop of `apply_point_mutation`: both lists ascend by field. -/
def mergeFields (old : List PointField) : List FieldUpdate → List PointField
  | [] => old
  | update :: updates =>
      let kept := old.takeWhile (·.id < update.id)
      let rest := old.dropWhile (·.id < update.id)
      let rest := if (rest.head?).any (·.id = update.id) then rest.tail else rest
      kept ++ (update.value.map (PointField.mk update.id)).toList ++ mergeFields rest updates

/-- The point version that a mutation of a point leaves. `old` is the version before it, when
that was live. -/
def patchedPoint (old : Option PointState) (mutation : PointMutation) (sequence : Nat) :
    PointState :=
  let fields := mergeFields ((old.map (·.fields)).getD []) mutation.fields
  let payload := mutation.payload.orElse fun _ => (old.map (·.payload)).getD (some [])
  let documentSequence :=
    if (fields.head?).any (·.id = 0) then
      match old with
      | some point => if mutation.changesDocument then sequence else point.documentSequence
      | none => sequence
    else 0
  ⟨mutation.id, sequence, documentSequence, false, fields, payload⟩

/-- `apply_point_mutation`: the next version of a point. -/
def applyPointMutation (previous : Option PointState) (mutation : PointMutation) (sequence : Nat)
    (catalog : FieldCatalog) : Except String PointState := do
  mutation.validate catalog
  require (sequence ≠ 0 ∧ catalog.legacyCutoverSequence < sequence)
    "point mutation does not follow legacy cutover"
  require (∀ point ∈ previous, point.id = mutation.id ∧ point.sequence < sequence)
    "point mutation ID or sequence mismatch"
  let old := previous.filter (!·.tombstone)
  require (mutation.kind = 3 → old.isSome) "point patch requires an existing live point"
  if mutation.kind = 2 then pure (PointState.deleted mutation.id sequence)
  else pure (patchedPoint old mutation sequence)

/-! ## Merging fields -/

/-- Fields in the order of a catalog. -/
abbrev FieldsSorted (fields : List PointField) : Prop :=
  (fields.map (·.id)).Pairwise (· < ·)

variable {fields : List PointField}

theorem take_while_lt_eq (h : FieldsSorted fields) (k : Nat) :
    fields.takeWhile (·.id < k) = fields.filter (·.id < k) := by
  induction fields with
  | nil => rfl
  | cons field fields ih =>
      obtain ⟨hlt, hrest⟩ := pairwise_cons.1 h
      by_cases hk : field.id < k
      · rw [takeWhile_cons_of_pos (by simpa using hk), ih hrest,
          filter_cons_of_pos (by simpa using hk)]
      · rw [takeWhile_cons_of_neg (by simpa using hk), eq_comm, filter_eq_nil_iff]
        intro other hother
        rcases mem_cons.1 hother with rfl | hother
        · simpa using hk
        · have : field.id < other.id := hlt other.id (mem_map_of_mem hother)
          simp only [decide_eq_true_eq]
          omega

/-- The loop drops the old value of the updated field. -/
theorem drop_while_lt_eq (h : FieldsSorted fields) (k : Nat) :
    (if ((fields.dropWhile (·.id < k)).head?).any (·.id = k)
      then (fields.dropWhile (·.id < k)).tail else fields.dropWhile (·.id < k)) =
      fields.filter (k < ·.id) := by
  induction fields with
  | nil => rfl
  | cons field fields ih =>
      obtain ⟨hlt, hrest⟩ := pairwise_cons.1 h
      have hlater : k ≤ field.id → fields.filter (k < ·.id) = fields := fun hle => by
        rw [filter_eq_self]
        intro other hother
        have : field.id < other.id := hlt other.id (mem_map_of_mem hother)
        simp only [decide_eq_true_eq]
        omega
      by_cases hk : field.id < k
      · rw [dropWhile_cons_of_pos (by simpa using hk), ih hrest,
          filter_cons_of_neg (by simp only [decide_eq_true_eq]; omega)]
      · rw [dropWhile_cons_of_neg (by simpa using hk)]
        by_cases heq : field.id = k
        · rw [if_pos (by simpa using heq), tail_cons,
            filter_cons_of_neg (by simp only [decide_eq_true_eq]; omega), hlater (by omega)]
        · rw [if_neg (by simpa using heq),
            filter_cons_of_pos (by simp only [decide_eq_true_eq]; omega), hlater (by omega)]

variable {old : List PointField}

theorem merge_fields_cons (h : FieldsSorted old) (update : FieldUpdate)
    (updates : List FieldUpdate) : mergeFields old (update :: updates) =
      old.filter (·.id < update.id) ++ (update.value.map (PointField.mk update.id)).toList ++
        mergeFields (old.filter (update.id < ·.id)) updates := by
  rw [mergeFields]
  simp only [take_while_lt_eq h, drop_while_lt_eq h]

theorem filter_sorted (h : FieldsSorted fields) (p : PointField → Bool) :
    FieldsSorted (fields.filter p) :=
  h.sublist (filter_sublist.map _)

variable {updates : List FieldUpdate}

/-- A merged field was set by an update, or is an old one that no update is about. -/
theorem mem_merge_fields (hold : FieldsSorted old)
    (hupdates : (updates.map (·.id)).Pairwise (· < ·)) {field : PointField} :
    field ∈ mergeFields old updates ↔
      (∃ update ∈ updates, update.id = field.id ∧ update.value = some field.value) ∨
        field ∈ old ∧ field.id ∉ updates.map (·.id) := by
  induction updates generalizing old with
  | nil => simp [mergeFields]
  | cons update updates ih =>
      obtain ⟨hlater, hrest⟩ := pairwise_cons.1 hupdates
      have hset : field ∈ (update.value.map (PointField.mk update.id)).toList ↔
          update.id = field.id ∧ update.value = some field.value := by
        rw [mem_toList, map_eq_some_iff]
        constructor
        · rintro ⟨value, hvalue, rfl⟩
          exact ⟨rfl, hvalue⟩
        · rintro ⟨hid, hvalue⟩
          exact ⟨field.value, hvalue, by rw [hid]⟩
      have hbefore : field.id < update.id → field.id ∉ updates.map (·.id) := fun hlt hmem => by
        have : update.id < field.id := hlater field.id hmem
        omega
      rw [merge_fields_cons hold, mem_append, mem_append, hset,
        ih (filter_sorted hold _) hrest, mem_filter, mem_filter, map_cons,
        mem_cons, not_or, exists_mem_cons_iff]
      simp only [decide_eq_true_eq]
      constructor
      · rintro ((⟨hmem, hlt⟩ | hset) | hset | ⟨⟨hmem, hlt⟩, hnot⟩)
        · exact .inr ⟨hmem, by omega, hbefore hlt⟩
        · exact .inl (.inl hset)
        · exact .inl (.inr hset)
        · exact .inr ⟨hmem, by omega, hnot⟩
      · rintro ((hset | hset) | ⟨hmem, hne, hnot⟩)
        · exact .inl (.inr hset)
        · exact .inr (.inl hset)
        · rcases Nat.lt_or_gt_of_ne hne with hlt | hlt
          · exact .inl (.inl ⟨hmem, hlt⟩)
          · exact .inr (.inr ⟨⟨hmem, hlt⟩, hnot⟩)

/-- Merging keeps the catalog's order. -/
theorem merge_fields_sorted (hold : FieldsSorted old)
    (hupdates : (updates.map (·.id)).Pairwise (· < ·)) :
    FieldsSorted (mergeFields old updates) := by
  induction updates generalizing old with
  | nil => exact hold
  | cons update updates ih =>
      obtain ⟨hlater, hrest⟩ := pairwise_cons.1 hupdates
      rw [merge_fields_cons hold]
      have hsorted := ih (filter_sorted hold (update.id < ·.id)) hrest
      have habove : ∀ field ∈ mergeFields (old.filter (update.id < ·.id)) updates,
          update.id < field.id := by
        intro field hfield
        rcases (mem_merge_fields (filter_sorted hold _) hrest).1 hfield with
          ⟨u, hu, hid, -⟩ | ⟨hmem, -⟩
        · exact hid ▸ hlater u.id (mem_map_of_mem hu)
        · simpa using (mem_filter.1 hmem).2
      have hset : ∀ field ∈ (update.value.map (PointField.mk update.id)).toList,
          field.id = update.id := by
        intro field hfield
        obtain ⟨value, -, rfl⟩ := map_eq_some_iff.1 (mem_toList.1 hfield)
        rfl
      have hsingle : FieldsSorted (update.value.map (PointField.mk update.id)).toList := by
        cases update.value with
        | none => exact .nil
        | some value => exact pairwise_singleton _ _
      unfold FieldsSorted
      rw [map_append, map_append, append_assoc]
      refine pairwise_append.2 ⟨filter_sorted hold _, pairwise_append.2
        ⟨hsingle, hsorted, ?_⟩, ?_⟩
      · intro a ha b hb
        obtain ⟨field, hfield, rfl⟩ := mem_map.1 ha
        obtain ⟨other, hother, rfl⟩ := mem_map.1 hb
        exact hset field hfield ▸ habove other hother
      · intro a ha b hb
        obtain ⟨field, hfield, rfl⟩ := mem_map.1 ha
        have hlt : field.id < update.id := by simpa using (mem_filter.1 hfield).2
        rcases mem_append.1 hb with hb | hb
        · obtain ⟨other, hother, rfl⟩ := mem_map.1 hb
          exact hset other hother ▸ hlt
        · obtain ⟨other, hother, rfl⟩ := mem_map.1 hb
          exact hlt.trans (habove other hother)

theorem head_zero_iff (h : FieldsSorted fields) :
    (fields.head?).any (·.id = 0) = (fields.find? (·.id = 0)).isSome := by
  cases fields with
  | nil => rfl
  | cons field fields =>
      obtain ⟨hlt, -⟩ := pairwise_cons.1 h
      by_cases hzero : field.id = 0
      · simp [hzero]
      · have hnone : fields.find? (·.id = 0) = none := by
          rw [find?_eq_none]
          intro other hother
          have : field.id < other.id := hlt other.id (mem_map_of_mem hother)
          simp only [decide_eq_true_eq]
          omega
        simp [hzero, hnone]

/-! ## What the checks say -/

variable {catalog : FieldCatalog}

/-- A value of a known field, shaped as the catalog says. -/
def FitsField (catalog : FieldCatalog) (id : Nat) (value : VectorValue) : Prop :=
  ∃ spec, catalog.specFor id = some spec ∧ value.validate spec = .ok ()

theorem validate_point_fields_ok {previous : Option Nat} :
    PointState.validateFields catalog previous fields = .ok () ↔
      (∀ field ∈ fields, FitsField catalog field.id field.value) ∧ FieldsSorted fields ∧
        ∀ id ∈ previous, ∀ field ∈ fields, id < field.id := by
  induction fields generalizing previous with
  | nil => simp [PointState.validateFields, FieldsSorted, pure, Except.pure]
  | cons field fields ih =>
      rw [PointState.validateFields, FieldsSorted, map_cons, pairwise_cons]
      cases hspec : catalog.specFor field.id with
      | none =>
          simp only [throw, throwThe, MonadExceptOf.throw]
          constructor
          · intro h
            simp [bind, Except.bind] at h
          · rintro ⟨hfits, -⟩
            obtain ⟨spec, hsome, -⟩ := hfits field mem_cons_self
            rw [hspec] at hsome
            cases hsome
      | some spec =>
          simp only [bind_ok, exists_unit, require_ok, ih]
          have hfield : FitsField catalog field.id field.value ↔
              field.value.validate spec = .ok () := by
            unfold FitsField
            rw [hspec]
            simp
          constructor
          · rintro ⟨hprevious, hvalue, hfits, hsorted, hlater⟩
            refine ⟨forall_mem_cons.2 ⟨hfield.2 hvalue, hfits⟩, ⟨fun id hid => ?_, hsorted⟩,
              fun id hid => forall_mem_cons.2 ⟨hprevious id hid, fun other hother =>
                (hprevious id hid).trans (hlater field.id rfl other hother)⟩⟩
            obtain ⟨other, hother, rfl⟩ := mem_map.1 hid
            exact hlater field.id rfl other hother
          · rintro ⟨hfits, ⟨hfirst, hsorted⟩, hlater⟩
            obtain ⟨hvalue, hfits⟩ := forall_mem_cons.1 hfits
            refine ⟨fun id hid => hlater id hid field mem_cons_self, hfield.1 hvalue, hfits,
              hsorted, fun id hid other hother => ?_⟩
            obtain rfl := Option.some.inj hid
            exact hfirst other.id (mem_map_of_mem hother)

/-- What the check of the first update says. -/
theorem validate_updates_cons {previous : Option Nat} {update : FieldUpdate}
    (h : PointMutation.validateUpdates catalog previous (update :: updates) = .ok ()) :
    ∃ spec, catalog.specFor update.id = some spec ∧ (∀ id ∈ previous, id < update.id) ∧
      (∀ value, update.value = some value → value.validate spec = .ok ()) ∧
      PointMutation.validateUpdates catalog (some update.id) updates = .ok () := by
  rw [PointMutation.validateUpdates] at h
  cases hspec : catalog.specFor update.id with
  | none => simp [hspec, throw, throwThe, MonadExceptOf.throw, bind, Except.bind] at h
  | some spec =>
      simp only [hspec, bind_ok, exists_unit, require_ok] at h
      obtain ⟨hprevious, h⟩ := h
      refine ⟨spec, rfl, hprevious, fun value hsome => ?_, ?_⟩
      · simp only [hsome, bind_ok, exists_unit] at h
        exact h.1
      · cases hupdate : update.value with
        | none => simpa only [hupdate] using h
        | some value =>
            simp only [hupdate, bind_ok, exists_unit] at h
            exact h.2

theorem validate_updates_ok {previous : Option Nat}
    (h : PointMutation.validateUpdates catalog previous updates = .ok ()) :
    (∀ update ∈ updates, ∀ value, update.value = some value →
      FitsField catalog update.id value) ∧ (updates.map (·.id)).Pairwise (· < ·) ∧
      ∀ id ∈ previous, ∀ update ∈ updates, id < update.id := by
  induction updates generalizing previous with
  | nil => exact ⟨nofun, .nil, fun _ _ => nofun⟩
  | cons update updates ih =>
      obtain ⟨spec, hspec, hprevious, hvalue, hrest⟩ := validate_updates_cons h
      obtain ⟨hfits, hsorted, hlater⟩ := ih hrest
      refine ⟨forall_mem_cons.2 ⟨fun value hsome => ⟨spec, hspec, hvalue value hsome⟩,
        hfits⟩, ?_, fun id hid => forall_mem_cons.2 ⟨hprevious id hid,
          fun other hother => (hprevious id hid).trans (hlater update.id rfl other hother)⟩⟩
      rw [map_cons, pairwise_cons]
      refine ⟨fun id hid => ?_, hsorted⟩
      obtain ⟨other, hother, rfl⟩ := mem_map.1 hid
      exact hlater update.id rfl other hother

theorem fields_length_le (hsorted : FieldsSorted fields)
    (hfits : ∀ field ∈ fields, FitsField catalog field.id field.value) :
    fields.length ≤ maxVectorFields := by
  have hnodup : (fields.map (·.id)).Nodup := hsorted.imp fun h => Nat.ne_of_lt h
  have hsub : fields.map (·.id) ⊆ catalog.fields.map (·.id) := by
    intro id hid
    obtain ⟨field, hfield, rfl⟩ := mem_map.1 hid
    obtain ⟨spec, hspec, -⟩ := hfits field hfield
    exact mem_map.2 ⟨spec, mem_of_find?_eq_some hspec, (FieldCatalog.spec_valid hspec).2⟩
  have hle := (subperm_of_subset hnodup hsub).length_le
  rw [length_map, length_map] at hle
  exact hle.trans catalog.fields_length.2

/-- The validity of a live point, check by check. -/
structure LivePoint (catalog : FieldCatalog) (point : PointState) : Prop where
  tombstone_eq : point.tombstone = false
  payload_ok : ∃ payload, point.payload = some payload ∧ validatePointPayload payload = .ok ()
  fields_fit : ∀ field ∈ point.fields, FitsField catalog field.id field.value
  fields_sorted : FieldsSorted point.fields
  document_iff : (point.field? 0).isSome = true ↔ point.documentSequence ≠ 0

/-- A tombstone has nothing but its identifier and sequence. -/
structure DeadPoint (point : PointState) : Prop where
  tombstone_eq : point.tombstone = true
  document_eq : point.documentSequence = 0
  fields_eq : point.fields = []
  payload_eq : point.payload = none

/-- `PointState.validate`, check by check. -/
structure ValidPoint (catalog : FieldCatalog) (point : PointState) : Prop where
  version_eq : catalog.formatVersion = 2
  sequence_pos : point.sequence ≠ 0
  cutover_le : catalog.legacyCutoverSequence ≤ point.sequence
  document_le : point.documentSequence ≤ point.sequence
  content : LivePoint catalog point ∨ DeadPoint point

theorem point_validate_ok {point : PointState} :
    point.validate catalog = .ok () ↔ ValidPoint catalog point := by
  unfold PointState.validate
  simp only [bind_ok, exists_unit, require_ok]
  constructor
  · rintro ⟨⟨hversion, hpos, hcutover⟩, hdocument, hcontent⟩
    refine ⟨hversion, hpos, hcutover, hdocument, ?_⟩
    split at hcontent
    · rename_i htomb
      obtain ⟨hdoc, hfields, hpayload⟩ := require_ok.1 hcontent
      exact .inr ⟨htomb, hdoc, length_eq_zero_iff.1 hfields, isNone_iff_eq_none.1 hpayload⟩
    · rename_i hlive
      unfold PointState.validateLive at hcontent
      cases hpayload : point.payload with
      | none => simp [hpayload, throw, throwThe, MonadExceptOf.throw] at hcontent
      | some payload =>
          simp only [hpayload, bind_ok, exists_unit, require_ok,
            validate_point_fields_ok] at hcontent
          obtain ⟨-, ⟨hfits, hsorted, -⟩, hiff, hok⟩ := hcontent
          exact .inl ⟨by simpa using hlive, ⟨payload, hpayload, hok⟩, hfits, hsorted, hiff⟩
  · rintro ⟨hversion, hpos, hcutover, hdocument, hlive | hdead⟩
    · refine ⟨⟨hversion, hpos, hcutover⟩, hdocument, ?_⟩
      obtain ⟨payload, hpayload, hok⟩ := hlive.payload_ok
      rw [if_neg (by rw [hlive.tombstone_eq]; exact Bool.false_ne_true)]
      unfold PointState.validateLive
      simp only [hpayload, bind_ok, exists_unit, require_ok, validate_point_fields_ok]
      exact ⟨fields_length_le hlive.fields_sorted hlive.fields_fit, ⟨hlive.fields_fit,
        hlive.fields_sorted, (by intros; contradiction)⟩, hlive.document_iff, hok⟩
    · refine ⟨⟨hversion, hpos, hcutover⟩, hdocument, ?_⟩
      rw [if_pos hdead.tombstone_eq]
      exact require_ok.2 ⟨hdead.document_eq, by rw [hdead.fields_eq]; rfl,
        by rw [hdead.payload_eq]; rfl⟩

/-! ## What a mutation does -/

/-- The checks that a mutation passes. -/
structure ValidMutation (catalog : FieldCatalog) (mutation : PointMutation) : Prop where
  version_eq : catalog.formatVersion = 2
  kind_bounds : 1 ≤ mutation.kind ∧ mutation.kind ≤ 3
  delete_empty : mutation.kind = 2 → mutation.fields = [] ∧ mutation.payload = none
  fields_fit : ∀ update ∈ mutation.fields, ∀ value, update.value = some value →
    FitsField catalog update.id value
  fields_sorted : (mutation.fields.map (·.id)).Pairwise (· < ·)
  payload_ok : ∀ payload, mutation.payload = some payload → validatePointPayload payload = .ok ()

theorem mutation_validate_ok {mutation : PointMutation}
    (h : mutation.validate catalog = .ok ()) : ValidMutation catalog mutation := by
  unfold PointMutation.validate at h
  simp only [bind_ok, exists_unit, require_ok] at h
  obtain ⟨hversion, hkind, hdelete, -, hupdates, hpayload⟩ := h
  obtain ⟨hfits, hsorted, -⟩ := validate_updates_ok hupdates
  refine ⟨hversion, hkind, fun htwo => ?_, hfits, hsorted, fun payload hsome => ?_⟩
  · have hnot := not_and.1 hdelete htwo
    rw [not_or, not_not, not_isSome_iff_eq_none] at hnot
    exact ⟨length_eq_zero_iff.1 hnot.1, hnot.2⟩
  · simpa only [hsome] using hpayload

/-- What an accepted mutation is and what it leaves. -/
structure Mutated (catalog : FieldCatalog) (previous : Option PointState)
    (mutation : PointMutation) (sequence : Nat) (next : PointState) : Prop where
  valid : ValidMutation catalog mutation
  cutover_lt : catalog.legacyCutoverSequence < sequence
  previous_lt : ∀ point ∈ previous, point.id = mutation.id ∧ point.sequence < sequence
  next_eq : next = if mutation.kind = 2 then PointState.deleted mutation.id sequence
    else patchedPoint (previous.filter (!·.tombstone)) mutation sequence

theorem apply_point_mutation_ok {previous : Option PointState} {mutation : PointMutation}
    {sequence : Nat} {next : PointState}
    (h : applyPointMutation previous mutation sequence catalog = .ok next) :
    Mutated catalog previous mutation sequence next := by
  unfold applyPointMutation at h
  simp only [bind_ok, exists_unit, require_ok] at h
  obtain ⟨hvalid, ⟨-, hcutover⟩, hprevious, -, hnext⟩ := h
  refine ⟨mutation_validate_ok hvalid, hcutover, hprevious, ?_⟩
  split at hnext
  · rename_i hkind
    rw [if_pos hkind]
    exact (pure_ok.1 hnext).symm
  · rename_i hkind
    rw [if_neg hkind]
    exact (pure_ok.1 hnext).symm

namespace Mutated

variable {previous : Option PointState} {mutation : PointMutation} {sequence : Nat}
  {next : PointState}

theorem id_eq (h : Mutated catalog previous mutation sequence next) : next.id = mutation.id := by
  rw [h.next_eq]
  split <;> rfl

theorem sequence_eq (h : Mutated catalog previous mutation sequence next) :
    next.sequence = sequence := by
  rw [h.next_eq]
  split <;> rfl

end Mutated

theorem old_fields_sorted {old : Option PointState}
    (h : ∀ point ∈ old, LivePoint catalog point) :
    FieldsSorted ((old.map (·.fields)).getD []) := by
  cases old with
  | none => exact .nil
  | some point => exact (h point rfl).fields_sorted

theorem validate_empty_payload : validatePointPayload [] = .ok () := by
  decide +kernel

/-- A patch of a live point, or of no point, is a live point. -/
theorem patched_point_live {old : Option PointState} {mutation : PointMutation} {sequence : Nat}
    (hold : ∀ point ∈ old, LivePoint catalog point) (hvalid : ValidMutation catalog mutation)
    (hpos : 0 < sequence) : LivePoint catalog (patchedPoint old mutation sequence) := by
  have hsorted := old_fields_sorted hold
  have hmerged := merge_fields_sorted hsorted hvalid.fields_sorted
  have hzero := head_zero_iff hmerged
  refine ⟨rfl, ?_, ?_, hmerged, ?_⟩
  · cases hpayload : mutation.payload with
    | some payload =>
        exact ⟨payload, by simp [patchedPoint, hpayload], hvalid.payload_ok payload hpayload⟩
    | none =>
        cases old with
        | none => exact ⟨[], by simp [patchedPoint, hpayload], validate_empty_payload⟩
        | some point =>
            obtain ⟨payload, hsome, hok⟩ := (hold point rfl).payload_ok
            exact ⟨payload, by simp [patchedPoint, hpayload, hsome], hok⟩
  · intro field hfield
    rcases (mem_merge_fields hsorted hvalid.fields_sorted).1 hfield with
      ⟨update, hupdate, hid, hvalue⟩ | ⟨hmem, -⟩
    · exact hid ▸ hvalid.fields_fit update hupdate field.value hvalue
    · cases old with
      | none => cases hmem
      | some point => exact (hold point rfl).fields_fit field hmem
  · -- The document version is 0 exactly when no default dense field is left.
    have hfield : ((patchedPoint old mutation sequence).field? 0).isSome =
        ((mergeFields ((old.map (·.fields)).getD []) mutation.fields).head?).any (·.id = 0) := by
      rw [hzero, PointState.field?, isSome_map]
      rfl
    rw [hfield]
    unfold patchedPoint
    simp only
    split
    · rename_i hhead
      simp only [hhead, true_iff]
      cases old with
      | none => exact Nat.ne_of_gt hpos
      | some point =>
          simp only
          split
          · exact Nat.ne_of_gt hpos
          · rename_i hsame
            refine (hold point rfl).document_iff.1 ?_
            -- Without an update of field 0, the field is the old one.
            rw [hzero] at hhead
            obtain ⟨field, hfind⟩ := isSome_iff_exists.1 hhead
            have hid : field.id = 0 := by simpa using find?_some hfind
            rcases (mem_merge_fields hsorted hvalid.fields_sorted).1
              (mem_of_find?_eq_some hfind) with ⟨update, hupdate, hupid, -⟩ | ⟨hmem, -⟩
            · refine absurd ?_ hsame
              unfold PointMutation.changesDocument
              rw [Bool.or_eq_true]
              exact .inr (any_eq_true.2 ⟨update, hupdate, by simpa using hupid.trans hid⟩)
            · unfold PointState.field?
              rw [isSome_map, find?_isSome]
              exact ⟨field, hmem, by simpa using hid⟩
    · rename_i hhead
      simp [hhead]

theorem old_live {previous : Option PointState}
    (h : ∀ point ∈ previous, ValidPoint catalog point) :
    ∀ point ∈ previous.filter (!·.tombstone), LivePoint catalog point := by
  intro point hpoint
  obtain ⟨hmem, hlive⟩ := filter_eq_some_iff.1 hpoint
  rcases (h point hmem).content with hcontent | hdead
  · exact hcontent
  · rw [hdead.tombstone_eq] at hlive
    cases hlive

/-- An accepted mutation of a valid point leaves a valid point. -/
theorem mutated_valid {previous : Option PointState} {mutation : PointMutation} {sequence : Nat}
    {next : PointState} (hprevious : ∀ point ∈ previous, ValidPoint catalog point)
    (h : Mutated catalog previous mutation sequence next) : ValidPoint catalog next := by
  have hcut := h.cutover_lt
  refine ⟨h.valid.version_eq, ?_, ?_, ?_, ?_⟩
  · rw [h.sequence_eq]
    omega
  · rw [h.sequence_eq]
    omega
  · rw [h.sequence_eq, h.next_eq]
    split
    · exact Nat.zero_le _
    · show (patchedPoint _ mutation sequence).documentSequence ≤ sequence
      unfold patchedPoint
      simp only
      split
      · cases hfilter : previous.filter (!·.tombstone) with
        | none => exact le_rfl
        | some point =>
            simp only
            split
            · exact le_rfl
            · have hmem := (filter_eq_some_iff.1 hfilter).1
              exact (hprevious point hmem).document_le.trans (h.previous_lt point hmem).2.le
      · exact Nat.zero_le _
  · rw [h.next_eq]
    split
    · exact .inr ⟨rfl, rfl, rfl, rfl⟩
    · exact .inl (patched_point_live (old_live hprevious) h.valid (by omega))

theorem find_merge_fields (hold : FieldsSorted old)
    (hupdates : (updates.map (·.id)).Pairwise (· < ·)) {id : Nat} (hid : id ∉ updates.map (·.id)) :
    (mergeFields old updates).find? (·.id = id) = old.find? (·.id = id) := by
  have hnodup : ∀ {fields : List PointField}, FieldsSorted fields →
      (fields.map (·.id)).Nodup := fun h => h.imp fun hlt => Nat.ne_of_lt hlt
  refine Option.ext fun field => ?_
  show findBy PointField.id id _ = some field ↔ findBy PointField.id id _ = some field
  rw [find_by_eq_some (hnodup (merge_fields_sorted hold hupdates)), find_by_eq_some (hnodup hold),
    mem_merge_fields hold hupdates]
  constructor
  · rintro ⟨⟨update, hupdate, hup, -⟩ | ⟨hmem, -⟩, heq⟩
    · exact absurd (mem_map.2 ⟨update, hupdate, hup.trans heq⟩) hid
    · exact ⟨hmem, heq⟩
  · rintro ⟨hmem, heq⟩
    exact ⟨.inr ⟨hmem, heq ▸ hid⟩, heq⟩

/-- A patch either sets the document version, or keeps it with the default dense field. -/
theorem patched_point_document {old : Option PointState} {mutation : PointMutation}
    {sequence : Nat} (hold : ∀ point ∈ old, LivePoint catalog point)
    (hvalid : ValidMutation catalog mutation)
    (hdense : ((patchedPoint old mutation sequence).field? 0).isSome = true) :
    (patchedPoint old mutation sequence).documentSequence = sequence ∨
      ∃ point ∈ old, (patchedPoint old mutation sequence).documentSequence =
        point.documentSequence ∧
        (patchedPoint old mutation sequence).field? 0 = point.field? 0 := by
  have hsorted := old_fields_sorted hold
  have hhead : ((mergeFields ((old.map (·.fields)).getD []) mutation.fields).head?).any
      (·.id = 0) = true := by
    rw [head_zero_iff (merge_fields_sorted hsorted hvalid.fields_sorted)]
    simpa [PointState.field?, patchedPoint] using hdense
  cases old with
  | none =>
      left
      unfold patchedPoint
      simp only [hhead, if_true]
  | some point =>
      by_cases hchanges : mutation.changesDocument = true
      · left
        unfold patchedPoint
        simp only [hhead, hchanges, if_true]
      · right
        refine ⟨point, rfl, ?_, ?_⟩
        · unfold patchedPoint
          simp only [hhead, hchanges, if_true]
          rfl
        · have hfresh : 0 ∉ mutation.fields.map (·.id) := fun hmem => by
            obtain ⟨update, hupdate, hzero⟩ := mem_map.1 hmem
            refine hchanges ?_
            unfold PointMutation.changesDocument
            rw [Bool.or_eq_true]
            exact .inr (any_eq_true.2 ⟨update, hupdate, by simpa using hzero⟩)
          unfold PointState.field?
          exact congrArg (Option.map (·.value))
            (find_merge_fields hsorted hvalid.fields_sorted hfresh)

theorem mutated_document {previous : Option PointState} {mutation : PointMutation}
    {sequence : Nat} {next : PointState} (hprevious : ∀ point ∈ previous, ValidPoint catalog point)
    (h : Mutated catalog previous mutation sequence next)
    (hdense : (next.field? 0).isSome = true) :
    next.documentSequence = sequence ∨ ∃ point ∈ previous, point.tombstone = false ∧
      next.documentSequence = point.documentSequence ∧ next.field? 0 = point.field? 0 := by
  rw [h.next_eq] at hdense ⊢
  split
  · rename_i hkind
    rw [if_pos hkind] at hdense
    cases hdense
  · rename_i hkind
    rw [if_neg hkind] at hdense
    refine (patched_point_document (old_live hprevious) h.valid hdense).imp_right ?_
    rintro ⟨point, hpoint, hkeeps⟩
    obtain ⟨hmem, hlive⟩ := filter_eq_some_iff.1 hpoint
    exact ⟨point, hmem, by simpa using hlive, hkeeps⟩

end Akasha

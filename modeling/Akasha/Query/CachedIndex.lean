import Akasha.Index.MetadataCache
import Akasha.Query.IndexEvaluator

/-!
# An index that is read back from its cache

The cache holds the slots of an index; the postings are built anew by a bulk load. Two indexes
with the same slots answer alike (`Alike`), whatever calls built their postings, and every call
keeps them alike. `cache_round_trip` puts this together with the codec of the cache.
-/

namespace Akasha.Query

open Lib Index MetadataIndex

/-! ## Bitmaps with the same bits -/

/-- Well-formed bitmaps of one size are determined by their bits. -/
theorem bitmap_ext {first second : Bitmap} (h : first.WellFormed) (h' : second.WellFormed)
    (hsize : first.size = second.size) (hbits : ∀ i, first.has i = second.has i) :
    first = second := by
  have hwords : first.words = second.words := by
    have hlength : first.words.length = second.words.length := by
      rw [h.length_eq, h'.length_eq, hsize]
    refine List.ext_getElem hlength fun i hi hi' => BitVec.eq_of_getLsbD_eq fun k hk => ?_
    have hbit := hbits (64 * i + k)
    have hdiv : (64 * i + k) / 64 = i := by omega
    have hmod : (64 * i + k) % 64 = k := by omega
    unfold Bitmap.has Bitmap.wordAt at hbit
    rw [hdiv, hmod, List.getD_eq_getElem _ _ hi, List.getD_eq_getElem _ _ hi'] at hbit
    exact hbit
  have hcount : first.count = second.count := by
    rw [h.count_eq, h'.count_eq, hwords]
  cases first
  cases second
  simp only at hsize hcount hwords
  rw [hsize, hcount, hwords]

variable {first second index next : MetadataIndex}

/-! ## Indexes with the same slots -/

/-- Two consistent indexes show the same slots. -/
structure Alike (first second : MetadataIndex) : Prop where
  first_consistent : first.Consistent
  second_consistent : second.Consistent
  slots : first.slots = second.slots
  bulk : first.bulkLoading = second.bulkLoading

/-- Indexes with the same slots are live alike and store the same fields. -/
theorem same_slots (hfirst : first.Consistent) (hsecond : second.Consistent)
    (hslots : first.slots = second.slots) (o : Nat) :
    first.live.has o = second.live.has o ∧ first.fieldsAt o = second.fieldsAt o := by
  have hids : first.ids = second.ids := by
    rw [← first.map_fst_slots, hslots, second.map_fst_slots]
  by_cases ho : o < first.ids.length
  · have hslot := congrArg (·[o]?) hslots
    simp only [slots_get, ← hids, List.getElem?_eq_getElem ho, Option.map_some,
      Option.some.injEq, Prod.mk.injEq, true_and] at hslot
    unfold contentAt at hslot
    cases hlive : first.live.has o with
    | true =>
        cases hlive' : second.live.has o with
        | true =>
            simp only [hlive, hlive', if_true, Option.some.injEq] at hslot
            exact ⟨rfl, hslot⟩
        | false => simp [hlive, hlive'] at hslot
    | false =>
        cases hlive' : second.live.has o with
        | true => simp [hlive, hlive'] at hslot
        | false =>
            rw [hfirst.dead_empty o hlive, hsecond.dead_empty o hlive']
            exact ⟨rfl, rfl⟩
  · have hdead := hfirst.live_well_formed.tail_clear o (by rw [hfirst.live_size]; omega)
    have hdead' := hsecond.live_well_formed.tail_clear o (by rw [hsecond.live_size, ← hids]; omega)
    rw [hdead, hdead', hfirst.dead_empty o hdead, hsecond.dead_empty o hdead']
    exact ⟨rfl, rfl⟩

theorem Alike.ids_eq (h : Alike first second) : first.ids = second.ids := by
  rw [← first.map_fst_slots, h.slots, second.map_fst_slots]

theorem Alike.slot_eq (h : Alike first second) (o : Nat) :
    first.live.has o = second.live.has o ∧ first.fieldsAt o = second.fieldsAt o :=
  same_slots h.first_consistent h.second_consistent h.slots o

/-- Alike indexes evaluate every expression alike. -/
theorem Alike.evaluate_eq (h : Alike first second) (hbulk : first.bulkLoading = false)
    (expression : FilterExpression) :
    evaluateExpression first expression = evaluateExpression second expression := by
  cases hvalid : expression.validate with
  | error e =>
      unfold evaluateExpression
      rw [hvalid]
      rfl
  | ok u =>
      obtain ⟨bitmap, hrun, hselects⟩ :=
        evaluate_expression_selects h.first_consistent hvalid (.inl hbulk)
      obtain ⟨bitmap', hrun', hselects'⟩ :=
        evaluate_expression_selects h.second_consistent hvalid (.inl (h.bulk ▸ hbulk))
      have hsize : bitmap.size = bitmap'.size := by
        rw [hselects.size_eq, hselects'.size_eq]
        exact congrArg List.length h.ids_eq
      have hbits : ∀ o, bitmap.has o = bitmap'.has o := by
        intro o
        obtain ⟨hlive, hfields⟩ := h.slot_eq o
        rw [hselects.has_eq, hselects'.has_eq, hlive, hfields]
      rw [hrun, hrun', bitmap_ext hselects.well_formed hselects'.well_formed hsize hbits]

/-! ## Calls on alike indexes -/

/-- When a call returns. -/
def Ready (index : MetadataIndex) : MetadataIndex.MetadataOp → Prop
  | .upsert id fields _ => validateFields fields = .ok () ∧
      ¬ (index.bulkLoading = true ∧ id ∈ index.ids)
  | .delete _ => True
  | .beginBulk => ¬ (index.bulkLoading = true ∨ index.ids.length ≠ 0)
  | .finishBulk => index.bulkLoading = true

/-- What a call that returns does to the slots. -/
def putOp (slots : List Slot) : MetadataIndex.MetadataOp → List Slot
  | .upsert id fields _ => putBy Prod.fst slots (id, some fields)
  | .delete id => putBy Prod.fst slots (id, none)
  | .beginBulk | .finishBulk => slots

/-- Whether a bulk load is open after a call that returns. -/
def bulkAfter (bulk : Bool) : MetadataIndex.MetadataOp → Bool
  | .upsert .. | .delete _ => bulk
  | .beginBulk => true
  | .finishBulk => false

theorem ordinal_for_iff (h : index.Consistent) (id : Int64) :
    (index.ordinalFor id).isSome = true ↔ id ∈ index.ids := by
  unfold ordinalFor
  rw [Option.isSome_iff_exists]
  constructor
  · rintro ⟨o, ho⟩
    exact List.mem_of_getElem? ((h.ordinals_iff id o).1 ho)
  · intro hmem
    obtain ⟨o, ho⟩ := List.getElem?_of_mem hmem
    exact ⟨o, (h.ordinals_iff id o).2 ho⟩

/-- A call returns when it is ready, and puts what it should. -/
theorem run_ready (h : index.Consistent) {op : MetadataIndex.MetadataOp} (hready : Ready index op) :
    ∃ next, op.run index = .ok next ∧ next.Consistent ∧ next.slots = putOp index.slots op ∧
      next.bulkLoading = bulkAfter index.bulkLoading op := by
  have hc := current_contents h
  cases op with
  | upsert id fields constructible =>
      obtain ⟨hvalid, hbulk⟩ := hready
      rw [← ordinal_for_iff h] at hbulk
      obtain ⟨next, hrun, -⟩ := upsert_ok h hc hvalid hbulk
      obtain ⟨hnext, hput, hsame⟩ := write_slot_ok (id, some fields) h hrun
      exact ⟨next, hrun, hnext, hput, hsame⟩
  | delete id =>
      obtain ⟨next, hrun, -⟩ := delete_ok h hc id
      obtain ⟨hnext, hput, hsame⟩ := write_slot_ok (id, none) h hrun
      exact ⟨next, hrun, hnext, hput, hsame⟩
  | beginBulk =>
      obtain ⟨next, hrun, -⟩ := begin_bulk_ok h hc hready
      obtain ⟨hnext, hslots, hsame⟩ := begin_bulk_slots h hrun
      exact ⟨next, hrun, hnext, hslots, hsame⟩
  | finishBulk =>
      obtain ⟨next, hrun, -⟩ := finish_bulk_ok h hc hready
      obtain ⟨hnext, hslots, hsame⟩ := finish_bulk_slots h hrun
      exact ⟨next, hrun, hnext, hslots, hsame⟩

/-- A call that is not ready raises. -/
theorem run_not_ready (h : index.Consistent) {op : MetadataIndex.MetadataOp}
    (hready : ¬ Ready index op) : ∃ e, op.run index = .error e := by
  cases hrun : op.run index with
  | error e => exact ⟨e, rfl⟩
  | ok next =>
      exfalso
      refine hready ?_
      cases op with
      | upsert id fields constructible =>
          simp only [MetadataIndex.MetadataOp.run, upsert, bind_ok,
            require_ok, exists_unit] at hrun
          exact ⟨hrun.1, by rw [← ordinal_for_iff h]; exact hrun.2.1⟩
      | delete id => trivial
      | beginBulk =>
          simp only [MetadataIndex.MetadataOp.run, beginBulk, bind_ok,
            require_ok, exists_unit] at hrun
          exact hrun.1
      | finishBulk =>
          simp only [MetadataIndex.MetadataOp.run, finishBulk, bind_ok,
            require_ok, exists_unit] at hrun
          exact hrun.1

theorem Alike.ready_iff (h : Alike first second) (op : MetadataIndex.MetadataOp) :
    Ready first op ↔ Ready second op := by
  unfold Ready
  rw [h.bulk, h.ids_eq]

/-- The index after calls; a call that raises changes nothing. -/
def performAll (index : MetadataIndex) (ops : List MetadataIndex.MetadataOp) : MetadataIndex :=
  ops.foldl (fun index op => (op.run index).toOption.getD index) index

/-- Calls keep alike indexes alike. -/
theorem Alike.perform_all (h : Alike first second) (ops : List MetadataIndex.MetadataOp) :
    Alike (performAll first ops) (performAll second ops) := by
  induction ops generalizing first second with
  | nil => exact h
  | cons op ops ih =>
      refine ih ?_
      show Alike ((op.run first).toOption.getD first) ((op.run second).toOption.getD second)
      by_cases hready : Ready first op
      · obtain ⟨next, hrun, hnext, hslots, hbulk⟩ := run_ready h.first_consistent hready
        obtain ⟨next', hrun', hnext', hslots', hbulk'⟩ :=
          run_ready h.second_consistent ((h.ready_iff op).1 hready)
        rw [hrun, hrun']
        show Alike next next'
        exact ⟨hnext, hnext', by rw [hslots, hslots', h.slots], by rw [hbulk, hbulk', h.bulk]⟩
      · obtain ⟨e, hrun⟩ := run_not_ready h.first_consistent hready
        obtain ⟨e', hrun'⟩ :=
          run_not_ready h.second_consistent fun hready' => hready ((h.ready_iff op).2 hready')
        rw [hrun, hrun']
        exact h

/-! ## The cache -/

/-- What was written last of a point holds floats that a payload can hold. -/
theorem contents_valid (ops : List MetadataIndex.MetadataOp) :
    ∀ id fields, (runOps ops).2 id = some fields →
      ∀ field ∈ fields, field.value.Valid := by
  have hstep : ∀ (state : MetadataIndex × MetadataIndex.Contents) op,
      (∀ id fields, state.2 id = some fields → ∀ field ∈ fields, field.value.Valid) →
      ∀ id fields, (applyOp state op).2 id = some fields →
        ∀ field ∈ fields, field.value.Valid := by
    intro state op hstate id fields hsome
    unfold applyOp at hsome
    split at hsome
    · cases op with
      | upsert other written constructible =>
          simp only [MetadataIndex.MetadataOp.effect, Function.update_apply] at hsome
          split at hsome
          · obtain rfl := Option.some.inj hsome
            intro field hfield
            have hfinite := constructible field hfield
            cases hvalue : field.value with
            | floating value =>
                rw [hvalue] at hfinite
                exact hfinite
            | string text => trivial
            | integer number => trivial
            | boolean flag => trivial
          · exact hstate id fields hsome
      | delete other =>
          simp only [MetadataIndex.MetadataOp.effect, Function.update_apply] at hsome
          split at hsome
          · cases hsome
          · exact hstate id fields hsome
      | beginBulk => exact hstate id fields hsome
      | finishBulk => exact hstate id fields hsome
    · exact hstate id fields hsome
  suffices hfold : ∀ state : MetadataIndex × MetadataIndex.Contents,
      (∀ id fields, state.2 id = some fields → ∀ field ∈ fields, field.value.Valid) →
      ∀ id fields, (ops.foldl applyOp state).2 id = some fields →
        ∀ field ∈ fields, field.value.Valid from
    hfold _ fun id fields hsome => by cases hsome
  induction ops with
  | nil => exact fun state hstate => hstate
  | cons op ops ih => exact fun state hstate => ih _ (hstep state op hstate)

theorem stored_valid (ops : List MetadataIndex.MetadataOp) (o : Nat) :
    ∀ field ∈ (runOps ops).1.fieldsAt o, field.value.Valid := by
  obtain ⟨hconsistent, hcurrent⟩ := run_ops_current ops
  cases hlive : (runOps ops).1.live.has o with
  | false =>
      rw [hconsistent.dead_empty o hlive]
      exact nofun
  | true =>
      have ho : o < (runOps ops).1.ids.length := by
        by_contra hge
        rw [hconsistent.live_well_formed.tail_clear o (by rw [hconsistent.live_size]; omega)]
          at hlive
        cases hlive
      have hshown := hcurrent.shown o _ (List.getElem?_eq_getElem ho)
      rw [if_pos hlive] at hshown
      exact contents_valid ops _ _ hshown

/-- The cache of an index that any calls lead to decodes to an index with the same slots,
identifiers, liveness and fields. Without an open bulk load the two indexes evaluate every
expression to the same bitmap, also after any further calls on both. -/
theorem cache_round_trip (ops : List MetadataIndex.MetadataOp) (bytes : List UInt8)
    (hlimit : (runOps ops).1.slotCount ≤ 10000000)
    (hencode : (runOps ops).1.encodeCachePayload = .ok bytes) :
    ∃ decoded, decodeCachePayload bytes = .ok decoded ∧
      decoded.slots = (runOps ops).1.slots ∧
      decoded.ids = (runOps ops).1.ids ∧
      (∀ o, decoded.live.has o = (runOps ops).1.live.has o ∧
        decoded.fieldsAt o = (runOps ops).1.fieldsAt o) ∧
      ((runOps ops).1.bulkLoading = false →
        ∀ later : List MetadataIndex.MetadataOp,
          let source := performAll (runOps ops).1 later
          let copy := performAll decoded later
          copy.slots = source.slots ∧ copy.ids = source.ids ∧
            (∀ o, copy.live.has o = source.live.has o ∧ copy.fieldsAt o = source.fieldsAt o) ∧
            (source.bulkLoading = false → ∀ expression,
              evaluateExpression copy expression = evaluateExpression source expression)) := by
  obtain ⟨hconsistent, -⟩ := run_ops_current ops
  obtain ⟨decoded, hdecode, hdecoded, hslots, hbulk⟩ :=
    cache_decodes hconsistent (stored_valid ops) hlimit hencode
  have hids : decoded.ids = (runOps ops).1.ids := by
    rw [← decoded.map_fst_slots, hslots, map_fst_slots]
  refine ⟨decoded, hdecode, hslots, hids, fun o => ?_, fun hclosed later => ?_⟩
  · exact same_slots hdecoded hconsistent hslots o
  · have halike : Alike decoded (runOps ops).1 :=
      ⟨hdecoded, hconsistent, hslots, hbulk.trans hclosed.symm⟩
    have hlater := halike.perform_all later
    exact ⟨hlater.slots, hlater.ids_eq, hlater.slot_eq,
      fun hopen => hlater.evaluate_eq (hlater.bulk.trans hopen)⟩

theorem sample_fields_constructible :
    ∀ field ∈ sampleFields, field.value.isConstructible = true := by decide

/-- A point with a number and a word, written anew, and a deleted point. -/
def cachedOps : List MetadataIndex.MetadataOp :=
  [.upsert 7 sampleFields sample_fields_constructible, .delete 8, .upsert 7 [] (by decide),
    .upsert 7 sampleFields sample_fields_constructible]

theorem cache_round_trip_sample : ∃ bytes decoded,
    (runOps cachedOps).1.encodeCachePayload = .ok bytes ∧
      decodeCachePayload bytes = .ok decoded ∧
      evaluateExpression decoded ⟨[⟨.condition, some sampleCondition, []⟩], 0⟩ =
        evaluateExpression (runOps cachedOps).1
          ⟨[⟨.condition, some sampleCondition, []⟩], 0⟩ := by
  have hencoded :
      (runOps cachedOps).1.encodeCachePayload.toOption.isSome = true := by
    decide +kernel
  cases hencode : (runOps cachedOps).1.encodeCachePayload with
  | error e =>
      rw [hencode] at hencoded
      cases hencoded
  | ok bytes =>
      obtain ⟨decoded, hdecode, -, -, -, hlater⟩ :=
        cache_round_trip cachedOps bytes (by decide +kernel) hencode
      obtain ⟨-, -, -, hsame⟩ := hlater (by decide +kernel) []
      exact ⟨bytes, decoded, rfl, hdecode, hsame (by decide +kernel) _⟩

end Akasha.Query

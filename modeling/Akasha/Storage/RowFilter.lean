import Akasha.Query.IndexEvaluator
import Akasha.Storage.RunIndex

/-!
# Filtering the rows of a view

`filtered_ordinals`, `conditioned_ordinals` and `dense_ordinals` of `read_generation.mojo`: a run
with an index evaluates a filter to a bitmap of its slots, a frozen head matches row by row, and
both drop the slots that newer runs shadow. In a root over a table either way gives the visible
slots whose payloads the filter holds for (`filtered_ordinals_ok`, `conditioned_ordinals_ok`).
-/

namespace Akasha

open Lib Index

/-! ## Conditions that must all match -/

namespace Query

/-- The loop of `evaluate_all`, until no candidate is left. -/
def evaluateAllFrom (index : MetadataIndex) : Bitmap → List FilterCondition → Except String Bitmap
  | result, [] => pure result
  | result, condition :: conditions => do
      condition.validate
      let candidates ← index.evaluateCondition condition
      let next ← result.intersection candidates
      if next.count = 0 then pure next else evaluateAllFrom index next conditions

/-- `evaluate_all`: the live slots that match every condition. -/
def evaluateAll (index : MetadataIndex) (conditions : List FilterCondition) :
    Except String Bitmap :=
  evaluateAllFrom index index.liveUniverse conditions

/-- `matches_all`. -/
def matchesAll (fields : List DocumentField) (conditions : List FilterCondition) : Bool :=
  conditions.all (matchesCondition fields)

theorem evaluate_all_from_selects {index : MetadataIndex} (h : index.Consistent)
    (hready : index.bulkLoading = false) {conditions : List FilterCondition}
    {value : List DocumentField → Bool} {bitmap : Bitmap} (hbitmap : Selects index value bitmap) :
    ∃ result, evaluateAllFrom index bitmap conditions = .ok result ∧
      Selects index (fun fields => value fields && matchesAll fields conditions) result := by
  induction conditions generalizing bitmap value with
  | nil =>
      exact ⟨bitmap, rfl, hbitmap.well_formed, hbitmap.size_eq, fun o => by
        simpa [matchesAll] using hbitmap.has_eq o⟩
  | cons condition conditions ih =>
      obtain ⟨candidates, hcandidates, hwf, hsize, hbits⟩ :=
        MetadataIndex.evaluate_condition_ok h hready condition
      obtain ⟨next, hnext, hwf', hsize', hbits'⟩ := Bitmap.intersection_ok hbitmap.well_formed hwf
        (hbitmap.size_eq.trans hsize.symm)
      have hselects : Selects index
          (fun fields => value fields && matchesCondition fields condition) next :=
        ⟨hwf', hsize'.trans hbitmap.size_eq, fun o => by
          rw [hbits', hbitmap.has_eq, hbits]
          cases index.live.has o <;> simp⟩
      have hstep : evaluateAllFrom index bitmap (condition :: conditions) =
          if next.count = 0 then pure next else evaluateAllFrom index next conditions := by
        simp only [evaluateAllFrom, condition.validate_ok, hcandidates]
        show (bitmap.intersection candidates >>= _) = _
        rw [hnext]
        rfl
      rw [hstep]
      by_cases hcount : next.count = 0
      · -- No candidate is left, so the other conditions cannot add one.
        refine ⟨next, if_pos hcount, hwf', hselects.size_eq, fun o => ?_⟩
        have hnone := hwf'.has_eq_false hcount o
        have hvalue := hselects.has_eq o
        rw [hnone, ← Bool.and_assoc] at hvalue
        rw [hnone]
        simp only [matchesAll, List.all_cons, ← Bool.and_assoc]
        rw [← hvalue, Bool.false_and]
      · obtain ⟨result, hresult, hr⟩ := ih hselects
        refine ⟨result, (if_neg hcount).trans hresult, hr.well_formed, hr.size_eq, fun o => ?_⟩
        rw [hr.has_eq]
        simp only [matchesAll, List.all_cons, Bool.and_assoc]

theorem evaluate_all_selects {index : MetadataIndex} (h : index.Consistent)
    (hready : index.bulkLoading = false) (conditions : List FilterCondition) :
    ∃ bitmap, evaluateAll index conditions = .ok bitmap ∧
      Selects index (matchesAll · conditions) bitmap := by
  obtain ⟨bitmap, hrun, hselects⟩ := evaluate_all_from_selects h hready
    (show Selects index (fun _ => true) index.liveUniverse from
      ⟨h.live_well_formed, h.live_size, fun o => (Bool.and_true _).symm⟩)
  exact ⟨bitmap, hrun, hselects.well_formed, hselects.size_eq, fun o => by
    simpa using hselects.has_eq o⟩

end Query

namespace Storage

open Query

/-! ## Reading slots -/

namespace MemTable

/-- `entry_ref_at`. -/
def entryRefAt (table : MemTable) (ordinal : Nat) : Except String MemTableEntry :=
  match table.entries[ordinal]? with
  | some entry => pure entry
  | none => throw "memtable ordinal out of bounds"

/-- The entries in the slots. -/
def rowsAt (table : MemTable) (ordinals : List Nat) : List MemTableEntry :=
  ordinals.filterMap (table.entries[·]?)

/-- The loop of the filters that read row by row: keep the slots whose entries pass. -/
def filterRows (table : MemTable) (keep : MemTableEntry → Except String Bool) :
    List Nat → Except String (List Nat)
  | [] => pure []
  | ordinal :: ordinals => do
      let entry ← table.entryRefAt ordinal
      let kept ← keep entry
      let rest ← table.filterRows keep ordinals
      pure (if kept then ordinal :: rest else rest)

end MemTable

namespace ReadLayer

/-- `candidate_ordinals`: the visible slots that a bitmap of the run selects. -/
def candidateOrdinals (layer : ReadLayer) (candidates : Bitmap) : Except String (List Nat) := do
  require (candidates.size = layer.run.memtable.slotCount)
    "candidate bitmap does not align with run slots"
  pure (layer.visible candidates.setOrdinals)

/-- `filtered_ordinals`, with at most so many rounds of the matcher for each row. -/
def filteredOrdinals (rounds : Nat) (layer : ReadLayer) (expression : FilterExpression) :
    Except String (List Nat) :=
  match layer.run.index with
  | some index => do
      let candidates ← evaluateExpression index.metadata expression
      layer.candidateOrdinals candidates
  | none =>
      layer.run.memtable.filterRows
        (fun entry => (· = some true) <$> matchesExpression rounds entry.payload expression)
        layer.visibleOrdinals

/-- `conditioned_ordinals`. -/
def conditionedOrdinals (layer : ReadLayer) (conditions : List FilterCondition) :
    Except String (List Nat) :=
  match layer.run.index with
  | some index => do
      let candidates ← evaluateAll index.metadata conditions
      layer.candidateOrdinals candidates
  | none =>
      layer.run.memtable.filterRows (fun entry => .ok (matchesAll entry.payload conditions))
        layer.visibleOrdinals

/-- `dense_ordinals`: the slots whose points have a default vector. -/
def denseOrdinals (layer : ReadLayer) (candidates : List Nat) : Except String (List Nat) :=
  layer.run.memtable.filterRows (fun entry => .ok entry.hasDense) candidates

/-! ## What the filters keep -/

/-- The visible slots of the entries to keep. -/
def picked (layer : ReadLayer) (keep : MemTableEntry → Bool) : List Nat :=
  layer.visibleOrdinals.filter fun o => (layer.table.entries[o]?).any keep

variable {layer : ReadLayer}

theorem visible_entry (hsorted : layer.Sorted) {o : Nat} (ho : o ∈ layer.visibleOrdinals) :
    ∃ e, layer.table.entries[o]? = some e ∧ e.tombstone = false := by
  rw [visible_ordinals_eq hsorted] at ho
  obtain ⟨hlt, hkeep⟩ := List.mem_filter.1 ho
  have hlive : layer.table.isLiveAt o = true := (Bool.and_eq_true_iff.1 hkeep).1
  have he := List.getElem?_eq_getElem (List.mem_range.1 hlt)
  refine ⟨_, he, ?_⟩
  unfold MemTable.isLiveAt at hlive
  rw [he] at hlive
  simpa using hlive

theorem rows_at_picked (layer : ReadLayer) (keep : MemTableEntry → Bool) :
    layer.table.rowsAt (layer.picked keep) = (ReadGeneration.rowsOf layer).filter keep := by
  unfold MemTable.rowsAt picked ReadGeneration.rowsOf
  rw [List.filter_filterMap, List.filterMap_filter]
  refine List.filterMap_congr fun o _ => ?_
  cases layer.table.entries[o]? with
  | none => rfl
  | some e => rw [Option.any_some, Option.filter_some]

theorem picked_entry (hsorted : layer.Sorted) {keep : MemTableEntry → Bool} {o : Nat}
    (ho : o ∈ layer.picked keep) :
    ∃ e, layer.table.entries[o]? = some e ∧ e.tombstone = false ∧ keep e = true := by
  obtain ⟨hvisible, hkeep⟩ := List.mem_filter.1 ho
  obtain ⟨e, he, hlive⟩ := visible_entry hsorted hvisible
  rw [he, Option.any_some] at hkeep
  exact ⟨e, he, hlive, hkeep⟩

/-- A bitmap that selects by payload picks the visible slots by payload. -/
theorem candidate_ordinals_ok (hsorted : layer.Sorted) {metadata : MetadataIndex}
    (hindex : Indexes metadata layer.table) {value : List DocumentField → Bool} {bitmap : Bitmap}
    (hselects : Selects metadata value bitmap) :
    layer.candidateOrdinals bitmap = .ok (layer.picked fun e => value e.payload) := by
  have hsize : bitmap.size = layer.table.entries.length := hselects.size_eq.trans hindex.slots_eq
  refine bind_ok.2 ⟨(), require_ok.2 hsize, ?_⟩
  have hascending : bitmap.setOrdinals.Pairwise (· < ·) := by
    rw [Bitmap.set_ordinals_eq hselects.well_formed]
    exact List.pairwise_lt_range.sublist List.filter_sublist
  refine congrArg Except.ok ?_
  unfold visible picked
  rw [visible_from_eq hsorted.sealedHidden hsorted.headHidden hascending,
    Bitmap.set_ordinals_eq hselects.well_formed, visible_ordinals_eq hsorted, List.filter_filter,
    List.filter_filter, hsize]
  refine List.filter_congr fun o ho => ?_
  obtain ⟨e, he⟩ : ∃ e, layer.table.entries[o]? = some e :=
    ⟨_, List.getElem?_eq_getElem (List.mem_range.1 ho)⟩
  have hbit : bitmap.has o = (!e.tombstone && value (metadata.fieldsAt o)) := by
    rw [hselects.has_eq, hindex.live_eq o e he]
  have hlive : layer.run.memtable.isLiveAt o = !e.tombstone := by
    unfold MemTable.isLiveAt
    rw [he, Option.any_some]
  have hhidden : decide (o ∈ layer.sealedHidden ∨ o ∈ layer.headHidden) =
      decide (layer.Hidden o) := rfl
  rw [hbit, hlive, he, Option.any_some, hhidden]
  cases htomb : e.tombstone with
  | true => simp
  | false =>
      rw [hindex.fields_eq o e he htomb]
      cases value e.payload <;> simp

theorem filter_rows_ok {table : MemTable} {keep : MemTableEntry → Except String Bool}
    {pass : MemTableEntry → Bool} {ordinals : List Nat}
    (hrows : ∀ o ∈ ordinals, ∃ e, table.entries[o]? = some e ∧ keep e = .ok (pass e)) :
    table.filterRows keep ordinals =
      .ok (ordinals.filter fun o => (table.entries[o]?).any pass) := by
  induction ordinals with
  | nil => rfl
  | cons o ordinals ih =>
      obtain ⟨e, he, hkeep⟩ := hrows o List.mem_cons_self
      have hentry : table.entryRefAt o = .ok e := by
        unfold MemTable.entryRefAt
        rw [he]
        rfl
      refine bind_ok.2 ⟨e, hentry, bind_ok.2 ⟨_, hkeep, bind_ok.2
        ⟨_, ih fun o' ho' => hrows o' (List.mem_cons_of_mem _ ho'), ?_⟩⟩⟩
      rw [List.filter_cons, he, Option.any_some]
      cases pass e <;> rfl

theorem dense_ordinals_picked (hsorted : layer.Sorted) (keep : MemTableEntry → Bool) :
    layer.denseOrdinals (layer.picked keep) =
      .ok (layer.picked fun e => keep e && e.hasDense) := by
  have hrows : layer.denseOrdinals (layer.picked keep) =
      .ok ((layer.picked keep).filter fun o => (layer.table.entries[o]?).any (·.hasDense)) := by
    refine filter_rows_ok fun o ho => ?_
    obtain ⟨e, he, -⟩ := picked_entry hsorted ho
    exact ⟨e, he, rfl⟩
  rw [hrows]
  unfold picked
  rw [List.filter_filter]
  refine congrArg Except.ok (List.filter_congr fun o _ => ?_)
  cases layer.table.entries[o]? with
  | none => rfl
  | some e => rw [Option.any_some, Option.any_some, Option.any_some, Bool.and_comm]

theorem picked_true (hsorted : layer.Sorted) :
    layer.picked (fun _ => true) = layer.visibleOrdinals := by
  refine List.filter_eq_self.2 fun o ho => ?_
  obtain ⟨e, he, -⟩ := visible_entry hsorted ho
  rw [he]
  rfl

section Proper

variable {dimension : Nat} (hwf : layer.table.WellFormed) (hsorted : layer.Sorted)
  (hproper : layer.run.Proper dimension)

include hwf hsorted hproper

/-- A filter picks the visible slots whose payloads it holds for, with an index or without. -/
theorem filtered_ordinals_ok {expression : FilterExpression}
    (hvalid : expression.validate = .ok ()) :
    ∃ enough, ∀ rounds, enough ≤ rounds → layer.filteredOrdinals rounds expression =
      .ok (layer.picked fun e => expression.holds e.payload) := by
  unfold filteredOrdinals
  cases hindex : layer.run.index with
  | some index =>
      obtain ⟨owner, hrun⟩ := hproper.indexed (by rw [hindex]; rfl)
      obtain ⟨index', hindex', hindexes⟩ := indexed_run_indexes hwf hrun
      obtain rfl : index = index' := Option.some.inj (hindex.symm.trans hindex')
      obtain ⟨bitmap, hbitmap, hselects⟩ := evaluate_expression_selects hindexes.consistent hvalid
        (.inl hindexes.ready)
      exact ⟨0, fun rounds _ => bind_ok.2 ⟨bitmap, hbitmap,
        candidate_ordinals_ok hsorted hindexes hselects⟩⟩
  | none =>
      obtain ⟨enough, henough⟩ := enough_for_all layer.table.entries
        fun e _ => matches_expression_ok e.payload hvalid
      refine ⟨enough, fun rounds hrounds => filter_rows_ok fun o ho => ?_⟩
      obtain ⟨e, he, -⟩ := visible_entry hsorted ho
      refine ⟨e, he, map_ok.2 ⟨_, henough rounds hrounds e (List.mem_of_getElem? he), ?_⟩⟩
      cases expression.holds e.payload <;> rfl

theorem conditioned_ordinals_ok (conditions : List FilterCondition) :
    layer.conditionedOrdinals conditions =
      .ok (layer.picked fun e => matchesAll e.payload conditions) := by
  unfold conditionedOrdinals
  cases hindex : layer.run.index with
  | some index =>
      obtain ⟨owner, hrun⟩ := hproper.indexed (by rw [hindex]; rfl)
      obtain ⟨index', hindex', hindexes⟩ := indexed_run_indexes hwf hrun
      obtain rfl : index = index' := Option.some.inj (hindex.symm.trans hindex')
      obtain ⟨bitmap, hbitmap, hselects⟩ := evaluate_all_selects hindexes.consistent
        hindexes.ready conditions
      exact bind_ok.2 ⟨bitmap, hbitmap, candidate_ordinals_ok hsorted hindexes hselects⟩
  | none =>
      refine filter_rows_ok fun o ho => ?_
      obtain ⟨e, he, -⟩ := visible_entry hsorted ho
      exact ⟨e, he, rfl⟩

end Proper

end ReadLayer

end Storage

end Akasha

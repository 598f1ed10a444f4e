import Akasha.Lib.Bisect
import Akasha.Storage.RowFilter

/-!
# Sparse scores of the rows of a view

`sparse_hits` of `read_generation.mojo`: a run with an index scores the points of its posting
lists and drops those that are not visible, a frozen head scores its visible rows one by one. Both
find the visible rows that share a term with the query, with the same scores (`sparse_hits_ok`).
-/

namespace Akasha.Storage

open Lib Compute Index

/-! ## Searching shadowed slots -/

/-- `contains_sorted`. -/
def containsSorted (values : List Nat) (value : Nat) : Bool :=
  values[partitionPoint (· < value) values 0 values.length]? = some value

theorem contains_sorted_iff {values : List Nat} (h : values.Pairwise (· ≤ ·)) (value : Nat) :
    containsSorted values value = true ↔ value ∈ values := by
  have hpartitioned : Partitioned (fun v => decide (v < value)) values 0 values.length := by
    intro i j a b _ hij hj ha hb hlt
    have hle : a ≤ b := by
      rcases Nat.eq_or_lt_of_le hij with rfl | hij
      · exact (Option.some.inj (ha.symm.trans hb)).le
      · obtain ⟨hi, rfl⟩ := List.getElem?_eq_some_iff.1 ha
        obtain ⟨hj, rfl⟩ := List.getElem?_eq_some_iff.1 hb
        exact List.pairwise_iff_getElem.1 h i j hi hj hij
    have hlt : b < value := by simpa using hlt
    exact decide_eq_true (lt_of_le_of_lt hle hlt)
  have hsplits := partition_point_splits (Nat.zero_le _) (Nat.le_refl _) hpartitioned
  unfold containsSorted
  rw [decide_eq_true_iff]
  constructor
  · exact fun hget => List.mem_of_getElem? hget
  · intro hmem
    obtain ⟨i, hi⟩ := List.mem_iff_getElem?.1 hmem
    have hlt : i < values.length := (List.getElem?_eq_some_iff.1 hi).1
    -- The value itself is not before the border, so the border holds a value up to it.
    have hborder : partitionPoint (· < value) values 0 values.length ≤ i := by
      have := (hsplits.iff_lt i value (Nat.zero_le _) hlt hi).not
      simpa using this
    obtain ⟨found, hfound⟩ : ∃ found,
        values[partitionPoint (· < value) values 0 values.length]? = some found :=
      ⟨_, List.getElem?_eq_getElem (lt_of_le_of_lt hborder hlt)⟩
    have hge : value ≤ found := by
      have := (hsplits.iff_lt _ _ (Nat.zero_le _) (lt_of_le_of_lt hborder hlt) hfound).not
      simpa using this
    have hle : found ≤ value := by
      rcases Nat.eq_or_lt_of_le hborder with heq | hless
      · rw [← heq, hfound] at hi
        exact (Option.some.inj hi).le
      · obtain ⟨_, rfl⟩ := List.getElem?_eq_some_iff.1 hfound
        obtain ⟨hi, hvalue⟩ := List.getElem?_eq_some_iff.1 hi
        exact (List.pairwise_iff_getElem.1 h _ i _ hi hless).trans hvalue.le
    rw [hfound, le_antisymm hle hge]

namespace ReadLayer

/-- `is_visible`: one slot is live in its run and no newer run shadows it. -/
def isVisible (layer : ReadLayer) (ordinal : Nat) : Bool :=
  layer.run.memtable.isLiveAt ordinal && !containsSorted layer.sealedHidden ordinal &&
    !containsSorted layer.headHidden ordinal

theorem is_visible_iff {layer : ReadLayer} (hsorted : layer.Sorted) {ordinal : Nat} :
    layer.isVisible ordinal = true ↔ ordinal ∈ layer.visibleOrdinals := by
  have hlive : layer.run.memtable.isLiveAt ordinal = true →
      ordinal < layer.table.entries.length := by
    unfold MemTable.isLiveAt
    cases h : layer.run.memtable.entries[ordinal]? with
    | none => exact nofun
    | some entry => exact fun _ => (List.getElem?_eq_some_iff.1 h).1
  have hsealed := contains_sorted_iff hsorted.sealedHidden ordinal
  have hhead := contains_sorted_iff hsorted.headHidden ordinal
  rw [visible_ordinals_eq hsorted, List.mem_filter, List.mem_range]
  have hhidden : (!decide (layer.Hidden ordinal)) = true ↔
      ordinal ∉ layer.sealedHidden ∧ ordinal ∉ layer.headHidden := by
    rw [Bool.not_eq_true', decide_eq_false_iff_not]
    exact not_or
  unfold isVisible
  rw [Bool.and_eq_true, Bool.and_eq_true, Bool.and_eq_true, hhidden, Bool.not_eq_true',
    Bool.not_eq_true', ← Bool.not_eq_true, ← Bool.not_eq_true, hsealed, hhead, and_assoc]
  exact ⟨fun h => ⟨hlive h.1, h⟩, (·.2)⟩

end ReadLayer

/-! ## Hits -/

/-- A visible row that shares a term with a query. -/
structure SparseHit (S : Type) where
  ordinal : Nat
  id : Int64
  score : S

variable {S : Type}

/-- Score the rows in the slots one by one. -/
def directHits (ops : SparseOps S) (table : MemTable) (query : List SparseElement) :
    List Nat → Except String (List (SparseHit S))
  | [] => pure []
  | ordinal :: ordinals => do
      let entry ← table.entryRefAt ordinal
      let rest ← directHits ops table query ordinals
      if ¬ entry.hasSparse then pure rest
      else
        match sparseDot ops query entry.sparse with
        | some score => pure (⟨ordinal, entry.id, score⟩ :: rest)
        | none => pure rest

/-- The hit of a scored point, if its slot is visible. -/
def ReadLayer.hitOf (layer : ReadLayer) (scored : TopKEntry S) : Option (SparseHit S) :=
  match layer.run.memtable.ordinalFor scored.id with
  | some ordinal =>
      if layer.isVisible ordinal then some ⟨ordinal, scored.id, scored.score⟩ else none
  | none => none

/-- `sparse_hits`. -/
def ReadLayer.sparseHits (ops : SparseOps S) (layer : ReadLayer) (query : List SparseElement) :
    Except String (List (SparseHit S)) :=
  match layer.run.index with
  | some index => do
      let scored ← index.sparse.scores ops query
      pure (scored.filterMap layer.hitOf)
  | none => directHits ops layer.run.memtable query layer.visibleOrdinals

/-- The hit of the row in a slot. -/
def rowHit (ops : SparseOps S) (query : List SparseElement) (table : MemTable) (ordinal : Nat) :
    Option (SparseHit S) :=
  (table.entries[ordinal]?).bind fun entry =>
    (sharedScore ops query entry.sparse).map (⟨ordinal, entry.id, ·⟩)

/-- The stored sparse vectors of live points passed the check of their writes. -/
def MemTable.SparseValid (table : MemTable) : Prop :=
  ∀ e ∈ table.entries, e.tombstone = false → e.sparse = [] ∨ validateSparse e.sparse = .ok ()

theorem MemTable.SparseValid.ascending {table : MemTable} (h : table.SparseValid)
    {e : MemTableEntry} (he : e ∈ table.entries) (hlive : e.tombstone = false) :
    Ascending e.sparse := by
  rcases h e he hlive with hnil | hvalid
  · rw [hnil]
    exact List.Pairwise.nil
  · exact validate_sparse_ascending hvalid

theorem shared_score_nil (ops : SparseOps S) (query : List SparseElement) :
    sharedScore ops query [] = none := by
  have hnone : contributions ops query [] = [] := List.filterMap_eq_nil_iff.2 fun _ _ => rfl
  unfold sharedScore
  rw [hnone]
  rfl

variable {query : List SparseElement}

theorem row_hit_iff {ops : SparseOps S} {table : MemTable} {ordinal : Nat} {hit : SparseHit S} :
    rowHit ops query table ordinal = some hit ↔ hit.ordinal = ordinal ∧
      ∃ e, table.entries[ordinal]? = some e ∧ e.id = hit.id ∧
        sharedScore ops query e.sparse = some hit.score := by
  unfold rowHit
  rw [Option.bind_eq_some_iff]
  simp only [Option.map_eq_some_iff]
  constructor
  · rintro ⟨e, he, score, hscore, rfl⟩
    exact ⟨rfl, e, he, rfl, hscore⟩
  · rintro ⟨rfl, e, he, hid, hscore⟩
    exact ⟨e, he, hit.score, hscore, by rw [hid]⟩

/-- Scoring row by row finds the rows that share a term. -/
theorem direct_hits_ok (ops : SparseOps S) (hquery : validateSparse query = .ok ())
    {table : MemTable} {ordinals : List Nat}
    (hslots : ∀ o ∈ ordinals, ∃ e, table.entries[o]? = some e ∧ Ascending e.sparse) :
    directHits ops table query ordinals = .ok (ordinals.filterMap (rowHit ops query table)) := by
  induction ordinals with
  | nil => rfl
  | cons o ordinals ih =>
      obtain ⟨e, he, hascending⟩ := hslots o List.mem_cons_self
      have hentry : table.entryRefAt o = .ok e := by
        unfold MemTable.entryRefAt
        rw [he]
        rfl
      refine bind_ok.2 ⟨e, hentry, bind_ok.2
        ⟨_, ih fun o' ho' => hslots o' (List.mem_cons_of_mem _ ho'), ?_⟩⟩
      have hrow : rowHit ops query table o =
          (sharedScore ops query e.sparse).map (⟨o, e.id, ·⟩) := by
        unfold rowHit
        rw [he]
        rfl
      rw [sparse_dot_eq ops (validate_sparse_ascending hquery) hascending, List.filterMap_cons,
        hrow]
      by_cases hfield : e.hasSparse
      · rw [if_neg (not_not.2 hfield)]
        cases sharedScore ops query e.sparse <;> rfl
      · have hnil : e.sparse = [] := by
          unfold MemTableEntry.hasSparse at hfield
          unfold MemTableEntry.sparse
          cases hvalue : e.field? 1 with
          | none => rfl
          | some value => exact absurd (by rw [hvalue]; rfl) hfield
        rw [if_pos hfield, hnil, shared_score_nil]
        rfl

namespace ReadLayer

variable {layer : ReadLayer}

theorem row_hits_nodup (ops : SparseOps S) (query : List SparseElement) (hsorted : layer.Sorted) :
    (layer.visibleOrdinals.filterMap (rowHit ops query layer.table)).Nodup := by
  have hnodup : layer.visibleOrdinals.Nodup := by
    rw [visible_ordinals_eq hsorted]
    exact List.nodup_range.filter _
  refine hnodup.filterMap fun o o' hit hhit hhit' => ?_
  exact ((row_hit_iff.1 hhit).1.symm.trans (row_hit_iff.1 hhit').1)

/-- A layer hits its visible rows that share a term with the query, with an index or without. -/
theorem sparse_hits_ok (ops : SparseOps S) (hquery : validateSparse query = .ok ())
    {dimension : Nat} (hwf : layer.table.WellFormed) (hsorted : layer.Sorted)
    (hproper : layer.run.Proper dimension)
    (hstored : ∀ e ∈ ReadGeneration.rowsOf layer, Ascending e.sparse) :
    ∃ hits, layer.sparseHits ops query = .ok hits ∧
      hits.Perm (layer.visibleOrdinals.filterMap (rowHit ops query layer.table)) := by
  unfold sparseHits
  cases hindex : layer.run.index with
  | none =>
      refine ⟨_, direct_hits_ok ops hquery fun o ho => ?_, List.Perm.refl _⟩
      obtain ⟨e, he, -⟩ := visible_entry hsorted ho
      exact ⟨e, he, hstored e (List.mem_filterMap.2 ⟨o, ho, he⟩)⟩
  | some index =>
      obtain ⟨owner, hrun⟩ := hproper.indexed (by rw [hindex]; rfl)
      obtain ⟨index', hindex', hholds⟩ := indexed_run_sparse hwf hrun
      obtain rfl : index = index' := Option.some.inj (hindex.symm.trans hindex')
      obtain ⟨scored, hscored, hnodup, hentries⟩ :=
        SparseIndex.scores_ok hholds.valid ops hquery
      rw [hholds.records_eq] at hentries
      refine ⟨_, bind_ok.2 ⟨scored, hscored, rfl⟩, ?_⟩
      have hhit : ∀ (entry : TopKEntry S) (hit : SparseHit S), layer.hitOf entry = some hit ↔
          hit.ordinal ∈ layer.visibleOrdinals ∧ layer.table.ordinalFor hit.id = some hit.ordinal ∧
            hit.id = entry.id ∧ hit.score = entry.score := by
        intro entry hit
        unfold hitOf
        cases hslot : layer.run.memtable.ordinalFor entry.id with
        | none =>
            refine ⟨nofun, ?_⟩
            rintro ⟨-, hfound, hid, -⟩
            rw [hid] at hfound
            rw [hslot] at hfound
            cases hfound
        | some o =>
            simp only
            rw [Option.ite_none_right_eq_some, is_visible_iff hsorted, Option.some.injEq]
            constructor
            · rintro ⟨hvisible, rfl⟩
              exact ⟨hvisible, hslot, rfl, rfl⟩
            · rintro ⟨hvisible, hfound, hid, hscore⟩
              obtain rfl : o = hit.ordinal := by
                rw [hid] at hfound
                exact Option.some.inj (hslot.symm.trans hfound)
              exact ⟨hvisible, by rw [← hid, ← hscore]⟩
      -- Both lists are without repetition and have the same hits.
      rw [List.perm_ext_iff_of_nodup]
      · intro hit
        rw [List.mem_filterMap, List.mem_filterMap]
        constructor
        · rintro ⟨entry, hentry, hof⟩
          obtain ⟨hvisible, hfound, hid, hscore⟩ := (hhit entry hit).1 hof
          obtain ⟨record, hrecord, hrid, hshared⟩ := (hentries entry).1 hentry
          obtain ⟨e, he, hsome⟩ := List.mem_filterMap.1 hrecord
          obtain ⟨-, rfl⟩ := sparse_record_iff.1 hsome
          obtain ⟨e', he', hid'⟩ := (hwf.ordinals_iff _ _).1 hfound
          obtain rfl : e' = e := List.inj_on_of_nodup_map (MemTable.ids_nodup hwf)
            (List.mem_of_getElem? he') he (hid'.trans (hid.trans hrid.symm))
          exact ⟨hit.ordinal, hvisible, row_hit_iff.2 ⟨rfl, e', he', hid', hscore ▸ hshared⟩⟩
        · rintro ⟨o, hvisible, hrow⟩
          obtain ⟨rfl, e, he, hid, hshared⟩ := row_hit_iff.1 hrow
          obtain ⟨e', he', hlive⟩ := visible_entry hsorted hvisible
          obtain rfl : e' = e := Option.some.inj (he'.symm.trans he)
          have hne : e'.sparse ≠ [] := by
            intro hnil
            rw [hnil, shared_score_nil] at hshared
            cases hshared
          refine ⟨⟨hit.id, hit.score⟩, (hentries _).2 ⟨⟨e'.id, e'.sparse⟩, ?_, hid, hshared⟩,
            (hhit _ hit).2 ⟨hvisible, (hwf.ordinals_iff _ _).2 ⟨e', he, hid⟩, rfl, rfl⟩⟩
          exact List.mem_filterMap.2 ⟨e', List.mem_of_getElem? he,
            sparse_record_iff.2 ⟨⟨hlive, hne⟩, rfl⟩⟩
      · refine (List.Nodup.of_map _ hnodup).filterMap fun a b hit ha hb => ?_
        obtain ⟨-, -, hid, hscore⟩ := (hhit a hit).1 ha
        obtain ⟨-, -, hid', hscore'⟩ := (hhit b hit).1 hb
        cases a
        cases b
        exact congrArg₂ TopKEntry.mk (hid.symm.trans hid') (hscore.symm.trans hscore')
      · exact row_hits_nodup ops query hsorted

end ReadLayer

end Akasha.Storage

import Akasha.Index.SegmentedHnsw
import Akasha.Lib.Slots
import Akasha.Storage.Reader

/-!
# Rebuilding the graph in the background

A rebuild builds a graph from a captured root while writes go on. The job keeps a bounded journal
of the dense descriptors of points that changed since the capture, or since the journal was last
taken. The candidate catches up with one taken journal after another, and is published when the
journal is empty.

What a table says of its points for the graph is its dense projection: the default vector of every
live point that has one. Every step below is stated by what it does to that projection.
-/

namespace Akasha

namespace Storage

/-- The default vector of a live entry that has one. -/
def MemTableEntry.denseValue (entry : MemTableEntry) : Option (List F32) :=
  if entry.isDenseLive then some entry.values else none

/-- The version of the dense projection: the document's, or the removal's. -/
def MemTableEntry.denseSequence (entry : MemTableEntry) : Nat :=
  if entry.hasDense then entry.documentSequence else entry.sequence

/-- The dense projection of a table. -/
def MemTable.dense (table : MemTable) (id : Int64) : Option (List F32) :=
  (table.state id).bind (·.denseValue)

end Storage

namespace Index

open Lib Storage Function MemTable Option

/-- `_RebuildOrdinal`: a deterministic order of slots. -/
structure RebuildOrdinal where
  sequence : Nat
  id : Int64
  ordinal : Nat

/-- `not (b < a)`. -/
def RebuildOrdinal.le (a b : RebuildOrdinal) : Bool :=
  if a.sequence ≠ b.sequence then a.sequence < b.sequence
  else if a.id ≠ b.id then a.id < b.id
  else a.ordinal ≤ b.ordinal

/-- The keys of the slots that a condition selects, in order. -/
def rebuildOrder (table : MemTable) (p : MemTableEntry → Bool) (sequence : MemTableEntry → Nat) :
    List RebuildOrdinal :=
  ((List.range table.slotCount).filterMap fun ordinal =>
    ((table.entries[ordinal]?).filter p).map fun entry =>
      ⟨sequence entry, entry.id, ordinal⟩).mergeSort RebuildOrdinal.le

variable {V : Type} (prepare : List F32 → Except String V)

/-- The insertion loop of `build_hnsw`. -/
def addEach (table : MemTable) (index : HnswIndex V) :
    List RebuildOrdinal → Except String (HnswIndex V)
  | [] => pure index
  | key :: keys =>
      match table.entries[key.ordinal]? with
      | none => throw "HNSW rebuild source changed during staging"
      | some entry => do
          require (¬ entry.tombstone ∧ entry.documentSequence = key.sequence ∧ entry.id = key.id)
            "HNSW rebuild source changed during staging"
          let next ← index.add prepare entry.id entry.values
          addEach table next keys

/-- `build_hnsw`: the dense live entries by document version. -/
def buildHnsw (table : MemTable) : Except String (HnswIndex V) :=
  addEach prepare table .empty (rebuildOrder table (·.isDenseLive) (·.documentSequence))

/-- The flat table of `dense_run`: descriptors without payload. -/
def denseTable (root : ReadGeneration) : MemTable :=
  { ((root.rows.filter (·.hasDense)).map (·.denseDescriptor)).foldl put
      (.empty root.config.dimension) with lastSequence := root.sequence }

/-- `dense_run`: the visible dense rows; an unshadowed run with nothing else is shared. -/
def denseRun (root : ReadGeneration) : MemTable :=
  match root.layers with
  | [layer] =>
      if ¬ layer.isShadowed ∧ layer.run.memtable.denseLiveCount = layer.run.memtable.liveCount then
        layer.run.memtable
      else denseTable root
  | _ => denseTable root

def hnswRebuildTailLimit : Nat := 1024

def hnswRebuildCatchupPasses : Nat := 4

/-- The pinned input of a build and the journal of what changed since. -/
structure HnswRebuild where
  root : ReadGeneration
  tail : MemTable
  sequence : Nat
  tailStartSequence : Nat
  invalid : Bool

namespace HnswRebuild

/-- `HnswRebuild(root)`. -/
def start (root : ReadGeneration) : HnswRebuild :=
  ⟨root, .empty root.config.dimension, root.sequence, root.sequence, false⟩

/-- One point of `record`. A write that does not touch the dense projection is skipped; a full
journal and a missing point invalidate the job. -/
def recordOne (job : HnswRebuild) (table : MemTable) (id : Int64) : HnswRebuild :=
  match table.state id with
  | none => { job with invalid := true }
  | some entry =>
      if entry.denseSequence ≤ job.tailStartSequence then job
      else
        match job.tail.state id with
        | none =>
            if job.tail.slotCount = hnswRebuildTailLimit then { job with invalid := true }
            else { job with tail := job.tail.put entry.denseDescriptor }
        | some previous =>
            if previous.sequence = entry.denseSequence then job
            else { job with tail := job.tail.put entry.denseDescriptor }

/-- The loop of `record`, which ends at the first failure. -/
def recordEach (job : HnswRebuild) (table : MemTable) : List Int64 → HnswRebuild
  | [] => job
  | id :: ids =>
      let next := job.recordOne table id
      if next.invalid then next else recordEach next table ids

/-- `record`: a failure cannot reject the committed write. -/
def record (job : HnswRebuild) (table : MemTable) (ids : List Int64) (sequence : Nat) :
    HnswRebuild :=
  if job.invalid then job
  else
    let next := job.recordEach table ids
    if next.invalid then next else { next with sequence := sequence }

/-- `build`. -/
def build (job : HnswRebuild) : Except String (SegmentedHnsw V) := do
  let index ← buildHnsw prepare (denseRun job.root)
  pure (.fromOwned index)

/-- `take_tail`: detach the journal and start a new one. -/
def takeTail (job : HnswRebuild) : MemTable × HnswRebuild :=
  (job.tail, { job with
    tail := .empty job.root.config.dimension
    tailStartSequence := job.sequence })

/-- One journal entry of `catch_up`. -/
def catchUpOne (candidate : SegmentedHnsw V) (entry : MemTableEntry) :
    Except String (SegmentedHnsw V) :=
  if entry.tombstone then pure (candidate.delete entry.id).1
  else candidate.upsert prepare entry.id entry.values

/-- The loop of `catch_up`. -/
def catchUpEach (tail : MemTable) (candidate : SegmentedHnsw V) :
    List RebuildOrdinal → Except String (SegmentedHnsw V)
  | [] => pure candidate
  | key :: keys =>
      match tail.entries[key.ordinal]? with
      | none => throw "HNSW rebuild source changed during staging"
      | some entry => do
          let next ← catchUpOne prepare candidate entry
          catchUpEach tail next keys

/-- `catch_up`: apply a detached journal by sequence. -/
def catchUp (tail : MemTable) (candidate : SegmentedHnsw V) : Except String (SegmentedHnsw V) :=
  catchUpEach prepare tail candidate (rebuildOrder tail (fun _ => true) (·.sequence))

end HnswRebuild

/-! ## Orders of slots -/

theorem rebuild_order_perm (table : MemTable) (p : MemTableEntry → Bool)
    (sequence : MemTableEntry → Nat) :
    (rebuildOrder table p sequence).Perm ((List.range table.slotCount).filterMap fun ordinal =>
      ((table.entries[ordinal]?).filter p).map fun entry =>
        ⟨sequence entry, entry.id, ordinal⟩) :=
  List.mergeSort_perm _ _

variable {table : MemTable}

theorem mem_rebuild_order {p : MemTableEntry → Bool} {sequence : MemTableEntry → Nat}
    {key : RebuildOrdinal} :
    key ∈ rebuildOrder table p sequence ↔ ∃ entry, table.entries[key.ordinal]? = some entry ∧
      p entry = true ∧ key.sequence = sequence entry ∧ key.id = entry.id := by
  rw [(rebuild_order_perm table p sequence).mem_iff, List.mem_filterMap]
  simp only [Option.map_eq_some_iff, filter_eq_some_iff]
  constructor
  · rintro ⟨ordinal, -, entry, ⟨hentry, hp⟩, rfl⟩
    exact ⟨entry, hentry, hp, rfl, rfl⟩
  · rintro ⟨entry, hentry, hp, hsequence, hid⟩
    refine ⟨key.ordinal, List.mem_range.2 (List.getElem?_eq_some_iff.1 hentry).1, entry,
      ⟨hentry, hp⟩, ?_⟩
    rw [← hsequence, ← hid]

theorem rebuild_order_nodup (h : table.WellFormed) (p : MemTableEntry → Bool)
    (sequence : MemTableEntry → Nat) : ((rebuildOrder table p sequence).map (·.id)).Nodup := by
  refine ((rebuild_order_perm table p sequence).map _).nodup_iff.2 ?_
  have hids : ((List.range table.slotCount).filterMap fun ordinal =>
      ((table.entries[ordinal]?).filter p).map fun entry =>
        RebuildOrdinal.mk (sequence entry) entry.id ordinal).map (·.id) =
      (table.entries.filter p).map (·.id) := by
    conv_rhs => rw [← ReadGeneration.filter_map_range table.entries]
    rw [List.map_filterMap, List.filter_filterMap, List.map_filterMap]
    refine List.filterMap_congr fun ordinal _ => ?_
    simp only [Option.map_map]
    rfl
  rw [hids]
  exact (ids_nodup h).sublist (List.filter_sublist.map _)

/-- The slot of a point in the order is its slot in the table, when that is selected. -/
theorem find_rebuild_order (h : table.WellFormed) (p : MemTableEntry → Bool)
    (sequence : MemTableEntry → Nat) (id : Int64) {β : Type} (none' : β)
    (g : Option MemTableEntry → β) :
    (findBy RebuildOrdinal.id id (rebuildOrder table p sequence)).elim none'
        (fun key => g table.entries[key.ordinal]?) =
      ((table.state id).filter p).elim none' (fun entry => g (some entry)) := by
  cases hfind : findBy RebuildOrdinal.id id (rebuildOrder table p sequence) with
  | some key =>
      obtain ⟨hmem, hid⟩ := (find_by_eq_some (rebuild_order_nodup h p sequence)).1 hfind
      obtain ⟨entry, hentry, hp, -, heq⟩ := mem_rebuild_order.1 hmem
      have hstate : table.state id = some entry := (state_eq_some_iff h).2
        ⟨List.mem_of_getElem? hentry, heq.symm.trans hid⟩
      rw [hstate, filter_some_pos hp]
      simp only [Option.elim_some, hentry]
  | none =>
      cases hstate : (table.state id).filter p with
      | none => rfl
      | some entry =>
          obtain ⟨hsome, hp⟩ := filter_eq_some_iff.1 hstate
          obtain ⟨hmem, hid⟩ := (state_eq_some_iff h).1 hsome
          obtain ⟨ordinal, hordinal⟩ := List.mem_iff_getElem?.1 hmem
          refine absurd ?_ (find_by_none.1 hfind)
          exact List.mem_map.2 ⟨⟨sequence entry, entry.id, ordinal⟩,
            mem_rebuild_order.2 ⟨entry, hordinal, hp, rfl, rfl⟩, hid⟩

/-! ## What a graph binds -/

/-- A graph binds exactly the points of a projection, each to its prepared vector. -/
def Binds (dense : Int64 → Option (List F32)) (vectors : Int64 → Option V) : Prop :=
  ∀ id, (dense id).map prepare = (vectors id).map .ok

variable {prepare} {dense : Int64 → Option (List F32)} {vectors : Int64 → Option V}

theorem binds_update (h : Binds prepare dense vectors) (id : Int64) {values : List F32} {vector : V}
    (hprepare : prepare values = .ok vector) :
    Binds prepare (update dense id (some values))
      (update vectors id (some vector)) := by
  intro other
  by_cases heq : other = id
  · rw [heq, update_self, update_self, map_some, map_some, hprepare]
  · rw [update_of_ne heq, update_of_ne heq]
    exact h other

theorem binds_remove (h : Binds prepare dense vectors) (id : Int64) :
    Binds prepare (update dense id none) (update vectors id none) := by
  intro other
  by_cases heq : other = id
  · rw [heq, update_self, update_self]
    rfl
  · rw [update_of_ne heq, update_of_ne heq]
    exact h other

theorem binds_is_some (h : Binds prepare dense vectors) (id : Int64) :
    (vectors id).isSome = (dense id).isSome := by
  have := congrArg Option.isSome (h id)
  simpa using this.symm

/-- Inserting slot after slot binds what their entries hold. -/
theorem add_each_ok {index next : HnswIndex V} {keys : List RebuildOrdinal}
    (hwf : index.WellFormed) (hbinds : Binds prepare dense index.vector?)
    (hrun : addEach prepare table index keys = .ok next) :
    next.WellFormed ∧ Binds prepare (keys.foldl (fun f key => update f key.id
      ((table.entries[key.ordinal]?).map (·.values))) dense) next.vector? := by
  induction keys generalizing index dense with
  | nil =>
      obtain rfl := pure_ok.1 hrun
      exact ⟨hwf, hbinds⟩
  | cons key keys ih =>
      rw [addEach] at hrun
      cases hentry : table.entries[key.ordinal]? with
      | none => simp [hentry, throw, throwThe, MonadExceptOf.throw] at hrun
      | some entry =>
          simp only [hentry, bind_ok, exists_unit, require_ok] at hrun
          obtain ⟨⟨-, -, hid⟩, middle, hadd, hrest⟩ := hrun
          obtain ⟨hmiddle, vector, hprepare, hvector⟩ := HnswIndex.add_ok hwf hadd
          have hbound := hvector ▸ binds_update hbinds entry.id hprepare
          rw [List.foldl_cons, hentry, map_some, ← hid]
          exact ih hmiddle hbound hrest

theorem build_hnsw_ok (h : table.WellFormed) {index : HnswIndex V}
    (hrun : buildHnsw prepare table = .ok index) :
    index.WellFormed ∧ Binds prepare table.dense index.vector? := by
  have hempty : Binds prepare (fun _ => none) (HnswIndex.empty : HnswIndex V).vector? := by
    intro id
    simp [HnswIndex.vector?, HnswIndex.currentSlot, HnswIndex.empty]
  obtain ⟨hwf, hbinds⟩ := add_each_ok HnswIndex.empty_well_formed hempty hrun
  refine ⟨hwf, fun id => ?_⟩
  rw [← hbinds id]
  refine congrArg (Option.map prepare) ?_
  rw [fold_update _ (rebuild_order_nodup h _ _), find_rebuild_order h _ _ id none
    (fun entry => entry.map (·.values))]
  unfold dense MemTableEntry.denseValue
  cases table.state id with
  | none => rfl
  | some entry =>
      rw [Option.bind_some, filter_some]
      split <;> rfl

/-- What a journal entry asks of the graph. -/
def tailValue (entry : MemTableEntry) : Option (List F32) :=
  if entry.tombstone then none else some entry.values

/-- A journal over a projection. -/
def caughtUp (tail : MemTable) (dense : Int64 → Option (List F32)) : Int64 → Option (List F32) :=
  fun id => (tail.state id).elim (dense id) tailValue

theorem catch_up_each_ok {tail : MemTable} {candidate next : SegmentedHnsw V}
    {keys : List RebuildOrdinal}
    (hkeys : ∀ key ∈ keys, ∀ entry, tail.entries[key.ordinal]? = some entry → entry.id = key.id)
    (hwf : candidate.WellFormed) (hbinds : Binds prepare dense candidate.vector?)
    (hrun : HnswRebuild.catchUpEach prepare tail candidate keys = .ok next) :
    next.WellFormed ∧ Binds prepare (keys.foldl (fun f key => update f key.id
      ((tail.entries[key.ordinal]?).bind tailValue)) dense) next.vector? := by
  induction keys generalizing candidate dense with
  | nil =>
      obtain rfl := pure_ok.1 hrun
      exact ⟨hwf, hbinds⟩
  | cons key keys ih =>
      rw [HnswRebuild.catchUpEach] at hrun
      cases hentry : tail.entries[key.ordinal]? with
      | none => simp [hentry, throw, throwThe, MonadExceptOf.throw] at hrun
      | some entry =>
          simp only [hentry, bind_ok] at hrun
          obtain ⟨middle, hstep, hrest⟩ := hrun
          have hid := hkeys key List.mem_cons_self entry hentry
          have hmiddle : middle.WellFormed ∧ Binds prepare
              (update dense key.id (tailValue entry)) middle.vector? := by
            unfold tailValue
            unfold HnswRebuild.catchUpOne at hstep
            split at hstep
            · rename_i htomb
              obtain rfl := pure_ok.1 hstep
              obtain ⟨hdeleted, hvector⟩ := SegmentedHnsw.delete_spec hwf entry.id
              refine ⟨hdeleted, ?_⟩
              rw [if_pos htomb, hvector, hid]
              exact binds_remove hbinds key.id
            · rename_i htomb
              obtain ⟨hupserted, vector, hprepare, hvector⟩ := SegmentedHnsw.upsert_ok hwf hstep
              refine ⟨hupserted, ?_⟩
              rw [if_neg htomb, hvector, hid]
              exact binds_update hbinds key.id hprepare
          rw [List.foldl_cons, hentry, bind_some]
          exact ih (fun k hk => hkeys k (List.mem_cons_of_mem _ hk)) hmiddle.1 hmiddle.2 hrest

/-- `catch_up` brings a graph from a projection to the projection with the journal over it. -/
theorem catch_up_ok {tail : MemTable} (htail : tail.WellFormed) {candidate next : SegmentedHnsw V}
    (hwf : candidate.WellFormed) (hbinds : Binds prepare dense candidate.vector?)
    (hrun : HnswRebuild.catchUp prepare tail candidate = .ok next) :
    next.WellFormed ∧ Binds prepare (caughtUp tail dense) next.vector? := by
  have hkeys : ∀ key ∈ rebuildOrder tail (fun _ => true) (·.sequence),
      ∀ entry, tail.entries[key.ordinal]? = some entry → entry.id = key.id := by
    intro key hkey entry hentry
    obtain ⟨other, hother, -, -, hid⟩ := mem_rebuild_order.1 hkey
    rw [hentry] at hother
    rw [hid, Option.some.inj hother]
  obtain ⟨hnext, hbound⟩ := catch_up_each_ok hkeys hwf hbinds hrun
  refine ⟨hnext, fun id => ?_⟩
  rw [← hbound id]
  refine congrArg (Option.map prepare) ?_
  rw [fold_update _ (rebuild_order_nodup htail _ _), find_rebuild_order htail _ _ id (dense id)
    (fun entry => entry.bind tailValue)]
  unfold caughtUp
  cases tail.state id with
  | none => rfl
  | some entry => rfl

/-! ## The captured projection -/

theorem dense_value_descriptor (entry : MemTableEntry) :
    entry.denseDescriptor.denseValue = entry.denseValue ∧
      tailValue entry.denseDescriptor = entry.denseValue := by
  have hfind : entry.denseDescriptor.vectors.find? (·.id = 0) =
      entry.vectors.find? (·.id = 0) := by
    unfold MemTableEntry.denseDescriptor
    cases hfind : entry.vectors.find? (·.id = 0) with
    | none => rfl
    | some field =>
        have hzero : field.id = 0 := by simpa using List.find?_some hfind
        simp [hzero]
  have hfield : entry.denseDescriptor.field? 0 = entry.field? 0 := by
    unfold MemTableEntry.field?
    rw [hfind]
  have hvalues : entry.denseDescriptor.values = entry.values := by
    unfold MemTableEntry.values
    rw [hfield]
  have hdense : entry.denseDescriptor.hasDense = entry.hasDense := by
    unfold MemTableEntry.hasDense
    rw [hfield]
  have htomb : entry.denseDescriptor.tombstone = (entry.tombstone || !entry.hasDense) := rfl
  unfold MemTableEntry.denseValue MemTableEntry.isDenseLive tailValue
  rw [hvalues, hdense, htomb]
  cases entry.tombstone <;> cases entry.hasDense <;> exact ⟨rfl, rfl⟩

variable {root : ReadGeneration}

/-- The descriptors of the visible dense rows have the dense projection of the shown table. -/
theorem dense_table_spec (h : root.Shows table) (htable : table.WellFormed) :
    (denseTable root).WellFormed ∧ (denseTable root).dense = table.dense := by
  have hids : (((root.rows.filter (·.hasDense)).map (·.denseDescriptor)).map (·.id)) =
      (root.rows.filter (·.hasDense)).map (·.id) := by
    rw [List.map_map]
    rfl
  have hnodup : (((root.rows.filter (·.hasDense)).map (·.denseDescriptor)).map (·.id)).Nodup := by
    rw [hids]
    exact (ReadGeneration.rows_nodup h.layered).sublist (List.filter_sublist.map _)
  obtain ⟨hwf, hstate⟩ := fold_put_spec hnodup (empty_well_formed root.config.dimension)
  refine ⟨⟨hwf.ordinals_iff, hwf.live_eq, hwf.dense_eq⟩, funext fun id => ?_⟩
  have hfind : (denseTable root).state id =
      ((table.state id).filter (·.isDenseLive)).map (·.denseDescriptor) := by
    refine (hstate id).trans ?_
    rw [show (empty root.config.dimension).state id = none by
      simp [state, slotFor, ordinalFor, empty], or_none]
    refine Option.ext fun descriptor => ?_
    show findBy MemTableEntry.id id _ = some descriptor ↔ _
    rw [find_by_eq_some hnodup, List.mem_map, map_eq_some_iff]
    constructor
    · rintro ⟨⟨entry, hentry, rfl⟩, hid⟩
      obtain ⟨hrow, hdense⟩ := List.mem_filter.1 hentry
      obtain ⟨hnewest, hlive⟩ := (ReadGeneration.mem_rows h.layered).1 hrow
      refine ⟨entry, filter_eq_some_iff.2 ⟨?_, ?_⟩, rfl⟩
      · rw [← h.newest_eq, ← show entry.id = id from hid]
        exact hnewest
      · unfold MemTableEntry.isDenseLive
        rw [hlive, hdense]
        rfl
    · rintro ⟨entry, hentry, rfl⟩
      obtain ⟨hstate, hdense⟩ := filter_eq_some_iff.1 hentry
      obtain rfl := ((state_eq_some_iff htable).1 hstate).2
      unfold MemTableEntry.isDenseLive at hdense
      rw [Bool.and_eq_true, Bool.not_eq_true'] at hdense
      rw [← h.newest_eq] at hstate
      exact ⟨⟨entry, List.mem_filter.2 ⟨(ReadGeneration.mem_rows h.layered).2
        ⟨hstate, hdense.1⟩, hdense.2⟩, rfl⟩, rfl⟩
  unfold dense
  rw [hfind]
  cases table.state id with
  | none => rfl
  | some entry =>
      rw [Option.filter_some, bind_some]
      split
      · rw [Option.map_some, bind_some]
        exact (dense_value_descriptor entry).1
      · rename_i hdense
        unfold MemTableEntry.denseValue
        rw [if_neg hdense]
        rfl

theorem dense_run_spec (h : root.Shows table) (htable : table.WellFormed) :
    (denseRun root).WellFormed ∧ (denseRun root).dense = table.dense := by
  have hflat := dense_table_spec h htable
  unfold denseRun
  split
  · rename_i layer hlayers
    split
    · have hwf := layered_forall h.layered layer (by rw [hlayers]; exact List.mem_singleton_self _)
      refine ⟨hwf.1, funext fun id => ?_⟩
      have hnewest := h.newest_eq id
      rw [hlayers] at hnewest
      unfold dense
      rw [← hnewest]
      rfl
    · exact hflat
  · exact hflat

/-! ## The journal -/

variable {job : HnswRebuild} {ids : List Int64}

namespace HnswRebuild

/-- What a point of a batch does to a journal that stays valid. -/
structure Recorded (job : HnswRebuild) (table : MemTable) (id : Int64) (tail : MemTable) :
    Prop where
  entry_some : ∃ entry, table.state id = some entry ∧
    (tail.state id = some entry.denseDescriptor ∨ tail.state id = job.tail.state id ∧
      (entry.denseSequence ≤ job.tailStartSequence ∨
        ∃ previous, job.tail.state id = some previous ∧ previous.sequence = entry.denseSequence))

theorem record_one_ok {id : Int64} (hwf : job.tail.WellFormed) (htable : table.WellFormed)
    (hok : (job.recordOne table id).invalid = false) :
    (job.recordOne table id).tail.WellFormed ∧
      job.Recorded table id (job.recordOne table id).tail ∧
      (∀ other ≠ id, (job.recordOne table id).tail.state other = job.tail.state other) ∧
      (job.recordOne table id).root = job.root ∧
      (job.recordOne table id).tailStartSequence = job.tailStartSequence := by
  unfold recordOne at hok ⊢
  cases hentry : table.state id with
  | none => simp [hentry] at hok
  | some entry =>
      have hid := ((state_eq_some_iff htable).1 hentry).2
      obtain ⟨hput, hstate⟩ := put_spec hwf entry.denseDescriptor
      have hself : (job.tail.put entry.denseDescriptor).state id = some entry.denseDescriptor := by
        rw [hstate, show entry.denseDescriptor.id = id from hid, update_self]
      have hother : ∀ other ≠ id,
          (job.tail.put entry.denseDescriptor).state other = job.tail.state other := by
        intro other hne
        rw [hstate, show entry.denseDescriptor.id = id from hid, update_of_ne hne]
      simp only [hentry] at hok ⊢
      split
      · rename_i hle
        exact ⟨hwf, ⟨entry, hentry, .inr ⟨rfl, .inl hle⟩⟩, fun _ _ => rfl, rfl, rfl⟩
      · rename_i hgt
        rw [if_neg hgt] at hok
        cases hprevious : job.tail.state id with
        | none =>
            simp only [hprevious] at hok ⊢
            split at hok
            · simp at hok
            · rename_i hroom
              rw [if_neg hroom]
              exact ⟨hput, ⟨entry, hentry, .inl hself⟩, hother, rfl, rfl⟩
        | some previous =>
            simp only
            split
            · rename_i hsame
              exact ⟨hwf, ⟨entry, hentry, .inr ⟨rfl, .inr ⟨previous, hprevious, hsame⟩⟩⟩,
                fun _ _ => rfl, rfl, rfl⟩
            · exact ⟨hput, ⟨entry, hentry, .inl hself⟩, hother, rfl, rfl⟩

theorem record_each_ok (hwf : job.tail.WellFormed) (htable : table.WellFormed)
    (hnodup : ids.Nodup) (hok : (job.recordEach table ids).invalid = false) :
    (job.recordEach table ids).tail.WellFormed ∧
      (∀ id ∈ ids, job.Recorded table id (job.recordEach table ids).tail) ∧
      (∀ id ∉ ids, (job.recordEach table ids).tail.state id = job.tail.state id) ∧
      (job.recordEach table ids).root = job.root ∧
      (job.recordEach table ids).tailStartSequence = job.tailStartSequence := by
  induction ids generalizing job with
  | nil => exact ⟨hwf, nofun, fun _ _ => rfl, rfl, rfl⟩
  | cons id ids ih =>
      obtain ⟨hfresh, hrest⟩ := List.nodup_cons.1 hnodup
      rw [recordEach] at hok ⊢
      split at hok
      · rename_i hinvalid
        rw [hinvalid] at hok
        cases hok
      · rename_i hvalid
        rw [if_neg hvalid]
        obtain ⟨hone, hrecorded, hother, hroot, hstart⟩ :=
          record_one_ok hwf htable (by simpa using hvalid)
        obtain ⟨hall, heach, hkeep, hroot', hstart'⟩ := ih hone hrest hok
        refine ⟨hall, ?_, fun other hnot => ?_, hroot'.trans hroot, hstart'.trans hstart⟩
        · intro other hmem
          rcases List.mem_cons.1 hmem with rfl | hmem
          · obtain ⟨entry, hentry, hcases⟩ := hrecorded.entry_some
            refine ⟨entry, hentry, ?_⟩
            rw [hkeep other hfresh]
            exact hcases
          · have hne : other ≠ id := fun heq => hfresh (heq ▸ hmem)
            obtain ⟨entry, hentry, hcases⟩ := (heach other hmem).entry_some
            rw [hother other hne, hstart] at hcases
            exact ⟨entry, hentry, hcases⟩
        · rw [List.mem_cons, not_or] at hnot
          rw [hkeep other hnot.2, hother other hnot.1]

end HnswRebuild

/-- A new entry either is newer than a sequence for the graph, or changes nothing for it. -/
def DenseMoved (sequence : Nat) (old : Option MemTableEntry) (new : MemTableEntry) : Prop :=
  sequence < new.denseSequence ∨ new.denseValue = old.bind (·.denseValue)

/-- No state of a table is newer than a sequence. -/
def SequencesLe (table : MemTable) (sequence : Nat) : Prop :=
  ∀ id entry, table.state id = some entry →
    entry.sequence ≤ sequence ∧ entry.documentSequence ≤ sequence

/-- A committed batch: the points it may change, and how it moves them. -/
structure Commits (sequence : Nat) (before after : MemTable) (ids : List Int64) (last : Nat) :
    Prop where
  sequence_le : sequence ≤ last
  ids_nodup : ids.Nodup
  other_eq : ∀ id ∉ ids, after.state id = before.state id
  moved : ∀ id ∈ ids, ∀ entry, after.state id = some entry →
    DenseMoved sequence (before.state id) entry
  last_ge : SequencesLe after last

/-- A journal over the projection it started from gives the table's. -/
structure HnswRebuild.Journals (job : HnswRebuild) (table : MemTable)
    (dense : Int64 → Option (List F32)) (sequence : Nat) : Prop where
  sequence_eq : job.sequence = sequence
  start_le : job.tailStartSequence ≤ sequence
  tail_wf : job.tail.WellFormed
  tail_le : ∀ id entry, job.tail.state id = some entry → entry.sequence ≤ sequence
  current : caughtUp job.tail dense = table.dense

theorem dense_sequence_le {entry : MemTableEntry} {sequence : Nat}
    (h : entry.sequence ≤ sequence ∧ entry.documentSequence ≤ sequence) :
    entry.denseSequence ≤ sequence := by
  unfold MemTableEntry.denseSequence
  split
  · exact h.2
  · exact h.1

/-- A recorded batch keeps a valid journal right. -/
theorem record_journals {before after : MemTable} {sequence last : Nat}
    (h : job.Journals before dense sequence) (hwf : after.WellFormed)
    (hcommits : Commits sequence before after ids last)
    (hok : (job.record after ids last).invalid = false) :
    (job.record after ids last).Journals after dense last ∧
      (job.record after ids last).root = job.root := by
  unfold HnswRebuild.record at hok ⊢
  split at hok
  · rename_i hinvalid
    rw [hinvalid] at hok
    cases hok
  · rename_i hvalid
    rw [if_neg hvalid]
    simp only at hok ⊢
    split at hok
    · rename_i hinvalid
      rw [hinvalid] at hok
      cases hok
    · rename_i hnext
      rw [if_neg hnext]
      obtain ⟨htail, heach, hother, hroot, hstart⟩ := HnswRebuild.record_each_ok h.tail_wf hwf
        hcommits.ids_nodup (by simpa using hnext)
      have hle := hcommits.sequence_le
      refine ⟨⟨rfl, ?_, htail, fun id entry hentry => ?_, funext fun id => ?_⟩, hroot⟩
      · show (job.recordEach after ids).tailStartSequence ≤ last
        rw [hstart]
        exact h.start_le.trans hle
      · -- A journal entry is an old one, or the descriptor of a committed state.
        replace hentry : (job.recordEach after ids).tail.state id = some entry := hentry
        by_cases hid : id ∈ ids
        · obtain ⟨new, hnew, hcases⟩ := (heach id hid).entry_some
          rcases hcases with hself | ⟨hsame, -⟩
          · rw [hself] at hentry
            rw [← Option.some.inj hentry]
            exact dense_sequence_le (hcommits.last_ge id new hnew)
          · exact (h.tail_le id entry (hsame ▸ hentry)).trans hle
        · exact (h.tail_le id entry (hother id hid ▸ hentry)).trans hle
      · have hbefore := congrFun h.current id
        show caughtUp (job.recordEach after ids).tail dense id = after.dense id
        by_cases hid : id ∈ ids
        · obtain ⟨new, hnew, hcases⟩ := (heach id hid).entry_some
          have hafter : after.dense id = new.denseValue := by
            rw [MemTable.dense, hnew, bind_some]
          rcases hcases with hself | ⟨hsame, hskip⟩
          · rw [caughtUp, hself, hafter]
            exact (dense_value_descriptor new).2
          · -- A skipped state is not newer than the journal, so it changed nothing.
            have hnot : ¬ sequence < new.denseSequence := by
              rcases hskip with hstart | ⟨previous, hprevious, heq⟩
              · have := h.start_le
                omega
              · have := h.tail_le id previous hprevious
                omega
            have hkept := (hcommits.moved id hid new hnew).resolve_left hnot
            rw [caughtUp, hsame, hafter, hkept]
            exact hbefore
        · rw [caughtUp, hother id hid, MemTable.dense, hcommits.other_eq id hid]
          exact hbefore

/-- A changed point has no room in the journal. -/
def HnswRebuild.Overflows (job : HnswRebuild) (table : MemTable) (id : Int64) : Prop :=
  ∃ entry, table.state id = some entry ∧ job.tailStartSequence < entry.denseSequence ∧
    job.tail.state id = none ∧ job.tail.slotCount = hnswRebuildTailLimit

/-- At some point of a batch the journal overflows, or misses the accepted point. -/
def HnswRebuild.JournalFails (job : HnswRebuild) (table : MemTable) : List Int64 → Prop
  | [] => False
  | id :: ids => table.state id = none ∨ job.Overflows table id ∨
      (job.recordOne table id).JournalFails table ids

theorem record_each_fails (h : job.JournalFails table ids) :
    (job.recordEach table ids).invalid = true := by
  induction ids generalizing job with
  | nil => exact h.elim
  | cons id ids ih =>
      rw [HnswRebuild.recordEach]
      have hfirst : (table.state id = none ∨ job.Overflows table id) →
          (job.recordOne table id).invalid = true := by
        unfold HnswRebuild.recordOne
        rintro (hnone | ⟨entry, hentry, hlt, htail, hfull⟩)
        · simp only [hnone]
        · simp only [hentry, htail, if_neg (Nat.not_le.2 hlt), if_pos hfull]
      rcases h with hnone | hfull | hrest
      · rw [if_pos (hfirst (.inl hnone))]
        exact hfirst (.inl hnone)
      · rw [if_pos (hfirst (.inr hfull))]
        exact hfirst (.inr hfull)
      · split
        · assumption
        · exact ih hrest

theorem record_fails (sequence : Nat) (h : job.JournalFails table ids) :
    (job.record table ids sequence).invalid = true := by
  unfold HnswRebuild.record
  split
  · assumption
  · simp only [record_each_fails h, if_true]

theorem record_invalid (h : job.invalid = true) (table : MemTable) (ids : List Int64)
    (sequence : Nat) : job.record table ids sequence = job := by
  unfold HnswRebuild.record
  rw [if_pos h]

theorem start_journals {sequence : Nat} (hsequence : root.sequence = sequence) :
    (HnswRebuild.start root).Journals table table.dense sequence where
  sequence_eq := hsequence
  start_le := hsequence.le
  tail_wf := empty_well_formed _
  tail_le id entry hentry := by
    simp [HnswRebuild.start, state, slotFor, ordinalFor,
      empty] at hentry
  current := by
    funext id
    simp [caughtUp, HnswRebuild.start, state, slotFor, ordinalFor,
      empty]

theorem take_tail_journals {sequence : Nat} (h : job.Journals table dense sequence) :
    job.takeTail.2.Journals table table.dense sequence where
  sequence_eq := h.sequence_eq
  start_le := h.sequence_eq.le
  tail_wf := empty_well_formed _
  tail_le id entry hentry := by
    simp [HnswRebuild.takeTail, state, slotFor, ordinalFor,
      empty] at hentry
  current := by
    funext id
    simp [caughtUp, HnswRebuild.takeTail, state, slotFor, ordinalFor,
      empty]

end Index

end Akasha

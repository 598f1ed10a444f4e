import Akasha.Document.PointState
import Akasha.Lib.Slots
import Akasha.Storage.MemTable
import Akasha.Storage.PointWal
import Mathlib.Data.List.Sort

/-!
# The point authority

`PointTable` keeps the newest complete version of each point in a stable slot. A batch is prepared
on the points it is about, in order, and published as a whole once its log record is written.
`PointTable.Valid` is what the constructor checks and every batch keeps.
-/

namespace Akasha.Storage

open Lib

/-- The sequences of an accepted batch. -/
structure PointCommit where
  firstSequence : Nat
  lastSequence : Nat
  mutationCount : Nat
deriving DecidableEq, Repr

/-- The versions of points in slot order, one slot for each identifier. -/
structure PointTable where
  catalog : FieldCatalog
  points : List PointState
  lastSequence : Nat
  checkpointSequence : Nat
  liveCount : Nat
  writeFailed : Bool

/-- `from_point`: the entry that shows an accepted point to readers. -/
def MemTableEntry.fromPoint (point : PointState) : MemTableEntry where
  id := point.id
  sequence := point.sequence
  documentSequence := point.documentSequence
  tombstone := point.tombstone
  vectors := point.fields
  payload := point.payload.getD []

namespace PointTable

/-- The version of a point, tombstones included. -/
def point? (table : PointTable) (id : Int64) : Option PointState :=
  findBy PointState.id id table.points

/-- The constructor's loop over checkpoint points. -/
def checkPoints (catalog : FieldCatalog) (checkpointSequence : Nat) (ids : List Int64) :
    List PointState → Except String Unit
  | [] => pure ()
  | point :: points => do
      point.validate catalog
      require (point.sequence ≤ checkpointSequence ∧ point.id ∉ ids)
        "invalid checkpoint point sequence or duplicate ID"
      checkPoints catalog checkpointSequence (ids ++ [point.id]) points

/-- `PointTable(catalog, checkpoint_sequence, points)`. The catalog carries its own check. -/
def create (catalog : FieldCatalog) (checkpointSequence : Nat) (points : List PointState) :
    Except String PointTable := do
  require (catalog.formatVersion = 2 ∧ catalog.legacyCutoverSequence ≤ checkpointSequence)
    "point authority requires a catalog and valid checkpoint"
  checkPoints catalog checkpointSequence [] points
  pure {
    catalog := catalog
    points := points
    lastSequence := checkpointSequence
    checkpointSequence := checkpointSequence
    liveCount := points.countP (!·.tombstone)
    writeFailed := false }

/-- `entry`: the accepted version of a point. -/
def entry (table : PointTable) (id : Int64) : Except String PointState :=
  match table.point? id with
  | some point => pure point
  | none => throw "accepted point is absent"

/-- `get`: the version of a live point. -/
def get (table : PointTable) (id : Int64) : Option PointState :=
  (table.point? id).filter (!·.tombstone)

/-- The dimension of the default dense field. -/
def dimension (table : PointTable) : Nat :=
  ((table.catalog.fields.head?).map (·.dimension)).getD 0

/-- `read_projection`: a reader's table of all versions, in slot order. -/
def readProjection (table : PointTable) : MemTable :=
  { (table.points.map MemTableEntry.fromPoint).foldl MemTable.put (.empty table.dimension) with
    lastSequence := table.lastSequence }

/-- The versions that a condition selects, by ascending identifier. -/
def selected (table : PointTable) (p : PointState → Bool) : List PointState :=
  (((table.points.filter p).map (·.id)).mergeSort (· ≤ ·)).filterMap table.point?

/-- `live_points`: what a base segment holds. -/
def livePoints (table : PointTable) : List PointState :=
  table.selected (!·.tombstone)

/-- `points_after`: what a delta segment holds. -/
def pointsAfter (table : PointTable) (sequence : Nat) : List PointState :=
  table.selected (sequence < ·.sequence)

/-- The loop of `_prepare`: a point that the batch has changed already is taken from the batch. -/
def prepareFrom (table : PointTable) (states : List PointState) (sequence : Nat) :
    List PointMutation → Except String (List PointState)
  | [] => pure states
  | mutation :: mutations => do
      let previous := (findBy PointState.id mutation.id states).or (table.point? mutation.id)
      let next ← applyPointMutation previous mutation sequence table.catalog
      prepareFrom table (putBy PointState.id states next) (sequence + 1) mutations

/-- `_prepare`: the versions that a batch leaves, in the order in which it meets the points. -/
def prepare (table : PointTable) (first : Nat) (mutations : List PointMutation) :
    Except String (List PointState) := do
  require (mutations.length ≠ 0 ∧ mutations.length ≤ maxPointBatchMutations ∧
    table.lastSequence < first ∧ first + (mutations.length - 1) < 2 ^ 64)
    "invalid point batch sequence or count"
  table.prepareFrom [] first mutations

/-- One step of `_publish`. -/
def publishPoint (table : PointTable) (point : PointState) : PointTable :=
  { table with
    points := putBy PointState.id table.points point
    liveCount :=
      match table.point? point.id with
      | none => if point.tombstone then table.liveCount else table.liveCount + 1
      | some old =>
          if old.tombstone = point.tombstone then table.liveCount
          else if point.tombstone then table.liveCount - 1
          else table.liveCount + 1 }

/-- `_publish`. -/
def publish (table : PointTable) (states : List PointState) (last : Nat) : PointTable :=
  { states.foldl publishPoint table with lastSequence := last }

/-- The table's side of `append_batch`: `write` is the outcome of encoding the batch at its first
sequence, and `append` that of appending the bytes to the log. An uncertain append blocks later
writes. -/
def appendBatch (table : PointTable) (mutations : List PointMutation)
    (write : Nat → Except String Unit) (append : Except String Unit) :
    PointTable × Except String PointCommit :=
  let first := table.lastSequence + 1
  let last := table.lastSequence + mutations.length
  let prepared : Except String (List PointState) := do
    require (¬ table.writeFailed) "point writer requires recovery after failed WAL append"
    require (mutations.length ≠ 0 ∧ mutations.length ≤ maxPointBatchMutations)
      "point batch count exceeds bounds"
    require (table.lastSequence + mutations.length < 2 ^ 64) "point sequence exhausted"
    let states ← table.prepare first mutations
    write first
    pure states
  match prepared with
  | .error e => (table, .error e)
  | .ok states =>
      match append with
      | .error e => ({ table with writeFailed := true }, .error e)
      | .ok () => (table.publish states last, .ok ⟨first, last, mutations.length⟩)

/-! ## A batch as the sequence of its mutations -/

/-- The newest versions of points. -/
abbrev PointVersions := Int64 → Option PointState

/-- The mutations of a batch one after another, the first at `sequence`. -/
def applyMutations (catalog : FieldCatalog) (points : PointVersions) (sequence : Nat) :
    List PointMutation → Except String PointVersions
  | [] => pure points
  | mutation :: mutations => do
      let next ← applyPointMutation (points mutation.id) mutation sequence catalog
      applyMutations catalog (Function.update points mutation.id (some next)) (sequence + 1)
        mutations

/-- The versions of a batch in front of the table's. -/
def overlay (table : PointTable) (states : List PointState) : PointVersions :=
  fun id => (findBy PointState.id id states).or (table.point? id)

variable {table : PointTable}

theorem overlay_put (states : List PointState) (next : PointState) :
    table.overlay (putBy PointState.id states next) =
      Function.update (table.overlay states) next.id (some next) := by
  funext id
  rw [overlay, find_put_by, Function.update_apply]
  split
  · rfl
  · rfl

variable {mutations : List PointMutation}

theorem prepare_from_ok {states out : List PointState} {sequence : Nat}
    (hnodup : (states.map (·.id)).Nodup)
    (h : table.prepareFrom states sequence mutations = .ok out) :
    applyMutations table.catalog (table.overlay states) sequence mutations =
        .ok (table.overlay out) ∧ (out.map (·.id)).Nodup := by
  induction mutations generalizing states sequence with
  | nil =>
      obtain rfl := pure_ok.1 h
      exact ⟨rfl, hnodup⟩
  | cons mutation mutations ih =>
      simp only [prepareFrom, bind_ok] at h
      obtain ⟨next, hnext, hrest⟩ := h
      have hid := (apply_point_mutation_ok hnext).id_eq
      obtain ⟨happly, hout⟩ := ih (put_by_nodup hnodup next) hrest
      rw [overlay_put, hid] at happly
      refine ⟨?_, hout⟩
      simp only [applyMutations, bind_ok]
      exact ⟨next, hnext, happly⟩

variable {catalog : FieldCatalog}

theorem apply_mutations_inv {points out : PointVersions} {sequence : Nat}
    (I : PointVersions → Nat → Prop) (h₀ : I points sequence)
    (hstep : ∀ points sequence, ∀ mutation ∈ mutations, ∀ next, I points sequence →
      Mutated catalog (points mutation.id) mutation sequence next →
      I (Function.update points mutation.id (some next)) (sequence + 1))
    (h : applyMutations catalog points sequence mutations = .ok out) :
    I out (sequence + mutations.length) := by
  induction mutations generalizing points sequence with
  | nil =>
      obtain rfl := pure_ok.1 h
      exact h₀
  | cons mutation mutations ih =>
      simp only [applyMutations, bind_ok] at h
      obtain ⟨next, hnext, hrest⟩ := h
      have := ih (hstep _ _ _ List.mem_cons_self _ h₀ (apply_point_mutation_ok hnext))
        (fun points sequence other hother => hstep points sequence other
          (List.mem_cons_of_mem _ hother)) hrest
      rwa [List.length_cons, ← Nat.add_assoc, Nat.add_right_comm]

/-! ## What the table keeps -/

/-- What a table says of its versions: each is valid, is stored under its identifier and has a
sequence the table has reached. -/
def VersionsValid (catalog : FieldCatalog) (points : PointVersions) (last : Nat) : Prop :=
  ∀ id point, points id = some point →
    point.id = id ∧ ValidPoint catalog point ∧ point.sequence ≤ last

/-- The checks of the constructor, as an invariant. -/
structure Valid (table : PointTable) : Prop where
  version_eq : table.catalog.formatVersion = 2
  cutover_le : table.catalog.legacyCutoverSequence ≤ table.lastSequence
  checkpoint_le : table.checkpointSequence ≤ table.lastSequence
  ids_nodup : (table.points.map (·.id)).Nodup
  versions : VersionsValid table.catalog table.point? table.lastSequence
  live_eq : table.liveCount = table.points.countP (!·.tombstone)

theorem check_points_ok {checkpoint : Nat} {ids : List Int64} {points : List PointState} :
    checkPoints catalog checkpoint ids points = .ok () ↔
      (∀ point ∈ points, ValidPoint catalog point ∧ point.sequence ≤ checkpoint) ∧
        (∀ point ∈ points, point.id ∉ ids) ∧ (points.map (·.id)).Nodup := by
  induction points generalizing ids with
  | nil => simp [checkPoints, pure_ok]
  | cons point points ih =>
      simp only [checkPoints, bind_ok, exists_unit, require_ok, point_validate_ok, ih,
        List.forall_mem_cons, List.map_cons, List.nodup_cons, List.mem_append,
        List.mem_singleton, not_or, List.mem_map, not_exists, not_and]
      constructor
      · rintro ⟨hvalid, ⟨hle, hfresh⟩, hrest, hother, hnodup⟩
        exact ⟨⟨⟨hvalid, hle⟩, hrest⟩, ⟨hfresh, fun p hp => (hother p hp).1⟩,
          fun p hp => (hother p hp).2, hnodup⟩
      · rintro ⟨⟨⟨hvalid, hle⟩, hrest⟩, ⟨hfresh, hold⟩, hdiff, hnodup⟩
        exact ⟨hvalid, ⟨hle, hfresh⟩, hrest, fun p hp => ⟨hold p hp, hdiff p hp⟩, hnodup⟩

theorem create_ok {checkpoint : Nat} {points : List PointState}
    (h : create catalog checkpoint points = .ok table) :
    table.Valid ∧ table.catalog = catalog ∧ table.points = points ∧
      table.lastSequence = checkpoint ∧ table.checkpointSequence = checkpoint ∧
      table.writeFailed = false := by
  unfold create at h
  simp only [bind_ok, exists_unit, require_ok, pure_ok, check_points_ok] at h
  obtain ⟨⟨hversion, hcutover⟩, ⟨hvalid, -, hnodup⟩, rfl⟩ := h
  refine ⟨⟨hversion, hcutover, le_rfl, hnodup, fun id point hpoint => ?_, rfl⟩, rfl, rfl, rfl, rfl,
    rfl⟩
  obtain ⟨hmem, hid⟩ := (find_by_eq_some hnodup).1 hpoint
  exact ⟨hid, hvalid point hmem⟩

theorem publish_point_spec (hnodup : (table.points.map (·.id)).Nodup)
    (hlive : table.liveCount = table.points.countP (!·.tombstone)) (point : PointState) :
    ((table.publishPoint point).points.map (·.id)).Nodup ∧
      (table.publishPoint point).liveCount =
        (table.publishPoint point).points.countP (!·.tombstone) := by
  refine ⟨put_by_nodup hnodup point, ?_⟩
  have hcount := count_put_by PointState.id table.points point (!·.tombstone)
  show _ = (putBy PointState.id table.points point).countP _
  unfold publishPoint point?
  cases hold : findBy PointState.id point.id table.points with
  | none =>
      rw [hold] at hcount
      cases hpoint : point.tombstone <;> simp [hpoint] at hcount ⊢ <;> omega
  | some old =>
      rw [hold] at hcount
      cases hpoint : point.tombstone <;> cases holdt : old.tombstone <;>
        simp [hpoint, holdt] at hcount ⊢ <;> omega

theorem fold_publish_spec (states : List PointState) (hnodup : (table.points.map (·.id)).Nodup)
    (hlive : table.liveCount = table.points.countP (!·.tombstone)) :
    (states.foldl publishPoint table).points = states.foldl (putBy PointState.id) table.points ∧
      ((states.foldl publishPoint table).points.map (·.id)).Nodup ∧
      (states.foldl publishPoint table).liveCount =
        (states.foldl publishPoint table).points.countP (!·.tombstone) ∧
      (states.foldl publishPoint table).catalog = table.catalog ∧
      (states.foldl publishPoint table).checkpointSequence = table.checkpointSequence ∧
      (states.foldl publishPoint table).writeFailed = table.writeFailed := by
  induction states generalizing table with
  | nil => exact ⟨rfl, hnodup, hlive, rfl, rfl, rfl⟩
  | cons point states ih =>
      obtain ⟨hids, hcount⟩ := publish_point_spec hnodup hlive point
      exact ih hids hcount

/-- The versions after a batch are those that its mutations leave one after another. -/
structure Applied (before : PointTable) (first : Nat) (mutations : List PointMutation)
    (after : PointTable) : Prop where
  catalog_eq : after.catalog = before.catalog
  checkpoint_eq : after.checkpointSequence = before.checkpointSequence
  failed_eq : after.writeFailed = before.writeFailed
  count_pos : mutations.length ≠ 0
  count_le : mutations.length ≤ maxPointBatchMutations
  first_gt : before.lastSequence < first
  last_eq : after.lastSequence = first + (mutations.length - 1)
  last_lt : first + (mutations.length - 1) < 2 ^ 64
  applied : applyMutations before.catalog before.point? first mutations = .ok after.point?

/-- A batch prepared on a valid table and published. -/
theorem publish_prepared (hvalid : table.Valid) {first : Nat} {states : List PointState}
    (h : table.prepare first mutations = .ok states) :
    table.Applied first mutations (table.publish states (first + (mutations.length - 1))) ∧
      (table.publish states (first + (mutations.length - 1))).Valid := by
  unfold prepare at h
  simp only [bind_ok, exists_unit, require_ok] at h
  obtain ⟨⟨hpos, hle, hfirst, hlast⟩, hstates⟩ := h
  obtain ⟨happly, hnodup⟩ := prepare_from_ok (by exact List.nodup_nil) hstates
  obtain ⟨hpoints, hids, hlive, hcatalog, hcheckpoint, hfailed⟩ :=
    fold_publish_spec states hvalid.ids_nodup hvalid.live_eq
  have hpoint : (table.publish states (first + (mutations.length - 1))).point? =
      table.overlay states := by
    funext id
    unfold point? publish
    simp only [hpoints]
    exact find_fold_put states hnodup id
  have hversions : VersionsValid table.catalog (table.overlay states)
      (first + mutations.length - 1) ∧ 0 < first + mutations.length := by
    refine apply_mutations_inv
      (fun points sequence => VersionsValid table.catalog points (sequence - 1) ∧ 0 < sequence)
      ⟨fun id point hpoint => ?_, by omega⟩ ?_ happly
    · obtain ⟨hid, hok, hsequence⟩ := hvalid.versions id point hpoint
      exact ⟨hid, hok, by omega⟩
    · rintro points sequence mutation - next ⟨hpoints, hpos⟩ hmutated
      refine ⟨fun id point hpoint => ?_, by omega⟩
      rw [Function.update_apply] at hpoint
      split at hpoint
      · rename_i hid
        obtain rfl := Option.some.inj hpoint
        refine ⟨hmutated.id_eq.trans hid.symm, mutated_valid (fun old hold =>
          (hpoints mutation.id old hold).2.1) hmutated, ?_⟩
        rw [hmutated.sequence_eq]
        omega
      · obtain ⟨hid, hok, hsequence⟩ := hpoints id point hpoint
        exact ⟨hid, hok, by omega⟩
  have hbound : first + mutations.length - 1 = first + (mutations.length - 1) := by omega
  refine ⟨⟨hcatalog, hcheckpoint, hfailed, hpos, hle, hfirst, rfl, hlast, hpoint ▸ happly⟩, ?_⟩
  refine ⟨?_, ?_, ?_, hids, ?_, hlive⟩
  · show (states.foldl publishPoint table).catalog.formatVersion = 2
    rw [hcatalog]
    exact hvalid.version_eq
  · show (states.foldl publishPoint table).catalog.legacyCutoverSequence ≤ _
    rw [hcatalog]
    have := hvalid.cutover_le
    show _ ≤ first + (mutations.length - 1)
    omega
  · show (states.foldl publishPoint table).checkpointSequence ≤ first + (mutations.length - 1)
    rw [hcheckpoint]
    have := hvalid.checkpoint_le
    omega
  · show VersionsValid (states.foldl publishPoint table).catalog _
      (first + (mutations.length - 1))
    rw [hcatalog, hpoint, ← hbound]
    exact hversions.1

/-- `append_batch`: an accepted batch is applied as a whole; any other outcome keeps the points. -/
theorem append_batch_ok (hvalid : table.Valid) {write : Nat → Except String Unit}
    {append : Except String Unit} {next : PointTable} {commit : PointCommit}
    (h : table.appendBatch mutations write append = (next, .ok commit)) :
    table.Applied (table.lastSequence + 1) mutations next ∧ next.Valid ∧
      write (table.lastSequence + 1) = .ok () ∧ append = .ok () ∧
      commit = ⟨table.lastSequence + 1, next.lastSequence, mutations.length⟩ := by
  unfold appendBatch at h
  simp only at h
  split at h
  · cases (Prod.mk.injEq _ _ _ _ ▸ h).2
  · rename_i states hprepared
    simp only [bind_ok, exists_unit, require_ok, pure_ok] at hprepared
    obtain ⟨-, ⟨hpos, -⟩, -, prepared, hprepare, hwrite, rfl⟩ := hprepared
    split at h
    · cases (Prod.mk.injEq _ _ _ _ ▸ h).2
    · obtain ⟨rfl, hcommit⟩ := Prod.mk.inj h
      have hlast : table.lastSequence + mutations.length =
          table.lastSequence + 1 + (mutations.length - 1) := by omega
      rw [hlast] at hcommit ⊢
      obtain ⟨happlied, hnext⟩ := publish_prepared hvalid hprepare
      exact ⟨happlied, hnext, hwrite, rfl, (Except.ok.inj hcommit).symm⟩

end PointTable

end Akasha.Storage

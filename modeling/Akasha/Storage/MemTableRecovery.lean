import Akasha.Lib.Exec
import Akasha.Lib.SlotMap
import Akasha.Storage.MemTableSlots
import Mathlib.Data.List.MinMax

/-!
# Recovery of the table

`apply_recovered_entries` merges the entries of one segment into the table and gives all slots new
numbers. For each point the table shows the write of the largest sequence (`latest`), whether it
came from a segment or from the log, so that the order of the segments does not matter:
`last_writer_wins`.
-/

namespace Akasha.Storage

open Lib Lib.Exec List

namespace MemTable

/-! ## Merging a segment -/

/-- The checks on one recovered entry, after the identifier of the last one. -/
def checkRecovered (dimension : Nat) (previous : Option Int64) (entry : MemTableEntry) :
    Except String Unit := do
  require (∀ earlier ∈ previous, earlier < entry.id) "recovered point IDs must increase"
  require (entry.sequence ≠ 0) "recovered sequence must be positive"
  if entry.tombstone then
    require (entry.values.length = 0) "recovered tombstone cannot contain a vector"
  else
    require (entry.values.length = dimension) "recovered vector dimension does not match memtable"

/-- The first loop: an accepted entry advances the sequence, also when a later one is refused. -/
def acceptRecovered : Option Int64 → List MemTableEntry → Exec MemTable String Unit
  | _, [] => pure ()
  | previous, entry :: entries => do
      let table ← read
      lift (checkRecovered table.dimension previous entry)
      update (·.advanceSequence entry.sequence)
      acceptRecovered (some entry.id) entries

/-- The merge of two lists in the order of identifiers; of two entries of one point the newer one
is kept, and the first of two equally new ones. -/
def mergeEntries : List MemTableEntry → List MemTableEntry → List MemTableEntry
  | [], incoming => incoming
  | current, [] => current
  | current :: rest, incoming :: others =>
      if current.id < incoming.id then current :: mergeEntries rest (incoming :: others)
      else if incoming.id < current.id then incoming :: mergeEntries (current :: rest) others
      else (if current.sequence < incoming.sequence then incoming else current) ::
        mergeEntries rest others
termination_by current incoming => current.length + incoming.length

/-- The slots of entries in their order. -/
def indexEntries (entries : List MemTableEntry) : Std.ExtTreeMap Int64 Nat :=
  entries.zipIdx.foldl (fun slots (entry, ordinal) => slots.insert entry.id ordinal) ∅

/-- Replace all entries and rebuild what is derived from them. -/
def rebuild (table : MemTable) (entries : List MemTableEntry) : MemTable :=
  { table with
    entries := entries
    idOrdinals := indexEntries entries
    liveCount := entries.countP (!·.tombstone)
    denseLiveCount := entries.countP (·.isDenseLive) }

/-- `apply_recovered_entries`. -/
def applyRecoveredEntries (entries : List MemTableEntry) : Exec MemTable String Unit := do
  acceptRecovered none entries
  let table ← read
  ensure ((table.entries.map (·.id)).IsChain (· < ·))
    "recovered memtable state must be ID ordered"
  update fun table => table.rebuild (mergeEntries table.entries entries)

/-- A call that changes the table. -/
inductive Call where
  | change (change : Change)
  | recover (entries : List MemTableEntry)

/-- The points a call is about. -/
def Call.ids : Call → List Int64
  | .change step => [step.id]
  | .recover entries => entries.map (·.id)

/-- A change that raises leaves the table as it was. -/
def Change.run (step : Change) : Exec MemTable String Unit := fun table =>
  match step.apply table with
  | .ok next => (.ok (), next)
  | .error e => (.error e, table)

def Call.run : Call → Exec MemTable String Unit
  | .change step => step.run
  | .recover entries => applyRecoveredEntries entries

/-- The table after some calls, whether they raised or not. -/
def runCalls (table : MemTable) (calls : List Call) : MemTable :=
  calls.foldl (fun table call => (call.run table).2) table

/-- The points of the calls that returned. -/
def seenIds (table : MemTable) : List Call → List Int64
  | [] => []
  | call :: calls =>
      match call.run table with
      | (.ok (), next) => call.ids ++ seenIds next calls
      | (.error _, next) => seenIds next calls

/-- What a segment is: an entry for each point, in the order of their identifiers. -/
structure SegmentOk (dimension : Nat) (entries : List MemTableEntry) : Prop where
  ascending : (entries.map (·.id)).Pairwise (· < ·)
  positive : ∀ entry ∈ entries, entry.sequence ≠ 0
  lengths : ∀ entry ∈ entries, entry.values.length = if entry.tombstone then 0 else dimension

/-! ## The latest write -/

/-- What a write leaves of a point: its default vector and its payload, or a tombstone. -/
structure PointWrite where
  id : Int64
  sequence : Nat
  tombstone : Bool
  vector : Option VectorValue
  payload : List DocumentField
  deriving DecidableEq

/-- The write that an entry shows. -/
def entryWrite (entry : MemTableEntry) : PointWrite :=
  ⟨entry.id, entry.sequence, entry.tombstone, entry.field? 0, entry.payload⟩

/-- The write of a change that is accepted. -/
def Change.writes (dimension : Nat) : Change → List PointWrite
  | .upsert id sequence values fields =>
      if sequence ≠ 0 ∧ values.length = dimension ∧ validateFields fields = .ok () then
        [⟨id, sequence, false, some (.dense (.f32 values)), fields⟩]
      else []
  | .delete id sequence => if sequence ≠ 0 then [⟨id, sequence, true, none, []⟩] else []
  | .setSparse _ _ => []
  | .put entry => [entryWrite entry]

/-- A write or a delete of a whole document. -/
def Change.IsDocument : Change → Prop
  | .upsert .. => True
  | .delete .. => True
  | .setSparse .. => False
  | .put .. => False

/-- The write of a point with the largest sequence, the first one of those. -/
def latest (writes : List PointWrite) (id : Int64) : Option PointWrite :=
  (writes.filter (·.id = id)).argmax (·.sequence)

/-- Equally new writes are resolved in favour of the first. -/
def newer (old : Option PointWrite) (write : PointWrite) : Option PointWrite :=
  match old with
  | none => some write
  | some old => if old.sequence < write.sequence then some write else some old

theorem latest_append_one (writes : List PointWrite) (write : PointWrite) (id : Int64) :
    latest (writes ++ [write]) id =
      if write.id = id then newer (latest writes id) write else latest writes id := by
  unfold latest
  rw [filter_append]
  by_cases hid : write.id = id
  · rw [if_pos hid, filter_singleton, decide_eq_true hid]
    show (writes.filter _ ++ [write]).argmax _ = _
    rw [argmax_concat]
    cases (writes.filter (·.id = id)).argmax (·.sequence) with
    | none => rfl
    | some old => rfl
  · rw [if_neg hid, filter_singleton, decide_eq_false hid]
    show (writes.filter _ ++ []).argmax _ = _
    rw [append_nil]

variable {id : Int64}

theorem latest_append_of_none {writes others : List PointWrite}
    (h : ∀ write ∈ others, write.id ≠ id) : latest (writes ++ others) id = latest writes id := by
  have hnone : others.filter (·.id = id) = [] :=
    filter_eq_nil_iff.2 fun write hwrite => by simpa using h write hwrite
  unfold latest
  rw [filter_append, hnone, append_nil]

variable {entries : List MemTableEntry}

/-- The writes of a segment: at most one is about the point. -/
theorem latest_append_entries (writes : List PointWrite) (hnodup : (entries.map (·.id)).Nodup)
    (id : Int64) :
    latest (writes ++ entries.map entryWrite) id =
      match findBy MemTableEntry.id id entries with
      | none => latest writes id
      | some entry => newer (latest writes id) (entryWrite entry) := by
  cases hfind : findBy MemTableEntry.id id entries with
  | none =>
      refine latest_append_of_none fun write hwrite hid => ?_
      obtain ⟨entry, hentry, rfl⟩ := mem_map.1 hwrite
      exact find_by_none.1 hfind (mem_map.2 ⟨entry, hentry, hid⟩)
  | some entry =>
      obtain ⟨hmem, hid⟩ := (find_by_eq_some hnodup).1 hfind
      obtain ⟨before, after, rfl⟩ := append_of_mem hmem
      rw [map_append, map_cons, nodup_append, nodup_cons] at hnodup
      obtain ⟨-, ⟨hafter, -⟩, hbefore⟩ := hnodup
      have hfront : latest (writes ++ before.map entryWrite) id = latest writes id := by
        refine latest_append_of_none fun write hwrite hsame => ?_
        obtain ⟨other, hother, rfl⟩ := mem_map.1 hwrite
        exact hbefore other.id (mem_map_of_mem hother) entry.id mem_cons_self
          (hsame.trans hid.symm)
      have hback : ∀ write ∈ after.map entryWrite, write.id ≠ id := by
        intro write hwrite hsame
        obtain ⟨other, hother, rfl⟩ := mem_map.1 hwrite
        exact hafter (mem_map.2 ⟨other, hother, hsame.trans hid.symm⟩)
      rw [map_append, map_cons, ← append_assoc, ← singleton_append,
        ← append_assoc, latest_append_of_none hback, latest_append_one, hfront]
      exact if_pos hid

/-! ## Merged lists -/

/-- The newer one of two entries of a point. -/
def newerEntry (current incoming : Option MemTableEntry) : Option MemTableEntry :=
  match current, incoming with
  | none, incoming => incoming
  | some current, none => some current
  | some current, some incoming =>
      if current.sequence < incoming.sequence then some incoming else some current

theorem find_by_none_of_lt (h : ∀ entry ∈ entries, id < entry.id) :
    findBy MemTableEntry.id id entries = none := by
  refine find_by_none.2 fun hmem => ?_
  obtain ⟨entry, hentry, rfl⟩ := mem_map.1 hmem
  exact Int64.lt_irrefl (h entry hentry)

theorem find_by_cons (entry : MemTableEntry) (entries : List MemTableEntry) (id : Int64) :
    findBy MemTableEntry.id id (entry :: entries) =
      if entry.id = id then some entry else findBy MemTableEntry.id id entries := by
  unfold findBy
  rw [find?_cons]
  by_cases hid : entry.id = id
  · simp [hid]
  · simp [hid]

/-- A merge has the points of both lists. -/
theorem mem_merge_ids {current incoming : List MemTableEntry} :
    id ∈ (mergeEntries current incoming).map (·.id) ↔
      id ∈ current.map (·.id) ∨ id ∈ incoming.map (·.id) := by
  induction current, incoming using mergeEntries.induct with
  | case1 incoming => simp [mergeEntries]
  | case2 current hne => cases current <;> simp [mergeEntries] at hne ⊢
  | case3 current rest incoming others hlt ih =>
      simp only [map_cons, mem_cons] at ih ⊢
      rw [mergeEntries, if_pos hlt, map_cons, mem_cons, ih]
      exact or_assoc.symm
  | case4 current rest incoming others hge hlt ih =>
      simp only [map_cons, mem_cons] at ih ⊢
      rw [mergeEntries, if_neg hge, if_pos hlt, map_cons, mem_cons, ih]
      exact or_left_comm
  | case5 current rest incoming others hge hle ih =>
      have hid : current.id = incoming.id :=
        Int64.le_antisymm (Int64.not_lt.1 hle) (Int64.not_lt.1 hge)
      rw [mergeEntries, if_neg hge, if_neg hle, map_cons, mem_cons, ih, map_cons,
        mem_cons, map_cons, mem_cons]
      have hsame : (if current.sequence < incoming.sequence then incoming else current).id =
          current.id := by
        split
        · exact hid.symm
        · rfl
      rw [hsame, hid]
      tauto

/-- A merge of lists in the order of identifiers is in that order. -/
theorem merge_ascending {current incoming : List MemTableEntry}
    (hcurrent : (current.map (·.id)).Pairwise (· < ·))
    (hincoming : (incoming.map (·.id)).Pairwise (· < ·)) :
    ((mergeEntries current incoming).map (·.id)).Pairwise (· < ·) := by
  induction current, incoming using mergeEntries.induct with
  | case1 incoming => simpa [mergeEntries] using hincoming
  | case2 current hne =>
      cases current with
      | nil => exact absurd rfl hne
      | cons current rest =>
          rw [mergeEntries]
          · exact hcurrent
          · exact hne
  | case3 current rest incoming others hlt ih =>
      rw [mergeEntries, if_pos hlt]
      rw [map_cons, pairwise_cons] at hcurrent ⊢
      refine ⟨fun id hid => ?_, ih hcurrent.2 hincoming⟩
      rw [map_cons, pairwise_cons] at hincoming
      rcases mem_merge_ids.1 hid with hrest | hother
      · exact hcurrent.1 id hrest
      · rcases mem_cons.1 hother with rfl | hlater
        · exact hlt
        · exact Int64.lt_trans hlt (hincoming.1 id hlater)
  | case4 current rest incoming others hge hlt ih =>
      rw [mergeEntries, if_neg hge, if_pos hlt]
      rw [map_cons, pairwise_cons] at hincoming ⊢
      refine ⟨fun id hid => ?_, ih hcurrent hincoming.2⟩
      rw [map_cons, pairwise_cons] at hcurrent
      rcases mem_merge_ids.1 hid with hmine | hother
      · rcases mem_cons.1 hmine with rfl | hlater
        · exact hlt
        · exact Int64.lt_trans hlt (hcurrent.1 id hlater)
      · exact hincoming.1 id hother
  | case5 current rest incoming others hge hle ih =>
      have hid : current.id = incoming.id :=
        Int64.le_antisymm (Int64.not_lt.1 hle) (Int64.not_lt.1 hge)
      have hsame : (if current.sequence < incoming.sequence then incoming else current).id =
          current.id := by
        split
        · exact hid.symm
        · rfl
      rw [mergeEntries, if_neg hge, if_neg hle]
      rw [map_cons, pairwise_cons] at hcurrent hincoming ⊢
      refine ⟨fun id hmem => ?_, ih hcurrent.2 hincoming.2⟩
      rw [hsame]
      rcases mem_merge_ids.1 hmem with hrest | hother
      · exact hcurrent.1 id hrest
      · exact hid ▸ hincoming.1 id hother

/-- A merge shows of each point the newer entry. -/
theorem find_merge {current incoming : List MemTableEntry}
    (hcurrent : (current.map (·.id)).Pairwise (· < ·))
    (hincoming : (incoming.map (·.id)).Pairwise (· < ·)) (id : Int64) :
    findBy MemTableEntry.id id (mergeEntries current incoming) =
      newerEntry (findBy MemTableEntry.id id current) (findBy MemTableEntry.id id incoming) := by
  induction current, incoming using mergeEntries.induct with
  | case1 incoming => rw [mergeEntries]; rfl
  | case2 current hne =>
      cases current with
      | nil => exact absurd rfl hne
      | cons current rest =>
          rw [mergeEntries]
          · show findBy MemTableEntry.id id (current :: rest) = newerEntry _ none
            cases findBy MemTableEntry.id id (current :: rest) with
            | none => rfl
            | some entry => rfl
          · exact hne
  | case3 current rest incoming others hlt ih =>
      have hrest := (pairwise_cons.1 (map_cons ▸ hcurrent)).2
      rw [mergeEntries, if_pos hlt, find_by_cons, find_by_cons current rest]
      by_cases hid : current.id = id
      · have hnone : findBy MemTableEntry.id id (incoming :: others) = none := by
          refine find_by_none_of_lt (hid ▸ forall_mem_cons.2 ⟨hlt, fun other hother => ?_⟩)
          rw [map_cons, pairwise_cons] at hincoming
          exact Int64.lt_trans hlt (hincoming.1 other.id (mem_map_of_mem hother))
        rw [if_pos hid, if_pos hid, hnone]
        rfl
      · rw [if_neg hid, if_neg hid]
        exact ih hrest hincoming
  | case4 current rest incoming others hge hlt ih =>
      have hothers := (pairwise_cons.1 (map_cons ▸ hincoming)).2
      rw [mergeEntries, if_neg hge, if_pos hlt, find_by_cons, find_by_cons incoming others]
      by_cases hid : incoming.id = id
      · have hnone : findBy MemTableEntry.id id (current :: rest) = none := by
          refine find_by_none_of_lt (hid ▸ forall_mem_cons.2 ⟨hlt, fun other hother => ?_⟩)
          rw [map_cons, pairwise_cons] at hcurrent
          exact Int64.lt_trans hlt (hcurrent.1 other.id (mem_map_of_mem hother))
        rw [if_pos hid, if_pos hid, hnone]
        rfl
      · rw [if_neg hid, if_neg hid]
        exact ih hcurrent hothers
  | case5 current rest incoming others hge hle ih =>
      have hsame : current.id = incoming.id :=
        Int64.le_antisymm (Int64.not_lt.1 hle) (Int64.not_lt.1 hge)
      have hrest := (pairwise_cons.1 (map_cons ▸ hcurrent)).2
      have hothers := (pairwise_cons.1 (map_cons ▸ hincoming)).2
      have hkept : (if current.sequence < incoming.sequence then incoming else current).id =
          current.id := by
        split
        · exact hsame.symm
        · rfl
      rw [mergeEntries, if_neg hge, if_neg hle, find_by_cons, find_by_cons current rest,
        find_by_cons incoming others, hkept, ← hsame]
      by_cases hid : current.id = id
      · rw [if_pos hid, if_pos hid, if_pos hid, newerEntry]
        split
        · rfl
        · rfl
      · rw [if_neg hid, if_neg hid, if_neg hid]
        exact ih hrest hothers

/-! ## The rebuilt table -/

theorem indexed_entries (h : (entries.map (·.id)).Nodup) :
    Indexed MemTableEntry.id entries (indexEntries entries) := by
  induction entries using reverseRecOn with
  | nil => exact indexed_empty
  | append_singleton entries entry ih =>
      rw [map_append, nodup_append] at h
      have hnew : entry.id ∉ entries.map (·.id) := fun hmem =>
        h.2.2 entry.id hmem entry.id (mem_singleton_self _) rfl
      have hslots : indexEntries (entries ++ [entry]) =
          (indexEntries entries).insert entry.id entries.length := by
        unfold indexEntries
        rw [zipIdx_append, foldl_append, Nat.zero_add]
        rfl
      rw [hslots]
      exact indexed_push (ih h.1) hnew

theorem rebuild_well_formed (table : MemTable) (h : (entries.map (·.id)).Nodup) :
    (table.rebuild entries).WellFormed ∧
      (table.rebuild entries).state = fun id => findBy MemTableEntry.id id entries := by
  have hwf : (table.rebuild entries).WellFormed := ⟨indexed_entries h, rfl, rfl⟩
  refine ⟨hwf, funext fun id => Option.ext fun entry => ?_⟩
  rw [state_eq_some_iff hwf, find_by_eq_some h]
  rfl

theorem state_eq_find {table : MemTable} (h : table.WellFormed) (id : Int64) :
    table.state id = findBy MemTableEntry.id id table.entries := by
  refine Option.ext fun entry => ?_
  rw [state_eq_some_iff h, find_by_eq_some (ids_nodup h)]

/-! ## Calls -/

variable {entry : MemTableEntry}

theorem check_recovered_ok {dimension : Nat} {previous : Option Int64} :
    checkRecovered dimension previous entry = .ok () ↔
      (∀ earlier ∈ previous, earlier < entry.id) ∧ entry.sequence ≠ 0 ∧
        entry.values.length = if entry.tombstone then 0 else dimension := by
  unfold checkRecovered
  cases entry.tombstone <;> simp only [bind_ok, exists_unit, require_ok, Bool.false_eq_true,
    if_true, if_false]

/-- The entries after an identifier are accepted when they are those of a segment. -/
theorem segment_ok_cons {dimension : Nat} {previous : Option Int64} :
    ((∀ earlier ∈ previous, ∀ other ∈ entry :: entries, earlier < other.id) ∧
        SegmentOk dimension (entry :: entries)) ↔
      checkRecovered dimension previous entry = .ok () ∧
        (∀ earlier ∈ some entry.id, ∀ other ∈ entries, earlier < other.id) ∧
          SegmentOk dimension entries := by
  rw [check_recovered_ok]
  constructor
  · rintro ⟨hprevious, hascending, hpositive, hlengths⟩
    rw [map_cons, pairwise_cons] at hascending
    obtain ⟨hpos, hpositive⟩ := forall_mem_cons.1 hpositive
    obtain ⟨hlength, hlengths⟩ := forall_mem_cons.1 hlengths
    refine ⟨⟨fun earlier hearlier => hprevious earlier hearlier entry mem_cons_self, hpos,
      hlength⟩, ?_, hascending.2, hpositive, hlengths⟩
    rintro _ ⟨⟩ other hother
    exact hascending.1 other.id (mem_map_of_mem hother)
  · rintro ⟨⟨hprevious, hpos, hlength⟩, hentry, hascending, hpositive, hlengths⟩
    refine ⟨fun earlier hearlier => forall_mem_cons.2 ⟨hprevious earlier hearlier,
      fun other hother => Int64.lt_trans (hprevious earlier hearlier) (hentry _ rfl other hother)⟩,
      ?_, forall_mem_cons.2 ⟨hpos, hpositive⟩, forall_mem_cons.2 ⟨hlength, hlengths⟩⟩
    rw [map_cons, pairwise_cons]
    refine ⟨fun id hid => ?_, hascending⟩
    obtain ⟨other, hother, rfl⟩ := mem_map.1 hid
    exact hentry _ rfl other hother

/-- The first loop changes nothing but the sequence, and accepts segments. -/
theorem accept_recovered_run (previous : Option Int64) (entries : List MemTableEntry)
    (table : MemTable) :
    ∃ result last, acceptRecovered previous entries table =
        (result, { table with lastSequence := last }) ∧
      (result = .ok () ↔ (∀ earlier ∈ previous, ∀ entry ∈ entries, earlier < entry.id) ∧
        SegmentOk table.dimension entries) := by
  induction entries generalizing previous table with
  | nil =>
      refine ⟨.ok (), table.lastSequence, rfl, iff_of_true rfl ⟨fun _ _ => nofun, ?_⟩⟩
      exact ⟨.nil, nofun, nofun⟩
  | cons entry entries ih =>
      rw [acceptRecovered, read_bind, segment_ok_cons]
      cases hcheck : checkRecovered table.dimension previous entry with
      | error e =>
          refine ⟨.error e, table.lastSequence, bind_of_error rfl, ?_⟩
          exact iff_of_false nofun fun hcontra => nomatch hcontra.1
      | ok done =>
          obtain ⟨result, last, hrun, hiff⟩ :=
            ih (some entry.id) (table.advanceSequence entry.sequence)
          refine ⟨result, last, ?_, hiff.trans ⟨fun h => ⟨rfl, h⟩, fun h => h.2⟩⟩
          exact hrun

/-- Recovering a segment rebuilds a table whose entries are in order. A refused segment changes
nothing but the sequence. -/
theorem apply_recovered_entries_run (entries : List MemTableEntry) (table : MemTable) :
    (∃ last, applyRecoveredEntries entries table =
        (.ok (), rebuild { table with lastSequence := last } (mergeEntries table.entries entries)) ∧
      SegmentOk table.dimension entries ∧ table.ids.Pairwise (· < ·)) ∨
    (∃ e last, applyRecoveredEntries entries table = (.error e, { table with lastSequence := last }) ∧
      ¬ (SegmentOk table.dimension entries ∧ table.ids.Pairwise (· < ·))) := by
  let transitive : Trans (α := Int64) (· < ·) (· < ·) (· < ·) := ⟨Int64.lt_trans⟩
  obtain ⟨result, last, hrun, hiff⟩ := accept_recovered_run none entries table
  have hsegment : result = .ok () ↔ SegmentOk table.dimension entries :=
    hiff.trans (and_iff_right nofun)
  unfold applyRecoveredEntries
  cases result with
  | error e =>
      refine .inr ⟨e, last, bind_of_error hrun, fun hcontra => ?_⟩
      exact nomatch hsegment.2 hcontra.1
  | ok done =>
      rw [bind_of_ok hrun, read_bind]
      by_cases hchain : (table.entries.map (·.id)).IsChain (· < ·)
      · refine .inl ⟨last, ?_, hsegment.1 rfl, isChain_iff_pairwise.1 hchain⟩
        rw [bind_of_ok (ensure_of (by exact hchain) _ _)]
        rfl
      · refine .inr ⟨_, last, bind_of_error (ensure_of_not (by exact hchain) _ _), ?_⟩
        exact fun hcontra => hchain (isChain_iff_pairwise.2 hcontra.2)

theorem change_run_ok {step : Change} {table next : MemTable} (h : step.apply table = .ok next) :
    (Call.change step).run table = (.ok (), next) := by
  show step.run table = _
  rw [Change.run, h]

theorem change_run_error {step : Change} {table : MemTable} {e : String}
    (h : step.apply table = .error e) : (Call.change step).run table = (.error e, table) := by
  show step.run table = _
  rw [Change.run, h]

/-! ## Runs -/

/-- The table shows of each point the latest write. -/
structure Shows (dimension : Nat) (table : MemTable) (writes : List PointWrite) : Prop where
  well_formed : table.WellFormed
  dimension_eq : table.dimension = dimension
  shown : ∀ id, (table.state id).map entryWrite = latest writes id

variable {table : MemTable} {writes : List PointWrite} {dimension : Nat}

theorem empty_shows (dimension : Nat) : Shows dimension (.empty dimension) [] :=
  ⟨empty_well_formed dimension, rfl, fun id => by simp [state, slotFor, ordinalFor, empty, latest]⟩

theorem shows_update (h : Shows dimension table writes) {next : MemTable} {write : PointWrite}
    (hnext : next.WellFormed) (hdimension : next.dimension = table.dimension)
    (hstate : next.state = Function.update table.state write.id (some entry))
    (hentry : some (entryWrite entry) = newer ((table.state write.id).map entryWrite) write) :
    Shows dimension next (writes ++ [write]) := by
  refine ⟨hnext, hdimension.trans h.dimension_eq, fun id => ?_⟩
  rw [latest_append_one, hstate, Function.update_apply]
  by_cases hid : id = write.id
  · rw [if_pos hid, if_pos hid.symm, hid, ← h.shown]
    exact hentry
  · rw [if_neg hid, if_neg (Ne.symm hid)]
    exact h.shown id

theorem upsert_entry_write {old : Option MemTableEntry} {sequence : Nat} {values : List F32}
    {fields : List DocumentField} (hid : ∀ entry ∈ old, entry.id = id)
    (hvalues : values.length ≠ 0) :
    some (entryWrite (upsertEntry old id sequence values fields)) =
      newer (old.map entryWrite) ⟨id, sequence, false, some (.dense (.f32 values)), fields⟩ := by
  cases old with
  | none =>
      simp only [upsertEntry, entryWrite, MemTableEntry.withFields, MemTableEntry.field?,
        if_pos hvalues]
      rfl
  | some old =>
      simp only [upsertEntry, newer, Option.map_some, entryWrite]
      by_cases hle : sequence ≤ old.sequence
      · rw [if_pos hle, if_neg (Nat.not_lt.2 hle)]
      · have hfield : (MemTableEntry.setVector old.vectors ⟨0, .dense (.f32 values)⟩).find?
            (·.id = 0) = some ⟨0, .dense (.f32 values)⟩ :=
          (MemTableEntry.find_set_vector old.vectors ⟨0, .dense (.f32 values)⟩ 0).trans (if_pos rfl)
        rw [if_neg hle, if_pos (Nat.not_le.1 hle), ← hid old rfl]
        simp only [MemTableEntry.field?, hfield, Option.map_some]

theorem delete_entry_write {old : Option MemTableEntry} {sequence : Nat} :
    some (entryWrite (deleteEntry old id sequence)) =
      newer (old.map entryWrite) ⟨id, sequence, true, none, []⟩ := by
  cases old with
  | none => rfl
  | some old =>
      simp only [deleteEntry, newer, Option.map_some,
        show (entryWrite old).sequence = old.sequence from rfl]
      by_cases hle : sequence ≤ old.sequence
      · rw [if_pos hle, if_neg (Nat.not_lt.2 hle)]
      · rw [if_neg hle, if_pos (Nat.not_le.1 hle)]
        rfl

theorem apply_document_upsert_returns {id : Int64} {sequence : Nat} {values : List F32}
    {fields : List DocumentField} :
    (∃ next, table.applyDocumentUpsert id sequence values fields = .ok next) ↔
      sequence ≠ 0 ∧ values.length = table.dimension ∧ validateFields fields = .ok () := by
  unfold applyDocumentUpsert
  simp only [bind_ok, exists_unit, require_ok]
  refine ⟨fun ⟨next, hpos, hlength, hfields, _⟩ => ⟨hpos, hlength, hfields⟩,
    fun ⟨hpos, hlength, hfields⟩ => ?_⟩
  cases (table.advanceSequence sequence).slotFor id with
  | none => exact ⟨_, hpos, hlength, hfields, rfl⟩
  | some slot =>
      by_cases hle : sequence ≤ slot.2.sequence
      · exact ⟨_, hpos, hlength, hfields, if_pos hle⟩
      · exact ⟨_, hpos, hlength, hfields, if_neg hle⟩

theorem apply_delete_returns {id : Int64} {sequence : Nat} :
    (∃ next, table.applyDelete id sequence = .ok next) ↔ sequence ≠ 0 := by
  unfold applyDelete
  simp only [bind_ok, exists_unit, require_ok]
  refine ⟨fun ⟨next, hpos, _⟩ => hpos, fun hpos => ?_⟩
  cases (table.advanceSequence sequence).slotFor id with
  | none => exact ⟨_, hpos, rfl⟩
  | some slot =>
      by_cases hle : sequence ≤ slot.2.sequence
      · exact ⟨_, hpos, if_pos hle⟩
      · exact ⟨_, hpos, if_neg hle⟩

/-- A document call adds its write, or raises and adds nothing. -/
theorem change_shows (hdimension : 0 < dimension) (h : Shows dimension table writes)
    {step : Change} (hdocument : step.IsDocument) :
    Shows dimension ((Call.change step).run table).2 (writes ++ step.writes dimension) := by
  have hids : ∀ id, ∀ entry ∈ table.state id, entry.id = id := fun id entry hentry =>
    ((state_eq_some_iff h.well_formed).1 hentry).2
  have hpos : 0 < table.dimension := h.dimension_eq ▸ hdimension
  cases step with
  | upsert id sequence values fields =>
      have hreturns := @apply_document_upsert_returns table id sequence values fields
      rw [h.dimension_eq] at hreturns
      rw [Change.writes]
      cases hrun : table.applyDocumentUpsert id sequence values fields with
      | error e =>
          have hinvalid : ¬ (sequence ≠ 0 ∧ values.length = dimension ∧
              validateFields fields = .ok ()) := fun hcontra => by
            obtain ⟨next, hnext⟩ := hreturns.2 hcontra
            rw [hrun] at hnext
            cases hnext
          rw [change_run_error (by exact hrun), if_neg hinvalid, append_nil]
          exact h
      | ok next =>
          have hvalid := hreturns.1 ⟨next, hrun⟩
          rw [change_run_ok (by exact hrun), if_pos hvalid]
          obtain ⟨hnext, hsame, -, hstate⟩ := apply_document_upsert_ok h.well_formed hpos hrun
          exact shows_update h hnext hsame hstate
            (upsert_entry_write (hids id) (by rw [hvalid.2.1]; omega))
  | delete id sequence =>
      have hreturns := @apply_delete_returns table id sequence
      rw [Change.writes]
      cases hrun : table.applyDelete id sequence with
      | error e =>
          have hinvalid : ¬ sequence ≠ 0 := fun hcontra => by
            obtain ⟨next, hnext⟩ := hreturns.2 hcontra
            rw [hrun] at hnext
            cases hnext
          rw [change_run_error (by exact hrun), if_neg hinvalid, append_nil]
          exact h
      | ok next =>
          rw [change_run_ok (by exact hrun), if_pos (hreturns.1 ⟨next, hrun⟩)]
          obtain ⟨hnext, hsame, -, hstate⟩ := apply_delete_ok h.well_formed hrun
          exact shows_update h hnext hsame hstate delete_entry_write
  | setSparse id elements => exact hdocument.elim
  | put entry => exact hdocument.elim

theorem newer_entry_write (current incoming : Option MemTableEntry) :
    (newerEntry current incoming).map entryWrite =
      match incoming with
      | none => current.map entryWrite
      | some entry => newer (current.map entryWrite) (entryWrite entry) := by
  cases incoming with
  | none => cases current <;> rfl
  | some incoming =>
      cases current with
      | none => rfl
      | some current =>
          simp only [newerEntry, newer, Option.map_some]
          show Option.map entryWrite (if current.sequence < incoming.sequence then _ else _) =
            if current.sequence < incoming.sequence then _ else _
          split
          · rfl
          · rfl

/-- A recovered segment adds its writes. -/
theorem recover_shows (h : Shows dimension table writes) (hordered : table.ids.Pairwise (· < ·))
    (hsegment : SegmentOk dimension entries) :
    Shows dimension ((Call.recover entries).run table).2 (writes ++ entries.map entryWrite) ∧
      ((Call.recover entries).run table).2.ids.Pairwise (· < ·) := by
  have hnodup : ∀ {ids : List Int64}, ids.Pairwise (· < ·) → ids.Nodup := fun hids =>
    hids.imp Int64.ne_of_lt
  show Shows dimension (applyRecoveredEntries entries table).2 _ ∧
    (applyRecoveredEntries entries table).2.ids.Pairwise (· < ·)
  rcases apply_recovered_entries_run entries table with ⟨last, hrun, -⟩ | ⟨e, last, -, hrefused⟩
  · have hmerged := merge_ascending hordered hsegment.ascending
    obtain ⟨hwf, hstate⟩ := rebuild_well_formed { table with lastSequence := last } (hnodup hmerged)
    rw [hrun]
    refine ⟨⟨hwf, h.dimension_eq, fun id => ?_⟩, hmerged⟩
    rw [hstate]
    show (findBy _ id (mergeEntries table.entries entries)).map entryWrite = _
    rw [find_merge hordered hsegment.ascending, newer_entry_write,
      latest_append_entries writes (hnodup hsegment.ascending), ← h.shown,
      state_eq_find h.well_formed]
  · exact absurd ⟨h.dimension_eq.symm ▸ hsegment, hordered⟩ hrefused

theorem recover_all_shows {segments : List (List MemTableEntry)}
    (hsegments : ∀ entries ∈ segments, SegmentOk dimension entries)
    (h : Shows dimension table writes) (hordered : table.ids.Pairwise (· < ·)) :
    Shows dimension (runCalls table (segments.map .recover))
      (writes ++ segments.flatten.map entryWrite) := by
  induction segments generalizing table writes with
  | nil =>
      rw [flatten_nil, map_nil, map_nil, append_nil]
      exact h
  | cons entries segments ih =>
      obtain ⟨hentries, hrest⟩ := forall_mem_cons.1 hsegments
      obtain ⟨hshows, hnext⟩ := recover_shows h hordered hentries
      rw [flatten_cons, map_append, ← append_assoc]
      exact ih hrest hshows hnext

theorem change_all_shows (hdimension : 0 < dimension) {log : List Change}
    (hlog : ∀ step ∈ log, step.IsDocument) (h : Shows dimension table writes) :
    Shows dimension (runCalls table (log.map .change))
      (writes ++ log.flatMap (·.writes dimension)) := by
  induction log generalizing table writes with
  | nil =>
      rw [flatMap_nil, append_nil]
      exact h
  | cons step log ih =>
      obtain ⟨hstep, hrest⟩ := forall_mem_cons.1 hlog
      rw [flatMap_cons, ← append_assoc]
      exact ih hrest (change_shows hdimension h hstep)

/-! ## Slots and counts -/

/-- A call keeps slots, identifiers and counts in agreement, and adds its points if it returns. -/
theorem call_run_well_formed (h : table.WellFormed) (hdimension : 0 < table.dimension)
    (call : Call) :
    (call.run table).2.WellFormed ∧ (call.run table).2.dimension = table.dimension ∧
      ∀ id, id ∈ (call.run table).2.ids ↔
        id ∈ table.ids ∨ ((call.run table).1 = .ok () ∧ id ∈ call.ids) := by
  cases call with
  | change step =>
      cases hrun : step.apply table with
      | error e =>
          rw [change_run_error hrun]
          exact ⟨h, rfl, fun id => (or_iff_left fun hcontra => nomatch hcontra.1).symm⟩
      | ok next =>
          rw [change_run_ok hrun]
          obtain ⟨hnext, hsame, -⟩ := change_apply_ok h hdimension hrun
          refine ⟨hnext, hsame, fun id => ?_⟩
          show id ∈ next.ids ↔ id ∈ table.ids ∨ (_ ∧ id ∈ [step.id])
          rw [change_ids h hrun, mem_singleton, and_iff_right rfl]
          split
          · rename_i hmem
            exact (or_iff_left_of_imp fun hid => hid ▸ hmem).symm
          · rw [mem_append, mem_singleton]
  | recover entries =>
      rcases apply_recovered_entries_run entries table with
        ⟨last, hrun, hsegment, hordered⟩ | ⟨e, last, hrun, -⟩
      · have hrun : (Call.recover entries).run table = _ := hrun
        have hmerged := merge_ascending hordered hsegment.ascending
        obtain ⟨hnext, -⟩ := rebuild_well_formed { table with lastSequence := last }
          (hmerged.imp Int64.ne_of_lt)
        rw [hrun]
        refine ⟨hnext, rfl, fun id => ?_⟩
        rw [and_iff_right rfl]
        exact mem_merge_ids
      · have hrun : (Call.recover entries).run table = _ := hrun
        rw [hrun]
        exact ⟨⟨h.ordinals_iff, h.live_eq, h.dense_eq⟩, rfl, fun id =>
          (or_iff_left fun hcontra => nomatch hcontra.1).symm⟩

theorem run_calls_well_formed (h : table.WellFormed) (hdimension : 0 < table.dimension)
    (calls : List Call) :
    (runCalls table calls).WellFormed ∧
      ∀ id, id ∈ (runCalls table calls).ids ↔ id ∈ table.ids ∨ id ∈ seenIds table calls := by
  induction calls generalizing table with
  | nil => exact ⟨h, fun id => (or_iff_left not_mem_nil).symm⟩
  | cons call calls ih =>
      obtain ⟨hnext, hsame, hids⟩ := call_run_well_formed h hdimension call
      obtain ⟨hwf, hrest⟩ := ih hnext (hsame.symm ▸ hdimension)
      refine ⟨hwf, fun id => (hrest id).trans ?_⟩
      rw [hids, seenIds]
      rcases hrun : call.run table with ⟨result, next⟩
      cases result with
      | ok done =>
          rw [and_iff_right rfl, mem_append]
          exact or_assoc
      | error e => rw [or_iff_left (a := id ∈ table.ids) fun hcontra => nomatch hcontra.1]

theorem mem_ids_iff (h : table.WellFormed) (id : Int64) :
    id ∈ table.ids ↔ ∃ slot : Nat, table.idOrdinals[id]? = some slot := by
  constructor
  · intro hmem
    obtain ⟨entry, hentry, rfl⟩ := mem_map.1 hmem
    obtain ⟨slot, hslot⟩ := mem_iff_getElem?.1 hentry
    exact ⟨slot, (h.ordinals_iff _ _).2 ⟨entry, hslot, rfl⟩⟩
  · rintro ⟨slot, hslot⟩
    obtain ⟨entry, hentry, rfl⟩ := (h.ordinals_iff _ _).1 hslot
    exact mem_map_of_mem (mem_of_getElem? hentry)

/-! ## The main result -/

/-- Writes that agree where they are equally new have one latest write, in any order. -/
theorem argmax_same_members {α : Type} {f : α → Nat} {xs ys : List α}
    (hmem : ∀ a, a ∈ ys ↔ a ∈ xs) (hsame : ∀ a ∈ xs, ∀ b ∈ xs, f a = f b → a = b) :
    ys.argmax f = xs.argmax f := by
  cases hxs : xs.argmax f with
  | none =>
      rw [argmax_eq_none] at hxs ⊢
      subst hxs
      exact eq_nil_iff_forall_not_mem.2 fun a ha => not_mem_nil ((hmem a).1 ha)
  | some a =>
      have ha := argmax_mem hxs
      cases hys : ys.argmax f with
      | none =>
          rw [argmax_eq_none] at hys
          subst hys
          exact absurd ((hmem a).2 ha) not_mem_nil
      | some b =>
          have hb := (hmem b).1 (argmax_mem hys)
          have hle : f a ≤ f b := le_of_mem_argmax ((hmem a).2 ha) hys
          have hge : f b ≤ f a := le_of_mem_argmax hb hxs
          rw [hsame a ha b hb (Nat.le_antisymm hle hge)]

theorem latest_append_congr {writes others : List PointWrite}
    (h : latest others id = latest writes id) (more : List PointWrite) :
    latest (others ++ more) id = latest (writes ++ more) id := by
  unfold latest argmax at h ⊢
  rw [filter_append, filter_append, foldl_append, foldl_append, h]

theorem latest_segments {segments others : List (List MemTableEntry)}
    (hsame : ∀ first ∈ segments.flatten, ∀ second ∈ segments.flatten, first.id = second.id →
      first.sequence = second.sequence → first = second)
    (hothers : ∀ entries, entries ∈ others ↔ entries ∈ segments) (id : Int64) :
    latest (others.flatten.map entryWrite) id = latest (segments.flatten.map entryWrite) id := by
  refine argmax_same_members (fun write => ?_) fun first hfirst second hsecond hsequence => ?_
  · simp only [mem_filter, mem_map, mem_flatten, hothers]
  · obtain ⟨hfirst, hfirstId⟩ := mem_filter.1 hfirst
    obtain ⟨hsecond, hsecondId⟩ := mem_filter.1 hsecond
    obtain ⟨one, hone, rfl⟩ := mem_map.1 hfirst
    obtain ⟨two, htwo, rfl⟩ := mem_map.1 hsecond
    rw [decide_eq_true_eq] at hfirstId hsecondId
    rw [hsame one hone two htwo (hfirstId.trans hsecondId.symm) hsequence]

/-- Segments in any order and number, and then a log: the table shows of each point the write of
the largest sequence. After any calls the counts are those of a recount, and the slots are numbered
by the points that were seen. -/
theorem last_writer_wins (dimension : Nat) (hdimension : 0 < dimension) :
    (∀ (segments : List (List MemTableEntry)) (log : List Change),
      (∀ entries ∈ segments, SegmentOk dimension entries) → (∀ step ∈ log, step.IsDocument) →
      let table := runCalls (.empty dimension) (segments.map .recover ++ log.map .change)
      (∀ id, (table.state id).map entryWrite =
        latest (segments.flatten.map entryWrite ++ log.flatMap (·.writes dimension)) id) ∧
      ((∀ first ∈ segments.flatten, ∀ second ∈ segments.flatten, first.id = second.id →
          first.sequence = second.sequence → first = second) →
        ∀ others : List (List MemTableEntry), (∀ entries, entries ∈ others ↔ entries ∈ segments) →
          ∀ id, ((runCalls (.empty dimension) (others.map .recover ++ log.map .change)).state id).map
            entryWrite = (table.state id).map entryWrite)) ∧
    ∀ calls : List Call,
      let table := runCalls (.empty dimension) calls
      table.liveCount = table.entries.countP (!·.tombstone) ∧
      table.denseLiveCount = table.entries.countP (·.isDenseLive) ∧
      (∀ (id : Int64) (slot : Nat), table.idOrdinals[id]? = some slot → slot < table.slotCount) ∧
      (∀ slot < table.slotCount, ∃! id : Int64, table.idOrdinals[id]? = some slot) ∧
      ∀ id : Int64, (∃ slot : Nat, table.idOrdinals[id]? = some slot) ↔
        id ∈ seenIds (.empty dimension) calls := by
  have hshown : ∀ (segments : List (List MemTableEntry)) (log : List Change),
      (∀ entries ∈ segments, SegmentOk dimension entries) → (∀ step ∈ log, step.IsDocument) →
      ∀ id, ((runCalls (.empty dimension) (segments.map .recover ++ log.map .change)).state id).map
        entryWrite =
          latest (segments.flatten.map entryWrite ++ log.flatMap (·.writes dimension)) id := by
    intro segments log hsegments hlog
    have hrecovered := recover_all_shows hsegments (empty_shows dimension) .nil
    have hrun := change_all_shows hdimension hlog hrecovered
    rw [runCalls, foldl_append]
    exact hrun.shown
  refine ⟨fun segments log hsegments hlog => ⟨hshown segments log hsegments hlog, ?_⟩, ?_⟩
  · intro hsame others hothers id
    rw [hshown segments log hsegments hlog, hshown others log (fun entries hentries =>
      hsegments entries ((hothers entries).1 hentries)) hlog]
    exact latest_append_congr (latest_segments hsame hothers id) _
  · intro calls
    obtain ⟨hwf, hids⟩ := run_calls_well_formed (empty_well_formed dimension) hdimension calls
    refine ⟨hwf.live_eq, hwf.dense_eq, fun id slot hslot => ?_, fun slot hslot => ?_, fun id => ?_⟩
    · obtain ⟨entry, hentry, -⟩ := (hwf.ordinals_iff id slot).1 hslot
      exact (List.getElem?_eq_some_iff.1 hentry).1
    · have hentry := List.getElem?_eq_getElem hslot
      refine ⟨_, (hwf.ordinals_iff _ slot).2 ⟨_, hentry, rfl⟩, fun id hid => ?_⟩
      obtain ⟨entry, hfound, rfl⟩ := (hwf.ordinals_iff id slot).1 hid
      rw [hentry] at hfound
      rw [Option.some.inj hfound]
    · rw [← mem_ids_iff hwf, hids]
      exact or_iff_right not_mem_nil

/-- A segment with two points after one that deletes the first of them, which is merged once more,
and then a write that is older than the delete. -/
theorem last_writer_wins_sample :
    let first : List MemTableEntry := [.withFields 1 1 false [⟨0⟩] [], .withFields 2 2 false [⟨7⟩] []]
    let second : List MemTableEntry := [.withFields 1 5 true [] []]
    let log : List Change := [.upsert 1 4 [⟨3⟩] [], .upsert 2 6 [⟨8⟩] []]
    let table := runCalls (.empty 1) ([second, first, second].map .recover ++ log.map .change)
    (table.state 1).map entryWrite = some ⟨1, 5, true, none, []⟩ ∧
      (table.state 2).map entryWrite = some ⟨2, 6, false, some (.dense (.f32 [⟨8⟩])), []⟩ := by
  intro first second log table
  have hsegments : ∀ entries ∈ [second, first, second], SegmentOk 1 entries := by
    simp only [mem_cons, not_mem_nil, or_false, forall_eq_or_imp, forall_eq]
    exact ⟨⟨by decide, by decide, by decide⟩, ⟨by decide, by decide, by decide⟩,
      ⟨by decide, by decide, by decide⟩⟩
  have hlog : ∀ step ∈ log, step.IsDocument := by
    simp [log, Change.IsDocument]
  obtain ⟨hshown, -⟩ := (last_writer_wins 1 (by decide)).1 [second, first, second] log hsegments hlog
  exact ⟨(hshown 1).trans (by decide), (hshown 2).trans (by decide)⟩

end MemTable

end Akasha.Storage

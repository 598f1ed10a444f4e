import Akasha.Distributed.Mutation
import Mathlib.Data.List.Induction

/-!
# Replicated entries and the replica journal

A replica's journal is an append-only file of JSON lines: prepared entries, commit markers and
installed snapshots. A file is modelled by the records of its complete lines and by whether a
torn line follows them; a complete line reads back as the record it was written from.
-/

namespace Akasha.Distributed

open Lib List

/-- `ReplicatedEntry`. Shard, term, epoch and index are natural numbers: `validate` refuses
negative ones before anything is stored. -/
structure ReplicatedEntry where
  shardId : Nat
  term : Nat
  placementEpoch : Nat
  index : Nat
  requestId : String
  mutation : Json
  mutationChecksum : Nat
deriving DecidableEq

variable {entry : ReplicatedEntry}

section

variable [FloatRepr]

/-- `ReplicatedEntry.create`. -/
def ReplicatedEntry.create (shardId term placementEpoch index : Nat) (requestId : String)
    (mutation : Json) : ReplicatedEntry :=
  ⟨shardId, term, placementEpoch, index, requestId, mutation, checksumOf mutation⟩

/-- `ReplicatedEntry.validate`, which `to_dict` and `from_dict` run. -/
def ReplicatedEntry.validate (entry : ReplicatedEntry) : Except Error Unit := do
  require (0 < entry.term ∧ 0 < entry.placementEpoch)
    (.protocol "invalid replicated entry epoch")
  require (0 < entry.index ∧ entry.requestId ≠ "")
    (.protocol "invalid replicated entry identity")
  validateReplicatedMutation entry.mutation none
  require (entry.mutationChecksum = checksumOf entry.mutation)
    (.protocol "replicated mutation checksum mismatch")

theorem ReplicatedEntry.index_pos {u : Unit} (h : entry.validate = .ok u) : 0 < entry.index := by
  simp only [validate, bind_ok, require_ok, exists_unit] at h
  exact h.2.1.1

end

/-- One line of the journal. -/
inductive JournalRecord where
  | prepare (entry : ReplicatedEntry)
  | commit (index : Nat)
  | snapshot (index : Nat)
deriving DecidableEq

/-- The journal file: its complete lines, and whether it ends in a torn one. -/
structure JournalFile where
  lines : List JournalRecord
  torn : Bool

/-- `ReplicaJournal`: the maps a process keeps of its journal file. The set `committed` is a
list without order; `sorted` is applied where the source does. -/
structure ReplicaJournal where
  prepared : Std.ExtTreeMap Nat ReplicatedEntry
  committed : List Nat
  snapshotIndex : Nat

namespace ReplicaJournal

/-- The journal of an absent file. -/
def empty : ReplicaJournal := ⟨∅, [], 0⟩

/-- `committed_after`: the committed entries above an index, in index order. -/
def committedAfter (journal : ReplicaJournal) (index : Nat) : List ReplicatedEntry :=
  ((journal.committed.insertionSort (· ≤ ·)).filter (index < ·)).filterMap (journal.prepared[·]?)

/-- `self.prepared[entry.index] = entry`. -/
def addPrepared (journal : ReplicaJournal) (entry : ReplicatedEntry) : ReplicaJournal :=
  { journal with prepared := journal.prepared.insert entry.index entry }

/-- `self.committed.add(index)`. -/
def addCommitted (journal : ReplicaJournal) (index : Nat) : ReplicaJournal :=
  if index ∈ journal.committed then journal
  else { journal with committed := index :: journal.committed }

variable {journal : ReplicaJournal} {lines : List JournalRecord} {index : Nat}

section

variable [FloatRepr]

/-- One line of `_load`. -/
def loadRecord (journal : ReplicaJournal) : JournalRecord → Except Error ReplicaJournal
  | .prepare entry => do
      entry.validate
      require (∀ existing ∈ journal.prepared[entry.index]?,
          existing.mutationChecksum = entry.mutationChecksum)
        (.protocol "conflicting replicated journal entry")
      pure (journal.addPrepared entry)
  | .commit index => do
      require (index ∈ journal.prepared) (.protocol "commit marker has no prepared entry")
      pure (journal.addCommitted index)
  | .snapshot index =>
      pure { journal with snapshotIndex := max journal.snapshotIndex index }

/-- The lines of `_load` in order. -/
def loadLines : ReplicaJournal → List JournalRecord → Except Error ReplicaJournal
  | journal, [] => pure journal
  | journal, line :: lines => do
      let next ← journal.loadRecord line
      loadLines next lines

/-- `_load` from an empty journal. -/
def load (lines : List JournalRecord) : Except Error ReplicaJournal :=
  loadLines empty lines

theorem load_lines_append (journal : ReplicaJournal) (first second : List JournalRecord) :
    loadLines journal (first ++ second) =
      (loadLines journal first >>= fun next => loadLines next second) := by
  induction first generalizing journal with
  | nil => rfl
  | cons line lines ih =>
      simp only [cons_append, loadLines]
      cases journal.loadRecord line with
      | error e => rfl
      | ok next => exact ih next

theorem load_append (h : load lines = .ok journal) (line : JournalRecord) :
    load (lines ++ [line]) = journal.loadRecord line := by
  unfold load at h ⊢
  rw [load_lines_append, h]
  change (journal.loadRecord line >>= fun next => loadLines next []) = _
  cases journal.loadRecord line <;> rfl

theorem load_record_prepare_ok {journal next : ReplicaJournal} :
    journal.loadRecord (.prepare entry) = .ok next ↔
      entry.validate = .ok () ∧
        (∀ existing ∈ journal.prepared[entry.index]?,
          existing.mutationChecksum = entry.mutationChecksum) ∧
        next = journal.addPrepared entry := by
  simp only [loadRecord, bind_ok, require_ok, exists_unit, pure_ok,
    eq_comm (a := next)]

theorem load_record_commit_ok {journal next : ReplicaJournal} :
    journal.loadRecord (.commit index) = .ok next ↔
      index ∈ journal.prepared ∧ next = journal.addCommitted index := by
  simp only [loadRecord, bind_ok, require_ok, exists_unit, pure_ok,
    eq_comm (a := next)]

end

/-! ## What the maps say of the lines -/

@[simp] theorem add_prepared_committed (journal : ReplicaJournal) (entry : ReplicatedEntry) :
    (journal.addPrepared entry).committed = journal.committed := rfl

@[simp] theorem add_prepared_snapshot (journal : ReplicaJournal) (entry : ReplicatedEntry) :
    (journal.addPrepared entry).snapshotIndex = journal.snapshotIndex := rfl

@[simp] theorem add_prepared_get (journal : ReplicaJournal) (entry : ReplicatedEntry)
    (index : Nat) :
    (journal.addPrepared entry).prepared[index]? =
      if entry.index = index then some entry else journal.prepared[index]? := by
  simp [addPrepared, Std.ExtTreeMap.getElem?_insert]

@[simp] theorem add_committed_prepared (journal : ReplicaJournal) (index : Nat) :
    (journal.addCommitted index).prepared = journal.prepared := by
  unfold addCommitted
  split <;> rfl

@[simp] theorem add_committed_snapshot (journal : ReplicaJournal) (index : Nat) :
    (journal.addCommitted index).snapshotIndex = journal.snapshotIndex := by
  unfold addCommitted
  split <;> rfl

@[simp] theorem mem_add_committed (journal : ReplicaJournal) (index other : Nat) :
    other ∈ (journal.addCommitted index).committed ↔ other = index ∨ other ∈ journal.committed := by
  unfold addCommitted
  split
  · constructor
    · exact .inr
    · rintro (rfl | h) <;> assumption
  · simp

variable [FloatRepr]

/-- The maps of a journal agree with the lines they were loaded from. -/
structure Reflects (lines : List JournalRecord) (journal : ReplicaJournal) : Prop where
  committed_iff : ∀ index, index ∈ journal.committed ↔ .commit index ∈ lines
  prepared_mem : ∀ index entry, journal.prepared[index]? = some entry →
    .prepare entry ∈ lines ∧ entry.index = index
  validated : ∀ (index : Nat) (entry : ReplicatedEntry),
    journal.prepared[index]? = some entry → entry.validate = .ok ()
  prepared_of_mem : ∀ entry, .prepare entry ∈ lines →
    ∃ kept, journal.prepared[entry.index]? = some kept ∧
      kept.mutationChecksum = entry.mutationChecksum
  prepared_of_committed : ∀ index ∈ journal.committed,
    ∃ entry, journal.prepared[index]? = some entry
  snapshot_le : ∀ index, .snapshot index ∈ lines → index ≤ journal.snapshotIndex
  snapshot_mem : journal.snapshotIndex = 0 ∨ .snapshot journal.snapshotIndex ∈ lines
  nodup : journal.committed.Nodup

/-- One more line keeps the agreement. -/
theorem reflects_load_record {journal next : ReplicaJournal} {line : JournalRecord}
    (h : Reflects lines journal) (hload : journal.loadRecord line = .ok next) :
    Reflects (lines ++ [line]) next := by
  cases line with
  | prepare entry =>
      obtain ⟨hvalid, hsame, rfl⟩ := load_record_prepare_ok.1 hload
      refine ⟨by simpa using h.committed_iff, ?_, ?_, ?_, ?_, by simpa using h.snapshot_le, ?_,
        h.nodup⟩
      · intro index other hother
        rw [add_prepared_get] at hother
        split at hother
        · next heq =>
            cases hother
            exact ⟨by simp, heq⟩
        · have := h.prepared_mem index other hother
          exact ⟨by simp [this.1], this.2⟩
      · intro index other hother
        rw [add_prepared_get] at hother
        split at hother
        · cases hother
          exact hvalid
        · exact h.validated index other hother
      · intro other hother
        rw [add_prepared_get]
        rcases mem_append.1 hother with hother | hother
        · obtain ⟨kept, hkept, hchecksum⟩ := h.prepared_of_mem other hother
          split
          · next heq => exact ⟨entry, rfl, (hsame kept (heq ▸ hkept)).symm.trans hchecksum⟩
          · exact ⟨kept, hkept, hchecksum⟩
        · simp only [mem_singleton, JournalRecord.prepare.injEq] at hother
          subst hother
          exact ⟨other, by simp, rfl⟩
      · intro index hindex
        obtain ⟨kept, hkept⟩ := h.prepared_of_committed index hindex
        rw [add_prepared_get]
        split
        · exact ⟨entry, rfl⟩
        · exact ⟨kept, hkept⟩
      · rcases h.snapshot_mem with hzero | hmem
        · exact .inl hzero
        · exact .inr (by simp [hmem])
  | commit index =>
      obtain ⟨hprepared, rfl⟩ := load_record_commit_ok.1 hload
      refine ⟨?_, ?_, by simpa using h.validated, ?_, ?_, by simpa using h.snapshot_le, ?_, ?_⟩
      · intro other
        simp only [mem_add_committed, h.committed_iff, mem_append, mem_singleton,
          JournalRecord.commit.injEq, or_comm]
      · intro other entry hother
        rw [add_committed_prepared] at hother
        have := h.prepared_mem other entry hother
        exact ⟨by simp [this.1], this.2⟩
      · intro entry hentry
        rw [add_committed_prepared]
        exact h.prepared_of_mem entry (by simpa using hentry)
      · intro other hother
        rw [add_committed_prepared]
        rcases (mem_add_committed _ _ _).1 hother with rfl | hother
        · exact ⟨_, Std.ExtTreeMap.getElem?_eq_some_getElem hprepared⟩
        · exact h.prepared_of_committed other hother
      · rw [add_committed_snapshot]
        rcases h.snapshot_mem with hzero | hmem
        · exact .inl hzero
        · exact .inr (by simp [hmem])
      · unfold addCommitted
        split
        · exact h.nodup
        · exact nodup_cons.2 ⟨‹_›, h.nodup⟩
  | snapshot index =>
      simp only [loadRecord, pure_ok] at hload
      subst hload
      refine ⟨by simpa using h.committed_iff, ?_, h.validated, by simpa using h.prepared_of_mem,
        h.prepared_of_committed, ?_, ?_, h.nodup⟩
      · intro other entry hother
        have := h.prepared_mem other entry hother
        exact ⟨by simp [this.1], this.2⟩
      · intro other hother
        simp only [mem_append, mem_singleton, JournalRecord.snapshot.injEq] at hother
        rcases hother with hother | rfl
        · exact (h.snapshot_le other hother).trans (le_max_left _ _)
        · exact le_max_right _ _
      · rcases Nat.le_total journal.snapshotIndex index with hle | hle
        · exact .inr (by simp [max_eq_right hle])
        · rw [max_eq_left hle]
          rcases h.snapshot_mem with hzero | hmem
          · exact .inl hzero
          · exact .inr (by simp [hmem])

theorem reflects_load (h : load lines = .ok journal) : Reflects lines journal := by
  induction lines using List.reverseRecOn generalizing journal with
  | nil =>
      cases (pure_ok.1 h)
      exact ⟨by simp [empty], by simp [empty], by simp [empty], by simp, by simp [empty], by simp,
        .inl rfl, nodup_nil⟩
  | append_singleton lines line ih =>
      cases hlines : load lines with
      | error e =>
          unfold load at h hlines
          rw [load_lines_append, hlines] at h
          cases h
      | ok previous =>
          rw [load_append hlines] at h
          exact reflects_load_record (ih hlines) h

/-! ## Committed entries in index order -/

omit [FloatRepr]

theorem mem_committed_after :
    entry ∈ journal.committedAfter index ↔
      ∃ other ∈ journal.committed, index < other ∧ journal.prepared[other]? = some entry := by
  simp [committedAfter, and_assoc]

theorem committed_after_eq_nil (h : ∀ other ∈ journal.committed, other ≤ index) :
    journal.committedAfter index = [] := by
  rw [eq_nil_iff_forall_not_mem]
  intro entry hentry
  obtain ⟨other, hother, hlt, -⟩ := mem_committed_after.1 hentry
  exact absurd (h other hother) (by omega)

theorem committed_after_add_prepared (h : entry.index ∉ journal.committed) (index : Nat) :
    (journal.addPrepared entry).committedAfter index = journal.committedAfter index := by
  unfold committedAfter
  apply filterMap_congr
  intro other hother
  have hmem : other ∈ journal.committed := by
    simpa using (mem_filter.1 hother).1
  rw [add_prepared_get, if_neg]
  rintro rfl
  exact h hmem

/-- A marker above all others puts its entry at the end. -/
theorem committed_after_add_committed (hentry : journal.prepared[index]? = some entry)
    (h : ∀ other ∈ journal.committed, other < index) {bound : Nat} (hbound : bound < index) :
    (journal.addCommitted index).committedAfter bound =
      journal.committedAfter bound ++ [entry] := by
  have hnew : index ∉ journal.committed := fun hmem => absurd (h index hmem) (by omega)
  have hsort : (index :: journal.committed).insertionSort (· ≤ ·) =
      journal.committed.insertionSort (· ≤ ·) ++ [index] := by
    refine List.Perm.eq_of_pairwise' (pairwise_insertionSort (· ≤ ·) _) ?_ ?_
    · refine pairwise_append.2 ⟨pairwise_insertionSort (· ≤ ·) _, by simp, ?_⟩
      intro other hother last hlast
      simp only [mem_singleton] at hlast
      subst hlast
      exact (h other (by simpa using hother)).le
    · refine (perm_insertionSort (· ≤ ·) _).trans ?_
      refine (List.Perm.cons index (perm_insertionSort (· ≤ ·) _).symm).trans ?_
      exact (perm_append_singleton _ _).symm
  unfold addCommitted committedAfter
  rw [if_neg hnew]
  simp only [hsort, filter_append, filterMap_append]
  simp [hbound, hentry]

theorem committed_after_sorted [FloatRepr] (h : Reflects lines journal) (index : Nat) :
    (journal.committedAfter index).Pairwise (·.index < ·.index) := by
  have hsorted : (journal.committed.insertionSort (· ≤ ·)).Pairwise (· < ·) := by
    have hle := pairwise_insertionSort (· ≤ ·) journal.committed
    have hne : (journal.committed.insertionSort (· ≤ ·)).Nodup :=
      (perm_insertionSort (· ≤ ·) _).nodup_iff.2 h.nodup
    exact hle.imp₂ (fun _ _ hab hne => lt_of_le_of_ne hab hne) hne
  unfold committedAfter
  refine List.Pairwise.filterMap _ ?_ (hsorted.filter _)
  intro a b hab entry hentry other hother
  rwa [(h.prepared_mem a entry hentry).2, (h.prepared_mem b other hother).2]

theorem committed_after_filter [FloatRepr] (h : Reflects lines journal) {index higher : Nat}
    (hle : index ≤ higher) :
    journal.committedAfter higher =
      (journal.committedAfter index).filter (fun entry => higher < entry.index) := by
  unfold committedAfter
  induction journal.committed.insertionSort (· ≤ ·) with
  | nil => rfl
  | cons other rest ih =>
      cases hentry : journal.prepared[other]? with
      | none => grind
      | some entry =>
          have hindex := (h.prepared_mem other entry hentry).2
          grind

theorem committed_after_tail [FloatRepr] (h : Reflects lines journal)
    {rest : List ReplicatedEntry} (hcons : journal.committedAfter index = entry :: rest) :
    journal.committedAfter entry.index = rest := by
  have hsorted := committed_after_sorted h index
  have hlt : index < entry.index := by
    have hmem : entry ∈ journal.committedAfter index := by simp [hcons]
    obtain ⟨other, -, hlt, hentry⟩ := mem_committed_after.1 hmem
    rwa [(h.prepared_mem other entry hentry).2]
  rw [hcons, pairwise_cons] at hsorted
  rw [committed_after_filter h hlt.le, hcons, filter_cons_of_neg (by simp)]
  exact filter_eq_self.2 fun other hother => by simpa using hsorted.1 other hother

end ReplicaJournal

end Akasha.Distributed

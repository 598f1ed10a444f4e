import Akasha.Distributed.Acceptance
import Akasha.Distributed.Replica

/-!
# Runs of one replica

A run is a list of calls on one shard directory, each with the number of file writes after which
the process dies, if it does. Two results are proved about whole runs. `reopen_after_run` says
that a directory whose committed mutations the kernel accepts can always be opened again.
`state_is_fold_of_log` says that a replica whose commits arrive in index order holds exactly the
fold of its marked entries, whatever crashes fall between its file writes.
-/

namespace Akasha.Distributed

open Lib Lib.Exec ReplicaJournal

/-! ## Calls -/

/-- A call on a replica; `reopen` constructs the `ReplicaShard` again. -/
inductive ReplicaCall where
  | configure (term placementEpoch : Nat)
  | prepare (entry : ReplicatedEntry)
  | commit (entry : ReplicatedEntry)
  | reopen

variable {replica : Replica} {I : Replica → Prop}

section

variable [FloatRepr]

/-- One call of a run. -/
def Replica.call (shardId dimension : Nat) (replica : Replica) (writes : Option Nat) :
    ReplicaCall → Replica
  | .configure term placementEpoch =>
      replica.method writes (Distributed.configure term placementEpoch)
  | .prepare entry => replica.method writes (Distributed.prepare entry)
  | .commit entry => replica.method writes (Distributed.commit entry)
  | .reopen =>
      .afterOpen (openShard shardId dimension
        ⟨replica.disk, .unread shardId dimension, writes⟩)

/-- The call did not raise: it returned, or its process died in it. -/
def Replica.accepts (shardId dimension : Nat) (replica : Replica) (writes : Option Nat)
    (call : ReplicaCall) : Bool :=
  let raised {α : Type} : Except Error α × Process → Bool
    | (.ok _, _) => false
    | (.error e, _) => e ≠ .crash
  match call, replica.shard with
  | .reopen, _ =>
      !raised (openShard shardId dimension ⟨replica.disk, .unread shardId dimension, writes⟩)
  | _, none => false
  | .configure term placementEpoch, some shard =>
      !raised (Distributed.configure term placementEpoch ⟨replica.disk, shard, writes⟩)
  | .prepare entry, some shard =>
      !raised (Distributed.prepare entry ⟨replica.disk, shard, writes⟩)
  | .commit entry, some shard =>
      !raised (Distributed.commit entry ⟨replica.disk, shard, writes⟩)

/-- Every call of the run was accepted. -/
def Replica.acceptsAll (shardId dimension : Nat) :
    Replica → List (ReplicaCall × Option Nat) → Bool
  | _, [] => true
  | replica, (call, writes) :: calls =>
      replica.accepts shardId dimension writes call &&
        acceptsAll shardId dimension (replica.call shardId dimension writes call) calls

/-- A sequence of calls. -/
def Replica.run (shardId dimension : Nat) : Replica → List (ReplicaCall × Option Nat) → Replica
  | replica, [] => replica
  | replica, (call, writes) :: calls =>
      run shardId dimension (replica.call shardId dimension writes call) calls

/-- Every call of the run meets a condition in the state before it. -/
def Replica.Meets (shardId dimension : Nat) (condition : Replica → ReplicaCall → Prop) :
    Replica → List (ReplicaCall × Option Nat) → Prop
  | _, [] => True
  | replica, (call, writes) :: calls =>
      condition replica call ∧
        Meets shardId dimension condition (replica.call shardId dimension writes call) calls

theorem run_invariant {shardId dimension : Nat} {condition : Replica → ReplicaCall → Prop}
    (hstep : ∀ replica call writes, I replica → condition replica call →
      I (replica.call shardId dimension writes call)) {calls : List (ReplicaCall × Option Nat)}
    (h : I replica) (hmeets : Replica.Meets shardId dimension condition replica calls) :
    I (Replica.run shardId dimension replica calls) := by
  induction calls generalizing replica with
  | nil => exact h
  | cons first calls ih => exact ih (hstep _ _ _ h hmeets.1) hmeets.2

end

theorem after_method_of_wp {α : Type} {x : ShardM α} {process : Process}
    (h : wp x (fun _ p => I ⟨p.disk, some p.shard⟩)
      (fun e p => if e = .crash then I ⟨p.disk, none⟩ else I ⟨p.disk, some p.shard⟩) process) :
    I (.afterMethod (x process)) := by
  unfold wp at h
  cases hx : x process with
  | mk result p =>
      rw [hx] at h
      cases result with
      | ok a => exact h
      | error e => cases e <;> simpa [Replica.afterMethod] using h

theorem after_open_of_wp {x : ShardM Unit} {process : Process}
    (h : wp x (fun _ p => I ⟨p.disk, some p.shard⟩) (fun _ p => I ⟨p.disk, none⟩) process) :
    I (.afterOpen (x process)) := by
  unfold wp at h
  cases hx : x process with
  | mk result p =>
      rw [hx] at h
      cases result <;> exact h

/-! ## File writes -/

variable {entry : ReplicatedEntry} {operation : Operation}

section

variable {Q : Unit → Process → Prop} {E : Error → Process → Prop} {process : Process}

theorem wp_durable {change : ShardDisk → ShardDisk}
    (hok : ∀ left, (process.writes = none → left = none) →
      Q () ⟨change process.disk, process.shard, left⟩)
    (hcrash : process.writes ≠ none → E .crash process) :
    wp (durable change) Q E process := by
  unfold wp durable
  obtain ⟨disk, shard, writes⟩ := process
  match writes with
  | none => exact hok none fun _ => rfl
  | some 0 => exact hcrash (by simp)
  | some (left + 1) => exact hok (some left) (by simp)

theorem wp_append_line {line : JournalRecord}
    (hok : ∀ left, (process.writes = none → left = none) →
      Q () ⟨{ process.disk with journal := process.disk.journal.append line },
        process.shard, left⟩)
    (htorn : process.writes ≠ none → ∀ left,
      E .crash ⟨{ process.disk with journal := process.disk.journal.tear }, process.shard, left⟩)
    (hcrash : process.writes ≠ none → E .crash process) : wp (appendLine line) Q E process := by
  simp only [appendLine, wp_bind]
  refine wp_durable (fun left hleft => ?_) hcrash
  exact wp_durable (fun next hnext => hok next fun h => hnext (hleft h))
    fun hne => htorn (fun h => hne (hleft h)) left

/-- The writes of an accepted mutation perform its operation; a crash leaves a collection on
which performing it again gives the same result. -/
theorem wp_apply {mutation : Json}
    (hvalid : validateReplicatedMutation mutation (some process.shard.dimension) = .ok ())
    (hperform : StepsPerform operation (applySteps process.shard.dimension mutation))
    (hok : ∀ left, (process.writes = none → left = none) → Q () ⟨{ process.disk with
      collection := perform operation process.disk.collection }, process.shard, left⟩)
    (hcrash : process.writes ≠ none → ∀ points left,
      perform operation points = perform operation process.disk.collection →
      E .crash ⟨{ process.disk with collection := points }, process.shard, left⟩) :
    wp (apply mutation) Q E process := by
  simp only [apply, wp_bind, wp_read, wp_lift, hvalid]
  refine ⟨fun _ _ => ?_, fun e he => by cases he⟩
  have hnow : process.writes ≠ none → E .crash process := fun hne =>
    hcrash hne process.disk.collection process.writes rfl
  generalize applySteps process.shard.dimension mutation = steps at hperform
  cases hperform with
  | one step hstep =>
      simp only [forEach, collectionStep, wp_bind, wp_read, wp_lift, hstep, wp_pure]
      refine ⟨fun points hpoints => ?_, fun e he => by cases he⟩
      cases hpoints
      exact wp_durable hok hnow
  | two first second hsteps =>
      obtain ⟨middle, hfirst, hsecond, hredo⟩ := hsteps process.disk.collection
      simp only [forEach, collectionStep, wp_bind, wp_read, wp_lift, hfirst, wp_pure]
      refine ⟨fun points hpoints => ?_, fun e he => by cases he⟩
      cases hpoints
      refine wp_durable (fun left hleft => ?_) hnow
      simp only [hsecond]
      refine ⟨fun points hpoints => ?_, fun e he => by cases he⟩
      cases hpoints
      exact wp_durable (fun next hnext => hok next fun h => hnext (hleft h))
        fun hne => hcrash (fun h => hne (hleft h)) middle left hredo

theorem wp_apply_entry
    (hvalid : validateReplicatedMutation entry.mutation (some process.shard.dimension) = .ok ())
    (hperform : StepsPerform operation (applySteps process.shard.dimension entry.mutation))
    (hok : ∀ left, (process.writes = none → left = none) → Q () ⟨{ process.disk with
        state := { process.shard.state with appliedIndex := entry.index }
        collection := perform operation process.disk.collection },
      { process.shard with
        state := { process.shard.state with appliedIndex := entry.index } }, left⟩)
    (hcrash : process.writes ≠ none → ∀ points shard left,
      perform operation points = perform operation process.disk.collection →
      E .crash ⟨{ process.disk with collection := points }, shard, left⟩) :
    wp (applyEntry entry) Q E process := by
  simp only [applyEntry, wp_bind]
  refine wp_apply hvalid hperform (fun left hleft => ?_)
    fun hne points left h => hcrash hne points _ left h
  simp only [modifyShard, wp_update, publishState, wp_bind, wp_read]
  exact wp_durable (fun next hnext => hok next fun h => hnext (hleft h))
    fun hne => hcrash (fun h => hne (hleft h)) _ _ _ (perform_idem _ _)

end

/-! ## The journal of a replica -/

/-- The journal holds mutations validated for the dimension, and the marked ones are accepted
by the kernel. -/
structure Sound (dimension : Nat) (journal : ReplicaJournal) : Prop where
  valid : ∀ (index : Nat) (entry : ReplicatedEntry), journal.prepared[index]? = some entry →
    validateReplicatedMutation entry.mutation (some dimension) = .ok ()
  accepted : ∀ index ∈ journal.committed, ∀ entry : ReplicatedEntry,
    journal.prepared[index]? = some entry → KernelAccepts entry.mutation

/-- The entry a commit marks: the one already prepared at its index, else its own. -/
def ReplicaShard.entryAt (shard : ReplicaShard) (entry : ReplicatedEntry) : ReplicatedEntry :=
  (shard.journal.prepared[entry.index]?).getD entry

variable [FloatRepr]

/-- The lines load into the journal, which is sound. -/
structure Journaled (dimension : Nat) (disk : ShardDisk) (journal : ReplicaJournal) : Prop where
  loads : load disk.journal.lines = .ok journal
  sound : Sound dimension journal

variable {journal : ReplicaJournal}

/-- A new prepared entry keeps the journal sound. -/
theorem journaled_add_prepared {dimension : Nat} {disk : ShardDisk}
    (h : Journaled dimension disk journal) (hentry : entry.validate = .ok ())
    (hvalid : validateReplicatedMutation entry.mutation (some dimension) = .ok ())
    (hnew : journal.prepared[entry.index]? = none) :
    Journaled dimension { disk with journal := disk.journal.append (.prepare entry) }
      (journal.addPrepared entry) := by
  refine ⟨?_, ?_, ?_⟩
  · simp only [JournalFile.append, load_append h.loads]
    exact load_record_prepare_ok.2 ⟨hentry, by simp [hnew], rfl⟩
  · intro index other hother
    rw [add_prepared_get] at hother
    split at hother
    · cases hother
      exact hvalid
    · exact h.sound.valid index other hother
  · intro index hindex other hother
    have hne : entry.index ≠ index := by
      rintro rfl
      obtain ⟨_, hsome⟩ := (reflects_load h.loads).prepared_of_committed _ hindex
      simp [hnew] at hsome
    rw [add_prepared_get, if_neg hne] at hother
    exact h.sound.accepted index hindex other hother

variable {index : Nat}

theorem journaled_add_committed {dimension : Nat} {disk : ShardDisk}
    (h : Journaled dimension disk journal) (hentry : journal.prepared[index]? = some entry)
    (haccepts : KernelAccepts entry.mutation) :
    Journaled dimension { disk with journal := disk.journal.append (.commit index) }
      (journal.addCommitted index) := by
  refine ⟨?_, ?_, ?_⟩
  · simp only [JournalFile.append, load_append h.loads]
    exact load_record_commit_ok.2
      ⟨Std.ExtTreeMap.mem_iff_isSome_getElem?.2 (by simp [hentry]), rfl⟩
  · simpa using h.sound.valid
  · intro other hother kept hkept
    rw [add_committed_prepared] at hkept
    rcases (mem_add_committed _ _ _).1 hother with rfl | hother
    · cases hentry.symm.trans hkept
      exact haccepts
    · exact h.sound.accepted other hother kept hkept

/-! ## The invariant -/

/-- Apply the mutations of entries one after another. -/
def foldEntries (dimension : Nat) : PointMap → List ReplicatedEntry → Except Error PointMap
  | points, [] => pure points
  | points, entry :: entries => do
      let next ← applyMutation dimension entry.mutation points
      foldEntries dimension next entries

/-- Replaying what is committed above the applied index gives the fold of all marked entries,
and the applied index is a marked one. -/
structure Replayable (dimension : Nat) (disk : ShardDisk) (journal : ReplicaJournal) : Prop where
  replay : ∃ points, foldEntries dimension ∅ (journal.committedAfter 0) = .ok points ∧
    foldEntries dimension disk.collection
      (journal.committedAfter disk.state.appliedIndex) = .ok points
  applied : disk.state.appliedIndex ≠ 0 → disk.state.appliedIndex ∈ journal.committed

/-- A directory a process may open. `ordered` says whether commits came in index order, which
only the part about the collection needs. -/
structure Recoverable (ordered : Prop) (dimension : Nat) (disk : ShardDisk)
    (journal : ReplicaJournal) : Prop where
  journaled : Journaled dimension disk journal
  replayable : ordered → Replayable dimension disk journal

/-- A process that serves its directory and has applied every marked entry. -/
structure Serving (ordered : Prop) (dimension : Nat) (disk : ShardDisk)
    (shard : ReplicaShard) : Prop where
  recoverable : Recoverable ordered dimension disk shard.journal
  dimension_eq : shard.dimension = dimension
  state_eq : disk.state = shard.state
  caught_up : ordered → ∀ index ∈ shard.journal.committed, index ≤ shard.state.appliedIndex

/-- The invariant of a run: a live replica serves, a dead one can be opened. -/
def ReplicaInv (ordered : Prop) (dimension : Nat) (replica : Replica) : Prop :=
  match replica.shard with
  | some shard => Serving ordered dimension replica.disk shard
  | none => ∃ journal, Recoverable ordered dimension replica.disk journal

omit [FloatRepr] in
theorem fold_entries_cons {dimension : Nat}
    (hvalid : validateReplicatedMutation entry.mutation (some dimension) = .ok ())
    (hperform : StepsPerform operation (applySteps dimension entry.mutation)) (points : PointMap)
    (entries : List ReplicatedEntry) :
    foldEntries dimension points (entry :: entries) =
      foldEntries dimension (perform operation points) entries := by
  simp [foldEntries, applyMutation, hvalid, run_steps_of_perform hperform, bind, Except.bind]

omit [FloatRepr] in
theorem fold_entries_append {dimension : Nat} (points : PointMap)
    (first second : List ReplicatedEntry) :
    foldEntries dimension points (first ++ second) =
      (foldEntries dimension points first >>= fun next => foldEntries dimension next second) := by
  induction first generalizing points with
  | nil => rfl
  | cons entry first ih =>
      simp only [List.cons_append, foldEntries]
      cases applyMutation dimension entry.mutation points with
      | error e => rfl
      | ok next => exact ih next

omit [FloatRepr] in
theorem operation_of_committed {dimension : Nat} (h : Sound dimension journal)
    (hindex : index ∈ journal.committed) (hentry : journal.prepared[index]? = some entry) :
    ∃ operation, StepsPerform operation (applySteps dimension entry.mutation) := by
  obtain ⟨operation, -, hperform⟩ :=
    steps_of_accepts (h.valid index entry hentry) (h.accepted index hindex entry hentry)
  exact ⟨operation, hperform⟩

variable {ordered : Prop} {dimension : Nat} {process : Process}

/-- What the end of the process leaves behind. -/
def Crashed (ordered : Prop) (dimension : Nat) (process : Process) (e : Error) (p : Process) :
    Prop :=
  e = .crash ∧ process.writes ≠ none ∧ ∃ journal, Recoverable ordered dimension p.disk journal

/-- Replay applies every marked entry above the applied index. -/
theorem wp_replay_committed (process : Process)
    (h : Recoverable ordered dimension process.disk process.shard.journal)
    (hdimension : process.shard.dimension = dimension)
    (hstate : process.disk.state = process.shard.state) :
    wp replayCommitted
      (fun _ p => Serving ordered dimension p.disk p.shard ∧ (process.writes = none → p.writes = none))
      (Crashed ordered dimension process) process := by
  simp only [replayCommitted, wp_bind, wp_read]
  have hreflects := reflects_load h.journaled.loads
  -- The entries still to apply are those committed above the applied index reached so far.
  let remaining (before : List ReplicatedEntry) (p : Process) : Prop :=
    Recoverable ordered dimension p.disk process.shard.journal ∧
      p.shard.journal = process.shard.journal ∧ p.shard.dimension = dimension ∧
      p.disk.state = p.shard.state ∧ (process.writes = none → p.writes = none) ∧
      process.shard.journal.committedAfter process.shard.state.appliedIndex =
        before ++ process.shard.journal.committedAfter p.shard.state.appliedIndex
  refine wp_mono (wp_for_each remaining _ ?_ ⟨h, rfl, hdimension, hstate, id, rfl⟩) ?_
    fun e p hp => hp
  · rintro before entry after hentries p ⟨hrec, hjournal, hdim, hst, hwrites, hrest⟩
    have hnext : process.shard.journal.committedAfter p.shard.state.appliedIndex =
        entry :: after := List.append_cancel_left (hrest.symm.trans hentries)
    obtain ⟨index, hindex, -, hentry⟩ := mem_committed_after.1
      (by rw [hnext]; exact List.mem_cons_self)
    obtain ⟨operation, hperform⟩ := operation_of_committed hrec.journaled.sound hindex hentry
    have hvalid := hrec.journaled.sound.valid index entry hentry
    have hsame : entry.index = index := (hreflects.prepared_mem index entry hentry).2
    have hfold := fold_entries_cons hvalid hperform
    subst hdim
    refine wp_apply_entry hvalid hperform (fun left hleft => ?_) fun hne points shard left hredo => ?_
    · refine ⟨⟨⟨hrec.journaled.loads, hrec.journaled.sound⟩, fun ho => ⟨?_, fun _ => ?_⟩⟩,
        hjournal, rfl, rfl, fun hnone => hleft (hwrites hnone), ?_⟩
      · obtain ⟨final, hall, hpending⟩ := (hrec.replayable ho).replay
        rw [hst, hnext, hfold] at hpending
        refine ⟨final, hall, ?_⟩
        rwa [← committed_after_tail hreflects hnext] at hpending
      · exact hsame ▸ hindex
      · simp only [committed_after_tail hreflects hnext, hentries]
        simp
    · refine ⟨rfl, fun hnone => hne (hwrites hnone), process.shard.journal,
        ⟨hrec.journaled.loads, hrec.journaled.sound⟩, fun ho => ⟨?_, (hrec.replayable ho).applied⟩⟩
      obtain ⟨final, hall, hpending⟩ := (hrec.replayable ho).replay
      refine ⟨final, hall, ?_⟩
      rw [hst, hnext, hfold] at hpending
      simp only [hst, hnext, hfold, hredo]
      exact hpending
  · rintro _ p ⟨hrec, hjournal, hdim, hst, hwrites, hrest⟩
    have hnil : process.shard.journal.committedAfter p.shard.state.appliedIndex = [] :=
      List.append_right_eq_self.1 hrest.symm
    refine ⟨⟨hjournal ▸ hrec, hdim, hst, fun _ index hindex => ?_⟩, hwrites⟩
    rw [hjournal] at hindex
    obtain ⟨entry, hentry⟩ := hreflects.prepared_of_committed index hindex
    by_contra hlt
    have hmem : entry ∈ process.shard.journal.committedAfter p.shard.state.appliedIndex :=
      mem_committed_after.2 ⟨index, hindex, by omega, hentry⟩
    simp [hnil] at hmem

theorem wp_repair_torn_tail (h : Recoverable ordered dimension process.disk journal) :
    wp repairTornTail
      (fun _ p => Recoverable ordered dimension p.disk journal ∧
        p.disk.state = process.disk.state ∧ (process.writes = none → p.writes = none))
      (Crashed ordered dimension process) process := by
  simp only [repairTornTail, wp_bind, wp_read, wp_ite, wp_pure]
  refine ⟨fun _ => ?_, fun _ => ⟨h, trivial, id⟩⟩
  refine wp_durable (fun left hleft => ?_) fun hne => ⟨rfl, hne, journal, h⟩
  exact ⟨⟨⟨h.journaled.loads, h.journaled.sound⟩, fun ho =>
    ⟨(h.replayable ho).replay, (h.replayable ho).applied⟩⟩, rfl, hleft⟩

theorem wp_open_shard (shardId : Nat) (h : Recoverable ordered dimension process.disk journal) :
    wp (openShard shardId dimension) (fun _ p => Serving ordered dimension p.disk p.shard)
      (Crashed ordered dimension process) process := by
  simp only [openShard, wp_bind, wp_read, wp_lift, h.journaled.loads]
  refine ⟨fun loaded hloaded => ?_, fun e he => by cases he⟩
  cases hloaded
  refine wp_mono (wp_repair_torn_tail h) ?_ fun e p he => he
  rintro _ p ⟨hrec, hstate, hwrites⟩
  simp only [modifyShard, wp_update]
  refine wp_mono (wp_replay_committed ⟨p.disk, _, p.writes⟩ hrec rfl hstate)
    (fun _ p hp => hp.1) ?_
  rintro e p ⟨rfl, hne, hcrashed⟩
  exact ⟨rfl, fun hnone => hne (hwrites hnone), hcrashed⟩

/-- What a method leaves: the end of the process, or a process that still serves. -/
def Interrupted (ordered : Prop) (dimension : Nat) (e : Error) (p : Process) : Prop :=
  if e = .crash then ∃ journal, Recoverable ordered dimension p.disk journal
  else Serving ordered dimension p.disk p.shard

theorem interrupted_of_unchanged {e : Error}
    (h : Serving ordered dimension process.disk process.shard) :
    Interrupted ordered dimension e process := by
  unfold Interrupted
  split
  · exact ⟨_, h.recoverable⟩
  · exact h

theorem wp_configure {term placementEpoch : Nat}
    (h : Serving ordered dimension process.disk process.shard) :
    wp (configure term placementEpoch) (fun _ p => Serving ordered dimension p.disk p.shard)
      (Interrupted ordered dimension) process := by
  simp only [configure, wp_bind, wp_read, wp_ite, wp_raise]
  refine ⟨fun _ => interrupted_of_unchanged h, fun _ => ?_⟩
  simp only [modifyShard, wp_update, publishState, wp_bind, wp_read]
  have happlied : process.shard.state.appliedIndex = process.disk.state.appliedIndex := by
    rw [h.state_eq]
  refine wp_durable (fun left _ => ?_) fun _ => ?_
  · refine ⟨⟨⟨h.recoverable.journaled.loads, h.recoverable.journaled.sound⟩, fun ho => ⟨?_, ?_⟩⟩,
      h.dimension_eq, rfl, h.caught_up⟩
    · simpa [happlied] using (h.recoverable.replayable ho).replay
    · simpa [happlied] using (h.recoverable.replayable ho).applied
  · simp only [Interrupted, if_true]
    exact ⟨_, h.recoverable⟩

/-- `ReplicaJournal.prepare` of a validated mutation keeps a serving process serving, and leaves
the entry at its index prepared. -/
theorem wp_journal_prepare {Q : Unit → Process → Prop}
    (h : Serving ordered dimension process.disk process.shard)
    (hvalid : validateReplicatedMutation entry.mutation (some dimension) = .ok ())
    (hQ : ∀ p, Serving ordered dimension p.disk p.shard →
      p.shard.journal.committed = process.shard.journal.committed →
      p.shard.journal.prepared[entry.index]? = some (process.shard.entryAt entry) →
      0 < entry.index → Q () p) :
    wp (journalPrepare entry) Q (Interrupted ordered dimension) process := by
  simp only [journalPrepare, wp_bind, wp_lift, wp_read]
  refine ⟨fun _ hentry => ?_, fun e _ => interrupted_of_unchanged h⟩
  have hpos := ReplicatedEntry.index_pos hentry
  cases hold : process.shard.journal.prepared[entry.index]? with
  | some existing =>
      simp only [wp_ite, wp_raise, wp_pure]
      refine ⟨fun _ => interrupted_of_unchanged h, fun _ => hQ process h rfl ?_ hpos⟩
      simp [ReplicaShard.entryAt, hold]
  | none =>
      have hnew : entry.index ∉ process.shard.journal.committed := by
        intro hmem
        obtain ⟨_, hsome⟩ := (reflects_load
          h.recoverable.journaled.loads).prepared_of_committed _ hmem
        simp [hold] at hsome
      simp only [wp_bind]
      refine wp_append_line (fun left _ => ?_) (fun _ left => ?_) fun _ => ?_
      · simp only [modifyShard, wp_update]
        refine hQ _ ⟨⟨journaled_add_prepared h.recoverable.journaled hentry hvalid hold,
          fun ho => ⟨?_, (h.recoverable.replayable ho).applied⟩⟩, h.dimension_eq, h.state_eq,
          h.caught_up⟩ rfl ?_ hpos
        · simpa only [committed_after_add_prepared hnew] using
            (h.recoverable.replayable ho).replay
        · simp [ReplicaShard.entryAt, hold]
      · simp only [Interrupted, if_true]
        exact ⟨_, ⟨h.recoverable.journaled.loads, h.recoverable.journaled.sound⟩, fun ho =>
          ⟨(h.recoverable.replayable ho).replay, (h.recoverable.replayable ho).applied⟩⟩
      · exact interrupted_of_unchanged h

theorem wp_prepare (h : Serving ordered dimension process.disk process.shard) :
    wp (prepare entry) (fun _ p => Serving ordered dimension p.disk p.shard)
      (Interrupted ordered dimension) process := by
  simp only [prepare, wp_bind, wp_read, wp_lift, wp_ensure, wp_pure, h.dimension_eq]
  refine ⟨fun _ _ => ⟨fun _ hvalid => ⟨fun _ => ?_, fun _ => interrupted_of_unchanged h⟩,
    fun e _ => interrupted_of_unchanged h⟩, fun e _ => interrupted_of_unchanged h⟩
  exact wp_journal_prepare h hvalid fun p hp _ _ _ => hp

/-- The condition on a commit: the kernel accepts the mutation it marks and, where order
matters, its index is marked already or lies above every marked one. -/
def CommitMeets (ordered : Prop) (shard : ReplicaShard) (entry : ReplicatedEntry) : Prop :=
  KernelAccepts (shard.entryAt entry).mutation ∧
    (ordered → entry.index ∈ shard.journal.committed ∨
      ∀ index ∈ shard.journal.committed, index < entry.index)

/-- Applying a marked entry that is the only one above the applied index. -/
theorem wp_apply_once (process : Process)
    (h : Recoverable ordered dimension process.disk process.shard.journal)
    (hdimension : process.shard.dimension = dimension)
    (hstate : process.disk.state = process.shard.state)
    (hindex : index ∈ process.shard.journal.committed)
    (hentry : process.shard.journal.prepared[index]? = some entry)
    (hothers : ordered → ∀ other ∈ process.shard.journal.committed,
      other ≤ process.shard.state.appliedIndex ∨ other = index) :
    wp (applyOnce entry) (fun _ p => Serving ordered dimension p.disk p.shard)
      (Interrupted ordered dimension) process := by
  have hreflects := reflects_load h.journaled.loads
  have hsame : entry.index = index := (hreflects.prepared_mem index entry hentry).2
  obtain ⟨operation, hperform⟩ := operation_of_committed h.journaled.sound hindex hentry
  have hvalid := h.journaled.sound.valid index entry hentry
  have hfold := fold_entries_cons hvalid hperform
  simp only [applyOnce, wp_bind, wp_read, wp_ite, wp_pure]
  refine ⟨fun hlt => ?_, fun hle => ⟨h, hdimension, hstate, fun ho other hother => ?_⟩⟩
  · have hafter : ordered → process.shard.journal.committedAfter process.shard.state.appliedIndex =
        entry :: process.shard.journal.committedAfter entry.index := by
      intro ho
      have hmem : entry ∈ process.shard.journal.committedAfter
          process.shard.state.appliedIndex :=
        mem_committed_after.2 ⟨index, hindex, hsame ▸ hlt, hentry⟩
      cases hlist : process.shard.journal.committedAfter process.shard.state.appliedIndex with
      | nil => simp [hlist] at hmem
      | cons first rest =>
          have hfirst : first = entry := by
            obtain ⟨other, hother, hgt, hget⟩ := mem_committed_after.1
              (by rw [hlist]; exact List.mem_cons_self)
            rcases hothers ho other hother with hle | rfl
            · omega
            · exact Option.some.inj (hget.symm.trans hentry)
          rw [← hfirst, committed_after_tail hreflects hlist]
    subst hdimension
    refine wp_apply_entry hvalid hperform (fun left _ => ?_) fun _ points shard left hredo => ?_
    · refine ⟨⟨⟨h.journaled.loads, h.journaled.sound⟩, fun ho => ⟨?_, fun _ => hsame ▸ hindex⟩⟩,
        rfl, rfl, fun ho other hother => ?_⟩
      · obtain ⟨final, hall, hpending⟩ := (h.replayable ho).replay
        rw [hstate, hafter ho, hfold] at hpending
        exact ⟨final, hall, hpending⟩
      · rcases hothers ho other hother with hle | rfl
        · exact hle.trans hlt.le
        · exact hsame.ge
    · simp only [Interrupted, if_true]
      refine ⟨process.shard.journal, ⟨h.journaled.loads, h.journaled.sound⟩, fun ho =>
        ⟨?_, (h.replayable ho).applied⟩⟩
      obtain ⟨final, hall, hpending⟩ := (h.replayable ho).replay
      rw [hstate, hafter ho, hfold] at hpending
      refine ⟨final, hall, ?_⟩
      simp only [hstate, hafter ho, hfold, hredo]
      exact hpending
  · rcases hothers ho other hother with hle | rfl
    · exact hle
    · omega

/-- A marker above all others keeps the directory recoverable before its entry is applied. -/
theorem recoverable_add_committed (h : Serving ordered dimension process.disk process.shard)
    (hentry : process.shard.journal.prepared[index]? = some entry)
    (haccepts : KernelAccepts entry.mutation) (hpos : 0 < index)
    (horder : ordered → ∀ other ∈ process.shard.journal.committed, other < index) :
    Recoverable ordered dimension
      { process.disk with journal := process.disk.journal.append (.commit index) }
      (process.shard.journal.addCommitted index) := by
  have hjournaled := journaled_add_committed h.recoverable.journaled hentry haccepts
  refine ⟨hjournaled, fun ho => ⟨?_, fun hne => ?_⟩⟩
  · obtain ⟨final, hall, hpending⟩ := (h.recoverable.replayable ho).replay
    have happlied : process.disk.state.appliedIndex < index := by
      by_cases hzero : process.disk.state.appliedIndex = 0
      · omega
      · exact horder ho _ ((h.recoverable.replayable ho).applied hzero)
    have hnil : process.shard.journal.committedAfter process.disk.state.appliedIndex = [] :=
      committed_after_eq_nil (by simpa [h.state_eq] using h.caught_up ho)
    rw [hnil] at hpending
    cases pure_ok.1 hpending
    obtain ⟨operation, -, hperform⟩ :=
      steps_of_accepts (h.recoverable.journaled.sound.valid index entry hentry) haccepts
    have hfold := fold_entries_cons
      (h.recoverable.journaled.sound.valid index entry hentry) hperform
    refine ⟨perform operation process.disk.collection, ?_, ?_⟩
    · rw [committed_after_add_committed hentry (horder ho) hpos,
        fold_entries_append, hall]
      exact hfold _ []
    · simp only [committed_after_add_committed hentry (horder ho) happlied, hnil]
      exact hfold _ []
  · exact (mem_add_committed _ _ _).2
      (.inr ((h.recoverable.replayable ho).applied hne))

/-- `commit` keeps a serving process serving when its condition holds. -/
theorem wp_commit (h : Serving ordered dimension process.disk process.shard)
    (hmeets : CommitMeets ordered process.shard entry) :
    wp (commit entry) (fun _ p => Serving ordered dimension p.disk p.shard)
      (Interrupted ordered dimension) process := by
  simp only [commit, wp_bind, wp_read, wp_lift, wp_pure, h.dimension_eq]
  refine ⟨fun _ _ => ⟨fun _ hvalid => ?_, fun e _ => interrupted_of_unchanged h⟩,
    fun e _ => interrupted_of_unchanged h⟩
  refine wp_journal_prepare h hvalid fun p hp hcommitted hentry hpos => ?_
  obtain ⟨haccepts, horder⟩ := hmeets
  rw [← hcommitted] at horder
  simp only [journalCommit, wp_bind, wp_read, hentry]
  split
  · next hmem =>
      simp only [wp_pure]
      exact wp_apply_once p hp.recoverable hp.dimension_eq hp.state_eq hmem hentry
        fun ho other hother => .inl (hp.caught_up ho other hother)
  · next hmem =>
      have hnew : ordered → ∀ other ∈ p.shard.journal.committed, other < entry.index :=
        fun ho => (horder ho).resolve_left hmem
      have hrec := recoverable_add_committed hp hentry haccepts hpos hnew
      simp only [wp_bind, wp_pure]
      refine wp_append_line (fun left _ => ?_) (fun _ left => ?_) fun _ => ?_
      · simp only [modifyShard, wp_update]
        refine wp_apply_once ⟨_, _, left⟩ hrec hp.dimension_eq hp.state_eq
          ((mem_add_committed _ _ _).2 (.inl rfl))
          (by simpa using hentry) fun ho other hother => ?_
        rcases (mem_add_committed _ _ _).1 hother with rfl | hother
        · exact .inr rfl
        · exact .inl (hp.caught_up ho other hother)
      · simp only [Interrupted, if_true]
        exact ⟨_, ⟨hp.recoverable.journaled.loads, hp.recoverable.journaled.sound⟩, fun ho =>
          ⟨(hp.recoverable.replayable ho).replay, (hp.recoverable.replayable ho).applied⟩⟩
      · exact interrupted_of_unchanged hp

/-! ## Whole runs -/

/-- The condition on one call of a run. -/
def CallMeets (ordered : Prop) (replica : Replica) : ReplicaCall → Prop
  | .commit entry => ∀ shard, replica.shard = some shard → CommitMeets ordered shard entry
  | _ => True

theorem replica_inv_initial : ReplicaInv ordered dimension .initial :=
  ⟨.empty, ⟨rfl, by simp [empty], by simp [empty]⟩,
    fun _ => ⟨⟨∅, rfl, rfl⟩, fun hne => absurd rfl hne⟩⟩

theorem recoverable_of_inv (h : ReplicaInv ordered dimension replica) :
    ∃ journal, Recoverable ordered dimension replica.disk journal := by
  unfold ReplicaInv at h
  split at h
  · exact ⟨_, h.recoverable⟩
  · exact h

theorem replica_inv_method {α : Type} {writes : Option Nat} {x : ShardM α}
    (h : ReplicaInv ordered dimension replica)
    (hx : ∀ shard, replica.shard = some shard → Serving ordered dimension replica.disk shard →
      wp x (fun _ p => Serving ordered dimension p.disk p.shard)
        (Interrupted ordered dimension) ⟨replica.disk, shard, writes⟩) :
    ReplicaInv ordered dimension (replica.method writes x) := by
  unfold Replica.method
  cases hshard : replica.shard with
  | none => exact h
  | some shard =>
      refine after_method_of_wp (hx shard hshard ?_)
      simpa [ReplicaInv, hshard] using h

theorem replica_inv_call {shardId : Nat} {call : ReplicaCall} {writes : Option Nat}
    (h : ReplicaInv ordered dimension replica) (hmeets : CallMeets ordered replica call) :
    ReplicaInv ordered dimension (replica.call shardId dimension writes call) := by
  cases call with
  | configure term placementEpoch => exact replica_inv_method h fun _ _ hs => wp_configure hs
  | prepare entry => exact replica_inv_method h fun _ _ hs => wp_prepare hs
  | commit entry =>
      exact replica_inv_method h fun shard hshard hs => wp_commit hs (hmeets shard hshard)
  | reopen =>
      obtain ⟨journal, hrec⟩ := recoverable_of_inv h
      refine after_open_of_wp (wp_mono (wp_open_shard shardId hrec) (fun _ p hp => hp) ?_)
      rintro e p ⟨-, -, hcrashed⟩
      exact hcrashed

theorem replica_inv_run {shardId : Nat} {calls : List (ReplicaCall × Option Nat)}
    (hmeets : Replica.Meets shardId dimension (CallMeets ordered) .initial calls) :
    ReplicaInv ordered dimension (Replica.run shardId dimension .initial calls) :=
  run_invariant (fun _ _ _ h hcall => replica_inv_call h hcall) replica_inv_initial hmeets

/-! ## Main results -/

/-- The point state is the fold, in increasing index order, of exactly the entries whose index
has a commit marker in the journal file, and the applied index is the largest marked one. -/
structure FoldOfLog (dimension : Nat) (disk : ShardDisk) (appliedIndex : Nat) : Prop where
  folded : ∃ entries : List ReplicatedEntry, entries.Pairwise (·.index < ·.index) ∧
    (∀ index, .commit index ∈ disk.journal.lines ↔ ∃ entry ∈ entries, entry.index = index) ∧
    (∀ entry ∈ entries, .prepare entry ∈ disk.journal.lines) ∧
    foldEntries dimension ∅ entries = .ok disk.collection
  largest : ∀ index, .commit index ∈ disk.journal.lines → index ≤ appliedIndex
  marked : appliedIndex ≠ 0 → .commit appliedIndex ∈ disk.journal.lines

/-- A replica that serves with commits in order holds the fold of its log. -/
theorem fold_of_log_of_serving {disk : ShardDisk} {shard : ReplicaShard}
    (h : Serving True dimension disk shard) :
    FoldOfLog dimension disk shard.state.appliedIndex := by
  have hreflects := reflects_load h.recoverable.journaled.loads
  obtain ⟨points, hall, hpending⟩ := (h.recoverable.replayable trivial).replay
  have hnil : shard.journal.committedAfter disk.state.appliedIndex = [] :=
    committed_after_eq_nil (by simpa [h.state_eq] using h.caught_up trivial)
  rw [hnil] at hpending
  cases pure_ok.1 hpending
  refine ⟨⟨shard.journal.committedAfter 0, committed_after_sorted hreflects 0,
    fun index => ?_, fun entry hentry => ?_, hall⟩, fun index hindex => ?_, fun hne => ?_⟩
  · rw [← hreflects.committed_iff]
    constructor
    · intro hindex
      obtain ⟨entry, hentry⟩ := hreflects.prepared_of_committed index hindex
      have heq := (hreflects.prepared_mem index entry hentry).2
      have hpos := ReplicatedEntry.index_pos (hreflects.validated index entry hentry)
      exact ⟨entry, mem_committed_after.2 ⟨index, hindex, heq ▸ hpos, hentry⟩, heq⟩
    · rintro ⟨entry, hentry, rfl⟩
      obtain ⟨other, hother, -, hget⟩ := mem_committed_after.1 hentry
      rwa [(hreflects.prepared_mem other entry hget).2]
  · obtain ⟨other, -, -, hget⟩ := mem_committed_after.1 hentry
    exact (hreflects.prepared_mem other entry hget).1
  · exact h.caught_up trivial index ((hreflects.committed_iff index).2 hindex)
  · rw [← hreflects.committed_iff, ← h.state_eq]
    exact (h.recoverable.replayable trivial).applied (h.state_eq ▸ hne)

/-- In every run whose commits arrive in index order and carry mutations the kernel accepts,
every live replica holds the fold of its own log, across crashes after any file write. -/
theorem state_is_fold_of_log (shardId dimension : Nat) (calls : List (ReplicaCall × Option Nat))
    (hmeets : Replica.Meets shardId dimension (CallMeets True) .initial calls)
    (shard : ReplicaShard)
    (hshard : (Replica.run shardId dimension .initial calls).shard = some shard) :
    FoldOfLog dimension (Replica.run shardId dimension .initial calls).disk
      shard.state.appliedIndex := by
  have hinv := replica_inv_run hmeets
  unfold ReplicaInv at hinv
  rw [hshard] at hinv
  exact fold_of_log_of_serving hinv

/-- A validated mutation is applied, and then as a whole, exactly when the kernel accepts it;
and after any run whose commits carry accepted mutations, in any index order and with crashes
after any file write, the directory opens again. -/
theorem accepted_mutations_apply_and_reopen (shardId dimension : Nat) :
    (∀ mutation, validateReplicatedMutation mutation (some dimension) = .ok () → ∀ points,
      (∃ operation, Denotes mutation operation ∧
          applyMutation dimension mutation points = .ok (perform operation points)) ↔
        KernelAccepts mutation) ∧
    (∀ calls, Replica.Meets shardId dimension (CallMeets False) .initial calls →
      ∃ process, openShard shardId dimension
        ⟨(Replica.run shardId dimension .initial calls).disk, .unread shardId dimension, none⟩ =
          (.ok (), process)) := by
  refine ⟨fun mutation hvalid points => ⟨?_, fun haccepts => ?_⟩, fun calls hmeets => ?_⟩
  · rintro ⟨operation, -, happly⟩
    simp only [applyMutation, bind_ok] at happly
    obtain ⟨_, -, hsteps⟩ := happly
    exact accepts_of_run_steps hvalid hsteps
  · obtain ⟨operation, hdenotes, hperform⟩ := steps_of_accepts hvalid haccepts
    refine ⟨operation, hdenotes, ?_⟩
    simp [applyMutation, hvalid, run_steps_of_perform hperform, bind, Except.bind]
  · obtain ⟨journal, hrec⟩ := recoverable_of_inv (replica_inv_run hmeets)
    have hopen := wp_and (wp_open_shard shardId hrec) (wp_run (openShard shardId dimension)
      ⟨(Replica.run shardId dimension .initial calls).disk, .unread shardId dimension, none⟩)
    unfold wp at hopen
    split at hopen
    · next heq => exact ⟨_, heq⟩
    · exact absurd rfl hopen.1.2.1

omit [FloatRepr]

/-- A payload item. -/
def sampleItem : Json := .obj [("name", .str "a"), ("type", .str "int"), ("value", .int 5)]

/-- A sparse item. -/
def sampleTerm : Json := .obj [("term_id", .int 7), ("weight", .int 1)]

/-- An upsert of a one-dimensional point with a payload and a sparse vector. -/
def sampleUpsert (id : Int) : Json :=
  .obj [("operation", .str "upsert"), ("id", .int id), ("vector", .arr [.int 1]),
    ("fields", .arr [sampleItem]), ("sparse", .arr [sampleTerm])]

/-- The entry at an index of shard 0, term 1 and epoch 1, that upserts the point of that
number. -/
def sampleEntry (index : Nat) : ReplicatedEntry :=
  @ReplicatedEntry.create sampleFloatRepr 0 1 1 index "request" (sampleUpsert index)

/-- The replica of shard 0 and dimension 1 after some calls on an unused directory. -/
def sampleReplica (calls : List (ReplicaCall × Option Nat)) : Replica :=
  @Replica.run sampleFloatRepr 0 1 .initial calls

/-- Two commits in index order, the second of which dies before its entry is applied. -/
def inOrderCalls : List (ReplicaCall × Option Nat) :=
  [(.reopen, none), (.configure 1 1, none), (.commit (sampleEntry 1), none),
    (.commit (sampleEntry 2), some 4), (.reopen, none)]

theorem kernel_accepts_sample_upsert {id : Int} (h : Fits64 id) :
    KernelAccepts (sampleUpsert id) := by
  have hvector : items (field (sampleUpsert id) "vector") = [.int 1] := rfl
  have hfields : items (field (sampleUpsert id) "fields") = [sampleItem] := rfl
  have hsparse : items (field (sampleUpsert id) "sparse") = [sampleTerm] := rfl
  have hone : ∀ value, toFloat? (.int 1) = some value →
      value.toF32.isFinite ∧ ¬ value.toF32.isZero := by
    intro value hvalue
    cases (by decide +kernel : F64.ofInt? 1 = some ⟨0x3FF0000000000000⟩).symm.trans hvalue
    decide +kernel
  have hitem : PayloadItemAccepted sampleItem := by
    refine ⟨by decide +kernel, by decide +kernel, fun _ value hvalue => ?_⟩
    cases hvalue
    decide
  refine ⟨fun value hvalue => ?_, fun _ => ⟨?_, ?_, ?_, ?_, ?_, ?_⟩⟩
  · cases hvalue
    exact h
  · simpa [hvector] using fun value hvalue => (hone value hvalue).1
  · rw [hfields]
    decide
  · simpa [hfields] using hitem
  · rw [hfields]
    decide +kernel
  · simpa [hsparse] using ⟨by decide, hone⟩
  · simp [hsparse]

/-- A run in index order, with a crash between the marker and its application, holds the fold
of its log. -/
theorem state_is_fold_of_log_sample :
    ∃ shard, (sampleReplica inOrderCalls).shard = some shard ∧
      FoldOfLog 1 (sampleReplica inOrderCalls).disk shard.state.appliedIndex := by
  have hcommit : ∀ (replica : Replica) (index : Nat), Fits64 index →
      (∀ shard ∈ replica.shard, shard.entryAt (sampleEntry index) = sampleEntry index ∧
        ∀ other ∈ shard.journal.committed, other < index) →
      CallMeets True replica (.commit (sampleEntry index)) := by
    intro replica index hfits hcheck shard hshard
    obtain ⟨hentry, horder⟩ := hcheck shard hshard
    rw [CommitMeets, hentry]
    exact ⟨kernel_accepts_sample_upsert hfits, fun _ => .inr horder⟩
  have hmeets : @Replica.Meets sampleFloatRepr 0 1 (CallMeets True) .initial inOrderCalls :=
    ⟨trivial, trivial, hcommit _ 1 (by decide) (by decide +kernel),
      hcommit _ 2 (by decide) (by decide +kernel), trivial, trivial⟩
  have hopen : (sampleReplica inOrderCalls).shard.isSome := by decide +kernel
  obtain ⟨shard, hshard⟩ := Option.isSome_iff_exists.1 hopen
  exact ⟨shard, hshard, @state_is_fold_of_log sampleFloatRepr 0 1 inOrderCalls hmeets shard hshard⟩

theorem entries_eq_pair {first second : ReplicatedEntry} {entries : List ReplicatedEntry}
    (hlt : first.index < second.index) (hsorted : entries.Pairwise (·.index < ·.index))
    (honly : ∀ entry ∈ entries, entry = first ∨ entry = second) (hfirst : first ∈ entries)
    (hsecond : second ∈ entries) : entries = [first, second] := by
  have hne : first ≠ second := fun heq => by simp [heq] at hlt
  refine List.Perm.eq_of_pairwise (fun a b _ _ hab hba => by omega) hsorted (by simpa using hlt) ?_
  refine (List.perm_ext_iff_of_nodup (hsorted.imp fun h heq => by simp [heq] at h)
    (by simpa using hne)).2 fun entry => ⟨fun hentry => by simpa using honly entry hentry, ?_⟩
  intro hentry
  simp only [List.mem_cons, List.not_mem_nil, or_false] at hentry
  rcases hentry with rfl | rfl
  · exact hfirst
  · exact hsecond

/-- A commit of index 2 followed by one of index 1. -/
def outOfOrderCalls : List (ReplicaCall × Option Nat) :=
  [(.reopen, none), (.configure 1 1, none), (.commit (sampleEntry 2), none),
    (.commit (sampleEntry 1), none)]

/-- A commit below a marked index is accepted and marked, but never applied: the point state
then lacks a marked entry. -/
theorem out_of_order_commit_not_folded :
    @Replica.acceptsAll sampleFloatRepr 0 1 .initial outOfOrderCalls = true ∧
      ∃ shard, (sampleReplica outOfOrderCalls).shard = some shard ∧
        ¬ FoldOfLog 1 (sampleReplica outOfOrderCalls).disk shard.state.appliedIndex := by
  refine ⟨by decide +kernel, ?_⟩
  have hopen : (sampleReplica outOfOrderCalls).shard.isSome := by decide +kernel
  obtain ⟨shard, hshard⟩ := Option.isSome_iff_exists.1 hopen
  refine ⟨shard, hshard, ?_⟩
  rintro ⟨⟨entries, hsorted, hmarked, hprepared, hfold⟩, -, -⟩
  have hlines : (sampleReplica outOfOrderCalls).disk.journal.lines =
      [.prepare (sampleEntry 2), .commit 2, .prepare (sampleEntry 1), .commit 1] := by
    decide +kernel
  rw [hlines] at hmarked hprepared
  -- The marked entries in index order can only be those of index 1 and 2.
  have hsample : ∀ entry ∈ entries, entry = sampleEntry 2 ∨ entry = sampleEntry 1 := by
    simpa using hprepared
  have hmem : ∀ index ∈ [1, 2], sampleEntry index ∈ entries := by
    intro index hindex
    obtain ⟨entry, hentry, rfl⟩ := (hmarked index).1 (by simp at hindex ⊢; omega)
    rcases hsample entry hentry with rfl | rfl <;> exact hentry
  have hlist : entries = [sampleEntry 1, sampleEntry 2] :=
    entries_eq_pair (by decide) hsorted (fun entry hentry => (hsample entry hentry).symm)
      (hmem 1 (by simp)) (hmem 2 (by simp))
  have habsent : (sampleReplica outOfOrderCalls).disk.collection[(1 : Int64)]? = none := by
    decide +kernel
  have hpresent : ∃ points, foldEntries 1 ∅ [sampleEntry 1, sampleEntry 2] = .ok points ∧
      points[(1 : Int64)]? ≠ none := by
    have hsome : ((foldEntries 1 ∅ [sampleEntry 1, sampleEntry 2]).toOption.bind
        (·[(1 : Int64)]?)).isSome := by decide +kernel
    cases hresult : foldEntries 1 ∅ [sampleEntry 1, sampleEntry 2] with
    | error e => simp [hresult, Except.toOption] at hsome
    | ok points =>
        refine ⟨points, rfl, fun hnone => ?_⟩
        simp [hresult, Except.toOption, hnone] at hsome
  obtain ⟨points, hpoints, hne⟩ := hpresent
  rw [hlist, hpoints] at hfold
  rw [Except.ok.inj hfold] at hne
  exact hne habsent

/-- An upsert whose sparse terms descend, which the validator accepts. -/
def descendingUpsert : Json :=
  .obj [("operation", .str "upsert"), ("id", .int 1), ("vector", .arr [.int 1]),
    ("fields", .arr []),
    ("sparse", .arr [.obj [("term_id", .int 2), ("weight", .int 1)],
      .obj [("term_id", .int 1), ("weight", .int 1)]])]

/-- The commit of that upsert. -/
def descendingCalls : List (ReplicaCall × Option Nat) :=
  [(.reopen, none), (.configure 1 1, none),
    (.commit (@ReplicatedEntry.create sampleFloatRepr 0 1 1 1 "request" descendingUpsert), none)]

/-- A validated mutation that the kernel rejects: its commit leaves a marker, half of the upsert
in the collection, and a directory that no longer opens. -/
theorem descending_terms_poison_the_replica :
    (validateReplicatedMutation descendingUpsert (some 1)).isOk = true ∧
      (applyMutation 1 descendingUpsert ∅).isOk = false ∧
      (sampleReplica descendingCalls).disk.journal.lines.contains (.commit 1) = true ∧
      (sampleReplica descendingCalls).disk.collection.contains 1 = true ∧
      (@openShard sampleFloatRepr 0 1
        ⟨(sampleReplica descendingCalls).disk, .unread 0 1, none⟩).1.isOk = false := by
  decide +kernel

/-- The sample upserts are applied as a whole, and a replica that committed them opens again. -/
theorem accepted_mutations_apply_and_reopen_sample :
    (∃ operation, Denotes (sampleUpsert 1) operation ∧
        applyMutation 1 (sampleUpsert 1) ∅ = .ok (perform operation ∅)) ∧
      ∃ process, @openShard sampleFloatRepr 0 1
        ⟨(sampleReplica outOfOrderCalls).disk, .unread 0 1, none⟩ = (.ok (), process) := by
  have hcommit : ∀ (replica : Replica) (index : Nat), Fits64 index →
      (∀ shard ∈ replica.shard, shard.entryAt (sampleEntry index) = sampleEntry index) →
      CallMeets False replica (.commit (sampleEntry index)) := by
    intro replica index hfits hcheck shard hshard
    rw [CommitMeets, hcheck shard hshard]
    exact ⟨kernel_accepts_sample_upsert hfits, False.elim⟩
  have hmeets : @Replica.Meets sampleFloatRepr 0 1 (CallMeets False) .initial outOfOrderCalls :=
    ⟨trivial, trivial, hcommit _ 2 (by decide) (by decide +kernel),
      hcommit _ 1 (by decide) (by decide +kernel), trivial⟩
  obtain ⟨happly, hreopen⟩ := @accepted_mutations_apply_and_reopen sampleFloatRepr 0 1
  exact ⟨(happly _ rfl ∅).2 (kernel_accepts_sample_upsert (by decide)), hreopen _ hmeets⟩

end Akasha.Distributed

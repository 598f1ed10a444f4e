import Akasha.Distributed.ReplicaRun

/-!
# What the calls of a replica leave in its files

A `Trace` says which records the journal of a replica may hold and which states its process and
its state file may be in. `traced_call` and its companions say what a call may add; they make no
assumption about the mutations, so they also describe replicas that hold an entry the kernel
rejects.
-/

namespace Akasha.Distributed

open Lib Lib.Exec

/-- The records and states a replica may hold. A replica may always move its applied index to
an entry it holds. -/
structure Trace where
  shardId : Nat
  dimension : Nat
  allowed : JournalRecord → Prop
  states : ReplicaState → Prop
  advances : ∀ state entry, states state → allowed (.prepare entry) →
    states { state with appliedIndex := entry.index }

section

variable [FloatRepr]

namespace Trace

variable (trace : Trace)

/-- The files hold what is allowed. -/
structure OnDisk (disk : ShardDisk) : Prop where
  lines : ∀ line ∈ disk.journal.lines, trace.allowed line
  state : trace.states disk.state

/-- The object was read from the files and is in a state that is allowed. -/
structure OnShard (disk : ShardDisk) (shard : ReplicaShard) : Prop where
  loads : ReplicaJournal.load disk.journal.lines = .ok shard.journal
  state : trace.states shard.state
  shardId_eq : shard.shardId = trace.shardId
  dimension_eq : shard.dimension = trace.dimension

/-- Both, for a replica. -/
structure OnReplica (replica : Replica) : Prop where
  disk : trace.OnDisk replica.disk
  shard : ∀ shard, replica.shard = some shard → trace.OnShard replica.disk shard

/-- Both, for a process at work. -/
structure OnProcess (process : Process) : Prop where
  disk : trace.OnDisk process.disk
  shard : trace.OnShard process.disk process.shard

/-- What an exception leaves: only the files once the process has died. -/
structure Raised (e : Error) (process : Process) : Prop where
  disk : trace.OnDisk process.disk
  shard : e ≠ .crash → trace.OnShard process.disk process.shard

end Trace

variable {trace : Trace} {process : Process}

theorem Trace.OnProcess.raised (h : trace.OnProcess process) (e : Error) : trace.Raised e process :=
  ⟨h.disk, fun _ => h.shard⟩

theorem Trace.OnProcess.collection (h : trace.OnProcess process) (points : PointMap)
    (left : Option Nat) :
    trace.OnProcess ⟨{ process.disk with collection := points }, process.shard, left⟩ :=
  ⟨⟨h.disk.lines, h.disk.state⟩, ⟨h.shard.loads, h.shard.state, h.shard.shardId_eq,
    h.shard.dimension_eq⟩⟩

theorem traced_collection_step (step : PointMap → Except Error PointMap)
    (h : trace.OnProcess process) :
    wp (collectionStep step) (fun _ => trace.OnProcess) trace.Raised process := by
  simp only [collectionStep, wp_bind, wp_read, wp_lift]
  refine ⟨fun points _ => ?_, fun e _ => h.raised e⟩
  exact wp_durable (fun left _ => h.collection points left) fun _ => h.raised _

theorem traced_publish_state (h : trace.OnProcess process) :
    wp publishState (fun _ => trace.OnProcess) trace.Raised process := by
  simp only [publishState, wp_bind, wp_read]
  refine wp_durable (fun left _ => ?_) fun _ => h.raised _
  exact ⟨⟨h.disk.lines, h.shard.state⟩, h.shard.loads, h.shard.state, h.shard.shardId_eq,
    h.shard.dimension_eq⟩

theorem Trace.OnProcess.enter (h : trace.OnProcess process) {state : ReplicaState}
    (hstate : trace.states state) :
    trace.OnProcess { process with shard := { process.shard with state } } :=
  ⟨h.disk, h.shard.loads, hstate, h.shard.shardId_eq, h.shard.dimension_eq⟩

variable {entry : ReplicatedEntry}

theorem traced_apply_entry (hentry : trace.allowed (.prepare entry)) (h : trace.OnProcess process) :
    wp (applyEntry entry) (fun _ => trace.OnProcess) trace.Raised process := by
  simp only [applyEntry, apply, wp_bind, wp_read, wp_lift]
  refine ⟨fun _ _ => ?_, fun e _ => h.raised e⟩
  refine wp_mono (wp_for_each_inv trace.OnProcess _ (fun step _ _ hp =>
    traced_collection_step step hp) h) ?_ fun _ _ he => he
  intro _ p hp
  simp only [modifyShard, wp_update]
  exact traced_publish_state (hp.enter (trace.advances _ _ hp.shard.state hentry))

theorem traced_configure {term placementEpoch : Nat} (h : trace.OnProcess process)
    (hstate : ∀ state, trace.states state → trace.states ⟨term, placementEpoch,
      state.appliedIndex⟩) :
    wp (configure term placementEpoch) (fun _ => trace.OnProcess) trace.Raised process := by
  simp only [configure, wp_bind, wp_read, wp_ite, wp_raise, modifyShard, wp_update, wp_pure]
  refine ⟨fun _ => h.raised _, fun _ => ?_⟩
  exact traced_publish_state (h.enter (hstate _ h.shard.state))

theorem traced_append {line : JournalRecord} {change : ReplicaJournal → ReplicaJournal}
    (h : trace.OnProcess process) (hline : trace.allowed line)
    (hload : process.shard.journal.loadRecord line = .ok (change process.shard.journal)) :
    wp (do
        appendLine line
        modifyShard fun shard => { shard with journal := change shard.journal })
      (fun _ => trace.OnProcess) trace.Raised process := by
  rw [wp_bind]
  refine wp_append_line (fun left _ => ?_) (fun _ left => ?_) fun _ => h.raised _
  · simp only [modifyShard, wp_update]
    refine ⟨⟨?_, h.disk.state⟩, ?_, h.shard.state, h.shard.shardId_eq, h.shard.dimension_eq⟩
    · intro other hother
      rcases List.mem_append.1 hother with hother | hother
      · exact h.disk.lines other hother
      · exact List.mem_singleton.1 hother ▸ hline
    · exact (ReplicaJournal.load_append h.shard.loads line).trans hload
  · exact ⟨⟨h.disk.lines, h.disk.state⟩, fun hne => absurd rfl hne⟩

theorem traced_journal_prepare (h : trace.OnProcess process)
    (hentry : trace.allowed (.prepare entry)) :
    wp (journalPrepare entry) (fun _ => trace.OnProcess) trace.Raised process := by
  simp only [journalPrepare, wp_bind, wp_lift, wp_read]
  refine ⟨fun _ hvalid => ?_, fun e _ => h.raised e⟩
  cases hexisting : process.shard.journal.prepared[entry.index]? with
  | some existing =>
      simp only [wp_ite, wp_raise, wp_pure]
      exact ⟨fun _ => h.raised _, fun _ => h⟩
  | none =>
      have hload : process.shard.journal.loadRecord (.prepare entry) =
          .ok (process.shard.journal.addPrepared entry) :=
        ReplicaJournal.load_record_prepare_ok.2 ⟨hvalid, by simp [hexisting], rfl⟩
      exact @traced_append _ trace process _ (·.addPrepared entry) h hentry hload

/-- `ReplicaJournal.commit` returns an entry the journal may hold. -/
theorem traced_journal_commit {index : Nat} (h : trace.OnProcess process)
    (hmark : trace.allowed (.commit index)) :
    wp (journalCommit index) (fun entry p => trace.OnProcess p ∧ trace.allowed (.prepare entry))
      trace.Raised process := by
  simp only [journalCommit, wp_bind, wp_read]
  cases hentry : process.shard.journal.prepared[index]? with
  | none => exact h.raised _
  | some entry =>
      have hreflects := ReplicaJournal.reflects_load h.shard.loads
      have hallowed := h.disk.lines _ (hreflects.prepared_mem index entry hentry).1
      simp only [wp_ite, wp_pure]
      refine ⟨fun _ => ⟨h, hallowed⟩, fun _ => ?_⟩
      have hload : process.shard.journal.loadRecord (.commit index) =
          .ok (process.shard.journal.addCommitted index) :=
        ReplicaJournal.load_record_commit_ok.2
          ⟨Std.ExtTreeMap.mem_iff_isSome_getElem?.2 (by simp [hentry]), rfl⟩
      have happend := @traced_append _ trace process _ (·.addCommitted index) h hmark hload
      simp only [wp_bind] at happend ⊢
      refine wp_mono happend ?_ fun _ _ he => he
      intro _ p hp
      exact wp_mono hp (fun _ q hq => ⟨hq, hallowed⟩) fun _ _ he => he

theorem traced_prepare (h : trace.OnProcess process) (hentry : trace.allowed (.prepare entry)) :
    wp (prepare entry) (fun _ => trace.OnProcess) trace.Raised process := by
  simp only [prepare, wp_bind, wp_read, wp_lift, wp_ensure, wp_pure]
  refine ⟨fun _ _ => ⟨fun _ _ => ⟨fun _ => traced_journal_prepare h hentry, fun _ => h.raised _⟩,
    fun e _ => h.raised e⟩, fun e _ => h.raised e⟩

theorem traced_commit (h : trace.OnProcess process) (hentry : trace.allowed (.prepare entry))
    (hmark : trace.allowed (.commit entry.index)) :
    wp (commit entry) (fun _ => trace.OnProcess) trace.Raised process := by
  simp only [commit, wp_bind, wp_read, wp_lift, wp_pure]
  refine ⟨fun _ _ => ⟨fun _ _ => ?_, fun e _ => h.raised e⟩, fun e _ => h.raised e⟩
  refine wp_mono (traced_journal_prepare h hentry) ?_ fun _ _ he => he
  intro _ p hp
  refine wp_mono (traced_journal_commit hp hmark) ?_ fun _ _ he => he
  rintro committed q ⟨hq, hcommitted⟩
  simp only [applyOnce, wp_bind, wp_read, wp_ite, wp_pure]
  exact ⟨fun _ => traced_apply_entry hcommitted hq, fun _ => hq⟩

/-- `ReplicaShard.__init__`. -/
theorem traced_open_shard (h : trace.OnDisk process.disk) :
    wp (openShard trace.shardId trace.dimension) (fun _ => trace.OnProcess)
      (fun _ p => trace.OnDisk p.disk) process := by
  simp only [openShard, wp_bind, wp_read, wp_lift]
  refine ⟨fun journal hload => ?_, fun _ _ => h⟩
  have hopen : ∀ p : Process, p.disk.journal.lines = process.disk.journal.lines →
      p.disk.state = process.disk.state →
      trace.OnProcess { p with shard := ⟨trace.shardId, trace.dimension, process.disk.state,
        journal⟩ } := by
    intro p hlines hstate
    exact ⟨⟨hlines ▸ h.lines, hstate ▸ h.state⟩, (congrArg _ hlines).trans hload, h.state, rfl, rfl⟩
  have hreplay : ∀ p : Process, trace.OnProcess p →
      wp replayCommitted (fun _ => trace.OnProcess) (fun _ q => trace.OnDisk q.disk) p := by
    intro p hp
    simp only [replayCommitted, wp_bind, wp_read]
    have hreflects := ReplicaJournal.reflects_load hp.shard.loads
    refine wp_for_each_inv trace.OnProcess _ (fun entry hentry q hq => ?_) hp
    obtain ⟨index, -, -, hget⟩ := ReplicaJournal.mem_committed_after.1 hentry
    have hallowed := hp.disk.lines _ (hreflects.prepared_mem index entry hget).1
    exact wp_mono (traced_apply_entry hallowed hq) (fun _ _ h => h) fun _ _ h => h.disk
  simp only [repairTornTail, wp_bind, wp_read, wp_ite, wp_pure, modifyShard, wp_update]
  refine ⟨fun _ => ?_, fun _ => hreplay _ (hopen process rfl rfl)⟩
  exact wp_durable (fun left _ => hreplay _ (hopen _ rfl rfl)) fun _ => h

theorem traced_install_snapshot {rows : List (Int64 × Point)} {index term placementEpoch : Nat}
    (h : trace.OnProcess process) (hsnapshot : trace.allowed (.snapshot index))
    (hstate : trace.states ⟨term, placementEpoch, index⟩) :
    wp (installSnapshot rows index term placementEpoch) (fun _ => trace.OnProcess) trace.Raised
      process := by
  simp only [installSnapshot, wp_bind, wp_read, wp_ite, wp_raise, wp_lift]
  refine ⟨fun _ => h.raised _, fun _ => ⟨fun _ => h.raised _, fun _ => ⟨fun _ _ =>
    ⟨fun points _ => ?_, fun e _ => h.raised e⟩, fun e _ => h.raised e⟩⟩⟩
  refine wp_durable (fun left _ => ?_) fun _ => h.raised _
  simp only [modifyShard, wp_update]
  refine ⟨⟨by simpa using hsnapshot, hstate⟩, ?_, hstate, h.shard.shardId_eq,
    h.shard.dimension_eq⟩
  simp [ReplicaJournal.load, ReplicaJournal.loadLines, ReplicaJournal.loadRecord,
    ReplicaJournal.empty, bind, Except.bind, pure, Except.pure]

/-! ## Whole replicas -/

variable {replica : Replica} {writes : Option Nat}

theorem traced_method {α : Type} {x : ShardM α} (h : trace.OnReplica replica)
    (hx : ∀ process, trace.OnProcess process →
      wp x (fun _ => trace.OnProcess) trace.Raised process) :
    trace.OnReplica (replica.method writes x) := by
  unfold Replica.method
  cases hshard : replica.shard with
  | none => exact h
  | some shard =>
      refine after_method_of_wp (wp_mono (hx ⟨replica.disk, shard, writes⟩
        ⟨h.disk, h.shard shard hshard⟩) ?_ ?_)
      · intro _ p hp
        exact ⟨hp.disk, fun other hother => by cases hother; exact hp.shard⟩
      · intro e p hp
        split
        · exact ⟨hp.disk, fun other hother => by cases hother⟩
        · exact ⟨hp.disk, fun other hother => by cases hother; exact hp.shard ‹_›⟩

/-- What a call may add to the trace. -/
def Trace.Permits (trace : Trace) : ReplicaCall → Prop
  | .configure term placementEpoch => ∀ state, trace.states state →
      trace.states ⟨term, placementEpoch, state.appliedIndex⟩
  | .prepare entry => trace.allowed (.prepare entry)
  | .commit entry => trace.allowed (.prepare entry) ∧ trace.allowed (.commit entry.index)
  | .reopen => True

theorem traced_call {call : ReplicaCall} (h : trace.OnReplica replica)
    (hpermits : trace.Permits call) :
    trace.OnReplica (replica.call trace.shardId trace.dimension writes call) := by
  cases call with
  | configure term placementEpoch =>
      exact traced_method h fun _ hp => traced_configure hp hpermits
  | prepare entry => exact traced_method h fun _ hp => traced_prepare hp hpermits
  | commit entry => exact traced_method h fun _ hp => traced_commit hp hpermits.1 hpermits.2
  | reopen =>
      refine after_open_of_wp (wp_mono (traced_open_shard h.disk) ?_ ?_)
      · intro _ p hp
        exact ⟨hp.disk, fun other hother => by cases hother; exact hp.shard⟩
      · intro _ p hp
        exact ⟨hp, fun other hother => by cases hother⟩

theorem Trace.OnReplica.stop (h : trace.OnReplica replica) : trace.OnReplica ⟨replica.disk, none⟩ :=
  ⟨h.disk, fun _ hother => by cases hother⟩

theorem Trace.OnReplica.mono {wider : Trace} (h : trace.OnReplica replica)
    (hallowed : ∀ line, trace.allowed line → wider.allowed line)
    (hstates : ∀ state, trace.states state → wider.states state)
    (hshardId : trace.shardId = wider.shardId) (hdimension : trace.dimension = wider.dimension) :
    wider.OnReplica replica := by
  refine ⟨⟨fun line hline => hallowed _ (h.disk.lines line hline), hstates _ h.disk.state⟩, ?_⟩
  intro shard hshard
  have hs := h.shard shard hshard
  exact ⟨hs.loads, hstates _ hs.state, hs.shardId_eq.trans hshardId,
    hs.dimension_eq.trans hdimension⟩

end

end Akasha.Distributed

import Akasha.Distributed.Requests
import Akasha.Distributed.Steady
import Mathlib.Data.Set.BooleanAlgebra
import Mathlib.Order.CompletePartialOrder

/-!
# Acknowledged writes in reads

A read is served by a replica whose applied index reaches the committed index of its shard. That
says nothing about what lies below the applied index: a replica that missed an acknowledged write
and received a later one passes the test. The main theorem `served_reads_show_acknowledged` says
when reads are complete after all: every commit finds the acknowledged indexes below its own
already marked at the replica, and a request that is retried carries its first mutation and comes
before any higher commit of its shard.
-/

namespace Akasha.Distributed

open Lib Lib.Exec Relation List

/-! ## What a call adds to a journal -/

/-- The records a call may add. -/
def ReplicaCall.records : ReplicaCall → List JournalRecord
  | .prepare entry => [.prepare entry]
  | .commit entry => [.prepare entry, .commit entry.index]
  | .configure _ _ => []
  | .reopen => []

/-- The records on file. -/
def Process.recorded (process : Process) : Set JournalRecord :=
  { line | line ∈ process.disk.journal.lines }

theorem ascends_durable {change : ShardDisk → ShardDisk}
    (h : ∀ disk, disk.journal.lines ⊆ (change disk).journal.lines) :
    Ascends Process.recorded (durable change) := by
  intro process
  unfold durable
  split
  · exact le_rfl
  · exact fun _ hline => h _ hline
  · exact fun _ hline => h _ hline

theorem ascends_append_line (line : JournalRecord) :
    Ascends Process.recorded (appendLine line) :=
  ascends_bind (ascends_durable fun _ _ hline => hline) fun _ =>
    ascends_durable fun _ _ hline => mem_append_left _ hline

theorem ascends_modify_shard (change : ReplicaShard → ReplicaShard) :
    Ascends Process.recorded (modifyShard change) :=
  ascends_update fun _ => le_rfl

theorem ascends_publish_state : Ascends Process.recorded publishState :=
  ascends_bind ascends_read fun _ => ascends_durable fun _ _ hline => hline

theorem ascends_apply_entry (entry : ReplicatedEntry) :
    Ascends Process.recorded (applyEntry entry) := by
  have hstep : ∀ step, Ascends Process.recorded (collectionStep step) := fun step =>
    ascends_bind ascends_read fun _ => ascends_bind (ascends_lift _) fun _ =>
      ascends_durable fun _ _ hline => hline
  have happly : Ascends Process.recorded (apply entry.mutation) :=
    ascends_bind ascends_read fun _ => ascends_bind (ascends_lift _) fun _ =>
      ascends_for_each hstep _
  exact ascends_bind happly fun _ => ascends_bind (ascends_modify_shard _) fun _ =>
    ascends_publish_state

theorem ascends_configure (term placementEpoch : Nat) :
    Ascends Process.recorded (configure term placementEpoch) :=
  ascends_bind ascends_read fun _ => ascends_ite (ascends_raise _)
    (ascends_bind (ascends_modify_shard _) fun _ => ascends_bind ascends_publish_state fun _ =>
      ascends_pure _)

theorem ascends_journal_commit (index : Nat) : Ascends Process.recorded (journalCommit index) := by
  refine ascends_bind ascends_read fun process => ?_
  split
  · exact ascends_raise _
  · exact ascends_ite (ascends_pure _) (ascends_bind (ascends_append_line _) fun _ =>
      ascends_bind (ascends_modify_shard _) fun _ => ascends_pure _)

section

variable [FloatRepr]

theorem ascends_journal_prepare (entry : ReplicatedEntry) :
    Ascends Process.recorded (journalPrepare entry) := by
  refine ascends_bind (ascends_lift _) fun _ => ascends_bind ascends_read fun process => ?_
  split
  · exact ascends_ite (ascends_raise _) (ascends_pure _)
  · exact ascends_bind (ascends_append_line _) fun _ => ascends_modify_shard _

theorem ascends_prepare (entry : ReplicatedEntry) : Ascends Process.recorded (prepare entry) :=
  ascends_bind ascends_read fun _ => ascends_bind (ascends_lift _) fun _ =>
    ascends_bind (ascends_lift _) fun _ => ascends_bind (ascends_ensure _ _) fun _ =>
      ascends_bind (ascends_journal_prepare entry) fun _ => ascends_pure _

theorem ascends_commit (entry : ReplicatedEntry) : Ascends Process.recorded (commit entry) := by
  have happly : ∀ marked, Ascends Process.recorded (applyOnce marked) := fun marked =>
    ascends_bind ascends_read fun _ => ascends_ite (ascends_apply_entry marked) (ascends_pure _)
  exact ascends_bind ascends_read fun _ => ascends_bind (ascends_lift _) fun _ =>
    ascends_bind (ascends_lift _) fun _ => ascends_bind (ascends_journal_prepare entry) fun _ =>
      ascends_bind (ascends_journal_commit _) fun marked => ascends_bind (happly marked) fun _ =>
        ascends_bind ascends_read fun _ => ascends_pure _

theorem ascends_open_shard (shardId dimension : Nat) :
    Ascends Process.recorded (openShard shardId dimension) := by
  have hrepair : Ascends Process.recorded repairTornTail :=
    ascends_bind ascends_read fun _ => ascends_ite (ascends_durable fun _ _ hline => hline)
      (ascends_pure _)
  exact ascends_bind ascends_read fun _ => ascends_bind (ascends_lift _) fun _ =>
    ascends_bind hrepair fun _ => ascends_bind (ascends_modify_shard _) fun _ =>
      ascends_bind ascends_read fun _ => ascends_for_each ascends_apply_entry _

variable {shardId dimension : Nat} {replica : Replica} {writes : Option Nat} {call : ReplicaCall}

omit [FloatRepr] in
theorem lines_subset_method {α : Type} {x : ShardM α} (hx : Ascends Process.recorded x) :
    replica.disk.journal.lines ⊆ (replica.method writes x).disk.journal.lines := by
  unfold Replica.method
  split
  · exact fun _ hline => hline
  · next shard _ =>
      have hgrown := hx ⟨replica.disk, shard, writes⟩
      unfold Replica.afterMethod
      split <;> simp_all [Process.recorded, Set.subset_def, subset_def]

theorem lines_subset_call :
    replica.disk.journal.lines ⊆
      (replica.call shardId dimension writes call).disk.journal.lines := by
  cases call with
  | configure term placementEpoch => exact lines_subset_method (ascends_configure _ _)
  | prepare entry => exact lines_subset_method (ascends_prepare entry)
  | commit entry => exact lines_subset_method (ascends_commit entry)
  | reopen =>
      have hgrown := ascends_open_shard shardId dimension
        ⟨replica.disk, .unread shardId dimension, writes⟩
      simp only [Replica.call]
      unfold Replica.afterOpen
      split <;> simp_all [Process.recorded, Set.subset_def, subset_def]

/-- A call adds no other records, and none without a process. -/
theorem lines_call (hshard : ∀ shard, replica.shard = some shard →
      ReplicaJournal.load replica.disk.journal.lines = .ok shard.journal ∧
        shard.shardId = shardId ∧ shard.dimension = dimension) {line : JournalRecord}
    (hline : line ∈ (replica.call shardId dimension writes call).disk.journal.lines) :
    line ∈ replica.disk.journal.lines ∨
      line ∈ call.records ∧ ∃ shard, replica.shard = some shard := by
  let trace : Trace := ⟨shardId, dimension,
    fun line => line ∈ replica.disk.journal.lines ∨ line ∈ call.records, fun _ => True,
    fun _ _ _ _ => trivial⟩
  have hreplica : trace.OnReplica replica :=
    ⟨⟨fun _ hmem => .inl hmem, trivial⟩, fun shard hopen =>
      ⟨(hshard shard hopen).1, trivial, (hshard shard hopen).2.1, (hshard shard hopen).2.2⟩⟩
  have hpermits : trace.Permits call := by
    cases call with
    | configure _ _ => exact fun _ _ => trivial
    | prepare entry => exact .inr (by simp [ReplicaCall.records])
    | commit entry => exact ⟨.inr (by simp [ReplicaCall.records]),
        .inr (by simp [ReplicaCall.records])⟩
    | reopen => trivial
  have htraced := (@traced_call _ trace replica writes call hreplica hpermits).disk.lines line hline
  cases hopen : replica.shard with
  | some shard => exact htraced.imp_right fun hrecord => ⟨hrecord, shard, rfl⟩
  | none =>
      refine .inl ?_
      cases call with
      | reopen => exact htraced.resolve_right (by simp [ReplicaCall.records])
      | _ => simpa only [Replica.call, Replica.method, hopen] using hline

end

/-! ## The condition on a run -/

section

variable [FloatRepr]

/-- The condition on a commit that reaches a replica: the kernel accepts what it marks, its index
is marked already or lies above every marked one, and the acknowledged indexes below it are
marked already. -/
def DeliveryMeets (delivery : Delivery) : Prop :=
  ∀ shard, delivery.replica.shard = some shard → CommitMeets True shard delivery.entry ∧
    ∀ result mutation, (result, mutation) ∈ delivery.acknowledged →
      result.shardId = delivery.entry.shardId → result.index < delivery.entry.index →
      .commit result.index ∈ delivery.replica.disk.journal.lines

/-- Every marker at or above an index stands beside a marker of the index itself. -/
def Ripe (index : Nat) (disk : ShardDisk) : Prop :=
  ∀ marked, .commit marked ∈ disk.journal.lines → index ≤ marked →
    .commit index ∈ disk.journal.lines

/-- The condition on a write whose request is in the table: it carries the mutation the index was
given to, and while the request is only prepared, no replica of the shard has gone past it. -/
structure RetryMeets (retry : Retry) : Prop where
  original : retry.original = some (retry.requestId, retry.mutation)
  ripe : retry.record.status = .prepared → ∀ replica ∈ retry.replicas,
    Ripe retry.record.index replica.disk

/-- The condition on everything that happened. -/
structure HistoryMeets (history : History) : Prop where
  deliveries : ∀ delivery ∈ history.deliveries, DeliveryMeets delivery
  retries : ∀ retry ∈ history.retries, RetryMeets retry
  exported : history.exported = []

/-! ## The invariant -/

/-- The entry belongs to the owner of its index, mutation and all. -/
def Owns (history : History) (shardId : Nat) (entry : ReplicatedEntry) : Prop :=
  ∃ requestId : RequestId, entry.requestId = requestId ∧
    history.owners shardId entry.index = some (requestId, entry.mutation)

/-- The point state of a read is the fold, in index order, of journaled entries, and every write
of the shard acknowledged so far is among them. -/
structure ShowsAcknowledged (dimension : Nat) (journaled : ReplicatedEntry → Prop)
    (served : Served) : Prop where
  folded : ∃ entries : List ReplicatedEntry, entries.Pairwise (·.index < ·.index) ∧
    (∀ entry ∈ entries, journaled entry) ∧
    foldEntries dimension ∅ entries = .ok served.disk.collection ∧
    ∀ result mutation, (result, mutation) ∈ served.acknowledged →
      result.shardId = served.shardId → ∃ entry ∈ entries, entry.index = result.index ∧
        entry.requestId = result.requestId ∧ entry.mutation = mutation

/-- The entries in the journal of the replica that served a read. -/
def Served.Journaled (served : Served) (entry : ReplicatedEntry) : Prop :=
  .prepare entry ∈ served.disk.journal.lines

/-- What keeps reads complete: journals hold the mutations of the owners, replicas are folds of
their logs, and no replica has gone past an acknowledged index that it lacks. -/
structure Visible (world : World) : Prop where
  lines : ∀ name shardId entry,
    .prepare entry ∈ (world.replica name shardId).disk.journal.lines →
    Owns world.history shardId entry
  learned : ∀ shardId entry, (shardId, entry) ∈ world.history.learned →
    Owns world.history shardId entry
  retried : ∀ retry ∈ world.history.retries, ∀ owner, retry.original = some owner →
    world.history.owners retry.record.shardId retry.record.index = some owner
  acknowledged : ∀ result mutation, (result, mutation) ∈ world.history.acknowledged →
    world.history.owners result.shardId result.index = some (result.requestId, mutation) ∧
      result.index ≤ (world.metadata.shards result.shardId).committedIndex
  committed : ∀ requestId record, world.metadata.requestTable requestId = some record →
    record.status = .committed → ∃ result mutation,
      (result, mutation) ∈ world.history.acknowledged ∧ result.shardId = record.shardId ∧
        result.index = record.index
  folds : ∀ name shardId,
    ReplicaInv True world.metadata.dimension (world.replica name shardId)
  ripe : ∀ result mutation, (result, mutation) ∈ world.history.acknowledged →
    ∀ name ∈ (world.metadata.shards result.shardId).replicas,
      Ripe result.index (world.replica name result.shardId).disk
  served : ∀ served ∈ world.history.served,
    ShowsAcknowledged world.metadata.dimension served.Journaled served

/-! ## Steps that keep the journals -/

variable {world after : World}

theorem replica_inv_stop {dimension : Nat} {replica : Replica}
    (h : ReplicaInv True dimension replica) :
    ReplicaInv True dimension ⟨replica.disk, none⟩ := by
  obtain ⟨journal, hrecoverable⟩ := recoverable_of_inv h
  exact ⟨journal, hrecoverable⟩

/-- What a step that leaves the metadata and the journals alone may do. -/
structure Untouched (world after : World) : Prop where
  metadata : after.metadata = world.metadata
  owners : after.history.owners = world.history.owners
  replicas : ∀ name shardId, after.replica name shardId = world.replica name shardId ∨
    after.replica name shardId = ⟨(world.replica name shardId).disk, none⟩

omit [FloatRepr] in
theorem Untouched.disk (h : Untouched world after) (name : String) (shardId : Nat) :
    (after.replica name shardId).disk = (world.replica name shardId).disk := by
  rcases h.replicas name shardId with hsame | hstopped
  · rw [hsame]
  · rw [hstopped]

/-- Such a step keeps the invariant, up to what it adds to the history. -/
theorem Visible.untouched (h : Visible world) (huntouched : Untouched world after)
    (hlearned : ∀ shardId entry, (shardId, entry) ∈ after.history.learned →
      (shardId, entry) ∈ world.history.learned ∨ Owns world.history shardId entry)
    (hretries : ∀ retry ∈ after.history.retries, retry ∈ world.history.retries ∨
      retry.original = world.history.owners retry.record.shardId retry.record.index)
    (hacknowledged : ∀ result mutation, (result, mutation) ∈ after.history.acknowledged →
      (result, mutation) ∈ world.history.acknowledged ∨
        world.history.owners result.shardId result.index = some (result.requestId, mutation) ∧
        ∃ earlier other, (earlier, other) ∈ world.history.acknowledged ∧
          earlier.shardId = result.shardId ∧ earlier.index = result.index)
    (hkept : world.history.acknowledged ⊆ after.history.acknowledged)
    (hserved : ∀ served ∈ after.history.served, served ∈ world.history.served ∨
      ShowsAcknowledged world.metadata.dimension served.Journaled served) : Visible after := by
  obtain ⟨hmetadata, howners, hreplicas⟩ := huntouched
  have hdisk := Untouched.disk ⟨hmetadata, howners, hreplicas⟩
  have howns : ∀ {shardId entry}, Owns world.history shardId entry →
      Owns after.history shardId entry := by
    intro shardId entry hentry
    rwa [Owns, howners]
  refine ⟨?_, ?_, ?_, ?_, ?_, ?_, ?_, ?_⟩
  · intro name shardId entry hentry
    rw [hdisk] at hentry
    exact howns (h.lines name shardId entry hentry)
  · intro shardId entry hentry
    rcases hlearned shardId entry hentry with hold | hnew
    · exact howns (h.learned shardId entry hold)
    · exact howns hnew
  · intro retry hretry owner howner
    rw [howners]
    rcases hretries retry hretry with hold | hnew
    · exact h.retried retry hold owner howner
    · exact hnew.symm.trans howner
  · intro result mutation hresult
    rw [howners, hmetadata]
    rcases hacknowledged result mutation hresult with
      hold | ⟨howner, earlier, other, hold, hshard, hindex⟩
    · exact h.acknowledged result mutation hold
    · have hle := (h.acknowledged earlier other hold).2
      rw [hshard, hindex] at hle
      exact ⟨howner, hle⟩
  · intro requestId record hrecord hstatus
    rw [hmetadata] at hrecord
    obtain ⟨result, mutation, hresult, hplace⟩ := h.committed requestId record hrecord hstatus
    exact ⟨result, mutation, hkept hresult, hplace⟩
  · intro name shardId
    rw [hmetadata]
    rcases hreplicas name shardId with hsame | hstopped
    · rw [hsame]
      exact h.folds name shardId
    · rw [hstopped]
      exact replica_inv_stop (h.folds name shardId)
  · intro result mutation hresult name hname
    rw [hmetadata] at hname
    rw [hdisk]
    rcases hacknowledged result mutation hresult with hold | ⟨-, earlier, other, hold, hshard, hindex⟩
    · exact h.ripe result mutation hold name hname
    · have hripe := h.ripe earlier other hold
      rw [hshard, hindex] at hripe
      exact hripe name hname
  · intro served hmem
    rw [hmetadata]
    rcases hserved served hmem with hold | hnew
    · exact h.served served hold
    · exact hnew

theorem Visible.same (h : Visible world) (huntouched : Untouched world after)
    (hlearned : after.history.learned = world.history.learned)
    (hretries : after.history.retries = world.history.retries)
    (hacknowledged : after.history.acknowledged = world.history.acknowledged)
    (hserved : after.history.served = world.history.served) : Visible after :=
  h.untouched huntouched (fun _ _ hmem => .inl (hlearned ▸ hmem))
    (fun _ hmem => .inl (hretries ▸ hmem)) (fun _ _ hmem => .inl (hacknowledged ▸ hmem))
    (by rw [hacknowledged]; exact fun _ hmem => hmem) fun _ hmem => .inl (hserved ▸ hmem)

/-! ## Calls of replicas -/

variable {name : String} {shardId : Nat}

theorem Live.opened (h : Live world) {shard : ReplicaShard}
    (hshard : (world.replica name shardId).shard = some shard) :
    ReplicaJournal.load (world.replica name shardId).disk.journal.lines = .ok shard.journal ∧
      shard.shardId = shardId ∧ shard.dimension = world.metadata.dimension := by
  have hon := (h.traced name shardId).shard shard hshard
  exact ⟨hon.loads, hon.shardId_eq, hon.dimension_eq⟩

variable {writes : Option Nat}

/-- A call whose entries belong to their owners, and whose markers leave no acknowledged index
out, keeps the invariant. -/
theorem Visible.call (h : Visible world) (hlive : Live world) {call : ReplicaCall}
    (hmeets : CallMeets True (world.replica name shardId) call)
    (hentries : ∀ entry, .prepare entry ∈ call.records → Owns world.history shardId entry)
    (hmarks : ∀ index, .commit index ∈ call.records → ∀ shard,
      (world.replica name shardId).shard = some shard → ∀ result mutation,
      (result, mutation) ∈ world.history.acknowledged → result.shardId = shardId →
      result.index < index →
      .commit result.index ∈ (world.replica name shardId).disk.journal.lines) :
    Visible (world.callReplica name shardId writes call) := by
  have hlines := fun line => @lines_call _ shardId world.metadata.dimension
    (world.replica name shardId) writes call (fun _ hshard => hlive.opened hshard) line
  have hgrown := @lines_subset_call _ shardId world.metadata.dimension
    (world.replica name shardId) writes call
  have hreplica := @replica_set_replica world name shardId
    ((world.replica name shardId).call shardId world.metadata.dimension writes call)
  refine ⟨?_, h.learned, h.retried, h.acknowledged, h.committed, ?_, ?_, h.served⟩
  · intro other shard entry hentry
    rw [World.callReplica, hreplica] at hentry
    split at hentry
    · next heq =>
        obtain ⟨rfl, rfl⟩ := heq
        rcases hlines _ hentry with hold | ⟨hnew, -⟩
        · exact h.lines other shard entry hold
        · exact hentries entry hnew
    · exact h.lines other shard entry hentry
  · intro other shard
    rw [World.callReplica, hreplica]
    split
    · exact replica_inv_call (h.folds name shardId) hmeets
    · exact h.folds other shard
  · intro result mutation hresult other hother
    have hripe := h.ripe result mutation hresult other hother
    rw [World.callReplica, hreplica]
    split
    · next heq =>
        obtain ⟨rfl, heq⟩ := heq
        rw [heq] at hripe
        intro marked hmarked hle
        rcases hlines _ hmarked with hold | ⟨hnew, shard, hshard⟩
        · exact hgrown (hripe marked hold hle)
        · rcases hle.eq_or_lt with rfl | hlt
          · exact hmarked
          · exact hgrown (hmarks marked hnew shard hshard result mutation hresult heq hlt)
    · exact hripe

variable {entry : ReplicatedEntry}

/-- A commit that meets its condition keeps the invariant. -/
theorem Visible.deliver (h : Visible world) (hlive : Live world)
    (hmeets : ∀ delivery ∈ (world.deliverCommit name entry writes).history.deliveries,
      DeliveryMeets delivery) (hentry : Owns world.history entry.shardId entry) :
    Visible (world.deliverCommit name entry writes) := by
  have hdelivery := hmeets _ (List.mem_cons_self)
  have hnoted : Visible (world.note ((commitRequest entry).note (world.nodes name))) :=
    h.same ⟨rfl, rfl, fun _ _ => .inl rfl⟩ rfl rfl rfl rfl
  have hlive : Live (world.note ((commitRequest entry).note (world.nodes name))) :=
    hlive.same rfl rfl rfl rfl rfl rfl rfl hlive.traced
  refine hnoted.call hlive (fun shard hshard => (hdelivery shard hshard).1) ?_ ?_
  · intro other hother
    simp only [ReplicaCall.records, mem_cons, not_mem_nil, or_false,
      JournalRecord.prepare.injEq, reduceCtorEq] at hother
    exact hother ▸ hentry
  · intro index hindex shard hshard result mutation hresult hplace hlt
    simp only [ReplicaCall.records, mem_cons, not_mem_nil, or_false,
      JournalRecord.commit.injEq, reduceCtorEq, false_or] at hindex
    exact (hdelivery shard hshard).2 result mutation hresult hplace (hindex ▸ hlt)

/-! ## Reading -/

theorem Visible.learn (h : Visible world) (hlive : Live world) {shardId index : Nat} :
    Visible (world.note ((entriesRequest shardId index).note (world.nodes name))) := by
  refine h.untouched ⟨rfl, rfl, fun _ _ => .inl rfl⟩ ?_ (fun _ hmem => .inl hmem)
    (fun _ _ hmem => .inl hmem) (fun _ hmem => hmem) fun _ hmem => .inl hmem
  intro shard entry hentry
  rcases mem_append.1 hentry with hnew | hold
  · obtain ⟨other, hother, heq⟩ := mem_map.1 hnew
    cases heq
    unfold Node.entriesAfter at hother
    cases hopen : ((world.nodes name).replicas shardId).shard with
    | none => simp [hopen] at hother
    | some open_ =>
        rw [hopen] at hother
        obtain ⟨position, -, -, hget⟩ := ReplicaJournal.mem_committed_after.1 hother
        have hreflects := ReplicaJournal.reflects_load (hlive.opened hopen).1
        exact .inr (h.lines name shardId entry (hreflects.prepared_mem position entry hget).1)
  · exact .inl hold

/-- A replica that has applied the committed index shows every acknowledged write. -/
theorem Visible.shows (h : Visible world) (hlive : Live world) {shard : ReplicaShard}
    (hshard : (world.replica name shardId).shard = some shard)
    (hname : name ∈ (world.metadata.shards shardId).ordered)
    (hcaughtUp : (world.metadata.shards shardId).committedIndex ≤ shard.state.appliedIndex) :
    ShowsAcknowledged world.metadata.dimension
      (fun entry => .prepare entry ∈ (world.replica name shardId).disk.journal.lines)
      ⟨shardId, (world.replica name shardId).disk, world.history.acknowledged⟩ := by
  have hinv := h.folds name shardId
  unfold ReplicaInv at hinv
  rw [hshard] at hinv
  have hlog := fold_of_log_of_serving hinv
  obtain ⟨entries, hsorted, hmarked, hprepared, hfold⟩ := hlog.folded
  refine ⟨entries, hsorted, hprepared, hfold, ?_⟩
  rintro result mutation hresult rfl
  obtain ⟨howner, hle⟩ := h.acknowledged result mutation hresult
  have hpos := (hlive.ledger.owner_le _ _ _ howner).1
  obtain ⟨-, pointId, -, hroute⟩ := hlive.ledger.owner_routed _ _ _ _ howner
  have hreplica : name ∈ (world.metadata.shards result.shardId).replicas := by
    have hknown : result.shardId < world.metadata.shardCount :=
      hroute ▸ Nat.mod_lt _ hlive.valid.shardCount_pos
    rcases mem_cons.1 hname with rfl | hother
    · exact (hlive.valid.placed _ hknown).leader_mem
    · exact (List.mem_filter.1 hother).1
  -- The applied index is marked, and so is every acknowledged index below it.
  have happlied := hlog.marked (by omega)
  have hmark := h.ripe result mutation hresult name hreplica _ happlied (hle.trans hcaughtUp)
  obtain ⟨entry, hentry, hindex⟩ := (hmarked result.index).1 hmark
  obtain ⟨requestId, hrequest, howned⟩ :=
    h.lines name result.shardId entry (hprepared entry hentry)
  rw [hindex, howner] at howned
  cases howned
  exact ⟨entry, hentry, hindex, hrequest, rfl⟩

/-- Serving a read keeps the invariant. -/
theorem Visible.serve (h : Visible world) (hlive : Live world)
    (hname : name ∈ (world.metadata.shards shardId).ordered)
    (hcaughtUp : ∀ shard ∈ (world.replica name shardId).shard,
      (world.metadata.shards shardId).committedIndex ≤ shard.state.appliedIndex) :
    Visible (world.note (noteServed shardId (world.nodes name))) := by
  cases hshard : (world.replica name shardId).shard with
  | none =>
      have hnote : noteServed shardId (world.nodes name) world.history = world.history := by
        have hopen : ((world.nodes name).replicas shardId).shard = none := hshard
        simp [noteServed, hopen]
      rw [World.note, hnote]
      exact h
  | some shard =>
      have hnote : noteServed shardId (world.nodes name) world.history = { world.history with
          served := ⟨shardId, (world.replica name shardId).disk, world.history.acknowledged⟩ ::
            world.history.served } := by
        have hopen : ((world.nodes name).replicas shardId).shard = some shard := hshard
        simp [noteServed, hopen, World.replica]
      rw [World.note, hnote]
      refine h.untouched ⟨rfl, rfl, fun _ _ => .inl rfl⟩ (fun _ _ hmem => .inl hmem)
        (fun _ hmem => .inl hmem) (fun _ _ hmem => .inl hmem) (fun _ hmem => hmem) ?_
      intro served hserved
      rcases mem_cons.1 hserved with rfl | hold
      · exact .inr (h.shows hlive hshard hname (hcaughtUp shard hshard))
      · exact .inl hold

variable {requestId : RequestId}

theorem Visible.answer (h : Visible world) {mutation : Json} {record : RequestRecord}
    (hfound : Found world requestId mutation shardId record)
    (hstatus : record.status = .committed) (hrouted : shardId = record.shardId)
    (hmeets : RetryMeets (world.retryOf requestId mutation shardId record)) :
    Visible ((world.noteRetry (world.retryOf requestId mutation shardId record)).note
      (·.acknowledge ⟨shardId, record.term, record.index, requestId⟩ mutation)) := by
  subst hrouted
  refine h.untouched ⟨rfl, rfl, fun _ _ => .inl rfl⟩ (fun _ _ hmem => .inl hmem) ?_ ?_
    (fun _ hmem => mem_cons_of_mem _ hmem) fun _ hmem => .inl hmem
  · intro retry hretry
    rcases mem_cons.1 hretry with rfl | hold
    · exact .inr rfl
    · exact .inl hold
  · intro result other hresult
    rcases mem_cons.1 hresult with heq | hold
    · obtain ⟨rfl, rfl⟩ := Prod.mk.inj heq
      exact .inr ⟨hmeets.original, h.committed requestId record hfound.recorded hstatus⟩
    · exact .inl hold

/-! ## Publications -/

/-- A publication that leaves committed indexes, replicas and committed records alone keeps the
invariant. -/
theorem Visible.publish (h : Visible world) {next : ClusterMetadata} {note : History → History}
    (hgrows : Grows world.metadata next world.history (note world.history))
    (hlearned : (note world.history).learned = world.history.learned)
    (hretries : (note world.history).retries = world.history.retries)
    (hacknowledged : (note world.history).acknowledged = world.history.acknowledged)
    (hserved : (note world.history).served = world.history.served)
    (hcommitted : ∀ shardId, (next.shards shardId).committedIndex =
      (world.metadata.shards shardId).committedIndex)
    (hreplicas : ∀ shardId, (next.shards shardId).replicas =
      (world.metadata.shards shardId).replicas)
    (htable : ∀ requestId record, next.requestTable requestId = some record →
      record.status = .committed → world.metadata.requestTable requestId = some record) :
    Visible ((world.publishing next).note note) := by
  have howns : ∀ {shardId entry}, Owns world.history shardId entry →
      Owns (note world.history) shardId entry := by
    rintro shardId entry ⟨requestId, hrequest, howner⟩
    exact ⟨requestId, hrequest, hgrows.owners _ _ _ howner⟩
  refine ⟨fun name shardId entry hentry => howns (h.lines name shardId entry hentry), ?_, ?_, ?_,
    ?_, ?_, ?_, ?_⟩
  · intro shardId entry hentry
    exact howns (h.learned shardId entry (hlearned ▸ hentry))
  · intro retry hretry owner howner
    exact hgrows.owners _ _ _ (h.retried retry (hretries ▸ hretry) owner howner)
  · intro result mutation hresult
    obtain ⟨howner, hle⟩ := h.acknowledged result mutation (hacknowledged ▸ hresult)
    exact ⟨hgrows.owners _ _ _ howner, hle.trans (hcommitted _).ge⟩
  · intro requestId record hrecord hstatus
    obtain ⟨result, mutation, hresult, hplace⟩ :=
      h.committed requestId record (htable requestId record hrecord hstatus) hstatus
    exact ⟨result, mutation, hacknowledged ▸ hresult, hplace⟩
  · intro name shardId
    have hdimension : next.dimension = world.metadata.dimension := hgrows.dimension
    exact hdimension ▸ h.folds name shardId
  · intro result mutation hresult name hname
    exact h.ripe result mutation (hacknowledged ▸ hresult) name (hreplicas _ ▸ hname)
  · intro served hmem
    have hdimension : next.dimension = world.metadata.dimension := hgrows.dimension
    exact hdimension ▸ h.served served (hserved ▸ hmem)

/-- Every publication of a run without rebalancing keeps the invariant. -/
theorem Visible.edit (h : Visible world) (hlive : Live world) {edit : MetadataEdit}
    {note : History → History} (hedit : Edits world edit note)
    (hexported : (note world.history).exported = []) :
    Visible ((world.publishing (world.metadata.edit edit)).note note) := by
  have hgrows := (edited_of_edits hlive hedit).grows
  cases hedit with
  | rejoin => exact h.publish hgrows rfl rfl rfl rfl (fun _ => rfl) (fun _ => rfl) fun _ _ h _ => h
  | elect hleader =>
      refine h.publish hgrows rfl rfl rfl rfl (fun shard => ?_) (fun shard => ?_) fun _ _ h _ => h
      · simp only [ClusterMetadata.edit, ClusterMetadata.editShard]
        split <;> rfl
      · simp only [ClusterMetadata.edit, ClusterMetadata.editShard]
        split <;> rfl
  | allocate hwritten hid hroute =>
      refine h.publish hgrows rfl rfl rfl rfl (fun shard => ?_) (fun shard => ?_) fun _ _ h _ => h
      · simp only [ClusterMetadata.edit, ClusterMetadata.editShard]
        split <;> rfl
      · simp only [ClusterMetadata.edit, ClusterMetadata.editShard]
        split <;> rfl
  | recordPrepared hnew howner =>
      refine h.publish hgrows rfl rfl rfl rfl (fun _ => rfl) (fun _ => rfl) ?_
      intro requestId record hrecord hstatus
      simp only [ClusterMetadata.edit, ClusterMetadata.record] at hrecord
      split at hrecord
      · cases hrecord
        cases hstatus
      · exact hrecord
  | addReplica hnew hmember hcopied =>
      obtain ⟨index, hindex⟩ := hcopied
      have hnone : world.history.exported = [] := hexported
      simp [hnone] at hindex

/-! ## Commit rounds -/

/-- No replica has gone past an index of a shard that it lacks. -/
def AllRipe (world : World) (shardId index : Nat) : Prop :=
  ∀ name ∈ (world.metadata.shards shardId).replicas,
    Ripe index (world.replica name shardId).disk

theorem Live.marker_le (h : Live world) {shardId index : Nat}
    (hmarker : .commit index ∈ (world.replica name shardId).disk.journal.lines) :
    index ≤ (world.metadata.shards shardId).lastLogIndex := by
  obtain ⟨requestId, record, hrecord, rfl, rfl⟩ := (h.traced name shardId).disk.lines _ hmarker
  obtain ⟨mutation, howner, -⟩ := h.ledger.table_owned requestId record hrecord
  exact (h.ledger.owner_le _ _ _ howner).2

/-- The entry of a round belongs to its owner, and no replica has gone past it. -/
theorem Visible.round (h : Visible world) (hlive : Live world) (hrouted : Routed world.history)
    (hmeets : ∀ retry ∈ world.history.retries, RetryMeets retry)
    (hround : Round world requestId entry) :
    world.history.owners entry.shardId entry.index = some (requestId, entry.mutation) ∧
      AllRipe world entry.shardId entry.index := by
  obtain ⟨record, hrecord, hindex, -, hkind⟩ := hround.recorded
  rcases hkind with ⟨-, hlast, owner, howner, howned⟩ |
    ⟨retry, hretry, rfl, hmutation, hshard, rfl, hreplicas⟩
  · refine ⟨?_, fun name hname marked hmarked hle => ?_⟩
    · cases Subtype.ext (howner.symm.trans hround.request)
      exact howned
    · have hmax := hlive.marker_le hmarked
      have heq : marked = entry.index := by omega
      exact heq ▸ hmarked
  · have hsame : retry.record.shardId = entry.shardId := (hrouted retry hretry).symm.trans hshard
    obtain ⟨horiginal, hripe⟩ := hmeets retry hretry
    have howner := h.retried retry hretry _ horiginal
    rw [hsame, hindex, hmutation] at howner
    refine ⟨howner, fun name hname => ?_⟩
    rw [← hindex]
    cases hstatus : retry.record.status with
    | prepared =>
        refine hripe hstatus _ ?_
        rw [hreplicas]
        exact mem_map.2 ⟨name, hname, rfl⟩
    | committed =>
        obtain ⟨result, mutation, hresult, hplace, hposition⟩ :=
          h.committed _ _ hrecord hstatus
        have hacknowledged := h.ripe result mutation hresult
        rw [hplace, hsame, hposition] at hacknowledged
        exact hacknowledged name hname

theorem ripe_deliver (hlive : Live world) (h : AllRipe world entry.shardId entry.index) :
    AllRipe (world.deliverCommit name entry writes) entry.shardId entry.index := by
  intro other hother
  have hripe := h other hother
  rw [World.deliverCommit, World.callReplica, replica_set_replica]
  split
  · next heq =>
      obtain ⟨rfl, -⟩ := heq
      intro marked hmarked hle
      have hgrown := @lines_subset_call _ entry.shardId world.metadata.dimension
        (world.replica other entry.shardId) writes (.commit entry)
      rcases lines_call (fun _ hshard => hlive.opened hshard) hmarked with hold | ⟨hnew, -⟩
      · exact hgrown (hripe marked hold hle)
      · simp only [ReplicaCall.records, mem_cons, not_mem_nil, or_false,
          JournalRecord.commit.injEq, reduceCtorEq, false_or] at hnew
        exact hnew ▸ hmarked
  · exact hripe

theorem deliveries_subset_of_send (h : Send entry world after) :
    world.history.deliveries ⊆ after.history.deliveries := by
  cases h with
  | deliver name writes => exact fun _ hmem => mem_cons_of_mem _ hmem
  | _ => exact fun _ hmem => hmem

/-- The commits of a round keep the invariant. -/
theorem Visible.sends (h : Visible world) (hlive : Live world) {sent : World}
    (hentry : AllowedRecord world.metadata world.history entry.shardId (.prepare entry))
    (hmark : AllowedRecord world.metadata world.history entry.shardId (.commit entry.index))
    (hrequest : entry.requestId = requestId)
    (howner : world.history.owners entry.shardId entry.index = some (requestId, entry.mutation))
    (hripe : AllRipe world entry.shardId entry.index) (hsends : Sends entry world sent)
    (hmeets : ∀ delivery ∈ sent.history.deliveries, DeliveryMeets delivery) :
    Visible sent ∧ AllRipe sent entry.shardId entry.index := by
  induction hsends with
  | refl => exact ⟨h, hripe⟩
  | @tail reached next hreached hsend ih =>
      obtain ⟨hvisible, hripe⟩ := ih fun delivery hdelivery =>
        hmeets delivery (deliveries_subset_of_send hsend hdelivery)
      cases hsend with
      | faults faults =>
          exact ⟨hvisible.same ⟨rfl, rfl, fun _ _ => .inl rfl⟩ rfl rfl rfl rfl, hripe⟩
      | stop name =>
          have huntouched : Untouched reached
              (reached.setNode name (reached.nodes name).stop) := by
            refine ⟨rfl, rfl, fun other shardId => ?_⟩
            by_cases hother : other = name
            · exact .inr (by simp [World.replica, World.setNode, Node.stop, hother])
            · exact .inl (by simp [World.replica, World.setNode, hother])
          refine ⟨hvisible.same huntouched rfl rfl rfl rfl, fun other hother => ?_⟩
          rw [huntouched.disk]
          exact hripe other hother
      | deliver name writes =>
          have hsame := same_ledger_sends hreached
          have hlive := hlive.sends hentry hmark hreached
          refine ⟨hvisible.deliver hlive hmeets ⟨requestId, hrequest, ?_⟩, ripe_deliver hlive hripe⟩
          rw [hsame.owners]
          exact howner

/-- A published result keeps the invariant when no replica has gone past its index. -/
theorem Visible.concludes (h : Visible world)
    (howner : world.history.owners entry.shardId entry.index = some (requestId, entry.mutation))
    (hripe : AllRipe world entry.shardId entry.index) :
    Visible ((world.publishing (world.metadata.edit (committing requestId entry))).note
      (·.acknowledge ⟨entry.shardId, entry.term, entry.index, requestId⟩ entry.mutation)) := by
  have hreplicas : ∀ shardId, ((world.metadata.edit (committing requestId entry)).shards
      shardId).replicas = (world.metadata.shards shardId).replicas := by
    intro shardId
    simp only [committing, ClusterMetadata.edit, ClusterMetadata.editShard, ClusterMetadata.record]
    split <;> rfl
  have hcommitted : ∀ shardId, (world.metadata.shards shardId).committedIndex ≤
      ((world.metadata.edit (committing requestId entry)).shards shardId).committedIndex := by
    intro shardId
    simp only [committing, ClusterMetadata.edit, ClusterMetadata.editShard, ClusterMetadata.record]
    split
    · exact le_max_left _ _
    · exact le_rfl
  refine ⟨h.lines, h.learned, h.retried, ?_, ?_, h.folds, ?_, h.served⟩
  · intro result mutation hresult
    rcases mem_cons.1 hresult with heq | hold
    · obtain ⟨rfl, rfl⟩ := Prod.mk.inj heq
      refine ⟨howner, ?_⟩
      simp [World.note, World.publishing, committing, ClusterMetadata.edit,
        ClusterMetadata.editShard, ClusterMetadata.record]
    · obtain ⟨hold, hle⟩ := h.acknowledged result mutation hold
      exact ⟨hold, hle.trans (hcommitted _)⟩
  · intro other record hrecord hstatus
    simp only [World.note, World.publishing, committing, ClusterMetadata.edit,
      ClusterMetadata.editShard, ClusterMetadata.record] at hrecord
    split at hrecord
    · cases hrecord
      exact ⟨_, _, mem_cons_self, rfl, rfl⟩
    · obtain ⟨result, mutation, hresult, hplace⟩ := h.committed other record hrecord hstatus
      exact ⟨result, mutation, mem_cons_of_mem _ hresult, hplace⟩
  · intro result mutation hresult name hname
    replace hname : name ∈ (world.metadata.shards result.shardId).replicas := by
      rw [← hreplicas]
      exact hname
    rcases mem_cons.1 hresult with heq | hold
    · obtain ⟨rfl, -⟩ := Prod.mk.inj heq
      exact hripe name hname
    · exact h.ripe result mutation hold name hname

/-! ## Steps and runs -/

omit [FloatRepr] in
theorem untouched_nodes {nodes : String → Node} {up closed : Bool}
    (hnodes : ∀ name shardId, (nodes name).replicas shardId = world.replica name shardId ∨
      (nodes name).replicas shardId = ⟨(world.replica name shardId).disk, none⟩) :
    Untouched world { world with nodes, up, closed } :=
  ⟨rfl, rfl, hnodes⟩

omit [FloatRepr] in
theorem untouched_set_node {node : Node}
    (hnode : ∀ shardId, node.replicas shardId = world.replica name shardId ∨
      node.replicas shardId = ⟨(world.replica name shardId).disk, none⟩) :
    Untouched world (world.setNode name node) := by
  refine ⟨rfl, rfl, fun other shardId => ?_⟩
  by_cases hother : other = name
  · simpa [World.replica, World.setNode, hother] using hnode shardId
  · exact .inl (by simp [World.replica, World.setNode, hother])

/-- What a history has noted it keeps. -/
structure Extends (history later : History) : Prop where
  deliveries : history.deliveries ⊆ later.deliveries
  retries : history.retries ⊆ later.retries
  exported : history.exported ⊆ later.exported

theorem extends_act (h : Act world after) : Extends world.history after.history := by
  cases h with
  | relay name writes _ _ =>
      exact ⟨fun _ hmem => mem_cons_of_mem _ hmem, fun _ hmem => hmem, fun _ hmem => hmem⟩
  | exportRows name shardId =>
      exact ⟨fun _ hmem => hmem, fun _ hmem => hmem, fun _ hmem => mem_cons_of_mem _ hmem⟩
  | retry _ =>
      exact ⟨fun _ hmem => hmem, fun _ hmem => mem_cons_of_mem _ hmem, fun _ hmem => hmem⟩
  | answer _ _ =>
      exact ⟨fun _ hmem => hmem, fun _ hmem => mem_cons_of_mem _ hmem, fun _ hmem => hmem⟩
  | serve name shardId _ _ =>
      refine ⟨?_, ?_, ?_⟩
      all_goals
        simp only [World.note, noteServed]
        split <;> exact fun _ hmem => hmem
  | publish hedit _ =>
      cases hedit <;> exact ⟨fun _ hmem => hmem, fun _ hmem => hmem, fun _ hmem => hmem⟩
  | @round sent _ _ _ _ hsends hend =>
      have hsame := same_ledger_sends hsends
      have hdeliveries : world.history.deliveries ⊆ sent.history.deliveries := by
        clear hend hsame
        induction hsends with
        | refl => exact fun _ hmem => hmem
        | tail _ hsend ih => exact fun _ hmem => deliveries_subset_of_send hsend (ih hmem)
      have hretries : world.history.retries ⊆ sent.history.retries := by
        rw [hsame.retries]
        exact fun _ hmem => hmem
      have hexported : world.history.exported ⊆ sent.history.exported := by
        rw [hsame.exported]
        exact fun _ hmem => hmem
      cases hend <;> exact ⟨hdeliveries, hretries, hexported⟩
  | _ => exact ⟨fun _ hmem => hmem, fun _ hmem => hmem, fun _ hmem => hmem⟩

omit [FloatRepr] in
theorem HistoryMeets.before {history later : History} (h : HistoryMeets later)
    (hextends : Extends history later) : HistoryMeets history :=
  ⟨fun _ hmem => h.deliveries _ (hextends.deliveries hmem),
    fun _ hmem => h.retries _ (hextends.retries hmem),
    eq_nil_of_subset_nil (h.exported ▸ hextends.exported)⟩

theorem Live.routed_original (h : Live world) {mutation : Json} {record : RequestRecord}
    (hfound : Found world requestId mutation shardId record)
    (hmeets : RetryMeets (world.retryOf requestId mutation shardId record)) :
    shardId = record.shardId := by
  obtain ⟨-, pointId, hid, hroute⟩ := h.ledger.owner_routed _ _ _ _ hmeets.original
  obtain ⟨other, hother, hshard⟩ := hfound.routed
  cases hid.symm.trans hother
  exact hshard.symm.trans hroute

/-- Every action that meets the condition keeps the invariant. -/
theorem Visible.act (h : Visible world) (hlive : Live world) (hbefore : Routed world.history)
    (hact : Act world after) (hrouted : Routed after.history)
    (hmeets : HistoryMeets after.history) : Visible after := by
  cases hact with
  | faults faults => exact h.same ⟨rfl, rfl, fun _ _ => .inl rfl⟩ rfl rfl rfl rfl
  | shutdown => exact h.same (untouched_nodes fun _ _ => .inr rfl) rfl rfl rfl rfl
  | stop name => exact h.same (untouched_set_node fun _ => .inr rfl) rfl rfl rfl rfl
  | start name => exact h.same (untouched_set_node fun _ => .inr rfl) rfl rfl rfl rfl
  | partition name enabled => exact h.same (untouched_set_node fun _ => .inl rfl) rfl rfl rfl rfl
  | call name shardId writes hcalls =>
      cases hcalls with
      | configure _ =>
          refine h.call hlive ?_ ?_ ?_
          · trivial
          · simp [ReplicaCall.records]
          · simp [ReplicaCall.records]
      | reopen _ =>
          refine h.call hlive ?_ ?_ ?_
          · trivial
          · simp [ReplicaCall.records]
          · simp [ReplicaCall.records]
      | @prepare entry hshard hvalid hentry =>
          subst hshard
          refine h.call hlive ?_ ?_ ?_
          · trivial
          · intro other hother
            simp only [ReplicaCall.records, mem_singleton, JournalRecord.prepare.injEq]
              at hother
            subst hother
            rcases hentry with howns | ⟨old, hold, hindex, hrequest, hmutation⟩
            · exact howns
            · obtain ⟨requestId, howner⟩ := h.learned _ _ hold
              rw [hindex, hrequest, hmutation] at howner
              exact ⟨requestId, howner⟩
          · simp [ReplicaCall.records]
  | relay name writes hvalid hrelayed =>
      obtain ⟨old, hold, hindex, hrequest, hmutation⟩ := hrelayed
      obtain ⟨requestId, howner⟩ := h.learned _ _ hold
      rw [hindex, hrequest, hmutation] at howner
      exact h.deliver hlive hmeets.deliveries ⟨requestId, howner⟩
  | install name shardId writes rows hexported _ =>
      have hnone : world.history.exported = [] := hmeets.exported
      simp [hnone] at hexported
  | learn name shardId index => exact h.learn hlive
  | exportRows name shardId =>
      have hnone := hmeets.exported
      simp [World.note, exportRequest, readRequest] at hnone
  | serve name shardId hname hcaughtUp => exact h.serve hlive hname hcaughtUp
  | submit mutation => exact h.same ⟨rfl, rfl, fun _ _ => .inl rfl⟩ rfl rfl rfl rfl
  | retry hfound =>
      refine h.untouched ⟨rfl, rfl, fun _ _ => .inl rfl⟩ (fun _ _ hmem => .inl hmem) ?_
        (fun _ _ hmem => .inl hmem) (fun _ hmem => hmem) fun _ hmem => .inl hmem
      intro retry hretry
      rcases mem_cons.1 hretry with rfl | hold
      · exact .inr rfl
      · exact .inl hold
  | answer hfound hstatus =>
      exact h.answer hfound hstatus (hrouted _ mem_cons_self)
        (hmeets.retries _ mem_cons_self)
  | publish hedit hvalid => exact h.edit hlive hedit hmeets.exported
  | refuse hedit hinvalid =>
      exact absurd (ClusterMetadata.validate_ok.2 (edited_of_edits hlive hedit).valid) hinvalid
  | @round sent after requestId entry hround hsends hend =>
      obtain ⟨record, hrecord, hshard, hindex, hentry, hmark⟩ := hlive.round hbefore hround
      have hsame := same_ledger_sends hsends
      have hsent := hlive.sends hentry hmark hsends
      have hextends : Extends sent.history after.history := by
        cases hend <;> exact ⟨fun _ hmem => hmem, fun _ hmem => hmem, fun _ hmem => hmem⟩
      have hmeets := hmeets.before hextends
      obtain ⟨howner, hripe⟩ := h.round hlive hbefore (hsame.retries ▸ hmeets.retries) hround
      obtain ⟨hvisible, hripe⟩ := h.sends hlive hentry hmark hround.request howner hripe hsends
        hmeets.deliveries
      have hentry' := (grows_same_ledger hsame).allowed hentry
      have hedited := edited_committing hsent (hsame.metadata ▸ hrecord) hshard hindex hentry'
      cases hend with
      | failed => exact hvisible
      | published hvalid => exact hvisible.concludes (hsame.owners ▸ howner) hripe
      | refused hinvalid => exact absurd (ClusterMetadata.validate_ok.2 hedited.valid) hinvalid

/-- The invariant of a run that meets the condition. -/
def Shown (world : World) : Prop :=
  Pristine world ∨ Live world ∧ Routed world.history ∧ Visible world

theorem Shown.inv (h : Shown world) : Inv world :=
  h.imp_right And.left

/-- The start of a coordinator keeps the invariant. -/
theorem Shown.boot (h : Shown world) {options : Options} {metadata : ClusterMetadata}
    (hstart : startingMetadata options world.published = .ok metadata)
    (hvalid : metadata.validate = .ok ()) :
    Shown { world with metadata, published := some metadata, up := true } := by
  have hlive := h.inv.boot hstart hvalid
  rcases h with hpristine | ⟨hold, hrouted, hvisible⟩
  · rw [hpristine.published] at hstart
    cases pure_ok.1 hstart
    refine .inr ⟨hlive, by simp [hpristine.history, Routed, History.empty], ?_⟩
    refine ⟨?_, ?_, ?_, ?_, ?_, ?_, ?_, ?_⟩
    · intro name shardId entry hentry
      change _ ∈ (world.replica name shardId).disk.journal.lines at hentry
      rw [hpristine.replicas name shardId] at hentry
      cases hentry
    · simp [hpristine.history, History.empty]
    · simp [hpristine.history, History.empty]
    · simp [hpristine.history, History.empty]
    · simp [Options.metadata]
    · intro name shardId
      change ReplicaInv True _ (world.replica name shardId)
      rw [hpristine.replicas name shardId]
      exact replica_inv_initial
    · simp [hpristine.history, History.empty]
    · simp [hpristine.history, History.empty]
  · refine .inr ⟨hlive, hrouted, ?_⟩
    rw [hold.published] at hstart
    simp only [startingMetadata, bind_ok, require_ok, pure_ok] at hstart
    obtain ⟨-, -, -, -, -, -, rfl⟩ := hstart
    have hgrows : Grows world.metadata world.metadata.reopened world.history world.history :=
      ⟨rfl, rfl, fun _ => le_rfl, fun _ => le_rfl, fun _ _ => le_rfl,
        fun _ record hrecord => ⟨record, hrecord, rfl, rfl⟩, fun _ _ _ howner => howner,
        fun _ hmem => hmem⟩
    have hpublished := @Visible.publish _ world hvisible world.metadata.reopened id hgrows rfl rfl
      rfl rfl (fun _ => rfl) (fun _ => rfl) fun _ _ hrecord _ => hrecord
    exact hpublished.same ⟨rfl, rfl, fun _ _ => .inl rfl⟩ rfl rfl rfl rfl

theorem Shown.unpublished (h : Shown world) (hstep : Step world after)
    (hpublished : after.published = world.published) (hhistory : after.history = world.history)
    (hvisible : Visible world → Visible after) : Shown after := by
  rcases h with hpristine | ⟨hlive, hrouted, hold⟩
  · have hrouted : Routed after.history := by
      simp [hhistory, hpristine.history, Routed, History.empty]
    rcases inv_step (.inl hpristine) hstep hrouted with hstill | hlive
    · exact .inl hstill
    · cases (hpublished.trans hpristine.published).symm.trans hlive.published
  · have hnext : Routed after.history := hhistory ▸ hrouted
    rcases inv_step (.inr hlive) hstep hnext with hpristine | hlive'
    · cases (hpublished.trans hlive.published).symm.trans hpristine.published
    · exact .inr ⟨hlive', hnext, hvisible hold⟩

/-- Every step that meets the condition keeps the invariant. -/
theorem shown_step (h : Shown world) (hstep : Step world after)
    (hmeets : HistoryMeets after.history) : Shown after := by
  cases hstep with
  | act hup hact =>
      rcases h with hpristine | ⟨hlive, hrouted, hvisible⟩
      · simp [hpristine.down] at hup
      · have hnext := routed_act hrouted hact fun hfound hmem =>
          hlive.routed_original hfound (hmeets.retries _ hmem)
        exact .inr ⟨hlive.act hact hnext, hnext, hvisible.act hlive hrouted hact hnext hmeets⟩
  | boot hstart hvalid => exact h.boot hstart hvalid
  | faults faults =>
      exact h.unpublished (.faults world faults) rfl rfl fun hvisible =>
        hvisible.same ⟨rfl, rfl, fun _ _ => .inl rfl⟩ rfl rfl rfl rfl
  | crash =>
      exact h.unpublished (.crash world) rfl rfl fun hvisible =>
        hvisible.same (untouched_nodes fun _ _ => .inr rfl) rfl rfl rfl rfl
  | reset options =>
      refine h.unpublished (.reset world options) rfl rfl fun hvisible =>
        hvisible.same (untouched_nodes fun name shardId => .inr ?_) rfl rfl rfl rfl
      split <;> rfl

theorem extends_step (h : Step world after) : Extends world.history after.history := by
  cases h with
  | act _ hact => exact extends_act hact
  | _ => exact ⟨fun _ hmem => hmem, fun _ hmem => hmem, fun _ hmem => hmem⟩

theorem shown_reaches (hreaches : Reaches .initial after) (hmeets : HistoryMeets after.history) :
    Shown after := by
  induction hreaches with
  | refl => exact .inl ⟨rfl, rfl, rfl, fun _ _ => rfl⟩
  | tail _ hstep ih => exact shown_step (ih (hmeets.before (extends_step hstep))) hstep hmeets

/-! ## Runs without rebalancing -/

/-- No shard was exported. -/
def World.Unexported (world : World) : Prop := world.history.exported = []

omit [FloatRepr] in
theorem unexported_steady : Steady World.Unexported where
  same _ _ _ hexported h := hexported.trans h
  edit _ _ h := h

theorem ascends_construct (options : Options) : Ascends World.Unexported (construct options) := by
  have hfirst : ∀ metadata, Ascends World.Unexported (publishFirst metadata) := fun metadata =>
    ascends_bind (ascends_next_fault unexported_steady) fun _ =>
      ascends_bind (ascends_ensure _ _) fun _ => ascends_bind (ascends_lift _) fun _ =>
        ascends_bind (ascends_update fun _ => le_rfl) fun _ => ascends_ensure _ _
  have hconfigure : ∀ shardId, Ascends World.Unexported (configureShard shardId) := fun shardId =>
    ascends_bind ascends_read fun _ =>
      ascends_for_each (ascends_configure_replica unexported_steady shardId) _
  have hcatchUp : ∀ shardId, Ascends World.Unexported (catchUpShard shardId) := fun shardId =>
    ascends_bind ascends_read fun _ =>
      ascends_for_each (ascends_catch_up unexported_steady · shardId) _
  exact ascends_bind (ascends_ensure _ _) fun _ => ascends_bind (ascends_ensure _ _) fun _ =>
    ascends_bind (ascends_update fun _ => le_rfl) fun _ => ascends_bind ascends_read fun _ =>
      ascends_bind (ascends_lift _) fun _ => ascends_bind (hfirst _) fun _ =>
        ascends_bind (ascends_for_each hconfigure _) fun _ => ascends_for_each hcatchUp _

omit [FloatRepr] in
theorem unexported_after_call {α : Type} {x : ClusterM α} (hx : Ascends World.Unexported x)
    (h : world.Unexported) : (World.afterCall (x world)).Unexported := by
  have hleft := hx world h
  unfold World.afterCall
  split <;> simp_all [World.Unexported, World.crashed]

/-- A call on a coordinator that does not rebalance exports nothing. -/
theorem unexported_method {ρ : Type} {answer : PointMap → Except String ρ} {call : ClusterCall}
    (hcall : ∀ shardId name, call ≠ .rebalanceAddReplica shardId name) (h : world.Unexported) :
    (World.method answer world call).Unexported := by
  have hmember : ∀ name, Ascends World.Unexported (ensureMember name) := fun _ =>
    ascends_bind ascends_read fun _ => ascends_ensure _ _
  cases call with
  | construct options => exact h
  | write requestId mutation => exact unexported_after_call (ascends_write unexported_steady _ _) h
  | get pointId => exact unexported_after_call (ascends_get unexported_steady pointId) h
  | search => exact unexported_after_call (ascends_search unexported_steady answer) h
  | catchUp name shardId => exact unexported_after_call (ascends_catch_up unexported_steady name shardId) h
  | stopNode name =>
      exact unexported_after_call (x := stopNode name) (ascends_bind (hmember name) fun _ =>
        ascends_update fun _ => le_rfl) h
  | restartNode name => exact unexported_after_call (ascends_restart_node unexported_steady name) h
  | partitionNode name enabled =>
      exact unexported_after_call (x := partitionNode name enabled)
        (ascends_bind (hmember name) fun _ =>
          ascends_rpc unexported_steady fun _ _ => rfl) h
  | rebalanceAddReplica shardId name => exact absurd rfl (hcall shardId name)
  | close =>
      refine unexported_after_call (x := close) (ascends_update fun world hworld => ?_) h
      split <;> exact hworld
  | crash => exact h

/-- A run that does not rebalance exports nothing. -/
theorem unexported_run {ρ : Type} {answer : PointMap → Except String ρ}
    {calls : List (ClusterCall × List Fault)}
    (hcalls : ∀ call ∈ calls, ∀ shardId name, call.1 ≠ .rebalanceAddReplica shardId name)
    (h : world.Unexported) : (World.run answer world calls).Unexported := by
  induction calls generalizing world with
  | nil => exact h
  | cons first calls ih =>
      obtain ⟨call, faults⟩ := first
      refine ih (fun next hnext => hcalls next (List.mem_cons_of_mem _ hnext)) ?_
      have hcall := hcalls _ mem_cons_self
      have hquiet : ({ world with faults } : World).Unexported := h
      cases call with
      | construct options =>
          simp only [World.call]
          split
          · exact h
          · have hleft := ascends_construct options { world with faults } hquiet
            unfold World.afterConstruct
            split <;> simp_all [World.Unexported, World.crashed]
      | _ =>
          simp only [World.call]
          split
          · exact unexported_method hcall hquiet
          · exact h

/-! ## Main result -/

omit [FloatRepr] in
/-- What a get returns is what a read on record shows at that moment. -/
theorem get_is_served {pointId : Int} :
    wp (getPoint pointId) (fun point w => ∃ served ∈ w.history.served, ∃ id,
        kernelInt (.int pointId) = .ok id ∧ point = served.disk.collection[id]? ∧
          served.shardId = world.metadata.route pointId ∧
          served.acknowledged = w.history.acknowledged)
      (fun _ _ => True) world := by
  simp only [getPoint, ensureOpen, wp_bind, wp_read, wp_ensure]
  refine ⟨fun _ => ?_, fun _ => trivial⟩
  refine wp_mono (wp_trivial _ world) (fun name reached _ => ?_) fun _ _ _ => trivial
  refine wp_read_rpc (fun _ _ => trivial) ?_ fun _ _ => ⟨trivial, trivial⟩
  intro faults shard point hshard hpoint
  simp only [bind_ok, pure_ok] at hpoint
  obtain ⟨id, hid, rfl⟩ := hpoint
  refine ⟨⟨world.metadata.route pointId,
    (reached.replica name (world.metadata.route pointId)).disk,
    reached.history.acknowledged⟩, ?_, id, hid, rfl, rfl, ?_⟩
  · simp only [World.note, noteServed]
    rw [if_pos (by rw [World.replica] at hshard; simp [hshard])]
    exact mem_cons_self
  · simp only [World.note, noteServed]
    split <;> rfl

/-- In every run without rebalancing whose commits find the acknowledged indexes below their own
already marked, and whose retries carry their first mutation and come before any higher commit:
whenever a replica serves a read, its point state is the fold, in index order, of journaled
entries of that replica, and they contain every write of the shard acknowledged so far. -/
theorem served_reads_show_acknowledged {ρ : Type} (answer : PointMap → Except String ρ)
    (calls : List (ClusterCall × List Fault))
    (hcalls : ∀ call ∈ calls, ∀ shardId name, call.1 ≠ .rebalanceAddReplica shardId name)
    (hdeliveries : ∀ delivery ∈ (World.run answer .initial calls).history.deliveries,
      DeliveryMeets delivery)
    (hretries : ∀ retry ∈ (World.run answer .initial calls).history.retries, RetryMeets retry) :
    ∀ served ∈ (World.run answer .initial calls).history.served,
      ShowsAcknowledged (World.run answer .initial calls).metadata.dimension served.Journaled
        served := by
  have hexported : (World.run answer .initial calls).Unexported :=
    unexported_run hcalls rfl
  intro served hserved
  rcases shown_reaches (run_reaches calls) ⟨hdeliveries, hretries, hexported⟩ with
    hpristine | ⟨-, -, hvisible⟩
  · rw [hpristine.history] at hserved
    cases hserved
  · exact hvisible.served served hserved

omit [FloatRepr]

/-- Two upserts, the second by a new leader after the first was stopped and restarted, and a
read of the first point. -/
def visibleCalls : List (ClusterCall × List Fault) :=
  [(.construct ⟨1, 1, 3, 3⟩, []), (.write (sampleRequest true) (sampleUpsert 1), []),
    (.stopNode "n0", []), (.write (sampleRequest false) (sampleUpsert 2), []),
    (.restartNode "n0", []), (.get 1, [])]

/-- The read of that run shows both writes. -/
theorem served_reads_show_acknowledged_sample :
    (sampleCluster visibleCalls).history.served.map
        (fun served => served.acknowledged.map (·.1.index)) = [[2, 1]] ∧
      ∀ served ∈ (sampleCluster visibleCalls).history.served,
        ShowsAcknowledged (sampleCluster visibleCalls).metadata.dimension served.Journaled
          served := by
  have hreads : (sampleCluster visibleCalls).history.served.map
      (fun served => served.acknowledged.map (·.1.index)) = [[2, 1]] := by decide +kernel
  have hfacts : ∀ delivery ∈ (sampleCluster visibleCalls).history.deliveries,
      (delivery.replica.shard.all fun shard =>
        (shard.entryAt delivery.entry).mutation = sampleUpsert delivery.entry.index ∧
          Fits64 delivery.entry.index ∧
          ∀ index ∈ shard.journal.committed, index < delivery.entry.index) = true ∧
      ∀ pair ∈ delivery.acknowledged, pair.1.index < delivery.entry.index →
        .commit pair.1.index ∈ delivery.replica.disk.journal.lines := by
    decide +kernel
  have hdeliveries : ∀ delivery ∈ (sampleCluster visibleCalls).history.deliveries,
      DeliveryMeets delivery := by
    intro delivery hdelivery shard hshard
    obtain ⟨hopen, hacknowledged⟩ := hfacts delivery hdelivery
    rw [hshard] at hopen
    obtain ⟨hmutation, hfits, horder⟩ := of_decide_eq_true hopen
    refine ⟨⟨?_, fun _ => .inr horder⟩, fun result mutation hresult _ hlt =>
      hacknowledged _ hresult hlt⟩
    rw [hmutation]
    exact kernel_accepts_sample_upsert hfits
  have hnone : (sampleCluster visibleCalls).history.retries.length = 0 := by decide +kernel
  have hretries : ∀ retry ∈ (sampleCluster visibleCalls).history.retries, RetryMeets retry := by
    intro retry hretry
    rw [List.length_eq_zero_iff.1 hnone] at hretry
    cases hretry
  have hcalls : ∀ call ∈ visibleCalls, ∀ shardId name,
      call.1 ≠ .rebalanceAddReplica shardId name := by
    simp [visibleCalls]
  refine ⟨hreads, ?_⟩
  unfold sampleCluster at hdeliveries hretries ⊢
  exact @served_reads_show_acknowledged sampleFloatRepr Unit (fun _ => .ok ()) visibleCalls hcalls
    hdeliveries hretries

/-- The upsert of index 1 does not reach `n2`, which then commits index 2 and is the only one
left to serve the read of the first point. -/
def gapCalls : List (ClusterCall × List Fault) :=
  [(.construct ⟨1, 1, 3, 3⟩, []),
    (.write (sampleRequest true) (sampleUpsert 1), [.none, .none, .none, .none, .requestLost,
      .none, .none, .none, .requestLost]),
    (.write (sampleRequest false) (sampleUpsert 2), []),
    (.stopNode "n0", []), (.stopNode "n1", []), (.get 1, [])]

/-- The entry of each of the two upserts. -/
def gapEntry (first : Bool) : ReplicatedEntry :=
  @ReplicatedEntry.create sampleFloatRepr 0 1 1 (if first then 1 else 2) (sampleRequest first)
    (sampleUpsert (if first then 1 else 2))

/-- The read is not the fold of any journaled entries that contain both acknowledged writes. -/
theorem read_misses_acknowledged_write :
    ∃ served ∈ (sampleCluster gapCalls).history.served,
      ¬ ShowsAcknowledged 1 (fun entry => ∃ name ∈ ["n0", "n1", "n2"],
        .prepare entry ∈ ((sampleCluster gapCalls).replica name 0).disk.journal.lines) served := by
  have hfacts : ∀ served ∈ (sampleCluster gapCalls).history.served, served.shardId = 0 ∧
      served.acknowledged = [(⟨0, 1, 2, sampleRequest false⟩, sampleUpsert 2),
        (⟨0, 1, 1, sampleRequest true⟩, sampleUpsert 1)] ∧
      served.disk.collection[(1 : Int64)]? = none := by decide +kernel
  have hlines : ∀ name ∈ ["n0", "n1", "n2"], ∀ line ∈
      ((sampleCluster gapCalls).replica name 0).disk.journal.lines,
      line = .prepare (gapEntry true) ∨ line = .prepare (gapEntry false) ∨ line = .commit 1 ∨
        line = .commit 2 := by decide +kernel
  have hread : (sampleCluster gapCalls).history.served ≠ [] := by decide +kernel
  obtain ⟨served, hserved⟩ := exists_mem_of_ne_nil _ hread
  obtain ⟨hshard, hacknowledged, habsent⟩ := hfacts served hserved
  refine ⟨served, hserved, ?_⟩
  rintro ⟨entries, hsorted, hjournaled, hfold, hcomplete⟩
  have honly : ∀ entry ∈ entries, entry = gapEntry true ∨ entry = gapEntry false := by
    intro entry hentry
    obtain ⟨name, hname, hline⟩ := hjournaled entry hentry
    simpa using hlines name hname _ hline
  have hmem : ∀ first, gapEntry first ∈ entries := by
    intro first
    have hresult : (⟨0, 1, if first then 1 else 2, sampleRequest first⟩,
        sampleUpsert (if first then 1 else 2)) ∈ served.acknowledged := by
      rw [hacknowledged]
      cases first <;> simp
    obtain ⟨entry, hentry, hindex, -, -⟩ := hcomplete _ _ hresult hshard.symm
    rcases honly entry hentry with rfl | rfl <;> cases first <;>
      first | exact hentry | cases hindex
  have hlist : entries = [gapEntry true, gapEntry false] :=
    entries_eq_pair (by decide) hsorted honly (hmem true) (hmem false)
  have hpresent : ((foldEntries 1 ∅ [gapEntry true, gapEntry false]).toOption.bind
      (·[(1 : Int64)]?)).isSome := by decide +kernel
  rw [hlist] at hfold
  simp [hfold, Except.toOption, habsent] at hpresent

end

end Akasha.Distributed

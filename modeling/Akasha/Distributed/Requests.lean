import Akasha.Distributed.Agreement
import Mathlib.Data.Set.Function

/-!
# Indexes and requests over whole runs

Two results about every run of a cluster, with coordinators lost and reopened at any point and
any set of RPCs failed. `one_index_one_mutation` says that the journals of a shard agree on the
request and the mutation at each index, as far as the checksum tells mutations apart.
`request_commits_at_one_index` says that all commit markers and all results of a request carry
one index. The second needs retries to route to the shard their request was recorded for; two
mutations of one checksum that route to different shards break it.
-/

namespace Akasha.Distributed

open Lib Lib.Exec Relation

variable [FloatRepr]

/-! ## Checksums that tell mutations apart -/

/-- The checksum tells the mutations written so far apart. -/
def Distinguishes (history : History) : Prop :=
  Set.InjOn checksumOf { mutation | mutation ∈ history.written }

section

variable {world after : World}

theorem written_subset_of_act (h : Act world after) :
    world.history.written ⊆ after.history.written := by
  cases h with
  | submit mutation => exact fun _ hmem => List.mem_cons_of_mem _ hmem
  | serve name shardId _ _ =>
      simp only [World.note, noteServed]
      split <;> exact fun _ hmem => hmem
  | publish hedit _ => cases hedit <;> exact fun _ hmem => hmem
  | round _ hsends hend =>
      have hsame := (same_ledger_sends hsends).written
      cases hend <;> exact fun _ hmem => by simpa [World.note, World.publishing,
        History.acknowledge, hsame] using hmem
  | _ => exact fun _ hmem => hmem

theorem written_subset (h : Step world after) :
    world.history.written ⊆ after.history.written := by
  cases h with
  | act _ hact => exact written_subset_of_act hact
  | _ => exact fun _ hmem => hmem

theorem Live.routed (h : Live world) (hdistinguishes : Distinguishes world.history)
    {requestId : RequestId} {mutation : Json} {shardId : Nat} {record : RequestRecord}
    (hfound : Found world requestId mutation shardId record) : shardId = record.shardId := by
  obtain ⟨owned, howner, hsum⟩ := h.ledger.table_owned requestId record hfound.recorded
  obtain ⟨hwritten, pointId, hid, hroute⟩ := h.ledger.owner_routed _ _ _ _ howner
  obtain ⟨otherId, hother, hshard⟩ := hfound.routed
  have hsame : mutation = owned :=
    hdistinguishes hfound.written hwritten (hfound.checksum.symm.trans hsum)
  rw [hsame, hid] at hother
  cases hother
  exact hshard.symm.trans hroute

/-- The retries of an action are routed when the one it notes is. -/
theorem routed_act (hrouted : Routed world.history) (hact : Act world after)
    (hnoted : ∀ {requestId mutation shardId record},
      Found world requestId mutation shardId record →
      world.retryOf requestId mutation shardId record ∈ after.history.retries →
      shardId = record.shardId) :
    Routed after.history := by
  cases hact with
  | retry hfound =>
      intro retry hmem
      rcases List.mem_cons.1 hmem with rfl | hold
      · exact hnoted hfound List.mem_cons_self
      · exact hrouted retry hold
  | answer hfound _ =>
      intro retry hmem
      rcases List.mem_cons.1 hmem with rfl | hold
      · exact hnoted hfound List.mem_cons_self
      · exact hrouted retry hold
  | serve name shardId _ _ =>
      simp only [World.note, noteServed]
      split <;> exact hrouted
  | publish hedit _ => cases hedit <;> exact hrouted
  | round _ hsends hend =>
      have hsame := (same_ledger_sends hsends).retries
      cases hend <;> simpa [Routed, World.note, World.publishing, History.acknowledge, hsame]
        using hrouted
  | _ => exact hrouted

theorem inv_of_distinguishes (hreaches : Reaches .initial after)
    (hdistinguishes : Distinguishes after.history) : Inv after ∧ Routed after.history := by
  induction hreaches with
  | refl => exact ⟨inv_initial, fun _ hretry => by cases hretry⟩
  | @tail reached next hreached hstep ih =>
      have hbefore : Distinguishes reached.history := hdistinguishes.mono (written_subset hstep)
      obtain ⟨hinv, hrouted⟩ := ih hbefore
      have hnext : Routed next.history := by
        cases hstep with
        | act hup hact =>
            rcases hinv with hpristine | hlive
            · simp [hpristine.down] at hup
            · exact routed_act hrouted hact fun hfound _ => hlive.routed hbefore hfound
        | _ => exact hrouted
      exact ⟨inv_step hinv hstep hnext, hnext⟩

end

/-! ## What the invariant says of journals -/

variable {entry : ReplicatedEntry}

section

variable {world : World}

theorem Inv.entry_owned (h : Inv world) {name : String} {shardId : Nat}
    (hentry : .prepare entry ∈ (world.replica name shardId).disk.journal.lines) :
    Live world ∧ AllowedRecord world.metadata world.history shardId (.prepare entry) := by
  rcases h with hpristine | hlive
  · rw [hpristine.replicas name shardId] at hentry
    cases hentry
  · exact ⟨hlive, (hlive.traced name shardId).disk.lines _ hentry⟩

theorem Inv.marker_recorded (h : Inv world) {name : String} {shardId : Nat}
    (hentry : .prepare entry ∈ (world.replica name shardId).disk.journal.lines)
    (hmarker : .commit entry.index ∈ (world.replica name shardId).disk.journal.lines) :
    ∃ requestId : RequestId, ∃ record, entry.requestId = requestId ∧
      world.metadata.requestTable requestId = some record ∧ record.shardId = shardId ∧
      record.index = entry.index := by
  obtain ⟨hlive, -, -, -, requestId, mutation, howner, hrequest, -⟩ := h.entry_owned hentry
  obtain ⟨marked, record, hrecord, rfl, hindex⟩ :=
    (hlive.traced name shardId).disk.lines _ hmarker
  obtain ⟨other, hother, -⟩ := hlive.ledger.table_owned marked record hrecord
  rw [hindex, howner] at hother
  cases hother
  exact ⟨requestId, record, hrequest, hrecord, rfl, hindex⟩

end

/-! ## Results that are returned -/

section

variable {world : World} {requestId : RequestId} {mutation : Json}

theorem commit_prepared_acknowledged {checksum : Nat} :
    wp (commitPrepared requestId entry checksum)
      (fun result w => (result, entry.mutation) ∈ w.history.acknowledged) (fun _ _ => True)
      world := by
  simp only [commitPrepared, wp_bind, wp_read, wp_ensure, wp_pure]
  refine wp_mono (wp_trivial _ world) (fun _ sent _ => ⟨fun _ => ?_, fun _ => trivial⟩)
    fun _ _ _ => trivial
  exact wp_publish (fun _ => trivial) (fun _ _ _ => trivial)
    fun _ _ => ⟨List.mem_cons_self, trivial⟩

/-- One round of `_write` returns only results that are on record. -/
theorem write_once_acknowledged {leaderFailed : Nat → ClusterM CommitResult}
    (hfailed : ∀ shardId w, wp (leaderFailed shardId)
      (fun result w => (result, mutation) ∈ w.history.acknowledged) (fun _ _ => True) w) :
    wp (writeOnce requestId mutation leaderFailed)
      (fun result w => (result, mutation) ∈ w.history.acknowledged) (fun _ _ => True) world := by
  simp only [writeOnce, ensureOpen, wp_bind, wp_read, wp_ensure, wp_lift]
  refine ⟨fun _ => ⟨fun pointId _ => ?_, fun _ _ => trivial⟩, fun _ => trivial⟩
  cases world.metadata.requestTable requestId with
  | some record =>
      simp only [writeAgain, wp_bind, wp_ensure]
      refine ⟨fun _ => ?_, fun _ => trivial⟩
      cases record.status with
      | committed => exact List.mem_cons_self
      | prepared =>
          simp only [wp_bind, noteRetry, wp_update, wp_read]
          exact wp_mono (wp_trivial _ world) (fun _ _ _ => commit_prepared_acknowledged)
            fun _ _ _ => trivial
  | none =>
      simp only [wp_bind, wp_read]
      refine wp_mono (wp_trivial _ world) (fun _ led _ => ?_) fun _ _ _ => trivial
      have hfresh : wp (prepareNext requestId mutation (world.metadata.route pointId))
          (fun result _ => result.1.mutation = mutation) (fun _ _ => True) led := by
        simp only [prepareNext, wp_bind, wp_read, wp_pure]
        refine wp_mono (wp_trivial _ led) (fun _ allocated _ => ?_) fun _ _ _ => trivial
        exact wp_mono (wp_trivial _ allocated) (fun _ _ _ => rfl) fun _ _ _ => trivial
      refine wp_mono hfresh ?_ fun _ _ _ => trivial
      rintro ⟨entry, prepared⟩ reached rfl
      rw [wp_ite]
      refine ⟨fun _ => ?_, fun _ => hfailed _ reached⟩
      simp only [commitFresh, wp_bind, wp_read, wp_ensure]
      refine ⟨fun _ => ?_, fun _ => trivial⟩
      exact wp_mono (wp_trivial _ reached) (fun _ _ _ => commit_prepared_acknowledged)
        fun _ _ _ => trivial

theorem write_acknowledged :
    wp (write requestId mutation)
      (fun result w => (result, mutation) ∈ w.history.acknowledged) (fun _ _ => True) world := by
  have hretrying : ∀ retries w, wp (writeRetrying requestId mutation retries)
      (fun result w => (result, mutation) ∈ w.history.acknowledged) (fun _ _ => True) w := by
    intro retries
    induction retries with
    | zero => exact fun w => write_once_acknowledged fun _ _ => trivial
    | succ retries ih =>
        refine fun w => write_once_acknowledged fun shardId reached => ?_
        simp only [wp_bind]
        exact wp_mono (wp_trivial _ reached) (fun _ elected _ => ih elected) fun _ _ _ => trivial
  exact wp_write (fun _ => trivial) fun _ => hretrying 2 _

end

/-! ## Main results -/

/-- In every run, any two journal entries of one shard and one index, on any replicas, carry the
same request and the same mutation. -/
theorem one_index_one_mutation {ρ : Type} (answer : PointMap → Except String ρ)
    (calls : List (ClusterCall × List Fault))
    (hdistinguishes : Distinguishes (World.run answer .initial calls).history)
    (shardId : Nat) (first second : String) (entry other : ReplicatedEntry)
    (hentry : .prepare entry ∈
      ((World.run answer .initial calls).replica first shardId).disk.journal.lines)
    (hother : .prepare other ∈
      ((World.run answer .initial calls).replica second shardId).disk.journal.lines)
    (hindex : entry.index = other.index) :
    entry.requestId = other.requestId ∧ entry.mutation = other.mutation := by
  obtain ⟨hinv, -⟩ := inv_of_distinguishes (run_reaches calls) hdistinguishes
  obtain ⟨-, hwritten, hsum, -, owner, mutation, howner, hrequest, hchecksum⟩ :=
    hinv.entry_owned hentry
  obtain ⟨-, hwritten', hsum', -, owner', mutation', howner', hrequest', hchecksum'⟩ :=
    hinv.entry_owned hother
  rw [hindex, howner'] at howner
  cases howner
  refine ⟨hrequest.trans hrequest'.symm, hdistinguishes hwritten hwritten' ?_⟩
  calc checksumOf entry.mutation
      = checksumOf mutation := hsum.symm.trans hchecksum
    _ = checksumOf other.mutation := hchecksum'.symm.trans hsum'

/-- All commit markers for entries of a request, on all replicas, and all results returned for
it carry one index. -/
def CommitsAtOneIndex (world : World) (requestId : RequestId) : Prop :=
  ∃ index,
    (∀ name shardId (entry : ReplicatedEntry),
      .prepare entry ∈ (world.replica name shardId).disk.journal.lines →
      .commit entry.index ∈ (world.replica name shardId).disk.journal.lines →
      entry.requestId = requestId → entry.index = index) ∧
    ∀ (result : CommitResult) mutation, (result, mutation) ∈ world.history.acknowledged →
      result.requestId = requestId → result.index = index

/-- The write is rejected and no replica changes; while the cluster is open the error says
why. -/
def RejectedAsReuse (world : World) (requestId : RequestId) (mutation : Json) : Prop :=
  ∃ e after, write requestId mutation world = (.error e, after) ∧ after.nodes = world.nodes ∧
    (world.closed = false → (mutationId mutation).isOk → (payloadChecksum mutation).isOk →
      e = .protocol "request ID reused with conflicting mutation")

theorem Inv.commits_at_one_index {world : World} (h : Inv world) (requestId : RequestId) :
    CommitsAtOneIndex world requestId := by
  refine ⟨((world.metadata.requestTable requestId).map RequestRecord.index).getD 0, ?_, ?_⟩
  · intro name shardId entry hentry hmarker hrequest
    obtain ⟨owner, record, howner, hrecord, -, hindex⟩ := h.marker_recorded hentry hmarker
    cases Subtype.ext (howner.symm.trans hrequest)
    simp [hrecord, hindex]
  · rintro result mutation hresult rfl
    rcases h with hpristine | hlive
    · rw [hpristine.history] at hresult
      cases hresult
    · obtain ⟨record, hrecord, -, hindex⟩ := hlive.ledger.acknowledged result mutation hresult
      simp [hrecord, hindex]

/-- A write under a recorded request with another checksum sends nothing. -/
theorem rejected_as_reuse {world : World} {requestId : RequestId} {mutation : Json}
    {record : RequestRecord} (hrecord : world.metadata.requestTable requestId = some record)
    (hchecksum : record.checksum ≠ checksumOf mutation) :
    RejectedAsReuse world requestId mutation := by
  have hwrite : wp (write requestId mutation) (fun _ _ => False)
      (fun e w => w.nodes = world.nodes ∧ (world.closed = false → (mutationId mutation).isOk →
        (payloadChecksum mutation).isOk →
        e = .protocol "request ID reused with conflicting mutation")) world := by
    simp only [write, writeRetrying, writeOnce, ensureOpen, wp_bind, wp_update, wp_read,
      wp_ensure, wp_lift]
    refine ⟨fun hopen => ⟨fun _ hid => ⟨fun _ _ => ⟨fun _ => ⟨fun _ _ => ?_, by simp [hid]⟩,
      fun hclosed => absurd hopen hclosed⟩, fun e he => ⟨trivial, fun _ _ hok => ?_⟩⟩,
      fun e he => ⟨trivial, fun _ hok => ?_⟩⟩, fun hclosed => ⟨trivial, by simp_all⟩⟩
    · simp only [World.note, hrecord, writeAgain, wp_bind, wp_ensure]
      exact ⟨fun hsame => absurd hsame hchecksum, fun _ => ⟨trivial, fun _ _ _ => trivial⟩⟩
    · simp [he, Except.isOk, Except.toBool] at hok
    · simp [he, Except.isOk, Except.toBool] at hok
  unfold wp at hwrite
  cases houtcome : write requestId mutation world with
  | mk result after =>
      rw [houtcome] at hwrite
      cases result with
      | ok value => exact hwrite.elim
      | error e => exact ⟨e, after, houtcome, hwrite⟩

/-- In every run whose retries route to the shard their request was recorded for, every request
commits at one index only (`write_acknowledged` says that the results on record are those that
were returned), and a request that is in the table is not accepted again with a mutation of
another checksum. -/
theorem request_commits_at_one_index {ρ : Type} (answer : PointMap → Except String ρ)
    (calls : List (ClusterCall × List Fault))
    (hrouted : Routed (World.run answer .initial calls).history) :
    (∀ requestId, CommitsAtOneIndex (World.run answer .initial calls) requestId) ∧
      ∀ requestId record mutation faults,
        (World.run answer .initial calls).metadata.requestTable requestId = some record →
        record.checksum ≠ checksumOf mutation →
        RejectedAsReuse { World.run answer .initial calls with faults } requestId mutation := by
  have hinv := inv_reaches inv_initial (run_reaches calls) hrouted
  refine ⟨fun requestId => hinv.commits_at_one_index requestId, ?_⟩
  intro requestId record mutation faults hrecord hchecksum
  exact @rejected_as_reuse _ { World.run answer .initial calls with faults } _ _ _ hrecord
    hchecksum

omit [FloatRepr]

/-! ## Sample runs -/

/-- `DistributedCluster.delete`. -/
def deleteMutation (pointId : Int) : Json :=
  .obj [("operation", .str "delete"), ("id", .int pointId)]

/-- Two request identifiers. -/
def sampleRequest (first : Bool) : RequestId :=
  if first then ⟨"r1", by decide⟩ else ⟨"r2", by decide⟩

/-- A run with the sample representation of floats and a search that answers nothing. -/
def sampleCluster (calls : List (ClusterCall × List Fault)) : World :=
  @World.run sampleFloatRepr Unit (fun _ => .ok ()) .initial calls

/-- A write on one of three replicas, whose coordinator dies after the prepares; the request is
then written again by a new coordinator. -/
def interruptedCalls : List (ClusterCall × List Fault) :=
  let options : Options := ⟨1, 1, 3, 3⟩
  [(.construct options, []),
    (.write (sampleRequest true) (deleteMutation 1),
      [.none, .none, .none, .none, .none, .crashBefore]),
    (.construct options, []),
    (.write (sampleRequest true) (deleteMutation 1), [])]

/-- The journals of the interrupted run agree, at an index where two of them hold an entry. -/
theorem one_index_one_mutation_sample :
    (∃ entry, .prepare entry ∈ ((sampleCluster interruptedCalls).replica "n0" 0).disk.journal.lines ∧
      .prepare entry ∈ ((sampleCluster interruptedCalls).replica "n2" 0).disk.journal.lines) ∧
    ∀ shardId first second (entry other : ReplicatedEntry),
      .prepare entry ∈ ((sampleCluster interruptedCalls).replica first shardId).disk.journal.lines →
      .prepare other ∈ ((sampleCluster interruptedCalls).replica second shardId).disk.journal.lines →
      entry.index = other.index →
      entry.requestId = other.requestId ∧ entry.mutation = other.mutation := by
  have hwritten : (sampleCluster interruptedCalls).history.written =
      [deleteMutation 1, deleteMutation 1] := by decide +kernel
  have hdistinguishes : @Distinguishes sampleFloatRepr (sampleCluster interruptedCalls).history := by
    intro mutation hmutation other hother _
    have hmem : ∀ item ∈ (sampleCluster interruptedCalls).history.written,
        item = deleteMutation 1 := by simp [hwritten]
    rw [hmem mutation hmutation, hmem other hother]
  refine ⟨⟨@ReplicatedEntry.create sampleFloatRepr 0 1 1 1 "r1" (deleteMutation 1),
    by decide +kernel, by decide +kernel⟩, ?_⟩
  unfold sampleCluster at hdistinguishes ⊢
  exact @one_index_one_mutation sampleFloatRepr Unit (fun _ => .ok ()) interruptedCalls
    hdistinguishes

/-- A write whose commit response is lost is retried by the client. -/
def retriedCalls : List (ClusterCall × List Fault) :=
  [(.construct ⟨1, 1, 1, 1⟩, []),
    (.write (sampleRequest true) (deleteMutation 1), [.none, .none, .none, .none, .responseLost]),
    (.write (sampleRequest true) (deleteMutation 1), [])]

/-- The retried request commits at one index, and is on record with one result. -/
theorem request_commits_at_one_index_sample :
    CommitsAtOneIndex (sampleCluster retriedCalls) (sampleRequest true) ∧
      (sampleCluster retriedCalls).history.acknowledged.map (·.1.index) = [1] ∧
      @RejectedAsReuse sampleFloatRepr { sampleCluster retriedCalls with faults := [] }
        (sampleRequest true) (deleteMutation 2) := by
  have hretries : (sampleCluster retriedCalls).history.retries.all
      (fun retry => retry.shardId = retry.record.shardId) = true := by decide +kernel
  have hrouted : Routed (sampleCluster retriedCalls).history := by
    intro retry hretry
    simpa using List.all_eq_true.1 hretries retry hretry
  have hrecord : (sampleCluster retriedCalls).metadata.requestTable (sampleRequest true) =
      some ⟨0, 1, 1, @checksumOf sampleFloatRepr (deleteMutation 1), .committed⟩ := by
    decide +kernel
  have hchecksum : @checksumOf sampleFloatRepr (deleteMutation 1) ≠
      @checksumOf sampleFloatRepr (deleteMutation 2) := by decide +kernel
  have hresults : (sampleCluster retriedCalls).history.acknowledged.map (·.1.index) = [1] := by
    decide +kernel
  unfold sampleCluster at hrouted hrecord hresults ⊢
  obtain ⟨hone, hreuse⟩ := @request_commits_at_one_index sampleFloatRepr Unit (fun _ => .ok ())
    retriedCalls hrouted
  exact ⟨hone _, hresults, hreuse _ _ _ [] hrecord hchecksum⟩

/-- Two deletes of one checksum that route to different shards. The first request is prepared
twice on shard 1, at index 2 for good; the second is recorded for index 1 of shard 0 and then
retried with the mutation of the first. -/
def collidingCalls : List (ClusterCall × List Fault) :=
  [(.construct ⟨1, 2, 1, 1⟩, []),
    (.write (sampleRequest false) (deleteMutation 92276785), [.none, .none, .responseLost]),
    (.write (sampleRequest true) (deleteMutation 89493530),
      [.none, .none, .none, .none, .requestLost]),
    (.write (sampleRequest true) (deleteMutation 92276785), [])]

/-- A retry that routes to another shard marks an entry of another request there, which then
stands committed at two indexes. -/
theorem colliding_retry_commits_at_two_indexes :
    ¬ CommitsAtOneIndex (sampleCluster collidingCalls) (sampleRequest false) := by
  rintro ⟨index, hmarkers, -⟩
  have hentry : ∀ position ∈ [1, 2], ∃ entry : ReplicatedEntry, entry.index = position ∧
      entry.requestId = sampleRequest false ∧
      .prepare entry ∈ ((sampleCluster collidingCalls).replica "n0" 1).disk.journal.lines ∧
      .commit entry.index ∈ ((sampleCluster collidingCalls).replica "n0" 1).disk.journal.lines := by
    have hone : .prepare (@ReplicatedEntry.create sampleFloatRepr 1 1 1 1 "r2"
        (deleteMutation 92276785)) ∈
        ((sampleCluster collidingCalls).replica "n0" 1).disk.journal.lines := by decide +kernel
    have htwo : .prepare (@ReplicatedEntry.create sampleFloatRepr 1 2 2 2 "r2"
        (deleteMutation 92276785)) ∈
        ((sampleCluster collidingCalls).replica "n0" 1).disk.journal.lines := by decide +kernel
    intro position hposition
    simp only [List.mem_cons, List.not_mem_nil, or_false] at hposition
    rcases hposition with rfl | rfl
    · exact ⟨_, rfl, rfl, hone, by decide +kernel⟩
    · exact ⟨_, rfl, rfl, htwo, by decide +kernel⟩
  obtain ⟨first, hfirst, hrequest, hprepared, hmarked⟩ := hentry 1 (by simp)
  obtain ⟨second, hsecond, hrequest', hprepared', hmarked'⟩ := hentry 2 (by simp)
  have hsame := (hmarkers "n0" 1 first hprepared hmarked hrequest).trans
    (hmarkers "n0" 1 second hprepared' hmarked' hrequest').symm
  omega

end Akasha.Distributed

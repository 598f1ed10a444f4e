import Akasha.Distributed.Refinement

/-!
# Valid metadata over whole runs

The coordinator publishes its metadata after every change, and the validation refuses to publish
what it finds wrong: one such state in memory and nothing can be written any more. What a change
has to respect is `ClusterMetadata.Allows`. Elections, allocations and rebalancing always respect
it; a commit does when its index lies within the log of the shard it goes to. The one write that
may not is a retry of a prepared request with another mutation of the same checksum: its index
is the recorded one, and its shard that of the new point. `run_valid` says that the metadata
stays valid in every run without such a retry.
-/

namespace Akasha.Distributed

open Lib Lib.Exec

/-! ## What requests and publications do to the metadata -/

section

variable {world : World} {name : String}

theorem metadata_rpc {α : Type} {request : Request α} :
    wp (rpc name request) (fun _ w => w.metadata = world.metadata)
      (fun _ w => w.metadata = world.metadata) world :=
  wp_rpc (fun _ _ => rfl) fun _ _ => ⟨fun _ _ => rfl, fun _ => rfl⟩

theorem metadata_publish {edit : MetadataEdit} {note : History → History} :
    wp (publish edit note) (fun _ w => w.metadata = world.metadata.edit edit)
      (fun _ w => w.metadata = world.metadata ∨ w.metadata = world.metadata.edit edit) world :=
  wp_publish (fun _ => .inl rfl) (fun _ _ _ => .inr rfl) fun _ _ => ⟨rfl, .inr rfl⟩

theorem valid_publish {edit : MetadataEdit} {note : History → History}
    (h : world.metadata.Valid) (hallows : world.metadata.Allows edit) :
    wp (publish edit note)
      (fun _ w => w.metadata = world.metadata.edit edit ∧ w.metadata.Valid)
      (fun _ w => w.metadata.Valid) world := by
  have hedited := ClusterMetadata.valid_edit h hallows
  refine wp_mono metadata_publish ?_ ?_
  · intro _ w hw
    exact ⟨hw, hw ▸ hedited⟩
  · intro _ w hw
    rcases hw with hw | hw
    · exact hw ▸ h
    · exact hw ▸ hedited

end

section

variable [FloatRepr] {world : World} {shardId : Nat} {requestId : RequestId} {mutation : Json}

theorem valid_of_quiet {α : Type} {x : ClusterM α} {reached : World} (h : world.metadata.Valid)
    (hx : wp x (fun _ => Quiet world) (fun _ => Quiet world) reached) :
    wp x (fun _ w => w.metadata.Valid) (fun _ w => w.metadata.Valid) reached :=
  wp_mono hx (fun _ _ hw => hw.metadata ▸ h) fun _ _ hw => hw.metadata ▸ h

/-! ## Elections -/

/-- What an election leaves: valid metadata with the same request table and the same logs. -/
structure Led (world after : World) : Prop where
  valid : after.metadata.Valid
  table : after.metadata.requestTable = world.metadata.requestTable
  shardCount : after.metadata.shardCount = world.metadata.shardCount
  logs : ∀ shard, (after.metadata.shards shard).lastLogIndex =
    (world.metadata.shards shard).lastLogIndex

omit [FloatRepr] in
theorem Led.of_eq {after : World} (h : world.metadata.Valid)
    (heq : after.metadata = world.metadata) : Led world after := by
  refine ⟨heq ▸ h, ?_, ?_, fun shard => ?_⟩ <;> rw [heq]

/-- `_elect_leader`. -/
theorem led_elect_leader (h : world.metadata.Valid) :
    wp (electLeader shardId) (fun _ => Led world) (fun _ w => w.metadata.Valid) world := by
  simp only [electLeader, wp_bind, wp_read]
  refine wp_mono wp_candidates ?_ fun _ w hw => hw.metadata ▸ h
  intro found reached hreached
  obtain ⟨hquiet, hfound⟩ := hreached
  have hvalid : reached.metadata.Valid := hquiet.metadata ▸ h
  simp only [wp_ensure]
  refine ⟨fun hquorum => ?_, fun _ => hvalid⟩
  obtain ⟨hsub, hleader⟩ := ranked_replicas hfound hquorum
  rw [← hquiet.metadata] at hsub
  refine wp_mono (valid_publish hvalid (hsub _ hleader)) ?_ fun _ _ hw => hw
  intro _ elected helected
  obtain ⟨hmetadata, helected⟩ := helected
  have hplaced : ∀ name ∈ (found.insertionSort (ranksBefore · ·)).map Prod.snd,
      name ∈ (elected.metadata.shards shardId).replicas := by
    intro name hname
    rw [hmetadata]
    simpa [ClusterMetadata.edit, ClusterMetadata.editShard] using hsub name hname
  refine wp_mono (quiet_configure_each hplaced) ?_ fun _ w hw => hw.metadata ▸ helected
  intro _ w hw
  have hedit : w.metadata = world.metadata.edit (.elect shardId
      (((found.insertionSort (ranksBefore · ·)).map Prod.snd).headD "")) := by
    rw [hw.metadata, hmetadata, hquiet.metadata]
  refine ⟨hw.metadata ▸ helected, ?_, ?_, fun shard => ?_⟩
  · rw [hedit]
    rfl
  · rw [hedit]
    rfl
  · rw [hedit]
    simp only [ClusterMetadata.edit, ClusterMetadata.editShard]
    split <;> rfl

theorem led_ensure_leader (h : world.metadata.Valid) :
    wp (ensureLeader shardId) (fun _ => Led world) (fun _ w => w.metadata.Valid) world := by
  simp only [ensureLeader, wp_bind, wp_read]
  have hrest : ∀ state reached, Quiet world reached → wp
      (if Option.map ReplicaState.term state = some (world.metadata.shards shardId).term then
        pure () else electLeader shardId) (fun _ => Led world) (fun _ w => w.metadata.Valid)
      reached := by
    intro state reached hquiet
    rw [wp_ite]
    refine ⟨fun _ => .of_eq h hquiet.metadata, fun _ => ?_⟩
    refine wp_mono (led_elect_leader (hquiet.metadata ▸ h)) ?_ fun _ _ hw => hw
    intro _ w hw
    exact ⟨hw.valid, hquiet.metadata ▸ hw.table, hquiet.metadata ▸ hw.shardCount,
      hquiet.metadata ▸ hw.logs⟩
  exact wp_attempt (wp_mono quiet_status (fun state reached hw => hrest (some state) reached hw)
    fun _ reached hw => ⟨hrest none reached hw, hw.metadata ▸ h⟩)

/-! ## Writes -/

/-- `_commit_prepared`, at an index within the log. -/
theorem valid_commit_prepared {entry : ReplicatedEntry} {checksum : Nat}
    (h : world.metadata.Valid)
    (hindex : entry.index ≤ (world.metadata.shards entry.shardId).lastLogIndex) :
    wp (commitPrepared requestId entry checksum) (fun _ w => w.metadata.Valid)
      (fun _ w => w.metadata.Valid) world := by
  simp only [commitPrepared, wp_bind, wp_read, wp_ensure, wp_pure]
  refine wp_mono (wp_collect_inv (fun w => w.metadata = world.metadata) _ ?_ rfl) ?_
    fun _ w (hw : w.metadata = world.metadata) => hw ▸ h
  · intro name _ reached hreached
    simp only [sendCommit, wp_bind, wp_pure]
    refine wp_attempt ?_
    simp only [wp_bind, wp_lift]
    refine ⟨fun _ _ => ?_, fun _ _ => ⟨hreached, hreached⟩⟩
    refine wp_mono metadata_rpc (fun _ w hw => hw.trans hreached) fun _ w hw => ?_
    exact ⟨hw.trans hreached, hw.trans hreached⟩
  · intro committed sent hsent
    have hvalid : sent.metadata.Valid := hsent ▸ h
    refine ⟨fun _ => ?_, fun _ => hvalid⟩
    refine wp_mono (valid_publish hvalid ?_) (fun _ _ hw => hw.2) fun _ _ hw => hw
    show entry.index ≤ (sent.metadata.shards entry.shardId).lastLogIndex
    rw [hsent]
    exact hindex

/-- A write finds its request recorded as prepared under its own checksum, with an index beyond
the log of the shard its point routes to. -/
def Overruns (metadata : ClusterMetadata) (requestId : RequestId) (mutation : Json) : Prop :=
  match metadata.requestTable requestId, mutationId mutation with
  | some record, .ok pointId => record.status = .prepared ∧
      payloadChecksum mutation = .ok record.checksum ∧
      (metadata.shards (metadata.route pointId)).lastLogIndex < record.index
  | _, _ => False

instance (metadata : ClusterMetadata) (requestId : RequestId) (mutation : Json) :
    Decidable (Overruns metadata requestId mutation) :=
  match hrecord : metadata.requestTable requestId, hid : mutationId mutation with
  | some record, .ok pointId =>
      decidable_of_iff (record.status = .prepared ∧ payloadChecksum mutation = .ok record.checksum ∧
        (metadata.shards (metadata.route pointId)).lastLogIndex < record.index)
        (by rw [Overruns, hrecord, hid])
  | none, _ => .isFalse (by rw [Overruns, hrecord]; exact id)
  | some _, .error _ => .isFalse (by rw [Overruns, hrecord, hid]; exact id)

/-- The branch of `_write` for a request in the table. -/
theorem valid_write_again {record : RequestRecord} (h : world.metadata.Valid)
    (hindex : record.status = .prepared → record.checksum = checksumOf mutation →
      record.index ≤ (world.metadata.shards shardId).lastLogIndex) :
    wp (writeAgain requestId mutation shardId record) (fun _ w => w.metadata.Valid)
      (fun _ w => w.metadata.Valid) world := by
  simp only [writeAgain, wp_bind, wp_ensure]
  refine ⟨fun hchecksum => ?_, fun _ => h⟩
  cases hstatus : record.status with
  | committed =>
      simp only [noteRetry, wp_bind, wp_update, wp_pure]
      exact h
  | prepared =>
      simp only [wp_bind]
      refine wp_mono (led_ensure_leader h) ?_ fun _ _ hw => hw
      intro _ led hled
      simp only [noteRetry, wp_update, wp_read]
      refine valid_commit_prepared hled.valid ?_
      show record.index ≤ (led.metadata.shards shardId).lastLogIndex
      rw [hled.logs]
      exact hindex hstatus hchecksum

/-- Allocating an index and preparing an entry there. -/
theorem valid_prepare_next (h : world.metadata.Valid) :
    wp (prepareNext requestId mutation shardId)
      (fun result w => w.metadata.Valid ∧
        w.metadata.requestTable = world.metadata.requestTable ∧
        result.1.index ≤ (w.metadata.shards result.1.shardId).lastLogIndex)
      (fun _ w => w.metadata.Valid) world := by
  simp only [prepareNext, wp_bind, wp_read, wp_pure]
  refine wp_mono (valid_publish h trivial) ?_ fun _ _ hw => hw
  intro _ allocated hallocated
  obtain ⟨hmetadata, hvalid⟩ := hallocated
  refine wp_mono (wp_collect_inv (fun w => w.metadata = allocated.metadata) _ ?_ rfl) ?_
    fun _ w (hw : w.metadata = allocated.metadata) => hw ▸ hvalid
  · intro name _ reached hreached
    simp only [sendPrepare, wp_bind, wp_pure]
    refine wp_attempt ?_
    simp only [wp_bind, wp_lift]
    refine ⟨fun _ _ => ?_, fun _ _ => ⟨hreached, hreached⟩⟩
    refine wp_mono metadata_rpc (fun _ w hw => hw.trans hreached) fun _ w hw => ?_
    exact ⟨hw.trans hreached, hw.trans hreached⟩
  · intro prepared w hw
    refine ⟨hw ▸ hvalid, ?_, ?_⟩
    · rw [hw, hmetadata]
      rfl
    · rw [hw]
      exact le_rfl

theorem valid_commit_fresh {entry : ReplicatedEntry} {prepared : List String}
    (h : world.metadata.Valid)
    (hindex : entry.index ≤ (world.metadata.shards entry.shardId).lastLogIndex) :
    wp (commitFresh requestId entry prepared) (fun _ w => w.metadata.Valid)
      (fun _ w => w.metadata.Valid) world := by
  simp only [commitFresh, wp_bind, wp_read, wp_ensure]
  refine ⟨fun _ => ?_, fun _ => h⟩
  refine wp_mono (valid_publish h trivial) ?_ fun _ _ hw => hw
  intro _ recorded hrecorded
  obtain ⟨hmetadata, hvalid⟩ := hrecorded
  refine valid_commit_prepared hvalid ?_
  rw [hmetadata]
  exact hindex

/-- One round of `_write`. -/
theorem valid_write_once {leaderFailed : Nat → ClusterM CommitResult}
    (hconvertible : convertible mutation = true)
    (h : world.metadata.Valid) (hretry : ¬ Overruns world.metadata requestId mutation)
    (hfailed : ∀ shardId reached, reached.metadata.Valid →
      reached.metadata.requestTable requestId = none →
      wp (leaderFailed shardId) (fun _ w => w.metadata.Valid) (fun _ w => w.metadata.Valid)
        reached) :
    wp (writeOnce requestId mutation leaderFailed) (fun _ w => w.metadata.Valid)
      (fun _ w => w.metadata.Valid) world := by
  simp only [writeOnce, ensureOpen, wp_bind, wp_read, wp_ensure, wp_lift]
  refine ⟨fun _ => ⟨fun pointId hid => ?_, fun _ _ => h⟩, fun _ => h⟩
  cases hrecord : world.metadata.requestTable requestId with
  | some record =>
      refine valid_write_again h fun hstatus hchecksum => ?_
      by_contra hbeyond
      rw [Overruns, hrecord, hid] at hretry
      exact hretry ⟨hstatus, payload_checksum_ok.2 ⟨hconvertible, hchecksum.symm⟩,
        Nat.lt_of_not_le hbeyond⟩
  | none =>
      simp only [wp_bind, wp_read]
      refine wp_mono (led_ensure_leader h) ?_ fun _ _ hw => hw
      intro _ led hled
      refine wp_mono (valid_prepare_next hled.valid) ?_ fun _ _ hw => hw
      intro result reached hreached
      obtain ⟨hvalid, htable, hindex⟩ := hreached
      rw [wp_ite]
      refine ⟨fun _ => valid_commit_fresh hvalid hindex, fun _ => hfailed _ _ hvalid ?_⟩
      rw [htable, hled.table]
      exact hrecord

theorem valid_write_retrying (retries : Nat) (hconvertible : convertible mutation = true)
    (h : world.metadata.Valid)
    (hretry : ¬ Overruns world.metadata requestId mutation) :
    wp (writeRetrying requestId mutation retries) (fun _ w => w.metadata.Valid)
      (fun _ w => w.metadata.Valid) world := by
  induction retries generalizing world with
  | zero => exact valid_write_once hconvertible h hretry fun _ _ hreached _ => hreached
  | succ retries ih =>
      refine valid_write_once hconvertible h hretry fun shardId reached hreached hnew => ?_
      simp only [wp_bind]
      refine wp_mono (led_elect_leader hreached) ?_ fun _ _ hw => hw
      intro _ led hled
      refine ih hled.valid ?_
      -- A request that is not recorded cannot overrun.
      rw [Overruns, hled.table, hnew]
      exact id

theorem valid_write (h : world.metadata.Valid)
    (hretry : ¬ Overruns world.metadata requestId mutation) :
    wp (write requestId mutation) (fun _ w => w.metadata.Valid) (fun _ w => w.metadata.Valid)
      world :=
  wp_write (fun _ => h) fun hconvertible => valid_write_retrying 2 hconvertible h hretry

/-! ## Changes of the node set -/

variable {name : String}

theorem valid_restart_node (h : world.metadata.Valid) :
    wp (restartNode name) (fun _ w => w.metadata.Valid) (fun _ w => w.metadata.Valid) world := by
  simp only [restartNode, ensureMember, wp_bind, wp_read, wp_ensure, wp_update]
  refine ⟨fun _ => ⟨fun _ => ?_, fun _ => h⟩, fun _ => h⟩
  refine wp_mono (valid_publish h trivial) ?_ fun _ _ hw => hw
  intro _ published hpublished
  refine valid_of_quiet hpublished.2 (wp_for_each_inv (Quiet published) _ ?_ (.refl published))
  exact fun _ _ _ hreached => hreached.before quiet_rejoin_shard

/-- `rebalance_add_replica`. -/
theorem valid_rebalance (h : world.metadata.Valid) :
    wp (rebalanceAddReplica shardId name) (fun _ w => w.metadata.Valid)
      (fun _ w => w.metadata.Valid) world := by
  simp only [rebalanceAddReplica, wp_bind, wp_read, wp_ensure, wp_ite, wp_pure]
  refine ⟨fun _ => ⟨fun _ => h, fun hnew => ?_⟩, fun _ => h⟩
  simp only [addReplica, wp_bind, wp_read, wp_ensure]
  refine ⟨fun hmember => ?_, fun _ => h⟩
  refine wp_mono (quiet_install_on hnew) ?_ fun _ w hw => hw.metadata ▸ h
  intro _ installed hinstalled
  obtain ⟨hquiet, -⟩ := hinstalled
  have hallows : installed.metadata.Allows (.addReplica shardId name
      ((world.metadata.shards shardId).placementEpoch + 1)) := by
    rw [hquiet.metadata]
    exact ⟨hnew, hmember.1, Nat.succ_pos _⟩
  refine wp_mono (valid_publish (hquiet.metadata ▸ h) hallows) ?_ fun _ _ hw => hw
  intro _ added hadded
  obtain ⟨hmetadata, hvalid⟩ := hadded
  refine valid_of_quiet hvalid (quiet_configure_each fun replica hreplica => ?_)
  rw [hmetadata, hquiet.metadata]
  simpa [ClusterMetadata.edit, ClusterMetadata.editShard] using hreplica

theorem valid_construct {options : Options} :
    wp (construct options) (fun _ w => w.metadata.Valid) (fun _ _ => True) world := by
  rw [construct]
  simp only [wp_bind, wp_ensure, wp_update, wp_read, wp_lift, publishFirst]
  refine ⟨fun _ => ⟨fun _ => ⟨fun metadata hmetadata => ?_, fun _ _ => trivial⟩,
    fun _ => trivial⟩, fun _ => trivial⟩
  refine wp_mono (wp_next_fault (E := fun _ _ => True)) ?_ fun _ _ _ => trivial
  intro fault reached _
  refine ⟨fun _ => ⟨fun _ hvalid => ⟨fun _ => ?_, fun _ => trivial⟩, fun _ _ => trivial⟩,
    fun _ => trivial⟩
  have hstarted := valid_of_quiet (ClusterMetadata.validate_ok.1 hvalid)
    (@quiet_start_up _ { reached with metadata, published := some metadata, up := true }
      metadata.shardOrder)
  rw [wp_bind] at hstarted
  exact wp_mono hstarted (fun _ _ hw => wp_mono hw (fun _ _ hw => hw) fun _ _ _ => trivial)
    fun _ _ _ => trivial

end

/-! ## Runs -/

section

variable [FloatRepr] {ρ : Type} {answer : PointMap → Except String ρ} {world : World}

/-- The metadata of a coordinator that is up is valid. -/
def Publishable (world : World) : Prop :=
  world.up = true → world.metadata.Valid

/-- The call is a write that overruns the log of its shard, on an open coordinator. -/
def World.Overruns (world : World) : ClusterCall → Prop
  | .write requestId mutation => world.up = true ∧ world.closed = false ∧
      Distributed.Overruns world.metadata requestId mutation
  | _ => False

instance (world : World) (call : ClusterCall) : Decidable (world.Overruns call) :=
  match call with
  | .write requestId mutation => inferInstanceAs (Decidable (world.up = true ∧
      world.closed = false ∧ Distributed.Overruns world.metadata requestId mutation))
  | .construct _ | .get _ | .search | .catchUp _ _ | .stopNode _ | .restartNode _
  | .partitionNode _ _ | .rebalanceAddReplica _ _ | .close | .crash => .isFalse id

/-- No call of the run overruns the log of its shard in the state it is made in. -/
def World.StaysWithinLogs (answer : PointMap → Except String ρ) :
    World → List (ClusterCall × List Fault) → Prop
  | _, [] => True
  | world, (call, faults) :: calls =>
      ¬ world.Overruns call ∧ StaysWithinLogs answer (world.call answer call faults) calls

instance decidableStaysWithinLogs (answer : PointMap → Except String ρ) :
    ∀ (world : World) (calls : List (ClusterCall × List Fault)),
      Decidable (World.StaysWithinLogs answer world calls)
  | _, [] => .isTrue trivial
  | world, (call, faults) :: calls =>
      have := decidableStaysWithinLogs answer (world.call answer call faults) calls
      inferInstanceAs (Decidable (¬ world.Overruns call ∧
        World.StaysWithinLogs answer (world.call answer call faults) calls))

omit [FloatRepr] in
theorem publishable_after_call {α : Type} {x : ClusterM α}
    (h : wp x (fun _ w => w.metadata.Valid) (fun _ w => w.metadata.Valid) world) :
    Publishable (World.afterCall (x world)) := by
  unfold wp at h
  cases hx : x world with
  | mk result w =>
      rw [hx] at h
      cases result with
      | ok a => exact fun _ => h
      | error e =>
          cases e with
          | crash => exact fun hup => by cases hup
          | _ => exact fun _ => h

theorem publishable_after_construct {options : Options} :
    Publishable (.afterConstruct (construct options world)) := by
  have h := @valid_construct _ world options
  unfold wp at h
  cases hx : construct options world with
  | mk result w =>
      rw [hx] at h
      cases result with
      | ok a => exact fun _ => h
      | error e => exact fun hup => by cases hup

theorem write_closed {requestId : RequestId} {mutation : Json} (hclosed : world.closed = true)
    (h : world.metadata.Valid) :
    wp (write requestId mutation) (fun _ w => w.metadata.Valid) (fun _ w => w.metadata.Valid)
      world := by
  simp only [write, ensureOpen, wp_bind, wp_read, wp_ensure]
  exact ⟨fun hopen => absurd hclosed hopen, fun _ => h⟩

/-- A call on a coordinator with valid metadata. -/
theorem publishable_method (hup : world.up = true) (h : world.metadata.Valid)
    {call : ClusterCall} (hwithin : ¬ world.Overruns call) :
    Publishable (World.method answer world call) := by
  cases call with
  | construct options => exact fun _ => h
  | write requestId mutation =>
      refine publishable_after_call ?_
      cases hclosed : world.closed with
      | true => exact write_closed hclosed h
      | false => exact valid_write h fun hoverruns => hwithin ⟨hup, hclosed, hoverruns⟩
  | get pointId => exact publishable_after_call (valid_of_quiet h quiet_get)
  | search => exact publishable_after_call (valid_of_quiet h quiet_search)
  | catchUp name shardId => exact publishable_after_call (valid_of_quiet h quiet_catch_up)
  | stopNode name =>
      refine publishable_after_call ?_
      simp only [stopNode, ensureMember, wp_bind, wp_read, wp_ensure, wp_update]
      exact ⟨fun _ => h, fun _ => h⟩
  | restartNode name => exact publishable_after_call (valid_restart_node h)
  | partitionNode name enabled =>
      refine publishable_after_call ?_
      simp only [partitionNode, ensureMember, wp_bind, wp_read, wp_ensure]
      exact ⟨fun _ => valid_of_quiet h quiet_partition, fun _ => h⟩
  | rebalanceAddReplica shardId name => exact publishable_after_call (valid_rebalance h)
  | close =>
      refine publishable_after_call ?_
      rw [close, wp_update]
      split <;> exact h
  | crash => exact fun hup => by cases hup

theorem publishable_call (h : Publishable world) {call : ClusterCall} (faults : List Fault)
    (hwithin : ¬ world.Overruns call) : Publishable (world.call answer call faults) := by
  cases call with
  | construct options =>
      simp only [World.call]
      split
      · exact h
      · exact publishable_after_construct
  | _ =>
      simp only [World.call]
      split
      · next hup =>
          refine publishable_method ?_ ?_ ?_
          exacts [hup, h hup, hwithin]
      · exact h

theorem run_valid {calls : List (ClusterCall × List Fault)} (h : Publishable world)
    (hwithin : World.StaysWithinLogs answer world calls) :
    Publishable (World.run answer world calls) := by
  induction calls generalizing world with
  | nil => exact h
  | cons first calls ih => exact ih (publishable_call h first.2 hwithin.1) hwithin.2

end

end Akasha.Distributed
